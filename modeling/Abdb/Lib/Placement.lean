/-
# Fields one after another

A list of fields is placed in a buffer from an offset on, each at the next multiple of its alignment
(`placed`), up to an end (`placedEnd`).  Each field is aligned and lies between the start and the end
(`dvd_of_placed`, `placed_bounds`), and no two of them meet (`placed_ordered`).
-/

import Mathlib.Algebra.Order.Ring.Nat
import Mathlib.Tactic.Common

namespace Abdb
namespace Lib

/-- An offset with the padding to the next multiple of an alignment. -/
def alignUp (n a : ℕ) : ℕ := n + (a - n % a) % a

theorem le_alignUp {n a : ℕ} : n ≤ alignUp n a := Nat.le_add_right _ _

theorem dvd_alignUp {n a : ℕ} (ha : 0 < a) : a ∣ alignUp n a := by
  have hr := Nat.mod_lt n ha
  rw [alignUp, Nat.dvd_iff_mod_eq_zero]
  rcases Nat.eq_zero_or_pos (n % a) with hzero | hpos
  · rw [hzero, Nat.sub_zero, Nat.mod_self, Nat.add_zero, hzero]
  · rw [Nat.mod_eq_of_lt (Nat.sub_lt ha hpos), Nat.add_mod, Nat.mod_eq_of_lt (Nat.sub_lt ha hpos),
      Nat.add_sub_cancel' hr.le, Nat.mod_self]

section Placement

variable {α : Type*} (size align : α → ℕ)

/-- The fields with their offsets. -/
def placed : ℕ → List α → List (α × ℕ)
  | _, [] => []
  | n, x :: l => (x, alignUp n (align x)) :: placed (alignUp n (align x) + size x) l

/-- The end of the last field. -/
def placedEnd : ℕ → List α → ℕ
  | n, [] => n
  | n, x :: l => placedEnd (alignUp n (align x) + size x) l

variable {size align} {n : ℕ} {l : List α} {p : α × ℕ}

theorem le_placedEnd : n ≤ placedEnd size align n l := by
  induction l generalizing n with
  | nil => exact le_rfl
  | cons x l ih => exact le_alignUp.trans ((Nat.le_add_right _ _).trans ih)

/-- Fields of at least one byte take a byte each. -/
theorem add_length_le_placedEnd (hsize : ∀ x, 1 ≤ size x) :
    n + l.length ≤ placedEnd size align n l := by
  induction l generalizing n with
  | nil => exact le_rfl
  | cons x l ih =>
    have hstep : n + (l.length + 1) ≤ alignUp n (align x) + size x + l.length := by
      have hle : n ≤ alignUp n (align x) := le_alignUp
      have hone := hsize x
      omega
    exact hstep.trans ih

@[simp]
theorem map_fst_placed : (placed size align n l).map Prod.fst = l := by
  induction l generalizing n with
  | nil => rfl
  | cons x l ih => rw [placed, List.map_cons, ih]

/-- A field of the list has an offset. -/
theorem exists_placed {x : α} (hx : x ∈ l) : ∃ o, (x, o) ∈ placed size align n l := by
  have hmap : (placed size align n l).map Prod.fst = l := map_fst_placed
  rw [← hmap] at hx
  obtain ⟨⟨y, o⟩, hp, rfl⟩ := List.mem_map.1 hx
  exact ⟨o, hp⟩

/-- **Each field is aligned.** -/
theorem dvd_of_placed (halign : ∀ x, 0 < align x) (h : p ∈ placed size align n l) : align p.1 ∣ p.2 := by
  induction l generalizing n with
  | nil => cases h
  | cons x l ih =>
    rcases List.mem_cons.1 h with rfl | h
    · exact dvd_alignUp (halign x)
    · exact ih h

/-- **Each field lies between the start and the end.** -/
theorem placed_bounds (h : p ∈ placed size align n l) :
    n ≤ p.2 ∧ p.2 + size p.1 ≤ placedEnd size align n l := by
  induction l generalizing n with
  | nil => cases h
  | cons x l ih =>
    rcases List.mem_cons.1 h with rfl | h
    · exact ⟨le_alignUp, le_placedEnd⟩
    · obtain ⟨hstart, hend⟩ := ih h
      exact ⟨le_alignUp.trans ((Nat.le_add_right _ _).trans hstart), hend⟩

/-- **Each field ends before the next one starts.** -/
theorem placed_ordered : (placed size align n l).Pairwise fun p q => p.2 + size p.1 ≤ q.2 := by
  induction l generalizing n with
  | nil => exact .nil
  | cons x l ih => exact .cons (fun q hq => (placed_bounds hq).1) ih

/-- Two different fields do not meet. -/
theorem placed_apart {q : α × ℕ} (hp : p ∈ placed size align n l) (hq : q ∈ placed size align n l)
    (hne : p ≠ q) : p.2 + size p.1 ≤ q.2 ∨ q.2 + size q.1 ≤ p.2 := by
  have hordered : (placed size align n l).Pairwise _ := placed_ordered
  obtain ⟨i, hi, rfl⟩ := List.getElem_of_mem hp
  obtain ⟨j, hj, rfl⟩ := List.getElem_of_mem hq
  rw [List.pairwise_iff_getElem] at hordered
  rcases Nat.lt_trichotomy i j with hlt | rfl | hlt
  · exact .inl (hordered i j hi hj hlt)
  · exact absurd rfl hne
  · exact .inr (hordered j i hj hi hlt)

end Placement
end Lib
end Abdb
