/-
# Binary search over indices that cannot all be read

`bsearchOn` is the three-way binary search of `Abdb.Lib.Search` with a comparison that may
fail, and with it the search.  Where every index of the window can be read it is that search
(`bsearchOn_eq`).  Where only the indices below a capacity can, it fails unless the window
ends there or one of the indices that it visits on its way to the right sends it elsewhere
(`bsearchOn_isSome_iff`): these are `n - (n + 1) / 2`, `n - (n + 1) / 4` and so on.
-/

import Mathlib.Algebra.Order.Ring.Nat
import Abdb.Lib.Search

namespace Abdb
namespace Lib

/-- Three-way binary search whose comparison may fail. -/
def bsearchOn (cmp : ℕ → Option Ordering) : ℕ → ℕ → ℕ → Option (Bool × ℕ)
  | 0, left, _ => some (false, left)
  | fuel + 1, left, right =>
    if left < right then
      let mid := left + (right - left) / 2
      match cmp mid with
      | none => none
      | some .eq => some (true, mid)
      | some .lt => bsearchOn cmp fuel (mid + 1) right
      | some .gt => bsearchOn cmp fuel left mid
    else some (false, left)

/-- Of the first `n` indices, those below the capacity can be compared, as `c` does it. -/
structure ReadableBelow (cmp : ℕ → Option Ordering) (c : ℕ → Ordering) (cap n : ℕ) : Prop where
  below : ∀ i < cap, i < n → cmp i = some (c i)
  above : ∀ i, cap ≤ i → cmp i = none

/-- Some index on the way to the right can be read and does not send the search on to the
right. -/
def TurnsLeft (c : ℕ → Ordering) (cap left right : ℕ) : Prop :=
  ∃ j : ℕ, right - (right - left + 1) / 2 ^ (j + 1) < cap ∧
    c (right - (right - left + 1) / 2 ^ (j + 1)) ≠ .lt

variable {cmp : ℕ → Option Ordering} {c : ℕ → Ordering} {cap fuel left right n p : ℕ}

/-- **Where all indices can be read** the search is the plain one. -/
theorem bsearchOn_eq (h : ∀ i < right, cmp i = some (c i)) :
    bsearchOn cmp fuel left right = some (bsearch c fuel left right) := by
  induction fuel generalizing left right with
  | zero => rfl
  | succ fuel ih =>
    rw [bsearchOn, bsearch]
    split_ifs with hlt
    · dsimp only
      rw [h _ (by omega)]
      cases c (left + (right - left) / 2) with
      | eq => rfl
      | lt => exact ih h
      | gt => exact ih fun i hi => h i (by omega)
    · rfl

/-- The plain search looks at the window only. -/
theorem bsearch_congr {c' : ℕ → Ordering} (h : ∀ i < right, c i = c' i) :
    bsearch c fuel left right = bsearch c' fuel left right := by
  have hc : bsearchOn (fun i => some (c i)) fuel left right = some (bsearch c fuel left right) :=
    bsearchOn_eq fun _ _ => rfl
  rw [bsearchOn_eq fun i hi => congrArg some (h i hi)] at hc
  exact (Option.some.inj hc).symm

/-- An entry that is found has been read. -/
theorem bsearchOn_found (h : bsearchOn cmp fuel left right = some (true, p)) : cmp p = some .eq := by
  induction fuel generalizing left right with
  | zero => cases h
  | succ fuel ih =>
    rw [bsearchOn] at h
    split_ifs at h
    · dsimp only at h
      split at h
      · cases h
      · rename_i heq
        cases h
        exact heq
      · exact ih h
      · exact ih h
    · cases h

/-- The first index on the way to the right is the middle, and the others are those of the right
half. -/
theorem turnsLeft_iff (hlt : left < right) : TurnsLeft c cap left right ↔
    (left + (right - left) / 2 < cap ∧ c (left + (right - left) / 2) ≠ .lt) ∨
      TurnsLeft c cap (left + (right - left) / 2 + 1) right := by
  have hmid : right - (right - left + 1) / 2 ^ (0 + 1) = left + (right - left) / 2 := by
    rw [Nat.zero_add, Nat.pow_one]
    omega
  have hhalf : right - (left + (right - left) / 2 + 1) + 1 = (right - left + 1) / 2 := by omega
  have hnext : ∀ j, (right - (left + (right - left) / 2 + 1) + 1) / 2 ^ (j + 1) =
      (right - left + 1) / 2 ^ (j + 1 + 1) := by
    intro j
    rw [hhalf, Nat.div_div_eq_div_mul, ← Nat.pow_succ']
  constructor
  · rintro ⟨j, hj⟩
    cases j with
    | zero =>
      rw [hmid] at hj
      exact Or.inl hj
    | succ j =>
      rw [← hnext] at hj
      exact Or.inr ⟨j, hj⟩
  · rintro (h | ⟨j, hj⟩)
    · rw [← hmid] at h
      exact ⟨0, h⟩
    · rw [hnext] at hj
      exact ⟨j + 1, hj⟩

/-- On the way to the right the indices grow. -/
theorem not_turnsLeft (hlt : left < right) (hcap : cap ≤ left + (right - left) / 2) :
    ¬ TurnsLeft c cap left right := by
  rintro ⟨j, hj, -⟩
  have hle : (right - left + 1) / 2 ^ (j + 1) ≤ (right - left + 1) / 2 := by
    refine Nat.div_le_div_left ?_ (by decide)
    calc 2 = 2 ^ 1 := rfl
      _ ≤ 2 ^ (j + 1) := Nat.pow_le_pow_right (by decide) (by omega)
  omega

/-- **When the search succeeds.** -/
theorem bsearchOn_isSome_iff (h : ReadableBelow cmp c cap n) (hn : right ≤ n)
    (hf : right - left ≤ fuel) (hwindow : left < right ∨ right ≤ cap) :
    (bsearchOn cmp fuel left right).isSome = true ↔ right ≤ cap ∨ TurnsLeft c cap left right := by
  -- a window of indices that can be read
  have hin : ∀ {fuel left right : ℕ}, right ≤ cap → right ≤ n →
      (bsearchOn cmp fuel left right).isSome = true := by
    intro fuel left right hle hn
    rw [bsearchOn_eq fun i hi => h.below i (by omega) (by omega)]
    rfl
  by_cases hle : right ≤ cap
  · exact iff_of_true (hin hle hn) (Or.inl hle)
  rw [or_iff_right hle]
  have hlt : left < right := hwindow.resolve_right hle
  induction fuel generalizing left with
  | zero => omega
  | succ fuel ih =>
    rw [bsearchOn, if_pos hlt, turnsLeft_iff hlt]
    dsimp only
    rcases Nat.lt_or_ge (left + (right - left) / 2) cap with hmid | hmid
    · rw [h.below _ hmid (by omega)]
      cases hc : c (left + (right - left) / 2) with
      | eq => exact iff_of_true rfl (Or.inl ⟨hmid, nofun⟩)
      | gt => exact iff_of_true (hin (by omega) (by omega)) (Or.inl ⟨hmid, nofun⟩)
      | lt =>
        have hlt' : left + (right - left) / 2 + 1 < right := by omega
        rw [or_iff_right fun hne => hne.2 rfl]
        exact ih (by omega) (Or.inl hlt') hlt'
    · rw [h.above _ hmid]
      refine iff_of_false nofun ?_
      rintro (⟨hlt', -⟩ | hturns)
      · omega
      · exact not_turnsLeft hlt hmid ((turnsLeft_iff hlt).2 (Or.inr hturns))

end Lib
end Abdb
