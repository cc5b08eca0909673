/-
# Ranges of a buffer and little-endian numbers

A buffer is a function from offsets to values.  `extract` reads a range as a list and
`overwrite` puts a list over one; a read of the overwritten range gives the list back
(`extract_overwrite`), a read of a range apart from it what was there before
(`extract_overwrite_of_apart`), and a range written back with a part of it changed is a write of
that part (`overwrite_inside`).  `toLe` and `ofLe` are the little-endian bytes of a number
and back (`ofLe_toLe`).
-/

import Mathlib.Data.List.Range
import Mathlib.Tactic.Common
import Mathlib.Algebra.Order.Ring.Nat

namespace Abdb
namespace Lib

section Ranges

variable {α : Type*} {b : ℕ → α} {o o' n m : ℕ} {l l' : List α}

/-- The `n` values from offset `o` on. -/
def extract (b : ℕ → α) (o n : ℕ) : List α := (List.range' o n).map b

/-- The values of a list, put over the buffer from offset `o` on. -/
def overwrite (b : ℕ → α) (o : ℕ) (l : List α) : ℕ → α := fun i =>
  if i < o then b i else (l[i - o]?).getD (b i)

/-- Two ranges, by offset and length, do not meet. -/
abbrev Apart (o n o' n' : ℕ) : Prop := o + n ≤ o' ∨ o' + n' ≤ o

@[simp] theorem length_extract : (extract b o n).length = n := by simp [extract]

theorem getElem?_extract (i : ℕ) : (extract b o n)[i]? = if i < n then some (b (o + i)) else none := by
  by_cases h : i < n
  · rw [extract, List.getElem?_map, List.getElem?_range' h, if_pos h, Nat.one_mul, Option.map_some]
  · rw [if_neg h, List.getElem?_eq_none (by rw [length_extract]; omega)]

theorem extract_congr {b' : ℕ → α} (h : ∀ i, o ≤ i → i < o + n → b i = b' i) :
    extract b o n = extract b' o n := by
  refine List.map_congr_left fun i hi => ?_
  obtain ⟨h₁, h₂⟩ := List.mem_range'_1.1 hi
  exact h i h₁ h₂

/-- A range cut in two. -/
theorem extract_add : extract b o (n + m) = extract b o n ++ extract b (o + n) m := by
  rw [extract, ← List.range'_append_1, List.map_append]
  rfl

theorem overwrite_of_lt {i : ℕ} (h : i < o) : overwrite b o l i = b i := if_pos h

theorem overwrite_of_le {i : ℕ} (h : o + l.length ≤ i) : overwrite b o l i = b i := by
  rw [overwrite, if_neg (by omega), List.getElem?_eq_none (by omega), Option.getD_none]

theorem overwrite_add {i : ℕ} (h : i < l.length) : overwrite b o l (o + i) = l[i] := by
  rw [overwrite, if_neg (by omega), Nat.add_sub_cancel_left, List.getElem?_eq_getElem h,
    Option.getD_some]

/-- **A read of what was written.** -/
theorem extract_overwrite (h : n = l.length) : extract (overwrite b o l) o n = l := by
  refine List.ext_getElem (by simp [h]) fun i h₁ h₂ => ?_
  rw [← Option.some_inj, ← List.getElem?_eq_getElem, getElem?_extract, if_pos (by omega),
    overwrite_add h₂]

/-- **A read of a range apart from the written one.** -/
theorem extract_overwrite_of_apart (h : Apart o' n o l.length) :
    extract (overwrite b o l) o' n = extract b o' n := by
  refine extract_congr fun i h₁ h₂ => ?_
  rcases h with h | h
  · exact overwrite_of_lt (by omega)
  · exact overwrite_of_le (by omega)

/-- A read of a range with the written one inside it. -/
theorem extract_overwrite_inside {xs ys zs : List α} (h : extract b o n = xs ++ ys ++ zs)
    (hl : l.length = ys.length) :
    extract (overwrite b (o + xs.length) l) o n = xs ++ l ++ zs := by
  have hn : n = xs.length + l.length + zs.length := by
    have := congrArg List.length h
    simp only [length_extract, List.length_append] at this
    omega
  rw [hn, extract_add, extract_add] at h
  obtain ⟨hxy, hz⟩ := List.append_inj h (by simp [hl])
  obtain ⟨hx, -⟩ := List.append_inj hxy (by simp)
  rw [hn, extract_add, extract_add, extract_overwrite_of_apart (Or.inl le_rfl), hx,
    extract_overwrite rfl, extract_overwrite_of_apart (Or.inr (by omega)), hz]

/-- **A read inside a range that was copied.** -/
theorem extract_overwrite_extract {k : ℕ} (h : k + m ≤ n) :
    extract (overwrite b o' (extract b o n)) (o' + k) m = extract b (o + k) m := by
  refine List.ext_getElem? fun i => ?_
  rw [getElem?_extract, getElem?_extract]
  by_cases hi : i < m
  · have hlt : k + i < (extract b o n).length := by
      rw [length_extract]
      omega
    have hget := getElem?_extract (b := b) (o := o) (n := n) (k + i)
    rw [List.getElem?_eq_getElem hlt, if_pos (by omega)] at hget
    rw [if_pos hi, if_pos hi, Nat.add_assoc, overwrite_add hlt, Option.some.inj hget, Nat.add_assoc]
  · rw [if_neg hi, if_neg hi]

theorem overwrite_append {l l' : List α} :
    overwrite b o (l ++ l') = overwrite (overwrite b o l) (o + l.length) l' := by
  funext i
  rcases lt_or_ge i (o + l.length) with h | h
  · rw [overwrite_of_lt h]
    rcases lt_or_ge i o with ho | ho
    · rw [overwrite_of_lt ho, overwrite_of_lt ho]
    · rw [overwrite, overwrite, if_neg ho.not_gt, if_neg ho.not_gt, List.getElem?_append_left (by omega)]
  · rw [overwrite, overwrite, if_neg (by omega), if_neg (by omega), List.getElem?_append_right (by omega),
      overwrite_of_le h, Nat.sub_sub]

/-- Writing back what was read changes nothing. -/
theorem overwrite_extract : overwrite b o (extract b o n) = b := by
  funext i
  rw [overwrite]
  split_ifs with h
  · rfl
  · rw [getElem?_extract]
    split_ifs
    · rw [Nat.add_sub_cancel' (not_lt.1 h), Option.getD_some]
    · rfl

/-- **A range written back with a part of it changed** is a write of that part. -/
theorem overwrite_inside : overwrite b o (extract b o n ++ l ++ extract b (o + n + l.length) m) =
    overwrite b (o + n) l := by
  have hrest : extract b (o + n + l.length) m = extract (overwrite b (o + n) l) (o + n + l.length) m :=
    (extract_overwrite_of_apart (Or.inr le_rfl)).symm
  rw [overwrite_append, overwrite_append, overwrite_extract, length_extract, List.length_append,
    length_extract, ← Nat.add_assoc, hrest, overwrite_extract]

end Ranges

/-! ### Little-endian numbers -/

/-- The `n` little-endian bytes of a number. -/
def toLe : ℕ → ℕ → List UInt8
  | 0, _ => []
  | n + 1, v => UInt8.ofNat v :: toLe n (v / 256)

/-- The number of little-endian bytes. -/
def ofLe (l : List UInt8) : ℕ := l.foldr (fun b acc => b.toNat + 256 * acc) 0

@[simp] theorem length_toLe (n v : ℕ) : (toLe n v).length = n := by
  induction n generalizing v with
  | zero => rfl
  | succ n ih => rw [toLe, List.length_cons, ih]

theorem ofLe_toLe_mod (n v : ℕ) : ofLe (toLe n v) = v % 256 ^ n := by
  induction n generalizing v with
  | zero => rw [Nat.pow_zero, Nat.mod_one]; rfl
  | succ n ih =>
    have hstep : ofLe (toLe (n + 1) v) = v % 256 + 256 * ofLe (toLe n (v / 256)) := by
      show (UInt8.ofNat v).toNat + _ = _
      rw [UInt8.toNat_ofNat']
      rfl
    rw [hstep, ih, Nat.pow_succ', Nat.mod_mul]

/-- **The bytes of a number that fits give it back.** -/
theorem ofLe_toLe {n v : ℕ} (h : v < 256 ^ n) : ofLe (toLe n v) = v := by
  rw [ofLe_toLe_mod, Nat.mod_eq_of_lt h]

theorem toLe_ofLe (l : List UInt8) : toLe l.length (ofLe l) = l := by
  induction l with
  | nil => rfl
  | cons b l ih =>
    have hb := b.toNat_lt
    have hcons : ofLe (b :: l) = b.toNat + 256 * ofLe l := rfl
    have hdiv : (b.toNat + 256 * ofLe l) / 256 = ofLe l := by omega
    have hbyte : UInt8.ofNat (b.toNat + 256 * ofLe l) = b := by
      refine UInt8.toNat_inj.1 ?_
      rw [UInt8.toNat_ofNat']
      omega
    rw [List.length_cons, toLe, hcons, hdiv, hbyte, ih]

theorem ofLe_append (l l' : List UInt8) : ofLe (l ++ l') = ofLe l + 256 ^ l.length * ofLe l' := by
  induction l with
  | nil =>
    rw [List.nil_append, List.length_nil, Nat.pow_zero, Nat.one_mul]
    exact (Nat.zero_add _).symm
  | cons x l ih =>
    show x.toNat + 256 * ofLe (l ++ l') = x.toNat + 256 * ofLe l + 256 ^ (l.length + 1) * ofLe l'
    rw [ih, Nat.pow_succ', Nat.mul_add, Nat.mul_assoc, Nat.add_assoc]

theorem ofLe_lt (l : List UInt8) : ofLe l < 256 ^ l.length := by
  induction l with
  | nil => exact Nat.one_pos
  | cons b l ih =>
    have hb := b.toNat_lt
    show b.toNat + 256 * ofLe l < _
    rw [List.length_cons, Nat.pow_succ]
    omega

end Lib
end Abdb
