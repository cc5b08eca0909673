/-
# The order of values

`PartialOrd for Value` of `src/databox/databox.rs`: values of one type are compared as they are, others
after both are promoted to `f64`, and NULL is below everything.

Integers of one type are so compared exactly.  Integers of two types are compared as what they round to,
which never reverses them but makes equals of different numbers that round alike (`partialCmp_integers`).
So the comparison is a total preorder on the integers of one type and on those of 53 bits, but not on all
of them.
-/

import Abdb.Databox.Cast
import Abdb.Lib.Binary64

namespace Abdb
namespace Value

open Lib.Binary64 (round53)

/-- `partial_cmp`.  Two F32 are compared as what they widen to, which is their order. -/
def partialCmp (ops : FloatOps) : Value → Value → Option Ordering
  | .null, .null => some .eq
  | .null, _ => some .lt
  | _, .null => some .gt
  | .bool a, .bool b => some (compare a b)
  | .i8 a, .i8 b => some (compare a.toInt b.toInt)
  | .i16 a, .i16 b => some (compare a.toInt b.toInt)
  | .i32 a, .i32 b => some (compare a.toInt b.toInt)
  | .i64 a, .i64 b => some (compare a.toInt b.toInt)
  | .u8 a, .u8 b => some (compare a.toNat b.toNat)
  | .u16 a, .u16 b => some (compare a.toNat b.toNat)
  | .u32 a, .u32 b => some (compare a.toNat b.toNat)
  | .u64 a, .u64 b => some (compare a.toNat b.toNat)
  | .f32 a, .f32 b => Lib.Binary64.cmp (ops.widen a) (ops.widen b)
  | .f64 a, .f64 b => Lib.Binary64.cmp a b
  | .string a, .string b => some (compare a b)
  -- cross-type: promote to f64
  | v, w => do
    let a ← v.toF64 ops
    let b ← w.toF64 ops
    Lib.Binary64.cmp a b

/-- Not above, by `partial_cmp`. -/
def NotAbove (ops : FloatOps) (v w : Value) : Prop :=
  v.partialCmp ops w = some .lt ∨ v.partialCmp ops w = some .eq

/-- An integer of at most 53 bits. -/
def Small (v : Value) : Prop := ∃ n, v.number = some n ∧ n.natAbs ≤ 2 ^ 53

variable {ops : FloatOps} {v w : Value} {n m : ℤ}

theorem natAbs_number_lt (hn : v.number = some n) : n.natAbs < 2 ^ 64 := by
  cases v with
  | i8 v | i16 v | i32 v | i64 v =>
    obtain rfl := Option.some_inj.1 hn
    have hle := v.le_toInt
    have hlt := v.toInt_lt
    omega
  | u8 v | u16 v | u32 v | u64 v =>
    obtain rfl := Option.some_inj.1 hn
    have hlt := v.toNat_lt
    omega
  | _ => cases hn

theorem compare_natCast (a b : ℕ) : compare (a : ℤ) (b : ℤ) = compare a b := by
  rcases lt_trichotomy a b with hlt | rfl | hlt
  · rw [compare_lt_iff_lt.2 hlt, compare_lt_iff_lt.2 (by exact_mod_cast hlt)]
  · rw [compare_eq_iff_eq.2 rfl, compare_eq_iff_eq.2 rfl]
  · rw [compare_gt_iff_gt.2 hlt, compare_gt_iff_gt.2 (by exact_mod_cast hlt)]

/-- **Integers of one type are compared exactly.** -/
theorem partialCmp_same (hn : v.number = some n) (hm : w.number = some m) (h : v.dataType = w.dataType) :
    v.partialCmp ops w = some (compare n m) := by
  cases v <;> cases hn <;> cases w <;> cases h <;> cases hm
  case i8 | i16 | i32 | i64 => rfl
  all_goals exact congrArg some (compare_natCast _ _).symm

/-- **Integers of two types are compared as what they round to.** -/
theorem partialCmp_other (hround : ∀ n, ops.ofInt n = Lib.Binary64.ofInt n) (hn : v.number = some n)
    (hm : w.number = some m) (h : v.dataType ≠ w.dataType) :
    v.partialCmp ops w = some (compare (round53 n) (round53 m)) := by
  have hcmp := Lib.Binary64.cmp_ofInt (natAbs_number_lt hn) (natAbs_number_lt hm)
  rw [← hround, ← hround] at hcmp
  cases v <;> cases hn <;> cases w <;> cases hm <;> first | exact hcmp | exact absurd rfl h

/-- When two integers are compared exactly. -/
theorem partialCmp_exact_iff (hround : ∀ n, ops.ofInt n = Lib.Binary64.ofInt n) (hn : v.number = some n)
    (hm : w.number = some m) : v.partialCmp ops w = some (compare n m) ↔
      v.dataType = w.dataType ∨ n = m ∨ round53 n ≠ round53 m := by
  by_cases h : v.dataType = w.dataType
  · exact iff_of_true (partialCmp_same hn hm h) (.inl h)
  rw [partialCmp_other hround hn hm h, or_iff_right h, Option.some_inj]
  rcases lt_trichotomy n m with hlt | rfl | hlt
  · have hle := Lib.Binary64.round53_mono hlt.le
    rw [compare_lt_iff_lt.2 hlt, compare_lt_iff_lt, or_iff_right hlt.ne]
    exact hle.lt_iff_ne
  · exact iff_of_true (by rw [compare_eq_iff_eq.2 rfl, compare_eq_iff_eq.2 rfl]) (.inl rfl)
  · have hle := Lib.Binary64.round53_mono hlt.le
    rw [compare_gt_iff_gt.2 hlt, compare_gt_iff_gt, or_iff_right hlt.ne']
    exact hle.lt_iff_ne.trans ne_comm

/-- Numbers of 53 bits are compared exactly. -/
theorem partialCmp_small (hround : ∀ n, ops.ofInt n = Lib.Binary64.ofInt n) (hn : v.number = some n)
    (hm : w.number = some m) (h : v.dataType = w.dataType ∨ Small v ∧ Small w) :
    v.partialCmp ops w = some (compare n m) := by
  refine (partialCmp_exact_iff hround hn hm).2 (h.imp_right ?_)
  rintro ⟨⟨n', hn', hsmall⟩, m', hm', hsmall'⟩
  obtain rfl := Option.some_inj.1 (hn.symm.trans hn')
  obtain rfl := Option.some_inj.1 (hm.symm.trans hm')
  rw [Lib.Binary64.round53_of_le hsmall, Lib.Binary64.round53_of_le hsmall']
  exact em _

theorem notAbove_iff (h : v.partialCmp ops w = some (compare n m)) : NotAbove ops v w ↔ n ≤ m := by
  rw [NotAbove, h, Option.some_inj, Option.some_inj, compare_lt_iff_lt, compare_eq_iff_eq]
  exact le_iff_lt_or_eq.symm

/-- What the order of values is worth on the integers. -/
structure ComparesIntegers (ops : FloatOps) : Prop where
  /-- Integers of one type are compared exactly. -/
  same : ∀ (v w : Value) (n m : ℤ), v.number = some n → w.number = some m → v.dataType = w.dataType →
    v.partialCmp ops w = some (compare n m)
  /-- Integers of two types are compared as what they round to. -/
  other : ∀ (v w : Value) (n m : ℤ), v.number = some n → w.number = some m → v.dataType ≠ w.dataType →
    v.partialCmp ops w = some (compare (round53 n) (round53 m))
  /-- So two integers are compared exactly unless they are different numbers of two types that round
  alike. -/
  exact_iff : ∀ (v w : Value) (n m : ℤ), v.number = some n → w.number = some m →
    (v.partialCmp ops w = some (compare n m) ↔ v.dataType = w.dataType ∨ n = m ∨ round53 n ≠ round53 m)
  /-- They are never reversed. -/
  forward : ∀ (v w : Value) (n m : ℤ), v.number = some n → w.number = some m → n ≤ m → NotAbove ops v w
  /-- A total preorder on integers of one type, and on integers of 53 bits. -/
  total : ∀ s : Set Value, (∀ v ∈ s, ∃ n, v.number = some n) →
    (∀ v ∈ s, ∀ w ∈ s, v.dataType = w.dataType ∨ Small v ∧ Small w) →
      (∀ v ∈ s, ∀ w ∈ s, NotAbove ops v w ∨ NotAbove ops w v) ∧
        ∀ u ∈ s, ∀ v ∈ s, ∀ w ∈ s, NotAbove ops u v → NotAbove ops v w → NotAbove ops u w

/-- **How integers are compared.** -/
theorem partialCmp_integers (hround : ∀ n, ops.ofInt n = Lib.Binary64.ofInt n) : ComparesIntegers ops where
  same _ _ _ _ := partialCmp_same
  other _ _ _ _ := partialCmp_other hround
  exact_iff _ _ _ _ := partialCmp_exact_iff hround
  forward v w n m hn hm hle := by
    by_cases h : v.dataType = w.dataType
    · exact (notAbove_iff (partialCmp_same hn hm h)).2 hle
    · exact (notAbove_iff (partialCmp_other hround hn hm h)).2 (Lib.Binary64.round53_mono hle)
  total s hnumber hs := by
    have hiff : ∀ v ∈ s, ∀ w ∈ s, ∀ n m, v.number = some n → w.number = some m →
        (NotAbove ops v w ↔ n ≤ m) := fun v hv w hw n m hn hm =>
      notAbove_iff (partialCmp_small hround hn hm (hs v hv w hw))
    constructor
    · intro v hv w hw
      obtain ⟨n, hn⟩ := hnumber v hv
      obtain ⟨m, hm⟩ := hnumber w hw
      rw [hiff v hv w hw n m hn hm, hiff w hw v hv m n hm hn]
      exact le_total n m
    · intro u hu v hv w hw huv hvw
      obtain ⟨k, hk⟩ := hnumber u hu
      obtain ⟨n, hn⟩ := hnumber v hv
      obtain ⟨m, hm⟩ := hnumber w hw
      rw [hiff u hu v hv k n hk hn] at huv
      rw [hiff v hv w hw n m hn hm] at hvw
      exact (hiff u hu w hw k m hk hm).2 (huv.trans hvw)

/-- Floats whose integers are rounded as binary64 does. -/
def roundingOps : FloatOps := ⟨Lib.Binary64.ofInt, fun _ => 0, fun _ => 0, fun _ => ""⟩

theorem compares_roundingOps : ComparesIntegers roundingOps := partialCmp_integers fun _ => rfl

/-- **`2 ^ 53 + 1` as an I64 equals `2 ^ 53` as a U64**, which equals `2 ^ 53` as an I64. -/
theorem not_exact : ¬ ∀ (ops : FloatOps) (v w : Value) (n m : ℤ),
    (∀ n, ops.ofInt n = Lib.Binary64.ofInt n) → v.number = some n → w.number = some m →
      v.partialCmp ops w = some (compare n m) := by
  intro hall
  have h := hall roundingOps (.i64 (2 ^ 53 + 1)) (.u64 (2 ^ 53)) (2 ^ 53 + 1) (2 ^ 53) (fun _ => rfl) rfl rfl
  exact absurd h (by decide)

end Value
end Abdb
