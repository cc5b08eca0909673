/-
# Casts to integers

A cast of an integer or a Boolean to an integer type should give the same number or nothing
(`Value.Exact`).  `Value::cast` of `src/databox/databox.rs` takes the number through an `i64` or a
`u64`, and what does not go into those is refused; a number that does is brought to 16 or 32 bits
with `as`, which keeps its low bits only.

So a cast is exact but for the numbers that get as far as a 16-bit or 32-bit target and are out of its
range (`exact_iff`).
-/

import Abdb.Databox.Cast

namespace Abdb
namespace Value

/-- The integer a value stands for, a Boolean as 0 or 1. -/
def integer : Value → Option ℤ
  | bool b => some (if b then 1 else 0)
  | v => v.number

/-- A cast of number `n` gives nothing but that number, and nothing at all if the target has no such
number. -/
structure Exact (ops : FloatOps) (v : Value) (target : DataType) (n : ℤ) : Prop where
  same : ∀ w, v.cast ops target = some w → w.integer = some n
  refused : ¬ target.Fits n → v.cast ops target = none

/-- A number that reaches a target of 16 or 32 bits and is out of its range: a U64 is no `i64`, and a
negative number no `u64`. -/
def Wraps (v : Value) (target : DataType) (n : ℤ) : Prop :=
  match target with
  | .i16 | .i32 => v.dataType ≠ some .u64 ∧ ¬ target.Fits n
  | .u16 | .u32 => 0 ≤ n ∧ ¬ target.Fits n
  | _ => False

variable {ops : FloatOps} {v w : Value} {n k : ℤ} {target : DataType}

/-- The integer of a value is one of its type. -/
theorem fits_of_integer (htarget : (target.isSignedInt || target.isUnsignedInt) = true)
    (hv : v.dataType = some target) (hn : v.integer = some n) : target.Fits n := by
  cases v with
  | bool b =>
    obtain rfl := Option.some_inj.1 hv
    cases htarget
  | i8 v | i16 v | i32 v | i64 v =>
    obtain rfl := Option.some_inj.1 hv
    obtain rfl := Option.some_inj.1 hn
    exact ⟨v.le_toInt, v.toInt_lt⟩
  | u8 v | u16 v | u32 v | u64 v =>
    obtain rfl := Option.some_inj.1 hv
    obtain rfl := Option.some_inj.1 hn
    have hlt := v.toNat_lt
    exact ⟨Int.natCast_nonneg _, by exact_mod_cast hlt⟩
  | _ => cases hn

theorem cast_eq_castTo (hn : v.integer = some n) (hne : v.dataType ≠ some target) :
    v.cast ops target = v.castTo ops target := by
  have hnull : v ≠ .null := by
    rintro rfl
    cases hn
  rw [cast, if_neg hnull, if_neg hne]

/-- The integer of a value that is not of the type U64, in 64 bits. -/
theorem toI64_of_integer (hn : v.integer = some n) (hu64 : v.dataType ≠ some .u64) :
    ∃ m, v.toI64 = some m ∧ m.toInt = n := by
  cases v with
  | bool b =>
    obtain rfl := Option.some_inj.1 hn
    exact ⟨_, rfl, by cases b <;> rfl⟩
  | _ => exact toI64_of_number hn hu64

/-- An integer that is not negative, as an unsigned number. -/
theorem toU64_of_integer (hn : v.integer = some n) (h : 0 ≤ n) :
    ∃ m, v.toU64 = some m ∧ (m.toNat : ℤ) = n := by
  cases v with
  | bool b =>
    obtain rfl := Option.some_inj.1 hn
    exact ⟨_, rfl, by cases b <;> rfl⟩
  | _ => exact toU64_of_nonneg hn h

theorem toU64_of_integer_neg (hn : v.integer = some n) (h : n < 0) : v.toU64 = none := by
  cases v with
  | bool b =>
    obtain rfl := Option.some_inj.1 hn
    cases b <;> cases h
  | _ => exact toU64_of_neg hn h

namespace Exact

/-- A value of the same type is left as it is. -/
theorem of_self (htarget : (target.isSignedInt || target.isUnsignedInt) = true)
    (hv : v.dataType = some target) (hn : v.integer = some n) : Exact ops v target n where
  same w hw := by
    have hnull : v ≠ .null := by
      rintro rfl
      cases hn
    rw [cast, if_neg hnull, if_pos hv] at hw
    rwa [← Option.some_inj.1 hw]
  refused hfits := absurd (fits_of_integer htarget hv hn) hfits

theorem of_none (h : v.cast ops target = none) : Exact ops v target n where
  same w hw := by
    rw [h] at hw
    cases hw
  refused _ := h

/-- A cast that gives a number is exact if it is the same number. -/
theorem iff_of_some (htarget : (target.isSignedInt || target.isUnsignedInt) = true)
    (hcast : v.cast ops target = some w) (hw : w.dataType = some target) (hk : w.integer = some k) :
    Exact ops v target n ↔ k = n := by
  constructor
  · intro h
    exact Option.some_inj.1 (hk.symm.trans (h.same w hcast))
  · rintro rfl
    refine ⟨fun w' hw' => ?_, fun hfits => absurd (fits_of_integer htarget hw hk) hfits⟩
    rw [hcast] at hw'
    rwa [← Option.some_inj.1 hw']

/-- A cast to a signed type keeps the low bits of what is no U64. -/
theorem iff_signed {c : Int64 → Value} {b : ℕ}
    (htarget : (target.isSignedInt || target.isUnsignedInt) = true) (hn : v.integer = some n)
    (hne : v.dataType ≠ some target) (hcast : v.castTo ops target = v.toI64.map c)
    (hc : ∀ m, (c m).dataType = some target)
    (hinteger : ∀ m, (c m).integer = some (m.toInt.bmod (2 ^ (b + 1)))) :
    Exact ops v target n ↔ v.dataType = some .u64 ∨ -2 ^ b ≤ n ∧ n < 2 ^ b := by
  by_cases hu64 : v.dataType = some .u64
  · refine iff_of_true (of_none ?_) (.inl hu64)
    rw [cast_eq_castTo hn hne, hcast]
    cases v with
    | u64 v => rfl
    | _ => cases hu64
  · obtain ⟨m, hm, rfl⟩ := toI64_of_integer hn hu64
    rw [iff_of_some htarget (by rw [cast_eq_castTo hn hne, hcast, hm]; rfl) (hc m) (hinteger m),
      bmod_eq_self_iff, or_iff_right hu64]

/-- A cast to an unsigned type keeps the low bits of what is not negative. -/
theorem iff_unsigned {c : UInt64 → Value} {b : ℕ}
    (htarget : (target.isSignedInt || target.isUnsignedInt) = true) (hn : v.integer = some n)
    (hne : v.dataType ≠ some target) (hcast : v.castTo ops target = v.toU64.map c)
    (hc : ∀ m, (c m).dataType = some target)
    (hinteger : ∀ m, (c m).integer = some ((m.toNat % 2 ^ b : ℕ) : ℤ)) :
    Exact ops v target n ↔ n < 0 ∨ 0 ≤ n ∧ n < 2 ^ b := by
  by_cases hneg : n < 0
  · refine iff_of_true (of_none ?_) (.inl hneg)
    rw [cast_eq_castTo hn hne, hcast, toU64_of_integer_neg hn hneg]
    rfl
  · obtain ⟨m, hm, rfl⟩ := toU64_of_integer hn (by omega)
    rw [iff_of_some htarget (by rw [cast_eq_castTo hn hne, hcast, hm]; rfl) (hc m) (hinteger m),
      or_iff_right hneg, and_iff_right (Int.natCast_nonneg _), Nat.cast_inj]
    constructor
    · intro h
      have hlt := Nat.mod_lt m.toNat (Nat.two_pow_pos b)
      rw [h] at hlt
      exact_mod_cast hlt
    · intro hlt
      exact Nat.mod_eq_of_lt (by exact_mod_cast hlt)

end Exact

/-- A value of the target's type does not wrap around. -/
theorem not_wraps_self (htarget : (target.isSignedInt || target.isUnsignedInt) = true)
    (hv : v.dataType = some target) (hn : v.integer = some n) : ¬ v.Wraps target n := by
  have hfits := fits_of_integer htarget hv hn
  cases target with
  | i16 | i32 | u16 | u32 => exact fun h => h.2 hfits
  | _ => exact id

/-- **A cast to an integer type is exact** but for a number that wraps around. -/
theorem exact_iff (htarget : (target.isSignedInt || target.isUnsignedInt) = true)
    (hn : v.integer = some n) : Exact ops v target n ↔ ¬ v.Wraps target n := by
  by_cases hv : v.dataType = some target
  · exact iff_of_true (.of_self htarget hv hn) (not_wraps_self htarget hv hn)
  cases target with
  | bool | f32 | f64 | string => cases htarget
  | i8 | u8 => exact iff_of_true (.of_none (cast_eq_castTo hn hv)) id
  | i16 =>
    rw [Exact.iff_signed (c := fun m => .i16 m.toInt16) (b := 15) htarget hn hv rfl (fun _ => rfl)
      (fun m => congrArg some (Int64.toInt_toInt16 m)), Wraps, not_and_or, not_not, not_not, DataType.Fits]
  | i32 =>
    rw [Exact.iff_signed (c := fun m => .i32 m.toInt32) (b := 31) htarget hn hv rfl (fun _ => rfl)
      (fun m => congrArg some (Int64.toInt_toInt32 m)), Wraps, not_and_or, not_not, not_not, DataType.Fits]
  | i64 =>
    refine iff_of_true ?_ id
    by_cases hu64 : v.dataType = some .u64
    · refine .of_none ?_
      rw [cast_eq_castTo hn hv]
      cases v with
      | u64 v => rfl
      | _ => cases hu64
    · obtain ⟨m, hm, rfl⟩ := toI64_of_integer hn hu64
      exact (Exact.iff_of_some htarget (by rw [cast_eq_castTo hn hv, castTo, hm]; rfl) rfl rfl).2 rfl
  | u16 =>
    rw [Exact.iff_unsigned (c := fun m => .u16 m.toUInt16) (b := 16) htarget hn hv rfl (fun _ => rfl)
      (fun m => congrArg some (congrArg Nat.cast (UInt64.toNat_toUInt16 m))), Wraps, not_and_or, not_le,
      not_not, DataType.Fits]
  | u32 =>
    rw [Exact.iff_unsigned (c := fun m => .u32 m.toUInt32) (b := 32) htarget hn hv rfl (fun _ => rfl)
      (fun m => congrArg some (congrArg Nat.cast (UInt64.toNat_toUInt32 m))), Wraps, not_and_or, not_le,
      not_not, DataType.Fits]
  | u64 =>
    refine iff_of_true ?_ id
    by_cases hneg : n < 0
    · refine .of_none ?_
      rw [cast_eq_castTo hn hv, castTo, toU64_of_integer_neg hn hneg]
      rfl
    · obtain ⟨m, hm, rfl⟩ := toU64_of_integer hn (by omega)
      exact (Exact.iff_of_some htarget (by rw [cast_eq_castTo hn hv, castTo, hm]; rfl) rfl rfl).2 rfl

/-- A number of the target's range. -/
theorem exact_small : Exact ⟨fun _ => 0, fun _ => 0, fun _ => 0, fun _ => ""⟩ (.i64 300) .u16 300 :=
  (exact_iff rfl rfl).2 fun h => h.2 ⟨by decide, by decide⟩

/-- **70000 as an I16 is 4464.** -/
theorem cast_wraps : ¬ ∀ (ops : FloatOps) (v : Value) (target : DataType) (n : ℤ),
    (target.isSignedInt || target.isUnsignedInt) = true → v.integer = some n → Exact ops v target n := by
  intro hall
  have h := (hall ⟨fun _ => 0, fun _ => 0, fun _ => 0, fun _ => ""⟩ (.i64 70000) .i16 70000 rfl rfl).same
    (.i16 4464) rfl
  exact absurd h (by decide)

end Value
end Abdb
