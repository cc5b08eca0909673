/-
# Casts of values

`Value::cast`, `to_i64`, `to_u64` and `to_f64` of `src/databox/databox.rs`.  A cast to a narrower
type of integers keeps the low bits, as `as` does; there is no cast to I8 or U8 from another type.

A cast to another type of integers keeps the number exactly if the number is one of that type and
the type is neither I8 nor U8 (`cast_number_iff`).  The rounding of floats and the text of a value
are left open.
-/

import Abdb.Databox.Encoding

namespace Abdb

/-- `is_unsigned_int`. -/
def DataType.isUnsignedInt : DataType → Bool
  | .u8 | .u16 | .u32 | .u64 => true
  | _ => false

/-- A number is one of an integer type. -/
def DataType.Fits (n : ℤ) : DataType → Prop
  | .i8 => -2 ^ 7 ≤ n ∧ n < 2 ^ 7
  | .i16 => -2 ^ 15 ≤ n ∧ n < 2 ^ 15
  | .i32 => -2 ^ 31 ≤ n ∧ n < 2 ^ 31
  | .i64 => -2 ^ 63 ≤ n ∧ n < 2 ^ 63
  | .u8 => 0 ≤ n ∧ n < 2 ^ 8
  | .u16 => 0 ≤ n ∧ n < 2 ^ 16
  | .u32 => 0 ≤ n ∧ n < 2 ^ 32
  | .u64 => 0 ≤ n ∧ n < 2 ^ 64
  | _ => False

/-- What casts ask of the floats, which are given by their bits, and of `Display`. -/
structure FloatOps where
  /-- An integer `as f64`. -/
  ofInt : ℤ → UInt64
  /-- `f32 as f64`. -/
  widen : UInt32 → UInt64
  /-- `f64 as f32`. -/
  narrow : UInt64 → UInt32
  /-- `to_string`. -/
  text : Value → String

namespace Value

/-- `to_i64`. -/
def toI64 : Value → Option Int64
  | i8 v => some v.toInt64
  | i16 v => some v.toInt64
  | i32 v => some v.toInt64
  | i64 v => some v
  | u8 v => some v.toUInt64.toInt64
  | u16 v => some v.toUInt64.toInt64
  | u32 v => some v.toUInt64.toInt64
  | bool b => some (if b then 1 else 0)
  | _ => none

/-- `to_u64`: of a signed number only if it is not negative. -/
def toU64 : Value → Option UInt64
  | u8 v => some v.toUInt64
  | u16 v => some v.toUInt64
  | u32 v => some v.toUInt64
  | u64 v => some v
  | bool b => some (if b then 1 else 0)
  | i8 v => if 0 ≤ v.toInt then some v.toInt64.toUInt64 else none
  | i16 v => if 0 ≤ v.toInt then some v.toInt64.toUInt64 else none
  | i32 v => if 0 ≤ v.toInt then some v.toInt64.toUInt64 else none
  | i64 v => if 0 ≤ v.toInt then some v.toUInt64 else none
  | _ => none

/-- `to_f64`. -/
def toF64 (ops : FloatOps) : Value → Option UInt64
  | f32 bits => some (ops.widen bits)
  | f64 bits => some bits
  | v => v.number.map ops.ofInt

/-- The truth of a value, where it can be cast to one. -/
def toBool : Value → Option Bool
  | i8 v => some (v ≠ 0)
  | i32 v => some (v ≠ 0)
  | i64 v => some (v ≠ 0)
  | u8 v => some (v ≠ 0)
  | _ => none

/-- A value in another type. -/
def castTo (ops : FloatOps) (v : Value) : DataType → Option Value
  | .i16 => v.toI64.map fun n => .i16 n.toInt16
  | .i32 => v.toI64.map fun n => .i32 n.toInt32
  | .i64 => v.toI64.map .i64
  | .u16 => v.toU64.map fun n => .u16 n.toUInt16
  | .u32 => v.toU64.map fun n => .u32 n.toUInt32
  | .u64 => v.toU64.map .u64
  | .f32 => (v.toF64 ops).map fun bits => .f32 (ops.narrow bits)
  | .f64 => (v.toF64 ops).map .f64
  | .string => some (.string (ops.text v))
  | .bool => v.toBool.map .bool
  | .i8 | .u8 => none

/-- `cast`. -/
def cast (ops : FloatOps) (v : Value) (target : DataType) : Option Value :=
  if v = .null then some .null
  else if v.dataType = some target then some v
  else v.castTo ops target

variable {ops : FloatOps} {v w : Value} {n : ℤ} {target : DataType}

/-! ### Integers -/

theorem toInt_toInt64_of_lt {x : UInt64} (h : x.toNat < 2 ^ 63) : x.toInt64.toInt = x.toNat := by
  have hlt : 2 * x.toBitVec.toNat < 2 ^ 64 := by
    have : x.toBitVec.toNat = x.toNat := rfl
    omega
  exact BitVec.toInt_eq_toNat_of_lt hlt

theorem toNat_toUInt64_of_nonneg {x : Int64} (h : 0 ≤ x.toInt) : (x.toUInt64.toNat : ℤ) = x.toInt := by
  have hle : 0 ≤ x := Int64.le_iff_toInt_le.2 h
  rw [Int64.toNat_toUInt64_of_le hle, Int64.toNatClampNeg, Int.toNat_of_nonneg h]

/-- The number of a value that is not of the type U64, in 64 bits. -/
theorem toI64_of_number (hn : v.number = some n) (hu64 : v.dataType ≠ some .u64) :
    ∃ m, v.toI64 = some m ∧ m.toInt = n := by
  cases v with
  | u64 v => exact absurd rfl hu64
  | i8 v => exact ⟨_, rfl, by rw [Int8.toInt_toInt64, ← Option.some_inj.1 hn]⟩
  | i16 v => exact ⟨_, rfl, by rw [Int16.toInt_toInt64, ← Option.some_inj.1 hn]⟩
  | i32 v => exact ⟨_, rfl, by rw [Int32.toInt_toInt64, ← Option.some_inj.1 hn]⟩
  | i64 v => exact ⟨_, rfl, Option.some_inj.1 hn⟩
  | u8 v =>
    have hlt := v.toNat_lt
    rw [← Option.some_inj.1 hn]
    exact ⟨_, rfl, (toInt_toInt64_of_lt (by rw [UInt8.toNat_toUInt64]; omega)).trans
      (by rw [UInt8.toNat_toUInt64])⟩
  | u16 v =>
    have hlt := v.toNat_lt
    rw [← Option.some_inj.1 hn]
    exact ⟨_, rfl, (toInt_toInt64_of_lt (by rw [UInt16.toNat_toUInt64]; omega)).trans
      (by rw [UInt16.toNat_toUInt64])⟩
  | u32 v =>
    have hlt := v.toNat_lt
    rw [← Option.some_inj.1 hn]
    exact ⟨_, rfl, (toInt_toInt64_of_lt (by rw [UInt32.toNat_toUInt64]; omega)).trans
      (by rw [UInt32.toNat_toUInt64])⟩
  | _ => cases hn

/-- A number that is not negative, as an unsigned number. -/
theorem toU64_of_nonneg (hn : v.number = some n) (h : 0 ≤ n) : ∃ m, v.toU64 = some m ∧ (m.toNat : ℤ) = n := by
  cases v with
  | u8 v => exact ⟨_, rfl, by rw [UInt8.toNat_toUInt64, ← Option.some_inj.1 hn]⟩
  | u16 v => exact ⟨_, rfl, by rw [UInt16.toNat_toUInt64, ← Option.some_inj.1 hn]⟩
  | u32 v => exact ⟨_, rfl, by rw [UInt32.toNat_toUInt64, ← Option.some_inj.1 hn]⟩
  | u64 v => exact ⟨_, rfl, Option.some_inj.1 hn⟩
  | i8 v =>
    obtain rfl := Option.some_inj.1 hn
    refine ⟨_, if_pos h, ?_⟩
    rw [toNat_toUInt64_of_nonneg (by rwa [Int8.toInt_toInt64]), Int8.toInt_toInt64]
  | i16 v =>
    obtain rfl := Option.some_inj.1 hn
    refine ⟨_, if_pos h, ?_⟩
    rw [toNat_toUInt64_of_nonneg (by rwa [Int16.toInt_toInt64]), Int16.toInt_toInt64]
  | i32 v =>
    obtain rfl := Option.some_inj.1 hn
    refine ⟨_, if_pos h, ?_⟩
    rw [toNat_toUInt64_of_nonneg (by rwa [Int32.toInt_toInt64]), Int32.toInt_toInt64]
  | i64 v =>
    obtain rfl := Option.some_inj.1 hn
    exact ⟨_, if_pos h, toNat_toUInt64_of_nonneg h⟩
  | _ => cases hn

theorem toU64_of_neg (hn : v.number = some n) (h : n < 0) : v.toU64 = none := by
  cases v with
  | i8 v | i16 v | i32 v | i64 v =>
    obtain rfl := Option.some_inj.1 hn
    exact if_neg (Int.not_le.2 h)
  | u8 v | u16 v | u32 v | u64 v =>
    obtain rfl := Option.some_inj.1 hn
    exact absurd h (by omega)
  | _ => cases hn

/-- The value of a cast denotes a number of the target type. -/
def Denotes (ops : FloatOps) (v : Value) (target : DataType) (n : ℤ) : Prop :=
  ∃ w, v.cast ops target = some w ∧ w.dataType = some target ∧ w.number = some n

theorem ne_null_of_number (hn : v.number = some n) : v ≠ .null := by
  rintro rfl
  cases hn

/-- A value of the same type is left as it is. -/
theorem denotes_self (hv : v.dataType = some target) (hn : v.number = some n) : Denotes ops v target n :=
  ⟨v, by rw [cast, if_neg (ne_null_of_number hn), if_pos hv], hv, hn⟩

theorem denotes_of_castTo (hn : v.number = some n) (hne : v.dataType ≠ some target)
    (hcast : v.castTo ops target = some w)
    (hw : w.dataType = some target) {k : ℤ} (hk : w.number = some k) : Denotes ops v target n ↔ k = n := by
  rw [Denotes, cast, if_neg (ne_null_of_number hn), if_neg hne, hcast]
  constructor
  · rintro ⟨w', heq, -, hnumber⟩
    obtain rfl := Option.some.inj heq
    exact Option.some.inj (hk.symm.trans hnumber)
  · rintro rfl
    exact ⟨w, rfl, hw, hk⟩

theorem not_denotes_of_castTo (hn : v.number = some n) (hne : v.dataType ≠ some target)
    (hcast : v.castTo ops target = none) : ¬ Denotes ops v target n := by
  rw [Denotes, cast, if_neg (ne_null_of_number hn), if_neg hne, hcast]
  rintro ⟨w, heq, -⟩
  cases heq

/-! ### The low bits -/

/-- The low bits of a number are the number exactly if it is small enough. -/
theorem bmod_eq_self_iff {w : ℕ} : n.bmod (2 ^ (w + 1)) = n ↔ -2 ^ w ≤ n ∧ n < 2 ^ w := by
  have hpow : 2 ^ (w + 1) = 2 * 2 ^ w := pow_succ' 2 w
  have hpos : 0 < 2 ^ w := Nat.two_pow_pos w
  have hcast : ((2 ^ w : ℕ) : ℤ) = 2 ^ w := by push_cast; rfl
  rw [hpow, ← hcast]
  constructor
  · intro h
    have hle := Int.le_bmod (x := n) (m := 2 * 2 ^ w) (by omega)
    have hlt := Int.bmod_lt (x := n) (m := 2 * 2 ^ w) (by omega)
    omega
  · rintro ⟨hle, hlt⟩
    exact Int.bmod_eq_of_le_mul_two (by omega) (by omega)

/-- A cast to a signed type keeps the low bits. -/
theorem denotes_signed {c : Int64 → Value} {w : ℕ} (hn : v.number = some n) (hne : v.dataType ≠ some target)
    (hu64 : v.dataType ≠ some .u64) (hcast : v.castTo ops target = v.toI64.map c)
    (hc : ∀ m, (c m).dataType = some target)
    (hnumber : ∀ m, (c m).number = some (m.toInt.bmod (2 ^ (w + 1)))) :
    Denotes ops v target n ↔ -2 ^ w ≤ n ∧ n < 2 ^ w := by
  obtain ⟨m, hm, rfl⟩ := toI64_of_number hn hu64
  rw [hm] at hcast
  rw [denotes_of_castTo hn hne hcast (hc m) (hnumber m), bmod_eq_self_iff]

/-- A cast to an unsigned type keeps the low bits of a number that is not negative. -/
theorem denotes_unsigned {c : UInt64 → Value} {k : ℕ} (hn : v.number = some n)
    (hne : v.dataType ≠ some target)
    (hcast : v.castTo ops target = v.toU64.map c) (hc : ∀ m, (c m).dataType = some target)
    (hnumber : ∀ m, (c m).number = some ((m.toNat % k : ℕ) : ℤ)) (hk : 0 < k) :
    Denotes ops v target n ↔ 0 ≤ n ∧ n < k := by
  by_cases hneg : n < 0
  · rw [toU64_of_neg hn hneg] at hcast
    exact iff_of_false (not_denotes_of_castTo hn hne hcast) (by omega)
  · obtain ⟨m, hm, rfl⟩ := toU64_of_nonneg hn (by omega)
    rw [hm] at hcast
    rw [denotes_of_castTo hn hne hcast (hc m) (hnumber m)]
    constructor
    · intro h
      have hlt := Nat.mod_lt m.toNat hk
      omega
    · rintro ⟨-, hlt⟩
      rw [Nat.mod_eq_of_lt (by omega)]

/-- **A cast to another type of integers keeps the number** exactly if the number is one of that
type, which is neither I8 nor U8. -/
theorem denotes_iff (htarget : (target.isSignedInt || target.isUnsignedInt) = true)
    (hn : v.number = some n) (hne : v.dataType ≠ some target)
    (hu64 : v.dataType ≠ some .u64) : Denotes ops v target n ↔ target ≠ .i8 ∧ target ≠ .u8 ∧
      target.Fits n := by
  cases target with
  | bool | f32 | f64 | string => cases htarget
  | i8 => exact iff_of_false (not_denotes_of_castTo hn hne rfl) fun h => h.1 rfl
  | u8 => exact iff_of_false (not_denotes_of_castTo hn hne rfl) fun h => h.2.1 rfl
  | i16 =>
    rw [denotes_signed (c := fun m => .i16 m.toInt16) (w := 15) hn hne hu64 rfl (fun _ => rfl)
      (fun m => congrArg some (Int64.toInt_toInt16 m))]
    simp [DataType.Fits]
  | i32 =>
    rw [denotes_signed (c := fun m => .i32 m.toInt32) (w := 31) hn hne hu64 rfl (fun _ => rfl)
      (fun m => congrArg some (Int64.toInt_toInt32 m))]
    simp [DataType.Fits]
  | i64 =>
    have hnumber : ∀ m : Int64, (i64 m).number = some (m.toInt.bmod (2 ^ (63 + 1))) := fun m =>
      congrArg some (bmod_eq_self_iff.2 ⟨m.le_toInt, m.toInt_lt⟩).symm
    rw [denotes_signed (c := i64) hn hne hu64 rfl (fun _ => rfl) hnumber]
    simp [DataType.Fits]
  | u16 =>
    rw [denotes_unsigned (c := fun m => .u16 m.toUInt16) (k := 2 ^ 16) hn hne rfl (fun _ => rfl)
      (fun m => congrArg some (congrArg Nat.cast (UInt64.toNat_toUInt16 m))) (by decide)]
    simp [DataType.Fits]
  | u32 =>
    rw [denotes_unsigned (c := fun m => .u32 m.toUInt32) (k := 2 ^ 32) hn hne rfl (fun _ => rfl)
      (fun m => congrArg some (congrArg Nat.cast (UInt64.toNat_toUInt32 m))) (by decide)]
    simp [DataType.Fits]
  | u64 =>
    have hnumber : ∀ m : UInt64, (u64 m).number = some ((m.toNat % 2 ^ 64 : ℕ) : ℤ) := fun m =>
      congrArg some (congrArg Nat.cast (Nat.mod_eq_of_lt m.toNat_lt).symm)
    rw [denotes_unsigned (c := u64) hn hne rfl (fun _ => rfl) hnumber (by decide)]
    simp [DataType.Fits]

end Value
end Abdb
