/-
# The bytes of a value

`src/databox/databox.rs`: the type of a value and its little-endian bytes.  An integer
value stands for a number (`Value.number`), and its bytes are those of that number modulo
the range of its type.
-/

import Mathlib.Algebra.Order.Ring.Int
import Abdb.Databox.Value
import Abdb.Lib.Bytes

namespace Abdb

namespace DataType

/-- `fixed_size`: size in bytes for fixed-width types, `None` for variable-width. -/
def fixedSize : DataType → Option ℕ
  | bool | i8 | u8 => some 1
  | i16 | u16 => some 2
  | i32 | u32 | f32 => some 4
  | i64 | u64 | f64 => some 8
  | string => none

/-- `is_signed_int`. -/
def isSignedInt : DataType → Bool
  | i8 | i16 | i32 | i64 => true
  | _ => false

end DataType

namespace Value

/-- `data_type`: the type of a value, or `None` for NULL. -/
def dataType : Value → Option DataType
  | bool _ => some .bool
  | i8 _ => some .i8
  | i16 _ => some .i16
  | i32 _ => some .i32
  | i64 _ => some .i64
  | u8 _ => some .u8
  | u16 _ => some .u16
  | u32 _ => some .u32
  | u64 _ => some .u64
  | f32 _ => some .f32
  | f64 _ => some .f64
  | string _ => some .string
  | null => none

/-- `to_bytes`: the little-endian bytes of a fixed-width value, the UTF-8 bytes of a string,
nothing for NULL. -/
def toBytes : Value → List UInt8
  | bool v => [if v then 1 else 0]
  | i8 v => [v.toUInt8]
  | i16 v => Lib.toLe 2 v.toUInt16.toNat
  | i32 v => Lib.toLe 4 v.toUInt32.toNat
  | i64 v => Lib.toLe 8 v.toUInt64.toNat
  | u8 v => [v]
  | u16 v => Lib.toLe 2 v.toNat
  | u32 v => Lib.toLe 4 v.toNat
  | u64 v => Lib.toLe 8 v.toNat
  | f32 bits => Lib.toLe 4 bits.toNat
  | f64 bits => Lib.toLe 8 bits.toNat
  | string v => v.toUTF8.toList
  | null => []

/-- The number a value of an integer type stands for. -/
def number : Value → Option ℤ
  | i8 v => some v.toInt
  | i16 v => some v.toInt
  | i32 v => some v.toInt
  | i64 v => some v.toInt
  | u8 v => some v.toNat
  | u16 v => some v.toNat
  | u32 v => some v.toNat
  | u64 v => some v.toNat
  | _ => none

end Value

/-- Number `a` lies in the range of an integer type, of `2 * half` numbers, and is kept as
the natural number `k` of that range: two's complement. -/
structure TwosComplement (signed : Bool) (half a : ℤ) (k : ℕ) : Prop where
  range : signed = true → -half ≤ a ∧ a < half
  nonneg : signed = false → 0 ≤ a
  kept : (k : ℤ) = if a < 0 then a + 2 * half else a

namespace TwosComplement

/-- The bits of a signed integer. -/
theorem of_bitVec {w : ℕ} (x : BitVec w) (hw : 0 < w) :
    TwosComplement true (2 ^ (w - 1)) x.toInt x.toNat := by
  have hpow : (2 : ℤ) ^ w = 2 * 2 ^ (w - 1) := by
    rw [← pow_succ', Nat.sub_add_cancel hw]
  have hcast : ((2 ^ w : ℕ) : ℤ) = 2 ^ w := by push_cast; rfl
  have hlt : (x.toNat : ℤ) < 2 ^ w := hcast ▸ Int.ofNat_lt.2 x.isLt
  have htoInt : x.toInt = if 2 * x.toNat < 2 ^ w then (x.toNat : ℤ) else x.toNat - 2 ^ w := by
    rw [BitVec.toInt_eq_toNat_cond, hcast]
  refine ⟨fun _ => ?_, nofun, ?_⟩ <;> rw [htoInt] <;> split_ifs <;> omega

/-- An unsigned integer is kept as it is. -/
theorem of_nat (half : ℤ) (n : ℕ) : TwosComplement false half n n :=
  ⟨nofun, fun _ => Int.natCast_nonneg n, by rw [if_neg (by omega)]⟩

variable {signed : Bool} {half a b c : ℤ} {k l m : ℕ}

/-- **Two's complement keeps the order of two numbers exactly if they have one sign.** -/
theorem lt_iff (ha : TwosComplement signed half a k) (hb : TwosComplement signed half b l) :
    (k < l ↔ a < b) ↔ (a < 0 ↔ b < 0) := by
  obtain ⟨hs, hu, hk⟩ := ha
  obtain ⟨hs', hu', hl⟩ := hb
  cases signed with
  | false =>
    have := hu rfl
    have := hu' rfl
    split_ifs at hk hl <;> omega
  | true =>
    have := hs rfl
    have := hs' rfl
    split_ifs at hk hl <;> omega

theorem le_iff (ha : TwosComplement signed half a k) (hb : TwosComplement signed half b l) :
    (k ≤ l ↔ a ≤ b) ↔ (a < 0 ↔ b < 0) := by
  have hlt := hb.lt_iff ha
  rw [← not_lt, ← not_lt, not_iff_not]
  exact hlt.trans iff_comm

/-- **Between two numbers of one sign** lie those kept between their images. -/
theorem between_iff (ha : TwosComplement signed half a k) (hb : TwosComplement signed half b l)
    (hc : TwosComplement signed half c m) (hab : a < 0 ↔ b < 0) :
    k ≤ m ∧ m ≤ l ↔ a ≤ c ∧ c ≤ b := by
  by_cases hsign : a < 0 ↔ c < 0
  · rw [(ha.le_iff hc).2 hsign, (hc.le_iff hb).2 (hsign.symm.trans hab)]
  · -- a number of the other sign is outside, before and after
    have hl := ha.le_iff hc
    have hr := hc.le_iff hb
    have hle := ha.le_iff hb
    omega

end TwosComplement
end Abdb
