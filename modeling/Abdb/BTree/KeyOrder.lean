/-
# The order of index keys

A column value is looked up under the key `key_from_bytes(v.to_bytes())`: its
little-endian bytes, padded with zeros and read as an unsigned number.  For an unsigned
type that is the value itself.  For a signed one a negative value comes out above every
other value of its type, so the keys keep the order of two values exactly if both are
negative or neither is, and a range of keys is a range of values exactly if its ends are.
-/

import Abdb.BTree.ScanComplete
import Abdb.Databox.Encoding

namespace Abdb
namespace BTree

variable {v w : Value} {a b : ℤ} {t : DataType}

theorem inBounds_some {s e k : ℕ} : InBounds (some s) (some e) k ↔ s ≤ k ∧ k ≤ e := by
  simp [InBounds]

/-- What is half the range of an integer type. -/
def halfRange (t : DataType) : ℤ := 2 ^ (8 * t.fixedSize.getD 0 - 1)

/-- **The key of an integer value** is its two's complement. -/
theorem key_twosComplement (hv : v.number = some a) (ht : v.dataType = some t) :
    TwosComplement t.isSignedInt (halfRange t) a (keyFromBytes v.toBytes) := by
  have hone : ∀ b : UInt8, keyFromBytes [b] = b.toNat := fun b => rfl
  cases v <;> cases hv <;> cases ht
  case i8 v =>
    rw [Value.toBytes, hone]
    exact .of_bitVec v.toBitVec (by decide)
  case i16 v =>
    rw [Value.toBytes, keyFromBytes_toLe (by decide) v.toUInt16.toNat_lt]
    exact .of_bitVec v.toBitVec (by decide)
  case i32 v =>
    rw [Value.toBytes, keyFromBytes_toLe (by decide) v.toUInt32.toNat_lt]
    exact .of_bitVec v.toBitVec (by decide)
  case i64 v =>
    rw [Value.toBytes, keyFromBytes_toLe (by decide) v.toUInt64.toNat_lt]
    exact .of_bitVec v.toBitVec (by decide)
  case u8 v =>
    rw [Value.toBytes, hone]
    exact .of_nat _ _
  case u16 v =>
    rw [Value.toBytes, keyFromBytes_toLe (by decide) v.toNat_lt]
    exact .of_nat _ _
  case u32 v =>
    rw [Value.toBytes, keyFromBytes_toLe (by decide) v.toNat_lt]
    exact .of_nat _ _
  case u64 v =>
    rw [Value.toBytes, keyFromBytes_toLe (by decide) v.toNat_lt]
    exact .of_nat _ _

/-- Two integer values of one type are kept in one way. -/
theorem keys_twosComplement (hv : v.number = some a) (hw : w.number = some b)
    (ht : v.dataType = w.dataType) : ∃ signed half,
      TwosComplement signed half a (keyFromBytes v.toBytes) ∧
      TwosComplement signed half b (keyFromBytes w.toBytes) ∧
      ∀ (x : Value) (c : ℤ), x.number = some c → x.dataType = v.dataType →
        TwosComplement signed half c (keyFromBytes x.toBytes) := by
  obtain ⟨t, htv⟩ : ∃ t, v.dataType = some t := by
    cases v <;> first | exact ⟨_, rfl⟩ | cases hv
  exact ⟨t.isSignedInt, halfRange t, key_twosComplement hv htv, key_twosComplement hw (ht ▸ htv),
    fun x c hx hxt => key_twosComplement hx (hxt.trans htv)⟩

/-- **When the keys of integers are in order.**  The keys of two values of one type are in the
order of the values, and the keys between them are those of the values between them, exactly if
both values are negative or neither is. -/
theorem index_keys_order_iff (hv : v.number = some a) (hw : w.number = some b)
    (ht : v.dataType = w.dataType) :
    ((keyFromBytes v.toBytes < keyFromBytes w.toBytes ↔ a < b) ↔ (a < 0 ↔ b < 0)) ∧
    ((∀ (x : Value) (c : ℤ), x.number = some c → x.dataType = v.dataType →
      (InBounds (some (keyFromBytes v.toBytes)) (some (keyFromBytes w.toBytes))
        (keyFromBytes x.toBytes) ↔ a ≤ c ∧ c ≤ b)) ↔ (a < 0 ↔ b < 0)) := by
  obtain ⟨signed, half, ha, hb, hx⟩ := keys_twosComplement hv hw ht
  refine ⟨ha.lt_iff hb, fun hall => ?_, fun hsign x c hxc hxt => ?_⟩
  · -- the lower end itself tells
    have hlow := hall v a hv rfl
    rw [inBounds_some] at hlow
    refine (ha.le_iff hb).1 ?_
    simpa using hlow
  · rw [inBounds_some]
    exact ha.between_iff hb (hx x c hxc hxt) hsign

/-- Two values that are not negative. -/
theorem index_keys_order_one :
    ((keyFromBytes (Value.i8 1).toBytes < keyFromBytes (Value.i8 2).toBytes ↔ (1 : ℤ) < 2) ↔
      ((1 : ℤ) < 0 ↔ (2 : ℤ) < 0)) ∧
    ((∀ (x : Value) (c : ℤ), x.number = some c → x.dataType = (Value.i8 1).dataType →
      (InBounds (some (keyFromBytes (Value.i8 1).toBytes))
        (some (keyFromBytes (Value.i8 2).toBytes)) (keyFromBytes x.toBytes) ↔ 1 ≤ c ∧ c ≤ 2)) ↔
      ((1 : ℤ) < 0 ↔ (2 : ℤ) < 0)) :=
  index_keys_order_iff rfl rfl rfl

/-- **The key of `-1` is above the key of `0`.** -/
theorem index_keys_disorder : ¬ ∀ (v w : Value) (a b : ℤ), v.number = some a → w.number = some b →
    v.dataType = w.dataType → (keyFromBytes v.toBytes < keyFromBytes w.toBytes ↔ a < b) := by
  intro hall
  have h := (hall (.i8 (-1)) (.i8 0) (-1) 0 rfl rfl rfl).2 (by decide)
  revert h
  decide

/-- **A range scan of column values**: between two values of one sign, a scan that loses no row
yields the rows whose value lies between them. -/
theorem Store.ScanComplete.between {S : PageSupply} {st : Store}
    (h : st.ScanComplete S (some v.toBytes) (some w.toBytes)) (hv : v.number = some a)
    (hw : w.number = some b) (ht : v.dataType = w.dataType) (hsign : a < 0 ↔ b < 0) :
    ∃ rows : List (ℕ × RecordId), st.Scans S (some v.toBytes) (some w.toBytes)
        (rows.map fun x => .ok (keyToBytes x.1, x.2)) ∧
      ∀ (x : Value) (c : ℤ) (r : RecordId), x.number = some c → x.dataType = v.dataType →
        ((keyFromBytes x.toBytes, r) ∈ rows ↔
          st.Stores (keyFromBytes x.toBytes) r ∧ a ≤ c ∧ c ≤ b) := by
  obtain ⟨signed, half, ha, hb, hkept⟩ := keys_twosComplement hv hw ht
  obtain ⟨rows, hscans, -, hmem⟩ := h
  refine ⟨rows, hscans, fun x c r hx hxt => (hmem _ _).trans (and_congr_right fun _ => ?_)⟩
  rw [Option.map_some, Option.map_some, inBounds_some]
  exact ha.between_iff hb (hkept x c hx hxt) hsign

end BTree
end Abdb
