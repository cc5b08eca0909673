/-
# Reading a field

`Value::from_bytes` of `src/databox/databox.rs` and `TupleLayout::read_field` of
`src/databox/layout.rs`: two decoders beside the encoder `to_bytes`.  Both give back what was encoded,
and they agree wherever a field is read (`decoders_agree`).
-/

import Abdb.Databox.Layout
import Abdb.Lib.Lossy

namespace Abdb

/-- `data.get(..n)`. -/
def firstBytes (n : ℕ) (data : List UInt8) : Option (List UInt8) :=
  if n ≤ data.length then some (data.take n) else none

namespace Value

/-- `from_bytes`. -/
def fromBytes (dtype : DataType) (data : List UInt8) : Option Value :=
  match dtype with
  | .bool => data.head?.map fun b => .bool (b ≠ 0)
  | .i8 => data.head?.map fun b => .i8 b.toInt8
  | .i16 => (firstBytes 2 data).map fun b => .i16 (UInt16.ofNat (Lib.ofLe b)).toInt16
  | .i32 => (firstBytes 4 data).map fun b => .i32 (UInt32.ofNat (Lib.ofLe b)).toInt32
  | .i64 => (firstBytes 8 data).map fun b => .i64 (UInt64.ofNat (Lib.ofLe b)).toInt64
  | .u8 => data.head?.map fun b => .u8 b
  | .u16 => (firstBytes 2 data).map fun b => .u16 (UInt16.ofNat (Lib.ofLe b))
  | .u32 => (firstBytes 4 data).map fun b => .u32 (UInt32.ofNat (Lib.ofLe b))
  | .u64 => (firstBytes 8 data).map fun b => .u64 (UInt64.ofNat (Lib.ofLe b))
  | .f32 => (firstBytes 4 data).map fun b => .f32 (UInt32.ofNat (Lib.ofLe b))
  | .f64 => (firstBytes 8 data).map fun b => .f64 (UInt64.ofNat (Lib.ofLe b))
  | .string => some (.string (Lib.fromUtf8Lossy data))

end Value

/-- `read_le_arr`: `n` bytes at an offset, if the buffer has them. -/
def readLeArr (n : ℕ) (data : List UInt8) (offset : ℕ) : Option (List UInt8) :=
  if offset + n ≤ data.length then some ((data.drop offset).take n) else none

namespace TupleLayout

/-- The byte of the null bitmap with the bit of a column. -/
def byteIdx (l : TupleLayout) (colIndex : ℕ) : ℕ := l.nullBitmapOffset.toNat + colIndex / 8

/-- The null bit of a column, clear where the buffer does not reach it. -/
def nullBit (l : TupleLayout) (colIndex : ℕ) (tuple : List UInt8) : Bool :=
  match tuple[l.byteIdx colIndex]? with
  | some b => (b >>> UInt8.ofNat (colIndex % 8)) &&& 1 = 1
  | none => false

/-- The part of `read_field` behind the null check. -/
def readValue (dtype : DataType) (o : ℕ) (tuple : List UInt8) : Option Value :=
  match dtype with
  | .bool => tuple[o]?.map fun b => .bool (b ≠ 0)
  | .i8 => tuple[o]?.map fun b => .i8 b.toInt8
  | .i16 => (readLeArr 2 tuple o).map fun b => .i16 (UInt16.ofNat (Lib.ofLe b)).toInt16
  | .i32 => (readLeArr 4 tuple o).map fun b => .i32 (UInt32.ofNat (Lib.ofLe b)).toInt32
  | .i64 => (readLeArr 8 tuple o).map fun b => .i64 (UInt64.ofNat (Lib.ofLe b)).toInt64
  | .u8 => tuple[o]?.map fun b => .u8 b
  | .u16 => (readLeArr 2 tuple o).map fun b => .u16 (UInt16.ofNat (Lib.ofLe b))
  | .u32 => (readLeArr 4 tuple o).map fun b => .u32 (UInt32.ofNat (Lib.ofLe b))
  | .u64 => (readLeArr 8 tuple o).map fun b => .u64 (UInt64.ofNat (Lib.ofLe b))
  | .f32 => (readLeArr 4 tuple o).map fun b => .f32 (UInt32.ofNat (Lib.ofLe b))
  | .f64 => (readLeArr 8 tuple o).map fun b => .f64 (UInt64.ofNat (Lib.ofLe b))
  | .string => do
    let len := Lib.ofLe (← readLeArr 2 tuple o)
    let off := Lib.ofLe (← readLeArr 2 tuple (o + 2))
    if off + len ≤ tuple.length then return .string (Lib.fromUtf8Lossy ((tuple.drop off).take len))
    else return .string ""

/-- `read_field`. -/
def readField (l : TupleLayout) (colName : String) (colIndex : ℕ) (tuple : List UInt8) : Option Value := do
  let offset ← l.offsets colName
  let dtype ← l.types colName
  if l.nullBit colIndex tuple then return .null
  readValue dtype offset.toNat tuple

end TupleLayout

/-! ### The encoder and `from_bytes` -/

namespace Value

theorem firstBytes_toLe (n k : ℕ) (rest : List UInt8) :
    firstBytes n (Lib.toLe n k ++ rest) = some (Lib.toLe n k) := by
  have hlen := Lib.length_toLe n k
  rw [firstBytes, if_pos (by rw [List.length_append]; omega), List.take_left' hlen]

theorem ofNat_ofLe_u16 (v : UInt16) : UInt16.ofNat (Lib.ofLe (Lib.toLe 2 v.toNat)) = v := by
  rw [Lib.ofLe_toLe v.toNat_lt, UInt16.ofNat_toNat]

theorem ofNat_ofLe_u32 (v : UInt32) : UInt32.ofNat (Lib.ofLe (Lib.toLe 4 v.toNat)) = v := by
  rw [Lib.ofLe_toLe v.toNat_lt, UInt32.ofNat_toNat]

theorem ofNat_ofLe_u64 (v : UInt64) : UInt64.ofNat (Lib.ofLe (Lib.toLe 8 v.toNat)) = v := by
  rw [Lib.ofLe_toLe v.toNat_lt, UInt64.ofNat_toNat]

/-- The bytes of a fixed-width value give it back, whatever follows them. -/
theorem fromBytes_append {v : Value} {t : DataType} {size : ℕ} (hv : v.dataType = some t)
    (hsize : t.fixedSize = some size) (rest : List UInt8) : fromBytes t (v.toBytes ++ rest) = some v := by
  cases v with
  | null => cases hv
  | string v =>
    obtain rfl := Option.some_inj.1 hv
    cases hsize
  | bool v =>
    obtain rfl := Option.some_inj.1 hv
    cases v <;> rfl
  | i8 v | u8 v =>
    obtain rfl := Option.some_inj.1 hv
    rfl
  | i16 v =>
    obtain rfl := Option.some_inj.1 hv
    rw [fromBytes, toBytes, firstBytes_toLe, Option.map_some, ofNat_ofLe_u16]
    rfl
  | u16 v =>
    obtain rfl := Option.some_inj.1 hv
    rw [fromBytes, toBytes, firstBytes_toLe, Option.map_some, ofNat_ofLe_u16]
  | i32 v =>
    obtain rfl := Option.some_inj.1 hv
    rw [fromBytes, toBytes, firstBytes_toLe, Option.map_some, ofNat_ofLe_u32]
    rfl
  | u32 v | f32 v =>
    obtain rfl := Option.some_inj.1 hv
    rw [fromBytes, toBytes, firstBytes_toLe, Option.map_some, ofNat_ofLe_u32]
  | i64 v =>
    obtain rfl := Option.some_inj.1 hv
    rw [fromBytes, toBytes, firstBytes_toLe, Option.map_some, ofNat_ofLe_u64]
    rfl
  | u64 v | f64 v =>
    obtain rfl := Option.some_inj.1 hv
    rw [fromBytes, toBytes, firstBytes_toLe, Option.map_some, ofNat_ofLe_u64]

/-- **`from_bytes` inverts `to_bytes`.** -/
theorem fromBytes_toBytes {v : Value} {t : DataType} (hv : v.dataType = some t) :
    fromBytes t v.toBytes = some v := by
  cases hsize : t.fixedSize with
  | some size => rw [← List.append_nil v.toBytes, fromBytes_append hv hsize]
  | none =>
    cases v with
    | string v =>
      obtain rfl := Option.some_inj.1 hv
      exact congrArg (fun s => some (string s)) (Lib.fromUtf8Lossy_toUTF8 v)
    | null => cases hv
    | _ =>
      obtain rfl := Option.some_inj.1 hv
      cases hsize

end Value

/-! ### `read_field` and `from_bytes` -/

namespace TupleLayout

variable {l : TupleLayout} {colName : String} {colIndex o size : ℕ} {offset : UInt16} {t : DataType}
  {tuple : List UInt8}

theorem readField_of_offset (hoffset : l.offsets colName = some offset) (htype : l.types colName = some t) :
    l.readField colName colIndex tuple =
      if l.nullBit colIndex tuple then some .null else readValue t offset.toNat tuple := by
  rw [readField, hoffset, htype]
  rfl

/-- A field that the buffer reaches is decoded from there. -/
theorem readValue_eq_fromBytes (hsize : t.fixedSize = some size) (h : o ≤ tuple.length) :
    readValue t o tuple = Value.fromBytes t (tuple.drop o) := by
  have hget : ∀ n, readLeArr n tuple o = firstBytes n (tuple.drop o) := by
    intro n
    rw [readLeArr, firstBytes, List.length_drop]
    exact if_congr (by omega) rfl rfl
  have hhead : tuple[o]? = (tuple.drop o).head? := by rw [List.head?_drop]
  cases t with
  | string => cases hsize
  | bool | i8 | u8 => rw [readValue, Value.fromBytes, hhead]
  | _ => rw [readValue, Value.fromBytes, hget]

/-- A field that does not fit is not read. -/
theorem readValue_eq_none (hsize : t.fixedSize = some size) (h : tuple.length < o + size) :
    readValue t o tuple = none := by
  have hbyte : tuple.length < o + 1 → tuple[o]? = none := fun h => List.getElem?_eq_none (by omega)
  have harr : ∀ n, tuple.length < o + n → readLeArr n tuple o = none := fun n h => if_neg (by omega)
  cases t with
  | string => cases hsize
  | bool | i8 | u8 =>
    obtain rfl := Option.some_inj.1 hsize
    rw [readValue, hbyte h]
    rfl
  | _ =>
    obtain rfl := Option.some_inj.1 hsize
    rw [readValue, harr _ h]
    rfl

end TupleLayout

/-- **The two decoders agree and invert the encoder.** -/
theorem decoders_agree :
    (∀ (v : Value) (t : DataType), v.dataType = some t → Value.fromBytes t v.toBytes = some v) ∧
      ∀ (l : TupleLayout) (colName : String) (colIndex : ℕ) (offset : UInt16) (t : DataType) (size : ℕ)
        (tuple : List UInt8), l.offsets colName = some offset → l.types colName = some t →
        t.fixedSize = some size → l.nullBit colIndex tuple = false →
        (offset.toNat ≤ tuple.length →
          l.readField colName colIndex tuple = Value.fromBytes t (tuple.drop offset.toNat)) ∧
        (tuple.length < offset.toNat + size → l.readField colName colIndex tuple = none) := by
  refine ⟨fun v t => Value.fromBytes_toBytes,
    fun l colName colIndex offset t size tuple ho ht hsize hbit => ?_⟩
  rw [TupleLayout.readField_of_offset ho ht, hbit, if_neg Bool.false_ne_true]
  exact ⟨TupleLayout.readValue_eq_fromBytes hsize, TupleLayout.readValue_eq_none hsize⟩

/-- One column of two bytes at offset 18. -/
def shortLayout : TupleLayout := ⟨1, 16, fun _ => some 18, fun _ => some .i16, 20⟩

theorem decoders_agree_short :
    Value.fromBytes .i16 (Value.i16 (-2)).toBytes = some (.i16 (-2)) ∧
      shortLayout.readField "a" 0 (List.replicate 20 0) = Value.fromBytes .i16 [0, 0] ∧
      shortLayout.readField "a" 0 (List.replicate 19 0) = none :=
  ⟨decoders_agree.1 (.i16 (-2)) .i16 rfl,
    (decoders_agree.2 shortLayout "a" 0 18 .i16 2 (List.replicate 20 0) rfl rfl rfl rfl).1 (by decide),
    (decoders_agree.2 shortLayout "a" 0 18 .i16 2 (List.replicate 19 0) rfl rfl rfl rfl).2 (by decide)⟩

end Abdb
