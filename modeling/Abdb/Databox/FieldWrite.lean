/-
# Writing a field

`TupleLayout::write_field` of `src/databox/layout.rs`.  It should write its value and leave the other
columns alone, or refuse and leave the tuple alone (`WritesExactly`).

It never looks at the type of the column nor at the length of the buffer, and it clears the null bit
before it refuses a string.  So it does what it should exactly for a NULL whose bit the buffer has, for
a value of the column's type that fits, and for a string in a column that is not NULL, as long as the
text of another column does not reach into the bytes it changes (`writesExactly_iff`).
-/

import Abdb.Databox.Field

namespace Abdb

/-- `write_le`: nothing if out of bounds. -/
def writeLe (data : List UInt8) (offset : ℕ) (bytes : List UInt8) : List UInt8 :=
  if offset + bytes.length ≤ data.length then
    data.take offset ++ bytes ++ data.drop (offset + bytes.length)
  else data

namespace TupleLayout

open Catalog (Column)

/-- The mask of the null bit of a column in its byte. -/
def bitMask (colIndex : ℕ) : UInt8 := 1 <<< UInt8.ofNat (colIndex % 8)

/-- The tuple with the null bit of a column set, if the buffer has it. -/
def setNull (l : TupleLayout) (colIndex : ℕ) (tuple : List UInt8) : List UInt8 :=
  tuple.modify (l.byteIdx colIndex) (· ||| bitMask colIndex)

/-- The tuple with the null bit of a column cleared. -/
def clearNull (l : TupleLayout) (colIndex : ℕ) (tuple : List UInt8) : List UInt8 :=
  tuple.modify (l.byteIdx colIndex) (· &&& ~~~bitMask colIndex)

/-- `write_field`: the tuple afterwards, and the result. -/
def writeField (l : TupleLayout) (colName : String) (colIndex : ℕ) (tuple : List UInt8) (value : Value) :
    List UInt8 × Bool :=
  match l.offsets colName with
  | none => (tuple, false)
  | some offset =>
    let o := offset.toNat
    if value = .null then (l.setNull colIndex tuple, true)
    else
      let tuple := l.clearNull colIndex tuple
      match value with
      | .bool v => (tuple.set o (if v then 1 else 0), true)
      | .i8 v => (tuple.set o v.toUInt8, true)
      | .i16 v => (writeLe tuple o (Lib.toLe 2 v.toUInt16.toNat), true)
      | .i32 v => (writeLe tuple o (Lib.toLe 4 v.toUInt32.toNat), true)
      | .i64 v => (writeLe tuple o (Lib.toLe 8 v.toUInt64.toNat), true)
      | .u8 v => (tuple.set o v, true)
      | .u16 v => (writeLe tuple o (Lib.toLe 2 v.toNat), true)
      | .u32 v => (writeLe tuple o (Lib.toLe 4 v.toNat), true)
      | .u64 v => (writeLe tuple o (Lib.toLe 8 v.toNat), true)
      | .f32 bits => (writeLe tuple o (Lib.toLe 4 bits.toNat), true)
      | .f64 bits => (writeLe tuple o (Lib.toLe 8 bits.toNat), true)
      | .string _ => (tuple, false)
      | .null => (tuple, true)

/-- A write of a column with its own position: the value can be read, the other columns are what they
were, and a refused write changes nothing. -/
structure WritesExactly (columns : List Column) (l : TupleLayout) (c : Column) (tuple : List UInt8)
    (v : Value) : Prop where
  written : (l.writeField c.name c.position tuple v).2 = true →
    l.readField c.name c.position (l.writeField c.name c.position tuple v).1 = some v
  others : (l.writeField c.name c.position tuple v).2 = true → ∀ c' ∈ columns, c' ≠ c →
    l.readField c'.name c'.position (l.writeField c.name c.position tuple v).1 =
      l.readField c'.name c'.position tuple
  refused : (l.writeField c.name c.position tuple v).2 = false →
    (l.writeField c.name c.position tuple v).1 = tuple

/-- Two columns have null bits and bytes apart from each other's. -/
structure Separate (l : TupleLayout) (c c' : Column) : Prop where
  bits : c'.position ≠ c.position
  byte : ∀ o', l.offsets c'.name = some o' → Lib.Apart o'.toNat c'.size (l.byteIdx c.position) 1
  byte' : ∀ o, l.offsets c.name = some o → Lib.Apart o.toNat c.size (l.byteIdx c'.position) 1
  fields : ∀ o o', l.offsets c.name = some o → l.offsets c'.name = some o' →
    Lib.Apart o.toNat c.size o'.toNat c'.size

/-- The text of a string whose column is not NULL is the same in both tuples: the bytes that its
pointer has in the first. -/
def TextKept (l : TupleLayout) (c : Column) (tuple tuple' : List UInt8) : Prop :=
  c.typeId = .string → l.nullBit c.position tuple = false →
    ∀ o len off, l.offsets c.name = some o → readLeArr 2 tuple o.toNat = some len →
      readLeArr 2 tuple (o.toNat + 2) = some off → Lib.ofLe off + Lib.ofLe len ≤ tuple.length →
        Lib.fromUtf8Lossy ((tuple'.drop (Lib.ofLe off)).take (Lib.ofLe len)) =
          Lib.fromUtf8Lossy ((tuple.drop (Lib.ofLe off)).take (Lib.ofLe len))

/-- The bytes of a write do no harm to the other columns: no text reaches into them, and a column that
shares a null bit or bytes with the written one happens to read the same. -/
structure Harmless (columns : List Column) (l : TupleLayout) (c : Column) (tuple tuple' : List UInt8) :
    Prop where
  texts : ∀ c' ∈ columns, c' ≠ c → Separate l c c' → TextKept l c' tuple tuple'
  shared : ∀ c' ∈ columns, c' ≠ c → ¬ Separate l c c' →
    l.readField c'.name c'.position tuple' = l.readField c'.name c'.position tuple

/-- The bytes of a value do not lie over the null bit of its own column and set it. -/
def ClearOfBit (l : TupleLayout) (c : Column) (o : ℕ) (v : Value) : Prop :=
  o ≤ l.byteIdx c.position → ∀ b, v.toBytes[l.byteIdx c.position - o]? = some b →
    b.toBitVec.getLsbD (c.position % 8) = false

/-- When a write is exact: the buffer has the null bit, or the value is of the type of the column and
fits, or it is a string and the column is not NULL. -/
def Writable (columns : List Column) (l : TupleLayout) (c : Column) (tuple : List UInt8) (v : Value) : Prop :=
  match v with
  | .null => l.byteIdx c.position < tuple.length ∧ Harmless columns l c tuple (l.setNull c.position tuple)
  | .string _ => l.nullBit c.position tuple = false
  | v => v.dataType = some c.typeId ∧ ∀ o, l.offsets c.name = some o →
    o.toNat + c.size ≤ tuple.length ∧ ClearOfBit l c o.toNat v ∧
      Harmless columns l c tuple (writeLe (l.clearNull c.position tuple) o.toNat v.toBytes)

end TupleLayout

/-! ### The bits of a byte -/

section Bits

variable {b : UInt8} {k j : ℕ}

theorem and_one_iff (hk : k < 8) : (b >>> UInt8.ofNat k) &&& 1 = 1 ↔ b.toBitVec.getLsbD k = true := by
  have hnat : (UInt8.ofNat k).toBitVec.toNat = k := by
    show (UInt8.ofNat k).toNat = k
    rw [UInt8.toNat_ofNat']
    omega
  have hshift : ((b >>> UInt8.ofNat k) &&& 1).toBitVec = (b.toBitVec >>> k) &&& 1#8 := by
    rw [UInt8.toBitVec_and, UInt8.toBitVec_shiftRight, BitVec.ushiftRight_eq', BitVec.toNat_umod, hnat,
      Nat.mod_eq_of_lt (by exact hk)]
    rfl
  rw [← UInt8.toBitVec_inj, hshift, BitVec.and_one_eq_setWidth_ofBool_getLsbD, BitVec.getLsbD_ushiftRight,
    Nat.add_zero]
  cases b.toBitVec.getLsbD k <;> decide

theorem getLsbD_mask (hk : k < 8) (hj : j < 8) :
    ((1 : UInt8) <<< UInt8.ofNat k).toBitVec.getLsbD j = decide (k = j) := by
  have hall : ∀ k j : Fin 8, ((1 : UInt8) <<< UInt8.ofNat k).toBitVec.getLsbD j = decide (k.val = j.val) := by
    decide
  exact hall ⟨k, hk⟩ ⟨j, hj⟩

theorem getLsbD_set (hk : k < 8) (hj : j < 8) :
    (b ||| (1 : UInt8) <<< UInt8.ofNat k).toBitVec.getLsbD j = (b.toBitVec.getLsbD j || decide (k = j)) := by
  rw [UInt8.toBitVec_or, BitVec.getLsbD_or, getLsbD_mask hk hj]

theorem getLsbD_clear (hk : k < 8) (hj : j < 8) :
    (b &&& ~~~((1 : UInt8) <<< UInt8.ofNat k)).toBitVec.getLsbD j =
      (b.toBitVec.getLsbD j && !decide (k = j)) := by
  rw [UInt8.toBitVec_and, UInt8.toBitVec_not, BitVec.getLsbD_and, BitVec.getLsbD_not, getLsbD_mask hk hj,
    decide_eq_true hj, Bool.true_and]

end Bits

/-! ### Bytes -/

section Bytes

variable {data data' bytes : List UInt8} {o n i : ℕ}

@[simp]
theorem length_writeLe : (writeLe data o bytes).length = data.length := by
  rw [writeLe]
  split_ifs with h
  · rw [List.length_append, List.length_append, List.length_take, List.length_drop]
    omega
  · rfl

theorem getElem?_writeLe_of_apart (h : i < o ∨ o + bytes.length ≤ i) :
    (writeLe data o bytes)[i]? = data[i]? := by
  rw [writeLe]
  split_ifs with hfits
  · rcases h with h | h
    · rw [List.append_assoc, List.getElem?_append_left (by rw [List.length_take]; omega),
        List.getElem?_take_of_lt h]
    · rw [List.getElem?_append_right (by rw [List.length_append, List.length_take]; omega),
        List.getElem?_drop, List.length_append, List.length_take]
      congr 1
      omega
  · rfl

theorem drop_writeLe (h : o + bytes.length ≤ data.length) :
    (writeLe data o bytes).drop o = bytes ++ data.drop (o + bytes.length) := by
  rw [writeLe, if_pos h, List.append_assoc, List.drop_left' (by rw [List.length_take]; omega)]

/-- One byte, written if there is room for it. -/
theorem set_eq_writeLe (b : UInt8) : data.set o b = writeLe data o [b] := by
  rw [writeLe]
  split_ifs with h
  · rw [List.set_eq_take_append_cons_drop, if_pos (Nat.lt_of_succ_le h), List.append_assoc]
    rfl
  · exact List.set_eq_of_length_le (Nat.le_of_lt_succ (Nat.lt_of_not_le h))

/-- A read of bytes that are the same. -/
theorem readLeArr_congr (hlen : data'.length = data.length)
    (h : ∀ i, o ≤ i → i < o + n → data'[i]? = data[i]?) : readLeArr n data' o = readLeArr n data o := by
  rw [readLeArr, readLeArr, hlen]
  refine if_congr Iff.rfl (congrArg some (List.ext_getElem? fun i => ?_)) rfl
  by_cases hi : i < n
  · rw [List.getElem?_take_of_lt hi, List.getElem?_take_of_lt hi, List.getElem?_drop, List.getElem?_drop]
    exact h _ (by omega) (by omega)
  · rw [List.getElem?_take_eq_none (by omega), List.getElem?_take_eq_none (by omega)]

end Bytes

namespace TupleLayout

open Catalog (Column)

variable {columns : List Column} {l : TupleLayout} {c c' : Column} {colName : String} {colIndex o n size : ℕ}
  {offset : UInt16} {tuple tuple' : List UInt8} {v w : Value} {t : DataType}

/-! ### What a field depends on -/

theorem nullBit_eq : l.nullBit colIndex tuple =
    (tuple[l.byteIdx colIndex]?.map fun b => b.toBitVec.getLsbD (colIndex % 8)).getD false := by
  rw [nullBit]
  cases tuple[l.byteIdx colIndex]? with
  | none => rfl
  | some b =>
    have hbit := and_one_iff (b := b) (Nat.mod_lt colIndex (by decide : 0 < 8))
    simp only [decide_eq_decide.2 hbit, Bool.decide_eq_true, Option.map_some, Option.getD_some]

/-- A value that was read is of the column's type. -/
theorem dataType_readValue (h : readValue t o tuple = some v) : v.dataType = some t := by
  cases t with
  | string =>
    simp only [readValue, Option.bind_eq_bind, Option.bind_eq_some_iff] at h
    obtain ⟨len, -, off, -, h⟩ := h
    split_ifs at h <;> obtain rfl := Option.some_inj.1 h <;> rfl
  | _ =>
    obtain ⟨b, -, rfl⟩ := Option.map_eq_some_iff.1 h
    rfl

/-- **A fixed-width field depends on its own bytes.** -/
theorem readValue_congr (hlen : tuple'.length = tuple.length) (hsize : t.fixedSize = some size)
    (h : ∀ i, o ≤ i → i < o + size → tuple'[i]? = tuple[i]?) :
      readValue t o tuple' = readValue t o tuple := by
  have harr : ∀ n, t.fixedSize = some n → readLeArr n tuple' o = readLeArr n tuple o := by
    intro n hn
    obtain rfl := Option.some_inj.1 (hn.symm.trans hsize)
    exact readLeArr_congr hlen h
  cases t with
  | string => cases hsize
  | bool | i8 | u8 =>
    obtain rfl := Option.some_inj.1 hsize
    rw [readValue, readValue, h o le_rfl (Nat.lt_succ_self o)]
  | _ => rw [readValue, readValue, harr _ rfl]

/-- The text of a field whose pointer is the same. -/
theorem readValue_string_iff (hlen : tuple'.length = tuple.length)
    (hlength : readLeArr 2 tuple' o = readLeArr 2 tuple o)
    (hoffset : readLeArr 2 tuple' (o + 2) = readLeArr 2 tuple (o + 2)) :
    readValue .string o tuple' = readValue .string o tuple ↔ ∀ len off, readLeArr 2 tuple o = some len →
      readLeArr 2 tuple (o + 2) = some off → Lib.ofLe off + Lib.ofLe len ≤ tuple.length →
        Lib.fromUtf8Lossy ((tuple'.drop (Lib.ofLe off)).take (Lib.ofLe len)) =
          Lib.fromUtf8Lossy ((tuple.drop (Lib.ofLe off)).take (Lib.ofLe len)) := by
  rw [readValue, readValue, hlength, hoffset, hlen]
  cases readLeArr 2 tuple o with
  | none => exact iff_of_true rfl (by rintro _ _ ⟨⟩)
  | some len =>
    cases readLeArr 2 tuple (o + 2) with
    | none => exact iff_of_true rfl (by rintro _ _ _ ⟨⟩)
    | some off =>
      simp only [Option.bind_eq_bind, Option.bind_some]
      split_ifs with hfits
      · simp [hfits]
      · simp [hfits]

/-! ### What `write_field` does -/

theorem writeField_null (hoffset : l.offsets colName = some offset) :
    l.writeField colName colIndex tuple .null =
      (l.setNull colIndex tuple, true) := by
  rw [writeField, hoffset]
  rfl

theorem writeField_string (s : String) (hoffset : l.offsets colName = some offset) :
    l.writeField colName colIndex tuple (.string s) =
      (l.clearNull colIndex tuple, false) := by
  rw [writeField, hoffset]
  rfl

/-- **A fixed-width value is written as its bytes.** -/
theorem writeField_value (hoffset : l.offsets colName = some offset) (hv : v.dataType = some t)
    (hsize : t.fixedSize = some size) : l.writeField colName colIndex tuple v =
      (writeLe (l.clearNull colIndex tuple) offset.toNat v.toBytes,
        true) := by
  rw [writeField, hoffset]
  cases v with
  | null => cases hv
  | string _ =>
    obtain rfl := Option.some_inj.1 hv
    cases hsize
  | bool _ | i8 _ | u8 _ => exact congrArg (·, true) (set_eq_writeLe _)
  | _ => rfl

theorem length_toBytes (hv : v.dataType = some t) (hsize : t.fixedSize = some size) :
    v.toBytes.length = size := by
  cases v with
  | null => cases hv
  | string _ =>
    obtain rfl := Option.some_inj.1 hv
    cases hsize
  | bool _ | i8 _ | u8 _ =>
    obtain rfl := Option.some_inj.1 hv
    obtain rfl := Option.some_inj.1 hsize
    rfl
  | _ =>
    obtain rfl := Option.some_inj.1 hv
    obtain rfl := Option.some_inj.1 hsize
    exact Lib.length_toLe _ _

theorem size_of_fixedSize (hsize : c.typeId.fixedSize = some size) : c.size = size := by
  rw [Column.size]
  cases hkind : c.typeId with
  | string => rw [hkind] at hsize; cases hsize
  | _ =>
    rw [hkind] at hsize
    obtain rfl := Option.some_inj.1 hsize
    rfl

/-- The null bit of the column itself, set. -/
theorem nullBit_set : l.nullBit colIndex (l.setNull colIndex tuple) = true ↔
    l.byteIdx colIndex < tuple.length := by
  have hlt := Nat.mod_lt colIndex (by decide : 0 < 8)
  rw [nullBit_eq, setNull, List.getElem?_modify_eq]
  rcases Nat.lt_or_ge (l.byteIdx colIndex) tuple.length with h | h
  · rw [List.getElem?_eq_getElem h, Option.map_eq_map, Option.map_some, Option.map_some, Option.getD_some,
      bitMask, getLsbD_set hlt hlt, decide_eq_true rfl, Bool.or_true]
    exact iff_of_true rfl h
  · rw [List.getElem?_eq_none h]
    exact iff_of_false Bool.false_ne_true (Nat.not_lt.2 h)

/-- The null bit of the column itself, cleared. -/
theorem nullBit_clear (h : tuple'[l.byteIdx colIndex]? = tuple[l.byteIdx colIndex]?.map
    (· &&& ~~~bitMask colIndex)) :
    l.nullBit colIndex tuple' = false := by
  have hlt := Nat.mod_lt colIndex (by decide : 0 < 8)
  rw [nullBit_eq, h]
  cases tuple[l.byteIdx colIndex]? with
  | none => rfl
  | some b =>
    rw [Option.map_some, Option.map_some, Option.getD_some, bitMask, getLsbD_clear hlt hlt,
      decide_eq_true rfl, Bool.not_true, Bool.and_false]

/-- The null bit of the column itself, once it is cleared and the value is written. -/
theorem nullBit_writeLe_iff (hfits : o + v.toBytes.length ≤ (l.clearNull c.position tuple).length) :
    l.nullBit c.position (writeLe (l.clearNull c.position tuple) o v.toBytes) = false ↔
      ClearOfBit l c o v := by
  have hcleared : (l.clearNull c.position tuple)[l.byteIdx c.position]? =
      tuple[l.byteIdx c.position]?.map (· &&& ~~~bitMask c.position) := List.getElem?_modify_eq ..
  rcases Nat.lt_or_ge (l.byteIdx c.position) o with hlt | hge
  · exact iff_of_true (nullBit_clear ((getElem?_writeLe_of_apart (.inl hlt)).trans hcleared))
      fun hle => absurd hle (Nat.not_le.2 hlt)
  rcases Nat.lt_or_ge (l.byteIdx c.position) (o + v.toBytes.length) with hlt | hend
  · have hget : (writeLe (l.clearNull c.position tuple) o v.toBytes)[l.byteIdx c.position]? =
        v.toBytes[l.byteIdx c.position - o]? := by
      calc (writeLe (l.clearNull c.position tuple) o v.toBytes)[l.byteIdx c.position]?
          = ((writeLe (l.clearNull c.position tuple) o v.toBytes).drop o)[l.byteIdx c.position - o]? := by
            rw [List.getElem?_drop, Nat.add_sub_cancel' hge]
        _ = v.toBytes[l.byteIdx c.position - o]? := by
            rw [drop_writeLe hfits, List.getElem?_append_left (by omega)]
    rw [nullBit_eq, hget, List.getElem?_eq_getElem (by omega), Option.map_some, Option.getD_some, ClearOfBit]
    constructor
    · rintro h - b hb
      rwa [← Option.some_inj.1 ((List.getElem?_eq_getElem (by omega)).symm.trans hb)]
    · exact fun h => h hge _ (List.getElem?_eq_getElem _)
  · refine iff_of_true (nullBit_clear ((getElem?_writeLe_of_apart (.inr hend)).trans hcleared))
      fun _ b hb => ?_
    rw [List.getElem?_eq_none (by omega)] at hb
    cases hb

/-- A clear bit is cleared without an effect. -/
theorem modify_clear_iff : l.clearNull colIndex tuple = tuple ↔
    l.nullBit colIndex tuple = false := by
  have hlt := Nat.mod_lt colIndex (by decide : 0 < 8)
  constructor
  · intro h
    rw [← h]
    exact nullBit_clear (List.getElem?_modify_eq ..)
  · intro h
    refine List.ext_getElem? fun i => ?_
    by_cases hi : i = l.byteIdx colIndex
    · subst hi
      rw [clearNull, List.getElem?_modify_eq]
      rw [nullBit_eq] at h
      cases hget : tuple[l.byteIdx colIndex]? with
      | none => rfl
      | some b =>
        rw [hget, Option.map_some, Option.getD_some] at h
        refine congrArg some (UInt8.toBitVec_inj.1 (BitVec.eq_of_getLsbD_eq fun j hj => ?_))
        rw [bitMask, getLsbD_clear hlt hj]
        by_cases hbit : colIndex % 8 = j
        · rw [← hbit, h, Bool.false_and]
        · rw [decide_eq_false hbit, Bool.not_false, Bool.and_true]
    · exact List.getElem?_modify_ne _ _ (Ne.symm hi)

/-- A tuple after a write: another byte with the null bit of a column, and other bytes in a field. -/
structure Changed (l : TupleLayout) (c : Column) (f : UInt8 → UInt8) (o n : ℕ)
    (tuple tuple' : List UInt8) : Prop where
  length : tuple'.length = tuple.length
  byte : Lib.Apart o n (l.byteIdx c.position) 1 →
    tuple'[l.byteIdx c.position]? = tuple[l.byteIdx c.position]?.map f
  kept : ∀ i, i ≠ l.byteIdx c.position → Lib.Apart o n i 1 → tuple'[i]? = tuple[i]?

theorem Changed.modify {f : UInt8 → UInt8} :
    Changed l c f o n tuple (tuple.modify (l.byteIdx c.position) f) where
  length := List.length_modify ..
  byte _ := List.getElem?_modify_eq ..
  kept _ hi _ := List.getElem?_modify_ne _ _ (Ne.symm hi)

theorem Changed.writeLe {f : UInt8 → UInt8} {bytes : List UInt8} :
    Changed l c f o bytes.length tuple (writeLe (tuple.modify (l.byteIdx c.position) f) o bytes) where
  length := length_writeLe.trans (List.length_modify ..)
  byte h := (getElem?_writeLe_of_apart (h.symm.imp Nat.lt_of_succ_le id)).trans (List.getElem?_modify_eq ..)
  kept _ hi h := (getElem?_writeLe_of_apart (h.symm.imp Nat.lt_of_succ_le id)).trans
    (List.getElem?_modify_ne _ _ (Ne.symm hi))

/-! ### The other columns -/

section Others

variable {f : UInt8 → UInt8} {offset' : UInt16} (hsep : Separate l c c')
  (hoffset : l.offsets c.name = some offset)
  (hf : ∀ b j, j < 8 → j ≠ c.position % 8 → (f b).toBitVec.getLsbD j = b.toBitVec.getLsbD j)
  (hchanged : Changed l c f offset.toNat c.size tuple tuple')

include hsep hoffset hchanged

include hf in
/-- The null bit of another column. -/
theorem nullBit_changed : l.nullBit c'.position tuple' = l.nullBit c'.position tuple := by
  have hapart := hsep.byte' offset hoffset
  rw [nullBit_eq, nullBit_eq]
  by_cases hbyte : l.byteIdx c'.position = l.byteIdx c.position
  · have hbit : c'.position % 8 ≠ c.position % 8 := by
      have hne := hsep.bits
      rw [byteIdx, byteIdx] at hbyte
      omega
    rw [hbyte] at hapart ⊢
    rw [hchanged.byte hapart, Option.map_map]
    congr 2
    exact funext fun b => hf b _ (Nat.mod_lt _ (by decide)) hbit
  · rw [hchanged.kept _ hbyte hapart]

/-- The bytes of another column. -/
theorem kept_changed (hoffset' : l.offsets c'.name = some offset') {i : ℕ}
    (hle : offset'.toNat ≤ i) (hlt : i < offset'.toNat + c'.size) : tuple'[i]? = tuple[i]? := by
  have hbyte := hsep.byte offset' hoffset'
  have hfields := hsep.fields offset offset' hoffset hoffset'
  exact hchanged.kept i (by omega) (by omega)

include hf in
/-- **Another column is read as before** exactly if its text is the same, where it has one. -/
theorem readField_changed_iff (hoffset' : l.offsets c'.name = some offset')
    (htype' : l.types c'.name = some c'.typeId) :
    l.readField c'.name c'.position tuple' = l.readField c'.name c'.position tuple ↔
      TextKept l c' tuple tuple' := by
  have hkept : ∀ i, offset'.toNat ≤ i → i < offset'.toNat + c'.size → tuple'[i]? = tuple[i]? := fun i =>
    kept_changed hsep hoffset hchanged hoffset'
  rw [readField_of_offset hoffset' htype', readField_of_offset hoffset' htype',
    nullBit_changed hsep hoffset hf hchanged, TextKept]
  cases hnull : l.nullBit c'.position tuple with
  | true => exact iff_of_true rfl fun _ h => absurd h (by decide)
  | false =>
    rw [if_neg Bool.false_ne_true, if_neg Bool.false_ne_true]
    rw [Column.size] at hkept
    cases hkind : c'.typeId with
    | string =>
      rw [hkind] at hkept
      have hlen : readLeArr 2 tuple' offset'.toNat = readLeArr 2 tuple offset'.toNat :=
        readLeArr_congr hchanged.length fun i hle hlt =>
          hkept i hle (hlt.trans_le (Nat.add_le_add_left (by decide) _))
      have hoff : readLeArr 2 tuple' (offset'.toNat + 2) = readLeArr 2 tuple (offset'.toNat + 2) :=
        readLeArr_congr hchanged.length fun i hle hlt => hkept i ((Nat.le_add_right _ _).trans hle) hlt
      rw [readValue_string_iff hchanged.length hlen hoff]
      constructor
      · intro h _ _ o len off ho
        obtain rfl := Option.some_inj.1 (hoffset'.symm.trans ho)
        exact h len off
      · exact fun h len off => h rfl rfl offset' len off hoffset'
    | _ =>
      refine iff_of_true (readValue_congr hchanged.length rfl fun i hle hlt => hkept i hle ?_)
        (by rintro ⟨⟩)
      rwa [hkind]

omit hsep in
include hf in
theorem others_iff (hplaced : ∀ c' ∈ columns, ∃ o, l.offsets c'.name = some o ∧
    l.types c'.name = some c'.typeId) :
    (∀ c' ∈ columns, c' ≠ c → l.readField c'.name c'.position tuple' =
      l.readField c'.name c'.position tuple) ↔ Harmless columns l c tuple tuple' := by
  constructor
  · intro h
    refine ⟨fun c' hc' hne hsep => ?_, fun c' hc' hne _ => h c' hc' hne⟩
    obtain ⟨o, ho, ht⟩ := hplaced c' hc'
    exact (readField_changed_iff hsep hoffset hf hchanged ho ht).1 (h c' hc' hne)
  · intro h c' hc' hne
    obtain ⟨o, ho, ht⟩ := hplaced c' hc'
    by_cases hsep : Separate l c c'
    · exact (readField_changed_iff hsep hoffset hf hchanged ho ht).2 (h.texts c' hc' hne hsep)
    · exact h.shared c' hc' hne hsep

end Others

/-! ### The write -/

section Write

variable (hplaced : ∀ c' ∈ columns, ∃ o, l.offsets c'.name = some o ∧ l.types c'.name = some c'.typeId)
  (hc : c ∈ columns)

include hplaced hc

/-- **A string is refused** without a change exactly if the column is not NULL. -/
theorem writesExactly_string (s : String) :
    WritesExactly columns l c tuple (.string s) ↔ Writable columns l c tuple (.string s) := by
  obtain ⟨offset, hoffset, -⟩ := hplaced c hc
  have hwrite : l.writeField c.name c.position tuple (.string s) = (l.clearNull c.position tuple, false) :=
    writeField_string s hoffset
  constructor
  · rintro ⟨-, -, hrefused⟩
    rw [hwrite] at hrefused
    exact modify_clear_iff.1 (hrefused rfl)
  · intro h
    constructor <;> rw [hwrite]
    · exact nofun
    · exact nofun
    · exact fun _ => modify_clear_iff.2 h

/-- **NULL is written** exactly if the buffer has the null bit. -/
theorem writesExactly_null : WritesExactly columns l c tuple .null ↔ Writable columns l c tuple .null := by
  obtain ⟨offset, hoffset, htype⟩ := hplaced c hc
  have hf : ∀ (b : UInt8) j, j < 8 → j ≠ c.position % 8 →
      (b ||| bitMask c.position).toBitVec.getLsbD j = b.toBitVec.getLsbD j := by
    intro b j hj hne
    rw [bitMask, getLsbD_set (Nat.mod_lt _ (by decide)) hj, decide_eq_false (Ne.symm hne), Bool.or_false]
  have hchanged : Changed l c (· ||| bitMask c.position) offset.toNat c.size tuple
      (l.setNull c.position tuple) := .modify
  have hothers := others_iff hoffset hf hchanged hplaced
  have hread : l.readField c.name c.position (l.setNull c.position tuple) = some .null ↔
      l.byteIdx c.position < tuple.length := by
    rw [readField_of_offset hoffset htype, ← nullBit_set]
    split_ifs with h
    · exact iff_of_true rfl h
    · exact iff_of_false (fun hread => nomatch dataType_readValue hread) h
  have hwrite : l.writeField c.name c.position tuple .null = (l.setNull c.position tuple, true) :=
    writeField_null hoffset
  constructor
  · rintro ⟨hwritten, hkept, -⟩
    rw [hwrite] at hwritten hkept
    exact ⟨hread.1 (hwritten rfl), hothers.1 (hkept rfl)⟩
  · rintro ⟨hlt, hharmless⟩
    constructor <;> rw [hwrite]
    · exact fun _ => hread.2 hlt
    · exact fun _ => hothers.2 hharmless
    · exact nofun

/-- **A fixed-width value is written** exactly if it is of the column's type and fits. -/
theorem writesExactly_value (hv : v.dataType = some t) (hsize : t.fixedSize = some size) :
    WritesExactly columns l c tuple v ↔ v.dataType = some c.typeId ∧ ∀ o, l.offsets c.name = some o →
      o.toNat + c.size ≤ tuple.length ∧ ClearOfBit l c o.toNat v ∧
        Harmless columns l c tuple (writeLe (l.clearNull c.position tuple) o.toNat v.toBytes) := by
  obtain ⟨offset, hoffset, htype⟩ := hplaced c hc
  have hf : ∀ (b : UInt8) j, j < 8 → j ≠ c.position % 8 →
      (b &&& ~~~bitMask c.position).toBitVec.getLsbD j = b.toBitVec.getLsbD j := by
    intro b j hj hne
    rw [bitMask, getLsbD_clear (Nat.mod_lt _ (by decide)) hj, decide_eq_false (Ne.symm hne), Bool.not_false,
      Bool.and_true]
  have hwrite : l.writeField c.name c.position tuple v =
      (writeLe (l.clearNull c.position tuple) offset.toNat v.toBytes, true) :=
    writeField_value hoffset hv hsize
  have hchanged : Changed l c (· &&& ~~~bitMask c.position) offset.toNat v.toBytes.length tuple
      (writeLe (l.clearNull c.position tuple) offset.toNat v.toBytes) := .writeLe
  have hlen := length_toBytes hv hsize
  have hclear : (l.clearNull c.position tuple).length = tuple.length := List.length_modify ..
  have hothers : c.typeId = t → ((∀ c' ∈ columns, c' ≠ c → l.readField c'.name c'.position
      (writeLe (l.clearNull c.position tuple) offset.toNat v.toBytes) =
        l.readField c'.name c'.position tuple) ↔
      Harmless columns l c tuple (writeLe (l.clearNull c.position tuple) offset.toNat v.toBytes)) := by
    rintro rfl
    rw [hlen, ← size_of_fixedSize hsize] at hchanged
    exact others_iff hoffset hf hchanged hplaced
  set tuple' := writeLe (l.clearNull c.position tuple) offset.toNat v.toBytes with htuple'
  have hread : l.readField c.name c.position tuple' =
      if l.nullBit c.position tuple' then some .null else readValue c.typeId offset.toNat tuple' :=
    readField_of_offset hoffset htype
  constructor
  · rintro ⟨hwritten, hkept, -⟩
    rw [hwrite] at hwritten hkept
    have hval := hwritten rfl
    rw [hread] at hval
    split_ifs at hval with hnull
    · rw [← Option.some_inj.1 hval] at hv
      cases hv
    have heq : c.typeId = t := Option.some_inj.1 ((dataType_readValue hval).symm.trans hv)
    obtain rfl := heq
    refine ⟨hv, fun o ho => ?_⟩
    obtain rfl := Option.some_inj.1 (hoffset.symm.trans ho)
    have hfits : offset.toNat + size ≤ tuple.length := by
      by_contra hfits
      rw [readValue_eq_none hsize (by rw [hchanged.length]; omega)] at hval
      cases hval
    refine ⟨(size_of_fixedSize hsize).symm ▸ hfits, ?_, (hothers rfl).1 (hkept rfl)⟩
    exact (nullBit_writeLe_iff (by omega)).1 (Bool.eq_false_of_not_eq_true hnull)
  · rintro ⟨heq, h⟩
    obtain ⟨hfits, hbit, hharmless⟩ := h offset hoffset
    obtain rfl := Option.some_inj.1 (hv.symm.trans heq)
    rw [size_of_fixedSize hsize] at hfits
    have hnull : l.nullBit c.position tuple' = false := (nullBit_writeLe_iff (by omega)).2 hbit
    have hoffset' : offset.toNat ≤ tuple'.length := by
      rw [hchanged.length]
      omega
    constructor <;> rw [hwrite]
    · intro _
      rw [hread, hnull, if_neg Bool.false_ne_true, readValue_eq_fromBytes hsize hoffset', htuple',
        drop_writeLe (by omega), Value.fromBytes_append hv hsize]
    · exact fun _ => (hothers rfl).2 hharmless
    · exact nofun

end Write

/-- Columns that fit, with null bits of their own in the bitmap, have nothing in common. -/
theorem separate_ofColumns (hnames : (columns.map (·.name)).Nodup) (hfits : needed columns < 2 ^ 16)
    (hpositions : (columns.map (·.position)).Nodup)
    (hbits : ∀ c ∈ columns, c.position / 8 < (columns.length + 7) / 8) (hc : c ∈ columns) (hc' : c' ∈ columns)
    (hne : c' ≠ c) : Separate (ofColumns columns) c c' := by
  have hsound := sound_ofColumns hnames hfits
  have hbehind : ∀ c ∈ columns, ∀ c' ∈ columns, ∀ o, (ofColumns columns).offsets c.name = some o →
      Lib.Apart o.toNat c.size ((ofColumns columns).byteIdx c'.position) 1 := by
    intro c hc c' hc' o ho
    have hbit := hbits c' hc'
    have hafter := hsound.afterBitmap c hc o ho
    rw [bitmapLen, (count_ofColumns hfits).1] at hafter
    rw [byteIdx]
    omega
  exact ⟨fun h => hne (List.inj_on_of_nodup_map hpositions hc' hc h), hbehind c' hc' c hc,
    hbehind c hc c' hc', hsound.apart c hc c' hc' hne.symm⟩

/-- Two columns of one byte. -/
def bytePair : List Column := [⟨1, 1, "a", .i8, 0, true⟩, ⟨2, 1, "b", .i8, 1, true⟩]

end TupleLayout
end Abdb
