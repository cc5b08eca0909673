/-
# A tuple is a record

The header of a tuple (`src/accessor/visibility.rs`) and its columns (`src/databox/layout.rs`) lie in one
buffer: XMIN, XMAX, a bit for each column that is NULL, and the bytes of the columns, with the texts of the
strings behind them.  `TupleRecord` is what the buffer says, part by part, and over every run of reads and writes of any
of these the buffer behaves as that record does (`record_correct`).

A NULL only sets its bit, so the value that was stored stays behind it, and a string, which `write_field`
refuses after it has cleared the bit, brings it back.
-/

import Abdb.Databox.FieldWrite
import Abdb.Heap.Visibility
import Abdb.Lib.Machines

namespace Abdb

open Catalog (Column)
open Heap (readXmin readXmax isVisible passes tupleHeaderSize)

namespace Visibility

/-- `write_xmin`; `none` where the code panics. -/
def writeXmin (tuple : List UInt8) (xmin : TxnId) : Option (List UInt8) :=
  if 8 ≤ tuple.length then some (writeLe tuple 0 (Lib.toLe 8 xmin.toNat)) else none

/-- `write_xmax`; `none` where the code panics. -/
def writeXmax (tuple : List UInt8) (xmax : TxnId) : Option (List UInt8) :=
  if 16 ≤ tuple.length then some (writeLe tuple 8 (Lib.toLe 8 xmax.toNat)) else none

end Visibility

/-- A read or a write of a part of a tuple; a column goes with its own name and position. -/
inductive TupleCall
  | readXmin
  | readXmax
  | writeXmin (xmin : TxnId)
  | writeXmax (xmax : TxnId)
  | isVisible (txn : Txn)
  | readField (c : Column)
  | writeField (c : Column) (v : Value)

inductive TupleReply
  | unit
  | txn (id : TxnId)
  | bool (b : Bool)
  | value (v : Option Value)
deriving DecidableEq, Repr

/-- The column is one of these, and what is written to it is NULL, a string, or of its type. -/
def TupleCall.Typed (columns : List Column) : TupleCall → Prop
  | readField c => c ∈ columns
  | writeField c v => c ∈ columns ∧ (v = .null ∨ (∃ s, v = .string s) ∨
    v.dataType = some c.typeId ∧ c.typeId ≠ .string)
  | readXmin | readXmax | writeXmin _ | writeXmax _ | isVisible _ => True

namespace TupleLayout

/-- A call on the bytes of a tuple; `none` where the code panics. -/
def call (l : TupleLayout) (tuple : List UInt8) : TupleCall → Option (List UInt8 × TupleReply)
  | .readXmin => if 8 ≤ tuple.length then some (tuple, .txn (readXmin tuple)) else none
  | .readXmax => if 16 ≤ tuple.length then some (tuple, .txn (readXmax tuple)) else none
  | .writeXmin xmin => (Visibility.writeXmin tuple xmin).map fun tuple => (tuple, .unit)
  | .writeXmax xmax => (Visibility.writeXmax tuple xmax).map fun tuple => (tuple, .unit)
  | .isVisible txn => some (tuple, .bool (isVisible tuple txn))
  | .readField c => some (tuple, .value (l.readField c.name c.position tuple))
  | .writeField c v =>
    let (tuple, written) := l.writeField c.name c.position tuple v
    some (tuple, .bool written)

end TupleLayout

/-- What a tuple says: its transactions, which columns are NULL, and what is stored in each, NULL or not. -/
structure TupleRecord where
  xmin : TxnId
  xmax : TxnId
  isNull : Column → Bool
  stored : Column → Option Value

namespace TupleRecord

/-- A call on the record. -/
def call (r : TupleRecord) : TupleCall → TupleRecord × TupleReply
  | .readXmin => (r, .txn r.xmin)
  | .readXmax => (r, .txn r.xmax)
  | .writeXmin xmin => ({ r with xmin := xmin }, .unit)
  | .writeXmax xmax => ({ r with xmax := xmax }, .unit)
  | .isVisible txn => (r, .bool (passes r.xmin r.xmax txn))
  | .readField c => (r, .value (if r.isNull c then some .null else r.stored c))
  | .writeField c .null => ({ r with isNull := Function.update r.isNull c true }, .bool true)
  | .writeField c (.string _) => ({ r with isNull := Function.update r.isNull c false }, .bool false)
  | .writeField c v => ({ r with
      isNull := Function.update r.isNull c false
      stored := Function.update r.stored c (some v) }, .bool true)

/-- What the bytes say. -/
def ofBytes (l : TupleLayout) (tuple : List UInt8) : TupleRecord where
  xmin := readXmin tuple
  xmax := readXmax tuple
  isNull c := l.nullBit c.position tuple
  stored c := (l.offsets c.name).bind fun o => TupleLayout.readValue c.typeId o.toNat tuple

end TupleRecord

namespace TupleLayout

variable {columns : List Column} {l : TupleLayout} {c c' : Column} {o : ℕ} {offset : UInt16}
  {tuple tuple' heap bytes : List UInt8} {r : TupleRecord}

/-- The text of a string column lies behind the columns, if there is any. -/
def TextBehind (l : TupleLayout) (c : Column) (tuple : List UInt8) : Prop :=
  ∀ o len off, l.offsets c.name = some o → readLeArr 2 tuple o.toNat = some len →
    readLeArr 2 tuple (o.toNat + 2) = some off → Lib.ofLe len ≠ 0 → Lib.ofLe off + Lib.ofLe len ≤ tuple.length →
      l.fixedLen.toNat ≤ Lib.ofLe off

/-- The null bits of columns are different ones, in the bitmap, which ends before the columns do. -/
structure Bits (columns : List Column) (l : TupleLayout) : Prop where
  inj : ∀ c ∈ columns, ∀ c' ∈ columns, c'.position = c.position → c' = c
  within : ∀ c ∈ columns, l.byteIdx c.position < l.nullBitmapOffset.toNat + l.bitmapLen
  before : l.nullBitmapOffset.toNat + l.bitmapLen ≤ l.fixedLen.toNat

/-- **The bytes of a tuple are those of a record**, with these bytes behind the columns. -/
structure Holds (columns : List Column) (l : TupleLayout) (heap : List UInt8) (tuple : List UInt8) (r : TupleRecord) :
    Prop where
  length : tuple.length = l.fixedLen.toNat + heap.length
  heap : tuple.drop l.fixedLen.toNat = heap
  xmin : readXmin tuple = r.xmin
  xmax : readXmax tuple = r.xmax
  isNull : ∀ c ∈ columns, l.nullBit c.position tuple = r.isNull c
  stored : ∀ c ∈ columns, ∀ o, l.offsets c.name = some o → readValue c.typeId o.toNat tuple = r.stored c
  texts : ∀ c ∈ columns, c.typeId = .string → TextBehind l c tuple

/-! ### What the parts depend on -/

theorem drop_congr {n : ℕ} (h : ∀ i, n ≤ i → tuple'[i]? = tuple[i]?) : tuple'.drop n = tuple.drop n := by
  refine List.ext_getElem? fun i => ?_
  rw [List.getElem?_drop, List.getElem?_drop]
  exact h _ (Nat.le_add_right ..)

theorem take_drop_congr {n m : ℕ} (h : ∀ i, n ≤ i → i < n + m → tuple'[i]? = tuple[i]?) :
    (tuple'.drop n).take m = (tuple.drop n).take m := by
  refine List.ext_getElem? fun i => ?_
  by_cases hi : i < m
  · rw [List.getElem?_take_of_lt hi, List.getElem?_take_of_lt hi, List.getElem?_drop, List.getElem?_drop]
    exact h _ (by omega) (by omega)
  · rw [List.getElem?_take_eq_none (by omega), List.getElem?_take_eq_none (by omega)]

theorem readXmin_congr (h : ∀ i, i < 8 → tuple'[i]? = tuple[i]?) : readXmin tuple' = readXmin tuple := by
  have htake : (tuple'.drop 0).take 8 = (tuple.drop 0).take 8 := take_drop_congr fun i _ hi => h i hi
  rw [readXmin, readXmin]
  exact congrArg (fun b => UInt64.ofNat (Lib.ofLe b)) htake

theorem readXmax_congr (h : ∀ i, 8 ≤ i → i < 16 → tuple'[i]? = tuple[i]?) : readXmax tuple' = readXmax tuple := by
  rw [readXmax, readXmax, take_drop_congr h]

theorem nullBit_congr {colIndex : ℕ} (h : tuple'[l.byteIdx colIndex]? = tuple[l.byteIdx colIndex]?) :
    l.nullBit colIndex tuple' = l.nullBit colIndex tuple := by
  rw [nullBit_eq, nullBit_eq, h]

/-- A column depends on its own bytes, and on those behind the columns. -/
theorem readValue_kept (ho : l.offsets c.name = some offset) (hlen : tuple'.length = tuple.length)
    (hheap : tuple'.drop l.fixedLen.toNat = tuple.drop l.fixedLen.toNat)
    (htext : c.typeId = .string → TextBehind l c tuple)
    (h : ∀ i, offset.toNat ≤ i → i < offset.toNat + c.size → tuple'[i]? = tuple[i]?) :
    readValue c.typeId offset.toNat tuple' = readValue c.typeId offset.toNat tuple ∧
      (c.typeId = .string → TextBehind l c tuple') := by
  cases hsize : c.typeId.fixedSize with
  | some size =>
    refine ⟨readValue_congr hlen hsize ?_, fun hstring => ?_⟩
    · rwa [← size_of_fixedSize hsize]
    · rw [hstring] at hsize
      cases hsize
  | none =>
    have hstring : c.typeId = .string := by
      revert hsize
      cases c.typeId <;> simp [DataType.fixedSize]
    have hfour : c.size = 4 := by
      rw [Column.size, hstring]
      rfl
    rw [hfour] at h
    have hlength : readLeArr 2 tuple' offset.toNat = readLeArr 2 tuple offset.toNat :=
      readLeArr_congr hlen fun i hle hlt => h i hle (by omega)
    have hoffset : readLeArr 2 tuple' (offset.toNat + 2) = readLeArr 2 tuple (offset.toNat + 2) :=
      readLeArr_congr hlen fun i hle hlt => h i (by omega) (by omega)
    have hbehind := htext hstring
    constructor
    · rw [hstring, readValue_string_iff hlen hlength hoffset]
      intro len off hl hr hfits
      refine congrArg Lib.fromUtf8Lossy ?_
      by_cases hempty : Lib.ofLe len = 0
      · rw [hempty, List.take_zero, List.take_zero]
      · have hle := hbehind offset len off ho hl hr hempty hfits
        have hadd : l.fixedLen.toNat + (Lib.ofLe off - l.fixedLen.toNat) = Lib.ofLe off := by omega
        rw [← hadd, ← List.drop_drop, ← List.drop_drop, hheap]
    · intro _ o len off ho' hl hr
      obtain rfl := Option.some_inj.1 (ho.symm.trans ho')
      rw [hlength] at hl
      rw [hoffset] at hr
      rw [hlen]
      exact hbehind offset len off ho hl hr

/-- A null bit once one is set. -/
theorem nullBit_setNull {p q : ℕ} (hq : l.byteIdx q < tuple.length) :
    l.nullBit p (l.setNull q tuple) = if p = q then true else l.nullBit p tuple := by
  by_cases hpq : p = q
  · rw [hpq, if_pos rfl]
    exact nullBit_set.2 hq
  · rw [if_neg hpq, nullBit_eq, nullBit_eq, setNull]
    by_cases hbyte : l.byteIdx p = l.byteIdx q
    · have hne : q % 8 ≠ p % 8 := by
        rw [byteIdx, byteIdx] at hbyte
        omega
      rw [hbyte, List.getElem?_modify_eq]
      cases tuple[l.byteIdx q]? with
      | none => rfl
      | some b =>
        simp only [Option.map_eq_map, Option.map_some, Option.getD_some, bitMask]
        rw [getLsbD_set (Nat.mod_lt _ (by decide)) (Nat.mod_lt _ (by decide)), decide_eq_false hne, Bool.or_false]
    · rw [List.getElem?_modify_ne _ _ (Ne.symm hbyte)]

/-- A null bit once one is cleared. -/
theorem nullBit_clearNull {p q : ℕ} :
    l.nullBit p (l.clearNull q tuple) = if p = q then false else l.nullBit p tuple := by
  by_cases hpq : p = q
  · rw [hpq, if_pos rfl]
    exact nullBit_clear (List.getElem?_modify_eq ..)
  · rw [if_neg hpq, nullBit_eq, nullBit_eq, clearNull]
    by_cases hbyte : l.byteIdx p = l.byteIdx q
    · have hne : q % 8 ≠ p % 8 := by
        rw [byteIdx, byteIdx] at hbyte
        omega
      rw [hbyte, List.getElem?_modify_eq]
      cases tuple[l.byteIdx q]? with
      | none => rfl
      | some b =>
        simp only [Option.map_eq_map, Option.map_some, Option.getD_some, bitMask]
        rw [getLsbD_clear (Nat.mod_lt _ (by decide)) (Nat.mod_lt _ (by decide)), decide_eq_false hne,
          Bool.not_false, Bool.and_true]
    · rw [List.getElem?_modify_ne _ _ (Ne.symm hbyte)]

/-! ### What a write keeps -/

section Writes

variable (hsound : Sound columns l) (hbits : Bits columns l) (h : Holds columns l heap tuple r)

include hsound hbits

theorem bounds_of_bits (hc : c ∈ columns) : 16 ≤ l.byteIdx c.position ∧ l.byteIdx c.position < l.fixedLen.toNat := by
  have hheader : 16 ≤ l.nullBitmapOffset.toNat := hsound.afterHeader
  have hwithin := hbits.within c hc
  have hbefore := hbits.before
  rw [byteIdx] at hwithin ⊢
  omega

include h

/-- **A write of the header** changes nothing else. -/
theorem Holds.writeHeader {xmin xmax : TxnId} (hend : o + bytes.length ≤ 16)
    (hxmin : readXmin (writeLe tuple o bytes) = xmin) (hxmax : readXmax (writeLe tuple o bytes) = xmax) :
    Holds columns l heap (writeLe tuple o bytes) { r with xmin := xmin, xmax := xmax } := by
  have hheader : 16 ≤ l.nullBitmapOffset.toNat := hsound.afterHeader
  have hbefore := hbits.before
  have hget : ∀ i, 16 ≤ i → (writeLe tuple o bytes)[i]? = tuple[i]? := fun i hi =>
    getElem?_writeLe_of_apart (.inr (by omega))
  have hdrop : (writeLe tuple o bytes).drop l.fixedLen.toNat = tuple.drop l.fixedLen.toNat :=
    drop_congr fun i hi => hget i (by omega)
  have hkept : ∀ c ∈ columns, ∀ o', l.offsets c.name = some o' → _ := fun c hc o' ho' =>
    readValue_kept ho' length_writeLe hdrop (h.texts c hc) fun i hle _ =>
      hget i (by have := hsound.afterBitmap c hc o' ho'; omega)
  exact
    { length := length_writeLe.trans h.length
      heap := hdrop.trans h.heap
      xmin := hxmin
      xmax := hxmax
      isNull := fun c hc => (nullBit_congr (hget _ (bounds_of_bits hsound hbits hc).1)).trans (h.isNull c hc)
      stored := fun c hc o' ho' => (hkept c hc o' ho').1.trans (h.stored c hc o' ho')
      texts := fun c hc hstring => by
        obtain ⟨o', ho', -⟩ := hsound.placed c hc
        exact (hkept c hc o' ho').2 hstring }

/-- **A change of a null bit** changes nothing else. -/
theorem Holds.modifyBit (hc : c ∈ columns) {f : UInt8 → UInt8} {b : Bool}
    (hnull : ∀ p, l.nullBit p (tuple.modify (l.byteIdx c.position) f) =
      if p = c.position then b else l.nullBit p tuple) :
    Holds columns l heap (tuple.modify (l.byteIdx c.position) f)
      { r with isNull := Function.update r.isNull c b } := by
  obtain ⟨hge, hlt⟩ := bounds_of_bits hsound hbits hc
  have hget : ∀ i, i ≠ l.byteIdx c.position → (tuple.modify (l.byteIdx c.position) f)[i]? = tuple[i]? :=
    fun i hi => List.getElem?_modify_ne _ _ (Ne.symm hi)
  have hdrop : (tuple.modify (l.byteIdx c.position) f).drop l.fixedLen.toNat = tuple.drop l.fixedLen.toNat :=
    drop_congr fun i hi => hget i (by omega)
  have hkept : ∀ c' ∈ columns, ∀ o', l.offsets c'.name = some o' → _ := fun c' hc' o' ho' =>
    readValue_kept ho' (List.length_modify ..) hdrop (h.texts c' hc') fun i hle _ => hget i (by
      have hafter := hsound.afterBitmap c' hc' o' ho'
      have hwithin := hbits.within c hc
      omega)
  exact
    { length := (List.length_modify ..).trans h.length
      heap := hdrop.trans h.heap
      xmin := (readXmin_congr fun i hi => hget i (by omega)).trans h.xmin
      xmax := (readXmax_congr fun i _ hi => hget i (by omega)).trans h.xmax
      isNull := fun c' hc' => by
        dsimp only
        rw [hnull, Function.update_apply]
        by_cases hpos : c'.position = c.position
        · rw [if_pos hpos, if_pos (hbits.inj c hc c' hc' hpos)]
        · rw [if_neg hpos, if_neg fun heq => hpos (congrArg _ heq)]
          exact h.isNull c' hc'
      stored := fun c' hc' o' ho' => (hkept c' hc' o' ho').1.trans (h.stored c' hc' o' ho')
      texts := fun c' hc' hstring => by
        obtain ⟨o', ho', -⟩ := hsound.placed c' hc'
        exact (hkept c' hc' o' ho').2 hstring }

/-- **A write of a column's bytes** changes nothing else. -/
theorem Holds.writeValue (hc : c ∈ columns) (ho : l.offsets c.name = some offset) {v : Value}
    (hv : v.dataType = some c.typeId) (hfixed : c.typeId ≠ .string) :
    Holds columns l heap (writeLe tuple offset.toNat v.toBytes)
      { r with stored := Function.update r.stored c (some v) } := by
  obtain ⟨size, hsize⟩ : ∃ size, c.typeId.fixedSize = some size := by
    revert hfixed
    cases c.typeId <;> simp [DataType.fixedSize]
  have hlen : v.toBytes.length = c.size := (length_toBytes hv hsize).trans (size_of_fixedSize hsize).symm
  have hheader : 16 ≤ l.nullBitmapOffset.toNat := hsound.afterHeader
  have hafter := hsound.afterBitmap c hc offset ho
  have hwithin := hsound.within c hc offset ho
  have hget : ∀ i, i < offset.toNat ∨ offset.toNat + c.size ≤ i →
      (writeLe tuple offset.toNat v.toBytes)[i]? = tuple[i]? := fun i hi =>
    getElem?_writeLe_of_apart (by rwa [hlen])
  have hdrop : (writeLe tuple offset.toNat v.toBytes).drop l.fixedLen.toNat = tuple.drop l.fixedLen.toNat :=
    drop_congr fun i hi => hget i (.inr (by omega))
  have hkept : ∀ c' ∈ columns, c' ≠ c → ∀ o', l.offsets c'.name = some o' → _ := fun c' hc' hne o' ho' =>
    readValue_kept ho' length_writeLe hdrop (h.texts c' hc') fun i hle hlt => hget i (by
      have hapart := hsound.apart c hc c' hc' (Ne.symm hne) offset o' ho ho'
      omega)
  -- the column itself is read back from the bytes just written
  have hfits : offset.toNat + v.toBytes.length ≤ tuple.length := by
    rw [hlen, h.length]
    omega
  have hself : readValue c.typeId offset.toNat (writeLe tuple offset.toNat v.toBytes) = some v := by
    rw [readValue_eq_fromBytes hsize (by rw [length_writeLe]; omega), drop_writeLe hfits,
      Value.fromBytes_append hv hsize]
  exact
    { length := length_writeLe.trans h.length
      heap := hdrop.trans h.heap
      xmin := (readXmin_congr fun i hi => hget i (.inl (by omega))).trans h.xmin
      xmax := (readXmax_congr fun i _ hi => hget i (.inl (by omega))).trans h.xmax
      isNull := fun c' hc' => (nullBit_congr (hget _ (.inl ((hbits.within c' hc').trans_le hafter)))).trans
        (h.isNull c' hc')
      stored := fun c' hc' o' ho' => by
        dsimp only
        rw [Function.update_apply]
        by_cases heq : c' = c
        · subst heq
          obtain rfl := Option.some_inj.1 (ho.symm.trans ho')
          rw [if_pos rfl]
          exact hself
        · rw [if_neg heq]
          exact (hkept c' hc' heq o' ho').1.trans (h.stored c' hc' o' ho')
      texts := fun c' hc' hstring => by
        have hne : c' ≠ c := fun heq => hfixed (heq ▸ hstring)
        obtain ⟨o', ho', -⟩ := hsound.placed c' hc'
        exact (hkept c' hc' hne o' ho').2 hstring }

end Writes

/-! ### Calls -/

section Calls

variable (hsound : Sound columns l) (hbits : Bits columns l) (h : Holds columns l heap tuple r)

include hsound hbits h

/-- **A write of a column** on the bytes is one on the record. -/
theorem Holds.writeField (hc : c ∈ columns) {v : Value}
    (hv : v = .null ∨ (∃ s, v = .string s) ∨ v.dataType = some c.typeId ∧ c.typeId ≠ .string) :
    ∃ tuple', l.call tuple (.writeField c v) = some (tuple', (r.call (.writeField c v)).2) ∧
      Holds columns l heap tuple' (r.call (.writeField c v)).1 := by
  obtain ⟨offset, ho, -⟩ := hsound.placed c hc
  have hlt : l.byteIdx c.position < tuple.length := by
    rw [h.length]
    exact (bounds_of_bits hsound hbits hc).2.trans_le (Nat.le_add_right ..)
  have hcleared : Holds columns l heap (l.clearNull c.position tuple)
      { r with isNull := Function.update r.isNull c false } :=
    h.modifyBit hsound hbits hc fun _ => nullBit_clearNull
  rcases hv with rfl | ⟨s, rfl⟩ | ⟨hv, hfixed⟩
  · refine ⟨l.setNull c.position tuple, ?_, h.modifyBit hsound hbits hc fun _ => nullBit_setNull hlt⟩
    rw [call, writeField_null ho]
    rfl
  · refine ⟨l.clearNull c.position tuple, ?_, hcleared⟩
    rw [call, writeField_string s ho]
    rfl
  · obtain ⟨size, hsize⟩ : ∃ size, c.typeId.fixedSize = some size := by
      revert hfixed
      cases c.typeId <;> simp [DataType.fixedSize]
    have hwritten := hcleared.writeValue hsound hbits hc ho hv hfixed
    refine ⟨writeLe (l.clearNull c.position tuple) offset.toNat v.toBytes, ?_, ?_⟩
    · rw [call, writeField_value ho hv hsize]
      cases v with
      | null => cases hv
      | string s => exact absurd (Option.some_inj.1 hv).symm hfixed
      | _ => rfl
    · cases v with
      | null => cases hv
      | string s => exact absurd (Option.some_inj.1 hv).symm hfixed
      | _ => exact hwritten

/-- **A call on the bytes is one on the record.** -/
theorem Holds.call {call : TupleCall} (hcall : call.Typed columns) :
    ∃ tuple', l.call tuple call = some (tuple', (r.call call).2) ∧ Holds columns l heap tuple' (r.call call).1 := by
  have hheader : 16 ≤ l.nullBitmapOffset.toNat := hsound.afterHeader
  have hlen : 16 ≤ tuple.length := by
    have hbefore := hbits.before
    rw [h.length]
    omega
  cases call with
  | readXmin =>
    refine ⟨tuple, ?_, h⟩
    rw [TupleLayout.call, if_pos (by omega), h.xmin]
    rfl
  | readXmax =>
    refine ⟨tuple, ?_, h⟩
    rw [TupleLayout.call, if_pos hlen, h.xmax]
    rfl
  | isVisible txn =>
    refine ⟨tuple, ?_, h⟩
    rw [TupleLayout.call, isVisible, tupleHeaderSize, if_neg (Nat.not_lt.2 hlen), h.xmin, h.xmax]
    rfl
  | writeXmin xmin =>
    have hbytes : (Lib.toLe 8 xmin.toNat).length = 8 := Lib.length_toLe ..
    refine ⟨writeLe tuple 0 (Lib.toLe 8 xmin.toNat), ?_, h.writeHeader hsound hbits (by omega) ?_ ?_⟩
    · rw [TupleLayout.call, Visibility.writeXmin, if_pos (by omega)]
      rfl
    · have hdrop : (writeLe tuple 0 (Lib.toLe 8 xmin.toNat)).drop 0 = _ := drop_writeLe (by omega)
      rw [List.drop_zero] at hdrop
      rw [readXmin, hdrop, List.take_left' hbytes, Heap.Version.ofNat_ofLe]
    · exact (readXmax_congr fun i hi _ => getElem?_writeLe_of_apart (.inr (by omega))).trans h.xmax
  | writeXmax xmax =>
    have hbytes : (Lib.toLe 8 xmax.toNat).length = 8 := Lib.length_toLe ..
    refine ⟨writeLe tuple 8 (Lib.toLe 8 xmax.toNat), ?_, h.writeHeader hsound hbits (by omega) ?_ ?_⟩
    · rw [TupleLayout.call, Visibility.writeXmax, if_pos hlen]
      rfl
    · exact (readXmin_congr fun i hi => getElem?_writeLe_of_apart (.inl hi)).trans h.xmin
    · rw [readXmax, drop_writeLe (by omega), List.take_left' hbytes, Heap.Version.ofNat_ofLe]
  | readField c =>
    obtain ⟨offset, ho, htype⟩ := hsound.placed c hcall
    refine ⟨tuple, ?_, h⟩
    rw [TupleLayout.call, readField_of_offset ho htype, h.isNull c hcall, h.stored c hcall offset ho]
    rfl
  | writeField c v => exact h.writeField hsound hbits hcall.1 hcall.2

end Calls

/-! ### Runs -/

/-- Columns that fit have null bits of their own. -/
theorem bits_ofColumns (hnames : (columns.map (·.name)).Nodup) (hpositions : (columns.map (·.position)).Nodup)
    (hbits : ∀ c ∈ columns, c.position / 8 < (columns.length + 7) / 8) (hfits : needed columns < 2 ^ 16) :
    Bits columns (ofColumns columns) := by
  obtain ⟨hcount, hoffset⟩ := count_ofColumns hfits
  have hend := (ofColumns_spec hnames hfits).1
  have hle : 16 + (columns.length + 7) / 8 ≤ needed columns := Lib.le_placedEnd
  have hheader : headerSize.toNat = 16 := rfl
  constructor
  · exact fun c hc c' hc' hpos => List.inj_on_of_nodup_map hpositions hc' hc hpos
  · intro c hc
    rw [byteIdx, bitmapLen, hcount]
    exact Nat.add_lt_add_left (hbits c hc) _
  · rw [hoffset, bitmapLen, hcount, hend, hheader]
    exact hle

/-- What bytes say is what they hold. -/
theorem holds_ofBytes (hlen : l.fixedLen.toNat ≤ tuple.length)
    (htexts : ∀ c ∈ columns, c.typeId = .string → TextBehind l c tuple) :
    Holds columns l (tuple.drop l.fixedLen.toNat) tuple (.ofBytes l tuple) where
  length := by
    rw [List.length_drop]
    omega
  heap := rfl
  xmin := rfl
  xmax := rfl
  isNull _ _ := rfl
  stored c _ o ho := by
    simp only [TupleRecord.ofBytes, ho, Option.bind_some]
  texts := htexts

/-- **A tuple is a record.**  Whatever reads and writes of its header and its columns come, each gives what it
gives on the record that the bytes say, and the bytes behind the columns stay. -/
theorem record_correct (columns : List Column) (tuple : List UInt8) (calls : List TupleCall)
    (hnames : (columns.map (·.name)).Nodup) (hpositions : (columns.map (·.position)).Nodup)
    (hbits : ∀ c ∈ columns, c.position / 8 < (columns.length + 7) / 8) (hfits : needed columns < 2 ^ 16)
    (hlen : needed columns ≤ tuple.length)
    (htexts : ∀ c ∈ columns, c.typeId = .string → TextBehind (ofColumns columns) c tuple)
    (hcalls : ∀ call ∈ calls, call.Typed columns) :
    ∃ tuple', Lib.runCalls (ofColumns columns).call tuple calls =
        some (tuple', (Lib.runSpec TupleRecord.call (.ofBytes (ofColumns columns) tuple) calls).2) ∧
      tuple'.length = tuple.length ∧ tuple'.drop (needed columns) = tuple.drop (needed columns) := by
  have hend := (ofColumns_spec hnames hfits).1
  rw [← hend] at hlen ⊢
  have hholds := holds_ofBytes hlen htexts
  have hsound := sound_ofColumns hnames hfits
  have hown := bits_ofColumns hnames hpositions hbits hfits
  have hstep : ∀ t r call, call.Typed columns →
      Holds columns (ofColumns columns) (tuple.drop (ofColumns columns).fixedLen.toNat) t r →
      ∃ t', (ofColumns columns).call t call = some (t', (TupleRecord.call r call).2) ∧
        Holds columns (ofColumns columns) (tuple.drop (ofColumns columns).fixedLen.toNat) t'
          (TupleRecord.call r call).1 := fun t r call hcall h => h.call hsound hown hcall
  obtain ⟨tuple', hrun, hholds'⟩ := Lib.run_of_simulates hstep hholds hcalls
  exact ⟨tuple', hrun, hholds'.length.trans hholds.length.symm, hholds'.heap⟩

/-- A byte, a string and a number of eight bytes. -/
def mixed : List Column := [⟨1, 1, "a", .i8, 0, true⟩, ⟨2, 1, "b", .string, 1, true⟩, ⟨3, 1, "c", .u64, 2, true⟩]

/-- A NULL hides the byte that was stored, and a refused string brings it back. -/
theorem record_correct_hidden :
    let a : Column := ⟨1, 1, "a", .i8, 0, true⟩
    let calls : List TupleCall := [.writeXmin 7, .writeField a (.i8 5), .writeField a .null, .readField a,
      .writeField a (.string "x"), .readField a, .isVisible ⟨7, .snapshot⟩]
    ∃ tuple', Lib.runCalls (ofColumns mixed).call (List.replicate 40 0) calls =
        some (tuple', [.unit, .bool true, .bool true, .value (some .null), .bool false, .value (some (.i8 5)),
          .bool true]) ∧
      tuple'.length = 40 ∧ tuple'.drop 40 = [] := by
  intro a calls
  have htexts : ∀ c ∈ mixed, c.typeId = .string → TextBehind (ofColumns mixed) c (List.replicate 40 0) := by
    intro c hc hstring o len off ho hl _ hlen
    have hb : c = ⟨2, 1, "b", .string, 1, true⟩ := by
      simp only [mixed, List.mem_cons, List.not_mem_nil, or_false] at hc
      rcases hc with rfl | rfl | rfl
      · cases hstring
      · rfl
      · cases hstring
    subst hb
    obtain rfl := Option.some_inj.1 (ho : some 20 = some o)
    obtain rfl := Option.some_inj.1 (hl : some [0, 0] = some len)
    exact absurd rfl hlen
  have hcalls : ∀ call ∈ calls, call.Typed mixed := by
    simp [calls, a, TupleCall.Typed, mixed, Value.dataType]
  obtain ⟨tuple', hrun, hlen, hrest⟩ := record_correct mixed (List.replicate 40 0) calls (by decide) (by decide)
    (by decide) (by decide) (by decide) htexts hcalls
  refine ⟨tuple', hrun.trans (congrArg some ?_), hlen, ?_⟩
  · rfl
  · rw [List.drop_eq_nil_of_le]
    rw [hlen]
    rfl

end TupleLayout
end Abdb
