/-
# The layout of a tuple

`TupleLayout` of `src/databox/layout.rs`: where the fixed part of a tuple has its columns, behind the
header and the null bitmap.  The columns are placed by their position, each behind padding to its
alignment, with offsets of 16 bits that wrap around.

As long as the columns fit in a page no offset wraps, so the layout is the placement of the columns
one after another (`addColumns_spec`), and their bytes are apart, aligned and behind the bitmap
(`layout_sound`).
-/

import Abdb.Binder.Bound
import Abdb.Databox.Encoding
import Abdb.Lib.Placement
import Mathlib.Data.List.Sort

namespace Abdb

/-- `HEADER_SIZE`: XMIN and XMAX. -/
def headerSize : UInt16 := 16

/-- `VAR_PTR_SIZE`: the length and the offset of a string. -/
def varPtrSize : UInt16 := 4

/-- `get_type_layout`: the size and the alignment of a type. -/
def getTypeLayout : DataType → UInt16 × UInt16
  | .bool | .i8 | .u8 => (1, 1)
  | .i16 | .u16 => (2, 2)
  | .i32 | .u32 | .f32 => (4, 4)
  | .i64 | .u64 | .f64 => (8, 8)
  | .string => (varPtrSize, 4)

/-- `TupleLayout`, with its maps from names as functions. -/
structure TupleLayout where
  count : UInt16
  nullBitmapOffset : UInt16
  offsets : String → Option UInt16
  types : String → Option DataType
  fixedLen : UInt16

namespace TupleLayout

/-- One turn of the loop of `from`: the next column, with `fixedLen` as the current offset. -/
def addColumn (l : TupleLayout) (col : Catalog.Column) : TupleLayout :=
  let (size, align) := getTypeLayout col.typeId
  let padding := (align - l.fixedLen % align) % align
  let offset := l.fixedLen + padding
  { l with
    offsets := Function.update l.offsets col.name (some offset)
    types := Function.update l.types col.name (some col.typeId)
    fixedLen := offset + size }

/-- `columns.sort_by_key(|c| c.position)`. -/
def byPosition (columns : List Catalog.Column) : List Catalog.Column :=
  columns.insertionSort fun c c' => c.position ≤ c'.position

/-- `From<Vec<Column>>`. -/
def ofColumns (columns : List Catalog.Column) : TupleLayout :=
  let count := UInt16.ofNat columns.length
  let nullBitmapLen := (count + 7) / 8
  (byPosition columns).foldl addColumn
    { count
      nullBitmapOffset := headerSize
      offsets := fun _ => none
      types := fun _ => none
      fixedLen := headerSize + nullBitmapLen }

/-- The length of the null bitmap. -/
def bitmapLen (l : TupleLayout) : ℕ := (l.count.toNat + 7) / 8

end TupleLayout

namespace Catalog.Column

/-- The bytes of a column. -/
def size (c : Column) : ℕ := (getTypeLayout c.typeId).1.toNat

/-- The alignment of a column. -/
def align (c : Column) : ℕ := (getTypeLayout c.typeId).2.toNat

theorem align_pos (c : Column) : 0 < c.align := by
  rw [align]
  cases c.typeId <;> decide

theorem one_le_size (c : Column) : 1 ≤ c.size := by
  rw [size]
  cases c.typeId <;> decide

end Catalog.Column

namespace TupleLayout

open Catalog (Column)

/-- The bytes that the fixed part of a tuple takes, with no bound on offsets. -/
def needed (columns : List Column) : ℕ :=
  Lib.placedEnd Column.size Column.align (16 + (columns.length + 7) / 8) (byPosition columns)

/-- A layout gives each column bytes of its own behind the null bitmap, which has a bit for each. -/
structure Sound (columns : List Column) (l : TupleLayout) : Prop where
  /-- Each column has an offset and its type. -/
  placed : ∀ c ∈ columns, ∃ o, l.offsets c.name = some o ∧ l.types c.name = some c.typeId
  apart : ∀ c ∈ columns, ∀ c' ∈ columns, c ≠ c' → ∀ o o', l.offsets c.name = some o →
    l.offsets c'.name = some o' → Lib.Apart o.toNat c.size o'.toNat c'.size
  aligned : ∀ c ∈ columns, ∀ o, l.offsets c.name = some o → c.align ∣ o.toNat
  afterBitmap : ∀ c ∈ columns, ∀ o, l.offsets c.name = some o →
    l.nullBitmapOffset.toNat + l.bitmapLen ≤ o.toNat
  within : ∀ c ∈ columns, ∀ o, l.offsets c.name = some o → o.toNat + c.size ≤ l.fixedLen.toNat
  afterHeader : headerSize ≤ l.nullBitmapOffset
  bits : columns.length ≤ 8 * l.bitmapLen

variable {l : TupleLayout} {columns columns' : List Column} {c : Column}

theorem perm_byPosition : (byPosition columns).Perm columns := List.perm_insertionSort _ _

theorem mem_byPosition : c ∈ byPosition columns ↔ c ∈ columns := perm_byPosition.mem_iff

/-- Columns of distinct positions have one order. -/
theorem byPosition_perm (hpositions : (columns.map (·.position)).Nodup) (h : columns.Perm columns') :
    byPosition columns' = byPosition columns := by
  have htotal : Std.Total fun c c' : Column => c.position ≤ c'.position := ⟨fun c c' => le_total _ _⟩
  have htrans : IsTrans Column fun c c' => c.position ≤ c'.position := ⟨fun _ _ _ => le_trans⟩
  have hperm : (byPosition columns').Perm (byPosition columns) :=
    perm_byPosition.trans (h.symm.trans perm_byPosition.symm)
  refine hperm.eq_of_pairwise (fun c c' hc hc' hle hle' => ?_) (List.pairwise_insertionSort _ _)
    (List.pairwise_insertionSort _ _)
  have hmem := h.mem_iff.2 (mem_byPosition.1 hc)
  exact List.inj_on_of_nodup_map hpositions hmem (mem_byPosition.1 hc') (le_antisymm hle hle')

/-- An offset that does not wrap. -/
theorem toNat_addColumn (h : Lib.alignUp l.fixedLen.toNat c.align + c.size < 2 ^ 16) :
    ∃ o : UInt16, (l.addColumn c).offsets c.name = some o ∧ o.toNat = Lib.alignUp l.fixedLen.toNat c.align ∧
      (l.addColumn c).fixedLen.toNat = Lib.alignUp l.fixedLen.toNat c.align + c.size := by
  rcases hlayout : getTypeLayout c.typeId with ⟨size, align⟩
  have hsize : c.size = size.toNat := by rw [Column.size, hlayout]
  have halign : c.align = align.toNat := by rw [Column.align, hlayout]
  have hpos := c.align_pos
  rw [halign] at h hpos ⊢
  rw [hsize] at h ⊢
  rw [Lib.alignUp] at h
  have hrest : l.fixedLen % align ≤ align := by
    rw [UInt16.le_iff_toNat_le, UInt16.toNat_mod]
    exact (Nat.mod_lt _ hpos).le
  have hoffset : (l.fixedLen + (align - l.fixedLen % align) % align).toNat =
      Lib.alignUp l.fixedLen.toNat align.toNat := by
    rw [UInt16.toNat_add, UInt16.toNat_mod, UInt16.toNat_sub_of_le _ _ hrest, UInt16.toNat_mod, Lib.alignUp]
    exact Nat.mod_eq_of_lt (by omega)
  refine ⟨l.fixedLen + (align - l.fixedLen % align) % align, ?_, hoffset, ?_⟩
  · simp only [addColumn, hlayout, Function.update_self]
  · simp only [addColumn, hlayout]
    rw [UInt16.toNat_add, hoffset]
    exact Nat.mod_eq_of_lt (by rw [Lib.alignUp]; omega)

theorem types_addColumn : (l.addColumn c).types c.name = some c.typeId := Function.update_self ..

/-- The columns of other names keep their places. -/
theorem foldl_addColumn_of_notMem {name : String} (h : name ∉ columns.map (·.name)) :
    (columns.foldl addColumn l).offsets name = l.offsets name ∧
      (columns.foldl addColumn l).types name = l.types name := by
  induction columns generalizing l with
  | nil => exact ⟨rfl, rfl⟩
  | cons c columns ih =>
    rw [List.map_cons, List.mem_cons, not_or] at h
    obtain ⟨hne, h⟩ := h
    obtain ⟨hoffsets, htypes⟩ := ih (l := l.addColumn c) h
    exact ⟨hoffsets.trans (Function.update_of_ne hne ..), htypes.trans (Function.update_of_ne hne ..)⟩

/-- Each column gets an offset and its type. -/
theorem foldl_addColumn_of_mem (hnames : (columns.map (·.name)).Nodup) (hc : c ∈ columns) :
    ∃ o, (columns.foldl addColumn l).offsets c.name = some o ∧
      (columns.foldl addColumn l).types c.name = some c.typeId := by
  induction columns generalizing l with
  | nil => cases hc
  | cons d columns ih =>
    obtain ⟨hnew, hnames⟩ := List.nodup_cons.1 hnames
    rcases List.mem_cons.1 hc with rfl | hc
    · obtain ⟨hoffsets, htypes⟩ := foldl_addColumn_of_notMem (l := l.addColumn c) hnew
      exact ⟨_, hoffsets.trans (Function.update_self ..), htypes.trans types_addColumn⟩
    · exact ih hnames hc

theorem offset_ofColumns (hnames : (columns.map (·.name)).Nodup) (hc : c ∈ columns) :
    ∃ o, (ofColumns columns).offsets c.name = some o ∧ (ofColumns columns).types c.name = some c.typeId :=
  foldl_addColumn_of_mem ((perm_byPosition.map _).nodup_iff.2 hnames) (mem_byPosition.2 hc)

/-- **The layout is the placement of the columns** one after another. -/
theorem addColumns_spec (hnames : (columns.map (·.name)).Nodup)
    (h : Lib.placedEnd Column.size Column.align l.fixedLen.toNat columns < 2 ^ 16) :
    (columns.foldl addColumn l).fixedLen.toNat =
        Lib.placedEnd Column.size Column.align l.fixedLen.toNat columns ∧
      ∀ p ∈ Lib.placed Column.size Column.align l.fixedLen.toNat columns,
        ∃ o, (columns.foldl addColumn l).offsets p.1.name = some o ∧ o.toNat = p.2 ∧
          (columns.foldl addColumn l).types p.1.name = some p.1.typeId := by
  induction columns generalizing l with
  | nil => exact ⟨rfl, nofun⟩
  | cons c columns ih =>
    obtain ⟨hnew, hnames⟩ := List.nodup_cons.1 hnames
    obtain ⟨o, ho, hnat, hend⟩ := toNat_addColumn (l := l) (Lib.le_placedEnd.trans_lt h)
    rw [Lib.placedEnd, ← hend] at h
    obtain ⟨hlen, hplaced⟩ := ih (l := l.addColumn c) hnames h
    rw [hend] at hlen hplaced
    refine ⟨hlen, fun p hp => ?_⟩
    rcases List.mem_cons.1 hp with rfl | hp
    · obtain ⟨hoffsets, htypes⟩ := foldl_addColumn_of_notMem (l := l.addColumn c) hnew
      exact ⟨o, hoffsets.trans ho, hnat, htypes.trans types_addColumn⟩
    · exact hplaced p hp

theorem count_foldl_addColumn : (columns.foldl addColumn l).count = l.count ∧
    (columns.foldl addColumn l).nullBitmapOffset = l.nullBitmapOffset := by
  induction columns generalizing l with
  | nil => exact ⟨rfl, rfl⟩
  | cons c columns ih => exact ih

/-- The number of columns and the start of the first one do not wrap. -/
theorem toNat_start (h : 16 + (columns.length + 7) / 8 + columns.length < 2 ^ 16) :
    (UInt16.ofNat columns.length).toNat = columns.length ∧
      (headerSize + (UInt16.ofNat columns.length + 7) / 8).toNat = 16 + (columns.length + 7) / 8 := by
  have hcount : (UInt16.ofNat columns.length).toNat = columns.length :=
    UInt16.toNat_ofNat_of_lt' (by rw [UInt16.size]; omega)
  refine ⟨hcount, ?_⟩
  have hseven : (UInt16.ofNat columns.length + 7).toNat = columns.length + 7 := by
    rw [UInt16.toNat_add, hcount]
    exact Nat.mod_eq_of_lt (by show columns.length + 7 < _; omega)
  rw [UInt16.toNat_add, UInt16.toNat_div, hseven]
  exact Nat.mod_eq_of_lt (by show 16 + (columns.length + 7) / 8 < _; omega)

section Fits

variable (hnames : (columns.map (·.name)).Nodup) (hfits : needed columns < 2 ^ 16)

include hfits

theorem length_of_fits : 16 + (columns.length + 7) / 8 + columns.length < 2 ^ 16 := by
  have hlen : (byPosition columns).length = columns.length := perm_byPosition.length_eq
  have hle : 16 + (columns.length + 7) / 8 + (byPosition columns).length ≤ needed columns :=
    Lib.add_length_le_placedEnd Column.one_le_size
  omega

theorem count_ofColumns : (ofColumns columns).count.toNat = columns.length ∧
    (ofColumns columns).nullBitmapOffset = headerSize := by
  rw [ofColumns, count_foldl_addColumn.1, count_foldl_addColumn.2]
  exact ⟨(toNat_start (length_of_fits hfits)).1, rfl⟩

include hnames

/-- Each column has the place that it gets when they are placed one after another. -/
theorem ofColumns_spec : (ofColumns columns).fixedLen.toNat = needed columns ∧
    ∀ c ∈ columns, ∃ o, (ofColumns columns).offsets c.name = some o ∧
      (ofColumns columns).types c.name = some c.typeId ∧
      (c, o.toNat) ∈ Lib.placed Column.size Column.align (16 + (columns.length + 7) / 8)
        (byPosition columns) := by
  have hstart := (toNat_start (length_of_fits hfits)).2
  have hperm : (byPosition columns).Perm columns := perm_byPosition
  obtain ⟨hlen, hplaced⟩ := addColumns_spec ((hperm.map _).nodup_iff.2 hnames) (l := ⟨_, _, _, _, _⟩) (by
    rw [hstart]
    exact hfits)
  rw [hstart] at hlen hplaced
  refine ⟨hlen, fun c hc => ?_⟩
  obtain ⟨n, hn⟩ : ∃ n, (c, n) ∈ Lib.placed Column.size Column.align (16 + (columns.length + 7) / 8)
      (byPosition columns) := Lib.exists_placed (mem_byPosition.2 hc)
  obtain ⟨o, ho, hnat, htype⟩ := hplaced _ hn
  exact ⟨o, ho, htype, by rwa [hnat]⟩

theorem sound_ofColumns : Sound columns (ofColumns columns) := by
  obtain ⟨hcount, hoffset⟩ := count_ofColumns hfits
  obtain ⟨hlen, hplaced⟩ := ofColumns_spec hnames hfits
  have hplace : ∀ c ∈ columns, ∀ o, (ofColumns columns).offsets c.name = some o →
      (c, o.toNat) ∈ Lib.placed Column.size Column.align (16 + (columns.length + 7) / 8)
        (byPosition columns) := by
    intro c hc o ho
    obtain ⟨o', ho', -, hmem⟩ := hplaced c hc
    obtain rfl := Option.some_inj.1 (ho.symm.trans ho')
    exact hmem
  exact {
    placed := fun c hc => by
      obtain ⟨o, ho, htype, -⟩ := hplaced c hc
      exact ⟨o, ho, htype⟩
    apart := fun c hc c' hc' hne o o' ho ho' =>
      Lib.placed_apart (hplace c hc o ho) (hplace c' hc' o' ho') fun h => hne (congrArg Prod.fst h)
    aligned := fun c hc o ho => Lib.dvd_of_placed Column.align_pos (hplace c hc o ho)
    afterBitmap := fun c hc o ho => by
      rw [hoffset, bitmapLen, hcount]
      exact (Lib.placed_bounds (hplace c hc o ho)).1
    within := fun c hc o ho => by
      rw [hlen]
      exact (Lib.placed_bounds (hplace c hc o ho)).2
    afterHeader := by
      rw [hoffset]
      exact UInt16.le_refl _
    bits := by
      rw [bitmapLen, hcount]
      omega }

end Fits

/-- **The layout of the columns that fit in a page is sound**, and for distinct positions the order in
which they are given does not matter. -/
theorem layout_sound (hnames : (columns.map (·.name)).Nodup) (hfits : needed columns ≤ 4096) :
    Sound columns (ofColumns columns) ∧
    ((columns.map (·.position)).Nodup → ∀ columns', columns.Perm columns' →
      ofColumns columns' = ofColumns columns) := by
  refine ⟨sound_ofColumns hnames (hfits.trans_lt (by decide)), fun hpositions columns' hperm => ?_⟩
  rw [ofColumns, ofColumns, byPosition_perm hpositions hperm, hperm.length_eq]

/-- A byte, a string and a number of eight bytes, given last column first. -/
theorem layout_three :
    let columns : List Column := [⟨3, 1, "c", .u64, 2, true⟩, ⟨2, 1, "b", .string, 1, true⟩,
      ⟨1, 1, "a", .i8, 0, true⟩]
    Sound columns (ofColumns columns) ∧ ofColumns columns.reverse = ofColumns columns := by
  intro columns
  obtain ⟨hsound, hperm⟩ := layout_sound (by decide : (columns.map (·.name)).Nodup)
    (by decide : needed columns ≤ 4096)
  exact ⟨hsound, hperm (by decide) _ (List.reverse_perm _).symm⟩

end TupleLayout
end Abdb
