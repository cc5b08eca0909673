/-
# The writes of the index pages

The methods of `src/page/overlays/index` and `src/page/overlays/directory` that write, byte by byte.
Leaf and inner pages of both make the same moves: `init` clears the buffer and writes the headers
(`initUber`), `delete_entry` and `delete_separator` copy the entries above down over the one that
goes (`delete`), and an update writes an entry in place.  As in `insert`, the later ones of the
entries are moved by a copy that overlaps its source.

A header is read, changed and written back as a whole.  That is a write of the changed field alone
(`updateLeafHeader_nextPage`), which is `setCount` where it is the number of the entries
(`updateLeafHeader_numEntries`, `updateInnerHeader_numKeys`).

Within the capacity the methods edit the list of the entries (`entries`) and keep the rest of the
page (`Edited`): `insert_of_absent`, `delete_of_lt`, `setEntry_of_lt`.
-/

import Abdb.Page.IndexBuffer

namespace Abdb

open Lib

/-- The type byte of a page type. -/
def PageType.byte : PageType → ℕ
  | .unused => 0
  | .heapPage => 1
  | .btreeInner => 2
  | .btreeLeaf => 3
  | .heapFileHeader => 32
  | .indexFileHeader => 33
  | .directoryFileHeader => 34
  | .directoryInner => 64
  | .directoryLeaf => 65

@[simp] theorem PageType.tryFrom_byte (t : PageType) : tryFrom t.byte = some t := by cases t <;> rfl

theorem PageType.byte_lt (t : PageType) : t.byte < 256 := by cases t <;> decide

/-- `UberPageHeader`. -/
structure UberPageHeader where
  pageLsn : ℕ
  pageId : LPageId
  pageTypeId : ℕ
  pad : List UInt8

def UberPageHeader.bytes (h : UberPageHeader) : List UInt8 :=
  toLe 8 h.pageLsn ++ toLe 4 h.pageId ++ toLe 1 h.pageTypeId ++ h.pad

/-- `BTreeLeafHeader` and `DirectoryLeafHeader`. -/
structure LeafHeader where
  numEntries : ℕ
  flags : ℕ
  nextPage : LPageId
  prevPage : LPageId
  reservedLo : ℕ
  reservedHi : ℕ
  padding : ℕ

def LeafHeader.bytes (h : LeafHeader) : List UInt8 :=
  toLe 2 h.numEntries ++ toLe 2 h.flags ++ toLe 4 h.nextPage ++ toLe 4 h.prevPage ++
    toLe 4 h.reservedLo ++ toLe 4 h.reservedHi ++ toLe 4 h.padding

/-- `BTreeInnerHeader` and `DirectoryInnerHeader`. -/
structure InnerHeader where
  numKeys : ℕ
  flags : ℕ
  leftmostChild : LPageId

def InnerHeader.bytes (h : InnerHeader) : List UInt8 :=
  toLe 2 h.numKeys ++ toLe 2 h.flags ++ toLe 4 h.leftmostChild

namespace PageBuffer

variable (L : IndexLayout) (b : PageBuffer)

/-- `fill`. -/
def fill (_b : PageBuffer) (value : UInt8) : PageBuffer := ⟨fun _ => value⟩

/-- `read_uber_header`. -/
def readUberHeader : UberPageHeader := ⟨b.field 0 8, b.field 8 4, b.field 12 1, extract b.data 13 3⟩

/-- What `init` of every index page starts with. -/
def initUber (pageType : PageType) (pageId : LPageId) : PageBuffer :=
  let buffer := b.fill 0
  let uber := { buffer.readUberHeader with pageLsn := 0, pageId := pageId, pageTypeId := pageType.byte }
  ⟨overwrite buffer.data 0 uber.bytes⟩

def leafHeader : LeafHeader :=
  ⟨b.field uberHeaderSize 2, b.field (uberHeaderSize + 2) 2, b.field (uberHeaderSize + 4) 4,
    b.field (uberHeaderSize + 8) 4, b.field (uberHeaderSize + 12) 4, b.field (uberHeaderSize + 16) 4,
    b.field (uberHeaderSize + 20) 4⟩

/-- `update_leaf_header`. -/
def updateLeafHeader (f : LeafHeader → LeafHeader) : PageBuffer :=
  ⟨overwrite b.data uberHeaderSize (f b.leafHeader).bytes⟩

def setNextPage (pageId : LPageId) : PageBuffer := b.updateLeafHeader fun h => { h with nextPage := pageId }

def setPrevPage (pageId : LPageId) : PageBuffer := b.updateLeafHeader fun h => { h with prevPage := pageId }

def innerHeader : InnerHeader :=
  ⟨b.field uberHeaderSize 2, b.field (uberHeaderSize + 2) 2, b.field (uberHeaderSize + 4) 4⟩

/-- `update_inner_header`. -/
def updateInnerHeader (f : InnerHeader → InnerHeader) : PageBuffer :=
  ⟨overwrite b.data uberHeaderSize (f b.innerHeader).bytes⟩

/-- `init` of an inner page. -/
def initInner (pageType : PageType) (pageId leftmostChild : LPageId) : PageBuffer :=
  let b := b.initUber pageType pageId
  ⟨overwrite b.data uberHeaderSize (InnerHeader.mk 0 0 leftmostChild).bytes⟩

/-- `lookup`, with the value that the bytes of an entry stand for. -/
def lookup {R : Type*} (valueOf : List UInt8 → R) (key : ℕ) : Option (Option R) :=
  match b.findSlot L key with
  | none => none
  | some (true, pos) => (b.entryUnwrap L pos).map fun e => some (valueOf e)
  | some (false, _) => some none

/-- `delete_entry` and `delete_separator`. -/
def delete (index : ℕ) : Option (PageBuffer × Except OverlayError Unit) :=
  if b.count ≤ index then some (b, .error (.indexOutOfBounds index b.count))
  else
    let shifted :=
      if index < b.count - 1 then
        b.copyWithin (L.entriesOffset + 16 * (index + 1)) (16 * (b.count - 1 - index))
          (L.entriesOffset + 16 * index)
      else some b
    match shifted with
    | none => none
    | some b' => some (b'.setCount (b.count - 1), .ok ())

/-- `delete_by_key`. -/
def deleteByKey (key : ℕ) : Option (PageBuffer × Except OverlayError Bool) :=
  match b.findSlot L key with
  | none => none
  | some (true, pos) =>
    match b.delete L pos with
    | none => none
    | some (b', .ok ()) => some (b', .ok true)
    | some (b', .error err) => some (b', .error err)
  | some (false, _) => some (b, .ok false)

/-- `update_entry`, with the bytes of the new entry. -/
def update (key : ℕ) (e : List UInt8) : Option (PageBuffer × Except OverlayError Bool) :=
  match b.findSlot L key with
  | none => none
  | some (true, pos) => (b.setEntry L pos e).map fun b' => (b', .ok true)
  | some (false, _) => some (b, .ok false)

/-- `update_child`: the entry of an index is read and written back with another child. -/
def updateAt (index : ℕ) (f : List UInt8 → List UInt8) : Option (PageBuffer × Except OverlayError Unit) :=
  if b.count ≤ index then some (b, .error (.indexOutOfBounds index b.count))
  else
    match b.entry L index with
    | none => none
    | some (.error err) => some (b, .error err)
    | some (.ok e) => (b.setEntry L index (f e)).map fun b' => (b', .ok ())

/-- The bytes of the entries in use. -/
def entries : List (List UInt8) := (List.range b.count).map (b.rawEntry L)

/-- Below the entries, nothing but the count has changed. -/
def Kept (b b' : PageBuffer) : Prop :=
  ∀ o < L.entriesOffset, Apart o 1 uberHeaderSize 2 → b'.data o = b.data o

/-- The page has these entries now, and is else the same. -/
structure Edited (b b' : PageBuffer) (es : List (List UInt8)) : Prop where
  entries : b'.entries L = es
  kept : Kept L b b'

/-! ### Headers -/

variable {L b} {index pos key n : ℕ} {pageId : LPageId} {e : List UInt8} {b' : PageBuffer}

theorem toLe_field (o n : ℕ) : toLe n (b.field o n) = extract b.data o n := by
  have h := toLe_ofLe (extract b.data o n)
  rwa [length_extract] at h

/-- A field of one byte is the byte. -/
theorem data_eq_of_field {o : ℕ} (h : b'.field o 1 = b.field o 1) : b'.data o = b.data o := by
  have hbytes : extract b'.data o 1 = extract b.data o 1 := by rw [← toLe_field, ← toLe_field, h]
  exact (List.cons.inj hbytes).1

/-- **`set_next_page` writes its field alone.** -/
theorem setNextPage_eq : b.setNextPage pageId = ⟨overwrite b.data 20 (toLe 4 pageId)⟩ := by
  have hbytes : ({ b.leafHeader with nextPage := pageId } : LeafHeader).bytes =
      extract b.data 16 4 ++ toLe 4 pageId ++ extract b.data 24 16 := by
    simp only [leafHeader, LeafHeader.bytes, toLe_field, uberHeaderSize, List.append_assoc]
    rfl
  rw [setNextPage, updateLeafHeader, hbytes]
  exact congrArg PageBuffer.mk (overwrite_inside (l := toLe 4 pageId))

/-- **`set_prev_page` writes its field alone.** -/
theorem setPrevPage_eq : b.setPrevPage pageId = ⟨overwrite b.data 24 (toLe 4 pageId)⟩ := by
  have hbytes : ({ b.leafHeader with prevPage := pageId } : LeafHeader).bytes =
      extract b.data 16 8 ++ toLe 4 pageId ++ extract b.data 28 12 := by
    simp only [leafHeader, LeafHeader.bytes, toLe_field, uberHeaderSize, List.append_assoc]
    rfl
  rw [setPrevPage, updateLeafHeader, hbytes]
  exact congrArg PageBuffer.mk (overwrite_inside (l := toLe 4 pageId))

/-- **`set_num_entries` writes the count alone.** -/
theorem updateLeafHeader_numEntries :
    (b.updateLeafHeader fun h => { h with numEntries := n }) = b.setCount n := by
  have hbytes : ({ b.leafHeader with numEntries := n } : LeafHeader).bytes =
      extract b.data 16 0 ++ toLe 2 n ++ extract b.data 18 22 := by
    simp only [leafHeader, LeafHeader.bytes, toLe_field, uberHeaderSize, List.append_assoc]
    rfl
  rw [updateLeafHeader, hbytes]
  exact congrArg PageBuffer.mk (overwrite_inside (l := toLe 2 n))

/-- **`set_num_keys` writes the count alone.** -/
theorem updateInnerHeader_numKeys :
    (b.updateInnerHeader fun h => { h with numKeys := n }) = b.setCount n := by
  have hbytes : ({ b.innerHeader with numKeys := n } : InnerHeader).bytes =
      extract b.data 16 0 ++ toLe 2 n ++ extract b.data 18 6 := by
    simp only [innerHeader, InnerHeader.bytes, toLe_field, uberHeaderSize, List.append_assoc]
    rfl
  rw [updateInnerHeader, hbytes]
  exact congrArg PageBuffer.mk (overwrite_inside (l := toLe 2 n))

/-- A field apart from what is written. -/
theorem field_write {o o' : ℕ} {l : List UInt8} (h : Apart o' n o l.length) :
    field ⟨overwrite b.data o l⟩ o' n = b.field o' n :=
  congrArg ofLe (extract_overwrite_of_apart h)

/-- The field that is written. -/
theorem field_write_self {o v : ℕ} (h : v < 256 ^ n) : field ⟨overwrite b.data o (toLe n v)⟩ o n = v := by
  rw [field, extract_overwrite (length_toLe ..).symm, ofLe_toLe h]

/-- A write of a field leaves the other bytes alone. -/
theorem data_write_of_apart {o v i : ℕ} (h : i < o ∨ o + n ≤ i) :
    PageBuffer.data ⟨overwrite b.data o (toLe n v)⟩ i = b.data i := by
  rcases h with h | h
  · exact overwrite_of_lt h
  · exact overwrite_of_le (by rwa [length_toLe])

/-! ### New pages -/

/-- A field of a cleared buffer. -/
theorem field_fill {o : ℕ} : (b.fill 0).field o n = 0 := by
  induction n generalizing o with
  | zero => rfl
  | succ n ih =>
    have hcons : extract (b.fill 0).data o (n + 1) = 0 :: extract (b.fill 0).data (o + 1) n := rfl
    have hrest : ofLe (extract (b.fill 0).data (o + 1) n) = 0 := ih
    rw [field, hcons]
    show 0 + 256 * ofLe (extract (b.fill 0).data (o + 1) n) = 0
    rw [hrest]

theorem length_uberHeader (h : UberPageHeader) (hpad : h.pad.length = 3) : h.bytes.length = 16 := by
  simp [UberPageHeader.bytes, hpad]

/-- The fields behind the uber header of a new page. -/
theorem field_initUber {o : ℕ} {t : PageType} (ho : uberHeaderSize ≤ o) :
    (b.initUber t pageId).field o n = 0 := by
  rw [initUber, field, extract_overwrite_of_apart (Or.inr ?_)]
  · exact field_fill
  · rw [length_uberHeader _ (length_extract ..)]
    exact ho

/-- The uber header of a new page. -/
theorem extract_initUber {t : PageType} : extract (b.initUber t pageId).data 0 16 =
    toLe 8 0 ++ toLe 4 pageId ++ toLe 1 t.byte ++ extract (b.fill 0).data 13 3 := by
  have hread : ∀ h : UberPageHeader, h.pad.length = 3 →
      extract (overwrite (b.fill 0).data 0 h.bytes) 0 16 = h.bytes := fun h hpad =>
    extract_overwrite (length_uberHeader h hpad).symm
  exact hread ⟨0, pageId, t.byte, extract (b.fill 0).data 13 3⟩ (length_extract ..)

theorem pageTypeByte_initUber {t : PageType} : (b.initUber t pageId).pageTypeByte = t.byte := by
  have h : (b.initUber t pageId).pageTypeByte = ofLe (toLe 1 t.byte) :=
    congrArg (fun l : List UInt8 => ofLe ((l.drop 12).take 1)) extract_initUber
  rw [h, ofLe_toLe t.byte_lt]

theorem pageId_initUber {t : PageType} (hid : pageId < 2 ^ 32) :
    (b.initUber t pageId).field 8 4 = pageId := by
  have h : (b.initUber t pageId).field 8 4 = ofLe (toLe 4 pageId) :=
    congrArg (fun l : List UInt8 => ofLe ((l.drop 8).take 4)) extract_initUber
  rw [h, ofLe_toLe hid]

/-- **A new page has the type it was made with.** -/
theorem validateType_initUber {t : PageType} :
    (b.initUber t pageId).validateType t = .ok (b.initUber t pageId) := by
  rw [validateType, pageTypeByte_initUber, PageType.tryFrom_byte]
  exact if_pos rfl

/-! ### Entries -/

theorem count_setCount (h : n < 2 ^ 16) : (b.setCount n).count = n := field_write_self h

theorem count_lt (hcap : b.count ≤ L.capacity) : b.count < 2 ^ 16 := by
  rcases Nat.eq_zero_or_pos b.count with h | h
  · rw [h]
    decide
  · have hfits := (L.fits (b.count - 1)).2 (by omega)
    simp only [pageBufSize] at hfits
    omega

@[simp] theorem length_entries : (b.entries L).length = b.count := by simp [entries]

theorem getElem?_entries (i : ℕ) :
    (b.entries L)[i]? = if i < b.count then some (b.rawEntry L i) else none := by
  split_ifs with hi <;> simp [entries, hi]

theorem entries_eq_nil (h : b.count = 0) : b.entries L = [] := by
  rw [← List.length_eq_zero_iff, length_entries, h]

/-- A write between the count and the entries keeps the entries. -/
theorem entries_write {o : ℕ} {l : List UInt8} (hcount : uberHeaderSize + 2 ≤ o)
    (hentries : o + l.length ≤ L.entriesOffset) : entries L ⟨overwrite b.data o l⟩ = b.entries L := by
  have hnum : PageBuffer.count ⟨overwrite b.data o l⟩ = b.count := field_write (Or.inl hcount)
  rw [entries, hnum]
  exact List.map_congr_left fun i _ => extract_overwrite_of_apart (Or.inr (by omega))

theorem Kept.refl : Kept L b b := fun _ _ _ => rfl

theorem Kept.field {o n : ℕ} (h : Kept L b b') (hbelow : o + n ≤ L.entriesOffset)
    (happart : Apart o n uberHeaderSize 2) : b'.field o n = b.field o n :=
  congrArg ofLe (extract_congr fun i hle hlt => h i (by omega) (by omega))

theorem Edited.count {es : List (List UInt8)} (h : Edited L b b' es) : b'.count = es.length := by
  rw [← h.entries, length_entries]

/-- **`find_slot` is the search in the list of the entries.** -/
theorem findSlot_eq_entries (hcap : b.count ≤ L.capacity) :
    b.findSlot L key = some (Lib.findSlot keyOf (b.entries L) key) := by
  rw [findSlot_eq hcap, Lib.findSlot, length_entries]
  congr 1
  refine bsearch_congr fun i hi => ?_
  rw [cmpAt, getElem?_entries, if_pos hi]
  rfl

variable (hoff : uberHeaderSize + 2 ≤ L.entriesOffset)
include hoff

/-- **An absent key is inserted** where the search ends. -/
theorem insert_of_absent (hcap : b.count < L.capacity) (hfind : b.findSlot L key = some (false, pos))
    (he : e.length = 16) : ∃ b', b.insert L key e = some (b', .ok ()) ∧
      Edited L b b' ((b.entries L).insertIdx pos e) := by
  obtain ⟨b', hinsert, hcount, hpos, hentries, hfields⟩ := insert_of_miss hcap hfind he hoff
  refine ⟨b', hinsert, ?_, fun o ho happart => data_eq_of_field (hfields o 1 ho happart)⟩
  have hmap := map_rawEntry_insert id hpos hentries
  rw [entries, hcount]
  exact hmap

/-- **The entries above a deleted one move down.** -/
theorem delete_of_lt (hcap : b.count ≤ L.capacity) (hindex : index < b.count) :
    ∃ b', b.delete L index = some (b', .ok ()) ∧ Edited L b b' ((b.entries L).eraseIdx index) := by
  have hroom := (L.fits (b.count - 1)).2 (by omega)
  have hlt := count_lt hcap
  -- the shift
  obtain ⟨b₁, hb₁, hmoved, hkept⟩ : ∃ b₁ : PageBuffer, (if index < b.count - 1 then
      b.copyWithin (L.entriesOffset + 16 * (index + 1)) (16 * (b.count - 1 - index))
        (L.entriesOffset + 16 * index)
      else some b) = some b₁ ∧
      (∀ i, index ≤ i → i + 1 < b.count → b₁.rawEntry L i = b.rawEntry L (i + 1)) ∧
      ∀ o n, o + n ≤ L.entriesOffset + 16 * index → extract b₁.data o n = extract b.data o n := by
    by_cases hlast : index < b.count - 1
    · rw [if_pos hlast, copyWithin, if_pos ⟨by omega, by omega⟩]
      refine ⟨_, rfl, fun i hle hi => ?_, fun o n hon => extract_overwrite_of_apart (Or.inl hon)⟩
      have hto : L.entriesOffset + 16 * i = L.entriesOffset + 16 * index + 16 * (i - index) := by omega
      have hfrom : L.entriesOffset + 16 * (i + 1) =
          L.entriesOffset + 16 * (index + 1) + 16 * (i - index) := by omega
      rw [rawEntry, rawEntry, hto, hfrom]
      exact extract_overwrite_extract (by omega)
    · rw [if_neg hlast]
      exact ⟨b, rfl, fun i hle hi => absurd hi (by omega), fun _ _ _ => rfl⟩
  have hcount : ∀ o n, Apart o n uberHeaderSize 2 →
      extract (b₁.setCount (b.count - 1)).data o n = extract b₁.data o n := fun o n hon =>
    extract_overwrite_of_apart (by rwa [length_toLe])
  have hnew : (b₁.setCount (b.count - 1)).count = b.count - 1 := count_setCount (by omega)
  refine ⟨b₁.setCount (b.count - 1), ?_, List.ext_getElem? fun i => ?_, fun o ho hon => ?_⟩
  · rw [delete, if_neg (not_le.2 hindex)]
    dsimp only
    rw [hb₁]
  · rw [getElem?_entries, hnew, List.getElem?_eraseIdx, getElem?_entries, getElem?_entries]
    simp only [uberHeaderSize] at hoff hcount
    rw [rawEntry, hcount _ _ (by omega)]
    by_cases hi : i < index
    · rw [if_pos hi, if_pos (by omega), if_pos (by omega), hkept _ _ (by omega)]
      rfl
    · rw [if_neg hi]
      by_cases hlast : i + 1 < b.count
      · rw [if_pos hlast, if_pos (by omega), ← hmoved i (by omega) hlast]
        rfl
      · rw [if_neg hlast, if_neg (by omega)]
  · refine data_eq_of_field ?_
    rw [field, field, hcount _ _ hon, hkept _ _ (by omega)]

/-- **An entry is overwritten in place.** -/
theorem setEntry_of_lt (hcap : b.count ≤ L.capacity) (hindex : index < b.count) (he : e.length = 16) :
    ∃ b', b.setEntry L index e = some b' ∧ Edited L b b' ((b.entries L).set index e) := by
  have hroom := (L.fits index).2 (by omega)
  have hrest : ∀ o n, Apart o n (L.entriesOffset + 16 * index) 16 →
      extract (overwrite b.data (L.entriesOffset + 16 * index) e) o n = extract b.data o n := fun o n hon =>
    extract_overwrite_of_apart (by rwa [he])
  simp only [uberHeaderSize] at hoff
  refine ⟨⟨overwrite b.data (L.entriesOffset + 16 * index) e⟩, ?_, List.ext_getElem? fun i => ?_,
    fun o ho _ => ?_⟩
  · rw [setEntry, if_neg (by omega), if_pos hroom]
  · have hcount : (⟨overwrite b.data (L.entriesOffset + 16 * index) e⟩ : PageBuffer).count = b.count := by
      rw [count, field, hrest _ _ (by simp only [uberHeaderSize]; omega)]
      rfl
    rw [getElem?_entries, hcount, List.getElem?_set, length_entries, getElem?_entries, rawEntry]
    by_cases hi : index = i
    · subst hi
      rw [if_pos hindex, if_pos rfl, if_pos hindex, extract_overwrite he.symm]
    · rw [if_neg hi, hrest _ _ (by omega)]
      rfl
  · exact overwrite_of_lt (by omega)

end PageBuffer
end Abdb
