/-
# The header pages of files

`src/page/overlays/file_header`: page 0 of a heap file, of an index and of the directory.  Behind the type of
the page and the magic bytes the three `Data` consist of words of 32 bits, so they are three readings of one
record (`FileHeader`): `first_page` of a heap file is where `num_pages` of an index is, and `root_page` of an
index where `free_list_root` of a heap file is.

`data_mut` writes into the page where it is, and neither it nor `data` looks at the type or at the magic
bytes, so every reading goes for every page.  Over any run of calls on the headers of files the bytes do what
the records do (`fileHeaders_correct`); `first_page` and `root_page` are two words, so neither of the writes
changes what the other reads.
-/

import Abdb.Lib.Machines
import Abdb.Page.Directory
import Abdb.Page.Edits

namespace Abdb

open Lib

/-! ### The overlays -/

namespace PageBuffer

/-- A field of 32 bits written in place. -/
def setWord (b : PageBuffer) (o : ℕ) (v : UInt32) : PageBuffer := ⟨overwrite b.data o (toLe 4 v.toNat)⟩

end PageBuffer

namespace HeapFileHeaderPage

/-- `MAGIC`: "ABDB_HEP". -/
def magic : List UInt8 := [0x41, 0x42, 0x44, 0x42, 0x5F, 0x48, 0x45, 0x50]

structure Data where
  magic : List UInt8
  firstPage : UInt32
  tableOid : UInt32
  freeListRoot : UInt32
  version : UInt16
  pad : UInt16
deriving DecidableEq, Repr

def Data.bytes (d : Data) : List UInt8 :=
  d.magic ++ toLe 4 d.firstPage.toNat ++ toLe 4 d.tableOid.toNat ++ toLe 4 d.freeListRoot.toNat ++
    toLe 2 d.version.toNat ++ toLe 2 d.pad.toNat

/-- `data`. -/
def data (b : PageBuffer) : Data :=
  ⟨extract b.data 16 8, .ofNat (b.field 24 4), .ofNat (b.field 28 4), .ofNat (b.field 32 4), .ofNat (b.field 36 2),
    .ofNat (b.field 38 2)⟩

/-- `init`. -/
def init (b : PageBuffer) (pageId tableOid : UInt32) : PageBuffer :=
  let header : Data := ⟨magic, 0, tableOid, 0, 1, 0⟩
  ⟨overwrite (b.initUber .heapFileHeader pageId.toNat).data uberHeaderSize header.bytes⟩

def fromBuffer (b : PageBuffer) : Except PageTypeError PageBuffer := b.validateType .heapFileHeader

/-- `data_mut().first_page = page_id`. -/
def setFirstPage (b : PageBuffer) (pageId : UInt32) : PageBuffer := b.setWord 24 pageId

end HeapFileHeaderPage

namespace IndexFileHeaderPage

/-- `MAGIC`: "ABDB_IDX". -/
def magic : List UInt8 := [0x41, 0x42, 0x44, 0x42, 0x5F, 0x49, 0x44, 0x58]

structure Data where
  magic : List UInt8
  numPages : UInt32
  indexOid : UInt32
  rootPage : UInt32
  tableOid : UInt32
  version : UInt16
  pad : UInt16
deriving DecidableEq, Repr

def Data.bytes (d : Data) : List UInt8 :=
  d.magic ++ toLe 4 d.numPages.toNat ++ toLe 4 d.indexOid.toNat ++ toLe 4 d.rootPage.toNat ++
    toLe 4 d.tableOid.toNat ++ toLe 2 d.version.toNat ++ toLe 2 d.pad.toNat

/-- `data`. -/
def data (b : PageBuffer) : Data :=
  ⟨extract b.data 16 8, .ofNat (b.field 24 4), .ofNat (b.field 28 4), .ofNat (b.field 32 4), .ofNat (b.field 36 4),
    .ofNat (b.field 40 2), .ofNat (b.field 42 2)⟩

/-- `init`. -/
def init (b : PageBuffer) (pageId indexOid tableOid : UInt32) : PageBuffer :=
  let header : Data := ⟨magic, 0, indexOid, 0, tableOid, 1, 0⟩
  ⟨overwrite (b.initUber .indexFileHeader pageId.toNat).data uberHeaderSize header.bytes⟩

def fromBuffer (b : PageBuffer) : Except PageTypeError PageBuffer := b.validateType .indexFileHeader

/-- `data_mut().root_page = page_id`. -/
def setRootPage (b : PageBuffer) (pageId : UInt32) : PageBuffer := b.setWord 32 pageId

end IndexFileHeaderPage

namespace DirectoryFileHeaderPage

/-- `MAGIC`: "ABDB_DIR". -/
def magic : List UInt8 := [0x41, 0x42, 0x44, 0x42, 0x5F, 0x44, 0x49, 0x52]

structure Data where
  magic : List UInt8
  nextTxId : UInt64
  lastCheckpointLsn : UInt64
  nextPageId : UInt32
  dirRootPage : UInt32
  nextFileId : UInt32
  pad : List UInt8
deriving DecidableEq, Repr

def Data.bytes (d : Data) : List UInt8 :=
  d.magic ++ toLe 8 d.nextTxId.toNat ++ toLe 8 d.lastCheckpointLsn.toNat ++ toLe 4 d.nextPageId.toNat ++
    toLe 4 d.dirRootPage.toNat ++ toLe 4 d.nextFileId.toNat ++ d.pad

/-- `data`. -/
def data (b : PageBuffer) : Data :=
  ⟨extract b.data 16 8, .ofNat (b.field 24 8), .ofNat (b.field 32 8), .ofNat (b.field 40 4), .ofNat (b.field 44 4),
    .ofNat (b.field 48 4), extract b.data 52 4⟩

/-- `init`. -/
def init (b : PageBuffer) (pageId : UInt32) : PageBuffer :=
  let header : Data := ⟨magic, 1, 0, 0, 0, 0, [0, 0, 0, 0]⟩
  ⟨overwrite (b.initUber .directoryFileHeader pageId.toNat).data uberHeaderSize header.bytes⟩

def fromBuffer (b : PageBuffer) : Except PageTypeError PageBuffer := b.validateType .directoryFileHeader

/-- What `set_root_page` of the directory writes: `dir_root_page`, and then `next_page_id`. -/
def setRoot (b : PageBuffer) (newRoot nextDirPage : UInt32) : PageBuffer :=
  (b.setWord 44 newRoot).setWord 40 nextDirPage

end DirectoryFileHeaderPage

/-! ### The record -/

/-- What a header page says: its type, the magic bytes, and the words behind them. -/
structure FileHeader where
  pageType : ℕ
  magic : List UInt8
  words : Fin 8 → UInt32

namespace FileHeader

/-- The lower and the upper half of a word. -/
def halves (w : UInt32) : UInt16 × UInt16 := (.ofNat (w.toNat % 2 ^ 16), .ofNat (w.toNat / 2 ^ 16))

/-- Two words as one number. -/
def joined (lo hi : UInt32) : UInt64 := .ofNat (lo.toNat + 2 ^ 32 * hi.toNat)

variable (h : FileHeader)

/-- The header of a heap file. -/
def heap : HeapFileHeaderPage.Data :=
  ⟨h.magic, h.words 0, h.words 1, h.words 2, (halves (h.words 3)).1, (halves (h.words 3)).2⟩

/-- The header of an index. -/
def index : IndexFileHeaderPage.Data :=
  ⟨h.magic, h.words 0, h.words 1, h.words 2, h.words 3, (halves (h.words 4)).1, (halves (h.words 4)).2⟩

/-- The header of the directory. -/
def directory : DirectoryFileHeaderPage.Data :=
  ⟨h.magic, joined (h.words 0) (h.words 1), joined (h.words 2) (h.words 3), h.words 4, h.words 5, h.words 6,
    toLe 4 (h.words 7).toNat⟩

/-- A new header: the words that are not given are zero. -/
def new (pageType : PageType) (magic : List UInt8) (words : List UInt32) : FileHeader :=
  ⟨pageType.byte, magic, fun i => words[(i : ℕ)]?.getD 0⟩

def setWord (i : Fin 8) (v : UInt32) : FileHeader := { h with words := Function.update h.words i v }

/-- A page is taken for what its type says. -/
def check (expected : PageType) : Except PageTypeError Unit :=
  match PageType.tryFrom h.pageType with
  | none => .error (.invalidPageType h.pageType)
  | some found => if found = expected then .ok () else .error (.typeMismatch expected found)

/-- What the bytes of a page say. -/
def ofBuffer (b : PageBuffer) : FileHeader :=
  ⟨b.pageTypeByte, extract b.data 16 8, fun i => .ofNat (b.field (24 + 4 * i) 4)⟩

/-! ### Numbers in parts -/

variable {b : PageBuffer} {o : ℕ}

theorem field_add (n m : ℕ) : b.field o (n + m) = b.field o n + 256 ^ n * b.field (o + n) m := by
  rw [PageBuffer.field, extract_add, ofLe_append, length_extract]
  rfl

theorem field_lt (n : ℕ) : b.field o n < 256 ^ n := by
  have h := ofLe_lt (extract b.data o n)
  rwa [length_extract] at h

theorem toNat_field : (UInt32.ofNat (b.field o 4)).toNat = b.field o 4 :=
  UInt32.toNat_ofNat_of_lt' (field_lt 4)

/-- Two fields of 16 bits are the halves of one word. -/
theorem halves_field : halves (.ofNat (b.field o 4)) = (.ofNat (b.field o 2), .ofNat (b.field (o + 2) 2)) := by
  have hlow : b.field o 2 < 2 ^ 16 := field_lt 2
  have hword : b.field o 4 = b.field o 2 + 2 ^ 16 * b.field (o + 2) 2 := field_add 2 2
  rw [halves, toNat_field, hword, Nat.add_mul_mod_self_left, Nat.mod_eq_of_lt hlow,
    Nat.add_mul_div_left _ _ (by decide), Nat.div_eq_of_lt hlow, Nat.zero_add]

/-- A field of 64 bits is two words. -/
theorem joined_field : joined (.ofNat (b.field o 4)) (.ofNat (b.field (o + 4) 4)) = .ofNat (b.field o 8) := by
  rw [joined, toNat_field, toNat_field]
  exact congrArg UInt64.ofNat (field_add 4 4).symm

/-! ### Readings -/

/-- **`data` of a heap file's header** reads the record. -/
theorem heap_ofBuffer : (ofBuffer b).heap = HeapFileHeaderPage.data b := by
  have hhalves := halves_field (b := b) (o := 36)
  simp only [heap, HeapFileHeaderPage.data, ofBuffer]
  exact congrArg (fun p : UInt16 × UInt16 => (⟨_, _, _, _, p.1, p.2⟩ : HeapFileHeaderPage.Data)) hhalves

/-- **`data` of an index's header** reads the record. -/
theorem index_ofBuffer : (ofBuffer b).index = IndexFileHeaderPage.data b := by
  have hhalves := halves_field (b := b) (o := 40)
  simp only [index, IndexFileHeaderPage.data, ofBuffer]
  exact congrArg (fun p : UInt16 × UInt16 => (⟨_, _, _, _, _, p.1, p.2⟩ : IndexFileHeaderPage.Data)) hhalves

/-- **`data` of the directory's header** reads the record. -/
theorem directory_ofBuffer : (ofBuffer b).directory = DirectoryFileHeaderPage.data b := by
  have htx := joined_field (b := b) (o := 24)
  have hlsn := joined_field (b := b) (o := 32)
  have hpad : toLe 4 (UInt32.ofNat (b.field 52 4)).toNat = extract b.data 52 4 := by
    rw [toNat_field, PageBuffer.toLe_field]
  rw [DirectoryFileHeaderPage.data, ← htx, ← hlsn, ← hpad]
  rfl

/-- **`from_buffer` looks at the type alone.** -/
theorem check_ofBuffer (expected : PageType) :
    (ofBuffer b).check expected = (b.validateType expected).map fun _ => () := by
  rw [check, PageBuffer.validateType]
  cases htype : PageType.tryFrom b.pageTypeByte with
  | none =>
    rw [show PageType.tryFrom (ofBuffer b).pageType = none from htype]
    rfl
  | some found =>
    rw [show PageType.tryFrom (ofBuffer b).pageType = some found from htype]
    by_cases hfound : found = expected
    · simp only [if_pos hfound]
      rfl
    · simp only [if_neg hfound]
      rfl

/-! ### Writes -/

/-- **A field written in place** is one word of the record, and nothing else of it. -/
theorem ofBuffer_setWord (i : Fin 8) (v : UInt32) :
    ofBuffer (b.setWord (24 + 4 * i) v) = (ofBuffer b).setWord i v := by
  have hlen : (toLe 4 v.toNat).length = 4 := length_toLe ..
  have htype : (b.setWord (24 + 4 * i) v).pageTypeByte = b.pageTypeByte := by
    refine PageBuffer.field_write ?_
    rw [hlen]
    omega
  have hmagic : extract (b.setWord (24 + 4 * i) v).data 16 8 = extract b.data 16 8 := by
    refine extract_overwrite_of_apart ?_
    rw [hlen]
    omega
  have hwords : (ofBuffer (b.setWord (24 + 4 * i) v)).words = Function.update (ofBuffer b).words i v := by
    funext j
    rcases eq_or_ne j i with rfl | hne
    · rw [Function.update_self]
      exact (congrArg UInt32.ofNat (PageBuffer.field_write_self v.toNat_lt)).trans UInt32.ofNat_toNat
    · have hval : (j : ℕ) ≠ i := fun h => hne (Fin.ext h)
      rw [Function.update_of_ne hne]
      refine congrArg UInt32.ofNat (PageBuffer.field_write ?_)
      rw [hlen]
      omega
  rw [ofBuffer, htype, hmagic, setWord, ← hwords]
  rfl

/-- Words written one behind the other. -/
theorem field_words (ws : List UInt32) (i : ℕ) {d : ℕ → UInt8} :
    PageBuffer.field ⟨overwrite d o (ws.flatMap fun w => toLe 4 w.toNat)⟩ (o + 4 * i) 4 =
      (ws[i]?.map UInt32.toNat).getD (PageBuffer.field ⟨d⟩ (o + 4 * i) 4) := by
  induction ws generalizing o i d with
  | nil =>
    have hnone : overwrite d o [] = d := overwrite_extract (n := 0)
    rw [List.flatMap_nil, hnone]
    rfl
  | cons w ws ih =>
    have hlen : (toLe 4 w.toNat).length = 4 := length_toLe ..
    rw [List.flatMap_cons, overwrite_append, hlen]
    cases i with
    | zero =>
      have hapart : Apart (o + 4 * 0) 4 (o + 4) (ws.flatMap fun w => toLe 4 w.toNat).length := by omega
      refine (PageBuffer.field_write (b := ⟨_⟩) hapart).trans ?_
      exact PageBuffer.field_write_self (b := ⟨_⟩) w.toNat_lt
    | succ i =>
      have hnext : o + 4 * (i + 1) = o + 4 + 4 * i := by omega
      have hapart : Apart (o + 4 + 4 * i) 4 o (toLe 4 w.toNat).length := by
        rw [hlen]
        omega
      rw [hnext, ih, PageBuffer.field_write (b := ⟨d⟩) hapart, List.getElem?_cons_succ]

/-- **`init` writes a new record**, whatever the page was before. -/
theorem ofBuffer_init {t : PageType} {pageId : LPageId} {magic : List UInt8} (hmagic : magic.length = 8)
    (ws : List UInt32) :
    ofBuffer ⟨overwrite (b.initUber t pageId).data uberHeaderSize
      (magic ++ ws.flatMap fun w => toLe 4 w.toNat)⟩ = new t magic ws := by
  have htype : PageBuffer.pageTypeByte ⟨overwrite (b.initUber t pageId).data uberHeaderSize
      (magic ++ ws.flatMap fun w => toLe 4 w.toNat)⟩ = t.byte :=
    (PageBuffer.field_write (Or.inl (by decide))).trans PageBuffer.pageTypeByte_initUber
  have hbytes : extract (overwrite (b.initUber t pageId).data uberHeaderSize
      (magic ++ ws.flatMap fun w => toLe 4 w.toNat)) 16 8 = magic := by
    rw [overwrite_append, extract_overwrite_of_apart (Or.inl (by rw [hmagic]; decide))]
    exact extract_overwrite hmagic.symm
  have hwords : (fun i : Fin 8 => UInt32.ofNat (PageBuffer.field ⟨overwrite (b.initUber t pageId).data
      uberHeaderSize (magic ++ ws.flatMap fun w => toLe 4 w.toNat)⟩ (24 + 4 * i) 4)) =
      fun i : Fin 8 => ws[(i : ℕ)]?.getD 0 := by
    funext i
    have hzero : PageBuffer.field ⟨overwrite (b.initUber t pageId).data uberHeaderSize magic⟩ (24 + 4 * i) 4 = 0 :=
      (PageBuffer.field_write (by rw [hmagic]; simp only [uberHeaderSize]; omega)).trans
        (PageBuffer.field_initUber (by simp only [uberHeaderSize]; omega))
    have hstart : uberHeaderSize + magic.length = 24 := by rw [hmagic]; rfl
    rw [overwrite_append, hstart, field_words, hzero]
    cases ws[(i : ℕ)]? with
    | none => rfl
    | some w => exact UInt32.ofNat_toNat
  rw [ofBuffer, new, htype, hbytes, hwords]

theorem ofBuffer_heapInit (pageId tableOid : UInt32) : ofBuffer (HeapFileHeaderPage.init b pageId tableOid) =
    new .heapFileHeader HeapFileHeaderPage.magic [0, tableOid, 0, 1] := by
  have hbytes : HeapFileHeaderPage.Data.bytes ⟨HeapFileHeaderPage.magic, 0, tableOid, 0, 1, 0⟩ =
      HeapFileHeaderPage.magic ++ [0, tableOid, 0, 1].flatMap fun w => toLe 4 w.toNat := rfl
  simp only [HeapFileHeaderPage.init, hbytes]
  exact ofBuffer_init rfl _

theorem ofBuffer_indexInit (pageId indexOid tableOid : UInt32) :
    ofBuffer (IndexFileHeaderPage.init b pageId indexOid tableOid) =
      new .indexFileHeader IndexFileHeaderPage.magic [0, indexOid, 0, tableOid, 1] := by
  have hbytes : IndexFileHeaderPage.Data.bytes ⟨IndexFileHeaderPage.magic, 0, indexOid, 0, tableOid, 1, 0⟩ =
      IndexFileHeaderPage.magic ++ [0, indexOid, 0, tableOid, 1].flatMap fun w => toLe 4 w.toNat := rfl
  simp only [IndexFileHeaderPage.init, hbytes]
  exact ofBuffer_init rfl _

theorem ofBuffer_directoryInit (pageId : UInt32) : ofBuffer (DirectoryFileHeaderPage.init b pageId) =
    new .directoryFileHeader DirectoryFileHeaderPage.magic [1, 0, 0, 0, 0, 0, 0, 0] := by
  have hbytes : DirectoryFileHeaderPage.Data.bytes
      ⟨DirectoryFileHeaderPage.magic, 1, 0, 0, 0, 0, [0, 0, 0, 0]⟩ = DirectoryFileHeaderPage.magic ++
        [(1 : UInt32), 0, 0, 0, 0, 0, 0, 0].flatMap fun w => toLe 4 w.toNat := rfl
  simp only [DirectoryFileHeaderPage.init, hbytes]
  exact ofBuffer_init rfl _

end FileHeader

/-! ### The header that the directory reads -/

namespace DirectoryFileHeaderPage

variable {b : PageBuffer}

/-- The fields that `load_header` takes. -/
def header (b : PageBuffer) : DirectoryFileHeader := ⟨(data b).nextPageId.toNat, (data b).dirRootPage.toNat⟩

theorem header_eq : header b =
    ⟨((FileHeader.ofBuffer b).words 4).toNat, ((FileHeader.ofBuffer b).words 5).toNat⟩ := by
  rw [header, ← FileHeader.directory_ofBuffer]
  rfl

/-- A directory file starts with no root. -/
theorem header_init (pageId : UInt32) : header (init b pageId) = .init := by
  rw [header_eq, FileHeader.ofBuffer_directoryInit]
  rfl

theorem ofBuffer_setRoot (newRoot nextDirPage : UInt32) : FileHeader.ofBuffer (setRoot b newRoot nextDirPage) =
    ((FileHeader.ofBuffer b).setWord 5 newRoot).setWord 4 nextDirPage := by
  rw [← FileHeader.ofBuffer_setWord 5 newRoot, ← FileHeader.ofBuffer_setWord 4 nextDirPage]
  rfl

/-- **`set_root_page` leaves what the next `load_header` takes.** -/
theorem header_setRoot (newRoot nextDirPage : UInt32) :
    header (setRoot b newRoot nextDirPage) = ⟨nextDirPage.toNat, newRoot.toNat⟩ := by
  rw [header_eq, ofBuffer_setRoot]
  rfl

end DirectoryFileHeaderPage

/-! ### Runs -/

/-- A call on the header page of a file. -/
inductive HeaderCall
  | initHeap (pageId tableOid : UInt32)
  | initIndex (pageId indexOid tableOid : UInt32)
  | initDirectory (pageId : UInt32)
  | heapFromBuffer
  | indexFromBuffer
  | directoryFromBuffer
  | heapData
  | indexData
  | directoryData
  | setFirstPage (pageId : UInt32)
  | setRootPage (pageId : UInt32)
  | setRoot (newRoot nextDirPage : UInt32)

/-- What a call on a header page returns. -/
inductive HeaderReply
  | written
  | checked (result : Except PageTypeError Unit)
  | heap (d : HeapFileHeaderPage.Data)
  | index (d : IndexFileHeaderPage.Data)
  | directory (d : DirectoryFileHeaderPage.Data)

namespace HeaderCall

/-- A call on the bytes. -/
def onBuffer (b : PageBuffer) : HeaderCall → PageBuffer × HeaderReply
  | initHeap pageId tableOid => (HeapFileHeaderPage.init b pageId tableOid, .written)
  | initIndex pageId indexOid tableOid => (IndexFileHeaderPage.init b pageId indexOid tableOid, .written)
  | initDirectory pageId => (DirectoryFileHeaderPage.init b pageId, .written)
  | heapFromBuffer => (b, .checked ((HeapFileHeaderPage.fromBuffer b).map fun _ => ()))
  | indexFromBuffer => (b, .checked ((IndexFileHeaderPage.fromBuffer b).map fun _ => ()))
  | directoryFromBuffer => (b, .checked ((DirectoryFileHeaderPage.fromBuffer b).map fun _ => ()))
  | heapData => (b, .heap (HeapFileHeaderPage.data b))
  | indexData => (b, .index (IndexFileHeaderPage.data b))
  | directoryData => (b, .directory (DirectoryFileHeaderPage.data b))
  | setFirstPage pageId => (HeapFileHeaderPage.setFirstPage b pageId, .written)
  | setRootPage pageId => (IndexFileHeaderPage.setRootPage b pageId, .written)
  | setRoot newRoot nextDirPage => (DirectoryFileHeaderPage.setRoot b newRoot nextDirPage, .written)

/-- A call on the record. -/
def onHeader (h : FileHeader) : HeaderCall → FileHeader × HeaderReply
  | initHeap _ tableOid => (.new .heapFileHeader HeapFileHeaderPage.magic [0, tableOid, 0, 1], .written)
  | initIndex _ indexOid tableOid =>
    (.new .indexFileHeader IndexFileHeaderPage.magic [0, indexOid, 0, tableOid, 1], .written)
  | initDirectory _ =>
    (.new .directoryFileHeader DirectoryFileHeaderPage.magic [1, 0, 0, 0, 0, 0, 0, 0], .written)
  | heapFromBuffer => (h, .checked (h.check .heapFileHeader))
  | indexFromBuffer => (h, .checked (h.check .indexFileHeader))
  | directoryFromBuffer => (h, .checked (h.check .directoryFileHeader))
  | heapData => (h, .heap h.heap)
  | indexData => (h, .index h.index)
  | directoryData => (h, .directory h.directory)
  | setFirstPage pageId => (h.setWord 0 pageId, .written)
  | setRootPage pageId => (h.setWord 2 pageId, .written)
  | setRoot newRoot nextDirPage => ((h.setWord 5 newRoot).setWord 4 nextDirPage, .written)

/-- **A call on the bytes is the call on the record.** -/
theorem ofBuffer_onBuffer (b : PageBuffer) (call : HeaderCall) :
    (FileHeader.ofBuffer (onBuffer b call).1, (onBuffer b call).2) = onHeader (.ofBuffer b) call := by
  cases call with
  | initHeap pageId tableOid =>
    exact congrArg (·, HeaderReply.written) (FileHeader.ofBuffer_heapInit pageId tableOid)
  | initIndex pageId indexOid tableOid =>
    exact congrArg (·, HeaderReply.written) (FileHeader.ofBuffer_indexInit pageId indexOid tableOid)
  | initDirectory pageId =>
    exact congrArg (·, HeaderReply.written) (FileHeader.ofBuffer_directoryInit pageId)
  | heapFromBuffer =>
    exact congrArg (_, HeaderReply.checked ·) (FileHeader.check_ofBuffer .heapFileHeader).symm
  | indexFromBuffer =>
    exact congrArg (_, HeaderReply.checked ·) (FileHeader.check_ofBuffer .indexFileHeader).symm
  | directoryFromBuffer =>
    exact congrArg (_, HeaderReply.checked ·) (FileHeader.check_ofBuffer .directoryFileHeader).symm
  | heapData => exact congrArg (_, HeaderReply.heap ·) FileHeader.heap_ofBuffer.symm
  | indexData => exact congrArg (_, HeaderReply.index ·) FileHeader.index_ofBuffer.symm
  | directoryData => exact congrArg (_, HeaderReply.directory ·) FileHeader.directory_ofBuffer.symm
  | setFirstPage pageId => exact congrArg (·, HeaderReply.written) (FileHeader.ofBuffer_setWord 0 pageId)
  | setRootPage pageId => exact congrArg (·, HeaderReply.written) (FileHeader.ofBuffer_setWord 2 pageId)
  | setRoot newRoot nextDirPage =>
    exact congrArg (·, HeaderReply.written) (DirectoryFileHeaderPage.ofBuffer_setRoot newRoot nextDirPage)

/-- **The header pages of the files are the records**: over any run of calls on any files, from any bytes, the
replies are those of the records, and the bytes that are left say what the records say. -/
theorem fileHeaders_correct (files : FileId → PageBuffer) (calls : List (FileId × HeaderCall)) :
    (FileHeader.ofBuffer ∘ (runSpec (stepAt onBuffer) files calls).1, (runSpec (stepAt onBuffer) files calls).2) =
      runSpec (stepAt onHeader) (FileHeader.ofBuffer ∘ files) calls :=
  runSpec_map (f := (FileHeader.ofBuffer ∘ ·)) (stepAt_map ofBuffer_onBuffer) files calls

end HeaderCall

end Abdb
