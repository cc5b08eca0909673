/-
# Leaf pages are sorted maps

`src/page/overlays/index/btree_leaf.rs` and `src/page/overlays/directory/leaf.rs` are two copies of
one leaf page, with headers and entries of the same size.  They differ in what an entry says of its
key: in an index it is the slot of a tuple, in the directory a file and a page number there.
`LeafOverlay` is what both have, and `LeafOverlay.Encodes` that its methods are those of
`PageBuffer` on the bytes of such entries.

On every page that `init` has made and whatever the calls, the methods then reply as on a map from
keys to values, and the page looks up what the map has (`leaf_pages_are_sorted_maps`).
-/

import Abdb.Lib.Machines
import Abdb.Page.Directory
import Abdb.Page.PageMap

namespace Abdb

open Lib PageBuffer

/-! ### The two copies -/

namespace LeafBuffer

def init (b : PageBuffer) (pageId : LPageId) : PageBuffer := b.initUber .btreeLeaf pageId

def deleteEntry (b : PageBuffer) (index : ℕ) : Option (PageBuffer × Except OverlayError Unit) :=
  b.delete layout index

def deleteByKey (b : PageBuffer) (key : ℕ) : Option (PageBuffer × Except OverlayError Bool) :=
  b.deleteByKey layout key

def updateEntry (b : PageBuffer) (key : ℕ) (newPage : LPageId) (newSlot : SlotId) :
    Option (PageBuffer × Except OverlayError Bool) :=
  b.update layout key (toLe 8 key ++ toLe 4 newPage ++ toLe 2 newSlot ++ toLe 2 0)

def setNextPage (b : PageBuffer) (pageId : LPageId) : PageBuffer := b.setNextPage pageId

def setPrevPage (b : PageBuffer) (pageId : LPageId) : PageBuffer := b.setPrevPage pageId

end LeafBuffer

/-- The bytes of a directory entry. -/
def DirectoryLeafEntry.bytes (e : DirectoryLeafEntry) : List UInt8 :=
  toLe 8 e.searchKey ++ toLe 4 e.fileId ++ toLe 4 e.pageNumber.toNat

namespace DirectoryLeafBuffer

def layout : IndexLayout where
  entriesOffset := DirectoryLeafPage.entriesOffset
  capacity := DirectoryLeafPage.maxEntries
  fits i := by
    simp only [DirectoryLeafPage.entriesOffset, DirectoryLeafPage.maxEntries_eq, uberHeaderSize, pageBufSize]
    omega

/-- A directory entry, from its bytes. -/
def entryOf (e : List UInt8) : DirectoryLeafEntry :=
  ⟨keyOf e, ofLe ((e.drop 8).take 4), UInt32.ofNat (ofLe ((e.drop 12).take 4))⟩

def init (b : PageBuffer) (pageId : LPageId) : PageBuffer := b.initUber .directoryLeaf pageId

def lookup (b : PageBuffer) (key : ℕ) : Option (Option PPageId) :=
  b.lookup layout (fun e => (entryOf e).toPPageId) key

def insertEntry (b : PageBuffer) (logicalPageId : LPageId) (ppageId : PPageId) :
    Option (PageBuffer × Except OverlayError Unit) :=
  b.insert layout logicalPageId (DirectoryLeafEntry.fromPPageId logicalPageId ppageId).bytes

def deleteEntry (b : PageBuffer) (index : ℕ) : Option (PageBuffer × Except OverlayError Unit) :=
  b.delete layout index

def deleteByKey (b : PageBuffer) (key : ℕ) : Option (PageBuffer × Except OverlayError Bool) :=
  b.deleteByKey layout key

def updateEntry (b : PageBuffer) (logicalPageId : LPageId) (newPPageId : PPageId) :
    Option (PageBuffer × Except OverlayError Bool) :=
  b.update layout logicalPageId (DirectoryLeafEntry.fromPPageId logicalPageId newPPageId).bytes

def setNextPage (b : PageBuffer) (pageId : LPageId) : PageBuffer := b.setNextPage pageId

def setPrevPage (b : PageBuffer) (pageId : LPageId) : PageBuffer := b.setPrevPage pageId

theorem length_bytes (e : DirectoryLeafEntry) : e.bytes.length = 16 := by simp [DirectoryLeafEntry.bytes]

/-- **An entry is read as it was written.** -/
theorem entryOf_bytes {e : DirectoryLeafEntry} (hkey : e.searchKey < 2 ^ 64) (hfile : e.fileId < 2 ^ 32) :
    entryOf e.bytes = e := by
  obtain ⟨key, file, number⟩ := e
  have hnumber : number.toNat < 256 ^ 4 := number.toNat_lt
  rw [entryOf, DirectoryLeafEntry.bytes, keyOf, List.append_assoc, List.take_left' (length_toLe ..),
    ofLe_toLe hkey, List.drop_left' (length_toLe ..), List.take_left' (length_toLe ..), ofLe_toLe hfile,
    ← List.append_assoc, List.drop_left' (by simp), List.take_of_length_le (length_toLe ..).le,
    ofLe_toLe hnumber, UInt32.ofNat_toNat]

end DirectoryLeafBuffer

/-- A location of the directory: page-aligned, with a page number of 32 bits. -/
structure Location where
  ppageId : PPageId
  file_lt : ppageId.file < 2 ^ 32
  addressable : ppageId.Addressable

/-! ### Calls -/

/-- A call on a leaf page. -/
inductive LeafCall (K V : Type)
  | insertEntry (key : K) (value : V)
  | deleteEntry (index : UInt16)
  | deleteByKey (key : UInt64)
  | updateEntry (key : K) (value : V)
  | setNextPage (pageId : UInt32)
  | setPrevPage (pageId : UInt32)

/-- The call is one on the entries, not on the siblings. -/
def LeafCall.OnEntries {K V : Type} : LeafCall K V → Prop
  | .setNextPage _ | .setPrevPage _ => False
  | _ => True

/-- What a call returns. -/
inductive LeafReply
  | unit (result : Except OverlayError Unit)
  | flag (result : Except OverlayError Bool)
  | done

/-- A leaf page whose entries say of a key what can be read back as an `R`. -/
structure LeafOverlay (K V R : Type) where
  layout : IndexLayout
  init : PageBuffer → LPageId → PageBuffer
  lookup : PageBuffer → ℕ → Option (Option R)
  insertEntry : PageBuffer → K → V → Option (PageBuffer × Except OverlayError Unit)
  deleteEntry : PageBuffer → ℕ → Option (PageBuffer × Except OverlayError Unit)
  deleteByKey : PageBuffer → ℕ → Option (PageBuffer × Except OverlayError Bool)
  updateEntry : PageBuffer → K → V → Option (PageBuffer × Except OverlayError Bool)
  setNextPage : PageBuffer → LPageId → PageBuffer
  setPrevPage : PageBuffer → LPageId → PageBuffer
  /-- The search key of an argument. -/
  key : K → ℕ
  /-- What should be read back. -/
  value : V → R

/-- Index leaf pages. -/
def LeafBuffer.overlay : LeafOverlay UInt64 (UInt32 × UInt16) RecordId where
  layout := layout
  init := init
  lookup := lookup
  insertEntry b key value := insertEntry b key.toNat value.1.toNat value.2.toNat
  deleteEntry := deleteEntry
  deleteByKey := deleteByKey
  updateEntry b key value := updateEntry b key.toNat value.1.toNat value.2.toNat
  setNextPage := setNextPage
  setPrevPage := setPrevPage
  key := UInt64.toNat
  value v := ⟨v.1.toNat, v.2.toNat⟩

/-- Directory leaf pages. -/
def DirectoryLeafBuffer.overlay : LeafOverlay UInt32 Location PPageId where
  layout := layout
  init := init
  lookup := lookup
  insertEntry b key value := insertEntry b key.toNat value.ppageId
  deleteEntry := deleteEntry
  deleteByKey := deleteByKey
  updateEntry b key value := updateEntry b key.toNat value.ppageId
  setNextPage := setNextPage
  setPrevPage := setPrevPage
  key := UInt32.toNat
  value := Location.ppageId

namespace LeafOverlay

variable {K V R : Type} (O : LeafOverlay K V R)

/-- A call, with the page it leaves; `none` is a panic. -/
def step (b : PageBuffer) : LeafCall K V → Option (PageBuffer × LeafReply)
  | .insertEntry key value => (O.insertEntry b key value).map (Prod.map id .unit)
  | .deleteEntry index => (O.deleteEntry b index.toNat).map (Prod.map id .unit)
  | .deleteByKey key => (O.deleteByKey b key.toNat).map (Prod.map id .flag)
  | .updateEntry key value => (O.updateEntry b key value).map (Prod.map id .flag)
  | .setNextPage pageId => some (O.setNextPage b pageId.toNat, .done)
  | .setPrevPage pageId => some (O.setPrevPage b pageId.toNat, .done)

/-- What a call should return and do to the map. -/
noncomputable def should (m : PageMap R) : LeafCall K V → PageMap R × LeafReply
  | .insertEntry key value => (m.insert 253 (O.key key) (O.value value)).map id .unit
  | .deleteEntry index => (m.delete index.toNat).map id .unit
  | .deleteByKey key => (m.deleteByKey key.toNat).map id .flag
  | .updateEntry key value => (m.update (O.key key) (O.value value)).map id .flag
  | .setNextPage _ => (m, .done)
  | .setPrevPage _ => (m, .done)

/-- A page that `init` and calls have made. -/
def Reached (b : PageBuffer) : Prop :=
  ∃ (buffer : PageBuffer) (pageId : UInt32) (calls : List (LeafCall K V)) (replies : List LeafReply),
    runCalls O.step (O.init buffer pageId.toNat) calls = some (b, replies)

/-- The pages are sorted maps. -/
structure IsSortedMap : Prop where
  /-- No run panics, its replies are those of the map, and so are the lookups of the page it ends on,
  whose entries are strictly increasing by key and at most 253. -/
  run : ∀ (buffer : PageBuffer) (pageId : UInt32) (calls : List (LeafCall K V)), ∃ b,
    runCalls O.step (O.init buffer pageId.toNat) calls =
      some (b, (runSpec O.should PageMap.empty calls).2) ∧
    b.count ≤ 253 ∧ SortedBy keyOf (b.entries O.layout) ∧
    ∀ key, O.lookup b key = some ((runSpec O.should PageMap.empty calls).1 key)
  pageFull : ∀ b, O.Reached b → b.count = 253 → ∀ key value,
    O.insertEntry b key value = some (b, .error (.pageFull 253 254))
  duplicateKey : ∀ b, O.Reached b → b.count ≠ 253 → ∀ key value r, O.lookup b (O.key key) = some (some r) →
    O.insertEntry b key value = some (b, .error (.duplicateKey (O.key key)))
  /-- Below the entries, which start at offset 40, calls on them change the two bytes of the count alone. -/
  onEntries : ∀ b, O.Reached b → ∀ c : LeafCall K V, c.OnEntries → ∀ b' reply, O.step b c = some (b', reply) →
    ∀ o < 40, o ≠ 16 → o ≠ 17 → b'.data o = b.data o
  nextPage : ∀ (b : PageBuffer) (pageId : UInt32), (O.setNextPage b pageId.toNat).field 20 4 = pageId.toNat ∧
    ∀ o, o < 20 ∨ 24 ≤ o → (O.setNextPage b pageId.toNat).data o = b.data o
  prevPage : ∀ (b : PageBuffer) (pageId : UInt32), (O.setPrevPage b pageId.toNat).field 24 4 = pageId.toNat ∧
    ∀ o, o < 24 ∨ 28 ≤ o → (O.setPrevPage b pageId.toNat).data o = b.data o

/-- The methods are those of the buffer, on the bytes of an entry with the key and the value. -/
structure Encodes (bytes : K → V → List UInt8) (valueOf : List UInt8 → R) : Prop where
  entriesOffset : O.layout.entriesOffset = 40
  capacity : O.layout.capacity = 253
  init : ∀ b pageId, (O.init b pageId).count = 0
  lookup : ∀ b key, O.lookup b key = b.lookup O.layout valueOf key
  insertEntry : ∀ b key value, O.insertEntry b key value = b.insert O.layout (O.key key) (bytes key value)
  deleteEntry : ∀ b index, O.deleteEntry b index = b.delete O.layout index
  deleteByKey : ∀ b key, O.deleteByKey b key = b.deleteByKey O.layout key
  updateEntry : ∀ b key value, O.updateEntry b key value = b.update O.layout (O.key key) (bytes key value)
  setNextPage : ∀ b pageId, O.setNextPage b pageId = b.setNextPage pageId
  setPrevPage : ∀ b pageId, O.setPrevPage b pageId = b.setPrevPage pageId
  length_bytes : ∀ key value, (bytes key value).length = 16
  keyOf_bytes : ∀ key value, keyOf (bytes key value) = O.key key
  valueOf_bytes : ∀ key value, valueOf (bytes key value) = O.value value

variable {O} {bytes : K → V → List UInt8} {valueOf : List UInt8 → R} {b : PageBuffer} {m : PageMap R}

namespace Encodes

variable (hO : O.Encodes bytes valueOf)
include hO

theorem count_le_entriesOffset : uberHeaderSize + 2 ≤ O.layout.entriesOffset := by
  rw [hO.entriesOffset]
  decide

/-- **Each call does what it should**, and below the entries calls on them change the count alone. -/
theorem step (h : Stores O.layout valueOf b m) (c : LeafCall K V) :
    ∃ b', O.step b c = some (b', (O.should m c).2) ∧ Stores O.layout valueOf b' (O.should m c).1 ∧
      (c.OnEntries → Kept O.layout b b') := by
  have hoff := hO.count_le_entriesOffset
  cases c with
  | insertEntry key value =>
    obtain ⟨b', hinsert, hstores, hkept⟩ := h.insert hoff (hO.length_bytes key value)
    rw [hO.keyOf_bytes, hO.valueOf_bytes, hO.capacity] at hinsert hstores
    refine ⟨b', ?_, hstores, fun _ => hkept⟩
    rw [LeafOverlay.step, hO.insertEntry, hinsert]
    rfl
  | deleteEntry index =>
    obtain ⟨b', hdelete, hstores, hkept⟩ := h.delete hoff index.toNat
    refine ⟨b', ?_, hstores, fun _ => hkept⟩
    rw [LeafOverlay.step, hO.deleteEntry, hdelete]
    rfl
  | deleteByKey key =>
    obtain ⟨b', hdelete, hstores, hkept⟩ := h.deleteByKey hoff key.toNat
    refine ⟨b', ?_, hstores, fun _ => hkept⟩
    rw [LeafOverlay.step, hO.deleteByKey, hdelete]
    rfl
  | updateEntry key value =>
    obtain ⟨b', hupdate, hstores, hkept⟩ := h.update hoff (hO.length_bytes key value)
    rw [hO.keyOf_bytes, hO.valueOf_bytes] at hupdate hstores
    refine ⟨b', ?_, hstores, fun _ => hkept⟩
    rw [LeafOverlay.step, hO.updateEntry, hupdate]
    rfl
  | setNextPage pageId =>
    refine ⟨_, rfl, ?_, nofun⟩
    rw [hO.setNextPage, setNextPage_eq]
    exact h.write_header (by decide) (by rw [hO.entriesOffset, length_toLe]; decide)
  | setPrevPage pageId =>
    refine ⟨_, rfl, ?_, nofun⟩
    rw [hO.setPrevPage, setPrevPage_eq]
    exact h.write_header (by decide) (by rw [hO.entriesOffset, length_toLe]; decide)

theorem simulates : Simulates O.step O.should (Stores O.layout valueOf) := fun b m c h => by
  obtain ⟨b', hstep, hstores, -⟩ := hO.step h c
  exact ⟨b', hstep, hstores⟩

/-- **Every run stores the map.** -/
theorem run (buffer : PageBuffer) (pageId : UInt32) (calls : List (LeafCall K V)) :
    ∃ b, runCalls O.step (O.init buffer pageId.toNat) calls =
        some (b, (runSpec O.should PageMap.empty calls).2) ∧
      Stores O.layout valueOf b (runSpec O.should PageMap.empty calls).1 :=
  hO.simulates.run (stores_empty (hO.init buffer pageId.toNat)) calls

theorem stores_of_reached (h : O.Reached b) : ∃ m, Stores O.layout valueOf b m := by
  obtain ⟨buffer, pageId, calls, replies, hrun⟩ := h
  obtain ⟨b', hrun', hstores⟩ := hO.run buffer pageId calls
  obtain rfl : b = b' := congrArg Prod.fst (Option.some.inj (hrun.symm.trans hrun'))
  exact ⟨_, hstores⟩

/-- **Leaf pages are sorted maps.** -/
theorem isSortedMap : O.IsSortedMap where
  run buffer pageId calls := by
    obtain ⟨b, hrun, hstores⟩ := hO.run buffer pageId calls
    refine ⟨b, hrun, hO.capacity ▸ hstores.count_le, hstores.sorted, fun key => ?_⟩
    rw [hO.lookup, hstores.lookup_eq]
  pageFull b _ hfull key value := by
    rw [hO.insertEntry, insert_full (hfull.trans hO.capacity.symm), hO.capacity]
  duplicateKey b hreached hroom key value r hlookup := by
    obtain ⟨m, hstores⟩ := hO.stores_of_reached hreached
    rw [hO.lookup, hstores.lookup_eq, Option.some.injEq] at hlookup
    rw [hO.insertEntry]
    refine hstores.insert_present (hO.capacity ▸ hroom) ?_
    rw [hlookup]
    rfl
  onEntries b hreached c hc b' reply hstep o ho h₁₆ h₁₇ := by
    obtain ⟨m, hstores⟩ := hO.stores_of_reached hreached
    obtain ⟨b'', hstep', -, hkept⟩ := hO.step hstores c
    obtain rfl : b' = b'' := congrArg Prod.fst (Option.some.inj (hstep.symm.trans hstep'))
    refine hkept hc o (hO.entriesOffset.symm ▸ ho) ?_
    simp only [uberHeaderSize]
    omega
  nextPage b pageId := by
    rw [hO.setNextPage, setNextPage_eq]
    exact ⟨field_write_self pageId.toNat_lt, fun o ho => data_write_of_apart ho⟩
  prevPage b pageId := by
    rw [hO.setPrevPage, setPrevPage_eq]
    exact ⟨field_write_self pageId.toNat_lt, fun o ho => data_write_of_apart ho⟩

end Encodes
end LeafOverlay

theorem LeafBuffer.lookup_eq_lookup {b : PageBuffer} {key : ℕ} :
    lookup b key = b.lookup layout recordIdOf key := by
  unfold lookup PageBuffer.lookup findSlot
  rcases b.findSlot layout key with _ | ⟨_ | _, pos⟩ <;> rfl

/-- An entry of an index is read as it was written. -/
theorem LeafBuffer.newEntry_inj (key : UInt64) (recordPage : UInt32) (recordSlot : UInt16) :
    keyOf (toLe 8 key.toNat ++ toLe 4 recordPage.toNat ++ toLe 2 recordSlot.toNat ++ toLe 2 0) = key.toNat ∧
      recordIdOf (toLe 8 key.toNat ++ toLe 4 recordPage.toNat ++ toLe 2 recordSlot.toNat ++ toLe 2 0) =
        ⟨recordPage.toNat, recordSlot.toNat⟩ := by
  have h := entryOf_newEntry key.toNat_lt recordPage.toNat_lt recordSlot.toNat_lt
  rw [entryOf, BTreeLeafEntry.mk.injEq] at h
  obtain ⟨hkey, hpage, hslot⟩ := h
  exact ⟨hkey, congrArg₂ RecordId.mk hpage hslot⟩

theorem LeafBuffer.encodes : overlay.Encodes (fun key value =>
    toLe 8 key.toNat ++ toLe 4 value.1.toNat ++ toLe 2 value.2.toNat ++ toLe 2 0) recordIdOf where
  entriesOffset := rfl
  capacity := rfl
  init _ _ := field_initUber le_rfl
  lookup _ _ := lookup_eq_lookup
  insertEntry _ _ _ := rfl
  deleteEntry _ _ := rfl
  deleteByKey _ _ := rfl
  updateEntry _ _ _ := rfl
  setNextPage _ _ := rfl
  setPrevPage _ _ := rfl
  length_bytes _ _ := length_newEntry
  keyOf_bytes key value := (newEntry_inj key value.1 value.2).1
  valueOf_bytes key value := (newEntry_inj key value.1 value.2).2

/-- An entry of the directory is read as it was written. -/
theorem DirectoryLeafBuffer.newEntry_inj (key : UInt32) (value : Location) :
    keyOf (DirectoryLeafEntry.fromPPageId key.toNat value.ppageId).bytes = key.toNat ∧
      (entryOf (DirectoryLeafEntry.fromPPageId key.toNat value.ppageId).bytes).toPPageId = value.ppageId := by
  have hkey : key.toNat < 2 ^ 64 := key.toNat_lt.trans (by decide)
  have h : entryOf (DirectoryLeafEntry.fromPPageId key.toNat value.ppageId).bytes = _ :=
    entryOf_bytes hkey value.file_lt
  have hsearch := congrArg DirectoryLeafEntry.searchKey h
  refine ⟨hsearch, ?_⟩
  rw [h, DirectoryLeafEntry.toPPageId_fromPPageId value.addressable]

theorem DirectoryLeafBuffer.encodes : overlay.Encodes
    (fun key value => (DirectoryLeafEntry.fromPPageId key.toNat value.ppageId).bytes)
    (fun e => (entryOf e).toPPageId) where
  entriesOffset := rfl
  capacity := rfl
  init _ _ := field_initUber le_rfl
  lookup _ _ := rfl
  insertEntry _ _ _ := rfl
  deleteEntry _ _ := rfl
  deleteByKey _ _ := rfl
  updateEntry _ _ _ := rfl
  setNextPage _ _ := rfl
  setPrevPage _ _ := rfl
  length_bytes _ _ := length_bytes _
  keyOf_bytes key value := (newEntry_inj key value).1
  valueOf_bytes key value := (newEntry_inj key value).2

/-- **Leaf pages are sorted maps**, those of an index and those of the directory. -/
theorem leaf_pages_are_sorted_maps :
    LeafBuffer.overlay.IsSortedMap ∧ DirectoryLeafBuffer.overlay.IsSortedMap :=
  ⟨LeafBuffer.encodes.isSortedMap, DirectoryLeafBuffer.encodes.isSortedMap⟩

end Abdb
