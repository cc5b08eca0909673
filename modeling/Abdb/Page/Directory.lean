/-
# Directory pages

`src/page/overlays/directory/leaf.rs`, `directory/inner.rs` and
`file_header/directory.rs`.  A leaf of the page directory maps logical page ids, stored
as `u64` search keys, to a file and a page number in it; the byte offset of a location
is not stored, but computed from the page number (`DirectoryLeafEntry.toPPageId`).  A
location whose offset is a multiple of the page size with a page number below `2 ^ 32`
comes back as it was stored (`DirectoryLeafEntry.toPPageId_fromPPageId`).

The inner overlay is that of the index, line for line, and so are the overlay errors of
`directory/error.rs` that the page operations return.
-/

import Abdb.Page.BTreeInner

namespace Abdb

/-- `DirectoryInnerEntry`: a separator with the child to its right. -/
abbrev DirectoryInnerEntry := BTreeInnerEntry

/-- `DirectoryInnerPage`: same layout and same functions as the index's inner page. -/
abbrev DirectoryInnerPage := BTreeInnerPage

/-- The fields of the directory file header that the directory reads. -/
structure DirectoryFileHeader where
  nextPageId : LPageId
  dirRootPage : LPageId
deriving DecidableEq, Repr

/-- `DirectoryFileHeaderPage::init`. -/
def DirectoryFileHeader.init : DirectoryFileHeader := ⟨0, 0⟩

/-- A mapping from a logical page id to a physical location. -/
structure DirectoryLeafEntry where
  searchKey : ℕ
  fileId : FileId
  pageNumber : UInt32
deriving DecidableEq, Repr

/-- The location is one an entry can hold. -/
def PPageId.Addressable (p : PPageId) : Prop := p.offset % pageBufSize = 0 ∧ p.offset / pageBufSize < 2 ^ 32

instance (p : PPageId) : Decidable p.Addressable := inferInstanceAs (Decidable (_ ∧ _))

namespace DirectoryLeafEntry

/-- Construct from a logical page id and a physical page id; the page number is cast to
32 bits. -/
def fromPPageId (logicalPageId : LPageId) (ppageId : PPageId) : DirectoryLeafEntry :=
  ⟨logicalPageId, ppageId.file, UInt32.ofNat (ppageId.offset / pageBufSize)⟩

/-- Convert to a physical page id. -/
def toPPageId (e : DirectoryLeafEntry) : PPageId := ⟨e.fileId, e.pageNumber.toNat * pageBufSize⟩

/-- The search key cast back to a logical page id. -/
def logicalPageId (e : DirectoryLeafEntry) : LPageId := e.searchKey % 2 ^ 32

@[simp] theorem searchKey_fromPPageId {k : LPageId} {p : PPageId} :
    (fromPPageId k p).searchKey = k := rfl

/-- **A location comes back as it was stored.** -/
theorem toPPageId_fromPPageId {k : LPageId} {p : PPageId} (h : p.Addressable) :
    (fromPPageId k p).toPPageId = p := by
  obtain ⟨file, offset⟩ := p
  obtain ⟨hmod, hlt⟩ := h
  simp only [fromPPageId, toPPageId, PPageId.mk.injEq, true_and, pageBufSize] at hmod hlt ⊢
  rw [UInt32.toNat_ofNat_of_lt' hlt]
  omega

/-- An entry taken apart and put together again, as a split copies it, is the same. -/
theorem fromPPageId_toPPageId {e : DirectoryLeafEntry} (h : e.searchKey < 2 ^ 32) :
    fromPPageId e.logicalPageId e.toPPageId = e := by
  obtain ⟨key, file, number⟩ := e
  simp only [fromPPageId, toPPageId, logicalPageId, mk.injEq, true_and, pageBufSize] at h ⊢
  refine ⟨Nat.mod_eq_of_lt h, ?_⟩
  rw [Nat.mul_div_cancel _ (by decide), UInt32.ofNat_toNat]

end DirectoryLeafEntry

/-- The content of a directory leaf page. -/
structure DirectoryLeafPage where
  pageId : LPageId
  nextPage : LPageId
  prevPage : LPageId
  entries : List DirectoryLeafEntry
deriving DecidableEq, Repr

namespace DirectoryLeafPage

open Lib

/-- `ENTRY_SIZE`. -/
def entrySize : ℕ := 16

/-- `ENTRIES_OFFSET`: the uber header and the 24-byte leaf header. -/
def entriesOffset : ℕ := uberHeaderSize + 24

/-- `MAX_ENTRIES`. -/
def maxEntries : ℕ := (pageBufSize - entriesOffset) / entrySize

@[simp] theorem maxEntries_eq : maxEntries = 253 := rfl

/-- `init`: a zeroed buffer with the page id and the leaf type byte. -/
def init (pageId : LPageId) : DirectoryLeafPage := ⟨pageId, 0, 0, []⟩

def numEntries (p : DirectoryLeafPage) : ℕ := p.entries.length

def setNextPage (p : DirectoryLeafPage) (id : LPageId) : DirectoryLeafPage :=
  { p with nextPage := id }

def setPrevPage (p : DirectoryLeafPage) (id : LPageId) : DirectoryLeafPage :=
  { p with prevPage := id }

/-- Binary search for a key position: exact match or insertion point. -/
def findSlot (p : DirectoryLeafPage) (targetKey : ℕ) : Bool × ℕ :=
  Lib.findSlot DirectoryLeafEntry.searchKey p.entries targetKey

/-- Look up a key. -/
def lookup (p : DirectoryLeafPage) (key : ℕ) : Option PPageId :=
  match p.findSlot key with
  | (true, pos) => (p.entries[pos]?).map DirectoryLeafEntry.toPPageId
  | (false, _) => none

/-- Insert a new entry maintaining sorted order. -/
def insertEntry (p : DirectoryLeafPage) (logicalPageId : LPageId) (ppageId : PPageId) :
    Except OverlayError DirectoryLeafPage :=
  if maxEntries ≤ p.numEntries then
    .error (.pageFull maxEntries (p.numEntries + 1))
  else
    match p.findSlot logicalPageId with
    | (true, _) => .error (.duplicateKey logicalPageId)
    | (false, pos) =>
      .ok { p with
        entries := p.entries.insertIdx pos (DirectoryLeafEntry.fromPPageId logicalPageId ppageId) }

/-- The copy loops of `split_leaf`: insert entries one by one, up to the first error. -/
def insertEntries : DirectoryLeafPage → List (LPageId × PPageId) →
    Except OverlayError DirectoryLeafPage
  | p, [] => .ok p
  | p, (k, l) :: es =>
    match p.insertEntry k l with
    | .ok p' => insertEntries p' es
    | .error err => .error err

/-- Delete an entry at the given index. -/
def deleteEntry (p : DirectoryLeafPage) (index : ℕ) : Except OverlayError DirectoryLeafPage :=
  if p.numEntries ≤ index then
    .error (.indexOutOfBounds index p.numEntries)
  else
    .ok { p with entries := p.entries.eraseIdx index }

/-- Delete an entry by key; the flag says whether there was one. -/
def deleteByKey (p : DirectoryLeafPage) (key : ℕ) :
    Except OverlayError (DirectoryLeafPage × Bool) :=
  match p.findSlot key with
  | (true, pos) =>
    match p.deleteEntry pos with
    | .ok p' => .ok (p', true)
    | .error err => .error err
  | (false, _) => .ok (p, false)

/-- Update the location of an existing key; the flag says whether there was one. -/
def updateEntry (p : DirectoryLeafPage) (logicalPageId : LPageId) (newPPageId : PPageId) :
    Except OverlayError (DirectoryLeafPage × Bool) :=
  match p.findSlot logicalPageId with
  | (true, pos) =>
    .ok ({ p with
      entries := p.entries.set pos (DirectoryLeafEntry.fromPPageId logicalPageId newPPageId) }, true)
  | (false, _) => .ok (p, false)

/-! ### What the operations do to a sorted page -/

/-- The entries are strictly increasing by search key. -/
def Sorted (p : DirectoryLeafPage) : Prop := SortedBy DirectoryLeafEntry.searchKey p.entries

variable {p : DirectoryLeafPage} {k : LPageId} {l : PPageId} {xs ys es : List DirectoryLeafEntry}
  {e : DirectoryLeafEntry}

/-- The page and a key that is in it, cut at its entry. -/
theorem findSlot_cut (h : p.Sorted) (hp : p.entries = xs ++ e :: ys) :
    p.findSlot e.searchKey = (true, xs.length) := by
  rw [findSlot, hp]
  exact findSlot_hit (hp ▸ h)

theorem findSlot_absent (h : p.Sorted) (hk : ∀ e ∈ p.entries, e.searchKey ≠ k) :
    ∃ pos, p.findSlot k = (false, pos) := by
  have := (not_congr (findSlot_fst_iff h (k := k))).2 fun ⟨e, he, hek⟩ => hk e he hek
  rw [Bool.not_eq_true] at this
  exact ⟨(p.findSlot k).2, Prod.ext this rfl⟩

theorem exists_cut (hk : ∃ e ∈ p.entries, e.searchKey = k) :
    ∃ xs e ys, p.entries = xs ++ e :: ys ∧ e.searchKey = k := by
  obtain ⟨e, he, hek⟩ := hk
  obtain ⟨xs, ys, hp⟩ := List.append_of_mem he
  exact ⟨xs, e, ys, hp, hek⟩

/-- **Lookup is membership.** -/
theorem lookup_eq_some_iff (h : p.Sorted) :
    p.lookup k = some l ↔ ∃ e ∈ p.entries, e.searchKey = k ∧ e.toPPageId = l := by
  by_cases hk : ∃ e ∈ p.entries, e.searchKey = k
  · obtain ⟨xs, e, ys, hp, rfl⟩ := exists_cut hk
    rw [lookup, findSlot_cut h hp]
    simp only [hp, List.getElem?_append_right le_rfl, Nat.sub_self, List.getElem?_cons_zero,
      Option.map_some, Option.some.injEq]
    rw [Sorted, hp] at h
    constructor
    · rintro rfl
      exact ⟨e, by simp, rfl, rfl⟩
    · rintro ⟨a, ha, hae, rfl⟩
      rw [h.eq_of_key_eq ha (by simp) hae]
  · obtain ⟨pos, hpos⟩ := findSlot_absent (k := k) h fun e he hek => hk ⟨e, he, hek⟩
    rw [lookup, hpos]
    exact iff_of_false nofun fun ⟨e, he, hek, _⟩ => hk ⟨e, he, hek⟩

/-- **Inserting an absent key** into a page with room is ordered insertion. -/
theorem insertEntry_of_absent (h : p.Sorted) (hn : p.numEntries < maxEntries)
    (hk : ∀ e ∈ p.entries, e.searchKey ≠ k) :
    p.insertEntry k l = .ok { p with
      entries := insertBy DirectoryLeafEntry.searchKey (.fromPPageId k l) p.entries } := by
  obtain ⟨h₁, h₂, -⟩ := insertIdx_findSlot (e := DirectoryLeafEntry.fromPPageId k l) h hk
  rw [insertEntry, if_neg (by omega), ← h₂, findSlot]
  revert h₁
  dsimp only [DirectoryLeafEntry.searchKey_fromPPageId]
  rcases Lib.findSlot DirectoryLeafEntry.searchKey p.entries k with ⟨_ | _, pos⟩ <;> simp

/-- Inserting a present key is refused. -/
theorem insertEntry_of_present (h : p.Sorted) (hn : p.numEntries < maxEntries)
    (hk : ∃ e ∈ p.entries, e.searchKey = k) : p.insertEntry k l = .error (.duplicateKey k) := by
  obtain ⟨xs, e, ys, hp, rfl⟩ := exists_cut hk
  rw [insertEntry, if_neg (by omega), findSlot_cut h hp]

/-- What a split copies: entries as pairs of a logical and a physical page id. -/
def pairs (es : List DirectoryLeafEntry) : List (LPageId × PPageId) :=
  es.map fun e => (e.logicalPageId, e.toPPageId)

/-- Appending sorted entries one by one. -/
theorem insertEntries_append :
    ∀ {es : List DirectoryLeafEntry} {p : DirectoryLeafPage},
      SortedBy DirectoryLeafEntry.searchKey (p.entries ++ es) → (∀ e ∈ es, e.searchKey < 2 ^ 32) →
        p.entries.length + es.length ≤ maxEntries →
          p.insertEntries (pairs es) = .ok { p with entries := p.entries ++ es }
  | [], p, _, _, _ => by simp [pairs, insertEntries]
  | e :: es, p, h, hes, hl => by
    obtain ⟨h₁, -, h₁₂⟩ := SortedBy.append_iff.1 h
    have hlt : ∀ x ∈ p.entries, x.searchKey < e.searchKey := fun x hx =>
      h₁₂ x hx e (List.mem_cons_self ..)
    have he := hes e (List.mem_cons_self ..)
    rw [List.length_cons] at hl
    have hkey : e.logicalPageId = e.searchKey := Nat.mod_eq_of_lt he
    have hins : p.insertEntry e.logicalPageId e.toPPageId =
        .ok { p with entries := p.entries ++ [e] } := by
      rw [insertEntry_of_absent h₁ (by rw [numEntries]; omega)
        fun x hx => by rw [hkey]; exact (hlt x hx).ne,
        DirectoryLeafEntry.fromPPageId_toPPageId he, insertBy_last hlt]
    rw [pairs, List.map_cons, insertEntries, hins]
    dsimp only
    rw [← pairs, insertEntries_append (by simpa using h)
      (fun x hx => hes x (List.mem_cons_of_mem _ hx))
      (by simp only [List.length_append, List.length_singleton]; omega)]
    simp

/-- Copying sorted entries into a fresh page. -/
theorem insertEntries_init {id : LPageId} (h : SortedBy DirectoryLeafEntry.searchKey es)
    (hes : ∀ e ∈ es, e.searchKey < 2 ^ 32) (hl : es.length ≤ maxEntries) :
    (init id).insertEntries (pairs es) = .ok ⟨id, 0, 0, es⟩ := by
  rw [insertEntries_append (by simpa [init] using h) hes (by simpa [init] using hl)]
  rfl

theorem deleteByKey_cut (h : p.Sorted) (hp : p.entries = xs ++ e :: ys) :
    p.deleteByKey e.searchKey = .ok ({ p with entries := xs ++ ys }, true) := by
  rw [deleteByKey, findSlot_cut h hp]
  dsimp only
  rw [deleteEntry, if_neg (by rw [numEntries, hp]; simp), hp, eraseIdx_cut]

theorem deleteByKey_absent (h : p.Sorted) (hk : ∀ e ∈ p.entries, e.searchKey ≠ k) :
    p.deleteByKey k = .ok (p, false) := by
  obtain ⟨pos, hpos⟩ := findSlot_absent h hk
  rw [deleteByKey, hpos]

theorem updateEntry_cut (h : p.Sorted) (hp : p.entries = xs ++ e :: ys) :
    p.updateEntry e.searchKey l =
      .ok ({ p with entries := xs ++ .fromPPageId e.searchKey l :: ys }, true) := by
  rw [updateEntry, findSlot_cut h hp]
  dsimp only
  rw [hp, List.set_append_right _ _ le_rfl, Nat.sub_self, List.set_cons_zero]

theorem updateEntry_absent (h : p.Sorted) (hk : ∀ e ∈ p.entries, e.searchKey ≠ k) :
    p.updateEntry k l = .ok (p, false) := by
  obtain ⟨pos, hpos⟩ := findSlot_absent h hk
  rw [updateEntry, hpos]

end DirectoryLeafPage
end Abdb
