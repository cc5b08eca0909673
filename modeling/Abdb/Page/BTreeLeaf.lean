/-
# B-tree leaf pages

`src/page/overlays/index/btree_leaf.rs`.  A leaf page is its header fields and the
entries in use, `num_entries` being their number; the shifts of `insert_entry` and
`delete_entry` are an insertion and a removal at an index.
-/

import Abdb.Lib.Search
import Abdb.Page.Basic

namespace Abdb

/-- A single leaf entry: a key and the heap tuple it maps to. -/
structure BTreeLeafEntry where
  key : ℕ
  recordPage : LPageId
  recordSlot : SlotId
deriving DecidableEq, Repr

/-- The tuple an entry points to. -/
def BTreeLeafEntry.recordId (e : BTreeLeafEntry) : RecordId := ⟨e.recordPage, e.recordSlot⟩

/-- The content of a leaf page. -/
structure BTreeLeafPage where
  pageId : LPageId
  nextPage : LPageId
  prevPage : LPageId
  entries : List BTreeLeafEntry
deriving DecidableEq, Repr

namespace BTreeLeafPage

open Lib

/-- `ENTRY_SIZE`. -/
def entrySize : ℕ := 16

/-- `ENTRIES_OFFSET`: the uber header and the 24-byte leaf header. -/
def entriesOffset : ℕ := uberHeaderSize + 24

/-- `MAX_ENTRIES`. -/
def maxEntries : ℕ := (pageBufSize - entriesOffset) / entrySize

/-- `SAFE_INSERT_THRESHOLD`, the limit of latch crabbing. -/
def safeInsertThreshold : ℕ := maxEntries - 1

/-- `MERGE_THRESHOLD`. -/
def mergeThreshold : ℕ := maxEntries / 2

@[simp] theorem maxEntries_eq : maxEntries = 253 := rfl
@[simp] theorem safeInsertThreshold_eq : safeInsertThreshold = 252 := rfl
@[simp] theorem mergeThreshold_eq : mergeThreshold = 126 := rfl

/-- `init`: a zeroed buffer with the page id and the leaf type byte. -/
def init (pageId : LPageId) : BTreeLeafPage := ⟨pageId, 0, 0, []⟩

def numEntries (p : BTreeLeafPage) : ℕ := p.entries.length

def isSafeForInsert (p : BTreeLeafPage) : Bool := p.numEntries < safeInsertThreshold

def needsSplit (p : BTreeLeafPage) : Bool := maxEntries ≤ p.numEntries

def canMerge (p : BTreeLeafPage) : Bool := p.numEntries < mergeThreshold

theorem isSafeForInsert_iff {p : BTreeLeafPage} :
    p.isSafeForInsert = true ↔ p.numEntries < safeInsertThreshold := decide_eq_true_iff

theorem needsSplit_iff {p : BTreeLeafPage} : p.needsSplit = true ↔ maxEntries ≤ p.numEntries :=
  decide_eq_true_iff

def setNextPage (p : BTreeLeafPage) (id : LPageId) : BTreeLeafPage := { p with nextPage := id }

def setPrevPage (p : BTreeLeafPage) (id : LPageId) : BTreeLeafPage := { p with prevPage := id }

/-- Read an entry at the given index. -/
def entry (p : BTreeLeafPage) (index : ℕ) : Except OverlayError BTreeLeafEntry :=
  match p.entries[index]? with
  | some e => .ok e
  | none => .error (.indexOutOfBounds index p.numEntries)

/-- Binary search for a key position: exact match or insertion point.  On an empty
page the loop answers `(false, 0)` at once, as the source's early return does. -/
def findSlot (p : BTreeLeafPage) (targetKey : ℕ) : Bool × ℕ :=
  Lib.findSlot BTreeLeafEntry.key p.entries targetKey

/-- Look up a key. -/
def lookup (p : BTreeLeafPage) (key : ℕ) : Option RecordId :=
  match p.findSlot key with
  | (true, pos) => (p.entries[pos]?).map BTreeLeafEntry.recordId
  | (false, _) => none

/-- Insert a new entry maintaining sorted order. -/
def insertEntry (p : BTreeLeafPage) (key : ℕ) (recordPage : LPageId) (recordSlot : SlotId) :
    Except OverlayError BTreeLeafPage :=
  if maxEntries ≤ p.numEntries then
    .error (.pageFull maxEntries (p.numEntries + 1))
  else
    match p.findSlot key with
    | (true, _) => .error (.duplicateKey key)
    | (false, pos) =>
      .ok { p with entries := p.entries.insertIdx pos ⟨key, recordPage, recordSlot⟩ }

/-- The copy loops of `split_leaf` and `try_merge_leaf`: insert entries one by one,
stopping at the first error with the page as it then is. -/
def insertEntries : BTreeLeafPage → List BTreeLeafEntry → BTreeLeafPage × Option OverlayError
  | p, [] => (p, none)
  | p, e :: es =>
    match p.insertEntry e.key e.recordPage e.recordSlot with
    | .ok p' => insertEntries p' es
    | .error err => (p, some err)

/-- Delete an entry at the given index. -/
def deleteEntry (p : BTreeLeafPage) (index : ℕ) : Except OverlayError BTreeLeafPage :=
  if p.numEntries ≤ index then
    .error (.indexOutOfBounds index p.numEntries)
  else
    .ok { p with entries := p.entries.eraseIdx index }

/-! ### What the operations do to a sorted page -/

/-- The entries are strictly increasing by key. -/
def Sorted (p : BTreeLeafPage) : Prop := SortedBy BTreeLeafEntry.key p.entries

variable {p : BTreeLeafPage} {k : ℕ} {rp : LPageId} {rs : SlotId}
  {xs ys es : List BTreeLeafEntry} {e : BTreeLeafEntry}

theorem lookup_cut (h : p.Sorted) (hp : p.entries = xs ++ e :: ys) :
    p.lookup e.key = some e.recordId := by
  have hs : SortedBy BTreeLeafEntry.key (xs ++ e :: ys) := hp ▸ h
  rw [lookup, findSlot, hp, findSlot_hit hs]
  simp

/-- **Lookup is membership.** -/
theorem lookup_eq_some_iff (h : p.Sorted) {r : RecordId} :
    p.lookup k = some r ↔ ∃ e ∈ p.entries, e.key = k ∧ e.recordId = r := by
  rcases SortedBy.cut h k with ⟨xs, e, ys, hp, rfl⟩ | ⟨xs, ys, hp, hx, hy⟩
  · rw [lookup_cut h hp, Option.some.injEq]
    constructor
    · rintro rfl
      exact ⟨e, by simp [hp], rfl, rfl⟩
    · rintro ⟨a, ha, hk, rfl⟩
      rw [SortedBy.eq_of_key_eq h ha (by simp [hp]) hk]
  · rw [lookup, findSlot, hp, findSlot_miss hx hy]
    simp only [reduceCtorEq, false_iff, not_exists, not_and]
    intro e he hk
    rcases List.mem_append.1 he with he | he
    · exact absurd hk (hx e he).ne
    · exact absurd hk (hy e he).ne'

theorem lookup_eq_none_iff (h : p.Sorted) : p.lookup k = none ↔ ∀ e ∈ p.entries, e.key ≠ k := by
  rw [← not_iff_not, ← Ne, Option.ne_none_iff_exists']
  simp only [lookup_eq_some_iff h, not_forall, not_not]
  exact ⟨fun ⟨_, e, he, hk, _⟩ => ⟨e, he, hk⟩, fun ⟨e, he, hk⟩ => ⟨_, e, he, hk, rfl⟩⟩

/-- **Inserting an absent key** into a page with room is ordered insertion. -/
theorem insertEntry_of_absent (h : p.Sorted) (hn : p.numEntries < maxEntries)
    (hk : ∀ e ∈ p.entries, e.key ≠ k) :
    p.insertEntry k rp rs =
      .ok { p with entries := insertBy BTreeLeafEntry.key ⟨k, rp, rs⟩ p.entries } := by
  obtain ⟨h₁, h₂, -⟩ := insertIdx_findSlot (e := (⟨k, rp, rs⟩ : BTreeLeafEntry)) h hk
  rw [insertEntry, if_neg (by omega), ← h₂, findSlot]
  revert h₁
  dsimp only
  rcases Lib.findSlot BTreeLeafEntry.key p.entries k with ⟨_ | _, pos⟩ <;> simp

/-- Inserting a present key is refused. -/
theorem insertEntry_of_present (h : p.Sorted) (hn : p.numEntries < maxEntries)
    (hk : ∃ e ∈ p.entries, e.key = k) : p.insertEntry k rp rs = .error (.duplicateKey k) := by
  have h₁ := (findSlot_fst_iff h).2 hk
  rw [insertEntry, if_neg (by omega), findSlot]
  revert h₁
  rcases Lib.findSlot BTreeLeafEntry.key p.entries k with ⟨_ | _, pos⟩ <;> simp

/-- An entry that is accepted joins those of the page. -/
theorem insertEntry_perm {p' : BTreeLeafPage} (h : p.insertEntry k rp rs = .ok p') :
    p'.entries.Perm (⟨k, rp, rs⟩ :: p.entries) := by
  rw [insertEntry] at h
  split_ifs at h
  split at h
  · cases h
  · rename_i pos hpos
    obtain rfl := Except.ok.inj h
    obtain rfl : (Lib.findSlot BTreeLeafEntry.key p.entries k).2 = pos := congrArg Prod.snd hpos
    exact perm_insertIdx_findSlot

/-- Entries that are all accepted join those of the page. -/
theorem insertEntries_perm {p' : BTreeLeafPage} (h : p.insertEntries es = (p', none)) :
    p'.entries.Perm (p.entries ++ es) := by
  induction es generalizing p with
  | nil =>
    obtain rfl : p = p' := congrArg Prod.fst h
    rw [List.append_nil]
  | cons e es ih =>
    rw [insertEntries] at h
    split at h
    · rename_i p₁ hp₁
      exact (ih h).trans (((insertEntry_perm hp₁).append_right es).trans List.perm_middle.symm)
    · cases h

/-- Appending sorted entries one by one. -/
theorem insertEntries_append :
    ∀ {es : List BTreeLeafEntry} {p : BTreeLeafPage},
      SortedBy BTreeLeafEntry.key (p.entries ++ es) → p.entries.length + es.length ≤ maxEntries →
        p.insertEntries es = ({ p with entries := p.entries ++ es }, none)
  | [], p, _, _ => by simp [insertEntries]
  | e :: es, p, h, hl => by
    obtain ⟨h₁, -, h₁₂⟩ := SortedBy.append_iff.1 h
    have hlt : ∀ x ∈ p.entries, x.key < e.key := fun x hx => h₁₂ x hx e (List.mem_cons_self ..)
    rw [List.length_cons] at hl
    rw [insertEntries, insertEntry_of_absent h₁ (by rw [numEntries]; omega)
      fun x hx => (hlt x hx).ne]
    dsimp only
    rw [insertBy_last hlt, insertEntries_append (by simpa using h)
      (by simp only [List.length_append, List.length_singleton]; omega)]
    simp

/-- Copying sorted entries into a fresh page. -/
theorem insertEntries_init {id : LPageId} (h : SortedBy BTreeLeafEntry.key es)
    (hl : es.length ≤ maxEntries) :
    (init id).insertEntries es = (⟨id, 0, 0, es⟩, none) := by
  rw [insertEntries_append (by simpa [init] using h) (by simpa [init] using hl)]
  rfl

theorem entry_cut (hp : p.entries = xs ++ e :: ys) : p.entry xs.length = .ok e := by
  rw [entry, hp]
  simp

theorem deleteEntry_cut (hp : p.entries = xs ++ e :: ys) :
    p.deleteEntry xs.length = .ok { p with entries := xs ++ ys } := by
  rw [deleteEntry, if_neg (by rw [numEntries, hp]; simp), hp, eraseIdx_cut]

end BTreeLeafPage
end Abdb
