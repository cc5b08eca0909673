/-
# What the steps of `insert` do on well-formed pages

Each piece of `insert` between two await points, on pages whose entries are sorted and
within capacity: no error branch is taken, the copy loops copy everything, and the
separator and the two halves of a split are the ones a cut of the merged list names.
-/

import Abdb.BTree.Operations
import Abdb.BTree.Tree

namespace Abdb
namespace BTree

open Lib

namespace Insert

variable {key k : ℕ} {rid : RecordId} {view : View} {leaf n parent : LPageId}
  {locked : List LPageId} {page : BTreeLeafPage}

/-- The page an insert is about to split, and the separator it will split it at. -/
def cut : InsertPc → Option (LPageId × ℕ)
  | .splitLeafAlloc leaf _ entries _ _ =>
    (entries[entries.length / 2]?).map fun e => (leaf, e.key)
  | .splitInnerAlloc parent _ _ _ entries _ =>
    (entries[entries.length / 2]?).map fun e => (parent, e.separatorKey)
  | _ => none

/-- The entry an insert adds. -/
def newEntry (key : ℕ) (rid : RecordId) : BTreeLeafEntry := ⟨key, rid.pageId, rid.slotId⟩

@[simp] theorem newEntry_key : (newEntry key rid).key = key := rfl

@[simp] theorem newEntry_recordId : (newEntry key rid).recordId = rid := rfl

/-- A present key is refused and nothing is written. -/
theorem intoLeaf_present (h : page.Sorted) (hk : ∃ e ∈ page.entries, e.key = key)
    (rid : RecordId) (leaf : LPageId) (locked : List LPageId) :
    ∃ e, e ≠ .outsideModel ∧ intoLeaf key rid leaf locked page = fail e := by
  rw [intoLeaf]
  split_ifs with hs
  · have h₁ := (findSlot_fst_iff h).2 hk
    rw [BTreeLeafPage.findSlot]
    revert h₁
    rcases Lib.findSlot BTreeLeafEntry.key page.entries key with ⟨_ | _, pos⟩
    · simp
    · exact fun _ => ⟨.pageCorruption _, by rintro ⟨⟩, rfl⟩
  · have hn := not_le.1 (BTreeLeafPage.needsSplit_iff.not.1 hs)
    rw [BTreeLeafPage.insertEntry_of_present h hn hk]
    exact ⟨.pageCorruption _, by rintro ⟨⟩, rfl⟩

/-- A leaf with room takes the entry, on a guard that is not marked dirty. -/
theorem intoLeaf_room (h : page.Sorted) (hk : ∀ e ∈ page.entries, e.key ≠ key)
    (hn : page.numEntries < BTreeLeafPage.maxEntries) :
    intoLeaf key rid leaf locked page =
      ⟨[⟨leaf, .leaf { page with
        entries := insertBy BTreeLeafEntry.key (newEntry key rid) page.entries }, false⟩],
        none, .done (.ok ())⟩ := by
  rw [intoLeaf, if_neg (BTreeLeafPage.needsSplit_iff.not.2 (not_le.2 hn)),
    BTreeLeafPage.insertEntry_of_absent h hn hk]
  rfl

/-- A full leaf is to be split with the entry merged in. -/
theorem intoLeaf_full (h : page.Sorted) (hk : ∀ e ∈ page.entries, e.key ≠ key)
    (hn : BTreeLeafPage.maxEntries ≤ page.numEntries) :
    intoLeaf key rid leaf locked page =
      Out.goto (.splitLeafAlloc leaf locked
        (insertBy BTreeLeafEntry.key (newEntry key rid) page.entries)
        page.prevPage page.nextPage) := by
  obtain ⟨h₁, h₂, -⟩ := insertIdx_findSlot (e := newEntry key rid) h hk
  rw [intoLeaf, if_pos (BTreeLeafPage.needsSplit_iff.2 hn), ← h₂,
    BTreeLeafPage.findSlot]
  revert h₁
  rw [newEntry_key]
  rcases Lib.findSlot BTreeLeafEntry.key page.entries key with ⟨_ | _, pos⟩
  · exact fun _ => rfl
  · simp

/-- At an inner page the descent goes on, above a safe page with no latch kept. -/
theorem findLeafForWrite_inner {i : BTreeInnerPage} (h : view.page leaf = some (.inner i)) :
    findLeafForWrite view key rid leaf locked = Out.goto (.findLeafForWrite (i.findChild key)
      (leaf :: if i.isSafeForInsert then [] else locked)) := by
  rw [findLeafForWrite, h, dispatch]

/-- The descent ends at a leaf. -/
theorem findLeafForWrite_leaf (h : view.page leaf = some (.leaf page)) :
    findLeafForWrite view key rid leaf locked =
      intoLeaf key rid leaf (if page.isSafeForInsert then [] else locked) page := by
  rw [findLeafForWrite, h, dispatch]

/-- The writes of a leaf split. -/
def leafWrites (n leaf : LPageId) (xs ys : List BTreeLeafEntry) (oldPrev oldNext : LPageId) :
    List Write :=
  [⟨n, .leaf ⟨n, oldNext, leaf, ys⟩, true⟩, ⟨leaf, .leaf ⟨leaf, n, oldPrev, xs⟩, false⟩]

/-- **`split_leaf` cuts the merged entries in two** at the key of the first entry of the
upper half. -/
theorem splitLeafFinish_spec {entries : List BTreeLeafEntry}
    (hs : SortedBy BTreeLeafEntry.key entries)
    (hl : entries.length = BTreeLeafPage.maxEntries + 1) :
    ∃ xs e ys, entries = xs ++ e :: ys ∧ xs.length = 127 ∧ (e :: ys).length = 127 ∧
      entries[entries.length / 2]? = some e ∧ ∀ view n leaf locked oldPrev oldNext,
        splitLeafFinish view n leaf locked entries oldPrev oldNext =
        if oldNext = 0 then
          (insertIntoAncestorsWithLocks
            { view with page := writePages view.page (leafWrites n leaf xs (e :: ys) oldPrev oldNext) }
            locked e.key n).after (leafWrites n leaf xs (e :: ys) oldPrev oldNext)
        else ⟨leafWrites n leaf xs (e :: ys) oldPrev oldNext, none,
          .splitLeafSibling leaf locked n e.key oldNext⟩ := by
  obtain ⟨xs, e, ys, he, hx, hget, htake, hdrop, -⟩ :=
    exists_cut_half entries (by rintro rfl; simp at hl)
  simp only [BTreeLeafPage.maxEntries_eq] at hl
  have hlen := congrArg List.length he
  rw [List.length_append] at hlen
  have hy : (e :: ys).length = 127 := by omega
  obtain ⟨hsx, hsy, -⟩ := SortedBy.append_iff.1 (he ▸ hs)
  refine ⟨xs, e, ys, he, by omega, hy, hget, fun view n leaf locked oldPrev oldNext => ?_⟩
  rw [splitLeafFinish]
  dsimp only
  rw [hget, htake, hdrop]
  dsimp only
  rw [BTreeLeafPage.insertEntries_init hsy (by rw [hy]; decide)]
  dsimp only
  rw [BTreeLeafPage.insertEntries_init hsx (by rw [hx, hl]; decide)]
  rfl

/-- The old right sibling gets the new leaf as its `prev_page`. -/
theorem splitLeafSibling_eq {sib : BTreeLeafPage} {separator : ℕ} {oldNext : LPageId}
    (h : view.page oldNext = some (.leaf sib)) :
    splitLeafSibling view locked n separator oldNext =
      (insertIntoAncestorsWithLocks { view with
        page := Function.update view.page oldNext (some (.leaf (sib.setPrevPage n))) }
        locked separator n).after [⟨oldNext, .leaf (sib.setPrevPage n), true⟩] := by
  rw [splitLeafSibling, h, asLeaf]
  rfl

/-- The writes of an inner split. -/
def innerWrites (n parent : LPageId) (xs ys : List BTreeInnerEntry) (oldLeftmost : LPageId)
    (e : BTreeInnerEntry) : List Write :=
  [⟨n, .inner ⟨n, e.rightChild, ys⟩, true⟩, ⟨parent, .inner ⟨parent, oldLeftmost, xs⟩, false⟩]

/-- **`split_inner` cuts the merged separators in two** around the one it pushes up. -/
theorem splitInnerFinish_spec {entries : List BTreeInnerEntry}
    (hs : SortedBy BTreeInnerEntry.separatorKey entries)
    (hl : entries.length = BTreeInnerPage.maxKeys + 1) :
    ∃ xs e ys, entries = xs ++ e :: ys ∧ xs.length = 127 ∧ ys.length = 127 ∧
      entries[entries.length / 2]? = some e ∧ ∀ view n parent locked oldLeftmost,
        splitInnerFinish view n parent locked entries oldLeftmost =
        (insertIntoAncestorsWithLocks
          { view with page := writePages view.page (innerWrites n parent xs ys oldLeftmost e) }
          locked e.separatorKey n).after (innerWrites n parent xs ys oldLeftmost e) := by
  obtain ⟨xs, e, ys, he, hx, hget, htake, -, hdrop⟩ :=
    exists_cut_half entries (by rintro rfl; simp at hl)
  simp only [BTreeInnerPage.maxKeys_eq] at hl
  have hlen := congrArg List.length he
  rw [List.length_append, List.length_cons] at hlen
  have hy : ys.length = 127 := by omega
  obtain ⟨hsx, hsy, -⟩ := SortedBy.append_iff.1 (he ▸ hs)
  refine ⟨xs, e, ys, he, by omega, hy, hget, fun view n parent locked oldLeftmost => ?_⟩
  rw [splitInnerFinish]
  dsimp only
  rw [hget]
  dsimp only
  rw [htake, hdrop, BTreeInnerPage.insertSeparators_init (SortedBy.cons_iff.1 hsy).2
    (by rw [hy]; decide)]
  dsimp only
  rw [BTreeInnerPage.insertSeparators_init hsx (by rw [hx, hl]; decide)]
  rfl

/-- With no latched ancestor left, a new root is due. -/
theorem insertIntoAncestors_nil {sepKey : ℕ} {c : LPageId} :
    insertIntoAncestorsWithLocks view [] sepKey c = Out.goto (.newRootAlloc sepKey c) := rfl

/-- An ancestor with room takes the separator, on a guard that is not marked dirty. -/
theorem insertIntoAncestors_room {i : BTreeInnerPage} {e : BTreeInnerEntry}
    (hp : view.page parent = some (.inner i))
    (h : SortedBy BTreeInnerEntry.separatorKey (insertBy BTreeInnerEntry.separatorKey e i.entries))
    (hs : i.Sorted) (hn : i.numKeys < BTreeInnerPage.maxKeys) :
    insertIntoAncestorsWithLocks view (parent :: locked) e.separatorKey e.rightChild =
      ⟨[⟨parent, .inner { i with
        entries := insertBy BTreeInnerEntry.separatorKey e i.entries }, false⟩],
        none, .done (.ok ())⟩ := by
  rw [insertIntoAncestorsWithLocks, hp, asInner]
  dsimp only
  rw [if_pos hn, BTreeInnerPage.insertSeparator_of_absent hs hn (ne_of_sorted_insertBy h)]

/-- A full ancestor is to be split with the separator merged in. -/
theorem insertIntoAncestors_full {i : BTreeInnerPage} {e : BTreeInnerEntry}
    (hp : view.page parent = some (.inner i))
    (h : SortedBy BTreeInnerEntry.separatorKey (insertBy BTreeInnerEntry.separatorKey e i.entries))
    (hs : i.Sorted) (hn : BTreeInnerPage.maxKeys ≤ i.numKeys) :
    insertIntoAncestorsWithLocks view (parent :: locked) e.separatorKey e.rightChild =
      Out.goto (.splitInnerAlloc parent locked e.separatorKey e.rightChild
        (insertBy BTreeInnerEntry.separatorKey e i.entries) i.leftmostChild) := by
  obtain ⟨h₁, h₂, -⟩ := insertIdx_findSlot hs (ne_of_sorted_insertBy h)
  rw [insertIntoAncestorsWithLocks, hp, asInner]
  dsimp only
  rw [if_neg (by omega), splitInner, ← h₂, BTreeInnerPage.findSeparatorSlot]
  revert h₁
  rcases Lib.findSlot BTreeInnerEntry.separatorKey i.entries e.separatorKey with ⟨_ | _, pos⟩
  · exact fun _ => rfl
  · simp

/-- The first leaf holds the entry. -/
theorem firstLeaf_eq : firstLeaf key rid n =
    ⟨[⟨n, .leaf ⟨n, 0, 0, [newEntry key rid]⟩, true⟩], none, .setRoot n⟩ := rfl

/-- The new root has the old one as first child and one separator. -/
theorem newRootFinish_eq {sepKey : ℕ} {c : LPageId} : newRootFinish view n sepKey c =
    ⟨[⟨n, .inner ⟨n, view.root, [⟨sepKey, c⟩]⟩, true⟩], some n, .done (.ok ())⟩ := rfl

end Insert

end BTree
end Abdb
