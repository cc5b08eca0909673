/-
# What the code between two accesses does on well-formed pages

Each piece of the directory code on pages whose entries are sorted and within capacity:
no error branch is taken, the copy loops copy everything, and the separator and the two
halves of a split are the ones a cut of the merged list names.
-/

import Abdb.Directory.Growth

namespace Abdb
namespace Directory

open Lib

variable {n id : DirPageId} {l : DirectoryLeafPage} {i : DirectoryInnerPage} {k s : ℕ}
  {c : DirPageId} {r : PPageId} {path : List DirPageId}

/-- The entry an addition makes. -/
abbrev newEntry (k : LPageId) (r : PPageId) : DirectoryLeafEntry := .fromPPageId k r

/-- What the entry of an addition binds. -/
theorem newEntry_binds {k' : ℕ} {l : PPageId} (hr : r.Addressable) :
    (newEntry k r).searchKey = k' ∧ (newEntry k r).toPPageId = l ↔ k' = k ∧ l = r := by
  rw [DirectoryLeafEntry.toPPageId_fromPPageId hr]
  exact and_congr eq_comm eq_comm

/-- The merged pairs of a leaf that is about to split are those of its merged entries. -/
theorem insertIdx_pairs (hs : l.Sorted) (hb : ∀ e ∈ l.entries, e.searchKey < idBound)
    (hk : k < idBound) (hr : r.Addressable) (habs : ∀ e ∈ l.entries, e.searchKey ≠ k) :
    (Lib.findSlot Prod.fst (DirectoryLeafPage.pairs l.entries) k).1 = false ∧
      (DirectoryLeafPage.pairs l.entries).insertIdx
        (Lib.findSlot Prod.fst (DirectoryLeafPage.pairs l.entries) k).2 (k, r) =
        DirectoryLeafPage.pairs
          (insertBy DirectoryLeafEntry.searchKey (newEntry k r) l.entries) := by
  have hkey : ∀ {e : DirectoryLeafEntry}, e.searchKey < idBound → e.logicalPageId = e.searchKey :=
    fun h => Nat.mod_eq_of_lt h
  have hsorted : SortedBy Prod.fst (DirectoryLeafPage.pairs l.entries) :=
    hs.map fun e he => hkey (hb e he)
  have habs' : ∀ x ∈ DirectoryLeafPage.pairs l.entries, x.1 ≠ k := by
    intro x hx
    obtain ⟨e, he, rfl⟩ := List.mem_map.1 hx
    dsimp only
    rw [hkey (hb e he)]
    exact habs e he
  obtain ⟨h₁, h₂, -⟩ := insertIdx_findSlot (e := (k, r)) hsorted habs'
  refine ⟨h₁, h₂.trans ?_⟩
  have hnew : ((newEntry k r).logicalPageId, (newEntry k r).toPPageId) = (k, r) := by
    rw [hkey (by exact hk), DirectoryLeafEntry.toPPageId_fromPPageId hr]
    rfl
  rw [← hnew, DirectoryLeafPage.pairs, DirectoryLeafPage.pairs]
  refine insertBy_map (f := fun e : DirectoryLeafEntry => (e.logicalPageId, e.toPPageId))
    fun e he => ?_
  rcases List.mem_cons.1 he with rfl | he
  · exact hkey (by exact hk)
  · exact hkey (hb e he)

/-- **A full leaf without the key** is to be split with the new entry merged in. -/
theorem splitLeaf_absent (hs : l.Sorted) (hb : ∀ e ∈ l.entries, e.searchKey < idBound)
    (hk : k < idBound) (hr : r.Addressable) (habs : ∀ e ∈ l.entries, e.searchKey ≠ k) :
    splitLeaf id l path k r = .alloc (.splitLeaf id l (DirectoryLeafPage.pairs
      (insertBy DirectoryLeafEntry.searchKey (newEntry k r) l.entries)) path) := by
  obtain ⟨h₁, h₂⟩ := insertIdx_pairs hs hb hk hr habs
  rw [splitLeaf, ← h₂]
  revert h₁
  rcases Lib.findSlot Prod.fst (DirectoryLeafPage.pairs l.entries) k with ⟨_ | _, pos⟩ <;> simp

/-- A full leaf with the key refuses it. -/
theorem splitLeaf_present (hs : l.Sorted) (hb : ∀ e ∈ l.entries, e.searchKey < idBound)
    (hk : ∃ e ∈ l.entries, e.searchKey = k) : splitLeaf id l path k r = .fail (.duplicatePage k) := by
  have hkey : ∀ e ∈ l.entries, e.logicalPageId = e.searchKey := fun e he => Nat.mod_eq_of_lt (hb e he)
  have hsorted : SortedBy Prod.fst (DirectoryLeafPage.pairs l.entries) := hs.map hkey
  have hfound : (Lib.findSlot Prod.fst (DirectoryLeafPage.pairs l.entries) k).1 = true := by
    obtain ⟨e, he, rfl⟩ := hk
    exact (findSlot_fst_iff hsorted).2 ⟨_, List.mem_map.2 ⟨e, he, rfl⟩, hkey e he⟩
  rw [splitLeaf]
  revert hfound
  rcases Lib.findSlot Prod.fst (DirectoryLeafPage.pairs l.entries) k with ⟨_ | _, pos⟩ <;> simp

/-- What `split_leaf` goes on with after the new leaf: the right sibling, if there is one,
and the old leaf. -/
def rebuiltLeaf (id : DirPageId) (l : DirectoryLeafPage) (xs : List DirectoryLeafEntry)
    (path : List DirPageId) (n : DirPageId) (sep : ℕ) : Pc :=
  if l.nextPage ≠ 0 then .readPage l.nextPage (.sibling id ⟨id, n, l.prevPage, xs⟩ path n sep)
  else .writePage id (.leaf ⟨id, n, l.prevPage, xs⟩) (afterSplitLeaf id path n sep)

/-- **`split_leaf` cuts the merged entries in two** at the key of the first entry of the
upper half. -/
theorem splitLeafFinish_spec {es : List DirectoryLeafEntry}
    (hs : SortedBy DirectoryLeafEntry.searchKey es) (hb : ∀ e ∈ es, e.searchKey < idBound)
    (hl : es.length = DirectoryLeafPage.maxEntries + 1) :
    ∃ xs e ys, es = xs ++ e :: ys ∧ xs.length = 127 ∧ (e :: ys).length = 127 ∧
      ∀ n id (l : DirectoryLeafPage) path,
        splitLeafFinish n id l (DirectoryLeafPage.pairs es) path =
          .writePage n (.leaf ⟨n, l.nextPage, id, e :: ys⟩)
            (rebuiltLeaf id l xs path n e.searchKey) := by
  obtain ⟨xs, e, ys, he, hx, hget, htake, hdrop, -⟩ :=
    exists_cut_half es (by rintro rfl; simp at hl)
  simp only [DirectoryLeafPage.maxEntries_eq] at hl
  have hlen := congrArg List.length he
  rw [List.length_append] at hlen
  have hy : (e :: ys).length = 127 := by omega
  obtain ⟨hsx, hsy, -⟩ := SortedBy.append_iff.1 (he ▸ hs)
  have hbx : ∀ z ∈ xs, z.searchKey < idBound := fun z hz => hb z (by simp [he, hz])
  have hby : ∀ z ∈ e :: ys, z.searchKey < idBound := fun z hz =>
    hb z (he ▸ List.mem_append_right _ hz)
  have hsep : e.logicalPageId = e.searchKey := Nat.mod_eq_of_lt (hby e (List.mem_cons_self ..))
  refine ⟨xs, e, ys, he, by omega, hy, fun n id l path => ?_⟩
  rw [splitLeafFinish]
  simp only [DirectoryLeafPage.pairs, List.length_map, List.getElem?_map, hget, Option.map_some,
    ← List.map_drop, ← List.map_take, htake, hdrop]
  rw [← DirectoryLeafPage.pairs, DirectoryLeafPage.insertEntries_init hsy hby (by rw [hy]; decide)]
  dsimp only
  rw [rebuildLeaf, ← DirectoryLeafPage.pairs,
    DirectoryLeafPage.insertEntries_init hsx hbx (by rw [hx, hl]; decide), hsep]
  rfl

/-- **A page with room** takes the separator. -/
theorem insertIntoParent_room (hs : i.Sorted) (habs : ∀ e ∈ i.entries, e.separatorKey ≠ s)
    (hn : i.numKeys < BTreeInnerPage.maxKeys) :
    insertIntoParent id i path s c = .writePage id (.inner { i with
      entries := insertBy BTreeInnerEntry.separatorKey ⟨s, c⟩ i.entries }) .ok := by
  rw [insertIntoParent, if_neg (by omega), BTreeInnerPage.insertSeparator_of_absent hs hn habs]

/-- A full page is to be split with the separator merged in. -/
theorem insertIntoParent_full (hs : i.Sorted) (habs : ∀ e ∈ i.entries, e.separatorKey ≠ s)
    (hn : BTreeInnerPage.maxKeys ≤ i.numKeys) :
    insertIntoParent id i path s c = .alloc (.splitInner id i
      (insertBy BTreeInnerEntry.separatorKey ⟨s, c⟩ i.entries) path) := by
  obtain ⟨h₁, h₂, -⟩ := insertIdx_findSlot (e := (⟨s, c⟩ : BTreeInnerEntry)) hs habs
  rw [insertIntoParent, if_pos hn, splitInner, ← h₂]
  revert h₁
  rcases Lib.findSlot BTreeInnerEntry.separatorKey i.entries s with ⟨_ | _, pos⟩ <;> simp

/-- **`split_inner` cuts the merged separators in two** around the one it pushes up. -/
theorem splitInnerFinish_spec {es : List DirectoryInnerEntry}
    (hs : SortedBy BTreeInnerEntry.separatorKey es)
    (hl : es.length = BTreeInnerPage.maxKeys + 1) :
    ∃ xs e ys, es = xs ++ e :: ys ∧ xs.length = 127 ∧ ys.length = 127 ∧
      ∀ n id (i : DirectoryInnerPage) path, splitInnerFinish n id i es path =
        .writePage n (.inner ⟨n, e.rightChild, ys⟩)
          (.writePage id (.inner ⟨id, i.leftmostChild, xs⟩)
            (insertIntoAncestors path e.separatorKey n)) := by
  obtain ⟨xs, e, ys, he, hx, hget, htake, -, hdrop⟩ :=
    exists_cut_half es (by rintro rfl; simp at hl)
  simp only [BTreeInnerPage.maxKeys_eq] at hl
  have hlen := congrArg List.length he
  rw [List.length_append, List.length_cons] at hlen
  have hy : ys.length = 127 := by omega
  obtain ⟨hsx, hsy, -⟩ := SortedBy.append_iff.1 (he ▸ hs)
  refine ⟨xs, e, ys, he, by omega, hy, fun n id i path => ?_⟩
  rw [splitInnerFinish]
  rw [hget]
  dsimp only
  rw [htake, hdrop, BTreeInnerPage.insertSeparators_init (SortedBy.cons_iff.1 hsy).2
    (by rw [hy]; decide)]
  dsimp only
  rw [rebuildInner, BTreeInnerPage.insertSeparators_init hsx (by rw [hx, hl]; decide)]

/-- The first leaf holds the entry. -/
theorem allocated_firstLeaf : allocated n (.firstLeaf k r) =
    .writePage n (.leaf ⟨n, 0, 0, [newEntry k r]⟩) (.setRoot n) := rfl

/-- The new root has the old one as first child and one separator. -/
theorem allocated_newRoot {oldRoot : DirPageId} : allocated n (.newRoot oldRoot s c) =
    .writePage n (.inner ⟨n, oldRoot, [⟨s, c⟩]⟩) (.setRoot n) := rfl

end Directory
end Abdb
