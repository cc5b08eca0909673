/-
# What the steps of `delete` do on well-formed pages

Each piece of `delete` between two await points, on pages whose entries are sorted: which
entry leaves, which pair of neighbours is to merge, and what is written when they do.
-/

import Abdb.BTree.InsertSpec

namespace Abdb
namespace BTree
namespace Delete

open Lib

variable {key : ℕ} {rid : RecordId} {view : View} {root leaf parent : LPageId}
  {path : List LPageId} {l : BTreeLeafPage} {i : BTreeInnerPage} {e : BTreeLeafEntry}
  {xs ys : List BTreeLeafEntry}

theorem findLeafWithPath_inner (h : view.page leaf = some (.inner i)) :
    findLeafWithPath view key root leaf path =
      Out.goto (.findLeafWithPath root (i.findChild key) (leaf :: path)) := by
  rw [findLeafWithPath, h, dispatch]

theorem findLeafWithPath_leaf (h : view.page leaf = some (.leaf l)) :
    findLeafWithPath view key root leaf path = Out.goto (.fetchLeaf root leaf path) := by
  rw [findLeafWithPath, h, dispatch]

/-- An absent key. -/
theorem onLeaf_absent (h : view.page leaf = some (.leaf l)) (hs : l.Sorted)
    (hk : ∀ e ∈ l.entries, e.key ≠ key) :
    onLeaf view key rid root leaf path = fail .tupleNonExistent := by
  have hslot : (l.findSlot key).1 = false := by
    rw [← Bool.not_eq_true]
    intro htrue
    obtain ⟨e, he, hek⟩ := (findSlot_fst_iff hs).1 htrue
    exact hk e he hek
  unfold onLeaf
  rw [h, asLeaf]
  dsimp only
  revert hslot
  rcases l.findSlot key with ⟨_ | _, pos⟩
  · exact fun _ => rfl
  · simp

/-- A key bound to another record. -/
theorem onLeaf_other (h : view.page leaf = some (.leaf l)) (hs : l.Sorted)
    (hes : l.entries = xs ++ e :: ys) (hk : e.key = key) (hr : e.recordId ≠ rid) :
    onLeaf view key rid root leaf path = fail .tupleNonExistent := by
  subst hk
  have hslot : l.findSlot e.key = (true, xs.length) := by
    rw [BTreeLeafPage.findSlot, hes]
    exact findSlot_hit (hes ▸ hs)
  have hne : e.recordPage ≠ rid.pageId ∨ e.recordSlot ≠ rid.slotId := by
    by_contra hcon
    obtain ⟨h₁, h₂⟩ := not_or.1 hcon
    exact hr (by rw [BTreeLeafEntry.recordId, not_not.1 h₁, not_not.1 h₂])
  unfold onLeaf
  rw [h, asLeaf]
  dsimp only
  rw [hslot]
  dsimp only
  rw [BTreeLeafPage.entry_cut hes]
  exact if_pos hne

/-- The entry leaves its leaf; if the leaf has become small and has a parent, a merge is
tried. -/
theorem onLeaf_hit (h : view.page leaf = some (.leaf l)) (hs : l.Sorted)
    (hes : l.entries = xs ++ e :: ys) (hk : e.key = key) (hr : e.recordId = rid) :
    onLeaf view key rid root leaf path =
      ⟨[⟨leaf, .leaf { l with entries := xs ++ ys }, true⟩], none,
        if ({ l with entries := xs ++ ys } : BTreeLeafPage).canMerge then
          match path with
          | [] => .done (.ok ())
          | parent :: _ => .fetchParent root leaf parent
        else .done (.ok ())⟩ := by
  subst hk hr
  have hslot : l.findSlot e.key = (true, xs.length) := by
    rw [BTreeLeafPage.findSlot, hes]
    exact findSlot_hit (hes ▸ hs)
  have heq : ¬ (e.recordPage ≠ e.recordId.pageId ∨ e.recordSlot ≠ e.recordId.slotId) := by
    simp [BTreeLeafEntry.recordId]
  unfold onLeaf
  rw [h, asLeaf]
  dsimp only
  rw [hslot]
  dsimp only
  rw [BTreeLeafPage.entry_cut hes]
  dsimp only
  rw [if_neg heq]
  have hdel := BTreeLeafPage.deleteEntry_cut hes
  split
  · rename_i err herr
    cases herr.symm.trans hdel
  · rename_i page' hpage
    obtain rfl := Except.ok.inj (hpage.symm.trans hdel)
    rfl

/-- The search for a child that is there finds the entry it is right of, with the child
before that entry. -/
theorem scan_spec {es : List BTreeInnerEntry} (left : LPageId) (n : ℕ)
    (h : ∃ e ∈ es, e.rightChild = leaf) : ∃ xs e ys, es = xs ++ e :: ys ∧ e.rightChild = leaf ∧
      findMergeCandidate.scan leaf left n es =
        some ⟨lastChild BTreeInnerEntry.rightChild left xs, leaf, n + xs.length⟩ := by
  induction es generalizing left n with
  | nil => simp at h
  | cons e es ih =>
    rw [findMergeCandidate.scan]
    by_cases he : e.rightChild = leaf
    · exact ⟨[], e, es, rfl, he, if_pos he⟩
    · obtain ⟨x, hx, hxl⟩ := h
      have hxs : x ∈ es := (List.mem_cons.1 hx).resolve_left (by rintro rfl; exact he hxl)
      obtain ⟨xs, y, ys, hes, hy, hscan⟩ := ih e.rightChild (n + 1) ⟨x, hxs, hxl⟩
      refine ⟨e :: xs, y, ys, by rw [hes]; rfl, hy, ?_⟩
      rw [if_neg he, hscan, lastChild, List.length_cons, Nat.add_assoc, Nat.add_comm 1]

/-- **The merge candidate** is a child of the parent and its left neighbour: the leaf and
its left neighbour, or the leaf and its right neighbour if it is the leftmost child. -/
theorem findMergeCandidate_spec
    (hmem : leaf ∈ childrenOf BTreeInnerEntry.rightChild i.leftmostChild i.entries) :
    i.entries = [] ∧ findMergeCandidate i leaf = none ∨
      ∃ xs e ys, i.entries = xs ++ e :: ys ∧ findMergeCandidate i leaf =
        some ⟨lastChild BTreeInnerEntry.rightChild i.leftmostChild xs, e.rightChild, xs.length⟩ := by
  cases hes : i.entries with
  | nil => exact Or.inl ⟨rfl, by rw [findMergeCandidate, hes]⟩
  | cons first es =>
    right
    by_cases hl : leaf = i.leftmostChild
    · refine ⟨[], first, es, rfl, ?_⟩
      rw [findMergeCandidate, hes]
      dsimp only
      rw [if_pos hl, hl]
      rfl
    · obtain ⟨xs, e, ys, he, her, hscan⟩ := scan_spec i.leftmostChild 0
        ((mem_childrenOf.1 hmem).resolve_left hl)
      refine ⟨xs, e, ys, hes ▸ he, ?_⟩
      rw [findMergeCandidate, hes]
      dsimp only
      rw [if_neg hl, ← hes, hscan, her, Nat.zero_add]

theorem onParent_none (h : view.page parent = some (.inner i))
    (hn : findMergeCandidate i leaf = none) :
    onParent view root leaf parent = Out.goto (.done (.ok ())) := by
  rw [onParent, h, asInner]
  dsimp only
  rw [hn]

theorem onParent_some {info : MergeInfo} (h : view.page parent = some (.inner i))
    (hn : findMergeCandidate i leaf = some info) :
    onParent view root leaf parent = Out.goto (.fetchSurvivor root leaf parent info) := by
  rw [onParent, h, asInner]
  dsimp only
  rw [hn]

theorem fetchSurvivor_eq {info : MergeInfo} {pg : Page} (h : view.page info.survivor = some pg) :
    resume key rid view (.fetchSurvivor root leaf parent info) =
      Out.goto (.fetchRemoved root leaf parent info) := by
  rw [resume, h]

/-- Neighbours that do not fit into one leaf stay as they are. -/
theorem merge_full {info : MergeInfo} {ls lr : BTreeLeafPage}
    (hs : view.page info.survivor = some (.leaf ls)) (hr : view.page info.removed = some (.leaf lr))
    (h : BTreeLeafPage.maxEntries < ls.numEntries + lr.numEntries) :
    merge view root leaf parent info = Out.goto (.done (.ok ())) := by
  rw [merge, hs, hr, asLeaf, asLeaf]
  exact if_pos h

/-- Neighbours that fit into one leaf merge. -/
theorem merge_fits {info : MergeInfo} {ls lr : BTreeLeafPage}
    (hs : view.page info.survivor = some (.leaf ls)) (hr : view.page info.removed = some (.leaf lr))
    (h : ls.numEntries + lr.numEntries ≤ BTreeLeafPage.maxEntries)
    (hsorted : SortedBy BTreeLeafEntry.key (ls.entries ++ lr.entries)) :
    merge view root leaf parent info =
      if lr.nextPage = 0 then
        (removeSeparator ⟨Function.update view.page info.survivor (some (.leaf { ls with
          nextPage := lr.nextPage, entries := ls.entries ++ lr.entries })), view.root⟩
          root leaf parent info).after
          [⟨info.survivor, .leaf { ls with
            nextPage := lr.nextPage, entries := ls.entries ++ lr.entries }, true⟩]
      else ⟨[⟨info.survivor, .leaf { ls with
        nextPage := lr.nextPage, entries := ls.entries ++ lr.entries }, true⟩], none,
        .fetchSibling root leaf parent info lr.nextPage⟩ := by
  rw [merge, hs, hr, asLeaf, asLeaf]
  dsimp only
  rw [if_neg (not_lt.2 h), BTreeLeafPage.insertEntries_append hsorted h]
  rfl

/-- The right sibling of the removed leaf is relinked. -/
theorem onSibling_eq {info : MergeInfo} {n : LPageId} {sib : BTreeLeafPage}
    (h : view.page n = some (.leaf sib)) : onSibling view root leaf parent info n =
      (removeSeparator ⟨Function.update view.page n (some (.leaf (sib.setPrevPage info.survivor))),
        view.root⟩ root leaf parent info).after [⟨n, .leaf (sib.setPrevPage info.survivor), true⟩] := by
  rw [onSibling, h, asLeaf]
  rfl

/-- The separator leaves the parent; a root that has none left is to give way. -/
theorem removeSeparator_eq {info : MergeInfo} {e : BTreeInnerEntry} {xs ys : List BTreeInnerEntry}
    (h : view.page parent = some (.inner i)) (hes : i.entries = xs ++ e :: ys)
    (hidx : info.sepIdx = xs.length) : removeSeparator view root leaf parent info =
      ⟨[⟨parent, .inner { i with entries := xs ++ ys }, true⟩], none,
        if parent = root ∧ xs ++ ys = [] then .setRoot leaf info.survivor i.leftmostChild
        else .done (.ok ())⟩ := by
  rw [removeSeparator, h, asInner]
  dsimp only
  rw [hidx, BTreeInnerPage.deleteSeparator_cut hes]
  dsimp only
  rw [BTreeInnerPage.numKeys]
  congr 1
  exact if_congr (and_congr_right fun _ => List.length_eq_zero_iff) rfl rfl

end Delete
end BTree
end Abdb
