/-
# A delete that runs alone

On a tree at rest a delete returns: with `TupleNonExistent` and no change unless its key
is bound to its record, else with `Ok`, a tree at rest again, and that binding gone
(`Store.Rests.delete`).  A merge of two leaves under one parent, and the collapse of a
root left without separators, change no binding (`Delete.tryMerge`).
-/

import Abdb.BTree.DeleteSpec
import Abdb.BTree.Sequential
import Abdb.BTree.Shrink

namespace Abdb
namespace BTree

open Lib Relation

variable {S : PageSupply} {F F' : Layout} {page page' : LPageId → Option Page}
  {root p q s r leaf parent n : LPageId} {key m k : ℕ} {rid : RecordId} {path : List LPageId}
  {ℓ a b lo hi : ℕ} {st : Store}

/-- A tree at rest stays one when an entry leaves a leaf. -/
theorem Store.Rests.removeEntry (h : st.Rests S F) {l : BTreeLeafPage} (hleaf : F leaf = some ⟨0, a, b⟩)
    (hl : st.page leaf = some (.leaf l)) {xs ys : List BTreeLeafEntry} {e : BTreeLeafEntry}
    (hes : l.entries = xs ++ e :: ys) : Store.Rests S F ⟨Function.update st.page leaf
      (some (.leaf { l with entries := xs ++ ys })), st.root, st.allocated⟩ := by
  have hsub : (xs ++ ys).Sublist l.entries := by
    rw [hes]
    exact (List.sublist_cons_self ..).append_left xs
  refine ⟨h.tree.shrinkLeaf hleaf hl hsub, fun x hx => ?_⟩
  refine (Function.update_of_ne ?_ ..).trans (h.fresh x hx)
  rintro rfl
  rw [h.fresh x hx] at hl
  cases hl

namespace Delete

/-- What `find_leaf_with_path` knows of the path to a page: its head, if any, covers the
key one level above. -/
def PathOk (F : Layout) (key ℓ : ℕ) : List LPageId → Prop
  | [] => True
  | q :: _ => ∃ lo hi, F q = some ⟨ℓ + 1, lo, hi⟩ ∧ lo ≤ key ∧ key < hi

/-- **The descent of a delete** reaches the leaf that covers its key, and waits for nothing it
holds. -/
theorem descend (root : LPageId) (h : Tree F .settled st.page st.root) (rid : RecordId)
    (hp : F p = some ⟨ℓ, a, b⟩) (ha : a ≤ key) (hb : key < b) (hpath : PathOk F key ℓ path) :
    ∃ leaf path' a' b', F leaf = some ⟨0, a', b'⟩ ∧ a' ≤ key ∧ key < b' ∧ PathOk F key 0 path' ∧
      (path' = [] → leaf = p ∧ path = []) ∧
      ReflTransGen (Store.Latched S (machine key rid))
        (st, .findLeafWithPath root p path) (st, .fetchLeaf root leaf path') := by
  have hfree : ∀ q path, ¬ (machine key rid).SelfWaits (.findLeafWithPath root q path) := by
    rintro q path ⟨x, m, -, hx⟩
    cases hx
  induction ℓ generalizing p a b path with
  | zero =>
    obtain ⟨l, hl, -⟩ := h.leaf hp
    have hstep : st.step S (machine key rid) (.findLeafWithPath root p path) =
        (st, .fetchLeaf root p path) :=
      Store.step_goto nofun nofun (findLeafWithPath_leaf hl)
    exact ⟨p, path, a, b, hp, ha, hb, hpath, fun h => ⟨rfl, h⟩, .single ⟨hfree _ _, hstep.symm⟩⟩
  | succ ℓ ih =>
    obtain ⟨i, c, a', b', hi, -, hroute, hc, -, -, ha', hb'⟩ := h.child hp ha hb
    have hstep : st.step S (machine key rid) (.findLeafWithPath root p path) =
        (st, .findLeafWithPath root c (p :: path)) := by
      refine Store.step_goto nofun nofun ?_
      rw [← hroute rfl]
      exact findLeafWithPath_inner hi
    have hpath₁ : PathOk F key ℓ (p :: path) := ⟨a, b, hp, ha, hb⟩
    obtain ⟨leaf, path', a'', b'', hleaf, ha'', hb'', hpath', hnil, hsteps⟩ :=
      ih hc ha' hb' hpath₁
    exact ⟨leaf, path', a'', b'', hleaf, ha'', hb'', hpath', fun h => (List.cons_ne_nil _ _ (hnil h).2).elim,
      hsteps.head ⟨hfree _ _, hstep.symm⟩⟩

/-- **The separator leaves the parent**, once the leaves around it have been rewritten, and
a root left without separators gives way to its only child. -/
theorem finishMerge (h : st.Rests S F) (leaf : LPageId) (key : ℕ) (rid : RecordId)
    {i : BTreeInnerPage} {e : BTreeInnerEntry}
    {xs ys : List BTreeInnerEntry} {ls lr : BTreeLeafPage} (hq : F q = some ⟨1, lo, hi⟩)
    (hi' : st.page q = some (.inner i)) (he : i.entries = xs ++ e :: ys)
    (hsc : lastChild BTreeInnerEntry.rightChild i.leftmostChild xs = s) (hrc : e.rightChild = r)
    (hs : F s = some ⟨0, a, m⟩) (hr : F r = some ⟨0, m, b⟩) (hm : e.separatorKey = m)
    (hla : lo ≤ a) (hbh : b ≤ hi)
    (hls : st.page s = some (.leaf ls)) (hlr : st.page r = some (.leaf lr))
    (hcap : ls.numEntries + lr.numEntries ≤ BTreeLeafPage.maxEntries)
    (hs' : page' s = some (.leaf { ls with
      nextPage := lr.nextPage, entries := ls.entries ++ lr.entries }))
    (hn' : lr.nextPage ≠ 0 → ∀ ln, st.page lr.nextPage = some (.leaf ln) →
      page' lr.nextPage = some (.leaf (ln.setPrevPage s)))
    (hpage : ∀ x, x ≠ s → x ≠ lr.nextPage → page' x = st.page x) (hqn : q ≠ lr.nextPage) :
    ∃ ws pc', removeSeparator ⟨page', st.root⟩ st.root leaf q ⟨s, r, xs.length⟩ =
        ⟨ws, none, pc'⟩ ∧
      Store.Settles S (machine key rid) (F.Binds st.page)
        ⟨writePages page' ws, st.root, st.allocated⟩ pc' (.done (.ok ())) := by
  have hqs : q ≠ s := by rintro rfl; rw [hq] at hs; simp at hs
  have hqr : q ≠ r := by rintro rfl; rw [hq] at hr; simp at hr
  have hiq : page' q = some (.inner i) := (hpage q hqs hqn).trans hi'
  have hnq : lr.nextPage ≠ 0 → ∀ ln, st.page lr.nextPage = some (.leaf ln) →
      Function.update page' q (some (.inner { i with entries := xs ++ ys })) lr.nextPage =
        some (.leaf (ln.setPrevPage s)) := fun h0 ln hln =>
    (Function.update_of_ne hqn.symm ..).trans (hn' h0 ln hln)
  have hsq : Function.update page' q (some (.inner { i with entries := xs ++ ys })) s =
      some (.leaf { ls with nextPage := lr.nextPage, entries := ls.entries ++ lr.entries }) :=
    (Function.update_of_ne hqs.symm ..).trans hs'
  have hpq : ∀ x, x ≠ s → x ≠ q → x ≠ lr.nextPage → Function.update page' q
      (some (.inner { i with entries := xs ++ ys })) x = st.page x := fun x hxs hxq hxn =>
    (Function.update_of_ne hxq ..).trans (hpage x hxs hxn)
  have tree' := h.tree.merge hq hi' he hsc hrc hs hr hm hla hbh hls hlr hcap hsq
    (Function.update_self ..) hnq hpq
  have hbinds : ∀ k rid, (F.merge s r a b).Binds _ k rid ↔ F.Binds st.page k rid :=
    fun k rid => h.tree.binds_merge hq hs hr hls hlr hsq hnq hpq
  have hfresh : ∀ x, st.allocated ≤ x → Function.update page' q
      (some (.inner { i with entries := xs ++ ys })) (S.id x) = none := by
    intro x hx
    have hnone := h.fresh x hx
    refine (hpq _ ?_ ?_ ?_).trans hnone
    · intro heq
      rw [heq, hls] at hnone
      cases hnone
    · intro heq
      rw [heq, hi'] at hnone
      cases hnone
    · intro heq
      rw [heq] at hnone
      obtain ⟨-, okr⟩ := h.tree.leaf_level hr hlr
      rcases okr.next with ⟨-, h0⟩ | ⟨d, hd⟩
      · exact absurd (heq.trans h0) (S.ne_zero x)
      · exact h.tree.exists_of_span hd.1 hnone
  refine ⟨_, _, removeSeparator_eq hiq he rfl, ?_⟩
  rw [writePages_cons, writePages_nil]
  split_ifs with hroot
  · -- the root is left with one child
    obtain ⟨rfl, hempty⟩ := hroot
    have hmq : F.merge s r a b st.root = some ⟨1, lo, hi⟩ := (Layout.merge_of_ne hqs hqr).trans hq
    obtain ⟨tree₁, hbinds₁⟩ := tree'.collapse hmq (Function.update_self ..) hempty
    refine .at_page nofun nofun rfl ⟨_, _, .done rfl, ⟨tree₁, hfresh⟩, fun k rid => ?_⟩
    exact (hbinds₁ k rid).trans (hbinds k rid)
  · exact ⟨_, _, .done rfl, ⟨tree', hfresh⟩, hbinds⟩

/-- **Two neighbours with both latched** merge if they fit into one leaf. -/
theorem mergeStep (h : st.Rests S F) {i : BTreeInnerPage} {e : BTreeInnerEntry}
    {xs ys : List BTreeInnerEntry} {ls lr : BTreeLeafPage} (hq : F q = some ⟨1, lo, hi⟩)
    (hi' : st.page q = some (.inner i)) (he : i.entries = xs ++ e :: ys)
    (hsc : lastChild BTreeInnerEntry.rightChild i.leftmostChild xs = s) (hrc : e.rightChild = r)
    (hs : F s = some ⟨0, a, m⟩) (hr : F r = some ⟨0, m, b⟩) (hm : e.separatorKey = m)
    (hla : lo ≤ a) (hbh : b ≤ hi)
    (hls : st.page s = some (.leaf ls)) (hlr : st.page r = some (.leaf lr)) :
    Store.Settles S (machine key rid) (F.Binds st.page) st
      (.fetchRemoved st.root leaf q ⟨s, r, xs.length⟩) (.done (.ok ())) := by
  obtain ⟨-, oks⟩ := h.tree.leaf_level hs hls
  obtain ⟨-, okr⟩ := h.tree.leaf_level hr hlr
  rcases Nat.lt_or_ge BTreeLeafPage.maxEntries (ls.numEntries + lr.numEntries) with hfull | hfits
  · -- together they do not fit
    have hmerge : Delete.resume key rid st.view (.fetchRemoved st.root leaf q ⟨s, r, xs.length⟩) =
        Out.goto (.done (.ok ())) := merge_full hls hlr hfull
    exact .at_page nofun nofun hmerge ⟨_, _, .done rfl, h, fun _ _ => Iff.rfl⟩
  have hsorted : SortedBy BTreeLeafEntry.key (ls.entries ++ lr.entries) :=
    SortedBy.append_iff.2 ⟨oks.sorted, okr.sorted,
      fun y hy z hz => (oks.within y hy).2.trans_le (okr.within z hz).1⟩
  set merged : BTreeLeafPage := { ls with
    nextPage := lr.nextPage, entries := ls.entries ++ lr.entries } with hmerged
  have hmerge : Delete.resume key rid st.view (.fetchRemoved st.root leaf q ⟨s, r, xs.length⟩) =
      if lr.nextPage = 0 then
        (removeSeparator ⟨Function.update st.page s (some (.leaf merged)), st.root⟩ st.root leaf q
          ⟨s, r, xs.length⟩).after [⟨s, .leaf merged, true⟩]
      else ⟨[⟨s, .leaf merged, true⟩], none,
        .fetchSibling st.root leaf q ⟨s, r, xs.length⟩ lr.nextPage⟩ :=
    merge_fits hls hlr hfits hsorted
  -- the right sibling of the removed leaf is neither the survivor nor the parent
  have hns : lr.nextPage ≠ s := by
    intro heq
    rcases okr.next with ⟨-, h0⟩ | ⟨d', hd'⟩
    · exact h.tree.ne_zero hs (heq.symm.trans h0)
    · rw [heq] at hd'
      have h₁ := (Layout.Covers.unique hs hd').1
      have h₂ := (h.tree.bounds hs).1
      have h₃ := (h.tree.bounds hr).1
      dsimp only at h₂ h₃
      omega
  have hqn : q ≠ lr.nextPage := by
    intro heq
    rcases okr.next with ⟨-, h0⟩ | ⟨d', hd'⟩
    · exact h.tree.ne_zero hq (heq.trans h0)
    · rw [← heq] at hd'
      exact absurd (Layout.Covers.level hq hd') (by decide)
  by_cases h0 : lr.nextPage = 0
  · -- no right sibling
    rw [if_pos h0] at hmerge
    obtain ⟨ws, pc', hremove, hsettles⟩ := finishMerge h leaf key rid hq hi' he hsc hrc hs hr hm
      hla hbh hls hlr hfits (Function.update_self ..) (fun hne => absurd h0 hne)
      (fun x hxs _ => Function.update_of_ne hxs ..) hqn
    exact .at_page nofun nofun (hmerge.trans (congrArg (Out.after _) hremove)) hsettles
  · -- the right sibling is relinked
    rw [if_neg h0] at hmerge
    obtain ⟨sib, hsib⟩ : ∃ sib, st.page lr.nextPage = some (.leaf sib) := by
      rcases okr.next with ⟨-, h0'⟩ | ⟨d', hd'⟩
      · exact absurd h0' h0
      · obtain ⟨sib, hsib, -⟩ := h.tree.leaf hd'.1
        exact ⟨sib, hsib⟩
    obtain ⟨ws, pc', hremove, hsettles⟩ := finishMerge h leaf key rid hq hi' he hsc hrc hs hr hm
      hla hbh hls hlr hfits ((Function.update_of_ne hns.symm ..).trans (Function.update_self ..))
      (fun _ ln hln => by
        obtain rfl : sib = ln := by simpa [hsib] using hln
        exact Function.update_self ..)
      (fun x hxs hxn => (Function.update_of_ne hxn ..).trans (Function.update_of_ne hxs ..)) hqn
    have hsib' : Function.update st.page s (some (.leaf merged)) lr.nextPage = some (.leaf sib) :=
      (Function.update_of_ne hns ..).trans hsib
    have hrelink : Delete.resume key rid
        ⟨Function.update st.page s (some (.leaf merged)), st.root⟩
        (.fetchSibling st.root leaf q ⟨s, r, xs.length⟩ lr.nextPage) = _ :=
      (onSibling_eq hsib').trans (congrArg (Out.after _) hremove)
    exact .at_page nofun nofun hmerge (.at_page nofun nofun hrelink hsettles)

/-- **`try_merge_leaf`** returns `Ok` and changes no binding. -/
theorem tryMerge (rid : RecordId) (h : st.Rests S F) (hq : F q = some ⟨1, lo, hi⟩) (hleaf : F leaf = some ⟨0, a, b⟩)
    (ha : a ≤ key) (hb : key < b) (hlo : lo ≤ key) (hhi : key < hi) :
    Store.Settles S (machine key rid) (F.Binds st.page) st (.fetchParent st.root leaf q)
      (.done (.ok ())) := by
  obtain ⟨i, hi', ok, hmem, -, -⟩ := h.tree.child_of_covers hq hleaf hlo hhi ha hb
  rcases findMergeCandidate_spec hmem with ⟨-, hnone⟩ | ⟨xs, e, ys, he, hsome⟩
  · exact .at_page nofun nofun (onParent_none hi' hnone)
      ⟨_, _, .done rfl, h, fun _ _ => Iff.rfl⟩
  obtain ⟨c, d, hs, hr, hla, hbh⟩ := h.tree.neighbours hq hi' he
  obtain ⟨ls, hls, -⟩ := h.tree.leaf hs
  obtain ⟨lr, hlr, -⟩ := h.tree.leaf hr
  have hsurvivor : Delete.resume key rid st.view (.fetchSurvivor st.root leaf q
      ⟨lastChild BTreeInnerEntry.rightChild i.leftmostChild xs, e.rightChild, xs.length⟩) = _ :=
    fetchSurvivor_eq hls
  exact .at_page nofun nofun (onParent_some hi' hsome) (.at_page nofun nofun hsurvivor
    (mergeStep h hq hi' he rfl rfl hs hr rfl hla hbh hls hlr))

/-- **`delete` on the leaf** that covers its key. -/
theorem atLeaf (h : st.Rests S F) (rid : RecordId) (hleaf : F leaf = some ⟨0, a, b⟩) (ha : a ≤ key)
    (hb : key < b) (hpath : PathOk F key 0 path) :
    (¬ F.Binds st.page key rid → st.Returns S (machine key rid) (.fetchLeaf st.root leaf path) st
      (.done (.error .tupleNonExistent))) ∧
    (F.Binds st.page key rid → st.Settles S (machine key rid)
      (fun k r => F.Binds st.page k r ∧ k ≠ key) (.fetchLeaf st.root leaf path)
      (.done (.ok ()))) := by
  obtain ⟨l, hl, ok⟩ := h.tree.leaf hleaf
  have hbinds : F.Binds st.page key rid ↔ ∃ e ∈ l.entries, e.key = key ∧ e.recordId = rid := by
    rw [h.tree.binds_iff hleaf ha hb, hl]
    rfl
  rcases SortedBy.cut ok.sorted key with ⟨xs, e, ys, hes, hek⟩ | ⟨xs, ys, hes, hx, hy⟩
  · by_cases hr : e.recordId = rid
    · refine ⟨fun hn => absurd (hbinds.2 ⟨e, by simp [hes], hek, hr⟩) hn, fun _ => ?_⟩
      -- the entry leaves the leaf
      have hrests := h.removeEntry hleaf hl hes
      have hafter : ∀ k r, F.Binds (Function.update st.page leaf
          (some (.leaf { l with entries := xs ++ ys }))) k r ↔ F.Binds st.page k r ∧ k ≠ key :=
        fun k r => hek ▸ h.tree.binds_removeEntry hleaf hl hes
      refine .at_page nofun nofun (onLeaf_hit hl ok.sorted hes hek hr) ?_
      rw [writePages_cons, writePages_nil]
      split_ifs with hmerge
      · cases path with
        | nil => exact ⟨_, _, .done rfl, hrests, hafter⟩
        | cons q rest =>
          obtain ⟨lo, hi, hq, hlo, hhi⟩ := hpath
          obtain ⟨st', F', hret, hrest, hb'⟩ :=
            tryMerge rid hrests hq hleaf ha hb hlo hhi
          exact ⟨st', F', hret, hrest, fun k r => (hb' k r).trans (hafter k r)⟩
      · exact ⟨_, _, .done rfl, hrests, hafter⟩
    · refine ⟨fun _ => .at_page nofun nofun (onLeaf_other hl ok.sorted hes hek hr) (.done rfl),
        fun hbound => ?_⟩
      obtain ⟨x, hxm, hxk, hxr⟩ := hbinds.1 hbound
      have := ok.sorted.eq_of_key_eq hxm (by simp [hes]) (hxk.trans hek.symm)
      exact absurd (this ▸ hxr) hr
  · have habs : ∀ e ∈ l.entries, e.key ≠ key := by
      intro e he
      rw [hes] at he
      rcases List.mem_append.1 he with he | he
      · exact (hx e he).ne
      · exact (hy e he).ne'
    refine ⟨fun _ => .at_page nofun nofun (onLeaf_absent hl ok.sorted habs) (.done rfl),
      fun hbound => ?_⟩
    obtain ⟨x, hxm, hxk, -⟩ := hbinds.1 hbound
    exact absurd hxk (habs x hxm)

end Delete

/-- **A delete that runs alone on a tree at rest** removes the binding of its key to its
record, or returns `TupleNonExistent` and changes nothing if there is none. -/
theorem Store.Rests.delete (h : st.Rests S F) (hk : key < keyBound) (rid : RecordId) :
    (¬ F.Binds st.page key rid → st.Returns S (Delete.machine key rid) .start st
      (.done (.error .tupleNonExistent))) ∧
    (F.Binds st.page key rid → st.Settles S (Delete.machine key rid)
      (fun k r => F.Binds st.page k r ∧ k ≠ key) .start (.done (.ok ()))) := by
  have hres : Delete.resume key rid st.view .start =
      if st.root = 0 then Delete.fail .tupleNonExistent
      else Out.goto (.findLeafWithPath st.root st.root []) := rfl
  by_cases h0 : st.root = 0
  · rw [if_pos h0] at hres
    refine ⟨fun _ => .at_page nofun nofun hres (.done rfl), ?_⟩
    rintro ⟨p, a, b, hp, -⟩
    rw [h.tree.empty h0 p] at hp
    cases hp
  · rw [if_neg h0] at hres
    obtain ⟨ℓ, htop, -⟩ := h.tree.top h0
    have hnil : Delete.PathOk F key ℓ [] := trivial
    obtain ⟨leaf, path, a, b, hleaf, ha, hb, hpath, -, hsteps⟩ :=
      Delete.descend (S := S) st.root h.tree rid htop.1 (Nat.zero_le key) hk hnil
    replace hsteps := Store.steps_of_latched hsteps
    obtain ⟨hmiss, hhit⟩ := Delete.atLeaf h rid hleaf ha hb hpath
    exact ⟨fun hn => .at_page nofun nofun hres ((hmiss hn).of_steps hsteps),
      fun hbound => .at_page nofun nofun hres ((hhit hbound).of_steps hsteps)⟩

end BTree
end Abdb
