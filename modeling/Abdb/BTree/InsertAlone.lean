/-
# An insert that runs alone

On a tree at rest an insert returns: with an error and no change if the key is present,
else with `Ok`, a tree at rest again, and one binding more (`Store.Rests.insert`).  The
separators of a split climb through the latched ancestors one page after the other
(`Insert.climb`).
-/

import Abdb.BTree.InsertTree
import Abdb.BTree.Lookup

namespace Abdb
namespace BTree

open Lib

variable {S : PageSupply} {F F' : Layout} {D D' : Dues} {page page' : LPageId → Option Page}
  {root p n : LPageId} {key m k : ℕ} {rid : RecordId} {locked : List LPageId} {ℓ a b alloc : ℕ}
  {st : Store} {pc : InsertPc} {B : ℕ → RecordId → Prop}

namespace Insert

/-- From here the insert returns `Ok` and leaves a tree at rest with the bindings `B`. -/
abbrev Finishes (S : PageSupply) (key : ℕ) (rid : RecordId) (B : ℕ → RecordId → Prop) (st : Store)
    (pc : InsertPc) : Prop :=
  Store.Settles S (machine key rid) B st pc (.done (.ok ()))

/-- From here the insert returns an error and leaves the store as it is. -/
def Refuses (S : PageSupply) (key : ℕ) (rid : RecordId) (st : Store) (pc : InsertPc) : Prop :=
  ∃ e, e ≠ .outsideModel ∧ Store.Returns S (machine key rid) st pc st (.done (.error e))

/-- One step, to a page or the header, before the insert is refused. -/
theorem Refuses.at_page {pc' : InsertPc} (hn : await pc ≠ .newPage) (h0 : await pc ≠ .nothing)
    (h : resume key rid st.view 0 pc = ⟨[], none, pc'⟩) (href : Refuses S key rid st pc') :
    Refuses S key rid st pc := by
  obtain ⟨e, hne, he⟩ := href
  exact ⟨e, hne, Store.Returns.at_page (M := machine key rid) hn h0 h he⟩

/-- After an allocation the rest of the supply is still unused. -/
theorem fresh_succ (hfresh : ∀ i, alloc ≤ i → page (S.id i) = none)
    (hpage : ∀ q, q ≠ S.id alloc → page q = none → page' q = none) :
    ∀ i, alloc + 1 ≤ i → page' (S.id i) = none := by
  intro i hi
  refine hpage _ (fun heq => ?_) (hfresh i (by omega))
  have := S.injective heq
  omega

/-- **A separator climbs** through the latched ancestors, up to the first with room or to
a new root. -/
theorem climb (h : Tree F (Dues.settled.setDue locked.head? (some ⟨m, n⟩)) page root)
    (hcan : CanTake F (Dues.settled.setDue locked.head? (some ⟨m, n⟩)) page root key ℓ locked)
    (hfresh : ∀ i, alloc ≤ i → page (S.id i) = none) :
    ∃ ws pc', insertIntoAncestorsWithLocks ⟨page, root⟩ locked m n = ⟨ws, none, pc'⟩ ∧
      Finishes S key rid (F.Binds page) ⟨writePages page ws, root, alloc⟩ pc' := by
  induction locked generalizing ℓ F page m n alloc with
  | nil =>
    obtain ⟨hn0, hFn⟩ := h.fresh hfresh
    obtain ⟨ℓ', tree', hb⟩ := h.newRoot hcan rfl hFn hn0 rfl
    rw [List.head?_nil, Dues.setDue_settled] at tree'
    refine ⟨[], _, rfl, Store.Settles.at_newPage rfl rfl (Store.Settles.at_page nofun nofun newRootFinish_eq ?_)⟩
    simp only [writePages_cons, writePages_nil, Function.update_idem]
    refine ⟨_, _, .done rfl, ⟨tree', fresh_succ hfresh fun q hq hnone => ?_⟩, hb⟩
    exact (Function.update_of_ne hq ..).trans hnone
  | cons q rest ih =>
    obtain ⟨⟨a, b, hq, ha, hb⟩, hrest⟩ := hcan
    obtain ⟨pg, hpg, ok⟩ := h.inner hq
    have hd : (Dues.settled.setDue (some q) (some ⟨m, n⟩)).sep q = some ⟨m, n⟩ := by
      rw [Dues.setDue_sep, if_pos rfl]
    have hs : SortedBy BTreeInnerEntry.separatorKey
        (insertBy BTreeInnerEntry.separatorKey ⟨m, n⟩ pg.entries) := by
      have := ok.fenced.sorted fun _ _ _ h => h.lt
      rwa [List.head?_cons, hd] at this
    rcases Nat.lt_or_ge pg.numKeys BTreeInnerPage.maxKeys with hroom | hfull
    · -- the ancestor has room
      have tree' := h.settleSep hq hpg hd hroom
      rw [List.head?_cons, Dues.setDue_settled] at tree'
      have hne : ∀ x, page x = none → x ≠ q := by
        rintro x hx rfl
        rw [hpg] at hx
        cases hx
      refine ⟨_, _, insertIntoAncestors_room hpg hs ok.sorted hroom, _, _, .done rfl,
        ⟨tree', fun i hi => ?_⟩, fun k r => Layout.binds_congr (fun _ _ _ => Iff.rfl)
          fun x _ _ hx => ?_⟩
      · exact (Function.update_of_ne (hne _ (hfresh i hi)) ..).trans (hfresh i hi)
      · refine congrArg leafEntries (Function.update_of_ne ?_ ..)
        rintro rfl
        rw [hq] at hx
        simp at hx
    · -- the ancestor splits, and its middle separator climbs on
      obtain ⟨hn0, hFn⟩ := h.fresh hfresh
      have hne : ∀ x ∈ rest, x ≠ q ∧ x ≠ S.id alloc := hrest.ne hq hFn
      obtain ⟨-, -, m', ws, page₁, -, hrun, rfl, tree₁, hcan₁, hpg₁, hbinds⟩ :=
        h.splitInnerFinish hq ha hb hpg hfull hd hrest
          (fun x hx => by
            rw [Dues.setDue_sep, if_neg]
            · rfl
            · simpa using (hne x (List.mem_of_mem_head? hx)).1.symm)
          hFn hn0 (by
            rw [Dues.setDue_sep, if_neg]
            · rfl
            · intro heq
              rw [List.head?_cons, Option.some.injEq] at heq
              rw [← heq, hq] at hFn
              cases hFn)
      rw [List.head?_cons, Dues.setDue_settled] at tree₁ hcan₁
      have hfresh₁ : ∀ i, alloc + 1 ≤ i → writePages (Function.update page (S.id alloc)
          (some Page.zeroed)) ws (S.id i) = none :=
        fresh_succ hfresh fun x hx hnone => by
          rw [hpg₁ x _ hx, hnone]
          rintro rfl
          rw [hpg] at hnone
          cases hnone
      obtain ⟨ws', pc', hinto, st', F', hret, hrests, hb'⟩ := ih tree₁ hcan₁ hfresh₁
      refine ⟨[], _, insertIntoAncestors_full hpg hs ok.sorted hfull,
        Store.Settles.at_newPage rfl (hrun.trans (congrArg (Out.after ws) hinto)) ?_⟩
      rw [writePages_append]
      exact ⟨st', F', hret, hrests, fun k r => (hb' k r).trans (hbinds k r)⟩

/-- **A full leaf splits** and its separator climbs. -/
theorem split (h : st.Rests S F) {l : BTreeLeafPage} (hp : F p = some ⟨0, a, b⟩) (ha : a ≤ key)
    (hb : key < b) (hl : st.page p = some (.leaf l))
    (hfull : BTreeLeafPage.maxEntries ≤ l.numEntries) (habs : ∀ e ∈ l.entries, e.key ≠ key)
    (hA : Ancestors F .settled st.page st.root key 0 p locked) :
    Finishes S key rid (fun k r => F.Binds st.page k r ∨ k = key ∧ r = rid) st
      (.splitLeafAlloc p locked (insertBy BTreeLeafEntry.key (newEntry key rid) l.entries)
        l.prevPage l.nextPage) := by
  obtain ⟨hn0, hFn⟩ := h.tree.fresh h.fresh
  obtain ⟨-, -, m, ws, page₁, -, hrun, rfl, tree₁, hcan, hpg₁, hnext, hbinds⟩ :=
    h.tree.splitLeafFinish hp ha hb hl hfull habs hA (fun _ _ => rfl) hFn hn0 rfl rid
  have hfresh₁ : ∀ i, st.allocated + 1 ≤ i → writePages (Function.update st.page
      (S.id st.allocated) (some Page.zeroed)) ws (S.id i) = none :=
    fresh_succ h.fresh fun x hx hnone => by
      rw [hpg₁ x _ hx, hnone]
      rintro rfl
      rw [hl] at hnone
      cases hnone
  by_cases h0 : l.nextPage = 0
  · -- no right sibling
    rw [h0, Dues.split_zero] at tree₁ hcan
    rw [if_pos h0] at hrun
    obtain ⟨ws', pc', hinto, st', F', hret, hrests, hb'⟩ := climb tree₁ hcan hfresh₁
    refine Store.Settles.at_newPage rfl (hrun.trans (congrArg (Out.after ws) hinto)) ?_
    rw [writePages_append]
    exact ⟨st', F', hret, hrests, fun k r => (hb' k r).trans (hbinds k r)⟩
  · -- the right sibling is relinked
    obtain ⟨hnp, c, hc⟩ := hnext h0
    obtain ⟨l', hl', -⟩ := tree₁.leaf hc
    have hd : (Dues.settled.split locked.head? m (S.id st.allocated) l.nextPage).prev l.nextPage =
        some (S.id st.allocated) := by
      rw [Dues.split, if_neg h0]
      exact Function.update_self ..
    have tree₂ := tree₁.settlePrev hc hl' hd
    rw [Dues.split_settlePrev h0 rfl] at tree₂
    -- the sibling is a leaf, so it is none of the ancestors
    have hne : ∀ x ∈ locked, x ≠ l.nextPage := by
      rintro x hx rfl
      obtain ⟨ℓ', a', b', hlt, hx'⟩ := hA.level _ hx
      obtain ⟨hxp, hxn⟩ := hA.ne hp hFn _ hx
      rw [Layout.split_of_ne hxp hxn, hx'] at hc
      obtain ⟨rfl, -⟩ : ℓ' = 0 ∧ _ := by simpa using hc
      exact lt_irrefl _ hlt
    have hcan₂ : CanTake (F.split p (S.id st.allocated) 0 a m b)
        (Dues.settled.setDue locked.head? (some ⟨m, S.id st.allocated⟩))
        (Function.update _ l.nextPage (some (.leaf (l'.setPrevPage (S.id st.allocated)))))
        st.root key 0 locked :=
      hcan.frame (fun x hx => ⟨rfl, Function.update_of_ne (hne x hx) ..⟩)
        (fun _ _ hr hd => ⟨hr, hd⟩) id
    have hfresh₂ : ∀ i, st.allocated + 1 ≤ i → Function.update (writePages (Function.update
        st.page (S.id st.allocated) (some Page.zeroed)) ws) l.nextPage
        (some (.leaf (l'.setPrevPage (S.id st.allocated)))) (S.id i) = none := by
      intro i hi
      refine (Function.update_of_ne ?_ ..).trans (hfresh₁ i hi)
      intro heq
      rw [← heq, hfresh₁ i hi] at hl'
      cases hl'
    obtain ⟨ws', pc', hinto, st', F', hret, hrests, hb'⟩ := climb tree₂ hcan₂ hfresh₂
    rw [if_neg h0] at hrun
    refine Store.Settles.at_newPage rfl hrun (Store.Settles.at_page (by rintro ⟨⟩) (by rintro ⟨⟩)
      ((splitLeafSibling_eq hl').trans (congrArg (Out.after _) hinto)) ?_)
    refine ⟨st', F', hret, hrests, fun k r => (hb' k r).trans (Iff.trans ?_ (hbinds k r))⟩
    refine Layout.binds_congr (fun _ _ _ => Iff.rfl) fun x _ _ _ => ?_
    by_cases hx : x = l.nextPage
    · rw [hx, Function.update_self, hl']
      rfl
    · rw [Function.update_of_ne hx]

/-- **The descent of an insert** ends in an error if the key is present, else it finishes. -/
theorem descend (h : st.Rests S F) (rid : RecordId) (hp : F p = some ⟨ℓ, a, b⟩) (ha : a ≤ key) (hb : key < b)
    (hA : Ancestors F .settled st.page st.root key ℓ p locked) :
    ((∃ r, F.Binds st.page key r) → Refuses S key rid st (.findLeafForWrite p locked)) ∧
    ((∀ r, ¬ F.Binds st.page key r) → Finishes S key rid
      (fun k r => F.Binds st.page k r ∨ k = key ∧ r = rid) st (.findLeafForWrite p locked)) := by
  induction ℓ generalizing p a b locked with
  | succ ℓ ih =>
    obtain ⟨pg, d, a', b', hpg, -, hroute, hd, -, -, ha', hb'⟩ := h.tree.child hp ha hb
    have hkeep : Ancestors F .settled st.page st.root key (ℓ + 1) p
        (if pg.isSafeForInsert then [] else locked) := by
      split_ifs with hs
      · refine Or.inl ⟨pg, hpg, ?_⟩
        have := BTreeInnerPage.isSafeForInsert_iff.1 hs
        simp only [BTreeInnerPage.safeInsertThreshold_eq, BTreeInnerPage.maxKeys_eq] at this ⊢
        omega
      · exact hA
    have hres : resume key rid st.view 0 (.findLeafForWrite p locked) =
        ⟨[], none, .findLeafForWrite d (p :: if pg.isSafeForInsert then [] else locked)⟩ := by
      rw [resume, findLeafForWrite_inner hpg, hroute rfl]
      rfl
    have hA' : Ancestors F .settled st.page st.root key ℓ d
        (p :: if pg.isSafeForInsert then [] else locked) := ⟨⟨a, b, hp, ha, hb⟩, hkeep⟩
    obtain ⟨hpresent, habsent⟩ := ih hd ha' hb' hA'
    exact ⟨fun hr => Refuses.at_page nofun nofun hres (hpresent hr),
      fun hr => Store.Settles.at_page nofun nofun hres (habsent hr)⟩
  | zero =>
    obtain ⟨l, hl, ok⟩ := h.tree.leaf hp
    have hres : resume key rid st.view 0 (.findLeafForWrite p locked) =
        intoLeaf key rid p (if l.isSafeForInsert then [] else locked) l :=
      findLeafForWrite_leaf hl
    have hbinds : ∀ r, F.Binds st.page key r ↔ ∃ e ∈ l.entries, e.key = key ∧ e.recordId = r :=
      fun r => by rw [h.tree.binds_iff hp ha hb, hl]; rfl
    refine ⟨fun ⟨r, hr⟩ => ?_, fun hr => ?_⟩
    · -- the key is present
      obtain ⟨x, hx, hxk, -⟩ := (hbinds r).1 hr
      obtain ⟨e, hne, he⟩ := intoLeaf_present ok.sorted ⟨x, hx, hxk⟩ rid p
        (if l.isSafeForInsert then [] else locked)
      exact Refuses.at_page nofun nofun (hres.trans he) ⟨e, hne, .done rfl⟩
    · have habs : ∀ e ∈ l.entries, e.key ≠ key := fun e he hek =>
        hr e.recordId ((hbinds _).2 ⟨e, he, hek, rfl⟩)
      rcases Nat.lt_or_ge l.numEntries BTreeLeafPage.maxEntries with hroom | hfull
      · -- the leaf has room
        refine Store.Settles.at_page nofun nofun (hres.trans (intoLeaf_room ok.sorted habs hroom)) ?_
        refine ⟨_, _, .done rfl, ⟨h.tree.insertLeaf hp hl ha hb hroom habs, fun i hi => ?_⟩,
          fun k r => Layout.binds_insert (e := newEntry key rid) hp (fun q hq => ?_) fun x => ?_⟩
        · refine (Function.update_of_ne ?_ ..).trans (h.fresh i hi)
          rintro rfl
          rw [h.fresh i hi] at hl
          cases hl
        · exact congrArg leafEntries (Function.update_of_ne hq ..)
        · simp only [writePages_cons, writePages_nil, Function.update_self, hl]
          exact mem_insertBy
      · -- the leaf is full, so no ancestor has been released
        have hs : ¬ l.isSafeForInsert = true := by
          rw [BTreeLeafPage.isSafeForInsert_iff]
          simp only [BTreeLeafPage.safeInsertThreshold_eq, BTreeLeafPage.maxEntries_eq] at hfull ⊢
          omega
        rw [if_neg hs, intoLeaf_full ok.sorted habs hfull] at hres
        exact Store.Settles.at_page nofun nofun hres (split h hp ha hb hl hfull habs hA)

end Insert

/-- **An insert that runs alone on a tree at rest** is refused if its key is present, and
else adds its binding. -/
theorem Store.Rests.insert (h : st.Rests S F) (hk : key < keyBound) (rid : RecordId) :
    ((∃ r, F.Binds st.page key r) → Insert.Refuses S key rid st .start) ∧
    ((∀ r, ¬ F.Binds st.page key r) → Insert.Finishes S key rid
      (fun k r => F.Binds st.page k r ∨ k = key ∧ r = rid) st .start) := by
  have hres : Insert.resume key rid st.view 0 .start =
      ⟨[], none, if st.root = 0 then .allocFirst else .findLeafForWrite st.root []⟩ := rfl
  by_cases h0 : st.root = 0
  · -- the first leaf
    have hnone : ∀ k r, ¬ F.Binds st.page k r := by
      rintro k r ⟨p, a, b, hp, -⟩
      rw [h.tree.empty h0 p] at hp
      cases hp
    refine ⟨fun ⟨r, hr⟩ => absurd hr (hnone key r), fun _ => ?_⟩
    obtain ⟨hn0, hFn⟩ := h.tree.fresh h.fresh
    obtain ⟨tree', hb⟩ := (h.tree.update_outside hFn (.leaf ⟨S.id st.allocated, 0, 0,
      [Insert.newEntry key rid]⟩)).firstLeaf h0 rfl hn0 rfl hk (Function.update_self ..)
    rw [if_pos h0] at hres
    refine Store.Settles.at_page nofun nofun hres (Store.Settles.at_newPage rfl
      Insert.firstLeaf_eq (Store.Settles.at_page nofun nofun rfl ?_))
    simp only [writePages_cons, writePages_nil, Function.update_idem]
    refine ⟨_, _, .done rfl, ⟨tree', Insert.fresh_succ h.fresh fun q hq hnone => ?_⟩,
      fun k r => (hb k r).trans (or_congr ?_ Iff.rfl)⟩
    · exact (Function.update_of_ne hq ..).trans hnone
    · refine iff_of_false ?_ (hnone k r)
      rintro ⟨p, a, b, hp, -⟩
      rw [h.tree.empty h0 p] at hp
      cases hp
  · obtain ⟨ℓ, htop, -⟩ := h.tree.top h0
    have hA : Ancestors F .settled st.page st.root key ℓ st.root [] := Or.inr ⟨rfl, rfl⟩
    obtain ⟨hpresent, habsent⟩ := Insert.descend h rid htop.1 (Nat.zero_le _) hk hA
    rw [if_neg h0] at hres
    exact ⟨fun hr => Insert.Refuses.at_page nofun nofun hres (hpresent hr),
      fun hr => Store.Settles.at_page nofun nofun hres (habsent hr)⟩

end BTree
end Abdb
