/-
# The latches an insert keeps are enough

`find_leaf_for_write` keeps the latch of a page until it meets one below that is safe.
What it returns is a run of the path to the leaf, from the parent up, and either all of
it or up to a page that has room (`Kept`).  A full page that takes one entry more leaves
its lower half in place and puts the rest into a fresh page (`SplitsInto`), so when the
leaf splits, the separators climb through the latched pages only: every step of the climb
(`ClimbOk.step`) splits the next of them or ends in it, and a new root is due only after
all of them have split, which a page with room never does.
-/

import Abdb.BTree.InsertFails

namespace Abdb

/-- A full page takes one entry more: what stays in it and what goes to a new page.  An
inner page gives up one separator more, the one it pushes up. -/
inductive Page.SplitsInto : Page → Page → Page → Prop
  | leaf {l l' r : BTreeLeafPage} {e : BTreeLeafEntry} :
    BTreeLeafPage.maxEntries ≤ l.numEntries → (l'.entries ++ r.entries).Perm (e :: l.entries) →
      l'.numEntries = (l.numEntries + 1) / 2 → Page.SplitsInto (.leaf l) (.leaf l') (.leaf r)
  | inner {i i' r : BTreeInnerPage} {e m : BTreeInnerEntry} :
    BTreeInnerPage.maxKeys ≤ i.numKeys → (i'.entries ++ m :: r.entries).Perm (e :: i.entries) →
      i'.numKeys = (i.numKeys + 1) / 2 → Page.SplitsInto (.inner i) (.inner i') (.inner r)

/-- A page with at least half of what it can hold. -/
def Page.HalfFull : Page → Prop
  | .leaf l => 127 ≤ l.numEntries
  | .inner i => 127 ≤ i.numKeys
  | .other _ => True

/-- A page of the same kind with no fewer entries. -/
def Page.Grows : Page → Page → Prop
  | .leaf l, .leaf l' => l.numEntries ≤ l'.numEntries
  | .inner i, .inner i' => i.numKeys ≤ i'.numKeys
  | .other _, .other _ => True
  | _, _ => False

theorem Page.Grows.refl (pg : Page) : pg.Grows pg := by
  cases pg with
  | other o => trivial
  | leaf l => exact le_refl l.numEntries
  | inner i => exact le_refl i.numKeys

theorem Page.Grows.halfFull {pg pg' : Page} (h : pg.Grows pg') (hpg : pg.HalfFull) :
    pg'.HalfFull := by
  cases pg <;> cases pg' <;> first | exact h.elim | trivial | exact le_trans hpg h

/-- **Both halves of a split are at least half full.** -/
theorem Page.SplitsInto.halfFull {pg l r : Page} (h : pg.SplitsInto l r) :
    l.HalfFull ∧ r.HalfFull := by
  cases h with
  | leaf hfull hperm hl =>
    have hlen := hperm.length_eq
    simp only [BTreeLeafPage.maxEntries_eq, BTreeLeafPage.numEntries, List.length_append,
      List.length_cons, Page.HalfFull] at *
    omega
  | inner hfull hperm hl =>
    have hlen := hperm.length_eq
    simp only [BTreeInnerPage.maxKeys_eq, BTreeInnerPage.numKeys, List.length_append,
      List.length_cons, Page.HalfFull] at *
    omega

theorem Page.SplitsInto.ne_zeroed {pg l r : Page} (h : pg.SplitsInto l r) :
    l ≠ .zeroed ∧ r ≠ .zeroed := by
  cases h <;> exact ⟨nofun, nofun⟩

namespace BTree

open Relation

/-- The descent of a key: from the root to a page, through the inner pages of the path, the
one nearest to the page first. -/
inductive Descends (page : LPageId → Option Page) (key : ℕ) (root : LPageId) :
    LPageId → List LPageId → Prop
  | root : Descends page key root root []
  | down {c : LPageId} {path : List LPageId} {i : BTreeInnerPage} :
    Descends page key root c path → page c = some (.inner i) →
      Descends page key root (i.findChild key) (c :: path)

/-- A page has been split since a store: it was full, holds the lower half of its entries
and one more, and a page that did not exist holds the rest. -/
def HasSplit (st st' : Store) (p : LPageId) : Prop :=
  ∃ n pg l r, st.page p = some pg ∧ st.page n = none ∧ st'.page p = some l ∧
    st'.page n = some r ∧ pg.SplitsInto l r

/-- A split that has been made stays, if its two pages do. -/
theorem HasSplit.frame {st st' st'' : Store} {p : LPageId} (h : HasSplit st st' p)
    (hsame : ∀ x pg, st'.page x = some pg → pg ≠ .zeroed → x = p ∨ st.page x = none →
      st''.page x = some pg) : HasSplit st st'' p := by
  obtain ⟨n, pg, l, r, hp, hn, hl, hr, hinto⟩ := h
  obtain ⟨hl0, hr0⟩ := hinto.ne_zeroed
  exact ⟨n, pg, l, r, hp, hn, hsame p l hl hl0 (Or.inl rfl), hsame n r hr hr0 (Or.inr hn), hinto⟩

/-- A page has grown since a store, or is at least half full. -/
def GrownFrom (st : Store) (p : LPageId) (pg' : Page) : Prop :=
  (∃ pg, st.page p = some pg ∧ pg.Grows pg') ∨ pg'.HalfFull

namespace Insert

/-- The `locked` list that `find_leaf_for_write` returns with a leaf. -/
def latched (l : BTreeLeafPage) (locked : List LPageId) : List LPageId :=
  if l.isSafeForInsert then [] else locked

/-- A new root is being made. -/
def MakesRoot : InsertPc → Prop
  | .newRootAlloc .. | .newRootHeader .. => True
  | _ => False

/-- What a descent keeps latched of its path: all of it, or up to a page that is safe. -/
def Kept (page : LPageId → Option Page) (path locked : List LPageId) : Prop :=
  ∃ above, path = locked ++ above ∧ (above = [] ∨ ∃ xs p i, locked = xs ++ [p] ∧
    page p = some (.inner i) ∧ i.isSafeForInsert = true)

end Insert

variable {S : PageSupply} {st st' st₀ : Store} {F : Layout} {page : LPageId → Option Page}
  {root leaf c p n : LPageId} {key : ℕ} {rid : RecordId} {path locked kept done rest : List LPageId}

/-- The pages of a path are inner pages. -/
theorem Descends.inner (h : Descends page key root c path) (hp : p ∈ path) :
    ∃ i, page p = some (.inner i) := by
  induction h with
  | root => cases hp
  | down _ hc ih =>
    rcases List.mem_cons.1 hp with rfl | hp
    · exact ⟨_, hc⟩
    · exact ih hp

/-- The path of a page other than the root ends in the root. -/
theorem Descends.root_mem (h : Descends page key root c path) : root ∈ c :: path := by
  induction h with
  | root => exact List.mem_singleton_self _
  | down _ _ ih => exact List.mem_cons_of_mem _ ih

/-- In a tree a descent goes from level to level, so no page comes up twice. -/
theorem Descends.levels (h : Descends st.page key st.root c path) (hst : st.Rests S F)
    (h0 : st.root ≠ 0) (hk : key < keyBound) : ∃ ℓ a b, F c = some ⟨ℓ, a, b⟩ ∧ a ≤ key ∧ key < b ∧
      path.Nodup ∧ ∀ p ∈ path, ∃ ℓ' a' b', ℓ < ℓ' ∧ F p = some ⟨ℓ', a', b'⟩ := by
  induction h with
  | root =>
    obtain ⟨ℓ, htop, -⟩ := hst.tree.top h0
    exact ⟨ℓ, 0, keyBound, htop.1, Nat.zero_le _, hk, List.nodup_nil, nofun⟩
  | @down c path i _ hc ih =>
    obtain ⟨ℓ, a, b, hF, ha, hb, hnodup, hpath⟩ := ih
    obtain ⟨ℓ, rfl, -⟩ := hst.tree.inner_level hF hc
    obtain ⟨i', d, a', b', hi', -, hd, hFd, -, -, ha', hb'⟩ := hst.tree.child hF ha hb
    obtain rfl : i = i' := by simpa [hc] using hi'
    rw [hd rfl]
    refine ⟨ℓ, a', b', hFd, ha', hb', List.nodup_cons.2 ⟨fun hm => ?_, hnodup⟩, fun p hp => ?_⟩
    · obtain ⟨ℓ', x, y, hlt, hFc⟩ := hpath c hm
      obtain ⟨rfl, -⟩ : ℓ + 1 = ℓ' ∧ _ := by simpa [hF] using hFc
      exact lt_irrefl _ hlt
    · rcases List.mem_cons.1 hp with rfl | hp
      · exact ⟨ℓ + 1, a, b, Nat.lt_succ_self ℓ, hF⟩
      · obtain ⟨ℓ', x, y, hlt, hFp⟩ := hpath p hp
        exact ⟨ℓ', x, y, by omega, hFp⟩

namespace Insert

/-- One page further down, the safe page itself is the last one kept. -/
theorem Kept.down (h : Kept page path locked) {i : BTreeInnerPage} (hc : page c = some (.inner i)) :
    Kept page (c :: path) (c :: if i.isSafeForInsert then [] else locked) := by
  obtain ⟨above, rfl, habove⟩ := h
  split_ifs with hs
  · exact ⟨locked ++ above, rfl, Or.inr ⟨[], c, i, rfl, hc, hs⟩⟩
  · refine ⟨above, rfl, habove.imp_right ?_⟩
    rintro ⟨xs, p, i', rfl, hp, hs'⟩
    exact ⟨c :: xs, p, i', rfl, hp, hs'⟩

/-- **If every page kept has split, they are the whole path**: a safe page would not. -/
theorem Kept.eq_of_split (h : Kept st.page path locked)
    (hsplit : ∀ p ∈ locked, HasSplit st st' p) : path = locked := by
  obtain ⟨above, rfl, rfl | ⟨xs, q, i, rfl, hq, hs⟩⟩ := h
  · exact List.append_nil _
  · obtain ⟨_, _, _, _, hpg, -, -, -, hinto⟩ := hsplit q (by simp)
    rw [hq] at hpg
    obtain rfl := Option.some.inj hpg
    cases hinto with
    | inner hfull =>
      have := BTreeInnerPage.isSafeForInsert_iff.1 hs
      simp only [BTreeInnerPage.safeInsertThreshold_eq, BTreeInnerPage.maxKeys_eq] at this hfull
      omega

/-! ### The descent -/

/-- Where a descent from the root is: it has written nothing, and keeps part of its path. -/
def DescentOk (st : Store) (key : ℕ) (x : Store × InsertPc) : Prop :=
  match x.2 with
  | .start => x.1 = st
  | .findLeafForWrite c locked => x.1 = st ∧ st.root ≠ 0 ∧ ∃ path,
    Descends st.page key st.root c path ∧ Kept st.page path locked
  | _ => True

theorem descentOk_of_climbs {x : Store × InsertPc} (h : Climbs x.2) : DescentOk st key x := by
  unfold DescentOk
  split
  · rename_i hpc
    rw [hpc] at h
    exact h.elim
  · rename_i hpc
    exact (h.ne hpc).elim
  · trivial

theorem climbs_step {pc : InsertPc} (h : Climbs pc) : Climbs (st.step S (machine key rid) pc).2 := by
  cases pc with
  | splitLeafAlloc => exact climbs_resume h
  | splitLeafSibling => exact climbs_resume h
  | splitInnerAlloc => exact climbs_resume h
  | newRootHeader => exact climbs_resume h
  | newRootAlloc => trivial
  | done => trivial
  | _ => exact h.elim

theorem DescentOk.step {x : Store × InsertPc} (h : DescentOk st key x) :
    DescentOk st key (x.1.step S (machine key rid) x.2) := by
  obtain ⟨st', pc⟩ := x
  cases pc with
  | start =>
    obtain rfl : st' = st := h
    show DescentOk st' key (st', if st'.root = 0 then .allocFirst else .findLeafForWrite st'.root [])
    split_ifs with h0
    · trivial
    · exact ⟨rfl, h0, [], .root, [], rfl, Or.inl rfl⟩
  | allocFirst =>
    show DescentOk st key (_, (firstLeaf key rid _).pc)
    rw [firstLeaf_eq]
    trivial
  | setRoot n => trivial
  | findLeafForWrite c locked =>
    obtain ⟨rfl, h0, path, hpath, hkept⟩ := h
    cases hpg : st'.page c with
    | none =>
      refine descentOk_of_climbs ?_
      show Climbs (findLeafForWrite st'.view key rid c locked).pc
      rw [findLeafForWrite, show st'.view.page c = none from hpg]
      trivial
    | some pg =>
      cases pg with
      | inner i =>
        have hstep : st'.step S (machine key rid) (.findLeafForWrite c locked) = (st',
            .findLeafForWrite (i.findChild key) (c :: if i.isSafeForInsert then [] else locked)) :=
          Store.step_goto (by rintro ⟨⟩) (by rintro ⟨⟩)
            (findLeafForWrite_inner (show st'.view.page c = _ from hpg))
        rw [hstep]
        exact ⟨rfl, h0, _, hpath.down hpg, hkept.down hpg⟩
      | leaf l =>
        refine descentOk_of_climbs ?_
        show Climbs (findLeafForWrite st'.view key rid c locked).pc
        rw [findLeafForWrite_leaf hpg]
        exact climbs_intoLeaf
      | other o =>
        refine descentOk_of_climbs ?_
        show Climbs (findLeafForWrite st'.view key rid c locked).pc
        rw [findLeafForWrite, show st'.view.page c = some (.other o) from hpg, dispatch]
        cases PageType.tryFrom o.pageTypeId <;> trivial
  | _ =>
    refine descentOk_of_climbs (climbs_step ?_)
    trivial

/-- **The latches a descent keeps are part of its path, from its page up.** -/
theorem descends_of_reaches {st' : Store}
    (h : ReflTransGen (fun x y => y = x.1.step S (machine key rid) x.2) (st, .start)
      (st', .findLeafForWrite c locked)) :
    st' = st ∧ st.root ≠ 0 ∧ ∃ path, Descends st.page key st.root c path ∧
      Kept st.page path locked := by
  have hall : ∀ x, ReflTransGen (fun x y => y = x.1.step S (machine key rid) x.2) (st, .start) x →
      DescentOk st key x := by
    intro x hx
    induction hx with
    | refl => rfl
    | tail _ hstep ih => exact hstep ▸ ih.step
  exact hall _ h

/-! ### The climb -/

/-- What the climb of a separator has done so far: the pages `done` have split and the other
inner pages are what they were. -/
structure Climbed (S : PageSupply) (st st' : Store) (done : List LPageId) : Prop where
  root : st'.root = st.root
  allocated : st.allocated ≤ st'.allocated
  fresh : ∀ i, st'.allocated ≤ i → st'.page (S.id i) = none
  split : ∀ p ∈ done, HasSplit st st' p
  same : ∀ p i, st.page p = some (.inner i) → p ∉ done → st'.page p = st.page p
  grown : ∀ p pg, st'.page p = some pg → GrownFrom st p pg

theorem Climbed.refl (hfresh : ∀ i, st.allocated ≤ i → st.page (S.id i) = none) :
    Climbed S st st [] :=
  ⟨rfl, le_rfl, hfresh, nofun, fun _ _ _ _ => rfl, fun _ pg hp => Or.inl ⟨pg, hp, .refl pg⟩⟩

/-- **One page more has split.** -/
theorem Climbed.cut (h : Climbed S st st' done)
    (hfresh : ∀ i, st.allocated ≤ i → st.page (S.id i) = none) {pg l r : Page} {b d : Bool}
    (hp : st.page p = some pg) (hp' : st'.page p ≠ none) (hnot : p ∉ done)
    (hs : pg.SplitsInto l r) :
    Climbed S st ⟨writePages (Function.update st'.page (S.id st'.allocated) (some .zeroed))
      [⟨S.id st'.allocated, r, b⟩, ⟨p, l, d⟩], st'.root, st'.allocated + 1⟩ (done ++ [p]) := by
  set n := S.id st'.allocated with hn
  have hn' : st'.page n = none := h.fresh _ le_rfl
  have hn₀ : st.page n = none := hfresh _ h.allocated
  have hpn : p ≠ n := fun heq => hp' (heq ▸ hn')
  simp only [writePages_cons, writePages_nil, Function.update_idem]
  have hpage : ∀ q, q ≠ p → q ≠ n → Function.update (Function.update st'.page n (some r)) p
      (some l) q = st'.page q := fun q hqp hqn => by
    rw [Function.update_of_ne hqp, Function.update_of_ne hqn]
  have hpg_p : Function.update (Function.update st'.page n (some r)) p (some l) p = some l :=
    Function.update_self ..
  have hpg_n : Function.update (Function.update st'.page n (some r)) p (some l) n = some r := by
    rw [Function.update_of_ne hpn.symm, Function.update_self]
  have hne : ∀ q, st'.page q ≠ none → q ≠ n := by
    rintro q hq rfl
    exact hq hn'
  refine ⟨h.root, h.allocated.trans (Nat.le_succ _), fun i hi => ?_, fun q hq => ?_,
    fun q i hq hqd => ?_, fun q pg' hq => ?_⟩
  · dsimp only at hi
    have hfr := h.fresh i (by omega)
    refine (hpage _ (fun heq => hp' (heq ▸ hfr)) (fun heq => ?_)).trans hfr
    have := S.injective (heq.trans hn)
    omega
  · rcases List.mem_append.1 hq with hqd | hqp
    · -- a page that had split before
      refine (h.split q hqd).frame fun x pg' hx _ hxq => (hpage x ?_ (hne x (by simp [hx]))).trans hx
      rintro rfl
      rcases hxq with rfl | hx₀
      · exact hnot hqd
      · rw [hp] at hx₀
        cases hx₀
    · obtain rfl := List.mem_singleton.1 hqp
      exact ⟨n, pg, l, r, hp, hn₀, hpg_p, hpg_n, hs⟩
  · rw [List.mem_append, not_or, List.mem_singleton] at hqd
    refine (hpage q hqd.2 ?_).trans (h.same q i hq hqd.1)
    rintro rfl
    rw [hn₀] at hq
    cases hq
  · by_cases hqp : q = p
    · obtain rfl : l = pg' := Option.some.inj (hpg_p.symm.trans (hqp ▸ hq))
      exact Or.inr hs.halfFull.1
    · by_cases hqn : q = n
      · obtain rfl : r = pg' := Option.some.inj (hpg_n.symm.trans (hqn ▸ hq))
        exact Or.inr hs.halfFull.2
      · exact h.grown q pg' ((hpage q hqp hqn).symm.trans hq)

/-- A fresh page, still zeroed. -/
theorem Climbed.newPage (h : Climbed S st st' done)
    (hfresh : ∀ i, st.allocated ≤ i → st.page (S.id i) = none) :
    Climbed S st (st'.newPage S) done := by
  have hn' : st'.page (S.id st'.allocated) = none := h.fresh _ le_rfl
  have hpage : ∀ q, q ≠ S.id st'.allocated → (st'.newPage S).page q = st'.page q :=
    fun q hq => Function.update_of_ne hq ..
  refine ⟨h.root, h.allocated.trans (Nat.le_succ _), fun i hi => ?_, fun q hq => ?_,
    fun q i hq hqd => ?_, fun q pg hq => ?_⟩
  · have hi' : st'.allocated + 1 ≤ i := hi
    refine (hpage _ fun heq => ?_).trans (h.fresh i (by omega))
    have := S.injective heq
    omega
  · refine (h.split q hq).frame fun x pg hx _ _ => (hpage x ?_).trans hx
    rintro rfl
    rw [hn'] at hx
    cases hx
  · refine (hpage q ?_).trans (h.same q i hq hqd)
    rintro rfl
    rw [hfresh _ h.allocated] at hq
    cases hq
  · by_cases hqn : q = S.id st'.allocated
    · have hq' : Function.update st'.page (S.id st'.allocated) (some .zeroed) q = some pg := hq
      rw [hqn, Function.update_self, Option.some.injEq] at hq'
      subst hq'
      exact Or.inr trivial
    · exact h.grown q pg ((hpage q hqn).symm.trans hq)

/-- A leaf gets another `prev_page`. -/
theorem Climbed.relink (h : Climbed S st st' done) {sib : BTreeLeafPage}
    (hc : st'.page c = some (.leaf sib)) :
    Climbed S st ⟨Function.update st'.page c (some (.leaf (sib.setPrevPage n))), st'.root,
      st'.allocated⟩ done := by
  -- what a page holds now was there before, but for the link
  have hpage : ∀ q pg, st'.page q = some pg → ∃ pg', Function.update st'.page c
      (some (.leaf (sib.setPrevPage n))) q = some pg' ∧ (pg' = pg ∨
      pg = .leaf sib ∧ pg' = .leaf (sib.setPrevPage n)) := by
    intro q pg hq
    by_cases hqc : q = c
    · subst hqc
      exact ⟨_, Function.update_self .., Or.inr ⟨Option.some.inj (hq.symm.trans hc), rfl⟩⟩
    · exact ⟨pg, (Function.update_of_ne hqc ..).trans hq, Or.inl rfl⟩
  refine ⟨h.root, h.allocated, fun i hi => ?_, fun q hq => ?_, fun q i hq hqd => ?_,
    fun q pg hq => ?_⟩
  · refine (Function.update_of_ne ?_ ..).trans (h.fresh i hi)
    intro heq
    rw [← heq, h.fresh i hi] at hc
    cases hc
  · obtain ⟨x, pg, l, r, hq₀, hx₀, hql, hxr, hinto⟩ := h.split q hq
    obtain ⟨l', hl', hl⟩ := hpage q l hql
    obtain ⟨r', hr', hr⟩ := hpage x r hxr
    refine ⟨x, pg, l', r', hq₀, hx₀, hl', hr', ?_⟩
    rcases hl with rfl | ⟨rfl, rfl⟩ <;> rcases hr with rfl | ⟨rfl, rfl⟩
    · exact hinto
    · cases hinto with | leaf hfull hperm hlen => exact .leaf hfull hperm hlen
    · cases hinto with | leaf hfull hperm hlen => exact .leaf hfull hperm hlen
    · cases hinto with | leaf hfull hperm hlen => exact .leaf hfull hperm hlen
  · have hsame := h.same q i hq hqd
    refine (Function.update_of_ne ?_ ..).trans hsame
    rintro rfl
    rw [hc, hq] at hsame
    cases hsame
  · by_cases hqc : q = c
    · subst hqc
      dsimp only at hq
      rw [Function.update_self, Option.some.injEq] at hq
      subst hq
      refine (h.grown q _ hc).imp ?_ id
      rintro ⟨pg₀, hpg₀, hgrows⟩
      refine ⟨pg₀, hpg₀, ?_⟩
      cases pg₀ <;> exact hgrows
    · exact h.grown q pg ((Function.update_of_ne hqc ..).symm.trans hq)

/-- What an insert leaves when it returns: it has changed no inner page but those it kept
latched, and the root is another one only if every page down to the leaf has split. -/
structure Ended (st st' : Store) (leaf : LPageId) (path kept : List LPageId) : Prop where
  touched : ∀ p i, st.page p = some (.inner i) → p ∉ kept → st'.page p = st.page p
  root : st'.root ≠ st.root → ∀ p ∈ leaf :: path, HasSplit st st' p

/-- What it leaves when it returns `Ok`: pages that have grown or are half full, all but a
new root, which has a separator. -/
structure Filled (st st' : Store) : Prop where
  grown : ∀ p pg, st'.page p = some pg → (p = st'.root → st'.root = st.root) → GrownFrom st p pg
  root : st'.root ≠ st.root → ∃ i, st'.page st'.root = some (.inner i) ∧ 1 ≤ i.numKeys

/-- Where an insert is that has found leaf `leaf` with the ancestors `kept` latched. -/
def ClimbOk (S : PageSupply) (st : Store) (leaf : LPageId) (l : BTreeLeafPage)
    (path kept : List LPageId) (x : Store × InsertPc) : Prop :=
  match x.2 with
  | .findLeafForWrite c locked =>
    x.1 = st ∧ c = leaf ∧ kept = latched l locked ∧ Kept st.page path locked
  | .splitLeafAlloc p locked entries _ _ => x.1 = st ∧ p = leaf ∧ locked = kept ∧
    Kept st.page path kept ∧ BTreeLeafPage.maxEntries ≤ l.numEntries ∧
    ∃ e, entries.Perm (e :: l.entries)
  | .splitLeafSibling _ locked _ _ _ => locked = kept ∧ Kept st.page path kept ∧
    Climbed S st x.1 [leaf]
  | .splitInnerAlloc p locked _ _ entries _ => Kept st.page path kept ∧ ∃ done i e,
    kept = done ++ p :: locked ∧ Climbed S st x.1 (leaf :: done) ∧ st.page p = some (.inner i) ∧
    BTreeInnerPage.maxKeys ≤ i.numKeys ∧ entries.Perm (e :: i.entries)
  | .newRootAlloc .. => path = kept ∧ Climbed S st x.1 (leaf :: kept)
  | .newRootHeader n _ _ => path = kept ∧ Climbed S st x.1 (leaf :: kept) ∧ st.page n = none ∧
    x.1.page n = some .zeroed
  | .done r => Ended st x.1 leaf path kept ∧ (r = .ok () → Filled st x.1)
  | _ => False

section Climb

variable {l : BTreeLeafPage}

/-- What is known of a leaf that has been found and the ancestors kept latched. -/
structure Found (S : PageSupply) (st : Store) (leaf : LPageId) (l : BTreeLeafPage)
    (kept : List LPageId) : Prop where
  fresh : ∀ i, st.allocated ≤ i → st.page (S.id i) = none
  leaf : st.page leaf = some (.leaf l)
  nodup : kept.Nodup
  inner : ∀ p ∈ kept, ∃ i, st.page p = some (.inner i)
  root : st.page st.root ≠ none

/-- The climb ends where it is. -/
theorem Climbed.ended (h : Climbed S st st' (leaf :: done)) (hl : st.page leaf = some (.leaf l))
    (hdone : ∀ p ∈ done, p ∈ kept) : Ended st st' leaf path kept := by
  refine ⟨fun p i hp hpk => h.same p i hp fun hm => ?_, fun hne => absurd h.root hne⟩
  rcases List.mem_cons.1 hm with rfl | hm
  · rw [hl] at hp
    cases hp
  · exact hpk (hdone p hm)

/-- **A separator climbs by one page**: into an ancestor with room, or the ancestor is to
split, or they have all split and a new root is due. -/
theorem Climbed.intoAncestors (h : Climbed S st st' (leaf :: done)) (hf : Found S st leaf l kept)
    (hkept : Kept st.page path kept) (hsplit : kept = done ++ rest) (sepKey : ℕ) :
    ClimbOk S st leaf l path kept
      (st'.apply (insertIntoAncestorsWithLocks st'.view rest sepKey c),
        (insertIntoAncestorsWithLocks st'.view rest sepKey c).pc) := by
  cases rest with
  | nil =>
    obtain rfl : kept = done := hsplit.trans (List.append_nil _)
    exact ⟨hkept.eq_of_split fun p hp => h.split p (List.mem_cons_of_mem _ hp), h⟩
  | cons p rest =>
    have hpk : p ∈ kept := hsplit ▸ by simp
    have hdone : ∀ q ∈ done, q ∈ kept := fun q hq => hsplit ▸ List.mem_append_left _ hq
    have hp : p ∉ leaf :: done := by
      rw [List.mem_cons, not_or]
      refine ⟨?_, fun hm => ?_⟩
      · rintro rfl
        obtain ⟨i, hi⟩ := hf.inner p hpk
        rw [hf.leaf] at hi
        cases hi
      · exact (List.nodup_append.1 (hsplit ▸ hf.nodup)).2.2 p hm p (List.mem_cons_self ..) rfl
    obtain ⟨i, hi⟩ := hf.inner p hpk
    have hi' : st'.view.page p = some (.inner i) := (h.same p i hi hp).trans hi
    have hended : Ended st st' leaf path kept := h.ended hf.leaf hdone
    rw [insertIntoAncestorsWithLocks, hi', asInner]
    dsimp only
    split_ifs with hroom
    · cases hins : i.insertSeparator sepKey c with
      | error e => exact ⟨hended, by rintro ⟨⟩⟩
      | ok i' =>
        -- the ancestor takes the separator
        have hlen := (BTreeInnerPage.insertSeparator_perm hins).length_eq
        refine ⟨⟨fun q j hq hqk => ?_, fun hne => absurd h.root hne⟩, fun _ =>
          ⟨fun q pg hq _ => ?_, fun hne => absurd h.root hne⟩⟩
        · refine (Function.update_of_ne ?_ ..).trans (hended.touched q j hq hqk)
          rintro rfl
          exact hqk hpk
        · by_cases hqp : q = p
          · subst hqp
            have hq' : Function.update st'.page q (some (.inner i')) q = some pg := hq
            rw [Function.update_self, Option.some.injEq] at hq'
            subst hq'
            refine Or.inl ⟨_, hi, ?_⟩
            rw [List.length_cons] at hlen
            show i.entries.length ≤ i'.entries.length
            omega
          · exact h.grown q pg ((Function.update_of_ne hqp ..).symm.trans hq)
    · -- the ancestor is full
      rw [splitInner]
      split
      · exact ⟨hended, by rintro ⟨⟩⟩
      · rename_i pos hpos
        obtain rfl : (Lib.findSlot BTreeInnerEntry.separatorKey i.entries sepKey).2 = pos :=
          congrArg Prod.snd hpos
        exact ⟨hkept, done, i, _, hsplit, h, hi, Nat.le_of_not_lt hroom,
          Lib.perm_insertIdx_findSlot⟩

/-- The code writes some pages and goes on into the ancestors. -/
theorem apply_after {ws : List Write} {o : Out InsertPc} :
    st'.apply (o.after ws) =
      (⟨writePages st'.page ws, st'.root, st'.allocated⟩ : Store).apply o := by
  rw [Store.apply, Out.after, writePages_append]
  rfl

/-- The copy loops of `split_leaf` cut a full leaf in two. -/
theorem splitsInto_leaf {entries : List BTreeLeafEntry} {e : BTreeLeafEntry} {old new : BTreeLeafPage}
    {n x y u v : LPageId} (hfull : BTreeLeafPage.maxEntries ≤ l.numEntries)
    (hperm : entries.Perm (e :: l.entries))
    (hnew : (BTreeLeafPage.init n).insertEntries (entries.drop (entries.length / 2)) = (new, none))
    (hold : (BTreeLeafPage.init p).insertEntries (entries.take (entries.length / 2)) =
      (old, none)) :
    Page.SplitsInto (.leaf l) (.leaf ((old.setNextPage x).setPrevPage y))
      (.leaf ((new.setNextPage u).setPrevPage v)) := by
  have hn : new.entries.Perm (entries.drop (entries.length / 2)) :=
    BTreeLeafPage.insertEntries_perm hnew
  have ho : old.entries.Perm (entries.take (entries.length / 2)) :=
    BTreeLeafPage.insertEntries_perm hold
  refine .leaf hfull (e := e) ?_ ?_
  · refine (ho.append hn).trans ?_
    rwa [List.take_append_drop]
  · have hlen := hperm.length_eq
    have hlen' := ho.length_eq
    rw [List.length_take] at hlen'
    rw [List.length_cons] at hlen
    show old.entries.length = (l.entries.length + 1) / 2
    omega

/-- Those of `split_inner` cut a full inner page in two, all but the separator in the middle. -/
theorem splitsInto_inner {i old new : BTreeInnerPage} {entries : List BTreeInnerEntry}
    {e m : BTreeInnerEntry} {left : LPageId} (hfull : BTreeInnerPage.maxKeys ≤ i.numKeys)
    (hperm : entries.Perm (e :: i.entries)) (hm : entries[entries.length / 2]? = some m)
    (hnew : (BTreeInnerPage.init n m.rightChild).insertSeparators
      (entries.drop (entries.length / 2 + 1)) = (new, none))
    (hold : (BTreeInnerPage.init p left).insertSeparators (entries.take (entries.length / 2)) =
      (old, none)) : Page.SplitsInto (.inner i) (.inner old) (.inner new) := by
  have hn : new.entries.Perm (entries.drop (entries.length / 2 + 1)) :=
    BTreeInnerPage.insertSeparators_perm hnew
  have ho : old.entries.Perm (entries.take (entries.length / 2)) :=
    BTreeInnerPage.insertSeparators_perm hold
  obtain ⟨hlt, rfl⟩ := List.getElem?_eq_some_iff.1 hm
  refine .inner hfull (e := e) (m := entries[entries.length / 2]) ?_ ?_
  · refine (ho.append (hn.cons _)).trans ?_
    rwa [← List.drop_eq_getElem_cons hlt, List.take_append_drop]
  · have hlen := hperm.length_eq
    have hlen' := ho.length_eq
    rw [List.length_take] at hlen'
    rw [List.length_cons] at hlen
    show old.entries.length = (i.entries.length + 1) / 2
    omega

/-- A full leaf is to split, and no ancestor has been released; else the entry goes in. -/
theorem climbOk_intoLeaf (hf : Found S st leaf l (latched l locked))
    (hkept : Kept st.page path locked) :
    ClimbOk S st leaf l path (latched l locked)
      (st.apply (intoLeaf key rid leaf (latched l locked) l),
        (intoLeaf key rid leaf (latched l locked) l).pc) := by
  have hended : Ended st st leaf path (latched l locked) :=
    ⟨fun _ _ _ _ => rfl, fun hne => absurd rfl hne⟩
  rw [intoLeaf]
  split_ifs with hfull
  · split
    · exact ⟨hended, by rintro ⟨⟩⟩
    · rename_i pos hpos
      obtain rfl : (Lib.findSlot BTreeLeafEntry.key l.entries key).2 = pos :=
        congrArg Prod.snd hpos
      have hfull' := BTreeLeafPage.needsSplit_iff.1 hfull
      have hunsafe : ¬ l.isSafeForInsert = true := by
        rw [BTreeLeafPage.isSafeForInsert_iff]
        simp only [BTreeLeafPage.safeInsertThreshold_eq, BTreeLeafPage.maxEntries_eq] at hfull' ⊢
        omega
      have hlocked : latched l locked = locked := if_neg hunsafe
      exact ⟨rfl, rfl, rfl, hlocked.symm ▸ hkept, hfull', _, Lib.perm_insertIdx_findSlot⟩
  · cases hins : l.insertEntry key rid.pageId rid.slotId with
    | error e => exact ⟨hended, by rintro ⟨⟩⟩
    | ok l' =>
      have hlen := (BTreeLeafPage.insertEntry_perm hins).length_eq
      refine ⟨⟨fun q i hq _ => Function.update_of_ne ?_ .., fun hne => absurd rfl hne⟩, fun _ =>
        ⟨fun q pg hq _ => ?_, fun hne => absurd rfl hne⟩⟩
      · rintro rfl
        rw [hf.leaf] at hq
        cases hq
      · by_cases hql : q = leaf
        · subst hql
          have hq' : Function.update st.page q (some (.leaf l')) q = some pg := hq
          rw [Function.update_self, Option.some.injEq] at hq'
          subst hq'
          refine Or.inl ⟨_, hf.leaf, ?_⟩
          rw [List.length_cons] at hlen
          show l.entries.length ≤ l'.entries.length
          omega
        · exact Or.inl ⟨pg, (Function.update_of_ne hql ..).symm.trans hq, .refl pg⟩

/-- An error on the way, after writes to no inner page but those that are latched. -/
theorem climbOk_fails {st₁ : Store} {ws : List Write} {e : Error} (hroot : st₁.root = st.root)
    (htouched : ∀ p i, st.page p = some (.inner i) → p ∉ kept → st₁.page p = st.page p)
    (hws : ∀ w ∈ ws, ∀ i, st.page w.id = some (.inner i) → w.id ∈ kept) :
    ClimbOk S st leaf l path kept (st₁.apply (Out.mk ws none (.done (.error e) : InsertPc)),
      .done (.error e)) := by
  refine ⟨⟨fun p i hp hpk => ?_, fun hne => absurd hroot hne⟩, nofun⟩
  refine (writePages_of_not_mem fun w hw => ?_).trans (htouched p i hp hpk)
  rintro rfl
  exact hpk (hws w hw i hp)

/-- `split_leaf` with its fresh page. -/
theorem climbOk_splitLeafFinish (hf : Found S st leaf l kept) (hkept : Kept st.page path kept)
    (hfull : BTreeLeafPage.maxEntries ≤ l.numEntries) {entries : List BTreeLeafEntry}
    {e : BTreeLeafEntry} (hperm : entries.Perm (e :: l.entries)) (oldPrev oldNext : LPageId) :
    ClimbOk S st leaf l path kept
      ((st.newPage S).apply (splitLeafFinish (st.newPage S).view (S.id st.allocated) leaf kept
        entries oldPrev oldNext),
        (splitLeafFinish (st.newPage S).view (S.id st.allocated) leaf kept entries oldPrev
          oldNext).pc) := by
  have hn := hf.fresh _ le_rfl
  have htouched : ∀ p i, st.page p = some (.inner i) → p ∉ kept →
      (st.newPage S).page p = st.page p := by
    intro p i hp _
    refine Function.update_of_ne ?_ ..
    rintro rfl
    rw [hn] at hp
    cases hp
  rw [splitLeafFinish]
  dsimp only
  split
  · exact climbOk_fails rfl htouched (by rintro _ ⟨⟩)
  · rename_i first hmid
    split
    · exact climbOk_fails rfl htouched (by simp [hn])
    · rename_i newPage hnew
      split
      · exact climbOk_fails rfl htouched (by simp [hn, hf.leaf])
      · rename_i oldPage hold
        have hcut := (Climbed.refl hf.fresh).cut hf.fresh (b := true) (d := false) hf.leaf
          (by rw [hf.leaf]; exact Option.some_ne_none _) List.not_mem_nil
          (splitsInto_leaf (x := S.id st.allocated) (y := oldPrev) (u := oldNext) (v := leaf)
            hfull hperm hnew hold)
        split_ifs
        · rw [apply_after]
          exact hcut.intoAncestors hf hkept rfl first.key
        · exact ⟨rfl, hkept, hcut⟩

/-- `split_leaf` at the old right sibling. -/
theorem climbOk_splitLeafSibling (hf : Found S st leaf l kept) (hkept : Kept st.page path kept)
    (h : Climbed S st st' [leaf]) (sepKey : ℕ) (oldNext : LPageId) :
    ClimbOk S st leaf l path kept
      (st'.apply (splitLeafSibling st'.view kept n sepKey oldNext),
        (splitLeafSibling st'.view kept n sepKey oldNext).pc) := by
  rw [splitLeafSibling]
  cases hsib : asLeaf oldNext (st'.view.page oldNext) with
  | error e => exact ⟨h.ended hf.leaf (by rintro _ ⟨⟩), by rintro ⟨⟩⟩
  | ok sib =>
    have hc : st'.page oldNext = some (.leaf sib) := by
      unfold asLeaf at hsib
      split at hsib
      · cases hsib
      · rename_i hpg
        rw [← Except.ok.inj hsib]
        exact hpg
      · cases hsib
    dsimp only
    rw [apply_after]
    exact (h.relink hc).intoAncestors hf hkept rfl sepKey

/-- `split_inner` with its fresh page. -/
theorem climbOk_splitInnerFinish (hf : Found S st leaf l kept) (hkept : Kept st.page path kept)
    (h : Climbed S st st' (leaf :: done)) (hsplit : kept = done ++ p :: rest) {i : BTreeInnerPage}
    (hi : st.page p = some (.inner i)) (hfull : BTreeInnerPage.maxKeys ≤ i.numKeys)
    {entries : List BTreeInnerEntry} {e : BTreeInnerEntry} (hperm : entries.Perm (e :: i.entries))
    (left : LPageId) :
    ClimbOk S st leaf l path kept
      ((st'.newPage S).apply (splitInnerFinish (st'.newPage S).view (S.id st'.allocated) p rest
        entries left),
        (splitInnerFinish (st'.newPage S).view (S.id st'.allocated) p rest entries left).pc) := by
  have hpk : p ∈ kept := hsplit ▸ by simp
  have hp : p ∉ leaf :: done := by
    rw [List.mem_cons, not_or]
    refine ⟨?_, fun hm => ?_⟩
    · rintro rfl
      rw [hf.leaf] at hi
      cases hi
    · exact (List.nodup_append.1 (hsplit ▸ hf.nodup)).2.2 p hm p (List.mem_cons_self ..) rfl
  have hended : Ended st st' leaf path kept :=
    h.ended hf.leaf fun q hq => hsplit ▸ List.mem_append_left _ hq
  have hn := hf.fresh _ h.allocated
  have htouched : ∀ q j, st.page q = some (.inner j) → q ∉ kept →
      (st'.newPage S).page q = st.page q := by
    intro q j hq hqk
    refine (Function.update_of_ne ?_ ..).trans (hended.touched q j hq hqk)
    rintro rfl
    rw [hn] at hq
    cases hq
  rw [splitInnerFinish]
  dsimp only
  split
  · exact climbOk_fails h.root htouched (by rintro _ ⟨⟩)
  · rename_i m hm
    split
    · exact climbOk_fails h.root htouched (by simp [hn])
    · rename_i newPage hnew
      split
      · exact climbOk_fails h.root htouched (by simp [hn, hpk])
      · rename_i oldPage hold
        have hcut := h.cut hf.fresh (b := true) (d := false) hi
          (by rw [h.same p i hi hp, hi]; exact Option.some_ne_none _) hp
          (splitsInto_inner hfull hperm hm hnew hold)
        rw [apply_after]
        exact hcut.intoAncestors hf hkept (hsplit.trans (List.append_cons ..)) m.separatorKey

/-- The new root gets the old one and its new sibling as children. -/
theorem climbOk_newRootFinish (hpath : path = kept) (h : Climbed S st st' (leaf :: kept))
    (hf : Found S st leaf l kept) (hn : st.page n = none) (hn' : st'.page n = some .zeroed)
    (sepKey : ℕ) :
    ClimbOk S st leaf l path kept (st'.apply (newRootFinish st'.view n sepKey c),
      (newRootFinish st'.view n sepKey c).pc) := by
  subst hpath
  have hold : Ended st st' leaf path path := h.ended hf.leaf fun _ hp => hp
  -- only the new page is written
  have hpage : ∀ (pg : Page) q, q ≠ n → Function.update st'.page n (some pg) q = st'.page q :=
    fun pg q hq => Function.update_of_ne hq ..
  have hended : ∀ pg : Page, Ended st ⟨Function.update st'.page n (some pg), n, st'.allocated⟩
      leaf path path := by
    refine fun pg => ⟨fun q i hq hqk => ?_, fun _ q hq => ?_⟩
    · have hqn : q ≠ n := by
        rintro rfl
        rw [hn] at hq
        cases hq
      exact (hpage pg q hqn).trans (hold.touched q i hq hqk)
    · refine (h.split q hq).frame fun x pg' hx hne _ => (hpage pg x ?_).trans hx
      rintro rfl
      rw [hn', Option.some.injEq] at hx
      exact hne hx.symm
  rw [newRootFinish]
  split
  · rename_i i hins
    have hlen := (BTreeInnerPage.insertSeparator_perm hins).length_eq
    refine ⟨hended _, fun _ => ⟨fun q pg hq hqn => ?_, fun _ => ⟨i, Function.update_self .., ?_⟩⟩⟩
    · have hne : q ≠ n := by
        rintro rfl
        exact hf.root ((congrArg st.page (hqn rfl)).symm.trans hn)
      exact h.grown q pg ((hpage _ q hne).symm.trans hq)
    · rw [List.length_cons] at hlen
      show 1 ≤ i.entries.length
      omega
  · exact ⟨hended _, by rintro ⟨⟩⟩

/-- **Every step of an insert past its descent** keeps to the latches it has. -/
theorem ClimbOk.step (hf : Found S st leaf l kept) {x : Store × InsertPc}
    (h : ClimbOk S st leaf l path kept x) :
    ClimbOk S st leaf l path kept (x.1.step S (machine key rid) x.2) := by
  obtain ⟨st', pc⟩ := x
  cases pc with
  | start => exact h.elim
  | allocFirst => exact h.elim
  | setRoot n => exact h.elim
  | done r => exact h
  | findLeafForWrite c locked =>
    obtain ⟨rfl, rfl, rfl, hkept⟩ := h
    have hstep : st'.step S (machine key rid) (.findLeafForWrite c locked) =
        (st'.apply (intoLeaf key rid c (latched l locked) l),
          (intoLeaf key rid c (latched l locked) l).pc) := by
      show (st'.apply (findLeafForWrite st'.view key rid c locked),
        (findLeafForWrite st'.view key rid c locked).pc) = _
      rw [findLeafForWrite_leaf hf.leaf]
      rfl
    rw [hstep]
    exact climbOk_intoLeaf hf hkept
  | splitLeafAlloc p locked entries oldPrev oldNext =>
    obtain ⟨rfl, rfl, rfl, hkept, hfull, e, hperm⟩ := h
    exact climbOk_splitLeafFinish hf hkept hfull hperm oldPrev oldNext
  | splitLeafSibling p locked newLeaf sepKey oldNext =>
    obtain ⟨rfl, hkept, hclimbed⟩ := h
    exact climbOk_splitLeafSibling hf hkept hclimbed sepKey oldNext
  | splitInnerAlloc p locked sepKey c entries left =>
    obtain ⟨hkept, done, i, e, hsplit, hclimbed, hi, hfull, hperm⟩ := h
    exact climbOk_splitInnerFinish hf hkept hclimbed hsplit hi hfull hperm left
  | newRootAlloc sepKey c =>
    obtain ⟨hpath, hclimbed⟩ := h
    exact ⟨hpath, hclimbed.newPage hf.fresh, hf.fresh _ hclimbed.allocated, Function.update_self ..⟩
  | newRootHeader n sepKey c =>
    obtain ⟨hpath, hclimbed, hn, hn'⟩ := h
    exact climbOk_newRootFinish hpath hclimbed hf hn hn' sepKey

/-- At each of its steps an insert has changed latched inner pages only, and is at a new root
only if the whole path has split. -/
theorem ClimbOk.latches {pc : InsertPc} (hf : Found S st leaf l kept)
    (h : ClimbOk S st leaf l path kept (st', pc)) :
    (∀ p i, st.page p = some (.inner i) → st'.page p ≠ st.page p → p ∈ kept) ∧
      (MakesRoot pc ∨ st'.root ≠ st.root → ∀ p ∈ leaf :: path, HasSplit st st' p) := by
  have hended : Ended st st' leaf path kept →
      (∀ p i, st.page p = some (.inner i) → st'.page p ≠ st.page p → p ∈ kept) := by
    intro he p i hp hne
    by_contra hpk
    exact hne (he.touched p i hp hpk)
  have hstart : Ended st st leaf path kept := ⟨fun _ _ _ _ => rfl, fun hne => absurd rfl hne⟩
  have hmid : ∀ {done}, Climbed S st st' (leaf :: done) → (∀ p ∈ done, p ∈ kept) →
      ¬ MakesRoot pc → (∀ p i, st.page p = some (.inner i) → st'.page p ≠ st.page p → p ∈ kept) ∧
      (MakesRoot pc ∨ st'.root ≠ st.root → ∀ p ∈ leaf :: path, HasSplit st st' p) :=
    fun hclimbed hdone hpc => ⟨hended (hclimbed.ended hf.leaf hdone), fun hor =>
      absurd hclimbed.root (hor.resolve_left hpc)⟩
  cases pc with
  | start => exact h.elim
  | allocFirst => exact h.elim
  | setRoot n => exact h.elim
  | findLeafForWrite c locked =>
    obtain ⟨rfl, -⟩ := h
    exact ⟨hended hstart, fun hor => absurd rfl (hor.resolve_left id)⟩
  | splitLeafAlloc p locked entries oldPrev oldNext =>
    obtain ⟨rfl, -⟩ := h
    exact ⟨hended hstart, fun hor => absurd rfl (hor.resolve_left id)⟩
  | splitLeafSibling p locked newLeaf sepKey oldNext =>
    obtain ⟨-, -, hclimbed⟩ := h
    exact hmid hclimbed nofun id
  | splitInnerAlloc p locked sepKey c entries left =>
    obtain ⟨-, done, i, e, rfl, hclimbed, -⟩ := h
    exact hmid hclimbed (fun q hq => List.mem_append_left _ hq) id
  | newRootAlloc sepKey c =>
    obtain ⟨rfl, hclimbed⟩ := h
    exact ⟨hended (hclimbed.ended hf.leaf fun _ hp => hp), fun _ => hclimbed.split⟩
  | newRootHeader n sepKey c =>
    obtain ⟨rfl, hclimbed, -⟩ := h
    exact ⟨hended (hclimbed.ended hf.leaf fun _ hp => hp), fun _ => hclimbed.split⟩
  | done r =>
    obtain ⟨he, -⟩ := h
    exact ⟨hended he, fun hor => he.root (hor.resolve_left id)⟩

/-- What holds when the leaf has been found holds up to the end. -/
theorem climbOk_of_reaches (hf : Found S st leaf l (latched l locked))
    (hkept : Kept st.page path locked) {x : Store × InsertPc}
    (h : ReflTransGen (fun x y => y = x.1.step S (machine key rid) x.2)
      (st, .findLeafForWrite leaf locked) x) : ClimbOk S st leaf l path (latched l locked) x := by
  induction h with
  | refl => exact ⟨rfl, rfl, rfl, hkept⟩
  | tail _ hstep ih => exact hstep ▸ ih.step hf

/-- What an insert keeps when it has found its leaf. -/
theorem found (hst : st.Rests S F) (h0 : st.root ≠ 0) (hk : key < keyBound)
    (hl : st.page leaf = some (.leaf l)) (hpath : Descends st.page key st.root leaf path)
    (hkept : Kept st.page path locked) : Found S st leaf l (latched l locked) := by
  obtain ⟨-, -, -, -, -, -, hnodup, -⟩ := hpath.levels hst h0 hk
  have hsub : (latched l locked).Sublist path := by
    obtain ⟨above, rfl, -⟩ := hkept
    unfold latched
    split_ifs
    · exact List.nil_sublist _
    · exact List.sublist_append_left ..
  obtain ⟨h, htop, -⟩ := hst.tree.top h0
  exact ⟨hst.fresh, hl, hnodup.sublist hsub, fun p hp => hpath.inner (hsub.subset hp),
    hst.tree.exists_of_span htop.1⟩

end Climb

/-- **The descent finds a leaf.** -/
theorem finds_leaf (hst : st.Rests S F) (rid : RecordId) (locked : List LPageId) {ℓ a b : ℕ}
    (hc : F c = some ⟨ℓ, a, b⟩) (ha : a ≤ key) (hb : key < b) :
    ∃ leaf locked' l, ReflTransGen (fun x y => y = x.1.step S (machine key rid) x.2)
      (st, .findLeafForWrite c locked) (st, .findLeafForWrite leaf locked') ∧
      st.page leaf = some (.leaf l) := by
  induction ℓ generalizing c locked a b with
  | zero =>
    obtain ⟨l, hl, -⟩ := hst.tree.leaf hc
    exact ⟨c, locked, l, .refl, hl⟩
  | succ ℓ ih =>
    obtain ⟨i, d, a', b', hi, -, hroute, hd, -, -, ha', hb'⟩ := hst.tree.child hc ha hb
    obtain ⟨leaf, locked', l, hsteps, hl⟩ := ih (c :: if i.isSafeForInsert then [] else locked) hd ha' hb'
    refine ⟨leaf, locked', l, .head ?_ hsteps, hl⟩
    have hgoto : (machine key rid).resume st.view 0 (.findLeafForWrite c locked) =
        Out.goto (.findLeafForWrite d (c :: if i.isSafeForInsert then [] else locked)) :=
      hroute rfl ▸ findLeafForWrite_inner hi
    have hstep : st.step S (machine key rid) (.findLeafForWrite c locked) =
        (st, .findLeafForWrite d (c :: if i.isSafeForInsert then [] else locked)) :=
      Store.step_goto nofun nofun hgoto
    exact hstep.symm

theorem finds_leaf_from_start (hst : st.Rests S F) (h0 : st.root ≠ 0) (hk : key < keyBound)
    (rid : RecordId) : ∃ leaf locked l,
      ReflTransGen (fun x y => y = x.1.step S (machine key rid) x.2) (st, .start)
        (st, .findLeafForWrite leaf locked) ∧ st.page leaf = some (.leaf l) := by
  obtain ⟨ℓ, htop, -⟩ := hst.tree.top h0
  obtain ⟨leaf, locked, l, hdown, hl⟩ := finds_leaf hst rid [] htop.1 (Nat.zero_le _) hk
  have hgoto : (machine key rid).resume st.view 0 .start =
      Out.goto (.findLeafForWrite st.root []) := congrArg Out.goto (if_neg h0)
  have hstep : st.step S (machine key rid) .start = (st, .findLeafForWrite st.root []) :=
    Store.step_goto nofun nofun hgoto
  exact ⟨leaf, locked, l, hdown.head hstep.symm, hl⟩

end Insert

end BTree
end Abdb
