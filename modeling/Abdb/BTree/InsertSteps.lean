/-
# Every step of an insert keeps the invariant

One theorem for each await point of `insert`, each from `Inv.next` and the change of the
tree that the code up to the next await point makes.  `Inv.step` puts them together.
-/

import Abdb.BTree.InsertRace

namespace Abdb
namespace BTree

open Lib

variable {ι : Type} [DecidableEq ι] {S : PageSupply} {B : ℕ → RecordId → Prop} {σ : Sys ι}
  {F F' : Layout} {D D' : Dues} {page page' : LPageId → Option Page} {root p n : LPageId}
  {i j : ι} {key : ℕ} {rid : RecordId} {pc pc' : InsertPc} {locked : List LPageId}
  {ℓ a b : ℕ}

/-- A step of an insert that waited for a page or the header. -/
theorem Sys.step_resume {ws : List Write} {r : Option LPageId}
    (hi : σ.task i = .insert key rid pc) (hn : Insert.await pc ≠ .newPage)
    (h0 : Insert.await pc ≠ .nothing)
    (h : Insert.resume key rid σ.store.view 0 pc = ⟨ws, r, pc'⟩) :
    σ.step S i = ⟨⟨writePages σ.store.page ws, r.getD σ.store.root, σ.store.allocated⟩,
      Function.update σ.task i (.insert key rid pc')⟩ :=
  Sys.step_insert hi (Store.step_resume hn h0 h)

/-- A step of an insert that waited for a fresh page. -/
theorem Sys.step_newPage {ws : List Write} {r : Option LPageId}
    (hi : σ.task i = .insert key rid pc) (hn : Insert.await pc = .newPage)
    (h : Insert.resume key rid (σ.store.newPage S).view (S.id σ.store.allocated) pc =
      ⟨ws, r, pc'⟩) :
    σ.step S i = ⟨⟨writePages (Function.update σ.store.page (S.id σ.store.allocated)
      (some Page.zeroed)) ws, r.getD σ.store.root, σ.store.allocated + 1⟩,
      Function.update σ.task i (.insert key rid pc')⟩ :=
  Sys.step_insert hi (Store.step_newPage hn h)

namespace Inv

/-- Nothing in the store changes and the task owes nothing, before and after. -/
theorem stay (h : Inv S B σ F D) (hi : σ.task i = .insert key rid pc)
    (own : InsertOk F D σ.store.page σ.store.root key rid pc')
    (hdue : Insert.due pc = none ∧ Insert.due pc' = none)
    (hprev : Insert.duePrev pc = none ∧ Insert.duePrev pc' = none)
    (hstored : Insert.stored pc = false ∧ Insert.stored pc' = false)
    (holds' : ∀ p ∈ Insert.holds pc', p ∈ Insert.holds pc ∨ ∀ j, p ∉ (σ.task j).holds)
    (nodup' : (Insert.holds pc').Nodup) :
    Inv S B ⟨σ.store, Function.update σ.task i (.insert key rid pc')⟩ F D := by
  refine h.next hi h.tree h.fresh own ?_ ?_ holds' nodup' (fun p => Or.inl ⟨rfl, rfl⟩)
    (fun p s hp => ⟨s, hp, rfl⟩) (fun _ _ _ _ _ _ _ _ => rfl) (fun _ hd => Or.inl ⟨rfl, hd⟩)
    id (by simp [hstored.1]) (fun k r => ?_)
  · rw [hdue.2]
    exact h.seps.idle (by rw [hi]; exact hdue.1)
  · rw [hprev.2]
    exact h.prevs.idle (by rw [hi]; exact hprev.1)
  · simp [Task.effect, hstored.2]

/-- `read_root_page`. -/
theorem step_start (h : Inv S B σ F D) (hi : σ.task i = .insert key rid .start) :
    Inv S B (σ.step S i) F D := by
  have hres : Insert.resume key rid σ.store.view 0 .start =
      ⟨[], none, if σ.store.root = 0 then .allocFirst else .findLeafForWrite σ.store.root []⟩ := rfl
  rw [Sys.step_resume hi nofun nofun hres]
  split_ifs with h0
  · exact h.stay hi trivial ⟨rfl, rfl⟩ ⟨rfl, rfl⟩ ⟨rfl, rfl⟩ nofun List.nodup_nil
  · exact h.stay hi h0 ⟨rfl, rfl⟩ ⟨rfl, rfl⟩ ⟨rfl, rfl⟩ nofun List.nodup_nil

omit [DecidableEq ι] in
/-- After an allocation the rest of the supply is still unused. -/
theorem fresh_succ (h : Inv S B σ F D) (hi : σ.task i = .insert key rid pc)
    (hpage : ∀ q ∉ Insert.holds pc, q ≠ S.id σ.store.allocated → page' q = σ.store.page q) :
    ∀ m, σ.store.allocated + 1 ≤ m → page' (S.id m) = none := by
  intro m hm
  have hpg := h.fresh m (by omega)
  rw [hpage]
  · exact hpg
  · intro hq
    exact h.held_exists (j := i) (by rw [hi]; exact hq) hpg
  · intro heq
    have := S.injective heq
    omega

/-- `alloc_page` of the first leaf. -/
theorem step_allocFirst (h : Inv S B σ F D) (hi : σ.task i = .insert key rid .allocFirst) :
    Inv S B (σ.step S i) F D := by
  obtain ⟨hn0, hFn, hfree, -⟩ := h.fresh_page
  have hpage : ∀ (pg : Page) q, q ≠ S.id σ.store.allocated →
      Function.update σ.store.page (S.id σ.store.allocated) (some pg) q = σ.store.page q :=
    fun pg q hq => Function.update_of_ne hq ..
  rw [Sys.step_newPage hi rfl Insert.firstLeaf_eq]
  simp only [writePages_cons, writePages_nil, Function.update_idem]
  refine h.next hi (h.tree.update_outside hFn _) (h.fresh_succ hi fun q _ => hpage _ q)
    ⟨hFn, hn0, Function.update_self ..⟩ (h.seps.idle (by rw [hi]; rfl))
    (h.prevs.idle (by rw [hi]; rfl)) ?_ (List.pairwise_singleton ..) (fun p => ?_)
    (fun p s hp => ⟨s, hp, rfl⟩) (fun _ _ _ _ _ _ _ _ => rfl) (fun _ hd => Or.inl ⟨rfl, hd⟩) id
    nofun fun k r => ?_
  · intro p hp
    obtain rfl := List.mem_singleton.1 hp
    exact Or.inr hfree
  · by_cases hp : p = S.id σ.store.allocated
    · exact Or.inr (Or.inr (hp ▸ hfree))
    · exact Or.inl ⟨rfl, hpage _ p hp⟩
  · have hb := Layout.binds_congr (k := k) (r := r) (F := F) (fun _ _ _ => Iff.rfl)
      fun p lo hi hp => congrArg leafEntries (hpage (.leaf ⟨S.id σ.store.allocated, 0, 0,
        [Insert.newEntry key rid]⟩) p (by rintro rfl; rw [hFn] at hp; cases hp))
    simpa [Task.effect, Insert.stored] using hb

/-- `set_root_page` to the first leaf, while the tree is empty. -/
theorem step_setRoot (h : Inv S B σ F D) (hi : σ.task i = .insert key rid (.setRoot n))
    (h0 : σ.store.root = 0) :
    ∃ F', Inv S B (σ.step S i) F' D ∧ F.Grows F' (σ.task i).cut := by
  obtain ⟨hk, hFn, hn0, hpg⟩ := h.ok hi
  have hF := h.tree.empty h0
  have hd : D.root = none := by
    by_contra hne
    exact h.root_ne_zero hne h0
  obtain ⟨tree', hb⟩ := h.tree.firstLeaf h0 hd hn0 (h.prev_eq_none hFn) hk hpg
  rw [Sys.step_resume hi nofun nofun rfl]
  refine ⟨_, h.next hi tree' h.fresh trivial (h.seps.idle (by rw [hi]; rfl))
    (h.prevs.idle (by rw [hi]; rfl)) nofun List.nodup_nil (fun p => ?_) (fun p s hp => ?_)
    (fun j k r c q rest _ hj => ?_) (fun hne => absurd h0 hne) (fun hne => absurd h0 hne) nofun
    fun k r => ?_, Layout.grows_add hFn⟩
  · by_cases hp : p = n
    · exact Or.inr (Or.inl (hp ▸ List.mem_singleton_self n))
    · exact Or.inl ⟨Layout.add_of_ne hp, rfl⟩
  · rw [hF p] at hp
    cases hp
  · obtain ⟨ℓ, a, b, hc, -⟩ := (h.ok hj).2
    rw [hF c] at hc
    cases hc
  · rw [writePages_nil, hb]
    simp [Task.effect, Insert.stored, eq_comm]

omit [DecidableEq ι] in
/-- The page an insert is about to latch covers its key, below the ancestors it keeps. -/
theorem current (h : Inv S B σ F D) {c : LPageId}
    (hi : σ.task i = .insert key rid (.findLeafForWrite c locked)) (hr : RootCurrent σ i) :
    ∃ ℓ a b, F c = some ⟨ℓ, a, b⟩ ∧ a ≤ key ∧ key < b ∧
      Ancestors F D σ.store.page σ.store.root key ℓ c locked := by
  obtain ⟨hk, hok⟩ := h.ok hi
  cases locked with
  | cons q rest =>
    obtain ⟨ℓ, a, b, hc, ha, hb, hA⟩ := hok
    exact ⟨ℓ, a, b, hc, ha, hb, hA⟩
  | nil =>
    -- the descent starts: the header still names the page, and no new root is due
    unfold RootCurrent at hr
    rw [hi] at hr
    obtain ⟨rfl, hdue⟩ := hr
    have hd : D.root = none := by
      by_contra hne
      obtain ⟨e, he⟩ := Option.ne_none_iff_exists'.1 hne
      obtain ⟨j, hj⟩ := (h.seps.entry none e).1 he
      exact hdue j e hj
    obtain ⟨ℓ, htop, -⟩ := h.tree.top hok
    rw [hd] at htop
    exact ⟨ℓ, 0, keyBound, htop.1, Nat.zero_le _, hk, Or.inr ⟨rfl, hd⟩⟩

/-- One round of `find_leaf_for_write`, and the insertion into a leaf that needs no split. -/
theorem step_findLeafForWrite (h : Inv S B σ F D) {c : LPageId}
    (hi : σ.task i = .insert key rid (.findLeafForWrite c locked)) (hr : RootCurrent σ i)
    (hen : σ.Enabled i) : Inv S B (σ.step S i) F D := by
  obtain ⟨ℓ, a, b, hc, ha, hb, hA⟩ := h.current hi hr
  have hfree : ∀ j, c ∉ (σ.task j).holds := by
    unfold Sys.Enabled at hen
    rw [hi] at hen
    exact hen
  have hnd : D.sep c = none := by
    by_contra hne
    obtain ⟨j, hj⟩ := h.due_held hne
    exact hfree j hj
  have hlocked : locked.Nodup := by
    have := h.nodup i
    rwa [hi] at this
  have hcl : c ∉ locked := by
    have := hfree i
    rwa [hi] at this
  cases ℓ with
  | succ ℓ =>
    obtain ⟨pg, d, a', b', hpg, -, hroute, hd, -, -, ha', hb'⟩ := h.tree.child hc ha hb
    have hres : Insert.resume key rid σ.store.view 0 (.findLeafForWrite c locked) =
        ⟨[], none, .findLeafForWrite d (c :: if pg.isSafeForInsert then [] else locked)⟩ := by
      rw [Insert.resume, Insert.findLeafForWrite_inner hpg, hroute hnd]
      rfl
    have hkeep : Ancestors F D σ.store.page σ.store.root key (ℓ + 1) c
        (if pg.isSafeForInsert then [] else locked) := by
      split_ifs with hs
      · refine Or.inl ⟨pg, hpg, ?_⟩
        have := BTreeInnerPage.isSafeForInsert_iff.1 hs
        simp only [BTreeInnerPage.safeInsertThreshold_eq, BTreeInnerPage.maxKeys_eq] at this ⊢
        omega
      · exact hA
    rw [Sys.step_resume hi nofun nofun hres]
    refine h.stay hi ⟨ℓ, a', b', hd, ha', hb', ⟨a, b, hc, ha, hb⟩, hkeep⟩ ⟨rfl, rfl⟩ ⟨rfl, rfl⟩
      ⟨rfl, rfl⟩ (fun p hp => ?_) ?_
    · rcases List.mem_cons.1 hp with rfl | hp
      · exact Or.inr hfree
      · split_ifs at hp
        · cases hp
        · exact Or.inl hp
    · refine List.nodup_cons.2 ⟨?_, ?_⟩ <;> split_ifs
      · exact List.not_mem_nil
      · exact hcl
      · exact List.nodup_nil
      · exact hlocked
  | zero =>
    obtain ⟨l, hl, ok⟩ := h.tree.leaf hc
    have hres : Insert.resume key rid σ.store.view 0 (.findLeafForWrite c locked) =
        Insert.intoLeaf key rid c (if l.isSafeForInsert then [] else locked) l :=
      Insert.findLeafForWrite_leaf hl
    by_cases hk : ∃ e ∈ l.entries, e.key = key
    · -- the key is present
      obtain ⟨e, -, he⟩ := Insert.intoLeaf_present ok.sorted hk rid c
        (if l.isSafeForInsert then [] else locked)
      rw [Sys.step_resume hi nofun nofun (hres.trans he)]
      exact h.stay hi trivial ⟨rfl, rfl⟩ ⟨rfl, rfl⟩ ⟨rfl, rfl⟩ nofun List.nodup_nil
    · replace hk : ∀ e ∈ l.entries, e.key ≠ key := fun e he hek => hk ⟨e, he, hek⟩
      rcases Nat.lt_or_ge l.numEntries BTreeLeafPage.maxEntries with hn | hn
      · -- the leaf has room
        rw [Sys.step_resume hi nofun nofun (hres.trans (Insert.intoLeaf_room ok.sorted hk hn))]
        rw [writePages_cons, writePages_nil]
        have hpage : ∀ {pg : Page} q, q ≠ c →
            Function.update σ.store.page c (some pg) q = σ.store.page q :=
          fun q hq => Function.update_of_ne hq ..
        refine h.next hi (h.tree.insertLeaf hc hl ha hb hn hk) (fun m hm => ?_) trivial
          (h.seps.idle (by rw [hi]; rfl)) (h.prevs.idle (by rw [hi]; rfl)) nofun List.nodup_nil
          (fun p => ?_) (fun p s hp => ⟨s, hp, rfl⟩) (fun _ _ _ _ _ _ _ _ => rfl)
          (fun _ hd => Or.inl ⟨rfl, hd⟩) id nofun fun k r => ?_
        · have := h.fresh m hm
          exact (hpage _ (by rintro rfl; rw [hl] at this; cases this)).trans this
        · by_cases hp : p = c
          · exact Or.inr (Or.inr (hp ▸ hfree))
          · exact Or.inl ⟨rfl, hpage p hp⟩
        · refine (Layout.binds_insert (e := Insert.newEntry key rid) hc
            (fun q hq => congrArg leafEntries (hpage q hq)) fun x => ?_).trans ?_
          · dsimp only
            rw [Function.update_self, hl]
            exact mem_insertBy
          · simp [Task.effect, Insert.stored, eq_comm]
      · -- the leaf is full, so no ancestor has been released
        have hs : ¬ l.isSafeForInsert = true := by
          rw [BTreeLeafPage.isSafeForInsert_iff]
          simp only [BTreeLeafPage.safeInsertThreshold_eq, BTreeLeafPage.maxEntries_eq] at hn ⊢
          omega
        rw [Sys.step_resume hi nofun nofun (hres.trans (Insert.intoLeaf_full ok.sorted hk hn)),
          if_neg hs]
        refine h.stay hi ⟨a, b, l, hc, ha, hb, hl, hn, hk, rfl, rfl, rfl, hA⟩ ⟨rfl, rfl⟩ ⟨rfl, rfl⟩
          ⟨rfl, rfl⟩ (fun p hp => ?_) (List.nodup_cons.2 ⟨hcl, hlocked⟩)
        rcases List.mem_cons.1 hp with rfl | hp
        · exact Or.inr hfree
        · exact Or.inl hp

omit [DecidableEq ι] in
/-- A page that splits is not the one another insert is about to latch: that insert would
hold the page above it. -/
theorem current_ne (h : Inv S B σ F D) {t : Option LPageId} {c q : LPageId} {rest : List LPageId}
    {k : ℕ} {r : RecordId} (hp : F p = some ⟨ℓ, a, b⟩) (ht : F.Above σ.store.root t p)
    (hheld : ∀ q, t = some q → q ∈ (σ.task i).holds) (hji : j ≠ i)
    (hj : σ.task j = .insert k r (.findLeafForWrite c (q :: rest))) : c ≠ p := by
  rintro rfl
  obtain ⟨ℓ', a', b', hc, ha, hb, ⟨lo, hi, hq, hlo, hhi⟩, -⟩ := (h.ok hj).2
  obtain ⟨rfl, rfl, rfl⟩ : ℓ = ℓ' ∧ a = a' ∧ b = b' := by simpa [hp] using hc
  obtain ⟨-, -, -, -, hla, hbh⟩ := h.tree.child_of_covers hq hp hlo hhi ha hb
  refine hji (h.apart ?_ (hheld q (h.tree.above_unique hp ht hq hla hbh)))
  rw [hj]
  exact List.mem_cons_self ..

/-- **A split, seen from the other tasks.** -/
theorem next_split (h : Inv S B σ F D) (hi : σ.task i = .insert key rid pc) {m : ℕ}
    (hp : F p = some ⟨ℓ, a, b⟩) (hholds : Insert.holds pc = p :: locked)
    (ht : F.Above σ.store.root locked.head? p)
    (tree' : Tree (F.split p (S.id σ.store.allocated) ℓ a m b) D' page' σ.store.root)
    (hpage : ∀ q ∉ p :: locked, q ≠ S.id σ.store.allocated → page' q = σ.store.page q)
    (own : InsertOk (F.split p (S.id σ.store.allocated) ℓ a m b) D' page' σ.store.root key rid pc')
    (seps' : Ledger D'.due (Function.update (fun j => (σ.task j).due) i (Insert.due pc')))
    (prevs' : Ledger D'.prev (Function.update (fun j => (σ.task j).duePrev) i (Insert.duePrev pc')))
    (holds' : (Insert.holds pc').Sublist (p :: locked))
    (root' : locked ≠ [] → D'.root = D.root) (stored' : Insert.stored pc' = true)
    (binds' : ∀ k r, (F.split p (S.id σ.store.allocated) ℓ a m b).Binds page' k r ↔
      F.Binds σ.store.page k r ∨ (Task.insert key rid pc').effect = some (k, r)) :
    Inv S B ⟨⟨page', σ.store.root, σ.store.allocated + 1⟩,
      Function.update σ.task i (.insert key rid pc')⟩
      (F.split p (S.id σ.store.allocated) ℓ a m b) D' := by
  obtain ⟨hn0, hFn, hfree, -⟩ := h.fresh_page
  have hnodup : (p :: locked).Nodup := by
    have := h.nodup i
    rw [hi] at this
    exact hholds ▸ this
  have hpn : p ≠ S.id σ.store.allocated := by
    rintro hpn
    rw [hpn, hFn] at hp
    cases hp
  refine h.next hi tree' (h.fresh_succ hi fun q hq => hpage q (hholds ▸ hq)) own seps' prevs'
    (fun q hq => Or.inl (hholds ▸ holds'.subset hq)) (hnodup.sublist holds') (fun q => ?_)
    (fun q s hq => ?_) (fun j k r c q rest hji hj => ?_) (fun _ hd => ?_) id (fun _ => stored') binds'
  · by_cases hql : q ∈ p :: locked
    · exact Or.inr (Or.inl (hholds ▸ hql))
    · by_cases hqn : q = S.id σ.store.allocated
      · exact Or.inr (Or.inr (hqn ▸ hfree))
      · refine Or.inl ⟨Layout.split_of_ne ?_ hqn, hpage q hql hqn⟩
        rintro rfl
        exact hql (List.mem_cons_self ..)
  · have hqn : q ≠ S.id σ.store.allocated := by
      rintro rfl
      rw [hFn] at hq
      cases hq
    by_cases hqp : q = p
    · subst hqp
      obtain rfl : ⟨ℓ, a, b⟩ = s := by simpa [hp] using hq
      exact ⟨_, Layout.split_left hqn, rfl⟩
    · exact ⟨s, by rwa [Layout.split_of_ne hqp hqn], rfl⟩
  · obtain ⟨ℓ', a', b', hc, -⟩ := (h.ok hj).2
    refine Layout.split_of_ne (h.current_ne (i := i) hp ht (fun x hx => ?_) hji hj) ?_
    · rw [hi, Task.holds, hholds]
      exact List.mem_cons_of_mem _ (List.mem_of_mem_head? hx)
    · rintro rfl
      rw [hFn] at hc
      cases hc
  · cases locked with
    | nil =>
      obtain rfl : p = σ.store.root := ht
      exact Or.inr (hholds ▸ List.mem_cons_self ..)
    | cons q rest => exact Or.inl ⟨rfl, (root' (List.cons_ne_nil _ _)).trans hd⟩

omit [DecidableEq ι] in
/-- No `prev_page` is due in the right sibling of a leaf that can split: it would be due
to the split that made the leaf, whose separator is due above the leaf. -/
theorem prev_next (h : Inv S B σ F D) {l : BTreeLeafPage} {t : Option LPageId}
    (hp : F p = some ⟨0, a, b⟩) (hl : σ.store.page p = some (.leaf l))
    (ht : F.Above σ.store.root t p) (hdue : D.due t = none) : D.prev l.nextPage = none := by
  by_contra hne
  obtain ⟨n, hn⟩ := Option.ne_none_iff_exists'.1 hne
  obtain ⟨j, k, r, leaf, locked, sep, hj, a', b', hq⟩ := h.prev_span hn
  obtain ⟨-, ok⟩ := h.tree.leaf_level hp hl
  have hlt := (h.tree.bounds hp).1
  dsimp only at hlt
  obtain rfl : a' = b := by
    rcases ok.next with ⟨-, h0⟩ | ⟨hi', hc⟩
    · exact absurd h0 (h.tree.ne_zero hq)
    · exact (Layout.Covers.unique hq hc).1.symm
  -- the page due as `prev_page` is the leaf itself
  obtain ⟨lq, -, okq⟩ := h.tree.leaf hq
  have hnp : n = p := by
    have hprev := okq.prev
    rw [hn, Option.getD_some] at hprev
    rcases hprev with ⟨h0, -⟩ | ⟨lo', hc⟩
    · omega
    · exact h.tree.unique (k := a' - 1) hc.1 hp (by have := hc.2; omega) (by omega) (by omega)
        (by omega)
  subst hnp
  have hd : D.due locked.head? = some ⟨sep, n⟩ := h.seps.of_own (i := j) (by rw [hj]; rfl)
  cases locked with
  | nil =>
    -- its separator is due above the root, so it is on the top level
    obtain ⟨ℓ, htop, hle⟩ := h.tree.top (h.root_ne_zero (by rw [show D.root = _ from hd]; simp))
    rw [show D.root = _ from hd] at htop
    obtain rfl := Layout.Covers.level hp htop.2
    cases t with
    | none => rw [show D.due none = _ from hd] at hdue; cases hdue
    | some q =>
      obtain ⟨ℓ, _, _, _, _, _, -, hq', -⟩ := ht
      have := hle hq'
      dsimp only at this
      omega
  | cons x rest =>
    obtain ⟨-, -, ⟨c, d, hx, -⟩, -⟩ := (h.ok hj).2
    obtain ⟨i, -, oki⟩ := h.tree.inner hx
    have hf := oki.fenced
    rw [show D.sep x = _ from hd] at hf
    obtain ⟨c', d', hcov, hc, hd'⟩ := hf.covers (x := n) (fun _ _ _ h => h.lt)
      (mem_childrenOf.2 (Or.inr ⟨_, mem_insertBy.2 (Or.inl rfl), rfl⟩))
    obtain ⟨rfl, rfl⟩ := Layout.Covers.unique hp hcov
    obtain rfl := h.tree.above_unique hp ht hx hc hd'
    rw [show D.due (some x) = _ from hd] at hdue
    cases hdue

/-- `split_leaf` with its fresh page, and where it cuts the leaf. -/
theorem step_cutLeaf (h : Inv S B σ F D) {entries : List BTreeLeafEntry}
    {oldPrev oldNext : LPageId}
    (hi : σ.task i = .insert key rid (.splitLeafAlloc p locked entries oldPrev oldNext)) :
    ∃ a b m D', F p = some ⟨0, a, b⟩ ∧ a ≤ key ∧ key < b ∧ (σ.task i).cut = some (p, m) ∧
      Inv S B (σ.step S i) (F.split p (S.id σ.store.allocated) 0 a m b) D' := by
  obtain ⟨hk, a, b, l, hF, ha, hb, hl, hfull, habs, rfl, rfl, rfl, hA⟩ := h.ok hi
  obtain ⟨hn0, hFn, hfree, -⟩ := h.fresh_page
  have hheld : ∀ q ∈ p :: locked, q ∈ (σ.task i).holds := fun q hq => by rw [hi]; exact hq
  obtain ⟨ht, hdue, m, ws₁, page₁, hcut, hrun, rfl, tree₁, hcan, hpg₁, hnext, binds₁⟩ :=
    h.tree.splitLeafFinish hF ha hb hl hfull habs hA
      (fun q hq => h.sep_idle (by rw [hi]; rfl)
        (hheld q (List.mem_cons_of_mem _ (List.mem_of_mem_head? hq))))
      hFn hn0 (h.prev_eq_none hFn) rid
  have hpfree := h.prev_next hF hl ht hdue
  have hcut' : (σ.task i).cut = some (p, m) := by rw [hi]; exact hcut
  set n := S.id σ.store.allocated with hn
  set page₁ := writePages (Function.update σ.store.page n (some Page.zeroed)) ws₁ with hpage₁
  have hpg : ∀ q ∉ p :: locked, q ≠ n → page₁ q = σ.store.page q := fun q hq hqn =>
    hpg₁ q (fun hqp => hq (hqp ▸ List.mem_cons_self ..)) hqn
  have seps₁ : Ledger (D.split locked.head? m n l.nextPage).due (Function.update
      (fun j => (σ.task j).due) i (some (locked.head?, ⟨m, n⟩))) := by
    rw [Dues.split_due]
    exact h.seps.take (by rw [hi]; rfl) hdue
  by_cases h0 : l.nextPage = 0
  · -- no right sibling: on into the ancestors
    obtain ⟨ws, pc', D', hinto, tree', own, hDr, hDp, hpg', hsub, hst, hdp, hled, hbinds⟩ :=
      tree₁.intoAncestors (ι := ι) (e := ⟨m, n⟩) (seps₁.of_own (Function.update_self ..)) hcan rid
    have hstep : Insert.resume key rid (σ.store.newPage S).view n (.splitLeafAlloc p locked
        (insertBy BTreeLeafEntry.key (Insert.newEntry key rid) l.entries) l.prevPage l.nextPage) =
        ⟨ws₁ ++ ws, none, pc'⟩ := by
      refine hrun.trans ?_
      rw [if_pos h0]
      exact congrArg (Out.after _) hinto
    have hled' := hled _ i seps₁ (Function.update_self ..)
    rw [Function.update_idem] at hled'
    rw [Sys.step_newPage hi rfl hstep, writePages_append]
    refine ⟨a, b, m, _, hF, ha, hb, hcut', h.next_split hi hF rfl ht tree' (fun q hq hqn => ?_) own
      hled' ?_ (hsub.trans (List.sublist_cons_self ..)) (fun hne => ?_) hst fun k r => ?_⟩
    · rw [hpg' q fun hm => hq (List.mem_cons_of_mem _ hm)]
      exact hpg q hq hqn
    · rw [hdp, hDp, Dues.split, if_pos h0]
      exact h.prevs.idle (by rw [hi]; rfl)
    · rw [hDr, Dues.split_root, if_neg (by simpa using hne)]
    · refine (hbinds k r).trans ((binds₁ k r).trans ?_)
      simp [Task.effect, hst, eq_comm]
  · -- the right sibling is to be relinked first
    have hstep : Insert.resume key rid (σ.store.newPage S).view n (.splitLeafAlloc p locked
        (insertBy BTreeLeafEntry.key (Insert.newEntry key rid) l.entries) l.prevPage l.nextPage) =
        ⟨ws₁, none, .splitLeafSibling p locked n m l.nextPage⟩ :=
      hrun.trans (if_neg h0)
    obtain ⟨-, c, hc⟩ := hnext h0
    rw [Sys.step_newPage hi rfl hstep]
    refine ⟨a, b, m, _, hF, ha, hb, hcut', h.next_split hi hF rfl ht tree₁ hpg
      ⟨?_, ⟨b, c, hc⟩, hcan⟩ seps₁ ?_ (List.Sublist.refl _) (fun hne => ?_) rfl fun k r => ?_⟩
    · rw [Layout.split_left]
      · rintro ⟨⟩
      · rintro rfl
        exact hfree i (hheld _ (List.mem_cons_self ..))
    · rw [Dues.split, if_neg h0]
      exact h.prevs.take (by rw [hi]; rfl) hpfree
    · rw [Dues.split_root, if_neg (by simpa using hne)]
    · refine (binds₁ k r).trans ?_
      simp [Task.effect, Insert.stored, eq_comm]

/-- `split_leaf` with its fresh page. -/
theorem step_splitLeafAlloc (h : Inv S B σ F D) {entries : List BTreeLeafEntry}
    {oldPrev oldNext : LPageId}
    (hi : σ.task i = .insert key rid (.splitLeafAlloc p locked entries oldPrev oldNext)) :
    ∃ F' D', Inv S B (σ.step S i) F' D' ∧ F.Grows F' (σ.task i).cut := by
  obtain ⟨-, hFn, -, -⟩ := h.fresh_page
  obtain ⟨a, b, m, D', hF, -, -, hcut, h'⟩ := h.step_cutLeaf hi
  exact ⟨_, D', h', hcut ▸ Layout.grows_split hF hFn⟩

omit [DecidableEq ι] in
/-- The binding of an insert past its split is in the tree. -/
theorem binds_stored (h : Inv S B σ F D) (hi : σ.task i = .insert key rid pc)
    (hs : Insert.stored pc = true) : F.Binds σ.store.page key rid := by
  refine (h.binds key rid).2 (Or.inr ⟨i, ?_⟩)
  rw [hi, Task.effect, if_pos hs]

/-- `split_leaf` at the old right sibling. -/
theorem step_splitLeafSibling (h : Inv S B σ F D) {sep : ℕ} {oldNext : LPageId}
    (hi : σ.task i = .insert key rid (.splitLeafSibling p locked n sep oldNext))
    (hen : σ.Enabled i) : ∃ D', Inv S B (σ.step S i) F D' := by
  obtain ⟨hk, hleaf, ⟨a, b, ho⟩, hcan⟩ := h.ok hi
  obtain ⟨l, hl, -⟩ := h.tree.leaf ho
  have hfree : ∀ j, oldNext ∉ (σ.task j).holds := by
    unfold Sys.Enabled at hen
    rw [hi] at hen
    exact hen
  have hnl : ∀ q ∈ locked, q ≠ oldNext := by
    rintro q hq rfl
    refine hfree i ?_
    rw [hi]
    exact List.mem_cons_of_mem _ hq
  have hd : D.prev oldNext = some n := h.prevs.of_own (i := i) (by rw [hi]; rfl)
  have tree₁ := h.tree.settlePrev ho hl hd
  set page₁ := Function.update σ.store.page oldNext (some (.leaf (l.setPrevPage n))) with hpage₁
  have hpg₁ : ∀ q, q ≠ oldNext → page₁ q = σ.store.page q := fun q hq => by
    rw [hpage₁, Function.update_of_ne hq]
  set D₁ : Dues := { D with prev := Function.update D.prev oldNext none } with hD₁
  have hdue₁ : D₁.due = D.due := by
    funext t
    cases t <;> rfl
  have hown : (σ.task i).due = some (locked.head?, ⟨sep, n⟩) := by rw [hi]; rfl
  have seps₁ : Ledger D₁.due fun j => (σ.task j).due := hdue₁ ▸ h.seps
  have hcan₁ : CanTake F D₁ page₁ σ.store.root key 0 locked :=
    hcan.frame (fun q hq => ⟨rfl, hpg₁ q (hnl q hq)⟩) (fun _ _ hr hd => ⟨hr, hd⟩) id
  obtain ⟨ws, pc', D', hinto, tree', own, hDr, hDp, hpg', hsub, hst, hdp, hled, hb⟩ :=
    tree₁.intoAncestors (ι := ι) (e := ⟨sep, n⟩) (seps₁.of_own hown) hcan₁ rid
  have hstep : Insert.resume key rid σ.store.view 0 (.splitLeafSibling p locked n sep oldNext) =
      ⟨⟨oldNext, .leaf (l.setPrevPage n), true⟩ :: ws, none, pc'⟩ := by
    rw [Insert.resume, Insert.splitLeafSibling_eq hl]
    exact congrArg (Out.after _) hinto
  rw [Sys.step_resume hi nofun nofun hstep, writePages_cons]
  refine ⟨D', h.next hi tree' (fun m hm => ?_) own (hled _ i seps₁ hown) ?_ (fun q hq => ?_)
    (?_ : (Insert.holds pc').Nodup) (fun q => ?_) (fun q s hq => ⟨s, hq, rfl⟩)
    (fun _ _ _ _ _ _ _ _ => rfl) (fun _ hd => Or.inl ⟨rfl, hDr.trans hd⟩) id (fun _ => hst)
    fun k r => ?_⟩
  · have hm := h.fresh m hm
    refine (hpg' _ fun hml => ?_).trans ((hpg₁ _ ?_).trans hm)
    · exact h.held_exists (j := i) (by rw [hi]; exact List.mem_cons_of_mem _ hml) hm
    · rintro hmo
      rw [hmo, hl] at hm
      cases hm
  · rw [hdp, hDp]
    exact h.prevs.clear (by rw [hi]; rfl)
  · exact Or.inl (List.mem_cons_of_mem _ (hsub.subset hq))
  · have hnodup := h.nodup i
    rw [hi] at hnodup
    exact hnodup.sublist (hsub.trans (List.sublist_cons_self ..))
  · by_cases hql : q ∈ locked
    · exact Or.inr (Or.inl (List.mem_cons_of_mem _ hql))
    · by_cases hqo : q = oldNext
      · exact Or.inr (Or.inr (hqo ▸ hfree))
      · exact Or.inl ⟨rfl, (hpg' q hql).trans (hpg₁ q hqo)⟩
  · refine (hb k r).trans ((Layout.binds_congr (fun _ _ _ => Iff.rfl) fun q _ _ _ => ?_).trans
      (or_iff_left_of_imp fun he => ?_).symm)
    · by_cases hqo : q = oldNext
      · rw [hqo, hpage₁, Function.update_self, hl]
        rfl
      · rw [hpg₁ q hqo]
    · obtain ⟨rfl, rfl⟩ : key = k ∧ rid = r := by simpa [Task.effect, hst] using he
      exact h.binds_stored hi rfl

/-- `split_inner` with its fresh page. -/
theorem step_splitInnerAlloc (h : Inv S B σ F D) {sep : ℕ} {c : LPageId}
    {entries : List BTreeInnerEntry} {oldLeftmost : LPageId}
    (hi : σ.task i = .insert key rid (.splitInnerAlloc p locked sep c entries oldLeftmost)) :
    ∃ F' D', Inv S B (σ.step S i) F' D' ∧ F.Grows F' (σ.task i).cut := by
  obtain ⟨hk, ℓ, a, b, pg, hF, ha, hb, hpg, hfull, rfl, rfl, hA⟩ := h.ok hi
  obtain ⟨hn0, hFn, hfree, hsepn⟩ := h.fresh_page
  have hown : (σ.task i).due = some (some p, ⟨sep, c⟩) := by rw [hi]; rfl
  obtain ⟨ht, hdue, m, ws₁, page₁, hcut, hrun, rfl, tree₁, hcan, hpg₁, binds₁⟩ :=
    h.tree.splitInnerFinish hF ha hb hpg hfull (h.seps.of_own hown) hA
      (fun q hq => by
        by_contra hne
        obtain ⟨e, he⟩ := Option.ne_none_iff_exists'.1 hne
        have hql := List.mem_of_mem_head? hq
        have := h.sep_owner he (i := i) (by rw [hi]; exact List.mem_cons_of_mem _ hql)
        rw [hown] at this
        obtain ⟨rfl, -⟩ : p = q ∧ _ := by simpa using this
        exact (hA.ne hF hFn p hql).1 rfl)
      hFn hn0 hsepn
  have hcut' : (σ.task i).cut = some (p, m) := by rw [hi]; exact hcut
  set n := S.id σ.store.allocated with hn
  set page₁ := writePages (Function.update σ.store.page n (some Page.zeroed)) ws₁ with hpage₁
  set D₁ := (D.setDue (some p) none).setDue locked.head? (some ⟨m, n⟩) with hD₁
  have seps₁ : Ledger D₁.due (Function.update (fun j => (σ.task j).due) i
      (some (locked.head?, ⟨m, n⟩))) := by
    rw [hD₁, Dues.setDue_due, Dues.setDue_due]
    exact h.seps.move hown hdue
  obtain ⟨ws, pc', D', hinto, tree', own, hDr, hDp, hpg', hsub, hst, hdp', hled, hb⟩ :=
    tree₁.intoAncestors (ι := ι) (e := ⟨m, n⟩) (seps₁.of_own (Function.update_self ..)) hcan rid
  have hstep : Insert.resume key rid (σ.store.newPage S).view n (.splitInnerAlloc p locked sep c
      (insertBy BTreeInnerEntry.separatorKey ⟨sep, c⟩ pg.entries) pg.leftmostChild) =
      ⟨ws₁ ++ ws, none, pc'⟩ := by
    refine hrun.trans ?_
    exact congrArg (Out.after _) hinto
  have hled' := hled _ i seps₁ (Function.update_self ..)
  rw [Function.update_idem] at hled'
  rw [Sys.step_newPage hi rfl hstep, writePages_append]
  refine ⟨_, _, h.next_split hi hF rfl ht tree' (fun q hq hqn => ?_) own hled' ?_
    (hsub.trans (List.sublist_cons_self ..)) (fun hne => ?_) hst fun k r => ?_,
    hcut' ▸ Layout.grows_split hF hFn⟩
  · rw [hpg' q fun hm => hq (List.mem_cons_of_mem _ hm)]
    exact hpg₁ q (fun hqp => hq (hqp ▸ List.mem_cons_self ..)) hqn
  · rw [hdp', hDp, hD₁, Dues.setDue_prev, Dues.setDue_prev]
    exact h.prevs.idle (by rw [hi]; rfl)
  · rw [hDr, hD₁, Dues.setDue_root, if_neg (by simpa using hne), Dues.setDue_root, if_neg nofun]
  · refine (hb k r).trans ((binds₁ k r).trans (or_iff_left_of_imp fun he => ?_).symm)
    obtain ⟨rfl, rfl⟩ : key = k ∧ rid = r := by simpa [Task.effect, hst] using he
    exact h.binds_stored hi rfl

/-- `alloc_and_set_root` with its fresh page. -/
theorem step_newRootAlloc (h : Inv S B σ F D) {sep : ℕ} {c : LPageId}
    (hi : σ.task i = .insert key rid (.newRootAlloc sep c)) : Inv S B (σ.step S i) F D := by
  obtain ⟨hn0, hFn, hfree, -⟩ := h.fresh_page
  have h0 := (h.ok hi).2
  have hpage : ∀ q, q ≠ S.id σ.store.allocated → Function.update σ.store.page
      (S.id σ.store.allocated) (some Page.zeroed) q = σ.store.page q :=
    fun q hq => Function.update_of_ne hq ..
  have hdue : Insert.due (.newRootHeader (S.id σ.store.allocated) sep c) = (σ.task i).due := by
    rw [hi]
    rfl
  rw [Sys.step_newPage hi rfl rfl, writePages_nil]
  refine h.next hi (h.tree.update_outside hFn _) (h.fresh_succ hi fun q _ => hpage q)
    ⟨h0, hFn, hn0, by simp⟩ ?_ (h.prevs.idle (by rw [hi]; rfl)) (fun p hp => ?_)
    (List.pairwise_singleton ..) (fun p => ?_) (fun p s hp => ⟨s, hp, rfl⟩)
    (fun _ _ _ _ _ _ _ _ => rfl) (fun _ hd => Or.inl ⟨rfl, hd⟩) id (fun _ => rfl) fun k r => ?_
  · rw [hdue, Function.update_eq_self]
    exact h.seps
  · obtain rfl := List.mem_singleton.1 hp
    exact Or.inr hfree
  · by_cases hp : p = S.id σ.store.allocated
    · exact Or.inr (Or.inr (hp ▸ hfree))
    · exact Or.inl ⟨rfl, hpage p hp⟩
  · refine (Layout.binds_congr (fun _ _ _ => Iff.rfl) fun q _ _ hq => ?_).trans
      (or_iff_left_of_imp fun he => ?_).symm
    · exact congrArg leafEntries (hpage q (by rintro rfl; rw [hFn] at hq; cases hq))
    · obtain ⟨rfl, rfl⟩ : key = k ∧ rid = r := by simpa [Task.effect, Insert.stored] using he
      exact h.binds_stored hi rfl

/-- `alloc_and_set_root` at the file header. -/
theorem step_newRootHeader (h : Inv S B σ F D) {sep : ℕ} {c : LPageId}
    (hi : σ.task i = .insert key rid (.newRootHeader n sep c)) :
    ∃ F' D', Inv S B (σ.step S i) F' D' ∧ F.Grows F' (σ.task i).cut := by
  obtain ⟨hk, h0, hFn, hn0, hpn⟩ := h.ok hi
  have hown : (σ.task i).due = some (none, ⟨sep, c⟩) := by rw [hi]; rfl
  have hd : D.root = some ⟨sep, c⟩ := h.seps.of_own hown
  have hheld : n ∈ (σ.task i).holds := by rw [hi]; exact List.mem_singleton_self n
  have hsepn : D.sep n = none := by
    by_contra hne
    obtain ⟨e, he⟩ := Option.ne_none_iff_exists'.1 hne
    have := h.sep_owner he hheld
    rw [hown] at this
    cases this
  obtain ⟨ℓ, tree', hb⟩ := h.tree.newRoot h0 hd hFn hn0 hsepn
  rw [Sys.step_resume hi nofun nofun Insert.newRootFinish_eq, writePages_cons, writePages_nil]
  refine ⟨_, _, h.next hi tree' (fun m hm => ?_) trivial ?_ ?_ nofun List.nodup_nil (fun p => ?_)
    (fun p s hp => ⟨s, ?_, rfl⟩) (fun j k r x q rest _ hj => ?_) (fun _ hd' => ?_) (fun _ => hn0)
    (fun _ => rfl) fun k r => ?_, Layout.grows_add hFn⟩
  · have hfresh := h.fresh m hm
    refine (Function.update_of_ne ?_ ..).trans hfresh
    rintro rfl
    exact hpn hfresh
  · rw [Dues.setDue_due]
    exact h.seps.clear hown
  · rw [Dues.setDue_prev]
    exact h.prevs.idle (by rw [hi]; rfl)
  · by_cases hp : p = n
    · exact Or.inr (Or.inl (hp ▸ List.mem_singleton_self n))
    · exact Or.inl ⟨Layout.add_of_ne hp, Function.update_of_ne hp ..⟩
  · rwa [Layout.add_of_ne]
    rintro rfl
    rw [hFn] at hp
    cases hp
  · obtain ⟨ℓ', a, b, hx, -⟩ := (h.ok hj).2
    refine Layout.add_of_ne ?_
    rintro rfl
    rw [hFn] at hx
    cases hx
  · rw [hd] at hd'
    cases hd'
  · refine (hb k r).trans (or_iff_left_of_imp fun he => ?_).symm
    obtain ⟨rfl, rfl⟩ : key = k ∧ rid = r := by simpa [Task.effect, Insert.stored] using he
    exact h.binds_stored hi rfl

/-- A step of a `get` changes nothing. -/
theorem step_get (h : Inv S B σ F D) {pc : GetPc} (hi : σ.task i = .get key pc) :
    Inv S B (σ.step S i) F D := by
  rw [Sys.step_get hi]
  set pc' := Get.resume key σ.store.view pc
  have hkeep : ∀ {γ : Type} (f : Task → γ), f (.get key pc) = f (.get key pc') → ∀ j,
      f (Function.update σ.task i (.get key pc') j) = f (σ.task j) := by
    intro γ f hf j
    by_cases hji : j = i
    · subst hji
      rw [Function.update_self, hi, hf]
    · rw [Function.update_of_ne hji]
  have hdue := hkeep Task.due rfl
  have hprev := hkeep Task.duePrev rfl
  have hholds := hkeep Task.holds rfl
  have heffect := hkeep Task.effect rfl
  refine ⟨h.tree, h.fresh, fun {j k r pcj} hj => h.ok (i := j) ?_, ?_, ?_, fun j => ?_, fun {j k p} => ?_,
    fun k r => ?_⟩
  · by_cases hji : j = i
    · subst hji
      simp at hj
    · simpa [hji] using hj
  · exact (funext hdue : (fun j => _) = _) ▸ h.seps
  · exact (funext hprev : (fun j => _) = _) ▸ h.prevs
  · exact hholds j ▸ h.nodup j
  · simp only [hholds]
    exact h.apart
  · simp only [heffect]
    exact h.binds k r

/-- **Every step on a current root keeps the invariant**, and cuts no page but the one the
task was about to split. -/
theorem step (h : Inv S B σ F D) (hen : σ.Enabled i) (hr : RootCurrent σ i) :
    ∃ F' D', Inv S B (σ.step S i) F' D' ∧ F.Grows F' (σ.task i).cut := by
  cases hi : σ.task i with
  | get key pc => exact ⟨F, D, h.step_get hi, .refl⟩
  | insert key rid pc =>
    rw [← hi]
    cases pc with
    | start => exact ⟨F, D, h.step_start hi, .refl⟩
    | allocFirst => exact ⟨F, D, h.step_allocFirst hi, .refl⟩
    | setRoot n =>
      unfold RootCurrent at hr
      rw [hi] at hr
      obtain ⟨F', h'⟩ := h.step_setRoot hi hr
      exact ⟨F', D, h'⟩
    | findLeafForWrite c locked => exact ⟨F, D, h.step_findLeafForWrite hi hr hen, .refl⟩
    | splitLeafAlloc => exact h.step_splitLeafAlloc hi
    | splitLeafSibling =>
      obtain ⟨D', h'⟩ := h.step_splitLeafSibling hi hen
      exact ⟨F, D', h', .refl⟩
    | splitInnerAlloc => exact h.step_splitInnerAlloc hi
    | newRootAlloc => exact ⟨F, D, h.step_newRootAlloc hi, .refl⟩
    | newRootHeader => exact h.step_newRootHeader hi
    | done r =>
      unfold Sys.Enabled at hen
      rw [hi] at hen
      exact hen.elim

/-- **Every run on current roots keeps the invariant.** -/
theorem run (h : Inv S B σ F D) {σ' : Sys ι} (hrun : Sys.Run S RootCurrent σ σ') :
    ∃ F' D', Inv S B σ' F' D' := by
  induction hrun with
  | refl => exact ⟨F, D, h⟩
  | tail _ hlast ih =>
    obtain ⟨F₁, D₁, h₁⟩ := ih
    obtain ⟨i, hen, hr, rfl⟩ := hlast
    obtain ⟨F₂, D₂, h₂, -⟩ := h₁.step hen hr
    exact ⟨F₂, D₂, h₂⟩

end Inv

/-! ### The start and the end of a run -/

omit [DecidableEq ι] in
/-- The invariant holds before the first step. -/
theorem Inv.start (h : Tree F .settled σ.store.page σ.store.root)
    (hfresh : ∀ i, σ.store.allocated ≤ i → σ.store.page (S.id i) = none)
    (hstart : ∀ i, (∃ k r, k < keyBound ∧ σ.task i = .insert k r .start) ∨
      ∃ k, σ.task i = .get k .start) :
    Inv S (F.Binds σ.store.page) σ F .settled where
  tree := h
  fresh := hfresh
  ok {i k r pc} hi := by
    rcases hstart i with ⟨k', r', hk, hi'⟩ | ⟨k', hi'⟩
    · obtain ⟨rfl, rfl, rfl⟩ : k' = k ∧ r' = r ∧ .start = pc := by simpa [hi'] using hi
      exact ⟨hk, trivial⟩
    · rw [hi'] at hi
      cases hi
  seps := Lib.Ledger.nil (fun t => by cases t <;> rfl) fun i => by
    rcases hstart i with ⟨k, r, -, hi⟩ | ⟨k, hi⟩ <;> rw [hi] <;> rfl
  prevs := Lib.Ledger.nil (fun _ => rfl) fun i => by
    rcases hstart i with ⟨k, r, -, hi⟩ | ⟨k, hi⟩ <;> rw [hi] <;> rfl
  nodup i := by
    rcases hstart i with ⟨k, r, -, hi⟩ | ⟨k, hi⟩ <;> rw [hi] <;> exact List.nodup_nil
  apart {i j p} hi _ := by
    rcases hstart i with ⟨k, r, -, hi'⟩ | ⟨k, hi'⟩ <;> rw [hi'] at hi <;> cases hi
  binds k r := by
    refine (or_iff_left_of_imp ?_).symm
    rintro ⟨i, hi⟩
    rcases hstart i with ⟨k, r, -, hi'⟩ | ⟨k, hi'⟩ <;> rw [hi'] at hi <;> cases hi

/-- A task that has finished, and any `get`, owes nothing. -/
theorem Task.idle {t : Task} (h : ∀ k r pc, t = .insert k r pc → t.Done) :
    t.due = none ∧ t.duePrev = none := by
  cases t with
  | get k pc => exact ⟨rfl, rfl⟩
  | insert k r pc =>
    have hd := h k r pc rfl
    cases pc with
    | done r => exact ⟨rfl, rfl⟩
    | _ => cases hd

omit [DecidableEq ι] in
/-- When no task owes anything nothing is due. -/
theorem Inv.settled_of_idle (h : Inv S B σ F D)
    (hidle : ∀ i, (σ.task i).due = none ∧ (σ.task i).duePrev = none) : D = .settled := by
  have hdue : ∀ t, D.due t = none := by
    intro t
    by_contra hne
    obtain ⟨e, he⟩ := Option.ne_none_iff_exists'.1 hne
    obtain ⟨i, hi⟩ := (h.seps.entry t e).1 he
    rw [(hidle i).1] at hi
    cases hi
  have hprev : ∀ q, D.prev q = none := by
    intro q
    by_contra hne
    obtain ⟨n, hn⟩ := Option.ne_none_iff_exists'.1 hne
    obtain ⟨i, hi⟩ := (h.prevs.entry q n).1 hn
    rw [(hidle i).2] at hi
    cases hi
  exact Dues.ext (funext fun q => hdue (some q)) (hdue none) (funext hprev)

omit [DecidableEq ι] in
/-- **Once all inserts have finished the tree is at rest.** -/
theorem Inv.settled (h : Inv S B σ F D)
    (hdone : ∀ i k r pc, σ.task i = .insert k r pc → (σ.task i).Done) : D = .settled :=
  h.settled_of_idle fun i => Task.idle (hdone i)

end BTree
end Abdb
