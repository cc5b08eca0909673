/-
# No deadlock among inserts, lookups and scans

Whatever order the operations take turns in, the pages of the index keep places
(`Abdb.BTree.Places`) by which every insert waits only for pages after those it holds
(`LatchInv`).  Lookups and scans hold nothing.  So no operation waits for itself and no
operations wait for each other in a circle (`no_deadlock`), and as long as one of finitely
many is not over, one of them can go on (`some_goes_on`).

This needs no condition on the run: an insert that acts on an outdated root may lose keys
(`insert_lost`), but it takes its latches in the same order.
-/

import Mathlib.Data.Finite.Sum
import Abdb.BTree.ConcurrentGet
import Abdb.BTree.Places
import Abdb.BTree.Scanning
import Abdb.Lib.Waiting

namespace Abdb
namespace BTree

open Lib

variable {ι κ : Type} [DecidableEq ι] [DecidableEq κ] {S : PageSupply} {R R' : Places}
  {σ : Sys ι} {i : ι} {key : ℕ} {rid : RecordId} {pc : InsertPc}

/-- The places of the pages of a store, and of what its tasks are about. -/
structure LatchInv (S : PageSupply) (R : Places) (σ : Sys ι) : Prop where
  on : R.On σ.store.page
  root : σ.store.root ≠ 0 → ∃ x, R σ.store.root = some x
  fresh : ∀ m, σ.store.allocated ≤ m → σ.store.page (S.id m) = none
  ok : ∀ {i k r pc}, σ.task i = .insert k r pc → R.LatchOk σ.store.root pc
  /-- A page kept for a new root has no place yet, and no one else writes it. -/
  unplaced : ∀ {i k r pc n}, σ.task i = .insert k r pc → Places.reserved pc = some n →
    R n = none ∧ σ.store.page n = some .zeroed
  apart : ∀ {i j k r pc k' r' pc' n}, σ.task i = .insert k r pc → σ.task j = .insert k' r' pc' →
    Places.reserved pc = some n → Places.reserved pc' = some n → i = j

namespace LatchInv

omit [DecidableEq ι] in
/-- A page of the supply that is not allocated yet has no place. -/
theorem fresh_unplaced (h : LatchInv S R σ) {m : ℕ} (hm : σ.store.allocated ≤ m) :
    R (S.id m) = none := by
  by_contra hne
  obtain ⟨x, hx⟩ := Option.ne_none_iff_exists'.1 hne
  obtain ⟨pg, hpg, -⟩ := h.on _ x hx
  rw [h.fresh m hm] at hpg
  cases hpg

/-- A step of an insert: pages that were there change only by its writes, and a page that
gets a place is new or was kept for it. -/
theorem next (h : LatchInv S R σ) (hi : σ.task i = .insert key rid pc) {o : Out InsertPc}
    {page : LPageId → Option Page} {allocated : ℕ}
    (hgrows : R.Grows R') (hon : R'.On page)
    (hwrites : ∀ w ∈ o.writes, ∃ x, R' w.id = some x ∧ R'.Links x w.page)
    (hroot : ∀ r, o.root = some r → r ≠ 0 ∧ ∃ x, R' r = some x)
    (hpc : R'.LatchOk (o.root.getD σ.store.root) o.pc)
    (hfresh : ∀ m, allocated ≤ m → page (S.id m) = none)
    (hrest : ∀ p, page p = σ.store.page p ∨ σ.store.page p = none)
    (hplaced : ∀ p, R' p = R p ∨ σ.store.page p = none ∨ Places.reserved pc = some p)
    (hreserved : ∀ n, Places.reserved o.pc = some n →
      R' n = none ∧ page n = some .zeroed ∧ σ.store.page n = none) :
    LatchInv S R' ⟨⟨writePages page o.writes, o.root.getD σ.store.root, allocated⟩,
      Function.update σ.task i (.insert key rid o.pc)⟩ where
  on := hon.write hwrites
  root h0 := by
    cases hr : o.root with
    | none =>
      simp only [hr, Option.getD_none] at h0 ⊢
      obtain ⟨x, hx⟩ := h.root h0
      exact ⟨x, hgrows _ _ hx⟩
    | some r => exact (hroot r hr).2
  fresh m hm := by
    have hnone : R' (S.id m) = none := by
      by_contra hne
      obtain ⟨x, hx⟩ := Option.ne_none_iff_exists'.1 hne
      obtain ⟨pg, hpg, -⟩ := hon _ x hx
      rw [hfresh m hm] at hpg
      cases hpg
    exact (Places.writePages_of_unplaced hwrites hnone).trans (hfresh m hm)
  ok {j k r pcj} hj := by
    by_cases hji : j = i
    · subst hji
      obtain ⟨-, -, rfl⟩ : key = k ∧ rid = r ∧ o.pc = pcj := by simpa using hj
      exact hpc
    · refine (h.ok ((Function.update_of_ne hji ..).symm.trans hj)).mono hgrows fun h0 => ?_
      cases hr : o.root with
      | none => exact h0
      | some r => exact (hroot r hr).1
  unplaced {j k r pcj n} hj hn := by
    by_cases hji : j = i
    · subst hji
      obtain ⟨-, -, rfl⟩ : key = k ∧ rid = r ∧ o.pc = pcj := by simpa using hj
      obtain ⟨hR, hpage, -⟩ := hreserved n hn
      exact ⟨hR, (Places.writePages_of_unplaced hwrites hR).trans hpage⟩
    · replace hj : σ.task j = _ := (Function.update_of_ne hji ..).symm.trans hj
      obtain ⟨hR, hpage⟩ := h.unplaced hj hn
      have hR' : R' n = none := by
        rcases hplaced n with h' | h' | h'
        · exact h'.trans hR
        · rw [hpage] at h'
          cases h'
        · exact absurd (h.apart hj hi hn h') hji
      refine ⟨hR', (Places.writePages_of_unplaced hwrites hR').trans ?_⟩
      rcases hrest n with h' | h'
      · exact h'.trans hpage
      · rw [hpage] at h'
        cases h'
  apart {j l k r pcj k' r' pcl n} hj hl hn hn' := by
    -- a page kept since this step was not there before
    have hnew : ∀ {m k r pcm}, m ≠ i → σ.task m = .insert k r pcm →
        Places.reserved pcm = some n → Places.reserved o.pc ≠ some n := by
      intro m k r pcm _ hm hmn hon'
      have := (hreserved n hon').2.2
      rw [(h.unplaced hm hmn).2] at this
      cases this
    by_cases hji : j = i <;> by_cases hli : l = i
    · exact hji.trans hli.symm
    · subst hji
      obtain ⟨-, -, rfl⟩ : key = k ∧ rid = r ∧ o.pc = pcj := by simpa using hj
      exact absurd hn (hnew hli ((Function.update_of_ne hli ..).symm.trans hl) hn')
    · subst hli
      obtain ⟨-, -, rfl⟩ : key = k' ∧ rid = r' ∧ o.pc = pcl := by simpa using hl
      exact absurd hn' (hnew hji ((Function.update_of_ne hji ..).symm.trans hj) hn)
    · exact h.apart ((Function.update_of_ne hji ..).symm.trans hj)
        ((Function.update_of_ne hli ..).symm.trans hl) hn hn'

/-- A step to a page or the header, with every page at its place. -/
theorem step_resume (h : LatchInv S R σ) (hi : σ.task i = .insert key rid pc)
    (hn : Insert.await pc ≠ .newPage) (h0 : Insert.await pc ≠ .nothing)
    {o : Out InsertPc} (hres : Insert.resume key rid σ.store.view 0 pc = o)
    (hallows : R.Allows σ.store.root o) : LatchInv S R (σ.step S i) := by
  rw [Sys.step_resume hi hn h0 hres]
  refine h.next hi .refl h.on hallows.writes hallows.root hallows.pc h.fresh (fun p => Or.inl rfl)
    (fun p => Or.inl rfl) fun n hn => ?_
  rw [hallows.unreserved] at hn
  cases hn

omit [DecidableEq ι] in
/-- The zeroed page of an allocation has no place. -/
theorem on_newPage (h : LatchInv S R σ) : R.On (Function.update σ.store.page
    (S.id σ.store.allocated) (some Page.zeroed)) := by
  intro p x hx
  rw [Function.update_of_ne]
  · exact h.on p x hx
  · rintro rfl
    rw [h.fresh_unplaced le_rfl] at hx
    cases hx

omit [DecidableEq ι] in
theorem fresh_newPage (h : LatchInv S R σ) {pg : Option Page} :
    ∀ m, σ.store.allocated + 1 ≤ m → Function.update σ.store.page
      (S.id σ.store.allocated) pg (S.id m) = none := by
  intro m hm
  rw [Function.update_of_ne]
  · exact h.fresh m (by omega)
  · intro heq
    have := S.injective heq
    omega

omit [DecidableEq ι] in
theorem rest_newPage (h : LatchInv S R σ) {pg : Option Page} (p : LPageId) :
    Function.update σ.store.page (S.id σ.store.allocated) pg p = σ.store.page p ∨
      σ.store.page p = none := by
  by_cases hp : p = S.id σ.store.allocated
  · exact Or.inr (hp ▸ h.fresh _ le_rfl)
  · exact Or.inl (Function.update_of_ne hp ..)

/-- A step with a fresh page, which gets a place. -/
theorem step_newPage (h : LatchInv S R σ) (hi : σ.task i = .insert key rid pc)
    (hn : Insert.await pc = .newPage) {o : Out InsertPc}
    (hres : Insert.resume key rid (σ.store.newPage S).view (S.id σ.store.allocated) pc = o)
    (x : Place)
    (hallows : ∀ R' : Places, R.Grows R' → R' (S.id σ.store.allocated) = some x →
      R'.On (σ.store.newPage S).view.page → R'.Allows σ.store.root o) :
    ∃ R', LatchInv S R' (σ.step S i) := by
  have hnone := h.fresh_unplaced le_rfl
  have hon := h.on_newPage.place hnone (Function.update_self ..) x
  have hall := hallows _ (Places.grows_update hnone) (Function.update_self ..) hon
  rw [Sys.step_newPage hi hn hres]
  refine ⟨_, h.next hi (Places.grows_update hnone) hon hall.writes hall.root hall.pc
    h.fresh_newPage h.rest_newPage (fun p => ?_) fun n hn => ?_⟩
  · by_cases hp : p = S.id σ.store.allocated
    · exact Or.inr (Or.inl (hp ▸ h.fresh _ le_rfl))
    · exact Or.inl (Function.update_of_ne hp ..)
  · rw [hall.unreserved] at hn
    cases hn

/-- `alloc_page` of the first leaf. -/
theorem step_allocFirst (h : LatchInv S R σ) (hi : σ.task i = .insert key rid .allocFirst) :
    ∃ R', LatchInv S R' (σ.step S i) := by
  refine h.step_newPage hi rfl Insert.firstLeaf_eq ⟨0, 0⟩ fun R' _ hn _ => ?_
  refine ⟨fun w hw => ?_, nofun, ⟨S.ne_zero _, ⟨0, 0⟩, hn⟩, rfl⟩
  obtain rfl := List.mem_singleton.1 hw
  exact ⟨⟨0, 0⟩, hn, rfl, Or.inl rfl⟩

/-- `split_leaf` with its fresh page, placed midway between the old leaf and its right
sibling. -/
theorem step_splitLeafAlloc (h : LatchInv S R σ) {leaf : LPageId} {locked : List LPageId}
    {entries : List BTreeLeafEntry} {oldPrev oldNext : LPageId}
    (hi : σ.task i = .insert key rid (.splitLeafAlloc leaf locked entries oldPrev oldNext)) :
    ∃ R', LatchInv S R' (σ.step S i) := by
  obtain ⟨h0, x, hx, hx0, hright, habove⟩ := h.ok hi
  obtain ⟨pos, hpos, hright'⟩ : ∃ pos, x.pos < pos ∧ R.RightOf ⟨0, pos⟩ oldNext := by
    rcases hright with hright | ⟨z, hz, hz0, hxz⟩
    · exact ⟨x.pos + 1, lt_add_one _, Or.inl hright⟩
    · obtain ⟨pos, hxp, hpz⟩ := exists_between hxz
      exact ⟨pos, hxp, Or.inr ⟨z, hz, hz0, hpz⟩⟩
  exact h.step_newPage hi rfl rfl ⟨0, pos⟩ fun R' hR hn hon =>
    Insert.allows_splitLeafFinish hon h0 hn (hR _ _ hx) rfl hx0 hpos (hright'.mono hR)
      (habove.mono hR)

/-- `split_inner` with its fresh page, placed on the level of the old one. -/
theorem step_splitInnerAlloc (h : LatchInv S R σ) {parent c : LPageId} {locked : List LPageId}
    {sepKey : ℕ} {entries : List BTreeInnerEntry} {left : LPageId}
    (hi : σ.task i = .insert key rid (.splitInnerAlloc parent locked sepKey c entries left)) :
    ∃ R', LatchInv S R' (σ.step S i) := by
  obtain ⟨h0, x, hx, habove, -, hall⟩ := h.ok hi
  exact h.step_newPage hi rfl rfl ⟨x.level, 0⟩ fun R' hR hn hon =>
    Insert.allows_splitInnerFinish hon h0 hn (hR _ _ hx) rfl (habove.mono hR)
      fun d hd => (hall d hd).mono hR le_rfl

/-- `alloc_and_set_root` with its fresh page, which gets no place yet. -/
theorem step_newRootAlloc (h : LatchInv S R σ) {sepKey : ℕ} {c : LPageId}
    (hi : σ.task i = .insert key rid (.newRootAlloc sepKey c)) : LatchInv S R (σ.step S i) := by
  obtain ⟨h0, hc⟩ := h.ok hi
  rw [Sys.step_newPage hi rfl rfl]
  refine h.next (o := Out.goto (.newRootHeader (S.id σ.store.allocated) sepKey c)) hi .refl
    h.on_newPage nofun nofun ⟨h0, S.ne_zero _, hc⟩ h.fresh_newPage h.rest_newPage
    (fun p => Or.inl rfl) fun n hn => ?_
  obtain rfl : S.id σ.store.allocated = n := Option.some.inj hn
  exact ⟨h.fresh_unplaced le_rfl, Function.update_self .., h.fresh _ le_rfl⟩

/-- `alloc_and_set_root` at the file header: the new root is placed above the page the header
names and the new page beside it. -/
theorem step_newRootHeader (h : LatchInv S R σ) {sepKey : ℕ} {n c : LPageId}
    (hi : σ.task i = .insert key rid (.newRootHeader n sepKey c)) :
    ∃ R', LatchInv S R' (σ.step S i) := by
  obtain ⟨h0, hn0, y, hy⟩ := h.ok hi
  obtain ⟨z, hz⟩ := h.root h0
  obtain ⟨hnone, hzero⟩ := h.unplaced hi rfl
  have hgrows := Places.grows_update (x := ⟨max y.level z.level + 1, 0⟩) hnone
  have hall : Places.Allows _ σ.store.root (Insert.newRootFinish σ.store.view n sepKey c) :=
    Insert.allows_newRootFinish hn0 (Function.update_self n _ R)
      ⟨z, hgrows _ _ hz, Nat.lt_succ_of_le (le_max_right ..)⟩
      ⟨y, hgrows _ _ hy, Nat.lt_succ_of_le (le_max_left ..)⟩
  rw [Sys.step_resume hi nofun nofun rfl]
  refine ⟨_, h.next hi hgrows (h.on.place hnone hzero _) hall.writes hall.root hall.pc h.fresh
    (fun p => Or.inl rfl) (fun p => ?_) nofun⟩
  by_cases hp : p = n
  · exact Or.inr (Or.inr (hp ▸ rfl))
  · exact Or.inl (Function.update_of_ne hp ..)

/-- A step of a `get` changes nothing. -/
theorem step_get (h : LatchInv S R σ) {pc : GetPc} (hi : σ.task i = .get key pc) :
    LatchInv S R (σ.step S i) := by
  rw [Sys.step_get hi]
  have hinsert : ∀ {j k r pcj}, Function.update σ.task i (.get key (Get.resume key σ.store.view pc))
      j = .insert k r pcj → σ.task j = .insert k r pcj := by
    intro j k r pcj hj
    by_cases hji : j = i
    · subst hji
      simp at hj
    · exact (Function.update_of_ne hji ..).symm.trans hj
  exact ⟨h.on, h.root, h.fresh, fun hj => h.ok (hinsert hj), fun hj => h.unplaced (hinsert hj),
    fun hj hl => h.apart (hinsert hj) (hinsert hl)⟩

/-- **Every step keeps the places.** -/
theorem step (h : LatchInv S R σ) (hen : σ.Enabled i) : ∃ R', LatchInv S R' (σ.step S i) := by
  cases hi : σ.task i with
  | get key pc => exact ⟨R, h.step_get hi⟩
  | insert key rid pc =>
    have hok := h.ok hi
    cases pc with
    | start =>
      refine ⟨R, h.step_resume hi nofun nofun rfl (Places.allows_goto ?_ ?_)⟩
      · split_ifs with h0
        · trivial
        · obtain ⟨x, hx⟩ := h.root h0
          exact ⟨h0, x, hx, trivial⟩
      · split_ifs <;> rfl
    | allocFirst => exact h.step_allocFirst hi
    | setRoot n =>
      refine ⟨R, h.step_resume hi nofun nofun rfl ⟨nofun, fun r hr => ?_, trivial, rfl⟩⟩
      obtain rfl : n = r := Option.some.inj hr
      exact hok
    | findLeafForWrite c locked =>
      obtain ⟨h0, x, hx, habove⟩ := hok
      exact ⟨R, h.step_resume hi nofun nofun rfl
        (Insert.allows_findLeafForWrite h.on h0 hx habove)⟩
    | splitLeafAlloc => exact h.step_splitLeafAlloc hi
    | splitLeafSibling =>
      obtain ⟨h0, -, ho, hn, habove⟩ := hok
      exact ⟨R, h.step_resume hi nofun nofun rfl
        (Insert.allows_splitLeafSibling h.on h0 hn ho habove)⟩
    | splitInnerAlloc => exact h.step_splitInnerAlloc hi
    | newRootAlloc => exact ⟨R, h.step_newRootAlloc hi⟩
    | newRootHeader => exact h.step_newRootHeader hi
    | done r =>
      unfold Sys.Enabled at hen
      rw [hi] at hen
      exact hen.elim

end LatchInv

/-! ### The start of a run -/

/-- The places of the pages of a tree at rest: as high and as far right as their keys. -/
def Layout.places (F : Layout) : Places := fun p => (F p).map fun s => ⟨s.level, s.lo⟩

theorem Layout.places_eq {F : Layout} {p : LPageId} {ℓ lo hi : ℕ} (h : F p = some ⟨ℓ, lo, hi⟩) :
    F.places p = some ⟨ℓ, lo⟩ := by
  rw [places, h]
  rfl

theorem Tree.places_on {F : Layout} {page : LPageId → Option Page} {root : LPageId}
    (h : Tree F .settled page root) : F.places.On page := by
  intro p x hx
  obtain ⟨⟨ℓ, lo, hi⟩, hp, rfl⟩ := Option.map_eq_some_iff.1 hx
  cases ℓ with
  | zero =>
    obtain ⟨l, hl, ok⟩ := h.leaf hp
    refine ⟨_, hl, rfl, ?_⟩
    rcases ok.next with ⟨-, h0⟩ | ⟨hi', hnext⟩
    · exact Or.inl h0
    · exact Or.inr ⟨⟨0, hi⟩, Layout.places_eq hnext.1, rfl, Nat.cast_lt.2 (h.bounds hp).1⟩
  | succ ℓ =>
    obtain ⟨i, hi', -⟩ := h.inner hp
    refine ⟨_, hi', fun c hc => ?_⟩
    have hc' : c ∈ childPages (page p) := by rwa [hi']
    obtain ⟨ℓ', a, b, hℓ, hspan, -⟩ := h.span_of_child hp hc'
    exact ⟨⟨ℓ', a⟩, Layout.places_eq hspan, Nat.lt_of_succ_le (Nat.succ_inj.1 hℓ ▸ le_rfl)⟩

omit [DecidableEq ι] in
/-- The places of a tree at rest, before any insert has taken a step. -/
theorem LatchInv.start {F : Layout} (h : Tree F .settled σ.store.page σ.store.root)
    (hfresh : ∀ m, σ.store.allocated ≤ m → σ.store.page (S.id m) = none)
    (hstart : ∀ i k r pc, σ.task i = .insert k r pc → pc = .start) : LatchInv S F.places σ where
  on := h.places_on
  root h0 := by
    obtain ⟨ℓ, htop, -⟩ := h.top h0
    obtain ⟨b, hroot, -⟩ := htop.first fun _ _ _ h => h.lt
    exact ⟨_, Layout.places_eq hroot.1⟩
  fresh := hfresh
  ok hi := by
    obtain rfl := hstart _ _ _ _ hi
    trivial
  unplaced hi hn := by
    obtain rfl := hstart _ _ _ _ hi
    cases hn
  apart hi _ hn _ := by
    obtain rfl := hstart _ _ _ _ hi
    cases hn

namespace Site

variable {st : Store} {τ τ' : Site ι κ} {o : ι ⊕ κ}

/-- Inserts, lookups and scans on a store, none of which has taken a step. -/
structure Begins (st : Store) (τ : Site ι κ) : Prop where
  store : τ.sys.store = st
  task : ∀ i, (∃ key rid, τ.sys.task i = .insert (keyFromBytes key) rid .start) ∨
    ∃ key, τ.sys.task i = .get (keyFromBytes key) .start
  scan : ∀ j, ∃ lo hi : Option (List UInt8),
    τ.scan j = .opening (lo.map keyFromBytes) (hi.map keyFromBytes) .start

/-- An operation waits for a page that another one, or itself, has write latched.  Nobody
holds the latch of the file header, or the read latch of a page, while it waits. -/
def WaitsFor (τ : Site ι κ) : ι ⊕ κ → ι ⊕ κ → Prop :=
  Lib.WaitsFor τ.awaits fun o p => p ∈ τ.holds o

omit [DecidableEq ι] [DecidableEq κ] in
theorem Begins.latchInv (h : τ.Begins st) (hst : st.Valid S) : ∃ R, LatchInv S R τ.sys := by
  obtain ⟨F, tree, hfresh⟩ := hst
  obtain rfl := h.store
  refine ⟨F.places, .start tree hfresh fun i k r pc hi => ?_⟩
  rcases h.task i with ⟨key, rid, hi'⟩ | ⟨key, hi'⟩ <;> rw [hi'] at hi <;> cases hi
  rfl

/-- **Every run keeps the places.** -/
theorem Run.latchInv (hrun : Run S (fun _ _ => True) τ τ') (h : ∃ R, LatchInv S R τ.sys) :
    ∃ R, LatchInv S R τ'.sys := by
  induction hrun with
  | refl => exact h
  | tail _ hlast ih =>
    obtain ⟨R, hR⟩ := ih
    obtain ⟨o, hen, -, rfl⟩ := hlast
    cases o with
    | inl i => exact hR.step (enabled_inl.1 hen)
    | inr j => exact ⟨R, hR⟩

omit [DecidableEq ι] [DecidableEq κ] in
/-- What an operation awaits comes after what it holds. -/
theorem before_of_awaits (h : LatchInv S R τ.sys) (o : ι ⊕ κ) (p : LPageId)
    (hp : τ.awaits o = some p) (q : LPageId) (hq : q ∈ τ.holds o) : R.Before q p := by
  cases o with
  | inr j => cases hq
  | inl i =>
    unfold awaits at hp
    unfold holds at hq
    dsimp only at hp hq
    cases hi : τ.sys.task i with
    | get k pc =>
      rw [hi] at hq
      cases hq
    | insert k r pc =>
      rw [hi, Task.await] at hp
      rw [hi, Task.holds] at hq
      cases hw : Insert.await pc with
      | page p' m =>
        rw [hw] at hp
        obtain rfl : p' = p := Option.some.inj hp
        exact (h.ok hi).before hw hq
      | _ =>
        rw [hw] at hp
        cases hp

omit [DecidableEq ι] [DecidableEq κ] in
/-- An operation that is over holds nothing. -/
theorem Over.holds_eq_nil (h : τ.Over o) : τ.holds o = [] := by
  cases o with
  | inr j => rfl
  | inl i =>
    replace h : (τ.sys.task i).Done := h
    change (τ.sys.task i).holds = []
    cases hi : τ.sys.task i with
    | get k pc => rfl
    | insert k r pc =>
      rw [hi] at h
      cases pc with
      | done res => rfl
      | _ => cases h

end Site

open Site in
/-- **Inserts, lookups and scans cannot deadlock.**  In every state that any interleaving
reaches, no operation waits for a page it has latched itself, and none waits for another
that, over any number of others, waits for it. -/
theorem no_deadlock {st : Store} {τ τ' : Site ι κ} (hst : st.Valid S) (h : τ.Begins st)
    (hrun : Site.Run S (fun _ _ => True) τ τ') :
    (∀ o, ¬ τ'.WaitsFor o o) ∧ ∀ o, ¬ Relation.TransGen τ'.WaitsFor o o := by
  obtain ⟨R, hR⟩ := hrun.latchInv (h.latchInv hst)
  have hacyclic := WaitsFor.acyclic (before_of_awaits hR)
  exact ⟨fun o ho => hacyclic o (.single ho), hacyclic⟩

/-- An insert, a lookup and a scan on an index of one leaf, after each has read the root: the
insert and the scan are about to fetch the same page. -/
theorem no_deadlock_one :
    let τ : Site Bool Unit := ⟨⟨oneLeaf [⟨1, 7, 0⟩], fun
      | false => .insert (keyFromBytes [2]) ⟨7, 1⟩ .start
      | true => .get (keyFromBytes [1]) .start⟩, fun _ => .opening none none .start⟩
    let τ' := [.inl false, .inl true, .inr ()].foldl (Site.step .count) τ
    (∀ o, ¬ τ'.WaitsFor o o) ∧ ∀ o, ¬ Relation.TransGen τ'.WaitsFor o o := by
  intro τ τ'
  obtain ⟨hst, -⟩ := oneLeaf_tree [⟨1, 7, 0⟩] (List.pairwise_singleton ..)
    (by simp [keyBound]) (by simp)
  have hfree : ∀ {P : LPageId → Prop} (p), (none : Option LPageId) = some p → P p := by
    rintro _ _ ⟨⟩
  refine no_deadlock (τ := τ) hst ⟨rfl, ?_, fun _ => ⟨none, none, rfl⟩⟩ (Site.Legal.run
    ⟨⟨by rintro ⟨⟩, hfree⟩, trivial, ⟨by rintro ⟨⟩, hfree⟩, trivial, ⟨not_false, hfree⟩, trivial,
      trivial⟩)
  rintro (_ | _)
  · exact Or.inl ⟨[2], ⟨7, 1⟩, rfl⟩
  · exact Or.inr ⟨[1], rfl⟩

open Site in
/-- **Somebody can always go on**, as long as one of finitely many operations is not over. -/
theorem some_goes_on [Finite ι] [Finite κ] {st : Store} {τ τ' : Site ι κ} (hst : st.Valid S)
    (h : τ.Begins st) (hrun : Site.Run S (fun _ _ => True) τ τ') {o : ι ⊕ κ} (ho : ¬ τ'.Over o) :
    ∃ o', τ'.Enabled o' := by
  obtain ⟨R, hR⟩ := hrun.latchInv (h.latchInv hst)
  obtain ⟨b, hob, hfree⟩ := WaitsFor.exists_free
    (WaitsFor.acyclic (before_of_awaits hR)) o
  refine ⟨b, ?_, fun p hp o' ho' => hfree o' ⟨p, hp, ho'⟩⟩
  -- the last of the chain is not over: the one before it waits for a page it holds
  cases hob with
  | refl => exact ho
  | tail _ hcb =>
    obtain ⟨p, -, hheld⟩ := hcb
    intro hover
    rw [hover.holds_eq_nil] at hheld
    cases hheld

end BTree
end Abdb
