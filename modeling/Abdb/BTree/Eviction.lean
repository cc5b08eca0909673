/-
# Index writes and evictions

While every unmarked write of an insert goes to a frame that is dirty already, whatever is
evicted or flushed in between, the pool serves what the operations would find in a store
that never forgets (`Session.Inv`).  So no insert that returned `Ok` is lost
(`writes_survive`).  Without that condition one is: an insert into a leaf with room changes
a clean frame and leaves it clean, and its eviction drops the entry (`insert_evicted`).
-/

import Abdb.BTree.Index
import Abdb.BTree.Marks
import Abdb.BTree.Session

namespace Abdb
namespace BTree

open Lib Relation

variable {S : PageSupply} {st st' st₀ : Store} {m : Bindings} {key : ℕ} {rid : RecordId}
  {σ σ' : Session} {loose : LPageId → Prop}

/-! ### A step over the pool is a step over the store -/

/-- The state a step of a machine starts from once what it waited for has arrived. -/
def Store.arrive {Pc : Type} (S : PageSupply) (M : Machine Pc) (st : Store) (pc : Pc) : Store :=
  if M.await pc = .newPage then st.newPage S else st

/-- The id `new_page` returns, if it is what a step waited for. -/
def Store.newId {Pc : Type} (S : PageSupply) (M : Machine Pc) (st : Store) (pc : Pc) : LPageId :=
  if M.await pc = .newPage then S.id st.allocated else 0

theorem Store.step_eq {Pc : Type} {M : Machine Pc} {pc : Pc} (h : M.await pc ≠ .nothing) :
    st.step S M pc =
      ((st.arrive S M pc).apply (M.resume (st.arrive S M pc).view (st.newId S M pc) pc),
        (M.resume (st.arrive S M pc).view (st.newId S M pc) pc).pc) := by
  unfold Store.step Store.arrive Store.newId
  split <;> simp_all

namespace Session

/-- The pool serves a store, but for clean frames on loose pages. -/
structure Serves (σ : Session) (loose : LPageId → Prop) (st : Store) : Prop where
  pages : σ.pages.Serves loose st.page
  header : σ.header.Serves (fun _ => False) fun _ => some st.root
  allocated : σ.allocated = st.allocated

theorem Serves.store (h : σ.Serves loose st) : σ.store = st := by
  unfold Session.store
  rw [h.pages.view, h.header.view, h.allocated]
  rfl

/-- The pages that are loose after a step: those that were, or the fresh one, and were not
written, and those written, never marked and not dirty before. -/
def LooseAfter (σ : Session) (loose : LPageId → Prop) (fresh : Option LPageId) (ws : List Write)
    (p : LPageId) : Prop :=
  ((loose p ∨ fresh = some p) ∧ ∀ w ∈ ws, w.id ≠ p) ∨
    σ.pages.isDirty p = false ∧ (∃ w ∈ ws, w.id = p) ∧ ∀ w ∈ ws, w.id = p → w.marked = false

/-- Putting the same writes into the pool and the store. -/
theorem Serves.apply {Pc : Type} (h : σ.Serves loose st) (o : Out Pc) :
    (σ.apply o).Serves (σ.LooseAfter loose none o.writes) (st.apply o) := by
  refine ⟨(serves_writeAll h.pages).mono fun p v _ hp => ?_, ?_, h.allocated⟩
  · exact hp.imp_left fun ⟨hl, hno⟩ => ⟨Or.inl hl, hno⟩
  · unfold Session.apply Store.apply
    dsimp only
    cases o.root with
    | none => exact h.header
    | some root =>
      have hwrite := h.header.write () root true
      constructor
      · rw [hwrite.view]
        funext u
        rfl
      · intro u r hu
        exact ((hwrite.clean u r hu).imp_left (by simp))

/-- **A step over a pool that serves a store** goes on as over the store, and the pool
serves the store after it. -/
theorem Serves.advance {Pc : Type} {M : Machine Pc} {pc : Pc} (h : σ.Serves loose st)
    (h0 : M.await pc ≠ .nothing) :
    (σ.advance S M pc).2 = (st.step S M pc).2 ∧
      (σ.advance S M pc).1.Serves (σ.LooseAfter loose
        (if M.await pc = .newPage then some (st.newId S M pc) else none)
        (M.resume (st.arrive S M pc).view (st.newId S M pc) pc).writes) (st.step S M pc).1 := by
  rw [Store.step_eq h0]
  unfold Session.advance Store.arrive Store.newId
  cases hw : M.await pc with
  | nothing => exact absurd hw h0
  | header =>
    have hload : Serves { σ with header := σ.header.load () } loose st :=
      ⟨h.pages, h.header.load (), h.allocated⟩
    have happly := hload.apply (M.resume st.view 0 pc)
    simp only [reduceCtorEq, if_false]
    rw [hload.store]
    exact ⟨rfl, happly⟩
  | page id mode =>
    have hload : Serves { σ with pages := σ.pages.load id } loose st :=
      ⟨h.pages.load id, h.header, h.allocated⟩
    have happly := hload.apply (M.resume st.view 0 pc)
    simp only [reduceCtorEq, if_false]
    rw [hload.store]
    refine ⟨rfl, ⟨happly.pages.mono fun p v _ hp => ?_, happly.header, happly.allocated⟩⟩
    unfold LooseAfter at hp ⊢
    dsimp only at hp
    rw [WriteBack.isDirty_load] at hp
    exact hp
  | newPage =>
    simp only [if_true]
    have hnew : Serves { σ with
        pages := σ.pages.write (S.id σ.allocated) Page.zeroed false
        allocated := σ.allocated + 1 }
        (fun p => loose p ∨ some (S.id st.allocated) = some p) (st.newPage S) := by
      have hwrite := h.pages.write (S.id σ.allocated) Page.zeroed false
      refine ⟨?_, h.header, congrArg (· + 1) h.allocated⟩
      rw [h.allocated] at hwrite ⊢
      refine hwrite.mono fun p v _ hp => ?_
      by_cases hpn : p = S.id st.allocated
      · exact Or.inr (congrArg some hpn.symm)
      · rw [if_neg hpn] at hp
        exact Or.inl hp
    have happly := hnew.apply (M.resume (st.newPage S).view (S.id st.allocated) pc)
    rw [hnew.store, h.allocated]
    rw [h.allocated] at happly
    refine ⟨rfl, ⟨happly.pages.mono fun p v _ hp => ?_, happly.header, happly.allocated⟩⟩
    unfold LooseAfter at hp ⊢
    dsimp only at hp
    rw [WriteBack.isDirty_write, Bool.and_false, Bool.or_false] at hp
    rcases hp with ⟨hl | hl, hno⟩ | hp
    · exact Or.inl ⟨hl, hno⟩
    · cases hl
    · exact Or.inr hp

end Session

/-- A step never takes an allocation back. -/
theorem Store.allocated_le {Pc : Type} {M : Machine Pc} {x y : Store × Pc}
    (h : ReflTransGen (fun x y => y = x.1.step S M x.2) x y) : x.1.allocated ≤ y.1.allocated := by
  induction h with
  | refl => exact le_rfl
  | tail _ hstep ih =>
    refine ih.trans ?_
    rw [hstep]
    unfold Store.step
    split
    · exact le_rfl
    · exact Nat.le_succ _
    · exact le_rfl

namespace Insert

/-- A zeroed page is neither a leaf nor a roomy ancestor. -/
theorem unmarked_newPage {p : LPageId} {pc : InsertPc}
    (h : p ∈ unmarked (st.newPage S).view key pc) : p ∈ unmarked st.view key pc := by
  have hpage : ∀ q, (st.newPage S).view.page q = st.view.page q ∨
      (st.newPage S).view.page q = some Page.zeroed := by
    intro q
    by_cases hq : q = S.id st.allocated
    · subst hq
      exact Or.inr (Function.update_self ..)
    · exact Or.inl (Function.update_of_ne hq ..)
  have hroomy : ∀ locked, p ∈ roomyParent (st.newPage S).view locked →
      p ∈ roomyParent st.view locked := by
    intro locked hp
    cases locked with
    | nil => cases hp
    | cons parent rest =>
      unfold roomyParent at hp ⊢
      dsimp only at hp ⊢
      rcases hpage parent with heq | heq <;> rw [heq] at hp
      · exact hp
      · cases hp
  cases pc with
  | findLeafForWrite current locked =>
    unfold unmarked at h ⊢
    dsimp only at h ⊢
    rcases hpage current with heq | heq <;> rw [heq] at h
    · exact h
    · cases h
  | splitLeafAlloc leaf locked entries oldPrev oldNext =>
    unfold unmarked at h ⊢
    rcases List.mem_cons.1 h with rfl | h
    · exact List.mem_cons_self ..
    · refine List.mem_cons_of_mem _ ?_
      split_ifs at h ⊢
      · exact hroomy _ h
      · cases h
  | splitLeafSibling leaf locked newLeaf sep oldNext => exact hroomy _ h
  | splitInnerAlloc parent locked sep child entries oldLeftmost =>
    unfold unmarked at h ⊢
    rcases List.mem_cons.1 h with rfl | h
    · exact List.mem_cons_self ..
    · exact List.mem_cons_of_mem _ (hroomy _ h)
  | _ => cases h

theorem await_eq_nothing {pc : InsertPc} : await pc = .nothing ↔ ∃ r, pc = .done r := by
  cases pc <;> simp [await]

end Insert

theorem Get.await_eq_nothing {pc : GetPc} : Get.await pc = .nothing ↔ ∃ r, pc = .done r := by
  cases pc <;> simp [Get.await]

/-! ### The invariant of a session -/

/-- The task has got from its start, on a store, to where it is on another; the root it is
about to put above the old one is a new page. -/
def Task.Since (S : PageSupply) (st₀ st : Store) : Task → Prop
  | .insert key rid pc =>
    key < keyBound ∧
      ReflTransGen (fun x y => y = x.1.step S (Insert.machine key rid) x.2) (st₀, .start) (st, pc) ∧
      ∀ p s c, pc = .newRootHeader p s c → st₀.page p = none
  | .get key pc =>
    key < keyBound ∧
      ReflTransGen (fun x y => y = x.1.step S (Get.machine key) x.2) (st₀, .start) (st, pc)

namespace Session

/-- The page is the new root of an insert that waits for the header. -/
def PendingRoot (σ : Session) (p : LPageId) : Prop :=
  ∃ key rid s c, σ.task = some (.insert key rid (.newRootHeader p s c))

/-- Every page an insert may change without marking it is dirty already. -/
def Covered (σ : Session) : Event → Prop
  | .step => ∀ key rid pc, σ.task = some (.insert key rid pc) →
      ∀ p ∈ Insert.unmarked σ.store.view key pc, σ.pages.isDirty p = true
  | _ => True

/-- The pool serves a store, which represents a map of what was inserted when no operation
is in progress, and which the operation in progress has come to from such a store. -/
structure Inv (S : PageSupply) (σ : Session) (st : Store) (m : Bindings) : Prop where
  serves : σ.Serves σ.PendingRoot st
  known : ∀ x ∈ σ.inserted, m.lookup x.1 = some x.2
  idle : σ.Idle → st.Represents S m
  answered : ∀ key res, σ.task = some (.get key (.done res)) →
    ∀ r, m.lookup key = some r → res = .ok r
  running : ∀ t, σ.task = some t → ¬ t.Done → ∃ st₀, st₀.Represents S m ∧ t.Since S st₀ st

/-- Nothing is loose where no insert waits with a new root. -/
theorem Serves.of_not_pending (h : σ.Serves loose st) (hl : ∀ p, ¬ loose p) (task : Option Task)
    (inserted : List (ℕ × RecordId)) :
    Serves { σ with task := task, inserted := inserted }
      { σ with task := task, inserted := inserted }.PendingRoot st :=
  ⟨h.pages.mono fun p _ _ hp => absurd hp (hl p), h.header, h.allocated⟩

theorem Idle.not_pending (h : σ.Idle) (p : LPageId) : ¬ σ.PendingRoot p := by
  rintro ⟨key, rid, s, c, ht⟩
  cases h _ ht

/-- **What is loose after a step of an insert** is the new root it goes on to wait with, or,
if the insert failed, a page that was not there when it started. -/
theorem Inv.looseAfter (h : Inv S σ st m) (hcov : σ.Covered .step) {pc : InsertPc}
    (ht : σ.task = some (.insert key rid pc)) (hrep : st₀.Represents S m)
    (hsince : (Task.insert key rid pc).Since S st₀ st) {p : LPageId}
    (hp : σ.LooseAfter σ.PendingRoot
      (if Insert.await pc = .newPage then some (st.newId S (Insert.machine key rid) pc) else none)
      (Insert.resume key rid (st.arrive S (Insert.machine key rid) pc).view
        (st.newId S (Insert.machine key rid) pc) pc).writes p) :
    (∃ s c, (st.step S (Insert.machine key rid) pc).2 = .newRootHeader p s c) ∨
      (st.step S (Insert.machine key rid) pc).2.Failed ∧ st₀.page p = none := by
  obtain ⟨hk, hsteps, hroot⟩ := hsince
  have hrun : ¬ Insert.await pc = .nothing := fun h0 => by
    obtain ⟨r, rfl⟩ := Insert.await_eq_nothing.1 h0
    rcases hp with ⟨⟨key', rid', s, c, ht'⟩ | hf, -⟩ | ⟨-, ⟨w, hw, -⟩, -⟩
    · rw [ht] at ht'
      cases ht'
    · cases hf
    · cases hw
  have hstep : (st.step S (Insert.machine key rid) pc).2 =
      (Insert.resume key rid (st.arrive S (Insert.machine key rid) pc).view
        (st.newId S (Insert.machine key rid) pc) pc).pc :=
    congrArg Prod.snd (Store.step_eq (M := Insert.machine key rid) hrun)
  -- an allocation is fresh for the store the insert started on
  have hfresh : Insert.await pc = .newPage →
      st₀.page (st.newId S (Insert.machine key rid) pc) = none := by
    intro hw
    obtain ⟨F, hrests, -⟩ := hrep
    unfold Store.newId
    rw [if_pos (show (Insert.machine key rid).await pc = .newPage from hw)]
    exact hrests.fresh _ (Store.allocated_le hsteps)
  rw [hstep]
  rcases hp with ⟨⟨key', rid', s, c, ht'⟩ | hf, hno⟩ | ⟨hd, ⟨w, hw, rfl⟩, hmarks⟩
  · -- the new root is written and marked
    rw [ht] at ht'
    cases ht'
    rcases Insert.resume_newRoot key rid with ⟨w, hw, hid, -⟩ | hfail
    · exact absurd hid (hno w hw)
    · exact Or.inr ⟨hfail, hroot p s c rfl⟩
  · -- so is the fresh page
    split_ifs at hf with hw
    obtain rfl : _ = p := Option.some.inj hf
    rcases Insert.resume_newPage hw with ⟨w, hmem, hid, -⟩ | ⟨s, c, hpc⟩ | hfail
    · exact absurd hid (hno w hmem)
    · exact Or.inl ⟨s, c, hpc⟩
    · exact Or.inr ⟨hfail, hfresh hw⟩
  · rcases Insert.resume_unmarked hw hmarks with hmem | ⟨hfail, ⟨hnew, hid⟩ | ⟨s, c, hpc⟩⟩
    · have hmem' : w.id ∈ Insert.unmarked σ.store.view key pc := by
        rw [h.serves.store]
        unfold Store.arrive at hmem
        split_ifs at hmem
        · exact Insert.unmarked_newPage hmem
        · exact hmem
      rw [hcov key rid pc ht w.id hmem'] at hd
      cases hd
    · exact Or.inr ⟨hfail, hid ▸ hfresh hnew⟩
    · exact Or.inr ⟨hfail, hroot w.id s c hpc⟩

/-- **A step of an insert keeps the invariant**; one that returns `Ok` adds the binding. -/
theorem Inv.step_insert (h : Inv S σ st m) (hcov : σ.Covered .step) {pc : InsertPc}
    (ht : σ.task = some (.insert key rid pc)) (h0 : Insert.await pc ≠ .nothing) :
    ∃ st' m', Inv S (σ.step S) st' m' := by
  obtain ⟨st₀, hrep, hsince⟩ := h.running _ ht h0
  have hloose := fun p => h.looseAfter (p := p) hcov ht hrep hsince
  obtain ⟨hk, hsteps, -⟩ := id hsince
  obtain ⟨hpc, hserves⟩ := h.serves.advance (M := Insert.machine key rid) (S := S) h0
  have hfire : σ.step S = { (σ.advance S (Insert.machine key rid) pc).1 with
      task := some (.insert key rid (st.step S (Insert.machine key rid) pc).2)
      inserted := if (st.step S (Insert.machine key rid) pc).2 = .done (.ok ()) then
        (key, rid) :: σ.inserted else σ.inserted } := by
    unfold Session.step
    rw [ht]
    dsimp only
    rw [hpc]
  have hsteps' := hsteps.tail (b := (st, pc)) (c := st.step S (Insert.machine key rid) pc) rfl
  obtain ⟨hpresent, habsent⟩ := hrep.insert (S := S) hk rid
  rw [hfire]
  rcases hy : st.step S (Insert.machine key rid) pc with ⟨st', pc'⟩
  rw [hy] at hloose hserves hsteps'
  dsimp only at hloose hserves ⊢
  have hreturns : ∀ r, pc' = .done r →
      Store.Returns S (Insert.machine key rid) st₀ .start st' (.done r) := by
    rintro r rfl
    exact ⟨rfl, hsteps'⟩
  by_cases hdone : ∃ r, pc' = .done r
  · obtain ⟨r, rfl⟩ := hdone
    have hret := hreturns r rfl
    by_cases hmem : key ∈ m
    · -- the key is present, and nothing has changed
      obtain ⟨e, -, he⟩ := hpresent hmem
      obtain ⟨rfl, hr⟩ := hret.unique he
      cases hr
      refine ⟨st', m, ⟨hserves.pages.mono fun p v hv hp => ?_, hserves.header, hserves.allocated⟩,
        ?_, fun _ => hrep, nofun, fun t ht hnd => ?_⟩
      · rcases hloose p hp with ⟨s, c, hpc'⟩ | ⟨-, hnone⟩
        · cases hpc'
        · have hview := congrFun hserves.pages.view p
          rw [WriteBack.view_of_frame hv, hnone] at hview
          cases hview
      · rw [if_neg (by simp)]
        exact h.known
      · cases ht
        exact absurd rfl hnd
    · obtain ⟨st'', hret', hrep'⟩ := habsent hmem
      obtain ⟨rfl, hr⟩ := hret.unique hret'
      cases hr
      refine ⟨st', m.insert key rid, ⟨hserves.pages.mono fun p v hv hp => ?_, hserves.header,
        hserves.allocated⟩, ?_, fun _ => hrep', nofun, fun t ht hnd => ?_⟩
      · rcases hloose p hp with ⟨s, c, hpc'⟩ | ⟨⟨e, he⟩, -⟩
        · cases hpc'
        · cases he
      · rw [if_pos rfl]
        intro x hx
        rcases List.mem_cons.1 hx with rfl | hx
        · exact Finmap.lookup_insert m
        · have hlook := h.known x hx
          rw [Finmap.lookup_insert_of_ne m, hlook]
          rintro rfl
          exact hmem (Finmap.mem_of_lookup_eq_some hlook)
      · cases ht
        exact absurd rfl hnd
  · have hnotOk : pc' ≠ .done (.ok ()) := fun heq => hdone ⟨_, heq⟩
    have hfresh : ∀ p s c, pc' = .newRootHeader p s c → st₀.page p = none := by
      intro p s c heq
      have heqn : st.step S (Insert.machine key rid) pc = _ := Store.step_eq h0
      have hstep := congrArg Prod.snd heqn
      rw [hy] at hstep
      dsimp only at hstep
      obtain ⟨hnew, rfl⟩ := Insert.eq_newId_of_newRootHeader (hstep.symm.trans heq)
      obtain ⟨F, hrests, -⟩ := hrep
      unfold Store.newId
      rw [if_pos (show (Insert.machine key rid).await pc = .newPage from hnew)]
      exact hrests.fresh _ (Store.allocated_le hsteps)
    refine ⟨st', m, ⟨hserves.pages.mono fun p v hv hp => ?_, hserves.header, hserves.allocated⟩,
      ?_, fun hidle => ?_, nofun, fun t ht _ => ?_⟩
    · rcases hloose p hp with ⟨s, c, hpc'⟩ | ⟨⟨e, he⟩, -⟩
      · exact ⟨key, rid, s, c, by rw [hpc']⟩
      · exact absurd ⟨_, he⟩ hdone
    · rw [if_neg hnotOk]
      exact h.known
    · exact absurd (Insert.await_eq_nothing.1 (hidle _ rfl)) hdone
    · cases ht
      exact ⟨st₀, hrep, hk, hsteps', hfresh⟩

/-- **A step of a get keeps the invariant**; one that returns answers as the map does. -/
theorem Inv.step_get (h : Inv S σ st m) {pc : GetPc} (ht : σ.task = some (.get key pc))
    (h0 : Get.await pc ≠ .nothing) : ∃ st' m', Inv S (σ.step S) st' m' := by
  obtain ⟨st₀, hrep, hk, hsteps⟩ := h.running _ ht h0
  obtain ⟨hpc, hserves⟩ := h.serves.advance (M := Get.machine key) (S := S) h0
  have hfire : σ.step S = { (σ.advance S (Get.machine key) pc).1 with
      task := some (.get key (Get.resume key st.view pc)) } := by
    unfold Session.step
    rw [ht]
    dsimp only
    rw [hpc, Get.step_eq]
  have hsteps' := hsteps.tail (b := (st, pc)) (c := st.step S (Get.machine key) pc) rfl
  rw [Get.step_eq] at hsteps' hserves
  have hserves' := hserves.of_not_pending (fun p hp => ?_)
    (some (.get key (Get.resume key st.view pc))) σ.inserted
  swap
  · rcases hp with ⟨⟨k, r, s, c, ht'⟩ | hf, -⟩ | ⟨-, ⟨w, hw, -⟩, -⟩
    · rw [ht] at ht'
      cases ht'
    · split_ifs at hf with hw
      cases pc <;> cases hw
    · cases hw
  have hinserted : (σ.advance S (Get.machine key) pc).1.inserted = σ.inserted := by
    unfold Session.advance
    split <;> rfl
  rw [hfire]
  have hrest : { (σ.advance S (Get.machine key) pc).1 with
      task := some (Task.get key (Get.resume key st.view pc)) } =
      { (σ.advance S (Get.machine key) pc).1 with
        task := some (Task.get key (Get.resume key st.view pc)), inserted := σ.inserted } := by
    rw [← hinserted]
  rw [hrest]
  have hst : ∀ res, Get.resume key st.view pc = .done res → st = st₀ ∧ res = m.answer key := by
    intro res hres
    rw [hres] at hsteps'
    obtain ⟨rfl, heq⟩ := Store.Returns.unique ⟨rfl, hsteps'⟩ (hrep.get (S := S) hk)
    exact ⟨rfl, by simpa using heq⟩
  refine ⟨st, m, hserves', h.known, fun hidle => ?_, fun k res heq r hlook => ?_,
    fun t heq hnd => ?_⟩
  · obtain ⟨res, hres⟩ := Get.await_eq_nothing.1 (hidle _ rfl)
    obtain ⟨rfl, -⟩ := hst res hres
    exact hrep
  · simp only [Option.some.injEq, Task.get.injEq] at heq
    obtain ⟨rfl, hres⟩ := heq
    obtain ⟨-, rfl⟩ := hst res hres
    rw [Bindings.answer, hlook]
  · cases heq
    exact ⟨st₀, hrep, hk, hsteps'⟩

/-- **Every event keeps the invariant.** -/
theorem Inv.fire (h : Inv S σ st m) {e : Event} (hallowed : σ.Allowed e) (hcov : σ.Covered e) :
    ∃ st' m', Inv S (σ.fire S e) st' m' := by
  cases e with
  | insert key rid =>
    have hrep := h.idle hallowed
    refine ⟨st, m, h.serves.of_not_pending (Idle.not_pending hallowed) _ σ.inserted, h.known,
      fun hidle => ?_, nofun, fun t ht _ => ?_⟩
    · cases hidle _ rfl
    · cases ht
      exact ⟨st, hrep, keyFromBytes_lt key, .refl, nofun⟩
  | get key =>
    have hrep := h.idle hallowed
    refine ⟨st, m, h.serves.of_not_pending (Idle.not_pending hallowed) _ σ.inserted, h.known,
      fun hidle => ?_, nofun, fun t ht _ => ?_⟩
    · cases hidle _ rfl
    · cases ht
      exact ⟨st, hrep, keyFromBytes_lt key, .refl⟩
  | step =>
    cases ht : σ.task with
    | none => exact absurd (fun t ht' => by rw [ht] at ht'; cases ht') hallowed
    | some t =>
      have hnd : ¬ t.Done := fun hd => hallowed fun t' ht' => by
        rw [ht] at ht'
        cases ht'
        exact hd
      cases t with
      | insert key rid pc => exact h.step_insert hcov ht hnd
      | get key pc => exact h.step_get ht hnd
  | flush =>
    exact ⟨st, m, ⟨h.serves.pages.flush, h.serves.header.flush, h.serves.allocated⟩, h.known, h.idle,
      h.answered, h.running⟩
  | evict id =>
    have hnot : ¬ σ.PendingRoot id := by
      rintro ⟨key, rid, s, c, ht⟩
      exact hallowed _ ht (List.mem_singleton.2 rfl)
    exact ⟨st, m, ⟨h.serves.pages.evict hnot, h.serves.header, h.serves.allocated⟩, h.known, h.idle,
      h.answered, h.running⟩
  | evictHeader =>
    exact ⟨st, m, ⟨h.serves.pages, h.serves.header.evict not_false, h.serves.allocated⟩, h.known,
      h.idle, h.answered, h.running⟩

/-- **Every run keeps the invariant** if each of its events is covered. -/
theorem Inv.run (h : Inv S σ st m) (hrun : Run S Covered σ σ') : ∃ st' m', Inv S σ' st' m' := by
  induction hrun with
  | refl => exact ⟨st, m, h⟩
  | tail _ hstep ih =>
    obtain ⟨st₁, m₁, h₁⟩ := ih
    obtain ⟨e, hallowed, hcov, rfl⟩ := hstep
    exact h₁.fire hallowed hcov

theorem Inv.opened (h : st.Represents S m) : Inv S (Session.opened st) st m :=
  ⟨⟨⟨rfl, nofun⟩, ⟨rfl, nofun⟩, rfl⟩, nofun, fun _ => h, nofun, nofun⟩

/-- Nothing an insert has changed can be lost: when it returns `Ok`, a frame that is not
marked dirty holds what the disk holds; and a get of a key that was inserted, in this
session or started now, returns its record. -/
def Survives (S : PageSupply) (σ : Session) : Prop :=
  (∀ key rid, σ.task = some (.insert key rid (.done (.ok ()))) →
    (∀ p v, σ.pages.frame p = some (v, false) → σ.pages.disk p = some v) ∧
    ∀ r, σ.header.frame () = some (r, false) → σ.header.disk () = some r) ∧
  ∀ x ∈ σ.inserted,
    (∀ res, σ.task = some (.get x.1 (.done res)) → res = .ok x.2) ∧
    (σ.Idle → σ.store.Returns S (Get.machine x.1) .start σ.store (.done (.ok x.2)))

end Session

/-- **Index writes survive evictions and flushes** in a run in which every page an insert
may change without marking it is dirty already. -/
theorem writes_survive {l : List (Call × Reply)} (htrace : Store.Trace S .empty l st)
    (hrun : Session.Run S Session.Covered (.opened st) σ) : σ.Survives S := by
  obtain ⟨-, hrep⟩ := Store.represents_empty.trace htrace
  obtain ⟨st', m, h⟩ := (Session.Inv.opened hrep).run hrun
  refine ⟨fun key rid ht => ⟨fun p v hv => ?_, fun r hr => ?_⟩, fun x hx => ⟨fun res ht => ?_,
    fun hidle => ?_⟩⟩
  · refine (h.serves.pages.clean p v hv).resolve_left ?_
    rintro ⟨key', rid', s, c, ht'⟩
    rw [ht] at ht'
    cases ht'
  · exact (h.serves.header.clean () r hr).resolve_left not_false
  · exact h.answered x.1 res ht x.2 (h.known x hx)
  · have hlook := h.known x hx
    have hrep' := h.idle hidle
    have hlt : x.1 < keyBound := by
      obtain ⟨F, hrests, hbinds⟩ := hrep'
      exact hrests.tree.lt_of_binds ((hbinds _ _).2 hlook)
    have hget := hrep'.get hlt
    rw [Bindings.answer, hlook] at hget
    rw [h.serves.store]
    exact hget

/-- The first insert leaves its leaf dirty, so the second may go unmarked. -/
theorem writes_survive_two : Session.Survives .count
    ([.insert [1] ⟨7, 0⟩, .step, .step, .step, .insert [2] ⟨7, 1⟩, .step, .step, .evict 1, .get [2],
      .step, .step, .step].foldl (Session.fire .count) (.opened .empty)) := by
  have hrun : ∀ σ : Session, ∀ t, σ.task = some t → ¬ t.Done → ¬ σ.Idle :=
    fun σ t ht hnd hidle => hnd (hidle t ht)
  have hdone : ∀ σ : Session, ∀ t, σ.task = some t → t.Done → σ.Idle := by
    intro σ t ht hd t' ht'
    rw [ht] at ht'
    cases ht'
    exact hd
  refine writes_survive (.nil _) (Session.Legal.run ⟨nofun, trivial, hrun _ _ rfl nofun, ?_,
    hrun _ _ rfl nofun, ?_, hrun _ _ rfl nofun, ?_, hdone _ _ rfl rfl, trivial, hrun _ _ rfl nofun, ?_,
    hrun _ _ rfl nofun, ?_, ?_, trivial, hdone _ _ rfl rfl, trivial, hrun _ _ rfl nofun, ?_,
    hrun _ _ rfl nofun, ?_, hrun _ _ rfl nofun, ?_, trivial⟩)
  · exact fun _ _ _ ht p hp => by cases ht; cases hp
  · exact fun _ _ _ ht p hp => by cases ht; cases hp
  · exact fun _ _ _ ht p hp => by cases ht; cases hp
  · exact fun _ _ _ ht p hp => by cases ht; cases hp
  · -- the leaf is dirty since the first insert
    intro _ _ _ ht p hp
    cases ht
    obtain rfl := List.mem_singleton.1 hp
    rfl
  · exact fun t ht => by cases ht; exact List.not_mem_nil
  · exact fun _ _ _ ht => by cases ht
  · exact fun _ _ _ ht => by cases ht
  · exact fun _ _ _ ht => by cases ht

/-- **An entry is evicted.**  The second insert changes the leaf that the flush has made
clean and does not mark it; the eviction drops the frame, and a get misses the key. -/
theorem insert_evicted : ¬ ∀ (S : PageSupply) (l : List (Call × Reply)) (st : Store) (σ : Session),
    Store.Trace S .empty l st → Session.Run S (fun _ _ => True) (.opened st) σ → σ.Survives S := by
  intro hall
  have hrun : ∀ σ : Session, ∀ t, σ.task = some t → ¬ t.Done → ¬ σ.Idle :=
    fun σ t ht hnd hidle => hnd (hidle t ht)
  have hdone : ∀ σ : Session, ∀ t, σ.task = some t → t.Done → σ.Idle := by
    intro σ t ht hd t' ht'
    rw [ht] at ht'
    cases ht'
    exact hd
  let σ := [Session.Event.insert [1] ⟨7, 0⟩, .step, .step, .step, .flush, .insert [2] ⟨7, 1⟩, .step,
    .step, .evict 1, .get [2], .step, .step, .step].foldl (Session.fire .count) (.opened .empty)
  have hlegal : Session.Run .count (fun _ _ => True) (.opened .empty) σ :=
    Session.Legal.run ⟨nofun, trivial, hrun _ _ rfl nofun, trivial, hrun _ _ rfl nofun, trivial,
      hrun _ _ rfl nofun, trivial, hdone _ _ rfl rfl, trivial, hdone _ _ rfl rfl, trivial,
      hrun _ _ rfl nofun, trivial, hrun _ _ rfl nofun, trivial,
      fun t ht => by cases ht; exact List.not_mem_nil, trivial, hdone _ _ rfl rfl, trivial,
      hrun _ _ rfl nofun, trivial, hrun _ _ rfl nofun, trivial, hrun _ _ rfl nofun, trivial, trivial⟩
  obtain ⟨-, hkeys⟩ := hall .count [] .empty σ (.nil _) hlegal
  have hmem : (2, ⟨7, 1⟩) ∈ σ.inserted := List.mem_cons_self ..
  cases (hkeys _ hmem).1 (.error .tupleNonExistent) rfl

end BTree
end Abdb
