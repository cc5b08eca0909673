/-
# Deletes among inserts and other deletes

Any number of inserts and deletes on one page store, taking turns at their await points.  A
delete awaits the page of its record id and has returned with its next step.  Nothing is
asked of the store but that a slot of one page holds a version: whatever the others do, that
slot goes on holding it, up to its XMAX (`Store.Stores`), so the first delete that returns
`Ok` sets an XMAX that stays, and all later ones fail on it (`delete_once`).
-/

import Abdb.Heap.Insert
import Abdb.Heap.Delete

namespace Abdb
namespace Heap

open Relation

/-- A page has the version in the slot of the record id. -/
def Store.Stores (st : Store) (rid : RecordId) (v : Version) : Prop :=
  ∃ p ts, st.page rid.pageId = some p ∧ p.Slotted ts ∧ ts[rid.slotId]? = some v.bytes

/-- A heap call in progress. -/
inductive Work
  | insert (txn : Txn) (tuple : List UInt8) (pc : InsertPc)
  /-- a delete that awaits the page of its record id -/
  | delete (txn : Txn) (rid : RecordId)
  | deleted (txn : Txn) (rid : RecordId) (result : Except Error Unit)

namespace Work

def txn : Work → Txn
  | .insert txn _ _ | .delete txn _ | .deleted txn _ _ => txn

/-- The pages whose write guards are alive at an await point. -/
def holds : Work → List LPageId
  | .insert _ _ pc => Insert.holds pc
  | _ => []

/-- A call goes on. -/
def step (newId : LPageId) (st : Store) : Work → Store × Work
  | .insert txn tuple pc =>
    let y := Insert.step txn tuple newId st pc
    (y.1, .insert txn tuple y.2)
  | .delete txn rid =>
    let y := Heap.delete st txn rid
    (st.put y.1, .deleted txn rid y.2)
  | .deleted txn rid result => (st, .deleted txn rid result)

/-- The pool refuses what the call awaits, and the call returns its error. -/
def refuse (e : Error) : Work → Work
  | .insert txn tuple _ => .insert txn tuple (.done (.error e))
  | .delete txn rid => .deleted txn rid (.error e)
  | .deleted txn rid result => .deleted txn rid result

@[simp] theorem txn_refuse (e : Error) (w : Work) : (w.refuse e).txn = w.txn := by
  cases w <;> rfl

end Work

/-- A store and the calls that work on it. -/
structure Calls (ι : Type) where
  store : Store
  work : ι → Work

namespace Calls

variable {ι : Type} [DecidableEq ι]

/-- The page is not latched. -/
def Free (σ : Calls ι) (p : LPageId) : Prop := ∀ j, p ∉ (σ.work j).holds

/-- A call can go on: it has not returned, the page it awaits is not latched, and the id is
fresh if it awaits a new page. -/
def Enabled (σ : Calls ι) (i : ι) (newId : LPageId) : Prop :=
  match σ.work i with
  | .insert _ _ pc =>
    match Insert.await pc with
    | .nothing => False
    | .page p _ => σ.Free p
    | .newPage => σ.store.Fresh newId
    | .header => True
  | .delete _ rid => σ.Free rid.pageId
  | .deleted .. => False

/-- Call `i` runs to its next await point. -/
def step (σ : Calls ι) (i : ι) (newId : LPageId) : Calls ι :=
  let y := (σ.work i).step newId σ.store
  ⟨y.1, Function.update σ.work i y.2⟩

/-- The pool refuses what call `i` awaits. -/
def refuse (σ : Calls ι) (i : ι) (e : Error) : Calls ι :=
  ⟨σ.store, Function.update σ.work i ((σ.work i).refuse e)⟩

/-- A call goes on, or the pool refuses what it awaits. -/
def Next (σ σ' : Calls ι) : Prop :=
  ∃ i newId, σ.Enabled i newId ∧ (σ' = σ.step i newId ∨ ∃ e, σ' = σ.refuse i e)

/-- A run, in any order of the calls. -/
def Run : Calls ι → Calls ι → Prop := ReflTransGen Next

/-- Call `i` is a delete of the record id that has returned `Ok`. -/
def Deleted (σ : Calls ι) (i : ι) (txn : Txn) (rid : RecordId) : Prop :=
  σ.work i = .deleted txn rid (.ok ())

/-- Call `i` is a delete of the record id that returns an error with its next step, and the
store stays as it is. -/
def Fails (σ : Calls ι) (i : ι) (txn : Txn) (rid : RecordId) : Prop :=
  ∃ e, ∀ newId, σ.step i newId = ⟨σ.store, Function.update σ.work i (.deleted txn rid (.error e))⟩

end Calls

variable {ι : Type} [DecidableEq ι] {σ σ' σ₀ : Calls ι} {i j : ι} {newId : LPageId} {st : Store}
  {txn txn' : Txn} {rid rid' : RecordId} {v w : Version} {tuple full : List UInt8} {pc : InsertPc}

/-! ### One step and a stored version -/

/-- A delete writes nothing but the page of its record id. -/
theorem delete_fst (st : Store) (txn : Txn) (rid : RecordId) :
    (delete st txn rid).1 = none ∨ ∃ p, (delete st txn rid).1 = some (rid.pageId, p) := by
  rw [delete]
  cases fetch st rid with
  | error e => exact Or.inl rfl
  | ok x =>
    dsimp only
    split_ifs
    · exact Or.inl rfl
    · exact Or.inr ⟨_, rfl⟩
    · exact Or.inl rfl

namespace Store.Stores

/-- Other pages do not matter. -/
theorem put (h : st.Stores rid v) {id : LPageId} (hne : id ≠ rid.pageId) (p : HeapPage) :
    (st.put (some (id, p))).Stores rid v := by
  obtain ⟨q, ts, hq, hts, hget⟩ := h
  exact ⟨q, ts, (Function.update_of_ne hne.symm ..).trans hq, hts, hget⟩

/-- A page that the store gets in the place of the version's. -/
theorem put_self {p : HeapPage} {ts : List (List UInt8)} (hts : p.Slotted ts)
    (hget : ts[rid.slotId]? = some v.bytes) : (st.put (some (rid.pageId, p))).Stores rid v :=
  ⟨p, ts, Function.update_self .., hts, hget⟩

/-- **A page of the list with the version** keeps it through an insert: the tuple is appended, or
nothing changes. -/
theorem onPage (h : st.Stores rid v) (full : List UInt8) (firstPage id : LPageId) :
    (st.apply (Insert.onPage st full firstPage id)).Stores rid v := by
  rw [Insert.onPage]
  cases hid : st.page id with
  | none => exact h
  | some q =>
    have hput : (st.put (some (id, (q.insert full).1))).Stores rid v := by
      by_cases hne : id = rid.pageId
      · subst hne
        obtain ⟨p, ts, hp, hts, hget⟩ := h
        obtain rfl : p = q := Option.some.inj (hp.symm.trans hid)
        by_cases hfits : HeapPage.Slotted.Fits p ts full
        · obtain ⟨p', heq, hslotted, -⟩ := hts.insert_fits hfits
          rw [heq]
          refine put_self hslotted ?_
          rw [List.getElem?_append_left (List.getElem?_eq_some_iff.1 hget).1, hget]
        · rw [hts.insert_noSpace hfits]
          exact put_self hts hget
      · exact h.put hne _
    dsimp only
    generalize q.insert full = y at hput ⊢
    obtain ⟨q', e | slotId⟩ := y
    · cases e <;> exact hput
    · exact hput

/-- **Every step of an insert keeps the version**: it writes to a page that has it, or to a new
one. -/
theorem insert (h : st.Stores rid v) (hfresh : Insert.await pc = .newPage → st.Fresh newId) :
    (Insert.step txn tuple newId st pc).1.Stores rid v := by
  cases pc with
  | start => exact h
  | walk firstPage current => exact h.onPage _ firstPage current
  | alloc firstPage =>
    have hne : newId ≠ rid.pageId := by
      rintro rfl
      obtain ⟨p, ts, hp, -⟩ := h
      exact Option.some_ne_none p (hp.symm.trans (hfresh rfl).2.2)
    have hnew := h.put hne HeapPage.zeroed
    change ((st.newPage newId).apply (Insert.onNewPage _ firstPage newId)).Stores rid v
    rw [Insert.onNewPage]
    generalize (HeapPage.zeroed.init.setNextPage firstPage).insert _ = y
    obtain ⟨q', e | slotId⟩ := y
    · cases e <;> exact hnew.put hne q'
    · exact hnew.put hne q'
  | link firstPage newPage slotId => exact h
  | done r => exact h

/-- **A delete of another record id keeps the version.** -/
theorem delete_of_ne (h : st.Stores rid v) (hne : rid' ≠ rid) :
    (st.put (Heap.delete st txn rid').1).Stores rid v := by
  by_cases hpage : rid'.pageId = rid.pageId
  · obtain ⟨p, ts, hp, hts, hget⟩ := id h
    have hslot : rid'.slotId ≠ rid.slotId := by
      intro hslot
      cases rid
      cases rid'
      simp_all
    by_cases hex : ∃ w : Version, ts[rid'.slotId]? = some w.bytes
    · obtain ⟨w, hw⟩ := hex
      obtain ⟨hok, hfail⟩ := delete_slotted (hpage ▸ hp) hts hw txn
      by_cases hdel : Deletable txn w
      · rw [hok hdel, hpage]
        refine put_self (slotted_writeXmax hts hw txn.id).1 ?_
        rw [List.getElem?_set_ne hslot, hget]
      · obtain ⟨e, he⟩ := hfail hdel
        rw [he]
        exact h
    · rw [Heap.delete, fetch_slotted_none (hpage ▸ hp) hts (not_exists.1 hex)]
      exact h
  · rcases delete_fst st txn rid' with heq | ⟨p, heq⟩ <;> rw [heq]
    · exact h
    · exact h.put hpage p

/-- **A delete of the version** sets its XMAX or fails with no change. -/
theorem delete (h : st.Stores rid v) (txn : Txn) :
    (Deletable txn v ∧ (Heap.delete st txn rid).2 = .ok () ∧
      (st.put (Heap.delete st txn rid).1).Stores rid { v with xmax := txn.id }) ∨
    (¬ Deletable txn v ∧ ∃ e, Heap.delete st txn rid = (none, .error e)) := by
  obtain ⟨p, ts, hp, hts, hget⟩ := h
  obtain ⟨hok, hfail⟩ := delete_slotted hp hts hget txn
  by_cases hdel : Deletable txn v
  · refine Or.inl ⟨hdel, by rw [hok hdel], ?_⟩
    rw [hok hdel]
    refine put_self (slotted_writeXmax hts hget txn.id).1 ?_
    rw [List.getElem?_set_self (List.getElem?_eq_some_iff.1 hget).1]
  · exact Or.inr ⟨hdel, hfail hdel⟩

end Store.Stores

/-! ### Runs -/

/-- The store has the version, up to the XMAX that a delete has set, and at most one delete
has. -/
structure Once (σ : Calls ι) (rid : RecordId) (v : Version) : Prop where
  ids : ∀ i, (σ.work i).txn.id ≠ 0
  stores : (∀ i txn, ¬ σ.Deleted i txn rid) → σ.store.Stores rid v
  deleted : ∀ i txn, σ.Deleted i txn rid →
    σ.store.Stores rid { v with xmax := txn.id } ∧ ∀ j txn', σ.Deleted j txn' rid → j = i

theorem Calls.deleted_update {st' : Store} {w' : Work} :
    Calls.Deleted ⟨st', Function.update σ.work i w'⟩ j txn rid ↔
      if j = i then w' = .deleted txn rid (.ok ()) else σ.Deleted j txn rid := by
  dsimp only [Calls.Deleted]
  rw [Function.update_apply]
  split_ifs <;> rfl

namespace Once

omit [DecidableEq ι] in
theorem start (hnone : ∀ i txn, ¬ σ.Deleted i txn rid) (hids : ∀ i, (σ.work i).txn.id ≠ 0)
    (h : σ.store.Stores rid v) : Once σ rid v :=
  ⟨hids, fun _ => h, fun i txn hi => absurd hi (hnone i txn)⟩

theorem ids_update (h : Once σ rid v) {w' : Work} (hid : w'.txn.id ≠ 0) (j : ι) :
    (Function.update σ.work i w' j).txn.id ≠ 0 := by
  rw [Function.update_apply]
  split_ifs
  · exact hid
  · exact h.ids j

/-- A step that keeps the version, in which no delete of it returns `Ok`. -/
theorem quiet (h : Once σ rid v) {st' : Store} {w' : Work} (hold : ∀ txn, ¬ σ.Deleted i txn rid)
    (hnew : ∀ txn, w' ≠ .deleted txn rid (.ok ())) (htxn : w'.txn = (σ.work i).txn)
    (hkept : ∀ u, σ.store.Stores rid u → st'.Stores rid u) :
    Once ⟨st', Function.update σ.work i w'⟩ rid v := by
  have hdeleted : ∀ j txn, Calls.Deleted ⟨st', Function.update σ.work i w'⟩ j txn rid ↔
      σ.Deleted j txn rid := by
    intro j txn
    rw [Calls.deleted_update]
    split_ifs with hj
    · subst hj
      exact iff_of_false (hnew txn) (hold txn)
    · rfl
  refine ⟨fun j => ?_, fun hnone => ?_, fun j txn hj => ?_⟩
  · exact h.ids_update (htxn ▸ h.ids i) j
  · exact hkept _ (h.stores fun j txn hj => hnone j txn ((hdeleted j txn).2 hj))
  · obtain ⟨hstores, honly⟩ := h.deleted j txn ((hdeleted j txn).1 hj)
    exact ⟨hkept _ hstores, fun k txn' hk => honly k txn' ((hdeleted k txn').1 hk)⟩

/-- **A delete of the version that has been deleted** fails. -/
theorem fails (h : Once σ rid v) (hi : σ.Deleted i txn rid) (hj : σ.work j = .delete txn' rid) :
    σ.Fails j txn' rid := by
  obtain ⟨hstores, -⟩ := h.deleted i txn hi
  have hid : txn.id ≠ 0 := by
    have := h.ids i
    rwa [hi] at this
  rcases hstores.delete txn' with ⟨⟨-, hzero⟩, -⟩ | ⟨-, e, he⟩
  · exact absurd hzero hid
  · refine ⟨e, fun newId => ?_⟩
    rw [Calls.step, hj]
    dsimp only [Work.step]
    rw [he]
    rfl

theorem step (h : Once σ rid v) (henabled : σ.Enabled i newId) : Once (σ.step i newId) rid v := by
  rw [Calls.Enabled] at henabled
  rw [Calls.step]
  have hids := h.ids i
  cases hwork : σ.work i with
  | insert txn tuple pc =>
    rw [hwork] at henabled
    refine h.quiet (fun txn' hi => ?_) nofun (by rw [hwork]; rfl) fun u hu => hu.insert fun hawait => ?_
    · exact nomatch hwork.symm.trans hi
    · dsimp only at henabled
      rwa [hawait] at henabled
  | deleted txn rid' result =>
    rw [hwork] at henabled
    exact henabled.elim
  | delete txn rid' =>
    rw [hwork] at hids
    have hold : ∀ txn', ¬ σ.Deleted i txn' rid := fun txn' hi => nomatch hwork.symm.trans hi
    dsimp only [Work.step]
    rcases eq_or_ne rid' rid with rfl | hne
    · by_cases hnone : ∀ j txn', ¬ σ.Deleted j txn' rid'
      · rcases (h.stores hnone).delete txn with ⟨-, hok, hstores⟩ | ⟨-, e, he⟩
        · have hone : ∀ j txn', Calls.Deleted ⟨σ.store.put (Heap.delete σ.store txn rid').1,
              Function.update σ.work i (.deleted txn rid' (.ok ()))⟩ j txn' rid' →
                j = i ∧ txn' = txn := by
            intro j txn' hj
            rw [Calls.deleted_update] at hj
            split_ifs at hj with hji
            · cases hj
              exact ⟨hji, rfl⟩
            · exact absurd hj (hnone j txn')
          have hid : (Work.deleted txn rid' (.ok ())).txn.id ≠ 0 := hids
          rw [hok]
          refine ⟨h.ids_update hid, fun hno => ?_, fun j txn' hj => ?_⟩
          · exact absurd (Calls.deleted_update.2 (by rw [if_pos rfl])) (hno i txn)
          · obtain ⟨rfl, rfl⟩ := hone j txn' hj
            exact ⟨hstores, fun k txn' hk => (hone k txn' hk).1⟩
        · rw [he]
          exact h.quiet hold nofun (by rw [hwork]; rfl) fun u hu => hu
      · obtain ⟨j, txn', hj⟩ : ∃ j txn', σ.Deleted j txn' rid' := by
          by_contra hno
          exact hnone fun j txn' hj => hno ⟨j, txn', hj⟩
        obtain ⟨e, he⟩ := h.fails hj hwork
        have hstep := he newId
        rw [Calls.step, hwork] at hstep
        dsimp only [Work.step] at hstep
        rw [hstep]
        exact h.quiet hold nofun (by rw [hwork]; rfl) fun u hu => hu
    · refine h.quiet hold (fun txn' heq => hne ?_) (by rw [hwork]; rfl) fun u hu => hu.delete_of_ne hne
      injection heq

theorem refuse (h : Once σ rid v) {e : Error} (henabled : σ.Enabled i newId) :
    Once (σ.refuse i e) rid v := by
  refine h.quiet (fun txn hi => ?_) (fun txn heq => ?_) (Work.txn_refuse e _) fun u hu => hu
  · rw [Calls.Enabled, hi] at henabled
    exact henabled
  · cases hwork : σ.work i with
    | insert txn tuple pc => exact nomatch hwork ▸ heq
    | delete txn rid' => exact nomatch hwork ▸ heq
    | deleted txn rid' result =>
      rw [Calls.Enabled, hwork] at henabled
      exact henabled

/-- **What a run keeps.** -/
theorem run (h : Once σ rid v) (hrun : σ.Run σ') : Once σ' rid v := by
  induction hrun with
  | refl => exact h
  | tail _ hnext ih =>
    obtain ⟨i, newId, henabled, rfl | ⟨e, rfl⟩⟩ := hnext
    · exact ih.step henabled
    · exact ih.refuse henabled

end Once

/-- A call that has returned stays so. -/
theorem Calls.Deleted.run (h : σ.Deleted i txn rid) (hrun : σ.Run σ') : σ'.Deleted i txn rid := by
  induction hrun with
  | refl => exact h
  | tail _ hnext ih =>
    obtain ⟨j, newId, henabled, hnext⟩ := hnext
    have hne : i ≠ j := by
      rintro rfl
      rw [Calls.Enabled, ih] at henabled
      exact henabled
    rcases hnext with rfl | ⟨e, rfl⟩
    · exact (Function.update_of_ne hne ..).trans ih
    · exact (Function.update_of_ne hne ..).trans ih

/-- A delete that returns an error leaves the store as it is. -/
theorem delete_error {e : Error} (h : (delete st txn rid).2 = .error e) :
    st.put (delete st txn rid).1 = st := by
  rw [delete] at h ⊢
  cases hfetch : fetch st rid with
  | error e' => rfl
  | ok x =>
    rw [hfetch] at h
    dsimp only at h ⊢
    split_ifs at h ⊢
    · rfl
    · rfl

/-- **A stored tuple is deleted at most once**, whatever else is in progress. -/
theorem delete_once (hnone : ∀ i txn, ¬ σ₀.Deleted i txn rid) (hids : ∀ i, (σ₀.work i).txn.id ≠ 0)
    (hstored : σ₀.store.Stores rid v) (hrun : σ₀.Run σ) :
    (∀ i j txn txn', σ.Deleted i txn rid → σ.Deleted j txn' rid → i = j) ∧
    (∀ i txn, σ.Deleted i txn rid → ∀ σ', σ.Run σ' → σ'.Deleted i txn rid ∧
      σ'.store.Stores rid { v with xmax := txn.id } ∧
      (∀ j txn', σ'.work j = .delete txn' rid → σ'.Fails j txn' rid) ∧
      ∀ j txn' r, j ≠ i → σ'.work j = .deleted txn' rid r → ∃ e, r = .error e) ∧
    ∀ j newId txn' e, σ.work j = .delete txn' rid →
      (σ.step j newId).work j = .deleted txn' rid (.error e) → (σ.step j newId).store = σ.store := by
  have honce := (Once.start hnone hids hstored).run hrun
  refine ⟨fun i j txn txn' hi hj => ?_, fun i txn hi σ' hrun' => ?_, fun j newId txn' e hj herr => ?_⟩
  · exact ((honce.deleted i txn hi).2 j txn' hj).symm
  · have honce' := honce.run hrun'
    have hi' := hi.run hrun'
    obtain ⟨hstores, honly⟩ := honce'.deleted i txn hi'
    refine ⟨hi', hstores, fun j txn' hj => honce'.fails hi' hj, fun j txn' r hne hj => ?_⟩
    cases r with
    | error e => exact ⟨e, rfl⟩
    | ok u => exact absurd (honly j txn' hj) hne
  · rw [Calls.step, hj] at herr ⊢
    dsimp only [Work.step] at herr ⊢
    rw [Function.update_self] at herr
    injection herr with _ _ herr
    exact delete_error herr

/-- A tuple of transaction 1 alone on its page, and a delete by transaction 2 before one by
transaction 3. -/
theorem delete_once_two : ∃ σ₀ : Calls Bool, σ₀.store.Stores ⟨1, 0⟩ ⟨1, 0, [7]⟩ ∧
    σ₀.work true = .delete ⟨2, .snapshot⟩ ⟨1, 0⟩ ∧ σ₀.work false = .delete ⟨3, .readCommitted⟩ ⟨1, 0⟩ ∧
    (σ₀.step true 0).Deleted true ⟨2, .snapshot⟩ ⟨1, 0⟩ ∧
    (σ₀.step true 0).store.Stores ⟨1, 0⟩ ⟨1, 2, [7]⟩ ∧
    (σ₀.step true 0).Fails false ⟨3, .readCommitted⟩ ⟨1, 0⟩ := by
  obtain ⟨p, -, hslotted, -⟩ := Insert.onNewPage_eq ⟨1, .snapshot⟩ 1
    (by decide : ([7] : List UInt8).length ≤ maxTupleSize) (by decide : 0 < 2 ^ 32)
  obtain ⟨σ₀, hσ₀⟩ : ∃ σ₀ : Calls Bool, σ₀ = ⟨⟨fun _ => some p, 1⟩, fun b =>
    if b then .delete ⟨2, .snapshot⟩ ⟨1, 0⟩ else .delete ⟨3, .readCommitted⟩ ⟨1, 0⟩⟩ := ⟨_, rfl⟩
  have hstored : σ₀.store.Stores ⟨1, 0⟩ ⟨1, 0, [7]⟩ := by
    rw [hσ₀]
    exact ⟨p, _, rfl, hslotted, rfl⟩
  have hnone : ∀ i txn, ¬ σ₀.Deleted i txn ⟨1, 0⟩ := by
    rw [hσ₀]
    rintro (_ | _) <;> exact nofun
  have hids : ∀ i, (σ₀.work i).txn.id ≠ 0 := by
    rw [hσ₀]
    rintro (_ | _)
    · exact (by decide : (3 : TxnId) ≠ 0)
    · exact (by decide : (2 : TxnId) ≠ 0)
  have henabled : σ₀.Enabled true 0 := by
    rw [hσ₀]
    rintro (_ | _) <;> exact List.not_mem_nil
  have hdeleted : (σ₀.step true 0).Deleted true ⟨2, .snapshot⟩ ⟨1, 0⟩ := by
    rcases hstored.delete ⟨2, .snapshot⟩ with ⟨-, hok, -⟩ | ⟨hdel, -⟩
    · rw [hσ₀] at hok ⊢
      exact congrArg (Work.deleted ⟨2, .snapshot⟩ ⟨1, 0⟩) hok
    · exact absurd (by decide) hdel
  obtain ⟨-, hafter, -⟩ := delete_once hnone hids hstored
    (.single ⟨true, 0, henabled, Or.inl rfl⟩ : σ₀.Run (σ₀.step true 0))
  obtain ⟨-, hstores, hfails, -⟩ := hafter true _ hdeleted _ .refl
  have hpending : (σ₀.step true 0).work false = .delete ⟨3, .readCommitted⟩ ⟨1, 0⟩ := by
    rw [hσ₀]
    rfl
  exact ⟨σ₀, hstored, by rw [hσ₀]; rfl, by rw [hσ₀]; rfl, hdeleted, hstores, hfails false _ hpending⟩

end Heap
end Abdb
