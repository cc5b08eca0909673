/-
# One task, its pool and the disk

Index operations of one task over a buffer pool that evicts and flushes.  The pool is a
write-back cache (`Lib.WriteBack`) over the pages, and another over the root pointer of
the file header.  A page is loaded when it is fetched; a write goes to its frame and sets
the dirty bit if the code calls `mark_dirty`; `new_page` gives a clean frame to a page the
disk has no bytes of.  Between two steps any page whose guard the running operation does
not hold may be evicted, and between two operations all dirty frames may be flushed.

Operations see the pages and the header through the pool, and run as on a `Store`.
-/

import Abdb.BTree.Concurrent
import Abdb.Lib.WriteBack

namespace Abdb
namespace BTree

open Lib

/-- Put the writes of a step into their frames. -/
def writeAll (c : WriteBack LPageId Page) (ws : List Write) : WriteBack LPageId Page :=
  ws.foldl (fun c w => c.write w.id w.page w.marked) c

/-- A pool, its disk, the operation in progress and the keys whose insert returned `Ok`. -/
structure Session where
  pages : WriteBack LPageId Page
  header : WriteBack Unit LPageId
  allocated : ℕ
  task : Option Task
  inserted : List (ℕ × RecordId)

namespace Session

/-- The store that the pool shows. -/
def store (σ : Session) : Store :=
  ⟨σ.pages.view, (σ.header.view ()).getD 0, σ.allocated⟩

/-- An index on the disk, and nothing in the pool. -/
def opened (st : Store) : Session :=
  ⟨⟨fun _ => none, st.page⟩, ⟨fun _ => none, fun _ => some st.root⟩, st.allocated, none, []⟩

/-- Put the writes of an outcome into the pool; the header is always marked. -/
def apply {Pc : Type} (σ : Session) (o : Out Pc) : Session :=
  { σ with
    pages := writeAll σ.pages o.writes
    header :=
      match o.root with
      | some root => σ.header.write () root true
      | none => σ.header }

/-- One step of an operation: what it waited for is fetched, and it runs to its next await
point. -/
def advance {Pc : Type} (S : PageSupply) (M : Machine Pc) (σ : Session) (pc : Pc) : Session × Pc :=
  match M.await pc with
  | .nothing => (σ, pc)
  | .header =>
    let σ' := { σ with header := σ.header.load () }
    let o := M.resume σ'.store.view 0 pc
    (σ'.apply o, o.pc)
  | .page id _ =>
    let σ' := { σ with pages := σ.pages.load id }
    let o := M.resume σ'.store.view 0 pc
    (σ'.apply o, o.pc)
  | .newPage =>
    let σ' := { σ with
      pages := σ.pages.write (S.id σ.allocated) Page.zeroed false
      allocated := σ.allocated + 1 }
    let o := M.resume σ'.store.view (S.id σ.allocated) pc
    (σ'.apply o, o.pc)

/-- The task runs to its next await point. -/
def step (S : PageSupply) (σ : Session) : Session :=
  match σ.task with
  | none => σ
  | some (.insert key rid pc) =>
    let x := σ.advance S (Insert.machine key rid) pc
    { x.1 with
      task := some (.insert key rid x.2)
      inserted := if x.2 = .done (.ok ()) then (key, rid) :: σ.inserted else σ.inserted }
  | some (.get key pc) =>
    let x := σ.advance S (Get.machine key) pc
    { x.1 with task := some (.get key x.2) }

/-- No operation is in progress. -/
def Idle (σ : Session) : Prop := ∀ t, σ.task = some t → t.Done

/-- What happens in a session. -/
inductive Event
  | insert (key : List UInt8) (rid : RecordId)
  | get (key : List UInt8)
  | step
  /-- `flush_all_dirty` -/
  | flush
  /-- `evict` with the frame of this page as its victim -/
  | evict (id : LPageId)
  /-- `evict` with the frame of the file header as its victim -/
  | evictHeader

/-- A call and a flush wait for the operation in progress, and a page whose guard it holds
is not evicted. -/
def Allowed (σ : Session) : Event → Prop
  | .insert .. | .get _ | .flush => σ.Idle
  | .step => ¬ σ.Idle
  | .evict id => ∀ t, σ.task = some t → id ∉ t.holds
  | .evictHeader => True

def fire (S : PageSupply) (σ : Session) : Event → Session
  | .insert key rid => { σ with task := some (.insert (keyFromBytes key) rid .start) }
  | .get key => { σ with task := some (.get (keyFromBytes key) .start) }
  | .step => σ.step S
  | .flush => { σ with pages := σ.pages.flush, header := σ.header.flush }
  | .evict id => { σ with pages := σ.pages.evict id }
  | .evictHeader => { σ with header := σ.header.evict () }

/-- A run whose events all meet a condition on the state they happen in. -/
def Run (S : PageSupply) (C : Session → Event → Prop) : Session → Session → Prop :=
  Relation.ReflTransGen fun σ σ' => ∃ e, σ.Allowed e ∧ C σ e ∧ σ' = σ.fire S e

/-- The events can happen one after the other, and each meets the condition. -/
def Legal (S : PageSupply) (C : Session → Event → Prop) : Session → List Event → Prop
  | _, [] => True
  | σ, e :: l => σ.Allowed e ∧ C σ e ∧ Legal S C (σ.fire S e) l

theorem Legal.run {S : PageSupply} {C : Session → Event → Prop} {σ : Session} {l : List Event}
    (h : Legal S C σ l) : Run S C σ (l.foldl (fire S) σ) := by
  induction l generalizing σ with
  | nil => exact .refl
  | cons e l ih =>
    obtain ⟨hallowed, hc, hl⟩ := h
    exact .head ⟨e, hallowed, hc, rfl⟩ (ih hl)

end Session

/-! ### What a step does to a pool that serves a store -/

variable {c : WriteBack LPageId Page} {loose : LPageId → Prop} {page : LPageId → Option Page}
  {ws : List Write}

/-- **Writes reach the readers.**  A page that was loose stays so until it is written, and
one that is written and never marked becomes so unless it was dirty. -/
theorem serves_writeAll (h : c.Serves loose page) : (writeAll c ws).Serves
    (fun p => (loose p ∧ ∀ w ∈ ws, w.id ≠ p) ∨
      c.isDirty p = false ∧ (∃ w ∈ ws, w.id = p) ∧ ∀ w ∈ ws, w.id = p → w.marked = false)
    (writePages page ws) := by
  induction ws generalizing c loose page with
  | nil => exact h.mono fun p _ _ hp => Or.inl ⟨hp, nofun⟩
  | cons w ws ih =>
    refine (ih (h.write w.id w.page w.marked)).mono fun p v hv hp => ?_
    rw [WriteBack.isDirty_write] at hp
    by_cases hpw : p = w.id
    · subst hpw
      simp only [if_pos, decide_true, Bool.true_and, Bool.or_eq_false_iff] at hp
      right
      rcases hp with ⟨⟨hm, hd⟩, hno⟩ | ⟨⟨hd, hm⟩, -, hall⟩
      · refine ⟨hd, ⟨w, List.mem_cons_self .., rfl⟩, fun x hx hid => ?_⟩
        rcases List.mem_cons.1 hx with rfl | hx
        · exact hm
        · exact absurd hid (hno x hx)
      · refine ⟨hd, ⟨w, List.mem_cons_self .., rfl⟩, fun x hx hid => ?_⟩
        rcases List.mem_cons.1 hx with rfl | hx
        · exact hm
        · exact hall x hx hid
    · rw [decide_eq_false hpw, Bool.false_and, Bool.or_false, if_neg hpw] at hp
      rcases hp with ⟨hl, hno⟩ | ⟨hd, ⟨x, hx, hid⟩, hall⟩
      · refine Or.inl ⟨hl, fun x hx => ?_⟩
        rcases List.mem_cons.1 hx with rfl | hx
        · exact fun h => hpw h.symm
        · exact hno x hx
      · refine Or.inr ⟨hd, ⟨x, List.mem_cons_of_mem _ hx, hid⟩, fun y hy hyid => ?_⟩
        rcases List.mem_cons.1 hy with rfl | hy
        · exact absurd hyid.symm hpw
        · exact hall y hy hyid

end BTree
end Abdb
