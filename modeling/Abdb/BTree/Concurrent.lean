/-
# Concurrent index operations

Any number of tasks on one index, each an `insert` or a `get`, run on one store and
take turns at their await points.  A task goes on when the page it awaits is write
latched by nobody: `get` holds no latch across an await, and nobody holds the latch of
the file header across one, so write guards on pages are all there is to wait for.
-/

import Abdb.BTree.Sequential

namespace Abdb
namespace BTree

/-- One operation in progress. -/
inductive Task
  | insert (key : ℕ) (rid : RecordId) (pc : InsertPc)
  | get (key : ℕ) (pc : GetPc)

namespace Task

/-- What the task waits for. -/
def await : Task → Await
  | insert _ _ pc => Insert.await pc
  | get _ pc => Get.await pc

/-- The pages it has write latched. -/
def holds : Task → List LPageId
  | insert _ _ pc => Insert.holds pc
  | get _ _ => []

/-- Run the task to its next await point. -/
def step (S : PageSupply) (st : Store) : Task → Store × Task
  | insert key rid pc => (st.step S (Insert.machine key rid) pc).map id (insert key rid)
  | get key pc => (st.step S (Get.machine key) pc).map id (get key)

/-- The task has returned. -/
def Done (t : Task) : Prop := t.await = .nothing

end Task

/-- A store and the tasks that work on it. -/
structure Sys (ι : Type) where
  store : Store
  task : ι → Task

namespace Sys

variable {ι : Type} [DecidableEq ι]

/-- A task can go on: it has not returned, and the page it awaits is not latched. -/
def Enabled (σ : Sys ι) (i : ι) : Prop :=
  match (σ.task i).await with
  | .nothing => False
  | .page p _ => ∀ j, p ∉ (σ.task j).holds
  | _ => True

/-- Task `i` runs to its next await point. -/
def step (S : PageSupply) (σ : Sys ι) (i : ι) : Sys ι :=
  ⟨((σ.task i).step S σ.store).1, Function.update σ.task i ((σ.task i).step S σ.store).2⟩

theorem step_task_of_ne {S : PageSupply} {σ : Sys ι} {i j : ι} (h : j ≠ i) :
    (σ.step S i).task j = σ.task j := Function.update_of_ne h ..

/-- A step of a `get`. -/
theorem step_get {S : PageSupply} {σ : Sys ι} {i : ι} {k : ℕ} {pc : GetPc}
    (h : σ.task i = .get k pc) : σ.step S i =
      ⟨σ.store, Function.update σ.task i (.get k (Get.resume k σ.store.view pc))⟩ := by
  have hstep : (σ.task i).step S σ.store = (σ.store, .get k (Get.resume k σ.store.view pc)) := by
    rw [h, Task.step, Get.step_eq]
    rfl
  unfold step
  rw [hstep]

/-- A step of an `insert`. -/
theorem step_insert {S : PageSupply} {σ : Sys ι} {i : ι} {key : ℕ} {rid : RecordId}
    {pc pc' : InsertPc} {st' : Store} (hi : σ.task i = .insert key rid pc)
    (h : σ.store.step S (Insert.machine key rid) pc = (st', pc')) :
    σ.step S i = ⟨st', Function.update σ.task i (.insert key rid pc')⟩ := by
  unfold step
  rw [hi, Task.step, h]
  rfl

/-- A run whose steps all meet a condition on the state and the task that moves. -/
def Run (S : PageSupply) (C : Sys ι → ι → Prop) : Sys ι → Sys ι → Prop :=
  Relation.ReflTransGen fun σ σ' => ∃ i, σ.Enabled i ∧ C σ i ∧ σ' = σ.step S i

/-- The tasks that move next can, one after the other, and each step meets the condition. -/
def Legal (S : PageSupply) (C : Sys ι → ι → Prop) : Sys ι → List ι → Prop
  | _, [] => True
  | σ, i :: l => σ.Enabled i ∧ C σ i ∧ Legal S C (σ.step S i) l

theorem Legal.run {S : PageSupply} {C : Sys ι → ι → Prop} {σ : Sys ι} {l : List ι}
    (h : Legal S C σ l) : Run S C σ (l.foldl (step S) σ) := by
  induction l generalizing σ with
  | nil => exact .refl
  | cons i l ih =>
    obtain ⟨hen, hc, hl⟩ := h
    exact .head ⟨i, hen, hc, rfl⟩ (ih hl)

/-- Inserts on a store, none of which has taken a step. -/
def inserting (st : Store) (key : ι → List UInt8) (rid : ι → RecordId) : Sys ι :=
  ⟨st, fun i => .insert (keyFromBytes (key i)) (rid i) .start⟩

end Sys

end BTree
end Abdb
