/-
# Scans among other operations

A `scan` beside inserts and lookups on one index: it descends to the leaf of its start key
and then drains its stream, one leaf after another.  It keeps no latch from one page to
the next and writes nothing, so it only waits for pages that inserts have write latched.
-/

import Abdb.BTree.Concurrent
import Abdb.BTree.Scan

namespace Abdb
namespace BTree

/-- The page an operation waits for, if it waits for one. -/
def Await.pageId : Await → Option LPageId
  | .page id _ => some id
  | _ => none

/-- A scan in progress: on its way to the first leaf, or draining the stream, with the items
yielded so far. -/
inductive ScanRun
  | opening (startKey endKey : Option ℕ) (pc : ScanPc)
  | draining (pc : StreamPc) (items : List ScanItem)

namespace ScanRun

/-- The page the scan is about to read. -/
def fetches : ScanRun → Option LPageId
  | opening _ _ (.findLeaf current) => some current
  | draining (.loop s) _ =>
    if s.buffered.length ≤ s.bufIdx ∧ s.currentLeaf ≠ 0 ∧ s.done = false then some s.currentLeaf
    else none
  | _ => none

/-- The scan has failed, or its stream has ended. -/
def Over : ScanRun → Prop
  | opening _ _ (.done _) => True
  | draining .ended _ => True
  | _ => False

/-- Run the scan to its next await point, or to the next item of the stream. -/
def step (view : View) : ScanRun → ScanRun
  | opening startKey endKey pc =>
    match Scan.resume startKey endKey view pc with
    | .done (.ok s) => draining (.poll s) []
    | pc' => opening startKey endKey pc'
  | draining pc items =>
    draining (streamStep view pc).2 (items ++ (streamStep view pc).1.toList)

end ScanRun

/-- Inserts and lookups on a store, with scans beside them. -/
structure Site (ι κ : Type) where
  sys : Sys ι
  scan : κ → ScanRun

namespace Site

variable {ι κ : Type} [DecidableEq ι] [DecidableEq κ]

/-- The page an operation waits for. -/
def awaits (σ : Site ι κ) : ι ⊕ κ → Option LPageId
  | .inl i => (σ.sys.task i).await.pageId
  | .inr j => (σ.scan j).fetches

/-- The pages it has write latched. -/
def holds (σ : Site ι κ) : ι ⊕ κ → List LPageId
  | .inl i => (σ.sys.task i).holds
  | .inr _ => []

/-- It has returned, or its stream has ended. -/
def Over (σ : Site ι κ) : ι ⊕ κ → Prop
  | .inl i => (σ.sys.task i).Done
  | .inr j => (σ.scan j).Over

/-- An operation can go on: it is not over, and nobody has latched the page it waits for. -/
def Enabled (σ : Site ι κ) (o : ι ⊕ κ) : Prop :=
  ¬ σ.Over o ∧ ∀ p, σ.awaits o = some p → ∀ o', p ∉ σ.holds o'

/-- An operation runs to its next await point. -/
def step (S : PageSupply) (σ : Site ι κ) : ι ⊕ κ → Site ι κ
  | .inl i => { σ with sys := σ.sys.step S i }
  | .inr j => { σ with
      scan := Function.update σ.scan j ((σ.scan j).step σ.sys.store.view) }

/-- A run whose steps all meet a condition on the state and the operation that moves. -/
def Run (S : PageSupply) (C : Site ι κ → ι ⊕ κ → Prop) : Site ι κ → Site ι κ → Prop :=
  Relation.ReflTransGen fun σ σ' => ∃ o, σ.Enabled o ∧ C σ o ∧ σ' = σ.step S o

/-- The operations that move next can, one after the other, and each step meets the
condition. -/
def Legal (S : PageSupply) (C : Site ι κ → ι ⊕ κ → Prop) : Site ι κ → List (ι ⊕ κ) → Prop
  | _, [] => True
  | σ, o :: l => σ.Enabled o ∧ C σ o ∧ Legal S C (σ.step S o) l

theorem Legal.run {S : PageSupply} {C : Site ι κ → ι ⊕ κ → Prop} {σ : Site ι κ}
    {l : List (ι ⊕ κ)} (h : Legal S C σ l) : Run S C σ (l.foldl (step S) σ) := by
  induction l generalizing σ with
  | nil => exact .refl
  | cons o l ih =>
    obtain ⟨hen, hc, hl⟩ := h
    exact .head ⟨o, hen, hc, rfl⟩ (ih hl)

omit [DecidableEq ι] [DecidableEq κ] in
/-- A task of the site can go on exactly if it can among the tasks alone. -/
theorem enabled_inl {σ : Site ι κ} {i : ι} : σ.Enabled (.inl i) ↔ σ.sys.Enabled i := by
  unfold Enabled Over awaits Sys.Enabled Task.Done
  dsimp only
  cases (σ.sys.task i).await <;> simp [Await.pageId, holds]

end Site

end BTree
end Abdb
