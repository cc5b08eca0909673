/-
# Operations that run alone

`Store.Returns` runs one operation by itself from a state until it returns.  A `Call` is
an operation with its arguments as the callers pass them, keys as bytes, `Store.Exec` is
one call from start to reply, and `Store.Trace` a sequence of calls one after the other.
A call has at most one reply (`Store.Exec.unique`).
-/

import Mathlib.Logic.Relation
import Abdb.BTree.Operations
import Abdb.BTree.Tree

namespace Abdb
namespace BTree

open Relation

namespace Store

section Returns

variable {Pc : Type} {S : PageSupply} {M : Machine Pc} {st st' st₁ st₂ : Store} {pc pc' pc₁ pc₂ : Pc}

/-- A step that waited for a page or the header. -/
theorem step_resume {ws : List Write} {r : Option LPageId} (hn : M.await pc ≠ .newPage)
    (h0 : M.await pc ≠ .nothing) (h : M.resume st.view 0 pc = ⟨ws, r, pc'⟩) :
    st.step S M pc =
      (⟨writePages st.page ws, r.getD st.root, st.allocated⟩, pc') := by
  unfold Store.step
  split
  · contradiction
  · contradiction
  · rw [h]
    rfl

/-- A step that writes nothing. -/
theorem step_goto (hn : M.await pc ≠ .newPage) (h0 : M.await pc ≠ .nothing)
    (h : M.resume st.view 0 pc = Out.goto pc') : st.step S M pc = (st, pc') := step_resume hn h0 h

/-- A step that waited for a fresh page. -/
theorem step_newPage {ws : List Write} {r : Option LPageId} (hn : M.await pc = .newPage)
    (h : M.resume (st.newPage S).view (S.id st.allocated) pc = ⟨ws, r, pc'⟩) :
    st.step S M pc = (⟨writePages (Function.update st.page (S.id st.allocated)
      (some Page.zeroed)) ws, r.getD st.root, st.allocated + 1⟩, pc') := by
  unfold Store.step
  rw [hn]
  dsimp only
  rw [h]
  rfl

/-- A step of an operation that does not wait for itself. -/
def Latched (S : PageSupply) (M : Machine Pc) (x y : Store × Pc) : Prop :=
  ¬ M.SelfWaits x.2 ∧ y = x.1.step S M x.2

theorem steps_of_latched {x y : Store × Pc} (h : ReflTransGen (Latched S M) x y) :
    ReflTransGen (fun x y => y = x.1.step S M x.2) x y := by
  induction h with
  | refl => exact .refl
  | tail _ hstep ih => exact ih.tail hstep.2

/-- Running alone from `pc`, the operation returns in state `pc'` and leaves the store
`st'`. -/
def Returns (S : PageSupply) (M : Machine Pc) (st : Store) (pc : Pc) (st' : Store) (pc' : Pc) :
    Prop :=
  M.await pc' = .nothing ∧ ReflTransGen (fun x y => y = x.1.step S M x.2) (st, pc) (st', pc')

theorem Returns.done (h : M.await pc = .nothing) : Returns S M st pc st pc := ⟨h, .refl⟩

theorem Returns.step (h : Returns S M (st.step S M pc).1 (st.step S M pc).2 st' pc') :
    Returns S M st pc st' pc' := ⟨h.1, h.2.head rfl⟩

/-- An operation that gets somewhere returns as from there. -/
theorem Returns.of_steps (h : Returns S M st₁ pc₁ st' pc')
    (hsteps : ReflTransGen (fun x y => y = x.1.step S M x.2) (st, pc) (st₁, pc₁)) :
    Returns S M st pc st' pc' := ⟨h.1, hsteps.trans h.2⟩

/-- An operation that has returned goes nowhere. -/
theorem eq_of_reaches (h : M.await pc = .nothing) {x : Store × Pc}
    (hx : ReflTransGen (fun x y => y = x.1.step S M x.2) (st, pc) x) : x = (st, pc) := by
  induction hx with
  | refl => rfl
  | tail _ hstep ih =>
    rw [hstep, ih]
    unfold Store.step
    rw [h]

/-- **An operation that runs alone returns in one way.** -/
theorem Returns.unique (h₁ : Returns S M st pc st₁ pc₁) (h₂ : Returns S M st pc st₂ pc₂) :
    st₁ = st₂ ∧ pc₁ = pc₂ := by
  have htotal := ReflTransGen.total_of_right_unique
    (fun (_ _ _ : Store × Pc) hab hac => hab.trans hac.symm) h₁.2 h₂.2
  rcases htotal with h | h
  · exact Prod.ext_iff.1 (eq_of_reaches h₁.1 h).symm
  · exact Prod.ext_iff.1 (eq_of_reaches h₂.1 h)

/-- The operation returns at `pc'` and leaves a tree at rest with the bindings `B`. -/
def Settles (S : PageSupply) (M : Machine Pc) (B : ℕ → RecordId → Prop) (st : Store) (pc pc' : Pc) :
    Prop :=
  ∃ st' F, Returns S M st pc st' pc' ∧ st'.Rests S F ∧ ∀ k r, F.Binds st'.page k r ↔ B k r

variable {B : ℕ → RecordId → Prop} {ws : List Write} {r : Option LPageId}

/-- One step, to a page or the header, before the operation settles. -/
theorem Settles.at_page (hn : M.await pc ≠ .newPage) (h0 : M.await pc ≠ .nothing)
    (h : M.resume st.view 0 pc = ⟨ws, r, pc₁⟩)
    (hfin : Settles S M B ⟨writePages st.page ws, r.getD st.root, st.allocated⟩ pc₁ pc') :
    Settles S M B st pc pc' := by
  obtain ⟨st', F, hret, hrest⟩ := hfin
  refine ⟨st', F, .step ?_, hrest⟩
  rwa [step_resume hn h0 h]

/-- One step, to a fresh page, before the operation settles. -/
theorem Settles.at_newPage (hn : M.await pc = .newPage)
    (h : M.resume (st.newPage S).view (S.id st.allocated) pc = ⟨ws, r, pc₁⟩)
    (hfin : Settles S M B ⟨writePages (Function.update st.page (S.id st.allocated)
      (some Page.zeroed)) ws, r.getD st.root, st.allocated + 1⟩ pc₁ pc') :
    Settles S M B st pc pc' := by
  obtain ⟨st', F, hret, hrest⟩ := hfin
  refine ⟨st', F, .step ?_, hrest⟩
  rwa [step_newPage hn h]

theorem Settles.of_steps (h : Settles S M B st₁ pc₁ pc')
    (hsteps : ReflTransGen (fun x y => y = x.1.step S M x.2) (st, pc) (st₁, pc₁)) :
    Settles S M B st pc pc' := by
  obtain ⟨st', F, hret, hrest⟩ := h
  exact ⟨st', F, hret.of_steps hsteps, hrest⟩

/-- One step that writes nothing, before the operation returns without a change. -/
theorem Returns.at_page (hn : M.await pc ≠ .newPage) (h0 : M.await pc ≠ .nothing)
    (h : M.resume st.view 0 pc = ⟨[], none, pc₁⟩) (hret : Returns S M st pc₁ st pc') :
    Returns S M st pc st pc' := by
  refine .step ?_
  rwa [step_resume hn h0 h]

end Returns

end Store

/-- A step of a `get` leaves the store alone. -/
theorem Get.step_eq {S : PageSupply} {st : Store} {k : ℕ} {pc : GetPc} :
    st.step S (Get.machine k) pc = (st, Get.resume k st.view pc) := by
  cases pc <;> rfl

/-- An index operation with its arguments. -/
inductive Call
  | insert (key : List UInt8) (rid : RecordId)
  | get (key : List UInt8)
  | delete (key : List UInt8) (rid : RecordId)
deriving DecidableEq

/-- What an index operation returns. -/
inductive Reply
  | unit (result : Except Error Unit)
  | record (result : Except Error RecordId)
deriving DecidableEq

namespace Store

variable {S : PageSupply} {st st' st₁ st₂ : Store} {c : Call} {r r₁ r₂ : Reply}

/-- A call on a store that runs alone, its reply and the store it leaves. -/
def Exec (S : PageSupply) (st : Store) : Call → Store → Reply → Prop
  | .insert key rid, st', .unit r =>
    Returns S (Insert.machine (keyFromBytes key) rid) st .start st' (.done r)
  | .get key, st', .record r => Returns S (Get.machine (keyFromBytes key)) st .start st' (.done r)
  | .delete key rid, st', .unit r =>
    Returns S (Delete.machine (keyFromBytes key) rid) st .start st' (.done r)
  | _, _, _ => False

theorem Exec.unique (h₁ : Exec S st c st₁ r₁) (h₂ : Exec S st c st₂ r₂) : st₁ = st₂ ∧ r₁ = r₂ := by
  cases c <;> cases r₁ <;> cases r₂ <;> simp only [Exec] at h₁ h₂ <;>
    obtain ⟨rfl, hpc⟩ := Returns.unique h₁ h₂ <;> cases hpc <;> exact ⟨rfl, rfl⟩

/-- A sequence of calls, each run alone, with their replies. -/
inductive Trace (S : PageSupply) : Store → List (Call × Reply) → Store → Prop
  | nil (st : Store) : Trace S st [] st
  | cons {st st₁ st' : Store} {c : Call} {r : Reply} {l : List (Call × Reply)} :
    Exec S st c st₁ r → Trace S st₁ l st' → Trace S st ((c, r) :: l) st'

end Store

end BTree
end Abdb
