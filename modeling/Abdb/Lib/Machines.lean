/-
# Machines that do what a specification does

A machine takes calls one after the other, gives a reply to each, and may fail; a specification
always replies.  If every step of the machine gives the reply of the specification and keeps a
relation between the states of the two (`Simulates`), so does every run (`Simulates.run`).
-/

import Mathlib.Logic.Function.Basic
import Mathlib.Tactic.Common

namespace Abdb
namespace Lib

variable {ι S M C R : Type*}

/-- Calls one after the other, with their replies; `none` if one of them fails. -/
def runCalls (step : S → C → Option (S × R)) : S → List C → Option (S × List R)
  | s, [] => some (s, [])
  | s, c :: calls =>
    match step s c with
    | none => none
    | some (s', reply) => (runCalls step s' calls).map fun (s'', replies) => (s'', reply :: replies)

/-- Calls one after the other on a specification, with their replies. -/
def runSpec (spec : M → C → M × R) : M → List C → M × List R
  | m, [] => (m, [])
  | m, c :: calls => ((runSpec spec (spec m c).1 calls).1,
    (spec m c).2 :: (runSpec spec (spec m c).1 calls).2)

/-- A step of the machine gives the reply of the specification and keeps the relation. -/
def Simulates (step : S → C → Option (S × R)) (spec : M → C → M × R) (rel : S → M → Prop) : Prop :=
  ∀ s m c, rel s m → ∃ s', step s c = some (s', (spec m c).2) ∧ rel s' (spec m c).1

section Run

variable {step : S → C → Option (S × R)} {spec : M → C → M × R} {rel : S → M → Prop} {s : S} {m : M}

/-- **A run of calls that simulate** gives the replies of the specification and keeps the relation. -/
theorem run_of_simulates {ok : C → Prop}
    (h : ∀ s m c, ok c → rel s m → ∃ s', step s c = some (s', (spec m c).2) ∧ rel s' (spec m c).1)
    (hrel : rel s m) {calls : List C} (hok : ∀ c ∈ calls, ok c) :
    ∃ s', runCalls step s calls = some (s', (runSpec spec m calls).2) ∧ rel s' (runSpec spec m calls).1 := by
  induction calls generalizing s m with
  | nil => exact ⟨s, rfl, hrel⟩
  | cons c calls ih =>
    obtain ⟨hc, hok⟩ := List.forall_mem_cons.1 hok
    obtain ⟨s', hstep, hrel'⟩ := h s m c hc hrel
    obtain ⟨s'', hrun, hend⟩ := ih hrel' hok
    refine ⟨s'', ?_, hend⟩
    rw [runCalls, hstep]
    dsimp only
    rw [hrun]
    rfl

/-- **So does every run**, where all calls simulate. -/
theorem Simulates.run (h : Simulates step spec rel) (hrel : rel s m) (calls : List C) :
    ∃ s', runCalls step s calls = some (s', (runSpec spec m calls).2) ∧ rel s' (runSpec spec m calls).1 :=
  run_of_simulates (fun s m c _ => h s m c) hrel fun _ _ => trivial

end Run

/-- One of several machines takes a call. -/
def stepAt [DecidableEq ι] (step : S → C → S × R) (states : ι → S) (call : ι × C) : (ι → S) × R :=
  (Function.update states call.1 (step (states call.1) call.2).1, (step (states call.1) call.2).2)

section Maps

variable {step : S → C → S × R} {spec : M → C → M × R} {f : S → M}

/-- **A machine that maps onto another** gives its replies, and ends where it maps to the other's end. -/
theorem runSpec_map (h : ∀ s c, (f (step s c).1, (step s c).2) = spec (f s) c) (s : S) (calls : List C) :
    (f (runSpec step s calls).1, (runSpec step s calls).2) = runSpec spec (f s) calls := by
  induction calls generalizing s with
  | nil => rfl
  | cons c calls ih =>
    have hstep : f (step s c).1 = (spec (f s) c).1 := congrArg Prod.fst (h s c)
    have hreply : (step s c).2 = (spec (f s) c).2 := congrArg Prod.snd (h s c)
    rw [runSpec, runSpec, ← hstep, ← hreply, ← ih]

/-- So do several. -/
theorem stepAt_map [DecidableEq ι] (h : ∀ s c, (f (step s c).1, (step s c).2) = spec (f s) c)
    (states : ι → S) (call : ι × C) :
    (f ∘ (stepAt step states call).1, (stepAt step states call).2) = stepAt spec (f ∘ states) call := by
  have hstep : f (step (states call.1) call.2).1 = (spec (f (states call.1)) call.2).1 :=
    congrArg Prod.fst (h (states call.1) call.2)
  have hreply : (step (states call.1) call.2).2 = (spec (f (states call.1)) call.2).2 :=
    congrArg Prod.snd (h (states call.1) call.2)
  rw [stepAt, stepAt, Function.comp_update, hstep, hreply]
  rfl

end Maps

end Lib
end Abdb
