/-
# Agents that do not disturb each other

Agents share a state, and each takes a step when an event comes for it.  If an agent's step shows in its own
view of the state only, and its reply follows from that view (`Separates`), then in every order of the events
of all agents each one gets the replies that it would get alone (`Separates.run`).
-/

import Abdb.Lib.Machines

namespace Abdb
namespace Lib

variable {G I E O V : Type*}

/-- Events one after the other, each for an agent, with the replies. -/
def runAgents (step : G → I → E → G × O) : G → List (I × E) → G × List (I × O)
  | g, [] => (g, [])
  | g, (i, e) :: events => ((runAgents step (step g i e).1 events).1,
    (i, (step g i e).2) :: (runAgents step (step g i e).1 events).2)

/-- What is an agent's own. -/
def ownOf [DecidableEq I] {α : Type*} (i : I) (l : List (I × α)) : List α := (l.filter (·.1 = i)).map Prod.snd

section OwnOf

variable [DecidableEq I] {α : Type*} {i j : I} (a : α) (l : List (I × α))

@[simp]
theorem ownOf_nil : ownOf i ([] : List (I × α)) = [] := rfl

@[simp]
theorem ownOf_cons_self : ownOf i ((i, a) :: l) = a :: ownOf i l := by simp [ownOf]

theorem ownOf_cons_of_ne (h : j ≠ i) : ownOf i ((j, a) :: l) = ownOf i l := by simp [ownOf, h]

end OwnOf

/-- What an agent sees of the state follows an automaton of its own, and the steps of other agents do not
show in it. -/
structure Separates (step : G → I → E → G × O) (view : G → I → V) (alone : V → E → V × O) : Prop where
  own : ∀ g i e, (view (step g i e).1 i, (step g i e).2) = alone (view g i) e
  others : ∀ g i e j, j ≠ i → view (step g i e).1 j = view g j

/-- **Every agent gets the replies that it would get alone**, and sees what it would see. -/
theorem Separates.run [DecidableEq I] {step : G → I → E → G × O} {view : G → I → V} {alone : V → E → V × O}
    (h : Separates step view alone) (i : I) (events : List (I × E)) (g : G) :
    view (runAgents step g events).1 i = (runSpec alone (view g i) (ownOf i events)).1 ∧
      ownOf i (runAgents step g events).2 = (runSpec alone (view g i) (ownOf i events)).2 := by
  induction events generalizing g with
  | nil => exact ⟨rfl, rfl⟩
  | cons event events ih =>
    obtain ⟨j, e⟩ := event
    obtain ⟨hview, hreplies⟩ := ih (step g j e).1
    by_cases hj : j = i
    · subst hj
      have hown := Prod.ext_iff.1 (h.own g j e)
      rw [runAgents, ownOf_cons_self, ownOf_cons_self, runSpec, ← hown.1, ← hown.2, hview, hreplies]
      exact ⟨rfl, rfl⟩
    · have hothers := h.others g j e i (Ne.symm hj)
      rw [hothers] at hview hreplies
      rw [runAgents, ownOf_cons_of_ne _ _ hj, ownOf_cons_of_ne _ _ hj]
      exact ⟨hview, hreplies⟩

end Lib
end Abdb
