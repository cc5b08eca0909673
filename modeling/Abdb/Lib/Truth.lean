/-
# Three-valued logic

Truth values with an "unknown" (`none`), and Kleene's connectives on them.
-/

import Mathlib.Tactic.Common

namespace Abdb

/-- A truth value: `none` is "unknown". -/
abbrev Truth := Option Bool

namespace Truth

/-- Conjunction: false if one side is. -/
def and : Truth → Truth → Truth
  | some false, _ => some false
  | _, some false => some false
  | some true, some true => some true
  | _, _ => none

/-- Disjunction: true if one side is. -/
def or : Truth → Truth → Truth
  | some true, _ => some true
  | _, some true => some true
  | some false, some false => some false
  | _, _ => none

/-- Negation. -/
def not : Truth → Truth := Option.map Bool.not

/-- Negation, if asked for. -/
def negateIf (negated : Bool) (t : Truth) : Truth := if negated then t.not else t

/-- Disjunction of a list. -/
def any : List Truth → Truth
  | [] => some false
  | t :: l => t.or (any l)

/-- Conjunction of a list. -/
def all : List Truth → Truth
  | [] => some true
  | t :: l => t.and (all l)

variable {a b : Truth} {l : List Truth}

@[simp]
theorem and_eq_true : a.and b = some true ↔ a = some true ∧ b = some true := by
  rcases a with _ | _ | _ <;> rcases b with _ | _ | _ <;> simp [and]

theorem and_assoc (a b c : Truth) : (a.and b).and c = a.and (b.and c) := by
  rcases a with _ | _ | _ <;> rcases b with _ | _ | _ <;> rcases c with _ | _ | _ <;> rfl

@[simp]
theorem and_true (a : Truth) : a.and (some true) = a := by rcases a with _ | _ | _ <;> rfl

@[simp]
theorem true_and (a : Truth) : and (some true) a = a := by rcases a with _ | _ | _ <;> rfl

theorem all_append (l l' : List Truth) : all (l ++ l') = (all l).and (all l') := by
  induction l with
  | nil => exact (true_and _).symm
  | cons t l ih => rw [List.cons_append, all, all, ih, and_assoc]

/-- A conjunction from left to right. -/
theorem foldl_and (l : List Truth) (a : Truth) : l.foldl and a = a.and (all l) := by
  induction l generalizing a with
  | nil => exact (and_true a).symm
  | cons t l ih => rw [List.foldl_cons, ih, all, and_assoc]

@[simp]
theorem all_eq_true : all l = some true ↔ ∀ t ∈ l, t = some true := by
  induction l with
  | nil => simp [all]
  | cons t l ih => rw [all, and_eq_true, ih, List.forall_mem_cons]

end Truth
end Abdb
