/-
# Terms and what they mean

A term is an operator on terms.  A reading says what each operator does, on any type of values that may
depend on a row, and gives every term a value on every row (`eval`).  Terms with the same value in every
reading, on every row, are one term (`eq_iff_eval`), since the operators can be read as themselves.
-/

import Abdb.Lib.Parts

namespace Abdb

/-- An operator on terms. -/
inductive Term (Op : Type)
  | node (op : Op) (args : List (Term Op))

/-- What every operator does with what its arguments are on the rows. -/
abbrev Reading (Op Row Value : Type) := Op → List (Row → Value) → Row → Value

namespace Term

variable {Op Row Value : Type}

/-- The operator at the root. -/
def op : Term Op → Op
  | node op _ => op

def args : Term Op → List (Term Op)
  | node _ args => args

mutual

/-- The value of a term on a row. -/
def eval (reading : Reading Op Row Value) : Term Op → Row → Value
  | node op args => reading op (evalAll reading args)

def evalAll (reading : Reading Op Row Value) : List (Term Op) → List (Row → Value)
  | [] => []
  | t :: rest => eval reading t :: evalAll reading rest

end

/-- Every operator is read as itself. -/
def asWritten : Reading Op Unit (Term Op) := fun op values row => node op (values.map (· row))

mutual

theorem eval_asWritten : ∀ t : Term Op, eval asWritten t () = t
  | node op args => by rw [eval, asWritten, evalAll_asWritten args]

theorem evalAll_asWritten : ∀ args : List (Term Op), (evalAll asWritten args).map (· ()) = args
  | [] => rfl
  | t :: rest => by rw [evalAll, List.map_cons, eval_asWritten t, evalAll_asWritten rest]

end

/-- **Terms with the same values are one term.** -/
theorem eq_iff_eval {t t' : Term Op} : t = t' ↔ ∀ (Row Value : Type) (reading : Reading Op Row Value)
    (row : Row), t.eval reading row = t'.eval reading row := by
  refine ⟨fun h _ _ _ _ => h ▸ rfl, fun h => ?_⟩
  have hfree := h Unit (Term Op) asWritten ()
  rwa [eval_asWritten, eval_asWritten] at hfree

/-- Every operator of a term, at any depth, is of a kind. -/
def All (P : Op → Prop) : Term Op → Prop := Everywhere args fun t => P t.op

variable {P : Op → Prop} {o : Op} {ts : List (Term Op)}

theorem all_node : (node o ts).All P ↔ P o ∧ ∀ t ∈ ts, t.All P := Everywhere.iff_below

theorem all_leaf : (node o []).All P ↔ P o := by
  rw [all_node]
  exact and_iff_left nofun

end Term
end Abdb
