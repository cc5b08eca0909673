/-
# The optimizer's work on expressions

The functions of `src/optimizer/optimizer.rs` that take a predicate apart, find the columns it
mentions and renumber them.
-/

import Abdb.Planner.Plan
import Mathlib.Algebra.Order.Ring.Int
import Mathlib.Tactic.Common

namespace Abdb

/-- The expression is a conjunction. -/
def BoundExpr.IsAnd (e : BoundExpr) : Prop := ∃ left right, e.kind = .binaryOp left .and right

namespace Optimizer

mutual

/-- `split_conjunctions`: the parts of a conjunction, from left to right. -/
def splitConjunctions : BoundExpr → List BoundExpr
  | ⟨kind, dataType, nullable⟩ => splitKind dataType nullable kind

/-- The parts of an expression of this kind and type. -/
def splitKind (dataType : DataType) (nullable : Bool) : BoundExprKind → List BoundExpr
  | .binaryOp left .and right => splitConjunctions left ++ splitConjunctions right
  | kind => [⟨kind, dataType, nullable⟩]

end

/-- `conjoin`: the conjunction of a list of expressions, which has to have one. -/
def conjoin : List BoundExpr → Option BoundExpr
  | [] => none
  | e :: exprs => some (exprs.foldl
      (fun result e => ⟨.binaryOp result .and e, .bool, result.nullable || e.nullable⟩) e)

mutual

/-- `collect_scope_indices`. -/
def collectScopeIndices : BoundExpr → List ℕ
  | ⟨kind, _, _⟩ => collectKind kind

/-- `collect_scope_indices_inner`: LIKE and the forms with a subquery are passed over. -/
def collectKind : BoundExprKind → List ℕ
  | .columnRef c => [c.scopeIndex]
  | .binaryOp left _ right => collectScopeIndices left ++ collectScopeIndices right
  | .unaryOp _ expr => collectScopeIndices expr
  | .isNull expr => collectScopeIndices expr
  | .isNotNull expr => collectScopeIndices expr
  | .between expr low high _ =>
    collectScopeIndices expr ++ collectScopeIndices low ++ collectScopeIndices high
  | .inList expr list _ => collectScopeIndices expr ++ collectList list
  | .function ⟨_, _, args, _⟩ => collectList args
  | .cast expr _ => collectScopeIndices expr
  | .case operand whenThen elseResult =>
    collectOption operand ++ collectPairs whenThen ++ collectOption elseResult
  | _ => []

def collectList : List BoundExpr → List ℕ
  | [] => []
  | e :: list => collectScopeIndices e ++ collectList list

def collectOption : Option BoundExpr → List ℕ
  | none => []
  | some e => collectScopeIndices e

def collectPairs : List (BoundExpr × BoundExpr) → List ℕ
  | [] => []
  | (w, t) :: list => collectScopeIndices w ++ collectScopeIndices t ++ collectPairs list

end

/-- `(i as isize + delta) as usize`, on 64 bits: a sum below zero wraps around. -/
def shiftIndex (i : ℕ) (delta : ℤ) : ℕ :=
  if 0 ≤ (i : ℤ) + delta then ((i : ℤ) + delta).toNat else ((i : ℤ) + delta + 2 ^ 64).toNat

mutual

/-- `shift_scope_indices`. -/
def shiftScopeIndices (delta : ℤ) : BoundExpr → BoundExpr
  | ⟨kind, dataType, nullable⟩ => ⟨shiftKind delta kind, dataType, nullable⟩

/-- `shift_kind`: the forms it does not name are kept as they are. -/
def shiftKind (delta : ℤ) : BoundExprKind → BoundExprKind
  | .columnRef c => .columnRef { c with scopeIndex := shiftIndex c.scopeIndex delta }
  | .binaryOp left op right =>
    .binaryOp (shiftScopeIndices delta left) op (shiftScopeIndices delta right)
  | .unaryOp op expr => .unaryOp op (shiftScopeIndices delta expr)
  | .isNull expr => .isNull (shiftScopeIndices delta expr)
  | .isNotNull expr => .isNotNull (shiftScopeIndices delta expr)
  | kind => kind

end

/-! ### Trees of conjunctions -/

variable {e : BoundExpr}

theorem splitConjunctions_and (left right : BoundExpr) (dataType : DataType) (nullable : Bool) :
    splitConjunctions ⟨.binaryOp left .and right, dataType, nullable⟩ =
      splitConjunctions left ++ splitConjunctions right := rfl

theorem splitConjunctions_of_not_isAnd (h : ¬ e.IsAnd) : splitConjunctions e = [e] := by
  obtain ⟨kind, dataType, nullable⟩ := e
  cases kind with
  | binaryOp left op right =>
    cases op with
    | and => exact absurd ⟨left, right, rfl⟩ h
    | _ => rfl
  | _ => rfl

/-- **Induction on a tree of conjunctions.** -/
theorem conjunctions_induct {M : BoundExpr → Prop}
    (and : ∀ left right dataType nullable, M left → M right →
      M ⟨.binaryOp left .and right, dataType, nullable⟩)
    (single : ∀ e : BoundExpr, ¬ e.IsAnd → M e) (e : BoundExpr) : M e := by
  induction hn : sizeOf e using Nat.strongRecOn generalizing e with
  | ind n ih =>
    by_cases h : e.IsAnd
    · obtain ⟨kind, dataType, nullable⟩ := e
      obtain ⟨left, right, rfl⟩ := h
      refine and left right dataType nullable (ih _ ?_ left rfl) (ih _ ?_ right rfl)
      · rw [← hn]
        simp only [BoundExpr.mk.sizeOf_spec, BoundExprKind.binaryOp.sizeOf_spec]
        omega
      · rw [← hn]
        simp only [BoundExpr.mk.sizeOf_spec, BoundExprKind.binaryOp.sizeOf_spec]
        omega
    · exact single e h

end Optimizer
end Abdb
