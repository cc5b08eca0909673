/-
# The meaning of a bound expression

What a bound expression is for: its value on a row of its scope, in SQL's three-valued logic.
The repository has no evaluator yet, so this is SQL's usual reading.  What depends on the
values' types (comparison, arithmetic, LIKE, casts, functions) is an interpretation, and so are
the rows of a subquery, which is bound in a scope of its own.

The value depends on the columns that occur in the expression only (`eval_congr`).
-/

import Abdb.Binder.Bound
import Abdb.Lib.Truth

namespace Abdb

/-- The meaning of the operations on values. -/
structure Scalars where
  /-- A comparison of two values that are not NULL. -/
  compare : BinaryOp → Value → Value → Truth
  /-- Arithmetic and concatenation, at the type of the result. -/
  arith : DataType → BinaryOp → Value → Value → Value
  neg : DataType → Value → Value
  /-- LIKE, of two values that are not NULL. -/
  like : Value → Value → Truth
  call : FunctionKind → String → Bool → List Value → Value
  cast : DataType → Value → Value
  /-- The truth of a value that is neither a Boolean nor NULL. -/
  truth : Value → Truth
  /-- The rows of a subquery. -/
  select : BoundSelect → List Row

namespace Value

/-- The value of a literal. -/
def ofLiteral : BoundLiteral → Value
  | .integer n => .i64 n
  | .float bits => .f64 bits
  | .string s => .string s
  | .bool b => .bool b
  | .null => .null

/-- A truth value as a value. -/
def ofTruth : Truth → Value
  | some b => .bool b
  | none => .null

end Value

namespace Scalars

variable (S : Scalars)

/-- The truth of a value. -/
def truthOf : Value → Truth
  | .bool b => some b
  | .null => none
  | v => S.truth v

/-- A comparison: unknown if one side is NULL. -/
def comparison (op : BinaryOp) : Value → Value → Truth
  | .null, _ => none
  | _, .null => none
  | v, w => S.compare op v w

/-- A binary operation, at the type of the result. -/
def binary (dataType : DataType) (op : BinaryOp) (v w : Value) : Value :=
  match op with
  | .and => .ofTruth ((S.truthOf v).and (S.truthOf w))
  | .or => .ofTruth ((S.truthOf v).or (S.truthOf w))
  | .eq | .notEq | .lt | .ltEq | .gt | .gtEq => .ofTruth (S.comparison op v w)
  | .add | .sub | .mul | .div | .mod | .concat => S.arith dataType op v w

/-- LIKE: unknown if one side is NULL. -/
def likeOf : Value → Value → Truth
  | .null, _ => none
  | _, .null => none
  | v, w => S.like v w

/-- The condition of a branch of CASE, compared with the operand if there is one. -/
def branch : Option Value → Value → Truth
  | some v, w => S.comparison .eq v w
  | none, w => S.truthOf w

/-- The first result whose condition holds. -/
def choose : List (Truth × Value) → Value → Value
  | [], e => e
  | (t, v) :: l, e => if t = some true then v else choose l e

end Scalars

/-- The value in a column of a row. -/
def Row.get (row : Row) (i : ℕ) : Value := row.getD i .null

mutual

/-- The value of an expression on a row. -/
def BoundExpr.eval (S : Scalars) (row : Row) : BoundExpr → Value
  | ⟨kind, dataType, _⟩ => kind.eval S row dataType

/-- The value of an expression of this kind and type on a row. -/
def BoundExprKind.eval (S : Scalars) (row : Row) (dataType : DataType) : BoundExprKind → Value
  | .literal lit => .ofLiteral lit
  | .columnRef c => row.get c.scopeIndex
  | .binaryOp left op right => S.binary dataType op (left.eval S row) (right.eval S row)
  | .unaryOp .neg expr => S.neg dataType (expr.eval S row)
  | .unaryOp .not expr => .ofTruth (S.truthOf (expr.eval S row)).not
  | .isNull expr => .bool (expr.eval S row = .null)
  | .isNotNull expr => .bool (expr.eval S row ≠ .null)
  | .like expr pattern negated =>
    .ofTruth ((S.likeOf (expr.eval S row) (pattern.eval S row)).negateIf negated)
  | .between expr low high negated =>
    let v := expr.eval S row
    .ofTruth (((S.comparison .ltEq (low.eval S row) v).and
      (S.comparison .ltEq v (high.eval S row))).negateIf negated)
  | .inList expr list negated =>
    let v := expr.eval S row
    .ofTruth ((Truth.any ((evalList S row list).map (S.comparison .eq v))).negateIf negated)
  | .inSubquery expr subquery negated =>
    let v := expr.eval S row
    .ofTruth ((Truth.any ((S.select subquery).map
      fun r => S.comparison .eq v (r.get 0))).negateIf negated)
  | .existsSubquery subquery negated => .bool ((S.select subquery ≠ []) != negated)
  | .subquery query => ((S.select query).head?.map (·.get 0)).getD .null
  | .function ⟨name, kind, args, distinct⟩ => S.call kind name distinct (evalList S row args)
  | .cast expr targetType => S.cast targetType (expr.eval S row)
  | .case operand whenThen elseResult =>
    Scalars.choose (evalPairs S row (evalOption S row operand) whenThen)
      ((evalOption S row elseResult).getD .null)

def evalList (S : Scalars) (row : Row) : List BoundExpr → List Value
  | [] => []
  | e :: list => e.eval S row :: evalList S row list

def evalOption (S : Scalars) (row : Row) : Option BoundExpr → Option Value
  | none => none
  | some e => some (e.eval S row)

def evalPairs (S : Scalars) (row : Row) (operand : Option Value) :
    List (BoundExpr × BoundExpr) → List (Truth × Value)
  | [] => []
  | (w, t) :: list =>
    (S.branch operand (w.eval S row), t.eval S row) :: evalPairs S row operand list

end

mutual

/-- The columns that occur in an expression, at any depth; a subquery has its own. -/
def BoundExpr.columns : BoundExpr → List ℕ
  | ⟨kind, _, _⟩ => kind.columns

def BoundExprKind.columns : BoundExprKind → List ℕ
  | .literal _ => []
  | .columnRef c => [c.scopeIndex]
  | .binaryOp left _ right => left.columns ++ right.columns
  | .unaryOp _ expr => expr.columns
  | .isNull expr => expr.columns
  | .isNotNull expr => expr.columns
  | .like expr pattern _ => expr.columns ++ pattern.columns
  | .between expr low high _ => expr.columns ++ low.columns ++ high.columns
  | .inList expr list _ => expr.columns ++ columnsList list
  | .inSubquery expr _ _ => expr.columns
  | .existsSubquery _ _ => []
  | .subquery _ => []
  | .function ⟨_, _, args, _⟩ => columnsList args
  | .cast expr _ => expr.columns
  | .case operand whenThen elseResult =>
    columnsOption operand ++ columnsPairs whenThen ++ columnsOption elseResult

def columnsList : List BoundExpr → List ℕ
  | [] => []
  | e :: list => e.columns ++ columnsList list

def columnsOption : Option BoundExpr → List ℕ
  | none => []
  | some e => e.columns

def columnsPairs : List (BoundExpr × BoundExpr) → List ℕ
  | [] => []
  | (w, t) :: list => w.columns ++ t.columns ++ columnsPairs list

end

/-- A row passes a predicate that is true on it. -/
def BoundExpr.accepts (S : Scalars) (row : Row) (e : BoundExpr) : Bool :=
  S.truthOf (e.eval S row) = some true

@[simp]
theorem Scalars.truthOf_ofTruth (S : Scalars) (t : Truth) : S.truthOf (.ofTruth t) = t := by
  rcases t with _ | _ <;> rfl

section Congr

variable {S : Scalars} {row row' : Row}

mutual

/-- **An expression depends on its columns only.** -/
theorem BoundExpr.eval_congr : ∀ e : BoundExpr, (∀ i ∈ e.columns, row.get i = row'.get i) →
    e.eval S row = e.eval S row'
  | ⟨kind, dataType, _⟩, h => kind.eval_congr dataType h

theorem BoundExprKind.eval_congr (dataType : DataType) : ∀ k : BoundExprKind,
    (∀ i ∈ k.columns, row.get i = row'.get i) → k.eval S row dataType = k.eval S row' dataType
  | .literal _, _ => rfl
  | .columnRef c, h => h _ (List.mem_singleton.2 rfl)
  | .binaryOp left op right, h => by
    rw [BoundExprKind.columns, List.forall_mem_append] at h
    rw [BoundExprKind.eval, BoundExprKind.eval, left.eval_congr h.1, right.eval_congr h.2]
  | .unaryOp .neg expr, h => by rw [BoundExprKind.eval, BoundExprKind.eval, expr.eval_congr h]
  | .unaryOp .not expr, h => by rw [BoundExprKind.eval, BoundExprKind.eval, expr.eval_congr h]
  | .isNull expr, h => by rw [BoundExprKind.eval, BoundExprKind.eval, expr.eval_congr h]
  | .isNotNull expr, h => by rw [BoundExprKind.eval, BoundExprKind.eval, expr.eval_congr h]
  | .like expr pattern negated, h => by
    rw [BoundExprKind.columns, List.forall_mem_append] at h
    rw [BoundExprKind.eval, BoundExprKind.eval, expr.eval_congr h.1, pattern.eval_congr h.2]
  | .between expr low high negated, h => by
    rw [BoundExprKind.columns, List.forall_mem_append, List.forall_mem_append] at h
    rw [BoundExprKind.eval, BoundExprKind.eval, expr.eval_congr h.1.1, low.eval_congr h.1.2,
      high.eval_congr h.2]
  | .inList expr list negated, h => by
    rw [BoundExprKind.columns, List.forall_mem_append] at h
    rw [BoundExprKind.eval, BoundExprKind.eval, expr.eval_congr h.1, evalList_congr list h.2]
  | .inSubquery expr subquery negated, h => by rw [BoundExprKind.eval, BoundExprKind.eval, expr.eval_congr h]
  | .existsSubquery _ _, _ => rfl
  | .subquery _, _ => rfl
  | .function ⟨_, _, args, _⟩, h => by rw [BoundExprKind.eval, BoundExprKind.eval, evalList_congr args h]
  | .cast expr targetType, h => by rw [BoundExprKind.eval, BoundExprKind.eval, expr.eval_congr h]
  | .case operand whenThen elseResult, h => by
    rw [BoundExprKind.columns, List.forall_mem_append, List.forall_mem_append] at h
    rw [BoundExprKind.eval, BoundExprKind.eval, evalOption_congr operand h.1.1,
      evalPairs_congr _ whenThen h.1.2,
      evalOption_congr elseResult h.2]

theorem evalList_congr : ∀ list : List BoundExpr, (∀ i ∈ columnsList list, row.get i = row'.get i) →
    evalList S row list = evalList S row' list
  | [], _ => rfl
  | e :: list, h => by
    rw [columnsList, List.forall_mem_append] at h
    rw [evalList, evalList, e.eval_congr h.1, evalList_congr list h.2]

theorem evalOption_congr : ∀ o : Option BoundExpr, (∀ i ∈ columnsOption o, row.get i = row'.get i) →
    evalOption S row o = evalOption S row' o
  | none, _ => rfl
  | some e, h => by rw [evalOption, evalOption, e.eval_congr h]

theorem evalPairs_congr (operand : Option Value) : ∀ list : List (BoundExpr × BoundExpr),
    (∀ i ∈ columnsPairs list, row.get i = row'.get i) →
      evalPairs S row operand list = evalPairs S row' operand list
  | [], _ => rfl
  | (w, t) :: list, h => by
    rw [columnsPairs, List.forall_mem_append, List.forall_mem_append] at h
    rw [evalPairs, evalPairs, w.eval_congr h.1.1, t.eval_congr h.1.2, evalPairs_congr operand list h.2]

end

theorem BoundExpr.accepts_congr {e : BoundExpr} (h : ∀ i ∈ e.columns, row.get i = row'.get i) :
    e.accepts S row = e.accepts S row' := by
  rw [accepts, accepts, e.eval_congr h]

end Congr
end Abdb
