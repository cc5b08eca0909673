/-
# One reading of statements and plans

`Semantics` reads a bound SELECT as a whole, `Interp` reads a plan operator by operator.  An
`Instance` of a database, its tuples and the meaning of the operations on values, gives both: the keys
of ORDER BY are compared one after the other, a subquery has the rows of its SELECT, and an `Aggregate`
node has a row for each group.

Without aggregate calls an expression has the same value either way (`eval_interp`).
-/

import Abdb.Lib.Sorting
import Abdb.Query.Select

namespace Abdb

/-- What is in a database, and the meaning of the operations on values there.  What `Scalars` says of
subqueries, of COALESCE and of NULLIF is not asked. -/
structure Instance extends Scalars where
  /-- The tuples of a table. -/
  table : OId → List (OId → Value)
  /-- SUM and AVG, of values that are not NULL, at the type of the result. -/
  total : DataType → FunctionKind → List Value → Value
  /-- The order of values for a key of ORDER BY: ascending or not, NULLs first or not. -/
  le : Bool × Option Bool → Value → Value → Prop
  decidableLe : ∀ key, DecidableRel (le key)
  le_trans : ∀ key u v w, le key u v → le key v w → le key u w
  le_total : ∀ key v w, le key v w ∨ le key w v
  /-- The number of rows a LIMIT or OFFSET asks for. -/
  count : Value → Option ℕ

namespace Instance

variable (J : Instance)

instance (key : Bool × Option Bool) : DecidableRel (J.le key) := J.decidableLe key

/-- The reading of a bound SELECT. -/
def semantics : Semantics :=
  { J.toScalars with
    table := J.table
    total := J.total
    sort := fun keys rows => rows.insertionSort fun a b => KeysLE J.le .null keys a.1 b.1
    perm_sort := fun _ rows => rows.perm_insertionSort _
    count := J.count }

/-- The reading of the operations on values in a plan. -/
def scalars : Scalars :=
  { J.toScalars with
    select := fun q => q.rows J.semantics
    call := fun kind name distinct vs => J.semantics.apply name kind distinct vs }

/-- The values of some expressions on a row. -/
def values (list : List BoundExpr) (row : Row) : List Value := list.map (·.eval J.scalars row)

/-- The rows of an `Aggregate` node: the keys of each group and its aggregates. -/
def groupRows (groupBy : List BoundExpr) (aggregates : List AggregateExpr) (rows : List Row) : List Row :=
  (contexts true (if groupBy.isEmpty then none else some (J.values groupBy)) rows).map fun c =>
    J.values groupBy c.row ++ aggregates.map fun agg =>
      J.semantics.aggregate agg.dataType agg.kind agg.distinct
        (c.group.map fun row => (agg.arg.map (·.eval J.scalars row)).getD .null)

/-- The flags of a sort key. -/
def flags (key : SortKey) : Bool × Option Bool := (key.asc, key.nullsFirst)

/-- The order of a `Sort` node. -/
def before (keys : List SortKey) (row row' : Row) : Prop :=
  KeysLE J.le .null (keys.map flags) (J.values (keys.map (·.expr)) row) (J.values (keys.map (·.expr)) row')

/-- The reading of a plan.  A scan of an index, which no plan has, finds nothing. -/
def interp : Interp :=
  { J.scalars with
    table := J.table
    indexed := fun _ _ _ => []
    aggregate := J.groupRows
    length_aggregate := by
      intro groupBy aggregates rows row hrow
      obtain ⟨c, -, rfl⟩ := List.mem_map.1 hrow
      rw [List.length_append, values, List.length_map, List.length_map]
    before := J.before
    decidableBefore := fun _ _ _ => KeysLE.decidable J.le .null _ _ _
    before_trans := fun _ => ⟨fun _ _ _ h h' => KeysLE.trans J.le_trans h h'⟩
    before_total := fun _ => ⟨fun _ _ => KeysLE.total J.le_total _⟩
    count := J.count }

/-- An instance that knows equality and nothing else, over some tables. -/
def plain (table : OId → List (OId → Value)) : Instance where
  toScalars := (Semantics.plain table).toScalars
  table := table
  total _ _ _ := .null
  le _ _ _ := True
  decidableLe _ _ _ := .isTrue trivial
  le_trans _ _ _ _ _ _ := trivial
  le_total _ _ _ := .inl trivial
  count _ := none

variable {J} {c : Context}

theorem truthOf_eq (v : Value) : J.scalars.truthOf v = J.semantics.truthOf v := by cases v <;> rfl

theorem comparison_eq (op : BinaryOp) (v w : Value) :
    J.scalars.comparison op v w = J.semantics.comparison op v w := by cases v <;> cases w <;> rfl

theorem likeOf_eq (v w : Value) : J.scalars.likeOf v w = J.semantics.likeOf v w := by cases v <;> cases w <;> rfl

theorem binary_eq (dataType : DataType) (op : BinaryOp) (v w : Value) :
    J.scalars.binary dataType op v w = J.semantics.binary dataType op v w := by
  cases op <;> simp only [Scalars.binary, truthOf_eq, comparison_eq] <;> rfl

theorem branch_eq (operand : Option Value) (w : Value) :
    J.scalars.branch operand w = J.semantics.branch operand w := by
  cases operand with
  | none => exact truthOf_eq w
  | some v => exact comparison_eq .eq v w

mutual

/-- **Without aggregates an expression has one value**, in a SELECT and in a plan. -/
theorem eval_interp : ∀ e : BoundExpr, e.aggregateCalls = [] → e.eval J.scalars c.row = e.value J.semantics c
  | ⟨kind, dataType, _⟩, h => evalKind_interp dataType kind h

theorem evalKind_interp (dataType : DataType) : ∀ kind : BoundExprKind, kind.aggregateCalls = [] →
    kind.eval J.scalars c.row dataType = kind.value J.semantics dataType c
  | .literal _, _ => rfl
  | .columnRef _, _ => rfl
  | .binaryOp left op right, h => by
    rw [BoundExprKind.aggregateCalls, List.append_eq_nil_iff] at h
    rw [BoundExprKind.eval, BoundExprKind.value, eval_interp left h.1, eval_interp right h.2, binary_eq]
  | .unaryOp .neg expr, h => by
    rw [BoundExprKind.eval, BoundExprKind.value, eval_interp expr h]
    rfl
  | .unaryOp .not expr, h => by
    rw [BoundExprKind.eval, BoundExprKind.value, eval_interp expr h, truthOf_eq]
  | .isNull expr, h => by rw [BoundExprKind.eval, BoundExprKind.value, eval_interp expr h]
  | .isNotNull expr, h => by rw [BoundExprKind.eval, BoundExprKind.value, eval_interp expr h]
  | .like expr pattern negated, h => by
    rw [BoundExprKind.aggregateCalls, List.append_eq_nil_iff] at h
    rw [BoundExprKind.eval, BoundExprKind.value, eval_interp expr h.1, eval_interp pattern h.2, likeOf_eq]
  | .between expr low high negated, h => by
    rw [BoundExprKind.aggregateCalls, List.append_eq_nil_iff, List.append_eq_nil_iff] at h
    rw [BoundExprKind.eval, BoundExprKind.value, eval_interp expr h.1.1, eval_interp low h.1.2,
      eval_interp high h.2]
    simp only [comparison_eq]
  | .inList expr list negated, h => by
    rw [BoundExprKind.aggregateCalls, List.append_eq_nil_iff] at h
    rw [BoundExprKind.eval, BoundExprKind.value, eval_interp expr h.1, evalList_interp list h.2,
      List.map_congr_left fun w _ => comparison_eq (J := J) .eq _ w]
  | .inSubquery expr subquery negated, h => by
    rw [BoundExprKind.eval, BoundExprKind.value, eval_interp expr h,
      List.map_congr_left fun r _ => comparison_eq (J := J) .eq _ (r.get 0)]
    rfl
  | .existsSubquery subquery negated, _ => by
    rw [BoundExprKind.eval, BoundExprKind.value]
    show Value.bool (decide (subquery.rows J.semantics ≠ []) != negated) = _
    cases subquery.rows J.semantics <;> cases negated <;> simp
  | .subquery _, _ => rfl
  | .function ⟨name, kind, args, distinct⟩, h => by
    rw [BoundExprKind.aggregateCalls, List.append_eq_nil_iff] at h
    have hkind : ¬ kind.isAggregate = true := by
      intro hkind
      rw [if_pos hkind] at h
      cases h.1
    rw [BoundExprKind.eval, BoundExprKind.value, if_neg hkind, evalList_interp args h.2]
    rfl
  | .cast expr targetType, h => by
    rw [BoundExprKind.eval, BoundExprKind.value, eval_interp expr h]
    rfl
  | .case operand whenThen elseResult, h => by
    rw [BoundExprKind.aggregateCalls, List.append_eq_nil_iff, List.append_eq_nil_iff] at h
    rw [BoundExprKind.eval, BoundExprKind.value, evalOption_interp operand h.1.1,
      evalPairs_interp _ whenThen h.1.2, evalOption_interp elseResult h.2]

theorem evalList_interp : ∀ list : List BoundExpr, aggregateCallsList list = [] →
    evalList J.scalars c.row list = valueList J.semantics list c
  | [], _ => rfl
  | e :: list, h => by
    rw [aggregateCallsList, List.append_eq_nil_iff] at h
    rw [evalList, valueList, eval_interp e h.1, evalList_interp list h.2]

theorem evalOption_interp : ∀ o : Option BoundExpr, aggregateCallsOption o = [] →
    evalOption J.scalars c.row o = valueOption J.semantics o c
  | none, _ => rfl
  | some e, h => by rw [evalOption, valueOption, eval_interp e h]

theorem evalPairs_interp (operand : Option Value) : ∀ list : List (BoundExpr × BoundExpr),
    aggregateCallsPairs list = [] →
      evalPairs J.scalars c.row operand list = valuePairs J.semantics list operand c
  | [], _ => rfl
  | (w, t) :: list, h => by
    rw [aggregateCallsPairs, List.append_eq_nil_iff, List.append_eq_nil_iff] at h
    rw [evalPairs, valuePairs, eval_interp w h.1.1, eval_interp t h.1.2, evalPairs_interp operand list h.2,
      branch_eq]

end

end Instance
end Abdb
