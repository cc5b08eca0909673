/-
# Planning a SELECT

`plan_select`, `plan_from`, `plan_table_ref` and the functions for aggregates of
`src/planner/planner.rs`.  None of them fails.
-/

import Abdb.Planner.Plan
import Mathlib.Tactic.Common

namespace Abdb
namespace Planner

/-- `merge_schemas`. -/
def mergeSchemas (left right : Schema) : Schema := ⟨left.columns ++ right.columns⟩

/-! ### Aggregates -/

mutual

/-- `collect_agg_from_expr`: the aggregate calls of an expression, one for each alias. -/
def collectAgg (aliasName : String) (out : List AggregateExpr) : BoundExpr → List AggregateExpr
  | ⟨kind, dataType, nullable⟩ => collectAggKind aliasName out dataType nullable kind

def collectAggKind (aliasName : String) (out : List AggregateExpr) (dataType : DataType)
    (nullable : Bool) : BoundExprKind → List AggregateExpr
  | .function ⟨_, kind, args, distinct⟩ =>
    if kind.isAggregate && !out.any (·.aliasName = aliasName) then
      out ++ [⟨kind, args.head?, distinct, aliasName, dataType, nullable⟩]
    else out
  | .binaryOp left _ right => collectAgg aliasName (collectAgg aliasName out left) right
  | .unaryOp _ expr => collectAgg aliasName out expr
  | .case operand whenThen elseResult =>
    collectAggOption aliasName
      (collectAggPairs aliasName (collectAggOption aliasName out operand) whenThen) elseResult
  | _ => out

def collectAggOption (aliasName : String) (out : List AggregateExpr) :
    Option BoundExpr → List AggregateExpr
  | none => out
  | some e => collectAgg aliasName out e

def collectAggPairs (aliasName : String) (out : List AggregateExpr) :
    List (BoundExpr × BoundExpr) → List AggregateExpr
  | [] => out
  | (w, t) :: list =>
    collectAggPairs aliasName (collectAgg aliasName (collectAgg aliasName out w) t) list

end

/-- `collect_aggregates`. -/
def collectAggregates (projections : List BoundSelectItem) (having : Option BoundExpr) :
    List AggregateExpr :=
  collectAggOption "having"
    (projections.foldl (fun out proj => collectAgg proj.aliasName out proj.expr) []) having

/-- The column of an `Aggregate` node for a GROUP BY expression. -/
def groupColumn (inputSchema : Schema) (expr : BoundExpr) (i : ℕ) : OutputColumn :=
  match expr.kind with
  | .columnRef c =>
    ⟨((inputSchema.columns[c.scopeIndex]?).map (·.name)).getD c.columnName, expr.dataType, expr.nullable⟩
  | _ => ⟨"group_" ++ toString i, expr.dataType, expr.nullable⟩

/-- `build_aggregate_schema`. -/
def buildAggregateSchema (groupBy : List BoundExpr) (aggregates : List AggregateExpr)
    (inputSchema : Schema) : Schema :=
  ⟨groupBy.zipIdx.map (fun (expr, i) => groupColumn inputSchema expr i) ++
    aggregates.map fun agg => ⟨agg.aliasName, agg.dataType, agg.nullable⟩⟩

/-! ### The plan -/

/-- The schema of a scan: a column has the alias of its table before its name, if there is one. -/
def scanSchema (columns : List Catalog.Column) (aliasName : Option String) : Schema :=
  ⟨columns.map fun c => ⟨match aliasName with
    | some a => a ++ "." ++ c.name
    | none => c.name, c.typeId, c.nullable⟩⟩

/-- The alias of a subquery before the names of its columns, if its plan is a `Projection`. -/
def qualify (aliasName : String) : LogicalPlan → LogicalPlan
  | .projection exprs aliases input schema =>
    .projection exprs aliases input
      ⟨schema.columns.map fun col => { col with name := aliasName ++ "." ++ col.name }⟩
  | plan => plan

/-- A `Filter`, if there is a predicate. -/
def filterBy (predicate : Option BoundExpr) (plan : LogicalPlan) : LogicalPlan :=
  match predicate with
  | some pred => .filter pred plan
  | none => plan

/-- An `Aggregate`, if there is something to group by or to aggregate. -/
def aggregateBy (groupBy : List BoundExpr) (aggregates : List AggregateExpr) (plan : LogicalPlan) :
    LogicalPlan :=
  if !groupBy.isEmpty || !aggregates.isEmpty then
    .aggregate groupBy aggregates plan (buildAggregateSchema groupBy aggregates plan.schema)
  else plan

/-- The operators of `plan_select` above the FROM clause. -/
def planClauses (plan : LogicalPlan) (projections : List BoundSelectItem) (whereClause : Option BoundExpr)
    (groupBy : List BoundExpr) (having : Option BoundExpr) (orderBy : List BoundOrderByExpr)
    (limit offset : Option BoundExpr) (distinct : Bool) (outputColumns : List OutputColumn) : LogicalPlan :=
  let plan := filterBy whereClause plan
  let plan := aggregateBy groupBy (collectAggregates projections having) plan
  let plan := filterBy having plan
  let plan := .projection (projections.map (·.expr)) (projections.map (·.aliasName)) plan ⟨outputColumns⟩
  let plan := if distinct then .distinct plan else plan
  let plan := if !orderBy.isEmpty then
      .sort (orderBy.map fun o => ⟨o.expr, o.asc, o.nullsFirst⟩) plan
    else plan
  if limit.isSome || offset.isSome then .limit limit offset plan else plan

mutual

/-- `plan_select`: of the FROM items only the first is planned (`plan_from`). -/
def planSelect : BoundSelect → LogicalPlan
  | ⟨projections, fromClause, joins, whereClause, groupBy, having, orderBy, limit, offset, distinct,
      outputColumns⟩ =>
    let plan := match fromClause with
      | [] => .values [[]] .empty
      | first :: _ => planJoins (planTableRef first) joins
    planClauses plan projections whereClause groupBy having orderBy limit offset distinct outputColumns

/-- `plan_table_ref`. -/
def planTableRef : BoundTableRef → LogicalPlan
  | .baseTable table columns aliasName =>
    .seqScan table columns aliasName (scanSchema columns aliasName)
  | .subquery query aliasName => qualify aliasName (planSelect query)

/-- The joins of `plan_from`, each with what is before it on the left. -/
def planJoins (plan : LogicalPlan) : List BoundJoin → LogicalPlan
  | [] => plan
  | ⟨kind, table, condition⟩ :: joins =>
    let right := planTableRef table
    planJoins (.join kind plan right condition (mergeSchemas plan.schema right.schema)) joins

end

/-- `plan_from`. -/
def planFrom (fromClause : List BoundTableRef) (joins : List BoundJoin) : LogicalPlan :=
  match fromClause with
  | [] => .values [[]] .empty
  | first :: _ => planJoins (planTableRef first) joins

end Planner
end Abdb
