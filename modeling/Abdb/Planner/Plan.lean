/-
# Logical plans

`src/planner/plan.rs`: the tree of operators a statement is planned to, and the schema of its
output.  The data of DDL statements, which no function on plans looks at, is left out.
-/

import Abdb.Binder.Bound

namespace Abdb

/-- `Schema`, the columns of an output. -/
structure Schema where
  columns : List OutputColumn
deriving DecidableEq, Repr

namespace Schema

/-- `Schema::empty`. -/
def empty : Schema := ⟨[]⟩

/-- `Schema::len`. -/
def len (s : Schema) : ℕ := s.columns.length

end Schema

/-- `AggregateExpr`, one aggregate of an `Aggregate` node. -/
structure AggregateExpr where
  kind : FunctionKind
  arg : Option BoundExpr
  distinct : Bool
  aliasName : String
  dataType : DataType
  nullable : Bool

/-- `SortKey`, one key of a `Sort` node. -/
structure SortKey where
  expr : BoundExpr
  asc : Bool
  nullsFirst : Option Bool

/-- `LogicalPlan`. -/
inductive LogicalPlan
  | seqScan (table : Catalog.Table) (columns : List Catalog.Column) (aliasName : Option String)
      (schema : Schema)
  | indexScan (index : Catalog.Index) (table : Catalog.Table) (columns : List Catalog.Column)
      (startKey endKey : Option BoundExpr) (schema : Schema)
  | filter (predicate : BoundExpr) (input : LogicalPlan)
  | projection (exprs : List BoundExpr) (aliases : List String) (input : LogicalPlan)
      (schema : Schema)
  | join (kind : BoundJoinKind) (left right : LogicalPlan) (condition : BoundJoinCondition)
      (schema : Schema)
  | aggregate (groupBy : List BoundExpr) (aggregates : List AggregateExpr) (input : LogicalPlan)
      (schema : Schema)
  | sort (orderBy : List SortKey) (input : LogicalPlan)
  | limit (limit offset : Option BoundExpr) (input : LogicalPlan)
  | distinct (input : LogicalPlan)
  | insert (table : Catalog.Table) (tableColumns targetColumns : List Catalog.Column)
      (source : LogicalPlan) (schema : Schema)
  | update (table : Catalog.Table) (tableColumns : List Catalog.Column)
      (assignments : List BoundAssignment) (input : LogicalPlan) (schema : Schema)
  | delete (table : Catalog.Table) (tableColumns : List Catalog.Column) (input : LogicalPlan)
      (schema : Schema)
  | createTable | dropTable | alterTable | createIndex | dropIndex
  | values (rows : List (List BoundExpr)) (schema : Schema)
  | nothing

/-- `LogicalPlan::schema`. -/
def LogicalPlan.schema : LogicalPlan → Schema
  | .seqScan _ _ _ schema => schema
  | .indexScan _ _ _ _ _ schema => schema
  | .filter _ input => input.schema
  | .projection _ _ _ schema => schema
  | .join _ _ _ _ schema => schema
  | .aggregate _ _ _ schema => schema
  | .sort _ input => input.schema
  | .limit _ _ input => input.schema
  | .distinct input => input.schema
  | .insert _ _ _ _ schema => schema
  | .update _ _ _ _ schema => schema
  | .delete _ _ _ schema => schema
  | .values _ schema => schema
  | .createTable | .dropTable | .alterTable | .createIndex | .dropIndex | .nothing => .empty

end Abdb
