/-
# Physical plans

`src/optimizer/physical.rs` and `to_physical` of `src/optimizer/optimizer.rs`: an algorithm for
each operator of a logical plan, a hash join for a join with equalities between columns, an
index scan for a filter on an indexed column.
-/

import Abdb.Optimizer.Expressions

namespace Abdb

/-- `PhysicalPlan`; the records of aggregates and sort keys are those of a logical plan. -/
inductive PhysicalPlan
  | seqScan (table : Catalog.Table) (columns : List Catalog.Column) (aliasName : Option String)
      (pushedPredicates : List BoundExpr) (schema : Schema)
  | indexScan (index : Catalog.Index) (table : Catalog.Table) (columns : List Catalog.Column)
      (startKey endKey : Option BoundExpr) (residualPredicates : List BoundExpr) (schema : Schema)
  | filter (predicate : BoundExpr) (input : PhysicalPlan)
  | projection (exprs : List BoundExpr) (aliases : List String) (input : PhysicalPlan)
      (schema : Schema)
  | nestedLoopJoin (kind : BoundJoinKind) (left right : PhysicalPlan)
      (condition : BoundJoinCondition) (schema : Schema)
  | hashJoin (kind : BoundJoinKind) (left right : PhysicalPlan) (leftKeys rightKeys : List BoundExpr)
      (residual : Option BoundExpr) (schema : Schema)
  | hashAggregate (groupBy : List BoundExpr) (aggregates : List AggregateExpr)
      (input : PhysicalPlan) (schema : Schema)
  | streamAggregate (groupBy : List BoundExpr) (aggregates : List AggregateExpr)
      (input : PhysicalPlan) (schema : Schema)
  | sort (orderBy : List SortKey) (input : PhysicalPlan)
  | topN (orderBy : List SortKey) (limit : BoundExpr) (offset : Option BoundExpr)
      (input : PhysicalPlan)
  | limit (limit offset : Option BoundExpr) (input : PhysicalPlan)
  | distinct (input : PhysicalPlan)
  | hashDistinct (input : PhysicalPlan)
  | insert (table : Catalog.Table) (tableColumns targetColumns : List Catalog.Column)
      (source : PhysicalPlan) (schema : Schema)
  | update (table : Catalog.Table) (tableColumns : List Catalog.Column)
      (assignments : List BoundAssignment) (input : PhysicalPlan) (schema : Schema)
  | delete (table : Catalog.Table) (tableColumns : List Catalog.Column) (input : PhysicalPlan)
      (schema : Schema)
  | values (rows : List (List BoundExpr)) (schema : Schema)
  | createTable | dropTable | alterTable | createIndex | dropIndex
  | nothing

/-- `PhysicalPlan::schema`. -/
def PhysicalPlan.schema : PhysicalPlan → Schema
  | .seqScan _ _ _ _ schema => schema
  | .indexScan _ _ _ _ _ _ schema => schema
  | .filter _ input => input.schema
  | .projection _ _ _ schema => schema
  | .nestedLoopJoin _ _ _ _ schema => schema
  | .hashJoin _ _ _ _ _ _ schema => schema
  | .hashAggregate _ _ _ schema => schema
  | .streamAggregate _ _ _ schema => schema
  | .sort _ input => input.schema
  | .topN _ _ _ input => input.schema
  | .limit _ _ input => input.schema
  | .distinct input => input.schema
  | .hashDistinct input => input.schema
  | .insert _ _ _ _ schema => schema
  | .update _ _ _ _ schema => schema
  | .delete _ _ _ schema => schema
  | .values _ schema => schema
  | .createTable | .dropTable | .alterTable | .createIndex | .dropIndex | .nothing => .empty

namespace Optimizer

/-! ### Equi-join keys -/

/-- The sides of an equality. -/
def equality (e : BoundExpr) : Option (BoundExpr × BoundExpr) :=
  match e.kind with
  | .binaryOp left .eq right => some (left, right)
  | _ => none

/-- The sides of an equality whose sides both mention columns, and none in common. -/
def equiSides (part : BoundExpr) : Option (BoundExpr × BoundExpr) :=
  (equality part).filter fun (left, right) =>
    let leftRefs := collectScopeIndices left
    let rightRefs := collectScopeIndices right
    !leftRefs.isEmpty && !rightRefs.isEmpty && leftRefs.all fun i => rightRefs.all (i ≠ ·)

/-- `extract_equi_keys`: the left keys, the right keys and what is left of the condition. -/
def extractEquiKeys :
    BoundJoinCondition → Option (List BoundExpr × List BoundExpr × Option BoundExpr)
  | .on expr =>
    let parts := splitConjunctions expr
    let keys := parts.filterMap equiSides
    if keys.isEmpty then none
    else some (keys.map Prod.fst, keys.map Prod.snd,
      conjoin (parts.filter fun part => (equiSides part).isNone))
  | .using exprs | .natural exprs =>
    let keys := exprs.filterMap equality
    if keys.isEmpty then none else some (keys.map Prod.fst, keys.map Prod.snd, none)
  | .none => none

/-! ### Index scans -/

/-- `is_literal`. -/
def isLiteral (e : BoundExpr) : Bool :=
  match e.kind with
  | .literal _ => true
  | _ => false

/-- `flip_op`: the comparison with its sides exchanged. -/
def flipOp : BinaryOp → Option BinaryOp
  | .lt => some .gt
  | .ltEq => some .gtEq
  | .gt => some .lt
  | .gtEq => some .ltEq
  | .eq => some .eq
  | _ => none

/-- `extract_index_predicate`: a comparison of a column with a literal. -/
def extractIndexPredicate (pred : BoundExpr) : Option (ℕ × BinaryOp × BoundExpr) :=
  match pred.kind with
  | .binaryOp left op right =>
    if op ∈ [BinaryOp.eq, .lt, .ltEq, .gt, .gtEq] then
      match left.kind, isLiteral right, right.kind, isLiteral left with
      | .columnRef c, true, _, _ => some (c.scopeIndex, op, right)
      | _, _, .columnRef c, true => (flipOp op).map fun flipped => (c.scopeIndex, flipped, left)
      | _, _, _, _ => none
    else none
  | _ => none

/-- `range_from_op`: the first and the last key of a range. -/
def rangeFromOp (op : BinaryOp) (key : BoundExpr) : Option BoundExpr × Option BoundExpr :=
  match op with
  | .eq => (some key, some key)
  | .gt | .gtEq => (some key, none)
  | .lt | .ltEq => (none, some key)
  | _ => (none, none)

/-- `find_index_for_column`, which finds none. -/
def findIndexForColumn (_tableOid _columnOid : OId) : Option Catalog.Index := none

/-- `try_index_scan`: a scan of an index for the first predicate that has one. -/
def tryIndexScan (findIndex : OId → OId → Option Catalog.Index) (table : Catalog.Table)
    (columns : List Catalog.Column) (schema : Schema) (predicates : List BoundExpr) :
    Option PhysicalPlan :=
  predicates.zipIdx.findSome? fun (pred, predIdx) => do
    let (colScopeIdx, op, keyExpr) ← extractIndexPredicate pred
    let col ← columns[colScopeIdx]?
    let index ← findIndex table.oid col.oid
    let (startKey, endKey) := rangeFromOp op keyExpr
    some (.indexScan index table columns startKey endKey (predicates.eraseIdx predIdx) schema)

/-! ### The plan -/

/-- `to_physical`.  Only a filter on a scan looks for an index. -/
def toPhysical (findIndex : OId → OId → Option Catalog.Index) : LogicalPlan → PhysicalPlan
  | .nothing => .nothing
  | .createTable => .createTable
  | .dropTable => .dropTable
  | .alterTable => .alterTable
  | .createIndex => .createIndex
  | .dropIndex => .dropIndex
  | .values rows schema => .values rows schema
  | .filter predicate (.seqScan table columns aliasName schema) =>
    let parts := splitConjunctions predicate
    match tryIndexScan findIndex table columns schema parts with
    | some physIndex => physIndex
    | none => .filter ((conjoin parts).getD predicate) (.seqScan table columns aliasName [] schema)
  | .seqScan table columns aliasName schema => .seqScan table columns aliasName [] schema
  | .indexScan index table columns startKey endKey schema =>
    .indexScan index table columns startKey endKey [] schema
  | .filter predicate input => .filter predicate (toPhysical findIndex input)
  | .projection exprs aliases input schema =>
    .projection exprs aliases (toPhysical findIndex input) schema
  | .join kind left right condition schema =>
    let left := toPhysical findIndex left
    let right := toPhysical findIndex right
    match extractEquiKeys condition with
    | some (leftKeys, rightKeys, residual) =>
      .hashJoin kind left right leftKeys
        (rightKeys.map (shiftScopeIndices (-left.schema.len))) residual schema
    | none => .nestedLoopJoin kind left right condition schema
  | .aggregate groupBy aggregates input schema =>
    .hashAggregate groupBy aggregates (toPhysical findIndex input) schema
  | .sort orderBy input => .sort orderBy (toPhysical findIndex input)
  | .limit limit offset input => .limit limit offset (toPhysical findIndex input)
  | .distinct input => .hashDistinct (toPhysical findIndex input)
  | .insert table tableColumns targetColumns source schema =>
    .insert table tableColumns targetColumns (toPhysical findIndex source) schema
  | .update table tableColumns assignments input schema =>
    .update table tableColumns assignments (toPhysical findIndex input) schema
  | .delete table tableColumns input schema =>
    .delete table tableColumns (toPhysical findIndex input) schema

end Optimizer
end Abdb
