/-
# Predicate pushdown

`push_predicates` of `src/optimizer/optimizer.rs`: the predicates above a plan travel down its
tree, each as far as the operators let it.  The function never fails.
-/

import Abdb.Optimizer.Expressions

namespace Abdb
namespace Optimizer

/-- `Filter` nodes above a plan, the first predicate outermost. -/
def filters (predicates : List BoundExpr) (plan : LogicalPlan) : LogicalPlan :=
  predicates.foldr .filter plan

/-- Where a join sends a predicate. -/
inductive Side
  | left | right | both
deriving DecidableEq

/-- The side of a predicate at a join whose left input has this many columns: `all_left` before
`all_right`. -/
def side (leftColCount : ℕ) (pred : BoundExpr) : Side :=
  let refs := collectScopeIndices pred
  if refs.all (· < leftColCount) then .left
  else if refs.all (leftColCount ≤ ·) then .right
  else .both

/-- `left_preds` of a join. -/
def leftPreds (leftColCount : ℕ) (predicates : List BoundExpr) : List BoundExpr :=
  predicates.filter (side leftColCount · = .left)

/-- `right_preds` of a join, in the numbering of the right input. -/
def rightPreds (leftColCount : ℕ) (predicates : List BoundExpr) : List BoundExpr :=
  (predicates.filter (side leftColCount · = .right)).map (shiftScopeIndices (-leftColCount))

/-- `join_preds` of a join. -/
def joinPreds (leftColCount : ℕ) (predicates : List BoundExpr) : List BoundExpr :=
  predicates.filter (side leftColCount · = .both)

/-- `push_predicates`. -/
def pushPredicates : LogicalPlan → List BoundExpr → LogicalPlan
  | .filter predicate input, predicates =>
    pushPredicates input (predicates ++ splitConjunctions predicate)
  | .seqScan table columns aliasName schema, predicates =>
    filters predicates (.seqScan table columns aliasName schema)
  | .projection exprs aliases input schema, predicates =>
    .projection exprs aliases (pushPredicates input predicates) schema
  | .join kind left right condition schema, predicates =>
    let leftColCount := left.schema.len
    filters (joinPreds leftColCount predicates)
      (.join kind (pushPredicates left (leftPreds leftColCount predicates))
        (pushPredicates right (rightPreds leftColCount predicates)) condition schema)
  | .aggregate groupBy aggregates input schema, predicates =>
    filters predicates (.aggregate groupBy aggregates (pushPredicates input []) schema)
  | .sort orderBy input, predicates => .sort orderBy (pushPredicates input predicates)
  | .limit limit offset input, predicates =>
    filters predicates (.limit limit offset (pushPredicates input []))
  | .distinct input, predicates => .distinct (pushPredicates input predicates)
  | .update table tableColumns assignments input schema, predicates =>
    .update table tableColumns assignments (pushPredicates input predicates) schema
  | .delete table tableColumns input schema, predicates =>
    .delete table tableColumns (pushPredicates input predicates) schema
  | other, predicates => filters predicates other

end Optimizer
end Abdb
