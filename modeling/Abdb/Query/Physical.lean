/-
# The meaning of a physical plan

The rows a physical plan stands for, read as `Query/Relation.lean` reads a logical plan.  A hash
join is the join by its keys and its residual condition, a scan gives the rows that pass all its
predicates, and TopN sorts, skips the offset and takes the limit.
-/

import Abdb.Optimizer.HashJoin

namespace Abdb
namespace PhysicalPlan

/-- The rows a plan stands for. -/
def rows (I : Interp) : PhysicalPlan → List Row
  | .seqScan table columns _ pushedPredicates _ =>
    ((I.table table.oid).map fun t => columns.map (t ·.oid)).filter
      (passes I.toScalars pushedPredicates)
  | .indexScan index _ columns startKey endKey residualPredicates _ =>
    ((I.indexed index startKey endKey).map fun t => columns.map (t ·.oid)).filter
      (passes I.toScalars residualPredicates)
  | .filter predicate input => (input.rows I).filter (predicate.accepts I.toScalars ·)
  | .projection exprs _ input _ => (input.rows I).map fun row => evalList I.toScalars row exprs
  | .nestedLoopJoin kind left right condition _ =>
    kind.joined.rows (fun l r => condition.accepts I.toScalars (l ++ r)) (· ++ ·)
      (· ++ Row.nulls right.schema.len) (Row.nulls left.schema.len ++ ·) (left.rows I) (right.rows I)
  | .hashJoin kind left right leftKeys rightKeys residual _ =>
    kind.joined.rows (Optimizer.hashAccepts I.toScalars leftKeys rightKeys residual) (· ++ ·)
      (· ++ Row.nulls right.schema.len) (Row.nulls left.schema.len ++ ·) (left.rows I) (right.rows I)
  | .hashAggregate groupBy aggregates input _ => I.aggregate groupBy aggregates (input.rows I)
  | .streamAggregate groupBy aggregates input _ => I.aggregate groupBy aggregates (input.rows I)
  | .sort orderBy input => (input.rows I).insertionSort (I.before orderBy)
  | .topN orderBy lim offset input =>
    I.window (some lim) offset ((input.rows I).insertionSort (I.before orderBy))
  | .limit lim offset input => I.window lim offset (input.rows I)
  | .distinct input => (input.rows I).dedup
  | .hashDistinct input => (input.rows I).dedup
  | .insert _ _ _ source _ => [[.i64 (Int64.ofNat (source.rows I).length)]]
  | .update _ _ _ input _ => [[.i64 (Int64.ofNat (input.rows I).length)]]
  | .delete _ _ input _ => [[.i64 (Int64.ofNat (input.rows I).length)]]
  | .createTable | .dropTable | .alterTable | .createIndex | .dropIndex | .nothing => []
  | .values rows _ => rows.map (evalList I.toScalars [])

end PhysicalPlan
end Abdb
