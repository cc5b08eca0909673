/-
# The optimizer preserves the rows

`optimize` of `src/optimizer/optimizer.rs` pushes the predicates down, gives each operator an
algorithm and makes a TopN of a limit on a sort.  `Optimizer/PushdownSound.lean` says where a
predicate may go, `Optimizer/HashJoin.lean` when a hash join is the join.  Both are conditions on
the plan before any of the passes, since pushdown moves no join and changes no schema; under them
the physical plan has the rows of the logical plan, in the same order (`rows_optimize`).
-/

import Abdb.Optimizer.FuseSortLimit
import Mathlib.Algebra.Order.Ring.Nat

namespace Abdb
namespace Optimizer

/-- `optimize`. -/
def optimize (plan : LogicalPlan) : PhysicalPlan :=
  fuseSortLimit (toPhysical findIndexForColumn (pushPredicates plan []))

/-- The keys of a join are equalities, they can be renumbered, and they are the right way round. -/
structure JoinKeys (n m : ℕ) (condition : BoundJoinCondition) : Prop where
  equalities : Equalities condition
  shiftable : Shiftable n condition
  sided : Sided n m condition

/-- Every join of a plan may become a hash join. -/
def Hashable : LogicalPlan → Prop
  | .join _ left right condition _ =>
    JoinKeys left.schema.len right.schema.len condition ∧ Hashable left ∧ Hashable right
  | .filter _ input => Hashable input
  | .projection _ _ input _ => Hashable input
  | .aggregate _ _ input _ => Hashable input
  | .sort _ input => Hashable input
  | .limit _ _ input => Hashable input
  | .distinct input => Hashable input
  | .insert _ _ _ source _ => Hashable source
  | .update _ _ _ input _ => Hashable input
  | .delete _ _ input _ => Hashable input
  | .seqScan .. | .indexScan .. | .values .. => True
  | .createTable | .dropTable | .alterTable | .createIndex | .dropIndex | .nothing => True

/-- Each predicate of a plan may go where it is sent, and every join may become a hash join. -/
structure Optimizable (plan : LogicalPlan) : Prop where
  wellFormed : plan.WellFormed
  movable : Movable plan []
  hashable : Hashable plan

section

variable {I : Interp} {plan left right : LogicalPlan} {predicates : List BoundExpr} {condition : BoundJoinCondition}
  {kind : BoundJoinKind} {schema : Schema}

/-! ### Pushdown -/

theorem wellFormed_filters : (filters predicates plan).WellFormed ↔ plan.WellFormed := by
  induction predicates with
  | nil => rfl
  | cons p predicates ih => exact ih

theorem hashable_filters : Hashable (filters predicates plan) ↔ Hashable plan := by
  induction predicates with
  | nil => rfl
  | cons p predicates ih => exact ih

/-- **Pushdown keeps a plan well formed.** -/
theorem wellFormed_pushPredicates (predicates : List BoundExpr) (h : plan.WellFormed) :
    (pushPredicates plan predicates).WellFormed := by
  induction plan generalizing predicates with
  | filter predicate input ih => exact ih _ h
  | projection exprs aliases input schema ih => exact ⟨h.1, ih _ h.2⟩
  | join kind left right condition schema ihl ihr =>
    refine wellFormed_filters.2 ⟨?_, ihl _ h.2.1, ihr _ h.2.2⟩
    rw [schema_pushPredicates, schema_pushPredicates]
    exact h.1
  | aggregate groupBy aggregates input schema ih => exact wellFormed_filters.2 ⟨h.1, ih _ h.2⟩
  | sort orderBy input ih => exact ih _ h
  | limit limit offset input ih => exact wellFormed_filters.2 (ih _ h)
  | distinct input ih => exact ih _ h
  | update table tableColumns assignments input schema ih => exact ⟨h.1, ih _ h.2⟩
  | delete table tableColumns input schema ih => exact ⟨h.1, ih _ h.2⟩
  | _ => exact wellFormed_filters.2 h

/-- **Pushdown keeps the joins.** -/
theorem hashable_pushPredicates (predicates : List BoundExpr) (h : Hashable plan) :
    Hashable (pushPredicates plan predicates) := by
  induction plan generalizing predicates with
  | filter predicate input ih => exact ih _ h
  | projection exprs aliases input schema ih => exact ih _ h
  | join kind left right condition schema ihl ihr =>
    refine hashable_filters.2 ⟨?_, ihl _ h.2.1, ihr _ h.2.2⟩
    rw [schema_pushPredicates, schema_pushPredicates]
    exact h.1
  | aggregate groupBy aggregates input schema ih => exact hashable_filters.2 (ih _ h)
  | sort orderBy input ih => exact ih _ h
  | limit limit offset input ih => exact hashable_filters.2 (ih _ h)
  | distinct input ih => exact ih _ h
  | update table tableColumns assignments input schema ih => exact ih _ h
  | delete table tableColumns input schema ih => exact ih _ h
  | _ => exact hashable_filters.2 h

/-! ### Algorithms -/

/-- The algorithm of a join. -/
theorem toPhysical_join_cases (findIndex : OId → OId → Option Catalog.Index) (kind : BoundJoinKind)
    (left right : LogicalPlan) (condition : BoundJoinCondition) (schema : Schema) :
    toPhysical findIndex (.join kind left right condition schema) =
      .nestedLoopJoin kind (toPhysical findIndex left) (toPhysical findIndex right) condition schema ∨
    ∃ leftKeys rightKeys residual, toPhysical findIndex (.join kind left right condition schema) =
      .hashJoin kind (toPhysical findIndex left) (toPhysical findIndex right) leftKeys rightKeys residual
        schema := by
  rw [toPhysical]
  cases extractEquiKeys condition with
  | none => exact .inl rfl
  | some keys =>
    obtain ⟨leftKeys, rightKeys, residual⟩ := keys
    exact .inr ⟨_, _, _, rfl⟩

/-- **A hash join by good keys** has the rows of the join. -/
theorem rows_join (hkeys : JoinKeys left.schema.len right.schema.len condition)
    (hwf : left.WellFormed) {findIndex : OId → OId → Option Catalog.Index}
    (hl : (toPhysical findIndex left).rows I = left.rows I)
    (hr : (toPhysical findIndex right).rows I = right.rows I) :
    (toPhysical findIndex (.join kind left right condition schema)).rows I =
      (LogicalPlan.join kind left right condition schema).rows I := by
  rcases toPhysical_join_cases findIndex kind left right condition schema with
    h | ⟨leftKeys, rightKeys, residual, h⟩
  · rw [h, PhysicalPlan.rows, hl, hr, schema_toPhysical, schema_toPhysical, LogicalPlan.rows]
  · obtain ⟨rfl, rfl, rfl⟩ := toPhysical_join h
    rw [h, PhysicalPlan.rows, hl, hr, schema_toPhysical, schema_toPhysical, LogicalPlan.rows]
    refine Joined.rows_congr fun l hrow r _ => ?_
    -- the keys are read on the sides of the joined row
    rw [hashAccepts_eq (hwf.length_row hrow) hkeys.sided.left fun key hkey =>
      ⟨fun i hi => (hkeys.sided.right key hkey i hi).1, hkeys.shiftable key hkey⟩,
      accepts_condition hkeys.equalities]

/-- Without indexes a filter on a scan stays a filter. -/
theorem tryIndexScan_none {table : Catalog.Table} {columns : List Catalog.Column} :
    tryIndexScan findIndexForColumn table columns schema predicates = none := by
  rw [tryIndexScan, List.findSome?_eq_none_iff]
  rintro ⟨pred, idx⟩ -
  simp [findIndexForColumn]

/-- Conjuncts taken apart and joined again pass the same rows. -/
theorem accepts_rejoined {S : Scalars} (predicate : BoundExpr) (row : Row) :
    ((conjoin (splitConjunctions predicate)).getD predicate).accepts S row = predicate.accepts S row := by
  cases h : conjoin (splitConjunctions predicate) with
  | none => rfl
  | some e =>
    rw [Option.getD_some, ← passes_splitConjunctions predicate, ← accepts_conjoin, h]
    rfl

/-- **The algorithms compute the operators.** -/
theorem rows_toPhysical (I : Interp) (hwf : plan.WellFormed) (h : Hashable plan) :
    (toPhysical findIndexForColumn plan).rows I = plan.rows I := by
  induction plan with
  | seqScan table columns aliasName schema => exact filter_passes_nil _
  | indexScan index table columns startKey endKey schema => exact filter_passes_nil _
  | filter predicate input ih =>
    cases input with
    | seqScan table columns aliasName schema =>
      rw [toPhysical, tryIndexScan_none, PhysicalPlan.rows, LogicalPlan.rows]
      refine (congrArg _ (filter_passes_nil _)).trans ?_
      exact List.filter_congr fun row _ => accepts_rejoined predicate row
    | _ => exact congrArg _ (ih hwf h)
  | projection exprs aliases input schema ih => rw [toPhysical, PhysicalPlan.rows, ih hwf.2 h, LogicalPlan.rows]
  | join kind left right condition schema ihl ihr =>
    exact rows_join h.1 hwf.2.1 (ihl hwf.2.1 h.2.1) (ihr hwf.2.2 h.2.2)
  | aggregate groupBy aggregates input schema ih =>
    rw [toPhysical, PhysicalPlan.rows, ih hwf.2 h, LogicalPlan.rows]
  | sort orderBy input ih => rw [toPhysical, PhysicalPlan.rows, ih hwf h, LogicalPlan.rows]
  | limit limit offset input ih => rw [toPhysical, PhysicalPlan.rows, ih hwf h, LogicalPlan.rows]
  | distinct input ih => rw [toPhysical, PhysicalPlan.rows, ih hwf h, LogicalPlan.rows]
  | insert table tableColumns targetColumns source schema ih =>
    rw [toPhysical, PhysicalPlan.rows, ih hwf.2 h, LogicalPlan.rows]
  | update table tableColumns assignments input schema ih =>
    rw [toPhysical, PhysicalPlan.rows, ih hwf.2 h, LogicalPlan.rows]
  | delete table tableColumns input schema ih =>
    rw [toPhysical, PhysicalPlan.rows, ih hwf.2 h, LogicalPlan.rows]
  | _ => rfl

/-! ### The whole optimizer -/

/-- **The schema of a plan is that of its physical plan.** -/
theorem schema_optimize (plan : LogicalPlan) : (optimize plan).schema = plan.schema := by
  rw [optimize, schema_fuse, schema_toPhysical, schema_pushPredicates]

/-- **The optimizer preserves the rows**, in their order. -/
theorem rows_optimize (I : Interp) (plan : LogicalPlan) (h : Optimizable plan) :
    (optimize plan).rows I = plan.rows I ∧ (optimize plan).schema = plan.schema := by
  refine ⟨?_, schema_optimize plan⟩
  rw [optimize, rows_fuse, rows_toPhysical I (wellFormed_pushPredicates [] h.wellFormed)
    (hashable_pushPredicates [] h.hashable), rows_pushPredicates h.wellFormed h.movable, filter_passes_nil]

end

/-- The first row of a join on the columns of two tables, with a predicate on the left one. -/
def firstJoined : LogicalPlan :=
  .limit (some ⟨.literal (.integer 1), .i64, false⟩) none
    (.sort [⟨boolColumn 0, true, none⟩] (.filter (boolColumn 0) (innerJoin (sameColumn 0 1))))

theorem joinKeys_sameColumn : JoinKeys 1 1 (.on (sameColumn 0 1)) := by
  refine ⟨trivial, fun key hkey => ?_, by decide, by decide⟩
  obtain rfl := List.mem_singleton.1 (hkey : key ∈ [(boolColumn 0, boolColumn 1)])
  exact .inr rfl

theorem rows_optimize_firstJoined :
    (optimize firstJoined).rows (.plain oneTuple) = firstJoined.rows (.plain oneTuple) ∧
      (optimize firstJoined).schema = firstJoined.schema := by
  refine rows_optimize (.plain oneTuple) firstJoined
    ⟨⟨rfl, rfl, rfl⟩, ⟨?_, ?_, trivial, trivial⟩, joinKeys_sameColumn, trivial, trivial⟩
  · intro pred hpred _
    obtain rfl := List.mem_singleton.1 (hpred : pred ∈ [boolColumn 0])
    exact ⟨trivial, by decide⟩
  · intro pred hpred hside
    obtain rfl := List.mem_singleton.1 (hpred : pred ∈ [boolColumn 0])
    exact absurd hside (by decide)

end Optimizer
end Abdb
