/-
# Sorting and taking the first rows at once

`fuse_sort_limit` of `src/optimizer/optimizer.rs`: a limit on a sort becomes a TopN, everywhere
in a physical plan.  It keeps the schema and the rows of every plan.  It does not look below a
TopN or a StreamAggregate, and `to_physical` makes neither, so it leaves no limit on a sort in
what `to_physical` makes.
-/

import Abdb.Query.Physical

namespace Abdb
namespace Optimizer

/-- `fuse_sort_limit`. -/
def fuseSortLimit : PhysicalPlan → PhysicalPlan
  | .limit (some limit) offset (.sort orderBy input) => .topN orderBy limit offset (fuseSortLimit input)
  | .limit limit offset input => .limit limit offset (fuseSortLimit input)
  | .filter predicate input => .filter predicate (fuseSortLimit input)
  | .projection exprs aliases input schema => .projection exprs aliases (fuseSortLimit input) schema
  | .nestedLoopJoin kind left right condition schema =>
    .nestedLoopJoin kind (fuseSortLimit left) (fuseSortLimit right) condition schema
  | .hashJoin kind left right leftKeys rightKeys residual schema =>
    .hashJoin kind (fuseSortLimit left) (fuseSortLimit right) leftKeys rightKeys residual schema
  | .hashAggregate groupBy aggregates input schema =>
    .hashAggregate groupBy aggregates (fuseSortLimit input) schema
  | .sort orderBy input => .sort orderBy (fuseSortLimit input)
  | .distinct input => .distinct (fuseSortLimit input)
  | .hashDistinct input => .hashDistinct (fuseSortLimit input)
  | .insert table tableColumns targetColumns source schema =>
    .insert table tableColumns targetColumns (fuseSortLimit source) schema
  | .update table tableColumns assignments input schema =>
    .update table tableColumns assignments (fuseSortLimit input) schema
  | .delete table tableColumns input schema => .delete table tableColumns (fuseSortLimit input) schema
  | leaf => leaf

/-- No limit stands directly on a sort, at any depth. -/
def Fused : PhysicalPlan → Prop
  | .limit (some _) _ (.sort _ _) => False
  | .limit _ _ input => Fused input
  | .filter _ input => Fused input
  | .projection _ _ input _ => Fused input
  | .nestedLoopJoin _ left right _ _ => Fused left ∧ Fused right
  | .hashJoin _ left right _ _ _ _ => Fused left ∧ Fused right
  | .hashAggregate _ _ input _ => Fused input
  | .streamAggregate _ _ input _ => Fused input
  | .sort _ input => Fused input
  | .topN _ _ _ input => Fused input
  | .distinct input => Fused input
  | .hashDistinct input => Fused input
  | .insert _ _ _ source _ => Fused source
  | .update _ _ _ input _ => Fused input
  | .delete _ _ input _ => Fused input
  | .seqScan .. | .indexScan .. | .values .. => True
  | .createTable | .dropTable | .alterTable | .createIndex | .dropIndex | .nothing => True

/-- No TopN and no StreamAggregate, at any depth. -/
def Visited : PhysicalPlan → Prop
  | .topN .. | .streamAggregate .. => False
  | .limit _ _ input => Visited input
  | .filter _ input => Visited input
  | .projection _ _ input _ => Visited input
  | .nestedLoopJoin _ left right _ _ => Visited left ∧ Visited right
  | .hashJoin _ left right _ _ _ _ => Visited left ∧ Visited right
  | .hashAggregate _ _ input _ => Visited input
  | .sort _ input => Visited input
  | .distinct input => Visited input
  | .hashDistinct input => Visited input
  | .insert _ _ _ source _ => Visited source
  | .update _ _ _ input _ => Visited input
  | .delete _ _ input _ => Visited input
  | .seqScan .. | .indexScan .. | .values .. => True
  | .createTable | .dropTable | .alterTable | .createIndex | .dropIndex | .nothing => True

variable {plan : PhysicalPlan} {findIndex : OId → OId → Option Catalog.Index}

/-- **The schema is kept.** -/
theorem schema_fuse (plan : PhysicalPlan) : (fuseSortLimit plan).schema = plan.schema := by
  induction plan with
  | filter predicate input ih => exact ih
  | sort orderBy input ih => exact ih
  | distinct input ih => exact ih
  | hashDistinct input ih => exact ih
  | limit limit offset input ih =>
    cases limit with
    | none => exact ih
    | some limit =>
      cases input with
      | sort orderBy input => exact ih
      | _ => exact ih
  | _ => rfl

/-- **The rows are kept**, whatever is in the tables. -/
theorem rows_fuse (I : Interp) (plan : PhysicalPlan) : (fuseSortLimit plan).rows I = plan.rows I := by
  induction plan with
  | filter predicate input ih => rw [fuseSortLimit, PhysicalPlan.rows, PhysicalPlan.rows, ih]
  | projection exprs aliases input schema ih =>
    rw [fuseSortLimit, PhysicalPlan.rows, PhysicalPlan.rows, ih]
  | nestedLoopJoin kind left right condition schema ihl ihr =>
    rw [fuseSortLimit, PhysicalPlan.rows, PhysicalPlan.rows, ihl, ihr, schema_fuse, schema_fuse]
  | hashJoin kind left right leftKeys rightKeys residual schema ihl ihr =>
    rw [fuseSortLimit, PhysicalPlan.rows, PhysicalPlan.rows, ihl, ihr, schema_fuse, schema_fuse]
  | hashAggregate groupBy aggregates input schema ih =>
    rw [fuseSortLimit, PhysicalPlan.rows, PhysicalPlan.rows, ih]
  | sort orderBy input ih => rw [fuseSortLimit, PhysicalPlan.rows, PhysicalPlan.rows, ih]
  | distinct input ih => rw [fuseSortLimit, PhysicalPlan.rows, PhysicalPlan.rows, ih]
  | hashDistinct input ih => rw [fuseSortLimit, PhysicalPlan.rows, PhysicalPlan.rows, ih]
  | insert table tableColumns targetColumns source schema ih =>
    rw [fuseSortLimit, PhysicalPlan.rows, PhysicalPlan.rows, ih]
  | update table tableColumns assignments input schema ih =>
    rw [fuseSortLimit, PhysicalPlan.rows, PhysicalPlan.rows, ih]
  | delete table tableColumns input schema ih =>
    rw [fuseSortLimit, PhysicalPlan.rows, PhysicalPlan.rows, ih]
  | limit limit offset input ih =>
    -- A TopN has the rows of the limit on the sort, and the sort below keeps its rows.
    have hwindow : (PhysicalPlan.limit limit offset (fuseSortLimit input)).rows I =
        (PhysicalPlan.limit limit offset input).rows I := by
      rw [PhysicalPlan.rows, PhysicalPlan.rows, ih]
    cases limit with
    | none => exact hwindow
    | some limit =>
      cases input with
      | sort orderBy input => exact hwindow
      | _ => exact hwindow
  | _ => rfl

/-- Whether a plan is a sort. -/
def isSort : PhysicalPlan → Bool
  | .sort .. => true
  | _ => false

/-- A plan is a sort after the pass exactly if it was one before. -/
theorem isSort_fuse (plan : PhysicalPlan) : isSort (fuseSortLimit plan) = isSort plan := by
  cases plan with
  | limit limit offset input =>
    cases limit with
    | none => rfl
    | some limit => cases input <;> rfl
  | _ => rfl

theorem fused_limit {limit offset : Option BoundExpr} (h : Fused plan) (hsort : isSort plan = false) :
    Fused (.limit limit offset plan) := by
  cases limit with
  | none => exact h
  | some limit =>
    cases plan with
    | sort orderBy input => cases hsort
    | _ => exact h

/-- **No limit is left on a sort** where the pass looks at every operator. -/
theorem fused_fuse (h : Visited plan) : Fused (fuseSortLimit plan) := by
  induction plan with
  | limit limit offset input ih =>
    have hinput := ih h
    cases limit with
    | none => exact hinput
    | some limit =>
      cases input with
      | sort orderBy input => exact hinput
      | _ => exact fused_limit hinput (isSort_fuse _)
  | nestedLoopJoin kind left right condition schema ihl ihr => exact ⟨ihl h.1, ihr h.2⟩
  | hashJoin kind left right leftKeys rightKeys residual schema ihl ihr => exact ⟨ihl h.1, ihr h.2⟩
  | topN orderBy limit offset input ih => exact h.elim
  | streamAggregate groupBy aggregates input schema ih => exact h.elim
  | seqScan | indexScan | values => trivial
  | createTable | dropTable | alterTable | createIndex | dropIndex | nothing => trivial
  | _ => rename_i ih; exact ih h

theorem visited_tryIndexScan {table : Catalog.Table} {columns : List Catalog.Column} {schema : Schema}
    {predicates : List BoundExpr} (h : tryIndexScan findIndex table columns schema predicates = some plan) :
    Visited plan := by
  obtain ⟨⟨pred, idx⟩, -, hsome⟩ := List.exists_of_findSome?_eq_some h
  simp only [Option.bind_eq_bind, Option.bind_eq_some_iff, Option.some.injEq] at hsome
  obtain ⟨_, -, _, -, _, -, rfl⟩ := hsome
  trivial

/-- The pass looks at every operator of what `to_physical` makes. -/
theorem visited_toPhysical (findIndex : OId → OId → Option Catalog.Index) (plan : LogicalPlan) :
    Visited (toPhysical findIndex plan) := by
  induction plan with
  | filter predicate input ih =>
    cases input with
    | seqScan table columns aliasName schema =>
      rw [toPhysical]
      cases hindex : tryIndexScan findIndex table columns schema (splitConjunctions predicate) with
      | none => trivial
      | some physIndex => exact visited_tryIndexScan hindex
    | _ => exact ih
  | join kind left right condition schema ihl ihr =>
    rw [toPhysical]
    cases extractEquiKeys condition with
    | none => exact ⟨ihl, ihr⟩
    | some keys => exact ⟨ihl, ihr⟩
  | seqScan | indexScan | values => trivial
  | createTable | dropTable | alterTable | createIndex | dropIndex | nothing => trivial
  | _ => rename_i ih; exact ih

/-- **Fusing keeps what `to_physical` makes**: the schema, and the rows for all contents of the
tables.  It leaves no limit on a sort. -/
theorem fuse_toPhysical (findIndex : OId → OId → Option Catalog.Index) (plan : LogicalPlan) :
    (fuseSortLimit (toPhysical findIndex plan)).schema = (toPhysical findIndex plan).schema ∧
    (∀ I : Interp, (fuseSortLimit (toPhysical findIndex plan)).rows I = (toPhysical findIndex plan).rows I) ∧
    Fused (fuseSortLimit (toPhysical findIndex plan)) :=
  ⟨schema_fuse _, fun I => rows_fuse I _, fused_fuse (visited_toPhysical findIndex plan)⟩

end Optimizer
end Abdb
