/-
# Where references point

Expressions are bound once, in the scope of the FROM clause, and then placed above `Aggregate`
and `Projection` nodes, which number their columns anew.  WHERE, GROUP BY and the arguments of
aggregates stand on the columns they were bound to.  The rest does so exactly if the columns it
mentions have kept their numbers: in GROUP BY, for HAVING and the SELECT list of a statement
that aggregates, and in the SELECT list, for ORDER BY (`wellScoped_iff`).
-/

import Abdb.Binder.InScope
import Abdb.Planner.FromScope

namespace Abdb
namespace Planner

open Binder

/-! ### Scoped plans -/

/-- The columns an expression mentions are, in an input with these columns, those of the scope.
A column that is computed is none of the scope. -/
def Refers (cols : List (Option ℕ)) (e : BoundExpr) : Prop := ∀ i ∈ e.columns, cols[i]? = some (some i)

/-- The column of the scope that an expression is. -/
def source (cols : List (Option ℕ)) (e : BoundExpr) : Option ℕ :=
  match e.kind with
  | .columnRef c => (cols[c.scopeIndex]?).join
  | _ => none

/-- The columns of a FROM clause are those of the scope. -/
def scopeColumns (width : ℕ) : List (Option ℕ) := (List.range width).map some

/-- The columns of an `Aggregate` node. -/
def groupColumns (groupBy : List BoundExpr) (aggregates : List AggregateExpr) (cols : List (Option ℕ)) :
    List (Option ℕ) :=
  groupBy.map (source cols) ++ aggregates.map fun _ => none

/-- **A well scoped plan** above the plan of a FROM clause, with the column of the scope that each
of its columns is: every reference in its operators is to the column it was resolved to. -/
inductive Scoped (base : LogicalPlan) : LogicalPlan → List (Option ℕ) → Prop
  | base : Scoped base base (scopeColumns base.schema.len)
  | filter {plan : LogicalPlan} {cols : List (Option ℕ)} {predicate : BoundExpr}
    (h : Scoped base plan cols) (hpred : Refers cols predicate) :
    Scoped base (.filter predicate plan) cols
  | aggregate {plan : LogicalPlan} {cols : List (Option ℕ)} {groupBy : List BoundExpr}
    {aggregates : List AggregateExpr} {schema : Schema} (h : Scoped base plan cols)
    (hgroup : ∀ e ∈ groupBy, Refers cols e) (hargs : ∀ a ∈ aggregates, ∀ e ∈ a.arg, Refers cols e)
    (hlen : schema.len = groupBy.length + aggregates.length) :
    Scoped base (.aggregate groupBy aggregates plan schema) (groupColumns groupBy aggregates cols)
  | projection {plan : LogicalPlan} {cols : List (Option ℕ)} {exprs : List BoundExpr}
    {aliases : List String} {schema : Schema} (h : Scoped base plan cols)
    (hexprs : ∀ e ∈ exprs, Refers cols e) (hlen : schema.len = exprs.length) :
    Scoped base (.projection exprs aliases plan schema) (exprs.map (source cols))
  | sort {plan : LogicalPlan} {cols : List (Option ℕ)} {orderBy : List SortKey}
    (h : Scoped base plan cols) (hkeys : ∀ k ∈ orderBy, Refers cols k.expr) :
    Scoped base (.sort orderBy plan) cols
  | limit {plan : LogicalPlan} {cols : List (Option ℕ)} {limit offset : Option BoundExpr}
    (h : Scoped base plan cols) : Scoped base (.limit limit offset plan) cols
  | distinct {plan : LogicalPlan} {cols : List (Option ℕ)} (h : Scoped base plan cols) :
    Scoped base (.distinct plan) cols

namespace Scoped

variable {base plan : LogicalPlan} {cols : List (Option ℕ)}

/-- There is one source for each column of the schema. -/
theorem length (h : Scoped base plan cols) : cols.length = plan.schema.len := by
  induction h with
  | base => rw [scopeColumns, List.length_map, List.length_range]
  | filter h hpred ih => exact ih
  | aggregate h hgroup hargs hlen ih =>
    rw [groupColumns, List.length_append, List.length_map, List.length_map]
    exact hlen.symm
  | projection h hexprs hlen ih => exact (List.length_map _).trans hlen.symm
  | sort h hkeys ih => exact ih
  | limit h ih => exact ih
  | distinct h ih => exact ih

theorem size (h : Scoped base plan cols) : sizeOf base ≤ sizeOf plan := by
  induction h with
  | base => exact le_rfl
  | _ => simp only [LogicalPlan.filter.sizeOf_spec, LogicalPlan.aggregate.sizeOf_spec,
      LogicalPlan.projection.sizeOf_spec, LogicalPlan.sort.sizeOf_spec, LogicalPlan.limit.sizeOf_spec,
      LogicalPlan.distinct.sizeOf_spec]; omega

/-- The plan of the FROM clause is well scoped with the columns of the scope only. -/
theorem base_iff : Scoped base base cols ↔ cols = scopeColumns base.schema.len := by
  constructor
  · intro h
    generalize hplan : base = plan at h
    cases h with
    | base => rfl
    | filter h hpred => exact absurd h.size (by rw [LogicalPlan.filter.sizeOf_spec]; omega)
    | aggregate h hgroup hargs hlen =>
      exact absurd h.size (by rw [LogicalPlan.aggregate.sizeOf_spec]; omega)
    | projection h hexprs hlen =>
      exact absurd h.size (by rw [LogicalPlan.projection.sizeOf_spec]; omega)
    | sort h hkeys => exact absurd h.size (by rw [LogicalPlan.sort.sizeOf_spec]; omega)
    | limit h => exact absurd h.size (by rw [LogicalPlan.limit.sizeOf_spec]; omega)
    | distinct h => exact absurd h.size (by rw [LogicalPlan.distinct.sizeOf_spec]; omega)
  · rintro rfl
    exact .base

end Scoped

/-! ### The clauses of a SELECT -/

section Clauses

variable {base plan : LogicalPlan} {cols : List (Option ℕ)}

theorem size_filterBy (h : sizeOf base ≤ sizeOf plan) (o : Option BoundExpr) :
    sizeOf base ≤ sizeOf (filterBy o plan) := by
  cases o with
  | none => exact h
  | some e =>
    rw [filterBy, LogicalPlan.filter.sizeOf_spec]
    omega

theorem size_aggregateBy (h : sizeOf base ≤ sizeOf plan) (groupBy : List BoundExpr)
    (aggregates : List AggregateExpr) : sizeOf base ≤ sizeOf (aggregateBy groupBy aggregates plan) := by
  unfold aggregateBy
  split
  · rw [LogicalPlan.aggregate.sizeOf_spec]
    omega
  · exact h

theorem size_distinct (h : sizeOf base ≤ sizeOf plan) (distinct : Bool) :
    sizeOf base ≤ sizeOf (if distinct then LogicalPlan.distinct plan else plan) := by
  split
  · rw [LogicalPlan.distinct.sizeOf_spec]
    omega
  · exact h

theorem size_sort (h : sizeOf base ≤ sizeOf plan) (orderBy : List BoundOrderByExpr) :
    sizeOf base ≤ sizeOf (if !orderBy.isEmpty then
      LogicalPlan.sort (orderBy.map fun o => ⟨o.expr, o.asc, o.nullsFirst⟩) plan else plan) := by
  split
  · rw [LogicalPlan.sort.sizeOf_spec]
    omega
  · exact h

/-- A `Filter`, if there is one, stands on the columns of its input. -/
theorem scoped_filterBy (hle : sizeOf base ≤ sizeOf plan) (o : Option BoundExpr) :
    Scoped base (filterBy o plan) cols ↔ Scoped base plan cols ∧ ∀ e ∈ o, Refers cols e := by
  cases o with
  | none => exact ⟨fun h => ⟨h, nofun⟩, fun h => h.1⟩
  | some e =>
    constructor
    · intro h
      generalize hplan : filterBy (some e) plan = plan' at h
      cases h with
      | base => exact absurd hle (by rw [← hplan, filterBy, LogicalPlan.filter.sizeOf_spec]; omega)
      | filter h hpred =>
        cases hplan
        exact ⟨h, fun e' he' => Option.some.inj he' ▸ hpred⟩
      | _ => cases hplan
    · rintro ⟨h, he⟩
      exact .filter h (he e rfl)

/-- Something is to be grouped by or aggregated. -/
def Aggregates (groupBy : List BoundExpr) (aggregates : List AggregateExpr) : Prop :=
  groupBy ≠ [] ∨ aggregates ≠ []

theorem aggregates_iff {groupBy : List BoundExpr} {aggregates : List AggregateExpr} :
    (!groupBy.isEmpty || !aggregates.isEmpty) = true ↔ Aggregates groupBy aggregates := by
  rw [Bool.or_eq_true, Bool.not_eq_true', Bool.not_eq_true', ← Bool.not_eq_true, ← Bool.not_eq_true,
    List.isEmpty_iff, List.isEmpty_iff, Aggregates]

instance (groupBy : List BoundExpr) (aggregates : List AggregateExpr) :
    Decidable (Aggregates groupBy aggregates) :=
  decidable_of_iff _ aggregates_iff

/-- The columns above an `Aggregate`, if there is one. -/
def aggregateColumns (groupBy : List BoundExpr) (aggregates : List AggregateExpr) (cols : List (Option ℕ)) :
    List (Option ℕ) :=
  if Aggregates groupBy aggregates then groupColumns groupBy aggregates cols else cols

theorem len_buildAggregateSchema (groupBy : List BoundExpr) (aggregates : List AggregateExpr)
    (schema : Schema) :
    (buildAggregateSchema groupBy aggregates schema).len = groupBy.length + aggregates.length := by
  rw [buildAggregateSchema, Schema.len, List.length_append, List.length_map, List.length_map,
    List.length_zipIdx]

/-- An `Aggregate`, if there is one, numbers the columns anew. -/
theorem scoped_aggregateBy (hle : sizeOf base ≤ sizeOf plan) (groupBy : List BoundExpr)
    (aggregates : List AggregateExpr) {cols' : List (Option ℕ)} :
    Scoped base (aggregateBy groupBy aggregates plan) cols' ↔ ∃ cols, Scoped base plan cols ∧
      (∀ e ∈ groupBy, Refers cols e) ∧ (∀ a ∈ aggregates, ∀ e ∈ a.arg, Refers cols e) ∧
      cols' = aggregateColumns groupBy aggregates cols := by
  by_cases hagg : Aggregates groupBy aggregates
  · have hby : aggregateBy groupBy aggregates plan =
        .aggregate groupBy aggregates plan (buildAggregateSchema groupBy aggregates plan.schema) :=
      if_pos (aggregates_iff.2 hagg)
    simp only [aggregateColumns, if_pos hagg]
    rw [hby]
    constructor
    · intro h
      generalize hplan : LogicalPlan.aggregate groupBy aggregates plan _ = plan' at h
      cases h with
      | base => exact absurd hle (by rw [← hplan, LogicalPlan.aggregate.sizeOf_spec]; omega)
      | aggregate h hgroup hargs hlen =>
        cases hplan
        exact ⟨_, h, hgroup, hargs, rfl⟩
      | _ => cases hplan
    · rintro ⟨cols, h, hgroup, hargs, rfl⟩
      exact .aggregate h hgroup hargs (len_buildAggregateSchema ..)
  · obtain ⟨rfl, rfl⟩ : groupBy = [] ∧ aggregates = [] := by
      rwa [Aggregates, not_or, not_not, not_not] at hagg
    simp only [aggregateColumns, if_neg hagg]
    exact ⟨fun h => ⟨cols', h, List.forall_mem_nil _, List.forall_mem_nil _, rfl⟩,
      fun ⟨cols, h, _, _, heq⟩ => heq ▸ h⟩

/-- A `Projection` has the columns that its expressions are. -/
theorem scoped_projection (hle : sizeOf base ≤ sizeOf plan) {exprs : List BoundExpr}
    {aliases : List String} {schema : Schema} (hlen : schema.len = exprs.length) {cols' : List (Option ℕ)} :
    Scoped base (.projection exprs aliases plan schema) cols' ↔ ∃ cols, Scoped base plan cols ∧
      (∀ e ∈ exprs, Refers cols e) ∧ cols' = exprs.map (source cols) := by
  constructor
  · intro h
    generalize hplan : LogicalPlan.projection exprs aliases plan schema = plan' at h
    cases h with
    | base => exact absurd hle (by rw [← hplan, LogicalPlan.projection.sizeOf_spec]; omega)
    | projection h hexprs hlen =>
      cases hplan
      exact ⟨_, h, hexprs, rfl⟩
    | _ => cases hplan
  · rintro ⟨cols, h, hexprs, rfl⟩
    exact .projection h hexprs hlen

theorem scoped_distinct (hle : sizeOf base ≤ sizeOf plan) (distinct : Bool) :
    Scoped base (if distinct then .distinct plan else plan) cols ↔ Scoped base plan cols := by
  cases distinct with
  | false => exact Iff.rfl
  | true =>
    constructor
    · intro h
      generalize hplan : (if true = true then LogicalPlan.distinct plan else plan) = plan' at h
      cases h with
      | base => exact absurd hle (by rw [← hplan, if_pos rfl, LogicalPlan.distinct.sizeOf_spec]; omega)
      | distinct h =>
        cases hplan
        exact h
      | _ => cases hplan
    · exact .distinct

theorem scoped_sort (hle : sizeOf base ≤ sizeOf plan) (orderBy : List BoundOrderByExpr) :
    Scoped base (if !orderBy.isEmpty then
        .sort (orderBy.map fun o => ⟨o.expr, o.asc, o.nullsFirst⟩) plan
      else plan) cols ↔ Scoped base plan cols ∧ ∀ o ∈ orderBy, Refers cols o.expr := by
  cases orderBy with
  | nil => exact ⟨fun h => ⟨h, nofun⟩, fun h => h.1⟩
  | cons o orderBy =>
    show Scoped base (.sort _ plan) cols ↔ _
    constructor
    · intro h
      generalize hplan : LogicalPlan.sort _ plan = plan' at h
      cases h with
      | base => exact absurd hle (by rw [← hplan, LogicalPlan.sort.sizeOf_spec]; omega)
      | sort h hkeys =>
        cases hplan
        exact ⟨h, fun o' ho' => hkeys _ (List.mem_map_of_mem ho')⟩
      | _ => cases hplan
    · rintro ⟨h, ho⟩
      exact .sort h (List.forall_mem_map.2 ho)

theorem scoped_limit (hle : sizeOf base ≤ sizeOf plan) (lim offset : Option BoundExpr) :
    Scoped base (if lim.isSome || offset.isSome then .limit lim offset plan else plan) cols ↔
      Scoped base plan cols := by
  split
  · constructor
    · intro h
      generalize hplan : LogicalPlan.limit lim offset plan = plan' at h
      cases h with
      | base => exact absurd hle (by rw [← hplan, LogicalPlan.limit.sizeOf_spec]; omega)
      | limit h =>
        cases hplan
        exact h
      | _ => cases hplan
    · exact .limit
  · exact Iff.rfl

/-- What the operators from the SELECT list up stand on: the SELECT list on the columns below it,
ORDER BY on the SELECT list. -/
theorem scoped_planClauses {projections : List BoundSelectItem} {whereClause having lim offset : Option BoundExpr}
    {groupBy : List BoundExpr} {orderBy : List BoundOrderByExpr} {distinct : Bool}
    {outputColumns : List OutputColumn} (hlen : outputColumns.length = projections.length) :
    (∃ cols, Scoped base (planClauses base projections whereClause groupBy having orderBy lim offset distinct
      outputColumns) cols) ↔
    ∃ cols, Scoped base (filterBy having (aggregateBy groupBy (collectAggregates projections having)
        (filterBy whereClause base))) cols ∧
      (∀ e ∈ projections.map (·.expr), Refers cols e) ∧
      ∀ o ∈ orderBy, Refers ((projections.map (·.expr)).map (source cols)) o.expr := by
  have hsize := size_filterBy (size_aggregateBy (size_filterBy (le_refl (sizeOf base)) whereClause) groupBy
    (collectAggregates projections having)) having
  unfold planClauses
  dsimp only
  generalize filterBy having _ = plan at hsize ⊢
  have hproj : sizeOf base ≤ sizeOf (LogicalPlan.projection (projections.map (·.expr))
      (projections.map (·.aliasName)) plan ⟨outputColumns⟩) := by
    rw [LogicalPlan.projection.sizeOf_spec]
    omega
  have hschema : (⟨outputColumns⟩ : Schema).len = (projections.map (·.expr)).length :=
    hlen.trans (List.length_map _).symm
  have hdistinct := size_distinct hproj distinct
  have hsort := size_sort hdistinct orderBy
  simp only [scoped_limit hsort, scoped_sort hdistinct, scoped_distinct hproj,
    scoped_projection hsize hschema]
  constructor
  · rintro ⟨_, ⟨cols, h, hrefers, rfl⟩, horder⟩
    exact ⟨cols, h, hrefers, horder⟩
  · rintro ⟨cols, h, hrefers, horder⟩
    exact ⟨_, ⟨cols, h, hrefers, rfl⟩, horder⟩

end Clauses

/-! ### Columns that keep their numbers -/

section Keeps

variable {width : ℕ} {cols : List (Option ℕ)} {e : BoundExpr} {exprs : List BoundExpr}

/-- The column of the scope with this number is the expression at the same place of a list. -/
def Kept (exprs : List BoundExpr) (i : ℕ) : Prop :=
  ∃ e ∈ exprs[i]?, ∃ c, e.kind = .columnRef c ∧ c.scopeIndex = i

/-- Every column an expression mentions is at its own place of a list. -/
def Keeps (exprs : List BoundExpr) (e : BoundExpr) : Prop := ∀ i ∈ e.columns, Kept exprs i

theorem getElem?_scopeColumns (i : ℕ) :
    (scopeColumns width)[i]? = if i < width then some (some i) else none := by
  rw [scopeColumns, List.getElem?_map]
  split
  · rename_i hlt
    rw [List.getElem?_range hlt, Option.map_some]
  · rename_i hge
    rw [List.getElem?_eq_none (by rw [List.length_range]; omega), Option.map_none]

theorem refers_scopeColumns : Refers (scopeColumns width) e ↔ ∀ i ∈ e.columns, i < width := by
  refine forall₂_congr fun i _ => ?_
  rw [getElem?_scopeColumns]
  split <;> simp_all

/-- Where the expressions of a list refer to their columns, the places of the list that are
columns of the scope are those where such a column stands. -/
theorem map_source (h : ∀ e ∈ exprs, Refers cols e) (i : ℕ) :
    (exprs.map (source cols))[i]? = some (some i) ↔ Kept exprs i := by
  rw [List.getElem?_map, Option.map_eq_some_iff, Kept]
  refine exists_congr fun e => and_congr_right fun he => ?_
  have hrefers := h e (List.mem_of_getElem? he)
  obtain ⟨kind, dataType, nullable⟩ := e
  cases kind with
  | columnRef c =>
    have hc : cols[c.scopeIndex]? = some (some c.scopeIndex) := hrefers _ (List.mem_singleton.2 rfl)
    show (cols[c.scopeIndex]?).join = some i ↔ _
    rw [hc, Option.join_some, Option.some.injEq]
    exact ⟨fun heq => ⟨c, rfl, heq⟩, fun ⟨c', hkind, heq⟩ => by cases hkind; exact heq⟩
  | _ => exact ⟨nofun, nofun⟩

/-- The columns of an aggregate are none of the scope. -/
theorem groupColumns_eq_some {aggregates : List AggregateExpr} (i : ℕ) :
    (groupColumns exprs aggregates cols)[i]? = some (some i) ↔
      (exprs.map (source cols))[i]? = some (some i) := by
  rw [groupColumns, List.getElem?_append]
  split
  · exact Iff.rfl
  · rename_i hge
    rw [List.getElem?_eq_none (not_lt.1 hge)]
    refine ⟨fun h => ?_, nofun⟩
    rw [List.getElem?_map, Option.map_eq_some_iff] at h
    obtain ⟨_, -, h⟩ := h
    cases h

end Keeps

/-! ### Aggregates mention what the SELECT list and HAVING mention -/

section Arguments

variable {P : ℕ → Prop} {aliasName : String}

/-- The arguments of aggregates mention such columns only. -/
def ArgsIn (P : ℕ → Prop) (aggregates : List AggregateExpr) : Prop :=
  ∀ a ∈ aggregates, ∀ e ∈ a.arg, ∀ i ∈ e.columns, P i

mutual

theorem argsIn_collectAgg {out : List AggregateExpr} (hout : ArgsIn P out) : ∀ e : BoundExpr,
    (∀ i ∈ e.columns, P i) → ArgsIn P (collectAgg aliasName out e)
  | ⟨kind, _, _⟩, h => argsIn_collectAggKind hout kind h

theorem argsIn_collectAggKind {out : List AggregateExpr} (hout : ArgsIn P out) {dataType : DataType}
    {nullable : Bool} : ∀ k : BoundExprKind, (∀ i ∈ BoundExprKind.columns k, P i) →
      ArgsIn P (collectAggKind aliasName out dataType nullable k)
  | .function ⟨_, kind, args, distinct⟩, h => by
    rw [collectAggKind]
    split
    · refine List.forall_mem_append.2 ⟨hout, List.forall_mem_singleton.2 fun e he i hi => h i ?_⟩
      exact mem_columnsList (List.mem_of_mem_head? he) hi
    · exact hout
  | .binaryOp left op right, h => by
    rw [BoundExprKind.columns, List.forall_mem_append] at h
    rw [collectAggKind]
    exact argsIn_collectAgg (argsIn_collectAgg hout left h.1) right h.2
  | .unaryOp op expr, h => argsIn_collectAgg hout expr h
  | .case operand whenThen elseResult, h => by
    rw [BoundExprKind.columns, List.forall_mem_append, List.forall_mem_append] at h
    rw [collectAggKind]
    exact argsIn_collectAggOption (argsIn_collectAggPairs (argsIn_collectAggOption hout operand h.1.1)
      whenThen h.1.2) elseResult h.2
  | .literal _, _ => hout
  | .columnRef _, _ => hout
  | .isNull _, _ => hout
  | .isNotNull _, _ => hout
  | .like _ _ _, _ => hout
  | .between _ _ _ _, _ => hout
  | .inList _ _ _, _ => hout
  | .inSubquery _ _ _, _ => hout
  | .existsSubquery _ _, _ => hout
  | .subquery _, _ => hout
  | .cast _ _, _ => hout

theorem argsIn_collectAggOption {out : List AggregateExpr} (hout : ArgsIn P out) :
    ∀ o : Option BoundExpr, (∀ i ∈ columnsOption o, P i) → ArgsIn P (collectAggOption aliasName out o)
  | none, _ => hout
  | some e, h => argsIn_collectAgg hout e h

theorem argsIn_collectAggPairs {out : List AggregateExpr} (hout : ArgsIn P out) :
    ∀ list : List (BoundExpr × BoundExpr), (∀ i ∈ columnsPairs list, P i) →
      ArgsIn P (collectAggPairs aliasName out list)
  | [], _ => hout
  | (w, t) :: list, h => by
    rw [columnsPairs, List.forall_mem_append, List.forall_mem_append] at h
    rw [collectAggPairs]
    exact argsIn_collectAggPairs (argsIn_collectAgg (argsIn_collectAgg hout w h.1.1) t h.1.2) list h.2

end

theorem argsIn_collectAggregates {projections : List BoundSelectItem} {having : Option BoundExpr}
    (hproj : ∀ p ∈ projections, ∀ i ∈ p.expr.columns, P i) (hhaving : ∀ e ∈ having, ∀ i ∈ e.columns, P i) :
    ArgsIn P (collectAggregates projections having) := by
  have hfold : ∀ (ps : List BoundSelectItem) (out : List AggregateExpr), ArgsIn P out →
      (∀ p ∈ ps, ∀ i ∈ p.expr.columns, P i) →
      ArgsIn P (ps.foldl (fun out proj => collectAgg proj.aliasName out proj.expr) out) := by
    intro ps
    induction ps with
    | nil => exact fun out hout _ => hout
    | cons p ps ih =>
      intro out hout hps
      exact ih _ (argsIn_collectAgg hout p.expr (hps p List.mem_cons_self))
        fun p' hp' => hps p' (List.mem_cons_of_mem p hp')
  refine argsIn_collectAggOption (hfold projections [] (List.forall_mem_nil _) hproj) having ?_
  cases having with
  | none => rintro _ ⟨⟩
  | some e => exact hhaving e rfl

end Arguments

/-! ### Well scoped statements -/

/-- **The clauses of a SELECT fit**: above an `Aggregate`, HAVING and the SELECT list mention a
column of the scope only if GROUP BY has it at its own place, and ORDER BY mentions one only if
the SELECT list has. -/
structure Fits (q : BoundSelect) : Prop where
  having : Aggregates q.groupBy (collectAggregates q.projections q.having) →
    ∀ e ∈ q.having, Keeps q.groupBy e
  projections : Aggregates q.groupBy (collectAggregates q.projections q.having) →
    ∀ e ∈ q.projections.map (·.expr), Keeps q.groupBy e
  orderBy : ∀ o ∈ q.orderBy, Keeps (q.projections.map (·.expr)) o.expr

/-- **A SELECT is well scoped**: its FROM clause has the columns of the scope that its names were
resolved in, and in the operators above it every reference is to the column it was resolved to. -/
def WellScoped (acc : Accessor) (q : BoundSelect) : Prop :=
  ∃ stmt scope, bindSelect acc stmt = .ok q ∧ binderScope acc stmt = .ok scope ∧ FromAgrees q scope ∧
    ∃ cols, Scoped (planFrom q.fromClause q.joins) (planSelect q) cols

/-- The clauses that refer to the columns of the FROM clause, or to those of GROUP BY. -/
theorem refers_aggregateColumns {width : ℕ} {groupBy : List BoundExpr} {aggregates : List AggregateExpr}
    {e : BoundExpr} (hgroup : ∀ e ∈ groupBy, Refers (scopeColumns width) e) (he : ∀ i ∈ e.columns, i < width) :
    Refers (aggregateColumns groupBy aggregates (scopeColumns width)) e ↔
      (Aggregates groupBy aggregates → Keeps groupBy e) := by
  unfold aggregateColumns
  split
  · rename_i hagg
    refine ⟨fun h _ i hi => ?_, fun h i hi => ?_⟩
    · exact (map_source hgroup i).1 ((groupColumns_eq_some i).1 (h i hi))
    · exact (groupColumns_eq_some i).2 ((map_source hgroup i).2 (h hagg i hi))
  · rename_i hagg
    exact ⟨fun _ h => absurd h hagg, fun _ => refers_scopeColumns.2 he⟩

/-- **The operators above a FROM clause are well scoped exactly if the clauses fit.** -/
theorem scoped_planSelect {q : BoundSelect}
    (hin : ClausesIn (planFrom q.fromClause q.joins).schema.len q) :
    (∃ cols, Scoped (planFrom q.fromClause q.joins) (planSelect q) cols) ↔ Fits q := by
  rw [planSelect_eq]
  generalize planFrom q.fromClause q.joins = base at hin ⊢
  have hgroup : ∀ e ∈ q.groupBy, Refers (scopeColumns base.schema.len) e :=
    fun e he => refers_scopeColumns.2 (hin.groupBy e he)
  have hargs : ∀ a ∈ collectAggregates q.projections q.having, ∀ e ∈ a.arg,
      Refers (scopeColumns base.schema.len) e :=
    fun a ha e he => refers_scopeColumns.2 (argsIn_collectAggregates hin.projections hin.having a ha e he)
  have hwhere : ∀ e ∈ q.whereClause, Refers (scopeColumns base.schema.len) e :=
    fun e he => refers_scopeColumns.2 (hin.whereClause e he)
  have hproj : ∀ e ∈ q.projections.map (·.expr), ∀ i ∈ e.columns, i < base.schema.len :=
    List.forall_mem_map.2 hin.projections
  rw [scoped_planClauses hin.outputColumns]
  constructor
  · rintro ⟨cols, h, hrefers, horder⟩
    rw [scoped_filterBy (size_aggregateBy (size_filterBy le_rfl _) _ _),
      scoped_aggregateBy (size_filterBy le_rfl _)] at h
    obtain ⟨⟨cols', h, -, -, rfl⟩, hhaving⟩ := h
    rw [scoped_filterBy le_rfl, Scoped.base_iff] at h
    obtain ⟨rfl, -⟩ := h
    refine ⟨fun hagg e he => ?_, fun hagg e he => ?_, fun o ho i hi => ?_⟩
    · exact (refers_aggregateColumns hgroup (hin.having e he)).1 (hhaving e he) hagg
    · exact (refers_aggregateColumns hgroup (hproj e he)).1 (hrefers e he) hagg
    · exact (map_source hrefers i).1 (horder o ho i hi)
  · intro hfits
    have hrefers : ∀ e ∈ q.projections.map (·.expr), Refers (aggregateColumns q.groupBy
        (collectAggregates q.projections q.having) (scopeColumns base.schema.len)) e :=
      fun e he => (refers_aggregateColumns hgroup (hproj e he)).2 fun hagg => hfits.projections hagg e he
    refine ⟨_, ?_, hrefers, fun o ho i hi => (map_source hrefers i).2 (hfits.orderBy o ho i hi)⟩
    rw [scoped_filterBy (size_aggregateBy (size_filterBy le_rfl _) _ _),
      scoped_aggregateBy (size_filterBy le_rfl _)]
    refine ⟨⟨_, (scoped_filterBy le_rfl _).2 ⟨.base, hwhere⟩, hgroup, hargs, rfl⟩, fun e he => ?_⟩
    exact (refers_aggregateColumns hgroup (hin.having e he)).2 fun hagg => hfits.having hagg e he

/-- A SELECT with one FROM item is well scoped exactly if its clauses fit. -/
theorem wellScoped_fits {acc : Accessor} {q : BoundSelect} (h : Accepted acc q)
    (hfrom : q.fromClause.length = 1 ∨ q.fromClause = [] ∧ q.joins = []) : WellScoped acc q ↔ Fits q := by
  have hin : ∀ {stmt scope}, bindSelect acc stmt = .ok q → binderScope acc stmt = .ok scope →
      FromAgrees q scope → ClausesIn (planFrom q.fromClause q.joins).schema.len q := by
    intro stmt scope hbind hscope hagrees
    obtain ⟨scope', hscope', hin⟩ := bindSelect_clauses hbind
    obtain rfl : scope = scope' := Except.ok.inj (hscope.symm.trans hscope')
    rw [Schema.len, ← hagrees.same.length_eq]
    exact hin
  constructor
  · rintro ⟨stmt, scope, hbind, hscope, hagrees, hscoped⟩
    exact (scoped_planSelect (hin hbind hscope hagrees)).1 hscoped
  · intro hfits
    obtain ⟨stmt, hbind⟩ := h
    obtain ⟨scope, hscope, -⟩ := bindSelect_clauses hbind
    have hagrees := fromAgrees_clause hbind hscope hfrom
    exact ⟨stmt, scope, hbind, hscope, hagrees, (scoped_planSelect (hin hbind hscope hagrees)).2 hfits⟩

/-- **Logical plans are well scoped exactly where the clauses fit**, in a statement and in its
derived tables. -/
theorem wellScoped_iff (acc : Accessor) (stmt : Ast.SelectStmt) (b : BoundSelect)
    (h : bindSelect acc stmt = .ok b)
    (hfrom : ∀ q ∈ selects b, q.fromClause.length = 1 ∨ q.fromClause = [] ∧ q.joins = []) :
    (∀ q ∈ selects b, WellScoped acc q) ↔ ∀ q ∈ selects b, Fits q :=
  forall₂_congr fun q hq => wellScoped_fits (accepted_selects h q hq) (hfrom q hq)

/-- `SELECT b FROM t ORDER BY b`, of the two columns `a` and `b`. -/
def orderedByB : Ast.SelectStmt :=
  ⟨[.expr (.column ⟨none, "b"⟩) none], [.named "t" none], [], none, [], none,
    [⟨.column ⟨none, "b"⟩, true, none⟩], none, none, false⟩

/-- A catalog in which every name is a table of the columns `a` and `b`. -/
def twoColumns : Accessor :=
  ⟨fun name => some ⟨0, name, 0⟩, fun _ => .ok [⟨1, 0, "a", .bool, 0, true⟩, ⟨2, 0, "b", .bool, 1, true⟩], id⟩

theorem wellScoped_all : ∃ b, bindSelect oneColumn (selectAll ["t"]) = .ok b ∧
    ∀ q ∈ selects b, WellScoped oneColumn q := by
  refine ⟨_, rfl, (wellScoped_iff oneColumn (selectAll ["t"]) _ rfl ?_).2 ?_⟩
  · exact List.forall_mem_singleton.2 (Or.inl rfl)
  · refine List.forall_mem_singleton.2 ⟨?_, ?_, nofun⟩
    · rintro (h | h) <;> exact absurd rfl h
    · rintro (h | h) <;> exact absurd rfl h

/-- **ORDER BY looks in the wrong column**: the SELECT list has one column, and `b` is asked for
by its number in the table. -/
theorem order_lost : ¬ ∀ (acc : Accessor) (stmt : Ast.SelectStmt) (b : BoundSelect),
    bindSelect acc stmt = .ok b →
    (∀ q ∈ selects b, q.fromClause.length = 1 ∨ q.fromClause = [] ∧ q.joins = []) →
    ∀ q ∈ selects b, WellScoped acc q := by
  intro hall
  have hscoped := hall twoColumns orderedByB _ rfl (List.forall_mem_singleton.2 (Or.inl rfl))
  have hfits := (wellScoped_fits ⟨orderedByB, rfl⟩ (Or.inl rfl)).1 (hscoped _ List.mem_cons_self)
  obtain ⟨e, he, -⟩ := hfits.orderBy _ List.mem_cons_self 1 (List.mem_singleton.2 rfl)
  cases he

end Planner
end Abdb
