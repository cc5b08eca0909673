/-
# What the planner preserves

`plan_select` of `src/planner/planner.rs` puts an operator for each clause above the plan of the
FROM clause.  The plan stands for the rows of the SELECT, in the same order, if the FROM clause has
one item, there are no aggregate calls, HAVING comes with GROUP BY, and each clause finds the columns
it mentions at their own place (`rows_planSelect`).  DISTINCT is planned below the sort, and is done
after it by the SELECT, which makes no difference to a stable sort.
-/

import Abdb.Optimizer.PushdownSound
import Abdb.Planner.Scoped
import Abdb.Query.Parts
import Abdb.Query.Instance
import Mathlib.Algebra.Order.Ring.Nat

namespace Abdb
namespace Planner

open Binder Optimizer

/-- The expressions of the clauses of a SELECT. -/
def clauseExprs (q : BoundSelect) : List BoundExpr :=
  q.joins.flatMap (·.condition.exprs) ++ (q.whereClause.toList ++ q.groupBy ++ q.limit.toList ++
    q.offset.toList) ++ (q.projections.map (·.expr) ++ q.having.toList ++ q.orderBy.map (·.expr))

/-- **A SELECT that is planned as it is meant**: one FROM item, no aggregates, HAVING with GROUP BY
only, and clauses that find their columns. -/
structure Direct (q : BoundSelect) : Prop where
  clause : q.fromClause.length = 1 ∨ q.fromClause = [] ∧ q.joins = []
  aggregates : ∀ e ∈ clauseExprs q, e.aggregateCalls = []
  having : q.groupBy = [] → q.having = none
  fits : Fits q

variable {J : Instance} {q : BoundSelect} {plan : LogicalPlan} {row : Row} {e : BoundExpr}

/-! ### No aggregates -/

mutual

theorem walked_eq_nil (aliasName : String) : ∀ e : BoundExpr, e.aggregateCalls = [] → walked aliasName e = []
  | ⟨kind, dataType, nullable⟩, h => walkedKind_eq_nil aliasName dataType nullable kind h

theorem walkedKind_eq_nil (aliasName : String) (dataType : DataType) (nullable : Bool) :
    ∀ kind : BoundExprKind, kind.aggregateCalls = [] → walkedKind aliasName dataType nullable kind = []
  | .function ⟨_, kind, _, _⟩, h => by
    rw [BoundExprKind.aggregateCalls, List.append_eq_nil_iff] at h
    rw [walkedKind]
    split
    · rename_i hkind
      rw [if_pos hkind] at h
      cases h.1
    · rfl
  | .binaryOp left _ right, h => by
    rw [BoundExprKind.aggregateCalls, List.append_eq_nil_iff] at h
    rw [walkedKind, walked_eq_nil aliasName left h.1, walked_eq_nil aliasName right h.2, List.append_nil]
  | .unaryOp _ expr, h => walked_eq_nil aliasName expr h
  | .case operand whenThen elseResult, h => by
    rw [BoundExprKind.aggregateCalls, List.append_eq_nil_iff, List.append_eq_nil_iff] at h
    rw [walkedKind, walkedOption_eq_nil aliasName operand h.1.1, walkedPairs_eq_nil aliasName whenThen h.1.2,
      walkedOption_eq_nil aliasName elseResult h.2, List.append_nil, List.append_nil]
  | .literal _, _ | .columnRef _, _ | .isNull _, _ | .isNotNull _, _ => rfl
  | .like _ _ _, _ | .between _ _ _ _, _ | .inList _ _ _, _ => rfl
  | .inSubquery _ _ _, _ | .existsSubquery _ _, _ | .subquery _, _ => rfl
  | .cast _ _, _ => rfl

theorem walkedOption_eq_nil (aliasName : String) :
    ∀ o : Option BoundExpr, aggregateCallsOption o = [] → walkedOption aliasName o = []
  | none, _ => rfl
  | some e, h => walked_eq_nil aliasName e h

theorem walkedPairs_eq_nil (aliasName : String) : ∀ list : List (BoundExpr × BoundExpr),
    aggregateCallsPairs list = [] → walkedPairs aliasName list = []
  | [], _ => rfl
  | (w, t) :: list, h => by
    rw [aggregateCallsPairs, List.append_eq_nil_iff, List.append_eq_nil_iff] at h
    rw [walkedPairs, walked_eq_nil aliasName w h.1.1, walked_eq_nil aliasName t h.1.2,
      walkedPairs_eq_nil aliasName list h.2, List.append_nil, List.append_nil]

end

/-- Without aggregate calls none is collected. -/
theorem collectAggregates_eq_nil {projections : List BoundSelectItem} {having : Option BoundExpr}
    (hproj : ∀ p ∈ projections, p.expr.aggregateCalls = []) (hhaving : ∀ e ∈ having, e.aggregateCalls = []) :
    collectAggregates projections having = [] := by
  have hitems : ∀ item ∈ aggregateItems projections having, walked item.1 item.2 = [] := by
    intro item hitem
    rcases List.mem_append.1 hitem with h | h
    · obtain ⟨p, hp, rfl⟩ := List.mem_map.1 h
      exact walked_eq_nil _ _ (hproj p hp)
    · obtain ⟨e, he, rfl⟩ := List.mem_map.1 h
      exact walked_eq_nil _ _ (hhaving e (Option.mem_toList.1 he))
  rw [collectAggregates_eq]
  generalize aggregateItems projections having = items at hitems
  induction items with
  | nil => rfl
  | cons item items ih =>
    rw [List.foldl_cons, hitems item List.mem_cons_self, enter_nil]
    exact ih fun item hitem => hitems item (List.mem_cons_of_mem _ hitem)

namespace Direct

theorem joins (h : Direct q) {j : BoundJoin} (hj : j ∈ q.joins) (he : e ∈ j.condition.exprs) :
    e.aggregateCalls = [] :=
  h.aggregates e (List.mem_append_left _ (List.mem_append_left _ (List.mem_flatMap.2 ⟨j, hj, he⟩)))

theorem rowClauses (h : Direct q)
    (he : e ∈ q.whereClause.toList ++ q.groupBy ++ q.limit.toList ++ q.offset.toList) : e.aggregateCalls = [] :=
  h.aggregates e (List.mem_append_left _ (List.mem_append_right _ he))

theorem groupClauses (h : Direct q)
    (he : e ∈ q.projections.map (·.expr) ++ q.having.toList ++ q.orderBy.map (·.expr)) :
    e.aggregateCalls = [] :=
  h.aggregates e (List.mem_append_right _ he)

theorem projections (h : Direct q) {p : BoundSelectItem} (hp : p ∈ q.projections) :
    p.expr.aggregateCalls = [] :=
  h.groupClauses (List.mem_append_left _ (List.mem_append_left _ (List.mem_map_of_mem hp)))

theorem having_calls (h : Direct q) (he : e ∈ q.having) : e.aggregateCalls = [] :=
  h.groupClauses (List.mem_append_left _ (List.mem_append_right _ (Option.mem_toList.2 he)))

theorem orderBy (h : Direct q) {o : BoundOrderByExpr} (ho : o ∈ q.orderBy) : o.expr.aggregateCalls = [] :=
  h.groupClauses (List.mem_append_right _ (List.mem_map_of_mem ho))

theorem whereClause (h : Direct q) (he : e ∈ q.whereClause) : e.aggregateCalls = [] :=
  h.rowClauses (List.mem_append_left _ (List.mem_append_left _ (List.mem_append_left _
    (Option.mem_toList.2 he))))

theorem groupBy (h : Direct q) (he : e ∈ q.groupBy) : e.aggregateCalls = [] :=
  h.rowClauses (List.mem_append_left _ (List.mem_append_left _ (List.mem_append_right _ he)))

theorem limit (h : Direct q) (he : e ∈ q.limit) : e.aggregateCalls = [] :=
  h.rowClauses (List.mem_append_left _ (List.mem_append_right _ (Option.mem_toList.2 he)))

theorem offset (h : Direct q) (he : e ∈ q.offset) : e.aggregateCalls = [] :=
  h.rowClauses (List.mem_append_right _ (Option.mem_toList.2 he))

/-- Nothing is aggregated. -/
theorem collected (h : Direct q) : collectAggregates q.projections q.having = [] :=
  collectAggregates_eq_nil (fun _ => h.projections) fun _ => h.having_calls

/-- Only GROUP BY makes groups. -/
theorem grouped_eq (h : Direct q) :
    grouped q.groupBy q.having q.projections q.orderBy = !q.groupBy.isEmpty := by
  have hproj : q.projections.any (fun p => !p.expr.aggregateCalls.isEmpty) = false := by
    rw [List.any_eq_false]
    intro p hp
    rw [h.projections hp]
    exact Bool.false_ne_true
  have horder : q.orderBy.any (fun o => !o.expr.aggregateCalls.isEmpty) = false := by
    rw [List.any_eq_false]
    intro o ho
    rw [h.orderBy ho]
    exact Bool.false_ne_true
  rw [grouped, hproj, horder, Bool.or_false, Bool.or_false]
  cases hgroup : q.groupBy with
  | nil =>
    rw [h.having hgroup]
    rfl
  | cons e rest => rfl

end Direct

/-! ### Expressions -/

/-- A clause accepts the rows that pass it. -/
theorem accepts_eq {c : Context} (he : e.aggregateCalls = []) : e.accepts J.scalars c.row =
    decide (J.semantics.truthOf (e.value J.semantics c) = some true) := by
  rw [BoundExpr.accepts, Instance.eval_interp e he, Instance.truthOf_eq]

theorem values_eq {c : Context} {list : List BoundExpr} (h : ∀ e ∈ list, e.aggregateCalls = []) :
    J.values list c.row = valueList J.semantics list c := by
  rw [valueList_eq_map]
  exact List.map_congr_left fun e he => Instance.eval_interp e (h e he)

/-- A column at its own place of a list has the value it has on the row. -/
theorem get_values {list : List BoundExpr} {i : ℕ} (h : Kept list i) :
    Row.get (J.values list row) i = row.get i := by
  obtain ⟨⟨kind, dataType, nullable⟩, he, c, rfl, rfl⟩ := h
  rw [Row.get, List.getD_eq_getElem?_getD, Instance.values, List.getElem?_map, Option.mem_def.1 he]
  rfl

theorem eval_values {list : List BoundExpr} (h : Keeps list e) :
    e.eval J.scalars (J.values list row) = e.eval J.scalars row :=
  e.eval_congr fun i hi => get_values (h i hi)

/-! ### The FROM clause -/

theorem rows_qualify (I : Interp) (aliasName : String) (plan : LogicalPlan) :
    (qualify aliasName plan).rows I = plan.rows I := by
  cases plan <;> rfl

theorem len_planTableRef (t : BoundTableRef) : (planTableRef t).schema.len = t.columns.length :=
  (columns_planTableRef t).length_eq.symm

theorem condition_accepts {condition : BoundJoinCondition}
    (h : ∀ e ∈ condition.exprs, e.aggregateCalls = []) (row : Row) :
    condition.accepts J.scalars row = condition.passes J.semantics row := by
  have hlist : ∀ exprs : List BoundExpr, (∀ e ∈ exprs, e.aggregateCalls = []) →
      exprs.all (·.accepts J.scalars row) =
        (valueList J.semantics exprs ⟨[], row⟩).all (J.semantics.truthOf · = some true) := by
    intro exprs hexprs
    rw [valueList_eq_map, List.all_map, Bool.eq_iff_iff, List.all_eq_true, List.all_eq_true]
    refine forall₂_congr fun e he => ?_
    rw [accepts_eq (c := ⟨[], row⟩) (hexprs e he)]
    rfl
  cases condition with
  | on expr => exact accepts_eq (c := ⟨[], row⟩) (h expr List.mem_cons_self)
  | «using» exprs => exact hlist exprs h
  | natural exprs => exact hlist exprs h
  | none => rfl

/-- **The tables of a FROM clause have their rows.** -/
def TablesMean (J : Instance) (tables : List BoundTableRef) : Prop :=
  ∀ t ∈ tables, (planTableRef t).rows J.interp = t.rows J.semantics

theorem rows_planJoins : ∀ (joins : List BoundJoin) (plan : LogicalPlan), TablesMean J (joins.map (·.table)) →
    (∀ j ∈ joins, ∀ e ∈ j.condition.exprs, e.aggregateCalls = []) →
      (planJoins plan joins).rows J.interp =
        joinRows J.semantics joins plan.schema.len (plan.rows J.interp) := by
  intro joins
  induction joins with
  | nil =>
    intro plan _ _
    rw [planJoins, joinRows]
  | cons j joins ih =>
    obtain ⟨kind, table, condition⟩ := j
    intro plan htables hcalls
    have htable : (planTableRef table).rows J.interp = table.rows J.semantics := htables table List.mem_cons_self
    rw [planJoins, ih _ (fun t ht => htables t (List.mem_cons_of_mem _ ht))
      fun j hj => hcalls j (List.mem_cons_of_mem _ hj), joinRows, LogicalPlan.rows, htable]
    have hlen : (LogicalPlan.join kind plan (planTableRef table) condition
        (mergeSchemas plan.schema (planTableRef table).schema)).schema.len =
          plan.schema.len + table.columns.length := by
      rw [← len_planTableRef, LogicalPlan.schema, mergeSchemas, Schema.len, List.length_append]
      rfl
    rw [hlen, len_planTableRef]
    refine congrArg _ (Joined.rows_congr fun l _ r _ => ?_)
    exact condition_accepts (hcalls _ List.mem_cons_self) (l ++ r)

/-- **The FROM clause has the rows of the scope.** -/
theorem rows_planFrom (h : Direct q) (htables : TablesMean J q.items) :
    (planFrom q.fromClause q.joins).rows J.interp = q.joinedRows J.semantics := by
  rcases h.clause with hone | ⟨hfrom, hjoins⟩
  · obtain ⟨first, hfirst⟩ := List.length_eq_one_iff.1 hone
    rw [BoundSelect.items, hfirst] at htables
    have hwidth : width [first] = (planTableRef first).schema.len := by
      rw [len_planTableRef]
      exact Nat.add_zero _
    have hrows : fromRows J.semantics [first] = (planTableRef first).rows J.interp := by
      rw [htables first List.mem_cons_self, fromRows, fromRows]
      simp only [List.map_cons, List.map_nil, List.append_nil]
      exact List.flatMap_singleton' _
    rw [BoundSelect.joinedRows, hfirst, hwidth, hrows]
    exact rows_planJoins q.joins _ (fun t ht => htables t (List.mem_cons_of_mem _ ht)) fun j hj e => h.joins hj
  · rw [BoundSelect.joinedRows, hfrom, hjoins, planFrom, joinRows, fromRows]
    rfl

/-! ### The clauses -/

/-- The keys of a `Sort` node. -/
def sortKeys (orderBy : List BoundOrderByExpr) : List SortKey := orderBy.map fun o => ⟨o.expr, o.asc, o.nullsFirst⟩

/-- What the SELECT list is read on. -/
def chosen (J : Instance) (q : BoundSelect) : List Context :=
  (contexts (!q.groupBy.isEmpty) (if q.groupBy.isEmpty then none else some (J.values q.groupBy))
    ((q.joinedRows J.semantics).filter fun row => passesOption J.semantics q.whereClause ⟨[], row⟩)).filter
      (passesOption J.semantics q.having)

theorem rows_filterBy {predicate : Option BoundExpr} {f : Context → Row} {cs : List Context}
    (hrows : plan.rows J.interp = cs.map f)
    (he : ∀ e ∈ predicate, ∀ c ∈ cs, e.accepts J.scalars (f c) =
      decide (J.semantics.truthOf (e.value J.semantics c) = some true)) :
    (filterBy predicate plan).rows J.interp = (cs.filter (passesOption J.semantics predicate)).map f := by
  cases predicate with
  | none =>
    rw [filterBy, hrows]
    exact congrArg _ (List.filter_true cs).symm
  | some e =>
    rw [filterBy, LogicalPlan.rows, hrows, List.filter_map]
    exact congrArg _ (List.filter_congr fun c hc => he e rfl c hc)

/-- **What the SELECT list is read on in a plan**: a row for each context, on which the clauses have the
values they have in the context. -/
theorem rows_grouped (h : Direct q) (htables : TablesMean J q.items) : ∃ f : Context → Row,
    (filterBy q.having (aggregateBy q.groupBy (collectAggregates q.projections q.having)
      (filterBy q.whereClause (planFrom q.fromClause q.joins)))).rows J.interp = (chosen J q).map f ∧
    ∀ c, ∀ e : BoundExpr, e.aggregateCalls = [] → (q.groupBy ≠ [] → Keeps q.groupBy e) →
      e.eval J.scalars (f c) = e.value J.semantics c := by
  have hwhere : (filterBy q.whereClause (planFrom q.fromClause q.joins)).rows J.interp =
      (q.joinedRows J.semantics).filter fun row => passesOption J.semantics q.whereClause ⟨[], row⟩ := by
    have hrows : (planFrom q.fromClause q.joins).rows J.interp =
        ((q.joinedRows J.semantics).map fun row => (⟨[], row⟩ : Context)).map (·.row) := by
      rw [rows_planFrom h htables, List.map_map]
      exact (List.map_id _).symm
    rw [rows_filterBy hrows fun e he c _ => accepts_eq (h.whereClause he), List.filter_map, List.map_map]
    exact List.map_id _
  have haccepts : ∀ f : Context → Row, (∀ c, ∀ e : BoundExpr, e.aggregateCalls = [] →
      (q.groupBy ≠ [] → Keeps q.groupBy e) → e.eval J.scalars (f c) = e.value J.semantics c) →
      ∀ e ∈ q.having, ∀ c : Context, e.accepts J.scalars (f c) =
        decide (J.semantics.truthOf (e.value J.semantics c) = some true) := by
    intro f hf e he c
    rw [BoundExpr.accepts, hf c e (h.having_calls he)
      (fun hne => h.fits.having (.inl hne) e he), Instance.truthOf_eq]
  rw [h.collected]
  cases hgroup : q.groupBy with
  | nil =>
    refine ⟨Context.row, ?_, fun c e he _ => Instance.eval_interp e he⟩
    rw [aggregateBy, chosen, hgroup]
    refine rows_filterBy ?_ fun e he c _ => haccepts Context.row (fun c e he _ => Instance.eval_interp e he) e he c
    rw [if_neg (by simp), hwhere]
    show _ = List.map Context.row (List.map (fun row => ⟨[], row⟩) _)
    rw [List.map_map]
    exact (List.map_id _).symm
  | cons first rest =>
    have hf : ∀ c : Context, ∀ e : BoundExpr, e.aggregateCalls = [] → (q.groupBy ≠ [] → Keeps q.groupBy e) →
        e.eval J.scalars (J.values q.groupBy c.row) = e.value J.semantics c := by
      intro c e he hkeeps
      rw [eval_values (hkeeps (hgroup ▸ List.cons_ne_nil first rest)), Instance.eval_interp e he]
    rw [← hgroup]
    refine ⟨fun c => J.values q.groupBy c.row, ?_, hf⟩
    have hne : q.groupBy.isEmpty = false := by rw [hgroup]; rfl
    rw [aggregateBy, chosen, hne]
    refine rows_filterBy ?_ fun e he c _ => haccepts _ hf e he c
    rw [if_pos (by simp), LogicalPlan.rows, hwhere]
    show J.groupRows q.groupBy [] _ = _
    rw [Instance.groupRows, hne]
    simp only [List.map_nil, List.append_nil]
    rfl

/-- **The SELECT list**, with its keys: a key of ORDER BY has its value on the row it makes. -/
theorem items_eq (h : Direct q) (c : Context) : valueItems J.semantics q.projections c =
      J.values (q.projections.map (·.expr)) c.row ∧
    valueKeys J.semantics q.orderBy c =
      J.values (q.orderBy.map (·.expr)) (valueItems J.semantics q.projections c) := by
  have hitems : valueItems J.semantics q.projections c = J.values (q.projections.map (·.expr)) c.row := by
    rw [valueItems_eq_map, Instance.values, List.map_map]
    exact List.map_congr_left fun p hp => (Instance.eval_interp p.expr (h.projections hp)).symm
  refine ⟨hitems, ?_⟩
  have hkeys : ∀ list : List BoundOrderByExpr, (∀ o ∈ list, o ∈ q.orderBy) → valueKeys J.semantics list c =
      J.values (list.map (·.expr)) (valueItems J.semantics q.projections c) := by
    intro list
    induction list with
    | nil =>
      intro _
      rw [valueKeys]
      rfl
    | cons o list ih =>
      obtain ⟨expr, asc, nullsFirst⟩ := o
      intro hlist
      have ho := hlist _ List.mem_cons_self
      have hexpr : expr.eval J.scalars (valueItems J.semantics q.projections c) = expr.value J.semantics c := by
        rw [hitems, eval_values (h.fits.orderBy _ ho), Instance.eval_interp _ (h.orderBy ho)]
      rw [valueKeys, ih fun o ho => hlist o (List.mem_cons_of_mem _ ho), ← hexpr]
      rfl
  exact hkeys q.orderBy fun _ => id

theorem window_eq (h : Direct q) (rows : List Row) : J.interp.window q.limit q.offset rows =
    J.semantics.window (valueOption J.semantics q.limit ⟨[], []⟩)
      (valueOption J.semantics q.offset ⟨[], []⟩) rows := by
  have hoption : ∀ o : Option BoundExpr, (∀ e ∈ o, e.aggregateCalls = []) →
      evalOption J.interp.toScalars [] o = valueOption J.semantics o ⟨[], []⟩ := by
    intro o ho
    cases o with
    | none => rfl
    | some e => exact congrArg some (Instance.eval_interp (c := ⟨[], []⟩) e (ho e rfl))
  unfold Interp.window
  dsimp only
  rw [hoption _ fun _ => h.limit, hoption _ fun _ => h.offset]
  rfl

/-- Without keys the order is left as it is. -/
theorem insertionSort_before_nil (rows : List Row) : rows.insertionSort (J.interp.before []) = rows :=
  List.Pairwise.insertionSort_eq (List.pairwise_of_forall fun _ _ => trivial)

/-- **ORDER BY, DISTINCT, LIMIT and OFFSET**, in the order of the SELECT and in that of the plan. -/
theorem finish_eq (orderBy : List BoundOrderByExpr) (distinct : Bool) (limit offset : Option Value)
    (rows : List Row) :
    J.semantics.finish (orderBy.map fun o => (o.asc, o.nullsFirst)) distinct limit offset
      (rows.map fun row => (J.values (orderBy.map (·.expr)) row, row)) =
    J.semantics.window limit offset
      ((if distinct then rows.dedup else rows).insertionSort (J.interp.before (sortKeys orderBy))) := by
  have hsort : (J.semantics.sort (orderBy.map fun o => (o.asc, o.nullsFirst))
      (rows.map fun row => (J.values (orderBy.map (·.expr)) row, row))).map (·.2) =
        rows.insertionSort (J.interp.before (sortKeys orderBy)) := by
    refine (congrArg _ (List.map_insertionSort (r := J.interp.before (sortKeys orderBy)) _ _ rows
      fun a _ b _ => ?_).symm).trans ?_
    · show KeysLE _ _ _ _ _ ↔ KeysLE _ _ _ _ _
      rw [sortKeys, List.map_map, List.map_map]
      rfl
    · rw [List.map_map]
      exact List.map_id _
  rw [Semantics.finish, hsort]
  cases distinct with
  | false => rfl
  | true => rw [if_pos rfl, if_pos rfl, dedup_insertionSort]

/-! ### The whole SELECT -/

theorem evalList_eq_map (S : Scalars) (row : Row) (list : List BoundExpr) :
    evalList S row list = list.map (·.eval S row) := by
  refine List.ext_getElem? fun i => ?_
  rw [getElem?_evalList, List.getElem?_map]

/-- The rows of a SELECT, from what its SELECT list is read on. -/
theorem rows_eq (h : Direct q) : q.rows J.semantics =
    J.semantics.finish (q.orderBy.map fun o => (o.asc, o.nullsFirst)) q.distinct
      (valueOption J.semantics q.limit ⟨[], []⟩) (valueOption J.semantics q.offset ⟨[], []⟩)
      ((chosen J q).map fun c => (valueKeys J.semantics q.orderBy c, valueItems J.semantics q.projections c)) := by
  have hkey : (fun row => valueList J.semantics q.groupBy ⟨[], row⟩) = J.values q.groupBy := by
    funext row
    exact (values_eq (c := ⟨[], row⟩) fun e => h.groupBy).symm
  have hgrouped := h.grouped_eq
  rw [chosen, ← hkey, ← hgrouped, BoundSelect.joinedRows]
  obtain ⟨projections, fromClause, joins, whereClause, groupBy, having, orderBy, limit, offset, distinct,
    outputColumns⟩ := q
  rw [BoundSelect.rows]

/-- **One SELECT**, over tables that have their rows. -/
theorem rows_planSelect_of_tables (h : Direct q) (htables : TablesMean J q.items) :
    (planSelect q).rows J.interp = q.rows J.semantics := by
  obtain ⟨f, hrows, hf⟩ := rows_grouped h htables
  -- the SELECT list makes the same rows
  have hitems : ((chosen J q).map f).map (fun row => evalList J.interp.toScalars row (q.projections.map (·.expr))) =
      (chosen J q).map (valueItems J.semantics q.projections) := by
    rw [List.map_map]
    refine List.map_congr_left fun c _ => ?_
    rw [Function.comp, evalList_eq_map, valueItems_eq_map, List.map_map]
    refine List.map_congr_left fun p hp => ?_
    exact hf c p.expr (h.projections hp) fun hne => h.fits.projections (.inl hne) _ (List.mem_map_of_mem hp)
  have hfinish := finish_eq (J := J) q.orderBy q.distinct (valueOption J.semantics q.limit ⟨[], []⟩)
    (valueOption J.semantics q.offset ⟨[], []⟩) ((chosen J q).map (valueItems J.semantics q.projections))
  rw [List.map_map, ← window_eq h] at hfinish
  have hpairs : (chosen J q).map (fun c =>
      (valueKeys J.semantics q.orderBy c, valueItems J.semantics q.projections c)) =
      (chosen J q).map ((fun row => (J.values (q.orderBy.map (·.expr)) row, row)) ∘
        valueItems J.semantics q.projections) :=
    List.map_congr_left fun c _ => by rw [Function.comp, (items_eq h c).2]
  rw [rows_eq h, hpairs, hfinish, planSelect_eq]
  unfold planClauses
  dsimp only
  -- a window of no LIMIT and no OFFSET is all rows, and a sort without keys leaves them as they are
  have hlimit : ∀ plan : LogicalPlan, (if q.limit.isSome || q.offset.isSome then .limit q.limit q.offset plan
      else plan : LogicalPlan).rows J.interp = J.interp.window q.limit q.offset (plan.rows J.interp) := by
    intro plan
    cases hlimit : q.limit with
    | some limit => rfl
    | none =>
      cases hoffset : q.offset with
      | some offset => rfl
      | none => rfl
  have hsort : ∀ plan : LogicalPlan, (if !q.orderBy.isEmpty then .sort (sortKeys q.orderBy) plan
      else plan : LogicalPlan).rows J.interp =
        (plan.rows J.interp).insertionSort (J.interp.before (sortKeys q.orderBy)) := by
    intro plan
    cases q.orderBy with
    | nil => exact (insertionSort_before_nil _).symm
    | cons o rest => rfl
  have hdistinct : ∀ plan : LogicalPlan, (if q.distinct then .distinct plan else plan : LogicalPlan).rows J.interp =
      if q.distinct then (plan.rows J.interp).dedup else plan.rows J.interp := by
    intro plan
    cases q.distinct <;> rfl
  rw [hlimit]
  refine congrArg _ ((hsort _).trans ?_)
  rw [hdistinct, LogicalPlan.rows, hrows, hitems]

theorem mem_selects_self (q : BoundSelect) : q ∈ selects q := by
  obtain ⟨projections, fromClause, joins, whereClause, groupBy, having, orderBy, limit, offset, distinct,
    outputColumns⟩ := q
  rw [selects]
  exact List.mem_cons_self

theorem mem_selectsFrom {q' : BoundSelect} : ∀ {tables : List BoundTableRef} {t : BoundTableRef}, t ∈ tables →
    q' ∈ selectsTable t → q' ∈ selectsFrom tables := by
  intro tables
  induction tables with
  | nil => rintro t ⟨⟩
  | cons first rest ih =>
    intro t ht hq
    rw [selectsFrom]
    rcases List.mem_cons.1 ht with rfl | ht
    · exact List.mem_append_left _ hq
    · exact List.mem_append_right _ (ih ht hq)

theorem mem_selectsJoins {q' : BoundSelect} : ∀ {joins : List BoundJoin} {j : BoundJoin}, j ∈ joins →
    q' ∈ selectsTable j.table → q' ∈ selectsJoins joins := by
  intro joins
  induction joins with
  | nil => rintro j ⟨⟩
  | cons first rest ih =>
    obtain ⟨kind, table, condition⟩ := first
    intro j hj hq
    rw [selectsJoins]
    rcases List.mem_cons.1 hj with rfl | hj
    · exact List.mem_append_left _ hq
    · exact List.mem_append_right _ (ih hj hq)

/-- The SELECTs of a derived table are among those of the statement. -/
theorem selects_derived {query : BoundSelect} {t : BoundTableRef} (ht : t ∈ q.items)
    (hquery : t.derived = some query) : selects query ⊆ selects q := by
  intro q' hq'
  have htable : q' ∈ selectsTable t := by
    cases t with
    | baseTable table columns aliasName => cases hquery
    | subquery query' aliasName =>
      obtain rfl := Option.some.inj hquery
      exact hq'
  obtain ⟨projections, fromClause, joins, whereClause, groupBy, having, orderBy, limit, offset, distinct,
    outputColumns⟩ := q
  rw [selects]
  refine List.mem_cons_of_mem _ (List.mem_append.2 ?_)
  rcases List.mem_append.1 ht with ht | ht
  · exact .inl (mem_selectsFrom ht htable)
  · obtain ⟨j, hj, rfl⟩ := List.mem_map.1 ht
    exact .inr (mem_selectsJoins hj htable)

/-- **A plan stands for the rows of its SELECT**, if every SELECT in it is planned as it is meant. -/
theorem rows_planSelect (J : Instance) (q : BoundSelect) (h : ∀ q' ∈ selects q, Direct q') :
    (planSelect q).rows J.interp = q.rows J.semantics := by
  induction hn : sizeOf q using Nat.strongRecOn generalizing q with
  | ind n ih =>
    refine rows_planSelect_of_tables (h q (mem_selects_self q)) fun t ht => ?_
    cases t with
    | baseTable table columns aliasName =>
      rw [planTableRef, BoundTableRef.rows]
      rfl
    | subquery query aliasName =>
      rw [planTableRef, rows_qualify, BoundTableRef.rows]
      exact ih _ (hn ▸ BoundSelect.sizeOf_derived ht rfl) query
        (fun q' hq' => h q' (selects_derived ht rfl hq')) rfl

/-- `SELECT b FROM t`. -/
def selectB : BoundSelect :=
  ⟨[⟨boolColumn 0, "b"⟩], [.baseTable ⟨0, "t", 0⟩ [⟨0, 0, "b", .bool, 0, true⟩] none], [], none, [], none, [], none,
    none, false, [⟨"b", .bool, true⟩]⟩

/-- `SELECT DISTINCT b FROM (SELECT b FROM t) s WHERE b GROUP BY b HAVING b ORDER BY b`. -/
def groupedB : BoundSelect :=
  ⟨[⟨boolColumn 0, "b"⟩], [.subquery selectB "s"], [], some (boolColumn 0), [boolColumn 0],
    some (boolColumn 0), [⟨boolColumn 0, true, none⟩], none, none, true, [⟨"b", .bool, true⟩]⟩

theorem keeps_boolColumn : Keeps [boolColumn 0] (boolColumn 0) := by
  intro i hi
  obtain rfl := List.mem_singleton.1 (hi : i ∈ [0])
  exact ⟨boolColumn 0, rfl, _, rfl, rfl⟩

theorem direct_selectB : Direct selectB := by
  refine ⟨.inl rfl, List.forall_mem_singleton.2 rfl, fun _ => rfl, ?_, ?_, nofun⟩
  · rintro - e ⟨⟩
  · rintro (h | h) <;> exact absurd rfl h

theorem direct_groupedB : Direct groupedB := by
  refine ⟨.inl rfl, ?_, nofun, ?_, ?_, ?_⟩
  · intro e he
    obtain rfl : e = boolColumn 0 := by simpa [clauseExprs, groupedB] using he
    rfl
  · intro _ e he
    obtain rfl := Option.some.inj (he : some (boolColumn 0) = some e)
    exact keeps_boolColumn
  · exact fun _ => List.forall_mem_singleton.2 keeps_boolColumn
  · exact List.forall_mem_singleton.2 keeps_boolColumn

theorem rows_planSelect_groupedB : (planSelect groupedB).rows (Instance.plain oneTuple).interp =
    groupedB.rows (Instance.plain oneTuple).semantics :=
  rows_planSelect _ groupedB (List.forall_mem_cons.2
    ⟨direct_groupedB, List.forall_mem_singleton.2 direct_selectB⟩)

/-! ### Schemas -/

theorem wellFormed_qualify (aliasName : String) (h : plan.WellFormed) : (qualify aliasName plan).WellFormed := by
  cases plan with
  | projection exprs aliases input schema => exact ⟨(List.length_map _).trans h.1, h.2⟩
  | _ => exact h

theorem wellFormed_filterBy {predicate : Option BoundExpr} (h : plan.WellFormed) :
    (filterBy predicate plan).WellFormed := by
  cases predicate <;> exact h

theorem wellFormed_aggregateBy {groupBy : List BoundExpr} {aggregates : List AggregateExpr}
    (h : plan.WellFormed) : (aggregateBy groupBy aggregates plan).WellFormed := by
  rw [aggregateBy]
  split
  · exact ⟨len_buildAggregateSchema _ _ _, h⟩
  · exact h

theorem wellFormed_planJoins : ∀ (joins : List BoundJoin) (plan : LogicalPlan), plan.WellFormed →
    (∀ j ∈ joins, (planTableRef j.table).WellFormed) → (planJoins plan joins).WellFormed := by
  intro joins
  induction joins with
  | nil =>
    intro plan hplan _
    rwa [planJoins]
  | cons j joins ih =>
    obtain ⟨kind, table, condition⟩ := j
    intro plan hplan htables
    rw [planJoins]
    refine ih _ ⟨?_, hplan, htables _ List.mem_cons_self⟩ fun j hj => htables j (List.mem_cons_of_mem _ hj)
    rw [mergeSchemas, Schema.len, List.length_append]
    rfl

theorem wellFormed_planClauses (h : plan.WellFormed) (hlen : q.outputColumns.length = q.projections.length) :
    (planClauses plan q.projections q.whereClause q.groupBy q.having q.orderBy q.limit q.offset q.distinct
      q.outputColumns).WellFormed := by
  have hprojection : (LogicalPlan.projection (q.projections.map (·.expr)) (q.projections.map (·.aliasName))
      (filterBy q.having (aggregateBy q.groupBy (collectAggregates q.projections q.having)
        (filterBy q.whereClause plan))) ⟨q.outputColumns⟩).WellFormed :=
    ⟨hlen.trans (List.length_map _).symm,
      wellFormed_filterBy (wellFormed_aggregateBy (wellFormed_filterBy h))⟩
  unfold planClauses
  dsimp only
  split_ifs <;> exact hprojection

/-- **The plan of a SELECT is well formed.** -/
theorem wellFormed_planSelect (q : BoundSelect)
    (h : ∀ q' ∈ selects q, q'.outputColumns.length = q'.projections.length) : (planSelect q).WellFormed := by
  induction hn : sizeOf q using Nat.strongRecOn generalizing q with
  | ind n ih =>
    have htables : ∀ t ∈ q.items, (planTableRef t).WellFormed := by
      intro t ht
      cases t with
      | baseTable table columns aliasName =>
        rw [planTableRef]
        exact List.length_map _
      | subquery query aliasName =>
        rw [planTableRef]
        exact wellFormed_qualify aliasName (ih _ (hn ▸ BoundSelect.sizeOf_derived ht rfl) query
          (fun q' hq' => h q' (selects_derived ht rfl hq')) rfl)
    have hfrom : (planFrom q.fromClause q.joins).WellFormed := by
      cases hclause : q.fromClause with
      | nil => exact List.forall_mem_singleton.2 rfl
      | cons first rest =>
        rw [BoundSelect.items, hclause] at htables
        refine wellFormed_planJoins _ _ (htables first List.mem_cons_self) fun j hj => htables _ ?_
        exact List.mem_append_right _ (List.mem_map_of_mem hj)
    rw [planSelect_eq]
    exact wellFormed_planClauses hfrom (h q (mem_selects_self q))

/-- The binder names one column for each item. -/
theorem wellFormed_bound {acc : Accessor} {stmt : Ast.SelectStmt} (h : bindSelect acc stmt = .ok q) :
    (planSelect q).WellFormed := by
  refine wellFormed_planSelect q fun q' hq' => ?_
  obtain ⟨stmt', hstmt'⟩ := accepted_selects h q' hq'
  obtain ⟨scope, -, hclauses⟩ := bindSelect_clauses hstmt'
  exact hclauses.outputColumns

end Planner
end Abdb
