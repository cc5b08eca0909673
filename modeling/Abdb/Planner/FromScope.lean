/-
# The FROM clause and the scope

The binder numbers the columns of every FROM item and every joined table; `plan_from` plans the
first FROM item and the joined tables, and forgets the other items.  Both number the columns of
a statement alike exactly if its FROM clause has one item, or nothing stands in it at all
(`fromAgrees_iff`).
-/

import Abdb.Binder.Resolve
import Abdb.Planner.Select

namespace Abdb
namespace Planner

open Binder

/-- The plans that the joins of a FROM clause put together, from left to right.  Without a FROM
clause there is one row and no table. -/
def tables : LogicalPlan → List LogicalPlan
  | .join _ left right _ _ => tables left ++ [right]
  | .values _ _ => []
  | plan => [plan]

/-- A column of a plan is the column of the scope: it has its type, and its name with or without
the name of the table. -/
structure SameColumn (sc : ScopeColumn) (oc : OutputColumn) : Prop where
  dataType : oc.dataType = sc.dataType
  name : oc.name = sc.columnName ∨ ∃ q, sc.qualifier = some q ∧ oc.name = q ++ "." ++ sc.columnName

/-- **The FROM clause and the scope agree.** -/
structure FromAgrees (bound : BoundSelect) (scope : Scope) : Prop where
  /-- Every item is planned once. -/
  tables : tables (planFrom bound.fromClause bound.joins) = bound.items.map planTableRef
  /-- The plan has the columns of the items, and so has the scope, numbered from 0. -/
  planned : (planFrom bound.fromClause bound.joins).schema.columns =
    bound.items.flatMap fun t => (planTableRef t).schema.columns
  resolved : scope.columns.map ScopeColumn.key = bound.items.flatMap (·.columns)
  numbered : scope.Numbered
  /-- Column by column they are the same. -/
  same : List.Forall₂ SameColumn scope.columns (planFrom bound.fromClause bound.joins).schema.columns

/-! ### Plans -/

/-- The operators above the FROM clause have the SELECT list as their columns. -/
theorem schema_planClauses {plan : LogicalPlan} {projections : List BoundSelectItem}
    {whereClause having limit offset : Option BoundExpr} {groupBy : List BoundExpr}
    {orderBy : List BoundOrderByExpr} {distinct : Bool} {outputColumns : List OutputColumn} :
    (planClauses plan projections whereClause groupBy having orderBy limit offset distinct
      outputColumns).schema = ⟨outputColumns⟩ := by
  unfold planClauses
  dsimp only
  split_ifs <;> rfl

theorem tables_planClauses {plan : LogicalPlan} {projections : List BoundSelectItem}
    {whereClause having limit offset : Option BoundExpr} {groupBy : List BoundExpr}
    {orderBy : List BoundOrderByExpr} {distinct : Bool} {outputColumns : List OutputColumn}
    {aliasName : String} :
    tables (qualify aliasName (planClauses plan projections whereClause groupBy having orderBy limit
      offset distinct outputColumns)) = [qualify aliasName (planClauses plan projections whereClause groupBy
        having orderBy limit offset distinct outputColumns)] := by
  unfold planClauses
  dsimp only
  split_ifs <;> rfl

/-- **A SELECT is planned from its FROM clause up.** -/
theorem planSelect_eq (b : BoundSelect) : planSelect b =
    planClauses (planFrom b.fromClause b.joins) b.projections b.whereClause b.groupBy b.having b.orderBy
      b.limit b.offset b.distinct b.outputColumns := by
  obtain ⟨projections, fromClause, joins, whereClause, groupBy, having, orderBy, limit, offset, distinct,
    outputColumns⟩ := b
  cases fromClause with
  | nil => simp only [planSelect, planFrom]
  | cons first rest => simp only [planSelect, planFrom]

theorem schema_planSelect (b : BoundSelect) : (planSelect b).schema = ⟨b.outputColumns⟩ := by
  rw [planSelect_eq]
  exact schema_planClauses

theorem tables_planTableRef (t : BoundTableRef) : tables (planTableRef t) = [planTableRef t] := by
  cases t with
  | baseTable table columns aliasName => rfl
  | subquery query aliasName =>
    rw [planTableRef, planSelect_eq]
    exact tables_planClauses

theorem tables_planJoins (joins : List BoundJoin) : ∀ plan : LogicalPlan,
    tables (planJoins plan joins) = tables plan ++ joins.map fun j => planTableRef j.table := by
  induction joins with
  | nil => exact fun plan => (List.append_nil _).symm
  | cons j joins ih =>
    obtain ⟨kind, table, condition⟩ := j
    intro plan
    rw [planJoins, ih, tables, List.append_assoc]
    rfl

theorem schema_planJoins (joins : List BoundJoin) : ∀ plan : LogicalPlan,
    (planJoins plan joins).schema.columns =
      plan.schema.columns ++ joins.flatMap fun j => (planTableRef j.table).schema.columns := by
  induction joins with
  | nil => exact fun plan => (List.append_nil _).symm
  | cons j joins ih =>
    obtain ⟨kind, table, condition⟩ := j
    intro plan
    rw [planJoins, ih, List.flatMap_cons, ← List.append_assoc]
    rfl

/-! ### Columns -/

/-- **A planned table has its columns.** -/
theorem columns_planTableRef (t : BoundTableRef) :
    List.Forall₂ (fun k oc => oc.dataType = k.2 ∧ (oc.name = k.1 ∨ oc.name = t.qualifier ++ "." ++ k.1))
      t.columns (planTableRef t).schema.columns := by
  cases t with
  | baseTable table columns aliasName =>
    rw [BoundTableRef.columns, planTableRef, LogicalPlan.schema, scanSchema, List.forall₂_map_left_iff,
      List.forall₂_map_right_iff, List.forall₂_same]
    rintro c -
    refine ⟨rfl, ?_⟩
    cases aliasName with
    | none => exact Or.inl rfl
    | some a => exact Or.inr rfl
  | subquery query aliasName =>
    have hschema := schema_planSelect query
    rw [BoundTableRef.columns, planTableRef, List.forall₂_map_left_iff]
    cases hplan : planSelect query with
    | projection exprs aliases input schema =>
      rw [hplan] at hschema
      obtain rfl : schema = ⟨query.outputColumns⟩ := hschema
      rw [qualify, LogicalPlan.schema, List.forall₂_map_right_iff, List.forall₂_same]
      exact fun c _ => ⟨rfl, Or.inr rfl⟩
    | _ =>
      rw [hplan] at hschema
      rw [qualify, hschema, List.forall₂_same]
      · exact fun c _ => ⟨rfl, Or.inl rfl⟩
      · exact nofun

/-- Two relations, element by element, one after the other. -/
theorem forall₂_comp {α β γ : Type} {R : α → β → Prop} {S : β → γ → Prop} {T : α → γ → Prop}
    (h : ∀ a b c, R a b → S b c → T a c) {l₁ : List α} {l₂ : List β} (h₁ : List.Forall₂ R l₁ l₂) :
    ∀ {l₃ : List γ}, List.Forall₂ S l₂ l₃ → List.Forall₂ T l₁ l₃ := by
  induction h₁ with
  | nil =>
    intro l₃ h₂
    cases h₂
    exact .nil
  | cons hab _ ih =>
    intro l₃ h₂
    cases h₂ with
    | cons hbc hrest => exact .cons (h _ _ _ hab hbc) (ih hrest)

/-- The columns of several tables, resolved and planned. -/
theorem columns_items (ts : List BoundTableRef) {cols : List ScopeColumn}
    (h : List.Forall₂ (fun sc k => sc.key = k.2 ∧ sc.qualifier = some k.1) cols
      (ts.flatMap fun t => t.columns.map (t.qualifier, ·))) :
    cols.map ScopeColumn.key = ts.flatMap (·.columns) ∧
      List.Forall₂ SameColumn cols (ts.flatMap fun t => (planTableRef t).schema.columns) := by
  constructor
  · have hkeys : ts.flatMap (·.columns) =
        (ts.flatMap fun t => t.columns.map (t.qualifier, ·)).map Prod.snd := by
      rw [List.map_flatMap]
      refine List.flatMap_congr fun t _ => ?_
      rw [List.map_map]
      exact (List.map_id _).symm
    rw [hkeys, ← List.forall₂_eq_eq_eq, List.forall₂_map_left_iff, List.forall₂_map_right_iff]
    exact h.imp fun _ _ hk => hk.1
  · have hplanned : List.Forall₂ (fun (k : String × String × DataType) (oc : OutputColumn) =>
        oc.dataType = k.2.2 ∧ (oc.name = k.2.1 ∨ oc.name = k.1 ++ "." ++ k.2.1))
        (ts.flatMap fun t => t.columns.map (t.qualifier, ·))
        (ts.flatMap fun t => (planTableRef t).schema.columns) := by
      clear h
      induction ts with
      | nil => exact .nil
      | cons t ts ih =>
        rw [List.flatMap_cons, List.flatMap_cons]
        refine List.rel_append ?_ ih
        rw [List.forall₂_map_left_iff]
        exact columns_planTableRef t
    refine forall₂_comp (fun sc k oc hsc hoc => ?_) h hplanned
    obtain ⟨q, k⟩ := k
    obtain ⟨rfl, hq⟩ := hsc
    exact ⟨hoc.1, hoc.2.imp id fun hname => ⟨q, hq, hname⟩⟩

/-! ### Agreement -/

/-- What `bind_select` makes of the FROM clause and the joins. -/
theorem bindSelect_from {acc : Accessor} {stmt : Ast.SelectStmt} {bound : BoundSelect}
    (h : bindSelect acc stmt = .ok bound) : ∃ scope,
      binderScope acc stmt = .ok scope ∧ scope.Numbered ∧
      (∃ cols, scope.columns = cols ∧ List.Forall₂ (fun sc k => sc.key = k.2 ∧ sc.qualifier = some k.1)
        cols (bound.items.flatMap fun t => t.columns.map (t.qualifier, ·))) ∧
      bound.fromClause.length = stmt.fromClause.length ∧ bound.joins.length = stmt.joins.length := by
  obtain ⟨projections, fromClause, joins, whereClause, groupBy, having, orderBy, limit, offset, distinct⟩ :=
    stmt
  rw [bindSelect, bind_eq_ok] at h
  obtain ⟨⟨boundFrom, scope⟩, hfrom, h⟩ := h
  rw [bind_eq_ok] at h
  obtain ⟨⟨boundJoins, scope'⟩, hjoins, h⟩ := h
  simp only [bind_eq_ok] at h
  obtain ⟨_, -, _, -, _, -, _, -, _, -, _, -, _, -, h⟩ := h
  cases h
  obtain ⟨⟨⟨cols, hcols, hall⟩, hnum⟩, hlen⟩ := bindFrom_spec hfrom
  obtain ⟨⟨⟨cols', hcols', hall'⟩, hnum'⟩, hlen'⟩ := bindJoins_spec hjoins
  refine ⟨scope', ?_, hnum' (hnum .new), ⟨cols ++ cols', ?_, ?_⟩, hlen, hlen'⟩
  · rw [binderScope, bind_eq_ok]
    exact ⟨_, hfrom, bind_eq_ok.2 ⟨_, hjoins, rfl⟩⟩
  · rw [hcols', hcols]
    rfl
  · rw [BoundSelect.items, List.flatMap_append]
    exact List.rel_append hall hall'

/-- A FROM clause that agrees with its scope has one item, or nothing stands in it. -/
theorem FromAgrees.clause {bound : BoundSelect} {scope : Scope} (h : FromAgrees bound scope) :
    bound.fromClause.length = 1 ∨ bound.fromClause = [] ∧ bound.joins = [] := by
  have htables := h.tables
  rcases hbound : bound.fromClause with _ | ⟨first, rest⟩
  · rw [hbound, planFrom, Planner.tables, BoundSelect.items, hbound, List.nil_append] at htables
    exact Or.inr ⟨rfl, List.map_eq_nil_iff.1 (List.map_eq_nil_iff.1 htables.symm)⟩
  · rw [hbound, planFrom, tables_planJoins, tables_planTableRef, BoundSelect.items, hbound] at htables
    have hlen := congrArg List.length htables
    simp only [List.length_append, List.length_map, List.length_cons, List.length_nil] at hlen
    rw [List.length_cons]
    left
    omega

/-- Such a FROM clause is planned as it is. -/
theorem planFrom_clause {bound : BoundSelect}
    (h : bound.fromClause.length = 1 ∨ bound.fromClause = [] ∧ bound.joins = []) :
    tables (planFrom bound.fromClause bound.joins) = bound.items.map planTableRef ∧
      (planFrom bound.fromClause bound.joins).schema.columns =
        bound.items.flatMap fun t => (planTableRef t).schema.columns := by
  rcases h with hone | ⟨hfrom, hjoins⟩
  · obtain ⟨first, hfirst⟩ := List.length_eq_one_iff.1 hone
    rw [BoundSelect.items, hfirst, planFrom, tables_planJoins, tables_planTableRef, schema_planJoins,
      List.singleton_append, List.singleton_append, List.map_cons, List.flatMap_cons, List.map_map,
      List.flatMap_map]
    exact ⟨rfl, rfl⟩
  · rw [BoundSelect.items, hfrom, hjoins]
    exact ⟨rfl, rfl⟩

/-- With one item, or nothing, the FROM clause agrees with the scope. -/
theorem fromAgrees_clause {acc : Accessor} {stmt : Ast.SelectStmt} {bound : BoundSelect} {scope : Scope}
    (h : bindSelect acc stmt = .ok bound) (hscope : binderScope acc stmt = .ok scope)
    (hclause : bound.fromClause.length = 1 ∨ bound.fromClause = [] ∧ bound.joins = []) :
    FromAgrees bound scope := by
  obtain ⟨scope', hscope', hnum, ⟨cols, rfl, hall⟩, -, -⟩ := bindSelect_from h
  obtain rfl : scope = scope' := Except.ok.inj (hscope.symm.trans hscope')
  obtain ⟨htables, hschema⟩ := planFrom_clause hclause
  obtain ⟨hkeys, hsame⟩ := columns_items bound.items hall
  exact ⟨htables, hschema, hkeys, hnum, hschema ▸ hsame⟩

/-- **The FROM clause and the scope agree exactly if the FROM clause has one item**, or there is
neither a FROM clause nor a join. -/
theorem fromAgrees_iff (acc : Accessor) (stmt : Ast.SelectStmt) (bound : BoundSelect)
    (h : bindSelect acc stmt = .ok bound) : ∃ scope, binderScope acc stmt = .ok scope ∧
      (FromAgrees bound scope ↔
        stmt.fromClause.length = 1 ∨ stmt.fromClause = [] ∧ stmt.joins = []) := by
  obtain ⟨scope, hscope, -, -, hlenFrom, hlenJoins⟩ := bindSelect_from h
  have hclause : (bound.fromClause.length = 1 ∨ bound.fromClause = [] ∧ bound.joins = []) ↔
      (stmt.fromClause.length = 1 ∨ stmt.fromClause = [] ∧ stmt.joins = []) := by
    rw [← List.length_eq_zero_iff, ← List.length_eq_zero_iff, hlenFrom, hlenJoins,
      List.length_eq_zero_iff, List.length_eq_zero_iff]
  exact ⟨scope, hscope, fun hagrees => hclause.1 hagrees.clause,
    fun hfrom => fromAgrees_clause h hscope (hclause.2 hfrom)⟩

/-- A catalog in which every name is a table of one column. -/
def oneColumn : Accessor := ⟨fun name => some ⟨0, name, 0⟩, fun _ => .ok [⟨1, 0, "b", .bool, 0, true⟩], id⟩

/-- `SELECT * FROM` some tables. -/
def selectAll (names : List String) : Ast.SelectStmt :=
  ⟨[.wildcard], names.map (.named · none), [], none, [], none, [], none, none, false⟩

theorem fromAgrees_one : ∃ bound scope, bindSelect oneColumn (selectAll ["t"]) = .ok bound ∧
    FromAgrees bound scope := by
  obtain ⟨scope, -, hiff⟩ := fromAgrees_iff oneColumn (selectAll ["t"]) _ rfl
  exact ⟨_, scope, rfl, hiff.2 (Or.inl rfl)⟩

/-- **A table is forgotten**: of `FROM t, u` only `t` is planned. -/
theorem from_forgets : ¬ ∀ (acc : Accessor) (stmt : Ast.SelectStmt) (bound : BoundSelect),
    bindSelect acc stmt = .ok bound → ∃ scope, binderScope acc stmt = .ok scope ∧ FromAgrees bound scope := by
  intro hall
  obtain ⟨scope, -, hagrees⟩ := hall oneColumn (selectAll ["t", "u"]) _ rfl
  rcases hagrees.clause with hone | ⟨hnone, -⟩
  · cases hone
  · cases hnone

end Planner
end Abdb
