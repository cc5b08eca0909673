/-
# Bound expressions stay in their scope

The columns of an expression that the binder accepts are columns of the scope it was bound in,
and every SELECT in a FROM clause was accepted on its own.
-/

import Abdb.Binder.Binds
import Abdb.Query.Expression

namespace Abdb

namespace Scope

theorem resolve_mem {scope : Scope} {qualifier : Option String} {columnName : String} {sc : ScopeColumn}
    (h : scope.resolve qualifier columnName = .ok sc) : sc ∈ scope.columns := by
  unfold resolve at h
  split at h
  · rename_i sc' heq
    cases h
    exact (List.mem_filter.1 (heq ▸ List.mem_singleton.2 rfl :
      sc ∈ scope.columns.filter (named qualifier columnName))).1
  · cases h
  · cases h

theorem Numbered.lt {scope : Scope} (h : scope.Numbered) {sc : ScopeColumn} (hsc : sc ∈ scope.columns) :
    sc.index < scope.columns.length := by
  by_contra hge
  have := h.index hsc
  rw [List.getElem?_eq_none (not_lt.1 hge)] at this
  cases this

end Scope

namespace Binder

variable {acc : Accessor} {scope : Scope}

mutual

/-- **The columns of a bound expression are in its scope.** -/
theorem Binds.columns (hscope : scope.Numbered) : ∀ {e : Ast.Expr} {bound : BoundExpr},
    Binds acc scope e bound → ∀ i ∈ bound.columns, i < scope.columns.length
  | .literal lit, _, .literal => by cases lit <;> exact nofun
  | _, _, .column hsc => by
    intro i hi
    rw [List.mem_singleton.1 hi]
    exact hscope.lt (Scope.resolve_mem hsc)
  | _, _, .binaryOp hl hr _ => List.forall_mem_append.2 ⟨hl.columns hscope, hr.columns hscope⟩
  | _, _, .unaryOp hinner _ => hinner.columns hscope
  | _, _, .isNull hinner => hinner.columns hscope
  | _, _, .isNotNull hinner => hinner.columns hscope
  | _, _, .like he hp => List.forall_mem_append.2 ⟨he.columns hscope, hp.columns hscope⟩
  | _, _, .between he hl hh =>
    List.forall_mem_append.2 ⟨List.forall_mem_append.2 ⟨he.columns hscope, hl.columns hscope⟩,
      hh.columns hscope⟩
  | _, _, .inList he hl => List.forall_mem_append.2 ⟨he.columns hscope, hl.columns hscope⟩
  | _, _, .inSubquery he _ _ => he.columns hscope
  | _, _, .existsSubquery _ => nofun
  | _, _, .subquery _ _ => nofun
  | _, _, .function hl _ => hl.columns hscope
  | _, _, .cast hinner => hinner.columns hscope
  | _, _, .case ho hw he =>
    List.forall_mem_append.2 ⟨List.forall_mem_append.2 ⟨ho.columns hscope, hw.columns hscope⟩,
      he.columns hscope⟩

theorem BindsList.columns (hscope : scope.Numbered) : ∀ {list : List Ast.Expr} {bound : List BoundExpr},
    BindsList acc scope list bound → ∀ i ∈ columnsList bound, i < scope.columns.length
  | _, _, .nil => nofun
  | _, _, .cons hb hrest => List.forall_mem_append.2 ⟨hb.columns hscope, hrest.columns hscope⟩

theorem BindsArgs.columns (hscope : scope.Numbered) : ∀ {list : List Ast.Expr} {bound : List BoundExpr},
    BindsArgs acc scope list bound → ∀ i ∈ columnsList bound, i < scope.columns.length
  | _, _, .nil => nofun
  | _, _, .wildcard hrest => hrest.columns hscope
  | _, _, .cons hb hrest => List.forall_mem_append.2 ⟨hb.columns hscope, hrest.columns hscope⟩

theorem BindsOption.columns (hscope : scope.Numbered) : ∀ {o : Option Ast.Expr} {bound : Option BoundExpr},
    BindsOption acc scope o bound → ∀ i ∈ columnsOption bound, i < scope.columns.length
  | _, _, .none => nofun
  | _, _, .some hb => hb.columns hscope

theorem BindsPairs.columns (hscope : scope.Numbered) : ∀ {list : List (Ast.Expr × Ast.Expr)}
    {bound : List (BoundExpr × BoundExpr)}, BindsPairs acc scope list bound →
      ∀ i ∈ columnsPairs bound, i < scope.columns.length
  | _, _, .nil => nofun
  | _, _, .cons hw ht hrest =>
    List.forall_mem_append.2 ⟨List.forall_mem_append.2 ⟨hw.columns hscope, ht.columns hscope⟩,
      hrest.columns hscope⟩

end

/-! ### Clauses -/

theorem columns_toExpr (hscope : scope.Numbered) {sc : ScopeColumn} (hsc : sc ∈ scope.columns) :
    ∀ i ∈ sc.toExpr.columns, i < scope.columns.length := by
  intro i hi
  rw [List.mem_singleton.1 hi]
  exact hscope.lt hsc

theorem bindItem_columns (hscope : scope.Numbered) {item : Ast.SelectItem} {bound : List BoundSelectItem}
    (h : bindItem acc scope item = .ok bound) :
    ∀ p ∈ bound, ∀ i ∈ p.expr.columns, i < scope.columns.length := by
  cases item with
  | wildcard =>
    rw [bindItem] at h
    cases h
    refine List.forall_mem_map.2 fun sc hsc => ?_
    exact columns_toExpr hscope hsc
  | qualifiedWildcard qualifier =>
    rw [bindItem] at h
    split at h
    · cases h
    · cases h
      refine List.forall_mem_map.2 fun sc hsc => ?_
      exact columns_toExpr hscope (List.mem_filter.1 hsc).1
  | expr expr aliasName =>
    rw [bindItem, bind_eq_ok] at h
    obtain ⟨e, he, h⟩ := h
    cases h
    exact List.forall_mem_singleton.2 ((binds_of_bindExpr he).columns hscope)

theorem bindItems_columns (hscope : scope.Numbered) : ∀ {items : List Ast.SelectItem}
    {bound : List BoundSelectItem}, bindItems acc scope items = .ok bound →
      ∀ p ∈ bound, ∀ i ∈ p.expr.columns, i < scope.columns.length
  | [], bound, h => by
    rw [bindItems] at h
    cases h
    exact nofun
  | item :: items, bound, h => by
    simp only [bindItems, bind_eq_ok] at h
    obtain ⟨b, hb, l, hl, h⟩ := h
    cases h
    exact List.forall_mem_append.2 ⟨bindItem_columns hscope hb, bindItems_columns hscope hl⟩

theorem mem_columnsList {list : List BoundExpr} {e : BoundExpr} (he : e ∈ list) {i : ℕ} (hi : i ∈ e.columns) :
    i ∈ columnsList list := by
  induction list with
  | nil => cases he
  | cons e' list ih =>
    rw [columnsList, List.mem_append]
    rcases List.mem_cons.1 he with rfl | he
    · exact Or.inl hi
    · exact Or.inr (ih he)

/-- What ORDER BY names is an item of the SELECT list. -/
theorem orderByItem_mem {projections : List BoundSelectItem} {e : Ast.Expr} {b : BoundExpr}
    (h : orderByItem projections e = some (.ok b)) : ∃ i ∈ projections, b = i.expr := by
  rw [orderByItem.eq_def] at h
  split at h
  · split at h
    · rename_i proj hproj
      cases h
      exact ⟨proj, List.mem_of_getElem? hproj, rfl⟩
    · cases h
  · obtain ⟨proj, hproj, heq⟩ := Option.map_eq_some_iff.1 h
    cases heq
    exact ⟨proj, List.mem_of_find?_eq_some hproj, rfl⟩
  · cases h

/-- The clauses of a statement mention columns of a scope of this width only. -/
structure ClausesIn (width : ℕ) (b : BoundSelect) : Prop where
  whereClause : ∀ e ∈ b.whereClause, ∀ i ∈ e.columns, i < width
  groupBy : ∀ e ∈ b.groupBy, ∀ i ∈ e.columns, i < width
  having : ∀ e ∈ b.having, ∀ i ∈ e.columns, i < width
  projections : ∀ p ∈ b.projections, ∀ i ∈ p.expr.columns, i < width
  outputColumns : b.outputColumns.length = b.projections.length

/-- **A bound SELECT stays in its scope.** -/
theorem bindSelect_clauses {stmt : Ast.SelectStmt} {b : BoundSelect} (h : bindSelect acc stmt = .ok b) :
    ∃ scope, binderScope acc stmt = .ok scope ∧ ClausesIn scope.columns.length b := by
  obtain ⟨scope, hscope, hb⟩ := bindSelect_spec h
  obtain ⟨scope₀, hfrom, hjoins⟩ := hb.fromClause
  have hnum : scope.Numbered := (bindJoins_spec hjoins).1.numbered ((bindFrom_spec hfrom).1.numbered .new)
  have hoption : ∀ {o : Option Ast.Expr} {bound : Option BoundExpr}, bindOption acc scope o = .ok bound →
      ∀ e ∈ bound, ∀ i ∈ e.columns, i < scope.columns.length := by
    rintro o bound ho e rfl
    exact (bindsOption_of_bindOption ho).columns hnum
  refine ⟨scope, hscope, hoption hb.whereClause, fun e he i hi => ?_, hoption hb.having,
    bindItems_columns hnum hb.projections, ?_⟩
  · exact (bindsList_of_bindExprs hb.groupBy).columns hnum i (mem_columnsList he hi)
  · rw [hb.outputColumns, List.length_map]

/-! ### Derived tables -/

mutual

/-- A SELECT and the SELECTs of its derived tables, at any depth. -/
def selects : BoundSelect → List BoundSelect
  | ⟨projections, fromClause, joins, whereClause, groupBy, having, orderBy, limit, offset, distinct,
      outputColumns⟩ =>
    ⟨projections, fromClause, joins, whereClause, groupBy, having, orderBy, limit, offset, distinct,
      outputColumns⟩ :: (selectsFrom fromClause ++ selectsJoins joins)

def selectsTable : BoundTableRef → List BoundSelect
  | .baseTable _ _ _ => []
  | .subquery query _ => selects query

def selectsFrom : List BoundTableRef → List BoundSelect
  | [] => []
  | t :: ts => selectsTable t ++ selectsFrom ts

def selectsJoins : List BoundJoin → List BoundSelect
  | [] => []
  | ⟨_, table, _⟩ :: joins => selectsTable table ++ selectsJoins joins

end

/-- The binder accepted this SELECT. -/
def Accepted (acc : Accessor) (b : BoundSelect) : Prop := ∃ stmt, bindSelect acc stmt = .ok b

mutual

/-- **Every derived table of an accepted statement was accepted on its own.** -/
theorem accepted_selects : ∀ {stmt : Ast.SelectStmt} {b : BoundSelect}, bindSelect acc stmt = .ok b →
    ∀ q ∈ selects b, Accepted acc q
  | ⟨projections, fromClause, joins, whereClause, groupBy, having, orderBy, limit, offset, distinct⟩,
    b, h => by
    have haccepted : Accepted acc b := ⟨_, h⟩
    rw [bindSelect, bind_eq_ok] at h
    obtain ⟨⟨boundFrom, scope⟩, hfrom, h⟩ := h
    rw [bind_eq_ok] at h
    obtain ⟨⟨boundJoins, scope'⟩, hjoins, h⟩ := h
    simp only [bind_eq_ok] at h
    obtain ⟨_, -, _, -, _, -, _, -, _, -, _, -, _, -, h⟩ := h
    cases h
    rw [selects]
    exact List.forall_mem_cons.2 ⟨haccepted, List.forall_mem_append.2
      ⟨accepted_selectsFrom hfrom, accepted_selectsJoins hjoins⟩⟩

theorem accepted_selectsTable : ∀ {t : Ast.TableRef} {bound : BoundTableRef},
    bindTableRef acc t = .ok bound → ∀ q ∈ selectsTable bound, Accepted acc q
  | .named name aliasName, bound, h => by
    rw [bindTableRef, bindNamed] at h
    split at h
    · cases h
    · split at h
      · cases h
      · cases h
        exact nofun
  | .subquery query aliasName, bound, h => by
    rw [bindTableRef, bind_eq_ok] at h
    obtain ⟨b, hb, h⟩ := h
    cases h
    exact accepted_selects hb

theorem accepted_selectsFrom : ∀ {ts : List Ast.TableRef} {scope scope' : Scope}
    {bound : List BoundTableRef}, bindFrom acc scope ts = .ok (bound, scope') →
      ∀ q ∈ selectsFrom bound, Accepted acc q
  | [], scope, scope', bound, h => by
    rw [bindFrom] at h
    cases h
    exact nofun
  | t :: ts, scope, scope', bound, h => by
    rw [bindFrom, bind_eq_ok] at h
    obtain ⟨boundRef, hboundRef, h⟩ := h
    rw [bind_eq_ok] at h
    obtain ⟨⟨bound', scope''⟩, hrest, h⟩ := h
    cases h
    exact List.forall_mem_append.2 ⟨accepted_selectsTable hboundRef, accepted_selectsFrom hrest⟩

theorem accepted_selectsJoins : ∀ {joins : List Ast.Join} {scope scope' : Scope}
    {bound : List BoundJoin}, bindJoins acc scope joins = .ok (bound, scope') →
      ∀ q ∈ selectsJoins bound, Accepted acc q
  | [], scope, scope', bound, h => by
    rw [bindJoins] at h
    cases h
    exact nofun
  | ⟨kind, table, condition⟩ :: joins, scope, scope', bound, h => by
    rw [bindJoins, bind_eq_ok] at h
    obtain ⟨boundRef, hboundRef, h⟩ := h
    rw [bind_eq_ok] at h
    obtain ⟨boundCondition, -, h⟩ := h
    rw [bind_eq_ok] at h
    obtain ⟨⟨bound', scope''⟩, hrest, h⟩ := h
    cases h
    exact List.forall_mem_append.2 ⟨accepted_selectsTable hboundRef, accepted_selectsJoins hrest⟩

end

end Binder
end Abdb
