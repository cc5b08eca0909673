/-
# What a scope knows

A scope numbers its columns from 0, in the order in which the items of the FROM clause and the
joined tables bring them (`binderScope_spec`).
-/

import Abdb.Binder.Select
import Abdb.Lib.Errors

namespace Abdb

/-- The items of the FROM clause and the joined tables, in order. -/
def BoundSelect.items (b : BoundSelect) : List BoundTableRef := b.fromClause ++ b.joins.map (·.table)

namespace BoundTableRef

/-- The name before the columns of a table. -/
def qualifier : BoundTableRef → String
  | .baseTable table _ aliasName => aliasName.getD table.name
  | .subquery _ aliasName => aliasName

/-- The name and the type of each column. -/
def columns : BoundTableRef → List (String × DataType)
  | .baseTable _ columns _ => columns.map fun c => (c.name, c.typeId)
  | .subquery query _ => query.outputColumns.map fun c => (c.name, c.dataType)

end BoundTableRef

namespace ScopeColumn

/-- The name and the type of a column. -/
def key (sc : ScopeColumn) : String × DataType := (sc.columnName, sc.dataType)

end ScopeColumn

namespace Scope

/-- Every column has its place as its number. -/
def Numbered (scope : Scope) : Prop := scope.columns.map (·.index) = List.range scope.columns.length

/-- A scope with the columns of one more table. -/
structure Extends (scope : Scope) (t : BoundTableRef) (scope' : Scope) : Prop where
  columns : ∃ cols, scope'.columns = scope.columns ++ cols ∧ cols.map ScopeColumn.key = t.columns ∧
    ∀ sc ∈ cols, sc.qualifier = some t.qualifier
  numbered : scope.Numbered → scope'.Numbered

theorem Numbered.new : Numbered new := rfl

theorem Numbered.index {scope : Scope} (h : scope.Numbered) {sc : ScopeColumn} (hsc : sc ∈ scope.columns) :
    scope.columns[sc.index]? = some sc := by
  obtain ⟨i, hi, rfl⟩ := List.mem_iff_getElem.1 hsc
  have := congrArg (·[i]?) h
  simp only [List.getElem?_map, List.getElem?_eq_getElem hi, Option.map_some, List.getElem?_range hi,
    Option.some.injEq] at this
  rw [this, List.getElem?_eq_getElem hi]

theorem Numbered.push {scope : Scope} (h : scope.Numbered) (qualifier : Option String) (columnName : String)
    (dataType : DataType) (nullable : Bool) (catalogColumn : Option Catalog.Column) :
    (scope.push qualifier columnName dataType nullable catalogColumn).Numbered := by
  rw [Numbered, Scope.push, List.map_append, h, List.length_append, List.length_singleton, List.range_succ]
  rfl

/-- Adding columns one after the other. -/
theorem foldl_push {α : Type} (q : String) (name : α → String) (dataType : α → DataType)
    (nullable : α → Bool) (catalogColumn : α → Option Catalog.Column) (l : List α) : ∀ scope : Scope,
    (∃ cols, (l.foldl (fun scope x => scope.push (some q) (name x) (dataType x) (nullable x)
        (catalogColumn x)) scope).columns = scope.columns ++ cols ∧
      cols.map ScopeColumn.key = l.map (fun x => (name x, dataType x)) ∧
      ∀ sc ∈ cols, sc.qualifier = some q) ∧
    (scope.Numbered → (l.foldl (fun scope x => scope.push (some q) (name x) (dataType x) (nullable x)
        (catalogColumn x)) scope).Numbered) := by
  induction l with
  | nil => exact fun scope => ⟨⟨[], (List.append_nil _).symm, rfl, List.forall_mem_nil _⟩, id⟩
  | cons x l ih =>
    intro scope
    obtain ⟨⟨cols, heq, hkey, hq⟩, hnum⟩ := ih
      (scope.push (some q) (name x) (dataType x) (nullable x) (catalogColumn x))
    refine ⟨⟨⟨some q, name x, dataType x, nullable x, scope.columns.length, catalogColumn x⟩ :: cols,
      ?_, ?_, ?_⟩, fun h => hnum (h.push ..)⟩
    · rw [List.foldl_cons, heq, Scope.push, List.append_assoc]
      rfl
    · rw [List.map_cons, List.map_cons, hkey]
      rfl
    · exact List.forall_mem_cons.2 ⟨rfl, hq⟩

end Scope

namespace Binder

open Scope

/-- **A table brings its columns.** -/
theorem extends_addTableRefToScope (t : BoundTableRef) (scope : Scope) (nullable : Bool) :
    scope.Extends t (addTableRefToScope t scope nullable) := by
  cases t with
  | baseTable table columns aliasName =>
    obtain ⟨hcols, hnum⟩ := foldl_push (aliasName.getD table.name) (·.name) (·.typeId)
      (fun c => c.nullable || nullable) some columns scope
    exact ⟨hcols, hnum⟩
  | subquery query aliasName =>
    obtain ⟨hcols, hnum⟩ := foldl_push aliasName (·.name) (·.dataType)
      (fun c : OutputColumn => c.nullable || nullable) (fun _ => none) query.outputColumns scope
    exact ⟨hcols, hnum⟩

/-- The scope in which `bind_select` resolves the names of a statement. -/
def binderScope (acc : Accessor) (stmt : Ast.SelectStmt) : BindResult Scope := do
  let (_, scope) ← bindFrom acc Scope.new stmt.fromClause
  let (_, scope) ← bindJoins acc scope stmt.joins
  return scope

/-- A scope with the columns of several tables. -/
structure ExtendsAll (scope : Scope) (ts : List BoundTableRef) (scope' : Scope) : Prop where
  columns : ∃ cols, scope'.columns = scope.columns ++ cols ∧
    List.Forall₂ (fun sc k => sc.key = k.2 ∧ sc.qualifier = some k.1) cols
      (ts.flatMap fun t => t.columns.map (t.qualifier, ·))
  numbered : scope.Numbered → scope'.Numbered

theorem ExtendsAll.nil (scope : Scope) : ExtendsAll scope [] scope :=
  ⟨⟨[], (List.append_nil _).symm, .nil⟩, id⟩

theorem ExtendsAll.cons {scope scope' scope'' : Scope} {t : BoundTableRef} {ts : List BoundTableRef}
    (h : scope.Extends t scope') (hs : ExtendsAll scope' ts scope'') :
    ExtendsAll scope (t :: ts) scope'' := by
  obtain ⟨⟨cols, heq, hkey, hq⟩, hnum⟩ := h
  obtain ⟨⟨cols', heq', hall⟩, hnum'⟩ := hs
  refine ⟨⟨cols ++ cols', by rw [heq', heq, List.append_assoc], ?_⟩, hnum' ∘ hnum⟩
  rw [List.flatMap_cons]
  refine List.rel_append ?_ hall
  rw [← hkey, List.map_map, List.forall₂_map_right_iff, List.forall₂_same]
  exact fun sc hsc => ⟨rfl, hq sc hsc⟩

theorem bindFrom_spec {acc : Accessor} : ∀ {from_ : List Ast.TableRef} {scope scope' : Scope}
    {bound : List BoundTableRef}, bindFrom acc scope from_ = .ok (bound, scope') →
      ExtendsAll scope bound scope' ∧ bound.length = from_.length
  | [], scope, scope', bound, h => by
    rw [bindFrom, Except.ok.injEq, Prod.mk.injEq] at h
    obtain ⟨rfl, rfl⟩ := h
    exact ⟨.nil scope, rfl⟩
  | tableRef :: rest, scope, scope', bound, h => by
    rw [bindFrom, bind_eq_ok] at h
    obtain ⟨boundRef, -, h⟩ := h
    rw [bind_eq_ok] at h
    obtain ⟨⟨bound', scope''⟩, hrest, h⟩ := h
    cases h
    obtain ⟨hext, hlen⟩ := bindFrom_spec hrest
    exact ⟨.cons (extends_addTableRefToScope ..) hext, congrArg (· + 1) hlen⟩

theorem bindJoins_spec {acc : Accessor} : ∀ {joins : List Ast.Join} {scope scope' : Scope}
    {bound : List BoundJoin}, bindJoins acc scope joins = .ok (bound, scope') →
      ExtendsAll scope (bound.map (·.table)) scope' ∧ bound.length = joins.length
  | [], scope, scope', bound, h => by
    rw [bindJoins, Except.ok.injEq, Prod.mk.injEq] at h
    obtain ⟨rfl, rfl⟩ := h
    exact ⟨.nil scope, rfl⟩
  | ⟨kind, table, condition⟩ :: rest, scope, scope', bound, h => by
    rw [bindJoins, bind_eq_ok] at h
    obtain ⟨boundRef, -, h⟩ := h
    rw [bind_eq_ok] at h
    obtain ⟨boundCondition, -, h⟩ := h
    rw [bind_eq_ok] at h
    obtain ⟨⟨bound', scope''⟩, hrest, h⟩ := h
    cases h
    obtain ⟨hext, hlen⟩ := bindJoins_spec hrest
    exact ⟨.cons (extends_addTableRefToScope ..) hext, congrArg (· + 1) hlen⟩

/-! ### The clauses -/

/-- Each clause of a statement is bound in the scope of its tables. -/
structure BoundBy (acc : Accessor) (stmt : Ast.SelectStmt) (scope : Scope) (b : BoundSelect) : Prop where
  fromClause : ∃ scope₀, bindFrom acc Scope.new stmt.fromClause = .ok (b.fromClause, scope₀) ∧
    bindJoins acc scope₀ stmt.joins = .ok (b.joins, scope)
  whereClause : bindOption acc scope stmt.whereClause = .ok b.whereClause
  groupBy : bindExprs acc scope stmt.groupBy = .ok b.groupBy
  having : bindOption acc scope stmt.having = .ok b.having
  projections : bindItems acc scope stmt.projections = .ok b.projections
  orderBy : bindOrderBy acc scope b.projections stmt.orderBy = .ok b.orderBy
  limit : bindOption acc scope stmt.limit = .ok b.limit
  offset : bindOption acc scope stmt.offset = .ok b.offset
  outputColumns : b.outputColumns = b.projections.map fun p => ⟨p.aliasName, p.expr.dataType, p.expr.nullable⟩

/-- **What `bind_select` makes of a statement.** -/
theorem bindSelect_spec {acc : Accessor} {stmt : Ast.SelectStmt} {b : BoundSelect}
    (h : bindSelect acc stmt = .ok b) :
    ∃ scope, binderScope acc stmt = .ok scope ∧ BoundBy acc stmt scope b := by
  obtain ⟨projections, fromClause, joins, whereClause, groupBy, having, orderBy, limit, offset, distinct⟩ :=
    stmt
  rw [bindSelect, bind_eq_ok] at h
  obtain ⟨⟨boundFrom, scope₀⟩, hfrom, h⟩ := h
  rw [bind_eq_ok] at h
  obtain ⟨⟨boundJoins, scope⟩, hjoins, h⟩ := h
  simp only [bind_eq_ok] at h
  obtain ⟨w, hw, g, hg, v, hv, p, hp, o, ho, l, hl, off, hoff, h⟩ := h
  cases h
  refine ⟨scope, ?_, ⟨⟨scope₀, hfrom, hjoins⟩, hw, hg, hv, hp, ho, hl, hoff, rfl⟩⟩
  rw [binderScope, bind_eq_ok]
  exact ⟨_, hfrom, bind_eq_ok.2 ⟨_, hjoins, rfl⟩⟩

end Binder
end Abdb
