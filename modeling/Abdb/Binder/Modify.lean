/-
# Binding INSERT and UPDATE

`bind_insert`, `bind_update` and `coerce_expr` of `src/binder/binder.rs`.  An expression for a
column is given the column's type where the types are the same, where it is NULL, or by a cast to
a numeric type of at least its rank; else the statement is rejected.  The rows of an INSERT from a
SELECT are counted only.

So every expression of VALUES and of UPDATE has the type of its column, and an INSERT from a
SELECT stores the types of its columns exactly if the SELECT has them by itself
(`storesTypes_iff`).
-/

import Abdb.Binder.Resolve

namespace Abdb
namespace Binder

/-! ### Coercion -/

/-- The literal NULL. -/
def isNullLiteral (e : BoundExpr) : Bool :=
  match e.kind with
  | .literal .null => true
  | _ => false

/-- `coerce_expr`. -/
def coerceExpr (expr : BoundExpr) (target : DataType) (context : String) : BindResult BoundExpr :=
  if expr.dataType = target then .ok expr
  else if isNullLiteral expr then .ok { expr with dataType := target }
  else if isNumeric expr.dataType && isNumeric target && numericRank expr.dataType ≤ numericRank target then
    .ok ⟨.cast expr target, target, expr.nullable⟩
  else .error (.typeMismatch target expr.dataType context)

/-- `expect_bool_or_numeric`. -/
def expectBoolOrNumeric (expr : BoundExpr) (context : String) : BindResult Unit :=
  if expr.dataType = .bool || isNumeric expr.dataType then .ok ()
  else .error (.typeMismatch .bool expr.dataType context)

/-! ### The statements -/

/-- The table that a statement changes, and its columns by position. -/
def changedTable (acc : Accessor) (name : String) : BindResult (Catalog.Table × List Catalog.Column) :=
  match acc.tableByName name with
  | none => .error (.unknownTable name)
  | some table =>
    match acc.tableColumns table.oid with
    | .error e => .error (.catalogError e)
    | .ok columns => .ok (table, columns.insertionSort (·.position ≤ ·.position))

/-- The column of a table with a name. -/
def namedColumn (columns : List Catalog.Column) (name : String) : BindResult Catalog.Column :=
  match columns.find? fun c => eqIgnoreAsciiCase c.name name with
  | some col => .ok col
  | none => .error (.unknownColumn name)

/-- The columns that an INSERT gives values to. -/
def targetColumns (columns : List Catalog.Column) : Option (List String) → BindResult (List Catalog.Column)
  | none => .ok columns
  | some names => names.mapM (namedColumn columns)

/-- One expression of VALUES, for its column. -/
def bindValue (acc : Accessor) (value : Ast.Expr × Catalog.Column) : BindResult BoundExpr := do
  let bound ← bindExpr acc Scope.new value.1
  coerceExpr bound value.2.typeId value.2.name

/-- One row of VALUES. -/
def bindRow (acc : Accessor) (targets : List Catalog.Column) (row : List Ast.Expr) :
    BindResult (List BoundExpr) :=
  if row.length ≠ targets.length then .error (.columnCountMismatch targets.length row.length)
  else (row.zip targets).mapM (bindValue acc)

/-- The rows of an INSERT. -/
def bindInsertSource (acc : Accessor) (targets : List Catalog.Column) :
    Ast.InsertSource → BindResult BoundInsertSource
  | .values rows => do
    let boundRows ← rows.mapM (bindRow acc targets)
    return .values boundRows
  | .select query => do
    let boundSel ← bindSelect acc query
    if boundSel.outputColumns.length ≠ targets.length then
      .error (.columnCountMismatch targets.length boundSel.outputColumns.length)
    else return .select boundSel

/-- `bind_insert`. -/
def bindInsert (acc : Accessor) (stmt : Ast.InsertStmt) : BindResult BoundInsert := do
  let (table, tableColumns) ← changedTable acc stmt.table
  let targets ← targetColumns tableColumns stmt.columns
  let source ← bindInsertSource acc targets stmt.source
  return ⟨table, tableColumns, targets, source⟩

/-- One assignment of an UPDATE. -/
def bindAssignment (acc : Accessor) (scope : Scope) (columns : List Catalog.Column)
    (asgn : Ast.Assignment) : BindResult BoundAssignment := do
  let col ← namedColumn columns asgn.column
  let value ← bindExpr acc scope asgn.value
  let value ← coerceExpr value col.typeId col.name
  return ⟨col, value⟩

/-- The WHERE clause of an UPDATE. -/
def bindWhere (acc : Accessor) (scope : Scope) : Option Ast.Expr → BindResult (Option BoundExpr)
  | none => .ok none
  | some e => do
    let bound ← bindExpr acc scope e
    expectBoolOrNumeric bound "WHERE"
    return some bound

/-- `bind_update`. -/
def bindUpdate (acc : Accessor) (stmt : Ast.UpdateStmt) : BindResult BoundUpdate := do
  let (table, tableColumns) ← changedTable acc stmt.table
  let scope := Scope.new.addTable (some (stmt.aliasName.getD stmt.table)) tableColumns false
  let assignments ← stmt.assignments.mapM (bindAssignment acc scope tableColumns)
  let whereClause ← bindWhere acc scope stmt.whereClause
  return ⟨table, tableColumns, assignments, whereClause⟩

/-! ### The types -/

/-- The columns a source gives values to have the types of its expressions. -/
def StoresTypes (targets : List Catalog.Column) : BoundInsertSource → Prop
  | .values rows => ∀ row ∈ rows, List.Forall₂ (fun e col => e.dataType = col.typeId) row targets
  | .select query => List.Forall₂ (fun p col => p.expr.dataType = col.typeId) query.projections targets

variable {acc : Accessor} {e e' : BoundExpr} {targets : List Catalog.Column}

/-- **A coerced expression has the target type.** -/
theorem dataType_coerceExpr {target : DataType} {context : String}
    (h : coerceExpr e target context = .ok e') :
    e'.dataType = target := by
  rw [coerceExpr] at h
  split at h
  · rename_i heq
    cases h
    exact heq
  · split at h
    · cases h
      rfl
    · split at h
      · cases h
        rfl
      · cases h

theorem dataType_bindValue {value : Ast.Expr × Catalog.Column} (h : bindValue acc value = .ok e) :
    e.dataType = value.2.typeId := by
  rw [bindValue, bind_eq_ok] at h
  obtain ⟨bound, -, h⟩ := h
  exact dataType_coerceExpr h

theorem dataType_bindRow {row : List Ast.Expr} {bound : List BoundExpr}
    (h : bindRow acc targets row = .ok bound) :
    List.Forall₂ (fun e col => e.dataType = col.typeId) bound targets := by
  rw [bindRow] at h
  split at h
  · cases h
  · rename_i hlen
    have hvalues := (mapM_eq_ok h).imp fun _ _ => dataType_bindValue
    have htargets : (row.zip targets).map Prod.snd = targets := List.map_snd_zip (by omega)
    rw [← htargets, List.forall₂_map_right_iff]
    exact hvalues.flip

theorem dataType_bindAssignment {scope : Scope} {columns : List Catalog.Column} {asgn : Ast.Assignment}
    {bound : BoundAssignment} (h : bindAssignment acc scope columns asgn = .ok bound) :
    bound.value.dataType = bound.column.typeId := by
  rw [bindAssignment, bind_eq_ok] at h
  obtain ⟨col, -, h⟩ := h
  rw [bind_eq_ok] at h
  obtain ⟨value, -, h⟩ := h
  rw [bind_eq_ok] at h
  obtain ⟨value', hcoerce, h⟩ := h
  cases h
  exact dataType_coerceExpr hcoerce

/-- The columns that an INSERT names. -/
def insertTargets (acc : Accessor) (stmt : Ast.InsertStmt) : BindResult (List Catalog.Column) := do
  let (_, tableColumns) ← changedTable acc stmt.table
  targetColumns tableColumns stmt.columns

/-- The SELECT of an INSERT, if it has one, gives the types of the columns by itself. -/
def SelectHasTypes (acc : Accessor) (stmt : Ast.InsertStmt) : Prop :=
  ∀ query, stmt.source = .select query → ∀ sel targets, bindSelect acc query = .ok sel →
    insertTargets acc stmt = .ok targets → sel.outputColumns.map (·.dataType) = targets.map (·.typeId)

theorem bindInsert_eq_ok {stmt : Ast.InsertStmt} {b : BoundInsert} (h : bindInsert acc stmt = .ok b) :
    insertTargets acc stmt = .ok b.targetColumns ∧
      bindInsertSource acc b.targetColumns stmt.source = .ok b.source := by
  simp only [bindInsert, bind_eq_ok] at h
  obtain ⟨⟨table, tableColumns⟩, htable, targets, htargets, source, hsource, h⟩ := h
  cases h
  exact ⟨bind_eq_ok.2 ⟨_, htable, htargets⟩, hsource⟩

theorem typed_select {query : Ast.SelectStmt} {sel : BoundSelect} (h : bindSelect acc query = .ok sel) :
    StoresTypes targets (.select sel) ↔ sel.outputColumns.map (·.dataType) = targets.map (·.typeId) := by
  obtain ⟨scope, -, hb⟩ := bindSelect_spec h
  rw [hb.outputColumns, List.map_map, ← List.forall₂_eq_eq_eq, List.forall₂_map_left_iff,
    List.forall₂_map_right_iff]
  rfl

/-- **The rows of VALUES have the types of the columns.** -/
theorem storesTypes_values {rows : List (List Ast.Expr)} {source : BoundInsertSource}
    (h : bindInsertSource acc targets (.values rows) = .ok source) : StoresTypes targets source := by
  rw [bindInsertSource, bind_eq_ok] at h
  obtain ⟨boundRows, hrows, h⟩ := h
  cases h
  intro row hrow
  obtain ⟨written, -, hbound⟩ := exists_of_mem_mapM hrows hrow
  exact dataType_bindRow hbound

/-- A SELECT is stored as it is. -/
theorem bindInsertSource_select {query : Ast.SelectStmt} {source : BoundInsertSource}
    (h : bindInsertSource acc targets (.select query) = .ok source) :
    ∃ sel, bindSelect acc query = .ok sel ∧ source = .select sel := by
  rw [bindInsertSource, bind_eq_ok] at h
  obtain ⟨sel, hsel, h⟩ := h
  split at h
  · cases h
  · cases h
    exact ⟨sel, hsel, rfl⟩

/-- **The assignments of UPDATE have the types of the columns.** -/
theorem dataType_bindUpdate {stmt : Ast.UpdateStmt} {b : BoundUpdate} (h : bindUpdate acc stmt = .ok b) :
    ∀ a ∈ b.assignments, a.value.dataType = a.column.typeId := by
  simp only [bindUpdate, bind_eq_ok] at h
  obtain ⟨_, -, assignments, hassignments, _, -, h⟩ := h
  cases h
  intro a ha
  obtain ⟨written, -, hbound⟩ := exists_of_mem_mapM hassignments ha
  exact dataType_bindAssignment hbound

/-- **Stored expressions have the column's type** in every VALUES and UPDATE, and in an INSERT
from a SELECT exactly if the SELECT has the types of the columns by itself. -/
theorem storesTypes_iff (acc : Accessor) :
    (∀ stmt b, bindInsert acc stmt = .ok b →
      (StoresTypes b.targetColumns b.source ↔ SelectHasTypes acc stmt)) ∧
    ∀ stmt b, bindUpdate acc stmt = .ok b → ∀ a ∈ b.assignments, a.value.dataType = a.column.typeId := by
  refine ⟨fun stmt b h => ?_, fun stmt b h => dataType_bindUpdate h⟩
  obtain ⟨htargets, hsource⟩ := bindInsert_eq_ok h
  cases hstmt : stmt.source with
  | values rows =>
    rw [hstmt] at hsource
    refine iff_of_true (storesTypes_values hsource) fun query heq => ?_
    rw [hstmt] at heq
    cases heq
  | select query =>
    rw [hstmt] at hsource
    obtain ⟨sel, hsel, hb⟩ := bindInsertSource_select hsource
    rw [hb, typed_select hsel]
    constructor
    · intro htypes query' heq sel' targets hsel' htargets'
      rw [hstmt, Ast.InsertSource.select.injEq] at heq
      subst heq
      obtain rfl := Except.ok.inj (hsel.symm.trans hsel')
      obtain rfl := Except.ok.inj (htargets.symm.trans htargets')
      exact htypes
    · intro htypes
      exact htypes query hstmt sel b.targetColumns hsel htargets

/-! ### A table of one column -/

/-- A column `c`. -/
def columnOf (typeId : DataType) : Catalog.Column := ⟨0, 0, "c", typeId, 0, false⟩

/-- A catalog with a table `t` of one column `c`. -/
def oneColumn (typeId : DataType) : Accessor where
  tableByName name := if name = "t" then some ⟨0, "t", 0⟩ else none
  tableColumns _ := .ok [columnOf typeId]
  toLowercase := id

/-- A SELECT of items from the table `t`. -/
def selectFrom (projections : List Ast.SelectItem) : Ast.SelectStmt :=
  ⟨projections, [.named "t" none], [], none, [], none, [], none, none, false⟩

/-- The column `c`. -/
def columnC : Ast.Expr := .column ⟨none, "c"⟩

/-- `SELECT 'x'`. -/
def selectString : Ast.SelectStmt :=
  ⟨[.expr (.literal (.string "x")) none], [], [], none, [], none, [], none, none, false⟩

theorem storesTypes_one :
    StoresTypes [columnOf .i64] (.values [[⟨.literal (.integer 1), .i64, false⟩]]) :=
  ((storesTypes_iff (oneColumn .i64)).1 ⟨"t", none, .values [[.literal (.integer 1)]]⟩ _ rfl).2 (by
    intro query heq
    cases heq)

/-- **A string for a number**: `INSERT INTO t SELECT 'x'` is accepted for a column of integers. -/
theorem insert_select_string : ¬ ∀ acc stmt b, bindInsert acc stmt = .ok b →
    StoresTypes b.targetColumns b.source := by
  intro hall
  have h := hall (oneColumn .i32) ⟨"t", none, .select selectString⟩ _ rfl
  cases h with
  | cons heq _ => cases heq

end Binder
end Abdb
