/-
# Scopes

`src/binder/scope.rs` and `src/binder/error.rs`: the columns a name in a SELECT may stand for,
numbered in the order in which they are added.
-/

import Abdb.Binder.Bound
import Mathlib.Tactic.Common

namespace Abdb

/-- `BindError`, the errors about queries and changes of rows. -/
inductive BindError
  | unknownTable (name : String)
  | unknownColumn (name : String)
  | ambiguousColumn (name : String)
  | typeMismatch (expected found : DataType) (context : String)
  | unsupported (message : String)
  | catalogError (message : String)
  | aggregateNotAllowed (name : String)
  | nonGroupedColumn (name : String)
  | subqueryTooManyColumns
  | columnCountMismatch (expected found : ℕ)
deriving DecidableEq, Repr

/-- `BindResult`. -/
abbrev BindResult := Except BindError

/-- `str::eq_ignore_ascii_case`. -/
def eqIgnoreAsciiCase (a b : String) : Bool := a.toList.map Char.toLower == b.toList.map Char.toLower

/-- `ScopeColumn`, a column of a scope. -/
structure ScopeColumn where
  qualifier : Option String
  columnName : String
  dataType : DataType
  nullable : Bool
  index : ℕ
  catalogColumn : Option Catalog.Column
deriving DecidableEq, Repr

/-- `Scope`. -/
structure Scope where
  columns : List ScopeColumn
deriving DecidableEq, Repr

namespace Scope

/-- `Scope::new`. -/
def new : Scope := ⟨[]⟩

/-- One column at the end of a scope. -/
def push (scope : Scope) (qualifier : Option String) (columnName : String) (dataType : DataType)
    (nullable : Bool) (catalogColumn : Option Catalog.Column) : Scope :=
  ⟨scope.columns ++ [⟨qualifier, columnName, dataType, nullable, scope.columns.length, catalogColumn⟩]⟩

/-- `Scope::add_table`. -/
def addTable (scope : Scope) (qualifier : Option String) (columns : List Catalog.Column)
    (nullable : Bool) : Scope :=
  columns.foldl (fun scope col =>
    scope.push qualifier col.name col.typeId (col.nullable || nullable) (some col)) scope

/-- `Scope::add_derived`, with the qualifier that its only caller sets afterwards. -/
def addDerived (scope : Scope) (qualifier : Option String) (name : String) (dataType : DataType)
    (nullable : Bool) : Scope :=
  scope.push qualifier name dataType nullable none

/-- A qualified name is a column's. -/
def named (qualifier : Option String) (columnName : String) (sc : ScopeColumn) : Bool :=
  eqIgnoreAsciiCase sc.columnName columnName &&
    match qualifier with
    | some q => sc.qualifier.any (eqIgnoreAsciiCase · q)
    | none => true

/-- `Scope::resolve`: the only column of a name. -/
def resolve (scope : Scope) (qualifier : Option String) (columnName : String) : BindResult ScopeColumn :=
  match scope.columns.filter (named qualifier columnName) with
  | [sc] => .ok sc
  | [] => .error (.unknownColumn (match qualifier with
    | some q => q ++ "." ++ columnName
    | none => columnName))
  | _ => .error (.ambiguousColumn columnName)

/-- `Scope::all_columns_for_qualifier`. -/
def allColumnsForQualifier (scope : Scope) (qualifier : String) : List ScopeColumn :=
  scope.columns.filter fun sc => sc.qualifier.any (eqIgnoreAsciiCase · qualifier)

end Scope

/-- A column of a scope as an expression. -/
def ScopeColumn.toExpr (sc : ScopeColumn) : BoundExpr :=
  ⟨.columnRef ⟨sc.qualifier, sc.columnName, sc.index⟩, sc.dataType, sc.nullable⟩

end Abdb
