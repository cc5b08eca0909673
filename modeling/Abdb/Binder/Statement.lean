/-
# Binding statements

`bind` of `src/binder/binder.rs`, with DELETE and the statements that define tables and indexes.
These take new identifiers from an `OidAllocator` (`src/binder/oid_alloc.rs`), which keeps those it
gave out whether or not the statement is accepted in the end.
-/

import Abdb.Binder.Modify
import Abdb.Page.Basic
import Abdb.Parser.Statement

namespace Abdb

/-! ### Syntax -/

namespace Ast

/-- `CreateTableStmt`. -/
structure CreateTableStmt where
  name : String
  columns : List ColumnDef
  primaryKey : List String
  foreignKeys : List ForeignKeyClause
  ifNotExists : Bool

/-- `CreateIndexStmt`. -/
structure CreateIndexStmt where
  name : String
  table : String
  columns : List String
  unique : Bool
  ifNotExists : Bool

/-- `IsolationLevel` of `src/transaction/mod.rs`. -/
inductive IsolationLevel
  | readUncommitted | readCommitted | repeatableRead | snapshot | serializable
deriving DecidableEq, Repr

/-- `Statement`, all of it: `basic` is one of the statements of `Parser/Statement.lean`. -/
inductive Command
  | beginTransaction (level : IsolationLevel)
  | commit
  | rollback
  | createTable (stmt : CreateTableStmt)
  | createIndex (stmt : CreateIndexStmt)
  | insert (stmt : InsertStmt)
  | basic (stmt : Statement)
  | explain (inner : Command)

end Ast

/-! ### Bound statements -/

/-- `BoundColumnDef`. -/
structure BoundColumnDef where
  oid : OId
  name : String
  dataType : DataType
  position : ℕ
  nullable : Bool
  default : Option BoundExpr
  unique : Bool
  primaryKey : Bool

/-- `BoundCreateTable`. -/
structure BoundCreateTable where
  tableOid : OId
  fileId : FileId
  name : String
  columns : List BoundColumnDef
  primaryKey : List ℕ
  foreignKeys : List Ast.ForeignKeyClause
  ifNotExists : Bool

/-- `BoundDropTable`. -/
structure BoundDropTable where
  tableOid : OId
  name : String
  indexOids : List OId
  ifExists : Bool

/-- `BoundAlterAction`. -/
inductive BoundAlterAction
  | addColumn (column : BoundColumnDef)
  | dropColumn (columnOid : OId) (position : ℕ)
  | renameColumn (columnOid : OId) (oldName newName : String)
  | renameTable (newName : String)
  | alterColumnType (columnOid : OId) (newType : DataType)
  | addForeignKey (fk : Ast.ForeignKeyClause)
  | dropForeignKey (name : String)
  | addPrimaryKey (columnOids : List OId)
  | dropConstraint (name : String)

/-- `BoundAlterTable`. -/
structure BoundAlterTable where
  tableOid : OId
  name : String
  action : BoundAlterAction

/-- `BoundCreateIndex`. -/
structure BoundCreateIndex where
  indexOid : OId
  fileId : FileId
  name : String
  tableOid : OId
  columnOid : OId
  unique : Bool
  ifNotExists : Bool

/-- `BoundDropIndex`. -/
structure BoundDropIndex where
  indexOid : OId
  name : String
  tableOid : OId
  ifExists : Bool

/-- `BoundDelete`. -/
structure BoundDelete where
  table : Catalog.Table
  tableColumns : List Catalog.Column
  whereClause : Option BoundExpr

/-- `BoundStatement`. -/
inductive BoundStatement
  | createTable (stmt : BoundCreateTable)
  | dropTable (stmt : BoundDropTable)
  | alterTable (stmt : BoundAlterTable)
  | insert (stmt : BoundInsert)
  | select (stmt : BoundSelect)
  | update (stmt : BoundUpdate)
  | delete (stmt : BoundDelete)
  | createIndex (stmt : BoundCreateIndex)
  | dropIndex (stmt : BoundDropIndex)
  | explain (inner : BoundStatement)

/-! ### The binder -/

/-- `BindError`, with the errors of definitions. -/
inductive DefinitionError
  | bind (e : BindError)
  | duplicateName (name : String)
  | invalidDefault (message : String)
  | multiColumnIndexUnsupported
  | noColumnsInIndex
  | tableAlreadyExists (name : String)
  | indexAlreadyExists (name : String)
deriving DecidableEq, Repr

/-- What the binder asks the accessor about names of indexes as well. -/
structure DefinitionAccessor extends Accessor where
  /-- `catalog_get_index_by_name`. -/
  indexByName : String → Option Catalog.Index

/-- `OidAllocator`, with a state of its own. -/
structure OidAllocator (σ : Type) where
  /-- `next_oid`. -/
  nextOid : σ → OId × σ
  /-- `next_file_id`. -/
  nextFileId : σ → FileId × σ

namespace Binder

variable {σ : Type}

/-- The result of binding, and the allocator after it. -/
abbrev Binding (σ α : Type) := Except DefinitionError α × σ

/-- A result that takes no identifier. -/
def lift (s : σ) {α : Type} (r : BindResult α) : Binding σ α := (r.mapError .bind, s)

/-- `bind_delete`. -/
def bindDelete (acc : Accessor) (stmt : Ast.DeleteStmt) : BindResult BoundDelete := do
  let (table, tableColumns) ← changedTable acc stmt.table
  let scope := Scope.new.addTable (some (stmt.aliasName.getD stmt.table)) tableColumns false
  let whereClause ← bindWhere acc scope stmt.whereClause
  return ⟨table, tableColumns, whereClause⟩

/-- `bind_default_expr`. -/
def bindDefaultExpr (acc : Accessor) (expr : Ast.Expr) : Except DefinitionError BoundExpr :=
  match expr with
  | .column _ => .error (.invalidDefault "default value cannot reference a column")
  | .function name _ _ =>
    if (FunctionKind.ofName name).isAggregate then
      .error (.invalidDefault "default value cannot contain an aggregate function")
    else (bindExpr acc Scope.new expr).mapError .bind
  | other => (bindExpr acc Scope.new other).mapError .bind

/-- The default of a column, if it has one. -/
def bindDefault (acc : Accessor) : Option Ast.Expr → Except DefinitionError (Option BoundExpr)
  | none => .ok none
  | some e => (bindDefaultExpr acc e).map some

/-- One column, at a position. -/
def bindColumnDef (acc : Accessor) (oids : OidAllocator σ) (position : ℕ) (col : Ast.ColumnDef) (s : σ) :
    Binding σ BoundColumnDef :=
  match bindDefault acc col.default with
  | .error e => (.error e, s)
  | .ok default =>
    let (oid, s) := oids.nextOid s
    (.ok ⟨oid, col.name, col.dataType, position % 2 ^ 16, col.nullable, default, col.unique, col.primaryKey⟩, s)

/-- The columns of a table, from a position on. -/
def bindColumnDefs (acc : Accessor) (oids : OidAllocator σ) : ℕ → List Ast.ColumnDef → σ →
    Binding σ (List BoundColumnDef)
  | _, [], s => (.ok [], s)
  | position, col :: cols, s =>
    match bindColumnDef acc oids position col s with
    | (.error e, s) => (.error e, s)
    | (.ok bound, s) =>
      match bindColumnDefs acc oids (position + 1) cols s with
      | (.error e, s) => (.error e, s)
      | (.ok rest, s) => (.ok (bound :: rest), s)

/-- A name that another column has, as `to_lowercase` writes them: the first one found. -/
def duplicateName (toLowercase : String → String) : List String → List String → Option String
  | _, [] => none
  | seen, name :: names =>
    if toLowercase name ∈ seen then some name
    else duplicateName toLowercase (toLowercase name :: seen) names

/-- The position of a column of the primary key. -/
def keyPosition (columns : List BoundColumnDef) (name : String) : Except DefinitionError ℕ :=
  match columns.find? fun c => eqIgnoreAsciiCase c.name name with
  | some c => .ok c.position
  | none => .error (.bind (.unknownColumn name))

/-- `bind_create_table`. -/
def bindCreateTable (acc : Accessor) (oids : OidAllocator σ) (stmt : Ast.CreateTableStmt) (s : σ) :
    Binding σ BoundCreateTable :=
  if (acc.tableByName stmt.name).isSome && !stmt.ifNotExists then
    (.error (.tableAlreadyExists stmt.name), s)
  else
    match duplicateName acc.toLowercase [] (stmt.columns.map (·.name)) with
    | some name => (.error (.duplicateName name), s)
    | none =>
      let (tableOid, s) := oids.nextOid s
      let (fileId, s) := oids.nextFileId s
      match bindColumnDefs acc oids 0 stmt.columns s with
      | (.error e, s) => (.error e, s)
      | (.ok columns, s) =>
        ((stmt.primaryKey.mapM (keyPosition columns)).map fun primaryKey =>
          ⟨tableOid, fileId, stmt.name, columns, primaryKey, stmt.foreignKeys, stmt.ifNotExists⟩, s)

/-- `bind_drop_table`. -/
def bindDropTable (acc : Accessor) (stmt : Ast.DropTableStmt) : BindResult BoundDropTable :=
  match acc.tableByName stmt.name with
  | some table => .ok ⟨table.oid, stmt.name, [], stmt.ifExists⟩
  | none => if stmt.ifExists then .ok ⟨0, stmt.name, [], true⟩ else .error (.unknownTable stmt.name)

/-- A table by name, and its columns as the catalog lists them. -/
def definedTable (acc : Accessor) (name : String) : BindResult (Catalog.Table × List Catalog.Column) :=
  match acc.tableByName name with
  | none => .error (.unknownTable name)
  | some table =>
    match acc.tableColumns table.oid with
    | .error e => .error (.catalogError e)
    | .ok columns => .ok (table, columns)

/-- The action of an ALTER TABLE on a table with some columns. -/
def bindAlterAction (acc : Accessor) (oids : OidAllocator σ) (columns : List Catalog.Column) (s : σ) :
    Ast.AlterTableAction → Binding σ BoundAlterAction
  | .addColumn col =>
    match bindColumnDef acc oids columns.length col s with
    | (.error e, s) => (.error e, s)
    | (.ok bound, s) => (.ok (.addColumn bound), s)
  | .dropColumn name => lift s ((namedColumn columns name).map fun col => .dropColumn col.oid col.position)
  | .renameColumn old new => lift s ((namedColumn columns old).map fun col => .renameColumn col.oid old new)
  | .renameTable name => (.ok (.renameTable name), s)
  | .alterColumnType column newType =>
    lift s ((namedColumn columns column).map fun col => .alterColumnType col.oid newType)
  | .addForeignKey fk => (.ok (.addForeignKey fk), s)
  | .dropForeignKey name => (.ok (.dropForeignKey name), s)
  | .addPrimaryKey names => lift s ((names.mapM (namedColumn columns)).map fun cols => .addPrimaryKey (cols.map (·.oid)))
  | .dropConstraint name => (.ok (.dropConstraint name), s)

/-- `bind_alter_table`. -/
def bindAlterTable (acc : Accessor) (oids : OidAllocator σ) (stmt : Ast.AlterTableStmt) (s : σ) :
    Binding σ BoundAlterTable :=
  match definedTable acc stmt.name with
  | .error e => (.error (.bind e), s)
  | .ok (table, columns) =>
    match bindAlterAction acc oids columns s stmt.action with
    | (.error e, s) => (.error e, s)
    | (.ok action, s) => (.ok ⟨table.oid, stmt.name, action⟩, s)

/-- `bind_create_index`. -/
def bindCreateIndex (acc : DefinitionAccessor) (oids : OidAllocator σ) (stmt : Ast.CreateIndexStmt) (s : σ) :
    Binding σ BoundCreateIndex :=
  match stmt.columns with
  | _ :: _ :: _ => (.error .multiColumnIndexUnsupported, s)
  | [] => (.error .noColumnsInIndex, s)
  | [colName] =>
    if (acc.indexByName stmt.name).isSome && !stmt.ifNotExists then (.error (.indexAlreadyExists stmt.name), s)
    else
      match definedTable acc.toAccessor stmt.table with
      | .error e => (.error (.bind e), s)
      | .ok (table, columns) =>
        match namedColumn columns colName with
        | .error e => (.error (.bind e), s)
        | .ok col =>
          let (indexOid, s) := oids.nextOid s
          let (fileId, s) := oids.nextFileId s
          (.ok ⟨indexOid, fileId, stmt.name, table.oid, col.oid, stmt.unique, stmt.ifNotExists⟩, s)

/-- `bind_drop_index`; an unknown index is reported as an unknown table. -/
def bindDropIndex (acc : DefinitionAccessor) (stmt : Ast.DropIndexStmt) : BindResult BoundDropIndex :=
  match acc.indexByName stmt.name with
  | some index => .ok ⟨index.oid, stmt.name, index.tableOid, stmt.ifExists⟩
  | none => if stmt.ifExists then .ok ⟨0, stmt.name, 0, true⟩ else .error (.unknownTable stmt.name)

/-- `bind`; `none` where the code is `unreachable!`. -/
def bind (acc : DefinitionAccessor) (oids : OidAllocator σ) : Ast.Command → σ → Option (Binding σ BoundStatement)
  | .createTable stmt, s =>
    let (r, s) := bindCreateTable acc.toAccessor oids stmt s
    some (r.map .createTable, s)
  | .createIndex stmt, s =>
    let (r, s) := bindCreateIndex acc oids stmt s
    some (r.map .createIndex, s)
  | .insert stmt, s => some (lift s ((bindInsert acc.toAccessor stmt).map .insert))
  | .basic (.dropTable stmt), s => some (lift s ((bindDropTable acc.toAccessor stmt).map .dropTable))
  | .basic (.alterTable stmt), s =>
    let (r, s) := bindAlterTable acc.toAccessor oids stmt s
    some (r.map .alterTable, s)
  | .basic (.select stmt), s => some (lift s ((bindSelect acc.toAccessor stmt).map .select))
  | .basic (.update stmt), s => some (lift s ((bindUpdate acc.toAccessor stmt).map .update))
  | .basic (.delete stmt), s => some (lift s ((bindDelete acc.toAccessor stmt).map .delete))
  | .basic (.dropIndex stmt), s => some (lift s ((bindDropIndex acc stmt).map .dropIndex))
  | .explain inner, s => (bind acc oids inner s).map fun (r, s) => (r.map .explain, s)
  | .beginTransaction _, _ | .commit, _ | .rollback, _ => none

end Binder
end Abdb
