/-
# Translating all statements

The statements of `src/parser/mod.rs` besides those of `Abdb.Parser.Translate`: CREATE TABLE, CREATE INDEX,
INSERT, the statements of transactions and EXPLAIN, and `parse`.

The parts of CREATE TABLE are put together one column and one constraint after the other: a PRIMARY KEY
constraint replaces the key that the columns or another constraint have given so far, but not their marks.
-/

import Abdb.Binder.Statement
import Abdb.Parser.Translate
import Mathlib.Data.List.Lookmap

namespace Abdb

/-! ### The syntax that is translated -/

namespace Sq

/-- `ColumnOption` in CREATE TABLE, which reads a foreign key as well. -/
inductive CreateOption
  | basic (option : ColumnOption)
  | foreignKey (fk : ForeignKeyConstraint)

/-- `ColumnDef` in CREATE TABLE. -/
structure CreateColumn where
  name : String
  dataType : DataType
  options : List CreateOption

/-- `TableConstraint` in CREATE TABLE, the columns of UNIQUE by their display. -/
inductive CreateConstraint
  | foreignKey (fk : ForeignKeyConstraint)
  | primaryKey (pk : PrimaryKeyConstraint)
  | unique (columns : List String)
  | other (clause : Clause)

/-- `CreateTable`. -/
structure CreateTable where
  name : ObjectName
  ifNotExists : Bool
  columns : List CreateColumn
  constraints : List CreateConstraint

/-- `CreateIndex`, its columns by their display. -/
structure CreateIndex where
  name : Option ObjectName
  tableName : ObjectName
  columns : List String
  unique : Bool
  ifNotExists : Bool

/-- The `source` of an INSERT, a `Query` with or without VALUES as its body. -/
inductive InsertSource
  | values (rows : List (List Expr))
  | query (query : Query)

/-- `Insert`; `table` is the display of its target. -/
structure Insert where
  table : String
  columns : List String
  source : Option InsertSource

/-- `TransactionIsolationLevel`. -/
inductive TransactionIsolationLevel
  | readUncommitted | readCommitted | repeatableRead | serializable | snapshot
deriving DecidableEq, Repr

/-- `TransactionMode`, an access mode by its display. -/
inductive TransactionMode
  | accessMode (text : String)
  | isolationLevel (level : TransactionIsolationLevel)

/-- `Statement::StartTransaction`. -/
structure StartTransaction where
  modes : List TransactionMode
  modifier : Option Clause
  statements : List Clause
  exception : Option (List Clause)

/-- `Statement`, all of it: `basic` is one of the statements of `Statement`, and `other` one that is rejected
whatever it contains. -/
inductive Command
  | startTransaction (stmt : StartTransaction)
  | commit
  | rollback
  | createTable (stmt : CreateTable)
  | createIndex (stmt : CreateIndex)
  | insert (stmt : Insert)
  | basic (stmt : Statement)
  | explain (inner : Command)
  | other

end Sq

namespace Parser

variable (toLowercase : String → String)

/-! ### CREATE TABLE -/

/-- `translate_fk_constraint_col`. -/
def translateFkConstraintCol (colName : String) (fk : Sq.ForeignKeyConstraint) : Ast.ForeignKeyClause :=
  { translateFkConstraint fk with columns := [colName] }

/-- The columns, the primary key and the foreign keys so far. -/
structure TableParts where
  columns : List Ast.ColumnDef
  primaryKey : List String
  foreignKeys : List Ast.ForeignKeyClause

/-- One option of a column, with the foreign keys so far. -/
def createOption (acc : Ast.ColumnDef × List Ast.ForeignKeyClause) :
    Sq.CreateOption → ParseResult (Ast.ColumnDef × List Ast.ForeignKeyClause)
  | .basic option => do
    let column ← addOption toLowercase acc.1 option
    return (column, acc.2)
  | .foreignKey fk => .ok (acc.1, acc.2 ++ [translateFkConstraintCol acc.1.name fk])

/-- One column. -/
def createColumn (parts : TableParts) (col : Sq.CreateColumn) : ParseResult TableParts := do
  let dataType ← translateDataType toLowercase col.dataType
  let (column, foreignKeys) ← col.options.foldlM (createOption toLowercase)
    (⟨col.name, dataType, true, none, false, false⟩, parts.foreignKeys)
  return ⟨parts.columns ++ [column],
    if column.primaryKey then parts.primaryKey ++ [col.name] else parts.primaryKey, foreignKeys⟩

/-- A change of the first column of this name, in whatever case. -/
def changeColumn (f : Ast.ColumnDef → Ast.ColumnDef) (columns : List Ast.ColumnDef) (name : String) :
    List Ast.ColumnDef :=
  columns.lookmap fun c => if eqIgnoreAsciiCase c.name name then some (f c) else none

/-- One constraint. -/
def createConstraint (parts : TableParts) : Sq.CreateConstraint → TableParts
  | .primaryKey pk => { parts with
      primaryKey := pk.columns
      columns := pk.columns.foldl (changeColumn fun c => { c with primaryKey := true, nullable := false })
        parts.columns }
  | .foreignKey fk => { parts with foreignKeys := parts.foreignKeys ++ [translateFkConstraint fk] }
  | .unique columns => { parts with
      columns := columns.foldl (changeColumn fun c => { c with unique := true }) parts.columns }
  | .other _ => parts

/-- `translate_create_table`. -/
def translateCreateTable (ct : Sq.CreateTable) : ParseResult Ast.CreateTableStmt :=
  if isBlank ct.name.toString then .error (.text "CREATE TABLE requires a table name")
  else do
    let parts ← ct.columns.foldlM (createColumn toLowercase) ⟨[], [], []⟩
    let parts := ct.constraints.foldl createConstraint parts
    return ⟨ct.name.toString, parts.columns, parts.primaryKey, parts.foreignKeys, ct.ifNotExists⟩

/-! ### The other statements -/

/-- The isolation level that the modes of START TRANSACTION name; `DEFAULT_ISOLATION_LEVEL` without one. -/
def translateModes : List Sq.TransactionMode → ParseResult Ast.IsolationLevel
  | [] => .ok .snapshot
  | [.isolationLevel level] =>
    match level with
    | .readCommitted => .ok .readCommitted
    | .readUncommitted => .ok .readUncommitted
    | .repeatableRead => .ok .repeatableRead
    | .snapshot => .ok .snapshot
    | .serializable => .ok .serializable
  | [.accessMode text] => .error (.text ("unsupported transaction mode: " ++ text))
  | _ => .error (.text "too many transaction modes specified")

/-- START TRANSACTION and BEGIN. -/
def translateStartTransaction (stmt : Sq.StartTransaction) : ParseResult Ast.IsolationLevel := do
  let level ← translateModes stmt.modes
  if stmt.modifier.isSome then .error (.text "transaction modifiers are not supported")
  else if stmt.statements ≠ [] then .error (.text "transaction statements are not supported")
  else if stmt.exception.isSome then .error (.text "transaction exceptions are not supported")
  else return level

/-- CREATE INDEX. -/
def translateCreateIndex (ci : Sq.CreateIndex) : ParseResult Ast.CreateIndexStmt :=
  match ci.name with
  | none => .error (.text "CREATE INDEX requires an index name")
  | some name => .ok ⟨name.toString, ci.tableName.toString, ci.columns, ci.unique, ci.ifNotExists⟩

/-- The rows of an INSERT. -/
def translateInsertSource : Option Sq.InsertSource → ParseResult Ast.InsertSource
  | some (.values rows) => do
    let rows ← rows.mapM (translateExprs toLowercase)
    return .values rows
  | some (.query ⟨.other, _, _, _⟩) => .error (.debug "unsupported INSERT source")
  | some (.query query) => do
    let sel ← translateQuery toLowercase query
    return .select sel
  | none => .error (.text "INSERT with no source")

/-- `translate_insert`. -/
def translateInsert (insert : Sq.Insert) : ParseResult Ast.InsertStmt :=
  if isBlank insert.table then .error (.text "INSERT requires a table name")
  else do
    let source ← translateInsertSource toLowercase insert.source
    return ⟨insert.table, if insert.columns = [] then none else some insert.columns, source⟩

/-- `translate_statement`. -/
def translateCommand : Sq.Command → ParseResult Ast.Command
  | .startTransaction stmt => do
    let level ← translateStartTransaction stmt
    return .beginTransaction level
  | .commit => .ok .commit
  | .rollback => .ok .rollback
  | .createTable ct => do
    let stmt ← translateCreateTable toLowercase ct
    return .createTable stmt
  | .createIndex ci => do
    let stmt ← translateCreateIndex ci
    return .createIndex stmt
  | .insert insert => do
    let stmt ← translateInsert toLowercase insert
    return .insert stmt
  | .basic stmt => do
    let stmt ← translateStatement toLowercase stmt
    return .basic stmt
  | .explain inner => do
    let inner ← translateCommand inner
    return .explain inner
  | .other => .error (.debug "unsupported statement")

/-- `Parser::parse`; `parseSql` is that of the `sqlparser` crate, with its errors by their text. -/
def parse (parseSql : String → Except String (List Sq.Command)) (sql : String) : ParseResult (List Ast.Command) :=
  match parseSql sql with
  | .error e => .error (.text e)
  | .ok stmts => stmts.mapM (translateCommand toLowercase)

end Parser
end Abdb
