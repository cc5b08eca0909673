/-
# The syntax of statements

`src/parser/ast.rs`, the statements whose translation is here besides queries: UPDATE, DELETE, ALTER TABLE,
DROP TABLE and DROP INDEX.
-/

import Abdb.Parser.Ast

namespace Abdb
namespace Ast

/-- `ColumnDef`. -/
structure ColumnDef where
  name : String
  dataType : DataType
  nullable : Bool
  default : Option Expr
  unique : Bool
  primaryKey : Bool

/-- `ForeignKeyAction`. -/
inductive ForeignKeyAction
  | noAction | cascade | setNull | restrict
deriving DecidableEq, Repr

/-- `ForeignKeyClause`. -/
structure ForeignKeyClause where
  columns : List String
  refTable : String
  refColumns : List String
  onDelete : Option ForeignKeyAction
  onUpdate : Option ForeignKeyAction

/-- `AlterTableAction`. -/
inductive AlterTableAction
  | addColumn (column : ColumnDef)
  | dropColumn (name : String)
  | renameColumn (old new : String)
  | renameTable (name : String)
  | alterColumnType (column : String) (newType : DataType)
  | addForeignKey (fk : ForeignKeyClause)
  | dropForeignKey (name : String)
  | addPrimaryKey (columns : List String)
  | dropConstraint (name : String)

/-- `AlterTableStmt`. -/
structure AlterTableStmt where
  name : String
  action : AlterTableAction

/-- `DropTableStmt`. -/
structure DropTableStmt where
  name : String
  ifExists : Bool

/-- `DropIndexStmt`. -/
structure DropIndexStmt where
  name : String
  table : String
  ifExists : Bool

/-- `DeleteStmt`. -/
structure DeleteStmt where
  table : String
  aliasName : Option String
  whereClause : Option Expr

/-- `Statement`. -/
inductive Statement
  | dropTable (stmt : DropTableStmt)
  | alterTable (stmt : AlterTableStmt)
  | select (stmt : SelectStmt)
  | update (stmt : UpdateStmt)
  | delete (stmt : DeleteStmt)
  | dropIndex (stmt : DropIndexStmt)

end Ast
end Abdb
