/-
# The syntax of queries and changes

`src/parser/ast.rs`, the parts that a SELECT, an INSERT and an UPDATE are made of.
-/

import Abdb.Databox.Value

namespace Abdb

/-- `BinaryOp`, the binary operators. -/
inductive BinaryOp
  | add | sub | mul | div | mod
  | eq | notEq | lt | ltEq | gt | gtEq
  | and | or
  | concat
deriving DecidableEq, Repr

/-- `UnaryOp`, the unary operators. -/
inductive UnaryOp
  | neg | not
deriving DecidableEq, Repr

namespace Ast

/-- `JoinKind`, the kinds of join. -/
inductive JoinKind
  | inner | leftOuter | rightOuter | fullOuter | cross
deriving DecidableEq, Repr

/-- `Literal`; a float is given by its bits. -/
inductive Literal
  | integer (n : Int64)
  | float (bits : UInt64)
  | string (s : String)
  | bool (b : Bool)
  | null
deriving DecidableEq, Repr

/-- `ColumnRef`, a column named in an expression. -/
structure ColumnRef where
  table : Option String
  column : String
deriving DecidableEq, Repr

mutual

/-- `Expr`, an expression as parsed. -/
inductive Expr
  | literal (lit : Literal)
  | column (c : ColumnRef)
  | binaryOp (left : Expr) (op : BinaryOp) (right : Expr)
  | unaryOp (op : UnaryOp) (expr : Expr)
  | isNull (expr : Expr)
  | isNotNull (expr : Expr)
  | like (expr pattern : Expr) (negated : Bool)
  | between (expr low high : Expr) (negated : Bool)
  | inList (expr : Expr) (list : List Expr) (negated : Bool)
  | inSubquery (expr : Expr) (subquery : SelectStmt) (negated : Bool)
  | existsSubquery (subquery : SelectStmt) (negated : Bool)
  | subquery (query : SelectStmt)
  | function (name : String) (args : List Expr) (distinct : Bool)
  | cast (expr : Expr) (dataType : DataType)
  | case (operand : Option Expr) (whenThen : List (Expr × Expr)) (elseResult : Option Expr)
  | wildcard

/-- `SelectItem`, one item of a SELECT list. -/
inductive SelectItem
  | wildcard
  | qualifiedWildcard (qualifier : String)
  | expr (expr : Expr) (aliasName : Option String)

/-- `TableRef`, a table or a subquery in FROM. -/
inductive TableRef
  | named (name : String) (aliasName : Option String)
  | subquery (query : SelectStmt) (aliasName : String)

/-- `JoinCondition`, as written. -/
inductive JoinCondition
  | on (expr : Expr)
  | using (columns : List String)
  | natural
  | none

/-- `Join`, a joined table. -/
structure Join where
  kind : JoinKind
  table : TableRef
  condition : JoinCondition

/-- `OrderByExpr`, one key of ORDER BY. -/
structure OrderByExpr where
  expr : Expr
  asc : Bool
  nullsFirst : Option Bool

/-- `SelectStmt`, a SELECT statement. -/
structure SelectStmt where
  projections : List SelectItem
  fromClause : List TableRef
  joins : List Join
  whereClause : Option Expr
  groupBy : List Expr
  having : Option Expr
  orderBy : List OrderByExpr
  limit : Option Expr
  offset : Option Expr
  distinct : Bool

end

/-- `InsertSource`, the rows of an INSERT. -/
inductive InsertSource
  | values (rows : List (List Expr))
  | select (query : SelectStmt)

/-- `InsertStmt`. -/
structure InsertStmt where
  table : String
  columns : Option (List String)
  source : InsertSource

/-- `Assignment`, one SET of an UPDATE. -/
structure Assignment where
  column : String
  value : Expr

/-- `UpdateStmt`. -/
structure UpdateStmt where
  table : String
  aliasName : Option String
  assignments : List Assignment
  whereClause : Option Expr

end Ast
end Abdb
