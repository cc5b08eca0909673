/-
# Bound statements

`src/binder/bound.rs` and the catalog records of `src/catalog/catalog.rs` it holds: what the
binder makes of a SELECT, an INSERT and an UPDATE.  A column reference carries the number of its
column in the scope of the statement, `scope_index`.
-/

import Abdb.Page.Basic
import Abdb.Parser.Ast

namespace Abdb

/-- `OId`, the id of a catalog object (`u32`). -/
abbrev OId := ℕ

namespace Catalog

/-- `catalog::Table`. -/
structure Table where
  oid : OId
  name : String
  fileId : FileId
deriving DecidableEq, Repr

/-- `catalog::Column`. -/
structure Column where
  oid : OId
  tableOid : OId
  name : String
  typeId : DataType
  position : ℕ
  nullable : Bool
deriving DecidableEq, Repr

/-- `catalog::Index`. -/
structure Index where
  oid : OId
  name : String
  tableOid : OId
  fileId : FileId
  columnOid : OId
deriving DecidableEq, Repr

end Catalog

/-- `FunctionKind`, the functions the binder knows. -/
inductive FunctionKind
  | count | sum | avg | min | max
  | coalesce | nullif | upper | lower | length | abs
  | unknown
deriving DecidableEq, Repr

/-- `FunctionKind::is_aggregate`. -/
def FunctionKind.isAggregate : FunctionKind → Bool
  | .count | .sum | .avg | .min | .max => true
  | _ => false

/-- `FunctionKind::from`: a function by its name. -/
def FunctionKind.ofName (s : String) : FunctionKind :=
  match s with
  | "count" => .count
  | "sum" => .sum
  | "avg" => .avg
  | "min" => .min
  | "max" => .max
  | "coalesce" => .coalesce
  | "nullif" => .nullif
  | "upper" => .upper
  | "lower" => .lower
  | "length" | "len" => .length
  | "abs" => .abs
  | _ => .unknown

/-- `BoundLiteral`; a float is given by its bits. -/
inductive BoundLiteral
  | integer (n : Int64)
  | float (bits : UInt64)
  | string (s : String)
  | bool (b : Bool)
  | null
deriving DecidableEq, Repr

/-- `BoundColumnRef`, a column of the scope. -/
structure BoundColumnRef where
  qualifier : Option String
  columnName : String
  scopeIndex : ℕ
deriving DecidableEq, Repr

/-- `OutputColumn`, a column of a SELECT's or a plan's output. -/
structure OutputColumn where
  name : String
  dataType : DataType
  nullable : Bool
deriving DecidableEq, Repr

/-- `BoundJoinKind`. -/
inductive BoundJoinKind
  | inner | leftOuter | rightOuter | fullOuter | cross
deriving DecidableEq, Repr

mutual

/-- `BoundExpr`, an expression with its type. -/
structure BoundExpr where
  kind : BoundExprKind
  dataType : DataType
  nullable : Bool

/-- `BoundExprKind`. -/
inductive BoundExprKind
  | literal (lit : BoundLiteral)
  | columnRef (c : BoundColumnRef)
  | binaryOp (left : BoundExpr) (op : BinaryOp) (right : BoundExpr)
  | unaryOp (op : UnaryOp) (expr : BoundExpr)
  | isNull (expr : BoundExpr)
  | isNotNull (expr : BoundExpr)
  | like (expr pattern : BoundExpr) (negated : Bool)
  | between (expr low high : BoundExpr) (negated : Bool)
  | inList (expr : BoundExpr) (list : List BoundExpr) (negated : Bool)
  | inSubquery (expr : BoundExpr) (subquery : BoundSelect) (negated : Bool)
  | existsSubquery (subquery : BoundSelect) (negated : Bool)
  | subquery (query : BoundSelect)
  | function (f : BoundFunction)
  | cast (expr : BoundExpr) (targetType : DataType)
  | case (operand : Option BoundExpr) (whenThen : List (BoundExpr × BoundExpr))
      (elseResult : Option BoundExpr)

/-- `BoundFunction`, a function call. -/
structure BoundFunction where
  name : String
  kind : FunctionKind
  args : List BoundExpr
  distinct : Bool

/-- `BoundSelectItem`, one item of a SELECT list. -/
structure BoundSelectItem where
  expr : BoundExpr
  aliasName : String

/-- `BoundTableRef`, a table or a subquery in FROM. -/
inductive BoundTableRef
  | baseTable (table : Catalog.Table) (columns : List Catalog.Column) (aliasName : Option String)
  | subquery (query : BoundSelect) (aliasName : String)

/-- `BoundJoinCondition`; USING and NATURAL are lists of equalities. -/
inductive BoundJoinCondition
  | on (expr : BoundExpr)
  | using (exprs : List BoundExpr)
  | natural (exprs : List BoundExpr)
  | none

/-- `BoundJoin`, a joined table. -/
structure BoundJoin where
  kind : BoundJoinKind
  table : BoundTableRef
  condition : BoundJoinCondition

/-- `BoundOrderByExpr`, one key of ORDER BY. -/
structure BoundOrderByExpr where
  expr : BoundExpr
  asc : Bool
  nullsFirst : Option Bool

/-- `BoundSelect`, a SELECT statement. -/
structure BoundSelect where
  projections : List BoundSelectItem
  fromClause : List BoundTableRef
  joins : List BoundJoin
  whereClause : Option BoundExpr
  groupBy : List BoundExpr
  having : Option BoundExpr
  orderBy : List BoundOrderByExpr
  limit : Option BoundExpr
  offset : Option BoundExpr
  distinct : Bool
  outputColumns : List OutputColumn

end

/-- The expressions of a join condition. -/
def BoundJoinCondition.exprs : BoundJoinCondition → List BoundExpr
  | .on expr => [expr]
  | .using exprs => exprs
  | .natural exprs => exprs
  | .none => []

/-- The equalities of a join condition, of USING and of NATURAL. -/
def BoundJoinCondition.equalities : BoundJoinCondition → List BoundExpr
  | .using exprs => exprs
  | .natural exprs => exprs
  | .on _ | .none => []

/-- `BoundAssignment`, one column an UPDATE sets. -/
structure BoundAssignment where
  column : Catalog.Column
  value : BoundExpr

/-- `BoundInsertSource`, the rows of an INSERT. -/
inductive BoundInsertSource
  | values (rows : List (List BoundExpr))
  | select (query : BoundSelect)

/-- `BoundInsert`. -/
structure BoundInsert where
  table : Catalog.Table
  tableColumns : List Catalog.Column
  targetColumns : List Catalog.Column
  source : BoundInsertSource

/-- `BoundUpdate`. -/
structure BoundUpdate where
  table : Catalog.Table
  tableColumns : List Catalog.Column
  assignments : List BoundAssignment
  whereClause : Option BoundExpr

end Abdb
