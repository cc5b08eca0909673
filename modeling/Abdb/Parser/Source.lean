/-
# The syntax that is translated

The syntax trees of the `sqlparser` crate, of queries and expressions and of the statements UPDATE, DELETE,
ALTER TABLE and DROP, as `src/parser/mod.rs` takes them.
A node has the fields that the translation reads, and those that it leaves out although the result depends
on them: a clause that no function reads is kept as its text.  What makes no difference to a result (spans,
tokens, quotes, other notation) is not here.  The forms that the translation rejects whatever they contain
are one, `other`.
-/

import Abdb.Databox.Value
import Mathlib.Data.Int.Notation

namespace Abdb
namespace Sq

/-- A clause that is not read, as it is written. -/
abbrev Clause := String

/-- `ObjectName`, by the display of its parts. -/
structure ObjectName where
  parts : List String
deriving DecidableEq, Repr

/-- `to_string`. -/
def ObjectName.toString (name : ObjectName) : String := ".".intercalate name.parts

/-- `Value`, a literal; `long` is the suffix of a number. -/
inductive Value
  | number (text : String) (long : Bool)
  | singleQuotedString (s : String)
  | doubleQuotedString (s : String)
  | boolean (b : Bool)
  | null
  | other
deriving DecidableEq, Repr

/-- `BinaryOperator`. -/
inductive BinaryOperator
  | plus | minus | multiply | divide | modulo
  | eq | notEq | lt | ltEq | gt | gtEq
  | and | or
  | stringConcat
  | other
deriving DecidableEq, Repr

/-- `UnaryOperator`. -/
inductive UnaryOperator
  | minus | not | plus | other
deriving DecidableEq, Repr

/-- `CastKind`: `CAST`, `TRY_CAST`, `SAFE_CAST` and `::`. -/
inductive CastKind
  | cast | tryCast | safeCast | doubleColon
deriving DecidableEq, Repr

/-- `DuplicateTreatment`, of the arguments of a function. -/
inductive DuplicateTreatment
  | distinct | all
deriving DecidableEq, Repr

/-- `NullTreatment`. -/
inductive NullTreatment
  | ignoreNulls | respectNulls
deriving DecidableEq, Repr

/-- `CharacterLength`. -/
inductive CharacterLength
  | integerLength (length : ℕ)
  | max
deriving DecidableEq, Repr

/-- `ExactNumberInfo`. -/
inductive ExactNumberInfo
  | none
  | precision (p : ℕ)
  | precisionAndScale (p : ℕ) (scale : ℤ)
deriving DecidableEq, Repr

/-- `DataType`; the widths of the integer types are for display. -/
inductive DataType
  | tinyInt (width : Option ℕ)
  | smallInt (width : Option ℕ)
  | int2 (width : Option ℕ)
  | int (width : Option ℕ)
  | integer (width : Option ℕ)
  | int4 (width : Option ℕ)
  | bigInt (width : Option ℕ)
  | int8 (width : Option ℕ)
  | unsigned
  | unsignedInteger
  | float (info : ExactNumberInfo)
  | real
  | double (info : ExactNumberInfo)
  | doublePrecision
  | boolean
  | bool
  | varchar (length : Option CharacterLength)
  | char (length : Option CharacterLength)
  | charVarying (length : Option CharacterLength)
  | characterVarying (length : Option CharacterLength)
  | text
  | string (length : Option ℕ)
  | clob (length : Option ℕ)
  | custom (name : ObjectName) (modifiers : List String)
  | other
deriving DecidableEq, Repr

/-- `TableAlias`. -/
structure TableAlias where
  name : String
  columns : List String
deriving DecidableEq, Repr

mutual

/-- `Expr`. -/
inductive Expr
  | value (v : Value)
  | identifier (id : String)
  | compoundIdentifier (parts : List String)
  | binaryOp (left : Expr) (op : BinaryOperator) (right : Expr)
  | unaryOp (op : UnaryOperator) (expr : Expr)
  | isNull (expr : Expr)
  | isNotNull (expr : Expr)
  | like (negated any : Bool) (expr pattern : Expr) (escapeChar : Option Value)
  | iLike (negated any : Bool) (expr pattern : Expr) (escapeChar : Option Value)
  | between (expr : Expr) (negated : Bool) (low high : Expr)
  | inList (expr : Expr) (list : List Expr) (negated : Bool)
  | inSubquery (expr : Expr) (subquery : Query) (negated : Bool)
  | existsSubquery (subquery : Query) (negated : Bool)
  | subquery (query : Query)
  | function (f : Function)
  | cast (kind : CastKind) (expr : Expr) (dataType : DataType) (format : Option Clause)
  | case (operand : Option Expr) (conditions : List CaseWhen) (elseResult : Option Expr)
  | wildcard
  | nested (expr : Expr)
  | other

/-- `CaseWhen`. -/
structure CaseWhen where
  condition : Expr
  result : Expr

/-- `Function`, a call; `parameters` are those of a parametric aggregate. -/
structure Function where
  name : ObjectName
  parameters : Option Clause
  args : FunctionArguments
  filter : Option Expr
  nullTreatment : Option NullTreatment
  over_ : Option Clause
  withinGroup : List OrderByExpr

/-- `FunctionArguments`; `clauses` are the ones inside the parentheses: ORDER BY, LIMIT, HAVING and others. -/
inductive FunctionArguments
  | none
  | subquery (query : Query)
  | list (duplicateTreatment : Option DuplicateTreatment) (args : List FunctionArg) (clauses : List Clause)

/-- `FunctionArg`. -/
inductive FunctionArg
  | unnamed (arg : FunctionArgExpr)
  | named (name : String) (arg : FunctionArgExpr)
  | exprNamed

/-- `FunctionArgExpr`. -/
inductive FunctionArgExpr
  | expr (e : Expr)
  | qualifiedWildcard
  | wildcard

/-- `Query`; `clauses` are WITH, FETCH, FOR XML and FOR JSON, SETTINGS, a lock that skips rows, and the
operators after a pipe. -/
structure Query where
  body : SetExpr
  orderBy : Option OrderBy
  limitClause : Option LimitClause
  clauses : List Clause

/-- `SetExpr`: a SELECT, or a query in parentheses. -/
inductive SetExpr
  | select (select : Select)
  | query (query : Query)
  | other

/-- `OrderBy`. -/
structure OrderBy where
  kind : OrderByKind
  interpolate : Option Clause

/-- `OrderByKind`. -/
inductive OrderByKind
  | all
  | expressions (exprs : List OrderByExpr)

/-- `OrderByExpr`, with its `OrderByOptions`. -/
structure OrderByExpr where
  expr : Expr
  asc : Option Bool
  nullsFirst : Option Bool
  withFill : Option Clause

/-- `LimitClause`. -/
inductive LimitClause
  | limitOffset (limit offset : Option Expr) (limitBy : List Expr)
  | offsetCommaLimit (offset limit : Expr)

/-- `Select`; `clauses` are TOP, EXCLUDE, INTO, LATERAL VIEW, PREWHERE, CLUSTER BY, DISTRIBUTE BY, SORT BY,
QUALIFY, CONNECT BY, AS STRUCT and AS VALUE. -/
structure Select where
  distinct : Option Distinct
  projection : List SelectItem
  from_ : List TableWithJoins
  selection : Option Expr
  groupBy : GroupByExpr
  having : Option Expr
  clauses : List Clause

/-- `Distinct`. -/
inductive Distinct
  | distinct
  | on (exprs : List Expr)

/-- `GroupByExpr`; `modifiers` are WITH ROLLUP, WITH CUBE and others. -/
inductive GroupByExpr
  | all (modifiers : List Clause)
  | expressions (exprs : List Expr) (modifiers : List Clause)

/-- `SelectItem`; `options` of a wildcard are EXCEPT, REPLACE and others. -/
inductive SelectItem
  | unnamedExpr (expr : Expr)
  | exprWithAlias (expr : Expr) (aliasName : String)
  | qualifiedWildcard (name : String) (options : List Clause)
  | wildcard (options : List Clause)

/-- `TableWithJoins`, an item of FROM. -/
structure TableWithJoins where
  relation : TableFactor
  joins : List Join

/-- `TableFactor`; `clauses` of a table are its arguments as a function, FOR SYSTEM_TIME, WITH ORDINALITY,
PARTITION, a JSON path and TABLESAMPLE. -/
inductive TableFactor
  | table (name : ObjectName) (aliasName : Option TableAlias) (clauses : List Clause)
  | derived (lateral : Bool) (subquery : Query) (aliasName : Option TableAlias)
  | other

/-- `Join`. -/
structure Join where
  relation : TableFactor
  joinOperator : JoinOperator

/-- `JoinOperator`. -/
inductive JoinOperator
  | inner (constraint : JoinConstraint)
  | leftOuter (constraint : JoinConstraint)
  | rightOuter (constraint : JoinConstraint)
  | fullOuter (constraint : JoinConstraint)
  | crossJoin (constraint : JoinConstraint)
  | crossApply
  | other

/-- `JoinConstraint`. -/
inductive JoinConstraint
  | on (expr : Expr)
  | using (columns : List ObjectName)
  | natural
  | none

end

/-! ### Statements -/

/-- `ReferentialAction`. -/
inductive ReferentialAction
  | restrict | cascade | setNull | noAction | setDefault
deriving DecidableEq, Repr

/-- `ForeignKeyConstraint`; `clauses` are MATCH, DEFERRABLE and others. -/
structure ForeignKeyConstraint where
  name : Option String
  columns : List String
  foreignTable : ObjectName
  referredColumns : List String
  onDelete : Option ReferentialAction
  onUpdate : Option ReferentialAction
  clauses : List Clause

/-- `PrimaryKeyConstraint`, its columns by their display; `clauses` are DEFERRABLE and others. -/
structure PrimaryKeyConstraint where
  name : Option String
  columns : List String
  clauses : List Clause

/-- `TableConstraint`. -/
inductive TableConstraint
  | foreignKey (fk : ForeignKeyConstraint)
  | primaryKey (pk : PrimaryKeyConstraint)
  | other

/-- `ColumnOption`. -/
inductive ColumnOption
  | notNull
  | null
  | primaryKey
  | unique
  | default (expr : Expr)
  | other (clause : Clause)

/-- `ColumnDef`. -/
structure ColumnDef where
  name : String
  dataType : DataType
  options : List ColumnOption

/-- `RenameTableNameKind`. -/
inductive RenameTableNameKind
  | to (name : ObjectName)
  | as (name : ObjectName)

/-- `AlterColumnOperation`. -/
inductive AlterColumnOperation
  | setDataType (dataType : DataType) (using_ : Option Expr)
  | other

/-- `AlterTableOperation`; `clauses` are IF EXISTS and IF NOT EXISTS, FIRST and AFTER, CASCADE and RESTRICT,
NOT VALID. -/
inductive AlterTableOperation
  | addColumn (columnDef : ColumnDef) (clauses : List Clause)
  | dropColumn (columnNames : List String) (clauses : List Clause)
  | renameColumn (oldColumnName newColumnName : String)
  | renameTable (tableName : RenameTableNameKind)
  | alterColumn (columnName : String) (op : AlterColumnOperation)
  | addConstraint (constraint : TableConstraint) (clauses : List Clause)
  | dropConstraint (name : String) (clauses : List Clause)
  | dropForeignKey (name : String) (clauses : List Clause)
  | other

/-- `AlterTable`; `clauses` are IF EXISTS, ONLY, SET LOCATION and ON CLUSTER. -/
structure AlterTable where
  name : ObjectName
  operations : List AlterTableOperation
  clauses : List Clause

/-- `AssignmentTarget`. -/
inductive AssignmentTarget
  | columnName (name : ObjectName)
  | tuple (names : List ObjectName)

/-- `Assignment`. -/
structure Assignment where
  target : AssignmentTarget
  value : Expr

/-- `UpdateTableFromKind`. -/
inductive UpdateTableFromKind
  | beforeSet (tables : List TableWithJoins)
  | afterSet (tables : List TableWithJoins)

/-- `Update`; `clauses` are RETURNING and OR. -/
structure Update where
  table : TableWithJoins
  assignments : List Assignment
  from_ : Option UpdateTableFromKind
  selection : Option Expr
  limit : Option Expr
  clauses : List Clause

/-- `FromTable`. -/
inductive FromTable
  | withFromKeyword (tables : List TableWithJoins)
  | withoutKeyword (tables : List TableWithJoins)

/-- `Delete`; `tables` are those named before FROM, and `clauses` are RETURNING. -/
structure Delete where
  tables : List ObjectName
  from_ : FromTable
  using_ : Option (List TableWithJoins)
  selection : Option Expr
  orderBy : List OrderByExpr
  limit : Option Expr
  clauses : List Clause

/-- `ObjectType`. -/
inductive ObjectType
  | table | index | other

/-- `Statement::Drop`; `clauses` are CASCADE, RESTRICT, PURGE and TEMPORARY. -/
structure Drop where
  objectType : ObjectType
  ifExists : Bool
  names : List ObjectName
  table : Option ObjectName
  clauses : List Clause

/-- `Statement`, of the kinds that are here. -/
inductive Statement
  | query (q : Query)
  | update (stmt : Update)
  | delete (stmt : Delete)
  | alterTable (stmt : AlterTable)
  | drop (stmt : Drop)

end Sq
end Abdb
