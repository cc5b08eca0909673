/-
# What a statement is made of

The operators of an SQL expression, with everything that is written of each, and the clauses of queries and
of other statements as operators too.  An expression of either syntax stands for a term of these operators:
parentheses, `::` for `CAST`, a sign `+`, `ALL` and `ASC` are notation, and do not show in it.  A statement
is made of terms, its parts.

The term of a FROM clause says which table is joined to which.  A comma makes the product of what stands
between the commas, and the joins of `SelectStmt`, which are those of all items, come after the product of
all its tables.

`Operator.Expressible` says which operators the syntax of `src/parser/ast.rs` has.
-/

import Abdb.Lib.Terms
import Abdb.Parser.Translate

namespace Abdb

/-- The operators of SQL and the clauses of its queries. -/
inductive Operator
  | integer (n : ℤ)
  | real (bits : Option UInt64)
  | string (s : String)
  | bool (b : Bool)
  | null
  | column (parts : List String)
  | binary (op : BinaryOp)
  | unary (op : UnaryOp)
  | isNull
  | isNotNull
  | like (negated insensitive any : Bool) (escapeChar : Option Sq.Value)
  | between (negated : Bool)
  | inList (negated : Bool)
  | inSubquery (negated : Bool)
  | existsSubquery (negated : Bool)
  | subquery
  | function (name : String) (distinct ignoreNulls : Bool) (parameters over_ : Option Sq.Clause)
    (clauses : List Sq.Clause)
  | filter
  | withinGroup
  | namedArgument (name : String)
  | subqueryArgument
  | cast (tried : Bool) (dataType : Option DataType) (bounds : List String) (format : Option Sq.Clause)
  | case
  | operand
  | whenThen
  | elseResult
  | wildcard
  -- queries
  | query
  /-- the clauses of a query around a query in parentheses -/
  | enclosing
  | distinct
  | distinctOn
  | item (aliasName : Option String)
  | allColumns (options : List Sq.Clause)
  | allColumnsOf (name : String) (options : List Sq.Clause)
  | fromClause
  /-- a product; `joined` if there are joins in its parts -/
  | product (joined : Bool)
  /-- a join; `apart` if it is an APPLY or a cross join with a condition -/
  | join (kind : Ast.JoinKind) (apart : Bool)
  | on
  | using (columns : List String)
  | natural
  | table (name : String) (aliasName : Option String) (columns : List String) (clauses : List Sq.Clause)
  | derived (lateral : Bool) (aliasName : Option String) (columns : List String)
  | whereClause
  | groupBy
  | having
  | orderBy (asc : Bool) (nullsFirst : Option Bool) (withFill : Option Sq.Clause)
  | orderByAll
  | limit
  | offset
  | limitBy
  | clause (text : Sq.Clause)
  -- other statements
  | assignment (path : List String)
  /-- a table that is named before FROM in a DELETE -/
  | target (name : String)
  /-- a join of the table of an UPDATE or a DELETE -/
  | tableJoin
  /-- a table in the FROM of an UPDATE, or after the first one in that of a DELETE -/
  | furtherTable
  | usingTable
  /-- the order in which rows are deleted -/
  | rowOrder
  /-- how many rows are changed at most -/
  | rowLimit
  | alterTable (name : String)
  /-- a column with so many defaults; `overridden` if NULL comes after NOT NULL or PRIMARY KEY -/
  | addColumn (name : String) (dataType : Option DataType) (bounds : List String)
    (nullable primaryKey unique : Bool) (defaults : ℕ) (overridden : Bool)
  | dropColumn (names : List String)
  | renameColumn (old new : String)
  | renameTable (name : String)
  | alterColumnType (column : String) (dataType : Option DataType) (bounds : List String)
  /-- the USING of a new type -/
  | conversion
  | addForeignKey (columns : List String) (refTable : String) (refColumns : List String)
    (onDelete onUpdate : Option Sq.ReferentialAction)
  | addPrimaryKey (columns : List String)
  | dropConstraint (name : String)
  | dropForeignKey (name : String)
  | dropTable (name : String) (ifExists : Bool)
  | dropIndex (names : List String) (table : String) (ifExists : Bool)
  | unsupported

namespace Operator

/-- The syntax of `src/parser/ast.rs` has the operator, with all that is written of it. -/
def Expressible : Operator → Prop
  | integer n => -2 ^ 63 ≤ n ∧ n < 2 ^ 63
  | column parts => parts.length ≤ 2
  | like _ insensitive any escapeChar => insensitive = false ∧ any = false ∧ escapeChar = none
  | function _ _ ignoreNulls parameters over_ clauses =>
    ignoreNulls = false ∧ parameters = none ∧ over_ = none ∧ clauses = []
  | cast tried _ bounds format => tried = false ∧ bounds = [] ∧ format = none
  | allColumns options | allColumnsOf _ options => options = []
  | product joined => joined = false
  | join _ apart => apart = false
  | table _ _ columns clauses => columns = [] ∧ clauses = []
  | derived lateral _ columns => lateral = false ∧ columns = []
  | orderBy _ _ withFill => withFill = none
  | filter | withinGroup | namedArgument _ | subqueryArgument => False
  | enclosing | distinctOn | orderByAll | limitBy | clause _ => False
  | assignment path => path.length = 1
  | target _ | tableJoin | furtherTable | usingTable | rowOrder | rowLimit | conversion => False
  | dropColumn names | dropIndex names _ _ => names.length = 1
  | addColumn _ _ bounds _ _ _ defaults overridden => bounds = [] ∧ defaults ≤ 1 ∧ overridden = false
  | alterColumnType _ _ bounds => bounds = []
  | addForeignKey _ _ _ onDelete onUpdate => onDelete ≠ some .setDefault ∧ onUpdate ≠ some .setDefault
  | unsupported => False
  | _ => True

end Operator

abbrev SqlTerm := Term Operator

/-- A clause that is not read. -/
def clauseTerm (text : Sq.Clause) : SqlTerm := .node (.clause text) []

/-- The product of what stands between the commas of FROM. -/
def productTerm (joined : Bool) : List SqlTerm → SqlTerm
  | [t] => t
  | terms => .node (.product joined) terms

/-- The clauses of a query around a query in parentheses, if it has any. -/
def enclosingTerms : List SqlTerm → List SqlTerm
  | [] => []
  | clauses => [.node .enclosing clauses]

def limitByTerms : List SqlTerm → List SqlTerm
  | [] => []
  | terms => [.node .limitBy terms]

namespace Sq

/-- A number is the integer that it spells, or else the float that is nearest to it. -/
def Value.operator : Value → Operator
  | .number text _ =>
    match Parser.readInteger text with
    | some n => .integer n
    | none => .real (Parser.parseF64 text)
  | .singleQuotedString s | .doubleQuotedString s => .string s
  | .boolean b => .bool b
  | .null => .null
  | .other => .unsupported

def BinaryOperator.operator : BinaryOperator → Operator
  | .plus => .binary .add
  | .minus => .binary .sub
  | .multiply => .binary .mul
  | .divide => .binary .div
  | .modulo => .binary .mod
  | .eq => .binary .eq
  | .notEq => .binary .notEq
  | .lt => .binary .lt
  | .ltEq => .binary .ltEq
  | .gt => .binary .gt
  | .gtEq => .binary .gtEq
  | .and => .binary .and
  | .or => .binary .or
  | .stringConcat => .binary .concat
  | .other => .unsupported

/-- The type that has the values of an SQL type without its bounds. -/
def DataType.values (toLowercase : String → String) : DataType → Option Abdb.DataType
  | tinyInt _ => some .i8
  | smallInt _ | int2 _ => some .i16
  | int _ | integer _ | int4 _ => some .i32
  | bigInt _ | int8 _ => some .i64
  | unsigned | unsignedInteger => some .u32
  | float _ | real => some .f32
  | double _ | doublePrecision => some .f64
  | boolean | bool => some .bool
  | varchar _ | char _ | charVarying _ | characterVarying _ | text | string _ | clob _ => some .string
  | custom name _ =>
    let name := toLowercase name.toString
    if name ∈ ["text", "string", "varchar", "char"] then some .string
    else if name ∈ ["bool", "boolean"] then some .bool
    else if name ∈ ["int", "integer", "int4"] then some .i32
    else if name ∈ ["bigint", "int8"] then some .i64
    else if name ∈ ["smallint", "int2"] then some .i16
    else if name ∈ ["float", "real", "float4"] then some .f32
    else if name ∈ ["double", "float8"] then some .f64
    else none
  | other => none

/-- A length, where the type has one. -/
def CharacterLength.bounds : Option CharacterLength → List String
  | some (.integerLength n) => [ToString.toString n]
  | some .max | none => []

def ExactNumberInfo.bounds : ExactNumberInfo → List String
  | none => []
  | precision p => [ToString.toString p]
  | precisionAndScale p scale => [ToString.toString p, ToString.toString scale]

/-- What bounds the values of a type further: a length, a precision and a scale, the modifiers of a custom
type.  A CHAR without a length has length 1, and a FLOAT of at most 24 binary digits is a REAL. -/
def DataType.bounds : DataType → List String
  | float (.precision p) => if p ≤ 24 then [] else [ToString.toString p]
  | float info | double info => info.bounds
  | char none => ["1"]
  | varchar length | char length | charVarying length | characterVarying length =>
    CharacterLength.bounds length
  | string length | clob length => length.toList.map ToString.toString
  | custom _ modifiers => modifiers
  | _ => []

/-- `TRY_CAST` and `SAFE_CAST`. -/
def CastKind.tried : CastKind → Bool
  | cast | doubleColon => false
  | tryCast | safeCast => true

/-- The join that an operator makes. -/
def JoinOperator.operator : JoinOperator → Operator
  | inner _ => .join .inner false
  | leftOuter _ => .join .leftOuter false
  | rightOuter _ => .join .rightOuter false
  | fullOuter _ => .join .fullOuter false
  | crossJoin .none => .join .cross false
  | crossJoin _ => .join .cross true
  | crossApply => .join .cross true
  | other => .unsupported

/-- There are joins in FROM. -/
def joined (from_ : List TableWithJoins) : Bool := from_.any fun t => !t.joins.isEmpty

/-- The arguments are DISTINCT. -/
def FunctionArguments.distinct : FunctionArguments → Bool
  | list duplicateTreatment _ _ => duplicateTreatment = some .distinct
  | _ => false

def FunctionArguments.clauses : FunctionArguments → List Clause
  | list _ _ clauses => clauses
  | _ => []

variable (toLowercase : String → String)

mutual

/-- The term that an expression stands for. -/
def Expr.term : Expr → SqlTerm
  | .value v => .node v.operator []
  | .identifier id => .node (.column [id]) []
  | .compoundIdentifier parts => .node (.column parts) []
  | .binaryOp left op right => .node op.operator [left.term, right.term]
  | .unaryOp .minus expr => .node (.unary .neg) [expr.term]
  | .unaryOp .not expr => .node (.unary .not) [expr.term]
  | .unaryOp .plus expr => expr.term
  | .unaryOp .other expr => .node .unsupported [expr.term]
  | .isNull expr => .node .isNull [expr.term]
  | .isNotNull expr => .node .isNotNull [expr.term]
  | .like negated any expr pattern escapeChar =>
    .node (.like negated false any escapeChar) [expr.term, pattern.term]
  | .iLike negated any expr pattern escapeChar =>
    .node (.like negated true any escapeChar) [expr.term, pattern.term]
  | .between expr negated low high => .node (.between negated) [expr.term, low.term, high.term]
  | .inList expr list negated => .node (.inList negated) (expr.term :: terms list)
  | .inSubquery expr subquery negated => .node (.inSubquery negated) [expr.term, .node .query subquery.parts]
  | .existsSubquery subquery negated => .node (.existsSubquery negated) [.node .query subquery.parts]
  | .subquery query => .node .subquery [.node .query query.parts]
  | .function ⟨name, parameters, args, filter, nullTreatment, over_, withinGroup⟩ =>
    .node (.function (toLowercase name.toString) args.distinct (nullTreatment = some .ignoreNulls) parameters
      over_ args.clauses) (argumentTerms args ++ (optionTerms filter).map (fun t => .node .filter [t]) ++
        (orderByExprTerms withinGroup).map fun t => .node .withinGroup [t])
  | .cast kind expr dataType format =>
    .node (.cast kind.tried (dataType.values toLowercase) dataType.bounds format) [expr.term]
  | .case operand conditions elseResult =>
    .node .case ((optionTerms operand).map (fun t => .node .operand [t]) ++ conditionTerms conditions ++
      (optionTerms elseResult).map fun t => .node .elseResult [t])
  | .wildcard => .node .wildcard []
  | .nested expr => expr.term
  | .other => .node .unsupported []

def terms : List Expr → List SqlTerm
  | [] => []
  | e :: rest => e.term :: terms rest

def optionTerms : Option Expr → List SqlTerm
  | none => []
  | some e => [e.term]

def conditionTerms : List CaseWhen → List SqlTerm
  | [] => []
  | ⟨condition, result⟩ :: rest => .node .whenThen [condition.term, result.term] :: conditionTerms rest

def argumentTerms : FunctionArguments → List SqlTerm
  | .none => []
  | .subquery query => [.node .subqueryArgument [.node .query query.parts]]
  | .list _ args _ => argTerms args

def argTerms : List FunctionArg → List SqlTerm
  | [] => []
  | arg :: rest => arg.term :: argTerms rest

def FunctionArg.term : FunctionArg → SqlTerm
  | .unnamed (.expr e) => e.term
  | .unnamed .wildcard => .node .wildcard []
  | .named name (.expr e) => .node (.namedArgument name) [e.term]
  | _ => .node .unsupported []

/-- The clauses of a query, at all levels of parentheses. -/
def Query.parts : Query → List SqlTerm
  | ⟨body, orderBy, limitClause, clauses⟩ =>
    body.parts (orderByTerms orderBy ++ limitTerms limitClause ++ clauses.map clauseTerm)

/-- The clauses of the body of a query, with those after it. -/
def SetExpr.parts (after : List SqlTerm) : SetExpr → List SqlTerm
  | .select sel => sel.parts ++ after
  | .query inner => enclosingTerms after ++ inner.parts
  | .other => [.node .unsupported []]

def Select.parts : Select → List SqlTerm
  | ⟨distinct, projection, from_, selection, groupBy, having, clauses⟩ =>
    distinctTerms distinct ++ itemTerms projection ++
      [.node .fromClause [productTerm (joined from_) (fromTerms from_)]] ++
      (optionTerms selection).map (fun t => .node .whereClause [t]) ++ groupByTerms groupBy ++
      (optionTerms having).map (fun t => .node .having [t]) ++ clauses.map clauseTerm

def distinctTerms : Option Distinct → List SqlTerm
  | none => []
  | some .distinct => [.node .distinct []]
  | some (.on exprs) => [.node .distinctOn (terms exprs)]

def groupByTerms : GroupByExpr → List SqlTerm
  | .expressions exprs modifiers =>
    (terms exprs).map (fun t => .node .groupBy [t]) ++ modifiers.map clauseTerm
  | .all _ => [.node .unsupported []]

def orderByTerms : Option OrderBy → List SqlTerm
  | none => []
  | some ⟨.expressions exprs, interpolate⟩ => orderByExprTerms exprs ++ interpolate.toList.map clauseTerm
  | some ⟨.all, interpolate⟩ => .node .orderByAll [] :: interpolate.toList.map clauseTerm

def orderByExprTerms : List OrderByExpr → List SqlTerm
  | [] => []
  | ⟨expr, asc, nullsFirst, withFill⟩ :: rest =>
    .node (.orderBy (asc ≠ some false) nullsFirst withFill) [expr.term] :: orderByExprTerms rest

def limitTerms : Option LimitClause → List SqlTerm
  | none => []
  | some (.limitOffset limit offset limitBy) =>
    (optionTerms limit).map (fun t => .node .limit [t]) ++
      (optionTerms offset).map (fun t => .node .offset [t]) ++ limitByTerms (terms limitBy)
  | some (.offsetCommaLimit offset limit) =>
    [.node .limit [limit.term], .node .offset [offset.term]]

def itemTerms : List SelectItem → List SqlTerm
  | [] => []
  | item :: rest => item.term :: itemTerms rest

def SelectItem.term : SelectItem → SqlTerm
  | .unnamedExpr expr => .node (.item none) [expr.term]
  | .exprWithAlias expr aliasName => .node (.item (some aliasName)) [expr.term]
  | .qualifiedWildcard name options => .node (.allColumnsOf name options) []
  | .wildcard options => .node (.allColumns options) []

/-- The items of FROM, each with its joins. -/
def fromTerms : List TableWithJoins → List SqlTerm
  | [] => []
  | ⟨relation, joins⟩ :: rest => joinTerms relation.term joins :: fromTerms rest

/-- A table with tables joined to it, one after the other. -/
def joinTerms (left : SqlTerm) : List Join → SqlTerm
  | [] => left
  | ⟨relation, joinOperator⟩ :: rest =>
    joinTerms (.node joinOperator.operator (left :: relation.term :: joinOperator.terms)) rest

/-- The condition of a join. -/
def JoinOperator.terms : JoinOperator → List SqlTerm
  | .inner constraint | .leftOuter constraint | .rightOuter constraint | .fullOuter constraint
  | .crossJoin constraint => constraint.terms
  | .crossApply | .other => []

def JoinConstraint.terms : JoinConstraint → List SqlTerm
  | .on expr => [.node .on [expr.term]]
  | .using columns => [.node (.using (columns.map ObjectName.toString)) []]
  | .natural => [.node .natural []]
  | .none => []

def TableFactor.term : TableFactor → SqlTerm
  | .table name aliasName clauses => .node (.table name.toString (aliasName.map (·.name))
      ((aliasName.map (·.columns)).getD []) clauses) []
  | .derived lateral subquery aliasName => .node (.derived lateral (aliasName.map (·.name))
      ((aliasName.map (·.columns)).getD [])) [.node .query subquery.parts]
  | .other => .node .unsupported []

end

/-! ### Other statements -/

/-- A table joined to those before it. -/
def Join.term : Join → SqlTerm
  | ⟨relation, joinOperator⟩ =>
    .node joinOperator.operator (relation.term toLowercase :: joinOperator.terms toLowercase)

/-- The names that a table goes by. -/
def TableFactor.names : TableFactor → List String
  | .table name aliasName _ => name.toString :: aliasName.toList.map (·.name)
  | .derived _ _ aliasName => aliasName.toList.map (·.name)
  | .other => []

/-- The column that is assigned to, with what is before it unless that is the table. -/
def ObjectName.path (table : TableFactor) (name : ObjectName) : List String :=
  match name.parts.getLast? with
  | some column => if ".".intercalate name.parts.dropLast ∈ table.names then [column] else name.parts
  | none => []

def Assignment.term (table : TableFactor) : Assignment → SqlTerm
  | ⟨.columnName name, value⟩ => .node (.assignment (name.path table)) [value.term toLowercase]
  | ⟨.tuple _, value⟩ => .node .unsupported [value.term toLowercase]

def updateFrom : Option UpdateTableFromKind → List TableWithJoins
  | some (.beforeSet tables) | some (.afterSet tables) => tables
  | none => []

/-- The parts of an UPDATE. -/
def Update.parts (stmt : Update) : List SqlTerm :=
  stmt.table.relation.term toLowercase ::
    (stmt.assignments.map (Assignment.term toLowercase stmt.table.relation) ++
      (optionTerms toLowercase stmt.selection).map (fun t => .node .whereClause [t]) ++
      (stmt.table.joins.map (Join.term toLowercase)).map (fun t => .node .tableJoin [t]) ++
      (fromTerms toLowercase (updateFrom stmt.from_)).map (fun t => .node .furtherTable [t]) ++
      (optionTerms toLowercase stmt.limit).map (fun t => .node .rowLimit [t]) ++ stmt.clauses.map clauseTerm)

/-- The parts of a DELETE.  A table that is named before FROM is the first one in FROM, or else a part. -/
def Delete.parts (stmt : Delete) : List SqlTerm :=
  match Parser.fromTables stmt.from_ with
  | [] => [.node .unsupported []]
  | table :: further =>
    table.relation.term toLowercase ::
      ((optionTerms toLowercase stmt.selection).map (fun t => .node .whereClause [t]) ++
        (stmt.tables.filter (·.toString ∉ table.relation.names)).map
          (fun name => .node (.target name.toString) []) ++
        (table.joins.map (Join.term toLowercase)).map (fun t => .node .tableJoin [t]) ++
        (fromTerms toLowercase further).map (fun t => .node .furtherTable [t]) ++
        (fromTerms toLowercase (stmt.using_.getD [])).map (fun t => .node .usingTable [t]) ++
        (orderByExprTerms toLowercase stmt.orderBy).map (fun t => .node .rowOrder [t]) ++
        (optionTerms toLowercase stmt.limit).map (fun t => .node .rowLimit [t]) ++
        stmt.clauses.map clauseTerm)

namespace ColumnOption

/-- Whether a column with the option may be NULL, if it says so. -/
def nullable : ColumnOption → Option Bool
  | notNull | primaryKey => some false
  | null => some true
  | unique | default _ | other _ => none

def isPrimaryKey : ColumnOption → Bool
  | primaryKey => true
  | notNull | null | unique | default _ | other _ => false

def isUnique : ColumnOption → Bool
  | unique => true
  | notNull | null | primaryKey | default _ | other _ => false

def defaultExpr : ColumnOption → Option Expr
  | default expr => some expr
  | _ => none

def clause : ColumnOption → Option Clause
  | other clause => some clause
  | _ => none

end ColumnOption

open ColumnOption in
/-- The parts of an added column. -/
def ColumnDef.parts : ColumnDef → List SqlTerm
  | ⟨name, dataType, options⟩ =>
    let nullability := options.filterMap nullable
    .node (.addColumn name (dataType.values toLowercase) dataType.bounds (false ∉ nullability)
        (options.any isPrimaryKey) (options.any isUnique) (options.filterMap defaultExpr).length
        (false ∈ nullability ∧ nullability.getLast? = some true))
      ((options.filterMap defaultExpr).map (Expr.term toLowercase)) ::
      (options.filterMap clause).map clauseTerm

/-- The parts of one operation of ALTER TABLE. -/
def AlterTableOperation.parts : AlterTableOperation → List SqlTerm
  | .addColumn columnDef clauses => columnDef.parts toLowercase ++ clauses.map clauseTerm
  | .dropColumn names clauses => .node (.dropColumn names) [] :: clauses.map clauseTerm
  | .renameColumn old new => [.node (.renameColumn old new) []]
  | .renameTable (.to name) | .renameTable (.as name) => [.node (.renameTable name.toString) []]
  | .alterColumn column (.setDataType dataType using_) =>
    .node (.alterColumnType column (dataType.values toLowercase) dataType.bounds) [] ::
      (optionTerms toLowercase using_).map fun t => .node .conversion [t]
  | .addConstraint (.foreignKey fk) clauses =>
    .node (.addForeignKey fk.columns fk.foreignTable.toString fk.referredColumns fk.onDelete
        fk.onUpdate) [] ::
      (fk.name.toList ++ fk.clauses ++ clauses).map clauseTerm
  | .addConstraint (.primaryKey pk) clauses =>
    .node (.addPrimaryKey pk.columns) [] :: (pk.name.toList ++ pk.clauses ++ clauses).map clauseTerm
  | .dropConstraint name clauses => .node (.dropConstraint name) [] :: clauses.map clauseTerm
  | .dropForeignKey name clauses => .node (.dropForeignKey name) [] :: clauses.map clauseTerm
  | .alterColumn _ .other | .addConstraint .other _ | .other => [.node .unsupported []]

/-- The parts of a DROP TABLE or a DROP INDEX. -/
def Drop.parts : Drop → List SqlTerm
  | ⟨.table, ifExists, [name], _, clauses⟩ =>
    .node (.dropTable name.toString ifExists) [] :: clauses.map clauseTerm
  | ⟨.index, ifExists, names, some table, clauses⟩ =>
    .node (.dropIndex (names.map ObjectName.toString) table.toString ifExists) [] :: clauses.map clauseTerm
  | _ => [.node .unsupported []]

/-- The parts of a statement. -/
def Statement.parts : Statement → List SqlTerm
  | .query q => q.parts toLowercase
  | .update stmt => stmt.parts toLowercase
  | .delete stmt => stmt.parts toLowercase
  | .alterTable ⟨name, operations, clauses⟩ =>
    .node (.alterTable name.toString) [] ::
      (operations.flatMap (AlterTableOperation.parts toLowercase) ++ clauses.map clauseTerm)
  | .drop stmt => stmt.parts

end Sq

namespace Ast

def Literal.operator : Literal → Operator
  | .integer n => .integer n.toInt
  | .float bits => .real (some bits)
  | .string s => .string s
  | .bool b => .bool b
  | .null => .null

mutual

/-- The term that an expression stands for. -/
def Expr.term : Expr → SqlTerm
  | .literal lit => .node lit.operator []
  | .column ⟨table, column⟩ => .node (.column (table.toList ++ [column])) []
  | .binaryOp left op right => .node (.binary op) [left.term, right.term]
  | .unaryOp op expr => .node (.unary op) [expr.term]
  | .isNull expr => .node .isNull [expr.term]
  | .isNotNull expr => .node .isNotNull [expr.term]
  | .like expr pattern negated => .node (.like negated false false none) [expr.term, pattern.term]
  | .between expr low high negated => .node (.between negated) [expr.term, low.term, high.term]
  | .inList expr list negated => .node (.inList negated) (expr.term :: terms list)
  | .inSubquery expr subquery negated => .node (.inSubquery negated) [expr.term, .node .query subquery.parts]
  | .existsSubquery subquery negated => .node (.existsSubquery negated) [.node .query subquery.parts]
  | .subquery query => .node .subquery [.node .query query.parts]
  | .function name args distinct => .node (.function name distinct false none none []) (terms args)
  | .cast expr dataType => .node (.cast false (some dataType) [] none) [expr.term]
  | .case operand whenThen elseResult =>
    .node .case ((optionTerms operand).map (fun t => .node .operand [t]) ++ whenThenTerms whenThen ++
      (optionTerms elseResult).map fun t => .node .elseResult [t])
  | .wildcard => .node .wildcard []

def terms : List Expr → List SqlTerm
  | [] => []
  | e :: rest => e.term :: terms rest

def optionTerms : Option Expr → List SqlTerm
  | none => []
  | some e => [e.term]

def whenThenTerms : List (Expr × Expr) → List SqlTerm
  | [] => []
  | (condition, result) :: rest => .node .whenThen [condition.term, result.term] :: whenThenTerms rest

/-- The clauses of a query. -/
def SelectStmt.parts : SelectStmt → List SqlTerm
  | ⟨projections, from_, joins, whereClause, groupBy, having, orderBy, limit, offset, distinct⟩ =>
    (if distinct then [.node .distinct []] else []) ++ itemTerms projections ++
      [.node .fromClause [joinTerms (productTerm false (tableTerms from_)) joins]] ++
      (optionTerms whereClause).map (fun t => .node .whereClause [t]) ++
      (terms groupBy).map (fun t => .node .groupBy [t]) ++
      (optionTerms having).map (fun t => .node .having [t]) ++ orderByTerms orderBy ++
      (optionTerms limit).map (fun t => .node .limit [t]) ++
      (optionTerms offset).map fun t => .node .offset [t]

def orderByTerms : List OrderByExpr → List SqlTerm
  | [] => []
  | ⟨expr, asc, nullsFirst⟩ :: rest =>
    .node (.orderBy asc nullsFirst none) [expr.term] :: orderByTerms rest

def itemTerms : List SelectItem → List SqlTerm
  | [] => []
  | item :: rest => item.term :: itemTerms rest

def SelectItem.term : SelectItem → SqlTerm
  | .wildcard => .node (.allColumns []) []
  | .qualifiedWildcard qualifier => .node (.allColumnsOf qualifier []) []
  | .expr expr aliasName => .node (.item aliasName) [expr.term]

def tableTerms : List TableRef → List SqlTerm
  | [] => []
  | t :: rest => t.term :: tableTerms rest

def TableRef.term : TableRef → SqlTerm
  | .named name aliasName => .node (.table name aliasName [] []) []
  | .subquery query aliasName => .node (.derived false (some aliasName) []) [.node .query query.parts]

def joinTerms (left : SqlTerm) : List Join → SqlTerm
  | [] => left
  | ⟨kind, table, condition⟩ :: rest =>
    joinTerms (.node (.join kind false) (left :: table.term :: condition.terms)) rest

def JoinCondition.terms : JoinCondition → List SqlTerm
  | .on expr => [.node .on [expr.term]]
  | .using columns => [.node (.using columns) []]
  | .natural => [.node .natural []]
  | .none => []

end

/-! ### Other statements -/

def UpdateStmt.parts (stmt : UpdateStmt) : List SqlTerm :=
  .node (.table stmt.table stmt.aliasName [] []) [] ::
    (stmt.assignments.map (fun a => .node (.assignment [a.column]) [a.value.term]) ++
      (optionTerms stmt.whereClause).map fun t => .node .whereClause [t])

def DeleteStmt.parts (stmt : DeleteStmt) : List SqlTerm :=
  .node (.table stmt.table stmt.aliasName [] []) [] ::
    (optionTerms stmt.whereClause).map fun t => .node .whereClause [t]

/-- The action of SQL. -/
def ForeignKeyAction.action : ForeignKeyAction → Sq.ReferentialAction
  | .noAction => .noAction
  | .cascade => .cascade
  | .setNull => .setNull
  | .restrict => .restrict

def AlterTableAction.term : AlterTableAction → SqlTerm
  | .addColumn ⟨name, dataType, nullable, default, unique, primaryKey⟩ =>
    .node (.addColumn name (some dataType) [] nullable primaryKey unique default.toList.length false)
      (optionTerms default)
  | .dropColumn name => .node (.dropColumn [name]) []
  | .renameColumn old new => .node (.renameColumn old new) []
  | .renameTable name => .node (.renameTable name) []
  | .alterColumnType column newType => .node (.alterColumnType column (some newType) []) []
  | .addForeignKey fk => .node (.addForeignKey fk.columns fk.refTable fk.refColumns
      (fk.onDelete.map (·.action)) (fk.onUpdate.map (·.action))) []
  | .dropForeignKey name => .node (.dropForeignKey name) []
  | .addPrimaryKey columns => .node (.addPrimaryKey columns) []
  | .dropConstraint name => .node (.dropConstraint name) []

/-- The parts of a statement. -/
def Statement.parts : Statement → List SqlTerm
  | .dropTable stmt => [.node (.dropTable stmt.name stmt.ifExists) []]
  | .alterTable stmt => [.node (.alterTable stmt.name) [], stmt.action.term]
  | .select stmt => stmt.parts
  | .update stmt => stmt.parts
  | .delete stmt => stmt.parts
  | .dropIndex stmt => [.node (.dropIndex [stmt.name] stmt.table stmt.ifExists) []]

end Ast
end Abdb
