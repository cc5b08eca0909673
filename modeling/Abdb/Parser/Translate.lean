/-
# Translating statements

`src/parser/mod.rs`, from the syntax of the `sqlparser` crate to that of `src/parser/ast.rs`: queries and
expressions, and of the other statements UPDATE, DELETE, ALTER TABLE, DROP TABLE and DROP INDEX.
-/

import Abdb.Lib.Binary64
import Abdb.Parser.Source
import Abdb.Parser.Statement

namespace Abdb

/-- `DbError::Parse`, by its text. -/
inductive ParseError
  | text (s : String)
  /-- This text, a colon and the debug text of the node. -/
  | debug (s : String)
deriving DecidableEq, Repr

abbrev ParseResult := Except ParseError

namespace Parser

/-! ### Literals -/

/-- A number in decimal digits. -/
def readDigits (digits : List Char) : Option ℕ :=
  if digits ≠ [] ∧ digits.all Char.isDigit then
    some (digits.foldl (fun n c => 10 * n + (c.toNat - 48)) 0)
  else none

/-- An integer in decimal digits, with or without a sign. -/
def readInteger (text : String) : Option ℤ :=
  match text.toList with
  | '-' :: digits => (readDigits digits).map fun n => -(n : ℤ)
  | '+' :: digits => (readDigits digits).map fun n => (n : ℤ)
  | digits => (readDigits digits).map fun n => (n : ℤ)

/-- `str::parse::<i64>`. -/
def parseI64 (text : String) : Option Int64 :=
  (readInteger text).bind fun n => if -2 ^ 63 ≤ n ∧ n < 2 ^ 63 then some (Int64.ofInt n) else none

/-- The digits of a number before and after the point, one of which there may be none of. -/
def readMantissa (digits : List Char) : Option (ℕ × ℕ) :=
  let before := digits.takeWhile (· ≠ '.')
  let after := (digits.dropWhile (· ≠ '.')).drop 1
  (readDigits (before ++ after)).map fun n => (n, after.length)

/-- The bits of `m * 10 ^ e`, rounded. -/
def scientific (m : ℕ) (e : ℤ) : ℕ :=
  if 0 ≤ e then Lib.Binary64.ofRatio (m * 10 ^ e.toNat) 1 else Lib.Binary64.ofRatio m (10 ^ (-e).toNat)

/-- The bits of a number without its sign. -/
def readMagnitude (text : List Char) : Option ℕ :=
  if text.map Char.toLower ∈ ["inf".toList, "infinity".toList] then some Lib.Binary64.infinity
  else if text.map Char.toLower = "nan".toList then some (Lib.Binary64.infinity + 2 ^ 51)
  else do
    let (m, decimals) ← readMantissa (text.takeWhile fun c => c ≠ 'e' ∧ c ≠ 'E')
    match text.dropWhile fun c => c ≠ 'e' ∧ c ≠ 'E' with
    | [] => return scientific m (-decimals)
    | _ :: exponent => do
      let e ← readInteger (String.ofList exponent)
      return scientific m (e - decimals)

/-- `str::parse::<f64>`, by the bits of the float. -/
def parseF64 (text : String) : Option UInt64 :=
  match text.toList with
  | '-' :: rest => (readMagnitude rest).map fun bits => UInt64.ofNat (2 ^ 63 + bits)
  | '+' :: rest => (readMagnitude rest).map UInt64.ofNat
  | rest => (readMagnitude rest).map UInt64.ofNat

/-- `translate_value`. -/
def translateValue : Sq.Value → ParseResult Ast.Literal
  | .number n _ =>
    match parseI64 n, parseF64 n with
    | some i, _ => .ok (.integer i)
    | none, some f => .ok (.float f)
    | none, none => .error (.text ("invalid number literal: " ++ n))
  | .singleQuotedString s | .doubleQuotedString s => .ok (.string s)
  | .boolean b => .ok (.bool b)
  | .null => .ok .null
  | .other => .error (.debug "unsupported literal value")

/-! ### Operators and types -/

/-- `translate_binary_op`. -/
def translateBinaryOp : Sq.BinaryOperator → ParseResult BinaryOp
  | .plus => .ok .add
  | .minus => .ok .sub
  | .multiply => .ok .mul
  | .divide => .ok .div
  | .modulo => .ok .mod
  | .eq => .ok .eq
  | .notEq => .ok .notEq
  | .lt => .ok .lt
  | .ltEq => .ok .ltEq
  | .gt => .ok .gt
  | .gtEq => .ok .gtEq
  | .and => .ok .and
  | .or => .ok .or
  | .stringConcat => .ok .concat
  | .other => .error (.debug "unsupported binary operator")

/-- The custom types, by their names in lower case. -/
def translateCustomType (name : String) : ParseResult DataType :=
  if name ∈ ["text", "string", "varchar", "char"] then .ok .string
  else if name ∈ ["bool", "boolean"] then .ok .bool
  else if name ∈ ["int", "integer", "int4"] then .ok .i32
  else if name ∈ ["bigint", "int8"] then .ok .i64
  else if name ∈ ["smallint", "int2"] then .ok .i16
  else if name ∈ ["float", "real", "float4"] then .ok .f32
  else if name ∈ ["double", "float8"] then .ok .f64
  else .error (.text ("unsupported custom data type: " ++ name))

/-- `translate_data_type`; `toLowercase` is `str::to_lowercase`, for all of Unicode. -/
def translateDataType (toLowercase : String → String) : Sq.DataType → ParseResult DataType
  | .tinyInt _ => .ok .i8
  | .smallInt _ | .int2 _ => .ok .i16
  | .int _ | .integer _ | .int4 _ => .ok .i32
  | .bigInt _ | .int8 _ => .ok .i64
  | .unsigned | .unsignedInteger => .ok .u32
  | .float _ | .real => .ok .f32
  | .double _ | .doublePrecision => .ok .f64
  | .boolean | .bool => .ok .bool
  | .varchar _ | .char _ | .charVarying _ | .characterVarying _ | .text | .string _ | .clob _ => .ok .string
  | .custom name _ => translateCustomType (toLowercase name.toString)
  | .other => .error (.debug "unsupported data type")

/-! ### Queries and expressions -/

def isDistinct : Option Sq.Distinct → Bool
  | some .distinct => true
  | _ => false

variable (toLowercase : String → String)

mutual

/-- `translate_query`. -/
def translateQuery : Sq.Query → ParseResult Ast.SelectStmt
  | ⟨body, orderBy, limitClause, _⟩ =>
    translateSetExpr (translateOrderBy orderBy) (translateLimit limitClause) body

/-- The body of a query, with what the clauses after it give. -/
def translateSetExpr (orderBy : ParseResult (List Ast.OrderByExpr))
    (limit : ParseResult (Option Ast.Expr × Option Ast.Expr)) : Sq.SetExpr → ParseResult Ast.SelectStmt
  | .select sel => translateSelect orderBy limit sel
  | .query inner => translateQuery inner
  | .other => .error (.debug "unsupported query body")

/-- `translate_select`. -/
def translateSelect (orderBy : ParseResult (List Ast.OrderByExpr))
    (limit : ParseResult (Option Ast.Expr × Option Ast.Expr)) : Sq.Select → ParseResult Ast.SelectStmt
  | ⟨distinct, projection, from_, selection, groupBy, having, _⟩ => do
    let projections ← translateSelectItems projection
    let (tables, joins) ← translateFrom from_
    let whereClause ← translateOption selection
    let groupBy ← translateGroupBy groupBy
    let having ← translateOption having
    let orderBy ← orderBy
    let (limit, offset) ← limit
    return ⟨projections, tables, joins, whereClause, groupBy, having, orderBy, limit, offset,
      isDistinct distinct⟩

def translateGroupBy : Sq.GroupByExpr → ParseResult (List Ast.Expr)
  | .expressions exprs _ => translateExprs exprs
  | .all _ => .error (.text "GROUP BY ALL is not supported")

def translateOrderBy : Option Sq.OrderBy → ParseResult (List Ast.OrderByExpr)
  | none => .ok []
  | some ⟨.expressions exprs, _⟩ => translateOrderByExprs exprs
  | some ⟨.all, _⟩ => .error (.text "ORDER BY ALL is not supported")

def translateOrderByExprs : List Sq.OrderByExpr → ParseResult (List Ast.OrderByExpr)
  | [] => .ok []
  | ⟨expr, asc, nullsFirst, _⟩ :: rest => do
    let e ← translateExpr expr
    let keys ← translateOrderByExprs rest
    return ⟨e, asc ≠ some false, nullsFirst⟩ :: keys

def translateLimit : Option Sq.LimitClause → ParseResult (Option Ast.Expr × Option Ast.Expr)
  | some (.limitOffset limit offset _) => do
    let l ← translateOption limit
    let o ← translateOption offset
    return (l, o)
  | some (.offsetCommaLimit offset limit) => do
    let l ← translateExpr limit
    let o ← translateExpr offset
    return (some l, some o)
  | none => .ok (none, none)

/-- The items of FROM: their tables, and the joins of all of them. -/
def translateFrom : List Sq.TableWithJoins → ParseResult (List Ast.TableRef × List Ast.Join)
  | [] => .ok ([], [])
  | ⟨relation, joins⟩ :: rest => do
    let table ← translateTableFactor relation
    let joins ← translateJoins joins
    let (tables, further) ← translateFrom rest
    return (table :: tables, joins ++ further)

/-- `translate_select_item`. -/
def translateSelectItem : Sq.SelectItem → ParseResult Ast.SelectItem
  | .wildcard _ => .ok .wildcard
  | .qualifiedWildcard name _ => .ok (.qualifiedWildcard name)
  | .unnamedExpr e => do
    let expr ← translateExpr e
    return .expr expr none
  | .exprWithAlias e aliasName => do
    let expr ← translateExpr e
    return .expr expr (some aliasName)

def translateSelectItems : List Sq.SelectItem → ParseResult (List Ast.SelectItem)
  | [] => .ok []
  | item :: rest => do
    let item ← translateSelectItem item
    let items ← translateSelectItems rest
    return item :: items

/-- `translate_table_factor`. -/
def translateTableFactor : Sq.TableFactor → ParseResult Ast.TableRef
  | .table name aliasName _ => .ok (.named name.toString (aliasName.map (·.name)))
  | .derived _ _ none => .error (.text "subquery in FROM must have an alias")
  | .derived _ subquery (some aliasName) => do
    let query ← translateQuery subquery
    return .subquery query aliasName.name
  | .other => .error (.debug "unsupported table factor")

/-- `translate_join`. -/
def translateJoin : Sq.Join → ParseResult Ast.Join
  | ⟨relation, joinOperator⟩ => do
    let table ← translateTableFactor relation
    let (kind, condition) ← translateJoinOperator joinOperator
    return ⟨kind, table, condition⟩

def translateJoins : List Sq.Join → ParseResult (List Ast.Join)
  | [] => .ok []
  | join :: rest => do
    let join ← translateJoin join
    let joins ← translateJoins rest
    return join :: joins

def translateJoinOperator : Sq.JoinOperator → ParseResult (Ast.JoinKind × Ast.JoinCondition)
  | .inner constraint => do
    let condition ← translateJoinConstraint constraint
    return (.inner, condition)
  | .leftOuter constraint => do
    let condition ← translateJoinConstraint constraint
    return (.leftOuter, condition)
  | .rightOuter constraint => do
    let condition ← translateJoinConstraint constraint
    return (.rightOuter, condition)
  | .fullOuter constraint => do
    let condition ← translateJoinConstraint constraint
    return (.fullOuter, condition)
  | .crossJoin _ => .ok (.cross, .none)
  | .crossApply => .ok (.cross, .none)
  | .other => .error (.debug "unsupported join type")

/-- `translate_join_constraint`. -/
def translateJoinConstraint : Sq.JoinConstraint → ParseResult Ast.JoinCondition
  | .on expr => do
    let e ← translateExpr expr
    return .on e
  | .using columns => .ok (.using (columns.map Sq.ObjectName.toString))
  | .natural => .ok .natural
  | .none => .ok .none

/-- `translate_expr`. -/
def translateExpr : Sq.Expr → ParseResult Ast.Expr
  | .value v => do
    let lit ← translateValue v
    return .literal lit
  | .identifier id => .ok (.column ⟨none, id⟩)
  | .compoundIdentifier parts =>
    match parts.reverse with
    -- there are two parts, or these are the last two of more
    | column :: table :: _ => .ok (.column ⟨some table, column⟩)
    | _ => .error (.debug "unsupported expression")
  | .binaryOp left op right => do
    let l ← translateExpr left
    let op ← translateBinaryOp op
    let r ← translateExpr right
    return .binaryOp l op r
  | .unaryOp .minus expr => do
    let e ← translateExpr expr
    return .unaryOp .neg e
  | .unaryOp .not expr => do
    let e ← translateExpr expr
    return .unaryOp .not e
  | .unaryOp .plus expr => translateExpr expr
  | .unaryOp .other _ => .error (.debug "unsupported unary operator")
  | .isNull expr => do
    let e ← translateExpr expr
    return .isNull e
  | .isNotNull expr => do
    let e ← translateExpr expr
    return .isNotNull e
  | .like negated _ expr pattern _ => do
    let e ← translateExpr expr
    let p ← translateExpr pattern
    return .like e p negated
  | .iLike negated _ expr pattern _ => do
    let e ← translateExpr expr
    let p ← translateExpr pattern
    return .like e p negated
  | .between expr negated low high => do
    let e ← translateExpr expr
    let l ← translateExpr low
    let h ← translateExpr high
    return .between e l h negated
  | .inList expr list negated => do
    let list ← translateExprs list
    let e ← translateExpr expr
    return .inList e list negated
  | .inSubquery expr subquery negated => do
    let e ← translateExpr expr
    let q ← translateQuery subquery
    return .inSubquery e q negated
  | .existsSubquery subquery negated => do
    let q ← translateQuery subquery
    return .existsSubquery q negated
  | .subquery query => do
    let q ← translateQuery query
    return .subquery q
  | .function ⟨name, _, args, _, _, _, _⟩ => do
    let (args, distinct) ← translateArguments args
    return .function (toLowercase name.toString) args distinct
  | .cast _ expr dataType _ => do
    let e ← translateExpr expr
    let dataType ← translateDataType toLowercase dataType
    return .cast e dataType
  | .case operand conditions elseResult => do
    let whenThen ← translateConditions conditions
    let operand ← translateOption operand
    let elseResult ← translateOption elseResult
    return .case operand whenThen elseResult
  | .wildcard => .ok .wildcard
  | .nested expr => translateExpr expr
  | .other => .error (.debug "unsupported expression")

def translateExprs : List Sq.Expr → ParseResult (List Ast.Expr)
  | [] => .ok []
  | expr :: rest => do
    let e ← translateExpr expr
    let list ← translateExprs rest
    return e :: list

def translateOption : Option Sq.Expr → ParseResult (Option Ast.Expr)
  | none => .ok none
  | some expr => do
    let e ← translateExpr expr
    return some e

def translateConditions : List Sq.CaseWhen → ParseResult (List (Ast.Expr × Ast.Expr))
  | [] => .ok []
  | ⟨condition, result⟩ :: rest => do
    let c ← translateExpr condition
    let r ← translateExpr result
    let whenThen ← translateConditions rest
    return (c, r) :: whenThen

/-- The arguments of a function, and whether they are DISTINCT. -/
def translateArguments : Sq.FunctionArguments → ParseResult (List Ast.Expr × Bool)
  | .none => .ok ([], false)
  | .subquery query => do
    let q ← translateQuery query
    return ([.subquery q], false)
  | .list duplicateTreatment args _ => do
    let args ← translateArgs args
    return (args, duplicateTreatment = some .distinct)

def translateArgs : List Sq.FunctionArg → ParseResult (List Ast.Expr)
  | [] => .ok []
  | arg :: rest => do
    let e ← translateArg arg
    let args ← translateArgs rest
    return e :: args

def translateArg : Sq.FunctionArg → ParseResult Ast.Expr
  | .unnamed (.expr e) => translateExpr e
  | .unnamed .wildcard => .ok .wildcard
  | .named _ (.expr e) => translateExpr e
  | _ => .error (.debug "unsupported function argument")

end

/-! ### UPDATE and DELETE -/

/-- The table of an UPDATE or a DELETE. -/
def translateTable (error : String) : Sq.TableFactor → ParseResult (String × Option String)
  | .table name aliasName _ => .ok (name.toString, aliasName.map (·.name))
  | _ => .error (.debug error)

/-- One assignment of `translate_update`. -/
def translateAssignment : Sq.Assignment → ParseResult Ast.Assignment
  | ⟨.columnName name, value⟩ => do
    let value ← translateExpr toLowercase value
    return ⟨name.parts.getLast?.getD "", value⟩
  | ⟨.tuple _, _⟩ => .error (.text "tuple assignment target is not supported")

/-- `translate_update`. -/
def translateUpdate (table : Sq.TableWithJoins) (assignments : List Sq.Assignment)
    (selection : Option Sq.Expr) : ParseResult Ast.Statement := do
  let (name, aliasName) ← translateTable "UPDATE with non-table relation" table.relation
  let assignments ← assignments.mapM (translateAssignment toLowercase)
  let whereClause ← translateOption toLowercase selection
  return .update ⟨name, aliasName, assignments, whereClause⟩

def fromTables : Sq.FromTable → List Sq.TableWithJoins
  | .withFromKeyword tables | .withoutKeyword tables => tables

/-- `translate_delete`. -/
def translateDelete (delete : Sq.Delete) : ParseResult Ast.Statement :=
  if 1 < delete.tables.length then .error (.text "multi-table DELETE is not supported")
  else match fromTables delete.from_ with
    | [] => .error (.text "DELETE with no FROM clause")
    | table :: _ => do
      let (name, aliasName) ← translateTable "DELETE with non-table relation" table.relation
      let whereClause ← translateOption toLowercase delete.selection
      return .delete ⟨name, aliasName, whereClause⟩

/-! ### ALTER TABLE and DROP -/

/-- One option of an added column. -/
def addOption (column : Ast.ColumnDef) : Sq.ColumnOption → ParseResult Ast.ColumnDef
  | .notNull => .ok { column with nullable := false }
  | .null => .ok { column with nullable := true }
  | .primaryKey => .ok { column with primaryKey := true, nullable := false }
  | .unique => .ok { column with unique := true }
  | .default expr => do
    let value ← translateExpr toLowercase expr
    return { column with default := some value }
  | .other _ => .ok column

/-- `translate_fk_action`. -/
def translateFkAction : Sq.ReferentialAction → Ast.ForeignKeyAction
  | .cascade => .cascade
  | .setNull => .setNull
  | .restrict => .restrict
  | .noAction | .setDefault => .noAction

/-- `translate_fk_constraint`. -/
def translateFkConstraint (fk : Sq.ForeignKeyConstraint) : Ast.ForeignKeyClause where
  columns := fk.columns
  refTable := fk.foreignTable.toString
  refColumns := fk.referredColumns
  onDelete := fk.onDelete.map translateFkAction
  onUpdate := fk.onUpdate.map translateFkAction

/-- `translate_alter_action`. -/
def translateAlterAction : Sq.AlterTableOperation → ParseResult Ast.AlterTableAction
  | .addColumn ⟨name, dataType, options⟩ _ => do
    let dt ← translateDataType toLowercase dataType
    let column ← options.foldlM (addOption toLowercase) ⟨name, dt, true, none, false, false⟩
    return .addColumn column
  | .dropColumn [] _ => .error (.text "DROP COLUMN missing column name")
  | .dropColumn (name :: _) _ => .ok (.dropColumn name)
  | .renameColumn old new => .ok (.renameColumn old new)
  | .renameTable (.to name) | .renameTable (.as name) => .ok (.renameTable name.toString)
  | .alterColumn column (.setDataType dataType _) => do
    let newType ← translateDataType toLowercase dataType
    return .alterColumnType column newType
  | .alterColumn _ .other => .error (.debug "unsupported ALTER COLUMN operation")
  | .addConstraint (.foreignKey fk) _ => .ok (.addForeignKey (translateFkConstraint fk))
  | .addConstraint (.primaryKey pk) _ => .ok (.addPrimaryKey pk.columns)
  | .addConstraint .other _ => .error (.debug "unsupported ADD CONSTRAINT type")
  | .dropConstraint name _ => .ok (.dropConstraint name)
  | .dropForeignKey name _ => .ok (.dropForeignKey name)
  | .other => .error (.debug "unsupported ALTER TABLE operation")

/-- `char::is_whitespace`. -/
def isWhitespace (c : Char) : Bool :=
  let n := c.toNat
  9 ≤ n ∧ n ≤ 13 ∨ 0x2000 ≤ n ∧ n ≤ 0x200A ∨
    n ∈ [0x20, 0x85, 0xA0, 0x1680, 0x2028, 0x2029, 0x202F, 0x205F, 0x3000]

/-- `trim().is_empty()`. -/
def isBlank (s : String) : Bool := s.toList.all isWhitespace

/-- `translate_statement`, on the kinds of statements that are here. -/
def translateStatement : Sq.Statement → ParseResult Ast.Statement
  | .query q => do
    let sel ← translateQuery toLowercase q
    return .select sel
  | .update stmt => translateUpdate toLowercase stmt.table stmt.assignments stmt.selection
  | .delete stmt => translateDelete toLowercase stmt
  | .alterTable ⟨name, operations, _⟩ =>
    match operations with
    | [] => .error (.text "ALTER TABLE has no operations")
    | [operation] => do
      let action ← translateAlterAction toLowercase operation
      if isBlank name.toString then .error (.text "ALTER TABLE requires a table name")
      else return .alterTable ⟨name.toString, action⟩
    | _ => .error (.text ("ALTER TABLE with multiple operations is not supported (got " ++
        toString operations.length ++ ")"))
  | .drop ⟨.table, ifExists, names, _, _⟩ =>
    match names with
    | [name] => .ok (.dropTable ⟨name.toString, ifExists⟩)
    | _ => .error (.debug "expected exactly one table name in DROP TABLE, got")
  | .drop ⟨.index, ifExists, names, table, _⟩ =>
    match table, names with
    | none, _ => .error (.text "DROP INDEX missing table name")
    | some _, [] => .error (.text "DROP INDEX missing index name")
    | some table, name :: _ =>
      if isBlank name.toString then .error (.text "DROP INDEX requires index name")
      else .ok (.dropIndex ⟨name.toString, table.toString, ifExists⟩)
  | .drop ⟨.other, _, _, _, _⟩ => .error (.debug "unsupported statement")

end Parser
end Abdb
