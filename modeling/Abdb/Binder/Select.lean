/-
# Binding a SELECT

`bind_select` of `src/binder/binder.rs` and what it calls: tables are looked up in the catalog,
names are resolved in the scope of the FROM clause, and every expression gets a type.  A
subquery is bound in a scope of its own.
-/

import Abdb.Binder.Scope
import Mathlib.Data.List.Sort

namespace Abdb

/-- What the binder asks the accessor and the standard library. -/
structure Accessor where
  /-- `catalog_get_table_by_name`. -/
  tableByName : String → Option Catalog.Table
  /-- `catalog_get_table_columns`; an error is given by its text. -/
  tableColumns : OId → Except String (List Catalog.Column)
  /-- `str::to_lowercase`, for all of Unicode. -/
  toLowercase : String → String

namespace Binder

/-! ### Types -/

/-- `is_numeric`. -/
def isNumeric (dt : DataType) : Bool :=
  dt ∈ [DataType.i8, .i16, .i32, .i64, .u8, .u16, .u32, .f32, .f64]

/-- `is_integer`. -/
def isInteger (dt : DataType) : Bool :=
  dt ∈ [DataType.i8, .i16, .i32, .i64, .u8, .u16, .u32]

/-- `numeric_rank`. -/
def numericRank : DataType → ℕ
  | .i8 | .u8 => 1
  | .i16 | .u16 => 2
  | .i32 | .u32 => 3
  | .i64 => 4
  | .f32 => 5
  | .f64 => 6
  | _ => 0

/-- `wider_numeric`. -/
def widerNumeric (a b : DataType) : Option DataType :=
  if !isNumeric a || !isNumeric b then none
  else if numericRank b ≤ numericRank a then some a
  else some b

/-- The name of an arithmetic operator, as `{:?}` prints it. -/
def debugName : BinaryOp → String
  | .add => "Add"
  | .sub => "Sub"
  | .mul => "Mul"
  | .div => "Div"
  | .mod => "Mod"
  | .eq => "Eq"
  | .notEq => "NotEq"
  | .lt => "Lt"
  | .ltEq => "LtEq"
  | .gt => "Gt"
  | .gtEq => "GtEq"
  | .and => "And"
  | .or => "Or"
  | .concat => "Concat"

/-- `infer_binary_type`. -/
def inferBinaryType (op : BinaryOp) (left right : BoundExpr) : BindResult (DataType × Bool) :=
  let nullable := left.nullable || right.nullable
  match op with
  | .eq | .notEq | .lt | .ltEq | .gt | .gtEq => .ok (.bool, nullable)
  | .and | .or => .ok (.bool, nullable)
  | .concat => .ok (.string, nullable)
  | .add | .sub | .mul | .div | .mod =>
    match widerNumeric left.dataType right.dataType with
    | some dt => .ok (dt, nullable)
    | none => .error (.typeMismatch left.dataType right.dataType (debugName op))

/-- The type of a unary operation. -/
def inferUnaryType (op : UnaryOp) (inner : BoundExpr) : BindResult DataType :=
  match op with
  | .neg =>
    if !isNumeric inner.dataType then .error (.typeMismatch .i64 inner.dataType "unary minus")
    else .ok inner.dataType
  | .not => .ok .bool

/-- `infer_function_type`. -/
def inferFunctionType (kind : FunctionKind) (args : List BoundExpr) : DataType × Bool :=
  let first (dt : DataType) := (args.head?.map (·.dataType)).getD dt
  match kind with
  | .count => (.i64, false)
  | .sum | .avg => (if isInteger (first .f64) then .i64 else .f64, true)
  | .min | .max => (first .i64, true)
  | .upper | .lower => (.string, true)
  | .length => (.i64, true)
  | .abs => (first .i64, true)
  | .coalesce => (first .string, args.all (·.nullable))
  | .nullif => (first .string, true)
  | .unknown => (.string, true)

/-- `bind_literal`. -/
def bindLiteral : Ast.Literal → BoundExpr
  | .integer n => ⟨.literal (.integer n), .i64, false⟩
  | .float bits => ⟨.literal (.float bits), .f64, false⟩
  | .string s => ⟨.literal (.string s), .string, false⟩
  | .bool b => ⟨.literal (.bool b), .bool, false⟩
  | .null => ⟨.literal .null, .string, true⟩

/-- `translate_join_kind`. -/
def translateJoinKind : Ast.JoinKind → BoundJoinKind
  | .inner => .inner
  | .leftOuter => .leftOuter
  | .rightOuter => .rightOuter
  | .fullOuter => .fullOuter
  | .cross => .cross

/-- `infer_alias`. -/
def inferAlias : Ast.Expr → String
  | .column c => c.column
  | .function name _ _ => name
  | _ => "?column?"

/-! ### The FROM clause -/

/-- `add_table_ref_to_scope`. -/
def addTableRefToScope (tableRef : BoundTableRef) (scope : Scope) (nullable : Bool) : Scope :=
  match tableRef with
  | .baseTable table columns aliasName =>
    scope.addTable (some (aliasName.getD table.name)) columns nullable
  | .subquery query aliasName =>
    query.outputColumns.foldl (fun scope outCol =>
      scope.addDerived (some aliasName) outCol.name outCol.dataType (outCol.nullable || nullable)) scope

/-- `TableRef::Named`, bound: the columns of the table by position. -/
def bindNamed (acc : Accessor) (name : String) (aliasName : Option String) : BindResult BoundTableRef :=
  match acc.tableByName name with
  | none => .error (.unknownTable name)
  | some table =>
    match acc.tableColumns table.oid with
    | .error e => .error (.catalogError e)
    | .ok columns => .ok (.baseTable table (columns.insertionSort (·.position ≤ ·.position)) aliasName)

/-- The last column of a name in a scope. -/
def lastNamed (scope : Scope) (columnName : String) : Option ScopeColumn :=
  (scope.columns.filter fun sc => eqIgnoreAsciiCase sc.columnName columnName).getLast?

/-- An equality of two columns. -/
def columnEquality (left right : ScopeColumn) : BoundExpr :=
  ⟨.binaryOp left.toExpr .eq right.toExpr, .bool, false⟩

/-- The equality of one USING column. -/
def bindUsing (scope : Scope) (colName : String) : BindResult BoundExpr := do
  let leftSc ← scope.resolve none colName
  match lastNamed scope colName with
  | none => .error (.unknownColumn colName)
  | some rightSc => .ok (columnEquality leftSc rightSc)

/-- The names of a table's columns in lower case, as NATURAL compares them. -/
def lowerNames (acc : Accessor) : BoundTableRef → List String
  | .baseTable _ columns _ => columns.map fun c => acc.toLowercase c.name
  | .subquery query _ => query.outputColumns.map fun c => acc.toLowercase c.name

/-- The equality of one NATURAL column, if the name is one column's. -/
def bindNatural (scope : Scope) (rightName : String) : Option BoundExpr :=
  match scope.resolve none rightName with
  | .error _ => none
  | .ok leftSc => (lastNamed scope rightName).map (columnEquality leftSc)

/-! ### Expressions -/

/-- The projection ORDER BY names by its alias. -/
def findAlias (projections : List BoundSelectItem) (column : String) : Option BoundSelectItem :=
  projections.find? fun p => eqIgnoreAsciiCase p.aliasName column

/-- The item of the SELECT list that ORDER BY names by its position or by its alias. -/
def orderByItem (projections : List BoundSelectItem) : Ast.Expr → Option (BindResult BoundExpr)
  | .literal (.integer n) =>
    some (match projections[(n.toUInt64 - 1).toNat]? with
      | some proj => .ok proj.expr
      | none => .error (.unsupported ("ORDER BY position " ++ toString n ++ " out of range")))
  | .column ⟨none, column⟩ => (findAlias projections column).map fun proj => .ok proj.expr
  | _ => none

/-- Whether `JoinKind` keeps rows of a side without a partner. -/
def isOuter : Ast.JoinKind → Bool
  | .rightOuter | .fullOuter | .leftOuter => true
  | _ => false

mutual

/-- `bind_select`. -/
def bindSelect (acc : Accessor) : Ast.SelectStmt → BindResult BoundSelect
  | ⟨projections, fromClause, joins, whereClause, groupBy, having, orderBy, limit, offset, distinct⟩ => do
    let (boundFrom, scope) ← bindFrom acc Scope.new fromClause
    let (boundJoins, scope) ← bindJoins acc scope joins
    let whereClause ← bindOption acc scope whereClause
    let groupBy ← bindExprs acc scope groupBy
    let having ← bindOption acc scope having
    let projections ← bindItems acc scope projections
    let outputColumns := projections.map fun p => ⟨p.aliasName, p.expr.dataType, p.expr.nullable⟩
    let orderBy ← bindOrderBy acc scope projections orderBy
    let limit ← bindOption acc scope limit
    let offset ← bindOption acc scope offset
    return ⟨projections, boundFrom, boundJoins, whereClause, groupBy, having, orderBy, limit, offset,
      distinct, outputColumns⟩

/-- `bind_table_ref`. -/
def bindTableRef (acc : Accessor) : Ast.TableRef → BindResult BoundTableRef
  | .named name aliasName => bindNamed acc name aliasName
  | .subquery query aliasName => do
    let bound ← bindSelect acc query
    return .subquery bound aliasName

/-- The FROM items of `bind_select`, one after the other. -/
def bindFrom (acc : Accessor) (scope : Scope) :
    List Ast.TableRef → BindResult (List BoundTableRef × Scope)
  | [] => .ok ([], scope)
  | tableRef :: rest => do
    let boundRef ← bindTableRef acc tableRef
    let (bound, scope) ← bindFrom acc (addTableRefToScope boundRef scope false) rest
    return (boundRef :: bound, scope)

/-- The joins of `bind_select`: the columns of a table are in the scope of its own condition. -/
def bindJoins (acc : Accessor) (scope : Scope) : List Ast.Join → BindResult (List BoundJoin × Scope)
  | [] => .ok ([], scope)
  | ⟨kind, table, condition⟩ :: rest => do
    let boundRef ← bindTableRef acc table
    let scope := addTableRefToScope boundRef scope (isOuter kind)
    let condition ← bindJoinCondition acc scope boundRef condition
    let (bound, scope) ← bindJoins acc scope rest
    return (⟨translateJoinKind kind, boundRef, condition⟩ :: bound, scope)

/-- `bind_join_condition`. -/
def bindJoinCondition (acc : Accessor) (scope : Scope) (right : BoundTableRef) :
    Ast.JoinCondition → BindResult BoundJoinCondition
  | .on expr => do
    let bound ← bindExpr acc scope expr
    return .on bound
  | .using colNames => do
    let exprs ← colNames.mapM (bindUsing scope)
    return .using exprs
  | .natural => .ok (.natural ((lowerNames acc right).filterMap (bindNatural scope)))
  | .none => .ok .none

/-- One item of the SELECT list. -/
def bindItem (acc : Accessor) (scope : Scope) : Ast.SelectItem → BindResult (List BoundSelectItem)
  | .wildcard => .ok (scope.columns.map fun sc => ⟨sc.toExpr, sc.columnName⟩)
  | .qualifiedWildcard qualifier =>
    match scope.allColumnsForQualifier qualifier with
    | [] => .error (.unknownTable qualifier)
    | cols => .ok (cols.map fun sc => ⟨sc.toExpr, sc.columnName⟩)
  | .expr expr aliasName => do
    let bound ← bindExpr acc scope expr
    return [⟨bound, aliasName.getD (inferAlias expr)⟩]

def bindItems (acc : Accessor) (scope : Scope) : List Ast.SelectItem → BindResult (List BoundSelectItem)
  | [] => .ok []
  | item :: rest => do
    let bound ← bindItem acc scope item
    let boundRest ← bindItems acc scope rest
    return bound ++ boundRest

/-- `bind_order_by_expr`: an item of the SELECT list or an expression. -/
def bindOrderByExpr (acc : Accessor) (scope : Scope) (projections : List BoundSelectItem) :
    Ast.OrderByExpr → BindResult BoundOrderByExpr
  | ⟨expr, asc, nullsFirst⟩ => do
    let bound ← (orderByItem projections expr).getD (bindExpr acc scope expr)
    return ⟨bound, asc, nullsFirst⟩

def bindOrderBy (acc : Accessor) (scope : Scope) (projections : List BoundSelectItem) :
    List Ast.OrderByExpr → BindResult (List BoundOrderByExpr)
  | [] => .ok []
  | o :: rest => do
    let bound ← bindOrderByExpr acc scope projections o
    let boundRest ← bindOrderBy acc scope projections rest
    return bound :: boundRest

/-- `bind_expr`. -/
def bindExpr (acc : Accessor) (scope : Scope) : Ast.Expr → BindResult BoundExpr
  | .literal lit => .ok (bindLiteral lit)
  | .column c => do
    let sc ← scope.resolve c.table c.column
    return sc.toExpr
  | .binaryOp left op right => do
    let l ← bindExpr acc scope left
    let r ← bindExpr acc scope right
    let (dt, nullable) ← inferBinaryType op l r
    return ⟨.binaryOp l op r, dt, nullable⟩
  | .unaryOp op expr => do
    let inner ← bindExpr acc scope expr
    let dt ← inferUnaryType op inner
    return ⟨.unaryOp op inner, dt, inner.nullable⟩
  | .isNull expr => do
    let bound ← bindExpr acc scope expr
    return ⟨.isNull bound, .bool, false⟩
  | .isNotNull expr => do
    let bound ← bindExpr acc scope expr
    return ⟨.isNotNull bound, .bool, false⟩
  | .like expr pattern negated => do
    let boundExpr ← bindExpr acc scope expr
    let boundPat ← bindExpr acc scope pattern
    return ⟨.like boundExpr boundPat negated, .bool, false⟩
  | .between expr low high negated => do
    let boundExpr ← bindExpr acc scope expr
    let boundLow ← bindExpr acc scope low
    let boundHigh ← bindExpr acc scope high
    return ⟨.between boundExpr boundLow boundHigh negated, .bool, false⟩
  | .inList expr list negated => do
    let boundExpr ← bindExpr acc scope expr
    let boundList ← bindExprs acc scope list
    return ⟨.inList boundExpr boundList negated, .bool, false⟩
  | .inSubquery expr subquery negated => do
    let boundExpr ← bindExpr acc scope expr
    let boundSub ← bindSelect acc subquery
    if boundSub.outputColumns.length ≠ 1 then .error .subqueryTooManyColumns
    else return ⟨.inSubquery boundExpr boundSub negated, .bool, false⟩
  | .existsSubquery subquery negated => do
    let boundSub ← bindSelect acc subquery
    return ⟨.existsSubquery boundSub negated, .bool, false⟩
  | .subquery query => do
    let boundSub ← bindSelect acc query
    match boundSub.outputColumns with
    | [col] => return ⟨.subquery boundSub, col.dataType, col.nullable⟩
    | _ => .error .subqueryTooManyColumns
  | .function name args distinct => do
    let kind := FunctionKind.ofName name
    let boundArgs ← bindArgs acc scope args
    let (dt, nullable) := inferFunctionType kind boundArgs
    return ⟨.function ⟨name, kind, boundArgs, distinct⟩, dt, nullable⟩
  | .cast expr dataType => do
    let inner ← bindExpr acc scope expr
    return ⟨.cast inner dataType, dataType, inner.nullable⟩
  | .case operand whenThen elseResult => do
    let boundOperand ← bindOption acc scope operand
    let boundWhenThen ← bindPairs acc scope whenThen
    let boundElse ← bindOption acc scope elseResult
    let dt := ((boundWhenThen.head?.map (·.2.dataType)).or (boundElse.map (·.dataType))).getD .string
    let nullable := boundElse.isNone || boundWhenThen.any (·.2.nullable) || boundElse.any (·.nullable)
    return ⟨.case boundOperand boundWhenThen boundElse, dt, nullable⟩
  | .wildcard => .error (.unsupported "wildcard (*) is only valid in SELECT or COUNT(*)")

def bindExprs (acc : Accessor) (scope : Scope) : List Ast.Expr → BindResult (List BoundExpr)
  | [] => .ok []
  | e :: rest => do
    let bound ← bindExpr acc scope e
    let boundRest ← bindExprs acc scope rest
    return bound :: boundRest

/-- The arguments of a function: `*` counts as 1. -/
def bindArgs (acc : Accessor) (scope : Scope) : List Ast.Expr → BindResult (List BoundExpr)
  | [] => .ok []
  | .wildcard :: rest => do
    let boundRest ← bindArgs acc scope rest
    return ⟨.literal (.integer 1), .i64, false⟩ :: boundRest
  | e :: rest => do
    let bound ← bindExpr acc scope e
    let boundRest ← bindArgs acc scope rest
    return bound :: boundRest

def bindOption (acc : Accessor) (scope : Scope) : Option Ast.Expr → BindResult (Option BoundExpr)
  | none => .ok none
  | some e => do
    let bound ← bindExpr acc scope e
    return some bound

def bindPairs (acc : Accessor) (scope : Scope) :
    List (Ast.Expr × Ast.Expr) → BindResult (List (BoundExpr × BoundExpr))
  | [] => .ok []
  | (w, t) :: rest => do
    let boundWhen ← bindExpr acc scope w
    let boundThen ← bindExpr acc scope t
    let boundRest ← bindPairs acc scope rest
    return (boundWhen, boundThen) :: boundRest

end

end Binder
end Abdb
