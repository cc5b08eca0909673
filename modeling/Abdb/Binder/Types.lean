/-
# The types of values

An operator gives values of the type it is bound to, so the value of a bound expression has the
type of the expression, or is NULL, as long as CASE and COALESCE do: they hand on the value of one
of their parts, and `src/binder/binder.rs` gives them the type of the first part only, without a
look at the others and without a cast.

So the types are sound exactly if, in every CASE and every COALESCE at any depth, the parts that
are not the literal NULL have the type of the first one (`types_iff`).
-/

import Abdb.Binder.Modify
import Abdb.Binder.Rules
import Abdb.Databox.Encoding

namespace Abdb

/-- NULL, or a value of this type. -/
def Value.Typed (dataType : DataType) (v : Value) : Prop := v = .null ∨ v.dataType = some dataType

/-- The values in a row have the types of the columns of a scope. -/
def Row.Conforms (scope : Scope) (row : Row) : Prop :=
  ∀ (i : ℕ) (sc : ScopeColumn), scope.columns[i]? = some sc → (row.get i).Typed sc.dataType

/-- The row of a context, and all rows its aggregates run over, conform to a scope. -/
structure Context.Conforms (scope : Scope) (c : Context) : Prop where
  row : c.row.Conforms scope
  group : ∀ r ∈ c.group, r.Conforms scope

/-- Operators give values of the type they are bound to, and tables have values of the types of
their columns. -/
structure Semantics.Typed (acc : Accessor) (D : Semantics) : Prop where
  arith : ∀ dataType op v w, (D.arith dataType op v w).Typed dataType
  neg : ∀ dataType v, (D.neg dataType v).Typed dataType
  cast : ∀ dataType v, (D.cast dataType v).Typed dataType
  total : ∀ dataType kind vs, (D.total dataType kind vs).Typed dataType
  text : ∀ kind name distinct vs, kind ∈ [FunctionKind.upper, .lower, .unknown] →
    (D.call kind name distinct vs).Typed .string
  length : ∀ name distinct vs, (D.call .length name distinct vs).Typed .i64
  abs : ∀ name distinct dataType vs, vs.headD .null |>.Typed dataType →
    (D.call .abs name distinct vs).Typed dataType
  table : ∀ oid cols, acc.tableColumns oid = .ok cols → ∀ t ∈ D.table oid, ∀ c ∈ cols,
    (t c.oid).Typed c.typeId

namespace Binder

/-- The parts of an expression that hand on their values: the results of CASE, the arguments of
COALESCE. -/
def results (e : BoundExpr) : List BoundExpr :=
  match e.kind with
  | .case _ whenThen elseResult => whenThen.map (·.2) ++ elseResult.toList
  | .function ⟨_, .coalesce, args, _⟩ => args
  | _ => []

/-- The results of an expression have its type, or are the literal NULL. -/
def Uniform : Node → Prop
  | .expr _ e => ∀ r ∈ results e, r.dataType = e.dataType ∨ isNullLiteral r = true
  | .select _ => True

/-- The results of an expression have the type of the first one, or are the literal NULL. -/
def OneType : Node → Prop
  | .expr _ e =>
    ∀ first ∈ (results e).head?, ∀ r ∈ results e, r.dataType = first.dataType ∨ isNullLiteral r = true
  | .select _ => True

/-- The place of an expression that is bound in a scope by itself. -/
def placeIn (scope : Scope) : Placement := ⟨scope, [], [], none, false⟩

/-- **The types of an expression are sound**: on rows of its scope its value has its type or is
NULL, and all results of a CASE and all arguments of a COALESCE have the type of the whole. -/
structure TypesSound (acc : Accessor) (scope : Scope) (e : BoundExpr) : Prop where
  value : ∀ D : Semantics, D.Typed acc → ∀ c : Context, c.Conforms scope → (e.value D c).Typed e.dataType
  uniform : Everywhere Node.below Uniform (.expr (placeIn scope) e)

variable {acc : Accessor} {D : Semantics} {scope : Scope} {p : Placement} {e : BoundExpr} {c : Context}
  {dataType : DataType} {v w : Value}

/-! ### Operators -/

theorem typed_ofTruth (t : Truth) : (Value.ofTruth t).Typed .bool := by
  rcases t with _ | _
  · exact .inl rfl
  · exact .inr rfl

/-- Comparisons and connectives give Booleans, arithmetic its own type. -/
theorem typed_binary (hD : D.Typed acc) {left right : BoundExpr} {op : BinaryOp} {nullable : Bool}
    (h : inferBinaryType op left right = .ok (dataType, nullable)) :
    (D.binary dataType op v w).Typed dataType := by
  cases op with
  | add | sub | mul | div | mod | concat => exact hD.arith dataType _ v w
  | eq | notEq | lt | ltEq | gt | gtEq | and | or =>
    obtain rfl := (Prod.mk.inj (Except.ok.inj h)).1
    exact typed_ofTruth _

theorem coalesce_mem (vs : List Value) : Semantics.coalesce vs = .null ∨ Semantics.coalesce vs ∈ vs := by
  rw [Semantics.coalesce]
  cases h : vs.find? (· ≠ .null) with
  | none => exact .inl rfl
  | some v => exact .inr (List.mem_of_find?_eq_some h)

theorem nullif_eq (vs : List Value) : D.nullif vs = .null ∨ D.nullif vs = vs.headD .null := by
  match vs with
  | [] => exact .inl rfl
  | [v] => exact .inr rfl
  | v :: w :: vs =>
    rw [Semantics.nullif]
    split_ifs
    · exact .inl rfl
    · exact .inr rfl

theorem value_of_isNullLiteral (h : isNullLiteral e = true) : e.value D c = .null := by
  obtain ⟨kind, dataType, nullable⟩ := e
  cases kind with
  | literal lit =>
    cases lit with
    | null => rfl
    | _ => cases h
  | _ => cases h

/-- What a statement or an expression says of its values. -/
def ValueTyped (D : Semantics) : Node → Prop
  | .expr p e => ∀ c : Context, c.Conforms p.scope → (e.value D c).Typed e.dataType
  | .select q =>
    ∀ row ∈ q.rows D, row.Has (fun (col : OutputColumn) v => v.Typed col.dataType) q.outputColumns

/-- A result hands on a value of the type of the whole. -/
theorem typed_result (hvalue : ValueTyped D (.expr p e)) (hc : c.Conforms p.scope)
    (h : e.dataType = dataType ∨ isNullLiteral e = true) : (e.value D c).Typed dataType := by
  rcases h with rfl | hnull
  · exact hvalue c hc
  · exact .inl (value_of_isNullLiteral hnull)

/-- The first argument of a function. -/
theorem typed_head {args : List BoundExpr} (hargs : ∀ e ∈ args, ValueTyped D (.expr p e))
    (hc : c.Conforms p.scope) :
    ((valueList D args c).headD .null).Typed ((args.head?.map (·.dataType)).getD dataType) := by
  cases args with
  | nil => exact .inl rfl
  | cons e args => exact hargs e List.mem_cons_self c hc

theorem typed_aggregate (hD : D.Typed acc) {kind : FunctionKind} {distinct : Bool} {args : List BoundExpr}
    {vs : List Value} {nullable : Bool} (hkind : kind.isAggregate = true)
    (hrule : (dataType, nullable) = inferFunctionType kind args)
    (hvs : ∀ v ∈ vs, v.Typed ((args.head?.map (·.dataType)).getD .i64)) :
    (D.aggregate dataType kind distinct vs).Typed dataType := by
  have hextreme : ∀ op, (D.extreme op (Semantics.counted distinct vs)).Typed
    ((args.head?.map (·.dataType)).getD .i64) := by
    intro op
    rcases D.extreme_mem op (Semantics.counted distinct vs) with hnull | hmem
    · exact .inl hnull
    · exact hvs _ (Semantics.mem_of_mem_counted hmem)
  cases kind with
  | count =>
    obtain rfl := (Prod.mk.inj hrule).1
    exact .inr rfl
  | sum => exact hD.total dataType _ _
  | avg => exact hD.total dataType _ _
  | min =>
    obtain rfl := (Prod.mk.inj hrule).1
    exact hextreme .lt
  | max =>
    obtain rfl := (Prod.mk.inj hrule).1
    exact hextreme .gt
  | _ => cases hkind

theorem typed_apply (hD : D.Typed acc) {name : String} {kind : FunctionKind} {distinct : Bool}
    {args : List BoundExpr}
    {nullable : Bool} (hkind : kind.isAggregate = false)
      (hrule : (dataType, nullable) = inferFunctionType kind args)
    (hargs : ∀ e ∈ args, ValueTyped D (.expr p e)) (hc : c.Conforms p.scope)
    (huniform : kind = .coalesce → ∀ r ∈ args, r.dataType = dataType ∨ isNullLiteral r = true) :
    (D.apply name kind distinct (valueList D args c)).Typed dataType := by
  obtain rfl := (Prod.mk.inj hrule).1
  cases kind with
  | coalesce =>
    rcases coalesce_mem (valueList D args c) with hnull | hmem
    · exact .inl hnull
    · rw [valueList_eq_map] at hmem
      obtain ⟨e, he, heq⟩ := List.mem_map.1 hmem
      have htyped := typed_result (hargs e he) hc (huniform rfl e he)
      rw [heq, ← valueList_eq_map] at htyped
      exact htyped
  | nullif =>
    rcases nullif_eq (D := D) (valueList D args c) with hnull | hhead
    · exact .inl hnull
    · have htyped : ((valueList D args c).headD .null).Typed ((args.head?.map (·.dataType)).getD .string) :=
        typed_head hargs hc
      rw [← hhead] at htyped
      exact htyped
  | upper => exact hD.text _ name distinct _ (by decide)
  | lower => exact hD.text _ name distinct _ (by decide)
  | unknown => exact hD.text _ name distinct _ (by decide)
  | length => exact hD.length name distinct _
  | abs => exact hD.abs name distinct _ _ (typed_head hargs hc)
  | _ => cases hkind

/-! ### Expressions -/

/-- By the rules, the type of the whole is that of the first result. -/
theorem uniform_iff {n : Node} (hrule : Rule acc n) : Uniform n ↔ OneType n := by
  cases n with
  | select q => exact Iff.rfl
  | expr p e =>
    have hfirst : ∀ first ∈ (results e).head?, first.dataType = e.dataType := by
      obtain ⟨kind, dataType, nullable⟩ := e
      intro first hfirst
      cases kind with
      | case operand whenThen elseResult =>
        obtain rfl := (Prod.mk.inj hrule).1
        cases whenThen with
        | nil =>
          cases elseResult with
          | none => cases hfirst
          | some e =>
            cases hfirst
            rfl
        | cons pair whenThen =>
          cases hfirst
          rfl
      | function f =>
        obtain ⟨name, kind, args, distinct⟩ := f
        cases kind with
        | coalesce =>
          obtain rfl := (Prod.mk.inj hrule).1
          cases args with
          | nil => cases hfirst
          | cons e args =>
            cases hfirst
            rfl
        | _ => cases hfirst
      | _ => cases hfirst
    constructor
    · intro h first hmem r hr
      rw [hfirst first hmem]
      exact h r hr
    · intro h r hr
      cases hhead : (results e).head? with
      | none =>
        rw [List.head?_eq_none_iff.1 hhead] at hr
        cases hr
      | some first =>
        rw [← hfirst first hhead]
        exact h first hhead r hr

/-- **One expression**: its value has its type if the values of its parts have theirs. -/
theorem value_typed_step (hD : D.Typed acc) (hrule : ExprRule p e) (huniform : Uniform (.expr p e))
    (hinside : ∀ child ∈ e.children, ValueTyped D (.expr (p.inside e) child))
    (hsubqueries : ∀ query ∈ e.subqueries, ValueTyped D (.select query)) : ValueTyped D (.expr p e) := by
  intro c hc
  have hchildren : ∀ child ∈ e.children, ValueTyped D (.expr p child) := by
    intro child hchild
    exact (Placement.inside_iff (P := fun p => ValueTyped D (.expr p child)) Iff.rfl e).1 (hinside child hchild)
  obtain ⟨kind, dataType, nullable⟩ := e
  rw [BoundExpr.value]
  cases kind with
  | literal lit =>
    obtain ⟨rfl, rfl⟩ := Prod.mk.inj hrule
    cases lit with
    | null => exact .inl rfl
    | _ => exact .inr rfl
  | columnRef r =>
    obtain ⟨sc, hsc, rfl, rfl⟩ := hrule
    exact hc.row _ sc hsc
  | binaryOp left op right =>
    rcases hrule with htype | ⟨-, rfl, htype⟩
    · exact typed_binary hD htype
    · rw [htype]
      exact typed_ofTruth _
  | unaryOp op expr =>
    obtain ⟨htype, -⟩ := hrule
    cases op with
    | neg => exact hD.neg dataType _
    | not =>
      obtain rfl := Except.ok.inj htype
      exact typed_ofTruth _
  | isNull expr =>
    rw [hrule.1]
    exact .inr rfl
  | isNotNull expr =>
    rw [hrule.1]
    exact .inr rfl
  | like expr pattern negated =>
    rw [hrule.1]
    exact typed_ofTruth _
  | between expr low high negated =>
    rw [hrule.1]
    exact typed_ofTruth _
  | inList expr list negated =>
    rw [hrule.1]
    exact typed_ofTruth _
  | inSubquery expr query negated =>
    rw [hrule.2.1]
    exact typed_ofTruth _
  | existsSubquery query negated =>
    rw [hrule.1]
    exact .inr rfl
  | subquery query =>
    obtain ⟨col, hcol, rfl, rfl⟩ := hrule
    rcases value_subquery col.dataType query c with ⟨row, hrow, heq⟩ | ⟨-, heq⟩
    · have hhas := hsubqueries query (List.mem_singleton_self query) row hrow
      rw [hcol] at hhas
      rw [heq]
      exact hhas.reads 0 col rfl
    · rw [heq]
      exact .inl rfl
  | function f =>
    obtain ⟨name, kind, args, distinct⟩ := f
    rw [BoundExprKind.value]
    split_ifs with hkind
    · refine typed_aggregate hD hkind hrule fun v hv => ?_
      obtain ⟨r, hr, rfl⟩ := List.mem_map.1 hv
      exact typed_head hchildren ⟨hc.group r hr, by rintro _ ⟨⟩⟩
    · refine typed_apply hD (Bool.eq_false_iff.2 hkind) hrule hchildren hc ?_
      rintro rfl
      exact huniform
  | cast expr targetType =>
    rw [hrule.1]
    exact hD.cast targetType _
  | case operand whenThen elseResult =>
    rcases value_case dataType operand whenThen elseResult c with ⟨r, hr, heq⟩ | ⟨-, heq⟩
    · rw [heq]
      refine typed_result (hchildren r ?_) hc (huniform r hr)
      rcases List.mem_append.1 hr with hr | hr
      · exact List.mem_append_left _ (List.mem_append_right _ hr)
      · exact List.mem_append_right _ hr
    · rw [heq]
      exact .inl rfl

/-! ### Statements -/

/-- The types of the columns of a table. -/
def tableTypes (t : BoundTableRef) : List DataType := t.columns.map (·.2)

/-- Types as marks of columns: an outer join changes nothing, as NULL is of every type. -/
def typeMarking : Marking DataType where
  Holds dataType v := v.Typed dataType
  lost := id
  padded := id
  lost_of := id
  lost_null _ := .inl rfl
  padded_of := id
  padded_null _ := .inl rfl

theorem typeMarking_join (kind : BoundJoinKind) (ms ns : List DataType) :
    typeMarking.join kind ms ns = ms ++ ns := by
  cases kind <;> simp [Marking.join, typeMarking]

theorem types_addTableRefToScope (t : BoundTableRef) (scope : Scope) (nullable : Bool) :
    (addTableRefToScope t scope nullable).columns.map (·.dataType) =
      scope.columns.map (·.dataType) ++ tableTypes t := by
  obtain ⟨cols, hcols, hkeys, -⟩ := (extends_addTableRefToScope t scope nullable).columns
  rw [hcols, List.map_append, tableTypes, ← hkeys, List.map_map]
  rfl

theorem types_scopeFrom : ∀ (tables : List BoundTableRef) (scope : Scope),
    (scopeFrom scope tables).columns.map (·.dataType) =
      scope.columns.map (·.dataType) ++ tables.flatMap tableTypes
  | [], scope => (List.append_nil _).symm
  | t :: tables, scope => by
    rw [scopeFrom, List.foldl_cons, ← scopeFrom, types_scopeFrom tables, types_addTableRefToScope,
      List.flatMap_cons,
      List.append_assoc]

theorem types_scopeJoins : ∀ (joins : List BoundJoin) (scope : Scope),
    (scopeJoins scope joins).columns.map (·.dataType) = typeMarking.joins (scope.columns.map (·.dataType))
      (joins.map fun j => (j.kind, tableTypes j.table))
  | [], scope => rfl
  | j :: joins, scope => by
    rw [scopeJoins, List.foldl_cons, ← scopeJoins, types_scopeJoins joins, types_addTableRefToScope,
      List.map_cons,
      Marking.joins, Marking.joins, List.foldl_cons, typeMarking_join]

/-- The rows of a table have the types of its columns. -/
theorem fits_tableTypes (hD : D.Typed acc) {t : BoundTableRef} (ht : FromCatalog acc t)
    (hderived : ∀ query, t.derived = some query → ValueTyped D (.select query)) :
    typeMarking.Fits D t (tableTypes t) := by
  refine ⟨List.length_map _, fun row hrow => ?_⟩
  cases t with
  | baseTable table columns aliasName =>
    obtain ⟨cols, hcols, hsub⟩ := ht
    rw [BoundTableRef.rows] at hrow
    obtain ⟨tuple, htuple, rfl⟩ := List.mem_map.1 hrow
    rw [tableTypes, BoundTableRef.columns, List.map_map]
    refine List.forall₂_map_left_iff.2 (List.forall₂_map_right_iff.2 (List.forall₂_same.2 fun col hcol => ?_))
    exact hD.table table.oid cols hcols tuple htuple col (hsub col hcol)
  | subquery query aliasName =>
    rw [BoundTableRef.rows] at hrow
    have hrows := hderived query rfl row hrow
    rw [tableTypes, BoundTableRef.columns, List.map_map]
    exact List.forall₂_map_left_iff.2 hrows

/-- The rows of a query's scope conform to it. -/
theorem conforms_joinedRows (hD : D.Typed acc) {q : BoundSelect} (hrule : SelectRule acc q)
    (hderived : ∀ t ∈ q.items, ∀ query, t.derived = some query → ValueTyped D (.select query))
      {oneGroup : Bool} :
    ∀ row ∈ q.joinedRows D, row.Conforms (q.placement oneGroup).scope := by
  intro row hrow i sc hsc
  have hfits : ∀ t ∈ q.items, typeMarking.Fits D t (tableTypes t) := fun t ht =>
    fits_tableTypes hD (hrule.tables t ht) (hderived t ht)
  have hfrom := Marking.has_fromRows fun t ht => hfits t (List.mem_append_left _ ht)
  have hlen : width q.fromClause = (q.fromClause.flatMap tableTypes).length := by
    rw [width, List.length_flatMap]
    simp [tableTypes]
  rw [BoundSelect.joinedRows, hlen] at hrow
  have hhas := Marking.has_joinRows (fun j hj => hfits j.table
    (List.mem_append_right _ (List.mem_map_of_mem hj))) hfrom
    row hrow
  refine hhas.reads i sc.dataType ?_
  have htypes := types_scopeJoins q.joins (scopeFrom .new q.fromClause)
  rw [types_scopeFrom] at htypes
  rw [show q.fromClause.flatMap tableTypes =
      (Scope.new.columns.map (·.dataType)) ++ q.fromClause.flatMap tableTypes from rfl,
    ← htypes, List.getElem?_map]
  exact congrArg _ hsc

/-- **One SELECT**: its rows have the types of its output columns if its parts have theirs. -/
theorem rows_typed_step (hD : D.Typed acc) {q : BoundSelect} (hrule : SelectRule acc q)
    (hclauses : ∀ c ∈ q.clauses, ValueTyped D (.expr c.1 c.2))
    (hderived : ∀ t ∈ q.items, ∀ query, t.derived = some query → ValueTyped D (.select query)) :
    ValueTyped D (.select q) := by
  intro row hrow
  obtain ⟨c, hcrow, hcgroup, rfl⟩ := BoundSelect.mem_rows hrow
  have hjoined : ∀ row ∈ q.joinedRows D, row.Conforms (q.placement q.oneGroup).scope :=
    conforms_joinedRows hD hrule hderived
  have hc : c.Conforms (q.placement q.oneGroup).scope := by
    refine ⟨?_, fun r hr => hjoined r (hcgroup r hr)⟩
    rcases hcrow with hmem | ⟨-, hnil⟩
    · exact hjoined c.row hmem
    · intro i sc hsc
      rw [hnil]
      exact .inl rfl
  rw [hrule.outputColumns]
  refine List.forall₂_map_left_iff.2 (List.forall₂_map_right_iff.2 (List.forall₂_same.2 fun item hitem => ?_))
  refine hclauses (q.placement q.oneGroup, item.expr) ?_ c hc
  refine List.mem_append_right _ (List.mem_map_of_mem (List.mem_append_left _ (List.mem_append_left _ ?_)))
  exact List.mem_map_of_mem hitem

/-- **The value of every part has its type** where the results of every part are uniform. -/
theorem value_typed (hD : D.Typed acc) {n : Node}
    (h : Everywhere Node.below (fun n => Rule acc n ∧ Uniform n) n) :
    ValueTyped D n := by
  refine Node.induct ?_ ?_ h
  · exact fun p e hn hchildren hsubqueries => value_typed_step hD hn.1 hn.2 hchildren hsubqueries
  · exact fun q hn hclauses hderived => rows_typed_step hD hn.1 hclauses hderived

/-- **The types are sound exactly if every CASE and every COALESCE is of one type**, at any depth. -/
theorem types_iff {expr : Ast.Expr} (hscope : scope.Numbered) (h : bindExpr acc scope expr = .ok e) :
    TypesSound acc scope e ↔ Everywhere Node.below OneType (.expr (placeIn scope) e) := by
  have hrules : Obeys acc (.expr (placeIn scope) e) := (binds_of_bindExpr h).rules ⟨rfl, hscope⟩
  constructor
  · intro hsound
    exact (hrules.and hsound.uniform).mono fun n hn => (uniform_iff hn.1).1 hn.2
  · intro hone
    have huniform := (hrules.and hone).mono fun n hn => (uniform_iff hn.1).2 hn.2
    exact ⟨fun D hD => value_typed hD (hrules.and huniform), huniform⟩

/-! ### A CASE of two types -/

/-- `CASE WHEN FALSE THEN .. ELSE .. END`. -/
def caseFalse (result elseResult : Ast.Literal) : Ast.Expr :=
  .case none [(.literal (.bool false), .literal result)] (some (.literal elseResult))

/-- A reading of a database without rows, in which every operation gives NULL. -/
def noValues : Semantics := { Semantics.plain (fun _ => []) with cast := fun _ _ => .null }

theorem typed_noValues (acc : Accessor) : noValues.Typed acc where
  arith _ _ _ _ := .inl rfl
  neg _ _ := .inl rfl
  cast _ _ := .inl rfl
  total _ _ _ := .inl rfl
  text _ _ _ _ _ := .inl rfl
  length _ _ _ := .inl rfl
  abs _ _ _ _ _ := .inl rfl
  table _ _ _ := nofun

theorem types_caseFalse : ∃ e, bindExpr (oneColumn .i64) .new (caseFalse (.integer 1) (.integer 2)) = .ok e ∧
    (TypesSound (oneColumn .i64) .new e ↔ Everywhere Node.below OneType (.expr (placeIn .new) e)) :=
  ⟨_, rfl, types_iff .new (rfl : bindExpr (oneColumn .i64) .new
    (caseFalse (.integer 1) (.integer 2)) = .ok _)⟩

/-- **A string for an integer**: `CASE WHEN FALSE THEN 1 ELSE 'x' END` is of the type I64. -/
theorem case_string : ¬ ∀ acc scope expr e, scope.Numbered → bindExpr acc scope expr = .ok e →
    TypesSound acc scope e := by
  intro hall
  have hsound := hall (oneColumn .i64) .new (caseFalse (.integer 1) (.string "x")) _ .new rfl
  rcases hsound.value noValues (typed_noValues _) ⟨[], []⟩ ⟨fun _ _ => nofun, nofun⟩ with hnull | htype
  · cases hnull
  · cases htype

end Binder
end Abdb
