/-
# Where NULL can come from

What SQL's rules say of the expressions that may be NULL: a column that may hold NULL, or that an
outer join fills up with NULLs, an operator with an operand that may be NULL, a CASE without ELSE,
a subquery that may have no row.  What they do not allow to be NULL is never NULL, in a database
whose operations give NULL for NULLs only (`neverNull`).
-/

import Abdb.Query.Parts

namespace Abdb

/-- Whether a column may be NULL. -/
inductive Nullness
  /-- It is never NULL. -/
  | never
  /-- It may be NULL, as the table it is from, or the join that brought the table, says. -/
  | marked
  /-- It may be NULL only because of a join that came after its table. -/
  | unmarked
deriving DecidableEq, Repr

/-- A mark for a column that may be NULL or not. -/
def Nullness.of (nullable : Bool) : Nullness := if nullable then .marked else .never

/-- A value fits a mark. -/
def Nullness.Holds (m : Nullness) (v : Value) : Prop := m = .never → v ≠ .null

/-- Marks of columns: those on the left of a join that fills them up are lost. -/
def nullMarking : Marking Nullness where
  Holds := Nullness.Holds
  lost m := if m = .never then .unmarked else m
  padded m := if m = .never then .marked else m
  lost_of {m v} h := by cases m <;> first | exact h | exact nofun
  lost_null m := by cases m <;> exact nofun
  padded_of {m v} h := by cases m <;> first | exact h | exact nofun
  padded_null m := by cases m <;> exact nofun

/-- A SELECT may have no row. -/
def BoundSelect.mayBeEmpty (q : BoundSelect) : Bool :=
  q.having.isSome || q.limit.isSome || q.offset.isSome || !(q.oneGroup ||
    (!grouped q.groupBy q.having q.projections q.orderBy && q.fromClause.isEmpty && q.joins.isEmpty &&
      q.whereClause.isNone))

/-- The marks of columns as they are read on rows or on one group: a group of no rows has NULLs. -/
def readNulls (oneGroup : Bool) (cols : List Nullness) : List Nullness :=
  if oneGroup then cols.map nullMarking.lost else cols

mutual

/-- An expression may be NULL, on rows with columns of these marks. -/
def BoundExpr.mayBeNull (cols : List Nullness) : BoundExpr → Bool
  | ⟨kind, _, _⟩ => kind.mayBeNull cols

def BoundExprKind.mayBeNull (cols : List Nullness) : BoundExprKind → Bool
  | .literal lit => lit = .null
  | .columnRef c => cols.getD c.scopeIndex .unmarked ≠ .never
  | .binaryOp left _ right => left.mayBeNull cols || right.mayBeNull cols
  | .unaryOp _ expr => expr.mayBeNull cols
  | .isNull _ | .isNotNull _ | .existsSubquery _ _ => false
  | .like expr pattern _ => expr.mayBeNull cols || pattern.mayBeNull cols
  | .between expr low high _ => expr.mayBeNull cols || low.mayBeNull cols || high.mayBeNull cols
  | .inList expr list _ => expr.mayBeNull cols || (listMayBeNull cols list).any id
  | .inSubquery expr query _ => expr.mayBeNull cols || query.outputNulls.headD true
  | .subquery query => query.mayBeEmpty || query.outputNulls.headD true
  | .function ⟨_, kind, args, _⟩ =>
    match kind with
    | .count => false
    | .coalesce => (listMayBeNull cols args).all id
    | _ => true
  | .cast expr _ => expr.mayBeNull cols
  | .case _ whenThen elseResult =>
    (optionMayBeNull cols elseResult).getD true || (pairsMayBeNull cols whenThen).any id

def listMayBeNull (cols : List Nullness) : List BoundExpr → List Bool
  | [] => []
  | e :: list => e.mayBeNull cols :: listMayBeNull cols list

def optionMayBeNull (cols : List Nullness) : Option BoundExpr → Option Bool
  | none => none
  | some e => some (e.mayBeNull cols)

/-- The results of a CASE. -/
def pairsMayBeNull (cols : List Nullness) : List (BoundExpr × BoundExpr) → List Bool
  | [] => []
  | (_, t) :: list => t.mayBeNull cols :: pairsMayBeNull cols list

def itemsMayBeNull (cols : List Nullness) : List BoundSelectItem → List Bool
  | [] => []
  | ⟨expr, _⟩ :: items => expr.mayBeNull cols :: itemsMayBeNull cols items

/-- The marks of the columns of a table. -/
def BoundTableRef.nulls : BoundTableRef → List Nullness
  | .baseTable _ columns _ => columns.map fun c => .of c.nullable
  | .subquery query _ => query.outputNulls.map .of

def tablesNulls : List BoundTableRef → List Nullness
  | [] => []
  | t :: tables => t.nulls ++ tablesNulls tables

def joinsNulls : List BoundJoin → List (BoundJoinKind × List Nullness)
  | [] => []
  | ⟨kind, table, _⟩ :: joins => (kind, table.nulls) :: joinsNulls joins

/-- The output columns that may be NULL. -/
def BoundSelect.outputNulls : BoundSelect → List Bool
  | ⟨projections, fromClause, joins, _, groupBy, having, orderBy, _, _, _, _⟩ =>
    itemsMayBeNull (readNulls (groupBy.isEmpty && grouped groupBy having projections orderBy)
      (nullMarking.joins (tablesNulls fromClause) (joinsNulls joins))) projections

end

/-- The marks of the columns at a place. -/
def Placement.columns (p : Placement) : List Nullness :=
  nullMarking.joins (tablesNulls p.tables) (joinsNulls p.joins) ++ (p.condition.map (·.table.nulls)).getD []

/-- The marks of the columns as they are read at a place. -/
def Placement.nulls (p : Placement) : List Nullness := readNulls p.oneGroup p.columns

/-- The operations give NULL for NULLs only. -/
structure Semantics.Strict (D : Semantics) : Prop where
  compare : ∀ {op v w}, v ≠ .null → w ≠ .null → D.compare op v w ≠ none
  arith : ∀ {dataType op v w}, v ≠ .null → w ≠ .null → D.arith dataType op v w ≠ .null
  neg : ∀ {dataType v}, v ≠ .null → D.neg dataType v ≠ .null
  like : ∀ {v w}, v ≠ .null → w ≠ .null → D.like v w ≠ none
  cast : ∀ {dataType v}, v ≠ .null → D.cast dataType v ≠ .null
  truth : ∀ {v}, v ≠ .null → D.truth v ≠ none

section

variable {D : Semantics} {cols : List Nullness} {p : Placement} {e : BoundExpr} {q : BoundSelect}
  {c : Context}
  {v w : Value}

theorem listMayBeNull_eq_map : ∀ list : List BoundExpr, listMayBeNull cols list = list.map (·.mayBeNull cols) := by
  intro list
  induction list with
  | nil => rfl
  | cons e list ih => rw [listMayBeNull, ih, List.map_cons]

theorem optionMayBeNull_eq_map (o : Option BoundExpr) :
    optionMayBeNull cols o = o.map (·.mayBeNull cols) := by
  cases o <;> rfl

theorem pairsMayBeNull_eq_map : ∀ list : List (BoundExpr × BoundExpr),
    pairsMayBeNull cols list = list.map (·.2.mayBeNull cols) := by
  intro list
  induction list with
  | nil => rfl
  | cons pair list ih =>
    obtain ⟨w, t⟩ := pair
    rw [pairsMayBeNull, ih, List.map_cons]

theorem itemsMayBeNull_eq_map : ∀ items : List BoundSelectItem,
    itemsMayBeNull cols items = items.map (·.expr.mayBeNull cols)
  | [] => rfl
  | ⟨expr, _⟩ :: items => by rw [itemsMayBeNull, itemsMayBeNull_eq_map items, List.map_cons]

theorem tablesNulls_eq_flatMap : ∀ tables : List BoundTableRef, tablesNulls tables = tables.flatMap (·.nulls)
  | [] => rfl
  | t :: tables => by rw [tablesNulls, tablesNulls_eq_flatMap tables, List.flatMap_cons]

theorem joinsNulls_eq_map : ∀ joins : List BoundJoin,
    joinsNulls joins = joins.map fun j => (j.kind, j.table.nulls)
  | [] => rfl
  | ⟨_, _, _⟩ :: joins => by rw [joinsNulls, joinsNulls_eq_map joins, List.map_cons]

theorem BoundSelect.outputNulls_eq (q : BoundSelect) :
    q.outputNulls = q.projections.map (·.expr.mayBeNull (q.placement q.oneGroup).nulls) := by
  obtain ⟨projections, fromClause, joins, whereClause, groupBy, having, orderBy, limit, offset, distinct,
    outputColumns⟩ := q
  rw [BoundSelect.outputNulls, itemsMayBeNull_eq_map, Placement.nulls, Placement.columns,
    BoundSelect.placement,
    Option.map_none, Option.getD_none, List.append_nil]
  rfl

/-! ### Truth values -/

theorem Truth.and_ne_none {a b : Truth} (ha : a ≠ none) (hb : b ≠ none) : a.and b ≠ none := by
  rcases a with _ | _ | _ <;> rcases b with _ | _ | _ <;> simp_all [Truth.and]

theorem Truth.or_ne_none {a b : Truth} (ha : a ≠ none) (hb : b ≠ none) : a.or b ≠ none := by
  rcases a with _ | _ | _ <;> rcases b with _ | _ | _ <;> simp_all [Truth.or]

theorem Truth.any_ne_none {l : List Truth} (h : ∀ t ∈ l, t ≠ none) : Truth.any l ≠ none := by
  induction l with
  | nil => exact nofun
  | cons t l ih =>
    rw [List.forall_mem_cons] at h
    exact Truth.or_ne_none h.1 (ih h.2)

theorem Truth.negateIf_ne_none {t : Truth} {negated : Bool} (h : t ≠ none) : t.negateIf negated ≠ none := by
  rcases t with _ | b
  · exact absurd rfl h
  · cases negated <;> exact nofun

theorem Value.ofTruth_ne_null {t : Truth} (h : t ≠ none) : Value.ofTruth t ≠ .null := by
  rcases t with _ | b
  · exact absurd rfl h
  · exact nofun

namespace Semantics.Strict

theorem truthOf (hD : D.Strict) (hv : v ≠ .null) : D.truthOf v ≠ none := by
  cases v with
  | null => exact absurd rfl hv
  | bool b => exact nofun
  | _ => exact hD.truth nofun

theorem comparison (hD : D.Strict) {op : BinaryOp} (hv : v ≠ .null) (hw : w ≠ .null) :
    D.comparison op v w ≠ none := by
  have heq : D.comparison op v w = D.compare op v w := by cases v <;> cases w <;> first | rfl | contradiction
  rw [heq]
  exact hD.compare hv hw

theorem likeOf (hD : D.Strict) (hv : v ≠ .null) (hw : w ≠ .null) : D.likeOf v w ≠ none := by
  have heq : D.likeOf v w = D.like v w := by cases v <;> cases w <;> first | rfl | contradiction
  rw [heq]
  exact hD.like hv hw

theorem binary (hD : D.Strict) {dataType : DataType} {op : BinaryOp} (hv : v ≠ .null) (hw : w ≠ .null) :
    D.binary dataType op v w ≠ .null := by
  cases op with
  | add | sub | mul | div | mod | concat => exact hD.arith hv hw
  | eq | notEq | lt | ltEq | gt | gtEq => exact Value.ofTruth_ne_null (hD.comparison hv hw)
  | and => exact Value.ofTruth_ne_null (Truth.and_ne_none (hD.truthOf hv) (hD.truthOf hw))
  | or => exact Value.ofTruth_ne_null (Truth.or_ne_none (hD.truthOf hv) (hD.truthOf hw))

end Semantics.Strict

theorem Semantics.coalesce_ne_null {vs : List Value} (hv : v ∈ vs) (hne : v ≠ .null) :
    Semantics.coalesce vs ≠ .null := by
  rw [coalesce]
  cases h : vs.find? (· ≠ .null) with
  | none => exact absurd (List.find?_eq_none.1 h v hv) (by simpa using hne)
  | some w => simpa using List.find?_some h

/-! ### Values -/

/-- The columns of a table that are declared so hold no NULL, and a subquery gives a value for each
of its output columns. -/
def Honest (D : Semantics) : BoundTableRef → Prop
  | .baseTable table columns _ => ∀ t ∈ D.table table.oid, ∀ c ∈ columns, c.nullable = false → t c.oid ≠ .null
  | .subquery query _ => query.outputColumns.length = query.projections.length

/-- The tables of a SELECT are honest. -/
def Grounded (D : Semantics) : Node → Prop
  | .expr _ _ => True
  | .select q => ∀ t ∈ q.items, Honest D t

/-- What a statement or an expression says of NULL. -/
def NeverNull (D : Semantics) : Node → Prop
  | .expr p e => e.mayBeNull p.nulls = false →
    ∀ c : Context, c.row.Reads Nullness.Holds p.nulls → e.value D c ≠ .null
  | .select q => ∀ row ∈ q.rows D, row.Has (fun mayBeNull v => mayBeNull = false → v ≠ .null) q.outputNulls

/-- The first column of a subquery. -/
theorem first_ne_null (hq : NeverNull D (.select q)) (hnulls : q.outputNulls.headD true = false) {row : Row}
    (hrow : row ∈ q.rows D) : row.get 0 ≠ .null := by
  have hhas := hq row hrow
  cases houtput : q.outputNulls with
  | nil =>
    rw [houtput] at hnulls
    cases hnulls
  | cons b rest =>
    rw [houtput] at hnulls hhas
    exact hhas.reads 0 b rfl hnulls

/-- A SELECT that cannot be empty has a row. -/
theorem rows_ne_nil (h : q.mayBeEmpty = false) : q.rows D ≠ [] := by
  obtain ⟨projections, fromClause, joins, whereClause, groupBy, having, orderBy, limit, offset, distinct,
    outputColumns⟩ := q
  simp only [BoundSelect.mayBeEmpty, Bool.or_eq_false_iff, Option.isSome_eq_false_iff,
    Option.isNone_iff_eq_none,
    Bool.not_eq_false'] at h
  obtain ⟨⟨⟨rfl, rfl⟩, rfl⟩, hsingle⟩ := h
  rw [BoundSelect.rows]
  refine Semantics.finish_ne_nil ?_
  rw [Ne, List.map_eq_nil_iff, List.filter_eq_nil_iff]
  rcases Bool.or_eq_true_iff.1 hsingle with hone | hnone
  · obtain ⟨hempty, hgrouped⟩ := Bool.and_eq_true_iff.1 hone
    rw [if_pos hempty, hgrouped]
    exact fun h => h _ (List.mem_singleton_self _) rfl
  · simp only [Bool.and_eq_true, Bool.not_eq_true', List.isEmpty_iff, Option.isNone_iff_eq_none] at hnone
    obtain ⟨⟨⟨hgrouped, rfl⟩, rfl⟩, rfl⟩ := hnone
    rw [hgrouped]
    exact fun h => h ⟨[], []⟩ (List.mem_singleton_self _) rfl

/-- **One expression**: it is not NULL if it may not be and what may not be NULL below is not. -/
theorem value_neverNull_step (hD : D.Strict)
    (hchildren : ∀ child ∈ e.children, NeverNull D (.expr (p.inside e) child))
    (hsubqueries : ∀ query ∈ e.subqueries, NeverNull D (.select query)) : NeverNull D (.expr p e) := by
  intro hnulls c hc
  have hchild : p.inside e = p → ∀ {child}, child ∈ e.children → child.mayBeNull p.nulls = false →
      child.value D c ≠ .null := by
    intro hp child hmem hnull
    have hnever := hchildren child hmem
    rw [hp] at hnever
    exact hnever hnull c hc
  obtain ⟨kind, dataType, nullable⟩ := e
  rw [BoundExpr.mayBeNull] at hnulls
  rw [BoundExpr.value]
  cases kind with
  | literal lit =>
    cases lit with
    | null => cases hnulls
    | _ => rintro ⟨⟩
  | columnRef r =>
    have hnever : p.nulls.getD r.scopeIndex .unmarked = .never := by
      simpa [BoundExprKind.mayBeNull] using hnulls
    rw [List.getD_eq_getElem?_getD] at hnever
    cases hcol : p.nulls[r.scopeIndex]? with
    | none =>
      rw [hcol] at hnever
      cases hnever
    | some m =>
      rw [hcol] at hnever
      exact hc _ m hcol hnever
  | binaryOp left op right =>
    obtain ⟨hl, hr⟩ := Bool.or_eq_false_iff.1 hnulls
    exact hD.binary (hchild rfl List.mem_cons_self hl)
      (hchild rfl (List.mem_cons_of_mem _ (List.mem_singleton_self right)) hr)
  | unaryOp op expr =>
    have hexpr := hchild rfl (List.mem_singleton_self expr) hnulls
    cases op with
    | neg => exact hD.neg hexpr
    | not =>
      refine Value.ofTruth_ne_null ?_
      rw [Truth.not, Ne, Option.map_eq_none_iff]
      exact hD.truthOf hexpr
  | isNull expr => rintro ⟨⟩
  | isNotNull expr => rintro ⟨⟩
  | existsSubquery query negated => rintro ⟨⟩
  | like expr pattern negated =>
    obtain ⟨he, hpat⟩ := Bool.or_eq_false_iff.1 hnulls
    exact Value.ofTruth_ne_null (Truth.negateIf_ne_none (hD.likeOf (hchild rfl List.mem_cons_self he)
      (hchild rfl (List.mem_cons_of_mem _ (List.mem_singleton_self pattern)) hpat)))
  | between expr low high negated =>
    obtain ⟨hel, hu⟩ := Bool.or_eq_false_iff.1 hnulls
    obtain ⟨he, hl⟩ := Bool.or_eq_false_iff.1 hel
    have he := hchild rfl List.mem_cons_self he
    have hl := hchild rfl (List.mem_cons_of_mem _ List.mem_cons_self) hl
    have hu := hchild rfl (List.mem_cons_of_mem _ (List.mem_cons_of_mem _ (List.mem_singleton_self high))) hu
    exact Value.ofTruth_ne_null (Truth.negateIf_ne_none
      (Truth.and_ne_none (hD.comparison hl he) (hD.comparison he hu)))
  | inList expr list negated =>
    obtain ⟨he, hl⟩ := Bool.or_eq_false_iff.1 hnulls
    have he := hchild rfl List.mem_cons_self he
    rw [listMayBeNull_eq_map, List.any_map, List.any_eq_false] at hl
    rw [BoundExprKind.value, valueList_eq_map]
    refine Value.ofTruth_ne_null (Truth.negateIf_ne_none (Truth.any_ne_none fun t ht => ?_))
    obtain ⟨v, hv, rfl⟩ := List.mem_map.1 ht
    obtain ⟨e, hmem, rfl⟩ := List.mem_map.1 hv
    exact hD.comparison he (hchild rfl (List.mem_cons_of_mem _ hmem) (Bool.eq_false_iff.2 (hl e hmem)))
  | inSubquery expr query negated =>
    obtain ⟨he, hq⟩ := Bool.or_eq_false_iff.1 hnulls
    have he := hchild rfl (List.mem_singleton_self expr) he
    refine Value.ofTruth_ne_null (Truth.negateIf_ne_none (Truth.any_ne_none fun t ht => ?_))
    obtain ⟨row, hrow, rfl⟩ := List.mem_map.1 ht
    exact hD.comparison he (first_ne_null (hsubqueries query (List.mem_singleton_self query)) hq hrow)
  | subquery query =>
    obtain ⟨hempty, hq⟩ := Bool.or_eq_false_iff.1 hnulls
    rcases value_subquery dataType query c with ⟨row, hrow, heq⟩ | ⟨hnil, -⟩
    · rw [heq]
      exact first_ne_null (hsubqueries query (List.mem_singleton_self query)) hq hrow
    · exact absurd hnil (rows_ne_nil hempty)
  | function f =>
    obtain ⟨name, kind, args, distinct⟩ := f
    rw [BoundExprKind.value]
    cases kind with
    | count => rintro ⟨⟩
    | coalesce =>
      have hargs : ((listMayBeNull p.nulls args).all id) = false := hnulls
      rw [listMayBeNull_eq_map, List.all_map, List.all_eq_false] at hargs
      obtain ⟨e, hmem, he⟩ := hargs
      refine Semantics.coalesce_ne_null ?_ (hchild rfl hmem (Bool.eq_false_iff.2 he))
      rw [valueList_eq_map]
      exact List.mem_map_of_mem hmem
    | _ => cases hnulls
  | cast expr targetType => exact hD.cast (hchild rfl (List.mem_singleton_self expr) hnulls)
  | case operand whenThen elseResult =>
    obtain ⟨helse, hthen⟩ := Bool.or_eq_false_iff.1 hnulls
    rw [optionMayBeNull_eq_map] at helse
    rw [pairsMayBeNull_eq_map, List.any_map, List.any_eq_false] at hthen
    rcases value_case dataType operand whenThen elseResult c with ⟨r, hr, heq⟩ | ⟨rfl, -⟩
    · rw [heq]
      rcases List.mem_append.1 hr with hr | hr
      · obtain ⟨pair, hpair, rfl⟩ := List.mem_map.1 hr
        refine hchild rfl (List.mem_append_left _ (List.mem_append_right _ hr)) ?_
        exact Bool.eq_false_iff.2 (hthen pair hpair)
      · obtain rfl := Option.mem_toList.1 hr
        exact hchild rfl (List.mem_append_right _ hr) helse
    · cases helse

/-! ### Rows -/

/-- The rows of a table fit its marks. -/
theorem fits_nulls {t : BoundTableRef} (ht : Honest D t)
    (hderived : ∀ query, t.derived = some query → NeverNull D (.select query)) :
    nullMarking.Fits D t t.nulls := by
  cases t with
  | baseTable table columns aliasName =>
    rw [BoundTableRef.nulls]
    refine ⟨by rw [List.length_map]; exact (List.length_map _).symm, fun row hrow => ?_⟩
    rw [BoundTableRef.rows] at hrow
    obtain ⟨tuple, htuple, rfl⟩ := List.mem_map.1 hrow
    refine List.forall₂_map_left_iff.2 (List.forall₂_map_right_iff.2
      (List.forall₂_same.2 fun col hcol hnever => ?_))
    refine ht tuple htuple col hcol ?_
    cases hnullable : col.nullable with
    | false => rfl
    | true =>
      rw [hnullable] at hnever
      cases hnever
  | subquery query aliasName =>
    rw [BoundTableRef.nulls]
    refine ⟨?_, fun row hrow => ?_⟩
    · rw [List.length_map, BoundSelect.outputNulls_eq, List.length_map, BoundTableRef.columns,
        List.length_map]
      exact ht.symm
    · rw [BoundTableRef.rows] at hrow
      refine List.forall₂_map_left_iff.2 ((hderived query rfl row hrow).imp fun mayBeNull v h hnever => h ?_)
      cases mayBeNull with
      | false => rfl
      | true => cases hnever

/-- What is read in a row that fits the marks of the columns. -/
theorem reads_nulls {row : Row} (h : row.Has Nullness.Holds p.columns) :
    row.Reads Nullness.Holds p.nulls := by
  rw [Placement.nulls, readNulls]
  split_ifs
  · exact (Marking.has_lost (K := nullMarking) h).reads
  · exact h.reads

/-- What is read in a group of no rows. -/
theorem reads_noRow (hp : p.oneGroup = true) : Row.Reads Nullness.Holds p.nulls [] := by
  intro i m hm
  rw [Placement.nulls, readNulls, if_pos hp, List.getElem?_map, Option.map_eq_some_iff] at hm
  obtain ⟨m, -, rfl⟩ := hm
  exact nullMarking.lost_null m

section

variable (hground : ∀ t ∈ q.items, Honest D t)
  (hderived : ∀ t ∈ q.items, ∀ query, t.derived = some query → NeverNull D (.select query))

include hground hderived

/-- The rows of some tables of a SELECT fit the marks after their joins. -/
theorem has_nulls {before after : List BoundJoin} (hjoins : q.joins = before ++ after) :
    ∀ row ∈ joinRows D before (width q.fromClause) (fromRows D q.fromClause),
      row.Has Nullness.Holds (nullMarking.joins (tablesNulls q.fromClause) (joinsNulls before)) := by
  have hfits : ∀ t ∈ q.items, nullMarking.Fits D t t.nulls := fun t ht =>
    fits_nulls (hground t ht) (hderived t ht)
  have hfrom := Marking.has_fromRows fun t ht => hfits t (List.mem_append_left _ ht)
  have hlen : width q.fromClause = (q.fromClause.flatMap (·.nulls)).length := by
    rw [width, List.length_flatMap]
    refine congrArg List.sum (List.map_congr_left fun t ht => ?_)
    exact (hfits t (List.mem_append_left _ ht)).1.symm
  rw [tablesNulls_eq_flatMap, joinsNulls_eq_map, hlen]
  refine Marking.has_joinRows (fun j hj => hfits j.table
    (List.mem_append_right _ (List.mem_map_of_mem ?_))) hfrom
  rw [hjoins]
  exact List.mem_append_left _ hj

/-- The rows of a query's scope fit the marks of its columns. -/
theorem has_joinedRows {oneGroup : Bool} :
    ∀ row ∈ q.joinedRows D, row.Has Nullness.Holds (q.placement oneGroup).columns := by
  intro row hrow
  have hhas := has_nulls hground hderived (List.append_nil q.joins).symm row hrow
  rw [← List.append_nil (nullMarking.joins _ _)] at hhas
  exact hhas

/-- **One SELECT**: an output column that may not be NULL is not, if the parts keep to what is said
of them. -/
theorem rows_neverNull_step (hclauses : ∀ c ∈ q.clauses, NeverNull D (.expr c.1 c.2)) :
    NeverNull D (.select q) := by
  intro row hrow
  obtain ⟨c, hcrow, -, rfl⟩ := BoundSelect.mem_rows hrow
  have hc : c.row.Reads Nullness.Holds (q.placement q.oneGroup).nulls := by
    rcases hcrow with hmem | ⟨hone, hnil⟩
    · exact reads_nulls (has_joinedRows hground hderived c.row hmem)
    · rw [hone, hnil]
      exact reads_noRow rfl
  rw [BoundSelect.outputNulls_eq]
  refine List.forall₂_map_left_iff.2 (List.forall₂_map_right_iff.2
    (List.forall₂_same.2 fun item hitem hnulls => ?_))
  refine hclauses (q.placement q.oneGroup, item.expr) ?_ hnulls c hc
  refine List.mem_append_right _ (List.mem_map_of_mem (List.mem_append_left _ (List.mem_append_left _ ?_)))
  exact List.mem_map_of_mem hitem

end

/-- **What may not be NULL is never NULL**, in a statement over honest tables. -/
theorem neverNull (hD : D.Strict) {n : Node} (h : Everywhere Node.below (Grounded D) n) : NeverNull D n := by
  refine Node.induct ?_ ?_ h
  · exact fun p e _ hchildren hsubqueries => value_neverNull_step hD hchildren hsubqueries
  · exact fun q hground hclauses hderived => rows_neverNull_step hground hderived hclauses

end
end Abdb
