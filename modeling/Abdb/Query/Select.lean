/-
# The meaning of a bound SELECT

What a bound SELECT is for: the rows it stands for, in SQL's usual reading.  The items of the FROM
clause are put together, each joined table is joined to all that stands before it, WHERE keeps
rows, GROUP BY or an aggregate makes groups of them, HAVING keeps groups, and each row or group
that is left gives a row of the result.

An expression is read on a context: a row, and the rows that its aggregates run over.
-/

import Abdb.Binder.Resolve
import Abdb.Planner.Aggregates
import Abdb.Query.Relation
import Mathlib.Algebra.Order.Ring.Nat

namespace Abdb

/-- The contents of a database, and the meaning of the operations on values.  A subquery has its
rows by `BoundSelect.rows`, so `Scalars.select` is not asked. -/
structure Semantics extends Scalars where
  /-- The tuples of a table. -/
  table : OId → List (OId → Value)
  /-- SUM and AVG, of values that are not NULL, at the type of the result. -/
  total : DataType → FunctionKind → List Value → Value
  /-- The order of ORDER BY, of rows with the values of its keys. -/
  sort : List (Bool × Option Bool) → List (List Value × Row) → List (List Value × Row)
  perm_sort : ∀ keys l, (sort keys l).Perm l
  /-- The number of rows a LIMIT or OFFSET asks for. -/
  count : Value → Option ℕ

/-- A row, and the rows that aggregates run over. -/
structure Context where
  group : List Row
  row : Row

namespace Semantics

variable (D : Semantics)

/-- The first value that is not NULL. -/
def coalesce (vs : List Value) : Value := (vs.find? (· ≠ .null)).getD .null

/-- NULLIF: the first value, unless it is equal to the second. -/
def nullif : List Value → Value
  | [] => .null
  | [v] => v
  | v :: w :: _ => if D.comparison .eq v w = some true then .null else v

/-- A function of the values of its arguments. -/
def apply (name : String) (kind : FunctionKind) (distinct : Bool) (vs : List Value) : Value :=
  match kind with
  | .coalesce => coalesce vs
  | .nullif => D.nullif vs
  | _ => D.call kind name distinct vs

/-- The least value or the greatest, as the comparison says; NULL if there is none. -/
def extreme (op : BinaryOp) : List Value → Value
  | [] => .null
  | v :: vs =>
    if extreme op vs = .null ∨ D.compare op v (extreme op vs) = some true then v else extreme op vs

/-- The values that count in an aggregate: NULLs do not. -/
def counted (distinct : Bool) (vs : List Value) : List Value :=
  if distinct then (vs.filter (· ≠ .null)).dedup else vs.filter (· ≠ .null)

/-- An aggregate of the values of its argument. -/
def aggregate (dataType : DataType) (kind : FunctionKind) (distinct : Bool) (vs : List Value) : Value :=
  match kind with
  | .count => .i64 (Int64.ofNat (counted distinct vs).length)
  | .min => D.extreme .lt (counted distinct vs)
  | .max => D.extreme .gt (counted distinct vs)
  | _ => D.total dataType kind (counted distinct vs)

/-- The rows that LIMIT and OFFSET leave. -/
def window (limit offset : Option Value) (rows : List Row) : List Row :=
  let rest := rows.drop ((offset.bind D.count).getD 0)
  match limit.bind D.count with
  | some n => rest.take n
  | none => rest

/-- The rows of the result, from the rows that the SELECT list makes and the values of the keys of
ORDER BY. -/
def finish (keys : List (Bool × Option Bool)) (distinct : Bool) (limit offset : Option Value)
    (rows : List (List Value × Row)) : List Row :=
  let sorted := (D.sort keys rows).map (·.2)
  D.window limit offset (if distinct then sorted.dedup else sorted)

end Semantics

/-- A reading that knows equality and nothing else, over some tables. -/
def Semantics.plain (table : OId → List (OId → Value)) : Semantics where
  compare op v w := if op = .eq then some (v = w) else none
  arith _ _ _ _ := .null
  neg _ _ := .null
  like _ _ := none
  call _ _ _ _ := .null
  cast _ v := v
  truth _ := none
  select _ := []
  table := table
  total _ _ _ := .null
  sort _ rows := rows
  perm_sort _ rows := .refl rows
  count _ := none

/-- The groups of some rows, which have a key each: one group for every key. -/
def groupsBy (rows : List (List Value × Row)) : List Context :=
  (rows.map (·.1)).dedup.map fun key =>
    let group := (rows.filter (·.1 = key)).map (·.2)
    ⟨group, group.headD []⟩

/-- What the SELECT list of a query is read on: the groups of its rows, all rows as one group, or
the rows themselves. -/
def contexts (grouped : Bool) (key : Option (Row → List Value)) (rows : List Row) : List Context :=
  match grouped, key with
  | false, _ => rows.map (⟨[], ·⟩)
  | true, none => [⟨rows, rows.headD []⟩]
  | true, some key => groupsBy (rows.map fun row => (key row, row))

/-- A query makes groups: it has GROUP BY, HAVING, or an aggregate in its SELECT list or in its
ORDER BY. -/
def grouped (groupBy : List BoundExpr) (having : Option BoundExpr) (projections : List BoundSelectItem)
    (orderBy : List BoundOrderByExpr) : Bool :=
  !groupBy.isEmpty || having.isSome || projections.any (fun p => !p.expr.aggregateCalls.isEmpty) ||
    orderBy.any fun o => !o.expr.aggregateCalls.isEmpty

/-- The columns of several tables. -/
def width (tables : List BoundTableRef) : ℕ := (tables.map (·.columns.length)).sum

mutual

/-- The value of an expression in a context. -/
def BoundExpr.value (D : Semantics) : BoundExpr → Context → Value
  | ⟨kind, dataType, _⟩, c => kind.value D dataType c

/-- The value of an expression of this kind and type in a context. -/
def BoundExprKind.value (D : Semantics) (dataType : DataType) : BoundExprKind → Context → Value
  | .literal lit, _ => .ofLiteral lit
  | .columnRef r, c => c.row.get r.scopeIndex
  | .binaryOp left op right, c => D.binary dataType op (left.value D c) (right.value D c)
  | .unaryOp .neg expr, c => D.neg dataType (expr.value D c)
  | .unaryOp .not expr, c => .ofTruth (D.truthOf (expr.value D c)).not
  | .isNull expr, c => .bool (expr.value D c = .null)
  | .isNotNull expr, c => .bool (expr.value D c ≠ .null)
  | .like expr pattern negated, c =>
    .ofTruth ((D.likeOf (expr.value D c) (pattern.value D c)).negateIf negated)
  | .between expr low high negated, c =>
    .ofTruth (((D.comparison .ltEq (low.value D c) (expr.value D c)).and
      (D.comparison .ltEq (expr.value D c) (high.value D c))).negateIf negated)
  | .inList expr list negated, c =>
    .ofTruth ((Truth.any ((valueList D list c).map (D.comparison .eq (expr.value D c)))).negateIf negated)
  | .inSubquery expr subquery negated, c =>
    .ofTruth ((Truth.any (subquery.rows D |>.map
      fun r => D.comparison .eq (expr.value D c) (r.get 0))).negateIf negated)
  | .existsSubquery subquery negated, _ => .bool (!(subquery.rows D).isEmpty != negated)
  | .subquery query, _ => ((query.rows D).head?.map (·.get 0)).getD .null
  | .function ⟨name, kind, args, distinct⟩, c =>
    if kind.isAggregate then
      D.aggregate dataType kind distinct (c.group.map fun r => (valueList D args ⟨[], r⟩).headD .null)
    else D.apply name kind distinct (valueList D args c)
  | .cast expr targetType, c => D.cast targetType (expr.value D c)
  | .case operand whenThen elseResult, c =>
    Scalars.choose (valuePairs D whenThen (valueOption D operand c) c)
      ((valueOption D elseResult c).getD .null)

def valueList (D : Semantics) : List BoundExpr → Context → List Value
  | [], _ => []
  | e :: list, c => e.value D c :: valueList D list c

def valueOption (D : Semantics) : Option BoundExpr → Context → Option Value
  | none, _ => none
  | some e, c => some (e.value D c)

def valuePairs (D : Semantics) : List (BoundExpr × BoundExpr) → Option Value → Context → List (Truth × Value)
  | [], _, _ => []
  | (w, t) :: list, operand, c => (D.branch operand (w.value D c), t.value D c) :: valuePairs D list operand c

/-- A row of the result. -/
def valueItems (D : Semantics) : List BoundSelectItem → Context → Row
  | [], _ => []
  | ⟨expr, _⟩ :: items, c => expr.value D c :: valueItems D items c

/-- The values of the keys of ORDER BY. -/
def valueKeys (D : Semantics) : List BoundOrderByExpr → Context → List Value
  | [], _ => []
  | ⟨expr, _, _⟩ :: keys, c => expr.value D c :: valueKeys D keys c

/-- A row or a group passes a clause, if there is one. -/
def passesOption (D : Semantics) : Option BoundExpr → Context → Bool
  | none, _ => true
  | some e, c => D.truthOf (e.value D c) = some true

/-- The rows of a table, or of a subquery in its place. -/
def BoundTableRef.rows (D : Semantics) : BoundTableRef → List Row
  | .baseTable table columns _ => (D.table table.oid).map fun t => columns.map (t ·.oid)
  | .subquery query _ => query.rows D

/-- The items of a FROM clause, put together. -/
def fromRows (D : Semantics) : List BoundTableRef → List Row
  | [] => [[]]
  | t :: ts => (t.rows D).flatMap fun row => (fromRows D ts).map (row ++ ·)

/-- A joined row passes a condition. -/
def BoundJoinCondition.passes (D : Semantics) : BoundJoinCondition → Row → Bool
  | .on expr, row => D.truthOf (expr.value D ⟨[], row⟩) = some true
  | .using exprs, row => (valueList D exprs ⟨[], row⟩).all (D.truthOf · = some true)
  | .natural exprs, row => (valueList D exprs ⟨[], row⟩).all (D.truthOf · = some true)
  | .none, _ => true

/-- Tables joined to rows of `n` columns, one after the other. -/
def joinRows (D : Semantics) : List BoundJoin → ℕ → List Row → List Row
  | [], _, rows => rows
  | ⟨kind, table, condition⟩ :: joins, n, rows =>
    joinRows D joins (n + table.columns.length)
      (kind.joined.rows (fun l r => condition.passes D (l ++ r)) (· ++ ·)
        (· ++ Row.nulls table.columns.length) (Row.nulls n ++ ·) rows (table.rows D))

/-- The rows a SELECT stands for. -/
def BoundSelect.rows (D : Semantics) : BoundSelect → List Row
  | ⟨projections, fromClause, joins, whereClause, groupBy, having, orderBy, limit, offset, distinct, _⟩ =>
    let kept := (joinRows D joins (width fromClause) (fromRows D fromClause)).filter
      fun row => passesOption D whereClause ⟨[], row⟩
    let key := if groupBy.isEmpty then none else some fun row => valueList D groupBy ⟨[], row⟩
    let chosen := (contexts (grouped groupBy having projections orderBy) key kept).filter
      (passesOption D having)
    D.finish (orderBy.map fun o => (o.asc, o.nullsFirst)) distinct (valueOption D limit ⟨[], []⟩)
      (valueOption D offset ⟨[], []⟩) 
      (chosen.map fun c => (valueKeys D orderBy c, valueItems D projections c))

end

/-- The rows of a query's scope. -/
def BoundSelect.joinedRows (D : Semantics) (q : BoundSelect) : List Row :=
  joinRows D q.joins (width q.fromClause) (fromRows D q.fromClause)

/-- The rows of a query make one group. -/
def BoundSelect.oneGroup (q : BoundSelect) : Bool :=
  q.groupBy.isEmpty && grouped q.groupBy q.having q.projections q.orderBy

section

variable {D : Semantics}

theorem valueList_eq_map (c : Context) : ∀ list : List BoundExpr, valueList D list c = list.map (·.value D c) := by
  intro list
  induction list with
  | nil => rfl
  | cons e list ih => rw [valueList, ih, List.map_cons]

theorem valueOption_eq_map (c : Context) (o : Option BoundExpr) :
    valueOption D o c = o.map (·.value D c) := by
  cases o <;> rfl

theorem valuePairs_eq_map (operand : Option Value) (c : Context) : ∀ list : List (BoundExpr × BoundExpr),
    valuePairs D list operand c = list.map fun p => (D.branch operand (p.1.value D c), p.2.value D c) := by
  intro list
  induction list with
  | nil => rfl
  | cons pair list ih =>
    obtain ⟨w, t⟩ := pair
    rw [valuePairs, ih, List.map_cons]

theorem valueItems_eq_map (c : Context) : ∀ items : List BoundSelectItem,
    valueItems D items c = items.map (·.expr.value D c)
  | [] => rfl
  | ⟨expr, _⟩ :: items => by rw [valueItems, valueItems_eq_map c items, List.map_cons]

/-- CASE has the value of one of its results, or of its ELSE. -/
theorem Scalars.choose_mem : ∀ (l : List (Truth × Value)) (v : Value),
    Scalars.choose l v = v ∨ ∃ tv ∈ l, Scalars.choose l v = tv.2
  | [], v => .inl rfl
  | (t, w) :: l, v => by
    rw [Scalars.choose]
    split_ifs
    · exact .inr ⟨(t, w), List.mem_cons_self, rfl⟩
    · rcases choose_mem l v with h | ⟨tv, htv, h⟩
      · exact .inl h
      · exact .inr ⟨tv, List.mem_cons_of_mem _ htv, h⟩

/-- CASE has the value of one of its results, or it is NULL for want of an ELSE. -/
theorem value_case (dataType : DataType) (operand : Option BoundExpr) (whenThen : List (BoundExpr × BoundExpr))
    (elseResult : Option BoundExpr) (c : Context) :
    (∃ r ∈ whenThen.map (·.2) ++ elseResult.toList,
      (BoundExprKind.case operand whenThen elseResult).value D dataType c = r.value D c) ∨
    elseResult = none ∧ (BoundExprKind.case operand whenThen elseResult).value D dataType c = .null := by
  rw [BoundExprKind.value, valuePairs_eq_map, valueOption_eq_map, valueOption_eq_map]
  rcases Scalars.choose_mem (whenThen.map fun pair =>
    (D.branch (operand.map (·.value D c)) (pair.1.value D c), pair.2.value D c))
    ((elseResult.map (·.value D c)).getD .null) with h | ⟨tv, htv, h⟩
  · rw [h]
    cases elseResult with
    | none => exact .inr ⟨rfl, rfl⟩
    | some r => exact .inl ⟨r, List.mem_append_right _ (List.mem_singleton_self r), rfl⟩
  · obtain ⟨pair, hpair, rfl⟩ := List.mem_map.1 htv
    exact .inl ⟨pair.2, List.mem_append_left _ (List.mem_map_of_mem hpair), h⟩

/-- A scalar subquery has the first value of a row, or it is NULL for want of one. -/
theorem value_subquery (dataType : DataType) (query : BoundSelect) (c : Context) :
    (∃ row ∈ query.rows D, (BoundExprKind.subquery query).value D dataType c = row.get 0) ∨
    query.rows D = [] ∧ (BoundExprKind.subquery query).value D dataType c = .null := by
  rw [BoundExprKind.value]
  cases hrows : query.rows D with
  | nil => exact .inr ⟨rfl, rfl⟩
  | cons row rows => exact .inl ⟨row, List.mem_cons_self, rfl⟩

/-! ### Groups and the order -/

theorem Semantics.mem_finish {keys : List (Bool × Option Bool)} {distinct : Bool}
    {limit offset : Option Value}
    {rows : List (List Value × Row)} {row : Row} (h : row ∈ D.finish keys distinct limit offset rows) :
    ∃ k, (k, row) ∈ rows := by
  have hsorted : row ∈ (D.sort keys rows).map (·.2) := by
    have hwindow : row ∈
        if distinct then ((D.sort keys rows).map (·.2)).dedup else (D.sort keys rows).map (·.2) := by
      rw [finish, window] at h
      split at h
      · exact List.mem_of_mem_drop (List.mem_of_mem_take h)
      · exact List.mem_of_mem_drop h
    split_ifs at hwindow
    · exact List.mem_dedup.1 hwindow
    · exact hwindow
  obtain ⟨⟨k, _⟩, hk, rfl⟩ := List.mem_map.1 hsorted
  exact ⟨k, (D.perm_sort keys rows).mem_iff.1 hk⟩

/-- Without LIMIT and OFFSET there is a row if there was one. -/
theorem Semantics.finish_ne_nil {keys : List (Bool × Option Bool)} {distinct : Bool}
    {rows : List (List Value × Row)}
    (hne : rows ≠ []) : D.finish keys distinct none none rows ≠ [] := by
  have hsorted : (D.sort keys rows).map (·.2) ≠ [] := by
    rw [Ne, List.map_eq_nil_iff]
    intro hnil
    exact hne ((hnil ▸ D.perm_sort keys rows).nil_eq.symm)
  show (if distinct then ((D.sort keys rows).map (·.2)).dedup else (D.sort keys rows).map (·.2)) ≠ []
  split_ifs
  · exact fun hnil => hsorted ((List.dedup_eq_nil _).1 hnil)
  · exact hsorted

/-- A context has rows of the list, but the one group of no rows has none. -/
theorem mem_contexts {grouped : Bool} {key : Option (Row → List Value)} {rows : List Row} {c : Context}
    (h : c ∈ contexts grouped key rows) :
    (c.row ∈ rows ∨ grouped = true ∧ key = none ∧ c.row = []) ∧ ∀ row ∈ c.group, row ∈ rows := by
  cases grouped with
  | false =>
    obtain ⟨row, hrow, rfl⟩ := List.mem_map.1 h
    exact ⟨.inl hrow, nofun⟩
  | true =>
    cases key with
    | none =>
      obtain rfl := List.mem_singleton.1 h
      refine ⟨?_, fun _ => id⟩
      cases rows with
      | nil => exact .inr ⟨rfl, rfl, rfl⟩
      | cons row rows => exact .inl List.mem_cons_self
    | some key =>
      obtain ⟨k, hk, rfl⟩ := List.mem_map.1 h
      set group := ((rows.map fun row => (key row, row)).filter (·.1 = k)).map (·.2) with hgroup
      have hsub : ∀ row ∈ group, row ∈ rows := by
        intro row hrow
        obtain ⟨_, hpair, rfl⟩ := List.mem_map.1 hrow
        obtain ⟨row, hmem, rfl⟩ := List.mem_map.1 (List.mem_filter.1 hpair).1
        exact hmem
      refine ⟨.inl (hsub _ ?_), hsub⟩
      -- A key is the key of some row, so its group has a row.
      obtain ⟨_, hpair, rfl⟩ := List.mem_map.1 (List.mem_dedup.1 hk)
      have hne : group ≠ [] := List.ne_nil_of_mem (List.mem_map_of_mem (List.mem_filter.2 ⟨hpair, by simp⟩))
      show group.headD [] ∈ group
      cases hcases : group with
      | nil => exact absurd hcases hne
      | cons row rest => exact List.mem_cons_self

/-- **What a row of a SELECT is made of.** -/
theorem BoundSelect.mem_rows {q : BoundSelect} {row : Row} (h : row ∈ q.rows D) :
    ∃ c : Context, (c.row ∈ q.joinedRows D ∨ q.oneGroup = true ∧ c.row = []) ∧
      (∀ r ∈ c.group, r ∈ q.joinedRows D) ∧ row = q.projections.map (·.expr.value D c) := by
  obtain ⟨projections, fromClause, joins, whereClause, groupBy, having, orderBy, limit, offset, distinct,
    outputColumns⟩ := q
  rw [BoundSelect.rows] at h
  obtain ⟨k, hk⟩ := Semantics.mem_finish h
  obtain ⟨c, hc, heq⟩ := List.mem_map.1 hk
  obtain rfl := (Prod.mk.inj heq).2
  obtain ⟨hrow, hgroup⟩ := mem_contexts (List.mem_filter.1 hc).1
  refine ⟨c, ?_, fun r hr => (List.mem_filter.1 (hgroup r hr)).1, valueItems_eq_map c projections⟩
  rcases hrow with hrow | ⟨hgrouped, hkey, hrow⟩
  · exact .inl (List.mem_filter.1 hrow).1
  · refine .inr ⟨?_, hrow⟩
    rw [BoundSelect.oneGroup, Bool.and_eq_true]
    refine ⟨?_, hgrouped⟩
    by_contra hne
    rw [if_neg hne] at hkey
    cases hkey

theorem Semantics.extreme_mem (op : BinaryOp) : ∀ vs : List Value,
    D.extreme op vs = .null ∨ D.extreme op vs ∈ vs
  | [] => .inl rfl
  | v :: vs => by
    rw [extreme]
    split_ifs
    · exact .inr List.mem_cons_self
    · exact (extreme_mem op vs).imp id (List.mem_cons_of_mem v)

theorem Semantics.mem_of_mem_counted {distinct : Bool} {vs : List Value} {v : Value}
    (h : v ∈ Semantics.counted distinct vs) : v ∈ vs := by
  rw [counted] at h
  split_ifs at h
  · exact (List.mem_filter.1 (List.mem_dedup.1 h)).1
  · exact (List.mem_filter.1 h).1

/-! ### Columns -/

variable {M : Type}

/-- A row has values that fit the marks of its columns. -/
def Row.Has (P : M → Value → Prop) (marks : List M) (row : Row) : Prop := List.Forall₂ P marks row

/-- The values that are read in a row fit the marks of the columns. -/
def Row.Reads (P : M → Value → Prop) (marks : List M) (row : Row) : Prop :=
  ∀ (i : ℕ) (m : M), marks[i]? = some m → P m (row.get i)

variable {P : M → Value → Prop} {ms ns : List M} {row row' : Row}

theorem Row.Has.reads (h : row.Has P ms) : row.Reads P ms := by
  intro i m hm
  obtain ⟨hi, rfl⟩ := List.getElem?_eq_some_iff.1 hm
  have hi' : i < row.length := h.length_eq ▸ hi
  rw [Row.get, List.getD_eq_getElem?_getD, List.getElem?_eq_getElem hi']
  exact h.get hi hi'

theorem Row.Has.append (h : row.Has P ms) (h' : row'.Has P ns) : (row ++ row').Has P (ms ++ ns) :=
  List.rel_append h h'

theorem Row.Has.nulls : ∀ {ms : List M}, (∀ m ∈ ms, P m .null) → (Row.nulls ms.length).Has P ms
  | [], _ => .nil
  | _ :: _, h => .cons (h _ List.mem_cons_self) (Row.Has.nulls fun m hm => h m (List.mem_cons_of_mem _ hm))

/-- What is known of the columns of a table, and what an outer join makes of it. -/
structure Marking (M : Type) where
  /-- A value fits a mark. -/
  Holds : M → Value → Prop
  /-- The mark of a column on the left of a join that keeps rows on its right. -/
  lost : M → M
  /-- The mark of a column on the right of a join that keeps rows on its left. -/
  padded : M → M
  lost_of : ∀ {m v}, Holds m v → Holds (lost m) v
  lost_null : ∀ m, Holds (lost m) .null
  padded_of : ∀ {m v}, Holds m v → Holds (padded m) v
  padded_null : ∀ m, Holds (padded m) .null

namespace Marking

variable (K : Marking M)

/-- The marks of the columns of a join. -/
def join (kind : BoundJoinKind) (ms ns : List M) : List M :=
  match kind with
  | .inner | .cross => ms ++ ns
  | .leftOuter => ms ++ ns.map K.padded
  | .rightOuter => ms.map K.lost ++ ns
  | .fullOuter => ms.map K.lost ++ ns.map K.padded

/-- The marks after joins, from those of the tables. -/
def joins (ms : List M) (tables : List (BoundJoinKind × List M)) : List M :=
  tables.foldl (fun ms t => K.join t.1 ms t.2) ms

variable {K} {kind : BoundJoinKind} {match_ : Row → Row → Bool} {l r : List Row}

theorem has_lost (h : row.Has K.Holds ms) : row.Has K.Holds (ms.map K.lost) :=
  List.forall₂_map_left_iff.2 (h.imp fun _ _ => K.lost_of)

theorem has_padded (h : row.Has K.Holds ms) : row.Has K.Holds (ms.map K.padded) :=
  List.forall₂_map_left_iff.2 (h.imp fun _ _ => K.padded_of)

theorem nulls_lost (ms : List M) : (Row.nulls ms.length).Has K.Holds (ms.map K.lost) := by
  have hlen : (ms.map K.lost).length = ms.length := List.length_map _
  rw [← hlen]
  refine .nulls fun m hm => ?_
  obtain ⟨m, -, rfl⟩ := List.mem_map.1 hm
  exact K.lost_null m

theorem nulls_padded (ms : List M) : (Row.nulls ms.length).Has K.Holds (ms.map K.padded) := by
  have hlen : (ms.map K.padded).length = ms.length := List.length_map _
  rw [← hlen]
  refine .nulls fun m hm => ?_
  obtain ⟨m, -, rfl⟩ := List.mem_map.1 hm
  exact K.padded_null m

/-- **The rows of a join fit its marks.** -/
theorem has_join (hl : ∀ row ∈ l, row.Has K.Holds ms) (hr : ∀ row ∈ r, row.Has K.Holds ns)
    (h : row ∈ kind.joined.rows match_ (· ++ ·) (· ++ Row.nulls ns.length) (Row.nulls ms.length ++ ·) l r) :
    row.Has K.Holds (K.join kind ms ns) := by
  rcases Joined.mem_rows h with ⟨a, ha, b, hb, rfl⟩ | ⟨hkind, a, ha, rfl⟩ | ⟨hkind, b, hb, rfl⟩
  · cases kind with
    | inner => exact (hl a ha).append (hr b hb)
    | cross => exact (hl a ha).append (hr b hb)
    | leftOuter => exact (hl a ha).append (has_padded (hr b hb))
    | rightOuter => exact (has_lost (hl a ha)).append (hr b hb)
    | fullOuter => exact (has_lost (hl a ha)).append (has_padded (hr b hb))
  · cases kind with
    | leftOuter => exact (hl a ha).append (nulls_padded ns)
    | fullOuter => exact (has_lost (hl a ha)).append (nulls_padded ns)
    | _ => exact absurd trivial hkind
  · cases kind with
    | rightOuter => exact (nulls_lost ms).append (hr b hb)
    | fullOuter => exact (nulls_lost ms).append (has_padded (hr b hb))
    | _ => exact absurd trivial hkind

theorem length_join : (K.join kind ms ns).length = ms.length + ns.length := by
  cases kind <;> simp [join]

/-- The rows of a table fit some marks, as many as it has columns. -/
def Fits (K : Marking M) (D : Semantics) (t : BoundTableRef) (ms : List M) : Prop :=
  ms.length = t.columns.length ∧ ∀ row ∈ t.rows D, row.Has K.Holds ms

/-- **The rows of a FROM clause fit the marks of its tables.** -/
theorem has_fromRows {marks : BoundTableRef → List M} : ∀ {tables : List BoundTableRef},
    (∀ t ∈ tables, K.Fits D t (marks t)) → ∀ row ∈ fromRows D tables, row.Has K.Holds (tables.flatMap marks)
  | [], _, row, hrow => by
    rw [fromRows] at hrow
    rw [List.mem_singleton.1 hrow]
    exact .nil
  | t :: tables, h, row, hrow => by
    rw [fromRows] at hrow
    obtain ⟨left, hleft, hrow⟩ := List.mem_flatMap.1 hrow
    obtain ⟨right, hright, rfl⟩ := List.mem_map.1 hrow
    rw [List.flatMap_cons]
    exact ((h t List.mem_cons_self).2 left hleft).append
      (has_fromRows (fun t ht => h t (List.mem_cons_of_mem _ ht)) right hright)

/-- **The rows of joins fit the marks after them.** -/
theorem has_joinRows {marks : BoundTableRef → List M} :
    ∀ {joins : List BoundJoin} {ms : List M} {rows : List Row},
    (∀ j ∈ joins, K.Fits D j.table (marks j.table)) → (∀ row ∈ rows, row.Has K.Holds ms) →
      ∀ row ∈ joinRows D joins ms.length rows,
        row.Has K.Holds (K.joins ms (joins.map fun j => (j.kind, marks j.table)))
  | [], ms, rows, _, hrows, row, hrow => by
    rw [joinRows] at hrow
    exact hrows row hrow
  | ⟨kind, table, condition⟩ :: joins, ms, rows, h, hrows, row, hrow => by
    obtain ⟨hlen, htable⟩ := h _ List.mem_cons_self
    have hlen' : (K.join kind ms (marks table)).length = ms.length + (marks table).length := length_join
    rw [joinRows, ← hlen, ← hlen'] at hrow
    exact has_joinRows (fun j hj => h j (List.mem_cons_of_mem _ hj))
      (fun row => has_join hrows htable) row hrow

end Marking

end
end Abdb
