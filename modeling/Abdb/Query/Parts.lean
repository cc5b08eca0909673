/-
# The parts of a statement

A bound statement as a tree: the expressions of its clauses with their parts, and its subqueries
with theirs.  Every expression stands at a place, which says what its names mean and which rows it
is read on.
-/

import Abdb.Lib.Parts
import Abdb.Query.Select

namespace Abdb

/-- A join adds columns that may be NULL, as `bind_select` marks them. -/
def BoundJoinKind.isOuter : BoundJoinKind → Bool
  | .leftOuter | .rightOuter | .fullOuter => true
  | .inner | .cross => false

/-- The scope after the items of a FROM clause. -/
def scopeFrom (scope : Scope) (tables : List BoundTableRef) : Scope :=
  tables.foldl (fun scope t => Binder.addTableRefToScope t scope false) scope

/-- The scope after joined tables. -/
def scopeJoins (scope : Scope) (joins : List BoundJoin) : Scope :=
  joins.foldl (fun scope j => Binder.addTableRefToScope j.table scope j.kind.isOuter) scope

/-- Where an expression of a SELECT stands. -/
structure Placement where
  /-- The scope of its names. -/
  scope : Scope
  /-- The items of the FROM clause. -/
  tables : List BoundTableRef
  /-- The joins before it. -/
  joins : List BoundJoin
  /-- The join whose condition it is in. -/
  condition : Option BoundJoin
  /-- It is read on all rows as one group. -/
  oneGroup : Bool

/-- A statement or an expression at its place. -/
inductive Node
  | expr (p : Placement) (e : BoundExpr)
  | select (q : BoundSelect)

/-- The expressions right below an expression. -/
def BoundExpr.children (e : BoundExpr) : List BoundExpr :=
  match e.kind with
  | .literal _ | .columnRef _ | .existsSubquery _ _ | .subquery _ => []
  | .binaryOp left _ right => [left, right]
  | .unaryOp _ expr | .isNull expr | .isNotNull expr | .inSubquery expr _ _ | .cast expr _ => [expr]
  | .like expr pattern _ => [expr, pattern]
  | .between expr low high _ => [expr, low, high]
  | .inList expr list _ => expr :: list
  | .function f => f.args
  | .case operand whenThen elseResult =>
    operand.toList ++ whenThen.map (·.1) ++ whenThen.map (·.2) ++ elseResult.toList

/-- The place of the parts of an expression: the arguments of an aggregate are read on rows. -/
def Placement.inside (p : Placement) (e : BoundExpr) : Placement :=
  match e.kind with
  | .function f => if f.kind.isAggregate then { p with oneGroup := false } else p
  | _ => p

/-- The subqueries right below an expression. -/
def BoundExpr.subqueries (e : BoundExpr) : List BoundSelect :=
  match e.kind with
  | .inSubquery _ query _ | .existsSubquery query _ | .subquery query => [query]
  | _ => []

/-- The subquery in the place of a table. -/
def BoundTableRef.derived : BoundTableRef → Option BoundSelect
  | .baseTable _ _ _ => none
  | .subquery query _ => some query

/-- The place of the condition of a join, after tables and other joins. -/
def conditionPlacement (tables : List BoundTableRef) (before : List BoundJoin) (j : BoundJoin) : Placement :=
  ⟨scopeJoins (scopeFrom .new tables) (before ++ [j]), tables, before, some j, false⟩

/-- The conditions of joins, which stand after tables and other joins. -/
def conditionClauses (tables : List BoundTableRef) : List BoundJoin → List BoundJoin →
    List (Placement × BoundExpr)
  | _, [] => []
  | before, j :: joins =>
    j.condition.exprs.map (conditionPlacement tables before j, ·) ++
      conditionClauses tables (before ++ [j]) joins

namespace BoundSelect

/-- The place of the clauses that are read on rows or on groups. -/
def placement (q : BoundSelect) (oneGroup : Bool) : Placement :=
  ⟨scopeJoins (scopeFrom .new q.fromClause) q.joins, q.fromClause, q.joins, none, oneGroup⟩

/-- The expressions of the clauses of a SELECT, with their places. -/
def clauses (q : BoundSelect) : List (Placement × BoundExpr) :=
  conditionClauses q.fromClause [] q.joins ++
    (q.whereClause.toList ++ q.groupBy ++ q.limit.toList ++ q.offset.toList).map (q.placement false, ·) ++
    (q.projections.map (·.expr) ++ q.having.toList ++ q.orderBy.map (·.expr)).map (q.placement q.oneGroup, ·)

end BoundSelect

namespace Node

/-- The parts right below a statement or an expression. -/
def below : Node → List Node
  | .expr p e => e.children.map (.expr (p.inside e)) ++ e.subqueries.map .select
  | .select q => q.clauses.map (fun c => .expr c.1 c.2) ++ (q.items.filterMap (·.derived)).map .select

/-- The size of a tree. -/
noncomputable def size : Node → ℕ
  | .expr _ e => sizeOf e
  | .select q => sizeOf q

end Node

theorem scopeJoins_concat (scope : Scope) (before : List BoundJoin) (j : BoundJoin) :
    scopeJoins scope (before ++ [j]) =
    Binder.addTableRefToScope j.table (scopeJoins scope before) j.kind.isOuter := by
  rw [scopeJoins, List.foldl_append]
  rfl

/-- The parts of an expression stand at its place, but for the group they are read on. -/
theorem Placement.inside_iff {P : Placement → Prop} {p : Placement} (hP : P { p with oneGroup := false } ↔ P p)
    (e : BoundExpr) : P (p.inside e) ↔ P p := by
  rw [inside]
  split
  · split_ifs
    · exact hP
    · rfl
  · rfl

namespace Node

/-- What holds of the parts right below an expression. -/
theorem forall_below_expr {M : Node → Prop} {p : Placement} {e : BoundExpr} :
    (∀ part ∈ (expr p e).below, M part) ↔ (∀ child ∈ e.children, M (.expr (p.inside e) child)) ∧
      ∀ query ∈ e.subqueries, M (.select query) := by
  rw [below, List.forall_mem_append, List.forall_mem_map, List.forall_mem_map]

/-- What holds of the parts right below a statement. -/
theorem forall_below_select {M : Node → Prop} {q : BoundSelect} :
    (∀ part ∈ (select q).below, M part) ↔ (∀ c ∈ q.clauses, M (.expr c.1 c.2)) ∧
      ∀ t ∈ q.items, ∀ query, t.derived = some query → M (.select query) := by
  rw [below, List.forall_mem_append, List.forall_mem_map, List.forall_mem_map]
  refine and_congr_right' ⟨fun h t ht query hquery => ?_, fun h query hquery => ?_⟩
  · exact h query (List.mem_filterMap.2 ⟨t, ht, hquery⟩)
  · obtain ⟨t, ht, hderived⟩ := List.mem_filterMap.1 hquery
    exact h t ht query hderived

end Node

/-! ### Parts are smaller -/

theorem BoundExpr.sizeOf_children {e child : BoundExpr} (h : child ∈ e.children) :
    sizeOf child < sizeOf e := by
  obtain ⟨kind, dataType, nullable⟩ := e
  cases kind with
  | literal | columnRef | existsSubquery | subquery => cases h
  | binaryOp left op right =>
    simp only [children, List.mem_cons, List.not_mem_nil, or_false] at h
    rcases h with rfl | rfl <;> simp <;> omega
  | unaryOp op expr =>
    rw [List.mem_singleton.1 h]
    simp
    omega
  | isNull expr | isNotNull expr =>
    rw [List.mem_singleton.1 h]
    simp
    omega
  | inSubquery expr query negated =>
    rw [List.mem_singleton.1 h]
    simp
    omega
  | cast expr targetType =>
    rw [List.mem_singleton.1 h]
    simp
    omega
  | like expr pattern negated =>
    simp only [children, List.mem_cons, List.not_mem_nil, or_false] at h
    rcases h with rfl | rfl <;> simp <;> omega
  | between expr low high negated =>
    simp only [children, List.mem_cons, List.not_mem_nil, or_false] at h
    rcases h with rfl | rfl | rfl <;> simp <;> omega
  | inList expr list negated =>
    rcases List.mem_cons.1 h with rfl | h
    · simp
      omega
    · have := List.sizeOf_lt_of_mem h
      simp
      omega
  | function f =>
    obtain ⟨name, kind, args, distinct⟩ := f
    have : sizeOf child < sizeOf args := List.sizeOf_lt_of_mem h
    simp
    omega
  | case operand whenThen elseResult =>
    simp only [children, List.mem_append, List.mem_map, Option.mem_toList] at h
    rcases h with ((rfl | ⟨⟨w, t⟩, hmem, rfl⟩) | ⟨⟨w, t⟩, hmem, rfl⟩) | rfl
    · simp
      omega
    · have := List.sizeOf_lt_of_mem hmem
      simp at this ⊢
      omega
    · have := List.sizeOf_lt_of_mem hmem
      simp at this ⊢
      omega
    · simp
      omega

theorem BoundExpr.sizeOf_subqueries {e : BoundExpr} {query : BoundSelect} (h : query ∈ e.subqueries) :
    sizeOf query < sizeOf e := by
  obtain ⟨kind, dataType, nullable⟩ := e
  cases kind with
  | inSubquery expr subquery negated =>
    rw [List.mem_singleton.1 h]
    simp
    omega
  | existsSubquery subquery negated =>
    rw [List.mem_singleton.1 h]
    simp
    omega
  | subquery subquery =>
    rw [List.mem_singleton.1 h]
    simp
    omega
  | _ => cases h

theorem BoundJoinCondition.sizeOf_exprs {condition : BoundJoinCondition} {e : BoundExpr}
    (h : e ∈ condition.exprs) :
    sizeOf e < sizeOf condition := by
  cases condition with
  | on expr =>
    rw [List.mem_singleton.1 h]
    simp
  | «using» exprs | natural exprs =>
    have : sizeOf e < sizeOf exprs := List.sizeOf_lt_of_mem h
    simp
    omega
  | none => cases h

/-- The conditions of some joins, each with its place. -/
theorem mem_conditionClauses {tables : List BoundTableRef} {c : Placement × BoundExpr} :
    ∀ {before joins : List BoundJoin},
    c ∈ conditionClauses tables before joins ↔ ∃ before' j after, joins = before' ++ j :: after ∧
      c.2 ∈ j.condition.exprs ∧ c.1 = conditionPlacement tables (before ++ before') j
  | before, [] => by
    refine iff_of_false List.not_mem_nil ?_
    rintro ⟨before', j, after, heq, -⟩
    exact List.append_ne_nil_of_right_ne_nil _ (List.cons_ne_nil _ _) heq.symm
  | before, j :: joins => by
    rw [conditionClauses, List.mem_append, mem_conditionClauses, List.mem_map]
    constructor
    · rintro (⟨e, he, rfl⟩ | ⟨before', j', after, rfl, he, hp⟩)
      · exact ⟨[], j, joins, rfl, he, by rw [List.append_nil]⟩
      · exact ⟨j :: before', j', after, rfl, he, by rw [hp, List.append_assoc, List.singleton_append]⟩
    · rintro ⟨before', j', after, heq, he, hp⟩
      cases before' with
      | nil =>
        cases heq
        rw [List.append_nil] at hp
        exact .inl ⟨c.2, he, by rw [← hp]⟩
      | cons j'' before' =>
        cases heq
        exact .inr ⟨before', j', after, rfl, he, by rw [hp, List.append_assoc, List.singleton_append]⟩

namespace BoundSelect

theorem sizeOf_clauses {q : BoundSelect} {c : Placement × BoundExpr} (h : c ∈ q.clauses) :
    sizeOf c.2 < sizeOf q := by
  obtain ⟨projections, fromClause, joins, whereClause, groupBy, having, orderBy, limit, offset, distinct,
    outputColumns⟩ := q
  simp only [clauses, List.mem_append, mem_conditionClauses, List.mem_map, Option.mem_toList] at h
  rcases h with (⟨before, j, after, rfl, he, -⟩ | ⟨e, ((rfl | he) | rfl) | rfl, rfl⟩) |
    ⟨e, (⟨p, hp, rfl⟩ | rfl) | ⟨o, ho, rfl⟩, rfl⟩
  · have hexpr := BoundJoinCondition.sizeOf_exprs he
    have hjoin : sizeOf j < sizeOf (before ++ j :: after) := List.sizeOf_lt_of_mem (by simp)
    obtain ⟨kind, table, condition⟩ := j
    simp at hexpr hjoin ⊢
    omega
  · simp
    omega
  · have : sizeOf e < sizeOf groupBy := List.sizeOf_lt_of_mem he
    simp
    omega
  · simp
    omega
  · simp
    omega
  · have hitem : sizeOf p < sizeOf projections := List.sizeOf_lt_of_mem hp
    obtain ⟨expr, aliasName⟩ := p
    simp at hitem ⊢
    omega
  · simp
    omega
  · have hkey : sizeOf o < sizeOf orderBy := List.sizeOf_lt_of_mem ho
    obtain ⟨expr, asc, nullsFirst⟩ := o
    simp at hkey ⊢
    omega

theorem sizeOf_derived {q query : BoundSelect} {t : BoundTableRef} (ht : t ∈ q.items)
    (hquery : t.derived = some query) :
    sizeOf query < sizeOf q := by
  obtain ⟨projections, fromClause, joins, whereClause, groupBy, having, orderBy, limit, offset, distinct,
    outputColumns⟩ := q
  have hquery : sizeOf query < sizeOf t := by
    cases t with
    | baseTable => cases hquery
    | subquery query' aliasName =>
      cases hquery
      simp
      omega
  rcases List.mem_append.1 ht with ht | ht
  · have : sizeOf t < sizeOf fromClause := List.sizeOf_lt_of_mem ht
    simp
    omega
  · obtain ⟨⟨kind, table, condition⟩, hj, rfl⟩ := List.mem_map.1 ht
    have hjoin : sizeOf (BoundJoin.mk kind table condition) < sizeOf joins := List.sizeOf_lt_of_mem hj
    simp at hjoin hquery ⊢
    omega

end BoundSelect

/-- **A part is smaller than the whole.** -/
theorem Node.size_below {n : Node} : ∀ part ∈ n.below, part.size < n.size := by
  cases n with
  | expr p e =>
    exact forall_below_expr.2 ⟨fun child => BoundExpr.sizeOf_children, fun query => BoundExpr.sizeOf_subqueries⟩
  | select q =>
    refine forall_below_select.2 ⟨fun c => BoundSelect.sizeOf_clauses, fun t ht query hquery => ?_⟩
    exact BoundSelect.sizeOf_derived ht hquery

/-- **Induction on a statement**: from the parts right below to the whole. -/
theorem Node.induct {P M : Node → Prop}
    (expr : ∀ p e, P (.expr p e) → (∀ child ∈ e.children, M (.expr (p.inside e) child)) →
      (∀ query ∈ e.subqueries, M (.select query)) → M (.expr p e))
    (select : ∀ q, P (.select q) → (∀ c ∈ q.clauses, M (.expr c.1 c.2)) →
      (∀ t ∈ q.items, ∀ query, t.derived = some query → M (.select query)) → M (.select q))
    {n : Node} (h : Everywhere Node.below P n) : M n := by
  refine h.induct Node.size (fun _ => Node.size_below) fun n hn hbelow => ?_
  cases n with
  | expr p e =>
    obtain ⟨hchildren, hsubqueries⟩ := forall_below_expr.1 hbelow
    exact expr p e hn hchildren hsubqueries
  | select q =>
    obtain ⟨hclauses, hderived⟩ := forall_below_select.1 hbelow
    exact select q hn hclauses hderived

end Abdb
