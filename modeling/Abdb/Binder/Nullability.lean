/-
# Nullability

Where `src/binder/binder.rs` says that an expression or an output column is not NULL.  It says so
by rules of its own: never of LIKE, BETWEEN and IN, whatever their operands are; of a subquery as
its column says, though it may have no row; of a column of a table as `Scope::add_table` saw it,
though a later RIGHT or FULL join may fill it up with NULLs.

Where these do not come up in a statement, what it says not to be NULL is never NULL
(`nullable_sound`).
-/

import Abdb.Binder.Modify
import Abdb.Binder.Rules
import Abdb.Query.Nulls

namespace Abdb

/-- The columns that are declared so hold no NULL. -/
def Semantics.Honours (acc : Accessor) (D : Semantics) : Prop :=
  ∀ oid cols, acc.tableColumns oid = .ok cols → ∀ t ∈ D.table oid, ∀ c ∈ cols, c.nullable = false →
    t c.oid ≠ .null

/-- The rows of the scope at a place: of the condition of a join, the pairs it is asked of. -/
def Placement.rows (D : Semantics) (p : Placement) : List Row :=
  let joined := joinRows D p.joins (width p.tables) (fromRows D p.tables)
  match p.condition with
  | none => joined
  | some j => joined.flatMap fun left => (j.table.rows D).map (left ++ ·)

/-- The nullability of the columns of a table. -/
def BoundTableRef.nullables : BoundTableRef → List Bool
  | .baseTable _ columns _ => columns.map (·.nullable)
  | .subquery query _ => query.outputColumns.map (·.nullable)

namespace Binder

/-- **Nullability is sound** in a statement or an expression: an output column that is not nullable
has no NULL, and an expression that is not nullable is not NULL on a row of its scope. -/
def NullableSound (D : Semantics) : Node → Prop
  | .expr p e => e.nullable = false → ∀ (group : List Row), ∀ row ∈ p.rows D, e.value D ⟨group, row⟩ ≠ .null
  | .select q => ∀ row ∈ q.rows D, ∀ (i : ℕ) (col : OutputColumn), q.outputColumns[i]? = some col →
      col.nullable = false → row.get i ≠ .null

/-- An expression is not of the kinds whose nullability the binder gets wrong: a column that only a
later join makes NULL; LIKE, BETWEEN, IN or an equality of USING or NATURAL with an operand that may
be NULL; a subquery that may have no row, but whose column may not be NULL. -/
def Careful : Node → Prop
  | .expr p e =>
    match e.kind with
    | .columnRef c => p.nulls.getD c.scopeIndex .unmarked ≠ .unmarked
    | .like _ _ _ | .between _ _ _ _ | .inList _ _ _ | .inSubquery _ _ _ => e.mayBeNull p.nulls = false
    | .binaryOp _ _ _ => e ∈ p.equalities → e.mayBeNull p.nulls = false
    | .subquery query => query.mayBeEmpty = true → query.outputNulls.headD true = true
    | _ => True
  | .select _ => True

variable {acc : Accessor} {D : Semantics} {scope : Scope} {p : Placement} {e : BoundExpr} {q : BoundSelect}

/-! ### Scopes -/

theorem nullables_foldl_push {α : Type} (qualifier : Option String) (name : α → String)
    (dataType : α → DataType)
    (nullable : α → Bool) (catalogColumn : α → Option Catalog.Column) (l : List α) : ∀ scope : Scope,
    (l.foldl (fun scope x => scope.push qualifier (name x) (dataType x) (nullable x) (catalogColumn x))
      scope).columns.map (·.nullable) = scope.columns.map (·.nullable) ++ l.map nullable := by
  induction l with
  | nil => exact fun scope => (List.append_nil _).symm
  | cons x l ih =>
    intro scope
    rw [List.foldl_cons, ih, Scope.push, List.map_append, List.append_assoc]
    rfl

/-- The columns that a table adds to a scope. -/
theorem nullables_addTableRefToScope (t : BoundTableRef) (scope : Scope) (outer : Bool) :
    (addTableRefToScope t scope outer).columns.map (·.nullable) =
      scope.columns.map (·.nullable) ++ t.nullables.map (· || outer) := by
  cases t with
  | baseTable table columns aliasName =>
    rw [BoundTableRef.nullables, List.map_map]
    exact nullables_foldl_push (some (aliasName.getD table.name)) (·.name) (·.typeId)
      (fun c => c.nullable || outer)
      some columns scope
  | subquery query aliasName =>
    rw [BoundTableRef.nullables, List.map_map]
    exact nullables_foldl_push (some aliasName) (·.name) (·.dataType)
      (fun c : OutputColumn => c.nullable || outer)
      (fun _ => none) query.outputColumns scope

/-- A column that may be NULL as its table says is nullable. -/
def Covers (nullable : Bool) (m : Nullness) : Prop := m = .marked → nullable = true

theorem covers_or {nullable outer : Bool} {m : Nullness} (h : Covers nullable m) :
    Covers (nullable || outer) m :=
  fun hm => by rw [h hm, Bool.true_or]

theorem covers_lost {nullable : Bool} {m : Nullness} (h : Covers nullable m) :
    Covers nullable (nullMarking.lost m) := by
  cases m with
  | never => exact nofun
  | _ => exact h

theorem covers_outer {nullable : Bool} {m : Nullness} : Covers (nullable || true) m := fun _ => Bool.or_true _

/-- **A join keeps the nullability of a scope** above what its columns may be, but for the columns
that it fills up on its left. -/
theorem covers_join (kind : BoundJoinKind) {l r : List Bool} {ms ns : List Nullness}
    (hl : List.Forall₂ Covers l ms)
    (hr : List.Forall₂ Covers r ns) :
    List.Forall₂ Covers (l ++ r.map (· || kind.isOuter)) (nullMarking.join kind ms ns) := by
  have hplain : List.Forall₂ Covers (r.map (· || kind.isOuter)) ns :=
    List.forall₂_map_left_iff.2 (hr.imp fun _ _ => covers_or)
  have hlost : List.Forall₂ Covers l (ms.map nullMarking.lost) :=
    List.forall₂_map_right_iff.2 (hl.imp fun _ _ => covers_lost)
  have hpadded : List.Forall₂ Covers (r.map (· || true)) (ns.map nullMarking.padded) :=
    List.forall₂_map_left_iff.2 (List.forall₂_map_right_iff.2 (hr.imp fun _ _ _ => covers_outer))
  cases kind with
  | inner => exact List.rel_append hl hplain
  | cross => exact List.rel_append hl hplain
  | leftOuter => exact List.rel_append hl hpadded
  | rightOuter => exact List.rel_append hlost hplain
  | fullOuter => exact List.rel_append hlost hpadded

theorem covers_scopeFrom : ∀ {tables : List BoundTableRef} {scope : Scope} {ms : List Nullness},
    (∀ t ∈ tables, List.Forall₂ Covers t.nullables t.nulls) →
      List.Forall₂ Covers (scope.columns.map (·.nullable)) ms →
        List.Forall₂ Covers ((scopeFrom scope tables).columns.map (·.nullable)) (ms ++ tablesNulls tables)
  | [], scope, ms, _, h => by
    rw [tablesNulls, List.append_nil]
    exact h
  | t :: tables, scope, ms, htables, h => by
    rw [scopeFrom, List.foldl_cons, ← scopeFrom, tablesNulls, ← List.append_assoc]
    refine covers_scopeFrom (fun t ht => htables t (List.mem_cons_of_mem _ ht)) ?_
    rw [nullables_addTableRefToScope]
    refine List.rel_append h ?_
    exact List.forall₂_map_left_iff.2 ((htables t List.mem_cons_self).imp fun _ _ => covers_or)

theorem covers_scopeJoins : ∀ {joins : List BoundJoin} {scope : Scope} {ms : List Nullness},
    (∀ j ∈ joins, List.Forall₂ Covers j.table.nullables j.table.nulls) →
      List.Forall₂ Covers (scope.columns.map (·.nullable)) ms →
        List.Forall₂ Covers ((scopeJoins scope joins).columns.map (·.nullable))
          (nullMarking.joins ms (joinsNulls joins))
  | [], scope, ms, _, h => h
  | ⟨kind, table, condition⟩ :: joins, scope, ms, hjoins, h => by
    rw [scopeJoins, List.foldl_cons, ← scopeJoins, joinsNulls, Marking.joins, List.foldl_cons,
      ← Marking.joins]
    refine covers_scopeJoins (fun j hj => hjoins j (List.mem_cons_of_mem _ hj)) ?_
    rw [nullables_addTableRefToScope]
    exact covers_join kind h (hjoins _ List.mem_cons_self)

/-- At a place the scope's nullability is above the marks of the columns. -/
def Agrees (p : Placement) : Prop := List.Forall₂ Covers (p.scope.columns.map (·.nullable)) p.columns

theorem Agrees.nullable (h : Agrees p) {i : ℕ} {sc : ScopeColumn} (hsc : p.scope.columns[i]? = some sc)
    (hm : p.nulls[i]? = some .marked) : sc.nullable = true := by
  have hcol : p.columns[i]? = some .marked := by
    rw [Placement.nulls, readNulls] at hm
    split_ifs at hm
    · rw [List.getElem?_map, Option.map_eq_some_iff] at hm
      obtain ⟨m, hcol, hlost⟩ := hm
      cases m with
      | marked => exact hcol
      | _ => cases hlost
    · exact hm
  obtain ⟨hi, rfl⟩ := List.getElem?_eq_some_iff.1 hsc
  obtain ⟨hi', heq⟩ := List.getElem?_eq_some_iff.1 hcol
  have hcovers := h.get (by rw [List.length_map]; exact hi) hi'
  simp only [List.get_eq_getElem, List.getElem_map] at hcovers
  exact hcovers heq

theorem Agrees.inside (h : Agrees p) (e : BoundExpr) : Agrees (p.inside e) :=
  (Placement.inside_iff Iff.rfl e).2 h

/-- A column that is not nullable is never NULL, if no later join makes it so. -/
theorem Agrees.never (h : Agrees p) {sc : ScopeColumn} {i : ℕ} (hsc : p.scope.columns[i]? = some sc)
    (hnullable : sc.nullable = false) (hcol : p.nulls.getD i .unmarked ≠ .unmarked) :
    p.nulls.getD i .unmarked = .never := by
  rw [List.getD_eq_getElem?_getD] at hcol ⊢
  cases hget : p.nulls[i]? with
  | none =>
    rw [hget] at hcol
    exact absurd rfl hcol
  | some m =>
    rw [hget, Option.getD_some] at hcol
    rw [Option.getD_some]
    cases m with
    | never => rfl
    | unmarked => exact absurd rfl hcol
    | marked =>
      have hflag := h.nullable hsc hget
      rw [hnullable] at hflag
      cases hflag

/-! ### Flags -/

/-- What is not nullable may not be NULL. -/
def Flagged : Node → Prop
  | .expr p e => Agrees p → e.nullable = false → e.mayBeNull p.nulls = false
  | .select q => List.Forall₂ (fun (col : OutputColumn) mayBeNull => col.nullable = false → mayBeNull = false)
      q.outputColumns q.outputNulls

theorem nullable_inferBinaryType {op : BinaryOp} {left right : BoundExpr} {dataType : DataType}
    {nullable : Bool}
    (h : inferBinaryType op left right = .ok (dataType, nullable)) :
    nullable = (left.nullable || right.nullable) := by
  cases op with
  | add | sub | mul | div | mod =>
    rw [inferBinaryType] at h
    split at h
    · exact (Prod.mk.inj (Except.ok.inj h)).2.symm
    · cases h
  | _ => exact (Prod.mk.inj (Except.ok.inj h)).2.symm

/-- The one column of a subquery. -/
theorem headD_outputNulls (h : Flagged (.select q)) {col : OutputColumn} (hcol : q.outputColumns = [col])
    (hnullable : col.nullable = false) : q.outputNulls.headD true = false := by
  rw [Flagged, hcol] at h
  cases hnulls : q.outputNulls with
  | nil =>
    rw [hnulls] at h
    cases h
  | cons mayBeNull rest =>
    rw [hnulls] at h
    cases h with
    | cons h _ => exact h hnullable

/-- **One expression**: if its parts are flagged right, and it is not of the kinds that are not, it is. -/
theorem flagged_step (hrule : ExprRule p e) (hcareful : Careful (.expr p e))
    (hchildren : ∀ child ∈ e.children, Flagged (.expr (p.inside e) child))
    (hsubqueries : ∀ query ∈ e.subqueries, Flagged (.select query)) : Flagged (.expr p e) := by
  intro hagrees hnullable
  have hchild : p.inside e = p → ∀ {child}, child ∈ e.children → child.nullable = false →
      child.mayBeNull p.nulls = false := by
    intro hp child hmem
    have hflagged := hchildren child hmem (hagrees.inside e)
    rw [hp] at hflagged
    exact hflagged
  obtain ⟨kind, dataType, nullable⟩ := e
  subst hnullable
  rw [BoundExpr.mayBeNull]
  cases kind with
  | literal lit =>
    cases lit with
    | null => cases (Prod.mk.inj hrule).2
    | _ => rfl
  | columnRef r =>
    obtain ⟨sc, hsc, -, hsound⟩ := hrule
    rw [BoundExprKind.mayBeNull, decide_eq_false_iff_not, not_not]
    exact hagrees.never hsc hsound.symm hcareful
  | binaryOp left op right =>
    rcases hrule with htype | ⟨hequality, -, -⟩
    · obtain ⟨hl, hr⟩ := Bool.or_eq_false_iff.1 (nullable_inferBinaryType htype).symm
      exact Bool.or_eq_false_iff.2 ⟨hchild rfl List.mem_cons_self hl,
        hchild rfl (List.mem_cons_of_mem _ (List.mem_singleton_self right)) hr⟩
    · exact hcareful hequality
  | unaryOp op expr => exact hchild rfl (List.mem_singleton_self expr) hrule.2.symm
  | isNull expr => rfl
  | isNotNull expr => rfl
  | existsSubquery query negated => rfl
  | like expr pattern negated => exact hcareful
  | between expr low high negated => exact hcareful
  | inList expr list negated => exact hcareful
  | inSubquery expr query negated => exact hcareful
  | subquery query =>
    obtain ⟨col, hcol, -, hsound⟩ := hrule
    have houtput := headD_outputNulls (hsubqueries query (List.mem_singleton_self query)) hcol hsound.symm
    refine Bool.or_eq_false_iff.2 ⟨Bool.eq_false_iff.2 fun hempty => ?_, houtput⟩
    have htrue : query.outputNulls.headD true = true := hcareful hempty
    rw [houtput] at htrue
    cases htrue
  | function f =>
    obtain ⟨name, kind, args, distinct⟩ := f
    cases kind with
    | count => rfl
    | coalesce =>
      have hall : args.all (·.nullable) = false := (Prod.mk.inj hrule).2.symm
      obtain ⟨arg, harg, hflag⟩ := List.all_eq_false.1 hall
      show (listMayBeNull p.nulls args).all id = false
      rw [listMayBeNull_eq_map, List.all_map, List.all_eq_false]
      exact ⟨arg, harg, Bool.eq_false_iff.1 (hchild rfl harg (Bool.eq_false_iff.2 hflag))⟩
    | _ => cases (Prod.mk.inj hrule).2
  | cast expr targetType => exact hchild rfl (List.mem_singleton_self expr) hrule.2.symm
  | case operand whenThen elseResult =>
    obtain ⟨hresults, helse⟩ := Bool.or_eq_false_iff.1 (Prod.mk.inj hrule).2.symm
    obtain ⟨hnone, hthen⟩ := Bool.or_eq_false_iff.1 hresults
    cases elseResult with
    | none => cases hnone
    | some result =>
      refine Bool.or_eq_false_iff.2 ⟨?_, ?_⟩
      · exact hchild rfl (List.mem_append_right _ (List.mem_singleton_self result)) helse
      · rw [pairsMayBeNull_eq_map, List.any_map, List.any_eq_false]
        intro pair hpair
        rw [List.any_eq_false] at hthen
        refine Bool.eq_false_iff.1 (hchild rfl (List.mem_append_left _ (List.mem_append_right _
          (List.mem_map_of_mem hpair))) (Bool.eq_false_iff.2 (hthen pair hpair)))

/-- The nullability of a table's columns is above their marks. -/
theorem covers_nulls {t : BoundTableRef}
    (hderived : ∀ query, t.derived = some query → Flagged (.select query)) :
    List.Forall₂ Covers t.nullables t.nulls := by
  cases t with
  | baseTable table columns aliasName =>
    rw [BoundTableRef.nullables, BoundTableRef.nulls]
    refine List.forall₂_map_left_iff.2 (List.forall₂_map_right_iff.2 (List.forall₂_same.2 fun col _ hm => ?_))
    cases hnullable : col.nullable with
    | true => rfl
    | false =>
      rw [hnullable] at hm
      cases hm
  | subquery query aliasName =>
    rw [BoundTableRef.nullables, BoundTableRef.nulls]
    refine List.forall₂_map_left_iff.2 (List.forall₂_map_right_iff.2
      ((hderived query rfl).imp fun col mayBeNull h hm => ?_))
    cases hnullable : col.nullable with
    | true => rfl
    | false =>
      rw [h hnullable] at hm
      cases hm

/-- **Every clause stands at a place where the scope is above the marks.** -/
theorem agrees_clauses (hderived : ∀ t ∈ q.items, ∀ query, t.derived = some query → Flagged (.select query)) :
    ∀ c ∈ q.clauses, Agrees c.1 := by
  have hcovers : ∀ t ∈ q.items, List.Forall₂ Covers t.nullables t.nulls := fun t ht =>
    covers_nulls (hderived t ht)
  have hjoins : ∀ before after, q.joins = before ++ after →
      List.Forall₂ Covers ((scopeJoins (scopeFrom .new q.fromClause) before).columns.map (·.nullable))
        (nullMarking.joins (tablesNulls q.fromClause) (joinsNulls before)) := by
    intro before after heq
    have hfrom := @covers_scopeFrom q.fromClause .new []
      (fun t ht => hcovers t (List.mem_append_left _ ht)) .nil
    refine covers_scopeJoins (fun j hj => hcovers j.table
      (List.mem_append_right _ (List.mem_map_of_mem ?_))) hfrom
    rw [heq]
    exact List.mem_append_left _ hj
  have hplacement : ∀ oneGroup, Agrees (q.placement oneGroup) := by
    intro oneGroup
    have hall := hjoins q.joins [] (List.append_nil _).symm
    rw [← List.append_nil (nullMarking.joins _ _)] at hall
    exact hall
  intro c hc
  rcases List.mem_append.1 hc with hc | hc
  · rcases List.mem_append.1 hc with hc | hc
    · obtain ⟨before, j, after, heq, -, hp⟩ := mem_conditionClauses.1 hc
      rw [hp, List.nil_append]
      show List.Forall₂ Covers
        ((scopeJoins (scopeFrom .new q.fromClause) (before ++ [j])).columns.map (·.nullable))
        (nullMarking.joins (tablesNulls q.fromClause) (joinsNulls before) ++ j.table.nulls)
      rw [scopeJoins_concat, nullables_addTableRefToScope]
      refine List.rel_append (hjoins before (j :: after) heq) (List.forall₂_map_left_iff.2 ?_)
      refine (hcovers j.table (List.mem_append_right _ (List.mem_map_of_mem ?_))).imp fun _ _ => covers_or
      rw [heq]
      exact List.mem_append_right _ List.mem_cons_self
    · obtain ⟨e, -, rfl⟩ := List.mem_map.1 hc
      exact hplacement false
  · obtain ⟨e, -, rfl⟩ := List.mem_map.1 hc
    exact hplacement q.oneGroup

/-- **Every part is flagged right** in a statement that keeps off the wrong kinds. -/
theorem flagged {n : Node} (h : Everywhere Node.below (fun n => Rule acc n ∧ Careful n) n) : Flagged n := by
  refine Node.induct ?_ ?_ h
  · exact fun p e hn hchildren hsubqueries => flagged_step hn.1 hn.2 hchildren hsubqueries
  · intro q hn hclauses hderived
    rw [Flagged, BoundSelect.outputNulls_eq, hn.1.outputColumns]
    refine List.forall₂_map_left_iff.2 (List.forall₂_map_right_iff.2
      (List.forall₂_same.2 fun item hitem => ?_))
    have hmem : (q.placement q.oneGroup, item.expr) ∈ q.clauses := List.mem_append_right _
      (List.mem_map_of_mem (List.mem_append_left _ (List.mem_append_left _ (List.mem_map_of_mem hitem))))
    exact hclauses _ hmem (agrees_clauses hderived _ hmem)

/-! ### Rows of a scope -/

/-- The rows at the place of every clause fit the marks there. -/
theorem has_clauses (hground : ∀ t ∈ q.items, Honest D t)
    (hderived : ∀ t ∈ q.items, ∀ query, t.derived = some query → NeverNull D (.select query)) :
    ∀ c ∈ q.clauses, ∀ row ∈ c.1.rows D, row.Has Nullness.Holds c.1.columns := by
  intro c hc row hrow
  rcases List.mem_append.1 hc with hc | hc
  · rcases List.mem_append.1 hc with hc | hc
    · obtain ⟨before, j, after, heq, -, hp⟩ := mem_conditionClauses.1 hc
      rw [hp, List.nil_append] at hrow ⊢
      obtain ⟨left, hleft, hrow⟩ := List.mem_flatMap.1 hrow
      obtain ⟨right, hright, rfl⟩ := List.mem_map.1 hrow
      have hj : j.table ∈ q.items := List.mem_append_right _
        (List.mem_map_of_mem (heq ▸ List.mem_append_right _ List.mem_cons_self))
      have hhas := (fits_nulls (hground _ hj) (hderived _ hj)).2 right hright
      exact (has_nulls hground hderived heq left hleft).append hhas
    · obtain ⟨e, -, rfl⟩ := List.mem_map.1 hc
      exact has_joinedRows hground hderived row hrow
  · obtain ⟨e, -, rfl⟩ := List.mem_map.1 hc
    exact has_joinedRows hground hderived row hrow

/-- The scope and the rows at the place of an expression keep to the marks of the columns. -/
def Placed (D : Semantics) : Node → Prop
  | .expr p _ => Agrees p ∧ ∀ row ∈ p.rows D, row.Has Nullness.Holds p.columns
  | .select _ => True

/-- The parts of a statement keep to what is said of NULL. -/
def PartsKeep (D : Semantics) (n : Node) : Prop :=
  Grounded D n ∧ ∀ part ∈ n.below, NeverNull D part ∧ Flagged part

theorem placed_below {n : Node} (hkeep : PartsKeep D n) (hplaced : Placed D n) :
    ∀ part ∈ n.below, Placed D part := by
  obtain ⟨hground, hparts⟩ := hkeep
  cases n with
  | expr p e =>
    refine Node.forall_below_expr.2 ⟨fun child _ => ?_, fun _ _ => trivial⟩
    have hinside := Placement.inside_iff (p := p)
      (P := fun p => Agrees p ∧ ∀ row ∈ p.rows D, row.Has Nullness.Holds p.columns) Iff.rfl e
    exact hinside.2 hplaced
  | select q =>
    have hderived := (Node.forall_below_select.1 hparts).2
    refine Node.forall_below_select.2 ⟨fun c hc => ?_, fun _ _ _ _ => trivial⟩
    exact ⟨agrees_clauses (fun t ht query hquery => (hderived t ht query hquery).2) c hc,
      has_clauses hground (fun t ht query hquery => (hderived t ht query hquery).1) c hc⟩

/-- The tables of an accepted statement are honest. -/
theorem grounded (hacc : D.Honours acc) {n : Node} (h : Obeys acc n) : Grounded D n := by
  cases n with
  | expr p e => exact trivial
  | select q =>
    intro t ht
    cases t with
    | baseTable table columns aliasName =>
      obtain ⟨cols, hcols, hsub⟩ := h.here.tables _ ht
      exact fun tuple htuple col hcol => hacc table.oid cols hcols tuple htuple col (hsub col hcol)
    | subquery query aliasName =>
      have hquery : Obeys acc (.select query) :=
        (Node.forall_below_select.1 (Everywhere.iff_below.1 h).2).2 _ ht query rfl
      rw [Honest, hquery.here.outputColumns, List.length_map]

/-- What is flagged right, and never NULL where it may not be, is sound. -/
theorem nullableSound_of {n : Node} (hnever : NeverNull D n) (hflagged : Flagged n) (hplaced : Placed D n) :
    NullableSound D n := by
  cases n with
  | expr p e =>
    intro hnullable group row hrow
    exact hnever (hflagged hplaced.1 hnullable) ⟨group, row⟩ (reads_nulls (hplaced.2 row hrow))
  | select q =>
    intro row hrow i col hcol hnullable
    obtain ⟨hi, rfl⟩ := List.getElem?_eq_some_iff.1 hcol
    have hi' : i < q.outputNulls.length := hflagged.length_eq ▸ hi
    exact (hnever row hrow).reads i _ (List.getElem?_eq_getElem hi') (hflagged.get hi hi' hnullable)

/-- **Nullability is sound** in an accepted SELECT without an expression of the wrong kinds. -/
theorem nullable_sound {stmt : Ast.SelectStmt} {b : BoundSelect} (h : bindSelect acc stmt = .ok b)
    (hcareful : Everywhere Node.below Careful (.select b)) (hD : D.Strict) (hacc : D.Honours acc) :
    Everywhere Node.below (NullableSound D) (.select b) := by
  have hrules := bindSelect_rules h
  have hground : Everywhere Node.below (Grounded D) (.select b) := hrules.self.mono fun n => grounded hacc
  have hnever : Everywhere Node.below (NeverNull D) (.select b) := hground.self.mono fun n => neverNull hD
  have hflagged : Everywhere Node.below Flagged (.select b) :=
    (hrules.and hcareful).self.mono fun n => flagged
  have hkeep : Everywhere Node.below (PartsKeep D) (.select b) :=
    (hground.and (hnever.and hflagged).self).mono
    fun n hn => ⟨hn.1, fun part hpart => (hn.2.part hpart).here⟩
  have hplaced : Everywhere Node.below (Placed D) (.select b) := hkeep.descend (fun n => placed_below) trivial
  exact ((hnever.and hflagged).and hplaced).mono fun n hn => nullableSound_of hn.1.1 hn.1.2 hn.2

/-! ### LIKE and NULL -/

/-- A reading in which no operation gives NULL, over a table of one row. -/
def strictReading : Semantics :=
  { Semantics.plain fun _ => [fun _ => .i64 7] with
    compare := fun _ v w => some (v = w)
    arith := fun _ _ _ _ => .i64 0
    neg := fun _ _ => .i64 0
    like := fun v w => some (v = w)
    truth := fun _ => some true }

theorem strict_strictReading : strictReading.Strict where
  compare _ _ := nofun
  arith _ _ := nofun
  neg _ := nofun
  like _ _ := nofun
  cast h := h
  truth _ := nofun

theorem honours_strictReading (acc : Accessor) : strictReading.Honours acc := by
  intro oid cols hcols t ht c hc hnullable
  rw [List.mem_singleton.1 ht]
  exact nofun

/-- `SELECT 'x' LIKE NULL`. -/
def selectLike : Ast.SelectStmt :=
  ⟨[.expr (.like (.literal (.string "x")) (.literal .null) false) none], [], [], none, [], none, [],
    none, none, false⟩

theorem nullable_column : ∃ b, bindSelect (oneColumn .i64) (selectFrom [.expr columnC none]) = .ok b ∧
    Everywhere Node.below (NullableSound strictReading) (.select b) := by
  refine ⟨_, rfl, nullable_sound
    (rfl : bindSelect (oneColumn .i64) (selectFrom [.expr columnC none]) = .ok _) ?_
    strict_strictReading (honours_strictReading _)⟩
  refine Everywhere.iff_below.2 ⟨trivial, fun n hn => ?_⟩
  obtain rfl := List.mem_singleton.1 hn
  exact Everywhere.iff_below.2 ⟨(by decide : Nullness.never ≠ .unmarked), nofun⟩

/-- **NULL in a column that is not nullable**: `SELECT 'x' LIKE NULL`. -/
theorem like_null : ¬ ∀ acc stmt b (D : Semantics), bindSelect acc stmt = .ok b → D.Strict → D.Honours acc →
    Everywhere Node.below (NullableSound D) (.select b) := by
  intro hall
  have hsound := (hall (oneColumn .i64) selectLike _ strictReading rfl strict_strictReading
    (honours_strictReading _)).here
  exact hsound [.null] (List.mem_singleton_self _) 0 _ rfl rfl rfl

end Binder
end Abdb
