/-
# When predicate pushdown preserves results

`push_predicates` sends a predicate to the input whose columns it mentions, whatever the kind
of the join, and below a projection as it is.  The result is the same where each predicate may
go where it is sent (`Movable`): not below a join that adds rows for partners the predicate
takes away, with every column it mentions on that side and renumbered, and below a projection
only if the columns it mentions have the same numbers there.
-/

import Abdb.Optimizer.Pushdown
import Abdb.Query.Relation

namespace Abdb

mutual

/-- The columns of an expression in the forms that `shift_kind` keeps as they are. -/
def BoundExpr.unshifted : BoundExpr → List ℕ
  | ⟨kind, _, _⟩ => kind.unshifted

def BoundExprKind.unshifted : BoundExprKind → List ℕ
  | .columnRef _ => []
  | .binaryOp left _ right => left.unshifted ++ right.unshifted
  | .unaryOp _ expr => expr.unshifted
  | .isNull expr => expr.unshifted
  | .isNotNull expr => expr.unshifted
  | kind => kind.columns

end

/-- A row passes a list of predicates. -/
def passes (S : Scalars) (predicates : List BoundExpr) (row : Row) : Bool :=
  predicates.all (·.accepts S row)

namespace Optimizer

/-- A predicate that may go to the left input of a join. -/
structure MovesLeft (kind : BoundJoinKind) (leftColCount : ℕ) (pred : BoundExpr) : Prop where
  keeps : kind.joined.KeepsLeft
  columns : ∀ i ∈ pred.columns, i < leftColCount

/-- A predicate whose columns are renumbered by `leftColCount` down. -/
structure Renumbered (leftColCount : ℕ) (pred : BoundExpr) : Prop where
  columns : ∀ i ∈ pred.columns, leftColCount ≤ i
  shifted : leftColCount = 0 ∨ pred.unshifted = []

/-- A predicate that may go to the right input of a join. -/
structure MovesRight (kind : BoundJoinKind) (leftColCount : ℕ) (pred : BoundExpr) : Prop where
  keeps : kind.joined.KeepsRight
  renumbered : Renumbered leftColCount pred

/-- A predicate that may go below a projection: the columns it mentions are the input's. -/
def MovesBelow (exprs : List BoundExpr) (pred : BoundExpr) : Prop :=
  ∀ i ∈ pred.columns, ∃ c dataType nullable, exprs[i]? = some ⟨.columnRef c, dataType, nullable⟩ ∧
    c.scopeIndex = i

/-- Every predicate may go where `push_predicates` sends it. -/
def Movable : LogicalPlan → List BoundExpr → Prop
  | .filter predicate input, predicates => Movable input (predicates ++ splitConjunctions predicate)
  | .projection exprs _ input _, predicates =>
    (∀ pred ∈ predicates, MovesBelow exprs pred) ∧ Movable input predicates
  | .join kind left right _ _, predicates =>
    (∀ pred ∈ predicates, side left.schema.len pred = .left → MovesLeft kind left.schema.len pred) ∧
    (∀ pred ∈ predicates, side left.schema.len pred = .right → MovesRight kind left.schema.len pred) ∧
    Movable left (leftPreds left.schema.len predicates) ∧
    Movable right (rightPreds left.schema.len predicates)
  | .aggregate _ _ input _, _ => Movable input []
  | .sort _ input, predicates => Movable input predicates
  | .limit _ _ input, _ => Movable input []
  | .distinct input, predicates => Movable input predicates
  | .update _ _ _ input _, predicates => predicates = [] ∧ Movable input []
  | .delete _ _ input _, predicates => predicates = [] ∧ Movable input []
  | _, _ => True

section

variable {I : Interp} {S : Scalars} {plan : LogicalPlan} {predicates : List BoundExpr} {row l r : Row}
  {n : ℕ} {pred : BoundExpr}

/-! ### Schemas -/

theorem schema_filters : (filters predicates plan).schema = plan.schema := by
  induction predicates with
  | nil => rfl
  | cons p predicates ih => exact ih

/-- **Pushdown keeps the schema.** -/
theorem schema_pushPredicates (plan : LogicalPlan) (predicates : List BoundExpr) :
    (pushPredicates plan predicates).schema = plan.schema := by
  induction plan generalizing predicates with
  | filter predicate input ih => exact ih _
  | join kind left right condition schema ihl ihr => exact schema_filters
  | sort orderBy input ih => exact ih _
  | distinct input ih => exact ih _
  | limit limit offset input ih => exact schema_filters.trans (ih _)
  | projection exprs aliases input schema ih => rfl
  | update table tableColumns assignments input schema ih => rfl
  | delete table tableColumns input schema ih => rfl
  | _ => exact schema_filters

/-! ### Predicates -/

theorem passes_append (ps qs : List BoundExpr) :
    passes S (ps ++ qs) row = (passes S ps row && passes S qs row) := List.all_append

theorem filter_passes_nil (rows : List Row) : rows.filter (passes S []) = rows := List.filter_true rows

theorem rows_filters : (filters predicates plan).rows I = (plan.rows I).filter
    (passes I.toScalars predicates) := by
  induction predicates with
  | nil => exact (filter_passes_nil _).symm
  | cons p predicates ih =>
    show ((filters predicates plan).rows I).filter _ = _
    rw [ih, List.filter_filter]
    rfl

/-- **A row passes a conjunction if it passes the parts.** -/
theorem passes_splitConjunctions (e : BoundExpr) : passes S (splitConjunctions e) row = e.accepts S row := by
  induction e using conjunctions_induct with
  | and left right dataType nullable ihl ihr =>
    rw [splitConjunctions_and, passes_append, ihl, ihr, Bool.eq_iff_iff, Bool.and_eq_true]
    simp only [BoundExpr.accepts, BoundExpr.eval, BoundExprKind.eval, Scalars.binary,
      Scalars.truthOf_ofTruth, Truth.and_eq_true, decide_eq_true_eq]
  | single e h =>
    rw [splitConjunctions_of_not_isAnd h]
    exact Bool.and_true _

/-! ### Renumbering -/

theorem Row.get_append_left {i : ℕ} (h : i < l.length) : Row.get (l ++ r) i = Row.get l i := by
  rw [Row.get, Row.get, List.getD_eq_getElem?_getD, List.getD_eq_getElem?_getD, List.getElem?_append_left h]

theorem Row.get_append_right {i : ℕ} (h : l.length ≤ i) : Row.get (l ++ r) i = Row.get r (i - l.length) := by
  rw [Row.get, Row.get, List.getD_eq_getElem?_getD, List.getD_eq_getElem?_getD, List.getElem?_append_right h]

theorem shiftIndex_neg {i : ℕ} (h : n ≤ i) : shiftIndex i (-n) = i - n := by
  rw [shiftIndex, if_pos (by omega)]
  omega

/-- A form that is kept as it is has to mention no column, if there are columns on the left. -/
theorem evalKind_keep (hl : l.length = n) (dataType : DataType) (kind : BoundExprKind)
    (h : n = 0 ∨ kind.columns = []) : kind.eval S r dataType = kind.eval S (l ++ r) dataType := by
  refine kind.eval_congr dataType fun i hi => ?_
  rcases h with rfl | h
  · rw [List.length_eq_zero_iff.1 hl, List.nil_append]
  · rw [h] at hi
    cases hi

mutual

/-- **An expression on the right side**, renumbered. -/
theorem eval_shift (hl : l.length = n) : ∀ e : BoundExpr, (∀ i ∈ e.columns, n ≤ i) →
    (n = 0 ∨ e.unshifted = []) → (shiftScopeIndices (-n) e).eval S r = e.eval S (l ++ r)
  | ⟨kind, dataType, _⟩, hcols, hshift => evalKind_shift hl dataType kind hcols hshift

theorem evalKind_shift (hl : l.length = n) (dataType : DataType) : ∀ kind : BoundExprKind,
    (∀ i ∈ kind.columns, n ≤ i) → (n = 0 ∨ kind.unshifted = []) →
      (shiftKind (-n) kind).eval S r dataType = kind.eval S (l ++ r) dataType
  | .columnRef c, hcols, _ => by
    have hi : n ≤ c.scopeIndex := hcols _ (List.mem_singleton.2 rfl)
    show Row.get r (shiftIndex c.scopeIndex (-n)) = Row.get (l ++ r) c.scopeIndex
    rw [shiftIndex_neg hi, Row.get_append_right (hl.trans_le hi), hl]
  | .binaryOp left op right, hcols, hshift => by
    rw [BoundExprKind.columns, List.forall_mem_append] at hcols
    rw [BoundExprKind.unshifted, List.append_eq_nil_iff] at hshift
    rw [shiftKind, BoundExprKind.eval, BoundExprKind.eval,
      eval_shift hl left hcols.1 (hshift.imp id And.left),
      eval_shift hl right hcols.2 (hshift.imp id And.right)]
  | .unaryOp .neg expr, hcols, hshift => by
    rw [shiftKind, BoundExprKind.eval, BoundExprKind.eval, eval_shift hl expr hcols hshift]
  | .unaryOp .not expr, hcols, hshift => by
    rw [shiftKind, BoundExprKind.eval, BoundExprKind.eval, eval_shift hl expr hcols hshift]
  | .isNull expr, hcols, hshift => by
    rw [shiftKind, BoundExprKind.eval, BoundExprKind.eval, eval_shift hl expr hcols hshift]
  | .isNotNull expr, hcols, hshift => by
    rw [shiftKind, BoundExprKind.eval, BoundExprKind.eval, eval_shift hl expr hcols hshift]
  | .literal lit, _, hshift => evalKind_keep hl dataType (.literal lit) hshift
  | .like expr pattern negated, _, hshift =>
    evalKind_keep hl dataType (.like expr pattern negated) hshift
  | .between expr low high negated, _, hshift =>
    evalKind_keep hl dataType (.between expr low high negated) hshift
  | .inList expr list negated, _, hshift =>
    evalKind_keep hl dataType (.inList expr list negated) hshift
  | .inSubquery expr subquery negated, _, hshift =>
    evalKind_keep hl dataType (.inSubquery expr subquery negated) hshift
  | .existsSubquery subquery negated, _, hshift =>
    evalKind_keep hl dataType (.existsSubquery subquery negated) hshift
  | .subquery query, _, hshift => evalKind_keep hl dataType (.subquery query) hshift
  | .function f, _, hshift => evalKind_keep hl dataType (.function f) hshift
  | .cast expr targetType, _, hshift => evalKind_keep hl dataType (.cast expr targetType) hshift
  | .case operand whenThen elseResult, _, hshift =>
    evalKind_keep hl dataType (.case operand whenThen elseResult) hshift

end

theorem Renumbered.accepts (h : Renumbered n pred) (hl : l.length = n) :
    (shiftScopeIndices (-n) pred).accepts S r = pred.accepts S (l ++ r) := by
  rw [BoundExpr.accepts, BoundExpr.accepts, eval_shift hl pred h.columns h.shifted]

theorem accepts_left (hcols : ∀ i ∈ pred.columns, i < l.length) :
    pred.accepts S (l ++ r) = pred.accepts S l :=
  BoundExpr.accepts_congr fun i hi => Row.get_append_left (hcols i hi)

/-! ### One operator -/

/-- The predicates of a join are those of its left input, of its right input and of neither. -/
theorem passes_sides (n : ℕ) (predicates : List BoundExpr) : passes S predicates row =
    (passes S (leftPreds n predicates) row &&
      passes S (predicates.filter (side n · = .right)) row && passes S (joinPreds n predicates) row) := by
  rw [Bool.eq_iff_iff]
  simp only [passes, leftPreds, joinPreds, Bool.and_eq_true, List.all_eq_true, List.mem_filter,
    decide_eq_true_eq]
  constructor
  · intro h
    exact ⟨⟨fun p hp => h p hp.1, fun p hp => h p hp.1⟩, fun p hp => h p hp.1⟩
  · rintro ⟨⟨hleft, hright⟩, hboth⟩ p hp
    rcases hside : side n p with _ | _ | _
    · exact hleft p ⟨hp, hside⟩
    · exact hright p ⟨hp, hside⟩
    · exact hboth p ⟨hp, hside⟩

/-- **Filters before a join**, on each side. -/
theorem filter_join {kind : BoundJoinKind} {match_ : Row → Row → Bool} {left right : List Row} {m : ℕ}
    (hleft : ∀ row ∈ left, row.length = n)
    (hl : ∀ pred ∈ predicates, side n pred = .left → MovesLeft kind n pred)
    (hr : ∀ pred ∈ predicates, side n pred = .right → MovesRight kind n pred) :
    (kind.joined.rows match_ (· ++ ·) (· ++ Row.nulls m) (Row.nulls n ++ ·) left right).filter
      (fun row => passes S (leftPreds n predicates) row &&
        passes S (predicates.filter (side n · = .right)) row) =
    kind.joined.rows match_ (· ++ ·) (· ++ Row.nulls m) (Row.nulls n ++ ·)
      (left.filter (passes S (leftPreds n predicates)))
      (right.filter (passes S (rightPreds n predicates))) := by
  have hstepLeft : ∀ right : List Row,
      (kind.joined.rows match_ (· ++ ·) (· ++ Row.nulls m) (Row.nulls n ++ ·) left right).filter
        (passes S (leftPreds n predicates)) =
      kind.joined.rows match_ (· ++ ·) (· ++ Row.nulls m) (Row.nulls n ++ ·)
        (left.filter (passes S (leftPreds n predicates))) right := by
    intro right
    rcases hempty : leftPreds n predicates with _ | ⟨p, ps⟩
    · rw [filter_passes_nil, filter_passes_nil]
    rw [← hempty]
    have hmoves : ∀ p ∈ leftPreds n predicates, MovesLeft kind n p := fun p hp => by
      obtain ⟨hp, hside⟩ := List.mem_filter.1 hp
      exact hl p hp (of_decide_eq_true hside)
    have hrow : ∀ a ∈ left, ∀ b : Row, passes S (leftPreds n predicates) (a ++ b) =
        passes S (leftPreds n predicates) a := by
      intro a ha b
      rw [passes, passes, Bool.eq_iff_iff, List.all_eq_true, List.all_eq_true]
      refine forall₂_congr fun p hp => ?_
      rw [accepts_left fun i hi => ((hmoves p hp).columns i hi).trans_eq (hleft a ha).symm]
    exact Joined.filter_left (hmoves p (hempty ▸ List.mem_cons_self)).keeps
      (fun a ha b _ => hrow a ha b) fun a ha => hrow a ha _
  have hstepRight : ∀ left : List Row, (∀ row ∈ left, row.length = n) →
      (kind.joined.rows match_ (· ++ ·) (· ++ Row.nulls m) (Row.nulls n ++ ·) left right).filter
        (passes S (predicates.filter (side n · = .right))) =
      kind.joined.rows match_ (· ++ ·) (· ++ Row.nulls m) (Row.nulls n ++ ·) left
        (right.filter (passes S (rightPreds n predicates))) := by
    intro left hleft
    rw [rightPreds]
    rcases hempty : predicates.filter (side n · = .right) with _ | ⟨p, ps⟩
    · rw [List.map_nil, filter_passes_nil, filter_passes_nil]
    rw [← hempty]
    have hmoves : ∀ p ∈ predicates.filter (side n · = .right), MovesRight kind n p := fun p hp => by
      obtain ⟨hp, hside⟩ := List.mem_filter.1 hp
      exact hr p hp (of_decide_eq_true hside)
    have hrow : ∀ a : Row, a.length = n → ∀ b : Row,
        passes S (predicates.filter (side n · = .right)) (a ++ b) =
        passes S ((predicates.filter (side n · = .right)).map (shiftScopeIndices (-n))) b := by
      intro a ha b
      rw [passes, passes, List.all_map, Bool.eq_iff_iff, List.all_eq_true, List.all_eq_true]
      refine forall₂_congr fun p hp => ?_
      rw [Function.comp, (hmoves p hp).renumbered.accepts ha]
    exact Joined.filter_right (hmoves p (hempty ▸ List.mem_cons_self)).keeps
      (fun a ha b _ => hrow a (hleft a ha) b) fun b _ => hrow _ List.length_replicate b
  rw [← hstepRight _ fun row hrow => hleft row (List.mem_filter.1 hrow).1, ← hstepLeft,
    List.filter_filter]
  exact List.filter_congr fun row _ => Bool.and_comm _ _

/-- A predicate on the columns a projection keeps. -/
theorem MovesBelow.accepts {exprs : List BoundExpr} (h : MovesBelow exprs pred) :
    pred.accepts S (evalList S row exprs) = pred.accepts S row := by
  refine BoundExpr.accepts_congr fun i hi => ?_
  obtain ⟨c, dataType, nullable, hexpr, rfl⟩ := h i hi
  rw [Row.get, List.getD_eq_getElem?_getD, getElem?_evalList, hexpr]
  rfl

/-! ### The whole plan -/

/-- **Pushdown preserves the rows** where every predicate may go where it is sent. -/
theorem rows_pushPredicates : ∀ {plan : LogicalPlan} {predicates : List BoundExpr}, plan.WellFormed →
    Movable plan predicates → (pushPredicates plan predicates).rows I =
      (plan.rows I).filter (passes I.toScalars predicates) := by
  intro plan
  induction plan with
  | filter predicate input ih =>
    intro predicates hwf hmov
    rw [pushPredicates, ih hwf hmov, LogicalPlan.rows, List.filter_filter]
    refine List.filter_congr fun row _ => ?_
    rw [passes_append, passes_splitConjunctions]
  | projection exprs aliases input schema ih =>
    intro predicates hwf hmov
    rw [pushPredicates, LogicalPlan.rows, LogicalPlan.rows, ih hwf.2 hmov.2, List.filter_map]
    refine congrArg _ (List.filter_congr fun row _ => ?_)
    rw [Function.comp, passes, passes, Bool.eq_iff_iff, List.all_eq_true, List.all_eq_true]
    refine forall₂_congr fun p hp => ?_
    rw [(hmov.1 p hp).accepts]
  | join kind left right condition schema ihl ihr =>
    rintro predicates ⟨-, hwl, hwr⟩ ⟨hl, hr, hmovl, hmovr⟩
    rw [pushPredicates, rows_filters, LogicalPlan.rows, ihl hwl hmovl, ihr hwr hmovr,
      schema_pushPredicates, schema_pushPredicates, LogicalPlan.rows,
      ← filter_join (fun row hrow => hwl.length_row hrow) hl hr, List.filter_filter]
    refine List.filter_congr fun row _ => ?_
    rw [passes_sides left.schema.len predicates, Bool.and_comm]
  | aggregate groupBy aggregates input schema ih =>
    intro predicates hwf hmov
    rw [pushPredicates, rows_filters, LogicalPlan.rows, LogicalPlan.rows, ih hwf.2 hmov]
    exact congrArg (fun l => List.filter _ (I.aggregate _ _ l)) (filter_passes_nil _)
  | sort orderBy input ih =>
    intro predicates hwf hmov
    rw [pushPredicates, LogicalPlan.rows, LogicalPlan.rows, ih hwf hmov, filter_insertionSort]
  | limit limit offset input ih =>
    intro predicates hwf hmov
    rw [pushPredicates, rows_filters, LogicalPlan.rows, LogicalPlan.rows, ih hwf hmov]
    exact congrArg (fun l => List.filter _ (I.window _ _ l)) (filter_passes_nil _)
  | distinct input ih =>
    intro predicates hwf hmov
    rw [pushPredicates, LogicalPlan.rows, LogicalPlan.rows, ih hwf hmov, filter_dedup]
  | update table tableColumns assignments input schema ih =>
    rintro predicates ⟨-, hwf⟩ ⟨rfl, hmov⟩
    rw [pushPredicates, LogicalPlan.rows, LogicalPlan.rows, ih hwf hmov, filter_passes_nil,
      filter_passes_nil]
  | delete table tableColumns input schema ih =>
    rintro predicates ⟨-, hwf⟩ ⟨rfl, hmov⟩
    rw [pushPredicates, LogicalPlan.rows, LogicalPlan.rows, ih hwf hmov, filter_passes_nil,
      filter_passes_nil]
  | _ =>
    intro predicates hwf hmov
    exact rows_filters

/-- **Pushdown preserves the bag of rows** where every predicate may go where it is sent. -/
theorem bag_pushPredicates (I : Interp) (plan : LogicalPlan) (predicates : List BoundExpr)
    (hwf : plan.WellFormed) (hmov : Movable plan predicates) :
    (pushPredicates plan predicates).bag I = (plan.bag I).filter (passes I.toScalars predicates ·) := by
  rw [LogicalPlan.bag, LogicalPlan.bag, rows_pushPredicates hwf hmov]
  rw [Multiset.filter_coe]
  exact congrArg _ (List.filter_congr fun row _ => Bool.decide_eq_true.symm)

end

/-! ### Samples -/

/-- A plan built from scans, filters and joins. -/
def JoinTree : LogicalPlan → Prop
  | .seqScan .. => True
  | .filter _ input => JoinTree input
  | .join _ left right _ _ => JoinTree left ∧ JoinTree right
  | _ => False

/-- A column of a table of Booleans, in a scope. -/
def boolColumn (i : ℕ) : BoundExpr := ⟨.columnRef ⟨none, "b", i⟩, .bool, true⟩

/-- A scan of a table with this many columns. -/
def boolScan (oid : OId) (columns : ℕ) : LogicalPlan :=
  .seqScan ⟨oid, "t", 0⟩ ((List.range columns).map fun i => ⟨i, oid, "b", .bool, i, true⟩) none
    ⟨(List.range columns).map fun _ => ⟨"b", .bool, true⟩⟩

/-- A left outer join of two tables of one column. -/
def leftJoin : LogicalPlan :=
  .join .leftOuter (boolScan 0 1) (boolScan 1 1) .none ⟨List.replicate 2 ⟨"b", .bool, true⟩⟩

/-- Each table has one tuple: column 0 is true and the others are false. -/
def oneTuple (_ : OId) : List (OId → Value) := [fun column => .bool (column = 0)]

theorem bag_pushPredicates_left :
    (pushPredicates leftJoin [boolColumn 0]).bag (.plain oneTuple) =
      (leftJoin.bag (.plain oneTuple)).filter (passes (Interp.plain oneTuple).toScalars [boolColumn 0] ·) :=
  bag_pushPredicates _ _ _ ⟨rfl, rfl, rfl⟩ ⟨fun pred hpred _ => by
    obtain rfl := List.mem_singleton.1 hpred
    exact ⟨trivial, by decide⟩, fun pred hpred hside => by
    obtain rfl := List.mem_singleton.1 hpred
    exact absurd hside (by decide), trivial, trivial⟩

/-- **Rows are made up**: `IS NULL` on the right side of a left outer join, below the join, takes
away the partners of the left side. -/
theorem pushdown_leftOuter : ¬ ∀ (I : Interp) (plan : LogicalPlan) (predicates : List BoundExpr),
    JoinTree plan → plan.WellFormed →
      (∀ pred ∈ predicates, ∀ i ∈ pred.columns, i < plan.schema.len) →
        (pushPredicates plan predicates).bag I = (plan.bag I).filter (passes I.toScalars predicates ·) := by
  intro hall
  have h := hall (.plain oneTuple) leftJoin [⟨.isNull (boolColumn 1), .bool, false⟩] ⟨trivial, trivial⟩
    ⟨rfl, rfl, rfl⟩ (by decide)
  exact absurd (congrArg Multiset.card h) (by decide)

/-- The second column of a table of two. -/
def second : LogicalPlan := .projection [boolColumn 1] ["b"] (boolScan 0 2) ⟨[⟨"b", .bool, true⟩]⟩

end Optimizer
end Abdb
