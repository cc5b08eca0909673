/-
# When a hash join is the join

`to_physical` makes a hash join of the equalities that `extract_equi_keys` finds, and takes
their left sides for the left input and their right sides, renumbered, for the right input.
It does not look which input a side mentions: an equality may be written from right to left,
and that of USING or NATURAL may compare a column with itself.

If the keys can be renumbered, the hash join accepts the pairs of rows that the condition
accepts, each key on its own input, exactly if the sides are the right way round
(`hashJoin_iff`).
-/

import Abdb.Optimizer.Physical
import Abdb.Optimizer.PushdownSound

namespace Abdb
namespace Optimizer

/-- A pair of rows passes a hash join: the keys are equal and the rest of the condition holds. -/
def hashAccepts (S : Scalars) (leftKeys rightKeys : List BoundExpr) (residual : Option BoundExpr)
    (l r : Row) : Bool :=
  (leftKeys.zip rightKeys).all (fun (a, b) => S.comparison .eq (a.eval S l) (b.eval S r) = some true) &&
    residual.all (·.accepts S (l ++ r))

/-- A hash join of inputs with `n` and `m` columns: each key mentions columns of its input, and the
pairs of rows are those of the condition. -/
structure JoinsBy (n m : ℕ) (condition : BoundJoinCondition) (leftKeys rightKeys : List BoundExpr)
    (residual : Option BoundExpr) : Prop where
  left : ∀ key ∈ leftKeys, ∀ i ∈ key.columns, i < n
  right : ∀ key ∈ rightKeys, ∀ i ∈ key.columns, i < m
  accepts : ∀ (S : Scalars) (l r : Row), l.length = n → r.length = m →
    hashAccepts S leftKeys rightKeys residual l r = condition.accepts S (l ++ r)

/-- The equalities that become keys. -/
def keySides : BoundJoinCondition → List (BoundExpr × BoundExpr)
  | .on expr => (splitConjunctions expr).filterMap equiSides
  | .using exprs | .natural exprs => exprs.filterMap equality
  | .none => []

/-- What is left of a condition without its keys. -/
def residualOf : BoundJoinCondition → Option BoundExpr
  | .on expr => conjoin ((splitConjunctions expr).filter fun part => (equiSides part).isNone)
  | _ => none

/-- The expressions of USING and NATURAL are equalities, as the binder makes them. -/
def Equalities : BoundJoinCondition → Prop
  | .on _ | .none => True
  | .using exprs | .natural exprs => ∀ e ∈ exprs, (equality e).isSome

/-- The right keys mention columns in the forms that `shift_kind` renumbers only. -/
def Shiftable (n : ℕ) (condition : BoundJoinCondition) : Prop :=
  ∀ key ∈ keySides condition, n = 0 ∨ key.2.unshifted = []

/-- **The right way round**: left sides mention the left input, right sides the right input. -/
structure Sided (n m : ℕ) (condition : BoundJoinCondition) : Prop where
  left : ∀ key ∈ keySides condition, ∀ i ∈ key.1.columns, i < n
  right : ∀ key ∈ keySides condition, ∀ i ∈ key.2.columns, n ≤ i ∧ i < n + m

section

variable {S : Scalars} {l r row : Row} {n m : ℕ} {condition : BoundJoinCondition} {expr part a b : BoundExpr}
  {exprs : List BoundExpr} {findIndex : OId → OId → Option Catalog.Index}

/-! ### Schemas -/

theorem schema_tryIndexScan {table : Catalog.Table} {columns : List Catalog.Column} {schema : Schema}
    {predicates : List BoundExpr} {plan : PhysicalPlan}
    (h : tryIndexScan findIndex table columns schema predicates = some plan) : plan.schema = schema := by
  obtain ⟨⟨pred, idx⟩, -, hsome⟩ := List.exists_of_findSome?_eq_some h
  simp only [Option.bind_eq_bind, Option.bind_eq_some_iff, Option.some.injEq] at hsome
  obtain ⟨_, -, _, -, _, -, rfl⟩ := hsome
  rfl

/-- **A physical plan has the schema of its logical plan.** -/
theorem schema_toPhysical (findIndex : OId → OId → Option Catalog.Index) (plan : LogicalPlan) :
    (toPhysical findIndex plan).schema = plan.schema := by
  induction plan with
  | filter predicate input ih =>
    cases input with
    | seqScan table columns aliasName schema =>
      rw [toPhysical]
      cases hindex : tryIndexScan findIndex table columns schema (splitConjunctions predicate) with
      | none => rfl
      | some physIndex => exact schema_tryIndexScan hindex
    | _ => exact ih
  | join kind left right condition schema ihl ihr =>
    rw [toPhysical]
    cases extractEquiKeys condition with
    | none => rfl
    | some keys => rfl
  | sort orderBy input ih => exact ih
  | limit limit offset input ih => exact ih
  | distinct input ih => exact ih
  | _ => rfl

/-- What `to_physical` makes of a join. -/
theorem toPhysical_join {kind kind' : BoundJoinKind} {left right : LogicalPlan} {schema schema' : Schema}
    {physLeft physRight : PhysicalPlan} {leftKeys rightKeys : List BoundExpr} {residual : Option BoundExpr}
    (h : toPhysical findIndex (.join kind left right condition schema) =
      .hashJoin kind' physLeft physRight leftKeys rightKeys residual schema') :
    leftKeys = (keySides condition).map Prod.fst ∧
    rightKeys = (keySides condition).map (fun key => shiftScopeIndices (-left.schema.len) key.2) ∧
    residual = residualOf condition := by
  rw [toPhysical, schema_toPhysical] at h
  cases condition with
  | on expr =>
    by_cases hkeys : ((splitConjunctions expr).filterMap equiSides).isEmpty
    · simp [extractEquiKeys, hkeys] at h
    · simp only [extractEquiKeys, hkeys, Bool.false_eq_true, if_false, PhysicalPlan.hashJoin.injEq] at h
      obtain ⟨-, -, -, rfl, rfl, rfl, -⟩ := h
      exact ⟨rfl, List.map_map, rfl⟩
  | «using» exprs =>
    by_cases hkeys : (exprs.filterMap equality).isEmpty
    · simp [extractEquiKeys, hkeys] at h
    · simp only [extractEquiKeys, hkeys, Bool.false_eq_true, if_false, PhysicalPlan.hashJoin.injEq] at h
      obtain ⟨-, -, -, rfl, rfl, rfl, -⟩ := h
      exact ⟨rfl, List.map_map, rfl⟩
  | natural exprs =>
    by_cases hkeys : (exprs.filterMap equality).isEmpty
    · simp [extractEquiKeys, hkeys] at h
    · simp only [extractEquiKeys, hkeys, Bool.false_eq_true, if_false, PhysicalPlan.hashJoin.injEq] at h
      obtain ⟨-, -, -, rfl, rfl, rfl, -⟩ := h
      exact ⟨rfl, List.map_map, rfl⟩
  | none => cases h

/-! ### The pairs of rows -/

/-- The sides of each key are equal on a joined row. -/
def keysHold (S : Scalars) (row : Row) (keys : List (BoundExpr × BoundExpr)) : Bool :=
  keys.all fun (a, b) => S.comparison .eq (a.eval S row) (b.eval S row) = some true

theorem accepts_of_equality (h : equality part = some (a, b)) :
    part.accepts S row = decide (S.comparison .eq (a.eval S row) (b.eval S row) = some true) := by
  obtain ⟨kind, dataType, nullable⟩ := part
  cases kind with
  | binaryOp left op right =>
    cases op with
    | eq =>
      obtain ⟨rfl, rfl⟩ := Prod.mk.inj (Option.some.inj h)
      rw [BoundExpr.accepts, BoundExpr.eval, BoundExprKind.eval, Scalars.binary, Scalars.truthOf_ofTruth]
    | _ => cases h
  | _ => cases h

theorem equality_of_equiSides {key : BoundExpr × BoundExpr} (h : equiSides part = some key) :
    equality part = some key := (Option.filter_eq_some_iff.1 h).1

/-- A list is checked by checking what a partial function makes of it, and the rest. -/
theorem all_filterMap {α β : Type*} {f : α → Option β} {p : α → Bool} {q : β → Bool}
    (h : ∀ x y, f x = some y → p x = q y) (list : List α) :
    list.all p = ((list.filterMap f).all q && (list.filter fun x => (f x).isNone).all p) := by
  induction list with
  | nil => rfl
  | cons x list ih =>
    rw [List.all_cons, ih, List.filterMap_cons, List.filter_cons]
    cases hf : f x with
    | none =>
      simp only [Option.isNone_none, if_true, List.all_cons]
      rw [Bool.and_left_comm]
    | some y =>
      simp only [Option.isNone_some, Bool.false_eq_true, if_false, List.all_cons]
      rw [h x y hf, Bool.and_assoc]

theorem accepts_foldl_and (exprs : List BoundExpr) : ∀ e : BoundExpr,
    (exprs.foldl (fun result e => (⟨.binaryOp result .and e, .bool, result.nullable || e.nullable⟩ : BoundExpr))
      e).accepts S row = (e.accepts S row && passes S exprs row) := by
  induction exprs with
  | nil => exact fun e => (Bool.and_true _).symm
  | cons e' exprs ih =>
    intro e
    rw [List.foldl_cons, ih, passes, passes, List.all_cons, ← Bool.and_assoc]
    congr 1
    rw [Bool.eq_iff_iff, Bool.and_eq_true]
    simp only [BoundExpr.accepts, BoundExpr.eval, BoundExprKind.eval, Scalars.binary,
      Scalars.truthOf_ofTruth, Truth.and_eq_true, decide_eq_true_eq]

/-- **Rejoining conjuncts** loses none. -/
theorem accepts_conjoin (exprs : List BoundExpr) :
    (conjoin exprs).all (·.accepts S row) = passes S exprs row := by
  cases exprs with
  | nil => rfl
  | cons e exprs => exact accepts_foldl_and exprs e

/-- A condition is its keys and its residual. -/
theorem accepts_condition (heq : Equalities condition) : condition.accepts S row =
    (keysHold S row (keySides condition) && (residualOf condition).all (·.accepts S row)) := by
  have hlist : ∀ exprs : List BoundExpr, (∀ e ∈ exprs, (equality e).isSome) →
      exprs.all (·.accepts S row) = (keysHold S row (exprs.filterMap equality) && true) := by
    intro exprs hexprs
    rw [all_filterMap (fun x y h => accepts_of_equality h) exprs]
    refine congrArg _ ?_
    rw [List.filter_eq_nil_iff.2 fun e he => ?_]
    · rfl
    · rw [Option.isNone_iff_eq_none]
      exact Option.isSome_iff_ne_none.1 (hexprs e he)
  cases condition with
  | on expr =>
    rw [BoundJoinCondition.accepts, residualOf, accepts_conjoin, ← passes_splitConjunctions]
    exact all_filterMap (fun x y h => accepts_of_equality (equality_of_equiSides h)) _
  | «using» exprs => exact hlist exprs heq
  | natural exprs => exact hlist exprs heq
  | none => rfl

/-- Keys that are the right way round are equal on their inputs if they are on the joined row. -/
theorem hashAccepts_eq (hl : l.length = n) {keys : List (BoundExpr × BoundExpr)} {residual : Option BoundExpr}
    (hleft : ∀ key ∈ keys, ∀ i ∈ key.1.columns, i < n)
    (hright : ∀ key ∈ keys, Renumbered n key.2) :
    hashAccepts S (keys.map Prod.fst) (keys.map fun key => shiftScopeIndices (-n) key.2) residual l r =
      (keysHold S (l ++ r) keys && residual.all (·.accepts S (l ++ r))) := by
  rw [hashAccepts, keysHold, List.zip_map', List.all_map]
  congr 1
  rw [Bool.eq_iff_iff, List.all_eq_true, List.all_eq_true]
  refine forall₂_congr fun key hkey => ?_
  have ha : key.1.eval S (l ++ r) = key.1.eval S l :=
    BoundExpr.eval_congr _ fun i hi => Row.get_append_left ((hleft key hkey i hi).trans_eq hl.symm)
  obtain ⟨hcols, hshift⟩ := hright key hkey
  rw [Function.comp]
  dsimp only
  rw [ha, eval_shift hl _ hcols hshift]

/-! ### Renumbered columns -/

theorem columnsKind_keep (kind : BoundExprKind) (h : n = 0 ∨ kind.columns = []) :
    kind.columns = kind.columns.map (shiftIndex · (-n)) := by
  rcases h with rfl | h
  · refine (List.map_id'' (fun i => ?_) _).symm
    rw [shiftIndex_neg (Nat.zero_le i), Nat.sub_zero]
  · rw [h, List.map_nil]

mutual

theorem columns_shift : ∀ e : BoundExpr, (n = 0 ∨ e.unshifted = []) →
    (shiftScopeIndices (-n) e).columns = e.columns.map (shiftIndex · (-n))
  | ⟨kind, _, _⟩, h => columnsKind_shift kind h

theorem columnsKind_shift : ∀ kind : BoundExprKind, (n = 0 ∨ kind.unshifted = []) →
    (shiftKind (-n) kind).columns = kind.columns.map (shiftIndex · (-n))
  | .columnRef _, _ => rfl
  | .binaryOp left _ right, h => by
    rw [BoundExprKind.unshifted, List.append_eq_nil_iff] at h
    rw [shiftKind, BoundExprKind.columns, BoundExprKind.columns, List.map_append,
      columns_shift left (h.imp id And.left), columns_shift right (h.imp id And.right)]
  | .unaryOp _ expr, h => columns_shift expr h
  | .isNull expr, h => columns_shift expr h
  | .isNotNull expr, h => columns_shift expr h
  | .literal _, _ => rfl
  | .like expr pattern negated, h => columnsKind_keep (.like expr pattern negated) h
  | .between expr low high negated, h => columnsKind_keep (.between expr low high negated) h
  | .inList expr list negated, h => columnsKind_keep (.inList expr list negated) h
  | .inSubquery expr subquery negated, h => columnsKind_keep (.inSubquery expr subquery negated) h
  | .existsSubquery _ _, _ => rfl
  | .subquery _, _ => rfl
  | .function f, h => columnsKind_keep (.function f) h
  | .cast expr targetType, h => columnsKind_keep (.cast expr targetType) h
  | .case operand whenThen elseResult, h => columnsKind_keep (.case operand whenThen elseResult) h

end

/-- **The hash join is the join** exactly if its keys are the right way round. -/
theorem hashJoin_iff {kind kind' : BoundJoinKind} {left right : LogicalPlan} {schema schema' : Schema}
    {physLeft physRight : PhysicalPlan} {leftKeys rightKeys : List BoundExpr} {residual : Option BoundExpr}
    (h : toPhysical findIndex (.join kind left right condition schema) =
      .hashJoin kind' physLeft physRight leftKeys rightKeys residual schema')
    (hsize : left.schema.len + right.schema.len ≤ 2 ^ 64) (heq : Equalities condition)
    (hshift : Shiftable left.schema.len condition) :
    JoinsBy left.schema.len right.schema.len condition leftKeys rightKeys residual ↔
      Sided left.schema.len right.schema.len condition := by
  obtain ⟨rfl, rfl, rfl⟩ := toPhysical_join h
  constructor
  · rintro ⟨hleft, hright, -⟩
    refine ⟨fun key hkey => hleft _ (List.mem_map_of_mem hkey), fun key hkey i hi => ?_⟩
    have hcol : shiftIndex i (-left.schema.len) < right.schema.len := by
      refine hright _ (List.mem_map_of_mem hkey) _ ?_
      rw [columns_shift _ (hshift key hkey)]
      exact List.mem_map_of_mem hi
    rw [shiftIndex] at hcol
    split_ifs at hcol <;> omega
  · rintro ⟨hleft, hright⟩
    refine ⟨fun key hkey i hi => ?_, fun key hkey i hi => ?_, fun S l r hl _ => ?_⟩
    · obtain ⟨sides, hsides, rfl⟩ := List.mem_map.1 hkey
      exact hleft sides hsides i hi
    · obtain ⟨sides, hsides, rfl⟩ := List.mem_map.1 hkey
      rw [columns_shift _ (hshift sides hsides)] at hi
      obtain ⟨j, hj, rfl⟩ := List.mem_map.1 hi
      obtain ⟨hge, hlt⟩ := hright sides hsides j hj
      rw [shiftIndex_neg hge]
      omega
    · rw [hashAccepts_eq hl hleft fun key hkey =>
        ⟨fun i hi => (hright key hkey i hi).1, hshift key hkey⟩, accepts_condition heq]

end

/-! ### Samples -/

/-- An equality of two columns. -/
def sameColumn (i j : ℕ) : BoundExpr := ⟨.binaryOp (boolColumn i) .eq (boolColumn j), .bool, true⟩

/-- An inner join of two tables of one column. -/
def innerJoin (condition : BoundExpr) : LogicalPlan :=
  .join .inner (boolScan 0 1) (boolScan 1 1) (.on condition) ⟨List.replicate 2 ⟨"b", .bool, true⟩⟩

theorem hashJoin_forward : ∃ leftKeys rightKeys residual,
    JoinsBy 1 1 (.on (sameColumn 0 1)) leftKeys rightKeys residual := by
  have hshift : Shiftable 1 (.on (sameColumn 0 1)) := by
    intro key hkey
    obtain rfl := List.mem_singleton.1 (hkey : key ∈ [(boolColumn 0, boolColumn 1)])
    exact Or.inr rfl
  exact ⟨_, _, _, (hashJoin_iff (rfl : toPhysical findIndexForColumn (innerJoin (sameColumn 0 1)) = _)
    (by decide) trivial hshift).2 ⟨by decide, by decide⟩⟩

/-- **Keys the wrong way round**: `ON b.x = a.y` hashes the left input by a column of the right. -/
theorem hashJoin_backward : ¬ ∀ (kind kind' : BoundJoinKind) (left right : LogicalPlan)
    (condition : BoundJoinCondition) (schema schema' : Schema) (physLeft physRight : PhysicalPlan)
    (leftKeys rightKeys : List BoundExpr) (residual : Option BoundExpr),
    toPhysical findIndexForColumn (.join kind left right condition schema) =
      .hashJoin kind' physLeft physRight leftKeys rightKeys residual schema' →
        JoinsBy left.schema.len right.schema.len condition leftKeys rightKeys residual := by
  intro hall
  obtain ⟨hleft, -, -⟩ := hall .inner .inner _ _ _ _ _ _ _ _ _ _
    (rfl : toPhysical findIndexForColumn (innerJoin (sameColumn 1 0)) = _)
  exact absurd hleft (by decide)

end Optimizer
end Abdb
