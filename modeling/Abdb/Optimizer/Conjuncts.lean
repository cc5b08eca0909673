/-
# Predicate pushdown loses no predicate

The conjuncts of the Filter nodes of a plan, each with the side it stands on at every join above it.
`push_predicates` keeps them and those of the predicates it is given, each one once: a conjunct stays
where it is or moves down, and where it goes to the right input of a join it is renumbered (`Moved`).
The schemas of plans are kept by `push_predicates`, `to_physical` and `fuse_sort_limit`
(`conjuncts_kept`).
-/

import Abdb.Optimizer.Conjunctions
import Abdb.Optimizer.FuseSortLimit
import Abdb.Optimizer.HashJoin
import Mathlib.Algebra.Order.Group.Multiset
import Mathlib.Data.Multiset.MapFold

namespace Abdb

/-- An input of a join. -/
inductive JoinInput
  | left | right
deriving DecidableEq, Repr

/-- A place in a plan: the inputs of the joins above it, from the root on. -/
abbrev Place := List JoinInput

namespace LogicalPlan

/-- The input of an operator with one input. -/
def input? : LogicalPlan → Option LogicalPlan
  | .filter _ input | .sort _ input | .limit _ _ input | .distinct input => some input
  | .projection _ _ input _ | .aggregate _ _ input _ => some input
  | .insert _ _ _ source _ => some source
  | .update _ _ _ input _ | .delete _ _ input _ => some input
  | _ => none

/-- The conjuncts of predicates at the root of a plan. -/
def atRoot (predicates : List BoundExpr) : Multiset (Place × BoundExpr) :=
  ↑((predicates.flatMap Optimizer.splitConjunctions).map fun conjunct => (([] : Place), conjunct))

/-- The conjuncts of an input of a join, seen from the join. -/
def inside (i : JoinInput) (c : Place × BoundExpr) : Place × BoundExpr := (i :: c.1, c.2)

/-- The conjuncts of all Filter nodes of a plan, with their places. -/
def conjuncts : LogicalPlan → Multiset (Place × BoundExpr)
  | .filter predicate input => input.conjuncts + atRoot [predicate]
  | .join _ left right _ _ => left.conjuncts.map (inside .left) + right.conjuncts.map (inside .right)
  | .sort _ input | .limit _ _ input | .distinct input => input.conjuncts
  | .projection _ _ input _ | .aggregate _ _ input _ => input.conjuncts
  | .insert _ _ _ source _ => source.conjuncts
  | .update _ _ _ input _ | .delete _ _ input _ => input.conjuncts
  | .seqScan .. | .indexScan .. | .values .. => 0
  | .createTable | .dropTable | .alterTable | .createIndex | .dropIndex | .nothing => 0

/-- What may become of a conjunct in a plan: it stays, or it moves down, and each time it goes to the
right input of a join it is renumbered by the number of columns on the left. -/
inductive Moved : LogicalPlan → Place × BoundExpr → Place × BoundExpr → Prop
  | stays {plan c} : Moved plan c c
  | under {plan input c c'} (hinput : plan.input? = some input) (h : Moved input c c') : Moved plan c c'
  | within {kind left right condition schema c c'} (i : JoinInput)
      (h : Moved (match i with | .left => left | .right => right) c c') :
      Moved (.join kind left right condition schema) (inside i c) (inside i c')
  | toLeft {kind left right condition schema e c} (h : Moved left ([], e) c) :
      Moved (.join kind left right condition schema) ([], e) (inside .left c)
  | toRight {kind left right condition schema e c}
      (h : Moved right ([], Optimizer.shiftScopeIndices (-left.schema.len) e) c) :
      Moved (.join kind left right condition schema) ([], e) (inside .right c)

/-- A conjunct moves down only, and is as it was unless it goes to a right input. -/
theorem Moved.way {plan : LogicalPlan} {c c' : Place × BoundExpr} (h : Moved plan c c') :
    ∃ way, c'.1 = c.1 ++ way ∧ (.right ∉ way → c'.2 = c.2) := by
  induction h with
  | stays => exact ⟨[], (List.append_nil _).symm, fun _ => rfl⟩
  | under _ _ ih => exact ih
  | within i _ ih =>
    obtain ⟨way, hway, hsame⟩ := ih
    exact ⟨way, congrArg (i :: ·) hway, hsame⟩
  | toLeft _ ih =>
    obtain ⟨way, hway, hsame⟩ := ih
    exact ⟨.left :: way, congrArg (JoinInput.left :: ·) hway, fun h => hsame (List.not_mem_of_not_mem_cons h)⟩
  | toRight _ ih =>
    obtain ⟨way, hway, -⟩ := ih
    exact ⟨.right :: way, congrArg (JoinInput.right :: ·) hway, fun h => absurd List.mem_cons_self h⟩

end LogicalPlan

namespace Optimizer

open LogicalPlan

variable {plan input left right : LogicalPlan} {predicates ps qs : List BoundExpr} {delta : ℤ} {n : ℕ}

/-! ### Conjuncts -/

/-- The parts of a part are the part itself. -/
theorem flatMap_splitConjunctions (e : BoundExpr) :
    (splitConjunctions e).flatMap splitConjunctions = splitConjunctions e := by
  have hself : ∀ part ∈ splitConjunctions e, splitConjunctions part = [part] := fun part hpart =>
    splitConjunctions_of_not_isAnd (not_isAnd_of_mem hpart)
  rw [List.flatMap_congr hself, List.flatMap_singleton']

theorem isAnd_shiftScopeIndices {e : BoundExpr} (h : (shiftScopeIndices delta e).IsAnd) : e.IsAnd := by
  obtain ⟨kind, dataType, nullable⟩ := e
  obtain ⟨l, r, h⟩ := h
  cases kind with
  | binaryOp left op right =>
    obtain ⟨-, rfl, -⟩ := BoundExprKind.binaryOp.inj h
    exact ⟨left, right, rfl⟩
  | _ => cases h

/-- **Renumbering goes through a conjunction.** -/
theorem splitConjunctions_shiftScopeIndices (e : BoundExpr) :
    splitConjunctions (shiftScopeIndices delta e) = (splitConjunctions e).map (shiftScopeIndices delta) := by
  induction e using conjunctions_induct with
  | and left right dataType nullable ihl ihr =>
    rw [splitConjunctions_and, List.map_append, ← ihl, ← ihr]
    rfl
  | single e h =>
    rw [splitConjunctions_of_not_isAnd h, splitConjunctions_of_not_isAnd fun hand =>
      h (isAnd_shiftScopeIndices hand)]
    rfl

theorem atRoot_append (ps qs : List BoundExpr) : atRoot (ps ++ qs) = atRoot ps + atRoot qs := by
  rw [atRoot, List.flatMap_append, List.map_append, ← Multiset.coe_add]
  rfl

theorem atRoot_perm (h : ps.Perm qs) : atRoot ps = atRoot qs :=
  Multiset.coe_eq_coe.2 ((h.flatMap_right _).map _)

theorem atRoot_splitConjunctions (e : BoundExpr) : atRoot (splitConjunctions e) = atRoot [e] := by
  rw [atRoot, atRoot, flatMap_splitConjunctions, List.flatMap_singleton]

theorem atRoot_shift (predicates : List BoundExpr) : atRoot (predicates.map (shiftScopeIndices delta)) =
    (atRoot predicates).map fun c => (c.1, shiftScopeIndices delta c.2) := by
  have hsplit : (predicates.map (shiftScopeIndices delta)).flatMap splitConjunctions =
      (predicates.flatMap splitConjunctions).map (shiftScopeIndices delta) := by
    rw [List.flatMap_map, List.map_flatMap]
    exact List.flatMap_congr fun e _ => splitConjunctions_shiftScopeIndices e
  rw [atRoot, atRoot, hsplit, Multiset.map_coe, List.map_map, List.map_map]
  rfl

theorem place_of_mem_atRoot {c : Place × BoundExpr} (h : c ∈ atRoot predicates) : c.1 = [] := by
  obtain ⟨e, -, rfl⟩ := List.mem_map.1 (Multiset.mem_coe.1 h)
  rfl

theorem conjuncts_filters : (filters predicates plan).conjuncts = plan.conjuncts + atRoot predicates := by
  induction predicates with
  | nil => exact (add_zero _).symm
  | cons e predicates ih =>
    have happend : atRoot (e :: predicates) = atRoot [e] + atRoot predicates := atRoot_append [e] predicates
    rw [happend, add_comm (atRoot [e]), ← add_assoc, ← ih]
    rfl

/-- The predicates of a join, by the inputs they go to. -/
theorem atRoot_sides (n : ℕ) (predicates : List BoundExpr) : atRoot predicates =
    atRoot (leftPreds n predicates) + atRoot (predicates.filter (side n · = .right)) +
      atRoot (joinPreds n predicates) := by
  rw [← atRoot_append, ← atRoot_append]
  refine atRoot_perm ?_
  induction predicates with
  | nil => rfl
  | cons e predicates ih =>
    rw [leftPreds, joinPreds, List.filter_cons, List.filter_cons, List.filter_cons]
    cases side n e with
    | left => exact ih.cons e
    | right => exact (ih.cons e).trans (List.perm_middle.symm.append_right _)
    | both => exact (ih.cons e).trans List.perm_middle.symm

/-! ### Plans -/

theorem moved_rel_refl (s : Multiset (Place × BoundExpr)) : Multiset.Rel (Moved plan) s s :=
  Multiset.rel_refl_of_refl_on fun _ _ => .stays

/-- Predicates that stay above a plan. -/
theorem rel_filters : Multiset.Rel (Moved plan) (plan.conjuncts + atRoot predicates)
    (filters predicates plan).conjuncts := by
  rw [conjuncts_filters]
  exact moved_rel_refl _

/-- What happens in the input of an operator happens in the plan. -/
theorem rel_under {s t : Multiset (Place × BoundExpr)} (hinput : plan.input? = some input)
    (h : Multiset.Rel (Moved input) s t) : Multiset.Rel (Moved plan) s t :=
  h.mono fun _ _ _ _ hmoved => .under hinput hmoved

section Join

variable {kind : BoundJoinKind} {condition : BoundJoinCondition} {schema : Schema}
  {s t : Multiset (Place × BoundExpr)}

/-- What happens in the left input of a join. -/
theorem rel_left (h : Multiset.Rel (Moved left) s t) :
    Multiset.Rel (Moved (.join kind left right condition schema)) (s.map (inside .left))
      (t.map (inside .left)) :=
  Multiset.rel_map.2 (h.mono fun _ _ _ _ hmoved => .within .left hmoved)

theorem rel_right (h : Multiset.Rel (Moved right) s t) :
    Multiset.Rel (Moved (.join kind left right condition schema)) (s.map (inside .right))
      (t.map (inside .right)) :=
  Multiset.rel_map.2 (h.mono fun _ _ _ _ hmoved => .within .right hmoved)

/-- What goes from a join to its left input. -/
theorem rel_toLeft (h : Multiset.Rel (Moved left) (atRoot predicates) t) :
    Multiset.Rel (Moved (.join kind left right condition schema)) (atRoot predicates)
      (t.map (inside .left)) := by
  refine Multiset.rel_map_right.2 (h.mono fun c hc c' _ hmoved => ?_)
  obtain ⟨place, e⟩ := c
  obtain rfl : place = [] := place_of_mem_atRoot hc
  exact .toLeft hmoved

/-- What goes from a join to its right input is renumbered. -/
theorem rel_toRight
    (h : Multiset.Rel (Moved right) (atRoot (predicates.map (shiftScopeIndices (-left.schema.len)))) t) :
    Multiset.Rel (Moved (.join kind left right condition schema)) (atRoot predicates)
      (t.map (inside .right)) := by
  rw [atRoot_shift, Multiset.rel_map_left] at h
  refine Multiset.rel_map_right.2 (h.mono fun c hc c' _ hmoved => ?_)
  obtain ⟨place, e⟩ := c
  obtain rfl : place = [] := place_of_mem_atRoot hc
  exact .toRight hmoved

end Join

/-- **No conjunct is lost**, and none is added. -/
theorem rel_conjuncts (plan : LogicalPlan) (predicates : List BoundExpr) : Multiset.Rel (Moved plan)
    (plan.conjuncts + atRoot predicates) (pushPredicates plan predicates).conjuncts := by
  induction plan generalizing predicates with
  | filter predicate input ih =>
    have h := ih (predicates ++ splitConjunctions predicate)
    rw [atRoot_append, atRoot_splitConjunctions, add_comm (atRoot predicates), ← add_assoc] at h
    exact rel_under rfl h
  | projection exprs aliases input schema ih => exact rel_under rfl (ih predicates)
  | sort orderBy input ih => exact rel_under rfl (ih predicates)
  | distinct input ih => exact rel_under rfl (ih predicates)
  | update table tableColumns assignments input schema ih => exact rel_under rfl (ih predicates)
  | delete table tableColumns input schema ih => exact rel_under rfl (ih predicates)
  | aggregate groupBy aggregates input schema ih =>
    have h : Multiset.Rel (Moved (.aggregate groupBy aggregates input schema)) _ _ := rel_under rfl (ih [])
    rw [pushPredicates, conjuncts_filters]
    exact (add_zero (input.conjuncts) ▸ h).add (moved_rel_refl _)
  | limit limit offset input ih =>
    have h : Multiset.Rel (Moved (.limit limit offset input)) _ _ := rel_under rfl (ih [])
    rw [pushPredicates, conjuncts_filters]
    exact (add_zero (input.conjuncts) ▸ h).add (moved_rel_refl _)
  | join kind left right condition schema ihl ihr =>
    obtain ⟨keptLeft, toLeft, hkeptLeft, htoLeft, hleft⟩ :=
      Multiset.rel_add_left.1 (ihl (leftPreds left.schema.len predicates))
    obtain ⟨keptRight, toRight, hkeptRight, htoRight, hright⟩ :=
      Multiset.rel_add_left.1 (ihr (rightPreds left.schema.len predicates))
    rw [pushPredicates, conjuncts_filters, conjuncts, conjuncts, hleft, hright, Multiset.map_add,
      Multiset.map_add, atRoot_sides left.schema.len predicates, ← add_assoc, add_add_add_comm]
    refine Multiset.Rel.add (Multiset.Rel.add ?_ ?_) (moved_rel_refl _)
    · exact (rel_left hkeptLeft).add (rel_toLeft htoLeft)
    · exact (rel_right hkeptRight).add (rel_toRight htoRight)
  | _ => exact rel_filters

/-- **Pushdown keeps the conjuncts, and the optimizer's passes keep the schema.** -/
theorem conjuncts_kept (plan : LogicalPlan) (predicates : List BoundExpr)
    (findIndex : OId → OId → Option Catalog.Index) (physical : PhysicalPlan) :
    (pushPredicates plan predicates).schema = plan.schema ∧
    Multiset.Rel (Moved plan) (plan.conjuncts + atRoot predicates)
      (pushPredicates plan predicates).conjuncts ∧
    (toPhysical findIndex plan).schema = plan.schema ∧
    (fuseSortLimit physical).schema = physical.schema :=
  ⟨schema_pushPredicates plan predicates, rel_conjuncts plan predicates, schema_toPhysical findIndex plan,
    schema_fuse physical⟩

end Optimizer
end Abdb
