/-
# Conjunctions taken apart and put together again

`split_conjunctions` of `src/optimizer/optimizer.rs` flattens a tree of ANDs of any shape, and
`conjoin` makes a left-deep one of its parts.  In three-valued logic AND is associative, so the
truth value is that of the tree (`truth_conjoin`, `all_truth_splitConjunctions`).  A filter passes the
rows that pass the parts, one after the other in any order (`splits_and_rejoins`).
-/

import Abdb.Optimizer.PushdownSound

namespace Abdb

/-- The truth of an expression on a row. -/
def BoundExpr.truth (S : Scalars) (row : Row) (e : BoundExpr) : Truth := S.truthOf (e.eval S row)

namespace Optimizer

variable {S : Scalars} {row : Row} {e part : BoundExpr} {parts : List BoundExpr}

/-! ### Trees of conjunctions -/

/-- No part is a conjunction. -/
theorem not_isAnd_of_mem (h : part ∈ splitConjunctions e) : ¬ part.IsAnd := by
  induction e using conjunctions_induct with
  | and left right dataType nullable ihl ihr =>
    rw [splitConjunctions_and] at h
    exact (List.mem_append.1 h).elim ihl ihr
  | single e hsingle =>
    rw [splitConjunctions_of_not_isAnd hsingle] at h
    exact List.mem_singleton.1 h ▸ hsingle

/-! ### Truth values -/

theorem truth_and (left right : BoundExpr) (dataType : DataType) (nullable : Bool) :
    (⟨.binaryOp left .and right, dataType, nullable⟩ : BoundExpr).truth S row =
      (left.truth S row).and (right.truth S row) := Scalars.truthOf_ofTruth ..

/-- **A conjunction is that of its parts.** -/
theorem all_truth_splitConjunctions (e : BoundExpr) :
    Truth.all ((splitConjunctions e).map (·.truth S row)) = e.truth S row := by
  induction e using conjunctions_induct with
  | and left right dataType nullable ihl ihr =>
    rw [splitConjunctions_and, List.map_append, Truth.all_append, ihl, ihr, truth_and]
  | single e hsingle =>
    rw [splitConjunctions_of_not_isAnd hsingle]
    exact Truth.and_true _

/-- **`conjoin` makes the conjunction of a list.** -/
theorem truth_conjoin (h : conjoin parts = some e) :
    e.truth S row = Truth.all (parts.map (·.truth S row)) := by
  cases parts with
  | nil => cases h
  | cons first parts =>
    obtain rfl := Option.some.inj h
    rw [List.map_cons, Truth.all, ← Truth.foldl_and, List.foldl_map]
    -- the conjunction so far has the truth value so far
    refine (List.foldl_hom (BoundExpr.truth S row) fun result e => ?_).symm
    exact (truth_and ..).symm

theorem splitConjunctions_ne_nil (e : BoundExpr) : splitConjunctions e ≠ [] := by
  induction e using conjunctions_induct with
  | and left right dataType nullable ihl ihr =>
    rw [splitConjunctions_and]
    exact List.append_ne_nil_of_left_ne_nil ihl _
  | single e hsingle =>
    rw [splitConjunctions_of_not_isAnd hsingle]
    exact List.cons_ne_nil _ _

/-! ### Filters -/

theorem passes_of_perm {parts' : List BoundExpr} (h : parts.Perm parts') :
    passes S parts row = passes S parts' row := h.all_eq

/-- **Filters one after the other** pass the rows that pass all of them. -/
theorem foldl_filter (parts : List BoundExpr) (rows : List Row) :
    parts.foldl (fun rows part => rows.filter (part.accepts S)) rows = rows.filter (passes S parts) := by
  induction parts generalizing rows with
  | nil => exact (filter_passes_nil rows).symm
  | cons part parts ih =>
    rw [List.foldl_cons, ih, List.filter_filter]
    refine List.filter_congr fun row _ => ?_
    exact Bool.and_comm ..

/-- **Splitting and rejoining**: the parts are no conjunctions, put together they have the truth
value of the expression, and as filters, in any order, they pass the rows that it passes. -/
theorem splits_and_rejoins (e : BoundExpr) :
    (∃ e', conjoin (splitConjunctions e) = some e' ∧
      ∀ (S : Scalars) (row : Row), e'.truth S row = e.truth S row) ∧
    (∀ part ∈ splitConjunctions e, ¬ part.IsAnd) ∧
    ∀ (S : Scalars) (parts : List BoundExpr), parts.Perm (splitConjunctions e) →
      (∀ row : Row, passes S parts row = e.accepts S row) ∧
      ∀ rows : List Row, parts.foldl (fun rows part => rows.filter (part.accepts S)) rows =
        rows.filter (e.accepts S) := by
  refine ⟨?_, fun part hpart => not_isAnd_of_mem hpart, fun S parts hperm => ?_⟩
  · obtain ⟨e', he'⟩ : ∃ e', conjoin (splitConjunctions e) = some e' := by
      cases hparts : splitConjunctions e with
      | nil => exact absurd hparts (splitConjunctions_ne_nil e)
      | cons first parts => exact ⟨_, rfl⟩
    refine ⟨e', he', fun S row => ?_⟩
    rw [truth_conjoin he', all_truth_splitConjunctions]
  · have hpasses : ∀ row, passes S parts row = e.accepts S row := fun row => by
      rw [passes_of_perm hperm, passes_splitConjunctions]
    refine ⟨hpasses, fun rows => ?_⟩
    rw [foldl_filter]
    exact List.filter_congr fun row _ => hpasses row

end Optimizer
end Abdb
