/-
# The columns that `collect_scope_indices` finds

A join sends a predicate to the side of the columns that `collect_scope_indices` of
`src/optimizer/optimizer.rs` finds in it.  It looks into every form but LIKE and the forms with a
subquery.  So for an expression without subqueries it finds all columns, and rows that agree on what
it finds agree on the expression, exactly if each column that occurs below a LIKE also occurs
elsewhere (`complete_iff`).
-/

import Abdb.Lib.Parts
import Abdb.Optimizer.PushdownSound
import Abdb.Query.Parts

namespace Abdb

namespace BoundExpr

/-- The expression is a LIKE. -/
def IsLike (e : BoundExpr) : Prop := ∃ expr pattern negated, e.kind = .like expr pattern negated

/-- A reference to column `i`. -/
def IsColumn (i : ℕ) (e : BoundExpr) : Prop := ∃ c, e.kind = .columnRef c ∧ c.scopeIndex = i

/-- Column `i` occurs in an expression, below parts with the property only. -/
def OccursBelow (P : BoundExpr → Prop) (i : ℕ) (e : BoundExpr) : Prop :=
  ∃ c, Relation.ReflTransGen (fun a b => P a ∧ b ∈ a.children) e c ∧ c.IsColumn i

/-- Column `i` occurs in an expression, at any depth. -/
def Occurs : ℕ → BoundExpr → Prop := OccursBelow fun _ => True

/-- Column `i` occurs in an expression, not below a LIKE. -/
def OccursOutsideLike : ℕ → BoundExpr → Prop := OccursBelow fun e => ¬ e.IsLike

/-- There is no subquery in an expression, at any depth. -/
def WithoutSubqueries : BoundExpr → Prop := Everywhere children fun e => e.subqueries = []

variable {P : BoundExpr → Prop} {i : ℕ} {e : BoundExpr}

theorem occursBelow_iff : e.OccursBelow P i ↔
    e.IsColumn i ∨ P e ∧ ∃ child ∈ e.children, child.OccursBelow P i := by
  constructor
  · rintro ⟨c, hpath, hc⟩
    rcases hpath.cases_head with rfl | ⟨child, ⟨hP, hchild⟩, hpath⟩
    · exact .inl hc
    · exact .inr ⟨hP, child, hchild, c, hpath, hc⟩
  · rintro (h | ⟨hP, child, hchild, c, hpath, hc⟩)
    · exact ⟨e, .refl, h⟩
    · exact ⟨c, .head ⟨hP, hchild⟩ hpath, hc⟩

theorem withoutSubqueries_iff : e.WithoutSubqueries ↔
    e.subqueries = [] ∧ ∀ child ∈ e.children, child.WithoutSubqueries := Everywhere.iff_below

theorem withoutSubqueries_leaf (hsub : e.subqueries = []) (h : e.children = []) : e.WithoutSubqueries :=
  withoutSubqueries_iff.2 ⟨hsub, by rw [h]; exact nofun⟩

/-! ### Columns by the parts right below -/

theorem columnsList_eq (list : List BoundExpr) : columnsList list = list.flatMap columns := by
  induction list with
  | nil => rfl
  | cons e list ih => rw [columnsList, ih, List.flatMap_cons]

theorem columnsOption_eq (o : Option BoundExpr) : columnsOption o = o.toList.flatMap columns := by
  cases o with
  | none => rfl
  | some e => exact (List.append_nil _).symm

theorem columnsPairs_eq (list : List (BoundExpr × BoundExpr)) :
    columnsPairs list = list.flatMap fun p => p.1.columns ++ p.2.columns := by
  induction list with
  | nil => rfl
  | cons p list ih => rw [columnsPairs, ih, List.flatMap_cons]

/-- The first and the second parts of pairs. -/
theorem mem_flatMap_pairs {f : BoundExpr → List ℕ} {list : List (BoundExpr × BoundExpr)} :
    i ∈ list.flatMap (fun p => f p.1 ++ f p.2) ↔
      (∃ e ∈ list.map (·.1), i ∈ f e) ∨ ∃ e ∈ list.map (·.2), i ∈ f e := by
  rw [List.mem_flatMap]
  constructor
  · rintro ⟨p, hp, hi⟩
    exact (List.mem_append.1 hi).imp (fun hi => ⟨p.1, List.mem_map_of_mem hp, hi⟩)
      fun hi => ⟨p.2, List.mem_map_of_mem hp, hi⟩
  · rintro (⟨e, he, hi⟩ | ⟨e, he, hi⟩)
    · obtain ⟨p, hp, rfl⟩ := List.mem_map.1 he
      exact ⟨p, hp, List.mem_append_left _ hi⟩
    · obtain ⟨p, hp, rfl⟩ := List.mem_map.1 he
      exact ⟨p, hp, List.mem_append_right _ hi⟩

theorem mem_columns_iff : i ∈ e.columns ↔ e.IsColumn i ∨ ∃ child ∈ e.children, i ∈ child.columns := by
  obtain ⟨kind, dataType, nullable⟩ := e
  cases kind with
  | function f =>
    obtain ⟨name, kind, args, distinct⟩ := f
    simp [columns, BoundExprKind.columns, IsColumn, children, columnsList_eq]
  | case operand whenThen elseResult =>
    rw [columns, BoundExprKind.columns, columnsOption_eq, columnsOption_eq, columnsPairs_eq, List.mem_append,
      List.mem_append, mem_flatMap_pairs, List.mem_flatMap, List.mem_flatMap]
    simp only [children, List.mem_append, IsColumn, reduceCtorEq, false_and, exists_false, false_or,
      or_and_right, exists_or, or_assoc]
  | _ => simp [columns, BoundExprKind.columns, IsColumn, children, columnsList_eq, eq_comm]

end BoundExpr

namespace Optimizer

open BoundExpr

variable {i : ℕ} {e : BoundExpr}

theorem collectList_eq (list : List BoundExpr) : collectList list = list.flatMap collectScopeIndices := by
  induction list with
  | nil => rfl
  | cons e list ih => rw [collectList, ih, List.flatMap_cons]

theorem collectOption_eq (o : Option BoundExpr) : collectOption o = o.toList.flatMap collectScopeIndices := by
  cases o with
  | none => rfl
  | some e => exact (List.append_nil _).symm

theorem collectPairs_eq (list : List (BoundExpr × BoundExpr)) :
    collectPairs list = list.flatMap fun p => collectScopeIndices p.1 ++ collectScopeIndices p.2 := by
  induction list with
  | nil => rfl
  | cons p list ih => rw [collectPairs, ih, List.flatMap_cons]

/-- `collect_scope_indices` looks into all forms but LIKE. -/
theorem mem_collectScopeIndices_iff (h : e.subqueries = []) : i ∈ collectScopeIndices e ↔
    e.IsColumn i ∨ ¬ e.IsLike ∧ ∃ child ∈ e.children, i ∈ collectScopeIndices child := by
  obtain ⟨kind, dataType, nullable⟩ := e
  cases kind with
  | like expr pattern negated => simp [collectScopeIndices, collectKind, IsColumn, IsLike]
  | inSubquery expr subquery negated => cases h
  | existsSubquery subquery negated => cases h
  | subquery query => cases h
  | function f =>
    obtain ⟨name, kind, args, distinct⟩ := f
    simp [collectScopeIndices, collectKind, IsColumn, IsLike, children, collectList_eq]
  | case operand whenThen elseResult =>
    rw [collectScopeIndices, collectKind, collectOption_eq, collectOption_eq, collectPairs_eq,
      List.mem_append,
      List.mem_append, mem_flatMap_pairs, List.mem_flatMap, List.mem_flatMap]
    simp only [children, List.mem_append, IsColumn, IsLike, reduceCtorEq, false_and, exists_false, false_or,
      not_false_eq_true, true_and, or_and_right, exists_or, or_assoc]
  | _ => simp [collectScopeIndices, collectKind, IsColumn, IsLike, children, collectList_eq, eq_comm]

/-! ### All depths -/

/-- A list of columns that is made from the parts right below is made of what occurs there. -/
theorem occursBelow_iff_mem {P : BoundExpr → Prop} {f : BoundExpr → List ℕ}
    (hf : Everywhere children (fun e => i ∈ f e ↔ e.IsColumn i ∨ P e ∧ ∃ child ∈ e.children, i ∈ f child) e) :
    e.OccursBelow P i ↔ i ∈ f e := by
  refine Everywhere.induct (M := fun e => e.OccursBelow P i ↔ i ∈ f e) sizeOf
    (fun _ _ hchild => sizeOf_children hchild) (fun e he ih => ?_) hf
  rw [occursBelow_iff, he]
  refine or_congr_right (and_congr_right fun _ => ?_)
  exact exists_congr fun child => and_congr_right fun hchild => ih child hchild

/-- What occurs is what the value may depend on. -/
theorem occurs_iff : e.Occurs i ↔ i ∈ e.columns :=
  occursBelow_iff_mem fun _ _ => mem_columns_iff.trans (or_congr_right (and_iff_right trivial).symm)

/-- **What `collect_scope_indices` finds**: the columns that occur outside of LIKE. -/
theorem mem_collect_iff (h : e.WithoutSubqueries) : i ∈ collectScopeIndices e ↔ e.OccursOutsideLike i :=
  (occursBelow_iff_mem (h.mono fun _ hsub => mem_collectScopeIndices_iff hsub)).symm

/-- `collect_scope_indices` finds all columns, so that rows that agree on them agree on the
expression. -/
def Complete (e : BoundExpr) : Prop :=
  (∀ i, e.Occurs i → i ∈ collectScopeIndices e) ∧
    ∀ (S : Scalars) (row row' : Row), (∀ i ∈ collectScopeIndices e, row.get i = row'.get i) →
      e.eval S row = e.eval S row'

/-- **`collect_scope_indices` finds all columns** exactly if each one occurs outside of LIKE too. -/
theorem complete_iff (h : e.WithoutSubqueries) : Complete e ↔ ∀ i, e.Occurs i → e.OccursOutsideLike i := by
  constructor
  · rintro ⟨hall, -⟩ i hi
    exact (mem_collect_iff h).1 (hall i hi)
  · intro hall
    have hcollected : ∀ i, e.Occurs i → i ∈ collectScopeIndices e := fun i hi =>
      (mem_collect_iff h).2 (hall i hi)
    refine ⟨hcollected, fun S row row' hrows => ?_⟩
    exact e.eval_congr fun i hi => hrows i (hcollected i (occurs_iff.2 hi))

/-- A column of names. -/
def nameColumn : BoundExpr := ⟨.columnRef ⟨none, "name", 0⟩, .string, true⟩

/-- `name LIKE 'a'`. -/
def nameLikeA : BoundExpr := ⟨.like nameColumn ⟨.literal (.string "a"), .string, false⟩ false, .bool, true⟩

theorem withoutSubqueries_nameLikeA : nameLikeA.WithoutSubqueries :=
  withoutSubqueries_iff.2 ⟨rfl, List.forall_mem_cons.2
    ⟨withoutSubqueries_leaf rfl rfl, List.forall_mem_singleton.2 (withoutSubqueries_leaf rfl rfl)⟩⟩

/-- The column of a LIKE is found if it is tested for NULL too. -/
theorem complete_nameLikeA :
    Complete ⟨.binaryOp ⟨.isNotNull nameColumn, .bool, false⟩ .and nameLikeA, .bool, true⟩ := by
  have hnotNull : WithoutSubqueries ⟨.isNotNull nameColumn, .bool, false⟩ :=
    withoutSubqueries_iff.2 ⟨rfl, List.forall_mem_singleton.2 (withoutSubqueries_leaf rfl rfl)⟩
  have hsub : WithoutSubqueries ⟨.binaryOp ⟨.isNotNull nameColumn, .bool, false⟩ .and nameLikeA,
    .bool, true⟩ :=
    withoutSubqueries_iff.2 ⟨rfl, List.forall_mem_cons.2
      ⟨hnotNull, List.forall_mem_singleton.2 withoutSubqueries_nameLikeA⟩⟩
  refine (complete_iff hsub).2 fun i hi => (mem_collect_iff hsub).1 ?_
  have hmem : i ∈ [0, 0] := occurs_iff.1 hi
  obtain rfl : i = 0 := by simpa using hmem
  decide

/-- LIKE with patterns of plain characters. -/
def plainLike : Scalars := { (Interp.plain oneTuple).toScalars with like := fun v w => some (v = w) }

/-- **LIKE is passed over**: no column is found in `name LIKE 'a'`, which is true of one name and false
of another. -/
theorem not_complete : ¬ ∀ e : BoundExpr, e.WithoutSubqueries → ∀ (S : Scalars) (row row' : Row),
    (∀ i ∈ collectScopeIndices e, row.get i = row'.get i) → e.eval S row = e.eval S row' := by
  intro hall
  have h := hall nameLikeA withoutSubqueries_nameLikeA plainLike [.string "a"] [.string "b"] nofun
  exact absurd h (by decide)

end Optimizer
end Abdb
