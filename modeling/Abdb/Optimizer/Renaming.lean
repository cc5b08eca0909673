/-
# Renumbering the columns of an expression

`shift_scope_indices` of `src/optimizer/optimizer.rs` moves a predicate to one side of a join.  It
should be a renaming: every column reference changed by `delta`, and nothing else.  `BoundExpr.rename`
is that renaming for any renumbering of the columns, and an expression renamed has on a row the
value it had on the row renumbered (`eval_rename`).

`shift_kind` descends into a few forms only, so it is the renaming exactly if nothing moves or no
column occurs below another form (`renames_iff`).
-/

import Abdb.Optimizer.PushdownSound

namespace Abdb

mutual

/-- The expression with its columns renumbered, at any depth; a subquery has its own. -/
def BoundExpr.rename (f : ℕ → ℕ) : BoundExpr → BoundExpr
  | ⟨kind, dataType, nullable⟩ => ⟨kind.rename f, dataType, nullable⟩

def BoundExprKind.rename (f : ℕ → ℕ) : BoundExprKind → BoundExprKind
  | .literal lit => .literal lit
  | .columnRef c => .columnRef { c with scopeIndex := f c.scopeIndex }
  | .binaryOp left op right => .binaryOp (left.rename f) op (right.rename f)
  | .unaryOp op expr => .unaryOp op (expr.rename f)
  | .isNull expr => .isNull (expr.rename f)
  | .isNotNull expr => .isNotNull (expr.rename f)
  | .like expr pattern negated => .like (expr.rename f) (pattern.rename f) negated
  | .between expr low high negated => .between (expr.rename f) (low.rename f) (high.rename f) negated
  | .inList expr list negated => .inList (expr.rename f) (renameList f list) negated
  | .inSubquery expr subquery negated => .inSubquery (expr.rename f) subquery negated
  | .existsSubquery subquery negated => .existsSubquery subquery negated
  | .subquery query => .subquery query
  | .function ⟨name, kind, args, distinct⟩ => .function ⟨name, kind, renameList f args, distinct⟩
  | .cast expr targetType => .cast (expr.rename f) targetType
  | .case operand whenThen elseResult =>
    .case (renameOption f operand) (renamePairs f whenThen) (renameOption f elseResult)

def renameList (f : ℕ → ℕ) : List BoundExpr → List BoundExpr
  | [] => []
  | e :: list => e.rename f :: renameList f list

def renameOption (f : ℕ → ℕ) : Option BoundExpr → Option BoundExpr
  | none => none
  | some e => some (e.rename f)

def renamePairs (f : ℕ → ℕ) : List (BoundExpr × BoundExpr) → List (BoundExpr × BoundExpr)
  | [] => []
  | (w, t) :: list => (w.rename f, t.rename f) :: renamePairs f list

end

section Rename

variable {S : Scalars} {row row' : Row} {f : ℕ → ℕ}

mutual

/-- **A renamed expression reads the renumbered row.** -/
theorem BoundExpr.eval_rename : ∀ e : BoundExpr, (∀ i ∈ e.columns, row.get (f i) = row'.get i) →
    (e.rename f).eval S row = e.eval S row'
  | ⟨kind, dataType, _⟩, h => kind.eval_rename dataType h

theorem BoundExprKind.eval_rename (dataType : DataType) : ∀ k : BoundExprKind,
    (∀ i ∈ k.columns, row.get (f i) = row'.get i) → (k.rename f).eval S row dataType = k.eval S row' dataType
  | .literal _, _ => rfl
  | .columnRef c, h => h _ (List.mem_singleton.2 rfl)
  | .binaryOp left op right, h => by
    rw [BoundExprKind.columns, List.forall_mem_append] at h
    rw [BoundExprKind.rename, BoundExprKind.eval, BoundExprKind.eval, left.eval_rename h.1,
      right.eval_rename h.2]
  | .unaryOp .neg expr, h => by
    rw [BoundExprKind.rename, BoundExprKind.eval, BoundExprKind.eval, expr.eval_rename h]
  | .unaryOp .not expr, h => by
    rw [BoundExprKind.rename, BoundExprKind.eval, BoundExprKind.eval, expr.eval_rename h]
  | .isNull expr, h => by
    rw [BoundExprKind.rename, BoundExprKind.eval, BoundExprKind.eval, expr.eval_rename h]
  | .isNotNull expr, h => by
    rw [BoundExprKind.rename, BoundExprKind.eval, BoundExprKind.eval, expr.eval_rename h]
  | .like expr pattern negated, h => by
    rw [BoundExprKind.columns, List.forall_mem_append] at h
    rw [BoundExprKind.rename, BoundExprKind.eval, BoundExprKind.eval, expr.eval_rename h.1,
      pattern.eval_rename h.2]
  | .between expr low high negated, h => by
    rw [BoundExprKind.columns, List.forall_mem_append, List.forall_mem_append] at h
    rw [BoundExprKind.rename, BoundExprKind.eval, BoundExprKind.eval, expr.eval_rename h.1.1,
      low.eval_rename h.1.2, high.eval_rename h.2]
  | .inList expr list negated, h => by
    rw [BoundExprKind.columns, List.forall_mem_append] at h
    rw [BoundExprKind.rename, BoundExprKind.eval, BoundExprKind.eval, expr.eval_rename h.1,
      evalList_rename list h.2]
  | .inSubquery expr subquery negated, h => by
    rw [BoundExprKind.rename, BoundExprKind.eval, BoundExprKind.eval, expr.eval_rename h]
  | .existsSubquery _ _, _ => rfl
  | .subquery _, _ => rfl
  | .function ⟨_, _, args, _⟩, h => by
    rw [BoundExprKind.rename, BoundExprKind.eval, BoundExprKind.eval, evalList_rename args h]
  | .cast expr targetType, h => by
    rw [BoundExprKind.rename, BoundExprKind.eval, BoundExprKind.eval, expr.eval_rename h]
  | .case operand whenThen elseResult, h => by
    rw [BoundExprKind.columns, List.forall_mem_append, List.forall_mem_append] at h
    rw [BoundExprKind.rename, BoundExprKind.eval, BoundExprKind.eval, evalOption_rename operand h.1.1,
      evalPairs_rename _ whenThen h.1.2, evalOption_rename elseResult h.2]

theorem evalList_rename : ∀ list : List BoundExpr, (∀ i ∈ columnsList list, row.get (f i) = row'.get i) →
    evalList S row (renameList f list) = evalList S row' list
  | [], _ => rfl
  | e :: list, h => by
    rw [columnsList, List.forall_mem_append] at h
    rw [renameList, evalList, evalList, e.eval_rename h.1, evalList_rename list h.2]

theorem evalOption_rename : ∀ o : Option BoundExpr,
    (∀ i ∈ columnsOption o, row.get (f i) = row'.get i) →
      evalOption S row (renameOption f o) = evalOption S row' o
  | none, _ => rfl
  | some e, h => by rw [renameOption, evalOption, evalOption, e.eval_rename h]

theorem evalPairs_rename (operand : Option Value) : ∀ list : List (BoundExpr × BoundExpr),
    (∀ i ∈ columnsPairs list, row.get (f i) = row'.get i) →
      evalPairs S row operand (renamePairs f list) = evalPairs S row' operand list
  | [], _ => rfl
  | (w, t) :: list, h => by
    rw [columnsPairs, List.forall_mem_append, List.forall_mem_append] at h
    rw [renamePairs, evalPairs, evalPairs, w.eval_rename h.1.1, t.eval_rename h.1.2,
      evalPairs_rename operand list h.2]

end

mutual

/-- A renaming keeps an expression exactly if it keeps each of its columns. -/
theorem BoundExpr.rename_eq_self_iff : ∀ e : BoundExpr, e.rename f = e ↔ ∀ i ∈ e.columns, f i = i
  | ⟨kind, dataType, nullable⟩ => by
    rw [BoundExpr.rename, BoundExpr.mk.injEq, kind.rename_eq_self_iff, BoundExpr.columns,
      and_iff_left ⟨rfl, rfl⟩]

theorem BoundExprKind.rename_eq_self_iff : ∀ k : BoundExprKind, k.rename f = k ↔ ∀ i ∈ k.columns, f i = i
  | .literal _ => by simp [BoundExprKind.rename, BoundExprKind.columns]
  | .columnRef ⟨_, _, _⟩ => by simp [BoundExprKind.rename, BoundExprKind.columns]
  | .binaryOp left op right => by
    simp [BoundExprKind.rename, BoundExprKind.columns, left.rename_eq_self_iff,
      right.rename_eq_self_iff, or_imp, forall_and]
  | .unaryOp op expr => by simp [BoundExprKind.rename, BoundExprKind.columns, expr.rename_eq_self_iff]
  | .isNull expr => by simp [BoundExprKind.rename, BoundExprKind.columns, expr.rename_eq_self_iff]
  | .isNotNull expr => by simp [BoundExprKind.rename, BoundExprKind.columns, expr.rename_eq_self_iff]
  | .like expr pattern negated => by
    simp [BoundExprKind.rename, BoundExprKind.columns, expr.rename_eq_self_iff,
      pattern.rename_eq_self_iff, or_imp, forall_and]
  | .between expr low high negated => by
    simp [BoundExprKind.rename, BoundExprKind.columns, expr.rename_eq_self_iff,
      low.rename_eq_self_iff, high.rename_eq_self_iff, or_imp, forall_and]
  | .inList expr list negated => by
    simp [BoundExprKind.rename, BoundExprKind.columns, expr.rename_eq_self_iff,
      renameList_eq_self_iff list, or_imp, forall_and]
  | .inSubquery expr _ _ => by simp [BoundExprKind.rename, BoundExprKind.columns, expr.rename_eq_self_iff]
  | .existsSubquery _ _ => by simp [BoundExprKind.rename, BoundExprKind.columns]
  | .subquery _ => by simp [BoundExprKind.rename, BoundExprKind.columns]
  | .function ⟨_, _, args, _⟩ => by
    simp [BoundExprKind.rename, BoundExprKind.columns, renameList_eq_self_iff args]
  | .cast expr _ => by simp [BoundExprKind.rename, BoundExprKind.columns, expr.rename_eq_self_iff]
  | .case operand whenThen elseResult => by
    simp [BoundExprKind.rename, BoundExprKind.columns, renameOption_eq_self_iff operand,
      renamePairs_eq_self_iff whenThen,
      renameOption_eq_self_iff elseResult, or_imp, forall_and]

theorem renameList_eq_self_iff : ∀ list : List BoundExpr,
    renameList f list = list ↔ ∀ i ∈ columnsList list, f i = i
  | [] => by simp [renameList, columnsList]
  | e :: list => by
    simp [renameList, columnsList, e.rename_eq_self_iff, renameList_eq_self_iff list, or_imp, forall_and]

theorem renameOption_eq_self_iff : ∀ o : Option BoundExpr,
    renameOption f o = o ↔ ∀ i ∈ columnsOption o, f i = i
  | none => by simp [renameOption, columnsOption]
  | some e => by simp [renameOption, columnsOption, e.rename_eq_self_iff]

theorem renamePairs_eq_self_iff : ∀ list : List (BoundExpr × BoundExpr),
    renamePairs f list = list ↔ ∀ i ∈ columnsPairs list, f i = i
  | [] => by simp [renamePairs, columnsPairs]
  | (w, t) :: list => by
    simp [renamePairs, columnsPairs, w.rename_eq_self_iff, t.rename_eq_self_iff,
      renamePairs_eq_self_iff list, or_imp, forall_and, and_assoc]

end

end Rename

namespace Optimizer

variable {delta : ℤ} {f : ℕ → ℕ}

mutual

/-- `shift_scope_indices` renames exactly if the renaming keeps the columns below the forms it
does not descend into. -/
theorem shift_eq_rename_iff : ∀ e : BoundExpr, (∀ i ∈ e.columns, shiftIndex i delta = f i) →
    (shiftScopeIndices delta e = e.rename f ↔ ∀ i ∈ e.unshifted, f i = i)
  | ⟨kind, dataType, nullable⟩, h => by
    rw [shiftScopeIndices, BoundExpr.rename, BoundExpr.mk.injEq, shiftKind_eq_rename_iff kind h,
      BoundExpr.unshifted, and_iff_left ⟨rfl, rfl⟩]

theorem shiftKind_eq_rename_iff : ∀ k : BoundExprKind, (∀ i ∈ k.columns, shiftIndex i delta = f i) →
    (shiftKind delta k = k.rename f ↔ ∀ i ∈ k.unshifted, f i = i)
  | .columnRef ⟨_, _, i⟩, h => by
    simp [shiftKind, BoundExprKind.rename, BoundExprKind.unshifted, h i (List.mem_singleton.2 rfl)]
  | .binaryOp left op right, h => by
    rw [BoundExprKind.columns, List.forall_mem_append] at h
    rw [shiftKind, BoundExprKind.rename, BoundExprKind.binaryOp.injEq, shift_eq_rename_iff left h.1,
      shift_eq_rename_iff right h.2, BoundExprKind.unshifted, List.forall_mem_append, and_iff_right rfl]
  | .unaryOp op expr, h => by
    rw [shiftKind, BoundExprKind.rename, BoundExprKind.unaryOp.injEq, shift_eq_rename_iff expr h,
      BoundExprKind.unshifted, and_iff_right rfl]
  | .isNull expr, h => by
    rw [shiftKind, BoundExprKind.rename, BoundExprKind.isNull.injEq, shift_eq_rename_iff expr h,
      BoundExprKind.unshifted]
  | .isNotNull expr, h => by
    rw [shiftKind, BoundExprKind.rename, BoundExprKind.isNotNull.injEq, shift_eq_rename_iff expr h,
      BoundExprKind.unshifted]
  | .literal _, _ | .like _ _ _, _ | .between _ _ _ _, _ | .inList _ _ _, _ | .inSubquery _ _ _, _
  | .existsSubquery _ _, _ | .subquery _, _ | .function _, _ | .cast _ _, _ | .case _ _ _, _ =>
    eq_comm.trans (BoundExprKind.rename_eq_self_iff _)

end

mutual

theorem unshifted_subset : ∀ e : BoundExpr, e.unshifted ⊆ e.columns
  | ⟨kind, _, _⟩ => unshiftedKind_subset kind

theorem unshiftedKind_subset : ∀ k : BoundExprKind, k.unshifted ⊆ k.columns
  | .columnRef _ => List.nil_subset _
  | .binaryOp left _ right => List.append_subset.2
    ⟨List.subset_append_of_subset_left _ (unshifted_subset left),
      List.subset_append_of_subset_right _ (unshifted_subset right)⟩
  | .unaryOp _ expr => unshifted_subset expr
  | .isNull expr => unshifted_subset expr
  | .isNotNull expr => unshifted_subset expr
  | .literal _ | .like _ _ _ | .between _ _ _ _ | .inList _ _ _ | .inSubquery _ _ _
  | .existsSubquery _ _ | .subquery _ | .function _ | .cast _ _ | .case _ _ _ => List.Subset.refl _

end

/-- `shift_scope_indices` changes every column reference by `delta` and nothing else, so that its
result has on a row the value of `e` on any row whose column `i` is that row's column `i + delta`. -/
def Renames (delta : ℤ) (e : BoundExpr) : Prop :=
  shiftScopeIndices delta e = e.rename (fun i => ((i : ℤ) + delta).toNat) ∧
    ∀ (S : Scalars) (row row' : Row), (∀ i ∈ e.columns, row'.get i = row.get ((i : ℤ) + delta).toNat) →
      (shiftScopeIndices delta e).eval S row = e.eval S row'

/-- **`shift_scope_indices` is a renaming** exactly if nothing moves or no column occurs below a
form that it does not descend into. -/
theorem renames_iff {e : BoundExpr} (hrange : ∀ i ∈ e.columns, 0 ≤ (i : ℤ) + delta) :
    Renames delta e ↔ delta = 0 ∨ e.unshifted = [] := by
  have hiff := shift_eq_rename_iff e fun i hi => if_pos (hrange i hi)
  constructor
  · rintro ⟨heq, -⟩
    by_cases hnil : e.unshifted = []
    · exact .inr hnil
    · obtain ⟨i, hi⟩ := List.exists_mem_of_ne_nil _ hnil
      have hkept : ((i : ℤ) + delta).toNat = i := hiff.1 heq i hi
      have hle := hrange i (unshifted_subset e hi)
      exact .inl (by omega)
  · intro h
    have heq := hiff.2 fun i hi => by
      rcases h with rfl | hnil
      · omega
      · rw [hnil] at hi
        cases hi
    exact ⟨heq, fun S row row' hrow => heq ▸ e.eval_rename fun i hi => (hrow i hi).symm⟩

/-- Column 1 may be moved to column 0. -/
theorem renames_column : Renames (-1) (boolColumn 1) :=
  (renames_iff (by decide)).2 (.inr rfl)

/-- **A column in a cast stays where it was**, whatever it is moved by. -/
theorem not_renames_cast : ¬ ∀ (delta : ℤ) (e : BoundExpr), (∀ i ∈ e.columns, 0 ≤ (i : ℤ) + delta) →
    Renames delta e := by
  intro hall
  have h := hall (-1) ⟨.cast (boolColumn 1) .bool, .bool, true⟩ (by decide)
  have hcolumns := congrArg BoundExpr.columns h.1
  exact absurd hcolumns (by decide)

end Optimizer
end Abdb
