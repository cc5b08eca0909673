/-
# The conditions of USING and NATURAL

`bind_join_condition` of `src/binder/binder.rs` resolves the names of USING and NATURAL in the
scope that has the columns of the right table already.  A name of both sides is ambiguous there:
USING fails on it, and NATURAL leaves it out.  A name that NATURAL does find is one column's, and
the equality it makes compares the column with itself.

So USING works for no name, and NATURAL makes the right condition exactly if it makes none: the
sides have no common name, and no name of the right table, in lower case, is one column's
(`joinNames_iff`).
-/

import Abdb.Binder.Resolve

namespace Abdb
namespace Binder

open Scope

/-- The columns that the table on the left of a join brings. -/
def leftColumns (left : BoundTableRef) : List ScopeColumn := (addTableRefToScope left Scope.new false).columns

/-- The scope in which `bind_select` binds the condition of a join of two tables. -/
def joinScope (left right : BoundTableRef) (kind : Ast.JoinKind) : Scope :=
  addTableRefToScope right (addTableRefToScope left Scope.new false) (isOuter kind)

/-- The columns that the table on the right of a join brings. -/
def rightColumns (left right : BoundTableRef) (kind : Ast.JoinKind) : List ScopeColumn :=
  (joinScope left right kind).columns.drop (leftColumns left).length

/-- A name is exactly one column's. -/
def Only (columns : List ScopeColumn) (columnName : String) (sc : ScopeColumn) : Prop :=
  columns.filter (named none columnName) = [sc]

/-- **The condition of USING**: for each name the equality of the column of that name on the left
and the one on the right. -/
def UsingBound (acc : Accessor) (left right : BoundTableRef) (kind : Ast.JoinKind) (colNames : List String) :
    Prop :=
  ∃ exprs, bindJoinCondition acc (joinScope left right kind) right (.using colNames) = .ok (.using exprs) ∧
    List.Forall₂ (fun c e => ∃ l r, Only (leftColumns left) c l ∧ Only (rightColumns left right kind) c r ∧
      e = columnEquality l r) colNames exprs

/-- **The condition of NATURAL**: equalities of a column on the left with one of the same name on
the right, exactly one for each name of both sides. -/
def NaturalBound (acc : Accessor) (left right : BoundTableRef) (kind : Ast.JoinKind) : Prop :=
  ∃ pairs : List (ScopeColumn × ScopeColumn),
    bindJoinCondition acc (joinScope left right kind) right .natural =
      .ok (.natural (pairs.map fun p => columnEquality p.1 p.2)) ∧
    (∀ p ∈ pairs, p.1 ∈ leftColumns left ∧ p.2 ∈ rightColumns left right kind ∧
      eqIgnoreAsciiCase p.1.columnName p.2.columnName = true) ∧
    ∀ l ∈ leftColumns left, ∀ r ∈ rightColumns left right kind,
      eqIgnoreAsciiCase l.columnName r.columnName = true →
        (pairs.filter fun p => eqIgnoreAsciiCase p.1.columnName l.columnName).length = 1

variable {acc : Accessor} {left right : BoundTableRef} {kind : Ast.JoinKind} {scope : Scope}
  {l r sc : ScopeColumn} {colName : String} {colNames : List String} {e : BoundExpr}

/-! ### The sides of the scope -/

theorem columns_joinScope (left right : BoundTableRef) (kind : Ast.JoinKind) :
    (joinScope left right kind).columns = leftColumns left ++ rightColumns left right kind := by
  obtain ⟨cols, heq, -⟩ :=
    (extends_addTableRefToScope right (addTableRefToScope left Scope.new false) (isOuter kind)).columns
  rw [rightColumns, joinScope, heq, leftColumns, List.drop_left]

theorem numbered_joinScope (left right : BoundTableRef) (kind : Ast.JoinKind) :
    (joinScope left right kind).Numbered :=
  (extends_addTableRefToScope ..).numbered ((extends_addTableRefToScope ..).numbered Numbered.new)

/-- The numbers of the columns tell the sides apart. -/
theorem index_ne (hl : l ∈ leftColumns left) (hr : r ∈ rightColumns left right kind) : l.index ≠ r.index := by
  have hnodup : ((leftColumns left ++ rightColumns left right kind).map (·.index)).Nodup := by
    rw [← columns_joinScope, numbered_joinScope left right kind]
    exact List.nodup_range
  rw [List.map_append, List.nodup_append] at hnodup
  exact hnodup.2.2 _ (List.mem_map_of_mem hl) _ (List.mem_map_of_mem hr)

/-! ### USING -/

theorem resolve_none_eq_ok : scope.resolve none colName = .ok sc ↔ Only scope.columns colName sc := by
  rw [Scope.resolve, Only]
  split
  · rename_i sc' heq
    rw [heq, Except.ok.injEq, List.cons.injEq, and_iff_left rfl]
  · rename_i heq
    rw [heq]
    exact ⟨nofun, nofun⟩
  · rename_i hone _
    exact ⟨nofun, fun h => (hone sc h).elim⟩

theorem Only.mem {columns : List ScopeColumn} (h : Only columns colName sc) :
    sc ∈ columns ∧ named none colName sc = true :=
  List.mem_filter.1 (h ▸ List.mem_singleton_self sc)

/-- **USING fails on a name of both sides.** -/
theorem bindUsing_error (hl : Only (leftColumns left) colName l)
    (hr : Only (rightColumns left right kind) colName r) :
    bindUsing (joinScope left right kind) colName = .error (.ambiguousColumn colName) := by
  have hfilter : (joinScope left right kind).columns.filter (named none colName) = [l, r] := by
    rw [columns_joinScope, List.filter_append, hl, hr]
    rfl
  rw [bindUsing, Scope.resolve, hfilter]
  rfl

theorem usingBound_iff (hnames : ∀ c ∈ colNames,
    (∃ l, Only (leftColumns left) c l) ∧ ∃ r, Only (rightColumns left right kind) c r) :
    UsingBound acc left right kind colNames ↔ colNames = [] := by
  constructor
  · rintro ⟨exprs, hbind, -⟩
    cases colNames with
    | nil => rfl
    | cons c rest =>
      obtain ⟨⟨l, hl⟩, r, hr⟩ := hnames c List.mem_cons_self
      rw [bindJoinCondition, List.mapM_cons, bindUsing_error hl hr] at hbind
      cases hbind
  · rintro rfl
    exact ⟨[], rfl, .nil⟩

/-! ### NATURAL -/

theorem named_none (colName : String) (sc : ScopeColumn) :
    named none colName sc = eqIgnoreAsciiCase sc.columnName colName := Bool.and_true _

theorem lastNamed_of_only (h : Only scope.columns colName sc) : lastNamed scope colName = some sc := by
  have hfilter : scope.columns.filter (fun sc => eqIgnoreAsciiCase sc.columnName colName) = [sc] := by
    rw [← h]
    exact List.filter_congr fun x _ => (named_none colName x).symm
  rw [lastNamed, hfilter]
  rfl

/-- **NATURAL compares a column with itself.** -/
theorem bindNatural_eq_some : bindNatural scope colName = some e ↔
    ∃ sc, Only scope.columns colName sc ∧ e = columnEquality sc sc := by
  rw [bindNatural]
  constructor
  · intro h
    split at h
    · cases h
    · rename_i sc hresolve
      have honly := resolve_none_eq_ok.1 hresolve
      rw [lastNamed_of_only honly, Option.map_some, Option.some.injEq] at h
      exact ⟨sc, honly, h.symm⟩
  · rintro ⟨sc, honly, rfl⟩
    rw [resolve_none_eq_ok.2 honly, lastNamed_of_only honly]
    rfl

theorem bindUsing_eq_ok (h : bindUsing scope colName = .ok e) :
    ∃ l ∈ scope.columns, ∃ r ∈ scope.columns, e = columnEquality l r := by
  rw [bindUsing, bind_eq_ok] at h
  obtain ⟨l, hl, h⟩ := h
  split at h
  · cases h
  · rename_i r hr
    cases h
    exact ⟨l, (resolve_none_eq_ok.1 hl).mem.1, r, (List.mem_filter.1 (List.mem_of_getLast? hr)).1, rfl⟩

/-- **USING and NATURAL make equalities of columns of the scope.** -/
theorem bindJoinCondition_equalities {condition : Ast.JoinCondition} {b : BoundJoinCondition}
    (h : bindJoinCondition acc scope right condition = .ok b) :
    ∀ e ∈ b.equalities, ∃ l ∈ scope.columns, ∃ r ∈ scope.columns, e = columnEquality l r := by
  cases condition with
  | on expr =>
    rw [bindJoinCondition, bind_eq_ok] at h
    obtain ⟨e, -, h⟩ := h
    cases h
    exact nofun
  | «using» colNames =>
    rw [bindJoinCondition, bind_eq_ok] at h
    obtain ⟨exprs, hexprs, h⟩ := h
    cases h
    intro e (he : e ∈ exprs)
    obtain ⟨colName, -, hbound⟩ := exists_of_mem_mapM hexprs he
    exact bindUsing_eq_ok hbound
  | natural =>
    rw [bindJoinCondition] at h
    cases h
    intro e he
    obtain ⟨colName, -, hsome⟩ := List.mem_filterMap.1 he
    obtain ⟨sc, honly, rfl⟩ := bindNatural_eq_some.1 hsome
    exact ⟨sc, honly.mem.1, sc, honly.mem.1, rfl⟩
  | none =>
    rw [bindJoinCondition] at h
    cases h
    exact nofun

theorem columnEquality_ne (hl : l ∈ leftColumns left) (hr : r ∈ rightColumns left right kind) :
    columnEquality sc sc ≠ columnEquality l r := by
  intro heq
  simp only [columnEquality, ScopeColumn.toExpr, BoundExpr.mk.injEq, BoundExprKind.binaryOp.injEq,
    BoundExprKind.columnRef.injEq, BoundColumnRef.mk.injEq] at heq
  obtain ⟨⟨⟨⟨-, -, hleft⟩, -⟩, -, ⟨-, -, hright⟩, -⟩, -⟩ := heq
  exact index_ne hl hr (hleft.symm.trans hright)

/-- The sides have no common name, and no name of the right table, in lower case, is one column's. -/
structure NothingShared (acc : Accessor) (left right : BoundTableRef) (kind : Ast.JoinKind) : Prop where
  common : ∀ l ∈ leftColumns left, ∀ r ∈ rightColumns left right kind,
    eqIgnoreAsciiCase l.columnName r.columnName = false
  lower : ∀ colName ∈ lowerNames acc right, ∀ sc, ¬ Only (joinScope left right kind).columns colName sc

theorem naturalBound_iff : NaturalBound acc left right kind ↔ NothingShared acc left right kind := by
  have hbind : bindJoinCondition acc (joinScope left right kind) right .natural =
      .ok (.natural ((lowerNames acc right).filterMap (bindNatural (joinScope left right kind)))) := by
    rw [bindJoinCondition]
  constructor
  · rintro ⟨pairs, hok, hsides, hcount⟩
    rw [hbind, Except.ok.injEq, BoundJoinCondition.natural.injEq] at hok
    -- Each equality made compares a column with itself, so there is none.
    have hempty : pairs = [] := by
      refine List.eq_nil_iff_forall_not_mem.2 fun p hp => ?_
      have hmem : columnEquality p.1 p.2 ∈ (lowerNames acc right).filterMap
        (bindNatural (joinScope left right kind)) :=
        hok ▸ List.mem_map_of_mem hp
      obtain ⟨colName, -, hsome⟩ := List.mem_filterMap.1 hmem
      obtain ⟨sc, -, heq⟩ := bindNatural_eq_some.1 hsome
      obtain ⟨hl, hr, -⟩ := hsides p hp
      exact columnEquality_ne hl hr heq.symm
    subst hempty
    refine ⟨fun l hl r hr => ?_, fun colName hmem sc honly => ?_⟩
    · refine Bool.eq_false_iff.2 fun hname => ?_
      cases hcount l hl r hr hname
    · have hnone := List.filterMap_eq_nil_iff.1 hok colName hmem
      rw [bindNatural_eq_some.2 ⟨sc, honly, rfl⟩] at hnone
      cases hnone
  · intro h
    refine ⟨[], ?_, List.forall_mem_nil _, fun l hl r hr hname => ?_⟩
    · have hnil : (lowerNames acc right).filterMap (bindNatural (joinScope left right kind)) = [] := by
        refine List.filterMap_eq_nil_iff.2 fun colName hmem => ?_
        refine Option.eq_none_iff_forall_not_mem.2 fun e he => ?_
        obtain ⟨sc, honly, -⟩ := bindNatural_eq_some.1 he
        exact h.lower colName hmem sc honly
      rw [hbind, hnil, List.map_nil]
    · exact absurd hname (h.common l hl r hr ▸ Bool.false_ne_true)

/-! ### A join of two tables -/

/-- **The scope is the one of `bind_select`**: what it makes of `FROM left JOIN right`. -/
theorem bindJoins_two {leftRef rightRef : Ast.TableRef} {condition : Ast.JoinCondition}
    (hleft : bindTableRef acc leftRef = .ok left) (hright : bindTableRef acc rightRef = .ok right) :
    (bindFrom acc Scope.new [leftRef] >>= fun bound => bindJoins acc bound.2 [⟨kind, rightRef, condition⟩]) =
      (bindJoinCondition acc (joinScope left right kind) right condition).map fun bound =>
        ([⟨translateJoinKind kind, right, bound⟩], joinScope left right kind) := by
  have hfrom : bindFrom acc Scope.new [leftRef] = .ok ([left], addTableRefToScope left Scope.new false) := by
    rw [bindFrom, hleft]
    rfl
  rw [hfrom]
  change bindJoins acc _ _ = _
  rw [bindJoins, hright]
  change (bindJoinCondition acc (joinScope left right kind) right condition >>= fun _ => _) = _
  cases bindJoinCondition acc (joinScope left right kind) right condition with
  | error e => rfl
  | ok bound => rfl

/-- **USING works for no name, and NATURAL only where nothing is shared.** -/
theorem joinNames_iff (acc : Accessor) (left right : BoundTableRef) (kind : Ast.JoinKind)
    (colNames : List String)
    (hnames : ∀ c ∈ colNames,
      (∃ l, Only (leftColumns left) c l) ∧ ∃ r, Only (rightColumns left right kind) c r) :
    (UsingBound acc left right kind colNames ↔ colNames = []) ∧
    (NaturalBound acc left right kind ↔ NothingShared acc left right kind) :=
  ⟨usingBound_iff hnames, naturalBound_iff⟩

/-- A table with these columns. -/
def tableOf (oid : OId) (name : String) (columns : List String) : BoundTableRef :=
  .baseTable ⟨oid, name, 0⟩ (columns.map fun c => ⟨0, oid, c, .i64, 0, false⟩) none

/-- A catalog of nothing; names are in lower case already. -/
def noCatalog : Accessor := ⟨fun _ => none, fun _ => .error "", id⟩

theorem joinNames_id :
    (UsingBound noCatalog (tableOf 0 "t" ["id", "a"]) (tableOf 1 "u" ["id", "b"]) .inner ["id"] ↔
      ["id"] = []) ∧
    (NaturalBound noCatalog (tableOf 0 "t" ["id", "a"]) (tableOf 1 "u" ["id", "b"]) .inner ↔
      NothingShared noCatalog (tableOf 0 "t" ["id", "a"]) (tableOf 1 "u" ["id", "b"]) .inner) :=
  joinNames_iff _ _ _ _ _ fun c hc => by
    obtain rfl := List.mem_singleton.1 hc
    exact ⟨⟨_, rfl⟩, _, rfl⟩

/-- **A common name is ambiguous**: `t(id, a) JOIN u(id, b) USING (id)` is rejected. -/
theorem using_id : ¬ ∀ acc left right kind colNames,
    (∀ c ∈ colNames, (∃ l, Only (leftColumns left) c l) ∧ ∃ r, Only (rightColumns left right kind) c r) →
      UsingBound acc left right kind colNames ∧ NaturalBound acc left right kind := by
  intro hall
  have h := (hall noCatalog (tableOf 0 "t" ["id", "a"]) (tableOf 1 "u" ["id", "b"]) .inner
    ["id"] fun c hc => by
    obtain rfl := List.mem_singleton.1 hc
    exact ⟨⟨_, rfl⟩, _, rfl⟩).1
  obtain ⟨exprs, hbind, -⟩ := h
  cases hbind

end Binder
end Abdb
