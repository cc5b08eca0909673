/-
# From a statement to its physical plan

`plan` of `src/planner/planner.rs` for every bound statement, and what comes of a statement that is
bound, planned and optimized.  A SELECT has its rows (`rows_optimize_plan`).  UPDATE and DELETE work on
the rows of their table that WHERE accepts, whatever WHERE says, and INSERT gets rows with a value for
each of its columns (`changes_planned`).
-/

import Abdb.Binder.Statement
import Abdb.Optimizer.Sound
import Abdb.Planner.Meaning

namespace Abdb
namespace Planner

open Binder Optimizer

/-! ### Plans of statements -/

/-- The result of a statement that changes a table. -/
def rowsAffected : Schema := ⟨[⟨"rows_affected", .i64, false⟩]⟩

/-- The rows that a statement changes. -/
def planChanged (table : Catalog.Table) (tableColumns : List Catalog.Column) (whereClause : Option BoundExpr) :
    LogicalPlan :=
  filterBy whereClause (.seqScan table tableColumns none (scanSchema tableColumns none))

/-- The rows that an INSERT gets. -/
def planSource (targetColumns : List Catalog.Column) : BoundInsertSource → LogicalPlan
  | .values rows => .values rows (scanSchema targetColumns none)
  | .select sel => planSelect sel

/-- `plan_insert`. -/
def planInsert (stmt : BoundInsert) : LogicalPlan :=
  .insert stmt.table stmt.tableColumns stmt.targetColumns (planSource stmt.targetColumns stmt.source) rowsAffected

/-- `plan_update`. -/
def planUpdate (stmt : BoundUpdate) : LogicalPlan :=
  .update stmt.table stmt.tableColumns stmt.assignments
    (planChanged stmt.table stmt.tableColumns stmt.whereClause) rowsAffected

/-- `plan_delete`. -/
def planDelete (stmt : BoundDelete) : LogicalPlan :=
  .delete stmt.table stmt.tableColumns (planChanged stmt.table stmt.tableColumns stmt.whereClause) rowsAffected

/-- `plan`: EXPLAIN has the plan of what it explains. -/
def plan : BoundStatement → LogicalPlan
  | .select stmt => planSelect stmt
  | .insert stmt => planInsert stmt
  | .update stmt => planUpdate stmt
  | .delete stmt => planDelete stmt
  | .createTable _ => .createTable
  | .dropTable _ => .dropTable
  | .alterTable _ => .alterTable
  | .createIndex _ => .createIndex
  | .dropIndex _ => .dropIndex
  | .explain inner => plan inner

/-! ### SELECT -/

/-- **A SELECT keeps its rows** through the planner and the optimizer. -/
theorem rows_optimize_plan (J : Instance) (acc : Accessor) (stmt : Ast.SelectStmt) (b : BoundSelect)
    (h : bindSelect acc stmt = .ok b) (hdirect : ∀ q ∈ selects b, Direct q)
    (hmovable : Movable (plan (.select b)) []) (hhashable : Hashable (plan (.select b))) :
    (optimize (plan (.select b))).rows J.interp = b.rows J.semantics ∧
      (optimize (plan (.select b))).schema = ⟨b.outputColumns⟩ := by
  obtain ⟨hrows, hschema⟩ := rows_optimize J.interp (plan (.select b)) ⟨wellFormed_bound h, hmovable, hhashable⟩
  exact ⟨hrows.trans (rows_planSelect J b hdirect), hschema.trans (schema_planSelect b)⟩

/-- `SELECT b FROM t WHERE b ORDER BY b`. -/
def orderedB : Ast.SelectStmt :=
  ⟨[.expr (.column ⟨none, "b"⟩) none], [.named "t" none], [], some (.column ⟨none, "b"⟩), [], none,
    [⟨.column ⟨none, "b"⟩, true, none⟩], none, none, false⟩

theorem rows_optimize_orderedB : ∃ b, bindSelect oneColumn orderedB = .ok b ∧
    (optimize (plan (.select b))).rows (Instance.plain oneTuple).interp =
      b.rows (Instance.plain oneTuple).semantics := by
  refine ⟨_, rfl, (rows_optimize_plan (Instance.plain oneTuple) oneColumn orderedB _ rfl
    (List.forall_mem_singleton.2 ⟨.inl rfl, ?_, fun _ => rfl, ?_, ?_, ?_⟩) ⟨nofun, trivial⟩ trivial).1⟩
  · exact List.forall_mem_cons.2 ⟨rfl, List.forall_mem_cons.2 ⟨rfl, List.forall_mem_singleton.2 rfl⟩⟩
  · rintro - e ⟨⟩
  · exact fun h => h.elim (absurd rfl) (absurd rfl)
  · refine List.forall_mem_singleton.2 fun i hi => ?_
    obtain rfl := List.mem_singleton.1 (hi : i ∈ [0])
    exact ⟨_, rfl, _, rfl, rfl⟩

/-! ### INSERT, UPDATE and DELETE -/

/-- The rows of a table that WHERE accepts. -/
def changed (I : Interp) (table : Catalog.Table) (tableColumns : List Catalog.Column)
    (whereClause : Option BoundExpr) : List Row :=
  ((I.table table.oid).map fun t => tableColumns.map (t ·.oid)).filter
    fun row => whereClause.all (·.accepts I.toScalars row)

variable {I : Interp} {table : Catalog.Table} {tableColumns : List Catalog.Column} {whereClause : Option BoundExpr}

/-- **A scan for changes** finds the rows that WHERE accepts. -/
theorem rows_changed : (optimize (planChanged table tableColumns whereClause)).rows I =
      changed I table tableColumns whereClause ∧
    (optimize (planChanged table tableColumns whereClause)).schema.len = tableColumns.length := by
  have hsafe : Optimizable (planChanged table tableColumns whereClause) := by
    cases whereClause with
    | none => exact ⟨List.length_map _, trivial, trivial⟩
    | some e => exact ⟨List.length_map _, trivial, trivial⟩
  obtain ⟨hrows, hschema⟩ := rows_optimize I _ hsafe
  rw [hrows, hschema]
  cases whereClause with
  | none => exact ⟨(List.filter_true _).symm, List.length_map _⟩
  | some e => exact ⟨rfl, List.length_map _⟩

/-- The source of an accepted INSERT has a value for each column. -/
theorem wellFormed_planSource {acc : Accessor} {stmt : Ast.InsertStmt} {b : BoundInsert}
    (h : bindInsert acc stmt = .ok b) : (planSource b.targetColumns b.source).WellFormed ∧
      (planSource b.targetColumns b.source).schema.len = b.targetColumns.length := by
  obtain ⟨-, hsource⟩ := bindInsert_eq_ok h
  cases hstmt : stmt.source with
  | values rows =>
    rw [hstmt, bindInsertSource, bind_eq_ok] at hsource
    obtain ⟨boundRows, hrows, hsource⟩ := hsource
    rw [← Except.ok.inj hsource]
    refine ⟨fun row hrow => ?_, List.length_map _⟩
    obtain ⟨written, -, hbound⟩ := exists_of_mem_mapM hrows hrow
    exact (dataType_bindRow hbound).length_eq.trans (List.length_map _).symm
  | select query =>
    rw [hstmt, bindInsertSource, bind_eq_ok] at hsource
    obtain ⟨sel, hsel, hsource⟩ := hsource
    split at hsource
    · cases hsource
    · rename_i hlen
      rw [← Except.ok.inj hsource]
      refine ⟨wellFormed_bound hsel, ?_⟩
      rw [planSource, schema_planSelect]
      exact not_not.1 hlen

end Planner
end Abdb
