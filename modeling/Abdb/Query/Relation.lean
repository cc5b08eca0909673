/-
# The meaning of a logical plan

What a logical plan is for: the rows it stands for, in SQL's usual reading.  A stored tuple
gives a value to each column of its table.  Rows come in an order, as a scan finds them, and
`LogicalPlan.bag` forgets it.

Grouping, ORDER BY and index scans are read through an interpretation.  A statement that
changes a table stands for the number of rows it works on.
-/

import Abdb.Lib.Filters
import Abdb.Lib.Joins
import Abdb.Planner.Plan
import Abdb.Query.Expression
import Mathlib.Data.Multiset.Filter

namespace Abdb

/-- The contents of a database, and the meaning of what the plans leave open. -/
structure Interp extends Scalars where
  /-- The tuples of a table. -/
  table : OId → List (OId → Value)
  /-- The tuples an index scan finds. -/
  indexed : Catalog.Index → Option BoundExpr → Option BoundExpr → List (OId → Value)
  /-- The groups of a list of rows: the keys of each group and its aggregates. -/
  aggregate : List BoundExpr → List AggregateExpr → List Row → List Row
  length_aggregate : ∀ g a l, ∀ row ∈ aggregate g a l, row.length = g.length + a.length
  /-- The order of ORDER BY. -/
  before : List SortKey → Row → Row → Prop
  decidableBefore : ∀ keys, DecidableRel (before keys)
  before_trans : ∀ keys, IsTrans Row (before keys)
  before_total : ∀ keys, Std.Total (before keys)
  /-- The number of rows a LIMIT or OFFSET asks for. -/
  count : Value → Option ℕ

instance (I : Interp) (keys : List SortKey) : DecidableRel (I.before keys) := I.decidableBefore keys
instance (I : Interp) (keys : List SortKey) : IsTrans Row (I.before keys) := I.before_trans keys
instance (I : Interp) (keys : List SortKey) : Std.Total (I.before keys) := I.before_total keys

/-- The kind of a join. -/
def BoundJoinKind.joined : BoundJoinKind → Joined
  | .inner => .inner
  | .leftOuter => .leftOuter
  | .rightOuter => .rightOuter
  | .fullOuter => .fullOuter
  | .cross => .cross

/-- A joined row passes a condition.  The equalities of USING and NATURAL have to hold all. -/
def BoundJoinCondition.accepts (S : Scalars) (row : Row) : BoundJoinCondition → Bool
  | .on expr => expr.accepts S row
  | .using exprs => exprs.all (·.accepts S row)
  | .natural exprs => exprs.all (·.accepts S row)
  | .none => true

/-- A row of NULLs. -/
def Row.nulls (n : ℕ) : Row := List.replicate n .null

/-- The rows of LIMIT and OFFSET. -/
def Interp.window (I : Interp) (limit offset : Option BoundExpr) (rows : List Row) : List Row :=
  let number (e : Option BoundExpr) := (evalOption I.toScalars [] e).bind I.count
  let rest := rows.drop ((number offset).getD 0)
  match number limit with
  | some n => rest.take n
  | none => rest

/-- An interpretation that knows equality and nothing else, over some tables. -/
def Interp.plain (table : OId → List (OId → Value)) : Interp where
  compare op v w := if op = .eq then some (v = w) else none
  arith _ _ _ _ := .null
  neg _ _ := .null
  like _ _ := none
  call _ _ _ _ := .null
  cast _ v := v
  truth _ := none
  select _ := []
  table := table
  indexed _ _ _ := []
  aggregate _ _ _ := []
  length_aggregate := nofun
  before _ _ _ := True
  decidableBefore _ _ _ := .isTrue trivial
  before_trans _ := ⟨fun _ _ _ _ _ => trivial⟩
  before_total _ := ⟨fun _ _ => Or.inl trivial⟩
  count _ := none

namespace LogicalPlan

/-- The rows a plan stands for. -/
def rows (I : Interp) : LogicalPlan → List Row
  | .seqScan table columns _ _ => (I.table table.oid).map fun t => columns.map (t ·.oid)
  | .indexScan index _ columns startKey endKey _ =>
    (I.indexed index startKey endKey).map fun t => columns.map (t ·.oid)
  | .filter predicate input => (input.rows I).filter (predicate.accepts I.toScalars ·)
  | .projection exprs _ input _ => (input.rows I).map fun row => evalList I.toScalars row exprs
  | .join kind left right condition _ =>
    kind.joined.rows (fun l r => condition.accepts I.toScalars (l ++ r)) (· ++ ·)
      (· ++ Row.nulls right.schema.len) (Row.nulls left.schema.len ++ ·) (left.rows I) (right.rows I)
  | .aggregate groupBy aggregates input _ => I.aggregate groupBy aggregates (input.rows I)
  | .sort orderBy input => (input.rows I).insertionSort (I.before orderBy)
  | .limit lim offset input => I.window lim offset (input.rows I)
  | .distinct input => (input.rows I).dedup
  | .insert _ _ _ source _ => [[.i64 (Int64.ofNat (source.rows I).length)]]
  | .update _ _ _ input _ => [[.i64 (Int64.ofNat (input.rows I).length)]]
  | .delete _ _ input _ => [[.i64 (Int64.ofNat (input.rows I).length)]]
  | .createTable | .dropTable | .alterTable | .createIndex | .dropIndex | .nothing => []
  | .values rows _ => rows.map (evalList I.toScalars [])

/-- The bag of a plan's rows. -/
def bag (I : Interp) (plan : LogicalPlan) : Multiset Row := plan.rows I

/-- The schema of every node has the columns of the node's rows. -/
def WellFormed : LogicalPlan → Prop
  | .seqScan _ columns _ schema => schema.len = columns.length
  | .indexScan _ _ columns _ _ schema => schema.len = columns.length
  | .filter _ input => input.WellFormed
  | .projection exprs _ input schema => schema.len = exprs.length ∧ input.WellFormed
  | .join _ left right _ schema =>
    schema.len = left.schema.len + right.schema.len ∧ left.WellFormed ∧ right.WellFormed
  | .aggregate groupBy aggregates input schema =>
    schema.len = groupBy.length + aggregates.length ∧ input.WellFormed
  | .sort _ input => input.WellFormed
  | .limit _ _ input => input.WellFormed
  | .distinct input => input.WellFormed
  | .insert _ _ _ source schema => schema.len = 1 ∧ source.WellFormed
  | .update _ _ _ input schema => schema.len = 1 ∧ input.WellFormed
  | .delete _ _ input schema => schema.len = 1 ∧ input.WellFormed
  | .createTable | .dropTable | .alterTable | .createIndex | .dropIndex | .nothing => True
  | .values rows schema => ∀ row ∈ rows, row.length = schema.len

end LogicalPlan

section

variable {I : Interp} {S : Scalars} {plan : LogicalPlan}

theorem length_evalList (row : Row) : ∀ list : List BoundExpr, (evalList S row list).length = list.length
  | [] => rfl
  | e :: list => by rw [evalList, List.length_cons, List.length_cons, length_evalList row list]

theorem getElem?_evalList (row : Row) : ∀ (list : List BoundExpr) (i : ℕ),
    (evalList S row list)[i]? = list[i]?.map (·.eval S row)
  | [], _ => rfl
  | _ :: _, 0 => rfl
  | _ :: list, i + 1 => getElem?_evalList row list i

theorem Interp.mem_window {limit offset : Option BoundExpr} {l : List Row} {row : Row}
    (h : row ∈ I.window limit offset l) : row ∈ l := by
  rw [Interp.window] at h
  split at h
  · exact List.mem_of_mem_drop (List.mem_of_mem_take h)
  · exact List.mem_of_mem_drop h

/-- **A row has the columns of the schema.** -/
theorem LogicalPlan.WellFormed.length_row (h : plan.WellFormed) {row : Row} (hrow : row ∈ plan.rows I) :
    row.length = plan.schema.len := by
  induction plan generalizing row with
  | seqScan table columns aliasName schema =>
    obtain ⟨t, -, rfl⟩ := List.mem_map.1 hrow
    exact (List.length_map _).trans h.symm
  | indexScan index table columns startKey endKey schema =>
    obtain ⟨t, -, rfl⟩ := List.mem_map.1 hrow
    exact (List.length_map _).trans h.symm
  | filter predicate input ih => exact ih h (List.mem_filter.1 hrow).1
  | projection exprs aliases input schema ih =>
    obtain ⟨r, -, rfl⟩ := List.mem_map.1 hrow
    exact (length_evalList r exprs).trans h.1.symm
  | join kind left right condition schema ihl ihr =>
    obtain ⟨hlen, hl, hr⟩ := h
    rw [LogicalPlan.schema, hlen]
    rcases Joined.mem_rows hrow with ⟨a, ha, b, hb, rfl⟩ | ⟨-, a, ha, rfl⟩ | ⟨-, b, hb, rfl⟩
    · rw [List.length_append, ihl hl ha, ihr hr hb]
    · rw [List.length_append, ihl hl ha, Row.nulls, List.length_replicate]
    · rw [List.length_append, ihr hr hb, Row.nulls, List.length_replicate]
  | aggregate groupBy aggregates input schema ih => exact (I.length_aggregate _ _ _ _ hrow).trans h.1.symm
  | sort orderBy input ih => exact ih h ((List.mem_insertionSort _).1 hrow)
  | limit limit offset input ih => exact ih h (Interp.mem_window hrow)
  | distinct input ih => exact ih h (List.mem_dedup.1 hrow)
  | insert table tableColumns targetColumns source schema ih =>
    rw [List.mem_singleton.1 hrow]
    exact h.1.symm
  | update table tableColumns assignments input schema ih =>
    rw [List.mem_singleton.1 hrow]
    exact h.1.symm
  | delete table tableColumns input schema ih =>
    rw [List.mem_singleton.1 hrow]
    exact h.1.symm
  | values rows schema =>
    obtain ⟨r, hr, rfl⟩ := List.mem_map.1 hrow
    exact (length_evalList [] r).trans (h r hr)
  | _ => cases hrow

end
end Abdb
