/-
# What an index scan reads

`try_index_scan` of `src/optimizer/optimizer.rs` takes the first predicate that compares an
indexed column with a literal, makes a range of it, and drops it from the predicates that are
checked on the rows.  A scan of an index reads a range with both bounds included
(`src/accessor/btree.rs`), and `range_from_op` gives `<` and `>` the ranges of `<=` and `>=`.

So the index scan gives the rows of the filter exactly if no row that passes the other
predicates strays into the range: by equality with the literal of a strict comparison, or as a
NULL where the order of the index has a place for NULL (`indexScan_iff`).
-/

import Abdb.Databox.Encoding
import Abdb.Query.Physical
import Mathlib.Tactic.FinCases

namespace Abdb
namespace Optimizer

/-- What a comparison says of two values in this order. -/
def holds : BinaryOp → Ordering → Bool
  | .eq, o => o = .eq
  | .lt, o => o = .lt
  | .ltEq, o => o.isLE
  | .gt, o => o = .gt
  | .gtEq, o => o.isGE
  | _, _ => false

/-- A value lies in a range, both bounds included. -/
def within (cmp : Value → Value → Option Ordering) (startKey endKey : Option Value) (v : Value) : Bool :=
  startKey.all (fun k => (cmp k v).any Ordering.isLE) && endKey.all (fun k => (cmp v k).any Ordering.isLE)

/-- A database whose indexes read closed ranges.  Comparisons of values that are not NULL follow
the order `cmp`, such as `Value::partial_cmp`; an index finds the tuples of its table with the
value of its column in the range, in whatever sequence.  The place of NULL in the order is left
open. -/
structure ReadsRanges (I : Interp) (cmp : Value → Value → Option Ordering) : Prop where
  swap : ∀ v w, cmp w v = (cmp v w).map Ordering.swap
  compare : ∀ op ∈ [BinaryOp.eq, .lt, .ltEq, .gt, .gtEq], ∀ v w, v ≠ .null → w ≠ .null →
    (I.compare op v w = some true ↔ (cmp v w).any (holds op))
  indexed : ∀ (index : Catalog.Index) (startKey endKey : Option BoundExpr),
    (I.indexed index startKey endKey).Perm ((I.table index.tableOid).filter fun t =>
      within cmp (evalOption I.toScalars [] startKey) (evalOption I.toScalars [] endKey) (t index.columnOid))

/-- The index found for a column is an index of the column. -/
def FindsColumn (findIndex : OId → OId → Option Catalog.Index) : Prop :=
  ∀ tableOid columnOid index, findIndex tableOid columnOid = some index →
    index.tableOid = tableOid ∧ index.columnOid = columnOid

/-- A comparison of an indexed column with a literal: its place in the list of predicates, the
column and its index, and the comparison with the column on the left. -/
structure IndexedComparison where
  predIdx : ℕ
  column : Catalog.Column
  index : Catalog.Index
  op : BinaryOp
  key : BoundExpr

/-- The first comparison of an indexed column with a literal. -/
def indexedComparison (findIndex : OId → OId → Option Catalog.Index) (table : Catalog.Table)
    (columns : List Catalog.Column) (predicates : List BoundExpr) : Option IndexedComparison :=
  predicates.zipIdx.findSome? fun (pred, predIdx) => do
    let (colScopeIdx, op, key) ← extractIndexPredicate pred
    let column ← columns[colScopeIdx]?
    let index ← findIndex table.oid column.oid
    some { predIdx, column, index, op, key }

/-- A value strays into the range of a comparison: it is the literal itself and the comparison is
strict, or one of the two is NULL and the order puts them in the range all the same. -/
def Strays (cmp : Value → Value → Option Ordering) (op : BinaryOp) (v key : Value) : Prop :=
  (v ≠ .null ∧ key ≠ .null ∧ (op = .lt ∨ op = .gt) ∧ cmp v key = some .eq) ∨
  ((v = .null ∨ key = .null) ∧ ∃ o, cmp v key = some o ∧
    ((op = .eq ∧ o = .eq) ∨ ((op = .lt ∨ op = .ltEq) ∧ o.isLE) ∨ ((op = .gt ∨ op = .gtEq) ∧ o.isGE)))

variable {findIndex : OId → OId → Option Catalog.Index} {table : Catalog.Table}
  {columns : List Catalog.Column} {schema : Schema} {predicates : List BoundExpr} {plan : PhysicalPlan}
  {I : Interp} {S : Scalars} {cmp : Value → Value → Option Ordering} {pred key : BoundExpr} {op : BinaryOp}
  {i : ℕ} {row : Row} {c : IndexedComparison}

/-! ### The comparison -/

/-- `try_index_scan` makes a scan of its first indexed comparison. -/
theorem tryIndexScan_eq : tryIndexScan findIndex table columns schema predicates =
    (indexedComparison findIndex table columns predicates).map fun c =>
      .indexScan c.index table columns (rangeFromOp c.op c.key).1 (rangeFromOp c.op c.key).2
        (predicates.eraseIdx c.predIdx) schema := by
  rw [tryIndexScan, indexedComparison, List.map_findSome?]
  congr 1
  funext ⟨pred, predIdx⟩
  cases hextract : extractIndexPredicate pred with
  | none => simp [hextract]
  | some comparison =>
    obtain ⟨i, op, key⟩ := comparison
    cases hcolumn : columns[i]? with
    | none => simp [hextract, hcolumn]
    | some column => cases hindex : findIndex table.oid column.oid <;> simp [hextract, hcolumn, hindex]

/-- Where the comparison comes from. -/
theorem indexedComparison_spec (h : indexedComparison findIndex table columns predicates = some c) :
    ∃ pred i, predicates[c.predIdx]? = some pred ∧ extractIndexPredicate pred = some (i, c.op, c.key) ∧
      columns[i]? = some c.column ∧ findIndex table.oid c.column.oid = some c.index := by
  obtain ⟨⟨pred, predIdx⟩, hmem, hsome⟩ := List.exists_of_findSome?_eq_some h
  simp only [Option.bind_eq_bind, Option.bind_eq_some_iff, Option.some.injEq] at hsome
  obtain ⟨⟨i, op, key⟩, hextract, column, hcolumn, index, hindex, rfl⟩ := hsome
  exact ⟨pred, i, List.mem_zipIdx_iff_getElem?.1 hmem, hextract, hcolumn, hindex⟩

/-- `extract_index_predicate` finds a column on one side and a literal on the other. -/
theorem extractIndexPredicate_spec (h : extractIndexPredicate pred = some (i, op, key)) :
    isLiteral key = true ∧ ∃ left op' right ref, op' ∈ [BinaryOp.eq, .lt, .ltEq, .gt, .gtEq] ∧
      pred.kind = .binaryOp left op' right ∧ ref.scopeIndex = i ∧
      ((left.kind = .columnRef ref ∧ right = key ∧ op' = op) ∨
        (right.kind = .columnRef ref ∧ left = key ∧ flipOp op' = some op)) := by
  obtain ⟨kind, dataType, nullable⟩ := pred
  cases kind with
  | binaryOp left op' right =>
    simp only [extractIndexPredicate] at h
    split at h
    · rename_i hop
      split at h
      · rename_i ref hleft hright
        obtain ⟨rfl, rfl, rfl⟩ := Option.some.inj h
        exact ⟨hright, left, _, _, ref, hop, rfl, rfl, .inl ⟨hleft, rfl, rfl⟩⟩
      · rename_i ref hright hleft _
        obtain ⟨flipped, hflip, hsome⟩ := Option.map_eq_some_iff.1 h
        obtain ⟨rfl, rfl, rfl⟩ := hsome
        exact ⟨hleft, _, _, right, ref, hop, rfl, rfl, .inr ⟨hright, rfl, hflip⟩⟩
      · cases h
    · cases h
  | _ => cases h

theorem eval_literal (h : isLiteral key = true) (row row' : Row) : key.eval S row = key.eval S row' := by
  obtain ⟨kind, dataType, nullable⟩ := key
  cases kind with
  | literal lit => rfl
  | _ => cases h

theorem comparison_eq_true {v w : Value} :
    S.comparison op v w = some true ↔ v ≠ .null ∧ w ≠ .null ∧ S.compare op v w = some true := by
  cases v <;> cases w <;> simp [Scalars.comparison]

theorem holds_flip {op' : BinaryOp} (h : flipOp op' = some op) (o : Ordering) :
    holds op' o.swap = holds op o := by
  cases op' <;> cases h <;> cases o <;> rfl

theorem accepts_comparison {left right : BoundExpr} (hkind : pred.kind = .binaryOp left op right)
    (hop : op ∈ [BinaryOp.eq, .lt, .ltEq, .gt, .gtEq]) :
    pred.accepts S row = true ↔ S.comparison op (left.eval S row) (right.eval S row) = some true := by
  obtain ⟨kind, dataType, nullable⟩ := pred
  obtain rfl := hkind
  fin_cases hop <;> simp [BoundExpr.accepts, BoundExpr.eval, BoundExprKind.eval, Scalars.binary]

theorem eval_columnRef {ref : BoundColumnRef} {e : BoundExpr} (h : e.kind = .columnRef ref) :
    e.eval S row = row.get ref.scopeIndex := by
  obtain ⟨kind, dataType, nullable⟩ := e
  obtain rfl := h
  rfl

/-- **The predicate of a comparison** is true of a row if the column and the literal are not NULL
and stand in its order. -/
theorem accepts_extracted (hI : ReadsRanges I cmp) (h : extractIndexPredicate pred = some (i, op, key)) :
    pred.accepts I.toScalars row = true ↔ row.get i ≠ .null ∧ key.eval I.toScalars [] ≠ .null ∧
      (cmp (row.get i) (key.eval I.toScalars [])).any (holds op) = true := by
  obtain ⟨hlit, left, op', right, ref, hop, hkind, rfl, hsides⟩ := extractIndexPredicate_spec h
  rw [accepts_comparison hkind hop, comparison_eq_true]
  rcases hsides with ⟨hleft, rfl, rfl⟩ | ⟨hright, rfl, hflip⟩
  · rw [eval_columnRef hleft, eval_literal hlit row []]
    constructor
    · rintro ⟨hv, hw, hcompare⟩
      exact ⟨hv, hw, (hI.compare _ hop _ _ hv hw).1 hcompare⟩
    · rintro ⟨hv, hw, hholds⟩
      exact ⟨hv, hw, (hI.compare _ hop _ _ hv hw).2 hholds⟩
  · rw [eval_columnRef hright, eval_literal hlit row []]
    -- The literal is on the left: the order is read the other way.
    have hholds : (cmp (left.eval I.toScalars []) (row.get ref.scopeIndex)).any (holds op') =
        (cmp (row.get ref.scopeIndex) (left.eval I.toScalars [])).any (holds op) := by
      rw [hI.swap (row.get ref.scopeIndex)]
      cases cmp (row.get ref.scopeIndex) (left.eval I.toScalars []) with
      | none => rfl
      | some o => exact holds_flip hflip o
    constructor
    · rintro ⟨hw, hv, hcompare⟩
      exact ⟨hv, hw, hholds ▸ (hI.compare _ hop _ _ hw hv).1 hcompare⟩
    · rintro ⟨hv, hw, hany⟩
      exact ⟨hw, hv, (hI.compare _ hop _ _ hw hv).2 (hholds.trans hany)⟩

/-! ### The range -/

theorem op_of_extracted (h : extractIndexPredicate pred = some (i, op, key)) :
    op ∈ [BinaryOp.eq, .lt, .ltEq, .gt, .gtEq] := by
  obtain ⟨-, left, op', right, ref, hop, -, -, hsides⟩ := extractIndexPredicate_spec h
  rcases hsides with ⟨-, -, rfl⟩ | ⟨-, -, hflip⟩
  · exact hop
  · cases op' <;> cases hflip <;> decide

/-- **The range of a comparison** holds the values that stand to the literal as the comparison
says, or equal it. -/
theorem within_rangeFromOp (hI : ReadsRanges I cmp) (hop : op ∈ [BinaryOp.eq, .lt, .ltEq, .gt, .gtEq])
    (v : Value) :
    within cmp (evalOption I.toScalars [] (rangeFromOp op key).1)
        (evalOption I.toScalars [] (rangeFromOp op key).2) v = true ↔
      ∃ o, cmp v (key.eval I.toScalars []) = some o ∧
        ((op = .eq ∧ o = .eq) ∨ ((op = .lt ∨ op = .ltEq) ∧ o.isLE) ∨ ((op = .gt ∨ op = .gtEq) ∧ o.isGE)) := by
  have hswap := hI.swap v (key.eval I.toScalars [])
  cases hcmp : cmp v (key.eval I.toScalars []) with
  | none =>
    rw [hcmp] at hswap
    fin_cases hop <;> simp [rangeFromOp, evalOption, within, hcmp, hswap]
  | some o =>
    rw [hcmp] at hswap
    fin_cases hop <;> cases o <;> simp [rangeFromOp, evalOption, within, hcmp, hswap]

/-- The range holds every value of which the comparison is true. -/
theorem within_of_accepts (hI : ReadsRanges I cmp) (h : extractIndexPredicate pred = some (i, op, key))
    (haccepts : pred.accepts I.toScalars row = true) :
    within cmp (evalOption I.toScalars [] (rangeFromOp op key).1)
      (evalOption I.toScalars [] (rangeFromOp op key).2) (row.get i) = true := by
  have hop := op_of_extracted h
  obtain ⟨-, -, hholds⟩ := (accepts_extracted hI h).1 haccepts
  rw [within_rangeFromOp hI hop]
  cases hcmp : cmp (row.get i) (key.eval I.toScalars []) with
  | none =>
    rw [hcmp] at hholds
    cases hholds
  | some o =>
    rw [hcmp] at hholds
    refine ⟨o, rfl, ?_⟩
    fin_cases hop <;> cases o <;> simp_all [holds]

/-- A value of the range strays or fulfils the comparison. -/
theorem strays_iff (hI : ReadsRanges I cmp) (h : extractIndexPredicate pred = some (i, op, key)) :
    Strays cmp op (row.get i) (key.eval I.toScalars []) ↔
      within cmp (evalOption I.toScalars [] (rangeFromOp op key).1)
        (evalOption I.toScalars [] (rangeFromOp op key).2) (row.get i) = true ∧
      pred.accepts I.toScalars row = false := by
  have hop := op_of_extracted h
  rw [within_rangeFromOp hI hop, ← Bool.not_eq_true, accepts_extracted hI h, Strays]
  by_cases hv : row.get i = .null
  · simp [hv]
  · by_cases hw : key.eval I.toScalars [] = .null
    · simp [hw]
    · cases hcmp : cmp (row.get i) (key.eval I.toScalars []) with
      | none => simp [hv, hw]
      | some o => fin_cases hop <;> cases o <;> simp [hv, hw, holds]

/-! ### The rows -/

/-- A list of predicates is one of them and the others. -/
theorem passes_eraseIdx {idx : ℕ} (h : predicates[idx]? = some pred) :
    passes S predicates row = (pred.accepts S row && passes S (predicates.eraseIdx idx) row) := by
  obtain ⟨hlt, rfl⟩ := List.getElem?_eq_some_iff.1 h
  exact (List.getElem_cons_eraseIdx_perm hlt).symm.all_eq

theorem get_map_columns {t : OId → Value} {column : Catalog.Column} (h : columns[i]? = some column) :
    Row.get (columns.map (t ·.oid)) i = t column.oid := by
  rw [Row.get, List.getD_eq_getElem?_getD, List.getElem?_map, h, Option.map_some, Option.getD_some]

/-- No row that passes the other predicates strays into the range. -/
def RangeIsExact (I : Interp) (cmp : Value → Value → Option Ordering) (table : Catalog.Table)
    (columns : List Catalog.Column) (predicates : List BoundExpr) (c : IndexedComparison) : Prop :=
  ∀ t ∈ I.table table.oid,
    passes I.toScalars (predicates.eraseIdx c.predIdx) (columns.map (t ·.oid)) = true →
      ¬ Strays cmp c.op (t c.column.oid) (c.key.eval I.toScalars [])

/-- **An index scan gives the rows of the filter exactly if no row strays into its range**: among
the rows that pass the other predicates, none holds the literal of a strict comparison, and none
is in the range where it or the literal is NULL. -/
theorem indexScan_iff (hfind : FindsColumn findIndex) (hI : ReadsRanges I cmp)
    (h : tryIndexScan findIndex table columns schema predicates = some plan) (aliasName : Option String) :
    (plan.rows I).Perm
        (((LogicalPlan.seqScan table columns aliasName schema).rows I).filter
          (passes I.toScalars predicates)) ↔
      ∀ c, indexedComparison findIndex table columns predicates = some c →
        RangeIsExact I cmp table columns predicates c := by
  rw [tryIndexScan_eq, Option.map_eq_some_iff] at h
  obtain ⟨c, hc, rfl⟩ := h
  obtain ⟨pred, i, hpred, hextract, hcolumn, hindex⟩ := indexedComparison_spec hc
  obtain ⟨htable, hoid⟩ := hfind _ _ _ hindex
  have hcond : (∀ c', indexedComparison findIndex table columns predicates = some c' →
      RangeIsExact I cmp table columns predicates c') ↔ RangeIsExact I cmp table columns predicates c :=
    ⟨fun hall => hall c hc, fun hexact c' hc' => Option.some.inj (hc.symm.trans hc') ▸ hexact⟩
  rw [hcond]
  let toRow : (OId → Value) → Row := fun t => columns.map (t ·.oid)
  let startKey := evalOption I.toScalars [] (rangeFromOp c.op c.key).1
  let endKey := evalOption I.toScalars [] (rangeFromOp c.op c.key).2
  let read : (OId → Value) → Bool := fun t =>
    passes I.toScalars (predicates.eraseIdx c.predIdx) (toRow t) &&
      within cmp startKey endKey (t c.column.oid)
  -- What the index scan gives.
  have hscan : (PhysicalPlan.rows I (.indexScan c.index table columns (rangeFromOp c.op c.key).1
      (rangeFromOp c.op c.key).2 (predicates.eraseIdx c.predIdx) schema)).Perm
      (((I.table table.oid).filter read).map toRow) := by
    have hindexed := hI.indexed c.index (rangeFromOp c.op c.key).1 (rangeFromOp c.op c.key).2
    rw [htable, hoid] at hindexed
    have hrows := (hindexed.map toRow).filter (passes I.toScalars (predicates.eraseIdx c.predIdx))
    rw [List.filter_map (l := List.filter _ _), List.filter_filter] at hrows
    exact hrows
  -- What the filter gives.
  have hfilter : ((LogicalPlan.seqScan table columns aliasName schema).rows I).filter
      (passes I.toScalars predicates) =
      ((I.table table.oid).filter (fun t => passes I.toScalars predicates (toRow t))).map toRow :=
    List.filter_map
  have hget : ∀ t, Row.get (toRow t) i = t c.column.oid := fun t => get_map_columns hcolumn
  have hstrays : ∀ t, Strays cmp c.op (t c.column.oid) (c.key.eval I.toScalars []) ↔
      within cmp startKey endKey (t c.column.oid) = true ∧ pred.accepts I.toScalars (toRow t) = false := by
    intro t
    rw [← hget t]
    exact strays_iff hI hextract
  have hpasses : ∀ t, passes I.toScalars predicates (toRow t) =
      (pred.accepts I.toScalars (toRow t) && passes I.toScalars (predicates.eraseIdx c.predIdx) (toRow t)) :=
    fun t => passes_eraseIdx hpred
  have hweaker : ∀ t, passes I.toScalars predicates (toRow t) = true → read t = true := by
    intro t ht
    rw [hpasses, Bool.and_eq_true] at ht
    have hwithin := within_of_accepts hI hextract ht.1
    rw [hget] at hwithin
    exact Bool.and_eq_true_iff.2 ⟨ht.2, hwithin⟩
  rw [hfilter, hscan.congr_left, map_filter_perm_iff hweaker]
  refine forall₂_congr fun t _ => ?_
  rw [hpasses, Bool.and_eq_true, Bool.and_eq_true, hstrays]
  constructor
  · rintro hread hothers ⟨hwithin, hfalse⟩
    exact absurd (hread ⟨hothers, hwithin⟩).1 (hfalse ▸ Bool.false_ne_true)
  · rintro hexact ⟨hothers, hwithin⟩
    exact ⟨Bool.of_not_eq_false fun hfalse => hexact hothers ⟨hwithin, hfalse⟩, hothers⟩

/-! ### An indexed column of integers -/

/-- The order of the integers; everything else is not comparable. -/
def integerOrder (v w : Value) : Option Ordering :=
  match v.number, w.number with
  | some a, some b => some (compare a b)
  | _, _ => none

/-- Comparisons of integers. -/
def integerScalars : Scalars where
  __ := (Interp.plain fun _ => []).toScalars
  compare op v w := some ((integerOrder v w).any (holds op))

/-- A database that compares integers, and whose indexes read closed ranges. -/
def integers (table : OId → List (OId → Value)) : Interp where
  __ := Interp.plain table
  toScalars := integerScalars
  indexed index startKey endKey := (table index.tableOid).filter fun t =>
    within integerOrder (evalOption integerScalars [] startKey) (evalOption integerScalars [] endKey)
      (t index.columnOid)

theorem readsRanges_integers (table : OId → List (OId → Value)) :
    ReadsRanges (integers table) integerOrder where
  swap v w := by
    rw [integerOrder, integerOrder]
    rcases v.number with _ | a <;> rcases w.number with _ | b
    · rfl
    · rfl
    · rfl
    · exact congrArg some (Std.OrientedOrd.eq_swap (a := b) (b := a))
  compare op _ v w _ _ := Option.some_inj
  indexed _ _ _ := List.Perm.refl _

/-- Column 0 of table 0 has an index. -/
def findFirst (tableOid columnOid : OId) : Option Catalog.Index :=
  if tableOid = 0 ∧ columnOid = 0 then some ⟨0, "i", 0, 0, 0⟩ else none

theorem findsColumn_findFirst : FindsColumn findFirst := by
  intro tableOid columnOid index h
  rw [findFirst] at h
  split at h
  · rename_i heq
    obtain rfl := Option.some.inj h
    exact ⟨heq.1.symm, heq.2.symm⟩
  · cases h

/-- The predicate that compares column 0 with the literal 5. -/
def withFive (op : BinaryOp) : BoundExpr :=
  ⟨.binaryOp ⟨.columnRef ⟨none, "a", 0⟩, .i64, false⟩ op ⟨.literal (.integer 5), .i64, false⟩, .bool, false⟩

/-- Table 0 has one tuple, of the number 5. -/
def fives (_ : OId) : List (OId → Value) := [fun _ => .i64 5]

theorem indexScan_gtEq : ((PhysicalPlan.indexScan ⟨0, "i", 0, 0, 0⟩ ⟨0, "t", 0⟩ [⟨0, 0, "a", .i64, 0, false⟩]
      (some ⟨.literal (.integer 5), .i64, false⟩) none [] ⟨[]⟩).rows (integers fives)).Perm
    (((LogicalPlan.seqScan ⟨0, "t", 0⟩ [⟨0, 0, "a", .i64, 0, false⟩] none ⟨[]⟩).rows (integers fives)).filter
      (passes (integers fives).toScalars [withFive .gtEq])) :=
  (indexScan_iff findsColumn_findFirst (readsRanges_integers fives) rfl none).2 fun c hc t ht _ => by
    obtain rfl := Option.some.inj hc
    obtain rfl := List.mem_singleton.1 ht
    rintro (⟨-, -, hstrict, -⟩ | ⟨hnull, -⟩)
    · exact absurd hstrict (by decide)
    · exact absurd hnull (by decide)

/-- **The literal of a strict comparison is read**: `a > 5` gives the row of the number 5. -/
theorem indexScan_gt : ¬ ∀ (findIndex : OId → OId → Option Catalog.Index), FindsColumn findIndex →
    ∀ (I : Interp) (cmp : Value → Value → Option Ordering), ReadsRanges I cmp →
      ∀ (table : Catalog.Table) (columns : List Catalog.Column) (schema : Schema)
        (predicates : List BoundExpr)
        (plan : PhysicalPlan) (aliasName : Option String),
        tryIndexScan findIndex table columns schema predicates = some plan →
          (plan.rows I).Perm (((LogicalPlan.seqScan table columns aliasName schema).rows I).filter
            (passes I.toScalars predicates)) := by
  intro hall
  have h := hall findFirst findsColumn_findFirst (integers fives) integerOrder (readsRanges_integers fives)
    ⟨0, "t", 0⟩ [⟨0, 0, "a", .i64, 0, false⟩] ⟨[]⟩ [withFive .gt] _ none rfl
  exact absurd h.length_eq (by decide)

end Optimizer
end Abdb
