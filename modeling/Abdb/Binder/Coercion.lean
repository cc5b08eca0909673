/-
# What is coerced

An integer literal is bound with the type I64, and `coerce_expr` casts to a type of at least the
rank of I64 only.  So a literal is accepted for a column of integers exactly if the column has the
type I64 (`literal_iff`), be it as small as it may.

The ranks do not tell signed from unsigned types, and `Value::cast` neither casts to I8 and U8 nor
looks at the range of the others.  So a coerced value keeps its number exactly if the type stays
the same, or is neither I8 nor U8 and has the number (`coerced_iff`).
-/

import Abdb.Binder.Modify
import Abdb.Databox.Cast

namespace Abdb

namespace Binder

/-- An integer literal, plain or with a minus before it. -/
inductive Writes : Ast.Expr → ℤ → Prop
  | plain (n : Int64) : Writes (.literal (.integer n)) n.toInt
  | minus (n : Int64) : Writes (.unaryOp .neg (.literal (.integer n))) (-n.toInt)

variable {acc : Accessor} {scope : Scope} {e : Ast.Expr} {n : ℤ} {col : Catalog.Column} {bound : BoundExpr}

/-! ### Literals -/

/-- A literal has the type I64. -/
theorem bindExpr_writes (acc : Accessor) (scope : Scope) (h : Writes e n) :
    ∃ bound, bindExpr acc scope e = .ok bound ∧
    bound.dataType = .i64 ∧ isNullLiteral bound = false := by
  cases h with
  | plain n => exact ⟨_, rfl, rfl, rfl⟩
  | minus n => exact ⟨_, rfl, rfl, rfl⟩

/-- **An expression of type I64 goes into no other column of integers.** -/
theorem coerceExpr_i64 {target : DataType} (hfits : target.Fits n) (htype : bound.dataType = .i64)
    (hnull : isNullLiteral bound = false) (context : String) :
    (∃ e, coerceExpr bound target context = .ok e) ↔ target = .i64 := by
  rw [coerceExpr, htype, hnull]
  cases target with
  | i64 => exact iff_of_true ⟨bound, rfl⟩ rfl
  | bool | f32 | f64 | string => exact hfits.elim
  | _ =>
    refine iff_of_false ?_ (by decide)
    rintro ⟨e, h⟩
    cases h

/-- An INSERT is accepted if its rows are. -/
theorem exists_bindInsert_iff {stmt : Ast.InsertStmt} {targets : List Catalog.Column}
    (h : insertTargets acc stmt = .ok targets) :
    (∃ b, bindInsert acc stmt = .ok b) ↔ ∃ source, bindInsertSource acc targets stmt.source = .ok source := by
  constructor
  · rintro ⟨b, hb⟩
    obtain ⟨htargets, hsource⟩ := bindInsert_eq_ok hb
    obtain rfl := Except.ok.inj (htargets.symm.trans h)
    exact ⟨b.source, hsource⟩
  · rintro ⟨source, hsource⟩
    rw [insertTargets, bind_eq_ok] at h
    obtain ⟨⟨table, tableColumns⟩, htable, htargets⟩ := h
    refine ⟨⟨table, tableColumns, targets, source⟩, ?_⟩
    rw [bindInsert, bind_eq_ok]
    exact ⟨_, htable, bind_eq_ok.2 ⟨_, htargets, bind_eq_ok.2 ⟨_, hsource, rfl⟩⟩⟩

theorem exists_bindValue_iff (he : Writes e n) (hfits : col.typeId.Fits n) :
    (∃ bound, bindValue acc (e, col) = .ok bound) ↔ col.typeId = .i64 := by
  obtain ⟨bound, hbind, htype, hnull⟩ := bindExpr_writes acc Scope.new he
  rw [← coerceExpr_i64 hfits htype hnull col.name]
  refine exists_congr fun e' => ?_
  rw [bindValue, bind_eq_ok]
  constructor
  · rintro ⟨bound', hbind', h⟩
    obtain rfl := Except.ok.inj (hbind.symm.trans hbind')
    exact h
  · exact fun h => ⟨bound, hbind, h⟩

/-- One row of one expression is accepted if the expression is. -/
theorem exists_bindInsertSource_iff :
    (∃ source, bindInsertSource acc [col] (.values [[e]]) = .ok source) ↔
      ∃ bound, bindValue acc (e, col) = .ok bound := by
  constructor
  · rintro ⟨source, h⟩
    rw [bindInsertSource, bind_eq_ok] at h
    obtain ⟨boundRows, hrows, -⟩ := h
    cases mapM_eq_ok hrows with
    | cons hrow _ =>
      have hvalues : [(e, col)].mapM (bindValue acc) = .ok _ := hrow
      cases mapM_eq_ok hvalues with
      | cons hvalue _ => exact ⟨_, hvalue⟩
  · rintro ⟨bound, h⟩
    have hrow : bindRow acc [col] [e] = .ok [bound] := by
      change List.mapM (bindValue acc) [(e, col)] = _
      rw [List.mapM_cons, h]
      rfl
    refine ⟨.values [[bound]], ?_⟩
    rw [bindInsertSource, List.mapM_cons, hrow]
    rfl

theorem exists_bindAssignment_iff {tableColumns : List Catalog.Column} {c : String} (he : Writes e n)
    (hfits : col.typeId.Fits n) (hcol : namedColumn tableColumns c = .ok col) :
    (∃ a, bindAssignment acc scope tableColumns ⟨c, e⟩ = .ok a) ↔ col.typeId = .i64 := by
  obtain ⟨bound, hbind, htype, hnull⟩ := bindExpr_writes acc scope he
  rw [← coerceExpr_i64 hfits htype hnull col.name]
  constructor
  · rintro ⟨a, h⟩
    simp only [bindAssignment, bind_eq_ok] at h
    obtain ⟨col', hcol', bound', hbind', e', h, -⟩ := h
    obtain rfl := Except.ok.inj (hcol.symm.trans hcol')
    obtain rfl := Except.ok.inj (hbind.symm.trans hbind')
    exact ⟨e', h⟩
  · rintro ⟨e', h⟩
    refine ⟨⟨col, e'⟩, ?_⟩
    rw [bindAssignment, bind_eq_ok]
    exact ⟨col, hcol, bind_eq_ok.2 ⟨bound, hbind, bind_eq_ok.2 ⟨e', h, rfl⟩⟩⟩

/-- An UPDATE of one column is accepted if its assignment is. -/
theorem exists_bindUpdate_iff {t : String} {aliasName : Option String} {asgn : Ast.Assignment}
    {table : Catalog.Table} {tableColumns : List Catalog.Column}
    (htable : changedTable acc t = .ok (table, tableColumns)) :
    (∃ b, bindUpdate acc ⟨t, aliasName, [asgn], none⟩ = .ok b) ↔
      ∃ a, bindAssignment acc (Scope.new.addTable (some (aliasName.getD t)) tableColumns false)
        tableColumns asgn = .ok a := by
  constructor
  · rintro ⟨b, h⟩
    simp only [bindUpdate, bind_eq_ok] at h
    obtain ⟨_, htable', assignments, h, -⟩ := h
    obtain rfl := Except.ok.inj (htable.symm.trans htable')
    cases mapM_eq_ok h with
    | cons ha _ => exact ⟨_, ha⟩
  · rintro ⟨a, h⟩
    refine ⟨⟨table, tableColumns, [a], none⟩, ?_⟩
    rw [bindUpdate, bind_eq_ok]
    refine ⟨_, htable, bind_eq_ok.2 ⟨[a], ?_, rfl⟩⟩
    rw [List.mapM_cons, h]
    rfl

/-- **A literal is accepted exactly for a column of the type I64**, in `INSERT INTO t VALUES (n)`
with the column as its only one, and in `UPDATE t SET c = n`. -/
theorem literal_iff {t c : String} {columns : Option (List String)} {aliasName : Option String}
    {table : Catalog.Table} {tableColumns : List Catalog.Column} (he : Writes e n) (hfits : col.typeId.Fits n)
    (hinsert : insertTargets acc ⟨t, columns, .values [[e]]⟩ = .ok [col])
    (htable : changedTable acc t = .ok (table, tableColumns))
    (hupdate : namedColumn tableColumns c = .ok col) :
    ((∃ b, bindInsert acc ⟨t, columns, .values [[e]]⟩ = .ok b) ↔ col.typeId = .i64) ∧
    ((∃ b, bindUpdate acc ⟨t, aliasName, [⟨c, e⟩], none⟩ = .ok b) ↔ col.typeId = .i64) := by
  constructor
  · rw [exists_bindInsert_iff hinsert, exists_bindInsertSource_iff, exists_bindValue_iff he hfits]
  · rw [exists_bindUpdate_iff htable, exists_bindAssignment_iff he hfits hupdate]

theorem literal_minus_five :
    ((∃ b, bindInsert (oneColumn .i64)
      ⟨"t", none, .values [[.unaryOp .neg (.literal (.integer 5))]]⟩ = .ok b) ↔
      (columnOf .i64).typeId = .i64) ∧
    ((∃ b, bindUpdate (oneColumn .i64)
      ⟨"t", none, [⟨"c", .unaryOp .neg (.literal (.integer 5))⟩], none⟩ = .ok b) ↔
      (columnOf .i64).typeId = .i64) :=
  literal_iff (.minus 5) (by constructor <;> decide) rfl rfl rfl

/-- **An ordinary insert is rejected**: `INSERT INTO t VALUES (5)` for a column of the type I32. -/
theorem literal_five : ¬ ∀ (acc : Accessor) (t : String) (columns : Option (List String))
    (e : Ast.Expr) (n : ℤ)
    (col : Catalog.Column), Writes e n → col.typeId.Fits n →
      insertTargets acc ⟨t, columns, .values [[e]]⟩ = .ok [col] →
        ∃ b, bindInsert acc ⟨t, columns, .values [[e]]⟩ = .ok b := by
  intro hall
  obtain ⟨b, h⟩ := hall (oneColumn .i32) "t" none (.literal (.integer 5)) _ (columnOf .i32) (.plain 5)
    (by constructor <;> decide) rfl
  cases h

/-! ### Values -/

/-- What an accepted coercion of a column to another type tells of the types. -/
theorem isNumeric_of_coerceExpr {e e' : BoundExpr} {target : DataType} {context : String}
    (hnull : isNullLiteral e = false) (hne : e.dataType ≠ target) (h : coerceExpr e target context = .ok e') :
    isNumeric e.dataType = true ∧ isNumeric target = true := by
  rw [coerceExpr, if_neg hne, hnull, if_neg Bool.false_ne_true] at h
  split at h
  · rename_i hcond
    rw [Bool.and_eq_true, Bool.and_eq_true] at hcond
    exact hcond.1
  · cases h

/-- **A coerced value keeps its number** exactly if it stays in its type, or goes to a type that
has the number and is neither I8 nor U8. -/
theorem coerced_iff (ops : FloatOps) {source target : DataType} {e e' : BoundExpr} {context : String}
    {v : Value}
    (htarget : (target.isSignedInt || target.isUnsignedInt) = true) (he : e.dataType = source)
    (hnull : isNullLiteral e = false) (hcoerce : coerceExpr e target context = .ok e')
    (hv : v.dataType = some source) (hn : v.number = some n) :
    v.Denotes ops target n ↔ source = target ∨ (target ≠ .i8 ∧ target ≠ .u8 ∧ target.Fits n) := by
  by_cases hne : source = target
  · exact iff_of_true (Value.denotes_self (hne ▸ hv) hn) (.inl hne)
  · obtain ⟨hsource, -⟩ := isNumeric_of_coerceExpr hnull (he ▸ hne) hcoerce
    have hu64 : v.dataType ≠ some .u64 := by
      rw [hv, Ne, Option.some_inj]
      rintro rfl
      rw [he] at hsource
      exact absurd hsource (by decide)
    have hother : v.dataType ≠ some target := by
      rw [hv, Ne, Option.some_inj]
      exact hne
    rw [Value.denotes_iff htarget hn hother hu64, or_iff_right hne]

/-- Floats of which nothing is asked. -/
def noFloats : FloatOps := ⟨fun _ => 0, fun _ => 0, fun _ => 0, fun _ => ""⟩

/-- A column as an expression. -/
def refTo (typeId : DataType) : BoundExpr := ⟨.columnRef ⟨none, "c", 0⟩, typeId, false⟩

theorem coerced_u16 : (Value.u16 7).Denotes noFloats .i16 7 ↔
    DataType.u16 = .i16 ∨ (DataType.i16 ≠ .i8 ∧ DataType.i16 ≠ .u8 ∧ DataType.i16.Fits 7) :=
  coerced_iff noFloats rfl (rfl : (refTo .u16).dataType = .u16) rfl
    (rfl : coerceExpr _ .i16 "c" = .ok _) rfl rfl

/-- **A number wraps around**: a U32 goes into an I32 column, and `2^31` is stored as `-2^31`. -/
theorem coerced_u32 : ¬ ∀ (ops : FloatOps) (source target : DataType) (e e' : BoundExpr) (context : String)
    (v : Value) (n : ℤ), (source.isSignedInt || source.isUnsignedInt) = true →
      (target.isSignedInt || target.isUnsignedInt) = true → e.dataType = source → isNullLiteral e = false →
      coerceExpr e target context = .ok e' → v.dataType = some source → v.number = some n →
        v.Denotes ops target n := by
  intro hall
  obtain ⟨w, hcast, -, hn⟩ := hall noFloats .u32 .i32 (refTo .u32) _ "c" (.u32 2147483648) 2147483648
    rfl rfl rfl rfl rfl rfl rfl
  cases hcast
  exact absurd hn (by decide)

end Binder
end Abdb
