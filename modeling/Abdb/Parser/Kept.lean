/-
# What translation drops

The parts of a statement that is translated are those of what is produced exactly if all of them are
expressible (`keepsParts_iff`): then they are the same parts in the same order, and a part that is not
expressible is never produced, at whatever depth of its term the reason lies.  So a LIMIT outside
parentheses, DISTINCT ON, the further tables and the joins of a DELETE or an UPDATE, its LIMIT, and all but
the first column or index of a DROP are dropped without an error.
-/

import Abdb.Parser.Meaning
import Mathlib.Data.List.Perm.Subperm

namespace Abdb

open Operator (Expressible)

/-! ### What is produced is expressible -/

namespace Ast

theorem AlterTableAction.expressible : ∀ action : AlterTableAction, action.term.All Expressible
  | .addColumn ⟨name, dataType, nullable, default, unique, primaryKey⟩ => by
    refine Term.all_node.2 ⟨⟨rfl, ?_, rfl⟩, optionTerms_expressible default⟩
    cases default <;> simp
  | .addForeignKey fk => by
    refine Term.all_leaf.2 ⟨?_, ?_⟩ <;> rw [ne_eq, Option.map_eq_some_iff] <;> rintro ⟨action, -, haction⟩ <;>
      cases action <;> cases haction
  | .renameColumn _ _ | .renameTable _ | .dropForeignKey _ | .addPrimaryKey _ | .dropConstraint _ =>
    Term.all_leaf.2 trivial
  | .dropColumn _ | .alterColumnType _ _ => Term.all_leaf.2 rfl

theorem Statement.parts_expressible : ∀ s : Statement, ∀ t ∈ s.parts, t.All Expressible
  | .dropTable _ => List.forall_mem_singleton.2 (Term.all_leaf.2 trivial)
  | .dropIndex _ => List.forall_mem_singleton.2 (Term.all_leaf.2 rfl)
  | .alterTable stmt => List.forall_mem_cons.2
      ⟨Term.all_leaf.2 trivial, List.forall_mem_singleton.2 stmt.action.expressible⟩
  | .select stmt => stmt.parts_expressible
  | .update stmt => by
    refine List.forall_mem_cons.2 ⟨Term.all_leaf.2 ⟨rfl, rfl⟩, ?_⟩
    rw [List.forall_mem_append, List.forall_mem_map]
    exact ⟨fun a _ => Term.all_node.2 ⟨rfl, List.forall_mem_singleton.2 a.value.expressible⟩,
      expressible_map_node trivial (optionTerms_expressible stmt.whereClause)⟩
  | .delete stmt => List.forall_mem_cons.2
      ⟨Term.all_leaf.2 ⟨rfl, rfl⟩, expressible_map_node trivial (optionTerms_expressible stmt.whereClause)⟩

end Ast

namespace Parser

variable {toLowercase : String → String}

/-- Clauses that are not expressible. -/
theorem map_node_eq_nil {o : Operator} {ts : List SqlTerm} (ho : ¬ o.Expressible)
    (h : ∀ t ∈ ts.map fun t => Term.node o [t], t.All Expressible) : ts = [] := by
  refine List.eq_nil_iff_forall_not_mem.2 fun t ht => ho ?_
  exact (Term.all_node.1 (h _ (List.mem_map_of_mem ht))).1

theorem term_of_translateTable {error name : String} {aliasName : Option String} {relation : Sq.TableFactor}
    (h : translateTable error relation = .ok (name, aliasName))
    (hp : (relation.term toLowercase).All Expressible) :
    Term.node (.table name aliasName [] []) [] = relation.term toLowercase := by
  cases relation with
  | table =>
    cases h
    obtain ⟨hcolumns, hclauses⟩ := Term.all_leaf.1 hp
    rw [Sq.TableFactor.term, hcolumns, hclauses]
  | _ => cases h

/-! ### UPDATE and DELETE -/

/-- A path of one name is that of the column. -/
theorem path_eq {table : Sq.TableFactor} {name : Sq.ObjectName} (h : (name.path table).length = 1) :
    name.path table = [name.parts.getLast?.getD ""] := by
  rw [Sq.ObjectName.path] at h ⊢
  split at h
  · rename_i column hlast
    rw [hlast]
    split_ifs at h ⊢
    · rfl
    · obtain ⟨c, hc⟩ := List.length_eq_one_iff.1 h
      rw [hc] at hlast ⊢
      cases hlast
      rfl
  · cases h

theorem term_of_translateAssignment {table : Sq.TableFactor} {a : Sq.Assignment} {a' : Ast.Assignment}
    (h : translateAssignment toLowercase a = .ok a') (hp : (a.term toLowercase table).All Expressible) :
    Term.node (.assignment [a'.column]) [a'.value.term] = a.term toLowercase table := by
  obtain ⟨target, value⟩ := a
  cases target with
  | columnName name =>
    simp only [translateAssignment, bind_eq_ok] at h
    obtain ⟨v, hv, h⟩ := h
    cases h
    obtain ⟨hpath, hvalue⟩ := Term.all_node.1 hp
    rw [Sq.Assignment.term, path_eq hpath, term_of_translateExpr hv (List.forall_mem_singleton.1 hvalue)]
  | tuple names => cases h

theorem terms_of_translateAssignments {table : Sq.TableFactor} {l : List Sq.Assignment}
    {l' : List Ast.Assignment}
    (h : List.Forall₂ (fun a a' => translateAssignment toLowercase a = .ok a') l l')
    (hp : ∀ t ∈ l.map (Sq.Assignment.term toLowercase table), t.All Expressible) :
    l'.map (fun a => Term.node (.assignment [a.column]) [a.value.term]) =
      l.map (Sq.Assignment.term toLowercase table) := by
  induction h with
  | nil => rfl
  | cons ha _ ih =>
    obtain ⟨hhead, htail⟩ := List.forall_mem_cons.1 hp
    rw [List.map_cons, List.map_cons, term_of_translateAssignment ha hhead, ih htail]

theorem parts_of_translateUpdate {stmt : Sq.Update} {t : Ast.Statement}
    (h : translateUpdate toLowercase stmt.table stmt.assignments stmt.selection = .ok t)
    (hp : ∀ p ∈ stmt.parts toLowercase, p.All Expressible) : t.parts = stmt.parts toLowercase := by
  simp only [translateUpdate, bind_eq_ok] at h
  obtain ⟨⟨name, aliasName⟩, htable, assignments, hassignments, w, hw, h⟩ := h
  cases h
  simp only [Sq.Update.parts, List.forall_mem_cons, List.forall_mem_append] at hp
  obtain ⟨htableE, ⟨⟨⟨⟨hassignmentsE, hwE⟩, hjoins⟩, hfrom⟩, hlimit⟩, hclauses⟩ := hp
  have hmap := terms_of_translateAssignments (mapM_eq_ok hassignments) hassignmentsE
  rw [Ast.Statement.parts, Ast.UpdateStmt.parts, Sq.Update.parts, term_of_translateTable htable htableE, hmap,
    optionTerms_of_translateOption hw (expressible_of_map_node hwE), map_node_eq_nil id hjoins,
    map_node_eq_nil id hfrom, map_node_eq_nil id hlimit, clauses_eq_nil hclauses]
  simp only [List.map_nil, List.append_nil]

theorem parts_of_translateDelete {stmt : Sq.Delete} {t : Ast.Statement}
    (h : translateDelete toLowercase stmt = .ok t)
    (hp : ∀ p ∈ stmt.parts toLowercase, p.All Expressible) : t.parts = stmt.parts toLowercase := by
  rw [translateDelete] at h
  split_ifs at h
  obtain ⟨l, hfrom⟩ : ∃ l, fromTables stmt.from_ = l := ⟨_, rfl⟩
  rw [hfrom] at h
  rw [Sq.Delete.parts, hfrom] at hp ⊢
  cases l with
  | nil => cases h
  | cons table further =>
    simp only [bind_eq_ok] at h
    obtain ⟨⟨name, aliasName⟩, htable, w, hw, h⟩ := h
    cases h
    simp only [List.forall_mem_cons, List.forall_mem_append] at hp
    obtain ⟨htableE, ⟨⟨⟨⟨⟨⟨hwE, htargets⟩, hjoins⟩, hfurther⟩, husing⟩, horder⟩, hlimit⟩, hclauses⟩ := hp
    have htargets : stmt.tables.filter (·.toString ∉ table.relation.names) = [] := by
      refine List.eq_nil_iff_forall_not_mem.2 fun name hname => ?_
      exact Term.all_leaf.1 (htargets _ (List.mem_map_of_mem hname))
    dsimp only
    rw [Ast.Statement.parts, Ast.DeleteStmt.parts, term_of_translateTable htable htableE,
      optionTerms_of_translateOption hw (expressible_of_map_node hwE), htargets,
      map_node_eq_nil id hjoins, map_node_eq_nil id hfurther, map_node_eq_nil id husing,
      map_node_eq_nil id horder, map_node_eq_nil id hlimit, clauses_eq_nil hclauses]
    simp only [List.map_nil, List.append_nil]

/-! ### ALTER TABLE -/

/-- The options of an added column, one after the other. -/
theorem foldlM_addOption {options : List Sq.ColumnOption} {c c' : Ast.ColumnDef}
    (h : options.foldlM (addOption toLowercase) c = .ok c') :
    c'.name = c.name ∧ c'.dataType = c.dataType ∧
      c'.nullable = (options.filterMap Sq.ColumnOption.nullable).getLast?.getD c.nullable ∧
      c'.primaryKey = (c.primaryKey || options.any Sq.ColumnOption.isPrimaryKey) ∧
      c'.unique = (c.unique || options.any Sq.ColumnOption.isUnique) ∧
      (options.filterMap Sq.ColumnOption.defaultExpr = [] → c'.default = c.default) ∧
      ∀ e, options.filterMap Sq.ColumnOption.defaultExpr = [e] →
        ∃ v, translateExpr toLowercase e = .ok v ∧ c'.default = some v := by
  induction options generalizing c with
  | nil =>
    cases h
    simp
  | cons o rest ih =>
    rw [List.foldlM_cons, bind_eq_ok] at h
    obtain ⟨d, ho, h⟩ := h
    obtain ⟨hname, htype, hnull, hkey, hunique, hnone, hsome⟩ := ih h
    cases o with
    | default expr =>
      simp only [addOption, bind_eq_ok] at ho
      obtain ⟨v, hv, ho⟩ := ho
      cases ho
      refine ⟨hname, htype, hnull, hkey, hunique, by rintro ⟨⟩, fun e he => ?_⟩
      obtain ⟨rfl, hrest⟩ := List.cons.inj he
      exact ⟨v, hv, hnone hrest⟩
    | notNull | null | primaryKey | unique | other =>
      cases ho
      exact ⟨hname, htype, by simp [hnull, Sq.ColumnOption.nullable, List.getLast?_cons],
        by simpa [Sq.ColumnOption.isPrimaryKey] using hkey, by simpa [Sq.ColumnOption.isUnique] using hunique,
        hnone, hsome⟩

/-- NULL or NOT NULL is what the last option that says so says, unless that takes a NOT NULL back. -/
theorem getLast?_getD {l : List Bool} (h : decide (false ∈ l ∧ l.getLast? = some true) = false) :
    l.getLast?.getD true = decide (false ∉ l) := by
  cases hlast : l.getLast? with
  | none =>
    rw [List.getLast?_eq_none_iff.1 hlast]
    rfl
  | some b =>
    cases b with
    | false => exact (decide_eq_false (not_not.2 (List.mem_of_getLast? hlast))).symm
    | true =>
      have hmem : false ∉ l := fun hmem => of_decide_eq_false h ⟨hmem, hlast⟩
      exact (decide_eq_true hmem).symm

theorem action_translateFkAction {o : Option Sq.ReferentialAction} (h : o ≠ some .setDefault) :
    (o.map translateFkAction).map (·.action) = o := by
  cases o with
  | none => rfl
  | some action =>
    cases action with
    | setDefault => exact absurd rfl h
    | _ => rfl

theorem term_of_translateAlterAction {operation : Sq.AlterTableOperation} {action : Ast.AlterTableAction}
    (h : translateAlterAction toLowercase operation = .ok action)
    (hp : ∀ p ∈ operation.parts toLowercase, p.All Expressible) :
    [action.term] = operation.parts toLowercase := by
  cases operation with
  | addColumn columnDef clauses =>
    obtain ⟨name, dataType, options⟩ := columnDef
    simp only [translateAlterAction, bind_eq_ok] at h
    obtain ⟨dt, hdt, c, hc, h⟩ := h
    cases h
    simp only [Sq.AlterTableOperation.parts, Sq.ColumnDef.parts, List.cons_append, List.forall_mem_cons,
      List.forall_mem_append, Term.all_node] at hp
    obtain ⟨⟨⟨hbounds, hdefaults, hover⟩, hdefaultE⟩, hother, hclauses⟩ := hp
    obtain ⟨hname, htype, hnull, hkey, hunique, hnone, hsome⟩ := foldlM_addOption hc
    rw [getLast?_getD hover] at hnull
    obtain ⟨name', dataType', nullable, default, unique, primaryKey⟩ := c
    have hdefault : default.toList.length = (options.filterMap Sq.ColumnOption.defaultExpr).length ∧
        Ast.optionTerms default =
          (options.filterMap Sq.ColumnOption.defaultExpr).map (Sq.Expr.term toLowercase) := by
      rcases hexprs : options.filterMap Sq.ColumnOption.defaultExpr with _ | ⟨e, _ | ⟨e', further⟩⟩
      · obtain rfl : default = none := hnone hexprs
        exact ⟨rfl, rfl⟩
      · obtain ⟨v, hv, hdefault⟩ := hsome e hexprs
        obtain rfl : default = some v := hdefault
        rw [hexprs] at hdefaultE
        have hterm := term_of_translateExpr hv (hdefaultE _ List.mem_cons_self)
        exact ⟨rfl, by rw [Ast.optionTerms, hterm]; rfl⟩
      · rw [hexprs] at hdefaults
        exact absurd hdefaults (by simp)
    rw [Sq.AlterTableOperation.parts, Sq.ColumnDef.parts, clauses_eq_nil hother, clauses_eq_nil hclauses,
      hbounds, hover, values_of_translateDataType hdt, Ast.AlterTableAction.term, hdefault.1, hdefault.2]
    obtain rfl : name' = name := hname
    obtain rfl : dataType' = dt := htype
    obtain rfl : nullable = _ := hnull
    obtain rfl : primaryKey = _ := hkey.trans (Bool.false_or _)
    obtain rfl : unique = _ := hunique.trans (Bool.false_or _)
    rfl
  | dropColumn names clauses =>
    cases names with
    | nil => cases h
    | cons name further =>
      cases h
      simp only [Sq.AlterTableOperation.parts, List.forall_mem_cons] at hp
      have hlen : Operator.Expressible (.dropColumn (name :: further)) := Term.all_leaf.1 hp.1
      obtain rfl : further = [] := List.length_eq_zero_iff.1 (Nat.succ.inj hlen)
      rw [Sq.AlterTableOperation.parts, clauses_eq_nil hp.2]
      rfl
  | renameColumn old new =>
    cases h
    rfl
  | renameTable kind =>
    cases kind <;> cases h <;> rfl
  | alterColumn column op =>
    cases op with
    | setDataType dataType using_ =>
      simp only [translateAlterAction, bind_eq_ok] at h
      obtain ⟨dt, hdt, h⟩ := h
      cases h
      simp only [Sq.AlterTableOperation.parts, List.forall_mem_cons] at hp
      obtain ⟨htype, husing⟩ := hp
      have hop : Operator.Expressible (.alterColumnType column (dataType.values toLowercase)
          dataType.bounds) := Term.all_leaf.1 htype
      have hbounds : dataType.bounds = [] := hop
      rw [Sq.AlterTableOperation.parts, map_node_eq_nil id husing, hbounds, values_of_translateDataType hdt]
      rfl
    | other => cases h
  | addConstraint constraint clauses =>
    cases constraint with
    | foreignKey fk =>
      cases h
      simp only [Sq.AlterTableOperation.parts, List.forall_mem_cons] at hp
      obtain ⟨hactions, hclauses⟩ := hp
      obtain ⟨hdelete, hupdate⟩ := Term.all_leaf.1 hactions
      rw [Sq.AlterTableOperation.parts, clauses_eq_nil hclauses, Ast.AlterTableAction.term,
        translateFkConstraint, action_translateFkAction hdelete, action_translateFkAction hupdate]
      rfl
    | primaryKey pk =>
      cases h
      simp only [Sq.AlterTableOperation.parts, List.forall_mem_cons] at hp
      rw [Sq.AlterTableOperation.parts, clauses_eq_nil hp.2]
      rfl
    | other => cases h
  | dropConstraint name clauses =>
    cases h
    simp only [Sq.AlterTableOperation.parts, List.forall_mem_cons] at hp
    rw [Sq.AlterTableOperation.parts, clauses_eq_nil hp.2]
    rfl
  | dropForeignKey name clauses =>
    cases h
    simp only [Sq.AlterTableOperation.parts, List.forall_mem_cons] at hp
    rw [Sq.AlterTableOperation.parts, clauses_eq_nil hp.2]
    rfl
  | other => cases h

/-! ### Statements -/

/-- **What is expressible is translated as it is**, in every part of a statement. -/
theorem parts_of_translateStatement {s : Sq.Statement} {t : Ast.Statement}
    (h : translateStatement toLowercase s = .ok t) (hp : ∀ p ∈ s.parts toLowercase, p.All Expressible) :
    t.parts = s.parts toLowercase := by
  cases s with
  | query q =>
    simp only [translateStatement, bind_eq_ok] at h
    obtain ⟨sel, hsel, h⟩ := h
    cases h
    exact parts_of_translateQuery hsel hp
  | update stmt => exact parts_of_translateUpdate h hp
  | delete stmt => exact parts_of_translateDelete h hp
  | alterTable stmt =>
    obtain ⟨name, operations, clauses⟩ := stmt
    rcases operations with _ | ⟨operation, _ | ⟨second, further⟩⟩
    · cases h
    · simp only [translateStatement, bind_eq_ok] at h
      obtain ⟨action, haction, h⟩ := h
      split_ifs at h
      cases h
      simp only [Sq.Statement.parts, List.flatMap_singleton, List.forall_mem_cons,
        List.forall_mem_append] at hp
      obtain ⟨-, haction', hclauses⟩ := hp
      rw [Sq.Statement.parts, clauses_eq_nil hclauses, List.flatMap_singleton,
        ← term_of_translateAlterAction haction haction']
      rfl
    · cases h
  | drop stmt =>
    obtain ⟨objectType, ifExists, names, table, clauses⟩ := stmt
    cases objectType with
    | table =>
      rcases names with _ | ⟨name, _ | ⟨second, further⟩⟩
      · cases h
      · cases h
        have hclauses := clauses_eq_nil (List.forall_mem_cons.1 hp).2
        subst hclauses
        rfl
      · cases h
    | index =>
      rcases table with _ | table
      · cases h
      rcases names with _ | ⟨name, further⟩
      · cases h
      · simp only [translateStatement] at h
        split_ifs at h
        cases h
        simp only [Sq.Statement.parts, Sq.Drop.parts, List.forall_mem_cons] at hp
        have hlen : Operator.Expressible (.dropIndex ((name :: further).map Sq.ObjectName.toString)
          table.toString ifExists) := Term.all_leaf.1 hp.1
        obtain rfl : further = [] := List.map_eq_nil_iff.1 (List.length_eq_zero_iff.1 (Nat.succ.inj hlen))
        rw [Sq.Statement.parts, Sq.Drop.parts, clauses_eq_nil hp.2]
        rfl
    | other => cases h

end Parser
end Abdb
