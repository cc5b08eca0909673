/-
# What is defined

The binder gives every table, column and index an identifier of its own: over any run of statements,
accepted or not, no identifier is given to two of them, and no file either, as long as the allocator does
not repeat itself (`created_bindAll`).

The columns of an accepted CREATE TABLE are those written, at the places they are written, and no two
names are the same up to case.  So a name in the PRIMARY KEY is the name of one column only, and the key
has its position (`createTable_accepted`).
-/

import Abdb.Binder.Statement
import Abdb.Lib.Issue
import Mathlib.Algebra.Order.Ring.Nat

namespace Abdb

open Lib

/-- The allocator gives no identifier out twice, and no file. -/
structure OidAllocator.Fresh {σ : Type} (oids : OidAllocator σ) (used : σ → Set OId) (files : σ → Set FileId) :
    Prop where
  nextOid : ∀ s, Issues used s [(oids.nextOid s).1] (oids.nextOid s).2
  nextOid_files : ∀ s, files s ⊆ files (oids.nextOid s).2
  nextFileId : ∀ s, Issues files s [(oids.nextFileId s).1] (oids.nextFileId s).2
  nextFileId_oids : ∀ s, used s ⊆ used (oids.nextFileId s).2

/-- The identifiers of what an action defines. -/
def BoundAlterAction.created : BoundAlterAction → List OId
  | .addColumn column => [column.oid]
  | _ => []

/-- The identifiers of what a statement defines. -/
def BoundStatement.created : BoundStatement → List OId
  | .createTable stmt => stmt.tableOid :: stmt.columns.map (·.oid)
  | .alterTable stmt => stmt.action.created
  | .createIndex stmt => [stmt.indexOid]
  | .explain inner => inner.created
  | _ => []

/-- The files of what a statement defines. -/
def BoundStatement.createdFiles : BoundStatement → List FileId
  | .createTable stmt => [stmt.fileId]
  | .createIndex stmt => [stmt.fileId]
  | .explain inner => inner.createdFiles
  | _ => []

namespace Binder

variable {σ : Type} {oids : OidAllocator σ} {used : σ → Set OId} {files : σ → Set FileId} {acc : Accessor}
  {s s' : σ}

/-- Statements bound one after the other, each with the catalog of its time. -/
def bindAll (oids : OidAllocator σ) : List (DefinitionAccessor × Ast.Command) → σ →
    Option (List (Except DefinitionError BoundStatement) × σ)
  | [], s => some ([], s)
  | (acc, command) :: commands, s =>
    match bind acc oids command s with
    | none => none
    | some (result, s) => (bindAll oids commands s).map fun (results, s) => (result :: results, s)

/-- The statements that were accepted. -/
def accepted (results : List (Except DefinitionError BoundStatement)) : List BoundStatement :=
  results.filterMap Except.toOption

/-- The identifiers of what an accepted statement defines. -/
def createdBy (result : Except DefinitionError BoundStatement) : List OId :=
  (result.toOption.map (·.created)).getD []

/-- The files of what an accepted statement defines. -/
def createdFilesBy (result : Except DefinitionError BoundStatement) : List FileId :=
  (result.toOption.map (·.createdFiles)).getD []

/-! ### Identifiers -/

/-- Between two states an allocator gave out these identifiers and these files. -/
def Gives (used : σ → Set OId) (files : σ → Set FileId) (s : σ) (l : List OId) (fs : List FileId) (s' : σ) : Prop :=
  Issues used s l s' ∧ Issues files s fs s'

theorem gives_nothing (s : σ) : Gives used files s [] [] s := ⟨.refl s, .refl s⟩

theorem Gives.append {l l' : List OId} {fs fs' : List FileId} {s'' : σ} (h : Gives used files s l fs s')
    (h' : Gives used files s' l' fs' s'') : Gives used files s (l ++ l') (fs ++ fs') s'' :=
  ⟨h.1.append h'.1, h.2.append h'.2⟩

theorem Gives.forget {l : List OId} {fs : List FileId} (h : Gives used files s l fs s') : Gives used files s [] [] s' :=
  ⟨.none h.1.kept, .none h.2.kept⟩

/-- What is bound without the allocator and defines nothing. -/
theorem created_lift {α β : Type} {created : β → List ℕ} {f : α → β} (hf : ∀ a, created (f a) = [])
    (r : BindResult α) : ((lift s (r.map f)).1.toOption.map created).getD [] = [] := by
  cases r with
  | error e => rfl
  | ok a => exact hf a

section Fresh

variable (hfresh : oids.Fresh used files)
include hfresh

theorem gives_oid (s : σ) : Gives used files s [(oids.nextOid s).1] [] (oids.nextOid s).2 :=
  ⟨hfresh.nextOid s, .none (hfresh.nextOid_files s)⟩

theorem gives_file (s : σ) : Gives used files s [] [(oids.nextFileId s).1] (oids.nextFileId s).2 :=
  ⟨.none (hfresh.nextFileId_oids s), hfresh.nextFileId s⟩

theorem gives_columnDef {position : ℕ} {col : Ast.ColumnDef} {result : Except DefinitionError BoundColumnDef}
    (h : bindColumnDef acc oids position col s = (result, s')) :
    Gives used files s ((result.toOption.map (·.oid)).toList) [] s' := by
  rw [bindColumnDef] at h
  cases hdefault : bindDefault acc col.default with
  | error e =>
    rw [hdefault] at h
    obtain ⟨rfl, rfl⟩ := Prod.mk.inj h
    exact gives_nothing s
  | ok default =>
    rw [hdefault] at h
    obtain ⟨rfl, rfl⟩ := Prod.mk.inj h
    exact gives_oid hfresh s

theorem gives_columnDefs : ∀ (cols : List Ast.ColumnDef) (position : ℕ) {s s' : σ}
    {result : Except DefinitionError (List BoundColumnDef)},
    bindColumnDefs acc oids position cols s = (result, s') →
      Gives used files s ((result.toOption.getD []).map (·.oid)) [] s' := by
  intro cols
  induction cols with
  | nil =>
    intro position s s' result h
    obtain ⟨rfl, rfl⟩ := Prod.mk.inj h
    exact gives_nothing s
  | cons col cols ih =>
    intro position s s' result h
    rw [bindColumnDefs] at h
    rcases hcol : bindColumnDef acc oids position col s with ⟨first, s₁⟩
    have hfirst := gives_columnDef hfresh hcol
    rw [hcol] at h
    cases first with
    | error e =>
      obtain ⟨rfl, rfl⟩ := Prod.mk.inj h
      exact hfirst
    | ok bound =>
      rcases hrest : bindColumnDefs acc oids (position + 1) cols s₁ with ⟨rest, s₂⟩
      have htail := ih _ hrest
      dsimp only at h
      rw [hrest] at h
      cases rest with
      | error e =>
        obtain ⟨rfl, rfl⟩ := Prod.mk.inj h
        exact (hfirst.append htail).forget
      | ok rest =>
        obtain ⟨rfl, rfl⟩ := Prod.mk.inj h
        exact hfirst.append htail

/-- The identifiers of a table and its columns. -/
theorem gives_createTable {stmt : Ast.CreateTableStmt} {result : Except DefinitionError BoundCreateTable}
    (h : bindCreateTable acc oids stmt s = (result, s')) :
    Gives used files s (createdBy (result.map .createTable)) (createdFilesBy (result.map .createTable)) s' := by
  rw [bindCreateTable] at h
  split at h
  · obtain ⟨rfl, rfl⟩ := Prod.mk.inj h
    exact gives_nothing s
  cases hname : duplicateName acc.toLowercase [] (stmt.columns.map (·.name)) with
  | some name =>
    rw [hname] at h
    obtain ⟨rfl, rfl⟩ := Prod.mk.inj h
    exact gives_nothing s
  | none =>
    rw [hname] at h
    dsimp only at h
    have hoid := gives_oid hfresh s
    have hfile := gives_file hfresh (oids.nextOid s).2
    rcases hcols : bindColumnDefs acc oids 0 stmt.columns (oids.nextFileId (oids.nextOid s).2).2 with ⟨cols, s₁⟩
    have htable := (hoid.append hfile).append (gives_columnDefs hfresh _ _ hcols)
    rw [hcols] at h
    cases cols with
    | error e =>
      obtain ⟨rfl, rfl⟩ := Prod.mk.inj h
      exact htable.forget
    | ok cols =>
      obtain ⟨rfl, rfl⟩ := Prod.mk.inj h
      cases stmt.primaryKey.mapM (keyPosition cols) with
      | error e => exact htable.forget
      | ok primaryKey => exact htable

theorem gives_alterAction {columns : List Catalog.Column} {action : Ast.AlterTableAction}
    {result : Except DefinitionError BoundAlterAction} (h : bindAlterAction acc oids columns s action = (result, s')) :
    Gives used files s ((result.toOption.map (·.created)).getD []) [] s' := by
  have hlift : ∀ {α : Type} {f : α → BoundAlterAction} {r : BindResult α}, (∀ a, (f a).created = []) →
      lift s (r.map f) = (result, s') → Gives used files s ((result.toOption.map (·.created)).getD []) [] s' := by
    intro α f r hf h
    have hcreated := created_lift (s := s) hf r
    rw [h] at hcreated
    obtain ⟨-, rfl⟩ := Prod.mk.inj h
    rw [hcreated]
    exact gives_nothing s
  cases action with
  | addColumn col =>
    rw [bindAlterAction] at h
    rcases hcol : bindColumnDef acc oids columns.length col s with ⟨bound, s₁⟩
    have hgives := gives_columnDef hfresh hcol
    rw [hcol] at h
    cases bound <;>
    · obtain ⟨rfl, rfl⟩ := Prod.mk.inj h
      exact hgives
  | dropColumn name => exact hlift (fun _ => rfl) h
  | renameColumn old new => exact hlift (fun _ => rfl) h
  | alterColumnType column newType => exact hlift (fun _ => rfl) h
  | addPrimaryKey columns => exact hlift (fun _ => rfl) h
  | renameTable name | addForeignKey fk | dropForeignKey name | dropConstraint name =>
    obtain ⟨rfl, rfl⟩ := Prod.mk.inj h
    exact gives_nothing s

theorem gives_alterTable {stmt : Ast.AlterTableStmt} {result : Except DefinitionError BoundAlterTable}
    (h : bindAlterTable acc oids stmt s = (result, s')) :
    Gives used files s (createdBy (result.map .alterTable)) (createdFilesBy (result.map .alterTable)) s' := by
  rw [bindAlterTable] at h
  cases htable : definedTable acc stmt.name with
  | error e =>
    rw [htable] at h
    obtain ⟨rfl, rfl⟩ := Prod.mk.inj h
    exact gives_nothing s
  | ok found =>
    obtain ⟨table, columns⟩ := found
    rw [htable] at h
    rcases haction : bindAlterAction acc oids columns s stmt.action with ⟨action, s₁⟩
    have hgives := gives_alterAction hfresh haction
    dsimp only at h
    rw [haction] at h
    cases action <;>
    · obtain ⟨rfl, rfl⟩ := Prod.mk.inj h
      exact hgives

/-- The identifier of an index. -/
theorem gives_createIndex {acc : DefinitionAccessor} {stmt : Ast.CreateIndexStmt}
    {result : Except DefinitionError BoundCreateIndex} (h : bindCreateIndex acc oids stmt s = (result, s')) :
    Gives used files s (createdBy (result.map .createIndex)) (createdFilesBy (result.map .createIndex)) s' := by
  have hnone : ∀ e : DefinitionError, (.error e, s) = (result, s') →
      Gives used files s (createdBy (result.map .createIndex)) (createdFilesBy (result.map .createIndex)) s' := by
    intro e h
    obtain ⟨rfl, rfl⟩ := Prod.mk.inj h
    exact gives_nothing s
  rw [bindCreateIndex] at h
  split at h
  · exact hnone _ h
  · exact hnone _ h
  · split at h
    · exact hnone _ h
    · split at h
      · exact hnone _ h
      · split at h
        · exact hnone _ h
        · obtain ⟨rfl, rfl⟩ := Prod.mk.inj h
          exact (gives_oid hfresh s).append (gives_file hfresh (oids.nextOid s).2)

/-- **One statement** gives out the identifiers of what it defines. -/
theorem gives_bind {acc : DefinitionAccessor} : ∀ (command : Ast.Command)
    {result : Except DefinitionError BoundStatement}, bind acc oids command s = some (result, s') →
      Gives used files s (createdBy result) (createdFilesBy result) s' := by
  have hlift : ∀ {α : Type} {f : α → BoundStatement} {r : BindResult α} {result},
      (∀ a, (f a).created = []) → (∀ a, (f a).createdFiles = []) → some (lift s (r.map f)) = some (result, s') →
        Gives used files s (createdBy result) (createdFilesBy result) s' := by
    intro α f r result hf hfiles h
    have hcreated := created_lift (s := s) hf r
    have hcreatedFiles := created_lift (s := s) hfiles r
    have h := Option.some.inj h
    rw [h] at hcreated hcreatedFiles
    obtain ⟨-, rfl⟩ := Prod.mk.inj h
    rw [createdBy, createdFilesBy, hcreated, hcreatedFiles]
    exact gives_nothing s
  intro command
  induction command with
  | createTable stmt =>
    intro result h
    rw [bind] at h
    obtain ⟨rfl, rfl⟩ := Prod.mk.inj (Option.some.inj h)
    exact gives_createTable hfresh rfl
  | createIndex stmt =>
    intro result h
    rw [bind] at h
    obtain ⟨rfl, rfl⟩ := Prod.mk.inj (Option.some.inj h)
    exact gives_createIndex hfresh rfl
  | insert stmt => exact fun h => hlift (fun _ => rfl) (fun _ => rfl) h
  | basic stmt =>
    intro result h
    cases stmt with
    | alterTable stmt =>
      rw [bind] at h
      obtain ⟨rfl, rfl⟩ := Prod.mk.inj (Option.some.inj h)
      exact gives_alterTable hfresh rfl
    | dropTable stmt => exact hlift (fun _ => rfl) (fun _ => rfl) h
    | select stmt => exact hlift (fun _ => rfl) (fun _ => rfl) h
    | update stmt => exact hlift (fun _ => rfl) (fun _ => rfl) h
    | delete stmt => exact hlift (fun _ => rfl) (fun _ => rfl) h
    | dropIndex stmt => exact hlift (fun _ => rfl) (fun _ => rfl) h
  | explain inner ih =>
    intro result h
    rw [bind, Option.map_eq_some_iff] at h
    obtain ⟨⟨bound, s₁⟩, hinner, h⟩ := h
    obtain ⟨rfl, rfl⟩ := Prod.mk.inj h
    have hgives := ih hinner
    cases bound <;> exact hgives
  | beginTransaction level => rintro result ⟨⟩
  | commit => rintro result ⟨⟩
  | rollback => rintro result ⟨⟩

/-- **Every identifier is given once**: over a run of statements, of which some fail, no two of the things
that are defined have the same identifier, no two of them the same file, and none has one that was given
out before. -/
theorem created_bindAll (commands : List (DefinitionAccessor × Ast.Command)) (s : σ)
    (results : List (Except DefinitionError BoundStatement)) (s' : σ)
    (h : bindAll oids commands s = some (results, s')) :
    Issues used s ((accepted results).flatMap (·.created)) s' ∧
      Issues files s ((accepted results).flatMap (·.createdFiles)) s' := by
  induction commands generalizing s results with
  | nil =>
    obtain ⟨rfl, rfl⟩ := Prod.mk.inj (Option.some.inj h)
    exact gives_nothing s
  | cons head commands ih =>
    obtain ⟨acc, command⟩ := head
    rw [bindAll] at h
    cases hbind : bind acc oids command s with
    | none =>
      rw [hbind] at h
      cases h
    | some bound =>
      obtain ⟨result, s₁⟩ := bound
      rw [hbind] at h
      obtain ⟨⟨rest, s₂⟩, hrest, heq⟩ := Option.map_eq_some_iff.1 h
      obtain ⟨rfl, rfl⟩ := Prod.mk.inj heq
      have hgives := (gives_bind hfresh command hbind).append (ih s₁ rest hrest)
      cases result <;> exact hgives

end Fresh

/-- An allocator that counts. -/
def counter : OidAllocator (ℕ × ℕ) := ⟨fun s => (s.1, s.1 + 1, s.2), fun s => (s.2, s.1, s.2 + 1)⟩

theorem fresh_counter : counter.Fresh (fun s => {o | o < s.1}) fun s => {f | f < s.2} where
  nextOid s := .one (fun _ h => Nat.lt_succ_of_lt h) (lt_irrefl s.1) (Nat.lt_succ_self s.1)
  nextOid_files _ := subset_rfl
  nextFileId s := .one (fun _ h => Nat.lt_succ_of_lt h) (lt_irrefl s.2) (Nat.lt_succ_self s.2)
  nextFileId_oids _ := subset_rfl

/-- A catalog with a table of one column and without indexes. -/
def definitions : DefinitionAccessor := ⟨oneColumn .i64, fun _ => none⟩

/-- `CREATE TABLE name (a BIGINT PRIMARY KEY)`. -/
def createA (name : String) : Ast.Command :=
  .createTable ⟨name, [⟨"a", .i64, false, none, false, true⟩], ["a"], [], false⟩

/-- The second of three statements is rejected: there is a table `t`. -/
theorem created_bindAll_three : ∃ results s',
    bindAll counter [(definitions, createA "u"), (definitions, createA "t"), (definitions, createA "v")] (1, 1) =
      some (results, s') ∧ ((accepted results).flatMap (·.created)).Nodup :=
  ⟨_, _, rfl, (created_bindAll fresh_counter
    [(definitions, createA "u"), (definitions, createA "t"), (definitions, createA "v")] (1, 1) _ _ rfl).1.nodup⟩

/-! ### CREATE TABLE -/

/-- A column is bound as it is written, at its place. -/
structure BindsColumn (acc : Accessor) (position : ℕ) (col : Ast.ColumnDef) (bound : BoundColumnDef) : Prop where
  name : bound.name = col.name
  dataType : bound.dataType = col.dataType
  nullable : bound.nullable = col.nullable
  unique : bound.unique = col.unique
  primaryKey : bound.primaryKey = col.primaryKey
  default : bindDefault acc col.default = .ok bound.default
  position : bound.position = position % 2 ^ 16

/-- A CREATE TABLE that may be accepted. -/
structure Definable (acc : Accessor) (stmt : Ast.CreateTableStmt) : Prop where
  new : (acc.tableByName stmt.name).isSome → stmt.ifNotExists = true
  names : (stmt.columns.map fun col => acc.toLowercase col.name).Nodup
  defaults : ∀ col ∈ stmt.columns, ∃ default, bindDefault acc col.default = .ok default
  primaryKey : ∀ name ∈ stmt.primaryKey, ∃ n ∈ stmt.columns.map (·.name), eqIgnoreAsciiCase n name

/-- A name of the primary key stands for this column, at position `p`, and for no other. -/
def KeyOf (columns : List BoundColumnDef) (name : String) (p : ℕ) : Prop :=
  ∃ bound ∈ columns, bound.position = p ∧ eqIgnoreAsciiCase bound.name name ∧
    ∀ other ∈ columns, eqIgnoreAsciiCase other.name name → other = bound

/-- **What an accepted CREATE TABLE defines.** -/
structure Defines (acc : Accessor) (stmt : Ast.CreateTableStmt) (b : BoundCreateTable) : Prop where
  name : b.name = stmt.name
  columns : List.Forall₂ (fun i bound => BindsColumn acc i.2 i.1 bound) stmt.columns.zipIdx b.columns
  primaryKey : List.Forall₂ (KeyOf b.columns) stmt.primaryKey b.primaryKey
  foreignKeys : b.foreignKeys = stmt.foreignKeys
  ifNotExists : b.ifNotExists = stmt.ifNotExists

theorem duplicateName_eq_none (toLowercase : String → String) : ∀ (names seen : List String),
    duplicateName toLowercase seen names = none ↔
      (names.map toLowercase).Nodup ∧ ∀ name ∈ names, toLowercase name ∉ seen := by
  intro names
  induction names with
  | nil => exact fun seen => iff_of_true rfl ⟨.nil, nofun⟩
  | cons name names ih =>
    intro seen
    rw [duplicateName, List.map_cons, List.nodup_cons, List.forall_mem_cons]
    split
    · rename_i hseen
      exact iff_of_false nofun fun h => h.2.1 hseen
    · rename_i hseen
      rw [ih]
      constructor
      · rintro ⟨hnodup, hnew⟩
        refine ⟨⟨fun hmem => ?_, hnodup⟩, hseen, fun other hother h => ?_⟩
        · obtain ⟨other, hother, heq⟩ := List.mem_map.1 hmem
          exact hnew other hother (heq ▸ List.mem_cons_self)
        · exact hnew other hother (List.mem_cons_of_mem _ h)
      · rintro ⟨⟨hname, hnodup⟩, -, hnew⟩
        refine ⟨hnodup, fun other hother h => ?_⟩
        rcases List.mem_cons.1 h with heq | h
        · exact hname (heq ▸ List.mem_map_of_mem hother)
        · exact hnew other hother h

/-- **Columns are bound** exactly if their defaults are, each at its place. -/
theorem bindColumnDefs_spec (acc : Accessor) (oids : OidAllocator σ) : ∀ (cols : List Ast.ColumnDef) (position : ℕ) (s : σ),
    ((∃ bounds, (bindColumnDefs acc oids position cols s).1 = .ok bounds) ↔
      ∀ col ∈ cols, ∃ default, bindDefault acc col.default = .ok default) ∧
    ∀ bounds, (bindColumnDefs acc oids position cols s).1 = .ok bounds →
      List.Forall₂ (fun i bound => BindsColumn acc i.2 i.1 bound) (cols.zipIdx position) bounds := by
  intro cols
  induction cols with
  | nil =>
    refine fun position s => ⟨iff_of_true ⟨[], rfl⟩ nofun, fun bounds h => ?_⟩
    rw [← Except.ok.inj h]
    exact .nil
  | cons col cols ih =>
    intro position s
    rw [bindColumnDefs, bindColumnDef, List.zipIdx_cons, List.forall_mem_cons]
    cases hdefault : bindDefault acc col.default with
    | error e =>
      refine ⟨iff_of_false nofun fun h => ?_, nofun⟩
      obtain ⟨default, h⟩ := h.1
      cases h
    | ok default =>
      obtain ⟨hiff, hall⟩ := ih (position + 1) (oids.nextOid s).2
      dsimp only
      rcases hrest : bindColumnDefs acc oids (position + 1) cols (oids.nextOid s).2 with ⟨rest, s₁⟩
      rw [hrest] at hiff hall
      cases rest with
      | error e =>
        refine ⟨iff_of_false nofun fun h => ?_, nofun⟩
        obtain ⟨bounds, h⟩ := hiff.2 h.2
        cases h
      | ok rest =>
        refine ⟨iff_of_true ⟨_, rfl⟩ ⟨⟨default, rfl⟩, hiff.1 ⟨rest, rfl⟩⟩, fun bounds h => ?_⟩
        rw [← Except.ok.inj h]
        exact .cons ⟨rfl, rfl, rfl, rfl, rfl, hdefault, rfl⟩ (hall rest rfl)

/-- Names that are the same up to case are of one column. -/
theorem eq_of_sameName {toLowercase : String → String} {columns : List BoundColumnDef}
    (hnodup : (columns.map fun c => toLowercase c.name).Nodup)
    (hcase : ∀ a b, eqIgnoreAsciiCase a b = true → toLowercase a = toLowercase b) {c d : BoundColumnDef} {name : String}
    (hc : c ∈ columns) (hd : d ∈ columns) (hcname : eqIgnoreAsciiCase c.name name = true)
    (hdname : eqIgnoreAsciiCase d.name name = true) : c = d :=
  List.inj_on_of_nodup_map hnodup hc hd ((hcase _ _ hcname).trans (hcase _ _ hdname).symm)

/-- A name of a primary key is found if a column has it. -/
theorem exists_keyPosition {columns : List BoundColumnDef} {name : String} :
    (∃ p, keyPosition columns name = .ok p) ↔ ∃ n ∈ columns.map (·.name), eqIgnoreAsciiCase n name = true := by
  have hfound : (columns.find? fun c => eqIgnoreAsciiCase c.name name).isSome = true ↔
      ∃ n ∈ columns.map (·.name), eqIgnoreAsciiCase n name = true := by
    rw [List.find?_isSome]
    constructor
    · rintro ⟨c, hc, hname⟩
      exact ⟨c.name, List.mem_map_of_mem hc, hname⟩
    · rintro ⟨n, hn, hname⟩
      obtain ⟨c, hc, rfl⟩ := List.mem_map.1 hn
      exact ⟨c, hc, hname⟩
  rw [← hfound, keyPosition]
  cases columns.find? fun c => eqIgnoreAsciiCase c.name name with
  | none => exact iff_of_false (by rintro ⟨p, ⟨⟩⟩) nofun
  | some c => exact iff_of_true ⟨c.position, rfl⟩ rfl

theorem keyOf_keyPosition {toLowercase : String → String} {columns : List BoundColumnDef}
    (hnodup : (columns.map fun c => toLowercase c.name).Nodup)
    (hcase : ∀ a b, eqIgnoreAsciiCase a b = true → toLowercase a = toLowercase b) {name : String} {p : ℕ}
    (h : keyPosition columns name = .ok p) : KeyOf columns name p := by
  rw [keyPosition] at h
  cases hfind : columns.find? fun c => eqIgnoreAsciiCase c.name name with
  | none =>
    rw [hfind] at h
    cases h
  | some c =>
    rw [hfind] at h
    have hc := List.mem_of_find?_eq_some hfind
    have hname := List.find?_some hfind
    exact ⟨c, hc, Except.ok.inj h, hname, fun d hd hdname => eq_of_sameName hnodup hcase hd hc hdname hname⟩

/-- The names of the columns that were bound. -/
theorem names_of_binds {cols : List Ast.ColumnDef} {bounds : List BoundColumnDef} {position : ℕ}
    (h : List.Forall₂ (fun i bound => BindsColumn acc i.2 i.1 bound) (cols.zipIdx position) bounds) :
    bounds.map (·.name) = cols.map (·.name) := by
  induction cols generalizing bounds position with
  | nil =>
    rw [List.zipIdx_nil] at h
    cases h
    rfl
  | cons col cols ih =>
    rw [List.zipIdx_cons] at h
    cases h with
    | cons hhead htail => rw [List.map_cons, List.map_cons, hhead.name, ih htail]

section CreateTable

variable {stmt : Ast.CreateTableStmt}
  (hcase : ∀ a b, eqIgnoreAsciiCase a b = true → acc.toLowercase a = acc.toLowercase b)
include hcase

/-- What is accepted might be, and is defined as it is written. -/
theorem defines_of_bindCreateTable {b : BoundCreateTable} (h : (bindCreateTable acc oids stmt s).1 = .ok b) :
    Definable acc stmt ∧ Defines acc stmt b := by
  rw [bindCreateTable] at h
  split at h
  · cases h
  rename_i hexists
  rw [Bool.and_eq_true, Bool.not_eq_true', not_and, Bool.not_eq_false] at hexists
  have hnames := duplicateName_eq_none acc.toLowercase (stmt.columns.map (·.name)) []
  rw [List.map_map] at hnames
  cases hduplicate : duplicateName acc.toLowercase [] (stmt.columns.map (·.name)) with
  | some name =>
    rw [hduplicate] at h
    cases h
  | none =>
    have hnodup := (hnames.1 hduplicate).1
    rw [hduplicate] at h
    dsimp only at h
    obtain ⟨hdefaults, hbinds⟩ := bindColumnDefs_spec acc oids stmt.columns 0
      (oids.nextFileId (oids.nextOid s).2).2
    rcases hcols : bindColumnDefs acc oids 0 stmt.columns (oids.nextFileId (oids.nextOid s).2).2 with ⟨cols, s₁⟩
    rw [hcols] at h hdefaults hbinds
    cases cols with
    | error e => cases h
    | ok columns =>
      have hcolumns := hbinds columns rfl
      have hbound := names_of_binds hcolumns
      have hnodup' : (columns.map fun c => acc.toLowercase c.name).Nodup := by
        have hmap := congrArg (List.map acc.toLowercase) hbound
        rw [List.map_map, List.map_map] at hmap
        exact hmap ▸ hnodup
      dsimp only at h
      cases hpositions : stmt.primaryKey.mapM (keyPosition columns) with
      | error e =>
        rw [hpositions] at h
        cases h
      | ok positions =>
        rw [hpositions] at h
        rw [← Except.ok.inj h]
        have hkey := mapM_eq_ok hpositions
        refine ⟨⟨hexists, hnodup, hdefaults.1 ⟨columns, rfl⟩, fun name hname => ?_⟩,
          rfl, hcolumns, hkey.imp fun name p => keyOf_keyPosition hnodup' hcase, rfl, rfl⟩
        rw [← hbound]
        exact exists_keyPosition.1 (exists_mapM_iff.1 ⟨positions, hpositions⟩ name hname)

omit hcase in
/-- What may be accepted is. -/
theorem bindCreateTable_of_definable (h : Definable acc stmt) :
    ∃ b, (bindCreateTable acc oids stmt s).1 = .ok b := by
  have hexists : ¬ ((acc.tableByName stmt.name).isSome && !stmt.ifNotExists) = true := by
    rw [Bool.and_eq_true, Bool.not_eq_true', not_and, Bool.not_eq_false]
    exact h.new
  have hduplicate : duplicateName acc.toLowercase [] (stmt.columns.map (·.name)) = none := by
    rw [duplicateName_eq_none, List.map_map]
    exact ⟨h.names, fun name _ => List.not_mem_nil⟩
  rw [bindCreateTable, if_neg hexists, hduplicate]
  dsimp only
  obtain ⟨hdefaults, hbinds⟩ := bindColumnDefs_spec acc oids stmt.columns 0
    (oids.nextFileId (oids.nextOid s).2).2
  rcases hcols : bindColumnDefs acc oids 0 stmt.columns (oids.nextFileId (oids.nextOid s).2).2 with ⟨cols, s₁⟩
  rw [hcols] at hdefaults hbinds
  obtain ⟨columns, rfl⟩ := hdefaults.2 h.defaults
  obtain ⟨positions, hpositions⟩ : ∃ ps, stmt.primaryKey.mapM (keyPosition columns) = .ok ps := by
    rw [exists_mapM_iff]
    intro name hname
    rw [exists_keyPosition, names_of_binds (hbinds columns rfl)]
    exact h.primaryKey name hname
  dsimp only
  rw [hpositions]
  exact ⟨_, rfl⟩

end CreateTable

/-- **CREATE TABLE is accepted** exactly if its table may be new, its columns have different names up to
case, their defaults are bound and its PRIMARY KEY names columns.  What it defines is then what is written. -/
theorem createTable_accepted (acc : Accessor) (oids : OidAllocator σ) (stmt : Ast.CreateTableStmt) (s : σ)
    (hcase : ∀ a b, eqIgnoreAsciiCase a b = true → acc.toLowercase a = acc.toLowercase b) :
    ((∃ b, (bindCreateTable acc oids stmt s).1 = .ok b) ↔ Definable acc stmt) ∧
      ∀ b, (bindCreateTable acc oids stmt s).1 = .ok b → Defines acc stmt b := by
  refine ⟨⟨?_, bindCreateTable_of_definable⟩, fun b h => (defines_of_bindCreateTable hcase h).2⟩
  rintro ⟨b, h⟩
  exact (defines_of_bindCreateTable hcase h).1

/-- `definitions`, with names written in lower case. -/
def lowercase : Accessor := { oneColumn .i64 with toLowercase := fun s => String.ofList (s.toList.map Char.toLower) }

/-- `CREATE TABLE u (A BIGINT, PRIMARY KEY (a))`. -/
def createKey : Ast.CreateTableStmt := ⟨"u", [⟨"A", .i64, true, none, false, false⟩], ["a"], [], false⟩

/-- A key may be written in another case than its column. -/
theorem createTable_accepted_key : ∃ b, (bindCreateTable lowercase counter createKey (1, 1)).1 = .ok b ∧
    b.primaryKey = [0] ∧ Defines lowercase createKey b := by
  have hcase : ∀ a b, eqIgnoreAsciiCase a b = true → lowercase.toLowercase a = lowercase.toLowercase b :=
    fun a b h => congrArg String.ofList (beq_iff_eq.1 h)
  have hkey : (bindCreateTable lowercase counter createKey (1, 1)).1 =
      .ok ⟨1, 1, "u", [⟨2, "A", .i64, 0, true, none, false, false⟩], [0], [], false⟩ := rfl
  exact ⟨_, hkey, rfl, (createTable_accepted lowercase counter createKey (1, 1) hcase).2 _ hkey⟩

end Binder
end Abdb
