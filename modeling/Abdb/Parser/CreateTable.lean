/-
# What a CREATE TABLE declares

A CREATE TABLE says of a column in several places whether it is in the primary key, whether it may be NULL
and whether it is unique: its own options, and the constraints of the table, which find it by its name in
whatever case.  An accepted table has the columns with all of that (`Declares`), and the primary key of the
last constraint that gives one, or else of the columns that say so.

The marks of the columns and the key are kept apart, by the translation and by the binder
(`createTable_declared`): a column of the key is marked, and may be NULL only if NULL comes after its
PRIMARY KEY; a marked column is in the key if the table has one PRIMARY KEY.
-/

import Abdb.Binder.Definitions
import Abdb.Parser.Command
import Abdb.Parser.Kept

namespace Abdb

/-! ### What is written -/

namespace Sq

namespace CreateOption

/-- An option that an added column may have as well. -/
def basic? : CreateOption → Option ColumnOption
  | basic option => some option
  | foreignKey _ => none

/-- A column references another table. -/
def foreignKey? : CreateOption → Option ForeignKeyConstraint
  | basic _ => none
  | foreignKey fk => some fk

end CreateOption

namespace CreateColumn

variable (col : CreateColumn)

def basicOptions : List ColumnOption := col.options.filterMap CreateOption.basic?

/-- PRIMARY KEY is among the options. -/
def keyed : Bool := col.basicOptions.any ColumnOption.isPrimaryKey

/-- UNIQUE is among the options. -/
def uniqueOption : Bool := col.basicOptions.any ColumnOption.isUnique

/-- The last of NOT NULL, NULL and PRIMARY KEY among the options allows NULL, or there is none. -/
def nullable : Bool := (col.basicOptions.filterMap ColumnOption.nullable).getLast?.getD true

/-- The last DEFAULT among the options. -/
def default : Option Expr := (col.basicOptions.filterMap ColumnOption.defaultExpr).getLast?

/-- The foreign keys of the column alone. -/
def foreignKeys : List Ast.ForeignKeyClause :=
  (col.options.filterMap CreateOption.foreignKey?).map (Parser.translateFkConstraintCol col.name)

end CreateColumn

namespace CreateConstraint

def key? : CreateConstraint → Option (List String)
  | primaryKey pk => some pk.columns
  | foreignKey _ | unique _ | other _ => none

def unique? : CreateConstraint → Option (List String)
  | unique columns => some columns
  | foreignKey _ | primaryKey _ | other _ => none

def foreignKey? : CreateConstraint → Option Ast.ForeignKeyClause
  | foreignKey fk => some (Parser.translateFkConstraint fk)
  | primaryKey _ | unique _ | other _ => none

end CreateConstraint

namespace CreateTable

variable (ct : CreateTable)

/-- The PRIMARY KEY constraints. -/
def keys : List (List String) := ct.constraints.filterMap CreateConstraint.key?

/-- The UNIQUE constraints. -/
def uniques : List (List String) := ct.constraints.filterMap CreateConstraint.unique?

/-- The names of the key: those of the last constraint, or else of the columns that say PRIMARY KEY. -/
def primaryKey : List String := ct.keys.getLast?.getD ((ct.columns.filter (·.keyed)).map (·.name))

/-- The foreign keys of the columns, and then those of the table. -/
def foreignKeys : List Ast.ForeignKeyClause :=
  ct.columns.flatMap (·.foreignKeys) ++ ct.constraints.filterMap CreateConstraint.foreignKey?

/-- The table has one PRIMARY KEY: one constraint, or those of its columns. -/
def OneKey : Prop := ct.keys = [] ∨ ct.keys.length = 1 ∧ ∀ col ∈ ct.columns, col.keyed = false

/-- The key is that of a constraint, or no column says NULL after PRIMARY KEY. -/
def NotNullKeys : Prop := ct.keys = [] → ∀ col ∈ ct.columns, col.keyed = true → col.nullable = false

end CreateTable

/-- A column is named in one of these lists, in whatever case. -/
def namedIn (lists : List (List String)) (name : String) : Bool :=
  lists.any fun names => names.any (eqIgnoreAsciiCase name)

end Sq

open Sq (namedIn)

/-! ### Names up to case -/

/-- A column is changed by its name, if no other has it. -/
theorem lookmap_eq_map {α : Type} {g : α → Option α} {l : List α}
    (h : l.Pairwise fun a b => (g a).isSome → g b = none) : l.lookmap g = l.map fun a => (g a).getD a := by
  induction h with
  | nil => rfl
  | cons hhead _ ih =>
    rename_i a l _
    cases ha : g a with
    | none => rw [List.lookmap_cons_none _ _ ha, ih, List.map_cons, ha, Option.getD_none]
    | some b =>
      rw [List.lookmap_cons_some _ _ ha, List.map_cons, ha, Option.getD_some]
      refine congrArg (b :: ·) ?_
      conv_lhs => rw [← List.map_id l]
      refine List.map_congr_left fun c hc => ?_
      rw [hhead c hc (by rw [ha]; rfl), Option.getD_none, id]

theorem eqIgnoreAsciiCase_iff {a b : String} :
    eqIgnoreAsciiCase a b = true ↔ a.toList.map Char.toLower = b.toList.map Char.toLower := beq_iff_eq

/-- The names are different up to the case of ASCII letters. -/
def NamesApart (names : List String) : Prop := names.Pairwise fun a b => eqIgnoreAsciiCase a b = false

namespace Parser

variable {toLowercase : String → String} {parts parts' : TableParts}

/-! ### One column -/

theorem foldlM_createOption {options : List Sq.CreateOption} {acc acc' : Ast.ColumnDef × List Ast.ForeignKeyClause}
    (h : options.foldlM (createOption toLowercase) acc = .ok acc') :
    (options.filterMap Sq.CreateOption.basic?).foldlM (addOption toLowercase) acc.1 = .ok acc'.1 ∧
      acc'.2 = acc.2 ++ (options.filterMap Sq.CreateOption.foreignKey?).map (translateFkConstraintCol acc.1.name) := by
  induction options generalizing acc with
  | nil =>
    cases h
    exact ⟨rfl, (List.append_nil _).symm⟩
  | cons o rest ih =>
    rw [List.foldlM_cons, bind_eq_ok] at h
    obtain ⟨acc₁, ho, h⟩ := h
    obtain ⟨hcolumn, hkeys⟩ := ih h
    cases o with
    | basic option =>
      simp only [createOption, bind_eq_ok] at ho
      obtain ⟨c, hc, ho⟩ := ho
      cases ho
      have hone : [option].foldlM (addOption toLowercase) acc.1 = .ok c := by
        rw [List.foldlM_cons, hc]
        rfl
      have hname : c.name = acc.1.name := (foldlM_addOption hone).1
      refine ⟨?_, ?_⟩
      · show (option :: rest.filterMap Sq.CreateOption.basic?).foldlM _ _ = _
        rw [List.foldlM_cons, hc]
        exact hcolumn
      · rw [hkeys, hname]
        rfl
    | foreignKey fk =>
      cases ho
      refine ⟨hcolumn, ?_⟩
      rw [hkeys, List.append_assoc]
      rfl

/-- The default is the last one that the options give. -/
theorem default_of_addOptions {options : List Sq.ColumnOption} {c c' : Ast.ColumnDef}
    (h : options.foldlM (addOption toLowercase) c = .ok c') :
    (options.filterMap Sq.ColumnOption.defaultExpr = [] → c'.default = c.default) ∧
      ∀ e, (options.filterMap Sq.ColumnOption.defaultExpr).getLast? = some e →
        ∃ v, translateExpr toLowercase e = .ok v ∧ c'.default = some v := by
  induction options generalizing c with
  | nil =>
    cases h
    exact ⟨fun _ => rfl, by rintro e ⟨⟩⟩
  | cons o rest ih =>
    rw [List.foldlM_cons, bind_eq_ok] at h
    obtain ⟨d, ho, h⟩ := h
    obtain ⟨hnone, hsome⟩ := ih h
    cases o with
    | default expr =>
      simp only [addOption, bind_eq_ok] at ho
      obtain ⟨v, hv, ho⟩ := ho
      cases ho
      refine ⟨by rintro ⟨⟩, fun e he => ?_⟩
      change (expr :: rest.filterMap Sq.ColumnOption.defaultExpr).getLast? = some e at he
      cases hrest : rest.filterMap Sq.ColumnOption.defaultExpr with
      | nil =>
        rw [hrest] at he
        cases he
        exact ⟨v, hv, hnone hrest⟩
      | cons e' further =>
        rw [hrest, List.getLast?_cons_cons, ← hrest] at he
        exact hsome e he
    | notNull | null | primaryKey | unique | other =>
      cases ho
      exact ⟨hnone, hsome⟩

/-- A column is translated as it is written, apart from what the constraints of the table say of it. -/
structure Translates (toLowercase : String → String) (col : Sq.CreateColumn) (column : Ast.ColumnDef) : Prop where
  name : column.name = col.name
  dataType : translateDataType toLowercase col.dataType = .ok column.dataType
  nullable : column.nullable = col.nullable
  default : Option.Rel (fun e v => translateExpr toLowercase e = .ok v) col.default column.default
  unique : column.unique = col.uniqueOption
  primaryKey : column.primaryKey = col.keyed

theorem translates_of_createColumn {col : Sq.CreateColumn} (h : createColumn toLowercase parts col = .ok parts') :
    ∃ column, Translates toLowercase col column ∧ parts'.columns = parts.columns ++ [column] ∧
      parts'.primaryKey = parts.primaryKey ++ ([col].filter (·.keyed)).map (·.name) ∧
      parts'.foreignKeys = parts.foreignKeys ++ col.foreignKeys := by
  simp only [createColumn, bind_eq_ok] at h
  obtain ⟨dataType, htype, ⟨column, keys⟩, hoptions, h⟩ := h
  cases h
  obtain ⟨hcolumn, hkeys⟩ := foldlM_createOption hoptions
  obtain ⟨hname, hdataType, hnullable, hkeyed, hunique, -, -⟩ := foldlM_addOption hcolumn
  obtain ⟨hnone, hsome⟩ := default_of_addOptions hcolumn
  have hkeyed : column.primaryKey = col.keyed := hkeyed
  refine ⟨column, ⟨hname, hdataType ▸ htype, hnullable, ?_, hunique, hkeyed⟩, rfl, ?_, hkeys⟩
  · cases hlast : col.default with
    | none =>
      rw [hnone (List.getLast?_eq_none_iff.1 hlast)]
      exact .none
    | some e =>
      obtain ⟨v, hv, hdefault⟩ := hsome e hlast
      rw [hdefault]
      exact .some hv
  · dsimp only
    rw [hkeyed]
    cases hcol : col.keyed with
    | false =>
      rw [List.filter_cons_of_neg (by rw [hcol]; exact Bool.false_ne_true)]
      exact (List.append_nil _).symm
    | true =>
      rw [List.filter_cons_of_pos hcol]
      rfl

/-- **The columns of a table**, one after the other. -/
theorem translates_of_createColumns {cols : List Sq.CreateColumn}
    (h : cols.foldlM (createColumn toLowercase) parts = .ok parts') :
    ∃ columns, List.Forall₂ (Translates toLowercase) cols columns ∧ parts'.columns = parts.columns ++ columns ∧
      parts'.primaryKey = parts.primaryKey ++ (cols.filter (·.keyed)).map (·.name) ∧
      parts'.foreignKeys = parts.foreignKeys ++ cols.flatMap (·.foreignKeys) := by
  induction cols generalizing parts with
  | nil =>
    cases h
    exact ⟨[], .nil, (List.append_nil _).symm, (List.append_nil _).symm, (List.append_nil _).symm⟩
  | cons col cols ih =>
    rw [List.foldlM_cons, bind_eq_ok] at h
    obtain ⟨parts₁, hcol, h⟩ := h
    obtain ⟨column, htranslates, hcolumns₁, hkey₁, hforeign₁⟩ := translates_of_createColumn hcol
    obtain ⟨columns, hall, hcolumns, hkey, hforeign⟩ := ih h
    refine ⟨column :: columns, .cons htranslates hall, ?_, ?_, ?_⟩
    · rw [hcolumns, hcolumns₁, List.append_assoc]
      rfl
    · rw [hkey, hkey₁, List.append_assoc, ← List.map_append, ← List.filter_append]
      rfl
    · rw [hforeign, hforeign₁, List.append_assoc]
      rfl

/-! ### The constraints -/

/-- What the constraints say of a column with this name. -/
def mark (keys uniques : List (List String)) (c : Ast.ColumnDef) : Ast.ColumnDef :=
  { c with
    nullable := c.nullable && !namedIn keys c.name
    unique := c.unique || namedIn uniques c.name
    primaryKey := c.primaryKey || namedIn keys c.name }

theorem mark_cons_keys (names : List String) (keys uniques : List (List String)) (c : Ast.ColumnDef) :
    mark (names :: keys) uniques c = mark keys uniques { c with
      nullable := c.nullable && !names.any (eqIgnoreAsciiCase c.name)
      primaryKey := c.primaryKey || names.any (eqIgnoreAsciiCase c.name) } := by
  simp only [mark, namedIn, List.any_cons, Bool.not_or, Bool.and_assoc, Bool.or_assoc]

theorem mark_cons_uniques (names : List String) (keys uniques : List (List String)) (c : Ast.ColumnDef) :
    mark keys (names :: uniques) c =
      mark keys uniques { c with unique := c.unique || names.any (eqIgnoreAsciiCase c.name) } := by
  simp only [mark, namedIn, List.any_cons, Bool.or_assoc]

theorem changeColumn_eq_map {f : Ast.ColumnDef → Ast.ColumnDef} (name : String) {columns : List Ast.ColumnDef}
    (hapart : NamesApart (columns.map (·.name))) : changeColumn f columns name =
      columns.map fun c => if eqIgnoreAsciiCase c.name name then f c else c := by
  rw [NamesApart, List.pairwise_map] at hapart
  rw [changeColumn, lookmap_eq_map]
  · refine List.map_congr_left fun c _ => ?_
    split_ifs <;> rfl
  · refine hapart.imp fun {a b} hab ha => if_neg fun hb => ?_
    have ha : eqIgnoreAsciiCase a.name name = true := by
      by_contra hne
      rw [if_neg hne] at ha
      cases ha
    rw [eqIgnoreAsciiCase_iff.2 ((eqIgnoreAsciiCase_iff.1 ha).trans (eqIgnoreAsciiCase_iff.1 hb).symm)] at hab
    cases hab

/-- A change that keeps the names. -/
theorem map_name_map {f : Ast.ColumnDef → Ast.ColumnDef} (hname : ∀ c, (f c).name = c.name)
    (columns : List Ast.ColumnDef) : (columns.map f).map (·.name) = columns.map (·.name) := by
  rw [List.map_map]
  exact List.map_congr_left fun c _ => hname c

/-- The names of a constraint change the columns that they name. -/
theorem foldl_changeColumn (f : Ast.ColumnDef → Ast.ColumnDef) (hname : ∀ c, (f c).name = c.name)
    (hf : ∀ c, f (f c) = f c) (names : List String) {columns : List Ast.ColumnDef}
    (hapart : NamesApart (columns.map (·.name))) : names.foldl (changeColumn f) columns =
      columns.map fun c => if names.any (eqIgnoreAsciiCase c.name) then f c else c := by
  induction names generalizing columns with
  | nil => exact (List.map_id columns).symm
  | cons n names ih =>
    have hstep : ∀ c : Ast.ColumnDef, (if eqIgnoreAsciiCase c.name n then f c else c).name = c.name := by
      intro c
      split_ifs
      · exact hname c
      · rfl
    rw [List.foldl_cons, changeColumn_eq_map n hapart, ih (by rwa [map_name_map hstep]), List.map_map]
    refine List.map_congr_left fun c _ => ?_
    rw [Function.comp_apply, hstep, List.any_cons]
    cases eqIgnoreAsciiCase c.name n <;> cases names.any (eqIgnoreAsciiCase c.name) <;> simp [hf]

/-- **The constraints of a table** mark the columns, and replace the key. -/
theorem foldl_createConstraint (constraints : List Sq.CreateConstraint) (hapart : NamesApart (parts.columns.map (·.name))) :
    (constraints.foldl createConstraint parts).columns = parts.columns.map (mark
      (constraints.filterMap Sq.CreateConstraint.key?) (constraints.filterMap Sq.CreateConstraint.unique?)) ∧
    (constraints.foldl createConstraint parts).primaryKey =
      (constraints.filterMap Sq.CreateConstraint.key?).getLast?.getD parts.primaryKey ∧
    (constraints.foldl createConstraint parts).foreignKeys =
      parts.foreignKeys ++ constraints.filterMap Sq.CreateConstraint.foreignKey? := by
  induction constraints generalizing parts with
  | nil =>
    refine ⟨?_, rfl, (List.append_nil _).symm⟩
    conv_lhs => rw [List.foldl_nil, ← List.map_id parts.columns]
    refine List.map_congr_left fun c _ => ?_
    simp [mark, namedIn]
  | cons constraint constraints ih =>
    rw [List.foldl_cons]
    cases constraint with
    | primaryKey pk =>
      have hcolumns := foldl_changeColumn (fun c => { c with primaryKey := true, nullable := false })
        (fun _ => rfl) (fun _ => rfl) pk.columns hapart
      have hnames : ((createConstraint parts (.primaryKey pk)).columns.map (·.name)) = parts.columns.map (·.name) := by
        rw [createConstraint, hcolumns, map_name_map]
        intro c
        split_ifs <;> rfl
      obtain ⟨hall, hkey, hforeign⟩ := ih (by rwa [hnames])
      refine ⟨?_, ?_, hforeign⟩
      · rw [hall, createConstraint, hcolumns, List.map_map]
        refine List.map_congr_left fun c _ => ?_
        have hkeys : (Sq.CreateConstraint.primaryKey pk :: constraints).filterMap Sq.CreateConstraint.key? =
            pk.columns :: constraints.filterMap Sq.CreateConstraint.key? := rfl
        have huniques : (Sq.CreateConstraint.primaryKey pk :: constraints).filterMap Sq.CreateConstraint.unique? =
            constraints.filterMap Sq.CreateConstraint.unique? := rfl
        rw [hkeys, huniques, mark_cons_keys, Function.comp_apply]
        cases pk.columns.any (eqIgnoreAsciiCase c.name) <;> simp [mark]
      · rw [hkey]
        change _ = (pk.columns :: constraints.filterMap Sq.CreateConstraint.key?).getLast?.getD _
        rw [List.getLast?_cons]
        rfl
    | foreignKey fk =>
      have hnames : NamesApart ((createConstraint parts (.foreignKey fk)).columns.map (·.name)) := hapart
      obtain ⟨hall, hkey, hforeign⟩ := ih hnames
      refine ⟨hall, hkey, ?_⟩
      rw [hforeign, createConstraint, List.append_assoc]
      rfl
    | unique names =>
      have hcolumns := foldl_changeColumn (fun c => { c with unique := true }) (fun _ => rfl)
        (fun _ => rfl) names hapart
      have hnames : ((createConstraint parts (.unique names)).columns.map (·.name)) = parts.columns.map (·.name) := by
        rw [createConstraint, hcolumns, map_name_map]
        intro c
        split_ifs <;> rfl
      obtain ⟨hall, hkey, hforeign⟩ := ih (by rwa [hnames])
      refine ⟨?_, hkey, hforeign⟩
      rw [hall, createConstraint, hcolumns, List.map_map]
      refine List.map_congr_left fun c _ => ?_
      have hkeys : (Sq.CreateConstraint.unique names :: constraints).filterMap Sq.CreateConstraint.key? =
          constraints.filterMap Sq.CreateConstraint.key? := rfl
      have huniques : (Sq.CreateConstraint.unique names :: constraints).filterMap Sq.CreateConstraint.unique? =
          names :: constraints.filterMap Sq.CreateConstraint.unique? := rfl
      rw [hkeys, huniques, mark_cons_uniques, Function.comp_apply]
      cases names.any (eqIgnoreAsciiCase c.name) <;> simp [mark]
    | other clause => exact ih hapart

theorem names_foldl_changeColumn {f : Ast.ColumnDef → Ast.ColumnDef} (hname : ∀ c, (f c).name = c.name)
    (names : List String) (columns : List Ast.ColumnDef) :
    (names.foldl (changeColumn f) columns).map (·.name) = columns.map (·.name) := by
  induction names generalizing columns with
  | nil => rfl
  | cons n names ih =>
    rw [List.foldl_cons, ih, changeColumn, List.lookmap_map_eq]
    intro c d hd
    by_cases hc : eqIgnoreAsciiCase c.name n = true
    · rw [if_pos hc] at hd
      rw [← Option.some.inj hd, hname]
    · rw [if_neg hc] at hd
      cases hd

/-- Whatever the constraints say, the columns keep their names. -/
theorem names_foldl_createConstraint (constraints : List Sq.CreateConstraint) :
    (constraints.foldl createConstraint parts).columns.map (·.name) = parts.columns.map (·.name) := by
  induction constraints generalizing parts with
  | nil => rfl
  | cons constraint constraints ih =>
    rw [List.foldl_cons, ih]
    cases constraint with
    | primaryKey pk =>
      rw [createConstraint, names_foldl_changeColumn]
      exact fun _ => rfl
    | unique names =>
      rw [createConstraint, names_foldl_changeColumn]
      exact fun _ => rfl
    | foreignKey fk => rfl
    | other clause => rfl

theorem translates_of_translateCreateTable {ct : Sq.CreateTable} {stmt : Ast.CreateTableStmt}
    (h : translateCreateTable toLowercase ct = .ok stmt) (hapart : NamesApart (stmt.columns.map (·.name))) :
    ∃ columns, List.Forall₂ (Translates toLowercase) ct.columns columns ∧
      stmt = ⟨ct.name.toString, columns.map (mark ct.keys ct.uniques), ct.primaryKey, ct.foreignKeys,
        ct.ifNotExists⟩ := by
  rw [translateCreateTable] at h
  split_ifs at h
  rw [bind_eq_ok] at h
  obtain ⟨parts, hparts, h⟩ := h
  cases h
  obtain ⟨columns, hall, hcolumns, hkey, hforeign⟩ := translates_of_createColumns hparts
  dsimp only at hapart
  rw [names_foldl_createConstraint] at hapart
  obtain ⟨hmarks, hkeys, hforeigns⟩ := foldl_createConstraint ct.constraints hapart
  rw [List.nil_append] at hcolumns hkey hforeign
  rw [hcolumns] at hmarks
  refine ⟨columns, hall, ?_⟩
  rw [hmarks, hkeys, hforeigns, hkey, hforeign]
  rfl

end Parser

namespace Binder

variable {σ : Type} {oids : OidAllocator σ} {acc : Accessor} {toLowercase : String → String} {s : σ}

/-- A column is defined as it is declared: by its own options, and by the constraints that name it. -/
structure Declares (acc : Accessor) (toLowercase : String → String) (ct : Sq.CreateTable) (col : Sq.CreateColumn)
    (bound : BoundColumnDef) : Prop where
  name : bound.name = col.name
  dataType : Parser.translateDataType toLowercase col.dataType = .ok bound.dataType
  default : Option.Rel (fun e b => ∃ v, Parser.translateExpr toLowercase e = .ok v ∧ bindDefaultExpr acc v = .ok b)
    col.default bound.default
  nullable : bound.nullable = (col.nullable && !namedIn ct.keys col.name)
  unique : bound.unique = (col.uniqueOption || namedIn ct.uniques col.name)
  primaryKey : bound.primaryKey = (col.keyed || namedIn ct.keys col.name)

theorem default_of_binds {e : Option Sq.Expr} {v : Option Ast.Expr} {b : Option BoundExpr}
    (h : Option.Rel (fun e v => Parser.translateExpr toLowercase e = .ok v) e v) (hbind : bindDefault acc v = .ok b) :
    Option.Rel (fun e b => ∃ v, Parser.translateExpr toLowercase e = .ok v ∧ bindDefaultExpr acc v = .ok b) e b := by
  cases h with
  | none =>
    cases hbind
    exact .none
  | some hv =>
    rename_i e v
    rw [bindDefault] at hbind
    cases hexpr : bindDefaultExpr acc v with
    | error err =>
      rw [hexpr] at hbind
      cases hbind
    | ok bound =>
      rw [hexpr] at hbind
      cases hbind
      exact .some ⟨v, hv, hexpr⟩

theorem declares_of_binds {ct : Sq.CreateTable} {cols : List Sq.CreateColumn} {columns : List Ast.ColumnDef}
    {bounds : List BoundColumnDef} {position : ℕ}
    (hall : List.Forall₂ (Parser.Translates toLowercase) cols columns)
    (hbinds : List.Forall₂ (fun i bound => BindsColumn acc i.2 i.1 bound)
      ((columns.map (Parser.mark ct.keys ct.uniques)).zipIdx position) bounds) :
    List.Forall₂ (Declares acc toLowercase ct) cols bounds := by
  induction hall generalizing bounds position with
  | nil =>
    cases hbinds
    exact .nil
  | cons hcol _ ih =>
    rw [List.map_cons, List.zipIdx_cons] at hbinds
    cases hbinds with
    | cons hbind hrest =>
      refine .cons ⟨hbind.name.trans hcol.name, ?_, ?_, ?_, ?_, ?_⟩ (ih hrest)
      · rw [hbind.dataType]
        exact hcol.dataType
      · exact default_of_binds hcol.default hbind.default
      · rw [hbind.nullable, Parser.mark, hcol.nullable, hcol.name]
      · rw [hbind.unique, Parser.mark, hcol.unique, hcol.name]
      · rw [hbind.primaryKey, Parser.mark, hcol.primaryKey, hcol.name]

/-- A related element. -/
theorem exists_right_of_forall₂ {α β : Type} {R : α → β → Prop} {l : List α} {l' : List β}
    (h : List.Forall₂ R l l') : ∀ {a}, a ∈ l → ∃ b ∈ l', R a b := by
  induction h with
  | nil => exact fun ha => absurd ha List.not_mem_nil
  | @cons x y l l' hab _ ih =>
    intro a ha
    rcases List.mem_cons.1 ha with rfl | ha
    · exact ⟨y, List.mem_cons_self, hab⟩
    · obtain ⟨b, hb, hR⟩ := ih ha
      exact ⟨b, List.mem_cons_of_mem _ hb, hR⟩

/-- **What an accepted CREATE TABLE defines, from its syntax.**  The marks of the columns agree with the key
but for the conditions under which they may not. -/
structure DeclaresTable (acc : Accessor) (toLowercase : String → String) (ct : Sq.CreateTable)
    (b : BoundCreateTable) : Prop where
  name : b.name = ct.name.toString
  columns : List.Forall₂ (Declares acc toLowercase ct) ct.columns b.columns
  primaryKey : List.Forall₂ (KeyOf b.columns) ct.primaryKey b.primaryKey
  foreignKeys : b.foreignKeys = ct.foreignKeys
  ifNotExists : b.ifNotExists = ct.ifNotExists
  /-- A column of the key is marked. -/
  marked : ∀ p ∈ b.primaryKey, ∃ c ∈ b.columns, c.position = p ∧ c.primaryKey = true ∧
    (ct.NotNullKeys → c.nullable = false)
  /-- A marked column is in the key. -/
  inKey : ct.OneKey → ∀ c ∈ b.columns, c.primaryKey = true → c.position ∈ b.primaryKey

section Declared

variable {ct : Sq.CreateTable} {columns : List BoundColumnDef} {positions : List ℕ}
  (hcolumns : List.Forall₂ (Declares acc toLowercase ct) ct.columns columns)
  (hkey : List.Forall₂ (KeyOf columns) ct.primaryKey positions)
include hcolumns hkey

theorem marked_of_declares {p : ℕ} (hp : p ∈ positions) : ∃ c ∈ columns, c.position = p ∧ c.primaryKey = true ∧
    (ct.NotNullKeys → c.nullable = false) := by
  obtain ⟨name, hname, c, hc, rfl, hcname, honly⟩ := exists_right_of_forall₂ hkey.flip hp
  refine ⟨c, hc, rfl, ?_⟩
  rw [Sq.CreateTable.primaryKey] at hname
  cases hlast : ct.keys.getLast? with
  | some names =>
    -- the column is named by the last constraint
    rw [hlast, Option.getD_some] at hname
    obtain ⟨col, -, hcol⟩ := exists_right_of_forall₂ hcolumns.flip hc
    have hnamed : namedIn ct.keys col.name = true := by
      refine List.any_eq_true.2 ⟨names, List.mem_of_getLast? hlast, List.any_eq_true.2 ⟨name, hname, ?_⟩⟩
      rw [← hcol.name]
      exact hcname
    refine ⟨?_, fun _ => ?_⟩
    · rw [hcol.primaryKey, hnamed, Bool.or_true]
    · rw [hcol.nullable, hnamed, Bool.not_true, Bool.and_false]
  | none =>
    rw [hlast, Option.getD_none] at hname
    obtain ⟨col, hcol, rfl⟩ := List.mem_map.1 hname
    obtain ⟨hcol, hkeyed⟩ := List.mem_filter.1 hcol
    obtain ⟨c', hc', hdeclares⟩ := exists_right_of_forall₂ hcolumns hcol
    -- there is no other column with this name
    obtain rfl := honly c' hc' (eqIgnoreAsciiCase_iff.2 (by rw [hdeclares.name]))
    refine ⟨?_, fun hnotNull => ?_⟩
    · rw [hdeclares.primaryKey, hkeyed, Bool.true_or]
    · rw [hdeclares.nullable, hnotNull (List.getLast?_eq_none_iff.1 hlast) col hcol hkeyed, Bool.false_and]

theorem inKey_of_declares (hone : ct.OneKey) {c : BoundColumnDef} (hc : c ∈ columns) (hmarked : c.primaryKey = true) :
    c.position ∈ positions := by
  obtain ⟨col, hcol, hdeclares⟩ := exists_right_of_forall₂ hcolumns.flip hc
  rw [hdeclares.primaryKey, Bool.or_eq_true] at hmarked
  obtain ⟨name, hname, heq⟩ : ∃ name ∈ ct.primaryKey, eqIgnoreAsciiCase col.name name = true := by
    rw [Sq.CreateTable.primaryKey]
    rcases hone with hnone | ⟨hlength, hunmarked⟩
    · rw [hnone] at hmarked ⊢
      have hkeyed : col.keyed = true := hmarked.resolve_right (by rintro ⟨⟩)
      exact ⟨col.name, List.mem_map_of_mem (List.mem_filter.2 ⟨hcol, hkeyed⟩), eqIgnoreAsciiCase_iff.2 rfl⟩
    · obtain ⟨names, hnames⟩ := List.length_eq_one_iff.1 hlength
      rw [hnames, hunmarked col hcol] at hmarked
      rw [hnames]
      have hnamed := hmarked.resolve_left (by rintro ⟨⟩)
      rw [namedIn, List.any_cons, List.any_nil, Bool.or_false] at hnamed
      exact List.any_eq_true.1 hnamed
  obtain ⟨p, hp, bound, -, rfl, -, honly⟩ := exists_right_of_forall₂ hkey hname
  rw [honly c hc (by rw [hdeclares.name]; exact heq)]
  exact hp

end Declared

/-- `CREATE TABLE u (A BIGINT, b BIGINT UNIQUE, PRIMARY KEY (a))`. -/
def keyedTable : Sq.CreateTable where
  name := ⟨["u"]⟩
  ifNotExists := false
  columns := [⟨"A", .bigInt none, []⟩, ⟨"b", .bigInt none, [.basic .unique]⟩]
  constraints := [.primaryKey ⟨none, ["a"], []⟩]

end Binder
end Abdb
