/-
# The catalog cache

`CatalogCache` of `src/accessor/catalog_cache.rs` and the registrations of `AccessorImpl` in
`src/accessor/accessor_impl.rs`: tables and indexes by their oids, and their oids by their names.

A registration checks the oid and then writes both maps, so a new table under a name that is taken hides
the table that had it.  In a run of registrations everything registered can be found by oid and by name
exactly if no registration that goes through takes such a name (`staysResolvable_iff`).
-/

import Abdb.Binder.Bound
import Abdb.Lib.Registry
import Mathlib.Data.List.Induction

namespace Abdb

open Catalog (Table Column Index)

/-- The errors of the accessor that the catalog gives. -/
inductive AccessorError
  | notFound (what : String)
  | duplicateOId (oid : OId)
deriving DecidableEq, Repr

/-- `CatalogCache`, with its maps as functions. -/
structure CatalogCache where
  tables : OId → Option Table
  tablesByName : String → Option OId
  columns : OId → Option (List Column)
  indexes : OId → Option Index
  indexesByName : String → Option OId

namespace CatalogCache

/-- `register_table`. -/
def registerTable (cache : CatalogCache) (table : Table) : CatalogCache × Except AccessorError Unit :=
  if (cache.tables table.oid).isSome then (cache, .error (.duplicateOId table.oid))
  else
    ({ cache with
        tablesByName := Function.update cache.tablesByName table.name (some table.oid)
        tables := Function.update cache.tables table.oid (some table) }, .ok ())

/-- `register_columns`. -/
def registerColumns (cache : CatalogCache) (tableOid : OId) (columns : List Column) : CatalogCache :=
  { cache with columns := Function.update cache.columns tableOid (some columns) }

/-- `register_index`. -/
def registerIndex (cache : CatalogCache) (index : Index) : CatalogCache × Except AccessorError Unit :=
  if (cache.indexes index.oid).isSome then (cache, .error (.duplicateOId index.oid))
  else
    ({ cache with
        indexesByName := Function.update cache.indexesByName index.name (some index.oid)
        indexes := Function.update cache.indexes index.oid (some index) }, .ok ())

/-- `get_table_by_oid`. -/
def getTableByOid (cache : CatalogCache) (oid : OId) : Except AccessorError Table :=
  match cache.tables oid with
  | some table => .ok table
  | none => .error (.notFound ("table oid " ++ toString oid))

/-- `get_table_by_name`. -/
def getTableByName (cache : CatalogCache) (name : String) : Except AccessorError Table :=
  match cache.tablesByName name with
  | none => .error (.notFound ("table '" ++ name ++ "'"))
  | some oid => cache.getTableByOid oid

/-- `get_index_by_oid`. -/
def getIndexByOid (cache : CatalogCache) (oid : OId) : Except AccessorError Index :=
  match cache.indexes oid with
  | some index => .ok index
  | none => .error (.notFound ("index oid " ++ toString oid))

/-- `get_index_by_name`. -/
def getIndexByName (cache : CatalogCache) (name : String) : Except AccessorError Index :=
  match cache.indexesByName name with
  | none => .error (.notFound ("index '" ++ name ++ "'"))
  | some oid => cache.getIndexByOid oid

end CatalogCache

/-! ### The system tables -/

namespace Schema

/-- `SYS_TABLE_TABLES`. -/
def sysTableTables : Table := ⟨0, "sys_tables", 0⟩

/-- `SYS_TABLE_COLUMNS`. -/
def sysTableColumns : Table := ⟨1, "sys_columns", 1⟩

/-- `SYS_TABLE_INDEXES`. -/
def sysTableIndexes : Table := ⟨2, "sys_indexes", 2⟩

/-- `SYS_COLUMNS_TABLES_TABLE`. -/
def sysColumnsTablesTable : List Column :=
  [⟨0, 0, "oid", .u32, 0, false⟩, ⟨1, 0, "name", .string, 1, false⟩, ⟨2, 0, "file_id", .u32, 2, false⟩]

/-- `SYS_COLUMNS_COLUMNS_TABLE`. -/
def sysColumnsColumnsTable : List Column :=
  [⟨10, 1, "oid", .u32, 0, false⟩, ⟨11, 1, "table_oid", .u32, 1, false⟩, ⟨12, 1, "name", .string, 2, false⟩,
    ⟨13, 1, "type_id", .u8, 3, false⟩, ⟨14, 1, "position", .u16, 4, false⟩,
    ⟨15, 1, "nullable", .bool, 5, false⟩]

/-- `SYS_COLUMNS_INDEXES_TABLE`. -/
def sysColumnsIndexesTable : List Column :=
  [⟨20, 2, "oid", .u32, 0, false⟩, ⟨21, 2, "name", .string, 1, false⟩, ⟨22, 2, "table_oid", .u32, 2, false⟩,
    ⟨23, 2, "column_oid", .u32, 3, false⟩, ⟨24, 2, "file_id", .u32, 4, false⟩]

end Schema

namespace CatalogCache

/-- A cache with nothing in it. -/
def empty : CatalogCache := ⟨fun _ => none, fun _ => none, fun _ => none, fun _ => none, fun _ => none⟩

/-- `new`: the cache with the system tables. -/
def new : CatalogCache :=
  let cache := empty
  let cache := (cache.registerTable Schema.sysTableTables).1
  let cache := cache.registerColumns 0 Schema.sysColumnsTablesTable
  let cache := (cache.registerTable Schema.sysTableColumns).1
  let cache := cache.registerColumns 1 Schema.sysColumnsColumnsTable
  let cache := (cache.registerTable Schema.sysTableIndexes).1
  cache.registerColumns 2 Schema.sysColumnsIndexesTable

end CatalogCache

/-! ### Runs -/

/-- A registration, of a table alone or with its columns as `AccessorImpl::register_table` does it. -/
inductive Registration
  | table (table : Table)
  | tableAndColumns (table : Table) (columns : List Column)
  | index (index : Index)

namespace Registration

/-- The registration in a cache. -/
def apply (cache : CatalogCache) : Registration → CatalogCache × Except AccessorError Unit
  | table t => cache.registerTable t
  | tableAndColumns t columns =>
    match cache.registerTable t with
    | (cache, .error e) => (cache, .error e)
    | (cache, .ok _) => (cache.registerColumns t.oid columns, .ok ())
  | index i => cache.registerIndex i

/-- The table of a registration. -/
def tables : Registration → List Table
  | table t | tableAndColumns t _ => [t]
  | index _ => []

/-- The index of a registration. -/
def indexes : Registration → List Index
  | table _ | tableAndColumns _ _ => []
  | index i => [i]

end Registration

/-- A cache beside what was registered in it with Ok. -/
structure Registered where
  cache : CatalogCache
  tables : List Table
  indexes : List Index

namespace Registered

/-- The new cache: the system tables were registered in it. -/
def start : Registered :=
  ⟨CatalogCache.new, [Schema.sysTableTables, Schema.sysTableColumns, Schema.sysTableIndexes], []⟩

def step (s : Registered) (call : Registration) : Registered :=
  match call.apply s.cache with
  | (cache, .ok _) => ⟨cache, s.tables ++ call.tables, s.indexes ++ call.indexes⟩
  | (cache, .error _) => { s with cache }

/-- After a list of calls. -/
def after (calls : List Registration) : Registered := calls.foldl step start

/-- Each table and index registered with Ok is returned by its oid and by its name. -/
structure Resolvable (s : Registered) : Prop where
  tables : ∀ t ∈ s.tables, s.cache.getTableByOid t.oid = .ok t ∧ s.cache.getTableByName t.name = .ok t
  indexes : ∀ i ∈ s.indexes, s.cache.getIndexByOid i.oid = .ok i ∧ s.cache.getIndexByName i.name = .ok i

/-- After every call of a run what was registered can be resolved, and a call that fails changes
nothing. -/
structure StaysResolvable (calls : List Registration) : Prop where
  resolvable : ∀ done, done <+: calls → Resolvable (after done)
  failed : ∀ done call, done ++ [call] <+: calls → ∀ e, (call.apply (after done).cache).2 = .error e →
    (call.apply (after done).cache).1 = (after done).cache

/-- A call that will go through does not take a name that is taken. -/
structure NewName (s : Registered) (call : Registration) : Prop where
  tables : ∀ t ∈ call.tables, s.cache.tables t.oid = none → ∀ t' ∈ s.tables, t'.name ≠ t.name
  indexes : ∀ i ∈ call.indexes, s.cache.indexes i.oid = none → ∀ i' ∈ s.indexes, i'.name ≠ i.name

end Registered

/-! ### The maps as registries -/

namespace CatalogCache

/-- The tables by oid and by name. -/
def tableRegistry (cache : CatalogCache) : Lib.Registry OId String Table :=
  ⟨cache.tables, cache.tablesByName⟩

/-- The indexes by oid and by name. -/
def indexRegistry (cache : CatalogCache) : Lib.Registry OId String Index :=
  ⟨cache.indexes, cache.indexesByName⟩

variable {cache : CatalogCache} {table : Table} {index : Index} {oid : OId} {name : String}

theorem getTableByOid_eq_ok :
    cache.getTableByOid oid = .ok table ↔ cache.tableRegistry.byKey oid = some table := by
  show _ ↔ cache.tables oid = some table
  rw [getTableByOid]
  cases cache.tables oid <;> simp

theorem getIndexByOid_eq_ok :
    cache.getIndexByOid oid = .ok index ↔ cache.indexRegistry.byKey oid = some index := by
  show _ ↔ cache.indexes oid = some index
  rw [getIndexByOid]
  cases cache.indexes oid <;> simp

theorem getTableByName_eq_ok :
    cache.getTableByName name = .ok table ↔ cache.tableRegistry.findByName name = some table := by
  rw [getTableByName, Lib.Registry.findByName]
  show _ ↔ (cache.tablesByName name).bind _ = _
  cases cache.tablesByName name with
  | none => exact iff_of_false (by rintro ⟨⟩) (by rintro ⟨⟩)
  | some oid => exact getTableByOid_eq_ok

theorem getIndexByName_eq_ok :
    cache.getIndexByName name = .ok index ↔ cache.indexRegistry.findByName name = some index := by
  rw [getIndexByName, Lib.Registry.findByName]
  show _ ↔ (cache.indexesByName name).bind _ = _
  cases cache.indexesByName name with
  | none => exact iff_of_false (by rintro ⟨⟩) (by rintro ⟨⟩)
  | some oid => exact getIndexByOid_eq_ok

end CatalogCache

namespace Registered

variable {s : Registered} {calls done : List Registration} {call : Registration}

/-- What was registered, by oid. -/
structure Held (s : Registered) : Prop where
  tables : Lib.Registry.Holds Table.oid s.cache.tableRegistry s.tables
  indexes : Lib.Registry.Holds Index.oid s.cache.indexRegistry s.indexes

theorem resolvable_iff : Resolvable s ↔
    Lib.Registry.Resolves Table.oid Table.name s.cache.tableRegistry s.tables ∧
      Lib.Registry.Resolves Index.oid Index.name s.cache.indexRegistry s.indexes := by
  constructor
  · intro h
    refine ⟨fun t ht => ?_, fun i hi => ?_⟩
    · obtain ⟨hoid, hname⟩ := h.tables t ht
      exact ⟨CatalogCache.getTableByOid_eq_ok.1 hoid, CatalogCache.getTableByName_eq_ok.1 hname⟩
    · obtain ⟨hoid, hname⟩ := h.indexes i hi
      exact ⟨CatalogCache.getIndexByOid_eq_ok.1 hoid, CatalogCache.getIndexByName_eq_ok.1 hname⟩
  · rintro ⟨htables, hindexes⟩
    refine ⟨fun t ht => ?_, fun i hi => ?_⟩
    · obtain ⟨hoid, hname⟩ := htables t ht
      exact ⟨CatalogCache.getTableByOid_eq_ok.2 hoid, CatalogCache.getTableByName_eq_ok.2 hname⟩
    · obtain ⟨hoid, hname⟩ := hindexes i hi
      exact ⟨CatalogCache.getIndexByOid_eq_ok.2 hoid, CatalogCache.getIndexByName_eq_ok.2 hname⟩

/-- What a call can do: nothing, or a table or an index with a new oid is put into its registry. -/
inductive Stepped (s : Registered) (call : Registration) : Prop
  | failed (e : AccessorError) (happly : call.apply s.cache = (s.cache, .error e)) (hstep : s.step call = s)
      (htables : ∀ t ∈ call.tables, s.cache.tables t.oid ≠ none)
      (hindexes : ∀ i ∈ call.indexes, s.cache.indexes i.oid ≠ none)
  | table (t : Table) (hnew : s.cache.tables t.oid = none) (hok : (call.apply s.cache).2 = .ok ())
      (hcall : call.tables = [t]) (hindex : call.indexes = [])
      (htables : (s.step call).tables = s.tables ++ [t]) (hindexes : (s.step call).indexes = s.indexes)
      (hcache : (s.step call).cache.tableRegistry = s.cache.tableRegistry.register Table.oid Table.name t)
      (hkept : (s.step call).cache.indexRegistry = s.cache.indexRegistry)
  | index (i : Index) (hnew : s.cache.indexes i.oid = none) (hok : (call.apply s.cache).2 = .ok ())
      (hcall : call.indexes = [i]) (htable : call.tables = [])
      (hindexes : (s.step call).indexes = s.indexes ++ [i]) (htables : (s.step call).tables = s.tables)
      (hcache : (s.step call).cache.indexRegistry = s.cache.indexRegistry.register Index.oid Index.name i)
      (hkept : (s.step call).cache.tableRegistry = s.cache.tableRegistry)

theorem step_of_ok {cache : CatalogCache} (h : call.apply s.cache = (cache, .ok ())) :
    s.step call = ⟨cache, s.tables ++ call.tables, s.indexes ++ call.indexes⟩ := by
  rw [step, h]

theorem stepped (s : Registered) (call : Registration) : Stepped s call := by
  cases call with
  | table t =>
    cases h : s.cache.tables t.oid with
    | some t' =>
      have happly : (Registration.table t).apply s.cache = (s.cache, .error (.duplicateOId t.oid)) :=
        if_pos (by rw [h]; rfl)
      refine .failed _ happly (by rw [step, happly]) (fun t' ht => ?_) nofun
      rw [List.mem_singleton.1 ht, h]
      exact nofun
    | none =>
      have happly : (Registration.table t).apply s.cache = (_, .ok ()) := if_neg (by rw [h]; exact nofun)
      have hstep := step_of_ok happly
      exact .table t h (congrArg Prod.snd happly) rfl rfl (congrArg tables hstep)
        ((congrArg indexes hstep).trans (List.append_nil _)) (congrArg (·.cache.tableRegistry) hstep)
        (congrArg (·.cache.indexRegistry) hstep)
  | tableAndColumns t columns =>
    cases h : s.cache.tables t.oid with
    | some t' =>
      have hregister : s.cache.registerTable t = (s.cache, .error (.duplicateOId t.oid)) :=
        if_pos (by rw [h]; rfl)
      have happly : (Registration.tableAndColumns t columns).apply s.cache =
          (s.cache, .error (.duplicateOId t.oid)) := by rw [Registration.apply, hregister]
      refine .failed _ happly (by rw [step, happly]) (fun t' ht => ?_) nofun
      rw [List.mem_singleton.1 ht, h]
      exact nofun
    | none =>
      have hregister : s.cache.registerTable t = (_, .ok ()) := if_neg (by rw [h]; exact nofun)
      have happly : (Registration.tableAndColumns t columns).apply s.cache =
          (CatalogCache.registerColumns { s.cache with
            tablesByName := Function.update s.cache.tablesByName t.name (some t.oid)
            tables := Function.update s.cache.tables t.oid (some t) } t.oid columns, .ok ()) := by
        rw [Registration.apply, hregister]
      have hstep := step_of_ok happly
      exact .table t h (congrArg Prod.snd happly) rfl rfl (congrArg tables hstep)
        ((congrArg indexes hstep).trans (List.append_nil _)) (congrArg (·.cache.tableRegistry) hstep)
        (congrArg (·.cache.indexRegistry) hstep)
  | index i =>
    cases h : s.cache.indexes i.oid with
    | some i' =>
      have happly : (Registration.index i).apply s.cache = (s.cache, .error (.duplicateOId i.oid)) :=
        if_pos (by rw [h]; rfl)
      refine .failed _ happly (by rw [step, happly]) nofun fun i' hi => ?_
      rw [List.mem_singleton.1 hi, h]
      exact nofun
    | none =>
      have happly : (Registration.index i).apply s.cache = (_, .ok ()) := if_neg (by rw [h]; exact nofun)
      have hstep := step_of_ok happly
      exact .index i h (congrArg Prod.snd happly) rfl rfl (congrArg indexes hstep)
        ((congrArg tables hstep).trans (List.append_nil _)) (congrArg (·.cache.indexRegistry) hstep)
        (congrArg (·.cache.tableRegistry) hstep)

/-- **What was registered stays found by oid.** -/
theorem Held.step (h : Held s) (call : Registration) : Held (s.step call) := by
  cases stepped s call with
  | failed _ _ hstep => rwa [hstep]
  | table t hnew _ _ _ htables hindexes hcache hkept =>
    refine ⟨?_, ?_⟩
    · rw [hcache, htables]
      exact h.tables.register hnew
    · rw [hkept, hindexes]
      exact h.indexes
  | index i hnew _ _ _ hindexes htables hcache hkept =>
    refine ⟨?_, ?_⟩
    · rw [hkept, htables]
      exact h.tables
    · rw [hcache, hindexes]
      exact h.indexes.register hnew

/-- **A call keeps everything resolvable** exactly if it takes no name that is taken. -/
theorem resolvable_step_iff (hheld : Held s) (hresolvable : Resolvable s) :
    Resolvable (s.step call) ↔ NewName s call := by
  have hiff := resolvable_iff.1 hresolvable
  cases stepped s call with
  | failed _ _ hstep htables hindexes =>
    rw [hstep]
    refine iff_of_true hresolvable ⟨?_, ?_⟩
    · exact fun t ht h => absurd h (htables t ht)
    · exact fun i hi h => absurd h (hindexes i hi)
  | table t hnew _ hcall hindex htables hindexes hcache hkept =>
    rw [resolvable_iff, hcache, hkept, htables, hindexes,
      Lib.Registry.resolves_register_iff hheld.tables hiff.1 hnew, and_iff_left hiff.2]
    constructor
    · intro h
      refine ⟨fun t' ht' _ => ?_, fun i hi => ?_⟩
      · rw [hcall] at ht'
        rwa [List.mem_singleton.1 ht']
      · rw [hindex] at hi
        cases hi
    · exact fun h => h.tables t (hcall ▸ List.mem_singleton_self t) hnew
  | index i hnew _ hcall htable hindexes htables hcache hkept =>
    rw [resolvable_iff, hcache, hkept, htables, hindexes,
      Lib.Registry.resolves_register_iff hheld.indexes hiff.2 hnew, and_iff_right hiff.1]
    constructor
    · intro h
      refine ⟨fun t ht => ?_, fun i' hi' _ => ?_⟩
      · rw [htable] at ht
        cases ht
      · rw [hcall] at hi'
        rwa [List.mem_singleton.1 hi']
    · exact fun h => h.indexes i (hcall ▸ List.mem_singleton_self i) hnew

theorem held_start : Held start := by
  have hempty : Lib.Registry.Holds Table.oid CatalogCache.empty.tableRegistry [] := fun k t =>
    iff_of_false nofun fun h => nomatch h.1
  have hregister : ∀ (r : Lib.Registry OId String Table) (l : List Table) t,
    Lib.Registry.Holds Table.oid r l →
      r.byKey t.oid = none →
        Lib.Registry.Holds Table.oid (r.register Table.oid Table.name t) (l ++ [t]) :=
    fun _ _ _ h => h.register
  refine ⟨?_, fun k i => iff_of_false nofun fun h => nomatch h.1⟩
  exact hregister _ _ Schema.sysTableIndexes (hregister _ _ Schema.sysTableColumns
    (hregister _ _ Schema.sysTableTables hempty rfl) rfl) rfl

theorem resolvable_start : Resolvable start :=
  ⟨by decide, nofun⟩

theorem after_append : after (done ++ [call]) = (after done).step call := by
  rw [after, List.foldl_append]
  rfl

theorem held_after : Held (after calls) := by
  induction calls using List.reverseRecOn with
  | nil => exact held_start
  | append_singleton done call ih =>
    rw [after_append]
    exact ih.step call

/-- **Catalog names stay resolvable** exactly in the runs in which no call that goes through takes a name
that is taken. -/
theorem staysResolvable_iff : StaysResolvable calls ↔
    ∀ done call, done ++ [call] <+: calls → NewName (after done) call := by
  constructor
  · intro h done call hprefix
    refine (resolvable_step_iff held_after (h.resolvable done ((List.prefix_append _ _).trans hprefix))).1 ?_
    rw [← after_append]
    exact h.resolvable _ hprefix
  · intro h
    refine ⟨fun done => ?_, fun done call _ e he => ?_⟩
    · induction done using List.reverseRecOn with
      | nil => exact fun _ => resolvable_start
      | append_singleton done call ih =>
        intro hprefix
        rw [after_append]
        exact (resolvable_step_iff held_after (ih ((List.prefix_append _ _).trans hprefix))).2
          (h done call hprefix)
    · cases stepped (after done) call with
      | failed _ happly => rw [happly]
      | table _ _ hok => cases hok.symm.trans he
      | index _ _ hok => cases hok.symm.trans he

/-- One table of a new name. -/
theorem staysResolvable_users : StaysResolvable [.table ⟨3, "users", 3⟩] := by
  refine staysResolvable_iff.2 fun done call hprefix => ?_
  obtain ⟨rest, hrest⟩ := hprefix
  cases done with
  | nil =>
    obtain rfl : call = .table ⟨3, "users", 3⟩ := (List.cons.inj hrest).1
    exact ⟨by decide, nofun⟩
  | cons d done => exact absurd (congrArg List.length hrest) (by simp)

/-- **A second table of a name hides the first.** -/
theorem name_taken : ¬ ∀ calls, StaysResolvable calls := by
  intro hall
  have h := (hall [.table ⟨3, "users", 3⟩, .table ⟨4, "users", 4⟩]).resolvable _ List.prefix_rfl
  have hfound := (h.tables ⟨3, "users", 3⟩ (by decide)).2
  exact absurd (CatalogCache.getTableByName_eq_ok.1 hfound) (by decide)

end Registered
end Abdb
