/-
# The accessor as a database

What the accessor is for: tables and indexes by their oids, where a table is a set of rows by record id
and an index a finite map from keys to record ids.  Record ids are those of the pool, so a row is found
under its record id through every table: `Relations.rows` is one map for all tables, and names the file
of each row.

The pages of the pool are shared out among the files (`Parts`), every file's own pages hold what the
file stands for (`Good`), and a call on one file changes none of the others.  So every call of a run
answers as the database does (`accessor_correct`).
-/

import Abdb.Accessor.Operations

namespace Abdb

open Catalog (Table Column Index)
open Lib Relation

/-- What a database holds: the registered tables and indexes by oid, the row of each record id with the
file of its table, and the bindings of the index in each file. -/
structure Relations where
  tables : OId → Option (Table × List Column)
  indexes : OId → Option Index
  rows : RecordId → Option (FileId × Heap.Version)
  bindings : FileId → BTree.Bindings

namespace Relations

/-- The rows of the table in a file. -/
def ofFile (rows : RecordId → Option (FileId × Heap.Version)) (file : FileId) : Heap.Table := fun rid =>
  (rows rid).bind fun row => if row.1 = file then some row.2 else none

/-- The rows of all tables. -/
def anyFile (rows : RecordId → Option (FileId × Heap.Version)) : Heap.Table := fun rid =>
  (rows rid).map Prod.snd

/-- The rows that a call on a table sees: a scan those of the table, and every other call all that there
are. -/
def seen (R : Relations) (file : FileId) : Heap.Call → Heap.Table
  | .scan _ => ofFile R.rows file
  | _ => anyFile R.rows

/-- What a call returns. -/
def Answers (R : Relations) : AccessorCall → AccessorReply → Prop
  | .registerTable table _, .registered r =>
    r = if (R.tables table.oid).isSome then .error (.duplicateOId table.oid) else .ok ()
  | .registerIndex index, .registered r =>
    r = if (R.indexes index.oid).isSome then .error (.duplicateOId index.oid) else .ok ()
  | .getTableColumns oid, .columns r => ∀ columns, r = .ok columns ↔ ∃ table, R.tables oid = some (table, columns)
  | .table oid call, .table r =>
    match R.tables oid with
    | none => r = .error (.notFound ("table oid " ++ toString oid))
    | some table => ∃ reply, r = .ok reply ∧ (R.seen table.1.fileId call).Answers call reply
  | .index oid call, .index r =>
    match R.indexes oid with
    | none => r = .error (.notFound ("index oid " ++ toString oid))
    | some index => ∃ reply, r = .ok reply ∧ (R.bindings index.fileId).Answers call reply
  | _, _ => False

/-- The rows after a call on the table in a file. -/
def rowsAfter (rows : RecordId → Option (FileId × Heap.Version)) (file : FileId) :
    Heap.Call → Heap.Reply → RecordId → Option (FileId × Heap.Version)
  | .insert txn tuple, .inserted (.ok rid) => Function.update rows rid (some (file, ⟨txn.id, 0, tuple⟩))
  | .delete txn rid, .deleted (.ok _) =>
    Function.update rows rid ((rows rid).map fun row => (row.1, { row.2 with xmax := txn.id }))
  | _, _ => rows

/-- The database after a call that returned the reply. -/
def after (R : Relations) : AccessorCall → AccessorReply → Relations
  | .registerTable table columns, .registered (.ok _) =>
    { R with tables := Function.update R.tables table.oid (some (table, columns)) }
  | .registerIndex index, .registered (.ok _) =>
    { R with indexes := Function.update R.indexes index.oid (some index) }
  | .table oid call, .table (.ok reply) =>
    match R.tables oid with
    | none => R
    | some table => { R with rows := rowsAfter R.rows table.1.fileId call reply }
  | .index oid call, .index (.ok _) =>
    match R.indexes oid with
    | none => R
    | some index => { R with
        bindings := Function.update R.bindings index.fileId ((R.bindings index.fileId).after call) }
  | _, _ => R

/-- Every reply is the database's, from call to call. -/
def Agrees : Relations → List (AccessorCall × AccessorReply) → Prop
  | _, [] => True
  | R, (c, r) :: l => R.Answers c r ∧ Agrees (R.after c r) l

/-- The database after these calls with their replies. -/
def afterAll (R : Relations) (l : List (AccessorCall × AccessorReply)) : Relations :=
  l.foldl (fun R x => R.after x.1 x.2) R

/-- The system tables and nothing else. -/
def new : Relations where
  tables oid := (CatalogCache.new.tables oid).bind fun table =>
    (CatalogCache.new.columns oid).map fun columns => (table, columns)
  indexes _ := none
  rows _ := none
  bindings _ := ∅

variable {rows : RecordId → Option (FileId × Heap.Version)} {file : FileId} {rid : RecordId} {v : Heap.Version}

theorem ofFile_eq_some : ofFile rows file rid = some v ↔ rows rid = some (file, v) := by
  rw [ofFile]
  rcases rows rid with _ | ⟨f, w⟩
  · exact iff_of_false (by rintro ⟨⟩) (by rintro ⟨⟩)
  · rw [Option.bind_some]
    dsimp only
    split_ifs with hf
    · rw [Option.some.injEq, Option.some.injEq, Prod.mk.injEq, hf]
      exact (and_iff_right rfl).symm
    · refine iff_of_false (by rintro ⟨⟩) fun heq => hf ?_
      cases heq
      rfl

theorem anyFile_eq_some : anyFile rows rid = some v ↔ ∃ file, ofFile rows file rid = some v := by
  simp only [anyFile, ofFile_eq_some, Option.map_eq_some_iff, Prod.exists, exists_eq_right]

/-- A row of a file that has none under the record id. -/
theorem ofFile_insert (hnone : rows rid = none) (g : FileId) :
    ofFile (Function.update rows rid (some (file, v))) g =
      if g = file then Function.update (ofFile rows g) rid (some v) else ofFile rows g := by
  funext rid'
  by_cases hrid : rid' = rid
  · subst hrid
    rw [ofFile, Function.update_self]
    split_ifs with hg
    · rw [Function.update_self, Option.bind_some, if_pos hg.symm]
    · rw [ofFile, hnone, Option.bind_some, if_neg (Ne.symm hg)]
      rfl
  · rw [ofFile, Function.update_of_ne hrid]
    split_ifs
    · rw [Function.update_of_ne hrid, ofFile]
    · rw [ofFile]

/-- A row changed in its place. -/
theorem ofFile_map (f : Heap.Version → Heap.Version) (g : FileId) :
    ofFile (Function.update rows rid ((rows rid).map fun row => (row.1, f row.2))) g =
      Function.update (ofFile rows g) rid ((ofFile rows g rid).map f) := by
  funext rid'
  by_cases hrid : rid' = rid
  · subst hrid
    rw [ofFile, Function.update_self, Function.update_self, ofFile]
    rcases rows rid' with _ | ⟨f', w⟩
    · rfl
    · rw [Option.map_some, Option.bind_some, Option.bind_some]
      dsimp only
      split_ifs <;> rfl
  · rw [ofFile, Function.update_of_ne hrid, Function.update_of_ne hrid, ofFile]

theorem ofFile_delete (file : FileId) (txn : Txn) (g : FileId) :
    ofFile (rowsAfter rows file (.delete txn rid) (.deleted (.ok ()))) g =
      Function.update (ofFile rows g) rid ((ofFile rows g rid).map fun v => { v with xmax := txn.id }) :=
  ofFile_map (fun v => { v with xmax := txn.id }) g

end Relations

/-- The pages of every file. -/
structure Parts where
  heap : FileId → LPageId → Option HeapPage
  index : FileId → LPageId → Option Page

/-- The pages by owner: the heap files and the indexes. -/
def Parts.of (P : Parts) : FileId ⊕ FileId → LPageId → Option DbPage
  | .inl file => embed .heap (P.heap file)
  | .inr file => embed .index (P.index file)

theorem Parts.of_updateHeap (P : Parts) (file : FileId) (m : LPageId → Option HeapPage) :
    Parts.of { P with heap := Function.update P.heap file m } =
      Function.update P.of (.inl file) (embed .heap m) := by
  funext o
  rcases o with g | g
  · by_cases hg : g = file
    · subst hg
      rw [Function.update_self, Parts.of]
      dsimp only
      rw [Function.update_self]
    · rw [Function.update_of_ne (by simpa using hg), Parts.of, Parts.of]
      dsimp only
      rw [Function.update_of_ne hg]
  · rw [Function.update_of_ne (by rintro ⟨⟩)]
    rfl

theorem Parts.of_updateIndex (P : Parts) (file : FileId) (m : LPageId → Option Page) :
    Parts.of { P with index := Function.update P.index file m } =
      Function.update P.of (.inr file) (embed .index m) := by
  funext o
  rcases o with g | g
  · rw [Function.update_of_ne (by rintro ⟨⟩)]
    rfl
  · by_cases hg : g = file
    · subst hg
      rw [Function.update_self, Parts.of]
      dsimp only
      rw [Function.update_self]
    · rw [Function.update_of_ne (by simpa using hg), Parts.of, Parts.of]
      dsimp only
      rw [Function.update_of_ne hg]

namespace AccessorImpl

variable {db db' : AccessorImpl} {P : Parts} {R : Relations} {file : FileId} {n : LPageId}
  {call : AccessorCall} {reply : AccessorReply} {l : List (AccessorCall × AccessorReply)}

/-- **The pool holds a database**: the pages are shared out among the files, and what a file has of
them is its table or its index. -/
structure Good (db : AccessorImpl) (P : Parts) (R : Relations) : Prop where
  pos : 1 ≤ db.nextLpageId
  shares : Shares P.of db.page db.nextLpageId
  covers : ∀ {q p}, db.page q = some (.heap p) → ∃ file, P.heap file q ≠ none
  tables : ∀ oid, db.catalog.tables oid = (R.tables oid).map Prod.fst
  columns : ∀ oid, db.catalog.columns oid = (R.tables oid).map Prod.snd
  indexes : db.catalog.indexes = R.indexes
  heap : ∀ file, ∃ c, Heap.Store.Represents ⟨P.heap file, db.firstPage file⟩ (Relations.ofFile R.rows file) c
  index : ∀ file, BTree.Store.Represents .count ⟨P.index file, db.rootPage file, db.nextLpageId - 1⟩
    (R.bindings file)

namespace Good

theorem of_inl_ne_none {q : LPageId} : P.of (.inl file) q ≠ none ↔ P.heap file q ≠ none :=
  not_congr embed_eq_none

theorem of_inr_ne_none {q : LPageId} : P.of (.inr file) q ≠ none ↔ P.index file q ≠ none :=
  not_congr embed_eq_none

/-- What an operation of a heap file sees: the pages of its file over those of the others. -/
theorem heapStore_eq (h : Good db P R) (file g : FileId) : db.heapStore g =
    Heap.Store.over ⟨P.heap file, db.firstPage g⟩ (pick DbPage.heap? db.page) := by
  rw [heapStore, Heap.Store.over, (within_pick DbPage.heap_isPartialInv (h.shares.within (.inl file))).overlay_eq]

/-- What an operation of an index sees. -/
theorem indexStore_eq (h : Good db P R) (file : FileId) : db.indexStore file = Database.lift
    (BTree.Store.over ⟨P.index file, db.rootPage file, db.nextLpageId - 1⟩ (pick DbPage.index? db.page)) := by
  have hpos := h.pos
  rw [indexStore, BTree.Store.over, Database.lift,
    (within_pick DbPage.index_isPartialInv (h.shares.within (.inr file))).overlay_eq]
  congr 1
  exact (Nat.sub_add_cancel hpos).symm

/-- **A heap file changed**: its pages are others, and some of them new. -/
theorem putHeap (h : Good db P R) {m : LPageId → Option HeapPage} (first : LPageId)
    (rows : RecordId → Option (FileId × Heap.Version)) (hle : db.nextLpageId ≤ n)
    (hm : ∀ q, m q ≠ none → P.heap file q ≠ none ∨ db.nextLpageId ≤ q ∧ q < n)
    (hkept : ∀ q, P.heap file q ≠ none → m q ≠ none)
    (hrep : ∃ c, Heap.Store.Represents ⟨m, first⟩ (Relations.ofFile rows file) c)
    (hrows : ∀ g, g ≠ file → Relations.ofFile rows g = Relations.ofFile R.rows g) :
    Good { db with
        page := overlay (embed .heap m) db.page
        firstPage := Function.update db.firstPage file first
        nextLpageId := n }
      { P with heap := Function.update P.heap file m } { R with rows } where
  pos := h.pos.trans hle
  shares := by
    rw [Parts.of_updateHeap]
    exact h.shares.update hle fun q hq => (hm q (mt embed_eq_none.2 hq)).imp_left of_inl_ne_none.2
  covers := by
    intro q p hq
    dsimp only at hq ⊢
    cases hmq : m q with
    | some x => exact ⟨file, by rw [Function.update_self, hmq]; exact Option.some_ne_none x⟩
    | none =>
      rw [overlay_of_none (embed_eq_none.2 hmq)] at hq
      obtain ⟨g, hg⟩ := h.covers hq
      have hne : g ≠ file := by
        rintro rfl
        exact hkept q hg hmq
      exact ⟨g, by rwa [Function.update_of_ne hne]⟩
  tables := h.tables
  columns := h.columns
  indexes := h.indexes
  heap := by
    intro g
    dsimp only
    by_cases hg : g = file
    · subst hg
      rw [Function.update_self, Function.update_self]
      exact hrep
    · rw [Function.update_of_ne hg, Function.update_of_ne hg, hrows g hg]
      exact h.heap g
  index := fun g => Database.represents_mono (h.index g) (Nat.sub_le_sub_right hle 1)

/-- **An index changed**: its pages are others, and some of them new. -/
theorem putIndex (h : Good db P R) {m : LPageId → Option Page} {root : LPageId} {b : BTree.Bindings}
    (hle : db.nextLpageId ≤ n)
    (hm : ∀ q, m q ≠ none → P.index file q ≠ none ∨ db.nextLpageId ≤ q ∧ q < n)
    (hrep : BTree.Store.Represents .count ⟨m, root, n - 1⟩ b) :
    Good { db with
        page := overlay (embed .index m) db.page
        rootPage := Function.update db.rootPage file root
        nextLpageId := n }
      { P with index := Function.update P.index file m }
      { R with bindings := Function.update R.bindings file b } where
  pos := h.pos.trans hle
  shares := by
    rw [Parts.of_updateIndex]
    exact h.shares.update hle fun q hq => (hm q (mt embed_eq_none.2 hq)).imp_left of_inr_ne_none.2
  covers := by
    intro q p hq
    cases hmq : m q with
    | some x =>
      dsimp only at hq
      rw [overlay_of_some (x := .index x) (by rw [embed, hmq, Option.map_some])] at hq
      cases hq
    | none =>
      dsimp only at hq
      rw [overlay_of_none (embed_eq_none.2 hmq)] at hq
      exact h.covers hq
  tables := h.tables
  columns := h.columns
  indexes := h.indexes
  heap := h.heap
  index := by
    intro g
    dsimp only
    by_cases hg : g = file
    · subst hg
      rw [Function.update_self, Function.update_self, Function.update_self]
      exact hrep
    · rw [Function.update_of_ne hg, Function.update_of_ne hg, Function.update_of_ne hg]
      exact Database.represents_mono (h.index g) (Nat.sub_le_sub_right hle 1)

/-- A row's page is a page of the file of its table. -/
theorem page_of_row (h : Good db P R) {rid : RecordId} {v : Heap.Version}
    (hrow : R.rows rid = some (file, v)) : P.heap file rid.pageId ≠ none := by
  obtain ⟨c, hrep⟩ := h.heap file
  exact hrep.page_of_some (Relations.ofFile_eq_some.2 hrow)

/-- **The file of a record id**: an operation on the record sees what it would see in that file alone. -/
theorem exists_home (h : Good db P R) (rid : RecordId) (hrid : ∀ p, db.page rid.pageId ≠ some (.index p))
    (file : FileId) : ∃ g, (db.heapStore file).page rid.pageId = P.heap g rid.pageId ∧
      Relations.anyFile R.rows rid = Relations.ofFile R.rows g rid := by
  have hany : ∀ {g}, (∀ f, P.heap f rid.pageId ≠ none → f = g) →
      Relations.anyFile R.rows rid = Relations.ofFile R.rows g rid := by
    intro g hg
    ext v
    rw [Relations.anyFile_eq_some]
    constructor
    · rintro ⟨f, hf⟩
      obtain rfl := hg f (h.page_of_row (Relations.ofFile_eq_some.1 hf))
      exact hf
    · exact fun hv => ⟨g, hv⟩
  cases hp : db.page rid.pageId with
  | some p =>
    cases p with
    | index p => exact absurd hp (hrid p)
    | heap p =>
      obtain ⟨g, hg⟩ := h.covers hp
      refine ⟨g, ?_, hany fun f hf => ?_⟩
      · rw [h.heapStore_eq g file]
        obtain ⟨x, hx⟩ := Option.ne_none_iff_exists'.1 hg
        exact (overlay_of_some hx).trans hx.symm
      · have := h.shares.apart (of_inl_ne_none.2 hf) (of_inl_ne_none.2 hg)
        exact Sum.inl.inj this
  | none =>
    have hnone : ∀ f, P.heap f rid.pageId = none := by
      intro f
      by_contra hf
      obtain ⟨x, hx⟩ := Option.ne_none_iff_exists'.1 hf
      have := h.shares.within (.inl f) rid.pageId (.heap x) (by rw [Parts.of, embed, hx, Option.map_some])
      rw [hp] at this
      cases this
    refine ⟨file, ?_, hany fun f hf => absurd (hnone f) hf⟩
    show (db.page rid.pageId).bind DbPage.heap? = _
    rw [hnone, hp, Option.bind_none]

/-! ### Calls on tables -/

/-- An insert into a heap file. -/
theorem heap_insert (h : Good db P R) (txn : Txn) {tuple : List UInt8} (hlen : tuple.length ≤ Heap.maxTupleSize)
    (file : FileId) : ∃ db' r, db.HeapExec file (.insert txn tuple) db' (.inserted r) ∧
      (db'.nextLpageId ≤ 2 ^ 32 → (R.seen file (.insert txn tuple)).Answers (.insert txn tuple) (.inserted r) ∧
        ∃ P', Good db' P' { R with
          rows := Relations.rowsAfter R.rows file (.insert txn tuple) (.inserted r) }) := by
  obtain ⟨c, hrep⟩ := h.heap file
  have hbelow : ∀ q, P.heap file q ≠ none → q < db.nextLpageId := fun q hq =>
    h.shares.below (of_inl_ne_none.2 hq)
  obtain ⟨st, n, r, hrun, hle, hnew, hkept, hend⟩ :=
    Database.heap_insert_over hrep txn hlen h.pos hbelow (pick DbPage.heap? db.page)
  rw [← h.heapStore_eq file file] at hrun
  refine ⟨_, r, ⟨_, n, hrun, rfl⟩, fun hn => ?_⟩
  obtain ⟨rid, c', rfl, hnone, hrep'⟩ := hend hn
  have hrow : R.rows rid = none := by
    rw [Option.eq_none_iff_forall_ne_some]
    rintro ⟨g, v⟩ hrow
    have hg := of_inl_ne_none.2 (h.page_of_row hrow)
    rcases hnew _ (hrep'.page_of_some (Function.update_self ..)) with hf | ⟨hge, -⟩
    · obtain rfl := Sum.inl.inj (h.shares.apart hg (of_inl_ne_none.2 hf))
      rw [← Relations.ofFile_eq_some, hnone] at hrow
      cases hrow
    · exact absurd (h.shares.below hg) (not_lt.2 hge)
  refine ⟨⟨rid, rfl, ?_⟩, ?_⟩
  · show (R.rows rid).map Prod.snd = none
    rw [hrow, Option.map_none]
  · have hgood := h.putHeap st.firstPage
      (Relations.rowsAfter R.rows file (.insert txn tuple) (.inserted (.ok rid))) hle hnew hkept
      ⟨c', by rwa [Relations.rowsAfter, Relations.ofFile_insert hrow, if_pos rfl]⟩ fun g hg => by
        rw [Relations.rowsAfter, Relations.ofFile_insert hrow, if_neg hg]
    rw [AccessorImpl.putHeap, Heap.Store.over, overlay_embed_pick DbPage.heap_isPartialInv]
    exact ⟨_, hgood⟩

/-- A lookup of a record id. -/
theorem heap_get (h : Good db P R) {txn : Txn} {rid : RecordId} {d : List UInt8}
    (hrid : ∀ p, db.page rid.pageId ≠ some (.index p)) (file : FileId) :
    Heap.get (db.heapStore file) txn rid = .ok d ↔
      ∃ v, (Relations.anyFile R.rows).Sees txn rid v ∧ d = v.data := by
  obtain ⟨g, hpage, hany⟩ := h.exists_home rid hrid file
  obtain ⟨c, hrep⟩ := h.heap g
  have hget : Heap.get (db.heapStore file) txn rid = Heap.get ⟨P.heap g, db.firstPage g⟩ txn rid :=
    Heap.get_congr hpage
  rw [hget, hrep.get_eq_ok_iff]
  simp only [Heap.Table.Sees, hany]

/-- A delete of a record id. -/
theorem heap_delete (h : Good db P R) (txn : Txn) {rid : RecordId}
    (hrid : ∀ p, db.page rid.pageId ≠ some (.index p)) (file : FileId) :
    ((Heap.delete (db.heapStore file) txn rid).2 = .ok () ↔
      ∃ v, (Relations.anyFile R.rows).Sees txn rid v ∧ v.xmax = 0) ∧
    ∃ P', Good (db.write (Heap.delete (db.heapStore file) txn rid).1) P' { R with
      rows := Relations.rowsAfter R.rows file (.delete txn rid)
        (.deleted (Heap.delete (db.heapStore file) txn rid).2) } := by
  obtain ⟨g, hpage, hany⟩ := h.exists_home rid hrid file
  obtain ⟨c, hrep⟩ := h.heap g
  obtain ⟨hok, c', hrep'⟩ := hrep.exec_delete txn rid
  have hdelete : Heap.delete (db.heapStore file) txn rid = Heap.delete ⟨P.heap g, db.firstPage g⟩ txn rid :=
    Heap.delete_congr hpage
  rw [hdelete]
  refine ⟨?_, ?_⟩
  · rw [hok]
    simp only [Heap.Table.Sees, hany]
  rcases Heap.delete_outcome ⟨P.heap g, db.firstPage g⟩ txn rid with ⟨e, heq⟩ | ⟨hthere, p, heq⟩
  · rw [heq]
    exact ⟨P, h⟩
  · rw [heq] at hrep' ⊢
    have hhome : ∀ f, f ≠ g → Relations.ofFile R.rows f rid = none := by
      intro f hf
      rw [Option.eq_none_iff_forall_ne_some]
      intro v hv
      have hrow := h.page_of_row (Relations.ofFile_eq_some.1 hv)
      exact hf (Sum.inl.inj (h.shares.apart (of_inl_ne_none.2 hrow) (of_inl_ne_none.2 hthere)))
    have hnew : ∀ q, Function.update (P.heap g) rid.pageId (some p) q ≠ none ↔ P.heap g q ≠ none := by
      intro q
      by_cases hq : q = rid.pageId
      · subst hq
        rw [Function.update_self]
        exact iff_of_true (Option.some_ne_none p) hthere
      · rw [Function.update_of_ne hq]
    have hgood := h.putHeap (db.firstPage g)
      (Relations.rowsAfter R.rows file (.delete txn rid) (.deleted (.ok ()))) le_rfl
      (fun q hq => Or.inl ((hnew q).1 hq)) (fun q hq => (hnew q).2 hq)
      ⟨c', by rw [Relations.ofFile_delete]; exact hrep'⟩ fun f hf => by
        rw [Relations.ofFile_delete, hhome f hf, Option.map_none, ← hhome f hf,
          Function.update_eq_self]
    have hover : overlay (embed .heap (P.heap g)) db.page = db.page := (h.shares.within (.inl g)).overlay_eq
    rw [embed_update, overlay_update, hover, Function.update_eq_self] at hgood
    exact ⟨_, hgood⟩

/-- A scan of a heap file. -/
theorem heap_scan (h : Good db P R) (txn : Txn) (file : FileId) : ∃ items,
    Heap.Drains (db.heapStore file) (.loop (Heap.scan (db.heapStore file) txn)) items ∧
      (Relations.ofFile R.rows file).Answers (.scan txn) (.scanned items) := by
  obtain ⟨c, hrep⟩ := h.heap file
  rw [h.heapStore_eq file file]
  exact ⟨_, (hrep.holds.over _).drains txn, hrep.exec_scan (hrep.holds.drains txn)⟩

/-! ### Calls on indexes -/

/-- A call on an index. -/
theorem index_call (h : Good db P R) (file : FileId) (call : BTree.Call) : ∃ db' r,
    db.IndexExec file call db' r ∧ (R.bindings file).Answers call r ∧
      ∃ P', Good db' P' { R with
        bindings := Function.update R.bindings file ((R.bindings file).after call) } := by
  obtain ⟨st, r, hexec, hans, hrep, hle, hnew⟩ := (h.index file).exec_over (pick DbPage.index? db.page) call
  have hgood := h.putIndex (Nat.le_add_of_sub_le hle) (fun q hq => (hnew q hq).imp_right fun hi => by
    obtain ⟨i, hi, hlt, rfl⟩ := hi
    exact ⟨Nat.le_add_of_sub_le hi, Nat.succ_lt_succ hlt⟩) hrep
  refine ⟨db.putIndex file (Database.lift (st.over (pick DbPage.index? db.page))), r, ?_, hans, ?_⟩
  · cases call <;> cases r <;> first
      | exact hexec.elim
      | exact ⟨_, by rw [h.indexStore_eq]; exact Database.index_run_of hexec.2, rfl⟩
  · rw [AccessorImpl.putIndex, Database.lift, BTree.Store.over,
      overlay_embed_pick DbPage.index_isPartialInv]
    exact ⟨_, hgood⟩

/-! ### Calls of the accessor -/

/-- A call on a table. -/
theorem heap_call (h : Good db P R) {oid : OId} {call : Heap.Call} (hlegal : db.Legal (.table oid call))
    (file : FileId) : ∃ db' r, db.HeapExec file call db' r ∧
      (db'.nextLpageId ≤ 2 ^ 32 → (R.seen file call).Answers call r ∧
        ∃ P', Good db' P' { R with rows := Relations.rowsAfter R.rows file call r }) := by
  cases call with
  | insert txn tuple =>
    obtain ⟨db', r, hexec, hend⟩ := h.heap_insert txn hlegal file
    exact ⟨db', .inserted r, hexec, hend⟩
  | get txn rid =>
    exact ⟨db, .got _, ⟨rfl, rfl⟩, fun _ => ⟨fun d => h.heap_get hlegal file, P, h⟩⟩
  | delete txn rid =>
    obtain ⟨hok, hgood⟩ := h.heap_delete txn hlegal file
    exact ⟨_, .deleted _, ⟨rfl, rfl⟩, fun _ => ⟨hok, hgood⟩⟩
  | scan txn =>
    obtain ⟨items, hdrains, hans⟩ := h.heap_scan txn file
    exact ⟨db, .scanned items, ⟨rfl, hdrains⟩, fun _ => ⟨hans, P, h⟩⟩

/-- A table registered under a new oid, with its columns. -/
theorem register_table (h : Good db P R) (table : Table) (columns : List Column)
    (hnone : R.tables table.oid = none) : ∃ db', db.registerTable table columns = (db', .ok ()) ∧
      Good db' P { R with tables := Function.update R.tables table.oid (some (table, columns)) } := by
  have hcache : db.catalog.tables table.oid = none := by rw [h.tables, hnone, Option.map_none]
  have hregister : db.registerTable table columns = ({ db with catalog := { db.catalog with
      tablesByName := Function.update db.catalog.tablesByName table.name (some table.oid)
      tables := Function.update db.catalog.tables table.oid (some table)
      columns := Function.update db.catalog.columns table.oid (some columns) } }, .ok ()) := by
    unfold AccessorImpl.registerTable
    rw [Registration.apply, CatalogCache.registerTable, hcache]
    rfl
  have htables : db.catalog.tables = embed Prod.fst R.tables := funext h.tables
  have hcolumns : db.catalog.columns = embed Prod.snd R.tables := funext h.columns
  refine ⟨_, hregister, h.pos, h.shares, h.covers, fun oid => ?_, fun oid => ?_, h.indexes, h.heap, h.index⟩
  · show Function.update db.catalog.tables table.oid (some table) oid = embed Prod.fst _ oid
    rw [embed_update, htables]
  · show Function.update db.catalog.columns table.oid (some columns) oid = embed Prod.snd _ oid
    rw [embed_update, hcolumns]

/-- An index registered under a new oid. -/
theorem register_index (h : Good db P R) (index : Index) (hnone : R.indexes index.oid = none) :
    ∃ db', db.registerIndex index = (db', .ok ()) ∧
      Good db' P { R with indexes := Function.update R.indexes index.oid (some index) } := by
  have hcache : db.catalog.indexes index.oid = none := by rw [h.indexes, hnone]
  have hregister : db.registerIndex index = ({ db with catalog := { db.catalog with
      indexesByName := Function.update db.catalog.indexesByName index.name (some index.oid)
      indexes := Function.update db.catalog.indexes index.oid (some index) } }, .ok ()) := by
    unfold AccessorImpl.registerIndex
    rw [CatalogCache.registerIndex, hcache]
    rfl
  refine ⟨_, hregister, h.pos, h.shares, h.covers, h.tables, h.columns, ?_, h.heap, h.index⟩
  show Function.update db.catalog.indexes index.oid (some index) = _
  rw [h.indexes]

/-- **Every call returns, and answers as the database does.** -/
theorem returns (h : Good db P R) (hlegal : db.Legal call) : ∃ db' reply, db.Exec call db' reply ∧
    (db'.nextLpageId ≤ 2 ^ 32 → R.Answers call reply ∧ ∃ P', Good db' P' (R.after call reply)) := by
  cases call with
  | registerTable table columns =>
    cases hold : R.tables table.oid with
    | none =>
      obtain ⟨db', hregister, hgood⟩ := h.register_table table columns hold
      refine ⟨db', .registered (.ok ()), hregister, fun _ => ⟨?_, P, hgood⟩⟩
      rw [Relations.Answers, hold]
      rfl
    | some old =>
      have hregister : db.registerTable table columns = (db, .error (.duplicateOId table.oid)) := by
        unfold AccessorImpl.registerTable
        rw [Registration.apply, CatalogCache.registerTable, h.tables, hold]
        rfl
      refine ⟨db, .registered (.error _), hregister, fun _ => ⟨?_, P, h⟩⟩
      rw [Relations.Answers, hold]
      rfl
  | registerIndex index =>
    cases hold : R.indexes index.oid with
    | none =>
      obtain ⟨db', hregister, hgood⟩ := h.register_index index hold
      refine ⟨db', .registered (.ok ()), hregister, fun _ => ⟨?_, P, hgood⟩⟩
      rw [Relations.Answers, hold]
      rfl
    | some old =>
      have hregister : db.registerIndex index = (db, .error (.duplicateOId index.oid)) := by
        unfold AccessorImpl.registerIndex
        rw [CatalogCache.registerIndex, h.indexes, hold]
        rfl
      refine ⟨db, .registered (.error _), hregister, fun _ => ⟨?_, P, h⟩⟩
      rw [Relations.Answers, hold]
      rfl
  | getTableColumns oid =>
    refine ⟨db, .columns _, ⟨rfl, rfl⟩, fun _ => ⟨fun columns => ?_, P, h⟩⟩
    rw [CatalogCache.getTableColumns, h.columns]
    rcases R.tables oid with _ | ⟨table, columns'⟩
    · exact iff_of_false (by rintro ⟨⟩) (by rintro ⟨table, ⟨⟩⟩)
    · rw [Option.map_some]
      simp [eq_comm]
  | table oid call =>
    cases htable : R.tables oid with
    | none =>
      have hfile : db.tableFileId oid = .error (.notFound ("table oid " ++ toString oid)) := by
        rw [tableFileId, CatalogCache.getTableByOid, h.tables, htable]
        rfl
      refine ⟨db, .table (.error (.notFound ("table oid " ++ toString oid))), ?_, fun _ => ⟨?_, P, h⟩⟩
      · rw [Exec, hfile]
        exact ⟨rfl, rfl⟩
      · rw [Relations.Answers, htable]
    | some table =>
      have hfile : db.tableFileId oid = .ok table.1.fileId := by
        rw [tableFileId, CatalogCache.getTableByOid, h.tables, htable]
        rfl
      obtain ⟨db', r, hexec, hend⟩ := h.heap_call hlegal table.1.fileId
      refine ⟨db', .table (.ok r), ?_, fun hn => ?_⟩
      · rw [Exec, hfile]
        exact ⟨r, rfl, hexec⟩
      · obtain ⟨hans, hgood⟩ := hend hn
        rw [Relations.Answers, Relations.after, htable]
        exact ⟨⟨r, rfl, hans⟩, hgood⟩
  | index oid call =>
    cases hindex : R.indexes oid with
    | none =>
      have hfile : db.indexFileId oid = .error (.notFound ("index oid " ++ toString oid)) := by
        rw [indexFileId, CatalogCache.getIndexByOid, h.indexes, hindex]
      refine ⟨db, .index (.error (.notFound ("index oid " ++ toString oid))), ?_, fun _ => ⟨?_, P, h⟩⟩
      · rw [Exec, hfile]
        exact ⟨rfl, rfl⟩
      · rw [Relations.Answers, hindex]
    | some index =>
      have hfile : db.indexFileId oid = .ok index.fileId := by
        rw [indexFileId, CatalogCache.getIndexByOid, h.indexes, hindex]
      obtain ⟨db', r, hexec, hans, hgood⟩ := h.index_call index.fileId call
      refine ⟨db', .index (.ok r), ?_, fun _ => ?_⟩
      · rw [Exec, hfile]
        exact ⟨r, rfl, hexec⟩
      · rw [Relations.Answers, Relations.after, hindex]
        exact ⟨⟨r, rfl, hans⟩, hgood⟩

end Good

/-! ### Runs -/

theorem HeapExec.unique {call : Heap.Call} {db₁ db₂ : AccessorImpl} {r₁ r₂ : Heap.Reply}
    (h₁ : db.HeapExec file call db₁ r₁) (h₂ : db.HeapExec file call db₂ r₂) : db₁ = db₂ ∧ r₁ = r₂ := by
  cases call <;> cases r₁ <;> cases r₂ <;> simp only [HeapExec] at h₁ h₂
  · obtain ⟨st₁, n₁, hrun₁, rfl⟩ := h₁
    obtain ⟨st₂, n₂, hrun₂, rfl⟩ := h₂
    cases @ended_unique _ (Database.heapStep _ _) _ _ _ rfl rfl hrun₁ hrun₂
    exact ⟨rfl, rfl⟩
  · obtain ⟨rfl, rfl⟩ := h₁
    obtain ⟨rfl, rfl⟩ := h₂
    exact ⟨rfl, rfl⟩
  · obtain ⟨rfl, rfl⟩ := h₁
    obtain ⟨rfl, rfl⟩ := h₂
    exact ⟨rfl, rfl⟩
  · obtain ⟨rfl, hdrains₁⟩ := h₁
    obtain ⟨rfl, hdrains₂⟩ := h₂
    exact ⟨rfl, congrArg _ (hdrains₁.unique hdrains₂)⟩

theorem Runs.unique {Pc : Type} {M : BTree.Machine Pc} {pc pc₁ pc₂ : Pc} {db₁ db₂ : AccessorImpl}
    (h₁ : Runs M db file pc pc₁ db₁) (h₂ : Runs M db file pc pc₂ db₂) (hend₁ : M.await pc₁ = .nothing)
    (hend₂ : M.await pc₂ = .nothing) : db₁ = db₂ ∧ pc₁ = pc₂ := by
  obtain ⟨st₁, hrun₁, rfl⟩ := h₁
  obtain ⟨st₂, hrun₂, rfl⟩ := h₂
  have hstop : ∀ {st pc}, M.await pc = .nothing → Database.indexStep M (st, pc) = (st, pc) := by
    intro st pc hawait
    rw [Database.indexStep]
    dsimp only
    rw [hawait]
  cases ended_unique (hstop hend₁) (hstop hend₂) hrun₁ hrun₂
  exact ⟨rfl, rfl⟩

theorem IndexExec.unique {call : BTree.Call} {db₁ db₂ : AccessorImpl} {r₁ r₂ : BTree.Reply}
    (h₁ : db.IndexExec file call db₁ r₁) (h₂ : db.IndexExec file call db₂ r₂) : db₁ = db₂ ∧ r₁ = r₂ := by
  cases call <;> cases r₁ <;> cases r₂ <;> simp only [IndexExec] at h₁ h₂ <;>
    obtain ⟨rfl, hpc⟩ := h₁.unique h₂ rfl rfl <;> cases hpc <;> exact ⟨rfl, rfl⟩

/-- **A call has one outcome.** -/
theorem Exec.unique {db₁ db₂ : AccessorImpl} {r₁ r₂ : AccessorReply} (h₁ : db.Exec call db₁ r₁)
    (h₂ : db.Exec call db₂ r₂) : db₁ = db₂ ∧ r₁ = r₂ := by
  cases call with
  | table oid call =>
    cases r₁ <;> cases r₂ <;> simp only [Exec] at h₁ h₂
    cases hfile : db.tableFileId oid with
    | error e =>
      rw [hfile] at h₁ h₂
      obtain ⟨rfl, rfl⟩ := h₁
      obtain ⟨rfl, rfl⟩ := h₂
      exact ⟨rfl, rfl⟩
    | ok file =>
      rw [hfile] at h₁ h₂
      obtain ⟨r, rfl, h₁⟩ := h₁
      obtain ⟨r', rfl, h₂⟩ := h₂
      obtain ⟨rfl, rfl⟩ := h₁.unique h₂
      exact ⟨rfl, rfl⟩
  | index oid call =>
    cases r₁ <;> cases r₂ <;> simp only [Exec] at h₁ h₂
    cases hfile : db.indexFileId oid with
    | error e =>
      rw [hfile] at h₁ h₂
      obtain ⟨rfl, rfl⟩ := h₁
      obtain ⟨rfl, rfl⟩ := h₂
      exact ⟨rfl, rfl⟩
    | ok file =>
      rw [hfile] at h₁ h₂
      obtain ⟨r, rfl, h₁⟩ := h₁
      obtain ⟨r', rfl, h₂⟩ := h₂
      obtain ⟨rfl, rfl⟩ := h₁.unique h₂
      exact ⟨rfl, rfl⟩
  | getTableColumns oid =>
    cases r₁ <;> cases r₂ <;> simp only [Exec] at h₁ h₂
    obtain ⟨rfl, rfl⟩ := h₁
    obtain ⟨rfl, rfl⟩ := h₂
    exact ⟨rfl, rfl⟩
  | registerTable table columns =>
    cases r₁ <;> cases r₂ <;> simp only [Exec] at h₁ h₂
    cases h₁.symm.trans h₂
    exact ⟨rfl, rfl⟩
  | registerIndex index =>
    cases r₁ <;> cases r₂ <;> simp only [Exec] at h₁ h₂
    cases h₁.symm.trans h₂
    exact ⟨rfl, rfl⟩

theorem Runs.next_le {Pc : Type} {M : BTree.Machine Pc} {pc pc' : Pc} (h : Runs M db file pc pc' db') :
    db.nextLpageId ≤ db'.nextLpageId := by
  obtain ⟨st, hrun, rfl⟩ := h
  have hall : ∀ x, ReflTransGen (fun x y => y = Database.indexStep M x) (db.indexStore file, pc) x →
      db.nextLpageId ≤ x.1.allocated := by
    intro x hx
    induction hx with
    | refl => exact le_rfl
    | tail _ hstep ih =>
      subst hstep
      refine ih.trans ?_
      unfold Database.indexStep
      split
      · exact le_rfl
      · exact Nat.le_succ _
      · exact le_rfl
  exact hall _ hrun

/-- Page ids are never given back. -/
theorem Exec.next_le (h : db.Exec call db' reply) : db.nextLpageId ≤ db'.nextLpageId := by
  cases call with
  | registerTable table columns =>
    cases reply <;> simp only [Exec] at h
    exact (congrArg (fun x => x.1.nextLpageId) h).le
  | registerIndex index =>
    cases reply <;> simp only [Exec] at h
    exact (congrArg (fun x => x.1.nextLpageId) h).le
  | getTableColumns oid =>
    cases reply <;> simp only [Exec] at h
    exact h.1.symm ▸ le_rfl
  | table oid call =>
    cases reply <;> simp only [Exec] at h
    split at h
    · exact h.1.symm ▸ le_rfl
    · obtain ⟨r, -, h⟩ := h
      cases call <;> cases r <;> simp only [HeapExec] at h
      · obtain ⟨st, n, hrun, rfl⟩ := h
        exact (Database.heap_run_pages hrun).1
      · exact h.1.symm ▸ le_rfl
      · obtain ⟨rfl, -⟩ := h
        unfold write
        split <;> exact le_rfl
      · exact h.1.symm ▸ le_rfl
  | index oid call =>
    cases reply <;> simp only [Exec] at h
    split at h
    · exact h.1.symm ▸ le_rfl
    · obtain ⟨r, -, h⟩ := h
      cases call <;> cases r <;> simp only [IndexExec] at h <;> exact h.next_le

theorem Trace.next_le (h : Trace db l db') : db.nextLpageId ≤ db'.nextLpageId := by
  induction h with
  | nil => exact le_rfl
  | cons _ hexec _ ih => exact hexec.next_le.trans ih

/-- A new accessor holds the system tables. -/
theorem good_new (hn : 1 ≤ n) : Good (.new n) ⟨fun _ _ => none, fun _ _ => none⟩ .new where
  pos := hn
  shares :=
    { within := by
        rintro (f | f) q x hq <;> cases hq
      apart := by
        rintro (f | f) g q hq <;> exact absurd rfl hq
      below := by
        rintro (f | f) q hq <;> exact absurd rfl hq }
  covers := by rintro q p ⟨⟩
  tables oid := by rcases oid with _ | _ | _ | oid <;> rfl
  columns oid := by rcases oid with _ | _ | _ | oid <;> rfl
  indexes := rfl
  heap _ := ⟨[], .empty⟩
  index _ := Database.represents_mono BTree.Store.represents_empty (Nat.zero_le _)

/-- **Every run agrees with the database.** -/
theorem Good.trace (h : Good db P R) (htrace : Trace db l db') (hn : db'.nextLpageId ≤ 2 ^ 32) :
    R.Agrees l ∧ ∃ P', Good db' P' (R.afterAll l) := by
  induction htrace generalizing P R with
  | nil db => exact ⟨trivial, P, h⟩
  | cons hlegal hexec hrest ih =>
    obtain ⟨db₂, r₂, hexec₂, hend⟩ := h.returns hlegal
    obtain ⟨rfl, rfl⟩ := hexec.unique hexec₂
    obtain ⟨hans, P', hgood⟩ := hend (hrest.next_le.trans hn)
    obtain ⟨hagrees, hlast⟩ := ih hgood hn
    exact ⟨⟨hans, hagrees⟩, hlast⟩

end AccessorImpl
end Abdb
