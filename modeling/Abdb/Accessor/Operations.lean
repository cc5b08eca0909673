/-
# `AccessorImpl`

`src/accessor/accessor_impl.rs`: a table or an index is found by its oid in the catalog cache, and the
operation runs on its file.  All files share one buffer pool: the page ids that `new_page` gives out
come from one counter, and a record id names a page of the pool, so `heap::get` and `heap::delete` take
no notice of the file.  Of a file itself the pool has its header page; `first_page` of a heap file and
`root_page` of an index lie in different bytes of it.

`index_scan` is not among the calls here (`Abdb.Accessor.IndexScan` has it).  The heap operations read the pages
of heap files only, and the index operations those of indexes: a page of the other kind is absent from
what they see, so a call that asked for one would end in `BufferError`.
-/

import Abdb.Accessor.CatalogCache
import Abdb.Database.Local

namespace Abdb

open Catalog (Table Column Index)
open Lib Relation

/-- `get_table_columns`. -/
def CatalogCache.getTableColumns (cache : CatalogCache) (tableOid : OId) : Except AccessorError (List Column) :=
  match cache.columns tableOid with
  | some columns => .ok columns
  | none => .error (.notFound ("columns for table oid " ++ toString tableOid))

/-- A page of the pool, with the kind of the file that it was allocated for. -/
inductive DbPage
  | heap (p : HeapPage)
  | index (p : Page)

namespace DbPage

def heap? : DbPage → Option HeapPage
  | heap p => some p
  | index _ => none

def index? : DbPage → Option Page
  | heap _ => none
  | index p => some p

theorem heap_isPartialInv : Function.IsPartialInv heap heap? := by
  rintro p (q | q) <;> simp [heap?, eq_comm]

theorem index_isPartialInv : Function.IsPartialInv index index? := by
  rintro p (q | q) <;> simp [index?, eq_comm]

end DbPage

/-- `AccessorImpl` with the buffer pool: the catalog cache, the pages, what the file headers name, and
`next_lpage_id`. -/
structure AccessorImpl where
  catalog : CatalogCache
  page : LPageId → Option DbPage
  firstPage : FileId → LPageId
  rootPage : FileId → LPageId
  nextLpageId : LPageId

/-- An operation of the accessor with its arguments. -/
inductive AccessorCall
  | registerTable (table : Table) (columns : List Column)
  | registerIndex (index : Index)
  | getTableColumns (tableOid : OId)
  | table (tableOid : OId) (call : Heap.Call)
  | index (indexOid : OId) (call : BTree.Call)

/-- What an operation of the accessor returns. -/
inductive AccessorReply
  | registered (r : Except AccessorError Unit)
  | columns (r : Except AccessorError (List Column))
  | table (r : Except AccessorError Heap.Reply)
  | index (r : Except AccessorError BTree.Reply)

namespace AccessorImpl

/-- `new`, over a pool with initialised file headers whose next page id is `next`. -/
def new (next : LPageId) : AccessorImpl := ⟨.new, fun _ => none, fun _ => 0, fun _ => 0, next⟩

/-- What the operations of a heap file see. -/
def heapStore (db : AccessorImpl) (file : FileId) : Heap.Store :=
  ⟨pick DbPage.heap? db.page, db.firstPage file⟩

/-- What the operations of an index see. -/
def indexStore (db : AccessorImpl) (file : FileId) : BTree.Store :=
  ⟨pick DbPage.index? db.page, db.rootPage file, db.nextLpageId⟩

/-- The pool as an operation of a heap file leaves it. -/
def putHeap (db : AccessorImpl) (file : FileId) (st : Heap.Store) (next : LPageId) : AccessorImpl :=
  { db with
    page := overlay (embed .heap st.page) db.page
    firstPage := Function.update db.firstPage file st.firstPage
    nextLpageId := next }

/-- The pool as an operation of an index leaves it. -/
def putIndex (db : AccessorImpl) (file : FileId) (st : BTree.Store) : AccessorImpl :=
  { db with
    page := overlay (embed .index st.page) db.page
    rootPage := Function.update db.rootPage file st.root
    nextLpageId := st.allocated }

/-- The pool with a heap page written. -/
def write (db : AccessorImpl) : Option (LPageId × HeapPage) → AccessorImpl
  | none => db
  | some (id, p) => { db with page := Function.update db.page id (some (.heap p)) }

/-- `register_table`. -/
def registerTable (db : AccessorImpl) (table : Table) (columns : List Column) :
    AccessorImpl × Except AccessorError Unit :=
  let (cache, r) := (Registration.tableAndColumns table columns).apply db.catalog
  ({ db with catalog := cache }, r)

/-- `register_index`. -/
def registerIndex (db : AccessorImpl) (index : Index) : AccessorImpl × Except AccessorError Unit :=
  let (cache, r) := db.catalog.registerIndex index
  ({ db with catalog := cache }, r)

/-- `table_file_id`. -/
def tableFileId (db : AccessorImpl) (tableOid : OId) : Except AccessorError FileId :=
  match db.catalog.getTableByOid tableOid with
  | .ok table => .ok table.fileId
  | .error e => .error e

/-- `index_file_id`. -/
def indexFileId (db : AccessorImpl) (indexOid : OId) : Except AccessorError FileId :=
  match db.catalog.getIndexByOid indexOid with
  | .ok index => .ok index.fileId
  | .error e => .error e

/-- `heap::insert`, `get`, `delete` and `scan` on a file. -/
def HeapExec (db : AccessorImpl) (file : FileId) : Heap.Call → AccessorImpl → Heap.Reply → Prop
  | .insert txn tuple, db', .inserted r => ∃ st next,
    ReflTransGen (fun x y => y = Database.heapStep txn tuple x)
      ((db.heapStore file, db.nextLpageId), .start) ((st, next), .done r) ∧ db' = db.putHeap file st next
  | .get txn rid, db', .got r => db' = db ∧ r = Heap.get (db.heapStore file) txn rid
  | .delete txn rid, db', .deleted r => db' = db.write (Heap.delete (db.heapStore file) txn rid).1 ∧
    r = (Heap.delete (db.heapStore file) txn rid).2
  | .scan txn, db', .scanned items => db' = db ∧
    Heap.Drains (db.heapStore file) (.loop (Heap.scan (db.heapStore file) txn)) items
  | _, _, _ => False

/-- An index operation that takes its page ids from the counter, from its start to its end. -/
def Runs {Pc : Type} (M : BTree.Machine Pc) (db : AccessorImpl) (file : FileId) (pc pc' : Pc)
    (db' : AccessorImpl) : Prop :=
  ∃ st, ReflTransGen (fun x y => y = Database.indexStep M x) (db.indexStore file, pc) (st, pc') ∧
    db' = db.putIndex file st

/-- `btree::insert`, `get` and `delete` on a file. -/
def IndexExec (db : AccessorImpl) (file : FileId) : BTree.Call → AccessorImpl → BTree.Reply → Prop
  | .insert key rid, db', .unit r =>
    Runs (BTree.Insert.machine (BTree.keyFromBytes key) rid) db file .start (.done r) db'
  | .get key, db', .record r =>
    Runs (BTree.Get.machine (BTree.keyFromBytes key)) db file .start (.done r) db'
  | .delete key rid, db', .unit r =>
    Runs (BTree.Delete.machine (BTree.keyFromBytes key) rid) db file .start (.done r) db'
  | _, _, _ => False

/-- An operation of the accessor, run alone. -/
def Exec (db : AccessorImpl) : AccessorCall → AccessorImpl → AccessorReply → Prop
  | .registerTable table columns, db', .registered r => db.registerTable table columns = (db', r)
  | .registerIndex index, db', .registered r => db.registerIndex index = (db', r)
  | .getTableColumns oid, db', .columns r => db' = db ∧ r = db.catalog.getTableColumns oid
  | .table oid call, db', .table r =>
    match db.tableFileId oid with
    | .error e => db' = db ∧ r = .error e
    | .ok file => ∃ reply, r = .ok reply ∧ db.HeapExec file call db' reply
  | .index oid call, db', .index r =>
    match db.indexFileId oid with
    | .error e => db' = db ∧ r = .error e
    | .ok file => ∃ reply, r = .ok reply ∧ db.IndexExec file call db' reply
  | _, _, _ => False

/-- What the callers pass: tuples that a page has room for, and record ids that do not name a page of
an index. -/
def Legal (db : AccessorImpl) : AccessorCall → Prop
  | .table _ (.insert _ tuple) => tuple.length ≤ Heap.maxTupleSize
  | .table _ (.get _ rid) | .table _ (.delete _ rid) => ∀ p, db.page rid.pageId ≠ some (.index p)
  | _ => True

/-- A run: operations one after the other, with their replies. -/
inductive Trace : AccessorImpl → List (AccessorCall × AccessorReply) → AccessorImpl → Prop
  | nil (db : AccessorImpl) : Trace db [] db
  | cons {db db₁ db' : AccessorImpl} {c : AccessorCall} {r : AccessorReply}
    {l : List (AccessorCall × AccessorReply)} :
    db.Legal c → db.Exec c db₁ r → Trace db₁ l db' → Trace db ((c, r) :: l) db'

end AccessorImpl
end Abdb
