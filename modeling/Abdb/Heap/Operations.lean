/-
# `insert`, `get`, `delete` and `scan` of a heap file

`src/accessor/heap.rs`.  A heap file is a linked list of heap pages that the file header
starts.  `insert` is a machine whose states are its await points, as the index operations
are (`Abdb.BTree.Machine`); `get` and `delete` await one page, and are what the code does
once it has it.  `scan` reads the header and returns a stream, each round of which loads
at most one page.
-/

import Mathlib.Logic.Relation
import Abdb.BTree.Machine
import Abdb.Heap.Visibility
import Abdb.Page.Heap

namespace Abdb
namespace Heap

open BTree (Await Mode)

/-- `accessor::Error`, as far as the heap operations return it. -/
inductive Error
  /-- The pool cannot return the page: the directory has no page of this id. -/
  | bufferError (id : LPageId)
  | tupleNonExistent
  | tupleNotVisible (txn xmin xmax : TxnId)
  | alreadyDeleted (xmax : TxnId)
  | pageCorruption (text : String)
  /-- Not an error of the source: the code panics. -/
  | panic
deriving DecidableEq, Repr

/-- What the code sees of the pool: the bytes of every page and the first page that the file
header names. -/
structure View where
  page : LPageId → Option HeapPage
  firstPage : LPageId

/-- The outcome of running to the next await point: a page written, a new first page, the next
state. -/
structure Out (Pc : Type) where
  write : Option (LPageId × HeapPage)
  firstPage : Option LPageId
  pc : Pc

/-- Go on to a state and write nothing. -/
def Out.goto {Pc : Type} (pc : Pc) : Out Pc := ⟨none, none, pc⟩

/-! ### Insert -/

/-- The await points of `insert`. -/
inductive InsertPc
  /-- the file header, to read the first page -/
  | start
  /-- a page of the list; the first page is kept -/
  | walk (firstPage current : LPageId)
  /-- `new_page`: no page of the list has space -/
  | alloc (firstPage : LPageId)
  /-- the file header, to prepend the new page, whose guard is held -/
  | link (firstPage newPage : LPageId) (slotId : SlotId)
  | done (result : Except Error RecordId)
deriving DecidableEq

namespace Insert

/-- The next page of the list, or a new one at its end. -/
def walkTo (firstPage current : LPageId) : InsertPc :=
  if current = 0 then .alloc firstPage else .walk firstPage current

/-- `insert` at a page of the list. -/
def onPage (view : View) (fullTuple : List UInt8) (firstPage current : LPageId) : Out InsertPc :=
  match view.page current with
  | none => .goto (.done (.error (.bufferError current)))
  | some page =>
    match page.insert fullTuple with
    | (page', .ok slotId) => ⟨some (current, page'), none, .done (.ok ⟨current, slotId⟩)⟩
    | (page', .error .panic) => ⟨some (current, page'), none, .done (.error .panic)⟩
    | (page', .error _) => ⟨some (current, page'), none, walkTo firstPage page'.nextPage⟩

/-- `insert` at the page of zeros that `new_page` returned. -/
def onNewPage (fullTuple : List UInt8) (firstPage newPage : LPageId) : Out InsertPc :=
  match (HeapPage.zeroed.init.setNextPage firstPage).insert fullTuple with
  | (page, .ok slotId) => ⟨some (newPage, page), none, .link firstPage newPage slotId⟩
  | (page, .error .panic) => ⟨some (newPage, page), none, .done (.error .panic)⟩
  | (page, .error _) =>
    ⟨some (newPage, page), none, .done (.error (.pageCorruption "insert into fresh page failed"))⟩

/-- `insert`, from one await point to the next; `newId` is the id `new_page` returned, if that
is what it waited for. -/
def resume (txn : Txn) (tuple : List UInt8) (view : View) (newId : LPageId) :
    InsertPc → Out InsertPc
  | .start => .goto (walkTo view.firstPage view.firstPage)
  | .walk firstPage current => onPage view (makeHeader txn.id ++ tuple) firstPage current
  | .alloc firstPage => onNewPage (makeHeader txn.id ++ tuple) firstPage newId
  | .link _ newPage slotId => ⟨none, some newPage, .done (.ok ⟨newPage, slotId⟩)⟩
  | .done result => .goto (.done result)

/-- What `insert` waits for. -/
def await : InsertPc → Await
  | .start | .link .. => .header
  | .walk _ current => .page current .write
  | .alloc _ => .newPage
  | .done _ => .nothing

/-- The pages whose write guards are alive at an await point. -/
def holds : InsertPc → List LPageId
  | .link _ newPage _ => [newPage]
  | _ => []

end Insert

/-! ### Get and delete -/

/-- The bytes of a tuple with a header: `get_data` and the length check after it. -/
def fetch (view : View) (rid : RecordId) : Except Error (HeapPage × List UInt8) :=
  match view.page rid.pageId with
  | none => .error (.bufferError rid.pageId)
  | some page =>
    match page.getData rid.slotId with
    | .error _ => .error .tupleNonExistent
    | .ok data =>
      if data = [] ∨ data.length < tupleHeaderSize then .error .tupleNonExistent
      else .ok (page, data)

/-- `get`: a single tuple by its record id. -/
def get (view : View) (txn : Txn) (rid : RecordId) : Except Error (List UInt8) :=
  match fetch view rid with
  | .error e => .error e
  | .ok (_, data) =>
    if isVisible data txn then .ok (data.drop tupleHeaderSize)
    else .error (.tupleNotVisible txn.id (readXmin data) (readXmax data))

/-- `write_xmax` in the bytes of a slot. -/
def writeXmax (page : HeapPage) (slotId : SlotId) (xmax : TxnId) : HeapPage :=
  page.write ((page.slot slotId).offset + 8) (Lib.toLe 8 xmax.toNat)

/-- `delete`: set the XMAX of a visible tuple, with the page it writes. -/
def delete (view : View) (txn : Txn) (rid : RecordId) :
    Option (LPageId × HeapPage) × Except Error Unit :=
  match fetch view rid with
  | .error e => (none, .error e)
  | .ok (page, data) =>
    if isVisible data txn then
      if readXmax data ≠ 0 then (none, .error (.alreadyDeleted (readXmax data)))
      else (some (rid.pageId, writeXmax page rid.slotId txn.id), .ok ())
    else (none, .error (.tupleNotVisible txn.id (readXmin data) (readXmax data)))

/-! ### Scan -/

/-- What a scan yields: a tuple with its record id, or an error. -/
abbrev Item := Except Error (List UInt8 × RecordId)

/-- `HeapScanState`. -/
structure ScanState where
  currentPage : LPageId
  buffered : List (List UInt8 × RecordId)
  bufIdx : ℕ
  txn : Txn
deriving DecidableEq

/-- `scan` once it has the file header: the state of a fresh stream. -/
def scan (view : View) (txn : Txn) : ScanState := ⟨view.firstPage, [], 0, txn⟩

/-- The loop over the slots of a page. -/
def pageRows (page : HeapPage) (id : LPageId) (txn : Txn) : List (List UInt8 × RecordId) :=
  (List.range page.numSlots).filterMap fun slot =>
    match page.getData slot with
    | .error _ => none
    | .ok data =>
      if data = [] then none
      else if isVisible data txn then some (data.drop tupleHeaderSize, ⟨id, slot⟩)
      else none

/-- Where a stream is: in the loop of a poll, or at its end. -/
inductive StreamPc
  | loop (s : ScanState)
  | ended
deriving DecidableEq

/-- One round of the loop of a poll, with the item it yields. -/
def streamStep (view : View) : StreamPc → Option Item × StreamPc
  | .ended => (none, .ended)
  | .loop s =>
    match s.buffered[s.bufIdx]? with
    | some item => (some (.ok item), .loop { s with bufIdx := s.bufIdx + 1 })
    | none =>
      if s.currentPage = 0 then (none, .ended)
      else
        match view.page s.currentPage with
        | none => (some (.error (.bufferError s.currentPage)), .loop s)
        | some page =>
          (none, .loop { s with
            currentPage := page.nextPage
            buffered := pageRows page s.currentPage s.txn
            bufIdx := 0 })

/-- Draining the stream yields these items, and then it ends. -/
inductive Drains (view : View) : StreamPc → List Item → Prop
  | ended : Drains view .ended []
  | step {pc pc' : StreamPc} {o : Option Item} {l : List Item} :
    streamStep view pc = (o, pc') → pc ≠ .ended → Drains view pc' l → Drains view pc (o.toList ++ l)

/-! ### The store -/

/-- A page store that returns the bytes last written, and the file header. -/
abbrev Store := View

namespace Store

/-- A heap file just initialised: no pages and `first_page = 0`. -/
def empty : Store := ⟨fun _ => none, 0⟩

/-- Put the page that an operation writes into the store. -/
def put (st : Store) (w : Option (LPageId × HeapPage)) : Store :=
  match w with
  | none => st
  | some (id, page) => { st with page := Function.update st.page id (some page) }

/-- Put an outcome into the store. -/
def apply {Pc : Type} (st : Store) (o : Out Pc) : Store :=
  { st.put o.write with firstPage := o.firstPage.getD st.firstPage }

/-- An id that `new_page` may return. -/
def Fresh (st : Store) (id : LPageId) : Prop := id ≠ 0 ∧ id < 2 ^ 32 ∧ st.page id = none

/-- `new_page`: a page of zeros with a new id. -/
def newPage (st : Store) (id : LPageId) : Store := st.put (some (id, .zeroed))

end Store

/-- One step of an insert over the store: what it waited for arrives and it runs to its next
await point. -/
def Insert.step (txn : Txn) (tuple : List UInt8) (newId : LPageId) (st : Store) (pc : InsertPc) :
    Store × InsertPc :=
  match Insert.await pc with
  | .nothing => (st, pc)
  | .newPage =>
    let o := resume txn tuple (st.newPage newId) newId pc
    ((st.newPage newId).apply o, o.pc)
  | _ =>
    let o := resume txn tuple st 0 pc
    (st.apply o, o.pc)

end Heap
end Abdb
