/-
# The page directory

`src/storage/directory/directory.rs`.  A `BTreePageDirectory` is a file of directory
pages, a cache over it with the set of pages to be flushed, the page counter and the root
page.  Each of these is behind a lock of its own that a call takes for one access at a
time, so a call is a machine whose states are the points between two such accesses, each
with the locals that live across it, and `step` is one access with the code up to the
next one.  Run by itself a machine is the function of the source; run among others it
takes its steps at any time between theirs.

`DirPageId` is a `u32` read as a natural number.  The counter that hands them out is
only ever increased by one.
-/

import Mathlib.Logic.Function.Basic
import Abdb.Page.Directory

namespace Abdb

/-- The `Debug` text of an overlay error. -/
def OverlayError.debug : OverlayError → String
  | .pageFull capacity attempted =>
    s!"PageFull \x7b capacity: {capacity}, attempted: {attempted} \x7d"
  | .duplicateKey key => s!"DuplicateKey \x7b key: {key} \x7d"
  | .indexOutOfBounds index max => s!"IndexOutOfBounds \x7b index: {index}, max: {max} \x7d"

namespace Directory

/-- Page id within the directory file. -/
abbrev DirPageId := ℕ

/-- A page of the directory file, read under the overlay its type byte names. -/
inductive DirPage
  | header (h : DirectoryFileHeader)
  | inner (p : DirectoryInnerPage)
  | leaf (p : DirectoryLeafPage)
deriving DecidableEq, Repr

/-- `directory::Error`. -/
inductive Error
  /-- `IOError`: here, a page past the end of the file. -/
  | ioError
  | pageNotFound (id : LPageId)
  | pageCorruption (msg : String)
  | duplicatePage (id : LPageId)
  /-- Not an error of the source.  It marks the steps whose outcome the model leaves
  open: a page read under the overlay of another page type, or an index past the end
  of a vector. -/
  | outsideModel
deriving DecidableEq, Repr

/-- A directory: the file, the cached pages, which of them are to be flushed, the next
page to allocate and the root page. -/
structure BTreePageDirectory where
  file : DirPageId → Option DirPage
  cache : DirPageId → Option DirPage
  dirty : DirPageId → Bool
  nextDirPage : DirPageId
  rootPage : DirPageId

/-- The calls of the trait `PageDirectory` about one logical page. -/
inductive Op
  | lookup (pageId : LPageId)
  | addPage (pageId : LPageId) (physicalId : PPageId)
  | updatePage (pageId : LPageId) (physicalId : PPageId)
  | deletePage (pageId : LPageId)
deriving DecidableEq, Repr

/-- The logical page a call is about. -/
def Op.key : Op → LPageId
  | .lookup k => k
  | .addPage k _ => k
  | .updatePage k _ => k
  | .deletePage k => k

/-- What a call returns if it succeeds: a location, or `()`. -/
inductive Reply
  | found (physicalId : PPageId)
  | unit
deriving DecidableEq, Repr

/-- What a call goes on with when `read_page` has returned.  A path is listed innermost
page first, as `insert_into_ancestors` goes through it. -/
inductive Reading
  /-- the loop of `find_leaf` and `find_leaf_with_path` -/
  | descend (op : Op) (path : List DirPageId)
  /-- the leaf, read again by the call itself -/
  | leaf (op : Op) (path : List DirPageId)
  /-- the old right sibling of a leaf that splits -/
  | sibling (leafId : DirPageId) (old : DirectoryLeafPage) (path : List DirPageId)
      (newLeaf : DirPageId) (sep : ℕ)
  /-- a page of the path, in `insert_into_ancestors` -/
  | parent (path : List DirPageId) (sep : ℕ) (newChild : DirPageId)
  /-- the header page, in `set_root_page` -/
  | header (newRoot : DirPageId)
deriving DecidableEq, Repr

/-- What a call goes on with when `alloc_dir_page` has returned. -/
inductive Allocating
  | firstLeaf (pageId : LPageId) (physicalId : PPageId)
  | splitLeaf (leafId : DirPageId) (page : DirectoryLeafPage)
      (entries : List (LPageId × PPageId)) (path : List DirPageId)
  | splitInner (innerId : DirPageId) (page : DirectoryInnerPage)
      (entries : List DirectoryInnerEntry) (path : List DirPageId)
  | newRoot (oldRoot : DirPageId) (sep : ℕ) (newChild : DirPageId)
deriving DecidableEq, Repr

/-- Where a call stands. -/
inductive Pc
  /-- about to read `root_page` for the first time -/
  | start (op : Op)
  /-- about to read `root_page` in `find_leaf` or `find_leaf_with_path` -/
  | locate (op : Op)
  /-- in `read_page`, about to look into the cache -/
  | readPage (id : DirPageId) (r : Reading)
  /-- in `read_page`, about to read the file -/
  | readFile (id : DirPageId) (r : Reading)
  /-- in `read_page`, about to cache the page it has read from the file -/
  | cachePage (id : DirPageId) (page : DirPage) (r : Reading)
  /-- in `write_page`, about to put a page into the cache -/
  | writePage (id : DirPageId) (page : DirPage) (next : Pc)
  /-- in `write_page`, about to put the page into the dirty set -/
  | markDirty (id : DirPageId) (next : Pc)
  /-- in `alloc_dir_page` -/
  | alloc (a : Allocating)
  /-- at the end of `insert_into_ancestors`, about to read `root_page` -/
  | oldRoot (sep : ℕ) (newChild : DirPageId)
  /-- in `set_root_page`, about to set `root_page` -/
  | setRoot (newRoot : DirPageId)
  /-- in `set_root_page`, about to read `next_dir_page` -/
  | nextPageId (newRoot : DirPageId)
  | done (result : Except Error Reply)
deriving DecidableEq, Repr

namespace Pc

def ok : Pc := .done (.ok .unit)

def fail (e : Error) : Pc := .done (.error e)

/-- `Error::PageCorruption(format!("{what}: {e:?}"))`. -/
def corrupt (what : String) (e : OverlayError) : Pc :=
  fail (.pageCorruption (what ++ ": " ++ e.debug))

end Pc

/-- `insert_into_ancestors` from the innermost page of the path on. -/
def insertIntoAncestors (path : List DirPageId) (sep : ℕ) (newChild : DirPageId) : Pc :=
  match path with
  | [] => .oldRoot sep newChild
  | parentId :: path => .readPage parentId (.parent path sep newChild)

/-- `add_page` after the two halves of a leaf are written. -/
def afterSplitLeaf (leafId : DirPageId) (path : List DirPageId) (newLeaf : DirPageId)
    (sep : ℕ) : Pc :=
  if path.isEmpty then .alloc (.newRoot leafId sep newLeaf)
  else insertIntoAncestors path sep newLeaf

/-- `split_leaf` up to the allocation of the new leaf. -/
def splitLeaf (leafId : DirPageId) (page : DirectoryLeafPage) (path : List DirPageId)
    (extraKey : LPageId) (extraPPage : PPageId) : Pc :=
  let entries := DirectoryLeafPage.pairs page.entries
  match Lib.findSlot Prod.fst entries extraKey with
  | (true, _) => .fail (.duplicatePage extraKey)
  | (false, pos) =>
    .alloc (.splitLeaf leafId page (entries.insertIdx pos (extraKey, extraPPage)) path)

/-- `split_leaf` from the rebuilding of the old leaf on. -/
def rebuildLeaf (leafId : DirPageId) (page : DirectoryLeafPage)
    (lower : List (LPageId × PPageId)) (path : List DirPageId) (newLeaf : DirPageId) (sep : ℕ) :
    Pc :=
  match (DirectoryLeafPage.init leafId).insertEntries lower with
  | .error e => .corrupt "split old leaf insert failed" e
  | .ok old =>
    let old := (old.setNextPage newLeaf).setPrevPage page.prevPage
    if page.nextPage ≠ 0 then .readPage page.nextPage (.sibling leafId old path newLeaf sep)
    else .writePage leafId (.leaf old) (afterSplitLeaf leafId path newLeaf sep)

/-- `split_leaf` with its new leaf. -/
def splitLeafFinish (newLeaf leafId : DirPageId) (page : DirectoryLeafPage)
    (entries : List (LPageId × PPageId)) (path : List DirPageId) : Pc :=
  let mid := entries.length / 2
  match entries[mid]? with
  | none => .fail .outsideModel
  | some (sep, _) =>
    match (DirectoryLeafPage.init newLeaf).insertEntries (entries.drop mid) with
    | .error e => .corrupt "split insert failed" e
    | .ok upper =>
      .writePage newLeaf (.leaf ((upper.setNextPage page.nextPage).setPrevPage leafId))
        (rebuildLeaf leafId page (entries.take mid) path newLeaf sep)

/-- `split_inner` up to the allocation of the new page. -/
def splitInner (innerId : DirPageId) (page : DirectoryInnerPage) (path : List DirPageId)
    (sep : ℕ) (rightChild : DirPageId) : Pc :=
  match Lib.findSlot BTreeInnerEntry.separatorKey page.entries sep with
  | (true, _) => .fail (.pageCorruption "duplicate separator in inner split")
  | (false, pos) =>
    .alloc (.splitInner innerId page (page.entries.insertIdx pos ⟨sep, rightChild⟩) path)

/-- `split_inner` from the rebuilding of the old page on. -/
def rebuildInner (innerId : DirPageId) (page : DirectoryInnerPage)
    (lower : List DirectoryInnerEntry) (path : List DirPageId) (newInner : DirPageId)
    (pushedUp : ℕ) : Pc :=
  match (BTreeInnerPage.init innerId page.leftmostChild).insertSeparators lower with
  | (_, some e) => .corrupt "split old inner insert failed" e
  | (old, none) =>
    .writePage innerId (.inner old) (insertIntoAncestors path pushedUp newInner)

/-- `split_inner` with its new page. -/
def splitInnerFinish (newInner innerId : DirPageId) (page : DirectoryInnerPage)
    (entries : List DirectoryInnerEntry) (path : List DirPageId) : Pc :=
  let mid := entries.length / 2
  match entries[mid]? with
  | none => .fail .outsideModel
  | some pushedUp =>
    match (BTreeInnerPage.init newInner pushedUp.rightChild).insertSeparators
      (entries.drop (mid + 1)) with
    | (_, some e) => .corrupt "split inner insert failed" e
    | (upper, none) =>
      .writePage newInner (.inner upper)
        (rebuildInner innerId page (entries.take mid) path newInner pushedUp.separatorKey)

/-- One page of the path in `insert_into_ancestors`. -/
def insertIntoParent (parentId : DirPageId) (page : DirectoryInnerPage) (path : List DirPageId)
    (sep : ℕ) (newChild : DirPageId) : Pc :=
  if BTreeInnerPage.maxKeys ≤ page.numKeys then splitInner parentId page path sep newChild
  else
    match page.insertSeparator sep newChild with
    | .error e => .corrupt "ancestor insert failed" e
    | .ok page' => .writePage parentId (.inner page') .ok

/-- What each call does with its leaf. -/
def atLeaf (leafId : DirPageId) (page : DirectoryLeafPage) (path : List DirPageId) : Op → Pc
  | .lookup pageId =>
    match page.lookup pageId with
    | some physicalId => .done (.ok (.found physicalId))
    | none => .fail (.pageNotFound pageId)
  | .addPage pageId physicalId =>
    if DirectoryLeafPage.maxEntries ≤ page.numEntries then
      splitLeaf leafId page path pageId physicalId
    else
      match page.insertEntry pageId physicalId with
      | .error e => .corrupt "leaf insert failed" e
      | .ok page' => .writePage leafId (.leaf page') .ok
  | .updatePage pageId physicalId =>
    match page.updateEntry pageId physicalId with
    | .error e => .corrupt "update failed" e
    | .ok (_, false) => .fail (.pageNotFound pageId)
    | .ok (page', true) => .writePage leafId (.leaf page') .ok
  | .deletePage pageId =>
    match page.deleteByKey pageId with
    | .error e => .corrupt "delete failed" e
    | .ok (_, false) => .fail (.pageNotFound pageId)
    | .ok (page', true) => .writePage leafId (.leaf page') .ok

/-- `add_page` calls the tree empty where the others find no page. -/
def noLeaf : Op → Pc
  | .addPage .. => .fail (.pageCorruption "unexpected empty tree")
  | op => .fail (.pageNotFound op.key)

/-- The code after `read_page` has returned a page. -/
def resume (id : DirPageId) (page : DirPage) : Reading → Pc
  | .descend op path =>
    match page with
    | .inner p => .readPage (p.findChild op.key) (.descend op (id :: path))
    | .leaf _ =>
      match op with
      | .addPage .. => if id = 0 then noLeaf op else .readPage id (.leaf op path)
      | _ => .readPage id (.leaf op path)
    | .header _ =>
      .fail (.pageCorruption "unexpected page type DirectoryFileHeader in directory B-tree")
  | .leaf op path =>
    match page with
    | .leaf p => atLeaf id p path op
    | _ => .fail .outsideModel
  | .sibling leafId old path newLeaf sep =>
    match page with
    | .leaf sib =>
      .writePage id (.leaf (sib.setPrevPage newLeaf))
        (.writePage leafId (.leaf old) (afterSplitLeaf leafId path newLeaf sep))
    | _ => .fail .outsideModel
  | .parent path sep newChild =>
    match page with
    | .inner p => insertIntoParent id p path sep newChild
    | _ => .fail .outsideModel
  | .header newRoot =>
    match page with
    | .header _ => .nextPageId newRoot
    | _ => .fail .outsideModel

/-- The code after `alloc_dir_page` has returned a page id. -/
def allocated (id : DirPageId) : Allocating → Pc
  | .firstLeaf pageId physicalId =>
    match (DirectoryLeafPage.init id).insertEntry pageId physicalId with
    | .error e => .corrupt "leaf insert failed" e
    | .ok page => .writePage id (.leaf page) (.setRoot id)
  | .splitLeaf leafId page entries path => splitLeafFinish id leafId page entries path
  | .splitInner innerId page entries path => splitInnerFinish id innerId page entries path
  | .newRoot oldRoot sep newChild =>
    match (BTreeInnerPage.init id oldRoot).insertSeparator sep newChild with
    | .error e => .corrupt "new root insert failed" e
    | .ok page => .writePage id (.inner page) (.setRoot id)

/-- **One access to the directory** and the code up to the next. -/
def step (d : BTreePageDirectory) : Pc → BTreePageDirectory × Pc
  | .start op =>
    if d.rootPage = 0 then
      match op with
      | .addPage pageId physicalId => (d, .alloc (.firstLeaf pageId physicalId))
      | op => (d, .fail (.pageNotFound op.key))
    else (d, .locate op)
  | .locate op =>
    if d.rootPage = 0 then (d, noLeaf op) else (d, .readPage d.rootPage (.descend op []))
  | .readPage id r =>
    match d.cache id with
    | some page => (d, resume id page r)
    | none => (d, .readFile id r)
  | .readFile id r =>
    match d.file id with
    | some page => (d, .cachePage id page r)
    | none => (d, .fail .ioError)
  | .cachePage id page r =>
    ({ d with cache := Function.update d.cache id (some page) }, resume id page r)
  | .writePage id page next =>
    ({ d with cache := Function.update d.cache id (some page) }, .markDirty id next)
  | .markDirty id next => ({ d with dirty := Function.update d.dirty id true }, next)
  | .alloc a => ({ d with nextDirPage := d.nextDirPage + 1 }, allocated d.nextDirPage a)
  | .oldRoot sep newChild => (d, .alloc (.newRoot d.rootPage sep newChild))
  | .setRoot newRoot => ({ d with rootPage := newRoot }, .readPage 0 (.header newRoot))
  | .nextPageId newRoot =>
    (d, .writePage 0 (.header ⟨d.nextDirPage, newRoot⟩) .ok)
  | .done result => (d, .done result)

namespace BTreePageDirectory

/-- `open` on a path where there is no file: `init_new` writes the header page. -/
def initNew : BTreePageDirectory where
  file := Function.update (fun _ => none) 0 (some (.header .init))
  cache := fun _ => none
  dirty := fun _ => false
  nextDirPage := 1
  rootPage := 0

/-- `open` on an existing file: `load_header`. -/
def loadHeader (file : DirPageId → Option DirPage) : Except Error BTreePageDirectory :=
  match file 0 with
  | some (.header h) =>
    .ok { file, cache := fun _ => none, dirty := fun _ => false,
          nextDirPage := if h.nextPageId = 0 then 1 else h.nextPageId,
          rootPage := h.dirRootPage }
  | some _ => .error (.pageCorruption "invalid directory header")
  | none => .error .ioError

/-- `flush_all_dirty`: every dirty page that is cached is written to the file. -/
def flushAllDirty (d : BTreePageDirectory) : BTreePageDirectory :=
  { d with
    file := fun id => if d.dirty id then (d.cache id).orElse fun _ => d.file id else d.file id
    dirty := fun _ => false }

/-- The page that `read_page` returns when nothing else runs. -/
def page (d : BTreePageDirectory) (id : DirPageId) : Option DirPage :=
  match d.cache id with
  | some p => some p
  | none => d.file id

end BTreePageDirectory

end Directory
end Abdb
