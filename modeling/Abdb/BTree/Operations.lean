/-
# `insert`, `get` and `delete`

`src/accessor/btree.rs`.  Each operation is a machine (`Abdb.BTree.Machine`) whose
states are the await points of its async functions.  Function names are the source's;
a function with an await inside is cut there, the part after it being its `...Finish`.

Vectors that the source uses as stacks, `path` and `locked`, are lists with the top of
the stack first, so the page nearest to the leaf is at the head.
-/

import Abdb.BTree.Machine
import Abdb.Lib.Bytes

namespace Abdb
namespace BTree

/-- `key_from_bytes`: pad or truncate to 8 bytes, read as a little-endian `u64`. -/
def keyFromBytes (bytes : List UInt8) : ℕ :=
  (bytes.take 8).foldr (fun b acc => b.toNat + 256 * acc) 0

theorem keyFromBytes_lt (bytes : List UInt8) : keyFromBytes bytes < 2 ^ 64 := by
  calc keyFromBytes bytes < 256 ^ (bytes.take 8).length := Lib.ofLe_lt _
    _ ≤ 256 ^ 8 := Nat.pow_le_pow_right (by decide) (List.length_take_le ..)
    _ = 2 ^ 64 := rfl

/-- The bytes of a number of at most 8 bytes give it back. -/
theorem keyFromBytes_toLe {n k : ℕ} (hn : n ≤ 8) (hk : k < 256 ^ n) :
    keyFromBytes (Lib.toLe n k) = k := by
  show Lib.ofLe ((Lib.toLe n k).take 8) = k
  rw [List.take_of_length_le ((Lib.length_toLe ..).le.trans hn), Lib.ofLe_toLe hk]

/-- Every `u64` is the key of some bytes. -/
theorem exists_keyFromBytes {k : ℕ} (hk : k < 2 ^ 64) : ∃ bytes, keyFromBytes bytes = k :=
  ⟨Lib.toLe 8 k, keyFromBytes_toLe le_rfl hk⟩

/-- The page-type dispatch of the traversal loops: an inner page to descend through, a
leaf to stop at, or the error they return. -/
def dispatch (during : String) (id : LPageId) :
    Option Page → Except Error (BTreeInnerPage ⊕ BTreeLeafPage)
  | none => .error (.bufferError id)
  | some (.inner p) => .ok (.inl p)
  | some (.leaf p) => .ok (.inr p)
  | some (.other p) =>
    match PageType.tryFrom p.pageTypeId with
    | none => .error (.pageCorruption (.invalidPageType p.pageTypeId))
    | some t => .error (.pageCorruption (.unexpectedPageType t during))

/-- `BTreeLeafPage::new` on the buffer of a fetched page, with no look at its type. -/
def asLeaf (id : LPageId) : Option Page → Except Error BTreeLeafPage
  | none => .error (.bufferError id)
  | some (.leaf p) => .ok p
  | some _ => .error .outsideModel

/-- `BTreeInnerPage::new` on the buffer of a fetched page, with no look at its type. -/
def asInner (id : LPageId) : Option Page → Except Error BTreeInnerPage
  | none => .error (.bufferError id)
  | some (.inner p) => .ok p
  | some _ => .error .outsideModel

/-! ### Insert -/

/-- The await points of `insert`. -/
inductive InsertPc
  /-- `read_root_page` -/
  | start
  /-- `alloc_page` of the first leaf: the root pointer was `0` -/
  | allocFirst
  /-- `set_root_page` to the first leaf, whose guard is held -/
  | setRoot (newPage : LPageId)
  /-- `find_leaf_for_write`: the next page down, with the ancestors kept latched -/
  | findLeafForWrite (current : LPageId) (locked : List LPageId)
  /-- `split_leaf`: `alloc_page`, with the merged entries and the old sibling links -/
  | splitLeafAlloc (leaf : LPageId) (locked : List LPageId) (entries : List BTreeLeafEntry)
      (oldPrev oldNext : LPageId)
  /-- `split_leaf`: the old right sibling, whose `prev_page` is to change -/
  | splitLeafSibling (leaf : LPageId) (locked : List LPageId) (newLeaf : LPageId)
      (separator : ℕ) (oldNext : LPageId)
  /-- `split_inner`: `alloc_page`, with the merged separators -/
  | splitInnerAlloc (parent : LPageId) (locked : List LPageId) (sepKey : ℕ)
      (rightChild : LPageId) (entries : List BTreeInnerEntry) (oldLeftmost : LPageId)
  /-- `alloc_and_set_root`: `new_page` -/
  | newRootAlloc (sepKey : ℕ) (newChild : LPageId)
  /-- `alloc_and_set_root`: the file header, with the new root's guard held -/
  | newRootHeader (newRoot : LPageId) (sepKey : ℕ) (newChild : LPageId)
  | done (result : Except Error Unit)
deriving DecidableEq

namespace Insert

open BTreeInnerPage (maxKeys)

/-- Return an error, dropping every guard. -/
def fail (e : Error) : Out InsertPc := Out.goto (.done (.error e))

/-- `split_inner` up to `alloc_page`: merge the new separator into those of the page. -/
def splitInner (parent : LPageId) (locked : List LPageId) (page : BTreeInnerPage)
    (sepKey : ℕ) (rightChild : LPageId) : Out InsertPc :=
  match page.findSeparatorSlot sepKey with
  | (true, _) => fail (.pageCorruption (.text "duplicate separator during inner split"))
  | (false, pos) =>
    Out.goto (.splitInnerAlloc parent locked sepKey rightChild
      (page.entries.insertIdx pos ⟨sepKey, rightChild⟩) page.leftmostChild)

/-- `insert_into_ancestors_with_locks` up to its next await: put the separator into the
innermost latched ancestor, or split that page if it is full; with no ancestor left,
a new root is due. -/
def insertIntoAncestorsWithLocks (view : View) (locked : List LPageId) (sepKey : ℕ)
    (newChild : LPageId) : Out InsertPc :=
  match locked with
  | [] => Out.goto (.newRootAlloc sepKey newChild)
  | parent :: rest =>
    match asInner parent (view.page parent) with
    | .error e => fail e
    | .ok page =>
      if page.numKeys < maxKeys then
        match page.insertSeparator sepKey newChild with
        | .ok page' => ⟨[⟨parent, .inner page', false⟩], none, .done (.ok ())⟩
        | .error e => fail (.pageCorruption (.overlay "parent insert" e))
      else splitInner parent rest page sepKey newChild

/-- `split_inner` after `alloc_page`, and on into the next ancestor: the upper half goes
to the new page, the middle separator is pushed up, the lower half stays. -/
def splitInnerFinish (view : View) (newInner parent : LPageId) (locked : List LPageId)
    (entries : List BTreeInnerEntry) (oldLeftmost : LPageId) : Out InsertPc :=
  let mid := entries.length / 2
  match entries[mid]? with
  | none => fail .outsideModel
  | some pushedUp =>
    match (BTreeInnerPage.init newInner pushedUp.rightChild).insertSeparators
        (entries.drop (mid + 1)) with
    | (newPage, some e) =>
      ⟨[⟨newInner, .inner newPage, false⟩], none,
        .done (.error (.pageCorruption (.overlay "split new inner" e)))⟩
    | (newPage, none) =>
      match (BTreeInnerPage.init parent oldLeftmost).insertSeparators (entries.take mid) with
      | (oldPage, some e) =>
        ⟨[⟨newInner, .inner newPage, true⟩, ⟨parent, .inner oldPage, false⟩], none,
          .done (.error (.pageCorruption (.overlay "split old inner" e)))⟩
      | (oldPage, none) =>
        let ws : List Write := [⟨newInner, .inner newPage, true⟩, ⟨parent, .inner oldPage, false⟩]
        (insertIntoAncestorsWithLocks { view with page := writePages view.page ws } locked
          pushedUp.separatorKey newInner).after ws

/-- `split_leaf` after `alloc_page`: the upper half goes to the new leaf, the lower half
stays, both are linked, and the old right sibling is fetched if there is one. -/
def splitLeafFinish (view : View) (newLeaf leaf : LPageId) (locked : List LPageId)
    (entries : List BTreeLeafEntry) (oldPrev oldNext : LPageId) : Out InsertPc :=
  let mid := entries.length / 2
  match entries[mid]? with
  | none => fail .outsideModel
  | some first =>
    match (BTreeLeafPage.init newLeaf).insertEntries (entries.drop mid) with
    | (newPage, some e) =>
      ⟨[⟨newLeaf, .leaf newPage, false⟩], none,
        .done (.error (.pageCorruption (.overlay "split new leaf" e)))⟩
    | (newPage, none) =>
      let newPage := (newPage.setNextPage oldNext).setPrevPage leaf
      match (BTreeLeafPage.init leaf).insertEntries (entries.take mid) with
      | (oldPage, some e) =>
        ⟨[⟨newLeaf, .leaf newPage, true⟩, ⟨leaf, .leaf oldPage, false⟩], none,
          .done (.error (.pageCorruption (.overlay "split old leaf" e)))⟩
      | (oldPage, none) =>
        let oldPage := (oldPage.setNextPage newLeaf).setPrevPage oldPrev
        let ws : List Write := [⟨newLeaf, .leaf newPage, true⟩, ⟨leaf, .leaf oldPage, false⟩]
        if oldNext = 0 then
          (insertIntoAncestorsWithLocks { view with page := writePages view.page ws } locked
            first.key newLeaf).after ws
        else ⟨ws, none, .splitLeafSibling leaf locked newLeaf first.key oldNext⟩

/-- `split_leaf` at the old right sibling, and on into the ancestors. -/
def splitLeafSibling (view : View) (locked : List LPageId) (newLeaf : LPageId)
    (separator : ℕ) (oldNext : LPageId) : Out InsertPc :=
  match asLeaf oldNext (view.page oldNext) with
  | .error e => fail e
  | .ok sib =>
    let ws : List Write := [⟨oldNext, .leaf (sib.setPrevPage newLeaf), true⟩]
    (insertIntoAncestorsWithLocks { view with page := writePages view.page ws } locked
      separator newLeaf).after ws

/-- `insert` once `find_leaf_for_write` has latched the leaf: insert in place, or
`split_leaf` up to `alloc_page`. -/
def intoLeaf (key : ℕ) (rid : RecordId) (leaf : LPageId) (locked : List LPageId)
    (page : BTreeLeafPage) : Out InsertPc :=
  if page.needsSplit then
    match page.findSlot key with
    | (true, _) => fail (.pageCorruption (.text "duplicate key during leaf split"))
    | (false, pos) =>
      Out.goto (.splitLeafAlloc leaf locked
        (page.entries.insertIdx pos ⟨key, rid.pageId, rid.slotId⟩) page.prevPage page.nextPage)
  else
    match page.insertEntry key rid.pageId rid.slotId with
    | .ok page' => ⟨[⟨leaf, .leaf page', false⟩], none, .done (.ok ())⟩
    | .error e => fail (.pageCorruption (.overlay "leaf insert" e))

/-- One round of `find_leaf_for_write`, latches released above a safe page. -/
def findLeafForWrite (view : View) (key : ℕ) (rid : RecordId) (current : LPageId)
    (locked : List LPageId) : Out InsertPc :=
  match dispatch "latch-crabbing traversal" current (view.page current) with
  | .error e => fail e
  | .ok (.inl page) =>
    let locked := if page.isSafeForInsert then [] else locked
    Out.goto (.findLeafForWrite (page.findChild key) (current :: locked))
  | .ok (.inr page) =>
    intoLeaf key rid current (if page.isSafeForInsert then [] else locked) page

/-- `insert` of an empty tree after `alloc_page`: the root leaf with its first entry. -/
def firstLeaf (key : ℕ) (rid : RecordId) (newPage : LPageId) : Out InsertPc :=
  match (BTreeLeafPage.init newPage).insertEntry key rid.pageId rid.slotId with
  | .ok page => ⟨[⟨newPage, .leaf page, true⟩], none, .setRoot newPage⟩
  | .error e => fail (.pageCorruption (.overlay "leaf insert" e))

/-- The rest of `alloc_and_set_root` and of `insert_into_ancestors_with_locks`: the
header names the new root, whose first child is the old one. -/
def newRootFinish (view : View) (newRoot : LPageId) (sepKey : ℕ) (newChild : LPageId) :
    Out InsertPc :=
  match (BTreeInnerPage.init newRoot view.root).insertSeparator sepKey newChild with
  | .ok page => ⟨[⟨newRoot, .inner page, true⟩], some newRoot, .done (.ok ())⟩
  | .error e =>
    ⟨[⟨newRoot, .inner (.init newRoot view.root), false⟩], some newRoot,
      .done (.error (.pageCorruption (.overlay "new root insert" e)))⟩

/-- `insert`, from one await point to the next. -/
def resume (key : ℕ) (rid : RecordId) (view : View) (newId : LPageId) :
    InsertPc → Out InsertPc
  | .start => Out.goto (if view.root = 0 then .allocFirst else .findLeafForWrite view.root [])
  | .allocFirst => firstLeaf key rid newId
  | .setRoot newPage => ⟨[], some newPage, .done (.ok ())⟩
  | .findLeafForWrite current locked => findLeafForWrite view key rid current locked
  | .splitLeafAlloc leaf locked entries oldPrev oldNext =>
    splitLeafFinish view newId leaf locked entries oldPrev oldNext
  | .splitLeafSibling _ locked newLeaf separator oldNext =>
    splitLeafSibling view locked newLeaf separator oldNext
  | .splitInnerAlloc parent locked _ _ entries oldLeftmost =>
    splitInnerFinish view newId parent locked entries oldLeftmost
  | .newRootAlloc sepKey newChild => Out.goto (.newRootHeader newId sepKey newChild)
  | .newRootHeader newRoot sepKey newChild => newRootFinish view newRoot sepKey newChild
  | .done result => Out.goto (.done result)

/-- What `insert` waits for. -/
def await : InsertPc → Await
  | .start | .setRoot _ | .newRootHeader .. => .header
  | .allocFirst | .splitLeafAlloc .. | .splitInnerAlloc .. | .newRootAlloc .. => .newPage
  | .findLeafForWrite current _ => .page current .write
  | .splitLeafSibling _ _ _ _ oldNext => .page oldNext .write
  | .done _ => .nothing

/-- The pages whose write guards are alive at an await point. -/
def holds : InsertPc → List LPageId
  | .setRoot newPage => [newPage]
  | .findLeafForWrite _ locked => locked
  | .splitLeafAlloc leaf locked .. => leaf :: locked
  | .splitLeafSibling leaf locked .. => leaf :: locked
  | .splitInnerAlloc parent locked .. => parent :: locked
  | .newRootHeader newRoot .. => [newRoot]
  | _ => []

/-- `insert` of a key. -/
def machine (key : ℕ) (rid : RecordId) : Machine InsertPc := ⟨await, holds, resume key rid⟩

end Insert

/-! ### Get -/

/-- The await points of `get`. -/
inductive GetPc
  /-- `read_root_page` -/
  | start
  /-- `find_leaf`: the next page down -/
  | findLeaf (current : LPageId)
  /-- the leaf again, to look the key up -/
  | readLeaf (leaf : LPageId)
  | done (result : Except Error RecordId)
deriving DecidableEq

namespace Get

/-- One round of `find_leaf`: no latch is kept. -/
def findLeaf (view : View) (key : ℕ) (current : LPageId) : GetPc :=
  match dispatch "B-Tree traversal" current (view.page current) with
  | .error e => .done (.error e)
  | .ok (.inl page) => .findLeaf (page.findChild key)
  | .ok (.inr _) => .readLeaf current

/-- `get` on the leaf. -/
def readLeaf (view : View) (key : ℕ) (leaf : LPageId) : GetPc :=
  match asLeaf leaf (view.page leaf) with
  | .error e => .done (.error e)
  | .ok page =>
    match page.lookup key with
    | some r => .done (.ok r)
    | none => .done (.error .tupleNonExistent)

/-- `get`, from one await point to the next. -/
def resume (key : ℕ) (view : View) : GetPc → GetPc
  | .start => if view.root = 0 then .done (.error .tupleNonExistent) else .findLeaf view.root
  | .findLeaf current => findLeaf view key current
  | .readLeaf leaf => readLeaf view key leaf
  | .done result => .done result

/-- What `get` waits for. -/
def await : GetPc → Await
  | .start => .header
  | .findLeaf current => .page current .read
  | .readLeaf leaf => .page leaf .read
  | .done _ => .nothing

/-- `get` of a key: it holds no latch across an await and writes nothing. -/
def machine (key : ℕ) : Machine GetPc :=
  ⟨await, fun _ => [], fun view _ pc => Out.goto (resume key view pc)⟩

end Get

/-! ### Delete -/

/-- Information about a merge candidate pair. -/
structure MergeInfo where
  survivor : LPageId
  removed : LPageId
  sepIdx : ℕ
deriving DecidableEq

/-- The await points of `delete`.  The guard of the leaf stays alive through
`try_merge_leaf`. -/
inductive DeletePc
  /-- `read_root_page` -/
  | start
  /-- `find_leaf_with_path`: the next page down and the path so far -/
  | findLeafWithPath (root current : LPageId) (path : List LPageId)
  /-- the leaf, to delete the entry -/
  | fetchLeaf (root leaf : LPageId) (path : List LPageId)
  /-- `try_merge_leaf`: the parent -/
  | fetchParent (root leaf parent : LPageId)
  | fetchSurvivor (root leaf parent : LPageId) (info : MergeInfo)
  | fetchRemoved (root leaf parent : LPageId) (info : MergeInfo)
  /-- the right sibling of the removed leaf -/
  | fetchSibling (root leaf parent : LPageId) (info : MergeInfo) (removedNext : LPageId)
  /-- `set_root_page` after the root lost its last separator -/
  | setRoot (leaf survivor newRoot : LPageId)
  | done (result : Except Error Unit)
deriving DecidableEq

namespace Delete

open BTreeLeafPage (maxEntries)

def fail (e : Error) : Out DeletePc := Out.goto (.done (.error e))

/-- One round of `find_leaf_with_path`. -/
def findLeafWithPath (view : View) (key : ℕ) (root current : LPageId) (path : List LPageId) :
    Out DeletePc :=
  match dispatch "B-Tree traversal" current (view.page current) with
  | .error e => fail e
  | .ok (.inl page) => Out.goto (.findLeafWithPath root (page.findChild key) (current :: path))
  | .ok (.inr _) => Out.goto (.fetchLeaf root current path)

/-- `delete` on the leaf, and `try_merge_leaf` up to its first await. -/
def onLeaf (view : View) (key : ℕ) (rid : RecordId) (root leaf : LPageId)
    (path : List LPageId) : Out DeletePc :=
  match asLeaf leaf (view.page leaf) with
  | .error e => fail e
  | .ok page =>
    match page.findSlot key with
    | (false, _) => fail .tupleNonExistent
    | (true, pos) =>
      match page.entry pos with
      | .error e => fail (.pageCorruption (.overlay "leaf entry read" e))
      | .ok entry =>
        if entry.recordPage ≠ rid.pageId ∨ entry.recordSlot ≠ rid.slotId then
          fail .tupleNonExistent
        else
          match page.deleteEntry pos with
          | .error e => fail (.pageCorruption (.overlay "leaf delete failed" e))
          | .ok page' =>
            let next :=
              if page'.canMerge then
                match path with
                | [] => .done (.ok ())
                | parent :: _ => .fetchParent root leaf parent
              else .done (.ok ())
            ⟨[⟨leaf, .leaf page', true⟩], none, next⟩

/-- `find_merge_candidate`: the leftmost child merges with its right sibling, any other
child with its left one. -/
def findMergeCandidate (parent : BTreeInnerPage) (leaf : LPageId) : Option MergeInfo :=
  match parent.entries with
  | [] => none
  | first :: _ =>
    if leaf = parent.leftmostChild then some ⟨leaf, first.rightChild, 0⟩
    else scan parent.leftmostChild 0 parent.entries
where
  /-- The search for the entry whose child is the leaf; `left` is the child before the
  entry at index `i`. -/
  scan (left : LPageId) (i : ℕ) : List BTreeInnerEntry → Option MergeInfo
    | [] => none
    | e :: es =>
      if e.rightChild = leaf then some ⟨left, leaf, i⟩ else scan e.rightChild (i + 1) es

/-- `try_merge_leaf` on the parent. -/
def onParent (view : View) (root leaf parent : LPageId) : Out DeletePc :=
  match asInner parent (view.page parent) with
  | .error e => fail e
  | .ok page =>
    match findMergeCandidate page leaf with
    | none => Out.goto (.done (.ok ()))
    | some info => Out.goto (.fetchSurvivor root leaf parent info)

/-- The end of `try_merge_leaf`: the separator leaves the parent, and a root without
separators gives way to its only child. -/
def removeSeparator (view : View) (root leaf parent : LPageId) (info : MergeInfo) :
    Out DeletePc :=
  match asInner parent (view.page parent) with
  | .error e => fail e
  | .ok page =>
    match page.deleteSeparator info.sepIdx with
    | .error e => fail (.pageCorruption (.overlay "merge delete sep" e))
    | .ok page' =>
      ⟨[⟨parent, .inner page', true⟩], none,
        if parent = root ∧ page'.numKeys = 0 then
          .setRoot leaf info.survivor page'.leftmostChild
        else .done (.ok ())⟩

/-- `try_merge_leaf` with both leaves latched: merge if the entries fit. -/
def merge (view : View) (root leaf parent : LPageId) (info : MergeInfo) : Out DeletePc :=
  match asLeaf info.survivor (view.page info.survivor),
      asLeaf info.removed (view.page info.removed) with
  | .error e, _ => fail e
  | _, .error e => fail e
  | .ok survivor, .ok removed =>
    if maxEntries < survivor.numEntries + removed.numEntries then Out.goto (.done (.ok ()))
    else
      match survivor.insertEntries removed.entries with
      | (survivor', some e) =>
        ⟨[⟨info.survivor, .leaf survivor', false⟩], none,
          .done (.error (.pageCorruption (.overlay "merge insert" e)))⟩
      | (survivor', none) =>
        let ws : List Write :=
          [⟨info.survivor, .leaf (survivor'.setNextPage removed.nextPage), true⟩]
        if removed.nextPage = 0 then
          (removeSeparator { view with page := writePages view.page ws } root leaf parent
            info).after ws
        else ⟨ws, none, .fetchSibling root leaf parent info removed.nextPage⟩

/-- `try_merge_leaf` at the right sibling of the removed leaf. -/
def onSibling (view : View) (root leaf parent : LPageId) (info : MergeInfo)
    (removedNext : LPageId) : Out DeletePc :=
  match asLeaf removedNext (view.page removedNext) with
  | .error e => fail e
  | .ok sib =>
    let ws : List Write := [⟨removedNext, .leaf (sib.setPrevPage info.survivor), true⟩]
    (removeSeparator { view with page := writePages view.page ws } root leaf parent info).after ws

/-- `delete`, from one await point to the next. -/
def resume (key : ℕ) (rid : RecordId) (view : View) : DeletePc → Out DeletePc
  | .start =>
    if view.root = 0 then fail .tupleNonExistent
    else Out.goto (.findLeafWithPath view.root view.root [])
  | .findLeafWithPath root current path => findLeafWithPath view key root current path
  | .fetchLeaf root leaf path => onLeaf view key rid root leaf path
  | .fetchParent root leaf parent => onParent view root leaf parent
  | .fetchSurvivor root leaf parent info =>
    match view.page info.survivor with
    | none => fail (.bufferError info.survivor)
    | some _ => Out.goto (.fetchRemoved root leaf parent info)
  | .fetchRemoved root leaf parent info => merge view root leaf parent info
  | .fetchSibling root leaf parent info removedNext =>
    onSibling view root leaf parent info removedNext
  | .setRoot _ _ newRoot => ⟨[], some newRoot, .done (.ok ())⟩
  | .done result => Out.goto (.done result)

/-- What `delete` waits for. -/
def await : DeletePc → Await
  | .start | .setRoot .. => .header
  | .findLeafWithPath _ current _ => .page current .read
  | .fetchLeaf _ leaf _ => .page leaf .write
  | .fetchParent _ _ parent => .page parent .write
  | .fetchSurvivor _ _ _ info => .page info.survivor .write
  | .fetchRemoved _ _ _ info => .page info.removed .write
  | .fetchSibling _ _ _ _ removedNext => .page removedNext .write
  | .done _ => .nothing

/-- The pages whose write guards are alive at an await point. -/
def holds : DeletePc → List LPageId
  | .fetchParent _ leaf _ => [leaf]
  | .fetchSurvivor _ leaf parent _ => [parent, leaf]
  | .fetchRemoved _ leaf parent info => [info.survivor, parent, leaf]
  | .fetchSibling _ leaf parent info _ => [info.survivor, parent, leaf]
  | .setRoot leaf survivor _ => [survivor, leaf]
  | _ => []

/-- `delete` of a key bound to a record. -/
def machine (key : ℕ) (rid : RecordId) : Machine DeletePc :=
  ⟨await, holds, fun view _ pc => resume key rid view pc⟩

end Delete

end BTree
end Abdb
