/-
# Where an addition stands

What is true of a call of `add_page` at each point between two accesses, whatever the other
calls do (`Stands`).  A call may hold a page that it has allocated and that the tree does not
have yet, it may owe a page of the tree the separator in its parent, and its mapping may be
in the tree.  All it knows about pages other than its own is where they are in the tree and
where their keys start, which never changes, and what it read itself (`Stands.mono`).
-/

import Abdb.Directory.Concurrent

namespace Abdb
namespace Directory

open Lib

/-- What a call has at stake: a page it has allocated and that is not in the tree, a page of
the tree it owes a separator, and whether its mapping is in the tree. -/
structure Stake where
  held : Option DirPageId
  owed : Option DirPageId
  landed : Prop

namespace Stake

def nothing : Stake := ⟨none, none, False⟩

def landing : Stake := ⟨none, none, True⟩

def holding (n : DirPageId) : Stake := ⟨some n, none, False⟩

def owing (x : DirPageId) : Stake := ⟨none, some x, True⟩

def both (n x : DirPageId) : Stake := ⟨some n, some x, True⟩

end Stake

/-- The call is in `read_page`. -/
def ReadsPage (id : DirPageId) (rd : Reading) (pc : Pc) : Prop :=
  pc = .readPage id rd ∨ pc = .readFile id rd ∨ ∃ pg, pc = .cachePage id pg rd

/-- The way up from page `p` on level `ℓ` to the root that the call went down from. -/
def Up (F : Layout) (root : DirPageId) : DirPageId → ℕ → List DirPageId → Prop
  | p, _, [] => p = root
  | _, ℓ, q :: path => (∃ c, F.At q (ℓ + 1) c) ∧ Up F root q (ℓ + 1) path

/-- The leaf that the entry `y` goes into, as the call read it. -/
structure Target (F : Layout) (m : Memo) (y : DirectoryLeafEntry) (p : DirPageId)
    (l : DirectoryLeafPage) (path : List DirPageId) : Prop where
  place : ∃ a, F.At p 0 a
  read : m.pages p = some (.leaf l)
  aim : m.aim = some (p, y.searchKey)
  absent : ∀ z ∈ l.entries, z.searchKey ≠ y.searchKey
  next : l.nextPage ≠ 0 → l.nextPage ≠ p ∧ ∃ a, F.At l.nextPage 0 a
  up : Up F m.root p 0 path

/-- The leaf is to be cut between `xs` and `e :: ys`. -/
structure LeafCut (F : Layout) (m : Memo) (y : DirectoryLeafEntry) (p : DirPageId)
    (l : DirectoryLeafPage) (path : List DirPageId) (xs : List DirectoryLeafEntry)
    (e : DirectoryLeafEntry) (ys : List DirectoryLeafEntry) : Prop where
  target : Target F m y p l path
  merged : insertBy DirectoryLeafEntry.searchKey y l.entries = xs ++ e :: ys
  lower : xs.length = 127
  upper : (e :: ys).length = 127

/-- The page that the separator `s` of page `x` goes into, as the call read it. -/
structure ParentTarget (F : Layout) (m : Memo) (s : ℕ) (x : DirPageId) (ℓ : ℕ) (q : DirPageId)
    (i : DirectoryInnerPage) (path : List DirPageId) : Prop where
  place : ∃ c, F.At q (ℓ + 1) c
  child : F.At x ℓ s
  read : m.pages q = some (.inner i)
  aim : m.aim = some (q, s)
  up : Up F m.root q (ℓ + 1) path

/-- The page is to be cut around `e`. -/
structure InnerCut (F : Layout) (m : Memo) (s : ℕ) (x : DirPageId) (ℓ : ℕ) (q : DirPageId)
    (i : DirectoryInnerPage) (path : List DirPageId) (xs : List DirectoryInnerEntry)
    (e : DirectoryInnerEntry) (ys : List DirectoryInnerEntry) : Prop where
  target : ParentTarget F m s x ℓ q i path
  merged : insertBy BTreeInnerEntry.separatorKey ⟨s, x⟩ i.entries = xs ++ e :: ys
  lower : xs.length = 127
  upper : ys.length = 127

/-- **Where an addition of the entry `newEntry k r` stands.** -/
inductive Stands (F : Layout) (page : Pages) (k : LPageId) (r : PPageId) (m : Memo) :
    Pc → Stake → Prop
  | start : Stands F page k r m (.start (.addPage k r)) .nothing
  | locate : Stands F page k r m (.locate (.addPage k r)) .nothing
  | descend {p a ℓ path pc} (reads : ReadsPage p (.descend (.addPage k r) path) pc)
    (place : F.At p ℓ a) (start : a ≤ k) (up : Up F m.root p ℓ path) :
    Stands F page k r m pc .nothing
  | leaf {p a path pc} (reads : ReadsPage p (.leaf (.addPage k r) path) pc)
    (place : F.At p 0 a) (up : Up F m.root p 0 path) : Stands F page k r m pc .nothing
  | insert {p l path} (target : Target F m (newEntry k r) p l path)
    (room : l.numEntries < DirectoryLeafPage.maxEntries) :
    Stands F page k r m (.writePage p (.leaf { l with
      entries := insertBy DirectoryLeafEntry.searchKey (newEntry k r) l.entries }) .ok) .nothing
  | splitLeaf {p l path} (target : Target F m (newEntry k r) p l path) (sorted : l.Sorted)
    (bound : ∀ e ∈ l.entries, e.searchKey < idBound)
    (full : l.numEntries = DirectoryLeafPage.maxEntries) :
    Stands F page k r m (.alloc (.splitLeaf p l (DirectoryLeafPage.pairs
      (insertBy DirectoryLeafEntry.searchKey (newEntry k r) l.entries)) path)) .nothing
  | upperLeaf {p l path xs e ys n} (cut : LeafCut F m (newEntry k r) p l path xs e ys) :
    Stands F page k r m (.writePage n (.leaf ⟨n, l.nextPage, p, e :: ys⟩)
      (rebuiltLeaf p l xs path n e.searchKey)) (.holding n)
  | sibling {p l path xs e ys n pc} (cut : LeafCut F m (newEntry k r) p l path xs e ys)
    (reads : ReadsPage l.nextPage
      (.sibling p ⟨p, n, l.prevPage, xs⟩ path n e.searchKey) pc)
    (next : l.nextPage ≠ p ∧ ∃ a, F.At l.nextPage 0 a)
    (placed : page n = some (.leaf ⟨n, l.nextPage, p, e :: ys⟩)) :
    Stands F page k r m pc (.holding n)
  | relink {p l path xs e ys n sib} (cut : LeafCut F m (newEntry k r) p l path xs e ys)
    (next : l.nextPage ≠ p ∧ ∃ a, F.At l.nextPage 0 a)
    (read : m.pages l.nextPage = some (.leaf sib))
    (placed : page n = some (.leaf ⟨n, l.nextPage, p, e :: ys⟩)) :
    Stands F page k r m (.writePage l.nextPage (.leaf (sib.setPrevPage n))
      (.writePage p (.leaf ⟨p, n, l.prevPage, xs⟩) (afterSplitLeaf p path n e.searchKey)))
      (.holding n)
  | lowerLeaf {p l path xs e ys n} (cut : LeafCut F m (newEntry k r) p l path xs e ys)
    (placed : page n = some (.leaf ⟨n, l.nextPage, p, e :: ys⟩)) :
    Stands F page k r m (.writePage p (.leaf ⟨p, n, l.prevPage, xs⟩)
      (afterSplitLeaf p path n e.searchKey)) (.holding n)
  | parent {q c path s x ℓ pc} (reads : ReadsPage q (.parent path s x) pc)
    (place : F.At q (ℓ + 1) c) (child : F.At x ℓ s) (up : Up F m.root q (ℓ + 1) path) :
    Stands F page k r m pc (.owing x)
  | link {q i path s x ℓ} (target : ParentTarget F m s x ℓ q i path)
    (room : i.numKeys < BTreeInnerPage.maxKeys) :
    Stands F page k r m (.writePage q (.inner { i with
      entries := insertBy BTreeInnerEntry.separatorKey ⟨s, x⟩ i.entries }) .ok) (.owing x)
  | splitInner {q i path s x ℓ} (target : ParentTarget F m s x ℓ q i path)
    (sorted : SortedBy BTreeInnerEntry.separatorKey
      (insertBy BTreeInnerEntry.separatorKey ⟨s, x⟩ i.entries))
    (full : i.numKeys = BTreeInnerPage.maxKeys) :
    Stands F page k r m (.alloc (.splitInner q i
      (insertBy BTreeInnerEntry.separatorKey ⟨s, x⟩ i.entries) path)) (.owing x)
  | upperInner {q i path s x ℓ xs e ys n} (cut : InnerCut F m s x ℓ q i path xs e ys) :
    Stands F page k r m (.writePage n (.inner ⟨n, e.rightChild, ys⟩)
      (.writePage q (.inner ⟨q, i.leftmostChild, xs⟩)
        (insertIntoAncestors path e.separatorKey n))) (.both n x)
  | lowerInner {q i path s x ℓ xs e ys n} (cut : InnerCut F m s x ℓ q i path xs e ys)
    (placed : page n = some (.inner ⟨n, e.rightChild, ys⟩)) :
    Stands F page k r m (.writePage q (.inner ⟨q, i.leftmostChild, xs⟩)
      (insertIntoAncestors path e.separatorKey n)) (.both n x)
  | oldRoot {s x ℓ c} (place : F.At m.root ℓ c) (child : F.At x ℓ s) :
    Stands F page k r m (.oldRoot s x) (.owing x)
  | newRoot {s x ℓ c} (place : F.At m.root ℓ c) (child : F.At x ℓ s) :
    Stands F page k r m (.alloc (.newRoot m.root s x)) (.owing x)
  | writeRoot {s x ℓ c n} (place : F.At m.root ℓ c) (child : F.At x ℓ s) :
    Stands F page k r m (.writePage n (.inner ⟨n, m.root, [⟨s, x⟩]⟩) (.setRoot n)) (.both n x)
  | setRoot {s x ℓ c n} (place : F.At m.root ℓ c) (child : F.At x ℓ s)
    (placed : page n = some (.inner ⟨n, m.root, [⟨s, x⟩]⟩)) :
    Stands F page k r m (.setRoot n) (.both n x)
  | firstLeaf (empty : m.root = 0) : Stands F page k r m (.alloc (.firstLeaf k r)) .nothing
  | writeFirst {n} (empty : m.root = 0) :
    Stands F page k r m (.writePage n (.leaf ⟨n, 0, 0, [newEntry k r]⟩) (.setRoot n)) (.holding n)
  | setFirst {n} (empty : m.root = 0)
    (placed : page n = some (.leaf ⟨n, 0, 0, [newEntry k r]⟩)) :
    Stands F page k r m (.setRoot n) (.holding n)
  | header {n pc} (reads : ReadsPage 0 (.header n) pc) : Stands F page k r m pc .landing
  | counter {n} : Stands F page k r m (.nextPageId n) .landing
  | writeHeader {h} : Stands F page k r m (.writePage 0 (.header h) .ok) .landing
  | done : Stands F page k r m .ok .landing
  | dirty {id pc s} : Stands F page k r m pc s → Stands F page k r m (.markDirty id pc) s

variable {F F' : Layout} {page page' : Pages} {root p q n x : DirPageId} {k : LPageId}
  {r : PPageId} {m : Memo} {pc : Pc} {s : Stake} {path : List DirPageId} {ℓ : ℕ}

theorem Up.mono (h : Up F root p ℓ path) (hF : F.Shrinks F') : Up F' root p ℓ path := by
  induction path generalizing p ℓ with
  | nil => exact h
  | cons q path ih =>
    obtain ⟨⟨c, hc⟩, hup⟩ := h
    exact ⟨⟨c, hF.at hc⟩, ih hup⟩

theorem Target.mono {y : DirectoryLeafEntry} {l : DirectoryLeafPage} (h : Target F m y p l path)
    (hF : F.Shrinks F') : Target F' m y p l path where
  place := h.place.imp fun _ => hF.at
  read := h.read
  aim := h.aim
  absent := h.absent
  next hn := (h.next hn).imp_right (·.imp fun _ => hF.at)
  up := h.up.mono hF

theorem LeafCut.mono {y e : DirectoryLeafEntry} {l : DirectoryLeafPage}
    {xs ys : List DirectoryLeafEntry} (h : LeafCut F m y p l path xs e ys) (hF : F.Shrinks F') :
    LeafCut F' m y p l path xs e ys :=
  ⟨h.target.mono hF, h.merged, h.lower, h.upper⟩

theorem ParentTarget.mono {s : ℕ} {i : DirectoryInnerPage} (h : ParentTarget F m s x ℓ q i path)
    (hF : F.Shrinks F') : ParentTarget F' m s x ℓ q i path where
  place := h.place.imp fun _ => hF.at
  child := hF.at h.child
  read := h.read
  aim := h.aim
  up := h.up.mono hF

theorem InnerCut.mono {s : ℕ} {i : DirectoryInnerPage} {xs ys : List DirectoryInnerEntry}
    {e : DirectoryInnerEntry} (h : InnerCut F m s x ℓ q i path xs e ys) (hF : F.Shrinks F') :
    InnerCut F' m s x ℓ q i path xs e ys :=
  ⟨h.target.mono hF, h.merged, h.lower, h.upper⟩

/-- **A call stands where it stood** when others split pages and leave the one it holds
alone. -/
theorem Stands.mono (h : Stands F page k r m pc s) (hF : F.Shrinks F')
    (hheld : ∀ n, s.held = some n → page' n = page n) : Stands F' page' k r m pc s := by
  induction h with
  | start => exact .start
  | locate => exact .locate
  | descend reads place start up => exact .descend reads (hF.at place) start (up.mono hF)
  | leaf reads place up => exact .leaf reads (hF.at place) (up.mono hF)
  | insert target room => exact .insert (target.mono hF) room
  | splitLeaf target sorted bound full => exact .splitLeaf (target.mono hF) sorted bound full
  | upperLeaf cut => exact .upperLeaf (cut.mono hF)
  | sibling cut reads next placed =>
    exact .sibling (cut.mono hF) reads (next.imp_right (·.imp fun _ => hF.at))
      ((hheld _ rfl).trans placed)
  | relink cut next read placed =>
    exact .relink (cut.mono hF) (next.imp_right (·.imp fun _ => hF.at)) read
      ((hheld _ rfl).trans placed)
  | lowerLeaf cut placed => exact .lowerLeaf (cut.mono hF) ((hheld _ rfl).trans placed)
  | parent reads place child up => exact .parent reads (hF.at place) (hF.at child) (up.mono hF)
  | link target room => exact .link (target.mono hF) room
  | splitInner target sorted full => exact .splitInner (target.mono hF) sorted full
  | upperInner cut => exact .upperInner (cut.mono hF)
  | lowerInner cut placed => exact .lowerInner (cut.mono hF) ((hheld _ rfl).trans placed)
  | oldRoot place child => exact .oldRoot (hF.at place) (hF.at child)
  | newRoot place child => exact .newRoot (hF.at place) (hF.at child)
  | writeRoot place child => exact .writeRoot (hF.at place) (hF.at child)
  | setRoot place child placed =>
    exact .setRoot (hF.at place) (hF.at child) ((hheld _ rfl).trans placed)
  | firstLeaf empty => exact .firstLeaf empty
  | writeFirst empty => exact .writeFirst empty
  | setFirst empty placed => exact .setFirst empty ((hheld _ rfl).trans placed)
  | header reads => exact .header reads
  | counter => exact .counter
  | writeHeader => exact .writeHeader
  | done => exact .done
  | dirty _ ih => exact .dirty (ih hheld)

end Directory
end Abdb
