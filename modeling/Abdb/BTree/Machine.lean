/-
# Async operations over a page store

An `async fn` of the index runs without interruption from one `.await` to the next.
Here it is a machine: its states are the points where it awaits something, each with
the locals that live across that point, and `resume` is the code between two such
points.  `resume` sees the pages through a `View`, the current bytes of every page and
the root pointer of the file header, and returns the page writes it makes, each with
whether the code also calls `mark_dirty` on that guard, the header update, and the
next state.

A `Store` is the perfect buffer pool: it returns for each page the bytes last written
to it, and `new_page` hands out the ids of a `PageSupply`, nonzero and never repeated.
-/

import Mathlib.Logic.Function.Basic
import Abdb.Page.BTreeInner
import Abdb.Page.BTreeLeaf

namespace Abdb

/-- A page whose type byte names no B-tree page, such as the zeroed page `new_page`
returns. -/
structure OtherPage where
  pageTypeId : ℕ
  notInner : PageType.tryFrom pageTypeId ≠ some .btreeInner
  notLeaf : PageType.tryFrom pageTypeId ≠ some .btreeLeaf

/-- The bytes of a page, read under the overlay its type byte names. -/
inductive Page
  | leaf (p : BTreeLeafPage)
  | inner (p : BTreeInnerPage)
  | other (p : OtherPage)

/-- The page `new_page` returns: all zeros. -/
def Page.zeroed : Page := .other ⟨0, by decide, by decide⟩

namespace BTree

/-- The texts of `Error::PageCorruption`, by what is put into them. -/
inductive Corruption
  /-- `"invalid page type {}"` -/
  | invalidPageType (id : ℕ)
  /-- `"unexpected page type {:?} during {}"` -/
  | unexpectedPageType (t : PageType) (during : String)
  /-- `"{}: {:?}"` -/
  | overlay (what : String) (e : OverlayError)
  | text (what : String)
deriving DecidableEq, Repr

/-- `accessor::Error`, as far as the index operations return it. -/
inductive Error
  /-- The pool cannot return the page: the directory has no page of this id. -/
  | bufferError (id : LPageId)
  | tupleNonExistent
  | pageCorruption (c : Corruption)
  /-- Not an error of the source.  It marks the steps whose outcome the model leaves
  open: a page read under the overlay of another page type, or an index past the end
  of a vector. -/
  | outsideModel
deriving DecidableEq, Repr

/-- What the code sees of the pool: the bytes of every page and the header's root. -/
structure View where
  page : LPageId → Option Page
  root : LPageId

/-- Bytes put into a page through a write guard; `marked` if the code calls
`mark_dirty` on that guard. -/
structure Write where
  id : LPageId
  page : Page
  marked : Bool

/-- The pages after a list of writes. -/
def writePages (page : LPageId → Option Page) (ws : List Write) : LPageId → Option Page :=
  ws.foldl (fun page w => Function.update page w.id (some w.page)) page

theorem writePages_nil (page : LPageId → Option Page) : writePages page [] = page := rfl

theorem writePages_cons (page : LPageId → Option Page) (w : Write) (ws : List Write) :
    writePages page (w :: ws) = writePages (Function.update page w.id (some w.page)) ws := rfl

theorem writePages_append (page : LPageId → Option Page) (ws ws' : List Write) :
    writePages page (ws ++ ws') = writePages (writePages page ws) ws' := List.foldl_append ..

/-- Pages that are not written stay as they are. -/
theorem writePages_of_not_mem {page : LPageId → Option Page} {ws : List Write} {p : LPageId}
    (h : ∀ w ∈ ws, w.id ≠ p) : writePages page ws p = page p := by
  induction ws generalizing page with
  | nil => rfl
  | cons w ws ih =>
    rw [writePages_cons, ih fun w' hw' => h w' (List.mem_cons_of_mem _ hw')]
    exact Function.update_of_ne (h w (List.mem_cons_self ..)).symm ..

/-- The outcome of running to the next await point. -/
structure Out (Pc : Type) where
  writes : List Write
  root : Option LPageId
  pc : Pc

namespace Out

variable {Pc : Type}

/-- Go on to a state and write nothing. -/
def goto (pc : Pc) : Out Pc := ⟨[], none, pc⟩

/-- The writes of an outcome come after others. -/
def after (ws : List Write) (o : Out Pc) : Out Pc := { o with writes := ws ++ o.writes }

end Out

/-- Shared or exclusive page latch. -/
inductive Mode
  | read
  | write
deriving DecidableEq, Repr

/-- What a state waits for. -/
inductive Await
  /-- the latch of the file header page -/
  | header
  /-- a page and its latch -/
  | page (id : LPageId) (mode : Mode)
  /-- a freshly allocated page, write latched -/
  | newPage
  /-- nothing: the operation has returned -/
  | nothing
deriving DecidableEq, Repr

/-- An async operation: what each state waits for, which pages it has write latched
meanwhile, and how it goes on; `newId` is the id `new_page` returned, if that is what
it waited for. -/
structure Machine (Pc : Type) where
  await : Pc → Await
  holds : Pc → List LPageId
  resume : (view : View) → (newId : LPageId) → Pc → Out Pc

/-- The operation asks for the latch of a page that it has write latched itself. -/
def Machine.SelfWaits {Pc : Type} (M : Machine Pc) (pc : Pc) : Prop :=
  ∃ p m, M.await pc = .page p m ∧ p ∈ M.holds pc

/-- An endless supply of distinct nonzero page ids. -/
structure PageSupply where
  id : ℕ → LPageId
  injective : Function.Injective id
  ne_zero : ∀ i, id i ≠ 0

/-- The supply that counts up from one. -/
def PageSupply.count : PageSupply := ⟨Nat.succ, Nat.succ_injective, Nat.succ_ne_zero⟩

/-- A page store that returns the bytes last written: the pages that exist, the root
pointer of the file header, and the number of pages allocated so far. -/
structure Store where
  page : LPageId → Option Page
  root : LPageId
  allocated : ℕ

namespace Store

/-- An index file just initialised: no pages and `root_page = 0`. -/
def empty : Store := ⟨fun _ => none, 0, 0⟩

def view (st : Store) : View := ⟨st.page, st.root⟩

/-- `new_page`: the next id of the supply, with a zeroed page. -/
def newPage (S : PageSupply) (st : Store) : Store :=
  { st with
    page := Function.update st.page (S.id st.allocated) (some Page.zeroed)
    allocated := st.allocated + 1 }

/-- Put the writes of an outcome into the store. -/
def apply {Pc : Type} (st : Store) (o : Out Pc) : Store :=
  { st with page := writePages st.page o.writes, root := o.root.getD st.root }

/-- One step of an operation over the store: what it waited for arrives and it runs to
its next await point. -/
def step {Pc : Type} (S : PageSupply) (M : Machine Pc) (st : Store) (pc : Pc) : Store × Pc :=
  match M.await pc with
  | .nothing => (st, pc)
  | .newPage =>
    let st' := st.newPage S
    let o := M.resume st'.view (S.id st.allocated) pc
    (st'.apply o, o.pc)
  | _ =>
    let o := M.resume st.view 0 pc
    (st.apply o, o.pc)

end Store

end BTree
end Abdb
