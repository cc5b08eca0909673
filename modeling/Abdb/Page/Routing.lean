/-
# Inner pages route correctly

`src/page/overlays/index/btree_inner.rs` and `src/page/overlays/directory/inner.rs` are two copies of
one inner page, line for line but for the type byte.  `InnerOverlay` is what both have.

On every page that `init` has made and whatever the calls, the separators are the keys of an ordered
map to their right children, `find_child` returns the leftmost child for the keys below all
separators and else the right child of the largest separator not above the key, and a new separator
takes only the keys from it up to the next one (`inner_pages_route`).
-/

import Abdb.Lib.Machines
import Abdb.Page.Directory
import Abdb.Page.PageMap

namespace Abdb

open Lib PageBuffer

/-! ### The two copies -/

namespace InnerBuffer

def init (b : PageBuffer) (pageId leftmostChild : LPageId) : PageBuffer :=
  b.initInner .btreeInner pageId leftmostChild

def deleteSeparator (b : PageBuffer) (index : ℕ) : Option (PageBuffer × Except OverlayError Unit) :=
  b.delete layout index

def updateChild (b : PageBuffer) (index : ℕ) (newChild : LPageId) :
    Option (PageBuffer × Except OverlayError Unit) :=
  b.updateAt layout index fun e => toLe 8 (keyOf e) ++ toLe 4 newChild ++ toLe 4 0

end InnerBuffer

namespace DirectoryInnerBuffer

def layout : IndexLayout := InnerBuffer.layout

def init (b : PageBuffer) (pageId leftmostChild : LPageId) : PageBuffer :=
  b.initInner .directoryInner pageId leftmostChild

def leftmostChild (b : PageBuffer) : LPageId := InnerBuffer.leftmostChild b

def findChild (b : PageBuffer) (searchKey : ℕ) : Option LPageId := InnerBuffer.findChild b searchKey

def insertSeparator (b : PageBuffer) (separatorKey : ℕ) (rightChild : LPageId) :
    Option (PageBuffer × Except OverlayError Unit) :=
  b.insert layout separatorKey (toLe 8 separatorKey ++ toLe 4 rightChild ++ toLe 4 0)

def deleteSeparator (b : PageBuffer) (index : ℕ) : Option (PageBuffer × Except OverlayError Unit) :=
  b.delete layout index

def updateChild (b : PageBuffer) (index : ℕ) (newChild : LPageId) :
    Option (PageBuffer × Except OverlayError Unit) :=
  b.updateAt layout index fun e => toLe 8 (keyOf e) ++ toLe 4 newChild ++ toLe 4 0

end DirectoryInnerBuffer

/-! ### Calls -/

/-- A call on an inner page. -/
inductive InnerCall
  | insertSeparator (separatorKey : UInt64) (rightChild : UInt32)
  | deleteSeparator (index : UInt16)
  | updateChild (index : UInt16) (newChild : UInt32)

/-- An inner page. -/
structure InnerOverlay where
  init : PageBuffer → LPageId → LPageId → PageBuffer
  leftmostChild : PageBuffer → LPageId
  findChild : PageBuffer → ℕ → Option LPageId
  insertSeparator : PageBuffer → ℕ → LPageId → Option (PageBuffer × Except OverlayError Unit)
  deleteSeparator : PageBuffer → ℕ → Option (PageBuffer × Except OverlayError Unit)
  updateChild : PageBuffer → ℕ → LPageId → Option (PageBuffer × Except OverlayError Unit)

/-- Index inner pages. -/
def InnerBuffer.overlay : InnerOverlay where
  init := init
  leftmostChild := leftmostChild
  findChild := findChild
  insertSeparator := insertSeparator
  deleteSeparator := deleteSeparator
  updateChild := updateChild

/-- Directory inner pages. -/
def DirectoryInnerBuffer.overlay : InnerOverlay where
  init := init
  leftmostChild := leftmostChild
  findChild := findChild
  insertSeparator := insertSeparator
  deleteSeparator := deleteSeparator
  updateChild := updateChild

namespace InnerOverlay

variable (O : InnerOverlay)

/-- A call, with the page it leaves; `none` is a panic. -/
def step (b : PageBuffer) : InnerCall → Option (PageBuffer × Except OverlayError Unit)
  | .insertSeparator separatorKey rightChild => O.insertSeparator b separatorKey.toNat rightChild.toNat
  | .deleteSeparator index => O.deleteSeparator b index.toNat
  | .updateChild index newChild => O.updateChild b index.toNat newChild.toNat

/-- What a call should return and do to the map from separators to children. -/
noncomputable def should (m : PageMap LPageId) : InnerCall → PageMap LPageId × Except OverlayError Unit
  | .insertSeparator separatorKey rightChild => m.insert 254 separatorKey.toNat rightChild.toNat
  | .deleteSeparator index => m.delete index.toNat
  | .updateChild index newChild => m.updateAt index.toNat newChild.toNat

/-- A page that `init` and calls have made. -/
def Reached (b : PageBuffer) : Prop :=
  ∃ (buffer : PageBuffer) (pageId leftmostChild : UInt32) (calls : List InnerCall)
    (replies : List (Except OverlayError Unit)),
    runCalls O.step (O.init buffer pageId.toNat leftmostChild.toNat) calls = some (b, replies)

/-- The pages route keys. -/
structure Routes : Prop where
  /-- No run panics, its replies are those of the map, and the page it ends on has the separators of
  the map, strictly increasing and at most 254, and the leftmost child that `init` was given. -/
  run : ∀ (buffer : PageBuffer) (pageId leftmostChild : UInt32) (calls : List InnerCall), ∃ b,
    runCalls O.step (O.init buffer pageId.toNat leftmostChild.toNat) calls =
      some (b, (runSpec should PageMap.empty calls).2) ∧
    b.count ≤ 254 ∧ (InnerBuffer.page b).Sorted ∧
    OrderedMap.ofList BTreeInnerEntry.separatorKey BTreeInnerEntry.rightChild (InnerBuffer.page b).entries =
      (runSpec should PageMap.empty calls).1 ∧
    O.leftmostChild b = leftmostChild.toNat
  findChild : ∀ b, O.Reached b → ∀ key,
    (∀ e ∈ (InnerBuffer.page b).entries, key < e.separatorKey) ∧
      O.findChild b key = some (O.leftmostChild b) ∨
    ∃ e ∈ (InnerBuffer.page b).entries, e.separatorKey ≤ key ∧
      (∀ e' ∈ (InnerBuffer.page b).entries, e'.separatorKey ≤ key → e'.separatorKey ≤ e.separatorKey) ∧
      O.findChild b key = some e.rightChild
  insertSeparator : ∀ b, O.Reached b → ∀ (separatorKey : UInt64) (rightChild : UInt32) b',
    O.insertSeparator b separatorKey.toNat rightChild.toNat = some (b', .ok ()) →
    (∀ e ∈ (InnerBuffer.page b).entries, e.separatorKey ≠ separatorKey.toNat) ∧
    ∀ key, O.findChild b' key =
      if separatorKey.toNat ≤ key ∧
          ∀ e ∈ (InnerBuffer.page b).entries, separatorKey.toNat < e.separatorKey → key < e.separatorKey
      then some rightChild.toNat else O.findChild b key

/-- The methods are those of index inner pages. -/
structure Alike : Prop where
  count_init : ∀ b pageId leftmostChild, (O.init b pageId leftmostChild).count = 0
  leftmostChild_init : ∀ b pageId (leftmostChild : UInt32),
    O.leftmostChild (O.init b pageId leftmostChild.toNat) = leftmostChild.toNat
  leftmostChild : O.leftmostChild = InnerBuffer.leftmostChild
  findChild : O.findChild = InnerBuffer.findChild
  insertSeparator : O.insertSeparator = InnerBuffer.insertSeparator
  deleteSeparator : O.deleteSeparator = InnerBuffer.deleteSeparator
  updateChild : O.updateChild = InnerBuffer.updateChild

end InnerOverlay

namespace InnerBuffer

variable {b b' : PageBuffer} {m : PageMap LPageId} {key : ℕ}

theorem entries_page : (page b).entries = (b.entries layout).map entryOf := by
  rw [entries, List.map_map]
  rfl

/-- An entry is read as it was written. -/
theorem newEntry_inj (separatorKey : UInt64) (rightChild : UInt32) :
    keyOf (toLe 8 separatorKey.toNat ++ toLe 4 rightChild.toNat ++ toLe 4 0) = separatorKey.toNat ∧
      rightChildOf (toLe 8 separatorKey.toNat ++ toLe 4 rightChild.toNat ++ toLe 4 0) = rightChild.toNat := by
  have h := entryOf_newEntry separatorKey.toNat_lt rightChild.toNat_lt
  rwa [entryOf, BTreeInnerEntry.mk.injEq] at h

/-- An entry written back with another child has that child, and its key still. -/
theorem updatedEntry_inj (e : List UInt8) (newChild : UInt32) :
    keyOf (toLe 8 (keyOf e) ++ toLe 4 newChild.toNat ++ toLe 4 0) = keyOf e ∧
      rightChildOf (toLe 8 (keyOf e) ++ toLe 4 newChild.toNat ++ toLe 4 0) = newChild.toNat := by
  have hkey : keyOf e < 2 ^ 64 :=
    (ofLe_lt (e.take 8)).trans_le (Nat.pow_le_pow_right (by decide) (List.length_take_le 8 e))
  have h := entryOf_newEntry hkey newChild.toNat_lt
  rwa [entryOf, BTreeInnerEntry.mk.injEq] at h

theorem sorted_page (h : Stores layout rightChildOf b m) : (page b).Sorted := by
  rw [BTreeInnerPage.Sorted, entries_page]
  exact h.sorted.map fun _ _ => rfl

/-- The separators are those of the map. -/
theorem ofList_page (h : Stores layout rightChildOf b m) :
    OrderedMap.ofList BTreeInnerEntry.separatorKey BTreeInnerEntry.rightChild (page b).entries = m := by
  rw [← h.map]
  funext key
  rw [OrderedMap.ofList, entries_page, List.find?_map, Option.map_map]
  rfl

/-- **`find_child` routes.** -/
theorem findChild_eq_route (h : Stores layout rightChildOf b m) :
    findChild b key = some (route BTreeInnerEntry.separatorKey BTreeInnerEntry.rightChild key
      (leftmostChild b) (page b).entries) := by
  rw [findChild_eq h.count_le, BTreeInnerPage.findChild_eq_route (sorted_page h)]
  rfl

theorem leftmostChild_of_kept (h : Kept layout b b') : leftmostChild b' = leftmostChild b :=
  h.field (by decide) (by decide)

/-- **Each call does what it should**, and keeps the leftmost child. -/
theorem step (h : Stores layout rightChildOf b m) (c : InnerCall) :
    Does layout rightChildOf b (overlay.step b c) (InnerOverlay.should m c) := by
  have hoff : uberHeaderSize + 2 ≤ layout.entriesOffset := by decide
  cases c with
  | insertSeparator separatorKey rightChild =>
    obtain ⟨hkey, hchild⟩ := newEntry_inj separatorKey rightChild
    have hlength : (toLe 8 separatorKey.toNat ++ toLe 4 rightChild.toNat ++ toLe 4 0).length = 16 :=
      length_newEntry
    have hdoes := h.insert hoff hlength
    rwa [hkey, hchild] at hdoes
  | deleteSeparator index => exact h.delete hoff index.toNat
  | updateChild index newChild =>
    exact h.updateAt hoff index.toNat (fun _ => length_newEntry) (fun e _ => (updatedEntry_inj e newChild).1)
      fun e => (updatedEntry_inj e newChild).2

/-- **A new separator takes the keys from it up to the next one.** -/
theorem findChild_of_insertSeparator (h : Stores layout rightChildOf b m) {separatorKey : UInt64}
    {rightChild : UInt32}
    (hinsert : insertSeparator b separatorKey.toNat rightChild.toNat = some (b', .ok ())) :
    (∀ e ∈ (page b).entries, e.separatorKey ≠ separatorKey.toNat) ∧
    ∀ key, findChild b' key =
      if separatorKey.toNat ≤ key ∧
          ∀ e ∈ (page b).entries, separatorKey.toNat < e.separatorKey → key < e.separatorKey
      then some rightChild.toNat else findChild b key := by
  obtain ⟨hkey, hchild⟩ := newEntry_inj separatorKey rightChild
  obtain ⟨e, he, hlength⟩ : ∃ e, e = toLe 8 separatorKey.toNat ++ toLe 4 rightChild.toNat ++ toLe 4 0 ∧
      e.length = 16 := ⟨_, rfl, length_newEntry⟩
  rw [← he] at hkey hchild
  have hinsert' : b.insert layout (keyOf e) e = some (b', .ok ()) := by rwa [hkey, he]
  obtain ⟨xs, ys, hcut, hcut', hs, hstores, hkept⟩ := h.insert_ok (by decide) hlength hinsert'
  have hnew : (page b').entries = xs.map entryOf ++ entryOf e :: ys.map entryOf := by
    rw [entries_page, hcut', List.map_append, List.map_cons]
  have hold : (page b).entries = xs.map entryOf ++ ys.map entryOf := by
    rw [entries_page, hcut, List.map_append]
  have hsorted : SortedBy BTreeInnerEntry.separatorKey (xs.map entryOf ++ entryOf e :: ys.map entryOf) :=
    hnew ▸ sorted_page hstores
  rw [← hkey, ← hchild, hold]
  refine ⟨fun x hx => ?_, fun key => ?_⟩
  · obtain ⟨hbelow, habove⟩ := hsorted.of_cut
    rcases List.mem_append.1 hx with hx | hx
    · exact (hbelow x hx).ne
    · exact (habove x hx).ne'
  · rw [findChild_eq_route hstores, findChild_eq_route h, hnew, hold, route_insert hsorted,
      leftmostChild_of_kept hkept, apply_ite some]
    rfl

/-- What `init` of an inner page writes. -/
theorem header_initInner {t : PageType} {pageId leftmost : ℕ} :
    extract (b.initInner t pageId leftmost).data 16 8 = toLe 2 0 ++ toLe 2 0 ++ toLe 4 leftmost :=
  extract_overwrite (l := (InnerHeader.mk 0 0 leftmost).bytes) (by simp [InnerHeader.bytes])

theorem count_initInner {t : PageType} {pageId leftmost : ℕ} : (b.initInner t pageId leftmost).count = 0 :=
  congrArg (fun l : List UInt8 => ofLe (l.take 2)) header_initInner

theorem leftmostChild_initInner {t : PageType} {pageId : ℕ} (leftmost : UInt32) :
    leftmostChild (b.initInner t pageId leftmost.toNat) = leftmost.toNat := by
  have h : leftmostChild (b.initInner t pageId leftmost.toNat) = ofLe (toLe 4 leftmost.toNat) :=
    congrArg (fun l : List UInt8 => ofLe (l.drop 4)) header_initInner
  rw [h, ofLe_toLe leftmost.toNat_lt]

theorem alike : overlay.Alike where
  count_init _ _ _ := count_initInner
  leftmostChild_init _ _ leftmostChild := leftmostChild_initInner leftmostChild
  leftmostChild := rfl
  findChild := rfl
  insertSeparator := rfl
  deleteSeparator := rfl
  updateChild := rfl

end InnerBuffer

theorem DirectoryInnerBuffer.alike : overlay.Alike where
  count_init _ _ _ := InnerBuffer.count_initInner
  leftmostChild_init _ _ leftmostChild := InnerBuffer.leftmostChild_initInner leftmostChild
  leftmostChild := rfl
  findChild := rfl
  insertSeparator := rfl
  deleteSeparator := rfl
  updateChild := rfl

namespace InnerOverlay.Alike

open InnerBuffer (layout rightChildOf)

variable {O : InnerOverlay} (hO : O.Alike) {b : PageBuffer}
include hO

theorem step_eq (c : InnerCall) : O.step b c = InnerBuffer.overlay.step b c := by
  cases c with
  | insertSeparator separatorKey rightChild => rw [step, hO.insertSeparator]; rfl
  | deleteSeparator index => rw [step, hO.deleteSeparator]; rfl
  | updateChild index newChild => rw [step, hO.updateChild]; rfl

/-- **Every run stores the map**, and keeps the leftmost child. -/
theorem run (buffer : PageBuffer) (pageId leftmostChild : UInt32) (calls : List InnerCall) :
    ∃ b, runCalls O.step (O.init buffer pageId.toNat leftmostChild.toNat) calls =
        some (b, (runSpec should PageMap.empty calls).2) ∧
      Stores layout rightChildOf b (runSpec should PageMap.empty calls).1 ∧
      O.leftmostChild b = leftmostChild.toNat := by
  have hsim : Simulates O.step should fun b m =>
      Stores layout rightChildOf b m ∧ O.leftmostChild b = leftmostChild.toNat := fun b m c ⟨h, hleft⟩ => by
    obtain ⟨b', hstep, hstores, hkept⟩ := InnerBuffer.step h c
    refine ⟨b', (hO.step_eq c).trans hstep, hstores, ?_⟩
    rw [hO.leftmostChild] at hleft ⊢
    exact (InnerBuffer.leftmostChild_of_kept hkept).trans hleft
  exact hsim.run ⟨stores_empty (hO.count_init _ _ _), hO.leftmostChild_init buffer _ leftmostChild⟩ calls

theorem stores_of_reached (h : O.Reached b) : ∃ m, Stores layout rightChildOf b m := by
  obtain ⟨buffer, pageId, leftmostChild, calls, replies, hrun⟩ := h
  obtain ⟨b', hrun', hstores, -⟩ := hO.run buffer pageId leftmostChild calls
  obtain rfl : b = b' := congrArg Prod.fst (Option.some.inj (hrun.symm.trans hrun'))
  exact ⟨_, hstores⟩

/-- **Inner pages route.** -/
theorem routes : O.Routes where
  run buffer pageId leftmostChild calls := by
    obtain ⟨b, hrun, hstores, hleft⟩ := hO.run buffer pageId leftmostChild calls
    exact ⟨b, hrun, hstores.count_le, InnerBuffer.sorted_page hstores, InnerBuffer.ofList_page hstores, hleft⟩
  findChild b hreached key := by
    obtain ⟨m, hstores⟩ := hO.stores_of_reached hreached
    rw [hO.findChild, hO.leftmostChild, InnerBuffer.findChild_eq_route hstores]
    rcases route_cases BTreeInnerEntry.rightChild (InnerBuffer.sorted_page hstores) with
      ⟨hbelow, hroute⟩ | ⟨e, he, hle, hmax, hroute⟩
    · exact Or.inl ⟨hbelow, congrArg some hroute⟩
    · exact Or.inr ⟨e, he, hle, hmax, congrArg some hroute⟩
  insertSeparator b hreached separatorKey rightChild b' hinsert := by
    obtain ⟨m, hstores⟩ := hO.stores_of_reached hreached
    rw [hO.insertSeparator] at hinsert
    rw [hO.findChild]
    exact InnerBuffer.findChild_of_insertSeparator hstores hinsert

end InnerOverlay.Alike

/-- **Inner pages route correctly**, those of an index and those of the directory. -/
theorem inner_pages_route : InnerBuffer.overlay.Routes ∧ DirectoryInnerBuffer.overlay.Routes :=
  ⟨InnerBuffer.alike.routes, DirectoryInnerBuffer.alike.routes⟩

end Abdb
