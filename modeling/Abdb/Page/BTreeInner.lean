/-
# B-tree inner pages

`src/page/overlays/index/btree_inner.rs`.  An inner page with `n` separators has
`n + 1` children: `leftmost_child` for the keys below the first separator and the
`right_child` of a separator for the keys from it up to the next one.
-/

import Abdb.Lib.Fence
import Abdb.Page.Basic

namespace Abdb

/-- A separator with the child to its right. -/
structure BTreeInnerEntry where
  separatorKey : ℕ
  rightChild : LPageId
deriving DecidableEq, Repr

/-- The content of an inner page. -/
structure BTreeInnerPage where
  pageId : LPageId
  leftmostChild : LPageId
  entries : List BTreeInnerEntry
deriving DecidableEq, Repr

namespace BTreeInnerPage

open Lib

/-- `ENTRY_SIZE`. -/
def entrySize : ℕ := 16

/-- `ENTRIES_OFFSET`: the uber header and the 8-byte inner header. -/
def entriesOffset : ℕ := uberHeaderSize + 8

/-- `MAX_KEYS`. -/
def maxKeys : ℕ := (pageBufSize - entriesOffset) / entrySize

/-- `SAFE_INSERT_THRESHOLD`, the limit of latch crabbing. -/
def safeInsertThreshold : ℕ := maxKeys - 1

@[simp] theorem maxKeys_eq : maxKeys = 254 := rfl
@[simp] theorem safeInsertThreshold_eq : safeInsertThreshold = 253 := rfl

/-- `init`: a zeroed buffer with the page id, the inner type byte and the first child. -/
def init (pageId leftmostChild : LPageId) : BTreeInnerPage := ⟨pageId, leftmostChild, []⟩

def numKeys (p : BTreeInnerPage) : ℕ := p.entries.length

def isSafeForInsert (p : BTreeInnerPage) : Bool := p.numKeys < safeInsertThreshold

theorem isSafeForInsert_iff {p : BTreeInnerPage} :
    p.isSafeForInsert = true ↔ p.numKeys < safeInsertThreshold := decide_eq_true_iff

/-- Read an entry at the given index. -/
def entry (p : BTreeInnerPage) (index : ℕ) : Except OverlayError BTreeInnerEntry :=
  match p.entries[index]? with
  | some e => .ok e
  | none => .error (.indexOutOfBounds index p.numKeys)

/-- The loop of `find_child`: the index of the largest separator not above the key.
`result` is the last index at which the key was not smaller. -/
def findChildLoop (es : List BTreeInnerEntry) (searchKey : ℕ) : ℕ → ℕ → ℕ → ℕ → ℕ
  | 0, _, _, result => result
  | fuel + 1, left, right, result =>
    if left < right then
      let mid := left + (right - left) / 2
      match es[mid]? with
      | some e =>
        if e.separatorKey ≤ searchKey then findChildLoop es searchKey fuel (mid + 1) right mid
        else findChildLoop es searchKey fuel left mid result
      | none => result
    else result

/-- Core B-tree routing: which child to descend into for a key. -/
def findChild (p : BTreeInnerPage) (searchKey : ℕ) : LPageId :=
  match p.entries with
  | [] => p.leftmostChild
  | first :: _ =>
    if searchKey < first.separatorKey then p.leftmostChild
    else
      match p.entries[findChildLoop p.entries searchKey p.numKeys 0 p.numKeys 0]? with
      | some e => e.rightChild
      | none => p.leftmostChild

/-- Routing leads to one of the children. -/
theorem findChild_mem (p : BTreeInnerPage) (k : ℕ) :
    p.findChild k ∈ childrenOf BTreeInnerEntry.rightChild p.leftmostChild p.entries := by
  unfold findChild
  split
  · exact List.mem_cons_self ..
  · split_ifs
    · exact List.mem_cons_self ..
    · split
      · rename_i e he
        exact mem_childrenOf.2 (Or.inr ⟨e, List.mem_of_getElem? he, rfl⟩)
      · exact List.mem_cons_self ..

/-- Exact match or insertion position of a separator key. -/
def findSeparatorSlot (p : BTreeInnerPage) (separatorKey : ℕ) : Bool × ℕ :=
  Lib.findSlot BTreeInnerEntry.separatorKey p.entries separatorKey

/-- Insert a new separator key and child pointer (sorted). -/
def insertSeparator (p : BTreeInnerPage) (separatorKey : ℕ) (rightChild : LPageId) :
    Except OverlayError BTreeInnerPage :=
  if maxKeys ≤ p.numKeys then
    .error (.pageFull maxKeys (p.numKeys + 1))
  else
    match p.findSeparatorSlot separatorKey with
    | (true, _) => .error (.duplicateKey separatorKey)
    | (false, pos) => .ok { p with entries := p.entries.insertIdx pos ⟨separatorKey, rightChild⟩ }

/-- The copy loops of `split_inner`: insert separators one by one, stopping at the
first error with the page as it then is. -/
def insertSeparators : BTreeInnerPage → List BTreeInnerEntry → BTreeInnerPage × Option OverlayError
  | p, [] => (p, none)
  | p, e :: es =>
    match p.insertSeparator e.separatorKey e.rightChild with
    | .ok p' => insertSeparators p' es
    | .error err => (p, some err)

/-- Delete a separator, and the child to its right, at the given index. -/
def deleteSeparator (p : BTreeInnerPage) (index : ℕ) : Except OverlayError BTreeInnerPage :=
  if p.numKeys ≤ index then
    .error (.indexOutOfBounds index p.numKeys)
  else
    .ok { p with entries := p.entries.eraseIdx index }

/-! ### What the operations do to a sorted page -/

/-- The separators are strictly increasing. -/
def Sorted (p : BTreeInnerPage) : Prop := SortedBy BTreeInnerEntry.separatorKey p.entries

variable {p : BTreeInnerPage} {k : ℕ} {c : LPageId} {xs ys es : List BTreeInnerEntry}
  {e : BTreeInnerEntry}

/-- The loop ends on the last separator not above the key, if its window holds it or
it was already recorded. -/
theorem findChildLoop_eq (q : ℕ) (hx : ∀ x ∈ xs, x.separatorKey ≤ k)
    (hy : ∀ y ∈ ys, k < y.separatorKey) (hq : xs.length = q + 1) :
    ∀ fuel left right result : ℕ, right - left ≤ fuel → left ≤ q + 1 → q < right →
      right ≤ (xs ++ ys).length → (left = q + 1 → result = q) →
        findChildLoop (xs ++ ys) k fuel left right result = q := by
  intro fuel
  induction fuel with
  | zero =>
    intro left right result hf hl hr _ hres
    exact hres (by omega)
  | succ fuel ih =>
    intro left right result hf hl hr hn hres
    rw [findChildLoop]
    dsimp only
    split_ifs with h
    · have hmid : left + (right - left) / 2 < (xs ++ ys).length := by omega
      rw [List.getElem?_eq_getElem hmid]
      rcases Nat.lt_or_ge (left + (right - left) / 2) xs.length with hlt | hge
      · rw [List.getElem_append_left hlt]
        dsimp only
        rw [if_pos (hx _ (List.getElem_mem hlt))]
        exact ih _ _ _ (by omega) (by omega) hr hn fun _ => by omega
      · rw [List.getElem_append_right hge]
        dsimp only
        rw [if_neg (not_le.2 (hy _ (List.getElem_mem _)))]
        exact ih _ _ _ (by omega) hl (by omega) (by omega) hres
    · exact hres (by omega)

/-- **`find_child` routes**: it returns the child right of the last separator not
above the key, the leftmost child if there is none. -/
theorem findChild_eq_route (h : p.Sorted) :
    p.findChild k = route BTreeInnerEntry.separatorKey BTreeInnerEntry.rightChild k
      p.leftmostChild p.entries := by
  obtain ⟨id, l, es⟩ := p
  cases es with
  | nil => rfl
  | cons first rest =>
    rw [findChild]
    dsimp only
    split_ifs with hk
    · exact (if_pos hk).symm
    -- the separators not above `k` are a nonempty prefix `zs ++ [e]`
    obtain ⟨zs, e, ys, he, hz, hek, hy⟩ : ∃ zs e ys, first :: rest = zs ++ e :: ys ∧
        (∀ z ∈ zs, z.separatorKey ≤ k) ∧ e.separatorKey ≤ k ∧ ∀ y ∈ ys, k < y.separatorKey := by
      rcases SortedBy.cut h k with ⟨zs, e, ys, he, rfl⟩ | ⟨zs, ys, he, hz, hy⟩
      · have hs : SortedBy BTreeInnerEntry.separatorKey (zs ++ e :: ys) := by rw [← he]; exact h
        obtain ⟨hz, hy⟩ := hs.of_cut
        exact ⟨zs, e, ys, he, fun z hzm => (hz z hzm).le, le_rfl, hy⟩
      · dsimp only at he
        rcases List.eq_nil_or_concat zs with rfl | ⟨zs, e, rfl⟩
        · rw [List.nil_append] at he
          exact absurd (hy first (by simp [← he])) hk
        · rw [List.concat_eq_append] at he hz
          exact ⟨zs, e, ys, by simpa using he, fun z hzm => (hz z (by simp [hzm])).le,
            (hz e (by simp)).le, hy⟩
    have hz' : ∀ z ∈ zs ++ [e], z.separatorKey ≤ k := by
      simpa [or_imp, forall_and] using ⟨hz, hek⟩
    have hlen : (first :: rest).length = (zs ++ [e] ++ ys).length := by rw [he]; simp
    have hloop := findChildLoop_eq zs.length hz' hy (by simp) (first :: rest).length 0
      (first :: rest).length 0 (by omega) (by omega) (by rw [hlen]; simp) hlen.le (by omega)
    rw [List.append_assoc, List.singleton_append, ← he] at hloop
    rw [numKeys, hloop, he, route_append hz e hek, route_below hy]
    simp

/-- **Inserting an absent separator** into a page with room is ordered insertion. -/
theorem insertSeparator_of_absent (h : p.Sorted) (hn : p.numKeys < maxKeys)
    (hk : ∀ e ∈ p.entries, e.separatorKey ≠ k) :
    p.insertSeparator k c =
      .ok { p with entries := insertBy BTreeInnerEntry.separatorKey ⟨k, c⟩ p.entries } := by
  obtain ⟨h₁, h₂, -⟩ := insertIdx_findSlot (e := (⟨k, c⟩ : BTreeInnerEntry)) h hk
  rw [insertSeparator, if_neg (by omega), ← h₂, findSeparatorSlot]
  revert h₁
  dsimp only
  rcases Lib.findSlot BTreeInnerEntry.separatorKey p.entries k with ⟨_ | _, pos⟩ <;> simp

/-- A separator that is accepted joins those of the page. -/
theorem insertSeparator_perm {p' : BTreeInnerPage} (h : p.insertSeparator k c = .ok p') :
    p'.entries.Perm (⟨k, c⟩ :: p.entries) := by
  rw [insertSeparator] at h
  split_ifs at h
  split at h
  · cases h
  · rename_i pos hpos
    obtain rfl := Except.ok.inj h
    obtain rfl : (Lib.findSlot BTreeInnerEntry.separatorKey p.entries k).2 = pos :=
      congrArg Prod.snd hpos
    exact perm_insertIdx_findSlot

/-- Separators that are all accepted join those of the page. -/
theorem insertSeparators_perm {p' : BTreeInnerPage} (h : p.insertSeparators es = (p', none)) :
    p'.entries.Perm (p.entries ++ es) := by
  induction es generalizing p with
  | nil =>
    obtain rfl : p = p' := congrArg Prod.fst h
    rw [List.append_nil]
  | cons e es ih =>
    rw [insertSeparators] at h
    split at h
    · rename_i p₁ hp₁
      exact (ih h).trans (((insertSeparator_perm hp₁).append_right es).trans List.perm_middle.symm)
    · cases h

/-- Appending sorted separators one by one. -/
theorem insertSeparators_append :
    ∀ {es : List BTreeInnerEntry} {p : BTreeInnerPage},
      SortedBy BTreeInnerEntry.separatorKey (p.entries ++ es) →
        p.entries.length + es.length ≤ maxKeys →
          p.insertSeparators es = ({ p with entries := p.entries ++ es }, none)
  | [], p, _, _ => by simp [insertSeparators]
  | e :: es, p, h, hl => by
    obtain ⟨h₁, -, h₁₂⟩ := SortedBy.append_iff.1 h
    have hlt : ∀ x ∈ p.entries, x.separatorKey < e.separatorKey := fun x hx =>
      h₁₂ x hx e (List.mem_cons_self ..)
    rw [List.length_cons] at hl
    rw [insertSeparators, insertSeparator_of_absent h₁ (by rw [numKeys]; omega)
      fun x hx => (hlt x hx).ne]
    dsimp only
    rw [insertBy_last hlt, insertSeparators_append (by simpa using h)
      (by simp only [List.length_append, List.length_singleton]; omega)]
    simp

/-- Copying sorted separators into a fresh page. -/
theorem insertSeparators_init {id l : LPageId} (h : SortedBy BTreeInnerEntry.separatorKey es)
    (hl : es.length ≤ maxKeys) :
    (init id l).insertSeparators es = (⟨id, l, es⟩, none) := by
  rw [insertSeparators_append (by simpa [init] using h) (by simpa [init] using hl)]
  rfl

theorem deleteSeparator_cut (hp : p.entries = xs ++ e :: ys) :
    p.deleteSeparator xs.length = .ok { p with entries := xs ++ ys } := by
  rw [deleteSeparator, if_neg (by rw [numKeys, hp]; simp), hp, eraseIdx_cut]

end BTreeInnerPage
end Abdb
