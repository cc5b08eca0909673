/-
# Concurrent additions

Any number of `add_page` calls on one directory that take turns between two accesses.  No
lock is held from one access to the next, so a call may find that what it read is out of
date when it writes.  The model remembers beside each call what it has read (`Memo`), and
beside the pages the key range each of them answers for (`spans`): a split leaves the lower
half of the range to the old page and gives the upper one to the new page, a new root
answers for all keys.  Neither takes part in a step.

`Current` is the condition that a step does not act on outdated knowledge: what it puts into
the cache or writes was made from the page that is there, the key it writes belongs to that
page, and the root is the one the call went down from.
-/

import Mathlib.Logic.Relation
import Abdb.Directory.Alone

namespace Abdb

/-- What a directory page says, but for the `prev_page` of a leaf. -/
def Directory.DirPage.body : Directory.DirPage → Directory.DirPage
  | .leaf l => .leaf (l.setPrevPage 0)
  | pg => pg

namespace Directory

open Lib

/-- What a call has read: the root it went down from, the pages as it read them last, and the
page that its key or separator is to go into. -/
structure Memo where
  root : DirPageId
  pages : DirPageId → Option DirPage
  aim : Option (DirPageId × ℕ)

namespace Memo

def empty : Memo := ⟨0, fun _ => none, none⟩

/-- `read_page` has returned a page. -/
def see (m : Memo) (id : DirPageId) (page : DirPage) (r : Reading) : Memo where
  root := m.root
  pages := Function.update m.pages id (some page)
  aim :=
    match r with
    | .leaf op _ => some (id, op.key)
    | .parent _ sep _ => some (id, sep)
    | _ => m.aim

/-- What the call has read after its next access. -/
def after (d : BTreePageDirectory) (m : Memo) : Pc → Memo
  | .start _ => { m with root := d.rootPage }
  | .locate _ => { m with root := d.rootPage }
  | .readPage id r =>
    match d.cache id with
    | some page => m.see id page r
    | none => m
  | .cachePage id page r => m.see id page r
  | _ => m

end Memo

namespace Pc

/-- The separator that a call is about to take to a parent, with the page it is for. -/
def rising : Pc → Option (ℕ × DirPageId)
  | .alloc (.newRoot _ sep newChild) => some (sep, newChild)
  | .readPage _ (.parent _ sep newChild) => some (sep, newChild)
  | .oldRoot sep newChild => some (sep, newChild)
  | _ => none

end Pc

/-- Page `id` leaves the keys from `sep` on to page `n`. -/
def Layout.cut (F : Layout) (id : DirPageId) (sep : ℕ) (n : DirPageId) : Layout :=
  match F id with
  | some ⟨ℓ, lo, hi⟩ => F.split id n ℓ lo sep hi
  | none => F

/-- Page `n` answers for all keys, above the page that did so. -/
def Layout.raise (F : Layout) (root n : DirPageId) : Layout :=
  match F root with
  | some ⟨ℓ, _, _⟩ => F.add n (ℓ + 1) 0 idBound
  | none => F.add n 0 0 idBound

/-- The spans after the next access of a call: the write of the old half of a split cuts its
page, and a new root answers for all keys. -/
def spansAfter (d : BTreePageDirectory) (F : Layout) : Pc → Layout
  | .writePage id _ next =>
    match next.rising with
    | some (sep, n) => Layout.cut F id sep n
    | none => F
  | .setRoot n => Layout.raise F d.rootPage n
  | _ => F

/-- A directory, the calls that work on it and what each has read, and the key range of every
page. -/
structure Sys (ι : Type) where
  dir : BTreePageDirectory
  pc : ι → Pc
  memo : ι → Memo
  spans : Layout

namespace Sys

variable {ι : Type} [DecidableEq ι]

/-- Task `i` makes its next access. -/
def step (σ : Sys ι) (i : ι) : Sys ι where
  dir := (Directory.step σ.dir (σ.pc i)).1
  pc := Function.update σ.pc i (Directory.step σ.dir (σ.pc i)).2
  memo := Function.update σ.memo i ((σ.memo i).after σ.dir (σ.pc i))
  spans := spansAfter σ.dir σ.spans (σ.pc i)

/-- A run whose steps all meet a condition on the state and the task that moves. -/
def Run (C : Sys ι → ι → Prop) : Sys ι → Sys ι → Prop :=
  Relation.ReflTransGen fun σ σ' => ∃ i, C σ i ∧ σ' = σ.step i

/-- The tasks that move next, one after the other, and each step meets the condition. -/
def Legal (C : Sys ι → ι → Prop) : Sys ι → List ι → Prop
  | _, [] => True
  | σ, i :: l => C σ i ∧ Legal C (σ.step i) l

instance {C : Sys ι → ι → Prop} [∀ σ i, Decidable (C σ i)] :
    ∀ (σ : Sys ι) (l : List ι), Decidable (Legal C σ l)
  | _, [] => isTrue trivial
  | σ, i :: l => @instDecidableAnd _ _ inferInstance (instDecidableLegal (σ.step i) l)

theorem Legal.run {C : Sys ι → ι → Prop} {σ : Sys ι} {l : List ι} (h : Legal C σ l) :
    Run C σ (l.foldl step σ) := by
  induction l generalizing σ with
  | nil => exact .refl
  | cons i l ih =>
    obtain ⟨hc, hl⟩ := h
    exact .head ⟨i, hc, rfl⟩ (ih hl)

/-- Additions to a directory with the given key ranges, none of which has taken a step. -/
def adding (d : BTreePageDirectory) (F : Layout) (key : ι → LPageId) (loc : ι → PPageId) : Sys ι :=
  ⟨d, fun i => .start (.addPage (key i) (loc i)), fun _ => .empty, F⟩

end Sys

/-- The page still says what it did when it was read, `prev_page` aside. -/
def SameBody (now : Option DirPage) (pg : DirPage) : Prop := now.map DirPage.body = some pg.body

/-- The key belongs to the page. -/
def Layout.Has (F : Layout) (id : DirPageId) (k : ℕ) : Prop :=
  ∃ ℓ lo hi, F id = some ⟨ℓ, lo, hi⟩ ∧ lo ≤ k ∧ k < hi

/-- **The access does not act on outdated knowledge**: a page that `read_page` puts into the
cache, and a page that a write replaces, still says what it did when it was read; the key or
separator that is written belongs to the page; and the root is the one that the call went
down from.  The header page is free. -/
def Current (d : BTreePageDirectory) (F : Layout) (m : Memo) : Pc → Prop
  | .cachePage id page _ => id ≠ 0 → SameBody (d.page id) page
  | .writePage id _ _ => id ≠ 0 → ∀ pg, m.pages id = some pg →
    SameBody (d.page id) pg ∧ ∀ k, m.aim = some (id, k) → F.Has id k
  | .oldRoot _ _ => d.rootPage = m.root
  | .setRoot _ => d.rootPage = m.root
  | _ => True

instance (o : Option DirPage) (pg : DirPage) : Decidable (SameBody o pg) :=
  inferInstanceAs (Decidable (_ = _))

instance (F : Layout) (id : DirPageId) (k : ℕ) : Decidable (F.Has id k) :=
  match hF : F id with
  | none => isFalse fun ⟨_, _, _, h, _⟩ => by rw [hF] at h; cases h
  | some ⟨ℓ, lo, hi⟩ =>
    if hk : lo ≤ k ∧ k < hi then isTrue ⟨ℓ, lo, hi, hF, hk⟩
    else isFalse fun ⟨ℓ', lo', hi', h, hk'⟩ => by
      rw [hF, Option.some.injEq, Extent.mk.injEq] at h
      obtain ⟨-, rfl, rfl⟩ := h
      exact hk hk'

instance (F : Layout) (m : Memo) (id : DirPageId) :
    Decidable (∀ k, m.aim = some (id, k) → F.Has id k) :=
  decidable_of_iff (∀ x ∈ m.aim, x.1 = id → F.Has id x.2)
    ⟨fun h k hk => h (id, k) hk rfl, by rintro h ⟨_, k⟩ hx rfl; exact h k hx⟩

instance (d : BTreePageDirectory) (m : Memo) (id : DirPageId) (P : Prop) [Decidable P] :
    Decidable (∀ pg, m.pages id = some pg → SameBody (d.page id) pg ∧ P) :=
  inferInstanceAs (Decidable (∀ pg ∈ m.pages id, SameBody (d.page id) pg ∧ P))

instance (d : BTreePageDirectory) (F : Layout) (m : Memo) :
    ∀ pc, Decidable (Current d F m pc)
  | .cachePage id page _ => inferInstanceAs (Decidable (id ≠ 0 → SameBody (d.page id) page))
  | .writePage id _ _ => inferInstanceAs (Decidable (id ≠ 0 → ∀ pg, m.pages id = some pg →
      SameBody (d.page id) pg ∧ ∀ k, m.aim = some (id, k) → F.Has id k))
  | .oldRoot .. => inferInstanceAs (Decidable (d.rootPage = m.root))
  | .setRoot _ => inferInstanceAs (Decidable (d.rootPage = m.root))
  | .start _ | .locate _ | .readPage .. | .readFile .. | .markDirty .. | .alloc _ | .nextPageId _
  | .done _ => .isTrue trivial

/-- The next access of task `i` does not act on outdated knowledge. -/
def UpToDate {ι : Type} (σ : Sys ι) (i : ι) : Prop :=
  Current σ.dir σ.spans (σ.memo i) (σ.pc i)

instance {ι : Type} (σ : Sys ι) (i : ι) : Decidable (UpToDate σ i) :=
  inferInstanceAs (Decidable (Current ..))

/-! ### Bodies -/

theorem SameBody.refl (pg : DirPage) : SameBody (some pg) pg := rfl

theorem SameBody.leaf {o : Option DirPage} {l : DirectoryLeafPage} (h : SameBody o (.leaf l)) :
    ∃ l', o = some (.leaf l') ∧ l'.entries = l.entries ∧ l'.nextPage = l.nextPage := by
  obtain ⟨pg, rfl, hpg⟩ := Option.map_eq_some_iff.1 h
  cases pg with
  | leaf l' =>
    simp only [DirPage.body, DirPage.leaf.injEq, DirectoryLeafPage.setPrevPage,
      DirectoryLeafPage.mk.injEq] at hpg
    exact ⟨l', rfl, hpg.2.2.2, hpg.2.1⟩
  | _ => cases hpg

theorem SameBody.inner {o : Option DirPage} {i : DirectoryInnerPage} (h : SameBody o (.inner i)) :
    o = some (.inner i) := by
  obtain ⟨pg, rfl, hpg⟩ := Option.map_eq_some_iff.1 h
  cases pg with
  | inner i' =>
    have hpg : DirPage.inner i' = .inner i := hpg
    rw [hpg]
  | _ => cases hpg

/-- **A page that says the same** makes the same tree. -/
theorem Tree.sameBody {F : Layout} {due : DirPageId → Prop} {page : Pages} {root id : DirPageId}
    (h : Tree F due page root) {pg : DirPage} (hsame : id ≠ 0 → SameBody (page id) pg) :
    Tree F due (Function.update page id (some pg)) root ∧
      ∀ k l, Binds F (Function.update page id (some pg)) k l ↔ Binds F page k l := by
  cases hF : F id with
  | none =>
    refine ⟨h.outside hF pg, fun k l => binds_congr (fun _ _ _ => Iff.rfl) fun p lo hi hp => ?_⟩
    rw [Function.update_of_ne (h.ne_of_none hF hp).1]
  | some x =>
    obtain ⟨ℓ, lo, hi⟩ := x
    have hsame := hsame (h.ne_zero_of_at (Extents.at_of hF))
    cases pg with
    | leaf l =>
      obtain ⟨l', hl', hent, hnext⟩ := hsame.leaf
      obtain ⟨rfl, ok⟩ := h.leaf_level hF hl'
      have ok' : LeafOk F lo hi l := by
        refine ⟨?_, ?_, ?_, ?_⟩
        · rw [DirectoryLeafPage.Sorted, ← hent]
          exact ok.sorted
        · rw [← hent]
          exact ok.within
        · rw [DirectoryLeafPage.numEntries, ← hent]
          exact ok.capacity
        · rw [← hnext]
          exact ok.next
      refine ⟨h.setLeaf hF ok', fun k r => binds_congr (fun _ _ _ => Iff.rfl) fun p lo hi _ => ?_⟩
      by_cases hp : p = id
      · rw [hp, Function.update_self, hl']
        exact hent.symm
      · rw [Function.update_of_ne hp]
    | inner i =>
      rw [← hsame.inner, Function.update_eq_self]
      exact ⟨h, fun _ _ => Iff.rfl⟩
    | header hd =>
      exfalso
      obtain ⟨pg, hpg, hbody⟩ := Option.map_eq_some_iff.1 hsame
      cases ℓ with
      | zero =>
        obtain ⟨l, hl, -⟩ := h.leaf hF
        rw [hl, Option.some.injEq] at hpg
        subst hpg
        cases hbody
      | succ ℓ =>
        obtain ⟨i, hi, -⟩ := h.inner hF
        rw [hi, Option.some.injEq] at hpg
        subst hpg
        cases hbody

end Directory
end Abdb
