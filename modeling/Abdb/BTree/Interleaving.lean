/-
# The invariant of interleaved inserts

While inserts interleave, the pages hold a tree up to the separators and links that
unfinished splits still owe it.  Each due belongs to one task (`Ledger`), which holds
the latch of the page it is due in, so tasks that hold different latches change
different parts of the tree.

The one latch nobody holds is the root's while the root pointer is read: an insert
latches the page it read later, when it may have split.  `RootCurrent` is the condition
that this does not happen; under it every step keeps the invariant `Inv`
(`Abdb.BTree.InsertRace`).
-/

import Abdb.BTree.Concurrent
import Abdb.BTree.InsertTree
import Abdb.Lib.Ledger

namespace Abdb
namespace BTree

open Lib

namespace Insert

/-- The separator an insert owes, and where: in the innermost latched ancestor, or above
the root. -/
def due : InsertPc → Option (Option LPageId × BTreeInnerEntry)
  | .splitLeafSibling _ locked newLeaf separator _ => some (locked.head?, ⟨separator, newLeaf⟩)
  | .splitInnerAlloc parent _ sepKey rightChild _ _ => some (some parent, ⟨sepKey, rightChild⟩)
  | .newRootAlloc sepKey newChild => some (none, ⟨sepKey, newChild⟩)
  | .newRootHeader _ sepKey newChild => some (none, ⟨sepKey, newChild⟩)
  | _ => none

/-- The `prev_page` an insert owes, and in which leaf. -/
def duePrev : InsertPc → Option (LPageId × LPageId)
  | .splitLeafSibling _ _ newLeaf _ oldNext => some (oldNext, newLeaf)
  | _ => none

/-- The entry is in the tree already. -/
def stored : InsertPc → Bool
  | .splitLeafSibling .. | .splitInnerAlloc .. | .newRootAlloc .. | .newRootHeader ..
  | .done (.ok _) => true
  | _ => false

end Insert

namespace Task

def due : Task → Option (Option LPageId × BTreeInnerEntry)
  | insert _ _ pc => Insert.due pc
  | get .. => none

def duePrev : Task → Option (LPageId × LPageId)
  | insert _ _ pc => Insert.duePrev pc
  | get .. => none

def cut : Task → Option (LPageId × ℕ)
  | insert _ _ pc => Insert.cut pc
  | get .. => none

/-- The binding a task has added to the tree. -/
def effect : Task → Option (ℕ × RecordId)
  | insert key rid pc => if Insert.stored pc then some (key, rid) else none
  | get .. => none

end Task

/-- The step does not act on an outdated root: an insert that latches the first page of
its descent finds it still named by the header, with no split of the root waiting for
its new root to be installed; an insert that installs the first leaf finds the tree
still empty. -/
def RootCurrent {ι : Type} (σ : Sys ι) (i : ι) : Prop :=
  match σ.task i with
  | .insert _ _ (.findLeafForWrite current []) =>
    current = σ.store.root ∧ ∀ j e, (σ.task j).due ≠ some (none, e)
  | .insert _ _ (.setRoot _) => σ.store.root = 0
  | _ => True

section Descent

variable (F : Layout) (D : Dues) (page : LPageId → Option Page) (root : LPageId) (key : ℕ)

/-- What is known about an insert at its await points. -/
def InsertOk (rid : RecordId) : InsertPc → Prop
  | .setRoot n => F n = none ∧ n ≠ 0 ∧ page n = some (.leaf ⟨n, 0, 0, [Insert.newEntry key rid]⟩)
  | .findLeafForWrite current [] => current ≠ 0
  | .findLeafForWrite current (q :: rest) => ∃ ℓ a b, F current = some ⟨ℓ, a, b⟩ ∧ a ≤ key ∧
      key < b ∧ Ancestors F D page root key ℓ current (q :: rest)
  | .splitLeafAlloc leaf locked entries oldPrev oldNext => ∃ a b l, F leaf = some ⟨0, a, b⟩ ∧
      a ≤ key ∧ key < b ∧ page leaf = some (.leaf l) ∧
      BTreeLeafPage.maxEntries ≤ l.numEntries ∧ (∀ e ∈ l.entries, e.key ≠ key) ∧
      entries = insertBy BTreeLeafEntry.key (Insert.newEntry key rid) l.entries ∧
      oldPrev = l.prevPage ∧ oldNext = l.nextPage ∧ Ancestors F D page root key 0 leaf locked
  | .splitLeafSibling leaf locked _ _ oldNext => F leaf ≠ none ∧
      (∃ a b, F oldNext = some ⟨0, a, b⟩) ∧ CanTake F D page root key 0 locked
  | .splitInnerAlloc parent locked sepKey rightChild entries oldLeftmost =>
      ∃ ℓ a b i, F parent = some ⟨ℓ + 1, a, b⟩ ∧ a ≤ key ∧ key < b ∧
      page parent = some (.inner i) ∧ BTreeInnerPage.maxKeys ≤ i.numKeys ∧
      entries = insertBy BTreeInnerEntry.separatorKey ⟨sepKey, rightChild⟩ i.entries ∧
      oldLeftmost = i.leftmostChild ∧ Ancestors F D page root key (ℓ + 1) parent locked
  | .newRootAlloc .. => root ≠ 0
  | .newRootHeader n .. => root ≠ 0 ∧ F n = none ∧ n ≠ 0 ∧ page n ≠ none
  | _ => True

end Descent

/-- **The invariant.**  `B` is what the tree bound at the start. -/
structure Inv {ι : Type} (S : PageSupply) (B : ℕ → RecordId → Prop) (σ : Sys ι) (F : Layout)
    (D : Dues) : Prop where
  tree : Tree F D σ.store.page σ.store.root
  fresh : ∀ i, σ.store.allocated ≤ i → σ.store.page (S.id i) = none
  ok : ∀ {i key rid pc}, σ.task i = .insert key rid pc →
    key < keyBound ∧ InsertOk F D σ.store.page σ.store.root key rid pc
  seps : Ledger D.due fun i => (σ.task i).due
  prevs : Ledger D.prev fun i => (σ.task i).duePrev
  nodup : ∀ i, (σ.task i).holds.Nodup
  apart : ∀ {i j p}, p ∈ (σ.task i).holds → p ∈ (σ.task j).holds → i = j
  binds : ∀ k r, F.Binds σ.store.page k r ↔ B k r ∨ ∃ i, (σ.task i).effect = some (k, r)

section Frame

variable {F F' : Layout} {D D' : Dues} {page page' : LPageId → Option Page}
  {root root' : LPageId} {key : ℕ} {rid : RecordId}

/-- The pages an insert has latched exist and are not the null link. -/
theorem InsertOk.held (h : Tree F D page root) {pc : InsertPc}
    (hok : InsertOk F D page root key rid pc) {p : LPageId} (hp : p ∈ Insert.holds pc) :
    page p ≠ none ∧ p ≠ 0 := by
  have hF : ∀ {q s}, F q = some s → page q ≠ none ∧ q ≠ 0 := fun hq =>
    ⟨h.exists_of_span hq, h.ne_zero hq⟩
  have hanc : ∀ {locked ℓ q}, Ancestors F D page root key ℓ q locked → p ∈ locked →
      page p ≠ none ∧ p ≠ 0 := by
    intro locked
    induction locked with
    | nil => intro ℓ q _ hm; cases hm
    | cons q' rest ih =>
      rintro ℓ q ⟨⟨a, b, hq, -⟩, hrest⟩ hm
      rcases List.mem_cons.1 hm with rfl | hm
      · exact hF hq
      · exact ih hrest hm
  cases pc with
  | setRoot n =>
    obtain rfl := List.mem_singleton.1 hp
    exact ⟨by rw [hok.2.2]; simp, hok.2.1⟩
  | findLeafForWrite current locked =>
    cases locked with
    | nil => cases hp
    | cons q rest =>
      obtain ⟨ℓ, a, b, -, -, -, hA⟩ := hok
      exact hanc hA hp
  | splitLeafAlloc leaf locked entries oldPrev oldNext =>
    obtain ⟨a, b, l, hl, -, -, -, -, -, -, -, -, hA⟩ := hok
    rcases List.mem_cons.1 hp with rfl | hp
    · exact hF hl
    · exact hanc hA hp
  | splitLeafSibling leaf locked n sep oldNext =>
    obtain ⟨hleaf, -, hA⟩ := hok
    rcases List.mem_cons.1 hp with rfl | hp
    · obtain ⟨s, hs⟩ := Option.ne_none_iff_exists'.1 hleaf
      exact hF hs
    · cases locked with
      | nil => cases hp
      | cons q rest =>
        obtain ⟨⟨a, b, hq, -⟩, hrest⟩ := hA
        rcases List.mem_cons.1 hp with rfl | hp
        · exact hF hq
        · exact hanc hrest hp
  | splitInnerAlloc parent locked sep c entries l =>
    obtain ⟨ℓ, a, b, i, hq, -, -, -, -, -, -, hA⟩ := hok
    rcases List.mem_cons.1 hp with rfl | hp
    · exact hF hq
    · exact hanc hA hp
  | newRootHeader n sep c =>
    obtain rfl := List.mem_singleton.1 hp
    exact ⟨hok.2.2.2, hok.2.2.1⟩
  | _ => cases hp

/-- **An insert does not notice what happens to pages it has not latched**, as long as
the page it is about to latch keeps its span and tree pages keep their level. -/
theorem InsertOk.frame {pc : InsertPc} (h : InsertOk F D page root key rid pc)
    (hF : ∀ p ∈ Insert.holds pc, F' p = F p ∧ page' p = page p)
    (hlevel : ∀ p s, F p = some s → ∃ s', F' p = some s' ∧ s'.level = s.level)
    (hcur : ∀ c q rest, pc = .findLeafForWrite c (q :: rest) → F' c = F c)
    (hroot : ∀ p ∈ Insert.holds pc, p = root → D.root = none → p = root' ∧ D'.root = none)
    (hroot0 : root ≠ 0 → root' ≠ 0) : InsertOk F' D' page' root' key rid pc := by
  cases pc with
  | setRoot n =>
    obtain ⟨h₁, h₂, h₃⟩ := h
    obtain ⟨hf, hp⟩ := hF n (List.mem_singleton_self n)
    exact ⟨hf.trans h₁, h₂, hp.trans h₃⟩
  | findLeafForWrite current locked =>
    cases locked with
    | nil => exact h
    | cons q rest =>
      obtain ⟨ℓ, a, b, hc, ha, hb, ⟨c, d, hq, hk⟩, hA⟩ := h
      refine ⟨ℓ, a, b, (hcur _ _ _ rfl).trans hc, ha, hb,
        ⟨c, d, (hF q (List.mem_cons_self ..)).1.trans hq, hk⟩, hA.frame hF hroot⟩
  | splitLeafAlloc leaf locked entries oldPrev oldNext =>
    obtain ⟨a, b, l, hl, ha, hb, hp, hcap, habs, he, h₁, h₂, hA⟩ := h
    obtain ⟨hf, hpg⟩ := hF leaf (List.mem_cons_self ..)
    exact ⟨a, b, l, hf.trans hl, ha, hb, hpg.trans hp, hcap, habs, he, h₁, h₂, hA.frame hF hroot⟩
  | splitLeafSibling leaf locked n sep oldNext =>
    obtain ⟨hl, ⟨a, b, ho⟩, hA⟩ := h
    refine ⟨fun h0 => hl ?_, ?_, ?_⟩
    · rwa [← (hF leaf (List.mem_cons_self ..)).1]
    · obtain ⟨⟨ℓ, a', b'⟩, hs, hlev⟩ := hlevel _ _ ho
      obtain rfl : ℓ = 0 := hlev
      exact ⟨a', b', hs⟩
    · exact hA.frame (fun x hx => hF x (List.mem_cons_of_mem _ hx))
        (fun x hx => hroot x (List.mem_cons_of_mem _ hx)) hroot0
  | splitInnerAlloc parent locked sep c entries l =>
    obtain ⟨ℓ, a, b, i, hp, ha, hb, hi, hcap, he, hl, hA⟩ := h
    obtain ⟨hf, hpg⟩ := hF parent (List.mem_cons_self ..)
    exact ⟨ℓ, a, b, i, hf.trans hp, ha, hb, hpg.trans hi, hcap, he, hl, hA.frame hF hroot⟩
  | newRootAlloc sep c => exact hroot0 h
  | newRootHeader n sep c =>
    obtain ⟨h₁, h₂, h₃, h₄⟩ := h
    obtain ⟨hf, hp⟩ := hF n (List.mem_singleton_self n)
    exact ⟨hroot0 h₁, hf.trans h₂, h₃, by rwa [hp]⟩
  | _ => trivial

end Frame

end BTree
end Abdb
