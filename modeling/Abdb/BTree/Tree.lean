/-
# When a page store holds a B-tree

The representation invariant, stated page by page.  A `Layout` gives every page of the
tree its level above the leaves and the key range `[lo, hi)` it is responsible for; a
page is well formed (`PageOk`) when its keys lie in its range, an inner page's children
partition that range one level below, and a leaf's links lead to the leaves with the
adjacent ranges.  Ranges of one level are disjoint, so a key has at most one page on
each level (`Tree.unique`), and the root covers every key.

An operation changes a tree in several steps, and between them a separator may be due
in a parent, or a new root above the old one, or a link in a right sibling.  A `Dues`
records what is due where; the tree is then the one the pages describe once the dues
are settled.  A tree at rest has no dues.
-/

import Abdb.BTree.Machine

namespace Abdb
namespace BTree

open Lib

/-- The number of keys: every `u64` lies below it. -/
def keyBound : ℕ := 2 ^ 64

/-- What a page is responsible for: the keys `lo ≤ k < hi`, `level` steps above the
leaves. -/
structure Span where
  level : ℕ
  lo : ℕ
  hi : ℕ
deriving DecidableEq

/-- The span of every page of the tree. -/
abbrev Layout := LPageId → Option Span

/-- Page `p` covers `[lo, hi)` at a level. -/
def Layout.Covers (F : Layout) (level : ℕ) (p : LPageId) (lo hi : ℕ) : Prop :=
  F p = some ⟨level, lo, hi⟩ ∧ lo < hi

/-- Changes still to be made: a separator due in an inner page, the separator of a root
still to be put above the current one, the `prev_page` due in a leaf. -/
@[ext] structure Dues where
  sep : LPageId → Option BTreeInnerEntry
  root : Option BTreeInnerEntry
  prev : LPageId → Option LPageId

/-- Nothing is due. -/
def Dues.settled : Dues := ⟨fun _ => none, none, fun _ => none⟩

/-- The separators of a page with the one that is due. -/
def withDue : Option BTreeInnerEntry → List BTreeInnerEntry → List BTreeInnerEntry
  | none, es => es
  | some e, es => insertBy BTreeInnerEntry.separatorKey e es

/-- The children `c, es` partition `[lo, hi)` at a level. -/
abbrev Layout.Fenced (F : Layout) (level : ℕ) (lo : ℕ) (c : LPageId)
    (es : List BTreeInnerEntry) (hi : ℕ) : Prop :=
  Lib.Fenced BTreeInnerEntry.separatorKey BTreeInnerEntry.rightChild (F.Covers level) lo c es hi

/-- A well-formed leaf with range `[lo, hi)`. -/
structure LeafOk (F : Layout) (due : Option LPageId) (lo hi : ℕ) (p : BTreeLeafPage) :
    Prop where
  sorted : p.Sorted
  within : ∀ e ∈ p.entries, lo ≤ e.key ∧ e.key < hi
  capacity : p.numEntries ≤ BTreeLeafPage.maxEntries
  next : (hi = keyBound ∧ p.nextPage = 0) ∨ ∃ hi', F.Covers 0 p.nextPage hi hi'
  prev : (lo = 0 ∧ due.getD p.prevPage = 0) ∨ ∃ lo', F.Covers 0 (due.getD p.prevPage) lo' lo

/-- A well-formed inner page with range `[lo, hi)` whose children are at `level`. -/
structure InnerOk (F : Layout) (due : Option BTreeInnerEntry) (level : ℕ) (lo hi : ℕ)
    (p : BTreeInnerPage) : Prop where
  sorted : p.Sorted
  capacity : p.numKeys ≤ BTreeInnerPage.maxKeys
  fenced : F.Fenced level lo p.leftmostChild (withDue due p.entries) hi

/-- A well-formed page with a span. -/
def PageOk (F : Layout) (D : Dues) (id : LPageId) : Span → Option Page → Prop
  | ⟨0, lo, hi⟩, pg => ∃ p, pg = some (.leaf p) ∧ LeafOk F (D.prev id) lo hi p
  | ⟨level + 1, lo, hi⟩, pg => ∃ p, pg = some (.inner p) ∧ InnerOk F (D.sep id) level lo hi p

/-- The pages hold a B-tree under `root`, up to the dues; an index with root `0` is
empty. -/
structure Tree (F : Layout) (D : Dues) (page : LPageId → Option Page) (root : LPageId) :
    Prop where
  zero : F 0 = none
  bounds : ∀ {p s}, F p = some s → s.lo < s.hi ∧ s.hi ≤ keyBound
  disjoint : ∀ {p q ℓ a b a' b'}, F p = some ⟨ℓ, a, b⟩ → F q = some ⟨ℓ, a', b'⟩ →
    p = q ∨ b ≤ a' ∨ b' ≤ a
  ok : ∀ {p s}, F p = some s → PageOk F D p s (page p)
  empty : root = 0 → ∀ p, F p = none
  top : root ≠ 0 → ∃ h, F.Fenced h 0 root D.root.toList keyBound ∧
    ∀ {p s}, F p = some s → s.level ≤ h

/-- The entries of a leaf page. -/
def leafEntries : Option Page → List BTreeLeafEntry
  | some (.leaf l) => l.entries
  | _ => []

/-- The tree binds a key to a record: a leaf of the layout has the entry. -/
def Layout.Binds (F : Layout) (page : LPageId → Option Page) (k : ℕ) (r : RecordId) : Prop :=
  ∃ p lo hi, F p = some ⟨0, lo, hi⟩ ∧ ∃ e ∈ leafEntries (page p), e.key = k ∧ e.recordId = r

theorem Layout.Covers.lt {F : Layout} {ℓ : ℕ} {p : LPageId} {a b : ℕ} (h : F.Covers ℓ p a b) :
    a < b := h.2

theorem Layout.Covers.level {F : Layout} {ℓ ℓ' : ℕ} {p : LPageId} {a b a' b' : ℕ}
    (h : F p = some ⟨ℓ, a, b⟩) (h' : F.Covers ℓ' p a' b') : ℓ = ℓ' := by
  have := h.symm.trans h'.1
  simp only [Option.some.injEq, Span.mk.injEq] at this
  exact this.1

theorem Layout.Covers.unique {F : Layout} {ℓ : ℕ} {p : LPageId} {a b a' b' : ℕ}
    (h : F p = some ⟨ℓ, a, b⟩) (h' : F.Covers ℓ p a' b') : a' = a ∧ b' = b := by
  have := h.symm.trans h'.1
  simp only [Option.some.injEq, Span.mk.injEq, true_and] at this
  exact ⟨this.1.symm, this.2.symm⟩

namespace Tree

variable {F : Layout} {D : Dues} {page : LPageId → Option Page} {root : LPageId}
variable {p q c : LPageId} {k lo hi a b a' b' m : ℕ} {ℓ : ℕ}

theorem covers (h : Tree F D page root) (hp : F p = some ⟨ℓ, a, b⟩) : F.Covers ℓ p a b :=
  ⟨hp, (h.bounds hp).1⟩

theorem ne_zero (h : Tree F D page root) {s : Span} (hp : F p = some s) : p ≠ 0 := by
  rintro rfl
  rw [h.zero] at hp
  cases hp

theorem leaf (h : Tree F D page root) (hp : F p = some ⟨0, lo, hi⟩) :
    ∃ l, page p = some (.leaf l) ∧ LeafOk F (D.prev p) lo hi l := h.ok hp

theorem inner (h : Tree F D page root) (hp : F p = some ⟨ℓ + 1, lo, hi⟩) :
    ∃ i, page p = some (.inner i) ∧ InnerOk F (D.sep p) ℓ lo hi i := h.ok hp

theorem exists_of_span (h : Tree F D page root) {s : Span} (hp : F p = some s) :
    page p ≠ none := by
  obtain ⟨_ | ℓ, a, b⟩ := s
  · obtain ⟨l, hl, -⟩ := h.leaf hp
    simp [hl]
  · obtain ⟨i, hi, -⟩ := h.inner hp
    simp [hi]

/-- A leaf in the store that the layout knows is on level zero. -/
theorem leaf_level (h : Tree F D page root) {l : BTreeLeafPage} (hp : F p = some ⟨ℓ, lo, hi⟩)
    (hl : page p = some (.leaf l)) : ℓ = 0 ∧ LeafOk F (D.prev p) lo hi l := by
  cases ℓ with
  | zero =>
    obtain ⟨l', hl', ok⟩ := h.leaf hp
    obtain rfl : l = l' := by simpa [hl] using hl'
    exact ⟨rfl, ok⟩
  | succ ℓ =>
    obtain ⟨i, hi', -⟩ := h.inner hp
    simp [hl] at hi'

/-- An inner page that the layout knows is above the leaves. -/
theorem inner_level (h : Tree F D page root) {i : BTreeInnerPage} (hp : F p = some ⟨ℓ, lo, hi⟩)
    (hi' : page p = some (.inner i)) : ∃ ℓ', ℓ = ℓ' + 1 ∧ InnerOk F (D.sep p) ℓ' lo hi i := by
  cases ℓ with
  | zero =>
    obtain ⟨l, hl, -⟩ := h.leaf hp
    simp [hi'] at hl
  | succ ℓ =>
    obtain ⟨i', hi'', ok⟩ := h.inner hp
    obtain rfl : i = i' := by simpa [hi'] using hi''
    exact ⟨ℓ, rfl, ok⟩

/-- **A key has one page on each level.** -/
theorem unique (h : Tree F D page root) (hp : F p = some ⟨ℓ, a, b⟩) (hq : F q = some ⟨ℓ, a', b'⟩)
    (ha : a ≤ k) (hb : k < b) (ha' : a' ≤ k) (hb' : k < b') : p = q := by
  rcases h.disjoint hp hq with hpq | hpq | hpq
  · exact hpq
  · omega
  · omega

/-- The page a key is routed to from a page that covers it covers it one level below. -/
theorem child (h : Tree F D page root) (hp : F p = some ⟨ℓ + 1, lo, hi⟩) (hlo : lo ≤ k)
    (hhi : k < hi) : ∃ i c a b, page p = some (.inner i) ∧
      c ∈ childrenOf BTreeInnerEntry.rightChild i.leftmostChild (withDue (D.sep p) i.entries) ∧
      (D.sep p = none → i.findChild k = c) ∧
      F c = some ⟨ℓ, a, b⟩ ∧ lo ≤ a ∧ b ≤ hi ∧ a ≤ k ∧ k < b := by
  obtain ⟨i, hi', ok⟩ := h.inner hp
  obtain ⟨a, b, hc, ha, hb, hak, hkb⟩ := ok.fenced.route (fun _ _ _ h => h.lt) hlo hhi
  refine ⟨i, _, a, b, hi', ?_, fun hd => ?_, hc.1, ha, hb, hak, hkb⟩
  · have hmem : ∀ (es : List BTreeInnerEntry) (c : LPageId),
        route BTreeInnerEntry.separatorKey BTreeInnerEntry.rightChild k c es ∈
          childrenOf BTreeInnerEntry.rightChild c es := by
      intro es
      induction es with
      | nil => exact fun c => List.mem_cons_self ..
      | cons e es ih =>
        intro c
        rw [route]
        split_ifs
        · exact List.mem_cons_self ..
        · exact List.mem_cons_of_mem _ (ih _)
    exact hmem _ _
  · rw [hd, withDue, BTreeInnerPage.findChild_eq_route ok.sorted]

/-- A page that shares a key with a page one level above is among its children, and its
range is part of that page's. -/
theorem child_of_covers (h : Tree F D page root) (hp : F p = some ⟨ℓ + 1, lo, hi⟩)
    (hc : F c = some ⟨ℓ, a, b⟩) (hlo : lo ≤ k) (hhi : k < hi) (ha : a ≤ k) (hb : k < b) :
    ∃ i, page p = some (.inner i) ∧ InnerOk F (D.sep p) ℓ lo hi i ∧
      c ∈ childrenOf BTreeInnerEntry.rightChild i.leftmostChild (withDue (D.sep p) i.entries) ∧
      lo ≤ a ∧ b ≤ hi := by
  obtain ⟨i, c', a', b', hi', hm, -, hc', hla, hbh, hak, hkb⟩ := h.child hp hlo hhi
  obtain rfl := h.unique hc hc' ha hb hak hkb
  obtain ⟨-, -, ok⟩ := h.inner_level hp hi'
  simp only [hc, Option.some.injEq, Span.mk.injEq, true_and] at hc'
  obtain ⟨rfl, rfl⟩ := hc'
  obtain ⟨i', hi'', ok⟩ := h.inner hp
  obtain rfl : i = i' := by simpa [hi'] using hi''
  exact ⟨i, hi', ok, hm, hla, hbh⟩

/-- **Every level is complete**: below the root every key has a page on each level. -/
theorem complete (h : Tree F D page root) {h' : ℕ} (htop : F.Fenced h' 0 root D.root.toList keyBound)
    (hk : k < keyBound) : ∀ d ≤ h', ∃ p a b, F p = some ⟨h' - d, a, b⟩ ∧ a ≤ k ∧ k < b := by
  intro d
  induction d with
  | zero =>
    intro _
    obtain ⟨a, b, hc, -, -, hak, hkb⟩ := htop.route (fun _ _ _ h => h.lt) (Nat.zero_le k) hk
    exact ⟨_, a, b, hc.1, hak, hkb⟩
  | succ d ih =>
    intro hd
    obtain ⟨p, a, b, hp, hak, hkb⟩ := ih (by omega)
    rw [show h' - d = (h' - (d + 1)) + 1 by omega] at hp
    obtain ⟨i, c, a', b', -, -, -, hc, -, -, hak', hkb'⟩ := h.child hp hak hkb
    exact ⟨c, a', b', hc, hak', hkb'⟩

/-- The entries of a leaf lie in its range. -/
theorem within (h : Tree F D page root) (hp : F p = some ⟨0, lo, hi⟩) {e : BTreeLeafEntry}
    (he : e ∈ leafEntries (page p)) : lo ≤ e.key ∧ e.key < hi := by
  obtain ⟨l, hl, ok⟩ := h.leaf hp
  rw [hl] at he
  exact ok.within e he

/-- The bindings of a key are those of the leaf that covers it. -/
theorem binds_iff (h : Tree F D page root) {r : RecordId} (hp : F p = some ⟨0, lo, hi⟩)
    (hlo : lo ≤ k) (hhi : k < hi) :
    F.Binds page k r ↔ ∃ e ∈ leafEntries (page p), e.key = k ∧ e.recordId = r := by
  constructor
  · rintro ⟨q, a, b, hq, e, he, rfl, hr⟩
    obtain ⟨ha, hb⟩ := h.within hq he
    obtain rfl := h.unique hp hq hlo hhi ha hb
    exact ⟨e, he, rfl, hr⟩
  · rintro ⟨e, he, hk, hr⟩
    exact ⟨p, lo, hi, hp, e, he, hk, hr⟩

/-- A key is bound to at most one record. -/
theorem binds_unique (h : Tree F D page root) {r r' : RecordId} (hr : F.Binds page k r)
    (hr' : F.Binds page k r') : r = r' := by
  obtain ⟨p, lo, hi, hp, e, he, rfl, rfl⟩ := hr
  obtain ⟨ha, hb⟩ := h.within hp he
  obtain ⟨e', he', hk', rfl⟩ := (h.binds_iff hp ha hb).1 hr'
  obtain ⟨l, hl, ok⟩ := h.leaf hp
  rw [hl] at he he'
  rw [ok.sorted.eq_of_key_eq he' he hk']

/-- Only keys below the bound are bound. -/
theorem lt_of_binds (h : Tree F D page root) {r : RecordId} (hr : F.Binds page k r) :
    k < keyBound := by
  obtain ⟨p, lo, hi, hp, e, he, rfl, -⟩ := hr
  exact (h.within hp he).2.trans_le (h.bounds hp).2

end Tree

/-- The pages hold a tree at rest with the spans of a layout, and the rest of the page
supply is unused. -/
structure Store.Rests (S : PageSupply) (F : Layout) (st : Store) : Prop where
  tree : Tree F .settled st.page st.root
  fresh : ∀ i, st.allocated ≤ i → st.page (S.id i) = none

/-- The store holds a tree at rest. -/
def Store.Valid (S : PageSupply) (st : Store) : Prop := ∃ F, st.Rests S F

/-- An index file just initialised is valid. -/
theorem Store.rests_empty {S : PageSupply} : Store.empty.Rests S fun _ => none :=
  ⟨⟨rfl, nofun, nofun, nofun, fun _ _ => rfl, fun h => absurd rfl h⟩, fun _ _ => rfl⟩

theorem Store.valid_empty {S : PageSupply} : Store.empty.Valid S := ⟨_, Store.rests_empty⟩

/-- The next page of the supply is nonzero and outside the tree. -/
theorem Tree.fresh {S : PageSupply} {F : Layout} {D : Dues} {page : LPageId → Option Page}
    {root : LPageId} {alloc : ℕ} (h : Tree F D page root)
    (hfresh : ∀ i, alloc ≤ i → page (S.id i) = none) : S.id alloc ≠ 0 ∧ F (S.id alloc) = none := by
  refine ⟨S.ne_zero _, ?_⟩
  by_contra hne
  obtain ⟨s, hs⟩ := Option.ne_none_iff_exists'.1 hne
  exact h.exists_of_span hs (hfresh _ le_rfl)

end BTree
end Abdb
