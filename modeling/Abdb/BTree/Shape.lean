/-
# The shape of the tree

The representation invariant as a reader of the pages sees it, with no layout: the pages
a number of child pointers below the root (`pagesAt`), the pointers between them, their
keys, and the chain of the leaves (`Linked`).  A tree at rest has this shape
(`Tree.wellShaped`), so every index does that calls run one after the other have built
(`index_shape`).
-/

import Abdb.BTree.Index
import Abdb.Lib.Tiling

namespace Abdb
namespace BTree

open Lib

/-- The child pointers of a page, left to right. -/
def childPages : Option Page → List LPageId
  | some (.inner p) => childrenOf BTreeInnerEntry.rightChild p.leftmostChild p.entries
  | _ => []

/-- The pages a number of child pointers below a page, left to right, each as often as a
path leads to it. -/
def pagesAt (page : LPageId → Option Page) : ℕ → LPageId → List LPageId
  | 0, q => [q]
  | d + 1, q => (childPages (page q)).flatMap (pagesAt page d)

/-- The page reached by following leftmost children. -/
def leftmostPage (page : LPageId → Option Page) : ℕ → LPageId → LPageId
  | 0, q => q
  | d + 1, q =>
    match page q with
    | some (.inner p) => leftmostPage page d p.leftmostChild
    | _ => q

/-- Some path of child pointers leads to the page. -/
def Reachable (page : LPageId → Option Page) (root p : LPageId) : Prop :=
  ∃ d, p ∈ pagesAt page d root

/-- A page of the tree. -/
def Store.InTree (st : Store) (p : LPageId) : Prop := st.root ≠ 0 ∧ Reachable st.page st.root p

/-- Following `next_page` from a page visits these leaves and ends at `0`, and each one's
`prev_page` leads back. -/
def Linked (page : LPageId → Option Page) : LPageId → LPageId → List LPageId → Prop
  | _, cur, [] => cur = 0
  | prev, cur, p :: ps =>
    cur = p ∧ p ≠ 0 ∧
      ∃ l, page p = some (.leaf l) ∧ l.prevPage = prev ∧ Linked page p l.nextPage ps

/-- A B-tree of a height under a root. -/
structure WellShaped (page : LPageId → Option Page) (root : LPageId) (height : ℕ) : Prop where
  /-- A page is a leaf at the height of the tree and an inner page above it, its keys are
  strictly increasing and within its capacity. -/
  pages : ∀ d, ∀ p ∈ pagesAt page d root,
    (d = height ∧ ∃ l, page p = some (.leaf l) ∧ l.Sorted ∧
      l.numEntries ≤ BTreeLeafPage.maxEntries) ∨
    (d < height ∧ ∃ i, page p = some (.inner i) ∧ i.Sorted ∧ i.numKeys ≤ BTreeInnerPage.maxKeys)
  /-- One child pointer leads to every page but the root. -/
  parent : ∀ p, Reachable page root p → p ≠ root →
    ∃! x : LPageId × ℕ, Reachable page root x.1 ∧ (childPages (page x.1))[x.2]? = some p
  /-- No child pointer leads to the root. -/
  top : ∀ q, Reachable page root q → root ∉ childPages (page q)
  /-- The keys left of a separator are below it. -/
  left : ∀ q i xs e ys, Reachable page root q → page q = some (.inner i) →
    i.entries = xs ++ e :: ys →
    ∀ c ∈ childrenOf BTreeInnerEntry.rightChild i.leftmostChild xs, ∀ p, Reachable page c p →
      ∀ x ∈ leafEntries (page p), x.key < e.separatorKey
  /-- The keys right of a separator are not below it. -/
  right : ∀ q i xs e ys, Reachable page root q → page q = some (.inner i) →
    i.entries = xs ++ e :: ys →
    ∀ c ∈ childrenOf BTreeInnerEntry.rightChild e.rightChild ys, ∀ p, Reachable page c p →
      ∀ x ∈ leafEntries (page p), e.separatorKey ≤ x.key
  /-- The chain of the leaves. -/
  chain : Linked page 0 (leftmostPage page height root) (pagesAt page height root)
  /-- The chain is in key order. -/
  ordered : SortedBy BTreeLeafEntry.key
    ((pagesAt page height root).flatMap fun p => leafEntries (page p))

variable {page : LPageId → Option Page} {p q c root : LPageId} {d : ℕ}

/-- The last child pointer on the way to a page. -/
theorem mem_pagesAt_succ :
    p ∈ pagesAt page (d + 1) q ↔ ∃ r ∈ pagesAt page d q, p ∈ childPages (page r) := by
  induction d generalizing q with
  | zero => simp [pagesAt]
  | succ d ih =>
    have hstep : p ∈ pagesAt page (d + 1 + 1) q ↔
        ∃ c ∈ childPages (page q), p ∈ pagesAt page (d + 1) c := List.mem_flatMap
    have hstep' : ∀ r, r ∈ pagesAt page (d + 1) q ↔
        ∃ c ∈ childPages (page q), r ∈ pagesAt page d c := fun _ => List.mem_flatMap
    simp only [hstep, hstep', ih]
    constructor
    · rintro ⟨c, hc, r, hr, hp⟩
      exact ⟨r, ⟨c, hc, hr⟩, hp⟩
    · rintro ⟨r, ⟨c, hc, hr⟩, hp⟩
      exact ⟨c, hc, r, hr, hp⟩

namespace Tree

variable {F : Layout} {D : Dues} {ℓ lo hi a b : ℕ}

/-- The pages below a page tile its range. -/
theorem pagesAt_tiles (h : Tree F .settled page root) (hq : F.Covers (ℓ + d) q lo hi) :
    Tiles (F.Covers ℓ) lo (pagesAt page d q) hi := by
  induction d generalizing q lo hi with
  | zero => exact ⟨hi, hq, rfl⟩
  | succ d ih =>
    obtain ⟨i, hi', ok⟩ := h.inner (ℓ := ℓ + d) hq.1
    rw [pagesAt, hi']
    exact ok.fenced.tiles.flatMap fun _ _ _ hc => ih hc

/-- A page below another is that many levels lower, within its range. -/
theorem span_of_mem (h : Tree F .settled page root) (hq : F q = some ⟨ℓ, lo, hi⟩)
    (hp : p ∈ pagesAt page d q) :
    ∃ ℓ' a b, ℓ = ℓ' + d ∧ F p = some ⟨ℓ', a, b⟩ ∧ lo ≤ a ∧ b ≤ hi := by
  induction d generalizing q ℓ lo hi with
  | zero =>
    obtain rfl : p = q := List.mem_singleton.1 hp
    exact ⟨ℓ, lo, hi, rfl, hq, le_rfl, le_rfl⟩
  | succ d ih =>
    obtain ⟨c, hc, hp'⟩ := List.mem_flatMap.1 hp
    cases ℓ with
    | zero =>
      obtain ⟨l, hl, -⟩ := h.leaf hq
      rw [hl] at hc
      cases hc
    | succ ℓ =>
      obtain ⟨i, hi', ok⟩ := h.inner hq
      rw [hi'] at hc
      obtain ⟨a, b, hab, ha, hb⟩ := ok.fenced.covers (fun _ _ _ h => h.lt) hc
      obtain ⟨ℓ', a', b', hℓ, hspan, ha', hb'⟩ := ih hab.1 hp'
      exact ⟨ℓ', a', b', by omega, hspan, ha.trans ha', hb'.trans hb⟩

/-- The child pointers of a page lead one level down, into its range. -/
theorem span_of_child (h : Tree F .settled page root) (hq : F q = some ⟨ℓ, lo, hi⟩)
    (hc : c ∈ childPages (page q)) :
    ∃ ℓ' a b, ℓ = ℓ' + 1 ∧ F c = some ⟨ℓ', a, b⟩ ∧ lo ≤ a ∧ b ≤ hi :=
  h.span_of_mem (d := 1) hq (mem_pagesAt_succ.2 ⟨q, List.mem_singleton.2 rfl, hc⟩)

theorem childPages_nodup (h : Tree F .settled page root) (hq : F q = some ⟨ℓ, lo, hi⟩) :
    (childPages (page q)).Nodup := by
  cases ℓ with
  | zero =>
    obtain ⟨l, hl, -⟩ := h.leaf hq
    rw [hl]
    exact List.nodup_nil
  | succ ℓ =>
    obtain ⟨i, hi', ok⟩ := h.inner hq
    rw [hi']
    exact ok.fenced.tiles.nodup (fun _ _ _ h => h.lt) fun _ _ _ _ _ h₁ h₂ => Layout.Covers.unique h₁.1 h₂

/-- **A page has one place under one parent.** -/
theorem pointer_unique (h : Tree F .settled page root) {q' : LPageId} {ℓ' lo' hi' : ℕ}
    (hq : F q = some ⟨ℓ, lo, hi⟩) (hq' : F q' = some ⟨ℓ', lo', hi'⟩) {i j : ℕ}
    (hi : (childPages (page q))[i]? = some p) (hj : (childPages (page q'))[j]? = some p) :
    q = q' ∧ i = j := by
  obtain ⟨m, a, b, rfl, hp, ha, hb⟩ := h.span_of_child hq (List.mem_of_getElem? hi)
  obtain ⟨m', a', b', rfl, hp', ha', hb'⟩ := h.span_of_child hq' (List.mem_of_getElem? hj)
  obtain ⟨rfl, rfl, rfl⟩ : m = m' ∧ a = a' ∧ b = b' := by
    simpa using hp.symm.trans hp'
  have hab := (h.bounds hp).1
  obtain rfl := h.unique hq hq' ha (hab.trans_le hb) ha' (hab.trans_le hb')
  refine ⟨rfl, ?_⟩
  have hlt : i < (childPages (page q)).length := (List.getElem?_eq_some_iff.1 hi).1
  exact (List.getElem?_inj hlt (h.childPages_nodup hq)).1 (hi.trans hj.symm)

/-- Every page with a span is reached from the root. -/
theorem reachable (h : Tree F .settled page root) (hq : F q = some ⟨ℓ, lo, hi⟩) :
    root ≠ 0 ∧ Reachable page root q := by
  have h0 : root ≠ 0 := by
    intro h0
    rw [h.empty h0 q] at hq
    cases hq
  obtain ⟨height, htop, hle⟩ := h.top h0
  obtain ⟨d, rfl⟩ := Nat.exists_eq_add_of_le (hle hq)
  have hlt := h.bounds hq
  obtain ⟨xs, q', ys, a', b', hps, -, hq', -, ha', hb'⟩ :=
    (h.pagesAt_tiles htop).cut (Nat.zero_le lo) (hlt.1.trans_le hlt.2)
  obtain rfl := h.unique hq hq'.1 le_rfl hlt.1 ha' hb'
  exact ⟨h0, d, by rw [hps]; exact List.mem_append_right _ (List.mem_cons_self ..)⟩

/-- The leaf left of a leaf is the one its `prev_page` leads to. -/
theorem prev_unique (h : Tree F .settled page root) {q' : LPageId}
    (hq : (lo = 0 ∧ q = 0) ∨ ∃ lo', F.Covers 0 q lo' lo)
    (hq' : (lo = 0 ∧ q' = 0) ∨ ∃ lo', F.Covers 0 q' lo' lo) : q = q' := by
  rcases hq with ⟨rfl, rfl⟩ | ⟨c, hc⟩ <;> rcases hq' with ⟨h0, rfl⟩ | ⟨c', hc'⟩
  · rfl
  · exact absurd hc'.2 (Nat.not_lt_zero _)
  · exact absurd (h0 ▸ hc.2) (Nat.not_lt_zero _)
  · have h₁ := hc.2
    have h₂ := hc'.2
    exact h.unique (k := lo - 1) hc.1 hc'.1 (by omega) (by omega) (by omega) (by omega)

/-- **The leaves of a tree are chained in order.** -/
theorem linked (h : Tree F .settled page root) {prev : LPageId} {ps : List LPageId}
    (hps : Tiles (F.Covers 0) lo (p :: ps) keyBound)
    (hprev : (lo = 0 ∧ prev = 0) ∨ ∃ lo', F.Covers 0 prev lo' lo) :
    Linked page prev p (p :: ps) := by
  induction ps generalizing p prev lo with
  | nil =>
    obtain ⟨m, hp, rfl⟩ := hps
    obtain ⟨l, hl, ok⟩ := h.leaf hp.1
    refine ⟨rfl, h.ne_zero hp.1, l, hl, ?_, ?_⟩
    · exact h.prev_unique ok.prev hprev
    · rcases ok.next with ⟨-, h0⟩ | ⟨hi', hnext⟩
      · exact h0
      · exact absurd (h.bounds hnext.1) (by simp only; have := hnext.2; omega)
  | cons q ps ih =>
    obtain ⟨m, hp, m', hq, hrest⟩ := hps
    obtain ⟨l, hl, ok⟩ := h.leaf hp.1
    refine ⟨rfl, h.ne_zero hp.1, l, hl, h.prev_unique ok.prev hprev, ?_⟩
    have hnext : l.nextPage = q := by
      rcases ok.next with ⟨rfl, -⟩ | ⟨hi', hnext⟩
      · exact absurd (h.bounds hq.1) (by simp only; have := hq.2; omega)
      · exact h.unique hnext.1 hq.1 le_rfl hnext.2 le_rfl hq.2
    rw [hnext]
    exact ih ⟨m', hq, hrest⟩ (Or.inr ⟨lo, hp⟩)

/-- The leftmost page covers the start of the range. -/
theorem leftmostPage_covers (h : Tree F .settled page root) (hq : F.Covers (ℓ + d) q lo hi) :
    ∃ b, F.Covers ℓ (leftmostPage page d q) lo b := by
  induction d generalizing q hi with
  | zero => exact ⟨hi, hq⟩
  | succ d ih =>
    obtain ⟨i, hi', ok⟩ := h.inner (ℓ := ℓ + d) hq.1
    obtain ⟨b, hb, -⟩ := ok.fenced.first fun _ _ _ h => h.lt
    rw [leftmostPage, hi']
    exact ih hb

/-- **A tree at rest is well shaped.** -/
theorem wellShaped (h : Tree F .settled page root) (h0 : root ≠ 0) :
    ∃ height, WellShaped page root height := by
  obtain ⟨height, htop, -⟩ := h.top h0
  have hroot : F.Covers (0 + height) root 0 keyBound := (Nat.zero_add height).symm ▸ htop
  have htiles : Tiles (F.Covers 0) 0 (pagesAt page height root) keyBound := h.pagesAt_tiles hroot
  have hspan : ∀ {q}, Reachable page root q → ∃ ℓ a b, ℓ ≤ height ∧ F q = some ⟨ℓ, a, b⟩ := by
    rintro q ⟨d, hd⟩
    obtain ⟨ℓ, a, b, hℓ, hq, -⟩ := h.span_of_mem htop.1 hd
    exact ⟨ℓ, a, b, by omega, hq⟩
  -- the keys of a subtree lie in the range of its root
  have hkeys : ∀ {c a b ℓ}, F c = some ⟨ℓ, a, b⟩ → ∀ p, Reachable page c p →
      ∀ x ∈ leafEntries (page p), a ≤ x.key ∧ x.key < b := by
    rintro c a b ℓ hc p ⟨d, hd⟩ x hx
    obtain ⟨ℓ', a', b', -, hp, ha, hb⟩ := h.span_of_mem hc hd
    cases ℓ' with
    | zero =>
      obtain ⟨hax, hxb⟩ := h.within hp hx
      exact ⟨ha.trans hax, hxb.trans_le hb⟩
    | succ ℓ' =>
      obtain ⟨i, hi, -⟩ := h.inner hp
      rw [hi] at hx
      cases hx
  have hcut : ∀ {q i xs e ys}, Reachable page root q → page q = some (.inner i) →
      i.entries = xs ++ e :: ys → ∃ ℓ lo hi,
        F.Fenced ℓ lo i.leftmostChild xs e.separatorKey ∧
        F.Fenced ℓ e.separatorKey e.rightChild ys hi := by
    intro q i xs e ys hq hi he
    obtain ⟨ℓ, lo, hi', -, hF⟩ := hspan hq
    obtain ⟨ℓ', rfl, ok⟩ := h.inner_level hF hi
    have hfenced : F.Fenced ℓ' lo i.leftmostChild i.entries hi' := ok.fenced
    rw [he] at hfenced
    exact ⟨ℓ', lo, hi', Fenced.append_iff.1 hfenced⟩
  refine ⟨height, ?_, ?_, ?_, ?_, ?_, ?_, ?_⟩
  · intro d p hp
    obtain ⟨ℓ, a, b, hℓ, hF, -⟩ := h.span_of_mem htop.1 hp
    cases ℓ with
    | zero =>
      obtain ⟨l, hl, ok⟩ := h.leaf hF
      exact Or.inl ⟨by omega, l, hl, ok.sorted, ok.capacity⟩
    | succ ℓ =>
      obtain ⟨i, hi, ok⟩ := h.inner hF
      exact Or.inr ⟨by omega, i, hi, ok.sorted, ok.capacity⟩
  · rintro p ⟨d, hd⟩ hne
    cases d with
    | zero => exact absurd (List.mem_singleton.1 hd) hne
    | succ d =>
      obtain ⟨q, hq, hp⟩ := mem_pagesAt_succ.1 hd
      obtain ⟨i, hi⟩ := List.getElem?_of_mem hp
      refine ⟨(q, i), ⟨⟨d, hq⟩, hi⟩, ?_⟩
      rintro ⟨q', j⟩ ⟨hq', hj⟩
      obtain ⟨_, _, _, -, hF⟩ := hspan ⟨d, hq⟩
      obtain ⟨_, _, _, -, hF'⟩ := hspan hq'
      obtain ⟨rfl, rfl⟩ := h.pointer_unique hF hF' hi hj
      rfl
  · intro q hq hmem
    obtain ⟨ℓ, a, b, hℓ, hF⟩ := hspan hq
    obtain ⟨ℓ', a', b', rfl, hF', -⟩ := h.span_of_child hF hmem
    have := Layout.Covers.level hF' htop
    omega
  · intro q i xs e ys hq hi he c hc p hp x hx
    obtain ⟨ℓ, lo, hi', hleft, -⟩ := hcut hq hi he
    obtain ⟨a, b, hab, -, hb⟩ := hleft.covers (fun _ _ _ h => h.lt) hc
    exact (hkeys hab.1 p hp x hx).2.trans_le hb
  · intro q i xs e ys hq hi he c hc p hp x hx
    obtain ⟨ℓ, lo, hi', -, hright⟩ := hcut hq hi he
    obtain ⟨a, b, hab, ha, -⟩ := hright.covers (fun _ _ _ h => h.lt) hc
    exact ha.trans (hkeys hab.1 p hp x hx).1
  · obtain ⟨b, hfirst⟩ := h.leftmostPage_covers hroot
    cases hps : pagesAt page height root with
    | nil =>
      rw [hps] at htiles
      exact absurd htiles (show ¬ 0 = keyBound by decide)
    | cons p ps =>
      rw [hps] at htiles
      obtain ⟨m, hp, -⟩ := id htiles
      rw [h.unique hfirst.1 hp.1 le_rfl hfirst.2 le_rfl hp.2]
      exact h.linked htiles (Or.inl ⟨rfl, rfl⟩)
  · refine htiles.sorted_flatMap (fun _ _ _ h => h.lt) fun p a b hp => ?_
    obtain ⟨l, hl, ok⟩ := h.leaf hp.1
    rw [hl]
    exact ⟨ok.sorted, ok.within⟩

end Tree

end BTree
end Abdb
