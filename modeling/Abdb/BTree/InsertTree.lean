/-
# The steps of `insert` on a tree

What an insert keeps latched on its way down are the ancestors that a split below could
reach (`Ancestors`); after a split they can take the separator that is due (`CanTake`).
The code of `split_leaf` and `split_inner` between two await points is here one change
of the tree each (`Tree.splitLeafFinish`, `Tree.splitInnerFinish`), whether the insert
runs alone or among others.
-/

import Abdb.BTree.Growth
import Abdb.BTree.InsertSpec

namespace Abdb
namespace BTree

open Lib

section Descent

variable (F : Layout) (D : Dues) (page : LPageId → Option Page) (root : LPageId) (key : ℕ)

/-- An inner page that can take a separator. -/
def HasRoom (p : LPageId) : Prop :=
  ∃ i, page p = some (.inner i) ∧ i.numKeys < BTreeInnerPage.maxKeys

/-- `locked` are the ancestors of page `p` on level `ℓ`, innermost first: they cover the
key, one level after the other, up to a page with room or to the root. -/
def Ancestors : ℕ → LPageId → List LPageId → Prop
  | _, p, [] => HasRoom page p ∨ p = root ∧ D.root = none
  | ℓ, _, q :: rest => (∃ a b, F q = some ⟨ℓ + 1, a, b⟩ ∧ a ≤ key ∧ key < b) ∧
      Ancestors (ℓ + 1) q rest

/-- `locked` can take a separator from level `ℓ`: its head is one level above, or there
is a root to put a new one on. -/
def CanTake (ℓ : ℕ) : List LPageId → Prop
  | [] => root ≠ 0
  | q :: rest => (∃ a b, F q = some ⟨ℓ + 1, a, b⟩ ∧ a ≤ key ∧ key < b) ∧
      Ancestors F D page root key (ℓ + 1) q rest

end Descent

variable {F F' : Layout} {D D' : Dues} {page page' : LPageId → Option Page}
  {root root' p n : LPageId} {key k : ℕ} {rid : RecordId} {locked : List LPageId} {ℓ a b : ℕ}

theorem Ancestors.frame {ℓ : ℕ} {q : LPageId} {locked : List LPageId}
    (h : Ancestors F D page root key ℓ q locked)
    (hF : ∀ p ∈ q :: locked, F' p = F p ∧ page' p = page p)
    (hroot : ∀ p ∈ q :: locked, p = root → D.root = none → p = root' ∧ D'.root = none) :
    Ancestors F' D' page' root' key ℓ q locked := by
  induction locked generalizing ℓ q with
  | nil =>
    have hm : q ∈ [q] := List.mem_singleton_self q
    rcases h with ⟨i, hi, hn⟩ | ⟨hq, hd⟩
    · exact Or.inl ⟨i, (hF q hm).2.trans hi, hn⟩
    · exact Or.inr (hroot q hm hq hd)
  | cons p rest ih =>
    obtain ⟨⟨a, b, hp, hk⟩, hrest⟩ := h
    refine ⟨⟨a, b, (hF p (by simp)).1.trans hp, hk⟩, ih hrest ?_ ?_⟩
    · exact fun x hx => hF x (List.mem_cons_of_mem _ hx)
    · exact fun x hx => hroot x (List.mem_cons_of_mem _ hx)

theorem CanTake.frame {ℓ : ℕ} {locked : List LPageId} (h : CanTake F D page root key ℓ locked)
    (hF : ∀ p ∈ locked, F' p = F p ∧ page' p = page p)
    (hroot : ∀ p ∈ locked, p = root → D.root = none → p = root' ∧ D'.root = none)
    (hroot0 : root ≠ 0 → root' ≠ 0) : CanTake F' D' page' root' key ℓ locked := by
  cases locked with
  | nil => exact hroot0 h
  | cons q rest =>
    obtain ⟨⟨c, d, hq, hk⟩, hrest⟩ := h
    exact ⟨⟨c, d, (hF q (List.mem_cons_self ..)).1.trans hq, hk⟩, hrest.frame hF hroot⟩

/-- The ancestors of a page that has to split tell where its separator goes, and nothing
is due there. -/
theorem Ancestors.above (h : Ancestors F D page root key ℓ p locked) (hp : F p = some ⟨ℓ, a, b⟩)
    (ha : a ≤ key) (hb : key < b) (hfull : ¬ HasRoom page p)
    (hsep : ∀ q, locked.head? = some q → D.sep q = none) :
    F.Above root locked.head? p ∧ D.due locked.head? = none := by
  cases locked with
  | nil =>
    obtain ⟨rfl, hd⟩ := h.resolve_left hfull
    exact ⟨rfl, hd⟩
  | cons q rest =>
    obtain ⟨⟨c, d, hq, hc, hd⟩, -⟩ := h
    exact ⟨⟨ℓ, a, b, c, d, key, hp, hq, ha, hb, hc, hd⟩, hsep q rfl⟩

/-- After a page has split, its ancestors can take the separator. -/
theorem Ancestors.canTake (h : Ancestors F D page root key ℓ p locked) (hroot : root ≠ 0)
    (hF : ∀ q ∈ locked, F' q = F q ∧ page' q = page q)
    (hD : locked ≠ [] → D'.root = D.root) : CanTake F' D' page' root key ℓ locked := by
  cases locked with
  | nil => exact hroot
  | cons q rest =>
    obtain ⟨⟨c, d, hq, hk⟩, hrest⟩ := h
    have hDq := hD (List.cons_ne_nil _ _)
    refine ⟨⟨c, d, (hF q (List.mem_cons_self ..)).1.trans hq, hk⟩, hrest.frame hF ?_⟩
    exact fun x _ hx hx' => ⟨hx, hDq.trans hx'⟩

/-- The ancestors of a page are on the levels above it. -/
theorem Ancestors.level (h : Ancestors F D page root key ℓ p locked) :
    ∀ q ∈ locked, ∃ ℓ' a b, ℓ < ℓ' ∧ F q = some ⟨ℓ', a, b⟩ := by
  induction locked generalizing ℓ p with
  | nil => exact fun q hq => absurd hq List.not_mem_nil
  | cons x rest ih =>
    obtain ⟨⟨a, b, hx, -⟩, hrest⟩ := h
    intro q hq
    rcases List.mem_cons.1 hq with rfl | hq
    · exact ⟨ℓ + 1, a, b, Nat.lt_succ_self ℓ, hx⟩
    · obtain ⟨ℓ', a', b', hlt, hq⟩ := ih hrest q hq
      exact ⟨ℓ', a', b', by omega, hq⟩

/-- The ancestors of a page are neither the page itself nor a page outside the tree. -/
theorem Ancestors.ne (h : Ancestors F D page root key ℓ p locked) (hp : F p = some ⟨ℓ, a, b⟩)
    (hn : F n = none) : ∀ q ∈ locked, q ≠ p ∧ q ≠ n := by
  intro q hq
  obtain ⟨ℓ', a', b', hlt, hF⟩ := h.level q hq
  refine ⟨?_, ?_⟩
  · rintro rfl
    rw [hp] at hF
    obtain ⟨rfl, -⟩ : ℓ = ℓ' ∧ _ := by simpa using hF
    exact lt_irrefl _ hlt
  · rintro rfl
    rw [hn] at hF
    cases hF

/-- **`split_leaf` with its fresh page** splits the leaf in the tree, with the entry merged
in, and leaves the separator due above it and a new `prev_page` due in its old right
sibling. -/
theorem Tree.splitLeafFinish (h : Tree F D page root) {l : BTreeLeafPage}
    (hp : F p = some ⟨0, a, b⟩) (ha : a ≤ key) (hb : key < b) (hl : page p = some (.leaf l))
    (hfull : BTreeLeafPage.maxEntries ≤ l.numEntries) (habs : ∀ e ∈ l.entries, e.key ≠ key)
    (hA : Ancestors F D page root key 0 p locked)
    (hsep : ∀ q, locked.head? = some q → D.sep q = none) (hn : F n = none) (hn0 : n ≠ 0)
    (hnd : D.prev n = none) (rid : RecordId) :
    F.Above root locked.head? p ∧ D.due locked.head? = none ∧
    ∃ m ws page₁,
      Insert.cut (.splitLeafAlloc p locked
        (insertBy BTreeLeafEntry.key (Insert.newEntry key rid) l.entries) l.prevPage l.nextPage) =
        some (p, m) ∧
      Insert.splitLeafFinish ⟨Function.update page n (some Page.zeroed), root⟩ n p locked
        (insertBy BTreeLeafEntry.key (Insert.newEntry key rid) l.entries) l.prevPage l.nextPage =
        (if l.nextPage = 0 then
          (Insert.insertIntoAncestorsWithLocks ⟨page₁, root⟩ locked m n).after ws
        else ⟨ws, none, .splitLeafSibling p locked n m l.nextPage⟩) ∧
      writePages (Function.update page n (some Page.zeroed)) ws = page₁ ∧
      Tree (F.split p n 0 a m b) (D.split locked.head? m n l.nextPage) page₁ root ∧
      CanTake (F.split p n 0 a m b) (D.split locked.head? m n l.nextPage) page₁ root key 0
        locked ∧
      (∀ q, q ≠ p → q ≠ n → page₁ q = page q) ∧
      (l.nextPage ≠ 0 → l.nextPage ≠ p ∧
        ∃ c, (F.split p n 0 a m b) l.nextPage = some ⟨0, b, c⟩) ∧
      ∀ k r, (F.split p n 0 a m b).Binds page₁ k r ↔
        F.Binds page k r ∨ k = key ∧ r = rid := by
  obtain ⟨-, ok⟩ := h.leaf_level hp hl
  obtain ⟨ht, hdue⟩ := hA.above hp ha hb (by rintro ⟨x, hx, -⟩; rw [hl] at hx; cases hx) hsep
  -- the merged entries are cut in two
  have hs := (insertIdx_findSlot (e := Insert.newEntry key rid) ok.sorted habs).2.2
  have hlen : (insertBy BTreeLeafEntry.key (Insert.newEntry key rid) l.entries).length =
      BTreeLeafPage.maxEntries + 1 := by
    rw [length_insertBy]
    have := ok.capacity
    rw [BTreeLeafPage.numEntries] at this hfull
    omega
  obtain ⟨xs, e, ys, he, hx, hy, hget, hres⟩ := Insert.splitLeafFinish_spec hs hlen
  have hw : ∀ x ∈ xs ++ e :: ys, a ≤ x.key ∧ x.key < b := fun x hm => by
    rcases mem_insertBy.1 (he ▸ hm) with rfl | hm
    · exact ⟨ha, hb⟩
    · exact ok.within x hm
  have hpages : writePages (Function.update page n (some Page.zeroed))
      (Insert.leafWrites n p xs (e :: ys) l.prevPage l.nextPage) =
      Function.update (Function.update page n (some (.leaf ⟨n, l.nextPage, p, e :: ys⟩)))
        p (some (.leaf ⟨p, n, l.prevPage, xs⟩)) := by
    rw [Insert.leafWrites, writePages_cons, writePages_cons, writePages_nil, Function.update_idem]
  have hpg : ∀ q, q ≠ p → q ≠ n → Function.update (Function.update page n
      (some (.leaf ⟨n, l.nextPage, p, e :: ys⟩))) p (some (.leaf ⟨p, n, l.prevPage, xs⟩)) q =
      page q := fun q hqp hqn => by
    rw [Function.update_of_ne hqp, Function.update_of_ne hqn]
  refine ⟨ht, hdue, e.key, _, _, ?_, ?_, hpages,
    h.splitLeaf hp hl hn hn0 hnd ht hdue (he ▸ hs) hw (by rintro rfl; simp at hx)
      (by rw [hx]; decide) (by rw [hy]; decide), ?_, hpg, fun h0 => ?_,
    fun k r => Layout.binds_splitLeaf hp hl hn he⟩
  · rw [Insert.cut, hget]
    rfl
  · rw [hres]
    dsimp only
    rw [hpages]
  · refine hA.canTake (fun h0 => ?_) (fun q hq => ?_) fun hne => ?_
    · have := h.empty h0 p
      rw [hp] at this
      cases this
    · obtain ⟨hqp, hqn⟩ := hA.ne hp hn q hq
      exact ⟨Layout.split_of_ne hqp hqn, hpg q hqp hqn⟩
    · rw [Dues.split_root, if_neg (by simpa using hne)]
  · obtain ⟨-, h0'⟩ | ⟨c, hc⟩ := ok.next
    · exact absurd h0' h0
    · have hnp : l.nextPage ≠ p := by
        intro hnp
        rw [hnp] at hc
        have := (Layout.Covers.unique hp hc).1
        omega
      refine ⟨hnp, c, ?_⟩
      rw [Layout.split_of_ne hnp]
      · exact hc.1
      · intro hnn
        rw [hnn] at hc
        have := hc.1
        rw [hn] at this
        cases this

/-- **`split_inner` with its fresh page** splits the inner page in the tree, with the
separator that was due in it merged in, and leaves the middle one due above it. -/
theorem Tree.splitInnerFinish (h : Tree F D page root) {i : BTreeInnerPage}
    {d : BTreeInnerEntry} (hp : F p = some ⟨ℓ + 1, a, b⟩) (ha : a ≤ key) (hb : key < b)
    (hi : page p = some (.inner i)) (hfull : BTreeInnerPage.maxKeys ≤ i.numKeys)
    (hd : D.sep p = some d) (hA : Ancestors F D page root key (ℓ + 1) p locked)
    (hsep : ∀ q, locked.head? = some q → D.sep q = none) (hn : F n = none) (hn0 : n ≠ 0)
    (hnd : D.sep n = none) :
    F.Above root locked.head? p ∧ D.due locked.head? = none ∧
    ∃ m ws page₁,
      Insert.cut (.splitInnerAlloc p locked d.separatorKey d.rightChild
        (insertBy BTreeInnerEntry.separatorKey d i.entries) i.leftmostChild) =
        some (p, m) ∧
      Insert.splitInnerFinish ⟨Function.update page n (some Page.zeroed), root⟩ n p locked
        (insertBy BTreeInnerEntry.separatorKey d i.entries) i.leftmostChild =
        (Insert.insertIntoAncestorsWithLocks ⟨page₁, root⟩ locked m n).after ws ∧
      writePages (Function.update page n (some Page.zeroed)) ws = page₁ ∧
      Tree (F.split p n (ℓ + 1) a m b)
        ((D.setDue (some p) none).setDue locked.head? (some ⟨m, n⟩)) page₁ root ∧
      CanTake (F.split p n (ℓ + 1) a m b)
        ((D.setDue (some p) none).setDue locked.head? (some ⟨m, n⟩)) page₁ root key
        (ℓ + 1) locked ∧
      (∀ q, q ≠ p → q ≠ n → page₁ q = page q) ∧
      ∀ k r, (F.split p n (ℓ + 1) a m b).Binds page₁ k r ↔ F.Binds page k r := by
  obtain ⟨ℓ', hℓ, ok⟩ := h.inner_level hp hi
  obtain rfl : ℓ = ℓ' := by omega
  obtain ⟨ht, hdue⟩ := hA.above hp ha hb (by
    rintro ⟨x, hx, hroom⟩
    rw [hi] at hx
    obtain rfl : i = x := by simpa using hx
    omega) hsep
  -- the merged separators are cut in two
  have hs : SortedBy BTreeInnerEntry.separatorKey
      (insertBy BTreeInnerEntry.separatorKey d i.entries) := by
    have := ok.fenced.sorted fun _ _ _ h => h.lt
    rwa [hd] at this
  have hlen : (insertBy BTreeInnerEntry.separatorKey d i.entries).length =
      BTreeInnerPage.maxKeys + 1 := by
    rw [length_insertBy]
    have := ok.capacity
    rw [BTreeInnerPage.numKeys] at this hfull
    omega
  obtain ⟨xs, e, ys, he, hx, hy, hget, hres⟩ := Insert.splitInnerFinish_spec hs hlen
  have hpages : writePages (Function.update page n (some Page.zeroed))
      (Insert.innerWrites n p xs ys i.leftmostChild e) =
      Function.update (Function.update page n (some (.inner ⟨n, e.rightChild, ys⟩)))
        p (some (.inner ⟨p, i.leftmostChild, xs⟩)) := by
    rw [Insert.innerWrites, writePages_cons, writePages_cons, writePages_nil, Function.update_idem]
  have hpg : ∀ q, q ≠ p → q ≠ n → Function.update (Function.update page n
      (some (.inner ⟨n, e.rightChild, ys⟩))) p (some (.inner ⟨p, i.leftmostChild, xs⟩)) q =
      page q := fun q hqp hqn => by
    rw [Function.update_of_ne hqp, Function.update_of_ne hqn]
  refine ⟨ht, hdue, e.separatorKey, _, _, ?_, ?_, hpages,
    h.splitInner hp hi hn hn0 hnd ht hdue hd he (by rw [hx]; decide) (by rw [hy]; decide), ?_, hpg,
    fun k r => h.binds_splitInner hp hi hn⟩
  · rw [Insert.cut, hget]
    rfl
  · rw [hres]
    dsimp only
    rw [hpages]
  · refine hA.canTake (fun h0 => ?_) (fun q hq => ?_) fun hne => ?_
    · have := h.empty h0 p
      rw [hp] at this
      cases this
    · obtain ⟨hqp, hqn⟩ := hA.ne hp hn q hq
      exact ⟨Layout.split_of_ne hqp hqn, hpg q hqp hqn⟩
    · rw [Dues.setDue_root, if_neg (by simpa using hne), Dues.setDue_root, if_neg (by rintro ⟨⟩)]

end BTree
end Abdb
