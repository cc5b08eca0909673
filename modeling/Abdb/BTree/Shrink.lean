/-
# How a tree shrinks

The changes a delete makes to a tree at rest: entries leave a leaf, a leaf merges into
its left neighbour under one parent, and a root with a single child gives way to it.
-/

import Abdb.BTree.Growth

namespace Abdb
namespace BTree

open Lib

variable {F F' : Layout} {D D' : Dues} {page page' : LPageId → Option Page}
  {root p q s r n : LPageId} {ℓ a b m lo hi k : ℕ}

/-- Entries leave a leaf. -/
theorem Tree.shrinkLeaf (h : Tree F D page root) {l : BTreeLeafPage} {es : List BTreeLeafEntry}
    (hp : F p = some ⟨0, lo, hi⟩) (hl : page p = some (.leaf l)) (hes : es.Sublist l.entries) :
    Tree F D (Function.update page p (some (.leaf { l with entries := es }))) root := by
  refine h.update fun s hs => ?_
  obtain rfl : ⟨0, lo, hi⟩ = s := by simpa [hp] using hs
  obtain ⟨-, ok⟩ := h.leaf_level hp hl
  exact ⟨_, rfl, List.Pairwise.sublist hes ok.sorted, fun x hx => ok.within x (hes.subset hx),
    hes.length_le.trans ok.capacity, ok.next, ok.prev⟩

/-- The bindings after one entry left its leaf. -/
theorem Tree.binds_removeEntry (h : Tree F D page root) {l : BTreeLeafPage} {e : BTreeLeafEntry}
    {xs ys : List BTreeLeafEntry} {rid : RecordId} (hp : F p = some ⟨0, lo, hi⟩)
    (hl : page p = some (.leaf l)) (hes : l.entries = xs ++ e :: ys) :
    F.Binds (Function.update page p (some (.leaf { l with entries := xs ++ ys }))) k rid ↔
      F.Binds page k rid ∧ k ≠ e.key := by
  obtain ⟨-, ok⟩ := h.leaf_level hp hl
  have hs : SortedBy BTreeLeafEntry.key (xs ++ e :: ys) := hes ▸ ok.sorted
  obtain ⟨hx, hy⟩ := hs.of_cut
  have hbelow : ∀ x ∈ l.entries, x ∈ xs ++ ys ↔ x.key ≠ e.key := by
    intro x hxl
    rw [hes] at hxl
    constructor
    · intro hm
      rcases List.mem_append.1 hm with hm | hm
      · exact (hx x hm).ne
      · exact (hy x hm).ne'
    · intro hne
      rcases List.mem_append.1 hxl with hm | hm
      · exact List.mem_append_left _ hm
      · rcases List.mem_cons.1 hm with rfl | hm
        · exact absurd rfl hne
        · exact List.mem_append_right _ hm
  constructor
  · rintro ⟨q, c, d, hq, x, hx, rfl, rfl⟩
    by_cases hqp : q = p
    · subst hqp
      rw [Function.update_self] at hx
      have hxl : x ∈ l.entries := by
        rw [hes]
        rcases List.mem_append.1 hx with hm | hm
        · exact List.mem_append_left _ hm
        · exact List.mem_append_right _ (List.mem_cons_of_mem _ hm)
      exact ⟨⟨q, c, d, hq, x, by rw [hl]; exact hxl, rfl, rfl⟩, (hbelow x hxl).1 hx⟩
    · rw [Function.update_of_ne hqp] at hx
      refine ⟨⟨q, c, d, hq, x, hx, rfl, rfl⟩, fun hk => hqp ?_⟩
      -- the key of the entry is in the range of its leaf only
      obtain ⟨hc, hd⟩ := h.within hq hx
      obtain ⟨ha, hb⟩ := ok.within e (by rw [hes]; simp)
      exact h.unique hq hp hc hd (hk ▸ ha) (hk ▸ hb)
  · rintro ⟨⟨q, c, d, hq, x, hx, rfl, rfl⟩, hne⟩
    refine ⟨q, c, d, hq, x, ?_, rfl, rfl⟩
    by_cases hqp : q = p
    · subst hqp
      rw [hl] at hx
      rw [Function.update_self]
      exact (hbelow x hx).2 hne
    · rwa [Function.update_of_ne hqp]

/-! ### A merge -/

/-- The layout after leaf `s` took over the range of its right neighbour `r` and covers
`[a, b)`. -/
def Layout.merge (F : Layout) (s r : LPageId) (a b : ℕ) : Layout :=
  Function.update (Function.update F r none) s (some ⟨0, a, b⟩)

theorem Layout.merge_left : F.merge s r a b s = some ⟨0, a, b⟩ := Function.update_self ..

theorem Layout.merge_right (h : s ≠ r) : F.merge s r a b r = none := by
  simp [Layout.merge, h.symm]

theorem Layout.merge_of_ne (hs : q ≠ s) (hr : q ≠ r) : F.merge s r a b q = F q := by
  simp [Layout.merge, hs, hr]

/-- A page with a span in the merged layout is the survivor, or another with its old one. -/
theorem Layout.of_merge {t : Span} (hsr : s ≠ r) (h : F.merge s r a b q = some t) :
    q = s ∧ t = ⟨0, a, b⟩ ∨ q ≠ s ∧ q ≠ r ∧ F q = some t := by
  by_cases hqs : q = s
  · subst hqs
    rw [Layout.merge_left, Option.some.injEq] at h
    exact Or.inl ⟨rfl, h.symm⟩
  · by_cases hqr : q = r
    · subst hqr
      rw [Layout.merge_right hsr] at h
      cases h
    · exact Or.inr ⟨hqs, hqr, by rwa [Layout.merge_of_ne hqs hqr] at h⟩

/-- The children left and right of a separator, on a tree at rest. -/
theorem Tree.neighbours (h : Tree F .settled page root) {i : BTreeInnerPage} {e : BTreeInnerEntry}
    {xs ys : List BTreeInnerEntry} (hq : F q = some ⟨ℓ + 1, lo, hi⟩)
    (hi' : page q = some (.inner i)) (he : i.entries = xs ++ e :: ys) :
    ∃ a b, F (lastChild BTreeInnerEntry.rightChild i.leftmostChild xs) =
        some ⟨ℓ, a, e.separatorKey⟩ ∧
      F e.rightChild = some ⟨ℓ, e.separatorKey, b⟩ ∧ lo ≤ a ∧ b ≤ hi := by
  obtain ⟨ℓ', hℓ, ok⟩ := h.inner_level hq hi'
  obtain rfl : ℓ = ℓ' := by omega
  have hf : F.Fenced ℓ lo i.leftmostChild (xs ++ e :: ys) hi := he ▸ ok.fenced
  obtain ⟨hx, hy⟩ := Fenced.append_iff.1 hf
  obtain ⟨a, ha, hla⟩ := hx.last fun _ _ _ h => h.lt
  obtain ⟨b, hb, hbh⟩ := hy.first fun _ _ _ h => h.lt
  exact ⟨a, b, ha.1, hb.1, hla, hbh⟩

section Merge

variable {i : BTreeInnerPage} {e : BTreeInnerEntry} {xs ys : List BTreeInnerEntry}
  {ls lr : BTreeLeafPage}

/-- **A leaf merges into its left neighbour.**  The survivor `s` takes the entries and the
`next_page` of `r`, the right sibling of `r` gets `s` as its `prev_page`, and the separator
between them leaves their parent. -/
theorem Tree.merge (h : Tree F .settled page root) (hq : F q = some ⟨1, lo, hi⟩)
    (hi' : page q = some (.inner i)) (he : i.entries = xs ++ e :: ys)
    (hsc : lastChild BTreeInnerEntry.rightChild i.leftmostChild xs = s) (hrc : e.rightChild = r)
    (hs : F s = some ⟨0, a, m⟩) (hr : F r = some ⟨0, m, b⟩) (hm : e.separatorKey = m)
    (hla : lo ≤ a) (hbh : b ≤ hi)
    (hls : page s = some (.leaf ls)) (hlr : page r = some (.leaf lr))
    (hcap : ls.numEntries + lr.numEntries ≤ BTreeLeafPage.maxEntries)
    (hs' : page' s = some (.leaf { ls with
      nextPage := lr.nextPage, entries := ls.entries ++ lr.entries }))
    (hq' : page' q = some (.inner { i with entries := xs ++ ys }))
    (hn' : lr.nextPage ≠ 0 → ∀ ln, page lr.nextPage = some (.leaf ln) →
      page' lr.nextPage = some (.leaf (ln.setPrevPage s)))
    (hpage : ∀ x, x ≠ s → x ≠ q → x ≠ lr.nextPage → page' x = page x) :
    Tree (F.merge s r a b) .settled page' root := by
  have ham := (h.bounds hs).1
  have hmb := (h.bounds hr).1
  have hbk := (h.bounds hr).2
  dsimp only at ham hmb hbk
  obtain ⟨-, oks⟩ := h.leaf_level hs hls
  obtain ⟨-, okr⟩ := h.leaf_level hr hlr
  have hsr : s ≠ r := by
    rintro rfl
    rw [hs] at hr
    obtain ⟨rfl, -⟩ : a = m ∧ _ := by simpa using hr
    exact lt_irrefl _ ham
  have hroot0 : root ≠ 0 := fun h0 => by have := h.empty h0 q; rw [hq] at this; cases this
  -- leaves that end where `s` did, or start where `r` did
  have ends : ∀ {x c d}, F x = some ⟨0, c, d⟩ → d = m → x = s := fun {x c d} hx hd => by
    have := (h.bounds hx).1
    dsimp only at this
    exact h.unique (k := m - 1) hx hs (by omega) (by omega) (by omega) (by omega)
  have starts : ∀ {x c d}, F x = some ⟨0, c, d⟩ → c = m → x = r := fun {x c d} hx hc => by
    have := (h.bounds hx).1
    dsimp only at this
    exact h.unique (k := m) hx hr (by omega) (by omega) (by omega) (by omega)
  have follows : ∀ {x c d}, F x = some ⟨0, c, d⟩ → c = b → x = lr.nextPage := by
    intro x c d hx hc
    have hlt := (h.bounds hx).1
    have hle := (h.bounds hx).2
    dsimp only at hlt hle
    rcases okr.next with ⟨hb, -⟩ | ⟨d', hd'⟩
    · omega
    · have := hd'.2
      exact h.unique (k := b) hx hd'.1 (by omega) (by omega) (by omega) (by omega)
  -- what other pages cover, they still cover
  have keep : ∀ {ℓ x c d}, F.Covers ℓ x c d → x ≠ s → x ≠ r → (F.merge s r a b).Covers ℓ x c d :=
    fun hc hxs hxr => ⟨(Layout.merge_of_ne hxs hxr).trans hc.1, hc.2⟩
  have hmerged : (F.merge s r a b).Covers 0 s a b := ⟨Layout.merge_left, by omega⟩
  -- the links of a leaf other than `s` and `r`
  have next : ∀ {x c d} {l : BTreeLeafPage}, F x = some ⟨0, c, d⟩ → x ≠ s →
      LeafOk F none c d l → (d = keyBound ∧ l.nextPage = 0) ∨
        ∃ d', (F.merge s r a b).Covers 0 l.nextPage d d' := by
    intro x c d l hx hxs ok
    refine ok.next.imp id ?_
    rintro ⟨d', hd'⟩
    by_cases hns : l.nextPage = s
    · rw [hns] at hd' ⊢
      obtain ⟨rfl, -⟩ := Layout.Covers.unique hs hd'
      exact ⟨b, hmerged⟩
    · refine ⟨d', keep hd' hns ?_⟩
      intro hnr
      rw [hnr] at hd'
      exact hxs (ends hx (Layout.Covers.unique hr hd').1)
  have prev : ∀ {x c d y}, F x = some ⟨0, c, d⟩ → x ≠ r → x ≠ lr.nextPage →
      (c = 0 ∧ y = 0) ∨ (∃ c', F.Covers 0 y c' c) →
      (c = 0 ∧ y = 0) ∨ ∃ c', (F.merge s r a b).Covers 0 y c' c := by
    intro x c d y hx hxr hxn hy
    refine hy.imp id ?_
    rintro ⟨c', hc'⟩
    refine ⟨c', keep hc' ?_ ?_⟩
    · rintro rfl
      exact hxr (starts hx (Layout.Covers.unique hs hc').2)
    · rintro rfl
      exact hxn (follows hx (Layout.Covers.unique hr hc').2)
  refine ⟨?_, ?_, ?_, ?_, fun h0 => absurd h0 hroot0, fun _ => ?_⟩
  · rw [Layout.merge_of_ne (h.ne_zero hs).symm (h.ne_zero hr).symm]
    exact h.zero
  · intro x t hx
    rcases Layout.of_merge hsr hx with ⟨-, rfl⟩ | ⟨-, -, hx⟩
    · exact ⟨by dsimp only; omega, hbk⟩
    · exact h.bounds hx
  · -- another leaf is disjoint from both halves
    have apart : ∀ {x c d}, F x = some ⟨0, c, d⟩ → x ≠ s → x ≠ r → d ≤ a ∨ b ≤ c := by
      intro x c d hx hxs hxr
      have hlt := (h.bounds hx).1
      dsimp only at hlt
      have h₁ := (h.disjoint hx hs).resolve_left hxs
      have h₂ := (h.disjoint hx hr).resolve_left hxr
      omega
    intro x y ℓ' c d c' d' hx hy
    rcases Layout.of_merge hsr hx with ⟨hxs, hxt⟩ | ⟨hxs, hxr, hx'⟩ <;>
      rcases Layout.of_merge hsr hy with ⟨hys, hyt⟩ | ⟨hys, hyr, hy'⟩
    · exact Or.inl (hxs.trans hys.symm)
    · obtain ⟨rfl, rfl, rfl⟩ : ℓ' = 0 ∧ c = a ∧ d = b := by simpa using hxt
      exact Or.inr (apart hy' hys hyr).symm
    · obtain ⟨rfl, rfl, rfl⟩ : ℓ' = 0 ∧ c' = a ∧ d' = b := by simpa using hyt
      exact Or.inr (apart hx' hxs hxr)
    · exact h.disjoint hx' hy'
  · intro x t hx
    rcases Layout.of_merge hsr hx with ⟨rfl, rfl⟩ | ⟨hxs, hxr, hx⟩
    · -- the survivor
      refine ⟨_, hs', SortedBy.append_iff.2 ⟨oks.sorted, okr.sorted, fun y hy z hz => ?_⟩,
        fun y hy => ?_, ?_, ?_, prev hs hsr ?_ oks.prev⟩
      · exact (oks.within y hy).2.trans_le (okr.within z hz).1
      · rcases List.mem_append.1 hy with hy | hy
        · have := oks.within y hy
          omega
        · have := okr.within y hy
          omega
      · rw [BTreeLeafPage.numEntries, List.length_append]
        exact hcap
      · refine okr.next.imp id ?_
        rintro ⟨d', hd'⟩
        refine ⟨d', keep hd' ?_ ?_⟩
        · intro hns
          rw [hns] at hd'
          have := (Layout.Covers.unique hs hd').1
          omega
        · intro hnr
          rw [hnr] at hd'
          have := (Layout.Covers.unique hr hd').1
          omega
      · intro hn
        rcases okr.next with ⟨-, h0⟩ | ⟨d', hd'⟩
        · exact h.ne_zero hs (hn.trans h0)
        · rw [← hn] at hd'
          have := (Layout.Covers.unique hs hd').1
          omega
    obtain ⟨_ | ℓ', c, d⟩ := t
    · obtain ⟨l, hl, ok⟩ := h.leaf hx
      have hxq : x ≠ q := by rintro rfl; rw [hq] at hx; simp at hx
      by_cases hxn : x = lr.nextPage
      · -- the right sibling of the removed leaf
        have hcb : c = b := by
          rcases okr.next with ⟨-, h0⟩ | ⟨d', hd'⟩
          · exact absurd (hxn.trans h0) (h.ne_zero hx)
          · rw [← hxn] at hd'
            exact (Layout.Covers.unique hx hd').1.symm
        have hnext := next hx hxs ok
        refine ⟨l.setPrevPage s, by rw [hxn]; exact hn' (hxn ▸ h.ne_zero hx) l (hxn ▸ hl), ok.sorted, ok.within,
          ok.capacity, hnext, Or.inr ⟨a, ?_⟩⟩
        rw [hcb]
        exact hmerged
      · exact ⟨l, (hpage x hxs hxq hxn).trans hl, ok.sorted, ok.within, ok.capacity,
          next hx hxs ok, prev hx hxr hxn ok.prev⟩
    · obtain ⟨j, hj, ok⟩ := h.inner hx
      by_cases hxq : x = q
      · -- the parent
        subst hxq
        obtain ⟨rfl, rfl, rfl⟩ : ℓ' = 0 ∧ lo = c ∧ hi = d := by simpa [hq, eq_comm] using hx
        obtain rfl : i = j := by simpa [hi'] using hj
        have hf : F.Fenced 0 lo i.leftmostChild (xs ++ e :: ys) hi := he ▸ ok.fenced
        have hsorted : SortedBy BTreeInnerEntry.separatorKey (xs ++ e :: ys) := he ▸ ok.sorted
        have hlen : i.numKeys = xs.length + (ys.length + 1) := by
          rw [BTreeInnerPage.numKeys, he, List.length_append, List.length_cons]
        refine ⟨_, hq', hsorted.remove, ?_, ?_⟩
        · have := ok.capacity
          rw [BTreeInnerPage.numKeys, List.length_append]
          omega
        · refine hf.merge_child (fun _ _ _ h => h.lt) (fun z _ _ _ _ hz hz' =>
            Layout.Covers.unique hz.1 hz') (fun z c' d' hzs hzr hz => ?_) fun c' d' hc hd => ?_
          · exact keep hz (hsc ▸ hzs) (hrc ▸ hzr)
          · rw [hsc] at hc ⊢
            rw [hrc] at hd
            obtain ⟨rfl, -⟩ := Layout.Covers.unique hs hc
            obtain ⟨-, rfl⟩ := Layout.Covers.unique hr hd
            exact hmerged
      · -- another inner page has neither of them as a child
        have hxn : x ≠ lr.nextPage := by
          rintro rfl
          rcases okr.next with ⟨-, h0⟩ | ⟨d', hd'⟩
          · exact h.ne_zero hx h0
          · exact absurd (Layout.Covers.level hx hd') (Nat.succ_ne_zero _)
        have hchild : ∀ {y c' d'}, y ∈ childrenOf BTreeInnerEntry.rightChild j.leftmostChild
            (withDue none j.entries) → F y = some ⟨0, c', d'⟩ → lo ≤ c' → d' ≤ hi → False := by
          intro y c' d' hy hF hlo hhi
          obtain ⟨c'', d'', hcov, hc, hd⟩ := ok.fenced.covers (fun _ _ _ h => h.lt) hy
          obtain rfl := Layout.Covers.level hF hcov
          obtain ⟨rfl, rfl⟩ := Layout.Covers.unique hF hcov
          exact hxq (h.unique hx hq hc (hcov.2.trans_le hd) hlo (hcov.2.trans_le hhi))
        refine ⟨j, (hpage x hxs hxq hxn).trans hj, ok.sorted, ok.capacity,
          ok.fenced.mono fun y hy c' d' hc => keep hc ?_ ?_⟩
        · rintro rfl
          exact hchild hy hs hla (by omega)
        · rintro rfl
          exact hchild hy hr (by omega) hbh
  · obtain ⟨h', htop, hle⟩ := h.top hroot0
    have hone := hle hq
    dsimp only at hone
    refine ⟨h', keep htop ?_ ?_, fun {x t} hx => ?_⟩
    · rintro rfl
      have := Layout.Covers.level hs htop
      omega
    · rintro rfl
      have := Layout.Covers.level hr htop
      omega
    · rcases Layout.of_merge hsr hx with ⟨-, rfl⟩ | ⟨-, -, hx⟩
      · exact Nat.zero_le _
      · exact hle hx

/-- A merge moves entries and changes no binding. -/
theorem Tree.binds_merge (h : Tree F .settled page root) {rid : RecordId}
    (hq : F q = some ⟨1, lo, hi⟩) (hs : F s = some ⟨0, a, m⟩) (hr : F r = some ⟨0, m, b⟩)
    (hls : page s = some (.leaf ls)) (hlr : page r = some (.leaf lr))
    (hs' : page' s = some (.leaf { ls with
      nextPage := lr.nextPage, entries := ls.entries ++ lr.entries }))
    (hn' : lr.nextPage ≠ 0 → ∀ ln, page lr.nextPage = some (.leaf ln) →
      page' lr.nextPage = some (.leaf (ln.setPrevPage s)))
    (hpage : ∀ x, x ≠ s → x ≠ q → x ≠ lr.nextPage → page' x = page x) :
    (F.merge s r a b).Binds page' k rid ↔ F.Binds page k rid := by
  have ham := (h.bounds hs).1
  dsimp only at ham
  have hsr : s ≠ r := by
    rintro rfl
    rw [hs] at hr
    obtain ⟨rfl, -⟩ : a = m ∧ _ := by simpa using hr
    exact lt_irrefl _ ham
  have same : ∀ {x c d}, F x = some ⟨0, c, d⟩ → x ≠ s →
      leafEntries (page' x) = leafEntries (page x) := by
    intro x c d hx hxs
    by_cases hxn : x = lr.nextPage
    · obtain ⟨l, hl, -⟩ := h.leaf hx
      rw [hl, hxn, hn' (hxn ▸ h.ne_zero hx) l (hxn ▸ hl)]
      rfl
    · rw [hpage x hxs ?_ hxn]
      rintro rfl
      rw [hq] at hx
      simp at hx
  constructor
  · rintro ⟨x, c, d, hx, y, hy, hk, hrid⟩
    rcases Layout.of_merge hsr hx with ⟨rfl, -⟩ | ⟨hxs, -, hx'⟩
    · rw [hs'] at hy
      rcases List.mem_append.1 hy with hy | hy
      · exact ⟨x, _, _, hs, y, by rwa [hls], hk, hrid⟩
      · exact ⟨r, _, _, hr, y, by rwa [hlr], hk, hrid⟩
    · rw [same hx' hxs] at hy
      exact ⟨x, _, _, hx', y, hy, hk, hrid⟩
  · rintro ⟨x, c, d, hx, y, hy, hk, hrid⟩
    by_cases hxs : x = s
    · subst hxs
      rw [hls] at hy
      exact ⟨x, _, _, Layout.merge_left, y, by rw [hs']; exact List.mem_append_left _ hy, hk, hrid⟩
    · by_cases hxr : x = r
      · subst hxr
        rw [hlr] at hy
        exact ⟨s, _, _, Layout.merge_left, y, by rw [hs']; exact List.mem_append_right _ hy, hk, hrid⟩
      · exact ⟨x, c, d, (Layout.merge_of_ne hxs hxr).trans hx, y, by rwa [same hx hxs], hk, hrid⟩

end Merge

/-- A layout without one of its pages. -/
def Layout.remove (F : Layout) (p : LPageId) : Layout := Function.update F p none

theorem Layout.remove_of_ne (h : q ≠ p) : F.remove p q = F q := Function.update_of_ne h ..

theorem Layout.of_remove {t : Span} (h : F.remove p q = some t) : q ≠ p ∧ F q = some t := by
  by_cases hqp : q = p
  · subst hqp
    rw [Layout.remove, Function.update_self] at h
    cases h
  · exact ⟨hqp, by rwa [Layout.remove_of_ne hqp] at h⟩

/-- **A root with a single child gives way to it.** -/
theorem Tree.collapse (h : Tree F .settled page root) {i : BTreeInnerPage}
    (hq : F root = some ⟨ℓ + 1, lo, hi⟩) (hi' : page root = some (.inner i)) (he : i.entries = []) :
    Tree (F.remove root) .settled page i.leftmostChild ∧
      ∀ k rid, (F.remove root).Binds page k rid ↔ F.Binds page k rid := by
  obtain ⟨ℓ', hℓ, ok⟩ := h.inner_level hq hi'
  obtain rfl : ℓ = ℓ' := by omega
  have hchild : F.Fenced ℓ lo i.leftmostChild i.entries hi := ok.fenced
  rw [he] at hchild
  have hchild : F.Covers ℓ i.leftmostChild lo hi := hchild
  obtain ⟨h', htop, hle⟩ := h.top (h.ne_zero hq)
  obtain rfl := Layout.Covers.level hq htop
  obtain ⟨rfl, rfl⟩ := Layout.Covers.unique hq htop
  -- the old root was alone on its level
  have below : ∀ {x t}, F x = some t → x ≠ root → t.level ≤ ℓ := by
    intro x ⟨ℓ', c, d⟩ hx hne
    have hlt := (h.bounds hx).1
    have hbound := (h.bounds hx).2
    have := hle hx
    dsimp only at this hlt hbound ⊢
    rcases Nat.lt_or_ge ℓ ℓ' with hlt' | hge
    · obtain rfl : ℓ' = ℓ + 1 := by omega
      have := (h.disjoint hx hq).resolve_left hne
      omega
    · exact hge
  have keep : ∀ {ℓ' x c d}, F.Covers ℓ' x c d → ℓ' ≤ ℓ → (F.remove root).Covers ℓ' x c d := by
    intro ℓ' x c d hc hle
    refine ⟨(Layout.remove_of_ne ?_).trans hc.1, hc.2⟩
    rintro rfl
    have := Layout.Covers.level hq hc
    omega
  refine ⟨⟨?_, fun {x t} hx => h.bounds (Layout.of_remove hx).2, ?_, ?_, ?_, fun _ => ⟨ℓ, ?_, ?_⟩⟩,
    fun k rid => ?_⟩
  · rw [Layout.remove_of_ne (h.ne_zero hq).symm]
    exact h.zero
  · intro x y ℓ' c d c' d' hx hy
    exact h.disjoint (Layout.of_remove hx).2 (Layout.of_remove hy).2
  · intro x t hx
    obtain ⟨hxr, hx⟩ := Layout.of_remove hx
    have hlevel := below hx hxr
    obtain ⟨_ | ℓ', c, d⟩ := t
    · obtain ⟨l, hl, ok⟩ := h.leaf hx
      exact ⟨l, hl, ok.sorted, ok.within, ok.capacity,
        ok.next.imp id fun ⟨d', hd'⟩ => ⟨d', keep hd' (Nat.zero_le _)⟩,
        ok.prev.imp id fun ⟨c', hc'⟩ => ⟨c', keep hc' (Nat.zero_le _)⟩⟩
    · obtain ⟨j, hj, ok⟩ := h.inner hx
      dsimp only at hlevel
      exact ⟨j, hj, ok.sorted, ok.capacity, ok.fenced.mono fun y _ c' d' hc => keep hc (by omega)⟩
  · intro h0
    exact absurd h0 (h.ne_zero hchild.1)
  · exact keep hchild le_rfl
  · intro x t hx
    obtain ⟨hxr, hx⟩ := Layout.of_remove hx
    exact below hx hxr
  · refine Layout.binds_congr (fun x c d => ?_) fun _ _ _ _ => rfl
    by_cases hxr : x = root
    · subst hxr
      rw [Layout.remove, Function.update_self, hq]
      simp
    · rw [Layout.remove_of_ne hxr]

end BTree
end Abdb
