/-
# How the directory's tree grows

The writes of `add_page` as changes of the tree.  A page that splits is written after its
new half, and it is this second write that moves part of its extent to the new page: up
to then the new page is outside the tree, and from then on it is due in its parent.
-/

import Abdb.Directory.Tree

namespace Abdb
namespace Directory

open Lib

variable {F F' : Layout} {due due' : DirPageId → Prop} {page page' : Pages}
  {root p q n x : DirPageId} {ℓ a b m lo hi k s : ℕ} {c : DirPageId}

theorem LeafOk.mono {l : DirectoryLeafPage} (ok : LeafOk F lo hi l) (hF : F.Shrinks F') :
    LeafOk F' lo hi l where
  sorted := ok.sorted
  within := ok.within
  capacity := ok.capacity
  next h := hF.at (ok.next h)

/-- A sorted list cut at an entry: left of it are its smaller entries, the rest is not
smaller. -/
theorem mem_of_cut {E : Type*} {key : E → ℕ} {es xs ys : List E} {e y : E}
    (hs : SortedBy key es) (hes : es = xs ++ e :: ys) :
    (y ∈ xs ↔ y ∈ es ∧ key y < key e) ∧ (y ∈ e :: ys ↔ y ∈ es ∧ key e ≤ key y) := by
  subst hes
  obtain ⟨hx, hy⟩ := hs.of_cut
  constructor
  · refine ⟨fun h => ⟨List.mem_append_left _ h, hx y h⟩, fun ⟨h, hlt⟩ => ?_⟩
    rcases List.mem_append.1 h with h | h
    · exact h
    · rcases List.mem_cons.1 h with rfl | h
      · exact absurd hlt (lt_irrefl _)
      · exact absurd hlt (hy y h).not_gt
  · refine ⟨fun h => ⟨List.mem_append_right _ h, ?_⟩, fun ⟨h, hle⟩ => ?_⟩
    · rcases List.mem_cons.1 h with rfl | h
      · exact le_rfl
      · exact (hy y h).le
    · rcases List.mem_append.1 h with h | h
      · exact absurd (hx y h) hle.not_gt
      · exact h

/-- The separators with one more. -/
theorem exists_insertBy_iff {es : List DirectoryInnerEntry} :
    (∃ e ∈ insertBy BTreeInnerEntry.separatorKey ⟨s, x⟩ es, e.separatorKey = k ∧ e.rightChild = c) ↔
      k = s ∧ c = x ∨ ∃ e ∈ es, e.separatorKey = k ∧ e.rightChild = c := by
  constructor
  · rintro ⟨e, he, rfl, rfl⟩
    rcases mem_insertBy.1 he with rfl | he
    · exact Or.inl ⟨rfl, rfl⟩
    · exact Or.inr ⟨e, he, rfl, rfl⟩
  · rintro (⟨rfl, rfl⟩ | ⟨e, he, hk⟩)
    · exact ⟨_, mem_insertBy.2 (Or.inl rfl), rfl, rfl⟩
    · exact ⟨e, mem_insertBy.2 (Or.inr he), hk⟩

namespace Tree

variable (h : Tree F due page root)
include h

/-- **A leaf with room takes an entry.** -/
theorem insertEntry (new : DirectoryLeafPage) {l : DirectoryLeafPage} {y : DirectoryLeafEntry}
    (hp : F p = some ⟨0, a, b⟩) (hl : page p = some (.leaf l)) (ha : a ≤ y.searchKey)
    (hb : y.searchKey < b) (habs : ∀ z ∈ l.entries, z.searchKey ≠ y.searchKey)
    (hroom : l.numEntries < DirectoryLeafPage.maxEntries)
    (hent : new.entries = insertBy DirectoryLeafEntry.searchKey y l.entries)
    (hnext : new.nextPage = l.nextPage) :
    LeafOk F a b new ∧ ∀ {k r}, Binds F (Function.update page p (some (.leaf new))) k r ↔
      Binds F page k r ∨ y.searchKey = k ∧ y.toPPageId = r := by
  obtain ⟨-, ok⟩ := h.leaf_level hp hl
  have ok' : LeafOk F a b new := by
    refine ⟨?_, fun z hz => ?_, ?_, fun hnx => ?_⟩
    · rw [DirectoryLeafPage.Sorted, hent]
      exact (insertIdx_findSlot ok.sorted habs).2.2
    · rw [hent, mem_insertBy] at hz
      rcases hz with rfl | hz
      · exact ⟨ha, hb⟩
      · exact ok.within z hz
    · rw [DirectoryLeafPage.numEntries, hent, length_insertBy]
      exact hroom
    · rw [hnext] at hnx ⊢
      exact ok.next hnx
  refine ⟨ok', fun {k r} => ?_⟩
  by_cases hk : k = y.searchKey
  · subst hk
    rw [h.binds_setLeaf hp ok' ha hb, h.binds_iff hp ha hb, hl, hent]
    constructor
    · rintro ⟨z, hz, hzk, rfl⟩
      rcases mem_insertBy.1 hz with rfl | hz
      · exact Or.inr ⟨rfl, rfl⟩
      · exact Or.inl ⟨z, hz, hzk, rfl⟩
    · rintro (⟨z, hz, hzk, rfl⟩ | ⟨-, rfl⟩)
      · exact ⟨z, mem_insertBy.2 (Or.inr hz), hzk, rfl⟩
      · exact ⟨y, mem_insertBy.2 (Or.inl rfl), rfl, rfl⟩
  · rw [h.binds_setLeaf_of_ne hp hl ok' (fun z hz => ?_) hk]
    · exact (or_iff_left fun hy => hk hy.1.symm).symm
    · rw [hent, mem_insertBy, or_iff_right]
      rintro rfl
      exact hz rfl

/-- **A leaf splits.**  The new half is in place; with the old half written, the tree has
both and the new one is due. -/
theorem splitLeaf (old : DirectoryLeafPage) {l upper : DirectoryLeafPage} {xs ys : List DirectoryLeafEntry}
    {e y : DirectoryLeafEntry} (hp : F p = some ⟨0, a, b⟩) (hl : page p = some (.leaf l))
    (hn : F n = none) (hn0 : n ≠ 0) (ha : a ≤ y.searchKey) (hb : y.searchKey < b)
    (habs : ∀ z ∈ l.entries, z.searchKey ≠ y.searchKey)
    (hes : insertBy DirectoryLeafEntry.searchKey y l.entries = xs ++ e :: ys) (hxs : xs ≠ [])
    (hxc : xs.length ≤ DirectoryLeafPage.maxEntries)
    (hyc : (e :: ys).length ≤ DirectoryLeafPage.maxEntries)
    (hupper : page n = some (.leaf upper)) (hue : upper.entries = e :: ys)
    (hun : upper.nextPage = l.nextPage) (hoe : old.entries = xs) (hon : old.nextPage = n) :
    Tree (F.split p n 0 a e.searchKey b) (fun z => due z ∨ z = n)
      (Function.update page p (some (.leaf old))) root := by
  have hpn : p ≠ n := by
    rintro rfl
    rw [hn] at hp
    cases hp
  obtain ⟨-, ok⟩ := h.leaf_level hp hl
  have hs : SortedBy DirectoryLeafEntry.searchKey (xs ++ e :: ys) :=
    hes ▸ (insertIdx_findSlot ok.sorted habs).2.2
  have hw : ∀ z ∈ xs ++ e :: ys, a ≤ z.searchKey ∧ z.searchKey < b := by
    intro z hz
    rw [← hes] at hz
    rcases mem_insertBy.1 hz with rfl | hz
    · exact ⟨ha, hb⟩
    · exact ok.within z hz
  obtain ⟨z₀, hz₀⟩ := List.exists_mem_of_ne_nil xs hxs
  obtain ⟨hlow, hhigh⟩ := hs.of_cut
  have ham : a < e.searchKey := (hw z₀ (List.mem_append_left _ hz₀)).1.trans_lt (hlow z₀ hz₀)
  have hmb : e.searchKey < b := (hw e (by simp)).2
  have hshrink := Extents.shrinks_split (a := a) hp hn hmb
  -- other pages of the tree are where and what they were
  have hpage : ∀ {q}, q ≠ p → Function.update page p (some (.leaf old)) q = page q :=
    fun hq => Function.update_of_ne hq ..
  refine ⟨?_, fun hr => absurd hr (h.root_ne_zero (Extents.at_of hp)), fun hr => ?_,
    fun {q lo hi} hq => ?_, fun {q ℓ lo hi} hq => ?_⟩
  · rw [Extents.split_of_ne (h.ne_zero_of_at (Extents.at_of hp)).symm hn0.symm, h.zero]
  · obtain ⟨t, hL⟩ := h.levels hr
    refine ⟨t, hL.splitLeaf hp hn ham hmb (fun q ℓ lo hi k c hq => ?_) fun x => Iff.rfl⟩
    refine sign_congr (Extents.at_of hq) (hshrink.at (Extents.at_of hq)) (hpage ?_)
    rintro rfl
    rw [hp] at hq
    cases hq
  · rcases Extents.of_split hpn hq with ⟨rfl, -, rfl, rfl⟩ | ⟨rfl, -, rfl, rfl⟩ | ⟨hqp, -, hq⟩
    · refine ⟨upper, (hpage hpn.symm).trans hupper, ?_, fun z hz => ?_, ?_, fun hnext => ?_⟩
      · rw [DirectoryLeafPage.Sorted, hue]
        exact (SortedBy.append_iff.1 hs).2.1
      · rw [hue] at hz
        refine ⟨?_, (hw z (List.mem_append_right _ hz)).2⟩
        rcases List.mem_cons.1 hz with rfl | hz
        · exact le_rfl
        · exact (hhigh z hz).le
      · rw [DirectoryLeafPage.numEntries, hue]
        exact hyc
      · rw [hun] at hnext ⊢
        exact hshrink.at (ok.next hnext)
    · refine ⟨old, Function.update_self .., ?_, fun z hz => ?_, ?_, fun _ => ?_⟩
      · rw [DirectoryLeafPage.Sorted, hoe]
        exact (SortedBy.append_iff.1 hs).1
      · rw [hoe] at hz
        exact ⟨(hw z (List.mem_append_left _ hz)).1, hlow z hz⟩
      · rw [DirectoryLeafPage.numEntries, hoe]
        exact hxc
      · rw [hon]
        exact Extents.at_of Extents.split_right
    · obtain ⟨l', hl', ok'⟩ := h.leaf hq
      exact ⟨l', (hpage hqp).trans hl', ok'.mono hshrink⟩
  · rcases Extents.of_split hpn hq with ⟨-, h₁, -⟩ | ⟨-, h₁, -⟩ | ⟨hqp, -, hq⟩
    · cases h₁
    · cases h₁
    · rw [hpage hqp]
      exact h.inner hq

omit h in
/-- The bindings after a leaf split: one more. -/
theorem binds_splitLeaf {l old upper : DirectoryLeafPage} {xs ys : List DirectoryLeafEntry}
    {e y : DirectoryLeafEntry} {r : PPageId} (hp : F p = some ⟨0, a, b⟩)
    (hl : page p = some (.leaf l)) (hn : F n = none)
    (hes : insertBy DirectoryLeafEntry.searchKey y l.entries = xs ++ e :: ys)
    (hupper : page n = some (.leaf upper)) (hue : upper.entries = e :: ys)
    (hoe : old.entries = xs) :
    Binds (F.split p n 0 a m b) (Function.update page p (some (.leaf old))) k r ↔
      Binds F page k r ∨ y.searchKey = k ∧ y.toPPageId = r := by
  have hpn : p ≠ n := by
    rintro rfl
    rw [hn] at hp
    cases hp
  have hmem : ∀ {z}, z ∈ xs ∨ z ∈ e :: ys ↔ z = y ∨ z ∈ l.entries := by
    intro z
    rw [← List.mem_append, ← hes, mem_insertBy]
  have hnew : leafEntries (Function.update page p (some (.leaf old)) n) = e :: ys := by
    rw [Function.update_of_ne hpn.symm, hupper]
    exact hue
  have hold : leafEntries (Function.update page p (some (.leaf old)) p) = xs := by
    rw [Function.update_self]
    exact hoe
  constructor
  · rintro ⟨q, lo, hi, hq, z, hz, hzk, hzr⟩
    have hone : z = y ∨ z ∈ l.entries → Binds F page k r ∨ y.searchKey = k ∧ y.toPPageId = r := by
      rintro (rfl | hz)
      · exact Or.inr ⟨hzk, hzr⟩
      · exact Or.inl ⟨p, a, b, hp, z, by rwa [hl], hzk, hzr⟩
    rcases Extents.of_split hpn hq with ⟨rfl, -⟩ | ⟨rfl, -⟩ | ⟨hqp, -, hq⟩
    · rw [hnew] at hz
      exact hone (hmem.1 (Or.inr hz))
    · rw [hold] at hz
      exact hone (hmem.1 (Or.inl hz))
    · rw [Function.update_of_ne hqp] at hz
      exact Or.inl ⟨q, lo, hi, hq, z, hz, hzk, hzr⟩
  · have hhalf : ∀ {z}, z = y ∨ z ∈ l.entries → z.searchKey = k → z.toPPageId = r →
        Binds (F.split p n 0 a m b) (Function.update page p (some (.leaf old))) k r := by
      intro z hz hzk hzr
      rcases hmem.2 hz with hz | hz
      · exact ⟨p, a, m, Extents.split_left hpn, z, hold.symm ▸ hz, hzk, hzr⟩
      · exact ⟨n, m, b, Extents.split_right, z, hnew.symm ▸ hz, hzk, hzr⟩
    rintro (⟨q, lo, hi, hq, z, hz, hzk, hzr⟩ | ⟨hyk, hyr⟩)
    · by_cases hqp : q = p
      · subst hqp
        rw [hl] at hz
        exact hhalf (Or.inr hz) hzk hzr
      · refine ⟨q, lo, hi, ?_, z, by rwa [Function.update_of_ne hqp], hzk, hzr⟩
        rw [Extents.split_of_ne hqp, hq]
        rintro rfl
        rw [hn] at hq
        cases hq
    · exact hhalf (Or.inl rfl) hyk hyr

/-- The separators of a page with the one that is due in it merged in. -/
theorem sorted_insertBy {i : DirectoryInnerPage} (hp : F p = some ⟨ℓ + 1, a, b⟩)
    (hi : page p = some (.inner i)) (hx : F.At x ℓ s) (hdue : due x) :
    (∀ e ∈ i.entries, e.separatorKey ≠ s) ∧
      SortedBy BTreeInnerEntry.separatorKey
        (insertBy BTreeInnerEntry.separatorKey ⟨s, x⟩ i.entries) := by
  obtain ⟨_, -, ok⟩ := h.inner_level hp hi
  obtain ⟨_, hL⟩ := h.levels_of_at (Extents.at_of hp)
  have habs : ∀ e ∈ i.entries, e.separatorKey ≠ s := fun e he =>
    hL.sign_ne_of_due hp hdue hx ⟨i, hi, Or.inr ⟨e, he, rfl, rfl⟩⟩
  exact ⟨habs, (insertIdx_findSlot (e := (⟨s, x⟩ : BTreeInnerEntry)) ok.sorted habs).2.2⟩

/-- **An inner page splits** with a separator that was due in it merged in.  The new half
is in place; with the old half written, the tree has both and the new one is due. -/
theorem splitInner (old : DirectoryInnerPage) {i upper : DirectoryInnerPage} {xs ys : List DirectoryInnerEntry}
    {e : DirectoryInnerEntry} (hp : F p = some ⟨ℓ + 1, a, b⟩) (hi : page p = some (.inner i))
    (hn : F n = none) (hn0 : n ≠ 0) (hx : F.At x ℓ s) (has : a ≤ s) (hsb : s < b) (hdue : due x)
    (hes : insertBy BTreeInnerEntry.separatorKey ⟨s, x⟩ i.entries = xs ++ e :: ys) (hxs : xs ≠ [])
    (hxc : xs.length ≤ BTreeInnerPage.maxKeys) (hyc : ys.length ≤ BTreeInnerPage.maxKeys)
    (hupper : page n = some (.inner upper)) (hue : upper.entries = ys)
    (hul : upper.leftmostChild = e.rightChild) (hoe : old.entries = xs)
    (hol : old.leftmostChild = i.leftmostChild) :
    Tree (F.split p n (ℓ + 1) a e.separatorKey b) (fun y => due y ∧ y ≠ x ∨ y = n)
      (Function.update page p (some (.inner old))) root := by
  have hpn : p ≠ n := by
    rintro rfl
    rw [hn] at hp
    cases hp
  obtain ⟨t, hL⟩ := h.levels_of_at (Extents.at_of hp)
  have hs : SortedBy BTreeInnerEntry.separatorKey (xs ++ e :: ys) :=
    hes ▸ (h.sorted_insertBy hp hi hx hdue).2
  -- the signs of the page before the split, with the one merged in
  have hmerged : ∀ {k c}, (Sign F page p k c ∨ k = s ∧ c = x) ↔
      k = a ∧ c = i.leftmostChild ∨ ∃ y ∈ xs ++ e :: ys, y.separatorKey = k ∧ y.rightChild = c := by
    intro k c
    rw [sign_inner hi (Extents.at_of hp), ← hes, exists_insertBy_iff, or_assoc]
    exact or_congr_right or_comm
  have hbetween : ∀ y ∈ xs ++ e :: ys, a ≤ y.separatorKey ∧ y.separatorKey < b := by
    intro y hy
    rcases hmerged.2 (Or.inr ⟨y, hy, rfl, rfl⟩) with hs | ⟨h₁, -⟩
    · exact ⟨(hL.leads hp hs).1, (hL.leads hp hs).2.1⟩
    · rw [h₁]
      exact ⟨has, hsb⟩
  obtain ⟨y₀, hy₀⟩ := List.exists_mem_of_ne_nil xs hxs
  obtain ⟨hlow, hhigh⟩ := hs.of_cut
  have ham : a < e.separatorKey :=
    (hbetween y₀ (List.mem_append_left _ hy₀)).1.trans_lt (hlow y₀ hy₀)
  have hmb : e.separatorKey < b := (hbetween e (by simp)).2
  have hshrink := Extents.shrinks_split (a := a) hp hn hmb
  have hpage : ∀ {q}, q ≠ p → Function.update page p (some (.inner old)) q = page q :=
    fun hq => Function.update_of_ne hq ..
  have hleft : ∀ k c, Sign (F.split p n (ℓ + 1) a e.separatorKey b)
      (Function.update page p (some (.inner old))) p k c ↔
        (Sign F page p k c ∨ k = s ∧ c = x) ∧ k < e.separatorKey := by
    intro k c
    rw [hmerged, sign_inner (Function.update_self ..) (Extents.at_of (Extents.split_left hpn)), hoe,
      hol]
    constructor
    · rintro (⟨rfl, rfl⟩ | ⟨y, hy, rfl, rfl⟩)
      · exact ⟨Or.inl ⟨rfl, rfl⟩, ham⟩
      · exact ⟨Or.inr ⟨y, List.mem_append_left _ hy, rfl, rfl⟩, hlow y hy⟩
    · rintro ⟨h₁ | ⟨y, hy, rfl, rfl⟩, hk⟩
      · exact Or.inl h₁
      · exact Or.inr ⟨y, ((mem_of_cut hs rfl).1).2 ⟨hy, hk⟩, rfl, rfl⟩
  have hright : ∀ k c, Sign (F.split p n (ℓ + 1) a e.separatorKey b)
      (Function.update page p (some (.inner old))) n k c ↔
        (Sign F page p k c ∨ k = s ∧ c = x) ∧ e.separatorKey ≤ k := by
    intro k c
    rw [hmerged, sign_inner ((hpage hpn.symm).trans hupper) (Extents.at_of Extents.split_right), hue,
      hul]
    constructor
    · rintro (⟨rfl, rfl⟩ | ⟨y, hy, rfl, rfl⟩)
      · exact ⟨Or.inr ⟨e, by simp, rfl, rfl⟩, le_rfl⟩
      · exact ⟨Or.inr ⟨y, by simp [hy], rfl, rfl⟩, (hhigh y hy).le⟩
    · rintro ⟨⟨rfl, -⟩ | ⟨y, hy, rfl, rfl⟩, hk⟩
      · exact absurd ham hk.not_gt
      · rcases List.mem_cons.1 (((mem_of_cut hs rfl).2).2 ⟨hy, hk⟩) with rfl | hy
        · exact Or.inl ⟨rfl, rfl⟩
        · exact Or.inr ⟨y, hy, rfl, rfl⟩
  refine ⟨?_, fun hr => absurd hr (h.root_ne_zero (Extents.at_of hp)), fun _ => ⟨t, ?_⟩,
    fun {q lo hi} hq => ?_, fun {q ℓ' lo hi} hq => ?_⟩
  · rw [Extents.split_of_ne (h.ne_zero_of_at (Extents.at_of hp)).symm hn0.symm, h.zero]
  · refine hL.splitInner hp hn ham hmb hx has hsb hleft hright
      ⟨e.rightChild, hmerged.2 (Or.inr ⟨e, by simp, rfl, rfl⟩)⟩ (fun q ℓ lo hi k c hqp hq => ?_)
      (fun _ => Iff.rfl) hdue
    exact sign_congr (Extents.at_of hq) (hshrink.at (Extents.at_of hq)) (hpage hqp)
  · rcases Extents.of_split hpn hq with ⟨-, h₁, -⟩ | ⟨-, h₁, -⟩ | ⟨hqp, -, hq⟩
    · cases h₁
    · cases h₁
    · obtain ⟨l, hl, ok⟩ := h.leaf hq
      exact ⟨l, (hpage hqp).trans hl, ok.mono hshrink⟩
  · rcases Extents.of_split hpn hq with ⟨rfl, -⟩ | ⟨rfl, -⟩ | ⟨hqp, -, hq⟩
    · refine ⟨upper, (hpage hpn.symm).trans hupper, ?_, ?_⟩
      · rw [BTreeInnerPage.Sorted, hue]
        exact (SortedBy.cons_iff.1 (SortedBy.append_iff.1 hs).2.1).2
      · rw [BTreeInnerPage.numKeys, hue]
        exact hyc
    · refine ⟨old, Function.update_self .., ?_, ?_⟩
      · rw [BTreeInnerPage.Sorted, hoe]
        exact (SortedBy.append_iff.1 hs).1
      · rw [BTreeInnerPage.numKeys, hoe]
        exact hxc
    · rw [hpage hqp]
      exact h.inner hq

/-- **A separator arrives** in a page with room. -/
theorem link {i : DirectoryInnerPage} (hp : F p = some ⟨ℓ + 1, lo, hi⟩)
    (hi' : page p = some (.inner i)) (hroom : i.numKeys < BTreeInnerPage.maxKeys)
    (hx : F.At x ℓ s) (hlo : lo ≤ s) (hhi : s < hi) (hdue : due x) :
    Tree F (fun y => due y ∧ y ≠ x) (Function.update page p (some (.inner { i with
      entries := insertBy BTreeInnerEntry.separatorKey ⟨s, x⟩ i.entries }))) root := by
  obtain ⟨t, hL⟩ := h.levels_of_at (Extents.at_of hp)
  obtain ⟨-, hs⟩ := h.sorted_insertBy hp hi' hx hdue
  have hpage : ∀ {q pg}, q ≠ p → Function.update page p (some pg) q = page q :=
    fun hq => Function.update_of_ne hq ..
  refine ⟨h.zero, fun hr => absurd hr (h.root_ne_zero hx), fun _ => ⟨t, ?_⟩, fun {q lo hi} hq => ?_,
    fun {q ℓ' lo' hi''} hq => ?_⟩
  · refine hL.link hp hx hlo hhi (fun k c => ?_) (fun q ℓ lo hi k c hqp hq => ?_) fun _ => Iff.rfl
    · rw [sign_inner (Function.update_self ..) (Extents.at_of hp),
        sign_inner hi' (Extents.at_of hp), exists_insertBy_iff, or_assoc]
      exact or_congr_right or_comm
    · exact sign_congr (Extents.at_of hq) (Extents.at_of hq) (hpage hqp)
  · obtain ⟨l, hl, ok⟩ := h.leaf hq
    refine ⟨l, (hpage ?_).trans hl, ok⟩
    rintro rfl
    rw [hp] at hq
    cases hq
  · by_cases hqp : q = p
    · subst hqp
      refine ⟨_, Function.update_self .., hs, ?_⟩
      rw [BTreeInnerPage.numKeys, length_insertBy]
      exact hroom
    · rw [hpage hqp]
      exact h.inner hq

/-- **A new root** above the old one and the page that was due beside it. -/
theorem newRoot {i : DirectoryInnerPage} (hn : F n = none) (hn0 : n ≠ 0)
    (hi : page n = some (.inner i)) (hl : i.leftmostChild = root) (he : i.entries = [⟨s, x⟩])
    (hroot : F.At root ℓ 0) (hx : F.At x ℓ s) :
    Tree (F.add n (ℓ + 1) 0 idBound) (fun y => due y ∧ y ≠ x) page n := by
  obtain ⟨t, hL⟩ := h.levels_of_at hroot
  obtain ⟨rfl, -⟩ := hL.rooted.unique hroot
  have hshrink : F.Shrinks (F.add n (t + 1) 0 idBound) := Extents.shrinks_add hn
  obtain ⟨b, hb⟩ := hx
  obtain ⟨hlt, hle⟩ := h.bounds hb
  have hcases : ∀ {q ℓ lo hi}, F.add n (t + 1) 0 idBound q = some ⟨ℓ, lo, hi⟩ →
      (q = n ∧ ℓ = t + 1) ∨ q ≠ n ∧ F q = some ⟨ℓ, lo, hi⟩ := by
    intro q ℓ lo hi hq
    by_cases hqn : q = n
    · subst hqn
      rw [Extents.add_self, Option.some.injEq, Extent.mk.injEq] at hq
      exact Or.inl ⟨rfl, hq.1.symm⟩
    · exact Or.inr ⟨hqn, (Extents.add_of_ne hqn).symm.trans hq⟩
  refine ⟨(Extents.add_of_ne hn0.symm).trans h.zero, fun hr => absurd hr hn0, fun _ => ⟨t + 1, ?_⟩,
    fun {q lo hi} hq => ?_, fun {q ℓ' lo hi} hq => ?_⟩
  · refine hL.newRoot hn (Extents.at_of hb) (Nat.zero_le s) (hlt.trans_le hle) (fun k c => ?_)
      (fun q ℓ lo hi k c hq => ?_) fun _ => Iff.rfl
    · rw [sign_inner hi (Extents.at_of Extents.add_self), hl, he]
      simp only [List.mem_singleton, exists_eq_left]
      rw [eq_comm (a := s), eq_comm (a := x)]
    · exact sign_congr (Extents.at_of hq) (hshrink.at (Extents.at_of hq)) rfl
  · rcases hcases hq with ⟨-, h₁⟩ | ⟨-, hq⟩
    · cases h₁
    · obtain ⟨l, hl, ok⟩ := h.leaf hq
      exact ⟨l, hl, ok.mono hshrink⟩
  · rcases hcases hq with ⟨rfl, -⟩ | ⟨-, hq⟩
    · refine ⟨i, hi, ?_, ?_⟩
      · rw [BTreeInnerPage.Sorted, he]
        exact List.pairwise_singleton ..
      · rw [BTreeInnerPage.numKeys, he]
        simp
    · exact h.inner hq

/-- **A first leaf.** -/
theorem firstLeaf {l : DirectoryLeafPage} {e : DirectoryLeafEntry} (hr : root = 0) (hn0 : n ≠ 0)
    (hl : page n = some (.leaf l)) (he : l.entries = [e]) (hk : e.searchKey < idBound)
    (hnext : l.nextPage = 0) :
    Tree (F.add n 0 0 idBound) due page n := by
  obtain ⟨hF, hdue⟩ := h.empty hr
  have hcases : ∀ {q ℓ lo hi}, F.add n 0 0 idBound q = some ⟨ℓ, lo, hi⟩ →
      q = n ∧ ℓ = 0 ∧ lo = 0 ∧ hi = idBound := by
    intro q ℓ lo hi hq
    by_cases hqn : q = n
    · subst hqn
      rw [Extents.add_self, Option.some.injEq, Extent.mk.injEq] at hq
      exact ⟨rfl, hq.1.symm, hq.2.1.symm, hq.2.2.symm⟩
    · rw [Extents.add_of_ne hqn, hF] at hq
      cases hq
  refine ⟨(Extents.add_of_ne hn0.symm).trans h.zero, fun hr => absurd hr hn0,
    fun _ => ⟨0, Levels.single (by decide) hF hdue⟩, fun {q lo hi} hq => ?_, fun {q ℓ lo hi} hq => ?_⟩
  · obtain ⟨rfl, -, rfl, rfl⟩ := hcases hq
    refine ⟨l, hl, ?_, fun z hz => ?_, ?_, fun h₁ => absurd hnext h₁⟩
    · rw [DirectoryLeafPage.Sorted, he]
      exact List.pairwise_singleton ..
    · rw [he, List.mem_singleton] at hz
      exact ⟨Nat.zero_le _, hz ▸ hk⟩
    · rw [DirectoryLeafPage.numEntries, he]
      simp
  · cases (hcases hq).2.1

omit h in
/-- The first leaf binds what it holds. -/
theorem binds_firstLeaf {l : DirectoryLeafPage} {r : PPageId} (hF : ∀ p, F p = none)
    (hl : page n = some (.leaf l)) :
    Binds (F.add n 0 a b) page k r ↔ ∃ e ∈ l.entries, e.searchKey = k ∧ e.toPPageId = r := by
  constructor
  · rintro ⟨q, lo, hi, hq, e, he, hk⟩
    obtain rfl : q = n := by
      by_contra hqn
      rw [Extents.add_of_ne hqn, hF] at hq
      cases hq
    rw [hl] at he
    exact ⟨e, he, hk⟩
  · rintro ⟨e, he, hk⟩
    refine ⟨n, a, b, Extents.add_self, e, ?_, hk⟩
    rwa [hl]

end Tree

end Directory
end Abdb
