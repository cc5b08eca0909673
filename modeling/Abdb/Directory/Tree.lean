/-
# The tree of the page directory

What the pages of a directory must look like for the directory to be a map: a search
tree in the sense of `Lib.Levels`, whose signs are the separators of the inner pages,
with sorted leaves that keep to their extents (`Tree`).  The bindings of the map are the
entries of the leaves (`Binds`).

Each write of the directory code is one change of such a tree: new entries for a leaf
(`Tree.setLeaf`), the second half of a split, whose first half was written before the
tree knew of it (`Tree.splitLeaf`, `Tree.splitInner`), a separator for a page that was
due one (`Tree.link`), a new root (`Tree.newRoot`), a first leaf (`Tree.firstLeaf`).
-/

import Abdb.Lib.Levels
import Abdb.Directory.Machine

namespace Abdb
namespace Directory

open Lib

/-- The number of logical page ids: every `u32` lies below it. -/
def idBound : ℕ := 2 ^ 32

/-- The extent of every page of the tree. -/
abbrev Layout := Extents DirPageId ℕ

/-- The pages of a directory. -/
abbrev Pages := DirPageId → Option DirPage

variable {F F' : Layout} {due due' : DirPageId → Prop} {page page' : Pages}
  {root p q n x : DirPageId} {ℓ a b m lo hi k s : ℕ} {c : DirPageId}

/-- Page `q` sends the keys from `k` on to page `c`: its leftmost child those from its own
start on, a separator those from the separator on. -/
def Sign (F : Layout) (page : Pages) (q : DirPageId) (k : ℕ) (c : DirPageId) : Prop :=
  ∃ i, page q = some (.inner i) ∧
    ((∃ ℓ, F.At q ℓ k) ∧ c = i.leftmostChild ∨
      ∃ e ∈ i.entries, e.separatorKey = k ∧ e.rightChild = c)

/-- A well-formed leaf with extent `[lo, hi)`; the next leaf starts where it ends. -/
structure LeafOk (F : Layout) (lo hi : ℕ) (p : DirectoryLeafPage) : Prop where
  sorted : p.Sorted
  within : ∀ e ∈ p.entries, lo ≤ e.searchKey ∧ e.searchKey < hi
  capacity : p.numEntries ≤ DirectoryLeafPage.maxEntries
  next : p.nextPage ≠ 0 → F.At p.nextPage 0 hi

/-- A well-formed inner page. -/
structure InnerOk (p : DirectoryInnerPage) : Prop where
  sorted : p.Sorted
  capacity : p.numKeys ≤ BTreeInnerPage.maxKeys

/-- **The pages hold a search tree** under `root`; `due` are the pages whose separator is
still to be put into a parent.  A directory with root `0` is empty. -/
structure Tree (F : Layout) (due : DirPageId → Prop) (page : Pages) (root : DirPageId) : Prop where
  zero : F 0 = none
  empty : root = 0 → (∀ p, F p = none) ∧ ∀ p, ¬ due p
  levels : root ≠ 0 → ∃ h, Levels 0 idBound F (Sign F page) due root h
  leaf : ∀ {p lo hi}, F p = some ⟨0, lo, hi⟩ → ∃ l, page p = some (.leaf l) ∧ LeafOk F lo hi l
  inner : ∀ {p ℓ lo hi}, F p = some ⟨ℓ + 1, lo, hi⟩ →
    ∃ i, page p = some (.inner i) ∧ InnerOk i

/-- The entries of a leaf page. -/
def leafEntries : Option DirPage → List DirectoryLeafEntry
  | some (.leaf l) => l.entries
  | _ => []

/-- The tree maps a logical page to a location: a leaf of the layout has the entry. -/
def Binds (F : Layout) (page : Pages) (k : LPageId) (l : PPageId) : Prop :=
  ∃ p lo hi, F p = some ⟨0, lo, hi⟩ ∧ ∃ e ∈ leafEntries (page p), e.searchKey = k ∧ e.toPPageId = l

/-! ### Signs and bindings -/

theorem sign_inner {i : DirectoryInnerPage} (hp : page q = some (.inner i)) (hq : F.At q ℓ lo) :
    Sign F page q k c ↔ k = lo ∧ c = i.leftmostChild ∨
      ∃ e ∈ i.entries, e.separatorKey = k ∧ e.rightChild = c := by
  have hstart : (∃ ℓ, F.At q ℓ k) ↔ k = lo :=
    ⟨fun ⟨_, h⟩ => (h.unique hq).2, fun h => ⟨ℓ, h ▸ hq⟩⟩
  rw [Sign, hp]
  simp only [Option.some.injEq, DirPage.inner.injEq, exists_eq_left', hstart]

/-- A page that starts where it did and holds what it held sends keys where it did. -/
theorem sign_congr (hq : F.At q ℓ lo) (hq' : F'.At q ℓ lo) (hp : page' q = page q) :
    Sign F' page' q k c ↔ Sign F page q k c := by
  have hstart : (∃ ℓ, F'.At q ℓ k) ↔ ∃ ℓ, F.At q ℓ k :=
    ⟨fun ⟨_, h⟩ => ⟨ℓ, (h.unique hq').2 ▸ hq⟩, fun ⟨_, h⟩ => ⟨ℓ, (h.unique hq).2 ▸ hq'⟩⟩
  rw [Sign, Sign, hp, hstart]

/-- The bindings are those of the leaves, whatever happens above them. -/
theorem binds_congr {l : PPageId}
    (hF : ∀ p lo hi, F' p = some ⟨0, lo, hi⟩ ↔ F p = some ⟨0, lo, hi⟩)
    (hpage : ∀ p lo hi, F p = some ⟨0, lo, hi⟩ → leafEntries (page' p) = leafEntries (page p)) :
    Binds F' page' k l ↔ Binds F page k l := by
  constructor
  · rintro ⟨p, lo, hi, hp, e, he, hk⟩
    have hp := (hF p lo hi).1 hp
    exact ⟨p, lo, hi, hp, e, hpage p lo hi hp ▸ he, hk⟩
  · rintro ⟨p, lo, hi, hp, e, he, hk⟩
    exact ⟨p, lo, hi, (hF p lo hi).2 hp, e, (hpage p lo hi hp).symm ▸ he, hk⟩

/-- A split above the leaves leaves them alone. -/
theorem split_succ_zero_iff (hp : F p = some ⟨ℓ + 1, a, b⟩) (hn : F n = none) :
    F.split p n (ℓ + 1) a m b q = some ⟨0, lo, hi⟩ ↔ F q = some ⟨0, lo, hi⟩ := by
  have hpn : p ≠ n := by
    rintro rfl
    rw [hn] at hp
    cases hp
  constructor
  · intro hq
    rcases Extents.of_split hpn hq with ⟨-, h₁, -⟩ | ⟨-, h₁, -⟩ | ⟨-, -, hq⟩
    · cases h₁
    · cases h₁
    · exact hq
  · intro hq
    rw [Extents.split_of_ne _ _, hq]
    · rintro rfl
      rw [hp] at hq
      cases hq
    · rintro rfl
      rw [hn] at hq
      cases hq

/-- A page more above the leaves leaves them alone. -/
theorem add_succ_zero_iff (hn : F n = none) :
    F.add n (ℓ + 1) a b q = some ⟨0, lo, hi⟩ ↔ F q = some ⟨0, lo, hi⟩ := by
  by_cases hq : q = n
  · subst hq
    rw [Extents.add_self, hn]
    simp
  · rw [Extents.add_of_ne hq]

namespace Tree

variable (h : Tree F due page root)
include h

theorem ne_zero_of_at (hp : F.At p ℓ a) : p ≠ 0 := by
  rintro rfl
  obtain ⟨b, hb⟩ := hp
  rw [h.zero] at hb
  cases hb

/-- A page of the tree is neither the header nor a page outside. -/
theorem ne_of_none (hn : F n = none) (hp : F p = some ⟨ℓ, a, b⟩) : p ≠ n ∧ p ≠ 0 := by
  refine ⟨?_, h.ne_zero_of_at (Extents.at_of hp)⟩
  rintro rfl
  rw [hn] at hp
  cases hp

theorem root_ne_zero (hp : F.At p ℓ a) : root ≠ 0 := by
  intro hr
  obtain ⟨b, hb⟩ := hp
  rw [(h.empty hr).1 p] at hb
  cases hb

/-- An empty directory binds nothing. -/
theorem not_binds (hr : root = 0) {l : PPageId} : ¬ Binds F page k l := by
  rintro ⟨p, a, b, hp, -⟩
  rw [(h.empty hr).1 p] at hp
  cases hp

theorem levels_of_at (hp : F.At p ℓ a) : ∃ h, Levels 0 idBound F (Sign F page) due root h :=
  h.levels (h.root_ne_zero hp)

theorem bounds (hp : F p = some ⟨ℓ, a, b⟩) : a < b ∧ b ≤ idBound := by
  obtain ⟨_, hL⟩ := h.levels_of_at (Extents.at_of hp)
  exact (hL.tiled.bounds hp).2

/-- The entries of a leaf lie in its extent. -/
theorem within (hp : F p = some ⟨0, lo, hi⟩) {e : DirectoryLeafEntry}
    (he : e ∈ leafEntries (page p)) : lo ≤ e.searchKey ∧ e.searchKey < hi := by
  obtain ⟨l, hl, ok⟩ := h.leaf hp
  rw [hl] at he
  exact ok.within e he

/-- **The bindings of a key are those of the leaf responsible for it.** -/
theorem binds_iff (hp : F p = some ⟨0, lo, hi⟩) (hlo : lo ≤ k) (hhi : k < hi) {l : PPageId} :
    Binds F page k l ↔ ∃ e ∈ leafEntries (page p), e.searchKey = k ∧ e.toPPageId = l := by
  obtain ⟨_, hL⟩ := h.levels_of_at (Extents.at_of hp)
  constructor
  · rintro ⟨q, a, b, hq, e, he, rfl, hl⟩
    obtain ⟨ha, hb⟩ := h.within hq he
    obtain rfl := hL.tiled.unique hp hq hlo hhi ha hb
    exact ⟨e, he, rfl, hl⟩
  · rintro ⟨e, he, hk, hl⟩
    exact ⟨p, lo, hi, hp, e, he, hk, hl⟩

/-- A logical page has at most one location. -/
theorem binds_unique {l l' : PPageId} (hl : Binds F page k l) (hl' : Binds F page k l') :
    l = l' := by
  obtain ⟨p, lo, hi, hp, e, he, rfl, rfl⟩ := hl
  obtain ⟨ha, hb⟩ := h.within hp he
  obtain ⟨e', he', hk', rfl⟩ := (h.binds_iff hp ha hb).1 hl'
  obtain ⟨l, hl, ok⟩ := h.leaf hp
  rw [hl] at he he'
  rw [ok.sorted.eq_of_key_eq he' he hk']

theorem lt_of_binds {l : PPageId} (hl : Binds F page k l) : k < idBound := by
  obtain ⟨p, lo, hi, hp, e, he, rfl, -⟩ := hl
  exact (h.within hp he).2.trans_le (h.bounds hp).2

/-- A leaf in the store that the layout knows is on level zero. -/
theorem leaf_level {l : DirectoryLeafPage} (hp : F p = some ⟨ℓ, lo, hi⟩)
    (hl : page p = some (.leaf l)) : ℓ = 0 ∧ LeafOk F lo hi l := by
  cases ℓ with
  | zero =>
    obtain ⟨l', hl', ok⟩ := h.leaf hp
    obtain rfl : l = l' := by simpa [hl] using hl'
    exact ⟨rfl, ok⟩
  | succ ℓ =>
    obtain ⟨i, hi', -⟩ := h.inner hp
    simp [hl] at hi'

/-- An inner page that the layout knows is above the leaves. -/
theorem inner_level {i : DirectoryInnerPage} (hp : F p = some ⟨ℓ, lo, hi⟩)
    (hi' : page p = some (.inner i)) : ∃ ℓ', ℓ = ℓ' + 1 ∧ InnerOk i := by
  cases ℓ with
  | zero =>
    obtain ⟨l, hl, -⟩ := h.leaf hp
    simp [hi'] at hl
  | succ ℓ =>
    obtain ⟨i', hi'', ok⟩ := h.inner hp
    obtain rfl : i = i' := by simpa [hi'] using hi''
    exact ⟨ℓ, rfl, ok⟩

/-- **Where a page sends a key**: to the child under the last of its signs not above it. -/
theorem findChild {i : DirectoryInnerPage} (hp : F p = some ⟨ℓ + 1, a, b⟩)
    (hi : page p = some (.inner i)) (ha : a ≤ k) :
    ∃ s, Sign F page p s (i.findChild k) ∧ s ≤ k ∧
      ∀ s' c', Sign F page p s' c' → s' ≤ k → s' ≤ s := by
  obtain ⟨_, -, ok⟩ := h.inner_level hp hi
  obtain ⟨_, hL⟩ := h.levels_of_at (Extents.at_of hp)
  have hsign : ∀ s c, Sign F page p s c ↔ s = a ∧ c = i.leftmostChild ∨
      ∃ e ∈ i.entries, e.separatorKey = s ∧ e.rightChild = c :=
    fun s c => sign_inner hi (Extents.at_of hp)
  rw [BTreeInnerPage.findChild_eq_route ok.sorted]
  rcases route_cases (k := k) (c := i.leftmostChild) BTreeInnerEntry.rightChild
    ok.sorted with ⟨hlt, hroute⟩ | ⟨e, he, hek, hmax, hroute⟩
  · refine ⟨a, (hsign _ _).2 (Or.inl ⟨rfl, hroute⟩), ha, fun s' c' hs' hk' => ?_⟩
    rcases (hsign _ _).1 hs' with ⟨rfl, -⟩ | ⟨e, he, rfl, -⟩
    · exact le_rfl
    · exact absurd (hlt e he) hk'.not_gt
  · have hsep : Sign F page p e.separatorKey e.rightChild :=
      (hsign _ _).2 (Or.inr ⟨e, he, rfl, rfl⟩)
    refine ⟨e.separatorKey, hroute.symm ▸ hsep, hek, fun s' c' hs' hk' => ?_⟩
    rcases (hsign _ _).1 hs' with ⟨rfl, -⟩ | ⟨y, hy, rfl, -⟩
    · exact (hL.leads hp hsep).1
    · exact hmax y hy hk'

/-- **A page at rest sends a key to the page responsible for it.** -/
theorem descend {i : DirectoryInnerPage} (hdue : ∀ y, ¬ due y) (hp : F p = some ⟨ℓ + 1, a, b⟩)
    (hi : page p = some (.inner i)) (ha : a ≤ k) (hb : k < b) :
    ∃ a' b', F (i.findChild k) = some ⟨ℓ, a', b'⟩ ∧ a' ≤ k ∧ k < b' ∧ a ≤ a' ∧ b' ≤ b := by
  obtain ⟨s, hs, hsk, hmax⟩ := h.findChild hp hi ha
  obtain ⟨_, hL⟩ := h.levels_of_at (Extents.at_of hp)
  obtain ⟨b', hc, hkb⟩ := hL.route hp ha hb hs hsk hmax fun x _ _ _ _ _ => hdue x
  exact ⟨s, b', hc, hsk, hkb, (hL.leads hp hs).1, hL.child_hi_le hp hs hc⟩

theorem congr_due (hdue : ∀ y, due' y ↔ due y) : Tree F due' page root := by
  obtain rfl : due' = due := funext fun y => propext (hdue y)
  exact h

/-! ### Changes -/

/-- A page outside the tree may hold anything. -/
theorem outside (hp : F p = none) (pg : DirPage) :
    Tree F due (Function.update page p (some pg)) root := by
  have hne : ∀ {q ℓ lo}, F.At q ℓ lo → Function.update page p (some pg) q = page q := by
    rintro q ℓ lo ⟨hi, hq⟩
    refine Function.update_of_ne ?_ ..
    rintro rfl
    rw [hp] at hq
    cases hq
  refine ⟨h.zero, h.empty, fun hr => ?_, fun hq => ?_, fun hq => ?_⟩
  · obtain ⟨t, hL⟩ := h.levels hr
    exact ⟨t, hL.congr_sign fun q ℓ lo hi k c hq =>
      sign_congr (Extents.at_of hq) (Extents.at_of hq) (hne (Extents.at_of hq))⟩
  · rw [hne (Extents.at_of hq)]
    exact h.leaf hq
  · rw [hne (Extents.at_of hq)]
    exact h.inner hq

/-- **New content for a leaf.** -/
theorem setLeaf {l : DirectoryLeafPage} (hp : F p = some ⟨0, lo, hi⟩) (ok : LeafOk F lo hi l) :
    Tree F due (Function.update page p (some (.leaf l))) root := by
  have hne : ∀ {q ℓ lo}, F.At q (ℓ + 1) lo →
      Function.update page p (some (.leaf l)) q = page q := by
    rintro q ℓ lo ⟨hi, hq⟩
    refine Function.update_of_ne ?_ ..
    rintro rfl
    rw [hp] at hq
    cases hq
  refine ⟨h.zero, h.empty, fun hr => ?_, fun {q lo' hi'} hq => ?_, fun {q ℓ lo' hi'} hq => ?_⟩
  · obtain ⟨t, hL⟩ := h.levels hr
    exact ⟨t, hL.congr_sign fun q ℓ lo hi k c hq =>
      sign_congr (Extents.at_of hq) (Extents.at_of hq) (hne (Extents.at_of hq))⟩
  · by_cases hqp : q = p
    · subst hqp
      rw [hp, Option.some.injEq, Extent.mk.injEq] at hq
      obtain ⟨-, rfl, rfl⟩ := hq
      exact ⟨l, Function.update_self .., ok⟩
    · rw [Function.update_of_ne hqp]
      exact h.leaf hq
  · rw [hne (Extents.at_of hq)]
    exact h.inner hq

/-- After a leaf got new content, the keys of its extent are bound as its entries say. -/
theorem binds_setLeaf {l : DirectoryLeafPage} {r : PPageId} (hp : F p = some ⟨0, lo, hi⟩)
    (ok : LeafOk F lo hi l) (hlo : lo ≤ k) (hhi : k < hi) :
    Binds F (Function.update page p (some (.leaf l))) k r ↔
      ∃ e ∈ l.entries, e.searchKey = k ∧ e.toPPageId = r := by
  rw [(h.setLeaf hp ok).binds_iff hp hlo hhi, Function.update_self]
  rfl

/-- A key whose entries the new content left alone is bound as it was. -/
theorem binds_setLeaf_of_ne {l l' : DirectoryLeafPage} {r : PPageId} {k' : ℕ}
    (hp : F p = some ⟨0, lo, hi⟩) (hl : page p = some (.leaf l)) (ok : LeafOk F lo hi l')
    (hmem : ∀ e, e.searchKey ≠ k → (e ∈ l'.entries ↔ e ∈ l.entries)) (hk : k' ≠ k) :
    Binds F (Function.update page p (some (.leaf l'))) k' r ↔ Binds F page k' r := by
  by_cases hin : lo ≤ k' ∧ k' < hi
  · rw [h.binds_setLeaf hp ok hin.1 hin.2, h.binds_iff hp hin.1 hin.2, hl]
    constructor
    · rintro ⟨e, he, rfl, hr⟩
      exact ⟨e, (hmem e hk).1 he, rfl, hr⟩
    · rintro ⟨e, he, rfl, hr⟩
      exact ⟨e, (hmem e hk).2 he, rfl, hr⟩
  · constructor
    · rintro ⟨q, a, b, hq, e, he, hek, her⟩
      refine ⟨q, a, b, hq, e, ?_, hek, her⟩
      rwa [Function.update_of_ne] at he
      rintro rfl
      rw [Function.update_self] at he
      exact hin (hek ▸ ok.within e he)
    · rintro ⟨q, a, b, hq, e, he, hek, her⟩
      refine ⟨q, a, b, hq, e, ?_, hek, her⟩
      rwa [Function.update_of_ne]
      rintro rfl
      exact hin (hek ▸ h.within hp he)

end Tree

end Directory
end Abdb
