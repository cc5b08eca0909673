/-
# One access of an addition

What one access of an addition does to the tree and to where the call stands, if it does not
act on outdated knowledge (`Stands.step`).  The rest of the system enters as the pages that
other calls owe a separator (`others`) and the bindings that are not this call's (`B`).
Either the call fails, or the tree it leaves is one in which it stands somewhere again, no
page has moved, and the pages that others hold are as they were (`Moves`).
-/

import Abdb.Directory.Stands

namespace Abdb
namespace Directory

open Lib

variable {others : DirPageId → Prop} {B : LPageId → PPageId → Prop} {k : LPageId} {r : PPageId}
  {F F' : Layout} {page page' : Pages} {next next' root root' p q n x id : DirPageId} {s s' : Stake}
  {m m' : Memo} {pc pc' : Pc} {pg : DirPage} {rd : Reading} {path : List DirPageId} {ℓ a c t : ℕ}
  {d : BTreePageDirectory}

/-- The tree as one call sees it: the pages that are due a separator are those of the other
calls and its own, and so are the bindings. -/
structure Holds (others : DirPageId → Prop) (B : LPageId → PPageId → Prop) (k : LPageId)
    (r : PPageId) (F : Layout) (page : Pages) (next root : DirPageId) (s : Stake) : Prop where
  tree : Tree F (fun y => others y ∨ s.owed = some y) page root
  fresh : ∀ id, next ≤ id → F id = none
  counter : 0 < next
  apart : ∀ x, s.owed = some x → ¬ others x
  held : ∀ n, s.held = some n → F n = none ∧ n < next ∧ n ≠ 0
  binds : ∀ k' l, Binds F page k' l ↔ B k' l ∨ s.landed ∧ k' = k ∧ l = r

/-- The call stands somewhere again, and the other calls have lost nothing. -/
def Moves (others : DirPageId → Prop) (B : LPageId → PPageId → Prop) (k : LPageId) (r : PPageId)
    (F : Layout) (page : Pages) (next : DirPageId) (s : Stake) (F' : Layout) (page' : Pages)
    (next' root' : DirPageId) (m' : Memo) (pc' : Pc) : Prop :=
  ∃ s', Holds others B k r F' page' next' root' s' ∧ Stands F' page' k r m' pc' s' ∧
    F.Shrinks F' ∧ next ≤ next' ∧
    (∀ n, n < next → n ≠ 0 → F n = none → s.held ≠ some n → F' n = none ∧ page' n = page n) ∧
    ∀ n, s'.held = some n → s.held = some n ∨ next ≤ n

/-- The call has failed, or it moves. -/
def Advances (others : DirPageId → Prop) (B : LPageId → PPageId → Prop) (k : LPageId) (r : PPageId)
    (F : Layout) (m : Memo) (pc : Pc) (s : Stake) (d : BTreePageDirectory) : Prop :=
  (∃ e, (step d pc).2 = .done (.error e)) ∨
    Moves others B k r F d.page d.nextDirPage s (spansAfter d F pc) (step d pc).1.page
      (step d pc).1.nextDirPage (step d pc).1.rootPage (m.after d pc) (step d pc).2

namespace Holds

variable (h : Holds others B k r F page next root s)
include h

/-- A page that says the same is put in place of another. -/
theorem sameBody (hsame : id ≠ 0 → SameBody (page id) pg) :
    Holds others B k r F (Function.update page id (some pg)) next root s where
  tree := (h.tree.sameBody hsame).1
  fresh := h.fresh
  counter := h.counter
  apart := h.apart
  held := h.held
  binds k' l := ((h.tree.sameBody hsame).2 k' l).trans (h.binds k' l)

/-- A page outside the tree is written. -/
theorem outside (hn : F id = none) (pg : DirPage) :
    Holds others B k r F (Function.update page id (some pg)) next root s where
  tree := h.tree.outside hn pg
  fresh := h.fresh
  counter := h.counter
  apart := h.apart
  held := h.held
  binds k' l := by
    refine (binds_congr (fun _ _ _ => Iff.rfl) fun p lo hi hp => ?_).trans (h.binds k' l)
    rw [Function.update_of_ne (h.tree.ne_of_none hn hp).1]

/-- A page that others owe a separator is in the tree. -/
theorem ne_others (hn : F n = none) : ¬ others n := by
  intro ho
  by_cases hroot : root = 0
  · exact (h.tree.empty hroot).2 n (Or.inl ho)
  · obtain ⟨t, hL⟩ := h.tree.levels hroot
    obtain ⟨ℓ, a, b, hp⟩ := hL.placed (Or.inl ho)
    rw [hn] at hp
    cases hp

/-- A page is allocated. -/
theorem alloc :
    Holds others B k r F page (next + 1) root ⟨some next, s.owed, s.landed⟩ where
  tree := h.tree
  fresh id hid := h.fresh id (Nat.le_of_succ_le hid)
  counter := Nat.succ_pos _
  apart := h.apart
  held n hn := by
    obtain rfl := Option.some.inj hn
    exact ⟨h.fresh _ le_rfl, Nat.lt_succ_self _, h.counter.ne'⟩
  binds := h.binds

end Holds

/-! ### Kinds of access -/

/-- Nothing but the place of the call changes. -/
theorem Moves.stay (h : Holds others B k r F page next root s) (hst : Stands F page k r m' pc' s) :
    Moves others B k r F page next s F page next root m' pc' :=
  ⟨s, h, hst, .refl, le_rfl, fun _ _ _ hn _ => ⟨hn, rfl⟩, fun _ => Or.inl⟩

/-- A page in the tree, or the header page, is put in place of one that says the same. -/
theorem Moves.sameBody (h : Holds others B k r F page next root s)
    (hsame : id ≠ 0 → SameBody (page id) pg) (hid : id = 0 ∨ ∃ ℓ a, F.At id ℓ a)
    (hst : Stands F (Function.update page id (some pg)) k r m' pc' s) :
    Moves others B k r F page next s F (Function.update page id (some pg)) next root m' pc' := by
  refine ⟨s, h.sameBody hsame, hst, .refl, le_rfl, fun n _ hn0 hn _ => ⟨hn, ?_⟩, fun _ => Or.inl⟩
  refine Function.update_of_ne ?_ ..
  rintro rfl
  rcases hid with rfl | ⟨ℓ, a, b, hp⟩
  · exact hn0 rfl
  · rw [hn] at hp
    cases hp

/-- Where `read_page` leads. -/
theorem ReadsPage.step (h : ReadsPage id rd pc) (hcur : Current d F m pc) :
    (∃ e, (step d pc).2 = .done (.error e)) ∨
    ((step d pc).1 = d ∧ ReadsPage id rd (step d pc).2 ∧ m.after d pc = m) ∨
    ∃ pg, (step d pc).2 = resume id pg rd ∧
      (step d pc).1.page = Function.update d.page id (some pg) ∧
      (step d pc).1.nextDirPage = d.nextDirPage ∧ (step d pc).1.rootPage = d.rootPage ∧
      (id ≠ 0 → SameBody (d.page id) pg) ∧ m.after d pc = m.see id pg rd := by
  rcases h with rfl | rfl | ⟨pg, rfl⟩
  · cases hc : d.cache id with
    | some pg =>
      have hpage : d.page id = some pg := by simp [BTreePageDirectory.page, hc]
      refine Or.inr (Or.inr ⟨pg, ?_, ?_, ?_, ?_, fun _ => hpage ▸ .refl pg, ?_⟩)
      · simp only [Directory.step, hc]
      · rw [← hpage, Function.update_eq_self]
        simp only [Directory.step, hc]
      · simp only [Directory.step, hc]
      · simp only [Directory.step, hc]
      · simp only [Memo.after, hc]
    | none =>
      refine Or.inr (Or.inl ⟨?_, ?_, ?_⟩)
      · simp only [Directory.step, hc]
      · simp only [Directory.step, hc]
        exact Or.inr (Or.inl rfl)
      · simp only [Memo.after, hc]
  · cases hf : d.file id with
    | some pg =>
      refine Or.inr (Or.inl ⟨?_, ?_, rfl⟩)
      · simp only [Directory.step, hf]
      · simp only [Directory.step, hf]
        exact Or.inr (Or.inr ⟨pg, rfl⟩)
    | none =>
      refine Or.inl ⟨.ioError, ?_⟩
      simp only [Directory.step, hf]
      rfl
  · exact Or.inr (Or.inr ⟨pg, rfl, BTreePageDirectory.page_cache rfl, rfl, rfl, hcur, rfl⟩)

/-- A read leaves the spans alone. -/
theorem ReadsPage.spansAfter (h : ReadsPage id rd pc) : spansAfter d F pc = F := by
  rcases h with rfl | rfl | ⟨pg, rfl⟩ <;> rfl

/-- **An access in `read_page`.** -/
theorem Advances.read (h : Holds others B k r F d.page d.nextDirPage d.rootPage s)
    (hreads : ReadsPage id rd pc) (hcur : Current d F m pc) (hid : id = 0 ∨ ∃ ℓ a, F.At id ℓ a)
    (hstay : ∀ pc', ReadsPage id rd pc' → Stands F d.page k r m pc' s)
    (hresume : ∀ pg, (id ≠ 0 → SameBody (d.page id) pg) →
      (∃ e, resume id pg rd = .done (.error e)) ∨
        Stands F (Function.update d.page id (some pg)) k r (m.see id pg rd) (resume id pg rd) s) :
    Advances others B k r F m pc s d := by
  rw [Advances, hreads.spansAfter]
  rcases hreads.step hcur with hfail | ⟨hd, hpc, hm⟩ | ⟨pg, hpc, hpage, hnext, hroot, hsame, hm⟩
  · exact Or.inl hfail
  · rw [hd, hm]
    exact Or.inr (.stay h (hstay _ hpc))
  · rw [hpc, hpage, hnext, hroot, hm]
    exact (hresume pg hsame).imp_right fun hst => .sameBody h hsame hid hst

/-- The page that a write leaves. -/
theorem step_writePage {next : Pc} : (step d (.writePage id pg next)).1.page =
    Function.update d.page id (some pg) := BTreePageDirectory.page_cache rfl

/-- **A write of a page the call holds.** -/
theorem Advances.place {next : Pc} (h : Holds others B k r F d.page d.nextDirPage d.rootPage s)
    (hheld : s.held = some n) (hrise : next.rising = none)
    (hst : Stands F (Function.update d.page n (some pg)) k r m next s) :
    Advances others B k r F m (.writePage n pg next) s d := by
  obtain ⟨hn, -, -⟩ := h.held n hheld
  have hspans : spansAfter d F (.writePage n pg next) = F := by simp only [spansAfter, hrise]
  rw [Advances, hspans, step_writePage]
  refine Or.inr ⟨s, h.outside hn pg, .dirty hst, .refl, le_rfl, fun n' _ _ hn' hne => ⟨hn', ?_⟩,
    fun _ => Or.inl⟩
  refine Function.update_of_ne ?_ ..
  rintro rfl
  exact hne hheld

/-- **An allocation.** -/
theorem Advances.alloc {al : Allocating} (h : Holds others B k r F d.page d.nextDirPage d.rootPage s)
    (hst : Stands F d.page k r m (allocated d.nextDirPage al) ⟨some d.nextDirPage, s.owed, s.landed⟩) :
    Advances others B k r F m (.alloc al) s d :=
  Or.inr ⟨_, h.alloc, hst, .refl, Nat.le_succ _, fun _ _ _ hn _ => ⟨hn, rfl⟩,
    fun _ hn => Or.inr (Option.some.inj hn).le⟩

/-- **A write of a page of the tree.** -/
theorem Advances.write {next : Pc} {s' : Stake} (hp : F.At p ℓ a)
    (hspans : spansAfter d F (.writePage p pg next) = F')
    (hholds : Holds others B k r F' (Function.update d.page p (some pg)) d.nextDirPage d.rootPage s')
    (hst : Stands F' (Function.update d.page p (some pg)) k r m next s') (hF : F.Shrinks F')
    (hheld : ∀ n, s'.held = some n → s.held = some n)
    (hnone : ∀ n, F n = none → s.held ≠ some n → F' n = none) :
    Advances others B k r F m (.writePage p pg next) s d := by
  rw [Advances, hspans, step_writePage]
  refine Or.inr ⟨s', hholds, .dirty hst, hF, le_rfl, fun n _ _ hn hne => ⟨hnone n hn hne, ?_⟩,
    fun n hn => Or.inl (hheld n hn)⟩
  refine Function.update_of_ne ?_ ..
  rintro rfl
  obtain ⟨b, hp⟩ := hp
  rw [hn] at hp
  cases hp

/-! ### Each access -/

section Steps

variable {y : DirectoryLeafEntry} {l : DirectoryLeafPage} {i : DirectoryInnerPage}

/-- The leaf that is about to be written still has the entries that were read, and the key
belongs to it. -/
theorem Target.current (h : Tree F others d.page root) (ht : Target F m y p l path)
    {next : Pc} (hcur : Current d F m (.writePage p pg next)) :
    ∃ a b l', F p = some ⟨0, a, b⟩ ∧ a ≤ y.searchKey ∧ y.searchKey < b ∧
      d.page p = some (.leaf l') ∧ l'.entries = l.entries ∧ l'.nextPage = l.nextPage := by
  obtain ⟨a, b, hp⟩ := ht.place
  obtain ⟨hsame, hhas⟩ := hcur (h.ne_zero_of_at (Extents.at_of hp)) _ ht.read
  obtain ⟨l', hl', hent, hnext⟩ := hsame.leaf
  obtain ⟨ℓ, lo, hi, hp', hlo, hhi⟩ := hhas _ ht.aim
  rw [hp, Option.some.injEq, Extent.mk.injEq] at hp'
  obtain ⟨rfl, rfl, rfl⟩ := hp'
  exact ⟨a, b, l', hp, hlo, hhi, hl', hent, hnext⟩

/-- The parent that is about to be written is as it was read, and the separator belongs to
it. -/
theorem ParentTarget.current {σ : ℕ} (h : Tree F others d.page root)
    (ht : ParentTarget F m σ x ℓ q i path) {next : Pc} (hcur : Current d F m (.writePage q pg next)) :
    ∃ a b, F q = some ⟨ℓ + 1, a, b⟩ ∧ a ≤ σ ∧ σ < b ∧ d.page q = some (.inner i) := by
  obtain ⟨a, b, hq⟩ := ht.place
  obtain ⟨hsame, hhas⟩ := hcur (h.ne_zero_of_at (Extents.at_of hq)) _ ht.read
  obtain ⟨ℓ', lo, hi, hq', hlo, hhi⟩ := hhas _ ht.aim
  rw [hq, Option.some.injEq, Extent.mk.injEq] at hq'
  obtain ⟨rfl, rfl, rfl⟩ := hq'
  exact ⟨a, b, hq, hlo, hhi, hsame.inner⟩

variable (hk : k < idBound) (hr : r.Addressable)

/-- The descent goes on, or has reached the leaf. -/
theorem step_descend (h : Holds others B k r F d.page d.nextDirPage d.rootPage .nothing)
    (hreads : ReadsPage p (.descend (.addPage k r) path) pc) (hcur : Current d F m pc)
    (hp : F.At p ℓ a) (ha : a ≤ k) (hup : Up F m.root p ℓ path) :
    Advances others B k r F m pc .nothing d := by
  refine .read h hreads hcur (Or.inr ⟨ℓ, a, hp⟩) (fun _ hreads => .descend hreads hp ha hup)
    fun pg hsame => ?_
  have hp0 : p ≠ 0 := h.tree.ne_zero_of_at hp
  have hsame := hsame hp0
  obtain ⟨b, hpb⟩ := hp
  cases pg with
  | inner i =>
    refine Or.inr ?_
    obtain ⟨ℓ, rfl, -⟩ := h.tree.inner_level hpb hsame.inner
    obtain ⟨s, hs, hsk, -⟩ := h.tree.findChild hpb hsame.inner ha
    obtain ⟨t, hL⟩ := h.tree.levels_of_at (Extents.at_of hpb)
    exact .descend (Or.inl rfl) (hL.child_at hpb hs) hsk ⟨⟨a, b, hpb⟩, hup⟩
  | leaf l =>
    refine Or.inr ?_
    obtain ⟨l', hl', -⟩ := hsame.leaf
    obtain ⟨rfl, -⟩ := h.tree.leaf_level hpb hl'
    rw [resume, if_neg hp0]
    exact .leaf (Or.inl rfl) (Extents.at_of hpb) hup
  | header hd => exact Or.inl ⟨_, rfl⟩

include hk hr in
/-- The leaf is read: it takes the entry, is to be split, or has the key already. -/
theorem step_leaf (h : Holds others B k r F d.page d.nextDirPage d.rootPage .nothing)
    (hreads : ReadsPage p (.leaf (.addPage k r) path) pc) (hcur : Current d F m pc)
    (hp : F.At p 0 a) (hup : Up F m.root p 0 path) :
    Advances others B k r F m pc .nothing d := by
  refine .read h hreads hcur (Or.inr ⟨0, a, hp⟩) (fun _ hreads => .leaf hreads hp hup)
    fun pg hsame => ?_
  have hsame := hsame (h.tree.ne_zero_of_at hp)
  obtain ⟨b, hpb⟩ := hp
  cases pg with
  | inner i => exact Or.inl ⟨_, rfl⟩
  | header hd => exact Or.inl ⟨_, rfl⟩
  | leaf l =>
    obtain ⟨l', hl', hent, hnext⟩ := hsame.leaf
    obtain ⟨-, ok⟩ := h.tree.leaf_level hpb hl'
    have hsorted : l.Sorted := by
      rw [DirectoryLeafPage.Sorted, ← hent]
      exact ok.sorted
    have hbound : ∀ e ∈ l.entries, e.searchKey < idBound := fun e he =>
      (ok.within e (hent ▸ he)).2.trans_le (h.tree.bounds hpb).2
    have hcap : l.numEntries ≤ DirectoryLeafPage.maxEntries := by
      rw [DirectoryLeafPage.numEntries, ← hent]
      exact ok.capacity
    have hnext' : l.nextPage ≠ 0 → l.nextPage ≠ p ∧ ∃ a, F.At l.nextPage 0 a := by
      intro hn
      rw [← hnext] at hn ⊢
      have hat := ok.next hn
      refine ⟨?_, b, hat⟩
      rintro rfl
      exact (h.tree.bounds hpb).1.ne (hat.unique (Extents.at_of hpb)).2.symm
    rw [resume, atLeaf]
    by_cases hmem : ∃ e ∈ l.entries, e.searchKey = k
    · left
      split_ifs with hfull
      · rw [splitLeaf_present hsorted hbound hmem]
        exact ⟨_, rfl⟩
      · rw [DirectoryLeafPage.insertEntry_of_present hsorted (not_le.1 hfull) hmem]
        exact ⟨_, rfl⟩
    · right
      have habs : ∀ e ∈ l.entries, e.searchKey ≠ k := fun e he hek => hmem ⟨e, he, hek⟩
      have htarget : Target F (m.see p (.leaf l) (.leaf (.addPage k r) path)) (newEntry k r) p l path :=
        ⟨⟨a, b, hpb⟩, Function.update_self .., rfl, habs, hnext', hup⟩
      split_ifs with hfull
      · rw [splitLeaf_absent hsorted hbound hk hr habs]
        exact .splitLeaf htarget hsorted hbound (hcap.antisymm hfull)
      · rw [DirectoryLeafPage.insertEntry_of_absent hsorted (not_le.1 hfull) habs]
        exact .insert htarget (not_le.1 hfull)

include hr in
/-- The leaf takes the entry. -/
theorem step_insert (h : Holds others B k r F d.page d.nextDirPage d.rootPage .nothing)
    (ht : Target F m (newEntry k r) p l path) (hroom : l.numEntries < DirectoryLeafPage.maxEntries)
    (hcur : Current d F m (.writePage p (.leaf { l with
      entries := insertBy DirectoryLeafEntry.searchKey (newEntry k r) l.entries }) .ok)) :
    Advances others B k r F m (.writePage p (.leaf { l with
      entries := insertBy DirectoryLeafEntry.searchKey (newEntry k r) l.entries }) .ok) .nothing d := by
  obtain ⟨a, b, l', hp, ha, hb, hl', hent, hnext⟩ := ht.current h.tree hcur
  obtain ⟨ok', hbinds⟩ := h.tree.insertEntry (y := newEntry k r) { l with
      entries := insertBy DirectoryLeafEntry.searchKey (newEntry k r) l.entries } hp hl' ha hb
    (hent ▸ ht.absent) (by rwa [DirectoryLeafPage.numEntries, hent]) (by rw [hent]) hnext.symm
  have hholds : Holds others B k r F (Function.update d.page p (some (.leaf { l with
      entries := insertBy DirectoryLeafEntry.searchKey (newEntry k r) l.entries }))) d.nextDirPage
      d.rootPage .landing := by
    refine ⟨h.tree.setLeaf hp ok', h.fresh, h.counter, h.apart, by rintro _ ⟨⟩, fun k' r' => ?_⟩
    rw [hbinds, newEntry_binds hr, h.binds]
    simp [Stake.nothing, Stake.landing]
  exact .write (Extents.at_of hp) rfl hholds .done .refl (by rintro _ ⟨⟩) fun _ hn _ => hn

/-- A leaf that is to be split gets its upper half. -/
theorem step_splitLeaf (h : Holds others B k r F d.page d.nextDirPage d.rootPage .nothing)
    (ht : Target F m (newEntry k r) p l path) (hs : l.Sorted)
    (hb : ∀ e ∈ l.entries, e.searchKey < idBound) (hk : k < idBound)
    (hfull : l.numEntries = DirectoryLeafPage.maxEntries) :
    Advances others B k r F m (.alloc (.splitLeaf p l (DirectoryLeafPage.pairs
      (insertBy DirectoryLeafEntry.searchKey (newEntry k r) l.entries)) path)) .nothing d := by
  obtain ⟨xs, e, ys, he, hxs, hys, hfinish⟩ := splitLeafFinish_spec
    (insertIdx_findSlot (e := newEntry k r) hs ht.absent).2.2
    (fun e he => by
      rcases mem_insertBy.1 he with rfl | he
      · exact hk
      · exact hb e he)
    (by rw [length_insertBy, ← hfull, DirectoryLeafPage.numEntries])
  refine .alloc h ?_
  rw [allocated, hfinish]
  exact .upperLeaf ⟨ht, he, hxs, hys⟩

/-- A page of the tree that is not the page the call holds. -/
theorem Holds.ne_held (h : Holds others B k r F page next root s) (hp : F.At p ℓ a)
    (hn : s.held = some n) : n ≠ p := by
  rintro rfl
  obtain ⟨b, hp⟩ := hp
  rw [(h.held n hn).1] at hp
  cases hp

/-- The right sibling is read. -/
theorem step_sibling {xs ys : List DirectoryLeafEntry} {e : DirectoryLeafEntry}
    (h : Holds others B k r F d.page d.nextDirPage d.rootPage (.holding n))
    (hc : LeafCut F m (newEntry k r) p l path xs e ys)
    (hreads : ReadsPage l.nextPage (.sibling p ⟨p, n, l.prevPage, xs⟩ path n e.searchKey) pc)
    (hnext : l.nextPage ≠ p ∧ ∃ a, F.At l.nextPage 0 a)
    (hn : d.page n = some (.leaf ⟨n, l.nextPage, p, e :: ys⟩)) (hcur : Current d F m pc) :
    Advances others B k r F m pc (.holding n) d := by
  obtain ⟨a, ha⟩ := hnext.2
  refine .read h hreads hcur (Or.inr ⟨0, a, ha⟩) (fun _ hreads => .sibling hc hreads hnext hn)
    fun pg _ => ?_
  cases pg with
  | inner i => exact Or.inl ⟨_, rfl⟩
  | header hd => exact Or.inl ⟨_, rfl⟩
  | leaf sib =>
    refine Or.inr (.relink ⟨⟨hc.target.place, ?_, hc.target.aim, hc.target.absent,
      hc.target.next, hc.target.up⟩,
      hc.merged, hc.lower, hc.upper⟩ hnext (Function.update_self ..) ?_)
    · exact (Function.update_of_ne hnext.1.symm ..).trans hc.target.read
    · exact (Function.update_of_ne (h.ne_held ha rfl) ..).trans hn

/-- The right sibling is linked to the upper half. -/
theorem step_relink {xs ys : List DirectoryLeafEntry} {e : DirectoryLeafEntry}
    {sib : DirectoryLeafPage} (h : Holds others B k r F d.page d.nextDirPage d.rootPage (.holding n))
    (hc : LeafCut F m (newEntry k r) p l path xs e ys)
    (hnext : l.nextPage ≠ p ∧ ∃ a, F.At l.nextPage 0 a)
    (hread : m.pages l.nextPage = some (.leaf sib))
    (hn : d.page n = some (.leaf ⟨n, l.nextPage, p, e :: ys⟩)) {next : Pc}
    (hpc : next = .writePage p (.leaf ⟨p, n, l.prevPage, xs⟩) (afterSplitLeaf p path n e.searchKey))
    (hcur : Current d F m (.writePage l.nextPage (.leaf (sib.setPrevPage n)) next)) :
    Advances others B k r F m (.writePage l.nextPage (.leaf (sib.setPrevPage n)) next)
      (.holding n) d := by
  obtain ⟨a, ha⟩ := hnext.2
  have hsame : l.nextPage ≠ 0 → SameBody (d.page l.nextPage) (.leaf (sib.setPrevPage n)) :=
    fun h0 => (hcur h0 _ hread).1
  subst hpc
  exact .write ha rfl (h.sameBody hsame)
    (.lowerLeaf hc ((Function.update_of_ne (h.ne_held ha rfl) ..).trans hn)) .refl
    (fun _ => id) fun _ hn _ => hn

/-- The parent is read: it takes the separator or is to be split. -/
theorem step_parent {σ : ℕ} (h : Holds others B k r F d.page d.nextDirPage d.rootPage (.owing x))
    (hreads : ReadsPage q (.parent path σ x) pc) (hcur : Current d F m pc)
    (hq : F.At q (ℓ + 1) c) (hx : F.At x ℓ σ) (hup : Up F m.root q (ℓ + 1) path) :
    Advances others B k r F m pc (.owing x) d := by
  refine .read h hreads hcur (Or.inr ⟨ℓ + 1, c, hq⟩) (fun _ hreads => .parent hreads hq hx hup)
    fun pg hsame => ?_
  have hsame := hsame (h.tree.ne_zero_of_at hq)
  obtain ⟨b, hqb⟩ := hq
  cases pg with
  | leaf l => exact Or.inl ⟨_, rfl⟩
  | header hd => exact Or.inl ⟨_, rfl⟩
  | inner i =>
    right
    obtain ⟨_, -, ok⟩ := h.tree.inner_level hqb hsame.inner
    obtain ⟨habs, hs⟩ := h.tree.sorted_insertBy hqb hsame.inner hx (Or.inr rfl)
    have htarget : ParentTarget F (m.see q (.inner i) (.parent path σ x)) σ x ℓ q i path :=
      ⟨⟨c, b, hqb⟩, hx, Function.update_self .., rfl, hup⟩
    rw [resume]
    rcases Nat.lt_or_ge i.numKeys BTreeInnerPage.maxKeys with hroom | hfull
    · rw [insertIntoParent_room ok.sorted habs hroom]
      exact .link htarget hroom
    · rw [insertIntoParent_full ok.sorted habs hfull]
      exact .splitInner htarget hs (ok.capacity.antisymm hfull)

/-- What rises from a leaf that has been cut. -/
theorem rising_afterSplitLeaf {σ : ℕ} : (afterSplitLeaf p path n σ).rising = some (σ, n) := by
  cases path <;> rfl

theorem rising_insertIntoAncestors {σ : ℕ} :
    (insertIntoAncestors path σ n).rising = some (σ, n) := by
  cases path <;> rfl

/-- The upper half of a leaf is written, and the right sibling or the lower half is next. -/
theorem step_upperLeaf {xs ys : List DirectoryLeafEntry} {e : DirectoryLeafEntry}
    (h : Holds others B k r F d.page d.nextDirPage d.rootPage (.holding n))
    (hc : LeafCut F m (newEntry k r) p l path xs e ys) :
    Advances others B k r F m (.writePage n (.leaf ⟨n, l.nextPage, p, e :: ys⟩)
      (rebuiltLeaf p l xs path n e.searchKey)) (.holding n) d := by
  have hrise : (rebuiltLeaf p l xs path n e.searchKey).rising = none := by
    rw [rebuiltLeaf]
    split_ifs <;> rfl
  refine .place h rfl hrise ?_
  rw [rebuiltLeaf]
  split_ifs with hnext
  · exact .sibling hc (Or.inl rfl) (hc.target.next hnext) (Function.update_self ..)
  · exact .lowerLeaf hc (Function.update_self ..)

include hr in
/-- **The lower half is written**: the tree has both halves, and the call owes the upper one
its separator. -/
theorem step_lowerLeaf {xs ys : List DirectoryLeafEntry} {e : DirectoryLeafEntry}
    (h : Holds others B k r F d.page d.nextDirPage d.rootPage (.holding n))
    (hc : LeafCut F m (newEntry k r) p l path xs e ys)
    (hn : d.page n = some (.leaf ⟨n, l.nextPage, p, e :: ys⟩))
    (hcur : Current d F m (.writePage p (.leaf ⟨p, n, l.prevPage, xs⟩)
      (afterSplitLeaf p path n e.searchKey))) :
    Advances others B k r F m (.writePage p (.leaf ⟨p, n, l.prevPage, xs⟩)
      (afterSplitLeaf p path n e.searchKey)) (.holding n) d := by
  obtain ⟨a, b, l', hp, ha, hb, hl', hent, hnext⟩ := hc.target.current h.tree hcur
  obtain ⟨hFn, hlt, hn0⟩ := h.held n rfl
  have hes : insertBy DirectoryLeafEntry.searchKey (newEntry k r) l'.entries = xs ++ e :: ys := by
    rw [hent, hc.merged]
  have tree' := h.tree.splitLeaf ⟨p, n, l.prevPage, xs⟩ hp hl' hFn hn0 ha hb
    (hent ▸ hc.target.absent) hes (by rintro rfl; cases hc.lower) (by rw [hc.lower]; decide)
    (by rw [hc.upper]; decide) hn rfl hnext.symm rfl rfl
  obtain ⟨hpn, -⟩ := h.tree.ne_of_none hFn hp
  obtain ⟨heb, -⟩ := tree'.bounds Extents.split_right
  have hF : F.Shrinks (F.split p n 0 a e.searchKey b) := Extents.shrinks_split hp hFn heb
  have hnone : ∀ q, F q = none → q ≠ n → F.split p n 0 a e.searchKey b q = none := by
    intro q hq hqn
    rw [Extents.split_of_ne _ hqn, hq]
    rintro rfl
    rw [hp] at hq
    cases hq
  have hspans : spansAfter d F (.writePage p (.leaf ⟨p, n, l.prevPage, xs⟩)
      (afterSplitLeaf p path n e.searchKey)) = F.split p n 0 a e.searchKey b := by
    simp only [spansAfter, rising_afterSplitLeaf, Layout.cut, hp]
  have hholds : Holds others B k r (F.split p n 0 a e.searchKey b)
      (Function.update d.page p (some (.leaf ⟨p, n, l.prevPage, xs⟩))) d.nextDirPage d.rootPage
      (.owing n) := by
    refine ⟨tree'.congr_due fun z => ?_, fun id hid => ?_, h.counter, fun z hz => ?_, nofun,
      fun k' r' => ?_⟩
    · simp [Stake.holding, Stake.owing, eq_comm]
    · exact hnone id (h.fresh id hid) (hlt.trans_le hid).ne'
    · obtain rfl := Option.some.inj hz
      exact h.ne_others hFn
    · rw [Tree.binds_splitLeaf hp hl' hFn hes hn rfl rfl, newEntry_binds hr, h.binds]
      simp [Stake.holding, Stake.owing]
  refine .write (Extents.at_of hp) hspans hholds ?_ hF nofun fun q hq hne =>
    hnone q hq fun hqn => hne (congrArg some hqn.symm)
  · have hchild : (F.split p n 0 a e.searchKey b).At n 0 e.searchKey := Extents.at_of Extents.split_right
    have hup := hc.target.up.mono hF
    cases path with
    | nil =>
      obtain rfl : p = m.root := hup
      exact .newRoot (hF.at (Extents.at_of hp)) hchild
    | cons q path =>
      obtain ⟨⟨c, hq⟩, hup⟩ := hup
      exact .parent (Or.inl rfl) hq hchild hup

/-- What is due when the page that the call owed is not, and another is. -/
theorem due_congr {o : Option DirPageId} (hx : ¬ others x) (z : DirPageId) :
    (others z ∨ o = some z) ↔ ((others z ∨ some x = some z) ∧ z ≠ x ∨ o = some z) := by
  constructor
  · rintro (hz | hz)
    · exact Or.inl ⟨Or.inl hz, fun hzx => hx (hzx ▸ hz)⟩
    · exact Or.inr hz
  · rintro (⟨hz | hz, hzx⟩ | hz)
    · exact Or.inl hz
    · exact absurd (Option.some.inj hz).symm hzx
    · exact Or.inr hz

/-- The parent takes the separator. -/
theorem step_link {σ : ℕ} (h : Holds others B k r F d.page d.nextDirPage d.rootPage (.owing x))
    (ht : ParentTarget F m σ x ℓ q i path) (hroom : i.numKeys < BTreeInnerPage.maxKeys)
    (hcur : Current d F m (.writePage q (.inner { i with
      entries := insertBy BTreeInnerEntry.separatorKey ⟨σ, x⟩ i.entries }) .ok)) :
    Advances others B k r F m (.writePage q (.inner { i with
      entries := insertBy BTreeInnerEntry.separatorKey ⟨σ, x⟩ i.entries }) .ok) (.owing x) d := by
  obtain ⟨a, b, hq, ha, hb, hi⟩ := ht.current h.tree hcur
  have hholds : Holds others B k r F (Function.update d.page q (some (.inner { i with
      entries := insertBy BTreeInnerEntry.separatorKey ⟨σ, x⟩ i.entries }))) d.nextDirPage
      d.rootPage .landing := by
    refine ⟨(h.tree.link hq hi hroom ht.child ha hb (Or.inr rfl)).congr_due fun z => ?_, h.fresh,
      h.counter, nofun, nofun, fun k' r' => ?_⟩
    · exact (due_congr (h.apart x rfl) z).trans (or_iff_left nofun)
    · refine (binds_congr (fun _ _ _ => Iff.rfl) fun p lo hi hp => ?_).trans (h.binds k' r')
      rw [Function.update_of_ne]
      rintro rfl
      rw [hq] at hp
      cases hp
  exact .write (Extents.at_of hq) rfl hholds .done .refl nofun fun _ hn _ => hn

/-- A parent that is to be split gets its upper half. -/
theorem step_splitInner {σ : ℕ} (h : Holds others B k r F d.page d.nextDirPage d.rootPage (.owing x))
    (ht : ParentTarget F m σ x ℓ q i path) (hs : SortedBy BTreeInnerEntry.separatorKey
      (insertBy BTreeInnerEntry.separatorKey ⟨σ, x⟩ i.entries))
    (hfull : i.numKeys = BTreeInnerPage.maxKeys) :
    Advances others B k r F m (.alloc (.splitInner q i
      (insertBy BTreeInnerEntry.separatorKey ⟨σ, x⟩ i.entries) path)) (.owing x) d := by
  obtain ⟨xs, e, ys, he, hxs, hys, hfinish⟩ := splitInnerFinish_spec hs
    (by rw [length_insertBy, ← hfull, BTreeInnerPage.numKeys])
  refine .alloc h ?_
  rw [allocated, hfinish]
  exact .upperInner ⟨ht, he, hxs, hys⟩

/-- **The lower half of a parent is written**: the page that was due is in it or beside it,
and the call owes the upper half its separator. -/
theorem step_lowerInner {σ : ℕ} {xs ys : List DirectoryInnerEntry} {e : DirectoryInnerEntry}
    (h : Holds others B k r F d.page d.nextDirPage d.rootPage (.both n x))
    (hc : InnerCut F m σ x ℓ q i path xs e ys)
    (hn : d.page n = some (.inner ⟨n, e.rightChild, ys⟩))
    (hcur : Current d F m (.writePage q (.inner ⟨q, i.leftmostChild, xs⟩)
      (insertIntoAncestors path e.separatorKey n))) :
    Advances others B k r F m (.writePage q (.inner ⟨q, i.leftmostChild, xs⟩)
      (insertIntoAncestors path e.separatorKey n)) (.both n x) d := by
  obtain ⟨a, b, hq, ha, hb, hi⟩ := hc.target.current h.tree hcur
  obtain ⟨hFn, hlt, hn0⟩ := h.held n rfl
  have tree' := h.tree.splitInner ⟨q, i.leftmostChild, xs⟩ hq hi hFn hn0 hc.target.child ha hb
    (Or.inr rfl) hc.merged (by rintro rfl; cases hc.lower) (by rw [hc.lower]; decide)
    (by rw [hc.upper]; decide) hn rfl rfl rfl rfl
  obtain ⟨hqn, -⟩ := h.tree.ne_of_none hFn hq
  obtain ⟨heb, -⟩ := tree'.bounds Extents.split_right
  have hF : F.Shrinks (F.split q n (ℓ + 1) a e.separatorKey b) := Extents.shrinks_split hq hFn heb
  have hnone : ∀ p, F p = none → p ≠ n → F.split q n (ℓ + 1) a e.separatorKey b p = none := by
    intro p hp hpn
    rw [Extents.split_of_ne _ hpn, hp]
    rintro rfl
    rw [hq] at hp
    cases hp
  have hspans : spansAfter d F (.writePage q (.inner ⟨q, i.leftmostChild, xs⟩)
      (insertIntoAncestors path e.separatorKey n)) = F.split q n (ℓ + 1) a e.separatorKey b := by
    simp only [spansAfter, rising_insertIntoAncestors, Layout.cut, hq]
  have hholds : Holds others B k r (F.split q n (ℓ + 1) a e.separatorKey b)
      (Function.update d.page q (some (.inner ⟨q, i.leftmostChild, xs⟩))) d.nextDirPage d.rootPage
      (.owing n) := by
    refine ⟨tree'.congr_due fun z => ?_, fun id hid => ?_, h.counter, fun z hz => ?_, nofun,
      fun k' r' => ?_⟩
    · refine (due_congr (h.apart x rfl) z).trans (or_congr_right ?_)
      simp [Stake.owing, eq_comm]
    · exact hnone id (h.fresh id hid) (hlt.trans_le hid).ne'
    · obtain rfl := Option.some.inj hz
      exact h.ne_others hFn
    · refine (binds_congr (fun _ _ _ => split_succ_zero_iff hq hFn) fun p lo hi hp => ?_).trans
        (h.binds k' r')
      rw [Function.update_of_ne]
      rintro rfl
      rw [hq] at hp
      cases hp
  refine .write (Extents.at_of hq) hspans hholds ?_ hF nofun fun p hp hne =>
    hnone p hp fun hpn => hne (congrArg some hpn.symm)
  · have hchild : (F.split q n (ℓ + 1) a e.separatorKey b).At n (ℓ + 1) e.separatorKey :=
      Extents.at_of Extents.split_right
    have hup := hc.target.up.mono hF
    cases path with
    | nil =>
      obtain rfl : q = m.root := hup
      exact .oldRoot (hF.at (Extents.at_of hq)) hchild
    | cons p path =>
      obtain ⟨⟨c, hp⟩, hup⟩ := hup
      exact .parent (Or.inl rfl) hp hchild hup

/-- **A new root is set** above the one the call went down from. -/
theorem step_setRoot {σ : ℕ} (h : Holds others B k r F d.page d.nextDirPage d.rootPage (.both n x))
    (hroot : F.At m.root ℓ c) (hx : F.At x ℓ σ)
    (hn : d.page n = some (.inner ⟨n, m.root, [⟨σ, x⟩]⟩)) (hcur : d.rootPage = m.root) :
    Advances others B k r F m (.setRoot n) (.both n x) d := by
  obtain ⟨hFn, hlt, hn0⟩ := h.held n rfl
  obtain ⟨t, hL⟩ := h.tree.levels_of_at hx
  obtain ⟨rfl, rfl⟩ := (hcur ▸ hL.rooted).unique hroot
  obtain ⟨b, hb⟩ := hroot
  have hspans : spansAfter d F (.setRoot n) = F.add n (t + 1) 0 idBound := by
    simp only [spansAfter, Layout.raise, hcur, hb]
  have hF : F.Shrinks (F.add n (t + 1) 0 idBound) := Extents.shrinks_add hFn
  have hnone : ∀ p, F p = none → p ≠ n → F.add n (t + 1) 0 idBound p = none := fun p hp hpn => by
    rw [Extents.add_of_ne hpn, hp]
  rw [Advances, hspans]
  refine Or.inr ⟨.landing, ⟨?_, fun id hid => ?_, h.counter, nofun, nofun, fun k' r' => ?_⟩,
    .header (Or.inl rfl), hF, le_rfl, fun p _ _ hp hne => ⟨?_, rfl⟩, nofun⟩
  · refine (h.tree.newRoot hFn hn0 hn hcur.symm rfl (hcur ▸ ⟨b, hb⟩) hx).congr_due fun z => ?_
    exact (due_congr (h.apart x rfl) z).trans (or_iff_left nofun)
  · exact hnone id (h.fresh id hid) (hlt.trans_le hid).ne'
  · exact (binds_congr (fun _ _ _ => add_succ_zero_iff hFn) fun _ _ _ _ => rfl).trans (h.binds k' r')
  · exact hnone p hp fun hpn => hne (congrArg some hpn.symm)

include hk hr in
/-- **The first leaf becomes the root.** -/
theorem step_setFirst (h : Holds others B k r F d.page d.nextDirPage d.rootPage (.holding n))
    (hempty : m.root = 0) (hn : d.page n = some (.leaf ⟨n, 0, 0, [newEntry k r]⟩))
    (hcur : d.rootPage = m.root) : Advances others B k r F m (.setRoot n) (.holding n) d := by
  obtain ⟨hFn, hlt, hn0⟩ := h.held n rfl
  have hroot : d.rootPage = 0 := hcur.trans hempty
  obtain ⟨hnoF, -⟩ := h.tree.empty hroot
  have hspans : spansAfter d F (.setRoot n) = F.add n 0 0 idBound := by
    simp only [spansAfter, Layout.raise, hroot, h.tree.zero]
  rw [Advances, hspans]
  refine Or.inr ⟨.landing, ⟨?_, fun id hid => ?_, h.counter, nofun, nofun, fun k' r' => ?_⟩,
    .header (Or.inl rfl), Extents.shrinks_add hFn, le_rfl, fun p _ _ hp hne => ⟨?_, rfl⟩, nofun⟩
  · exact h.tree.firstLeaf hroot hn0 hn rfl hk rfl
  · rw [Extents.add_of_ne (hlt.trans_le hid).ne']
    exact h.fresh id hid
  · have hnone := (h.binds k' r').not.1 (h.tree.not_binds hroot)
    refine (Tree.binds_firstLeaf hnoF hn).trans ?_
    rw [← newEntry_binds hr]
    simp only [List.mem_singleton, exists_eq_left, Stake.landing, true_and]
    exact (or_iff_right fun hB => hnone (Or.inl hB)).symm
  · rw [Extents.add_of_ne, hp]
    rintro rfl
    exact hne rfl

/-- A call begins: the tree is empty, or it goes down from the root. -/
theorem step_start (h : Holds others B k r F d.page d.nextDirPage d.rootPage .nothing) :
    Advances others B k r F m (.start (.addPage k r)) .nothing d := by
  by_cases hroot : d.rootPage = 0
  · have hstep : step d (.start (.addPage k r)) = (d, .alloc (.firstLeaf k r)) := if_pos hroot
    rw [Advances, hstep]
    exact Or.inr (.stay h (.firstLeaf hroot))
  · have hstep : step d (.start (.addPage k r)) = (d, .locate (.addPage k r)) := if_neg hroot
    rw [Advances, hstep]
    exact Or.inr (.stay h .locate)

/-- A call goes down from the root. -/
theorem step_locate (h : Holds others B k r F d.page d.nextDirPage d.rootPage .nothing) :
    Advances others B k r F m (.locate (.addPage k r)) .nothing d := by
  by_cases hroot : d.rootPage = 0
  · have hstep : step d (.locate (.addPage k r)) = (d, noLeaf (.addPage k r)) := if_pos hroot
    rw [Advances, hstep]
    exact Or.inl ⟨_, rfl⟩
  · have hstep : step d (.locate (.addPage k r)) =
        (d, .readPage d.rootPage (.descend (.addPage k r) [])) := if_neg hroot
    obtain ⟨t, hL⟩ := h.tree.levels hroot
    rw [Advances, hstep]
    exact Or.inr (.stay h (.descend (Or.inl rfl) hL.rooted (Nat.zero_le k) rfl))

/-- The header page is read. -/
theorem step_header (h : Holds others B k r F d.page d.nextDirPage d.rootPage .landing)
    (hreads : ReadsPage 0 (.header n) pc) (hcur : Current d F m pc) :
    Advances others B k r F m pc .landing d := by
  refine .read h hreads hcur (Or.inl rfl) (fun _ hreads => .header hreads) fun pg _ => ?_
  cases pg with
  | header hd => exact Or.inr .counter
  | inner i => exact Or.inl ⟨_, rfl⟩
  | leaf l => exact Or.inl ⟨_, rfl⟩

include hk hr in
/-- **One access** of a call that does not act on outdated knowledge: it fails, or it stands
somewhere again and the others have lost nothing. -/
theorem Stands.step (hst : Stands F d.page k r m pc s)
    (h : Holds others B k r F d.page d.nextDirPage d.rootPage s) (hcur : Current d F m pc) :
    Advances others B k r F m pc s d := by
  cases hst with
  | start => exact step_start h
  | locate => exact step_locate h
  | descend reads place start up => exact step_descend h reads hcur place start up
  | leaf reads place up => exact step_leaf hk hr h reads hcur place up
  | insert target room => exact step_insert hr h target room hcur
  | splitLeaf target sorted bound full => exact step_splitLeaf h target sorted bound hk full
  | upperLeaf cut => exact step_upperLeaf h cut
  | sibling cut reads next placed => exact step_sibling h cut reads next placed hcur
  | relink cut next read placed => exact step_relink h cut next read placed rfl hcur
  | lowerLeaf cut placed => exact step_lowerLeaf hr h cut placed hcur
  | parent reads place child up => exact step_parent h reads hcur place child up
  | link target room => exact step_link h target room hcur
  | splitInner target sorted full => exact step_splitInner h target sorted full
  | upperInner cut => exact .place h rfl rfl (.lowerInner cut (Function.update_self ..))
  | lowerInner cut placed => exact step_lowerInner h cut placed hcur
  | @oldRoot sep x ℓ c place child =>
    have hstep : step d (.oldRoot sep x) = (d, .alloc (.newRoot m.root sep x)) := by
      rw [← hcur]
      rfl
    rw [Advances, hstep]
    exact Or.inr (.stay h (.newRoot place child))
  | newRoot place child => exact .alloc h (.writeRoot place child)
  | writeRoot place child =>
    exact .place h rfl rfl (.setRoot place child (Function.update_self ..))
  | setRoot place child placed => exact step_setRoot h place child placed hcur
  | firstLeaf empty => exact .alloc h (.writeFirst empty)
  | writeFirst empty => exact .place h rfl rfl (.setFirst empty (Function.update_self ..))
  | setFirst empty placed => exact step_setFirst hk hr h empty placed hcur
  | header reads => exact step_header h reads hcur
  | counter => exact Or.inr (.stay h .writeHeader)
  | writeHeader =>
    rw [Advances, step_writePage]
    exact Or.inr (.sameBody h (fun h0 => absurd rfl h0) (Or.inl rfl) (.dirty .done))
  | done => exact Or.inr (.stay h .done)
  | dirty hst => exact Or.inr (.stay h hst)

end Steps

end Directory
end Abdb
