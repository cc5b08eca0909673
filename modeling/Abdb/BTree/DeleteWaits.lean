/-
# A delete that waits for itself

`delete` keeps the write guard of its leaf through `try_merge_leaf`, and there asks for the
latches of both leaves it means to merge, one of which is that leaf.  So it never gets that far:
a delete that runs alone returns exactly if it tries no merge, because its leaf stays large
enough or has no neighbour under its parent (`delete_runs_iff`).
-/

import Abdb.BTree.ConcurrentGet
import Abdb.BTree.Shape

namespace Abdb
namespace BTree

open Lib Relation

variable {S : PageSupply} {F : Layout} {st st' : Store} {q leaf root : LPageId} {key ℓ a b lo hi : ℕ}
  {rid : RecordId} {path : List LPageId}

/-! ### Operations that wait for themselves -/

section Latched

variable {Pc : Type} {M : Machine Pc} {x y z : Store × Pc}

theorem Store.latched_resume {pc pc' : Pc} {ws : List Write} {r : Option LPageId}
    (hfree : ¬ M.SelfWaits pc) (hn : M.await pc ≠ .newPage) (h0 : M.await pc ≠ .nothing)
    (h : M.resume st.view 0 pc = ⟨ws, r, pc'⟩) : Store.Latched S M (st, pc)
      (⟨writePages st.page ws, r.getD st.root, st.allocated⟩, pc') :=
  ⟨hfree, (Store.step_resume hn h0 h).symm⟩

/-- An operation that waits for itself stays where it is. -/
theorem Store.eq_of_selfWaits (h : M.SelfWaits x.2) (hxy : ReflTransGen (Store.Latched S M) x y) : y = x := by
  rcases hxy.cases_head with rfl | ⟨z, hz, -⟩
  · rfl
  · exact absurd h hz.1

/-- **An operation that returns has not waited for itself** on the way. -/
theorem Store.not_selfWaits (hz : M.await z.2 = .nothing) (hxz : ReflTransGen (Store.Latched S M) x z)
    (hxy : ReflTransGen (Store.Latched S M) x y) : ¬ M.SelfWaits y.2 := by
  have hdone : ¬ M.SelfWaits z.2 := by
    rintro ⟨p, m, hawait, -⟩
    rw [hz] at hawait
    cases hawait
  intro hwait
  have htotal := ReflTransGen.total_of_right_unique
    (fun (_ _ _ : Store × Pc) hab hac => hab.2.trans hac.2.symm) hxy hxz
  rcases htotal with h | h
  · rw [Store.eq_of_selfWaits hwait h] at hdone
    exact hdone hwait
  · obtain rfl := Store.eq_of_reaches hz (Store.steps_of_latched h)
    exact hdone hwait

end Latched

/-! ### What a delete should do -/

namespace Delete

/-- Running alone, the delete returns. -/
def Returns (S : PageSupply) (key : ℕ) (rid : RecordId) (x : Store × DeletePc) (st' : Store)
    (r : Except Error Unit) : Prop :=
  ReflTransGen (Store.Latched S (machine key rid)) x (st', .done r)

/-- The entry of the delete in a leaf below an inner page, and the leaf without it. -/
structure Entry (st : Store) (key : ℕ) (rid : RecordId) (q leaf : LPageId) (i : BTreeInnerPage)
    (l' : BTreeLeafPage) : Prop where
  inTree : st.InTree q
  parent : st.page q = some (.inner i)
  child : leaf ∈ childrenOf BTreeInnerEntry.rightChild i.leftmostChild i.entries
  removed : ∃ l xs e ys, st.page leaf = some (.leaf l) ∧ l.entries = xs ++ e :: ys ∧ e.key = key ∧
    e.recordId = rid ∧ l' = { l with entries := xs ++ ys }

/-- **A delete runs**: it asks for no latch that it holds, it returns, and if its leaf becomes
small and fits together with its neighbour, the two are merged. -/
structure Runs (S : PageSupply) (st : Store) (key : ℕ) (rid : RecordId) : Prop where
  never : ∀ y, ReflTransGen (Store.Latched S (machine key rid)) (st, .start) y →
    ¬ (machine key rid).SelfWaits y.2
  returns : ∃ st' r, Returns S key rid (st, .start) st' r
  merges : ∀ q leaf i l' info ls lr, Entry st key rid q leaf i l' → l'.canMerge = true →
    findMergeCandidate i leaf = some info →
    Function.update st.page leaf (some (.leaf l')) info.survivor = some (.leaf ls) →
    Function.update st.page leaf (some (.leaf l')) info.removed = some (.leaf lr) →
    ls.numEntries + lr.numEntries ≤ BTreeLeafPage.maxEntries →
    ∀ st' r, Returns S key rid (st, .start) st' r →
      ∃ s, st'.page info.survivor = some (.leaf s) ∧ s.entries = ls.entries ++ lr.entries

/-- A leaf becomes small by the delete, and has a neighbour under its parent. -/
def Underflows (st : Store) (key : ℕ) (rid : RecordId) : Prop :=
  ∃ q leaf i l', Entry st key rid q leaf i l' ∧ l'.canMerge = true ∧ i.entries ≠ []

/-- One of the two leaves to merge is the leaf itself. -/
theorem findMergeCandidate_leaf {i : BTreeInnerPage} {info : MergeInfo}
    (h : findMergeCandidate i leaf = some info) : info.survivor = leaf ∨ info.removed = leaf := by
  have hscan : ∀ (es : List BTreeInnerEntry) (left : LPageId) (n : ℕ),
      findMergeCandidate.scan leaf left n es = some info → info.removed = leaf := by
    intro es
    induction es with
    | nil => exact fun _ _ h => nomatch h
    | cons e es ih =>
      intro left n h
      rw [findMergeCandidate.scan] at h
      split at h
      · cases h
        rfl
      · exact ih _ _ h
  unfold findMergeCandidate at h
  split at h
  · cases h
  · split at h
    · cases h
      exact Or.inl rfl
    · exact Or.inr (hscan _ _ _ h)

/-! ### The run of a delete -/

/-- At the parent: with a neighbour the delete waits for itself, without one it returns. -/
theorem returns_fetchParent (rid : RecordId) (h : st.Rests S F) (hq : F q = some ⟨1, lo, hi⟩)
    (hleaf : F leaf = some ⟨0, a, b⟩) (ha : a ≤ key) (hb : key < b) (hlo : lo ≤ key) (hhi : key < hi) :
    ∃ i, st.page q = some (.inner i) ∧
      leaf ∈ childrenOf BTreeInnerEntry.rightChild i.leftmostChild i.entries ∧
      ((∃ st' r, Returns S key rid (st, .fetchParent st.root leaf q) st' r) ↔ i.entries = []) := by
  obtain ⟨i, hi', ok, hmem, -, -⟩ := h.tree.child_of_covers hq hleaf hlo hhi ha hb
  refine ⟨i, hi', hmem, ?_⟩
  have hfree : ¬ (machine key rid).SelfWaits (.fetchParent st.root leaf q) := by
    rintro ⟨p, m, hp, hheld⟩
    cases hp
    rw [List.mem_singleton.1 hheld, hleaf] at hq
    cases hq
  rcases findMergeCandidate_spec hmem with ⟨hnil, hnone⟩ | ⟨xs, e, ys, he, hsome⟩
  · have hstep : Store.Latched S (machine key rid) (st, .fetchParent st.root leaf q) (st, .done (.ok ())) :=
      Store.latched_resume hfree nofun nofun (onParent_none hi' hnone)
    exact iff_of_true ⟨st, .ok (), .single hstep⟩ hnil
  · refine iff_of_false ?_ (by rw [he]; simp)
    rintro ⟨st', r, hret⟩
    obtain ⟨c, d, hs, hr, hla, hbh⟩ := h.tree.neighbours hq hi' he
    obtain ⟨ls, hls, -⟩ := h.tree.leaf hs
    generalize hinfo : (⟨lastChild BTreeInnerEntry.rightChild i.leftmostChild xs, e.rightChild,
      xs.length⟩ : MergeInfo) = info at hsome
    -- the survivor, if it is not the leaf, is fetched, and then the leaf
    have hstep₁ : st.step S (machine key rid) (.fetchParent st.root leaf q) =
        (st, .fetchSurvivor st.root leaf q info) := Store.step_goto nofun nofun (onParent_some hi' hsome)
    have hstep₂ : st.step S (machine key rid) (.fetchSurvivor st.root leaf q info) =
        (st, .fetchRemoved st.root leaf q info) := by
      have hsurvivor : st.view.page info.survivor = some (.leaf ls) := hinfo ▸ hls
      have hres : resume key rid st.view (.fetchSurvivor st.root leaf q info) = _ :=
        fetchSurvivor_eq hsurvivor
      exact Store.step_goto nofun nofun hres
    have hnext : ∀ {pc pc' : DeletePc}, st.step S (machine key rid) pc = (st, pc') →
        ReflTransGen (Store.Latched S (machine key rid)) (st, pc) (st', .done r) → await pc ≠ .nothing →
        ¬ (machine key rid).SelfWaits pc ∧
          ReflTransGen (Store.Latched S (machine key rid)) (st, pc') (st', .done r) := by
      intro pc pc' hstep hret hne
      rcases hret.cases_head with heq | ⟨y, ⟨hy, rfl⟩, hrest⟩
      · cases heq
        exact absurd rfl hne
      · exact ⟨hy, hstep ▸ hrest⟩
    obtain ⟨-, hret₁⟩ := hnext hstep₁ hret nofun
    obtain ⟨hwait₁, hret₂⟩ := hnext hstep₂ hret₁ nofun
    rcases findMergeCandidate_leaf hsome with hsurvivor | hremoved
    · exact hwait₁ ⟨leaf, .write, congrArg (Await.page · .write) hsurvivor, by simp [machine, holds]⟩
    · have hwait₂ : (machine key rid).SelfWaits (.fetchRemoved st.root leaf q info) :=
        ⟨leaf, .write, congrArg (Await.page · .write) hremoved, by simp [machine, holds]⟩
      cases Store.eq_of_selfWaits hwait₂ hret₂

/-- The key of a delete has one leaf, which has one parent. -/
theorem Entry.unique (h : st.Rests S F) (hleaf : F leaf = some ⟨0, a, b⟩) (ha : a ≤ key) (hb : key < b)
    {leaf' : LPageId} {i : BTreeInnerPage} {l' : BTreeLeafPage} (hE : Entry st key rid q leaf' i l') :
    leaf' = leaf ∧ ∃ lo hi, F q = some ⟨1, lo, hi⟩ ∧ lo ≤ key ∧ key < hi := by
  obtain ⟨h0, d, hd⟩ := hE.inTree
  obtain ⟨l, xs, e, ys, hl, hes, rfl, -, -⟩ := hE.removed
  obtain ⟨height, htop, -⟩ := h.tree.top h0
  obtain ⟨ℓ, lo, hi, -, hq, -⟩ := h.tree.span_of_mem htop.1 hd
  have hchild : leaf' ∈ childPages (st.page q) := by
    rw [hE.parent]
    exact hE.child
  obtain ⟨ℓ', a', b', rfl, hleaf', hla, hbh⟩ := h.tree.span_of_child hq hchild
  obtain ⟨rfl, ok⟩ := h.tree.leaf_level hleaf' hl
  obtain ⟨ha', hb'⟩ := ok.within e (by rw [hes]; simp)
  exact ⟨h.tree.unique hleaf' hleaf ha' hb' ha hb, lo, hi, hq, hla.trans ha', hb'.trans_le hbh⟩

/-- **At the leaf**: the delete returns unless the leaf becomes small and has a neighbour. -/
theorem returns_fetchLeaf (h : st.Rests S F) (hleaf : F leaf = some ⟨0, a, b⟩) (ha : a ≤ key)
    (hb : key < b) (hpath : PathOk F key 0 path) (hnil : path = [] → leaf = st.root) :
    (∃ st' r, Returns S key rid (st, .fetchLeaf st.root leaf path) st' r) ↔ ¬ Underflows st key rid := by
  obtain ⟨l, hl, ok⟩ := h.tree.leaf hleaf
  have hfree : ¬ (machine key rid).SelfWaits (.fetchLeaf st.root leaf path) := by
    rintro ⟨p, m, -, hheld⟩
    cases hheld
  have hstep : ∀ {ws pc'}, onLeaf st.view key rid st.root leaf path = ⟨ws, none, pc'⟩ →
      Store.Latched S (machine key rid) (st, .fetchLeaf st.root leaf path)
        (⟨writePages st.page ws, st.root, st.allocated⟩, pc') := fun hres =>
    Store.latched_resume (r := none) hfree nofun nofun hres
  have hdone : ∀ {ws r}, onLeaf st.view key rid st.root leaf path = ⟨ws, none, .done r⟩ →
      ∃ st' r, Returns S key rid (st, .fetchLeaf st.root leaf path) st' r := fun hres =>
    ⟨_, _, .single (hstep hres)⟩
  -- the entry of an underflow is in this leaf
  have hin : ∀ {q leaf' i l'}, Entry st key rid q leaf' i l' → ∃ xs e ys, l.entries = xs ++ e :: ys ∧
      e.key = key ∧ e.recordId = rid ∧ l' = { l with entries := xs ++ ys } := by
    intro q leaf' i l' hE
    obtain ⟨rfl, -⟩ := hE.unique h hleaf ha hb
    obtain ⟨l₁, xs, e, ys, hl₁, hes, hek, her, rfl⟩ := hE.removed
    obtain rfl : l = l₁ := by simpa [hl] using hl₁
    exact ⟨xs, e, ys, hes, hek, her, rfl⟩
  rcases SortedBy.cut ok.sorted key with ⟨xs, e, ys, hes, hek⟩ | ⟨xs, ys, hes, hx, hy⟩
  · by_cases hr : e.recordId = rid
    · have hhit : onLeaf st.view key rid st.root leaf path = _ := onLeaf_hit hl ok.sorted hes hek hr
      -- the entry leaves the leaf
      have hsame : ∀ {q leaf' i l'}, Entry st key rid q leaf' i l' →
          l'.canMerge = ({ l with entries := xs ++ ys } : BTreeLeafPage).canMerge := by
        intro q leaf' i l' hE
        obtain ⟨xs', e', ys', hes', -, -, rfl⟩ := hin hE
        have hlen := congrArg List.length (hes.symm.trans hes')
        simp only [List.length_append, List.length_cons] at hlen
        unfold BTreeLeafPage.canMerge BTreeLeafPage.numEntries
        simp only [List.length_append]
        rw [show xs.length + ys.length = xs'.length + ys'.length by omega]
      by_cases hmerge : ({ l with entries := xs ++ ys } : BTreeLeafPage).canMerge = true
      · rw [if_pos hmerge] at hhit
        cases path with
        | nil =>
          -- the leaf is the root, and no page is above it
          refine iff_of_true (hdone hhit) ?_
          rintro ⟨q, leaf', i, l', hE, -⟩
          obtain ⟨-, lo, hi, hq, -⟩ := hE.unique h hleaf ha hb
          obtain ⟨height, htop, hle⟩ := h.tree.top hE.inTree.1
          rw [← hnil rfl] at htop
          obtain rfl := Layout.Covers.level hleaf htop
          have hlevel : 1 ≤ 0 := hle hq
          exact absurd hlevel (by decide)
        | cons q rest =>
          obtain ⟨lo, hi, hq, hlo, hhi⟩ := hpath
          have hne : q ≠ leaf := by
            rintro rfl
            rw [hleaf] at hq
            cases hq
          obtain ⟨i, hi', hmem, hiff⟩ :=
            returns_fetchParent rid (h.removeEntry hleaf hl hes) hq hleaf ha hb hlo hhi
          replace hi' : st.page q = some (.inner i) := (Function.update_of_ne hne ..).symm.trans hi'
          have hnext := hstep hhit
          rw [writePages_cons, writePages_nil] at hnext
          have hret : (∃ st' r, Returns S key rid (st, .fetchLeaf st.root leaf (q :: rest)) st' r) ↔
              i.entries = [] := by
            refine Iff.trans (exists₂_congr fun st' r => ⟨fun hret => ?_, fun hret => hret.head hnext⟩) hiff
            rcases hret.cases_head with heq | ⟨y, hy, hrest⟩
            · cases heq
            · rwa [hy.2.trans hnext.2.symm] at hrest
          rw [hret, ← not_iff_not, not_not]
          constructor
          · exact fun hne => ⟨q, leaf, i, _, ⟨h.tree.reachable hq, hi', hmem, l, xs, e, ys, hl, hes, hek, hr, rfl⟩,
              hmerge, hne⟩
          · rintro ⟨q', leaf', i', l', hE, -, hne⟩
            obtain ⟨-, lo', hi'', hq', hlo', hhi'⟩ := hE.unique h hleaf ha hb
            obtain rfl := h.tree.unique hq hq' hlo hhi hlo' hhi'
            obtain rfl : i = i' := by simpa [hi'] using hE.parent
            exact hne
      · rw [if_neg hmerge] at hhit
        refine iff_of_true (hdone hhit) ?_
        rintro ⟨q, leaf', i, l', hE, hm, -⟩
        exact hmerge (hsame hE ▸ hm)
    · refine iff_of_true (hdone (onLeaf_other hl ok.sorted hes hek hr)) ?_
      rintro ⟨q, leaf', i, l', hE, -⟩
      obtain ⟨xs', e', ys', hes', hek', her', -⟩ := hin hE
      have hmem : e' ∈ l.entries := by rw [hes']; simp
      have := ok.sorted.eq_of_key_eq hmem (by rw [hes]; simp) (hek'.trans hek.symm)
      exact hr (this ▸ her')
  · have habs : ∀ e ∈ l.entries, e.key ≠ key := by
      intro e he
      rw [hes] at he
      rcases List.mem_append.1 he with he | he
      · exact (hx e he).ne
      · exact (hy e he).ne'
    refine iff_of_true (hdone (onLeaf_absent hl ok.sorted habs)) ?_
    rintro ⟨q, leaf', i, l', hE, -⟩
    obtain ⟨xs', e', ys', hes', hek', -⟩ := hin hE
    exact habs e' (by rw [hes']; simp) hek'

/-- Running alone, a delete returns exactly if it does not come to a merge. -/
theorem returns_iff (h : st.Rests S F) (hk : key < keyBound) (rid : RecordId) :
    (∃ st' r, Returns S key rid (st, .start) st' r) ↔ ¬ Underflows st key rid := by
  have hfree : ¬ (machine key rid).SelfWaits .start := by
    rintro ⟨p, m, hawait, -⟩
    cases hawait
  have hres : resume key rid st.view .start =
      if st.root = 0 then fail .tupleNonExistent else Out.goto (.findLeafWithPath st.root st.root []) := rfl
  by_cases h0 : st.root = 0
  · rw [if_pos h0] at hres
    have hstep : Store.Latched S (machine key rid) (st, .start) (st, .done (.error .tupleNonExistent)) :=
      Store.latched_resume hfree nofun nofun hres
    refine iff_of_true ⟨st, _, .single hstep⟩ ?_
    rintro ⟨q, leaf, i, l', hE, -⟩
    exact hE.inTree.1 h0
  · rw [if_neg h0] at hres
    have hstep : Store.Latched S (machine key rid) (st, .start) (st, .findLeafWithPath st.root st.root []) :=
      Store.latched_resume hfree nofun nofun hres
    obtain ⟨ℓ, htop, -⟩ := h.tree.top h0
    have hpath : PathOk F key ℓ [] := trivial
    obtain ⟨leaf, path, a, b, hleaf, ha, hb, hpath', hnil, hsteps⟩ :=
      descend (S := S) st.root h.tree rid htop.1 (Nat.zero_le key) hk hpath
    rw [← returns_fetchLeaf h hleaf ha hb hpath' fun hp => (hnil hp).1]
    refine exists₂_congr fun st' r => ⟨fun hret => ?_, fun hret => (hsteps.head hstep).trans hret⟩
    have htotal := ReflTransGen.total_of_right_unique
      (fun (_ _ _ : Store × DeletePc) hab hac => hab.2.trans hac.2.symm) (hsteps.head hstep) hret
    rcases htotal with hret | hback
    · exact hret
    · cases Store.eq_of_reaches rfl (Store.steps_of_latched hback)

end Delete

/-- **A delete runs exactly if it comes to no merge**: its leaf stays at the merge threshold or
above, or has no neighbour under its parent. -/
theorem delete_runs_iff (h : st.Valid S) (key : List UInt8) (rid : RecordId) :
    Delete.Runs S st (keyFromBytes key) rid ↔ ¬ Delete.Underflows st (keyFromBytes key) rid := by
  obtain ⟨F, hrests⟩ := h
  have hiff := Delete.returns_iff hrests (keyFromBytes_lt key) rid
  refine ⟨fun hruns => hiff.1 hruns.returns, fun hno => ?_⟩
  obtain ⟨st', r, hret⟩ := hiff.2 hno
  refine ⟨fun y hy => Store.not_selfWaits rfl hret hy, ⟨st', r, hret⟩, ?_⟩
  intro q leaf i l' info ls lr hE hmerge hinfo
  refine absurd ⟨q, leaf, i, l', hE, hmerge, fun hnil => ?_⟩ hno
  rw [Delete.findMergeCandidate, hnil] at hinfo
  cases hinfo

/-! ### A small leaf -/

/-- An index of two leaves under one root, which meet at a key. -/
def twoLeaves (m : ℕ) (xs ys : List BTreeLeafEntry) : Store :=
  ⟨fun p => if p = 1 then some (.leaf ⟨1, 2, 0, xs⟩) else if p = 2 then some (.leaf ⟨2, 0, 1, ys⟩)
    else if p = 3 then some (.inner ⟨3, 1, [⟨m, 2⟩]⟩) else none, 3, 3⟩

def twoLeavesLayout (m : ℕ) : Layout := fun p =>
  if p = 1 then some ⟨0, 0, m⟩ else if p = 2 then some ⟨0, m, keyBound⟩
  else if p = 3 then some ⟨1, 0, keyBound⟩ else none

theorem twoLeavesLayout_cases {m : ℕ} {p : LPageId} {s : Span} (h : twoLeavesLayout m p = some s) :
    p = 1 ∧ s = ⟨0, 0, m⟩ ∨ p = 2 ∧ s = ⟨0, m, keyBound⟩ ∨ p = 3 ∧ s = ⟨1, 0, keyBound⟩ := by
  unfold twoLeavesLayout at h
  split_ifs at h with h₁ h₂ h₃ <;> cases h
  · exact Or.inl ⟨h₁, rfl⟩
  · exact Or.inr (Or.inl ⟨h₂, rfl⟩)
  · exact Or.inr (Or.inr ⟨h₃, rfl⟩)

/-- An index of two leaves is at rest. -/
theorem twoLeaves_rests {m : ℕ} {xs ys : List BTreeLeafEntry} (h0 : 0 < m) (hm : m < keyBound)
    (hsx : SortedBy BTreeLeafEntry.key xs) (hsy : SortedBy BTreeLeafEntry.key ys)
    (hx : ∀ e ∈ xs, e.key < m) (hy : ∀ e ∈ ys, m ≤ e.key ∧ e.key < keyBound)
    (hlx : xs.length ≤ BTreeLeafPage.maxEntries) (hly : ys.length ≤ BTreeLeafPage.maxEntries) :
    (twoLeaves m xs ys).Rests .count (twoLeavesLayout m) := by
  refine ⟨⟨rfl, ?_, ?_, ?_, (fun h => nomatch (h : 3 = 0)), fun _ => ⟨1, ⟨rfl, h0.trans hm⟩, ?_⟩⟩, ?_⟩
  · intro p s hp
    rcases twoLeavesLayout_cases hp with ⟨-, rfl⟩ | ⟨-, rfl⟩ | ⟨-, rfl⟩
    · exact ⟨h0, hm.le⟩
    · exact ⟨hm, le_rfl⟩
    · exact ⟨h0.trans hm, le_rfl⟩
  · intro p q ℓ a b a' b' hp hq
    rcases twoLeavesLayout_cases hp with ⟨rfl, h⟩ | ⟨rfl, h⟩ | ⟨rfl, h⟩ <;>
      rcases twoLeavesLayout_cases hq with ⟨rfl, h'⟩ | ⟨rfl, h'⟩ | ⟨rfl, h'⟩ <;> cases h <;> cases h'
    · exact Or.inl rfl
    · exact Or.inr (Or.inl le_rfl)
    · exact Or.inr (Or.inr le_rfl)
    · exact Or.inl rfl
    · exact Or.inl rfl
  · intro p s hp
    rcases twoLeavesLayout_cases hp with ⟨rfl, rfl⟩ | ⟨rfl, rfl⟩ | ⟨rfl, rfl⟩
    · exact ⟨_, rfl, hsx, fun e he => ⟨Nat.zero_le _, hx e he⟩, hlx, Or.inr ⟨keyBound, rfl, hm⟩,
        Or.inl ⟨rfl, rfl⟩⟩
    · exact ⟨_, rfl, hsy, hy, hly, Or.inl ⟨rfl, rfl⟩, Or.inr ⟨0, rfl, h0⟩⟩
    · exact ⟨_, rfl, List.pairwise_singleton .., by simp [BTreeInnerPage.numKeys], ⟨⟨rfl, h0⟩, rfl, hm⟩⟩
  · intro p s hp
    rcases twoLeavesLayout_cases hp with ⟨-, rfl⟩ | ⟨-, rfl⟩ | ⟨-, rfl⟩
    · exact Nat.zero_le 1
    · exact Nat.zero_le 1
    · exact le_rfl
  · intro i hi
    have h3 : 3 ≤ i := hi
    have hne : ∀ n : ℕ, n < 4 → i + 1 ≠ n := by omega
    show (if i + 1 = 1 then _ else if i + 1 = 2 then _ else if i + 1 = 3 then _ else _) = none
    rw [if_neg (hne 1 (by decide)), if_neg (hne 2 (by decide)), if_neg (hne 3 (by decide))]

/-- The keys from `a` on, a number of them. -/
def keysFrom (a n : ℕ) : List BTreeLeafEntry := (List.range n).map fun k => ⟨a + k, 7, 0⟩

theorem length_keysFrom {a n : ℕ} : (keysFrom a n).length = n := by
  rw [keysFrom, List.length_map, List.length_range]

theorem sorted_keysFrom {a n : ℕ} : SortedBy BTreeLeafEntry.key (keysFrom a n) := by
  refine List.pairwise_map.2 (List.pairwise_lt_range.imp fun h => ?_)
  exact Nat.add_lt_add_left h a

theorem mem_keysFrom {a n : ℕ} {e : BTreeLeafEntry} (he : e ∈ keysFrom a n) :
    a ≤ e.key ∧ e.key < a + n := by
  obtain ⟨k, hk, rfl⟩ := List.mem_map.1 he
  exact ⟨Nat.le_add_right a k, Nat.add_lt_add_left (List.mem_range.1 hk) a⟩

/-- Two leaves, with the keys `0..125` and `127..253`. -/
def smallLeaf : Store := twoLeaves 127 (keysFrom 0 126) (keysFrom 127 127)

theorem smallLeaf_rests : smallLeaf.Rests .count (twoLeavesLayout 127) := by
  refine twoLeaves_rests (by decide) (by decide) sorted_keysFrom sorted_keysFrom (fun e he => ?_)
    (fun e he => ?_) ?_ ?_
  · have := mem_keysFrom he
    omega
  · have := mem_keysFrom he
    exact ⟨this.1, this.2.trans (by decide)⟩
  · rw [length_keysFrom]
    decide
  · rw [length_keysFrom]
    decide

/-- A delete from a leaf that is the root. -/
theorem delete_runs_one : Delete.Runs .count (oneLeaf [⟨1, 7, 0⟩]) (keyFromBytes [1]) ⟨7, 0⟩ := by
  obtain ⟨hst, -⟩ := oneLeaf_tree [⟨1, 7, 0⟩] (List.pairwise_singleton ..)
    (by simp [keyBound]) (by simp)
  refine (delete_runs_iff hst [1] ⟨7, 0⟩).2 ?_
  rintro ⟨q, leaf, i, l', hE, -⟩
  have hq := hE.parent
  unfold oneLeaf at hq
  dsimp only at hq
  split_ifs at hq
  cases hq

/-- **A delete waits for itself**: of a leaf with 126 entries it takes one away, and then asks
for the latch of that leaf again. -/
theorem delete_waits : ¬ ∀ (S : PageSupply) (st : Store) (key : List UInt8) (rid : RecordId),
    st.Valid S → st.Exec S (.get key) st (.record (.ok rid)) → Delete.Runs S st (keyFromBytes key) rid := by
  intro hall
  have hrests := smallLeaf_rests
  have hkey : keyFromBytes [0] < keyBound := keyFromBytes_lt [0]
  have hfirst : keysFrom 0 126 = ⟨0, 7, 0⟩ :: keysFrom 1 125 := by decide
  have hget : smallLeaf.Exec .count (.get [0]) smallLeaf (.record (.ok ⟨7, 0⟩)) := by
    refine hrests.tree.exec_get_iff.2 ⟨1, 0, 127, rfl, ⟨0, 7, 0⟩, ?_, rfl, rfl⟩
    show _ ∈ keysFrom 0 126
    rw [hfirst]
    exact List.mem_cons_self ..
  have hruns := hall .count _ [0] ⟨7, 0⟩ ⟨_, hrests⟩ hget
  refine (Delete.returns_iff hrests hkey ⟨7, 0⟩).1 hruns.returns ⟨3, 1, ⟨3, 1, [⟨127, 2⟩]⟩,
    ⟨1, 2, 0, keysFrom 1 125⟩, ⟨?_, rfl, List.mem_cons_self .., ⟨1, 2, 0, keysFrom 0 126⟩, [], ⟨0, 7, 0⟩,
      keysFrom 1 125, rfl, hfirst, rfl, rfl, rfl⟩, ?_, List.cons_ne_nil _ _⟩
  · exact hrests.tree.reachable (q := 3) rfl
  · exact decide_eq_true (by rw [BTreeLeafPage.numEntries, length_keysFrom]; decide)

end BTree
end Abdb
