/-
# Inserts that interleave without an outdated root

Every step of an insert keeps the invariant of `Abdb.BTree.Interleaving` provided it
does not act on an outdated root (`Inv.step`).  The step's own part of the tree changes
as in `Abdb.BTree.Growth`; that the other tasks keep what they know is one argument for
all steps (`Inv.next`), because a step changes only pages its task has latched, pages
nobody has latched, and fresh pages.
-/

import Abdb.BTree.Interleaving

namespace Abdb
namespace BTree

open Lib

variable {ι : Type} {S : PageSupply} {B : ℕ → RecordId → Prop} {σ : Sys ι}
  {F F' : Layout} {D D' : Dues} {page : LPageId → Option Page} {root : LPageId}
  {i : ι} {key : ℕ} {rid : RecordId} {pc pc' : InsertPc} {locked : List LPageId} {ℓ : ℕ}

/-! ### Into the ancestors -/

/-- **`insert_into_ancestors_with_locks` up to its next await**: the separator that is
due above the split page arrives, or stays due while its page, or the root, waits for a
fresh page. -/
theorem Tree.intoAncestors [DecidableEq ι] (h : Tree F D page root) {e : BTreeInnerEntry}
    (hdue : D.due locked.head? = some e) (hcan : CanTake F D page root key ℓ locked)
    (rid : RecordId) :
    ∃ ws pc' D', Insert.insertIntoAncestorsWithLocks ⟨page, root⟩ locked e.separatorKey
        e.rightChild = ⟨ws, none, pc'⟩ ∧
      Tree F D' (writePages page ws) root ∧
      InsertOk F D' (writePages page ws) root key rid pc' ∧
      D'.root = D.root ∧ D'.prev = D.prev ∧ (∀ p ∉ locked, writePages page ws p = page p) ∧
      (Insert.holds pc').Sublist locked ∧ Insert.stored pc' = true ∧ Insert.duePrev pc' = none ∧
      (∀ (own : ι → Option (Option LPageId × BTreeInnerEntry)) (i : ι), Ledger D.due own →
        own i = some (locked.head?, e) → Ledger D'.due (Function.update own i (Insert.due pc'))) ∧
      ∀ k r, F.Binds (writePages page ws) k r ↔ F.Binds page k r := by
  cases locked with
  | nil =>
    refine ⟨[], _, D, Insert.insertIntoAncestors_nil, h, hcan, rfl, rfl, fun _ _ => rfl,
      List.Sublist.refl _, rfl, rfl, fun own i hown hi => ?_, fun _ _ => Iff.rfl⟩
    have hdue' : Insert.due (.newRootAlloc e.separatorKey e.rightChild) = own i := hi.symm
    rwa [hdue', Function.update_eq_self]
  | cons q rest =>
    obtain ⟨⟨a, b, hq, ha, hb⟩, hrest⟩ := hcan
    obtain ⟨p, hp, ok⟩ := h.inner hq
    have hd : D.sep q = some e := hdue
    have hs : SortedBy BTreeInnerEntry.separatorKey
        (insertBy BTreeInnerEntry.separatorKey e p.entries) := by
      have := ok.fenced.sorted fun _ _ _ h => h.lt
      rwa [hd] at this
    rcases Nat.lt_or_ge p.numKeys BTreeInnerPage.maxKeys with hn | hn
    · refine ⟨_, _, D.setDue (some q) none, Insert.insertIntoAncestors_room hp hs ok.sorted hn,
        h.settleSep hq hp hd hn, trivial, by simp [Dues.setDue_root], Dues.setDue_prev,
        fun x hx => ?_, List.nil_sublist _, rfl, rfl, fun own i hown hi => ?_, fun k r => ?_⟩
      · rw [writePages_cons, writePages_nil, Function.update_of_ne]
        rintro rfl
        exact hx (List.mem_cons_self ..)
      · rw [Dues.setDue_due]
        exact hown.clear hi
      · refine Layout.binds_congr (fun _ _ _ => Iff.rfl) fun x a' b' hx => ?_
        rw [writePages_cons, writePages_nil, Function.update_of_ne]
        rintro rfl
        rw [hq] at hx
        simp at hx
    · refine ⟨[], _, D, Insert.insertIntoAncestors_full hp hs ok.sorted hn, h,
        ⟨ℓ, a, b, p, hq, ha, hb, hp, hn, rfl, rfl, hrest⟩, rfl, rfl, fun _ _ => rfl,
        List.Sublist.refl _, rfl, rfl, fun own i hown hi => ?_, fun _ _ => Iff.rfl⟩
      have hdue' : Insert.due (.splitInnerAlloc q rest e.separatorKey e.rightChild
        (insertBy BTreeInnerEntry.separatorKey e p.entries) p.leftmostChild) = own i := hi.symm
      rwa [hdue', Function.update_eq_self]

/-! ### Who holds what -/

/-- A task holds the page it owes a separator. -/
theorem Task.due_held {t : Task} {q : LPageId} {e : BTreeInnerEntry}
    (h : t.due = some (some q, e)) : q ∈ t.holds := by
  cases t with
  | get k pc => cases h
  | insert k r pc =>
    cases pc with
    | splitLeafSibling leaf locked n sep oldNext =>
      cases locked with
      | nil => simp [Task.due, Insert.due] at h
      | cons x rest =>
        obtain ⟨rfl, -⟩ : x = q ∧ _ := by simpa [Task.due, Insert.due] using h
        simp [Task.holds, Insert.holds]
    | splitInnerAlloc parent locked sep c entries l =>
      obtain ⟨rfl, -⟩ : parent = q ∧ _ := by simpa [Task.due, Insert.due] using h
      simp [Task.holds, Insert.holds]
    | _ => simp [Task.due, Insert.due] at h

namespace Inv

/-- The page a separator is due in is latched by the task that owes it. -/
theorem due_held (h : Inv S B σ F D) {q : LPageId} (hq : D.sep q ≠ none) :
    ∃ j, q ∈ (σ.task j).holds := by
  obtain ⟨e, he⟩ := Option.ne_none_iff_exists'.1 hq
  obtain ⟨j, hj⟩ := (h.seps.entry (some q) e).1 he
  exact ⟨j, Task.due_held hj⟩

/-- The separator due in a page that a task has latched is owed by that task. -/
theorem sep_owner (h : Inv S B σ F D) {p : LPageId} {e : BTreeInnerEntry}
    (hd : D.sep p = some e) (hp : p ∈ (σ.task i).holds) : (σ.task i).due = some (some p, e) := by
  obtain ⟨j, hj⟩ := (h.seps.entry (some p) e).1 hd
  obtain rfl := h.apart (Task.due_held hj) hp
  exact hj

/-- Nothing is due in the pages a task has latched if it owes nothing. -/
theorem sep_idle (h : Inv S B σ F D) {p : LPageId} (hd : (σ.task i).due = none)
    (hp : p ∈ (σ.task i).holds) : D.sep p = none := by
  by_contra hne
  obtain ⟨e, he⟩ := Option.ne_none_iff_exists'.1 hne
  rw [h.sep_owner he hp] at hd
  cases hd

/-- Pages that are latched exist. -/
theorem held_exists (h : Inv S B σ F D) {j : ι} {p : LPageId} (hp : p ∈ (σ.task j).holds) :
    σ.store.page p ≠ none := by
  cases hpc : σ.task j with
  | get k pc => rw [hpc] at hp; cases hp
  | insert k r pc =>
    rw [hpc] at hp
    exact ((h.ok hpc).2.held h.tree hp).1

/-- The next fresh page: nonzero, outside the tree, latched by nobody and owed nothing. -/
theorem fresh_page (h : Inv S B σ F D) : S.id σ.store.allocated ≠ 0 ∧
    F (S.id σ.store.allocated) = none ∧ (∀ j, S.id σ.store.allocated ∉ (σ.task j).holds) ∧
    D.sep (S.id σ.store.allocated) = none := by
  have hpg := h.fresh _ le_rfl
  have hheld : ∀ j, S.id σ.store.allocated ∉ (σ.task j).holds := fun j hj => h.held_exists hj hpg
  refine ⟨S.ne_zero _, ?_, hheld, ?_⟩
  · by_contra hne
    obtain ⟨s, hs⟩ := Option.ne_none_iff_exists'.1 hne
    exact h.tree.exists_of_span hs hpg
  · by_contra hne
    obtain ⟨j, hj⟩ := h.due_held hne
    exact hheld j hj

/-- A `prev_page` is due only in leaves of the tree. -/
theorem prev_span (h : Inv S B σ F D) {q n : LPageId} (hq : D.prev q = some n) :
    ∃ j key rid leaf locked sep, σ.task j =
      .insert key rid (.splitLeafSibling leaf locked n sep q) ∧ ∃ a b, F q = some ⟨0, a, b⟩ := by
  obtain ⟨j, hj⟩ := (h.prevs.entry q n).1 hq
  cases hpc : σ.task j with
  | get k pc => rw [hpc] at hj; cases hj
  | insert k r pc =>
    rw [hpc] at hj
    cases pc with
    | splitLeafSibling leaf locked n' sep oldNext =>
      obtain ⟨rfl, rfl⟩ : oldNext = q ∧ n' = n := by simpa [Task.duePrev, Insert.duePrev] using hj
      exact ⟨j, k, r, leaf, locked, sep, hpc, (h.ok hpc).2.2.1⟩
    | _ => simp [Task.duePrev, Insert.duePrev] at hj

theorem prev_eq_none (h : Inv S B σ F D) {q : LPageId} (hq : F q = none) : D.prev q = none := by
  by_contra hne
  obtain ⟨n, hn⟩ := Option.ne_none_iff_exists'.1 hne
  obtain ⟨-, -, -, -, -, -, -, a, b, hF⟩ := h.prev_span hn
  rw [hq] at hF
  cases hF

/-- A separator due above the root means that there is a root. -/
theorem root_ne_zero (h : Inv S B σ F D) (hd : D.root ≠ none) : σ.store.root ≠ 0 := by
  obtain ⟨e, he⟩ := Option.ne_none_iff_exists'.1 hd
  obtain ⟨j, hj⟩ := (h.seps.entry none e).1 he
  cases hpc : σ.task j with
  | get k pc => rw [hpc] at hj; cases hj
  | insert k r pc =>
    have hok := (h.ok hpc).2
    rw [hpc] at hj
    cases pc with
    | splitLeafSibling leaf locked n sep oldNext =>
      cases locked with
      | nil => exact hok.2.2
      | cons x rest => simp [Task.due, Insert.due] at hj
    | newRootAlloc sep c => exact hok
    | newRootHeader n sep c => exact hok.1
    | _ => simp [Task.due, Insert.due] at hj

/-! ### The other tasks -/

/-- **One step, seen from the other tasks.**  If the step changes spans and content only
of pages its own task has latched or nobody has, and does not split a page another task
is about to latch, then what the others know stays true. -/
theorem next [DecidableEq ι] (h : Inv S B σ F D) (hi : σ.task i = .insert key rid pc) {st' : Store}
    (tree' : Tree F' D' st'.page st'.root)
    (fresh' : ∀ n, st'.allocated ≤ n → st'.page (S.id n) = none)
    (own : InsertOk F' D' st'.page st'.root key rid pc')
    (seps' : Ledger D'.due (Function.update (fun j => (σ.task j).due) i (Insert.due pc')))
    (prevs' : Ledger D'.prev (Function.update (fun j => (σ.task j).duePrev) i (Insert.duePrev pc')))
    (holds' : ∀ p ∈ Insert.holds pc', p ∈ Insert.holds pc ∨ ∀ j, p ∉ (σ.task j).holds)
    (nodup' : (Insert.holds pc').Nodup)
    (frame : ∀ p, F' p = F p ∧ st'.page p = σ.store.page p ∨ p ∈ Insert.holds pc ∨
      ∀ j, p ∉ (σ.task j).holds)
    (level : ∀ p s, F p = some s → ∃ s', F' p = some s' ∧ s'.level = s.level)
    (cur : ∀ j k r c q rest, j ≠ i → σ.task j = .insert k r (.findLeafForWrite c (q :: rest)) →
      F' c = F c)
    (root' : σ.store.root ≠ 0 → D.root = none →
      st'.root = σ.store.root ∧ D'.root = none ∨ σ.store.root ∈ Insert.holds pc)
    (root0 : σ.store.root ≠ 0 → st'.root ≠ 0)
    (mono : Insert.stored pc = true → Insert.stored pc' = true)
    (binds' : ∀ k r, F'.Binds st'.page k r ↔ F.Binds σ.store.page k r ∨
      (Task.insert key rid pc').effect = some (k, r)) :
    Inv S B ⟨st', Function.update σ.task i (.insert key rid pc')⟩ F' D' := by
  have hpull : ∀ {γ : Type} (f : Task → γ), (fun j => f (Function.update σ.task i
      (.insert key rid pc') j)) = Function.update (fun j => f (σ.task j)) i
        (f (.insert key rid pc')) := fun f => by
    funext j
    by_cases hj : j = i
    · subst hj
      simp
    · simp [hj]
  have hholds : (σ.task i).holds = Insert.holds pc := by rw [hi]; rfl
  refine ⟨tree', fresh', ?_, ?_, ?_, fun j => ?_, ?_, fun k r => ?_⟩
  · intro j k r pcj hj
    by_cases hji : j = i
    · subst hji
      obtain ⟨rfl, rfl, rfl⟩ : key = k ∧ rid = r ∧ pc' = pcj := by simpa using hj
      exact ⟨(h.ok hi).1, own⟩
    · simp only [Function.update_of_ne hji] at hj
      obtain ⟨hk, hok⟩ := h.ok hj
      have hh : (σ.task j).holds = Insert.holds pcj := by rw [hj]; rfl
      refine ⟨hk, hok.frame (fun p hp => ?_) level (fun c q rest hc => ?_) ?_ root0⟩
      · rcases frame p with hf | hf | hf
        · exact hf
        · exact absurd (h.apart (hh ▸ hp) (hholds ▸ hf)) hji
        · exact absurd (hh ▸ hp) (hf j)
      · subst hc
        exact cur j k r c q rest hji hj
      · rintro p hp rfl hd
        rcases root' (hok.held h.tree hp).2 hd with ⟨hr, hd'⟩ | hr
        · exact ⟨hr.symm, hd'⟩
        · exact absurd (h.apart (hh ▸ hp) (hholds ▸ hr)) hji
  · rw [hpull Task.due]
    exact seps'
  · rw [hpull Task.duePrev]
    exact prevs'
  · by_cases hji : j = i
    · subst hji
      simpa [Task.holds] using nodup'
    · simpa [hji] using h.nodup j
  · have own' : ∀ {j p}, j ≠ i → p ∈ Insert.holds pc' → p ∉ (σ.task j).holds := by
      intro j p hji hp hpj
      rcases holds' p hp with hp | hp
      · exact hji (h.apart hpj (hholds ▸ hp))
      · exact hp j hpj
    intro j k p hj hk
    by_cases hji : j = i <;> by_cases hki : k = i
    · exact hji.trans hki.symm
    · subst hji
      simp only [Function.update_self, Function.update_of_ne hki] at hj hk
      exact absurd hk (own' hki hj)
    · subst hki
      simp only [Function.update_self, Function.update_of_ne hji] at hj hk
      exact absurd hj (own' hji hk)
    · simp only [Function.update_of_ne hji, Function.update_of_ne hki] at hj hk
      exact h.apart hj hk
  · rw [binds', h.binds, or_assoc]
    refine or_congr_right ⟨?_, ?_⟩
    · rintro (⟨j, hj⟩ | hj)
      · by_cases hji : j = i
        · subst hji
          refine ⟨j, ?_⟩
          rw [hi] at hj
          simp only [Task.effect, Option.ite_none_right_eq_some] at hj
          simp [Task.effect, mono hj.1, hj.2]
        · exact ⟨j, by simpa [hji] using hj⟩
      · exact ⟨i, by simpa using hj⟩
    · rintro ⟨j, hj⟩
      by_cases hji : j = i
      · subst hji
        exact Or.inr (by simpa using hj)
      · exact Or.inl ⟨j, by simpa [hji] using hj⟩

end Inv

end BTree
end Abdb
