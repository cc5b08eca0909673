/-
# The pages an operation touches

`insert` and `delete` reach a page only through an id that they hold: they write a page only after
they have read it, or while its guard is alive, or when `new_page` has just returned it.  So they
are `Local`: over a store that has more pages they do what they do over the smaller one
(`Local.run_over`), and the pages they make are the ones they allocate (`Local.run_pages`).
-/

import Abdb.BTree.Crabbing
import Abdb.BTree.Index
import Abdb.Lib.Overlay

namespace Abdb
namespace BTree

open Relation Lib

/-- The outcome writes pages that are there, and goes on with the guards of such. -/
structure Out.Owned {Pc : Type} (holds : Pc → List LPageId) (page : LPageId → Option Page) (o : Out Pc) :
    Prop where
  writes : ∀ w ∈ o.writes, page w.id ≠ none
  holds : ∀ p ∈ holds o.pc, page p ≠ none

/-- **Local code.**  `lacks` marks the states of an operation that has failed for a page that the
pool does not have. -/
structure Machine.Local {Pc : Type} (M : Machine Pc) (lacks : Pc → Prop) : Prop where
  stops : ∀ {pc}, lacks pc → M.await pc = .nothing
  reads : ∀ {v v' : View} {newId pc}, v.root = v'.root → Within v.page v'.page →
    ¬ lacks (M.resume v newId pc).pc → M.resume v' newId pc = M.resume v newId pc
  owns : ∀ (v : View) newId pc, (∀ p ∈ M.holds pc, v.page p ≠ none) →
    (M.await pc = .newPage → v.page newId ≠ none) → (M.resume v newId pc).Owned M.holds v.page

section

variable {page page' : LPageId → Option Page} {ws : List Write} {p : LPageId}

theorem within_writePages (h : Within page page') (ws : List Write) :
    Within (writePages page ws) (writePages page' ws) := by
  induction ws generalizing page page' with
  | nil => exact h
  | cons w ws ih => exact ih (h.update w.id w.page)

theorem overlay_writePages (page K : LPageId → Option Page) (ws : List Write) :
    overlay (writePages page ws) K = writePages (overlay page K) ws := by
  induction ws generalizing page with
  | nil => rfl
  | cons w ws ih => rw [writePages_cons, writePages_cons, ih, overlay_update]

/-- Writes to pages that are there make no page. -/
theorem writePages_ne_none (h : ∀ w ∈ ws, page w.id ≠ none) : writePages page ws p ≠ none ↔ page p ≠ none := by
  induction ws generalizing page with
  | nil => rfl
  | cons w ws ih =>
    have hupdate : ∀ q, Function.update page w.id (some w.page) q ≠ none ↔ page q ≠ none := by
      intro q
      by_cases hq : q = w.id
      · subst hq
        rw [Function.update_self]
        exact iff_of_true (Option.some_ne_none _) (h w List.mem_cons_self)
      · rw [Function.update_of_ne hq]
    rw [writePages_cons, ih fun w' hw' => (hupdate w'.id).2 (h w' (List.mem_cons_of_mem _ hw')), hupdate]

variable {Pc : Type} {holds : Pc → List LPageId} {o : Out Pc} {pc : Pc}

theorem Out.Owned.goto (h : ∀ p ∈ holds pc, page p ≠ none) : (Out.goto pc).Owned holds page :=
  ⟨by rintro w ⟨⟩, h⟩

theorem Out.Owned.after (hws : ∀ w ∈ ws, page w.id ≠ none) (h : o.Owned holds (writePages page ws)) :
    (o.after ws).Owned holds page where
  writes w hw := (List.mem_append.1 hw).elim (hws w) fun hw => (writePages_ne_none hws).1 (h.writes w hw)
  holds p hp := (writePages_ne_none hws).1 (h.holds p hp)

end

/-- The store with more pages under its own. -/
def Store.over (st : Store) (K : LPageId → Option Page) : Store := { st with page := overlay st.page K }

namespace Machine.Local

variable {Pc : Type} {M : Machine Pc} {lacks : Pc → Prop} {S : PageSupply} {st st' : Store} {pc pc' : Pc}

theorem over_apply (st : Store) (K : LPageId → Option Page) (o : Out Pc) :
    (st.over K).apply o = (st.apply o).over K := by
  rw [Store.apply, Store.apply, Store.over, Store.over, ← overlay_writePages]

theorem over_newPage (st : Store) (K : LPageId → Option Page) :
    (st.over K).newPage S = (st.newPage S).over K := by
  rw [Store.newPage, Store.newPage, Store.over, Store.over, ← overlay_update]

/-- **A step over more pages.** -/
theorem step_over (h : M.Local lacks) (K : LPageId → Option Page) (hl : ¬ lacks (st.step S M pc).2) :
    (st.over K).step S M pc = ((st.step S M pc).1.over K, (st.step S M pc).2) := by
  unfold Store.step at hl ⊢
  split at hl
  · rfl
  · have heq : M.resume ((st.newPage S).over K).view (S.id (st.over K).allocated) pc =
        M.resume (st.newPage S).view (S.id st.allocated) pc := h.reads rfl (within_overlay _ _) hl
    dsimp only
    rw [over_newPage, heq, over_apply]
  · have heq : M.resume (st.over K).view 0 pc = M.resume st.view 0 pc :=
      h.reads rfl (within_overlay _ _) hl
    dsimp only
    rw [heq, over_apply]

/-- **A run over more pages.** -/
theorem run_over (h : M.Local lacks) (K : LPageId → Option Page) {x y : Store × Pc}
    (hrun : ReflTransGen (fun x y => y = x.1.step S M x.2) x y) (hl : ¬ lacks y.2) :
    ReflTransGen (fun x y => y = x.1.step S M x.2) (x.1.over K, x.2) (y.1.over K, y.2) := by
  induction hrun with
  | refl => exact .refl
  | @tail y z _ hstep ih =>
    subst hstep
    have hy : ¬ lacks y.2 := by
      intro hy
      have hstop : y.1.step S M y.2 = (y.1, y.2) := by
        unfold Store.step
        rw [h.stops hy]
      rw [hstop] at hl
      exact hl hy
    exact (ih hy).tail (h.step_over K hl).symm

/-- **The pages after a run** are those before it and those it has allocated. -/
theorem run_pages (h : M.Local lacks) {x y : Store × Pc}
    (hrun : ReflTransGen (fun x y => y = x.1.step S M x.2) x y) (hx : ∀ p ∈ M.holds x.2, x.1.page p ≠ none) :
    x.1.allocated ≤ y.1.allocated ∧ (∀ p ∈ M.holds y.2, y.1.page p ≠ none) ∧
      ∀ p, y.1.page p ≠ none → x.1.page p ≠ none ∨
        ∃ i, x.1.allocated ≤ i ∧ i < y.1.allocated ∧ p = S.id i := by
  induction hrun with
  | refl => exact ⟨le_rfl, hx, fun p hp => Or.inl hp⟩
  | @tail y z _ hstep ih =>
    obtain ⟨hle, hholds, hpages⟩ := ih
    obtain ⟨st, pc⟩ := y
    subst hstep
    unfold Store.step
    split
    · exact ⟨hle, hholds, hpages⟩
    · have hnew : ∀ p, (st.newPage S).page p ≠ none ↔ st.page p ≠ none ∨ p = S.id st.allocated := by
        intro p
        rw [Store.newPage]
        dsimp only
        by_cases hp : p = S.id st.allocated
        · subst hp
          rw [Function.update_self]
          exact iff_of_true (Option.some_ne_none _) (Or.inr rfl)
        · rw [Function.update_of_ne hp, or_iff_left hp]
      obtain ⟨hwrites, hholds'⟩ := h.owns (st.newPage S).view (S.id st.allocated) pc
        (fun p hp => (hnew p).2 (Or.inl (hholds p hp))) fun _ => (hnew _).2 (Or.inr rfl)
      refine ⟨hle.trans (Nat.le_succ _), fun p hp => (writePages_ne_none hwrites).2 (hholds' p hp), ?_⟩
      intro p hp
      rcases (hnew p).1 ((writePages_ne_none hwrites).1 hp) with hp | rfl
      · exact (hpages p hp).imp_right fun ⟨i, hi, hlt, heq⟩ => ⟨i, hi, hlt.trans (Nat.lt_succ_self _), heq⟩
      · exact Or.inr ⟨st.allocated, hle, Nat.lt_succ_self _, rfl⟩
    · rename_i hn
      obtain ⟨hwrites, hholds'⟩ := h.owns st.view 0 pc hholds fun hawait => absurd hawait hn
      exact ⟨hle, fun p hp => (writePages_ne_none hwrites).2 (hholds' p hp),
        fun p hp => hpages p ((writePages_ne_none hwrites).1 hp)⟩

end Machine.Local

/-! ### Insert -/

namespace Insert

variable {v v' : View} {key : ℕ} {rid : RecordId} {newId : LPageId} {pc : InsertPc} {locked : List LPageId}

/-- The insert has failed for a page that the pool does not have. -/
def Lacks (pc : InsertPc) : Prop := ∃ id, pc = .done (.error (.bufferError id))

theorem reads_intoAncestors {page page' : LPageId → Option Page} {root root' : LPageId} {sepKey : ℕ}
    {newChild : LPageId} (hpage : Within page page')
    (hl : ¬ Lacks (insertIntoAncestorsWithLocks ⟨page, root⟩ locked sepKey newChild).pc) :
    insertIntoAncestorsWithLocks ⟨page', root'⟩ locked sepKey newChild =
      insertIntoAncestorsWithLocks ⟨page, root⟩ locked sepKey newChild := by
  cases locked with
  | nil => rfl
  | cons parent rest =>
    rw [insertIntoAncestorsWithLocks, insertIntoAncestorsWithLocks]
    rw [insertIntoAncestorsWithLocks] at hl
    dsimp only at hl ⊢
    cases hp : page parent with
    | none =>
      rw [hp] at hl
      exact absurd ⟨parent, rfl⟩ hl
    | some p => rw [hpage _ _ hp]

theorem reads (hroot : v.root = v'.root) (hv : Within v.page v'.page)
    (hl : ¬ Lacks (resume key rid v newId pc).pc) : resume key rid v' newId pc = resume key rid v newId pc := by
  cases pc with
  | start =>
    rw [resume, resume, hroot]
  | findLeafForWrite current locked =>
    rw [resume, findLeafForWrite] at hl
    rw [resume, resume, findLeafForWrite, findLeafForWrite]
    cases hp : v.page current with
    | none =>
      rw [hp] at hl
      exact absurd ⟨current, rfl⟩ hl
    | some p => rw [hv _ _ hp]
  | splitLeafAlloc leaf locked entries oldPrev oldNext =>
    rw [resume, splitLeafFinish] at hl
    rw [resume, resume, splitLeafFinish, splitLeafFinish]
    dsimp only at hl ⊢
    cases hfirst : entries[entries.length / 2]? with
    | none => rfl
    | some first =>
      rw [hfirst] at hl
      dsimp only at hl ⊢
      rcases hq : (BTreeLeafPage.init newId).insertEntries (entries.drop (entries.length / 2)) with ⟨q, _ | e⟩
      · rw [hq] at hl
        dsimp only at hl ⊢
        rcases hq' : (BTreeLeafPage.init leaf).insertEntries (entries.take (entries.length / 2)) with
          ⟨q', _ | e⟩
        · rw [hq'] at hl
          dsimp only at hl ⊢
          by_cases hnext : oldNext = 0
          · rw [if_pos hnext] at hl
            rw [if_pos hnext, if_pos hnext, reads_intoAncestors (within_writePages hv _) hl]
          · rw [if_neg hnext, if_neg hnext]
        · rfl
      · rfl
  | splitLeafSibling leaf locked newLeaf separator oldNext =>
    rw [resume, splitLeafSibling] at hl
    rw [resume, resume, splitLeafSibling, splitLeafSibling]
    cases hp : v.page oldNext with
    | none =>
      rw [hp] at hl
      exact absurd ⟨oldNext, rfl⟩ hl
    | some p =>
      rw [hv _ _ hp]
      rw [hp] at hl
      cases hs : asLeaf oldNext (some p) with
      | error e => rfl
      | ok sib =>
        rw [hs] at hl
        dsimp only at hl ⊢
        rw [reads_intoAncestors (within_writePages hv _) hl]
  | splitInnerAlloc parent locked sepKey rightChild entries oldLeftmost =>
    rw [resume, splitInnerFinish] at hl
    rw [resume, resume, splitInnerFinish, splitInnerFinish]
    dsimp only at hl ⊢
    cases hpushed : entries[entries.length / 2]? with
    | none => rfl
    | some pushedUp =>
      rw [hpushed] at hl
      dsimp only at hl ⊢
      rcases hq : (BTreeInnerPage.init newId pushedUp.rightChild).insertSeparators
        (entries.drop (entries.length / 2 + 1)) with ⟨q, _ | e⟩
      · rw [hq] at hl
        dsimp only at hl ⊢
        rcases hq' : (BTreeInnerPage.init parent oldLeftmost).insertSeparators
          (entries.take (entries.length / 2)) with ⟨q', _ | e⟩
        · rw [hq'] at hl
          dsimp only at hl ⊢
          rw [reads_intoAncestors (within_writePages hv _) hl]
        · rfl
      · rfl
  | newRootHeader newRoot sepKey newChild =>
    rw [resume, resume, newRootFinish, newRootFinish, hroot]
  | _ => rfl

/-- Failed calls hold nothing. -/
theorem owned_fail {page : LPageId → Option Page} {e : Error} : (fail e).Owned holds page :=
  .goto (by rintro p ⟨⟩)

theorem owned_intoAncestors {page : LPageId → Option Page} {root : LPageId} {sepKey : ℕ} {newChild : LPageId}
    (h : ∀ p ∈ locked, page p ≠ none) :
    (insertIntoAncestorsWithLocks ⟨page, root⟩ locked sepKey newChild).Owned holds page := by
  cases locked with
  | nil => exact .goto (by rintro p ⟨⟩)
  | cons parent rest =>
    rw [insertIntoAncestorsWithLocks]
    split
    · exact owned_fail
    · split_ifs
      · split
        · exact ⟨by simpa using h parent List.mem_cons_self, by rintro p ⟨⟩⟩
        · exact owned_fail
      · rw [splitInner]
        split
        · exact owned_fail
        · exact .goto h

theorem owned_intoLeaf {page : LPageId → Option Page} {leaf : LPageId} {p : BTreeLeafPage}
    (h : ∀ p ∈ leaf :: locked, page p ≠ none) : (intoLeaf key rid leaf locked p).Owned holds page := by
  rw [intoLeaf]
  split_ifs
  · split
    · exact owned_fail
    · exact .goto h
  · split
    · exact ⟨by simpa using h leaf List.mem_cons_self, by rintro p ⟨⟩⟩
    · exact owned_fail

theorem owned (h : ∀ p ∈ holds pc, v.page p ≠ none) (hnew : await pc = .newPage → v.page newId ≠ none) :
    (resume key rid v newId pc).Owned holds v.page := by
  cases pc with
  | start =>
    rw [resume]
    split_ifs <;> exact .goto (by rintro p ⟨⟩)
  | allocFirst =>
    rw [resume, firstLeaf]
    split
    · exact ⟨by simpa using hnew rfl, by simpa [holds] using hnew rfl⟩
    · exact owned_fail
  | setRoot newPage => exact ⟨by rintro w ⟨⟩, by rintro p ⟨⟩⟩
  | findLeafForWrite current locked =>
    rw [resume, findLeafForWrite]
    cases hp : v.page current with
    | none => exact owned_fail
    | some p =>
      have hcur : v.page current ≠ none := by
        rw [hp]
        exact Option.some_ne_none p
      split
      · exact owned_fail
      · refine .goto ?_
        dsimp only [holds]
        split_ifs
        · simpa using hcur
        · exact List.forall_mem_cons.2 ⟨hcur, h⟩
      · split_ifs
        · exact owned_intoLeaf (by simpa using hcur)
        · exact owned_intoLeaf (List.forall_mem_cons.2 ⟨hcur, h⟩)
  | splitLeafAlloc leaf locked entries oldPrev oldNext =>
    obtain ⟨hleaf, hlocked⟩ := List.forall_mem_cons.1 h
    rw [resume, splitLeafFinish]
    dsimp only
    split
    · exact owned_fail
    · split
      · exact ⟨by simpa using hnew rfl, by rintro p ⟨⟩⟩
      · split
        · exact ⟨by simpa using ⟨hnew rfl, hleaf⟩, by rintro p ⟨⟩⟩
        · have hws : ∀ q q', ∀ w ∈ ([⟨newId, q, true⟩, ⟨leaf, q', false⟩] : List Write),
              v.page w.id ≠ none := by
            intro q q'
            simpa using ⟨hnew rfl, hleaf⟩
          split_ifs
          · exact .after (hws _ _) (owned_intoAncestors fun p hp =>
              (writePages_ne_none (hws _ _)).2 (hlocked p hp))
          · exact ⟨hws _ _, h⟩
  | splitLeafSibling leaf locked newLeaf separator oldNext =>
    obtain ⟨hleaf, hlocked⟩ := List.forall_mem_cons.1 h
    rw [resume, splitLeafSibling]
    cases hp : v.page oldNext with
    | none => exact owned_fail
    | some p =>
      split
      · exact owned_fail
      · have hws : ∀ q, ∀ w ∈ ([⟨oldNext, q, true⟩] : List Write), v.page w.id ≠ none := by
          simp [hp]
        exact .after (hws _) (owned_intoAncestors fun p hp => (writePages_ne_none (hws _)).2 (hlocked p hp))
  | splitInnerAlloc parent locked sepKey rightChild entries oldLeftmost =>
    obtain ⟨hparent, hlocked⟩ := List.forall_mem_cons.1 h
    rw [resume, splitInnerFinish]
    dsimp only
    split
    · exact owned_fail
    · split
      · exact ⟨by simpa using hnew rfl, by rintro p ⟨⟩⟩
      · split
        · exact ⟨by simpa using ⟨hnew rfl, hparent⟩, by rintro p ⟨⟩⟩
        · have hws : ∀ q q', ∀ w ∈ ([⟨newId, q, true⟩, ⟨parent, q', false⟩] : List Write),
              v.page w.id ≠ none := by
            intro q q'
            simpa using ⟨hnew rfl, hparent⟩
          exact .after (hws _ _) (owned_intoAncestors fun p hp =>
            (writePages_ne_none (hws _ _)).2 (hlocked p hp))
  | newRootAlloc sepKey newChild => exact .goto (by simpa [holds] using hnew rfl)
  | newRootHeader newRoot sepKey newChild =>
    rw [resume, newRootFinish]
    split <;> exact ⟨by simpa using h newRoot (by simp [holds]), by rintro p ⟨⟩⟩
  | done result => exact .goto (by rintro p ⟨⟩)

/-- **`insert` is local.** -/
theorem local_machine (key : ℕ) (rid : RecordId) : (machine key rid).Local Lacks where
  stops := by
    rintro pc ⟨id, rfl⟩
    rfl
  reads := reads
  owns _ _ _ := owned

end Insert

/-! ### Delete -/

namespace Delete

variable {v v' : View} {key : ℕ} {rid : RecordId} {newId root leaf parent : LPageId} {pc : DeletePc}
  {info : MergeInfo} {page page' : LPageId → Option Page}

/-- The delete has failed for a page that the pool does not have. -/
def Lacks (pc : DeletePc) : Prop := ∃ id, pc = .done (.error (.bufferError id))

theorem reads_removeSeparator {r r' : LPageId} (hpage : Within page page')
    (hl : ¬ Lacks (removeSeparator ⟨page, r⟩ root leaf parent info).pc) :
    removeSeparator ⟨page', r'⟩ root leaf parent info = removeSeparator ⟨page, r⟩ root leaf parent info := by
  rw [removeSeparator] at hl
  rw [removeSeparator, removeSeparator]
  dsimp only at hl ⊢
  cases hp : page parent with
  | none =>
    rw [hp] at hl
    exact absurd ⟨parent, rfl⟩ hl
  | some p => rw [hpage _ _ hp]

theorem reads (hroot : v.root = v'.root) (hv : Within v.page v'.page)
    (hl : ¬ Lacks (resume key rid v pc).pc) : resume key rid v' pc = resume key rid v pc := by
  cases pc with
  | start => rw [resume, resume, hroot]
  | findLeafWithPath root current path =>
    rw [resume, findLeafWithPath] at hl
    rw [resume, resume, findLeafWithPath, findLeafWithPath]
    cases hp : v.page current with
    | none =>
      rw [hp] at hl
      exact absurd ⟨current, rfl⟩ hl
    | some p => rw [hv _ _ hp]
  | fetchLeaf root leaf path =>
    rw [resume] at hl
    rw [resume, resume]
    unfold onLeaf at hl ⊢
    cases hp : v.page leaf with
    | none =>
      rw [hp] at hl
      exact absurd ⟨leaf, rfl⟩ hl
    | some p => rw [hv _ _ hp]
  | fetchParent root leaf parent =>
    rw [resume, onParent] at hl
    rw [resume, resume, onParent, onParent]
    cases hp : v.page parent with
    | none =>
      rw [hp] at hl
      exact absurd ⟨parent, rfl⟩ hl
    | some p => rw [hv _ _ hp]
  | fetchSurvivor root leaf parent info =>
    rw [resume] at hl
    rw [resume, resume]
    cases hp : v.page info.survivor with
    | none =>
      rw [hp] at hl
      exact absurd ⟨info.survivor, rfl⟩ hl
    | some p => rw [hv _ _ hp]
  | fetchRemoved root leaf parent info =>
    rw [resume, merge] at hl
    rw [resume, resume, merge, merge]
    cases hs : v.page info.survivor with
    | none =>
      rw [hs] at hl
      exact absurd ⟨info.survivor, rfl⟩ hl
    | some s =>
      rw [hv _ _ hs]
      rw [hs] at hl
      cases hsurvivor : asLeaf info.survivor (some s) with
      | error e => rfl
      | ok survivor =>
        rw [hsurvivor] at hl
        cases hr : v.page info.removed with
        | none =>
          rw [hr] at hl
          exact absurd ⟨info.removed, rfl⟩ hl
        | some r =>
          rw [hv _ _ hr]
          rw [hr] at hl
          cases hremoved : asLeaf info.removed (some r) with
          | error e => rfl
          | ok removed =>
            rw [hremoved] at hl
            dsimp only at hl ⊢
            by_cases hfits : BTreeLeafPage.maxEntries < survivor.numEntries + removed.numEntries
            · rw [if_pos hfits, if_pos hfits]
            · rw [if_neg hfits] at hl
              rw [if_neg hfits, if_neg hfits]
              rcases hq : survivor.insertEntries removed.entries with ⟨q, _ | e⟩
              · rw [hq] at hl
                dsimp only at hl ⊢
                by_cases hnext : removed.nextPage = 0
                · rw [if_pos hnext] at hl
                  rw [if_pos hnext, if_pos hnext, reads_removeSeparator (within_writePages hv _) hl]
                · rw [if_neg hnext, if_neg hnext]
              · rfl
  | fetchSibling root leaf parent info removedNext =>
    rw [resume, onSibling] at hl
    rw [resume, resume, onSibling, onSibling]
    cases hp : v.page removedNext with
    | none =>
      rw [hp] at hl
      exact absurd ⟨removedNext, rfl⟩ hl
    | some p =>
      rw [hv _ _ hp]
      rw [hp] at hl
      cases hs : asLeaf removedNext (some p) with
      | error e => rfl
      | ok sib =>
        rw [hs] at hl
        dsimp only at hl ⊢
        rw [reads_removeSeparator (within_writePages hv _) hl]
  | _ => rfl

theorem owned_fail {e : Error} : (fail e).Owned holds page := .goto (by rintro p ⟨⟩)

theorem owned_removeSeparator {r : LPageId} (h : ∀ p ∈ [info.survivor, leaf], page p ≠ none) :
    (removeSeparator ⟨page, r⟩ root leaf parent info).Owned holds page := by
  rw [removeSeparator]
  dsimp only
  cases hp : page parent with
  | none => exact owned_fail
  | some p =>
    split
    · exact owned_fail
    · split
      · exact owned_fail
      · refine ⟨by simp [hp], ?_⟩
        dsimp only
        split_ifs
        · exact h
        · rintro p ⟨⟩

theorem owned (h : ∀ p ∈ holds pc, v.page p ≠ none) : (resume key rid v pc).Owned holds v.page := by
  cases pc with
  | start =>
    rw [resume]
    split_ifs
    · exact owned_fail
    · exact .goto (by rintro p ⟨⟩)
  | findLeafWithPath root current path =>
    rw [resume, findLeafWithPath]
    split
    · exact owned_fail
    · exact .goto (by rintro p ⟨⟩)
    · exact .goto (by rintro p ⟨⟩)
  | fetchLeaf root leaf path =>
    rw [resume]
    unfold onLeaf
    cases hp : v.page leaf with
    | none => exact owned_fail
    | some p =>
      split
      · exact owned_fail
      · split
        · exact owned_fail
        · split
          · exact owned_fail
          · split_ifs
            · exact owned_fail
            · split
              · exact owned_fail
              · refine ⟨by simp [hp], ?_⟩
                dsimp only
                split_ifs
                · split
                  · rintro p ⟨⟩
                  · simp [holds, hp]
                · rintro p ⟨⟩
  | fetchParent root leaf parent =>
    rw [resume, onParent]
    cases hp : v.page parent with
    | none => exact owned_fail
    | some p =>
      split
      · exact owned_fail
      · split
        · exact .goto (by rintro p ⟨⟩)
        · refine .goto (List.forall_mem_cons.2 ⟨by simp [hp], h⟩)
  | fetchSurvivor root leaf parent info =>
    rw [resume]
    cases hp : v.page info.survivor with
    | none => exact owned_fail
    | some p => exact .goto (List.forall_mem_cons.2 ⟨by simp [hp], h⟩)
  | fetchRemoved root leaf parent info =>
    obtain ⟨hsurvivor, hrest⟩ := List.forall_mem_cons.1 h
    obtain ⟨hparent, hleaf⟩ := List.forall_mem_cons.1 hrest
    have hboth : ∀ p ∈ [info.survivor, leaf], v.page p ≠ none := List.forall_mem_cons.2 ⟨hsurvivor, hleaf⟩
    have hws : ∀ q m, ∀ w ∈ ([⟨info.survivor, q, m⟩] : List Write), v.page w.id ≠ none := by
      intro q m
      simpa using hsurvivor
    rw [resume, merge]
    split
    · exact owned_fail
    · exact owned_fail
    · split_ifs
      · exact .goto (by rintro p ⟨⟩)
      · split
        · exact ⟨hws _ _, by rintro p ⟨⟩⟩
        · exact .after (hws _ _) (owned_removeSeparator fun p hp =>
            (writePages_ne_none (hws _ _)).2 (hboth p hp))
      · split
        · exact ⟨hws _ _, by rintro p ⟨⟩⟩
        · exact ⟨hws _ _, h⟩
  | fetchSibling root leaf parent info removedNext =>
    obtain ⟨hsurvivor, hrest⟩ := List.forall_mem_cons.1 h
    obtain ⟨hparent, hleaf⟩ := List.forall_mem_cons.1 hrest
    have hboth : ∀ p ∈ [info.survivor, leaf], v.page p ≠ none := List.forall_mem_cons.2 ⟨hsurvivor, hleaf⟩
    rw [resume, onSibling]
    cases hp : v.page removedNext with
    | none => exact owned_fail
    | some p =>
      split
      · exact owned_fail
      · have hws : ∀ q, ∀ w ∈ ([⟨removedNext, q, true⟩] : List Write), v.page w.id ≠ none := by
          simp [hp]
        exact .after (hws _) (owned_removeSeparator fun p hp => (writePages_ne_none (hws _)).2 (hboth p hp))
  | setRoot leaf survivor newRoot => exact ⟨by rintro w ⟨⟩, by rintro p ⟨⟩⟩
  | done result => exact .goto (by rintro p ⟨⟩)

/-- **`delete` is local.** -/
theorem local_machine (key : ℕ) (rid : RecordId) : (machine key rid).Local Lacks where
  stops := by
    rintro pc ⟨id, rfl⟩
    rfl
  reads := reads
  owns _ _ _ h _ := owned h

end Delete

/-! ### Get -/

namespace Get

variable {v v' : View} {key : ℕ} {pc : GetPc}

/-- The get has failed for a page that the pool does not have. -/
def Lacks (pc : GetPc) : Prop := ∃ id, pc = .done (.error (.bufferError id))

theorem reads (hroot : v.root = v'.root) (hv : Within v.page v'.page) (hl : ¬ Lacks (resume key v pc)) :
    resume key v' pc = resume key v pc := by
  cases pc with
  | start => rw [resume, resume, hroot]
  | findLeaf current =>
    rw [resume, findLeaf] at hl
    rw [resume, resume, findLeaf, findLeaf]
    cases hp : v.page current with
    | none =>
      rw [hp] at hl
      exact absurd ⟨current, rfl⟩ hl
    | some p => rw [hv _ _ hp]
  | readLeaf leaf =>
    rw [resume, readLeaf] at hl
    rw [resume, resume, readLeaf, readLeaf]
    cases hp : v.page leaf with
    | none =>
      rw [hp] at hl
      exact absurd ⟨leaf, rfl⟩ hl
    | some p => rw [hv _ _ hp]
  | done result => rfl

/-- **`get` is local.** -/
theorem local_machine (key : ℕ) : (machine key).Local Lacks where
  stops := by
    rintro pc ⟨id, rfl⟩
    rfl
  reads hroot hv hl := congrArg Out.goto (reads hroot hv hl)
  owns _ _ _ _ _ := .goto (by rintro p ⟨⟩)

end Get

/-! ### Calls over more pages -/

section

variable {S : PageSupply} {F : Layout} {st st' : Store} {key : ℕ} {rid : RecordId} {e : Error}

theorem allocated_le {Pc : Type} {M : Machine Pc} {x y : Store × Pc}
    (h : ReflTransGen (fun x y => y = x.1.step S M x.2) x y) : x.1.allocated ≤ y.1.allocated := by
  induction h with
  | refl => exact le_rfl
  | tail _ hstep ih =>
    subst hstep
    refine ih.trans ?_
    unfold Store.step
    split
    · exact le_rfl
    · exact Nat.le_succ _
    · exact le_rfl

/-- What a run comes through on the way to its end leads to the end. -/
theorem reaches_end {Pc : Type} {M : Machine Pc} {x y z : Store × Pc}
    (hy : ReflTransGen (fun x y => y = x.1.step S M x.2) x y)
    (hz : ReflTransGen (fun x y => y = x.1.step S M x.2) x z) (hend : M.await z.2 = .nothing) :
    ReflTransGen (fun x y => y = x.1.step S M x.2) y z := by
  rcases ReflTransGen.total_of_right_unique
    (fun (_ _ _ : Store × Pc) hab hac => hab.trans hac.symm) hy hz with h | h
  · exact h
  · rw [Store.eq_of_reaches hend h]

theorem Insert.intoLeaf_cases (key : ℕ) (rid : RecordId) (leaf : LPageId) (locked : List LPageId)
    (page : BTreeLeafPage) : (∃ ws, intoLeaf key rid leaf locked page = ⟨ws, none, .done (.ok ())⟩) ∨
      (∃ c, intoLeaf key rid leaf locked page = fail (.pageCorruption c)) ∨
      ∃ pc, intoLeaf key rid leaf locked page = Out.goto pc ∧ await pc = .newPage := by
  rw [intoLeaf]
  split_ifs
  · split
    · exact Or.inr (Or.inl ⟨_, rfl⟩)
    · exact Or.inr (Or.inr ⟨_, rfl, rfl⟩)
  · split
    · exact Or.inl ⟨_, rfl⟩
    · exact Or.inr (Or.inl ⟨_, rfl⟩)

/-- **A refused insert** has found every page it asked for. -/
theorem Insert.not_lacks_of_refused (hst : st.Rests S F) (hk : key < keyBound)
    (h : Store.Returns S (machine key rid) st .start st (.done (.error e))) : ¬ Lacks (.done (.error e)) := by
  have hgrows : ∀ pc, await pc = .newPage →
      ¬ ReflTransGen (fun x y => y = x.1.step S (machine key rid) x.2) (st, .start) (st, pc) := by
    intro pc hawait hpc
    rcases (ReflTransGen.cases_head (reaches_end hpc h.2 rfl)) with heq | ⟨x, hstep, hrest⟩
    · cases heq
      cases hawait
    · have hle := allocated_le hrest
      rw [hstep] at hle
      unfold Store.step at hle
      rw [show (machine key rid).await pc = .newPage from hawait] at hle
      exact absurd hle (Nat.not_succ_le_self _)
  by_cases h0 : st.root = 0
  · have hfirst : st.step S (machine key rid) .start = (st, .allocFirst) :=
      Store.step_goto nofun nofun (congrArg Out.goto (if_pos h0))
    exact absurd (.single hfirst.symm) (hgrows .allocFirst rfl)
  · obtain ⟨leaf, locked, l, hdown, hl⟩ := finds_leaf_from_start hst h0 hk rid
    have hstep : ReflTransGen (fun x y => y = x.1.step S (machine key rid) x.2) (st, .start)
        (st.apply (resume key rid st.view 0 (.findLeafForWrite leaf locked)),
          (resume key rid st.view 0 (.findLeafForWrite leaf locked)).pc) := hdown.tail rfl
    rw [resume, findLeafForWrite_leaf (show st.view.page leaf = some (.leaf l) from hl)] at hstep
    rcases intoLeaf_cases key rid leaf (if l.isSafeForInsert then [] else locked) l with
      ⟨ws, heq⟩ | ⟨c, heq⟩ | ⟨pc, heq, hawait⟩ <;> rw [heq] at hstep
    · obtain ⟨-, hpc⟩ := h.unique ⟨rfl, hstep⟩
      cases hpc
    · obtain ⟨-, hpc⟩ := h.unique ⟨rfl, hstep⟩
      cases hpc
      rintro ⟨id, hid⟩
      cases hid
    · exact absurd hstep (hgrows pc hawait)

/-- An operation that has returned over a store returns so over more pages. -/
theorem Machine.Local.returns_over {Pc : Type} {M : Machine Pc} {lacks : Pc → Prop} (h : M.Local lacks)
    {pc pc' : Pc} (hret : Store.Returns S M st pc st' pc') (hl : ¬ lacks pc') (K : LPageId → Option Page) :
    Store.Returns S M (st.over K) pc (st'.over K) pc' := ⟨hret.1, h.run_over K hret.2 hl⟩

/-- **A call over more pages than those of its index** answers as the map does, makes no page but
those it allocates, and leaves the other pages as they are. -/
theorem Store.Represents.exec_over {m : Bindings} (h : st.Represents S m) (K : LPageId → Option Page)
    (c : Call) : ∃ (st' : Store) (r : Reply), Exec S (st.over K) c (st'.over K) r ∧ m.Answers c r ∧
      st'.Represents S (m.after c) ∧ st.allocated ≤ st'.allocated ∧
      ∀ p, st'.page p ≠ none → st.page p ≠ none ∨ ∃ i, st.allocated ≤ i ∧ i < st'.allocated ∧ p = S.id i := by
  obtain ⟨st', r, hexec, hans, hrep⟩ := h.exec c
  cases c with
  | insert key rid =>
    cases r with
    | record r => exact hexec.elim
    | unit r =>
      obtain ⟨hpresent, -⟩ := h.insert (keyFromBytes_lt key) rid
      obtain ⟨F, hrests, -⟩ := h
      have hlocal := Insert.local_machine (keyFromBytes key) rid
      have hl : ¬ Insert.Lacks (.done r) := by
        rintro ⟨id, hid⟩
        cases hid
        obtain ⟨e, -, hrefused⟩ := hpresent hans.1
        obtain ⟨rfl, -⟩ := Returns.unique hexec hrefused
        exact Insert.not_lacks_of_refused hrests (keyFromBytes_lt key) hexec ⟨id, rfl⟩
      obtain ⟨hle, -, hpages⟩ := hlocal.run_pages hexec.2 (by rintro p ⟨⟩)
      exact ⟨st', .unit r, hlocal.returns_over hexec hl K, hans, hrep, hle, hpages⟩
  | get key =>
    cases r with
    | unit r => exact hexec.elim
    | record r =>
      have hlocal := Get.local_machine (keyFromBytes key)
      have hl : ¬ Get.Lacks (.done r) := by
        rintro ⟨id, hid⟩
        cases hid
        rw [Bindings.Answers, Bindings.answer] at hans
        split at hans <;> cases hans
      obtain ⟨hle, -, hpages⟩ := hlocal.run_pages hexec.2 (by rintro p ⟨⟩)
      exact ⟨st', .record r, hlocal.returns_over hexec hl K, hans, hrep, hle, hpages⟩
  | delete key rid =>
    cases r with
    | record r => exact hexec.elim
    | unit r =>
      have hlocal := Delete.local_machine (keyFromBytes key) rid
      have hl : ¬ Delete.Lacks (.done r) := by
        rintro ⟨id, hid⟩
        cases hid
        rw [Bindings.Answers] at hans
        split_ifs at hans
        cases hans
      obtain ⟨hle, -, hpages⟩ := hlocal.run_pages hexec.2 (by rintro p ⟨⟩)
      exact ⟨st', .unit r, hlocal.returns_over hexec hl K, hans, hrep, hle, hpages⟩

end

end BTree
end Abdb
