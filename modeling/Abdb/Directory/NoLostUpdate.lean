/-
# Concurrent additions lose nothing that is not outdated

`Good` is the invariant of interleaved additions: a tree up to the separators that calls
still owe it, in which every call stands somewhere.  Each step that does not act on outdated
knowledge keeps it, or fails its call (`Good.step`), so once all calls have returned `Ok` the
tree is at rest and has every mapping (`additions_kept`).

Without the condition mappings are lost: two additions to an empty directory can each make
a first leaf, and the second root replaces the first (`addition_lost`).
-/

import Abdb.Directory.Additions
import Abdb.Directory.Reopen

namespace Abdb
namespace Directory

open Lib BTreePageDirectory

variable {ι : Type} [DecidableEq ι] {σ : Sys ι} {i j : ι} {key : ι → LPageId} {loc : ι → PPageId}
  {B : LPageId → PPageId → Prop} {stake : ι → Stake} {d : BTreePageDirectory} {F : Layout}

/-- **The invariant of interleaved additions** to a directory with the bindings `B`. -/
structure Good (B : LPageId → PPageId → Prop) (key : ι → LPageId) (loc : ι → PPageId)
    (stake : ι → Stake) (σ : Sys ι) : Prop where
  tree : Tree σ.spans (fun x => ∃ i, (stake i).owed = some x) σ.dir.page σ.dir.rootPage
  fresh : ∀ id, σ.dir.nextDirPage ≤ id → σ.spans id = none
  counter : 0 < σ.dir.nextDirPage
  owed : ∀ {i j x}, (stake i).owed = some x → (stake j).owed = some x → i = j
  held : ∀ {i j n}, (stake i).held = some n → (stake j).held = some n → i = j
  outside : ∀ {i n}, (stake i).held = some n →
    σ.spans n = none ∧ n < σ.dir.nextDirPage ∧ n ≠ 0
  binds : ∀ k l, Binds σ.spans σ.dir.page k l ↔
    B k l ∨ ∃ i, (stake i).landed ∧ k = key i ∧ l = loc i
  stands : ∀ i, Stands σ.spans σ.dir.page (key i) (loc i) (σ.memo i) (σ.pc i) (stake i)

namespace Good

/-- What the other calls owe. -/
def othersOwe (stake : ι → Stake) (i : ι) (x : DirPageId) : Prop :=
  ∃ j, j ≠ i ∧ (stake j).owed = some x

/-- The bindings that are not those of one call. -/
def othersBind (B : LPageId → PPageId → Prop) (key : ι → LPageId) (loc : ι → PPageId)
    (stake : ι → Stake) (i : ι) (k : LPageId) (l : PPageId) : Prop :=
  B k l ∨ ∃ j, j ≠ i ∧ (stake j).landed ∧ k = key j ∧ l = loc j

omit [DecidableEq ι] in
/-- One call apart from the others. -/
theorem exists_iff {P : ι → Prop} (i : ι) : (∃ j, P j) ↔ (∃ j, j ≠ i ∧ P j) ∨ P i := by
  constructor
  · rintro ⟨j, hj⟩
    by_cases hji : j = i
    · exact Or.inr (hji ▸ hj)
    · exact Or.inl ⟨j, hji, hj⟩
  · rintro (⟨j, -, hj⟩ | hi)
    · exact ⟨j, hj⟩
    · exact ⟨i, hi⟩

omit [DecidableEq ι] in
/-- The tree as one of the calls sees it. -/
theorem holds (h : Good B key loc stake σ) (i : ι) :
    Holds (othersOwe stake i) (othersBind B key loc stake i) (key i) (loc i) σ.spans σ.dir.page
      σ.dir.nextDirPage σ.dir.rootPage (stake i) where
  tree := h.tree.congr_due fun x => (exists_iff i).symm
  fresh := h.fresh
  counter := h.counter
  apart x hx := by
    rintro ⟨j, hj, hjx⟩
    exact hj (h.owed hjx hx)
  held n hn := h.outside hn
  binds k l := by
    rw [h.binds, exists_iff i, othersBind, or_assoc]

/-- **A step that does not act on outdated knowledge** keeps the invariant or fails its
call. -/
theorem step (h : Good B key loc stake σ) (hk : key i < idBound) (hl : (loc i).Addressable)
    (hcur : UpToDate σ i) :
    (∃ e, (σ.step i).pc i = .done (.error e)) ∨ ∃ stake', Good B key loc stake' (σ.step i) := by
  rcases (h.stands i).step hk hl (h.holds i) hcur with ⟨e, he⟩ | ⟨s', hholds, hst, hF, hnext, hkeep, hnew⟩
  · exact Or.inl ⟨e, (Function.update_self ..).trans he⟩
  right
  have hself : Function.update stake i s' i = s' := Function.update_self ..
  have hother : ∀ {j}, j ≠ i → Function.update stake i s' j = stake j :=
    fun hj => Function.update_of_ne hj ..
  -- the page that another call holds is as it was
  have hheld : ∀ {j n}, j ≠ i → (stake j).held = some n →
      (σ.step i).spans n = none ∧ (σ.step i).dir.page n = σ.dir.page n := by
    intro j n hj hn
    obtain ⟨hnF, hlt, hn0⟩ := h.outside hn
    exact hkeep n hlt hn0 hnF fun hi => hj (h.held hn hi)
  have howed : ∀ {j x}, j ≠ i → (stake j).owed = some x → s'.owed ≠ some x :=
    fun hj hx hs => hholds.apart _ hs ⟨_, hj, hx⟩
  have hheldne : ∀ {j n}, j ≠ i → (stake j).held = some n → s'.held ≠ some n := by
    intro j n hj hn hs
    rcases hnew n hs with hi | hge
    · exact hj (h.held hn hi)
    · exact (h.outside hn).2.1.not_ge hge
  refine ⟨Function.update stake i s', ?_, hholds.fresh, hholds.counter, ?_, ?_, ?_, ?_, ?_⟩
  · refine hholds.tree.congr_due fun x => (exists_iff i).trans (or_congr ?_ (by rw [hself]))
    refine exists_congr fun j => and_congr_right fun hj => ?_
    rw [hother hj]
  · intro j j' x hj hj'
    by_cases hji : j = i <;> by_cases hji' : j' = i
    · rw [hji, hji']
    · rw [hji, hself] at hj
      rw [hother hji'] at hj'
      exact absurd hj (howed hji' hj')
    · rw [hji', hself] at hj'
      rw [hother hji] at hj
      exact absurd hj' (howed hji hj)
    · rw [hother hji] at hj
      rw [hother hji'] at hj'
      exact h.owed hj hj'
  · intro j j' n hj hj'
    by_cases hji : j = i <;> by_cases hji' : j' = i
    · rw [hji, hji']
    · rw [hji, hself] at hj
      rw [hother hji'] at hj'
      exact absurd hj (hheldne hji' hj')
    · rw [hji', hself] at hj'
      rw [hother hji] at hj
      exact absurd hj' (hheldne hji hj)
    · rw [hother hji] at hj
      rw [hother hji'] at hj'
      exact h.held hj hj'
  · intro j n hn
    by_cases hji : j = i
    · rw [hji, hself] at hn
      exact hholds.held n hn
    · rw [hother hji] at hn
      exact ⟨(hheld hji hn).1, (h.outside hn).2.1.trans_le hnext, (h.outside hn).2.2⟩
  · intro k l
    refine (hholds.binds k l).trans ?_
    rw [exists_iff i, othersBind, or_assoc, hself]
    refine or_congr_right (or_congr_left (exists_congr fun j => and_congr_right fun hj => ?_))
    rw [hother hj]
  · intro j
    by_cases hji : j = i
    · subst hji
      rw [hself]
      have hpc : (σ.step j).pc j = (Directory.step σ.dir (σ.pc j)).2 := Function.update_self ..
      have hm : (σ.step j).memo j = (σ.memo j).after σ.dir (σ.pc j) := Function.update_self ..
      rw [hpc, hm]
      exact hst
    · rw [hother hji]
      have hpc : (σ.step i).pc j = σ.pc j := Function.update_of_ne hji ..
      have hm : (σ.step i).memo j = σ.memo j := Function.update_of_ne hji ..
      rw [hpc, hm]
      exact (h.stands j).mono hF fun n hn => (hheld hji hn).2

end Good

omit [DecidableEq ι] in
/-- Additions that have not begun. -/
theorem good_adding (h : Rests F d.page d.nextDirPage d.rootPage) :
    Good (Binds F d.page) key loc (fun _ : ι => .nothing) (Sys.adding d F key loc) where
  tree := h.tree.congr_due fun _ => iff_of_false (fun ⟨_, hx⟩ => nomatch hx) id
  fresh := h.fresh
  counter := h.counter
  owed hi := nomatch hi
  held hi := nomatch hi
  outside hi := nomatch hi
  binds _ _ := (or_iff_left fun ⟨_, hi, _⟩ => hi).symm
  stands _ := .start

/-- A call that has failed does not return `Ok` any more. -/
theorem failed_step {e : Error} (h : σ.pc i = .done (.error e)) :
    (σ.step j).pc i = .done (.error e) := by
  by_cases hij : i = j
  · subst hij
    refine (Function.update_self ..).trans ?_
    rw [h]
    rfl
  · exact (Function.update_of_ne hij ..).trans h

/-- **In a run none of whose steps acts on outdated knowledge** a call has failed or the
invariant holds. -/
theorem run_good (hk : ∀ i, key i < idBound) (hl : ∀ i, (loc i).Addressable)
    (h : Rests F d.page d.nextDirPage d.rootPage)
    (hrun : Sys.Run UpToDate (Sys.adding d F key loc) σ) :
    (∃ i e, σ.pc i = .done (.error e)) ∨ ∃ stake, Good (Binds F d.page) key loc stake σ := by
  induction hrun with
  | refl => exact Or.inr ⟨_, good_adding h⟩
  | tail _ hstep ih =>
    obtain ⟨j, hcur, rfl⟩ := hstep
    rcases ih with ⟨i, e, he⟩ | ⟨stake, hgood⟩
    · exact Or.inl ⟨i, e, failed_step he⟩
    · exact (hgood.step (hk j) (hl j) hcur).imp_left fun he => ⟨j, he⟩

/-- A call that has returned `Ok` has its mapping in the tree and owes nothing. -/
theorem Stands.returned {page : Pages} {k : LPageId} {r : PPageId} {m : Memo} {s : Stake}
    (h : Stands F page k r m .ok s) : s = .landing := by
  generalize hpc : Pc.ok = pc at h
  cases h with
  | done => rfl
  | descend reads | leaf reads | sibling _ reads | parent reads | header reads =>
    subst hpc
    rcases reads with hr | hr | ⟨_, hr⟩ <;> cases hr
  | _ => cases hpc

/-- Once all additions have returned `Ok`, `lookup` finds every added page and every page that
was there before. -/
def NothingLost (d : BTreePageDirectory) (key : ι → LPageId) (loc : ι → PPageId) (σ : Sys ι) :
    Prop :=
  (∀ i, σ.pc i = .ok) → (∀ i, Answer σ.dir (key i) (.ok (.found (loc i)))) ∧
    ∀ k l, k < idBound → Answer d k (.ok (.found l)) → Answer σ.dir k (.ok (.found l))

/-- **Interleaved additions lose nothing** in a run none of whose steps acts on outdated
knowledge. -/
theorem additions_kept (hk : ∀ i, key i < idBound) (hl : ∀ i, (loc i).Addressable)
    (h : Rests F d.page d.nextDirPage d.rootPage)
    (hrun : Sys.Run UpToDate (Sys.adding d F key loc) σ) : NothingLost d key loc σ := by
  intro hdone
  rcases run_good hk hl h hrun with ⟨i, e, he⟩ | ⟨stake, hgood⟩
  · rw [hdone i] at he
    cases he
  have hstake : ∀ i, stake i = .landing := fun i => (hdone i ▸ hgood.stands i).returned
  have tree : Tree σ.spans (fun _ => False) σ.dir.page σ.dir.rootPage := by
    refine hgood.tree.congr_due fun x => (iff_of_false ?_ id).symm
    rintro ⟨i, hi⟩
    rw [hstake i] at hi
    cases hi
  refine ⟨fun i => ?_, fun k l hkb hans => ?_⟩
  · rw [answer_found_iff tree (hk i), hgood.binds]
    refine Or.inr ⟨i, ?_, rfl, rfl⟩
    rw [hstake i]
    trivial
  · rw [answer_found_iff h.tree hkb] at hans
    rw [answer_found_iff tree hkb, hgood.binds]
    exact Or.inl hans

/-- Two ids and their locations. -/
def twoIds (i : Bool) : LPageId := if i then 2 else 1

def twoPlaces (i : Bool) : PPageId := if i then ⟨0, 0⟩ else ⟨0, 4096⟩

theorem twoIds_lt (i : Bool) : twoIds i < idBound := by cases i <;> decide

theorem twoPlaces_addressable (i : Bool) : (twoPlaces i).Addressable := by cases i <;> decide

/-- One addition after the other: the first makes the root leaf, the second finds it. -/
theorem additions_kept_two : NothingLost initNew twoIds twoPlaces
    ((List.replicate 11 false ++ List.replicate 6 true).foldl Sys.step
      (Sys.adding initNew (fun _ => none) twoIds twoPlaces)) :=
  additions_kept twoIds_lt twoPlaces_addressable rests_initNew (Sys.Legal.run (by decide +kernel))

/-- Two additions that find the directory empty before either has set its root. -/
def twoRoots : Sys Bool :=
  ([false, true, false, true] ++ List.replicate 9 false ++ List.replicate 7 true).foldl Sys.step
    (Sys.adding initNew (fun _ => none) twoIds twoPlaces)

/-- **The second root replaces the first.**  Both additions find the directory empty, and
each sets its own leaf as the root: the mapping of the first is gone, though both returned
`Ok`. -/
theorem addition_lost : ¬ ∀ (ι : Type) [DecidableEq ι] (d : BTreePageDirectory) (F : Layout)
    (key : ι → LPageId) (loc : ι → PPageId) (σ : Sys ι), Rests F d.page d.nextDirPage d.rootPage →
    Function.Injective key → (∀ i, key i < idBound) → (∀ i, (loc i).Addressable) →
    Sys.Run (fun _ _ => True) (Sys.adding d F key loc) σ → NothingLost d key loc σ := by
  intro hall
  have hrun : Sys.Run (fun _ _ => True) (Sys.adding initNew (fun _ => none) twoIds twoPlaces)
      twoRoots := Sys.Legal.run (by decide +kernel)
  obtain ⟨hans, -⟩ := hall _ _ _ _ _ twoRoots rests_initNew (Bool.injective_iff.2 (by decide))
    twoIds_lt twoPlaces_addressable hrun (by decide +kernel)
  obtain ⟨d', hfound⟩ := hans false
  -- the root is the leaf of the second addition
  have hroot : twoRoots.dir.rootPage = 2 := by decide +kernel
  have hleaf : twoRoots.dir.page 2 = some (.leaf ⟨2, 0, 0, consecutive 2 1⟩) := by decide +kernel
  obtain ⟨d₂, hmiss⟩ := LeadsTo.answer (k := 1) (a := 2) (n := 1) (Or.inl ⟨rfl, hroot⟩)
    (by rw [hroot]; exact two_ne_zero) two_ne_zero hleaf rfl
  cases (hfound.unique hmiss).2

end Directory
end Abdb
