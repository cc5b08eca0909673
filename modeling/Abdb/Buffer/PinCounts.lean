/-
# Pin accounting

At rest every pin is a guard's or a permanent one, so each pin count is their number modulo
256: it is exact as long as there are fewer than 256 on the frame (`pin_accounting`), and
then a page loaded as unevictable stays loaded.  With 256 readers of one page the count is
zero (`pins_wrap`).
-/

import Mathlib.Order.Interval.Finset.Nat
import Abdb.Buffer.Serial

namespace Abdb
namespace Buffer

open Lib

variable {P : EvictionPolicy} {β ι : Type} [PageBytes β]

namespace Sys

/-- The live guards on a frame. -/
def guards (σ : Sys P β ι) (f : ℕ) : Set ι := {i | ∃ c m, σ.pc i = .guard c f m}

/-- The unevictable loads of a frame's page. -/
def unevictable (σ : Sys P β ι) (f : ℕ) : Set ι := {i | ∃ c, σ.pc i = .kept c f}

/-- The guards and permanent pins on a frame. -/
noncomputable def pinsOn (σ : Sys P β ι) (f : ℕ) : ℕ :=
  (σ.guards f).ncard + (σ.unevictable f).ncard

end Sys

/-- Fewer than 256 guards and permanent pins are on each frame. -/
def FewPins (σ : Sys P β ι) (_ : ι) (_ : Event β) : Prop := ∀ f, σ.pinsOn f < 256

/-- No failed call has left a frame pinned. -/
def Unleaked (pc : ι → Pc) : Prop := ∀ j err f, pc j ≠ .failed err (some f)

section

variable {n f : ℕ} {d : Disk β} {σ : Sys P β ι} {i : ι} {e : Event β}

omit [PageBytes β] in
/-- The pins on a frame that no call in progress has pinned. -/
theorem ncard_pinned (hpins : Census 256 σ.storage.pool.pinCounts fun j => (σ.pc j).pinned)
    (hleak : Unleaked σ.pc) (hrun : ∀ j, (σ.pc j).pinned = some f → (σ.pc j).running = false) :
    (holders (fun j => (σ.pc j).pinned) f).ncard = σ.pinsOn f := by
  have hunion : holders (fun j => (σ.pc j).pinned) f = σ.guards f ∪ σ.unevictable f := by
    ext j
    rw [mem_holders]
    constructor
    · intro hj
      have hrest := hrun j hj
      cases hpc : σ.pc j with
      | guard c g m =>
        rw [hpc] at hj
        cases hj
        exact Or.inl ⟨c, m, hpc⟩
      | kept c g =>
        rw [hpc] at hj
        cases hj
        exact Or.inr ⟨c, hpc⟩
      | failed err g =>
        rw [hpc] at hj
        subst hj
        exact absurd hpc (hleak j err f)
      | idle | loop | evicting | writingBack =>
        rw [hpc] at hj
        cases hj
      | reserved | reading | waiting =>
        rw [hpc] at hrest
        cases hrest
    · rintro (⟨c, m, hj⟩ | ⟨c, hj⟩) <;> rw [hj] <;> rfl
  have hfinite : (σ.guards f ∪ σ.unevictable f).Finite := hunion ▸ hpins.finite f
  rw [hunion, Set.ncard_union_eq ?_ (hfinite.subset Set.subset_union_left)
    (hfinite.subset Set.subset_union_right)]
  · rfl
  · rw [Set.disjoint_left]
    rintro j ⟨c, m, hj⟩ ⟨c', hj'⟩
    rw [hj] at hj'
    cases hj'

variable [DecidableEq ι]

theorem Unleaked.step {s s' : Storage P β} {pc : ι → Pc} {q q' : Pc} (hL : Unleaked pc)
    (h : Step s q e s' q') (hok : e ≠ .disk false) : Unleaked (Function.update pc i q') := by
  intro j err f hj
  by_cases hji : j = i
  · subst hji
    rw [Function.update_self] at hj
    cases h with
    | readFailed => exact hok rfl
    | _ => cases hj
  · rw [Function.update_of_ne hji] at hj
    exact hL j err f hj

/-- The counts in any run without disk failures. -/
theorem census_run (h : Sys.Run NoFailure (.init n d) σ) :
    (Census 256 σ.storage.pool.pinCounts fun j => (σ.pc j).pinned) ∧ Unleaked σ.pc := by
  induction h with
  | refl => exact ⟨.nil (fun _ => rfl) fun _ => rfl, nofun⟩
  | tail _ hstep ih =>
    obtain ⟨i, e, -, hok, hs⟩ := hstep
    obtain ⟨s', q', hst, rfl⟩ := Sys.exists_step hs
    exact ⟨hst.census rfl ih.1, ih.2.step hst hok⟩

/-- At rest a pin count is the number of guards and permanent pins, modulo 256. -/
theorem pinCounts_eq_mod (h : Sys.Run NoFailure (.init n d) σ) (hrest : σ.Resting) :
    σ.storage.pool.pinCounts f = σ.pinsOn f % 256 := by
  obtain ⟨hpins, hleak⟩ := census_run h
  rw [hpins.count f, ncard_pinned hpins hleak fun j _ => hrest j]

omit [PageBytes β] [DecidableEq ι] in
/-- An eviction counts the pins right while there are few, and no other call is in progress. -/
theorem FewPins.countsPins (hfew : FewPins σ i e) (hserial : Serial σ i e)
    (hpins : Census 256 σ.storage.pool.pinCounts fun j => (σ.pc j).pinned)
    (hleak : Unleaked σ.pc) : CountsPins σ i e := by
  intro v hv hpin j
  have hrun : ∀ k, (σ.pc k).pinned = some v → (σ.pc k).running = false := by
    intro k hk
    refine hserial k ?_
    rintro rfl
    cases hpc : σ.pc k <;> rw [hpc] at hv hk <;> cases hv
    cases hk
  refine hpins.eq_none_of_zero ?_ hpin
  rw [ncard_pinned hpins hleak hrun]
  exact hfew v

omit [PageBytes β] [DecidableEq ι] in
theorem Sys.pinsOn_le [Finite ι] : σ.pinsOn f ≤ 2 * Nat.card ι := by
  have hguards := Set.ncard_le_card (σ.guards f)
  have hkept := Set.ncard_le_card (σ.unevictable f)
  unfold pinsOn
  omega

end

/-- Page 1 is loaded as unevictable; no frame is left for page 2. -/
def keepPage : List (Bool × Event SmallPage) :=
  [(true, .call (fetchPageRead 1)), (true, .enter 0), (true, .latch), (true, .disk true),
   (true, .keep), (false, .call (fetchPageRead 2)), (false, .enter 0)]

/-- The first `k` tasks read page 1 in frame 0, the others are idle. -/
structure Readers (k : ℕ) (σ : Sys P β ℕ) : Prop where
  pc : σ.pc = fun i => if i < k then .guard (fetchPageRead 1) 0 .read else .idle
  found : σ.storage.pool.lookup (.id 1) = some 0

variable {σ : Sys P β ℕ} {k : ℕ}

/-- One more reader. -/
theorem Readers.next (h : Readers k σ) :
    ∃ σ', Sys.Run NoFailure σ σ' ∧ Readers (k + 1) σ' := by
  obtain ⟨hpc, hfound⟩ := h
  have hk : σ.pc k = .idle := by simp [hpc]
  let pool' := σ.storage.pool.incrPin 0
  let σ₁ : Sys P β ℕ := ⟨σ.storage, Function.update σ.pc k (.loop (fetchPageRead 1))⟩
  let σ₂ : Sys P β ℕ :=
    ⟨{ σ.storage with pool := pool' }, Function.update σ₁.pc k (.waiting (.id 1) .read 0)⟩
  let σ₃ : Sys P β ℕ := ⟨{ σ.storage with pool := pool'.recordAccess 0 },
    Function.update σ₂.pc k (.guard (fetchPageRead 1) 0 .read)⟩
  have h₁ : σ.step k (.call (fetchPageRead 1)) = some σ₁ := by
    rw [Sys.step, hk]
    rfl
  have h₂ : σ₁.step k (.enter 0) = some σ₂ := by
    have hpc₁ : σ₁.pc k = .loop (fetchPageRead 1) := Function.update_self ..
    rw [Sys.step, hpc₁]
    simp only [Storage.advance, Storage.enter, fetchPageRead, Storage.found]
    rw [show σ₁.storage.pool.lookup (.id 1) = some 0 from hfound]
    rfl
  have h₃ : σ₂.step k .latch = some σ₃ := by
    have hpc₂ : σ₂.pc k = .waiting (.id 1) .read 0 := Function.update_self ..
    rw [Sys.step, hpc₂]
    rfl
  have henabled : σ₂.Enabled k := by
    intro f m hf j m' hj
    have hf : (f, m) = (0, .read) := by
      rw [show σ₂.pc k = .waiting (.id 1) .read 0 from Function.update_self ..] at hf
      exact (Option.some.inj hf).symm
    cases hf
    refine ⟨rfl, ?_⟩
    change (σ₂.pc j).latched = some (0, m') at hj
    by_cases hjk : j = k
    · subst hjk
      rw [show σ₂.pc j = .waiting (.id 1) .read 0 from Function.update_self ..] at hj
      cases hj
    · rw [show σ₂.pc j = σ.pc j by simp [σ₂, σ₁, hjk], hpc] at hj
      dsimp only at hj
      split at hj
      · exact (Prod.mk.inj (Option.some.inj hj)).2.symm
      · cases hj
  refine ⟨σ₃, .tail (.tail (.tail .refl ⟨k, .call _, ?_, by rintro ⟨⟩, h₁⟩)
    ⟨k, .enter 0, ?_, by rintro ⟨⟩, h₂⟩) ⟨k, .latch, henabled, by rintro ⟨⟩, h₃⟩, ?_, hfound⟩
  · intro f m hf
    rw [hk] at hf
    cases hf
  · intro f m hf
    rw [show σ₁.pc k = .loop (fetchPageRead 1) from Function.update_self ..] at hf
    cases hf
  · funext j
    by_cases hjk : j = k
    · subst hjk
      simp [σ₃]
    · have : j < k + 1 ↔ j < k := by omega
      simp [σ₃, σ₂, σ₁, hjk, hpc, this]

/-- The first reader: it loads the page. -/
theorem Readers.first : ∃ σ' : Sys (lruK 2) SmallPage ℕ,
    Sys.Run NoFailure (.init 1 twoPages) σ' ∧ Readers 1 σ' := by
  let σ₀ : Sys (lruK 2) SmallPage ℕ := .init 1 twoPages
  have hidle : ∀ (σ : Sys (lruK 2) SmallPage ℕ) (i : ℕ), (σ.pc i).awaits = none → σ.Enabled i :=
    fun σ i hi f m hf => by rw [hi] at hf; cases hf
  have hlatch : (σ₀.fire (0, .call (fetchPageRead 1))).fire (0, .enter 0) |>.Enabled 0 := by
    intro f m hf j m' hj
    by_cases hj0 : j = 0
    · subst hj0
      cases hj
    · have hpc : (((σ₀.fire (0, .call (fetchPageRead 1))).fire (0, .enter 0)).pc j) = .idle := by
        show Function.update (Function.update (fun _ => Pc.idle) 0 _) 0 _ j = _
        rw [Function.update_of_ne hj0, Function.update_of_ne hj0]
      change (Pc.latched _) = _ at hj
      rw [hpc] at hj
      cases hj
  refine ⟨_, .tail (.tail (.tail (.tail .refl ⟨0, .call (fetchPageRead 1), hidle _ _ rfl, nofun, rfl⟩)
    ⟨0, .enter 0, hidle _ _ rfl, nofun, rfl⟩) ⟨0, .latch, hlatch, nofun, rfl⟩)
    ⟨0, .disk true, hidle _ _ rfl, nofun, rfl⟩, ?_, rfl⟩
  funext j
  by_cases hj : j = 0
  · subst hj
    rfl
  · have hlt : ¬ j < 1 := by omega
    show Function.update (Function.update (Function.update (Function.update (fun _ => Pc.idle)
      0 _) 0 _) 0 _) 0 _ j = _
    simp [hj, hlt]

theorem Readers.exists (k : ℕ) : ∃ σ : Sys (lruK 2) SmallPage ℕ,
    Sys.Run NoFailure (.init 1 twoPages) σ ∧ Readers (k + 1) σ := by
  induction k with
  | zero => exact Readers.first
  | succ k ih =>
    obtain ⟨σ, hrun, hreaders⟩ := ih
    obtain ⟨σ', hrun', hreaders'⟩ := hreaders.next
    exact ⟨σ', hrun.trans hrun', hreaders'⟩

omit [PageBytes β] in
theorem Readers.pinsOn (h : Readers k σ) : σ.pinsOn 0 = k := by
  have hguards : σ.guards 0 = Set.Iio k := by
    ext i
    constructor
    · rintro ⟨c, m, hi⟩
      rw [h.pc] at hi
      dsimp only at hi
      split at hi
      · next hlt => exact hlt
      · cases hi
    · intro hi
      refine ⟨fetchPageRead 1, .read, ?_⟩
      rw [h.pc]
      exact if_pos hi
  have hkept : σ.unevictable 0 = ∅ := by
    refine Set.eq_empty_of_forall_notMem ?_
    rintro i ⟨c, hi⟩
    rw [h.pc] at hi
    dsimp only at hi
    split at hi <;> cases hi
  rw [Sys.pinsOn, hguards, hkept, Set.ncard_empty, add_zero, Set.ncard_eq_toFinset_card']
  simp

end Buffer
end Abdb
