/-
# Which frames are whose

What every step keeps, as long as an eviction that finds the pin count zero finds a frame
nobody has pinned (`CountsPins`; the 8-bit count says so unless 256 pins have wrapped it): the
counts are the pins modulo 256, the latches exclude each other, a vacant frame is in the
vacant set or taken by one call, and a page being written back stays in its frame
(`Frames.step`).
-/

import Abdb.Buffer.Calls

namespace Abdb
namespace Buffer

open Lib

variable {P : EvictionPolicy} {β ι : Type} [PageBytes β]

/-! ### What a step does to the latch and the pin of its task -/

section Step

variable {s s' : Storage P β} {q q' : Pc} {e : Event β} {i : ι} {pc : ι → Pc}

/-- A step takes the latch it waited for, drops the one it holds, or downgrades it. -/
theorem Step.latched (h : Step s q e s' q') :
    q'.latched = q.latched ∨ q'.latched = none ∨ q'.latched = q.awaits ∨
      ∃ f, q.latched = some (f, .write) ∧ q'.latched = some (f, .read) := by
  cases h with
  | @load t m f => cases m <;> simp [Pc.latched]
  | _ => simp [Pc.latched, Pc.awaits]

/-- A step pins a frame, unpins one, moves its pin, or leaves it. -/
theorem Step.pinned (h : Step s q e s' q') :
    (q'.pinned = q.pinned ∧ s'.pool.pinCounts = s.pool.pinCounts) ∨
    (∃ f, q.pinned = none ∧ q'.pinned = some f ∧
      s'.pool.pinCounts = (s.pool.incrPin f).pinCounts) ∨
    (∃ f, q.pinned = some f ∧ q'.pinned = none ∧
      s'.pool.pinCounts = (s.pool.decrPin f).pinCounts) ∨
    (∃ f g, q.pinned = some f ∧ q'.pinned = some g ∧
      s'.pool.pinCounts = ((s.pool.decrPin f).incrPin g).pinCounts) ∨
    (∃ f, q.pinned = some f ∧ q'.pinned = some f ∧
      s'.pool.pinCounts = ((s.pool.incrPin f).decrPin f).pinCounts) := by
  cases h with
  | hit => exact .inr (.inl ⟨_, rfl, rfl, rfl⟩)
  | take => exact .inr (.inl ⟨_, rfl, rfl, rfl⟩)
  | lateHit => exact .inr (.inr (.inr (.inl ⟨_, _, rfl, rfl, rfl⟩)))
  | drop => exact .inr (.inr (.inl ⟨_, rfl, rfl, rfl⟩))
  | keep => exact .inr (.inr (.inr (.inr ⟨_, rfl, rfl, rfl⟩)))
  | publish => exact .inl ⟨rfl, Pool.publish_pinCounts⟩
  | init => exact .inl ⟨rfl, by simp [Pool.initFrame]⟩
  | load => exact .inl ⟨rfl, by simp [Pool.finishLoad]⟩
  | markDirty => exact .inl ⟨rfl, Pool.markFrameDirty_pinCounts⟩
  | _ => exact .inl ⟨rfl, rfl⟩

theorem Step.numFrames (h : Step s q e s' q') : s'.pool.numFrames = s.pool.numFrames := by
  cases h with
  | publish => exact Pool.publish_numFrames
  | init => simp [Pool.initFrame]
  | load => simp [Pool.finishLoad]
  | markDirty => exact Pool.markFrameDirty_numFrames
  | _ => rfl

variable [DecidableEq ι]

omit [PageBytes β] in
/-- What the tasks hold after one of them moved. -/
theorem holds_update {α : Type} (g : Pc → Option α) :
    (fun j => g (Function.update pc i q' j)) = Function.update (fun j => g (pc j)) i (g q') := by
  funext j
  by_cases hj : j = i
  · subst hj
    simp
  · simp [Function.update_of_ne hj]

theorem Step.exclusive (h : Step s q e s' q') (hi : pc i = q)
    (hlatch : Exclusive fun j => (pc j).latched)
    (hgrant : ∀ f m, q.awaits = some (f, m) → Grants (fun j => (pc j).latched) f m) :
    Exclusive fun j => (Function.update pc i q' j).latched := by
  subst hi
  rw [holds_update Pc.latched]
  rcases h.latched with hl | hl | hl | ⟨f, hl, hl'⟩
  · rw [hl, Function.update_eq_self i fun j => (pc j).latched]
    exact hlatch
  · rw [hl]
    exact hlatch.release
  · rw [hl]
    cases ha : (pc i).awaits with
    | none => exact hlatch.release
    | some x => exact hlatch.take (hgrant x.1 x.2 ha)
  · rw [hl']
    exact hlatch.downgrade hl

theorem Step.census (h : Step s q e s' q') (hi : pc i = q)
    (hpins : Census 256 s.pool.pinCounts fun j => (pc j).pinned) :
    Census 256 s'.pool.pinCounts fun j => (Function.update pc i q' j).pinned := by
  subst hi
  rw [holds_update Pc.pinned]
  rcases h.pinned with ⟨hq, hs⟩ | ⟨f, hq, hq', hs⟩ | ⟨f, hq, hq', hs⟩ | ⟨f, g, hq, hq', hs⟩ |
      ⟨f, hq, hq', hs⟩
  · rw [hq, hs, Function.update_eq_self i fun j => (pc j).pinned]
    exact hpins
  · rw [hq', hs]
    exact hpins.take hq
  · rw [hq', hs]
    exact hpins.release hq (by decide)
  · rw [hq', hs, ← Function.update_idem (f := fun j => (pc j).pinned) (a := i) (v := none)]
    exact (hpins.release hq (by decide)).take (Function.update_self ..)
  · have hcount : s'.pool.pinCounts = s.pool.pinCounts := by
      have hlt : s.pool.pinCounts f < 256 := by
        rw [hpins.count f]
        exact Nat.mod_lt _ (by decide)
      rw [hs]
      simp only [Pool.decrPin_pinCounts, Pool.incrPin_pinCounts, Function.update_self,
        Function.update_idem]
      rw [show ((s.pool.pinCounts f + 1) % 256 + 255) % 256 = s.pool.pinCounts f by omega,
        Function.update_eq_self]
    rw [hq', hcount, ← hq, Function.update_eq_self i fun j => (pc j).pinned]
    exact hpins

end Step

/-! ### The invariant -/

/-- An eviction that finds the pin count of its victim zero finds nobody pinning it. -/
def CountsPins (σ : Sys P β ι) (i : ι) (_ : Event β) : Prop :=
  ∀ v, (σ.pc i).victim = some v → σ.storage.pool.pinCounts v = 0 → ∀ j, (σ.pc j).pinned ≠ some v

omit [PageBytes β] in
instance [Fintype ι] (σ : Sys P β ι) (i : ι) (e : Event β) : Decidable (CountsPins σ i e) :=
  inferInstanceAs (Decidable (∀ v ∈ (σ.pc i).victim,
    σ.storage.pool.pinCounts v = 0 → ∀ j, (σ.pc j).pinned ≠ some v))

/-- **The frames of a pool of `n` frames.** -/
structure Frames (n : ℕ) (s : Storage P β) (pc : ι → Pc) : Prop where
  size : s.pool.numFrames = n
  pins : Census 256 s.pool.pinCounts fun j => (pc j).pinned
  latches : Exclusive fun j => (pc j).latched
  slots : Slots (· < n) s.pool.vacantFrames (s.pool.frameMeta · = .vacant) fun j => (pc j).owned
  written : ∀ {j c v l p}, pc j = .writingBack c v l p → s.pool.frameMeta v = .loaded l p true

section

variable {s s' : Storage P β} {pc : ι → Pc} {i : ι} {q q' : Pc} {e : Event β} {n : ℕ}

omit [PageBytes β] in
/-- A frame somebody took is pinned. -/
theorem pinned_of_owned {f : ℕ} (h : q.owned = some f) : q.pinned = some f := by
  cases q <;> first | exact h | cases h

omit [PageBytes β] in
/-- The metadata after a frame is filled or vacated. -/
theorem vacant_update {s : Pool P β} {f g : ℕ} {l : LPageId} {p : PPageId} {d : Bool} :
    Function.update s.frameMeta f (.loaded l p d) g = .vacant ↔ g ≠ f ∧ s.frameMeta g = .vacant := by
  by_cases hg : g = f
  · subst hg
    simp
  · simp [hg]

variable [DecidableEq ι]

theorem Step.slots (h : Step s q e s' q') (hi : pc i = q) (hF : Frames n s pc)
    (hcount : ∀ v, q.victim = some v → s.pool.pinCounts v = 0 → ∀ j, (pc j).pinned ≠ some v) :
    Slots (· < n) s'.pool.vacantFrames (s'.pool.frameMeta · = .vacant)
      fun j => (Function.update pc i q' j).owned := by
  have hsame : q'.owned = q.owned → Slots (· < n) s.pool.vacantFrames
      (s.pool.frameMeta · = .vacant) fun j => (Function.update pc i q' j).owned := by
    intro hq
    rw [holds_update Pc.owned, hq, ← hi, Function.update_eq_self i fun j => (pc j).owned]
    exact hF.slots
  have hremove : ∀ {v l p d}, s.pool.frameMeta v = .loaded l p d → q'.owned = q.owned →
      Slots (· < n) (insert v s.pool.vacantFrames)
        (Function.update s.pool.frameMeta v .vacant · = .vacant)
        fun j => (Function.update pc i q' j).owned := by
    intro v l p d hv hq
    refine ((hsame hq).vacate (k := v) (by simp [hv])).congr fun g => ?_
    by_cases hg : g = v
    · subst hg
      simp
    · simp [hg]
  have howned : (pc i).owned = q.owned := by rw [hi]
  cases h with
  | take hmiss hf =>
    rw [holds_update Pc.owned]
    exact hF.slots.take hf howned
  | victimVacant hlt hpin hmeta =>
    exact (hsame rfl).refree (hF.size ▸ hlt) hmeta fun j hj => by
      by_cases hji : j = i
      · subst hji
        rw [Function.update_self] at hj
        cases hj
      · rw [Function.update_of_ne hji] at hj
        exact hcount _ rfl hpin j (pinned_of_owned hj)
  | victimClean hpin hmeta => exact hremove hmeta rfl
  | writtenBack => exact hremove (hF.written hi) rfl
  | lateHit hfound =>
    rw [holds_update Pc.owned]
    exact hF.slots.giveBack howned
  | publish hmiss =>
    simp only [Pool.publish_vacantFrames, Pool.publish_frameMeta]
    exact hsame rfl
  | init =>
    simp only [Pool.initFrame, Pool.publish_vacantFrames, Pool.publish_frameMeta]
    rw [holds_update Pc.owned]
    exact (hF.slots.fill howned).congr fun g => vacant_update
  | load hread =>
    simp only [Pool.finishLoad, Pool.publish_vacantFrames, Pool.publish_frameMeta]
    rw [holds_update Pc.owned]
    exact (hF.slots.fill howned).congr fun g => vacant_update
  | markDirty =>
    simp only [Pool.markFrameDirty_vacantFrames, Pool.markFrameDirty_vacant]
    exact hsame rfl
  | _ => exact hsame rfl

theorem Step.written (h : Step s q e s' q') (hi : pc i = q) (hF : Frames n s pc)
    (hgrant : ∀ f m, q.awaits = some (f, m) → Grants (fun j => (pc j).latched) f m)
    {j : ι} {c : Call} {v : ℕ} {l : LPageId} {p : PPageId}
    (hj : Function.update pc i q' j = .writingBack c v l p) :
    s'.pool.frameMeta v = .loaded l p true := by
  by_cases hji : j = i
  · -- only a victim found dirty is written back
    subst hji
    rw [Function.update_self] at hj
    cases h with
    | victimDirty hpin hmeta =>
      cases hj
      exact hmeta
    | _ => cases hj
  · rw [Function.update_of_ne hji] at hj
    have hv := hF.written hj
    have hlatch : (pc j).latched = some (v, .write) := by rw [hj]; rfl
    -- a frame that is filled was vacant
    have hfill : ∀ {f l' p'}, q.owned = some f →
        Function.update s.pool.frameMeta f (.loaded l' p' false) v = .loaded l p true := by
      intro f l' p' hf
      rw [← hi] at hf
      rw [Function.update_of_ne, hv]
      rintro rfl
      have := (hF.slots.held hf).1
      rw [hv] at this
      cases this
    cases h with
    | victimClean hpin hmeta =>
      rw [Pool.removeVictim_frameMeta, Function.update_of_ne, hv]
      rintro rfl
      exact absurd (hgrant _ _ rfl j _ hlatch).1 nofun
    | writtenBack =>
      rw [Pool.removeVictim_frameMeta, Function.update_of_ne, hv]
      rintro rfl
      have hlatch' : (pc i).latched = some (v, .write) := by rw [hi]; rfl
      exact hji (hF.latches j i v _ hlatch hlatch')
    | publish => rw [Pool.publish_frameMeta, hv]
    | init =>
      simp only [Pool.initFrame, Pool.publish_frameMeta]
      exact hfill rfl
    | load =>
      simp only [Pool.finishLoad, Pool.publish_frameMeta]
      exact hfill rfl
    | @markDirty c f =>
      by_cases hf : v = f
      · subst hf
        simp [Pool.markFrameDirty, hv]
      · rw [Pool.markFrameDirty_frameMeta_of_ne hf, hv]
    | _ => exact hv

omit [DecidableEq ι] in
theorem Frames.init (d : Disk β) :
    Frames n (Sys.init n d : Sys P β ι).storage (Sys.init n d : Sys P β ι).pc where
  size := rfl
  pins := .nil (fun _ => rfl) fun _ => rfl
  latches := .nil fun _ => rfl
  slots :=
    { freed := fun _ => rfl
      held := nofun
      owner := nofun
      home := fun hf _ => Or.inl (Finset.mem_range.2 hf)
      inside := fun hk => hk.elim Finset.mem_range.1 fun h => h.elim nofun fun hv => absurd rfl hv }
  written := nofun

/-- **A step keeps the frames.** -/
theorem Frames.step (hF : Frames n s pc) (h : Step s q e s' q') (hi : pc i = q)
    (hgrant : ∀ f m, q.awaits = some (f, m) → Grants (fun j => (pc j).latched) f m)
    (hcount : ∀ v, q.victim = some v → s.pool.pinCounts v = 0 → ∀ j, (pc j).pinned ≠ some v) :
    Frames n s' (Function.update pc i q') where
  size := h.numFrames.trans hF.size
  pins := h.census hi hF.pins
  latches := h.exclusive hi hF.latches hgrant
  slots := h.slots hi hF hcount
  written := h.written hi hF hgrant

end

/-! ### Steps of a system -/

section

variable [DecidableEq ι] {σ σ' : Sys P β ι} {i : ι} {e : Event β} {n : ℕ}

theorem Sys.exists_step (h : σ.step i e = some σ') :
    ∃ s' q', Step σ.storage (σ.pc i) e s' q' ∧ σ' = ⟨s', Function.update σ.pc i q'⟩ := by
  obtain ⟨⟨s', q'⟩, hadv, rfl⟩ := Option.map_eq_some_iff.1 h
  exact ⟨s', q', .of_advance hadv, rfl⟩

end

end Buffer
end Abdb
