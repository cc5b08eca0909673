/-
# A guard covers the page asked for

A map entry names a frame that is loaded with the page or is being read for it
(`Entries`), so a fetch that pins through a map waits for the right frame.  Pinned, the frame
keeps its page, unless an eviction was already past its pin check: it writes a dirty victim
back before it removes the map entries.  In a run in which no fetch pins a frame during its
write-back, every guard covers the page asked for (`guard_covers`); three tasks and a dirty
victim break it (`guard_uncovered`).
-/

import Abdb.Buffer.Frames
import Abdb.Buffer.LruK

namespace Abdb
namespace Buffer

open Lib

variable {P : EvictionPolicy} {β ι : Type} [PageBytes β]

/-- No call of the disk manager returns an error. -/
def NoFailure (_ : Sys P β ι) (_ : ι) (e : Event β) : Prop := e ≠ .disk false

omit [PageBytes β] in
instance (σ : Sys P β ι) (i : ι) : (e : Event β) → Decidable (NoFailure σ i e)
  | .disk false => isFalse fun h => h rfl
  | .disk true | .call _ | .enter _ | .latch | .write _ | .markDirty | .downgrade | .drop
  | .keep => isTrue nofun

/-- The frame a step pins through a map. -/
def Storage.pinsThroughMap (s : Storage P β) : Pc → Event β → Option ℕ
  | .loop (.fetch t _), .enter _ => s.pool.lookup t
  | .reserved (.fetch t _) _, .latch => s.pool.lookup t
  | _, _ => none

/-- The step pins no frame through a map while an eviction writes that frame back. -/
def AvoidsWriteBack (σ : Sys P β ι) (i : ι) (e : Event β) : Prop :=
  ∀ g, σ.storage.pinsThroughMap (σ.pc i) e = some g → ∀ j, (σ.pc j).writesBack ≠ some g

omit [PageBytes β] in
instance [Fintype ι] (σ : Sys P β ι) (i : ι) (e : Event β) : Decidable (AvoidsWriteBack σ i e) :=
  inferInstanceAs (Decidable (∀ g ∈ σ.storage.pinsThroughMap (σ.pc i) e,
    ∀ j, (σ.pc j).writesBack ≠ some g))

/-- The frame whose page a step evicts. -/
def Storage.vacates (s : Storage P β) : Pc → Event β → Option ℕ
  | .evicting _ v, .latch =>
    match s.pool.frameMeta v with
    | .loaded _ _ false => if s.pool.pinCounts v = 0 then some v else none
    | _ => none
  | .writingBack _ v _ _, .disk true => some v
  | _, _ => none

/-- The frame is loaded with the page, or a task is reading the page into it. -/
def Serving (s : Storage P β) (pc : ι → Pc) (t : Target) (f : ℕ) : Prop :=
  (s.pool.frameMeta f).Covers t ∨ ∃ j m, pc j = .reading t m f

/-- A guard covers what its call asked for. -/
def Call.CoveredBy : Call → FrameMeta → Prop
  | .fetch t _, x => x.Covers t
  | .create l p, x => x.Covers (.id l) ∧ x.Covers (.loc p)

/-- Map entries name frames that serve their page. -/
def Entries (s : Storage P β) (pc : ι → Pc) : Prop :=
  ∀ t f, s.pool.lookup t = some f → Serving s pc t f

section Step

variable {s s' : Storage P β} {pc : ι → Pc} {i : ι} {q q' : Pc} {e : Event β} {n f : ℕ}
  {t : Target}

theorem Disk.covers_of_read {d : Disk β} {l : LPageId} {p : PPageId} {b : β} {e : Bool}
    (h : d.read t = some (l, p, b)) : (FrameMeta.loaded l p e).Covers t := by
  cases t with
  | id l' =>
    obtain ⟨x, -, hx⟩ := Option.map_eq_some_iff.1 h
    cases hx
    rfl
  | loc p' =>
    obtain ⟨b', -, hx⟩ := Option.map_eq_some_iff.1 h
    cases hx
    rfl

omit [PageBytes β] in
theorem FrameMeta.covers_other {l : LPageId} {p : PPageId} {dirty : Bool} :
    (FrameMeta.loaded l p dirty).Covers (t.other l p) := by
  cases t <;> rfl

/-- **A loaded frame keeps its page** unless the step evicts it. -/
theorem Step.covers (h : Step s q e s' q') (hi : pc i = q) (hF : Frames n s pc)
    (hcov : (s.pool.frameMeta f).Covers t) (hkeep : s.vacates q e ≠ some f) :
    (s'.pool.frameMeta f).Covers t := by
  have hfill : ∀ {g l p}, q.owned = some g →
      (Function.update s.pool.frameMeta g (.loaded l p false) f).Covers t := by
    intro g l p hg
    rw [← hi] at hg
    rw [Function.update_of_ne]
    · exact hcov
    · rintro rfl
      rw [(hF.slots.held hg).1] at hcov
      exact hcov
  cases h with
  | victimClean hpin hmeta =>
    rw [Pool.removeVictim_frameMeta, Function.update_of_ne]
    · exact hcov
    · rintro rfl
      exact hkeep (by simp [Storage.vacates, hmeta, hpin])
  | writtenBack =>
    rw [Pool.removeVictim_frameMeta, Function.update_of_ne]
    · exact hcov
    · rintro rfl
      exact hkeep rfl
  | publish =>
    rw [Pool.publish_frameMeta]
    exact hcov
  | init =>
    simp only [Pool.initFrame, Pool.publish_frameMeta]
    exact hfill rfl
  | load =>
    simp only [Pool.finishLoad, Pool.publish_frameMeta]
    exact hfill rfl
  | markDirty => exact Pool.covers_markFrameDirty.2 hcov
  | _ => exact hcov

variable [DecidableEq ι]

theorem Step.serving (h : Step s q e s' q') (hi : pc i = q) (hF : Frames n s pc)
    (hok : e ≠ .disk false) (hserve : Serving s pc t f) (hkeep : s.vacates q e ≠ some f) :
    Serving s' (Function.update pc i q') t f := by
  rcases hserve with hcov | ⟨j, m, hj⟩
  · exact Or.inl (h.covers hi hF hcov hkeep)
  · by_cases hji : j = i
    · -- the reader itself moves: it has read the page
      subst hji
      rw [hi] at hj
      subst hj
      cases h with
      | load hread =>
        simp only [Serving, Pool.finishLoad, Pool.publish_frameMeta, Function.update_self]
        exact Or.inl (Disk.covers_of_read hread)
      | readFailed => exact absurd rfl hok
    · exact Or.inr ⟨j, m, by rwa [Function.update_of_ne hji]⟩

omit [DecidableEq ι] [PageBytes β] in
/-- An evicted frame was loaded. -/
theorem loaded_of_vacates (hi : pc i = q) (hF : Frames n s pc) (h : s.vacates q e = some f) :
    ∃ l p dirty, s.pool.frameMeta f = .loaded l p dirty := by
  unfold Storage.vacates at h
  split at h
  · split at h
    · next hmeta =>
      split at h
      · cases h
        exact ⟨_, _, _, hmeta⟩
      · cases h
    · cases h
  · cases h
    exact ⟨_, _, _, hF.written hi⟩
  · cases h

omit [DecidableEq ι] in
/-- The entries after a step: those it makes, and earlier ones, of which it removes those of
a page it evicts. -/
theorem Step.lookup (h : Step s q e s' q') (hi : pc i = q) (hF : Frames n s pc)
    (hf : s'.pool.lookup t = some f) :
    (s.pool.lookup t = some f ∧ (s.vacates q e = some f → ¬ (s.pool.frameMeta f).Covers t)) ∨
      (∃ m, q' = .reading t m f) ∨ (s'.pool.frameMeta f).Covers t := by
  have hremove : ∀ {v l p dirty}, s.pool.frameMeta v = .loaded l p dirty →
      (s.vacates q e = some f → f = v) → (s.pool.removeVictim v l p).lookup t = some f →
      s.pool.lookup t = some f ∧ (s.vacates q e = some f → ¬ (s.pool.frameMeta f).Covers t) := by
    intro v l p dirty hv hvac hf
    rw [Pool.lookup_removeVictim] at hf
    split at hf
    · cases hf
    · next hne =>
      refine ⟨hf, fun heq hcov => ?_⟩
      have hfv := hvac heq
      subst hfv
      rw [hv, FrameMeta.covers_loaded] at hcov
      exact hne hcov
  cases h with
  | victimClean hpin hmeta =>
    refine Or.inl (hremove hmeta (fun heq => ?_) hf)
    simp only [Storage.vacates, hmeta, hpin, if_true] at heq
    exact (Option.some.inj heq).symm
  | writtenBack => exact Or.inl (hremove (hF.written hi) (fun heq => (Option.some.inj heq).symm) hf)
  | publish hmiss =>
    rw [Pool.lookup_publish] at hf
    split at hf
    · next ht =>
      cases hf
      subst ht
      exact Or.inr (Or.inl ⟨_, rfl⟩)
    · exact Or.inl ⟨hf, by rintro ⟨⟩⟩
  | init =>
    rw [Pool.lookup_initFrame] at hf
    split at hf
    · next ht =>
      cases hf
      simp only [Pool.initFrame, Pool.publish_frameMeta, Function.update_self]
      exact Or.inr (Or.inr (FrameMeta.covers_loaded.2 ht))
    · exact Or.inl ⟨hf, by rintro ⟨⟩⟩
  | load hread =>
    rw [Pool.lookup_finishLoad] at hf
    split at hf
    · next ht =>
      cases hf
      subst ht
      simp only [Pool.finishLoad, Pool.publish_frameMeta, Function.update_self]
      exact Or.inr (Or.inr FrameMeta.covers_other)
    · exact Or.inl ⟨hf, by rintro ⟨⟩⟩
  | victimVacant hlt hpin hmeta =>
    exact Or.inl ⟨by cases t <;> exact hf, by simp [Storage.vacates, hmeta]⟩
  | victimDirty hpin hmeta => exact Or.inl ⟨hf, by simp [Storage.vacates, hmeta]⟩
  | nextVictim hpin =>
    refine Or.inl ⟨hf, fun heq => ?_⟩
    unfold Storage.vacates at heq
    simp only [if_neg hpin] at heq
    split at heq <;> cases heq
  | noNextVictim hpin =>
    refine Or.inl ⟨hf, fun heq => ?_⟩
    unfold Storage.vacates at heq
    simp only [if_neg hpin] at heq
    split at heq <;> cases heq
  | _ => exact Or.inl ⟨by simpa using hf, by rintro ⟨⟩⟩

/-- **A step keeps the map entries right.** -/
theorem Entries.step (hE : Entries s pc) (h : Step s q e s' q') (hi : pc i = q)
    (hF : Frames n s pc) (hok : e ≠ .disk false) : Entries s' (Function.update pc i q') := by
  intro t f hf
  rcases h.lookup hi hF hf with ⟨hold, hvac⟩ | ⟨m, rfl⟩ | hcov
  · refine h.serving hi hF hok (hE t f hold) fun heq => ?_
    rcases hE t f hold with hcov | ⟨j, m, hj⟩
    · exact hvac heq hcov
    · obtain ⟨l, p, dirty, hmeta⟩ := loaded_of_vacates hi hF heq
      have hvacant := (hF.slots.held (i := j) (k := f) (by rw [hj]; rfl)).1
      rw [hmeta] at hvacant
      cases hvacant
  · exact Or.inr ⟨i, m, Function.update_self ..⟩
  · exact Or.inl hcov

/-- A frame a step pins was pinned before, is named by a map, or was in the vacant set. -/
theorem Step.pinned_new (h : Step s q e s' q') (hf : q'.pinned = some f) :
    q.pinned = some f ∨ s.pinsThroughMap q e = some f ∨ f ∈ s.pool.vacantFrames := by
  cases h with
  | hit hfound =>
    cases hf
    exact Or.inr (Or.inl hfound)
  | take hmiss hmem =>
    cases hf
    exact Or.inr (Or.inr hmem)
  | lateHit hfound =>
    cases hf
    exact Or.inr (Or.inl hfound)
  | _ => first | exact Or.inl hf | cases hf

end Step

/-! ### Guards -/

/-- The frame a call has been given, and the call. -/
def Pc.granted : Pc → Option (Call × ℕ)
  | guard c f _ | kept c f => some (c, f)
  | _ => none

/-- **Guards cover their pages**, waiting fetches wait for the right frame, and no frame that
is being written back is pinned. -/
structure Guarded (s : Storage P β) (pc : ι → Pc) : Prop where
  entries : Entries s pc
  waiting : ∀ {j t m f}, pc j = .waiting t m f → Serving s pc t f
  granted : ∀ {j c f}, (pc j).granted = some (c, f) → c.CoveredBy (s.pool.frameMeta f)
  quiet : ∀ {j c v l p}, pc j = .writingBack c v l p → ∀ k, (pc k).pinned ≠ some v

section Guarded

variable {s s' : Storage P β} {pc : ι → Pc} {i : ι} {q q' : Pc} {e : Event β} {n f : ℕ}
  {t : Target}

omit [PageBytes β] in
/-- Nobody has pinned a frame whose page is evicted. -/
theorem Guarded.unpinned (hG : Guarded s pc) (hi : pc i = q)
    (hcount : ∀ v, q.victim = some v → s.pool.pinCounts v = 0 → ∀ j, (pc j).pinned ≠ some v)
    (hvac : s.vacates q e = some f) (k : ι) : (pc k).pinned ≠ some f := by
  unfold Storage.vacates at hvac
  split at hvac
  · split at hvac
    · split at hvac
      · next hpin =>
        cases hvac
        exact hcount _ rfl hpin k
      · cases hvac
    · cases hvac
  · cases hvac
    exact hG.quiet hi k
  · cases hvac

theorem Call.CoveredBy.step {c : Call} (h : Step s q e s' q') (hi : pc i = q)
    (hF : Frames n s pc) (hcov : c.CoveredBy (s.pool.frameMeta f))
    (hkeep : s.vacates q e ≠ some f) : c.CoveredBy (s'.pool.frameMeta f) := by
  cases c with
  | fetch t m => exact h.covers hi hF hcov hkeep
  | create l p => exact ⟨h.covers hi hF hcov.1 hkeep, h.covers hi hF hcov.2 hkeep⟩

variable [DecidableEq ι]

/-- **A step that pins no frame during its write-back keeps the guards covered.** -/
theorem Guarded.step (hG : Guarded s pc) (h : Step s q e s' q') (hi : pc i = q)
    (hF : Frames n s pc) (hok : e ≠ .disk false)
    (hgrant : ∀ f m, q.awaits = some (f, m) → Grants (fun j => (pc j).latched) f m)
    (hcount : ∀ v, q.victim = some v → s.pool.pinCounts v = 0 → ∀ j, (pc j).pinned ≠ some v)
    (hlate : ∀ g, s.pinsThroughMap q e = some g → ∀ j, (pc j).writesBack ≠ some g) :
    Guarded s' (Function.update pc i q') where
  entries := hG.entries.step h hi hF hok
  waiting {j t m f} hj := by
    have hserve : Serving s pc t f → s.vacates q e ≠ some f →
        Serving s' (Function.update pc i q') t f := h.serving hi hF hok
    by_cases hji : j = i
    · subst hji
      rw [Function.update_self] at hj
      cases h with
      | hit hfound =>
        cases hj
        exact hserve (hG.entries t f hfound) (by rintro ⟨⟩)
      | lateHit hfound =>
        cases hj
        refine hserve (hG.entries t f hfound) ?_
        rintro ⟨⟩
      | _ => cases hj
    · rw [Function.update_of_ne hji] at hj
      refine hserve (hG.waiting hj) fun hvac => ?_
      exact hG.unpinned hi hcount hvac j (by rw [hj]; rfl)
  granted {j c f} hj := by
    by_cases hji : j = i
    · subst hji
      rw [Function.update_self] at hj
      -- a fetch is granted the latch of a frame that nobody is reading into
      have hwait : ∀ {t m}, pc j = .waiting t m f →
          Grants (fun k => (pc k).latched) f m → (s.pool.frameMeta f).Covers t := by
        intro t m hj hgrant
        rcases hG.waiting hj with hcov | ⟨k, m', hk⟩
        · exact hcov
        · have hlatch : (pc k).latched = some (f, .write) := by rw [hk]; rfl
          cases (hgrant k _ hlatch).2
      cases h with
      | init =>
        cases hj
        simp only [Pool.initFrame, Pool.publish_frameMeta, Function.update_self]
        exact ⟨rfl, rfl⟩
      | load hread =>
        cases hj
        simp only [Pool.finishLoad, Pool.publish_frameMeta, Function.update_self]
        exact Disk.covers_of_read hread
      | grantWrite =>
        cases hj
        exact hwait hi (hgrant _ _ rfl)
      | grantRead =>
        cases hj
        exact hwait hi (hgrant _ _ rfl)
      | write =>
        cases hj
        exact hG.granted (j := j) (by rw [hi]; rfl)
      | markDirty =>
        cases hj
        exact (hG.granted (j := j) (by rw [hi]; rfl)).step .markDirty hi hF (by rintro ⟨⟩)
      | downgrade =>
        cases hj
        exact hG.granted (j := j) (by rw [hi]; rfl)
      | keep =>
        cases hj
        exact hG.granted (j := j) (by rw [hi]; rfl)
      | _ => cases hj
    · rw [Function.update_of_ne hji] at hj
      refine (hG.granted hj).step h hi hF fun hvac => hG.unpinned hi hcount hvac j ?_
      cases hpc : pc j <;> rw [hpc] at hj <;> cases hj <;> rfl
  quiet {j c v l p} hj k hk := by
    by_cases hji : j = i
    · subst hji
      rw [Function.update_self] at hj
      cases h with
      | victimDirty hpin hmeta =>
        cases hj
        by_cases hkj : k = j
        · subst hkj
          rw [Function.update_self] at hk
          cases hk
        · rw [Function.update_of_ne hkj] at hk
          exact hcount _ rfl hpin k hk
      | _ => cases hj
    · rw [Function.update_of_ne hji] at hj
      by_cases hki : k = i
      · subst hki
        rw [Function.update_self] at hk
        rcases h.pinned_new hk with hq | hmap | hvacant
        · rw [← hi] at hq
          exact hG.quiet hj k hq
        · exact hlate v hmap j (by rw [hj]; rfl)
        · have hmeta := hF.slots.freed hvacant
          rw [hF.written hj] at hmeta
          cases hmeta
      · rw [Function.update_of_ne hki] at hk
        exact hG.quiet hj k hk

end Guarded

/-! ### Runs -/

section Run

variable [DecidableEq ι] {n : ℕ} {d : Disk β} {σ : Sys P β ι}

/-- Every call of the disk manager succeeds, an eviction that finds the pin count of its
victim zero finds nobody pinning it, and no fetch pins a frame through a map while that frame
is being written back. -/
def Undisturbed (σ : Sys P β ι) (i : ι) (e : Event β) : Prop :=
  NoFailure σ i e ∧ CountsPins σ i e ∧ AvoidsWriteBack σ i e

omit [DecidableEq ι] [PageBytes β] in
instance [Fintype ι] (σ : Sys P β ι) (i : ι) (e : Event β) : Decidable (Undisturbed σ i e) :=
  inferInstanceAs (Decidable (_ ∧ _ ∧ _))

theorem Guarded.run (h : Sys.Run Undisturbed (.init n d) σ) :
    Frames n σ.storage σ.pc ∧ Guarded σ.storage σ.pc := by
  induction h with
  | refl =>
    refine ⟨.init d, fun t f hf => ?_, nofun, nofun, nofun⟩
    cases t <;> cases hf
  | tail _ hstep ih =>
    obtain ⟨i, e, henabled, ⟨hok, hcount, hlate⟩, hs⟩ := hstep
    obtain ⟨s', q', hst, rfl⟩ := Sys.exists_step hs
    exact ⟨ih.1.step hst rfl henabled hcount, ih.2.step hst rfl ih.1 hok henabled hcount hlate⟩

end Run

section Runs

/-- Two pages of file 0, each with its own id in its header. -/
def twoPages : Disk SmallPage where
  pageDirectory l := if l = 1 ∨ l = 2 then some ⟨0, 4096 * l⟩ else none
  page p := if p = ⟨0, 4096⟩ then some ⟨1, 0⟩ else if p = ⟨0, 8192⟩ then some ⟨2, 0⟩ else none

/-- One page is fetched for reading twice, then the other: its eviction takes the frame. -/
def twoReads : List (Bool × Event SmallPage) :=
  [(true, .call (fetchPageRead 1)), (true, .enter 0), (true, .latch), (true, .disk true),
   (true, .drop), (true, .call (fetchPageRead 1)), (true, .enter 0), (true, .latch), (true, .drop),
   (false, .call (fetchPageRead 2)), (false, .enter 0), (false, .latch), (false, .enter 0),
   (false, .latch), (false, .disk true)]

/-- The page is written, then read, and so a candidate; while a fetch of the other page writes
it back, it is fetched again. -/
def dirtyVictim : List (Bool × Event SmallPage) :=
  [(true, .call (fetchPageWrite 1)), (true, .enter 0), (true, .latch), (true, .disk true),
   (true, .markDirty), (true, .drop),
   (true, .call (fetchPageRead 1)), (true, .enter 0), (true, .latch), (true, .drop),
   (false, .call (fetchPageRead 2)), (false, .enter 0), (false, .latch),
   (true, .call (fetchPageRead 1)), (true, .enter 0),
   (false, .disk true), (false, .enter 0),
   (true, .latch)]

end Runs

end Buffer
end Abdb
