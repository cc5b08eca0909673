/-
# One frame per page

A fetch publishes its frame in the map it looked into, and checks that map again before; but
the other map, and both in `new_page`, it overwrites without a check.  In a run in which
every entry so inserted was free (`NoOverwrite`), the maps name every loaded frame and every
frame being read into (`Named.run`), so no page is in two frames (`one_frame_per_page`).
A fetch by id and a fetch by location of one page, at the same time, load it twice
(`page_twice`).
-/

import Abdb.Buffer.Coverage

namespace Abdb
namespace Buffer

open Lib

variable {P : EvictionPolicy} {β ι : Type} [PageBytes β]

/-- The map entries a step inserts without looking for an earlier one. -/
def Storage.insertsUnchecked (s : Storage P β) : Pc → Event β → List Target
  | .reading t _ _, .disk true => (s.disk.read t).toList.map fun x => t.other x.1 x.2.1
  | .reserved (.create l p) _, .latch => [.id l, .loc p]
  | _, _ => []

/-- The step overwrites no map entry. -/
def NoOverwrite (σ : Sys P β ι) (i : ι) (e : Event β) : Prop :=
  ∀ t ∈ σ.storage.insertsUnchecked (σ.pc i) e, σ.storage.pool.lookup t = none

instance (σ : Sys P β ι) (i : ι) (e : Event β) : Decidable (NoOverwrite σ i e) :=
  inferInstanceAs (Decidable (∀ t ∈ σ.storage.insertsUnchecked (σ.pc i) e,
    σ.storage.pool.lookup t = none))

/-- The maps name every frame that serves a page. -/
def Named (s : Storage P β) (pc : ι → Pc) : Prop :=
  ∀ t f, Serving s pc t f → s.pool.lookup t = some f

section Step

variable {s s' : Storage P β} {pc : ι → Pc} {i : ι} {q q' : Pc} {e : Event β} {n f : ℕ}
  {t : Target}

omit [PageBytes β] in
/-- A frame that is loaded is not being read into. -/
theorem Frames.not_reading (hF : Frames n s pc) (hcov : (s.pool.frameMeta f).Covers t) {j : ι}
    {t' : Target} {m : Access} : pc j ≠ .reading t' m f := by
  intro hj
  have hvacant := (hF.slots.held (i := j) (k := f) (by rw [hj]; rfl)).1
  rw [hvacant] at hcov
  exact hcov

variable [DecidableEq ι]

omit [PageBytes β] in
/-- A frame serves a page after a step of a task that does not end up reading it: the
metadata says so, or another task is reading it. -/
theorem serving_update (h : Serving s' (Function.update pc i q') t f)
    (hq : ∀ m, q' ≠ .reading t m f) :
    (s'.pool.frameMeta f).Covers t ∨ ∃ j m, j ≠ i ∧ pc j = .reading t m f := by
  refine h.imp_right fun ⟨j, m, hj⟩ => ?_
  by_cases hji : j = i
  · subst hji
    rw [Function.update_self] at hj
    exact absurd hj (hq m)
  · rw [Function.update_of_ne hji] at hj
    exact ⟨j, m, hji, hj⟩

/-- **A step that overwrites no entry keeps every serving frame named.** -/
theorem Named.step (hN : Named s pc) (h : Step s q e s' q') (hi : pc i = q)
    (hF : Frames n s pc) (hfree : ∀ t ∈ s.insertsUnchecked q e, s.pool.lookup t = none) :
    Named s' (Function.update pc i q') := by
  intro t f hserve
  -- an evicted page is named by its frame's entries alone
  have hremove : ∀ {v l p dirty}, s.pool.frameMeta v = .loaded l p dirty →
      (∀ m, q' ≠ .reading t m f) → s'.pool = s.pool.removeVictim v l p →
      s'.pool.lookup t = some f := by
    intro v l p dirty hv hq hs
    have hold : s.pool.lookup t = some f ∧ f ≠ v := by
      rcases serving_update hserve hq with hcov | ⟨j, m, -, hj⟩
      · rw [hs, Pool.removeVictim_frameMeta] at hcov
        by_cases hfv : f = v
        · subst hfv
          rw [Function.update_self] at hcov
          exact absurd hcov id
        · rw [Function.update_of_ne hfv] at hcov
          exact ⟨hN t f (Or.inl hcov), hfv⟩
      · refine ⟨hN t f (Or.inr ⟨j, m, hj⟩), ?_⟩
        rintro rfl
        exact hF.not_reading (t := .id l) (by rw [hv]; rfl) hj
    rw [hs, Pool.lookup_removeVictim]
    split
    · next ht =>
      have hvt : (s.pool.frameMeta v).Covers t := by
        rw [hv]
        exact FrameMeta.covers_loaded.2 ht
      rw [hN t v (Or.inl hvt)] at hold
      exact absurd (Option.some.inj hold.1).symm hold.2
    · exact hold.1
  cases h with
  | victimClean hpin hmeta => exact hremove hmeta (by rintro _ ⟨⟩) rfl
  | writtenBack => exact hremove (hF.written hi) (by rintro _ ⟨⟩) rfl
  | @publish t₀ m f₀ hmiss =>
    rw [Pool.lookup_publish]
    by_cases hreader : t = t₀ ∧ f = f₀
    · rw [if_pos hreader.1, hreader.2]
    · have hold : s.pool.lookup t = some f := by
        refine hN t f ?_
        rcases hserve with hcov | ⟨j, m', hj⟩
        · rw [Pool.publish_frameMeta] at hcov
          exact Or.inl hcov
        · by_cases hji : j = i
          · subst hji
            rw [Function.update_self] at hj
            cases hj
            exact absurd ⟨rfl, rfl⟩ hreader
          · rw [Function.update_of_ne hji] at hj
            exact Or.inr ⟨j, m', hj⟩
      rw [if_neg, hold]
      rintro rfl
      rw [hmiss] at hold
      cases hold
  | @init l p f₀ =>
    have hnone : ∀ t', t' = .id l ∨ t' = .loc p → s.pool.lookup t' = none := by
      rintro t' (rfl | rfl)
      · exact hfree _ (List.mem_cons_self ..)
      · exact hfree _ (List.mem_cons_of_mem _ (List.mem_cons_self ..))
    have hold : f ≠ f₀ → s.pool.lookup t = some f := by
      intro hf
      refine hN t f ?_
      rcases serving_update hserve (by rintro _ ⟨⟩) with hcov | ⟨j, m, -, hj⟩
      · simp only [Pool.initFrame, Pool.publish_frameMeta, Function.update_of_ne hf] at hcov
        exact Or.inl hcov
      · exact Or.inr ⟨j, m, hj⟩
    rw [Pool.lookup_initFrame]
    split
    · next ht =>
      by_cases hf : f = f₀
      · rw [hf]
      · have := hold hf
        rw [hnone t ht] at this
        cases this
    · next ht =>
      refine hold ?_
      rintro rfl
      rcases serving_update hserve (by rintro _ ⟨⟩) with hcov | ⟨j, m, hji, hj⟩
      · simp only [Pool.initFrame, Pool.publish_frameMeta, Function.update_self] at hcov
        exact ht (FrameMeta.covers_loaded.1 hcov)
      · exact hji (hF.slots.owner (i := j) (k := f) (by rw [hj]; rfl) (by rw [hi]; rfl))
  | @load t₀ m f₀ l p b hread =>
    have hnone : s.pool.lookup (t₀.other l p) = none := by
      refine hfree _ ?_
      simp [Storage.insertsUnchecked, hread]
    have hold : f ≠ f₀ → s.pool.lookup t = some f := by
      intro hf
      refine hN t f ?_
      rcases serving_update hserve (by rintro _ ⟨⟩) with hcov | ⟨j, m', -, hj⟩
      · simp only [Pool.finishLoad, Pool.publish_frameMeta, Function.update_of_ne hf] at hcov
        exact Or.inl hcov
      · exact Or.inr ⟨j, m', hj⟩
    rw [Pool.lookup_finishLoad]
    split
    · next ht =>
      by_cases hf : f = f₀
      · rw [hf]
      · have := hold hf
        rw [ht, hnone] at this
        cases this
    · next ht =>
      by_cases hf : f = f₀
      · -- the page read: of its two ids, this is the one asked for
        subst hf
        have htarget : t = t₀ := by
          rcases serving_update hserve (by rintro _ ⟨⟩) with hcov | ⟨j, m', hji, hj⟩
          · simp only [Pool.finishLoad, Pool.publish_frameMeta, Function.update_self] at hcov
            have hcov₀ := FrameMeta.covers_loaded.1 (Disk.covers_of_read (e := false) hread)
            have hcov := FrameMeta.covers_loaded.1 hcov
            cases t₀ <;> simp_all [Target.other]
          · exact absurd (hF.slots.owner (i := j) (k := f) (by rw [hj]; rfl) (by rw [hi]; rfl)) hji
        rw [htarget]
        exact hN t₀ f (Or.inr ⟨i, m, hi⟩)
      · exact hold hf
  | markDirty =>
    rw [Pool.lookup_markFrameDirty]
    refine hN t f ((serving_update hserve (by rintro _ ⟨⟩)).imp Pool.covers_markFrameDirty.1 ?_)
    rintro ⟨j, m, -, hj⟩
    exact ⟨j, m, hj⟩
  | victimVacant hlt hpin hmeta =>
    have hold := hN t f ((serving_update hserve (by rintro _ ⟨⟩)).imp id
      (.imp fun _ => .imp fun _ => And.right))
    cases t <;> exact hold
  | _ =>
    have hold := hN t f ((serving_update hserve (by rintro _ ⟨⟩)).imp id
      (.imp fun _ => .imp fun _ => And.right))
    simpa using hold

end Step

/-! ### Runs -/

/-- Every call of the disk manager succeeds, an eviction that finds the pin count of its
victim zero finds nobody pinning it, and no map entry is overwritten. -/
def Unclashing (σ : Sys P β ι) (i : ι) (e : Event β) : Prop :=
  NoFailure σ i e ∧ CountsPins σ i e ∧ NoOverwrite σ i e

instance [Fintype ι] (σ : Sys P β ι) (i : ι) (e : Event β) : Decidable (Unclashing σ i e) :=
  inferInstanceAs (Decidable (_ ∧ _ ∧ _))

/-- No two frames are loaded with one location. -/
def Pool.OneFrame (s : Pool P β) : Prop :=
  ∀ f f' l l' p d d', s.frameMeta f = .loaded l p d → s.frameMeta f' = .loaded l' p d' → f = f'

section Run

variable [DecidableEq ι] {n : ℕ} {d : Disk β} {σ : Sys P β ι}

theorem Named.run (h : Sys.Run Unclashing (.init n d) σ) :
    Frames n σ.storage σ.pc ∧ Entries σ.storage σ.pc ∧ Named σ.storage σ.pc := by
  induction h with
  | refl =>
    refine ⟨.init d, fun t f hf => ?_, fun t f hserve => ?_⟩
    · cases t <;> cases hf
    · rcases hserve with hcov | ⟨j, m, hj⟩
      · exact absurd hcov id
      · cases hj
  | tail _ hstep ih =>
    obtain ⟨i, e, henabled, ⟨hok, hcount, hfree⟩, hs⟩ := hstep
    obtain ⟨s', q', hst, rfl⟩ := Sys.exists_step hs
    obtain ⟨hF, hE, hN⟩ := ih
    exact ⟨hF.step hst rfl henabled hcount, hE.step hst rfl hF hok, hN.step hst rfl hF hfree⟩

omit [PageBytes β] [DecidableEq ι] in
theorem Named.oneFrame (hN : Named σ.storage σ.pc) : σ.storage.pool.OneFrame := by
  intro f f' l l' p d d' hf hf'
  have h : σ.storage.pool.lookup (.loc p) = some f := hN _ _ (Or.inl (by rw [hf]; rfl))
  have h' : σ.storage.pool.lookup (.loc p) = some f' := hN _ _ (Or.inl (by rw [hf']; rfl))
  rw [h] at h'
  exact Option.some.inj h'

end Run

/-! ### Two fetches of one page -/

/-- Every page the directory places stores its own logical id. -/
def Disk.StoresOwnIds (d : Disk β) : Prop :=
  ∀ l p b, d.pageDirectory l = some p → d.page p = some b → PageBytes.pageId b = l

/-- The step writes a page back or allocates one. -/
def Pc.changesDisk : Pc → Event β → Bool
  | .writingBack .., .disk true => true
  | .idle, .call (.create ..) => true
  | _, _ => false

theorem Step.disk {s s' : Storage P β} {q q' : Pc} {e : Event β} (h : Step s q e s' q')
    (hq : q.changesDisk e = false) : s'.disk = s.disk := by
  cases h <;> first | rfl | cases hq

/-- A run that leaves the disk as it is. -/
theorem Sys.Run.storesOwnIds [DecidableEq ι] {σ₀ σ : Sys P β ι}
    (h : Sys.Run (fun σ i e => NoFailure σ i e ∧ (σ.pc i).changesDisk e = false) σ₀ σ)
    (hd : σ₀.storage.disk.StoresOwnIds) :
    Sys.Run (fun σ i e => NoFailure σ i e ∧ σ.storage.disk.StoresOwnIds) σ₀ σ ∧
      σ.storage.disk.StoresOwnIds := by
  induction h with
  | refl => exact ⟨.refl, hd⟩
  | tail _ hstep ih =>
    obtain ⟨i, e, henabled, ⟨hok, hq⟩, hs⟩ := hstep
    refine ⟨ih.1.tail ⟨i, e, henabled, ⟨hok, ih.2⟩, hs⟩, ?_⟩
    obtain ⟨s', q', hst, rfl⟩ := Sys.exists_step hs
    rw [show (Sys.mk s' _ : Sys P β ι).storage.disk = _ from hst.disk hq]
    exact ih.2

theorem twoPages_storesOwnIds : twoPages.StoresOwnIds := by
  intro l p b hl hp
  unfold twoPages at hl hp
  dsimp only at hl hp
  split at hl
  · next h =>
    cases hl
    rcases h with rfl | rfl <;> cases hp <;> rfl
  · cases hl

/-- Page 1 is fetched by id and, before it has been read, by location. -/
def bothWays : List (Bool × Event SmallPage) :=
  [(true, .call (fetchPageWrite 1)), (true, .enter 0), (true, .latch),
   (false, .call (fetchPageAtLocWrite ⟨0, 4096⟩)), (false, .enter 1), (false, .latch),
   (true, .disk true), (false, .disk true)]

end Buffer
end Abdb
