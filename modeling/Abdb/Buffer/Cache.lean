/-
# The pool as a write-back cache

The frames of a pool, seen as a write-back cache over the locations on disk
(`Storage.cache`).  While the maps name exactly the loaded frames, each operation of the pool
is the operation of the cache it is meant to be, and `flush_all_dirty` writes the dirty frames
back one by one.
-/

import Abdb.Buffer.OneFrame
import Abdb.Lib.WriteBack

namespace Abdb
namespace Buffer

open Lib

variable {P : EvictionPolicy} {β ι : Type}

/-! ### Flushing -/

namespace Storage

/-- The frames `flush_all_dirty` collects, with their locations. -/
def dirtyFrames (s : Storage P β) : List (ℕ × PPageId) :=
  (List.range s.pool.numFrames).filterMap fun f =>
    match s.pool.frameMeta f with
    | .loaded _ p true => some (f, p)
    | _ => none

/-- One turn of the flush: if the frame is still dirty with this page, write it to the disk
and mark it clean. -/
def flushFrame (s : Storage P β) (x : ℕ × PPageId) : Storage P β :=
  match s.pool.frameMeta x.1 with
  | .loaded l p true =>
    if p = x.2 then
      ⟨{ s.pool with frameMeta := Function.update s.pool.frameMeta x.1 (.loaded l p false) },
        s.disk.writePageAtLoc p (s.pool.buf x.1)⟩
    else s
  | _ => s

/-- `flush_all_dirty`, with no disk failure and no other call meanwhile. -/
def flushAllDirty (s : Storage P β) : Storage P β := s.dirtyFrames.foldl flushFrame s

/-- The cache that the pool is: of every location, the bytes in its frame. -/
def cache (s : Storage P β) : WriteBack PPageId β where
  frame p :=
    match s.pool.framePpageIdMap p with
    | some f =>
      match s.pool.frameMeta f with
      | .loaded _ _ dirty => some (s.pool.buf f, dirty)
      | .vacant => none
    | none => none
  disk := s.disk.page

end Storage

/-- The maps name the frames that are loaded or being read into, and no others. -/
structure Mapped (n : ℕ) (s : Storage P β) (pc : ι → Pc) : Prop where
  frames : Frames n s pc
  entries : Entries s pc
  named : Named s pc

section

variable {n : ℕ} {s s' : Storage P β} {pc pc' : ι → Pc} {p : PPageId} {b : β} {dirty : Bool}

theorem Mapped.oneFrame (hM : Mapped n s pc) : s.pool.OneFrame :=
  Named.oneFrame (σ := ⟨s, pc⟩) hM.named

/-- **What is in the cache is what is in a frame.** -/
theorem Mapped.cache_frame (hM : Mapped n s pc) : s.cache.frame p = some (b, dirty) ↔
    ∃ f l, s.pool.frameMeta f = .loaded l p dirty ∧ s.pool.buf f = b := by
  constructor
  · intro h
    unfold Storage.cache at h
    dsimp only at h
    split at h
    · next f hf =>
      split at h
      · next l p' d hmeta =>
        obtain ⟨rfl, rfl⟩ := Prod.mk.inj (Option.some.inj h)
        rcases hM.entries (.loc p) f hf with hcov | ⟨j, m, hj⟩
        · rw [hmeta] at hcov
          cases hcov
          exact ⟨f, l, hmeta, rfl⟩
        · exact absurd hj (hM.frames.not_reading (t := .id l) (by rw [hmeta]; rfl))
      · cases h
    · cases h
  · rintro ⟨f, l, hmeta, rfl⟩
    have hf : s.pool.framePpageIdMap p = some f := hM.named (.loc p) f (Or.inl (by rw [hmeta]; rfl))
    simp only [Storage.cache, hf, hmeta]

/-- A location nothing is loaded from is not in the cache. -/
theorem Mapped.cache_frame_eq_none (hM : Mapped n s pc)
    (h : ∀ f, ¬ (s.pool.frameMeta f).Covers (.loc p)) : s.cache.frame p = none := by
  rcases hp : s.cache.frame p with _ | ⟨b, d⟩
  · rfl
  · obtain ⟨f, l, hmeta, -⟩ := hM.cache_frame.1 hp
    exact absurd (show (s.pool.frameMeta f).Covers (.loc p) by rw [hmeta]; rfl) (h f)

/-- Nor is one the maps do not name. -/
theorem Mapped.cache_frame_of_lookup (hM : Mapped n s pc) (h : s.pool.lookup (.loc p) = none) :
    s.cache.frame p = none := by
  refine hM.cache_frame_eq_none fun f hcov => ?_
  rw [hM.named _ f (Or.inl hcov)] at h
  cases h

/-- Nor is one that a task is reading. -/
theorem Mapped.cache_frame_of_reading (hM : Mapped n s pc) {j : ι} {m : Access} {f : ℕ}
    (hj : pc j = .reading (.loc p) m f) : s.cache.frame p = none := by
  refine hM.cache_frame_eq_none fun g hcov => ?_
  have hg := hM.named _ g (Or.inl hcov)
  rw [hM.named _ f (Or.inr ⟨j, m, hj⟩)] at hg
  cases hg
  exact hM.frames.not_reading hcov hj

theorem Mapped.isDirty (hM : Mapped n s pc) {f : ℕ} {l : LPageId}
    (hf : s.pool.frameMeta f = .loaded l p dirty) : s.cache.isDirty p = dirty := by
  rw [WriteBack.isDirty, hM.cache_frame.2 ⟨f, l, hf, rfl⟩]
  rfl

/-- **A change of one frame is a change of one location.** -/
theorem Mapped.cache_update (hM : Mapped n s pc) (hM' : Mapped n s' pc') (f₀ : ℕ)
    (hother : ∀ f, f ≠ f₀ →
      s'.pool.frameMeta f = s.pool.frameMeta f ∧ s'.pool.buf f = s.pool.buf f)
    (hbefore : s.pool.frameMeta f₀ = .vacant ∨ ∃ l d, s.pool.frameMeta f₀ = .loaded l p d)
    {x : Option (β × Bool)}
    (hafter : (x = none ∧ s'.pool.frameMeta f₀ = .vacant ∧ s.pool.frameMeta f₀ ≠ .vacant) ∨
      ∃ b d l, x = some (b, d) ∧ s'.pool.frameMeta f₀ = .loaded l p d ∧ s'.pool.buf f₀ = b) :
    s'.cache.frame = Function.update s.cache.frame p x := by
  funext p'
  refine Option.ext fun ⟨b, d⟩ => ?_
  by_cases hp : p' = p
  · subst hp
    rw [Function.update_self, hM'.cache_frame]
    rcases hafter with ⟨rfl, hv, hne⟩ | ⟨b', d', l', rfl, hmeta, hbuf⟩
    · refine iff_of_false ?_ nofun
      rintro ⟨f, l, hf, -⟩
      obtain ⟨l₀, d₀, hf₀⟩ := hbefore.resolve_left hne
      by_cases hff : f = f₀
      · rw [hff, hv] at hf
        cases hf
      · rw [(hother f hff).1] at hf
        exact hff (hM.oneFrame _ _ _ _ _ _ _ hf hf₀)
    · constructor
      · rintro ⟨f, l, hf, rfl⟩
        obtain rfl := hM'.oneFrame _ _ _ _ _ _ _ hf hmeta
        rw [hmeta] at hf
        cases hf
        rw [hbuf]
      · intro h
        cases h
        exact ⟨f₀, l', hmeta, hbuf⟩
  · have hne : ∀ {l d}, s.pool.frameMeta f₀ ≠ .loaded l p' d := by
      intro l d h
      rcases hbefore with h' | ⟨l', d', h'⟩ <;> rw [h'] at h <;> cases h
      exact hp rfl
    have hne' : ∀ {l d}, s'.pool.frameMeta f₀ ≠ .loaded l p' d := by
      intro l d h
      rcases hafter with ⟨-, h', -⟩ | ⟨-, d', l', -, h', -⟩ <;> rw [h'] at h <;> cases h
      exact hp rfl
    rw [Function.update_of_ne hp, hM'.cache_frame, hM.cache_frame]
    constructor
    · rintro ⟨f, l, hf, hb⟩
      have hff : f ≠ f₀ := fun heq => hne' (heq ▸ hf)
      rw [(hother f hff).1] at hf
      rw [(hother f hff).2] at hb
      exact ⟨f, l, hf, hb⟩
    · rintro ⟨f, l, hf, hb⟩
      have hff : f ≠ f₀ := fun heq => hne (heq ▸ hf)
      refine ⟨f, l, ?_, ?_⟩
      · rw [(hother f hff).1]
        exact hf
      · rw [(hother f hff).2]
        exact hb

/-- Nothing in the frames has changed. -/
theorem Mapped.cache_congr (hM : Mapped n s pc) (hM' : Mapped n s' pc')
    (hmeta : s'.pool.frameMeta = s.pool.frameMeta) (hbuf : s'.pool.buf = s.pool.buf) :
    s'.cache.frame = s.cache.frame := by
  funext p
  refine Option.ext fun ⟨b, d⟩ => ?_
  rw [hM'.cache_frame, hM.cache_frame, hmeta, hbuf]

end

end Buffer
end Abdb
