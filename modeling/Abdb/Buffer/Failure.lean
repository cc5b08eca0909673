/-
# Failed fetches

A fetch that fails because it can get no frame leaves the pool as it was.  One that fails
because its page cannot be read does not: the frame stays pinned, published in the map and
out of the vacant set.  `fetch_undone_iff` says which failing fetches are which;
`fetch_not_undone` is one of the second kind.
-/

import Abdb.Buffer.LruK
import Abdb.Buffer.Coverage

namespace Abdb
namespace Buffer

open Lib

variable {P : EvictionPolicy} {β ι : Type} [PageBytes β]

/-- Which pages the disk manager can read and which locations it can write, during a call. -/
structure Faults where
  canRead : Target → Bool
  canWrite : PPageId → Bool

/-- Whether the disk call that a task waits for succeeds. -/
def Faults.answer (F : Faults) : Pc → Option Bool
  | .reading t _ _ => some (F.canRead t)
  | .writingBack _ _ _ p => some (F.canWrite p)
  | _ => none

/-- Whether the disk manager returned without an error, if it returned. -/
def Event.outcome : Event β → Option Bool
  | .disk ok => some ok
  | _ => none

/-- The disk manager answers accordingly. -/
def Faults.Answers (F : Faults) (q : Pc) (e : Event β) : Prop :=
  ∀ ok, e.outcome = some ok → F.answer q = some ok

/-- Task `i` goes on with its call, with no other task running. -/
def Alone (F : Faults) (i : ι) (σ : Sys P β ι) (j : ι) (e : Event β) : Prop :=
  j = i ∧ (σ.pc i).running = true ∧ F.Answers (σ.pc i) e

/-- What a failed call may leave behind: completed evictions, and nothing else. -/
structure Pool.Undone (s s' : Pool P β) : Prop where
  residence : ∀ f, s'.frameMeta f = s.frameMeta f ∨ s'.frameMeta f = .vacant
  maps : ∀ t f, s'.lookup t = some f → s.lookup t = some f
  pins : s'.pinCounts = s.pinCounts
  vacant : s.vacantFrames ⊆ s'.vacantFrames

/-- No frame can be had: none is vacant, and the policy names no victim, or an unpinned dirty
one that cannot be written back. -/
def Pool.NoFrame (s : Pool P β) (F : Faults) : Prop :=
  s.vacantFrames = ∅ ∧ (P.findVictim s.evictionPolicy = none ∨
    ∃ v l p, P.findVictim s.evictionPolicy = some v ∧ s.pinCounts v = 0 ∧
      s.frameMeta v = .loaded l p true ∧ F.canWrite p = false)

/-- How far a fetch alone has come, from the state it started in. -/
def Progress (F : Faults) (s₀ s : Storage P β) (t : Target) : Pc → Prop
  | .loop c => (∃ m, c = .fetch t m) ∧ (s = s₀ ∨
      ¬ s₀.pool.NoFrame F ∧ s.pool.vacantFrames ≠ ∅ ∧ s₀.pool.lookup t = none)
  | .evicting c v => (∃ m, c = .fetch t m) ∧ s = s₀ ∧ s₀.pool.lookup t = none ∧
      s₀.pool.vacantFrames = ∅ ∧ P.findVictim s₀.pool.evictionPolicy = some v
  | .writingBack c v l p => (∃ m, c = .fetch t m) ∧ s = s₀ ∧ s₀.pool.lookup t = none ∧
      s₀.pool.vacantFrames = ∅ ∧ P.findVictim s₀.pool.evictionPolicy = some v ∧
      s₀.pool.pinCounts v = 0 ∧ s₀.pool.frameMeta v = .loaded l p true
  | .reserved c _ => (∃ m, c = .fetch t m) ∧ ¬ s₀.pool.NoFrame F ∧ s₀.pool.lookup t = none
  | .reading t' _ f => t' = t ∧ ¬ s₀.pool.NoFrame F ∧ s₀.pool.lookup t = none ∧
      s.pool.lookup t = some f
  | .failed _ none => s = s₀ ∧ s₀.pool.NoFrame F
  | .failed _ (some f) => F.canRead t = false ∧ ¬ s₀.pool.NoFrame F ∧ s₀.pool.lookup t = none ∧
      s.pool.lookup t = some f
  | _ => True

variable {F : Faults} {s₀ s s' : Storage P β} {t : Target} {q q' : Pc} {e : Event β}

omit [PageBytes β] in
/-- A victim that is not both dirty and unwritable makes room. -/
theorem Pool.not_noFrame {v : ℕ} (hv : P.findVictim s.pool.evictionPolicy = some v)
    (h : ∀ l p, s.pool.frameMeta v = .loaded l p true → F.canWrite p = true) :
    ¬ s.pool.NoFrame F := by
  rintro ⟨-, hnone | ⟨v', l, p, hv', -, hmeta, hw⟩⟩
  · rw [hv] at hnone
    cases hnone
  · rw [hv] at hv'
    cases hv'
    rw [h l p hmeta] at hw
    cases hw

theorem Progress.step (hP : Progress F s₀ s t q) (h : Step s q e s' q') (hrun : q.running = true)
    (hF : F.Answers q e) : Progress F s₀ s' t q' := by
  cases h with
  | callFetch => cases hrun
  | callCreate => cases hrun
  | hit => exact trivial
  | take hmiss hf =>
    obtain ⟨⟨m, rfl⟩, rfl | ⟨hno, -, hlook⟩⟩ := hP
    · exact ⟨⟨m, rfl⟩, fun hno => (Finset.ne_empty_of_mem hf) hno.1, hmiss⟩
    · exact ⟨⟨m, rfl⟩, hno, hlook⟩
  | victim hmiss hfull hv =>
    obtain ⟨⟨m, rfl⟩, rfl | ⟨-, hne, -⟩⟩ := hP
    · exact ⟨⟨m, rfl⟩, rfl, hmiss, hfull, hv⟩
    · exact absurd hfull hne
  | noVictim hmiss hfull hv =>
    obtain ⟨⟨m, rfl⟩, rfl | ⟨-, hne, -⟩⟩ := hP
    · exact ⟨rfl, hfull, Or.inl hv⟩
    · exact absurd hfull hne
  | nextVictim hpin hv =>
    obtain ⟨hc, rfl, hlook, hfull, -⟩ := hP
    exact ⟨hc, rfl, hlook, hfull, hv⟩
  | noNextVictim hpin hv =>
    obtain ⟨-, rfl, -, hfull, -⟩ := hP
    exact ⟨rfl, hfull, Or.inl hv⟩
  | victimVacant hlt hpin hmeta =>
    obtain ⟨hc, rfl, hlook, -, hv⟩ := hP
    refine ⟨hc, Or.inr ⟨Pool.not_noFrame hv ?_, (Finset.insert_nonempty ..).ne_empty, hlook⟩⟩
    intro l p h
    rw [hmeta] at h
    cases h
  | victimClean hpin hmeta =>
    obtain ⟨hc, rfl, hlook, -, hv⟩ := hP
    refine ⟨hc, Or.inr ⟨Pool.not_noFrame hv ?_, (Finset.insert_nonempty ..).ne_empty, hlook⟩⟩
    intro l p h
    rw [hmeta] at h
    cases h
  | victimDirty hpin hmeta =>
    obtain ⟨hc, rfl, hlook, hfull, hv⟩ := hP
    exact ⟨hc, rfl, hlook, hfull, hv, hpin, hmeta⟩
  | writtenBack =>
    obtain ⟨hc, rfl, hlook, -, hv, -, hmeta⟩ := hP
    refine ⟨hc, Or.inr ⟨Pool.not_noFrame hv ?_, (Finset.insert_nonempty ..).ne_empty, hlook⟩⟩
    intro l p h
    rw [hmeta] at h
    cases h
    exact Option.some.inj (hF true rfl)
  | writeFailed =>
    obtain ⟨-, rfl, -, hfull, hv, hpin, hmeta⟩ := hP
    exact ⟨rfl, hfull, Or.inr ⟨_, _, _, hv, hpin, hmeta, Option.some.inj (hF false rfl)⟩⟩
  | lateHit => exact trivial
  | publish hmiss =>
    obtain ⟨⟨m, hc⟩, hno, hlook⟩ := hP
    cases hc
    exact ⟨rfl, hno, hlook, by rw [Pool.lookup_publish, if_pos rfl]⟩
  | readFailed =>
    obtain ⟨rfl, hno, hlook, hfound⟩ := hP
    exact ⟨Option.some.inj (hF false rfl), hno, hlook, hfound⟩
  | _ => exact trivial

variable [DecidableEq ι] {σ σ' : Sys P β ι} {i : ι} {m : Access} {err : Error} {g : Option ℕ}

theorem Progress.run (hi : σ.pc i = .loop (.fetch t m)) (h : Sys.Run (Alone F i) σ σ') :
    Progress F σ.storage σ'.storage t (σ'.pc i) := by
  induction h with
  | refl =>
    rw [hi]
    exact ⟨⟨m, rfl⟩, Or.inl rfl⟩
  | tail _ hstep ih =>
    obtain ⟨j, e, -, ⟨rfl, hrunning, hF⟩, hs⟩ := hstep
    obtain ⟨s', q', hst, rfl⟩ := Sys.exists_step hs
    rw [show (Sys.mk s' _ : Sys P β ι).pc j = q' from Function.update_self ..]
    exact ih.step hst hrunning hF

/-- **Which failed fetches leave the pool as it was**: those of a page that can be read, and
those that find no frame. -/
theorem fetch_undone_iff (hi : σ.pc i = .loop (.fetch t m)) (h : Sys.Run (Alone F i) σ σ')
    (hfail : σ'.pc i = .failed err g) :
    σ.storage.pool.Undone σ'.storage.pool ↔ F.canRead t = true ∨ σ.storage.pool.NoFrame F := by
  have hP := Progress.run hi h
  rw [hfail] at hP
  cases g with
  | none =>
    obtain ⟨hsame, hno⟩ := hP
    rw [hsame]
    exact iff_of_true ⟨fun f => Or.inl rfl, fun t f hf => hf, rfl, Finset.Subset.refl _⟩ (Or.inr hno)
  | some f =>
    obtain ⟨hread, hno, hlook, hfound⟩ := hP
    refine iff_of_false (fun hundone => ?_) ?_
    · have := hundone.maps t f hfound
      rw [hlook] at this
      cases this
    · rintro (h | h)
      · rw [hread] at h
        cases h
      · exact hno h

omit [PageBytes β] in
instance (F : Faults) (i : ι) (σ : Sys P β ι) (j : ι) (e : Event β) : Decidable (Alone F i σ j e) :=
  inferInstanceAs (Decidable (j = i ∧ (σ.pc i).running = true ∧
    ∀ ok ∈ e.outcome, F.answer (σ.pc i) = some ok))

/-- A disk that can be written but not read. -/
def unreadable : Faults := ⟨fun _ => false, fun _ => true⟩

/-- An empty pool, with a fetch of page 1 begun. -/
def fetching (n : ℕ) : Sys (lruK 2) SmallPage Unit :=
  ⟨⟨.new n, twoPages⟩, fun _ => .loop (fetchPageRead 1)⟩

/-- A pool without frames. -/
theorem fetch_undone_iff_none : ∃ σ' : Sys (lruK 2) SmallPage Unit,
    σ'.pc () = .failed .noVictimFound none ∧ (fetching 0).storage.pool.Undone σ'.storage.pool := by
  have hlegal : Sys.Legal (Alone unreadable ()) (fetching 0) [((), .enter 0)] := by decide
  have hfail : (Sys.fire (fetching 0) ((), .enter 0)).pc () = .failed .noVictimFound none := by decide
  exact ⟨_, hfail, (fetch_undone_iff rfl hlegal.run hfail).2
    (Or.inr ⟨by decide, Or.inl (by decide)⟩)⟩

theorem fetch_not_undone : ¬ ∀ (P : EvictionPolicy) (F : Faults) (σ σ' : Sys P SmallPage Unit)
    (t : Target) (m : Access) (err : Error) (g : Option ℕ),
    σ.pc () = .loop (.fetch t m) → Sys.Run (Alone F ()) σ σ' → σ'.pc () = .failed err g →
    σ.storage.pool.Undone σ'.storage.pool := by
  intro h
  have hlegal : Sys.Legal (Alone unreadable ()) (fetching 1)
      [((), .enter 0), ((), .latch), ((), .disk false)] := by decide
  have hundone := h _ _ _ _ _ _ .storageError (some 0) rfl hlegal.run (by decide)
  exact absurd (hundone.maps (.id 1) 0 (by decide)) (by decide)

end Buffer
end Abdb
