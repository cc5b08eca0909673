/-
# Calls of the buffer pool

The async functions of the pool as a machine: the states of a call are the points where it
awaits a latch or the disk, and `advance` is the code from one such point to the next.
The four fetches are one function of what they ask for and how they latch it (`Call.fetch`);
`new_page` is `Call.create`, with the ids the disk manager hands out.  A call that returned a
guard goes on as that guard until it is dropped, and `load_page_as_unevictable` ends a read
fetch by `keep`, which pins the frame once more and drops the guard.

In a `Sys` any number of such calls and guards share one pool; a step of one of them needs
the latch it waits for.  `Step` lists everything a step can do.
-/

import Mathlib.Logic.Relation
import Abdb.Buffer.Pool

namespace Abdb
namespace Buffer

open Lib

/-- A call of the pool that returns a guard. -/
inductive Call
  | fetch (t : Target) (m : Access)
  | create (l : LPageId) (p : PPageId)
deriving DecidableEq, Repr

/-- `fetch_page_write` -/
def fetchPageWrite (pageId : LPageId) : Call := .fetch (.id pageId) .write

/-- `fetch_page_read` -/
def fetchPageRead (pageId : LPageId) : Call := .fetch (.id pageId) .read

/-- `fetch_page_at_loc_write` -/
def fetchPageAtLocWrite (loc : PPageId) : Call := .fetch (.loc loc) .write

/-- `fetch_page_at_loc_read` -/
def fetchPageAtLocRead (loc : PPageId) : Call := .fetch (.loc loc) .read

/-- `buffer::Error`, as far as a call returns it. -/
inductive Error
  /-- `EvictorError(NoVictimFound)` -/
  | noVictimFound
  | storageError
deriving DecidableEq, Repr

/-- Where a call is. -/
inductive Pc
  | idle
  /-- at the head of the loop for a frame -/
  | loop (c : Call)
  /-- in `evict`, waiting for the victim's latch -/
  | evicting (c : Call) (v : ℕ)
  /-- in `evict`, holding the victim's latch while its page is written back -/
  | writingBack (c : Call) (v : ℕ) (l : LPageId) (p : PPageId)
  /-- a vacant frame is taken and pinned; waiting for its latch -/
  | reserved (c : Call) (f : ℕ)
  /-- the frame is published and latched while its page is read -/
  | reading (t : Target) (m : Access) (f : ℕ)
  /-- the page was found in a map and its frame pinned; waiting for the latch -/
  | waiting (t : Target) (m : Access) (f : ℕ)
  /-- returned with a guard over a frame -/
  | guard (c : Call) (f : ℕ) (m : Access)
  /-- `load_page_as_unevictable` has returned -/
  | kept (c : Call) (f : ℕ)
  /-- returned an error; a frame that was being read stays pinned -/
  | failed (e : Error) (f : Option ℕ)
deriving DecidableEq, Repr

/-- What makes a call go on: the caller, an arriving latch, or the disk. -/
inductive Event (β : Type)
  | call (c : Call)
  /-- the loop body runs; `f` is the frame the vacant set yields, if it is asked -/
  | enter (f : ℕ)
  | latch
  /-- the disk manager returns, with or without an error -/
  | disk (ok : Bool)
  | write (b : β)
  | markDirty
  | downgrade
  | drop
  | keep

/-- The pool and the disk below it. -/
structure Storage (P : EvictionPolicy) (β : Type) where
  pool : Pool P β
  disk : Disk β

namespace Storage

variable {P : EvictionPolicy} {β : Type} [PageBytes β]

/-- What the loop finds in the map it looks into; `new_page` does not look. -/
def found (s : Storage P β) : Call → Option ℕ
  | .fetch t _ => s.pool.lookup t
  | .create .. => none

/-- The head of `evict`'s loop: ask the policy for a victim. -/
def findVictim (s : Storage P β) (c : Call) : Pc :=
  match P.findVictim s.pool.evictionPolicy with
  | some v => .evicting c v
  | none => .failed .noVictimFound none

/-- The body of the loop for a frame. -/
def enter (s : Storage P β) (c : Call) (f : ℕ) : Option (Storage P β × Pc) :=
  match c, s.found c with
  | .fetch t m, some g => some ({ s with pool := s.pool.incrPin g }, .waiting t m g)
  | _, _ =>
    if s.pool.vacantFrames = ∅ then some (s, s.findVictim c)
    else if f ∈ s.pool.vacantFrames then
      some ({ s with pool := s.pool.reserve f }, .reserved c f)
    else none

/-- `evict` has the victim's latch. -/
def evict (s : Storage P β) (c : Call) (v : ℕ) : Storage P β × Pc :=
  if s.pool.pinCounts v ≠ 0 then (s, s.findVictim c)
  else
    match s.pool.frameMeta v with
    | .vacant =>
      ({ s with pool := { s.pool with vacantFrames := insert v s.pool.vacantFrames } }, .loop c)
    | .loaded l p false => ({ s with pool := s.pool.removeVictim v l p }, .loop c)
    | .loaded l p true => (s, .writingBack c v l p)

/-- A fetch has the latch of the frame it reserved. -/
def claim (s : Storage P β) (t : Target) (m : Access) (f : ℕ) : Storage P β × Pc :=
  match s.pool.lookup t with
  | some g => ({ s with pool := s.pool.giveBack f g }, .waiting t m g)
  | none => ({ s with pool := s.pool.publish t f }, .reading t m f)

/-- The code of a call from one await point to the next. -/
def advance (s : Storage P β) : Pc → Event β → Option (Storage P β × Pc)
  | .idle, .call (.fetch t m) => some (s, .loop (.fetch t m))
  | .idle, .call (.create l p) =>
    (s.disk.newPage l p).map fun d => ({ s with disk := d }, .loop (.create l p))
  | .loop c, .enter f => s.enter c f
  -- an index past the frames panics
  | .evicting c v, .latch => if v < s.pool.numFrames then some (s.evict c v) else none
  | .writingBack c v l p, .disk true =>
    some (⟨s.pool.removeVictim v l p, s.disk.writePageAtLoc p (s.pool.buf v)⟩, .loop c)
  | .writingBack _ _ _ _, .disk false => some (s, .failed .storageError none)
  | .reserved (.fetch t m) f, .latch => some (s.claim t m f)
  | .reserved (.create l p) f, .latch =>
    some ({ s with pool := s.pool.initFrame f l p }, .guard (.create l p) f .write)
  | .reading t m f, .disk true =>
    (s.disk.read t).map fun x =>
      ({ s with pool := s.pool.finishLoad t f x.1 x.2.1 x.2.2 }, .guard (.fetch t m) f m)
  | .reading _ _ f, .disk false => some (s, .failed .storageError (some f))
  | .waiting t .write f, .latch => some (s, .guard (.fetch t .write) f .write)
  | .waiting t .read f, .latch =>
    some ({ s with pool := s.pool.recordAccess f }, .guard (.fetch t .read) f .read)
  | .guard c f .write, .write b =>
    some ({ s with pool := s.pool.writeFrame f b }, .guard c f .write)
  | .guard c f .write, .markDirty =>
    some ({ s with pool := s.pool.markFrameDirty f }, .guard c f .write)
  | .guard c f .write, .downgrade => some (s, .guard c f .read)
  | .guard _ f _, .drop => some ({ s with pool := s.pool.decrPin f }, .idle)
  | .guard c f .read, .keep =>
    some ({ s with pool := (s.pool.incrPin f).decrPin f }, .kept c f)
  | _, _ => none

end Storage

namespace Pc

/-- The frame a call or guard has pinned. -/
def pinned : Pc → Option ℕ
  | reserved _ f | reading _ _ f | waiting _ _ f | guard _ f _ | kept _ f => some f
  | failed _ f => f
  | _ => none

/-- The frame latch a call or guard holds. -/
def latched : Pc → Option (ℕ × Access)
  | writingBack _ v _ _ => some (v, .write)
  | reading _ _ f => some (f, .write)
  | guard _ f m => some (f, m)
  | _ => none

/-- The frame a call has taken out of the vacant set and not yet loaded. -/
def owned : Pc → Option ℕ
  | reserved _ f | reading _ _ f => some f
  | failed _ f => f
  | _ => none

/-- The latch a call waits for. -/
def awaits : Pc → Option (ℕ × Access)
  | evicting _ v => some (v, .write)
  | reserved _ f => some (f, .write)
  | waiting _ m f => some (f, m)
  | _ => none

/-- The frame whose latch an eviction waits for. -/
def victim : Pc → Option ℕ
  | evicting _ v => some v
  | _ => none

/-- The frame an eviction is writing back. -/
def writesBack : Pc → Option ℕ
  | writingBack _ v _ _ => some v
  | _ => none

/-- A call is in progress. -/
def running : Pc → Bool
  | idle | guard .. | kept .. | failed .. => false
  | _ => true

end Pc

/-- Calls and guards over one pool. -/
structure Sys (P : EvictionPolicy) (β ι : Type) where
  storage : Storage P β
  pc : ι → Pc

namespace Sys

variable {P : EvictionPolicy} {β ι : Type} [PageBytes β]

/-- An empty pool over a disk, and no calls. -/
def init (numFrames : ℕ) (d : Disk β) : Sys P β ι := ⟨⟨.new numFrames, d⟩, fun _ => .idle⟩

/-- The latch a call waits for can be granted. -/
def Enabled (σ : Sys P β ι) (i : ι) : Prop :=
  ∀ f m, (σ.pc i).awaits = some (f, m) → Grants (fun j => (σ.pc j).latched) f m

omit [PageBytes β] in
instance [Fintype ι] (σ : Sys P β ι) (i : ι) : Decidable (σ.Enabled i) :=
  decidable_of_iff (∀ x ∈ (σ.pc i).awaits, Grants (fun j => (σ.pc j).latched) x.1 x.2)
    ⟨fun h f m hx => h (f, m) hx, fun h x hx => h x.1 x.2 hx⟩

variable [DecidableEq ι]

/-- Task `i` goes on from one await point to the next. -/
def step (σ : Sys P β ι) (i : ι) (e : Event β) : Option (Sys P β ι) :=
  (σ.storage.advance (σ.pc i) e).map fun x => ⟨x.1, Function.update σ.pc i x.2⟩

/-- A run whose steps all meet a condition on the state, the task and what happens. -/
def Run (C : Sys P β ι → ι → Event β → Prop) : Sys P β ι → Sys P β ι → Prop :=
  Relation.ReflTransGen fun σ σ' => ∃ i e, σ.Enabled i ∧ C σ i e ∧ σ.step i e = some σ'

/-- The state after a step; a step that cannot happen changes nothing. -/
def fire (σ : Sys P β ι) (x : ι × Event β) : Sys P β ι := (σ.step x.1 x.2).getD σ

/-- The steps can happen one after the other, and each meets the condition. -/
def Legal (C : Sys P β ι → ι → Event β → Prop) : Sys P β ι → List (ι × Event β) → Prop
  | _, [] => True
  | σ, x :: l => σ.Enabled x.1 ∧ C σ x.1 x.2 ∧ (σ.step x.1 x.2).isSome ∧ Legal C (σ.fire x) l

instance decidableLegal [Fintype ι] {C : Sys P β ι → ι → Event β → Prop}
    [∀ σ i e, Decidable (C σ i e)] :
    (σ : Sys P β ι) → (l : List (ι × Event β)) → Decidable (Legal C σ l)
  | _, [] => isTrue trivial
  | σ, x :: l =>
    have : Decidable (Legal C (σ.fire x) l) := decidableLegal (σ.fire x) l
    inferInstanceAs (Decidable (_ ∧ _ ∧ _ ∧ _))

theorem Legal.run {C : Sys P β ι → ι → Event β → Prop} {σ : Sys P β ι}
    {l : List (ι × Event β)} (h : Legal C σ l) : Run C σ (l.foldl fire σ) := by
  induction l generalizing σ with
  | nil => exact .refl
  | cons x l ih =>
    obtain ⟨henabled, hc, hsome, hl⟩ := h
    obtain ⟨σ', hstep⟩ := Option.isSome_iff_exists.1 hsome
    have hfire : σ.fire x = σ' := by rw [fire, hstep, Option.getD_some]
    rw [hfire] at hl
    rw [List.foldl_cons, hfire]
    exact .head ⟨x.1, x.2, henabled, hc, hstep⟩ (ih hl)

end Sys

/-! ### Everything a step can do -/

variable {P : EvictionPolicy} {β : Type} [PageBytes β]

/-- The steps of a call or a guard, with what the code has checked. -/
inductive Step (s : Storage P β) : Pc → Event β → Storage P β → Pc → Prop
  | callFetch {t m} : Step s .idle (.call (.fetch t m)) s (.loop (.fetch t m))
  | callCreate {l p} (hfresh : s.disk.pageDirectory l = none) :
      Step s .idle (.call (.create l p))
        { s with disk :=
          { s.disk with pageDirectory := Function.update s.disk.pageDirectory l (some p) } }
        (.loop (.create l p))
  | hit {t m f g} (hfound : s.pool.lookup t = some g) :
      Step s (.loop (.fetch t m)) (.enter f) { s with pool := s.pool.incrPin g } (.waiting t m g)
  | take {c f} (hmiss : s.found c = none) (hf : f ∈ s.pool.vacantFrames) :
      Step s (.loop c) (.enter f) { s with pool := s.pool.reserve f } (.reserved c f)
  | victim {c f v} (hmiss : s.found c = none) (hfull : s.pool.vacantFrames = ∅)
      (hv : P.findVictim s.pool.evictionPolicy = some v) :
      Step s (.loop c) (.enter f) s (.evicting c v)
  | noVictim {c f} (hmiss : s.found c = none) (hfull : s.pool.vacantFrames = ∅)
      (hv : P.findVictim s.pool.evictionPolicy = none) :
      Step s (.loop c) (.enter f) s (.failed .noVictimFound none)
  | nextVictim {c v v'} (hpin : s.pool.pinCounts v ≠ 0)
      (hv : P.findVictim s.pool.evictionPolicy = some v') :
      Step s (.evicting c v) .latch s (.evicting c v')
  | noNextVictim {c v} (hpin : s.pool.pinCounts v ≠ 0)
      (hv : P.findVictim s.pool.evictionPolicy = none) :
      Step s (.evicting c v) .latch s (.failed .noVictimFound none)
  | victimVacant {c v} (hlt : v < s.pool.numFrames) (hpin : s.pool.pinCounts v = 0)
      (hmeta : s.pool.frameMeta v = .vacant) : Step s (.evicting c v) .latch
        { s with pool := { s.pool with vacantFrames := insert v s.pool.vacantFrames } } (.loop c)
  | victimClean {c v l p} (hpin : s.pool.pinCounts v = 0)
      (hmeta : s.pool.frameMeta v = .loaded l p false) :
      Step s (.evicting c v) .latch { s with pool := s.pool.removeVictim v l p } (.loop c)
  | victimDirty {c v l p} (hpin : s.pool.pinCounts v = 0)
      (hmeta : s.pool.frameMeta v = .loaded l p true) :
      Step s (.evicting c v) .latch s (.writingBack c v l p)
  | writtenBack {c v l p} :
      Step s (.writingBack c v l p) (.disk true)
        ⟨s.pool.removeVictim v l p, s.disk.writePageAtLoc p (s.pool.buf v)⟩ (.loop c)
  | writeFailed {c v l p} :
      Step s (.writingBack c v l p) (.disk false) s (.failed .storageError none)
  | lateHit {t m f g} (hfound : s.pool.lookup t = some g) :
      Step s (.reserved (.fetch t m) f) .latch { s with pool := s.pool.giveBack f g }
        (.waiting t m g)
  | publish {t m f} (hmiss : s.pool.lookup t = none) :
      Step s (.reserved (.fetch t m) f) .latch { s with pool := s.pool.publish t f }
        (.reading t m f)
  | init {l p f} :
      Step s (.reserved (.create l p) f) .latch { s with pool := s.pool.initFrame f l p }
        (.guard (.create l p) f .write)
  | load {t m f l p b} (hread : s.disk.read t = some (l, p, b)) :
      Step s (.reading t m f) (.disk true) { s with pool := s.pool.finishLoad t f l p b }
        (.guard (.fetch t m) f m)
  | readFailed {t m f} :
      Step s (.reading t m f) (.disk false) s (.failed .storageError (some f))
  | grantWrite {t f} : Step s (.waiting t .write f) .latch s (.guard (.fetch t .write) f .write)
  | grantRead {t f} : Step s (.waiting t .read f) .latch { s with pool := s.pool.recordAccess f }
      (.guard (.fetch t .read) f .read)
  | write {c f b} : Step s (.guard c f .write) (.write b)
      { s with pool := s.pool.writeFrame f b } (.guard c f .write)
  | markDirty {c f} : Step s (.guard c f .write) .markDirty
      { s with pool := s.pool.markFrameDirty f } (.guard c f .write)
  | downgrade {c f} : Step s (.guard c f .write) .downgrade s (.guard c f .read)
  | drop {c f m} : Step s (.guard c f m) .drop { s with pool := s.pool.decrPin f } .idle
  | keep {c f} : Step s (.guard c f .read) .keep
      { s with pool := (s.pool.incrPin f).decrPin f } (.kept c f)

variable {s s' : Storage P β} {pc pc' : Pc} {e : Event β} {c : Call} {f v : ℕ}

theorem Step.of_enter (h : s.enter c f = some (s', pc')) : Step s (.loop c) (.enter f) s' pc' := by
  have hmiss : s.found c = none →
      (if s.pool.vacantFrames = ∅ then some (s, s.findVictim c)
      else if f ∈ s.pool.vacantFrames then
        some ({ s with pool := s.pool.reserve f }, Pc.reserved c f)
      else none) = some (s', pc') → Step s (.loop c) (.enter f) s' pc' := by
    intro hmiss h
    split at h
    · next hfull =>
      cases hv : P.findVictim s.pool.evictionPolicy with
      | none =>
        simp only [Storage.findVictim, hv, Option.some.injEq, Prod.mk.injEq] at h
        obtain ⟨rfl, rfl⟩ := h
        exact .noVictim hmiss hfull hv
      | some v =>
        simp only [Storage.findVictim, hv, Option.some.injEq, Prod.mk.injEq] at h
        obtain ⟨rfl, rfl⟩ := h
        exact .victim hmiss hfull hv
    · split at h
      · next hf =>
        cases h
        exact .take hmiss hf
      · cases h
  unfold Storage.enter at h
  cases c with
  | create l p => exact hmiss rfl h
  | fetch t m =>
    cases hfound : s.pool.lookup t with
    | none =>
      simp only [Storage.found, hfound] at h
      exact hmiss hfound h
    | some g =>
      simp only [Storage.found, hfound] at h
      cases h
      exact .hit hfound

theorem Step.of_evict (hlt : v < s.pool.numFrames) : Step s (.evicting c v) .latch (s.evict c v).1 (s.evict c v).2 := by
  unfold Storage.evict
  by_cases hpin : s.pool.pinCounts v = 0
  · rw [if_neg (not_not.2 hpin)]
    cases hmeta : s.pool.frameMeta v with
    | vacant => exact .victimVacant hlt hpin hmeta
    | loaded l p dirty =>
      cases dirty
      · exact .victimClean hpin hmeta
      · exact .victimDirty hpin hmeta
  · rw [if_pos hpin]
    unfold Storage.findVictim
    cases hv : P.findVictim s.pool.evictionPolicy with
    | none => exact .noNextVictim hpin hv
    | some v' => exact .nextVictim hpin hv

theorem Step.of_claim {t : Target} {m : Access} :
    Step s (.reserved (.fetch t m) f) .latch (s.claim t m f).1 (s.claim t m f).2 := by
  unfold Storage.claim
  cases hfound : s.pool.lookup t with
  | none => exact .publish hfound
  | some g => exact .lateHit hfound

/-- **Every step of the code is one of these.** -/
theorem Step.of_advance (h : s.advance pc e = some (s', pc')) : Step s pc e s' pc' := by
  unfold Storage.advance at h
  split at h
  case h_1 => cases h; exact .callFetch
  case h_2 l p =>
    cases hdir : s.disk.pageDirectory l with
    | some q => simp [Disk.newPage, hdir] at h
    | none =>
      simp only [Disk.newPage, hdir, Option.map_some] at h
      cases h
      exact .callCreate hdir
  case h_3 c f => exact .of_enter h
  case h_4 c v =>
    split at h
    · next hlt =>
      obtain ⟨rfl, rfl⟩ := Prod.ext_iff.1 (Option.some.inj h)
      exact .of_evict hlt
    · cases h
  case h_5 => cases h; exact .writtenBack
  case h_6 => cases h; exact .writeFailed
  case h_7 =>
    obtain ⟨rfl, rfl⟩ := Prod.ext_iff.1 (Option.some.inj h)
    exact .of_claim
  case h_8 => cases h; exact .init
  case h_9 t m f =>
    obtain ⟨⟨l, p, b⟩, hread, heq⟩ := Option.map_eq_some_iff.1 h
    cases heq
    exact .load hread
  case h_10 => cases h; exact .readFailed
  case h_11 => cases h; exact .grantWrite
  case h_12 => cases h; exact .grantRead
  case h_13 => cases h; exact .write
  case h_14 => cases h; exact .markDirty
  case h_15 => cases h; exact .downgrade
  case h_16 => cases h; exact .drop
  case h_17 => cases h; exact .keep
  case h_18 => cases h

end Buffer
end Abdb
