/-
# The buffer pool

`src/buffer/impl/buffer_pool.rs`: a fixed number of frames, each vacant or loaded with one
page; a set of vacant frames; two maps from logical and from physical page ids to frames; a
pin count per frame, an 8-bit counter that wraps; and an eviction policy that is told when a
frame becomes evictable or not.  The operations here are the synchronous pieces of the pool's
async functions, from one `.await` to the next; `Abdb.Buffer.Calls` puts them together.

The eviction policy is a parameter, and so are the page bytes, of which the pool itself uses
only the zeroed page and the `page_id` in the header.
-/

import Mathlib.Data.Finset.Basic
import Mathlib.Tactic.Simps.Basic
import Abdb.Lib.Holders
import Abdb.Page.Basic

namespace Abdb
namespace Buffer

/-- Page bytes, as far as the pool looks at them. -/
class PageBytes (β : Type) where
  /-- `fill(0)` -/
  zeroed : β
  /-- `uber_header().page_id` -/
  pageId : β → LPageId

/-- Page bytes reduced to the header's `page_id` and one number for all the rest. -/
structure SmallPage where
  pageId : LPageId
  rest : ℕ
deriving DecidableEq, Repr

instance : PageBytes SmallPage := ⟨⟨0, 0⟩, SmallPage.pageId⟩

/-- `trait EvictionPolicy`.  `findVictim` is `none` where the source returns
`NoVictimFound`. -/
structure EvictionPolicy where
  State : Type
  new : State
  findVictim : State → Option ℕ
  recordAccess : State → ℕ → State
  setEvictable : State → ℕ → Bool → State
  removeFrame : State → ℕ → State

/-- What a frame holds. -/
inductive FrameMeta
  | vacant
  | loaded (lpageId : LPageId) (ppageId : PPageId) (dirty : Bool)
deriving DecidableEq, Repr

/-- The state of a `BufferPool`, but for the frame latches, which the calls in progress and
the guards hold. -/
structure Pool (P : EvictionPolicy) (β : Type) where
  evictionPolicy : P.State
  numFrames : ℕ
  buf : ℕ → β
  pinCounts : ℕ → ℕ
  frameMeta : ℕ → FrameMeta
  vacantFrames : Finset ℕ
  frameLpageIdMap : LPageId → Option ℕ
  framePpageIdMap : PPageId → Option ℕ

/-- What the disk manager keeps: the page directory and the bytes of every location, none
past the end of a file. -/
structure Disk (β : Type) where
  pageDirectory : LPageId → Option PPageId
  page : PPageId → Option β

/-- What a fetch asks for: `fetch_page_*` a logical id, `fetch_page_at_loc_*` a location. -/
inductive Target
  | id (l : LPageId)
  | loc (p : PPageId)
deriving DecidableEq, Repr

/-- The other id of a page loaded for a target. -/
def Target.other : Target → LPageId → PPageId → Target
  | .id _, _, p => .loc p
  | .loc _, l, _ => .id l

/-- The frame is loaded with the page asked for. -/
def FrameMeta.Covers : FrameMeta → Target → Prop
  | .vacant, _ => False
  | .loaded l _ _, .id l' => l = l'
  | .loaded _ p _, .loc p' => p = p'

namespace Pool

variable {P : EvictionPolicy} {β : Type}

/-- `BufferPool::new`: all frames vacant. -/
def new [PageBytes β] (numFrames : ℕ) : Pool P β where
  evictionPolicy := P.new
  numFrames := numFrames
  buf _ := PageBytes.zeroed
  pinCounts _ := 0
  frameMeta _ := .vacant
  vacantFrames := Finset.range numFrames
  frameLpageIdMap _ := none
  framePpageIdMap _ := none

/-- `incr_pin`: `fetch_add(1)` on an `AtomicU8`. -/
@[simps -fullyApplied]
def incrPin (s : Pool P β) (f : ℕ) : Pool P β :=
  { s with
    pinCounts := Function.update s.pinCounts f ((s.pinCounts f + 1) % 256)
    evictionPolicy :=
      if s.pinCounts f = 0 then P.setEvictable s.evictionPolicy f false else s.evictionPolicy }

/-- `decr_pin`: `fetch_sub(1)` on an `AtomicU8`. -/
@[simps -fullyApplied]
def decrPin (s : Pool P β) (f : ℕ) : Pool P β :=
  { s with
    pinCounts := Function.update s.pinCounts f ((s.pinCounts f + 255) % 256)
    evictionPolicy :=
      if s.pinCounts f = 1 then P.setEvictable s.evictionPolicy f true else s.evictionPolicy }

/-- `mark_frame_dirty`; a vacant frame is an error and stays as it is. -/
def markFrameDirty (s : Pool P β) (f : ℕ) : Pool P β :=
  match s.frameMeta f with
  | .loaded l p _ => { s with frameMeta := Function.update s.frameMeta f (.loaded l p true) }
  | .vacant => s

/-- The map a fetch looks into: `frame_lpage_id_map` for a logical id,
`frame_ppage_id_map` for a location. -/
def lookup (s : Pool P β) : Target → Option ℕ
  | .id l => s.frameLpageIdMap l
  | .loc p => s.framePpageIdMap p

/-- Take a frame out of the vacant set and pin it. -/
def reserve (s : Pool P β) (f : ℕ) : Pool P β :=
  incrPin { s with vacantFrames := s.vacantFrames.erase f } f

/-- Someone else loaded the page meanwhile: give the reserved frame back and pin theirs. -/
def giveBack (s : Pool P β) (f g : ℕ) : Pool P β :=
  incrPin { s.decrPin f with vacantFrames := insert f s.vacantFrames } g

/-- Publish a reserved frame in the map the fetch looked into. -/
def publish (s : Pool P β) (t : Target) (f : ℕ) : Pool P β :=
  match t with
  | .id l => { s with frameLpageIdMap := Function.update s.frameLpageIdMap l (some f) }
  | .loc p => { s with framePpageIdMap := Function.update s.framePpageIdMap p (some f) }

/-- The page has been read: its bytes are in the frame, the metadata is set, and the frame is
inserted into the other map. -/
def finishLoad (s : Pool P β) (t : Target) (f : ℕ) (l : LPageId) (p : PPageId) (b : β) :
    Pool P β :=
  publish { s with
    buf := Function.update s.buf f b
    frameMeta := Function.update s.frameMeta f (.loaded l p false) } (t.other l p) f

/-- Steps 4 to 6 of `new_page`: zero the frame, set the metadata, insert it into both maps. -/
def initFrame [PageBytes β] (s : Pool P β) (f : ℕ) (l : LPageId) (p : PPageId) : Pool P β :=
  publish (publish { s with
    buf := Function.update s.buf f PageBytes.zeroed
    frameMeta := Function.update s.frameMeta f (.loaded l p false) } (.id l) f) (.loc p) f

/-- Step 6 of `evict`: remove the victim from both maps and from the policy, and make it
vacant. -/
@[simps -fullyApplied]
def removeVictim (s : Pool P β) (v : ℕ) (l : LPageId) (p : PPageId) : Pool P β :=
  { s with
    frameLpageIdMap := Function.update s.frameLpageIdMap l none
    framePpageIdMap := Function.update s.framePpageIdMap p none
    frameMeta := Function.update s.frameMeta v .vacant
    vacantFrames := insert v s.vacantFrames
    evictionPolicy := P.removeFrame s.evictionPolicy v }

/-- The bytes of a frame written through its write guard. -/
@[simps -fullyApplied]
def writeFrame (s : Pool P β) (f : ℕ) (b : β) : Pool P β :=
  { s with buf := Function.update s.buf f b }

/-- `PageReadGuard::new` tells the policy about the access. -/
@[simps -fullyApplied]
def recordAccess (s : Pool P β) (f : ℕ) : Pool P β :=
  { s with evictionPolicy := P.recordAccess s.evictionPolicy f }

end Pool

namespace Disk

variable {β : Type}

/-- `read_page`: the location of a logical id and the bytes there. -/
def readPage (d : Disk β) (l : LPageId) : Option (PPageId × β) :=
  (d.pageDirectory l).bind fun p => (d.page p).map fun b => (p, b)

/-- `read_page_at_loc` -/
def readPageAtLoc (d : Disk β) (p : PPageId) : Option β := d.page p

/-- What a fetch learns from the disk: both ids of the page and its bytes.  A fetch by
location takes the logical id from the header. -/
def read [PageBytes β] (d : Disk β) : Target → Option (LPageId × PPageId × β)
  | .id l => (d.readPage l).map fun x => (l, x.1, x.2)
  | .loc p => (d.readPageAtLoc p).map fun b => (PageBytes.pageId b, p, b)

/-- `write_page_at_loc` -/
def writePageAtLoc (d : Disk β) (p : PPageId) (b : β) : Disk β :=
  { d with page := Function.update d.page p (some b) }

/-- `new_page` with the ids it hands out: `add_page` refuses an id the directory has.  The
file is not extended. -/
def newPage (d : Disk β) (l : LPageId) (p : PPageId) : Option (Disk β) :=
  match d.pageDirectory l with
  | none => some { d with pageDirectory := Function.update d.pageDirectory l (some p) }
  | some _ => none

end Disk

section Lemmas

variable {P : EvictionPolicy} {β : Type} {s : Pool P β} {f g v : ℕ} {t t' : Target} {l : LPageId}
  {p : PPageId} {b : β} {dirty : Bool}

theorem FrameMeta.covers_loaded : (FrameMeta.loaded l p dirty).Covers t ↔ t = .id l ∨ t = .loc p := by
  cases t <;> simp [FrameMeta.Covers, eq_comm]

namespace Pool

@[simp] theorem lookup_incrPin : (s.incrPin f).lookup t = s.lookup t := by cases t <;> rfl

@[simp] theorem lookup_decrPin : (s.decrPin f).lookup t = s.lookup t := by cases t <;> rfl

@[simp] theorem lookup_writeFrame : (s.writeFrame f b).lookup t = s.lookup t := by cases t <;> rfl

@[simp] theorem lookup_recordAccess : (s.recordAccess f).lookup t = s.lookup t := by cases t <;> rfl

@[simp] theorem lookup_reserve : (s.reserve f).lookup t = s.lookup t := by cases t <;> rfl

@[simp] theorem lookup_giveBack : (s.giveBack f g).lookup t = s.lookup t := by cases t <;> rfl

@[simp] theorem lookup_publish :
    (s.publish t f).lookup t' = if t' = t then some f else s.lookup t' := by
  cases t <;> cases t' <;> simp [publish, lookup, Function.update_apply]

@[simp] theorem lookup_finishLoad : (s.finishLoad t f l p b).lookup t' =
    if t' = t.other l p then some f else s.lookup t' := by
  rw [finishLoad, lookup_publish]
  cases t' <;> rfl

@[simp] theorem lookup_initFrame [PageBytes β] : (s.initFrame f l p).lookup t' =
    if t' = .id l ∨ t' = .loc p then some f else s.lookup t' := by
  rw [initFrame, lookup_publish, lookup_publish]
  cases t' <;> simp [lookup]

@[simp] theorem lookup_removeVictim : (s.removeVictim v l p).lookup t' =
    if t' = .id l ∨ t' = .loc p then none else s.lookup t' := by
  cases t' <;> simp [lookup, Function.update_apply]

@[simp] theorem lookup_markFrameDirty : (s.markFrameDirty f).lookup t = s.lookup t := by
  unfold markFrameDirty
  split
  · cases t <;> rfl
  · rfl

@[simp] theorem publish_frameMeta : (s.publish t f).frameMeta = s.frameMeta := by cases t <;> rfl

@[simp] theorem publish_vacantFrames : (s.publish t f).vacantFrames = s.vacantFrames := by
  cases t <;> rfl

@[simp] theorem publish_numFrames : (s.publish t f).numFrames = s.numFrames := by cases t <;> rfl

@[simp] theorem publish_pinCounts : (s.publish t f).pinCounts = s.pinCounts := by cases t <;> rfl

@[simp] theorem publish_buf : (s.publish t f).buf = s.buf := by cases t <;> rfl

@[simp] theorem publish_evictionPolicy : (s.publish t f).evictionPolicy = s.evictionPolicy := by
  cases t <;> rfl

theorem markFrameDirty_frameMeta_of_ne (h : g ≠ f) :
    (s.markFrameDirty f).frameMeta g = s.frameMeta g := by
  unfold markFrameDirty
  split
  · exact Function.update_of_ne h ..
  · rfl

/-- Marking a frame dirty makes no frame vacant or loaded. -/
@[simp] theorem markFrameDirty_vacant :
    (s.markFrameDirty f).frameMeta g = .vacant ↔ s.frameMeta g = .vacant := by
  unfold markFrameDirty
  split
  · next hf =>
    by_cases hg : g = f
    · subst hg
      simp [hf]
    · simp [Function.update_of_ne hg]
  · rfl

/-- Marking a frame dirty changes no page a frame covers. -/
@[simp] theorem covers_markFrameDirty :
    ((s.markFrameDirty f).frameMeta g).Covers t ↔ (s.frameMeta g).Covers t := by
  unfold markFrameDirty
  split
  · next hf =>
    by_cases hg : g = f
    · subst hg
      simp [hf, FrameMeta.covers_loaded]
    · simp [Function.update_of_ne hg]
  · rfl

@[simp] theorem markFrameDirty_vacantFrames : (s.markFrameDirty f).vacantFrames = s.vacantFrames := by
  unfold markFrameDirty
  split <;> rfl

@[simp] theorem markFrameDirty_pinCounts : (s.markFrameDirty f).pinCounts = s.pinCounts := by
  unfold markFrameDirty
  split <;> rfl

@[simp] theorem markFrameDirty_numFrames : (s.markFrameDirty f).numFrames = s.numFrames := by
  unfold markFrameDirty
  split <;> rfl

@[simp] theorem markFrameDirty_buf : (s.markFrameDirty f).buf = s.buf := by
  unfold markFrameDirty
  split <;> rfl

@[simp] theorem markFrameDirty_evictionPolicy :
    (s.markFrameDirty f).evictionPolicy = s.evictionPolicy := by
  unfold markFrameDirty
  split <;> rfl

end Pool

end Lemmas

end Buffer
end Abdb
