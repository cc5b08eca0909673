/-
# Writes and flushes side by side

`write_page` and `flush_all_dirty` of `src/storage/directory/directory.rs`, any number of each,
interleaved at their awaits.  `write_page` takes the cache and then the dirty set, and holds
neither lock while it waits for the other.  `flush_all_dirty` copies the dirty set, opens the
file, takes the cache for reading and *keeps it* while it writes the pages of its copy, syncs,
and takes them out of the dirty set.  The file may fail at every access.

So while a flush knows a page to be in the file nobody can change the page in the cache, and no
page is lost (`flush_loses_nothing`): what differs from the file is dirty, or about to be.  By
itself a flush is the one step of `Abdb.Directory.Machine` (`pages_flushAllDirty`).

A page past the end of the file is `none`, and so are the zeros that a write beyond the end
leaves before it.
-/

import Mathlib.Data.Bool.Basic
import Mathlib.Logic.Relation
import Abdb.Directory.Machine

namespace Abdb
namespace Directory
namespace Flush

/-- What `write_page` and `flush_all_dirty` work on, for any type of page buffers. -/
structure Store (B : Type) where
  file : DirPageId → Option B
  cache : DirPageId → Option B
  dirty : DirPageId → Bool

namespace Store

variable {B : Type}

/-- `cache.insert` -/
def insert (st : Store B) (id : DirPageId) (buffer : B) : Store B :=
  { st with cache := Function.update st.cache id (some buffer) }

/-- `dirty.insert` -/
def markDirty (st : Store B) (id : DirPageId) : Store B :=
  { st with dirty := Function.update st.dirty id true }

/-- `file.write_all`, at the page's place. -/
def writeAll (st : Store B) (id : DirPageId) (buffer : B) : Store B :=
  { st with file := Function.update st.file id (some buffer) }

/-- `dirty.remove`, of every page of a list. -/
def clear (st : Store B) (pages : List DirPageId) : Store B :=
  { st with dirty := fun id => st.dirty id && decide (id ∉ pages) }

/-- The cached bytes of a page differ from its bytes in the file. -/
def Differs (st : Store B) (id : DirPageId) : Prop :=
  ∃ buffer, st.cache id = some buffer ∧ st.file id ≠ some buffer

/-- **Writing a page as it is cached** leaves no other page to differ than before. -/
theorem Differs.of_writeAll {st : Store B} {id id' : DirPageId} {buffer : B}
    (hcache : st.cache id = some buffer) (h : (st.writeAll id buffer).Differs id') :
    id' ≠ id ∧ st.Differs id' := by
  obtain ⟨buffer', hcache', hfile⟩ := h
  have hne : id' ≠ id := by
    rintro rfl
    have heq : some buffer = some buffer' := hcache.symm.trans hcache'
    exact hfile (heq ▸ Function.update_self ..)
  exact ⟨hne, buffer', hcache', fun hf => hfile ((Function.update_of_ne hne ..).trans hf)⟩

end Store

/-- Where a call stands. -/
inductive Pc (B : Type)
  /-- `write_page`, about to put the page into the cache -/
  | writePage (id : DirPageId) (buffer : B)
  /-- `write_page`, about to put the page into the dirty set -/
  | markDirty (id : DirPageId)
  /-- `write_page` has returned -/
  | written
  /-- `flush_all_dirty`, about to read the dirty set -/
  | flush
  /-- about to open the file -/
  | openFile (pages : List DirPageId)
  /-- about to take the cache for reading -/
  | lockCache (pages : List DirPageId)
  /-- at the head of the loop, with the pages behind and the pages ahead -/
  | loop (behind ahead : List DirPageId)
  /-- at its place in the file, about to write a page -/
  | write (behind : List DirPageId) (id : DirPageId) (buffer : B) (ahead : List DirPageId)
  | sync (pages : List DirPageId)
  /-- about to take the pages out of the dirty set -/
  | clear (pages : List DirPageId)
  /-- `flush_all_dirty` has returned -/
  | flushed (result : Except Error Unit)

namespace Pc

variable {B : Type}

/-- The call holds the cache for reading. -/
def holdsCache : Pc B → Bool
  | loop .. | write .. | sync _ | clear _ => true
  | _ => false

/-- The pages that a flush has dealt with under the lock. -/
def dealtWith : Pc B → List DirPageId
  | loop behind _ | write behind .. => behind
  | sync pages | clear pages => pages
  | _ => []

theorem dealtWith_of_not_holds {pc : Pc B} (h : pc.holdsCache = false) : pc.dealtWith = [] := by
  cases pc with
  | loop | write | sync | clear => cases h
  | _ => rfl

/-- One access of a call; `free` says that nobody holds the cache for reading. -/
inductive Step (free : Prop) : Store B → Pc B → Store B → Pc B → Prop
  | insert {st id buffer} : free → Step free st (writePage id buffer) (st.insert id buffer) (markDirty id)
  | mark {st id} : Step free st (markDirty id) (st.markDirty id) written
  -- `dirty_pages.is_empty()`
  | clean {st} : (∀ id, st.dirty id = false) → Step free st flush st (flushed (.ok ()))
  -- the set is copied in any order
  | snapshot {st pages} : pages ≠ [] → pages.Nodup → (∀ id, id ∈ pages ↔ st.dirty id = true) →
    Step free st flush st (openFile pages)
  | opened {st pages} : Step free st (openFile pages) st (lockCache pages)
  | openFails {st pages} : Step free st (openFile pages) st (flushed (.error .ioError))
  | locked {st pages} : Step free st (lockCache pages) st (loop [] pages)
  | uncached {st behind id ahead} : st.cache id = none →
    Step free st (loop behind (id :: ahead)) st (loop (behind ++ [id]) ahead)
  | seek {st behind id ahead buffer} : st.cache id = some buffer →
    Step free st (loop behind (id :: ahead)) st (write behind id buffer ahead)
  | seekFails {st behind id ahead buffer} : st.cache id = some buffer →
    Step free st (loop behind (id :: ahead)) st (flushed (.error .ioError))
  | write {st behind id buffer ahead} : Step free st (write behind id buffer ahead)
    (st.writeAll id buffer) (loop (behind ++ [id]) ahead)
  | writeFails {st behind id buffer ahead} : Step free st (write behind id buffer ahead) st
    (flushed (.error .ioError))
  | through {st pages} : Step free st (loop pages []) st (sync pages)
  | synced {st pages} : Step free st (sync pages) st (clear pages)
  | syncFails {st pages} : Step free st (sync pages) st (flushed (.error .ioError))
  | clear {st pages} : Step free st (clear pages) (st.clear pages) (flushed (.ok ()))

theorem Step.mono {free free' : Prop} {st st' : Store B} {pc pc' : Pc B} (hfree : free → free')
    (h : Step free st pc st' pc') : Step free' st pc st' pc' := by
  cases h with
  | insert h => exact .insert (hfree h)
  | snapshot hne hnodup hcopy => exact .snapshot hne hnodup hcopy
  | clean h => exact .clean h
  | uncached h => exact .uncached h
  | seek h => exact .seek h
  | seekFails h => exact .seekFails h
  | _ => constructor

theorem Step.not_writePage {st st' : Store B} {pc pc' : Pc B} (h : Step False st pc st' pc')
    {id : DirPageId} {buffer : B} : pc ≠ .writePage id buffer := by
  cases h with
  | insert hfalse => exact hfalse.elim
  | _ => exact nofun

end Pc

/-- One call by itself, that does not write the cache. -/
def Pc.Run {B : Type} : Store B × Pc B → Store B × Pc B → Prop :=
  Relation.ReflTransGen fun x y => Step False x.1 x.2 y.1 y.2

/-- A directory and the calls on it. -/
structure Sys (ι B : Type) where
  store : Store B
  pc : ι → Pc B

namespace Sys

variable {ι B : Type} [DecidableEq ι]

/-- A call makes its next access; the cache is written only when nobody holds it. -/
def Step (σ : Sys ι B) (i : ι) (σ' : Sys ι B) : Prop :=
  ∃ st pc, Pc.Step (∀ j, (σ.pc j).holdsCache = false) σ.store (σ.pc i) st pc ∧
    σ' = ⟨st, Function.update σ.pc i pc⟩

theorem Step.of_pc {σ : Sys ι B} {i : ι} {st : Store B} {pc pc' : Pc B} (hpc : σ.pc i = pc)
    (h : Pc.Step (∀ j, (σ.pc j).holdsCache = false) σ.store pc st pc') :
    σ.Step i ⟨st, Function.update σ.pc i pc'⟩ := ⟨st, pc', hpc ▸ h, rfl⟩

/-- Any calls take any number of steps. -/
def Run : Sys ι B → Sys ι B → Prop := Relation.ReflTransGen fun σ σ' => ∃ i, σ.Step i σ'

/-- No `write_page` takes a step. -/
def FlushRun : Sys ι B → Sys ι B → Prop :=
  Relation.ReflTransGen fun σ σ' => ∃ i, (∀ id buffer, σ.pc i ≠ .writePage id buffer) ∧ σ.Step i σ'

/-- No call has begun, and what differs from the file is dirty: as in a directory that was just
opened, whose cache is empty. -/
structure Started (σ : Sys ι B) : Prop where
  calls : ∀ i, σ.pc i = .flush ∨ ∃ id buffer, σ.pc i = .writePage id buffer
  dirty : ∀ id, σ.store.Differs id → σ.store.dirty id = true

/-- A page is accounted for: it is dirty, or a `write_page` is about to make it so. -/
def Accounted (σ : Sys ι B) (id : DirPageId) : Prop :=
  σ.store.dirty id = true ∨ ∃ i, σ.pc i = .markDirty id

/-- What holds at every moment. -/
structure Inv (σ : Sys ι B) : Prop where
  accounted : ∀ id, σ.store.Differs id → σ.Accounted id
  /-- what a flush has dealt with is in the file -/
  dealtWith : ∀ i, ∀ id ∈ (σ.pc i).dealtWith, ¬ σ.store.Differs id
  /-- what a flush is about to write is what is cached -/
  current : ∀ i behind id buffer ahead, σ.pc i = .write behind id buffer ahead →
    σ.store.cache id = some buffer

variable {σ σ' : Sys ι B} {i : ι} {st : Store B} {pc : Pc B} {id : DirPageId}

/-- A step of another call leaves a page accounted for that stays dirty. -/
theorem Accounted.step (h : σ.Accounted id) (hdirty : σ.store.dirty id = true → st.dirty id = true)
    (hpc : σ.pc i ≠ .markDirty id) : Accounted ⟨st, Function.update σ.pc i pc⟩ id := by
  rcases h with h | ⟨j, hj⟩
  · exact Or.inl (hdirty h)
  · have hji : j ≠ i := fun heq => hpc (heq ▸ hj)
    exact Or.inr ⟨j, (Function.update_of_ne hji pc σ.pc).trans hj⟩

namespace Inv

omit [DecidableEq ι] in
/-- Before any call. -/
theorem start (h : σ.Started) : Inv σ where
  accounted id hid := Or.inl (h.dirty id hid)
  dealtWith i id hid := by
    rcases h.calls i with hpc | ⟨id', buffer, hpc⟩ <;>
    · rw [hpc] at hid
      exact absurd hid List.not_mem_nil
  current i behind id buffer ahead hpc := by
    rcases h.calls i with h | ⟨id', buffer', h⟩ <;> exact absurd (h.symm.trans hpc) nofun

/-- A step that leaves the cache, and makes no page differ that did not. -/
theorem update (h : Inv σ) (hcache : st.cache = σ.store.cache)
    (hdiffers : ∀ id, st.Differs id → σ.store.Differs id)
    (haccounted : ∀ id, st.Differs id → Accounted ⟨st, Function.update σ.pc i pc⟩ id)
    (hdealt : ∀ id ∈ pc.dealtWith, ¬ st.Differs id)
    (hcurrent : ∀ behind id buffer ahead, pc = .write behind id buffer ahead →
      st.cache id = some buffer) : Inv ⟨st, Function.update σ.pc i pc⟩ where
  accounted := haccounted
  dealtWith j := by
    by_cases hji : j = i
    · rw [hji]
      simpa only [Function.update_self] using hdealt
    · simp only [Function.update_of_ne hji]
      exact fun id hid hdiff => h.dealtWith j id hid (hdiffers id hdiff)
  current j behind id buffer ahead := by
    by_cases hji : j = i
    · rw [hji]
      simpa only [Function.update_self] using hcurrent behind id buffer ahead
    · simp only [Function.update_of_ne hji, hcache]
      exact h.current j behind id buffer ahead

/-- A step of a flush that touches nothing. -/
theorem idle (h : Inv σ) (hpc : ∀ id, σ.pc i ≠ .markDirty id)
    (hdealt : ∀ id ∈ pc.dealtWith, ¬ σ.store.Differs id)
    (hcurrent : ∀ behind id buffer ahead, pc = .write behind id buffer ahead →
      σ.store.cache id = some buffer) : Inv ⟨σ.store, Function.update σ.pc i pc⟩ :=
  h.update rfl (fun _ hid => hid) (fun id hid => (h.accounted id hid).step (fun hd => hd) (hpc id))
    hdealt hcurrent

/-- **The cache changes only while no flush has anything to lose.** -/
theorem insert (h : Inv σ) {buffer : B} (hfree : ∀ j, (σ.pc j).holdsCache = false)
    (hpc : σ.pc i = .writePage id buffer) :
    Inv ⟨σ.store.insert id buffer, Function.update σ.pc i (.markDirty id)⟩ := by
  have hlocked : ∀ j, (Function.update σ.pc i (.markDirty id) j).holdsCache = false := fun j => by
    by_cases hji : j = i
    · rw [hji, Function.update_self]
      rfl
    · rw [Function.update_of_ne hji]
      exact hfree j
  refine ⟨fun id' hid => ?_, fun j id' hid => ?_, fun j behind id' buffer' ahead hj => ?_⟩
  · by_cases heq : id' = id
    · exact Or.inr ⟨i, heq ▸ Function.update_self ..⟩
    · obtain ⟨buffer', hcache, hfile⟩ := hid
      have hother : (σ.store.insert id buffer).cache id' = σ.store.cache id' :=
        Function.update_of_ne heq ..
      have hid : σ.store.Differs id' := ⟨buffer', hother.symm.trans hcache, hfile⟩
      exact (h.accounted id' hid).step (fun hd => hd) (hpc ▸ nofun)
  · have hnil := Pc.dealtWith_of_not_holds (hlocked j)
    exact absurd (hnil ▸ hid) List.not_mem_nil
  · have hnone := hlocked j
    rw [show Function.update σ.pc i (.markDirty id) j = .write behind id' buffer' ahead from hj] at hnone
    cases hnone

/-- **The page written is what is cached**, so it differs no more. -/
theorem write (h : Inv σ) {behind ahead : List DirPageId} {buffer : B}
    (hpc : σ.pc i = .write behind id buffer ahead) : Inv ⟨σ.store.writeAll id buffer,
      Function.update σ.pc i (.loop (behind ++ [id]) ahead)⟩ := by
  have hcache := h.current i behind id buffer ahead hpc
  refine h.update rfl (fun _ hid => (hid.of_writeAll hcache).2) (fun id' hid => ?_)
    (fun id' hid hdiff => ?_) nofun
  · exact (h.accounted id' (hid.of_writeAll hcache).2).step (fun hd => hd) (hpc ▸ nofun)
  · obtain ⟨hne, hdiff⟩ := hdiff.of_writeAll hcache
    rcases List.mem_append.1 hid with hid | hid
    · exact h.dealtWith i id' (hpc ▸ hid) hdiff
    · exact hne (List.mem_singleton.1 hid)

/-- **A flush takes out of the dirty set only what is in the file.** -/
theorem clear (h : Inv σ) {pages : List DirPageId} (hpc : σ.pc i = .clear pages) :
    Inv ⟨σ.store.clear pages, Function.update σ.pc i (.flushed (.ok ()))⟩ := by
  refine h.update rfl (fun _ hid => hid) (fun id hid => ?_) (fun _ hid => absurd hid List.not_mem_nil)
    nofun
  have hnot : id ∉ pages := fun hmem => h.dealtWith i id (hpc ▸ hmem) hid
  refine (h.accounted id hid).step (fun hd => ?_) (hpc ▸ nofun)
  exact Bool.and_eq_true_iff.2 ⟨hd, decide_eq_true hnot⟩

/-- The page that a write was about to mark is marked. -/
theorem mark (h : Inv σ) (hpc : σ.pc i = .markDirty id) :
    Inv ⟨σ.store.markDirty id, Function.update σ.pc i .written⟩ := by
  refine h.update rfl (fun _ hid => hid) (fun id' hid => ?_) (fun _ hid => absurd hid List.not_mem_nil)
    nofun
  by_cases heq : id' = id
  · exact Or.inl (heq ▸ Function.update_self ..)
  · have hother : (σ.store.markDirty id).dirty id' = σ.store.dirty id' := Function.update_of_ne heq ..
    refine (h.accounted id' hid).step (fun hd => hother.trans hd) fun hmark => ?_
    exact heq (Pc.markDirty.inj (hmark.symm.trans hpc))

/-- **Every access of every call keeps every page accounted for.** -/
theorem step (h : Inv σ) (hstep : σ.Step i σ') : Inv σ' := by
  obtain ⟨st, pc, hstep, rfl⟩ := hstep
  have hdealt := h.dealtWith i
  generalize hpc : σ.pc i = q at hstep hdealt
  cases hstep with
  | insert hfree => exact h.insert hfree hpc
  | mark => exact h.mark hpc
  | clean | snapshot | opened | openFails | seekFails | writeFails | syncFails =>
    exact h.idle (hpc ▸ nofun) (fun _ hid => absurd hid List.not_mem_nil) nofun
  | locked => exact h.idle (hpc ▸ nofun) (fun _ hid => absurd hid List.not_mem_nil) nofun
  | uncached hnone =>
    refine h.idle (hpc ▸ nofun) (fun id' hid => ?_) nofun
    rcases List.mem_append.1 hid with hid | hid
    · exact hdealt id' hid
    · -- what is not cached differs from nothing
      rintro ⟨buffer, hcache, -⟩
      rw [List.mem_singleton.1 hid, hnone] at hcache
      cases hcache
  | seek hcache =>
    refine h.idle (hpc ▸ nofun) hdealt fun behind id buffer ahead heq => ?_
    cases heq
    exact hcache
  | write => exact h.write hpc
  | through | synced => exact h.idle (hpc ▸ nofun) hdealt nofun
  | clear => exact h.clear hpc

theorem run (h : Inv σ) (hrun : σ.Run σ') : Inv σ' := by
  induction hrun with
  | refl => exact h
  | tail _ hstep ih =>
    obtain ⟨i, hstep⟩ := hstep
    exact ih.step hstep

end Inv

end Sys

/-! ### A flush with no write in flight -/

namespace Pc

variable {B : Type}

/-- The pages that a flush has yet to deal with; nothing is known before it has read the dirty
set, nor after it has failed. -/
def ahead : Pc B → Option (List DirPageId)
  | openFile pages | lockCache pages => some pages
  | loop _ ahead => some ahead
  | write _ id _ ahead => some (id :: ahead)
  | sync _ | clear _ | flushed (.ok ()) => some []
  | _ => none

variable {free : Prop} {st st' : Store B} {pc pc' : Pc B}

/-- An access of a flush leaves the cache, and makes no page differ that did not. -/
theorem Step.of_flush (h : Step free st pc st' pc') (hwrite : ∀ id buffer, pc ≠ .writePage id buffer)
    (hmark : ∀ id, pc ≠ .markDirty id)
    (hcurrent : ∀ behind id buffer ahead, pc = .write behind id buffer ahead →
      st.cache id = some buffer) :
    st'.cache = st.cache ∧ (∀ id, st'.Differs id → st.Differs id) ∧ ∀ id, pc' ≠ .markDirty id := by
  cases h with
  | insert => exact absurd rfl (hwrite _ _)
  | mark => exact absurd rfl (hmark _)
  | write => exact ⟨rfl, fun _ hid => (hid.of_writeAll (hcurrent _ _ _ _ rfl)).2, nofun⟩
  | _ => exact ⟨rfl, fun _ hid => hid, nofun⟩

/-- **Only what a flush has yet to deal with may differ**, if all that differed was dirty. -/
theorem Step.ahead (h : Step free st pc st' pc') (hwrite : ∀ id buffer, pc ≠ .writePage id buffer)
    (hmark : ∀ id, pc ≠ .markDirty id)
    (hcurrent : ∀ behind id buffer ahead, pc = .write behind id buffer ahead →
      st.cache id = some buffer)
    (hdirty : ∀ id, st.Differs id → st.dirty id = true)
    (hahead : ∀ pages, pc.ahead = some pages → ∀ id, st.Differs id → id ∈ pages) :
    ∀ pages, pc'.ahead = some pages → ∀ id, st'.Differs id → id ∈ pages := by
  intro pages hpages id hid
  cases h with
  | insert => exact absurd rfl (hwrite _ _)
  | mark => exact absurd rfl (hmark _)
  | clean hclean => exact absurd ((hclean id).symm.trans (hdirty id hid)) nofun
  | snapshot _ _ hcopy =>
    cases hpages
    exact (hcopy id).2 (hdirty id hid)
  | openFails | seekFails | writeFails | syncFails => cases hpages
  | uncached hnone =>
    cases hpages
    refine (List.mem_cons.1 (hahead _ rfl id hid)).resolve_left ?_
    rintro rfl
    obtain ⟨buffer, hcache, -⟩ := hid
    cases hnone.symm.trans hcache
  | write =>
    cases hpages
    obtain ⟨hne, hid⟩ := hid.of_writeAll (hcurrent _ _ _ _ rfl)
    exact (List.mem_cons.1 (hahead _ rfl id hid)).resolve_left hne
  | opened | locked | seek | through | synced | clear =>
    cases hpages
    exact hahead _ rfl id hid

end Pc

namespace Sys

variable {ι B : Type} [DecidableEq ι] {σ₀ σ σ' : Sys ι B} {i j : ι}

/-- A flush on its way while no write is in flight. -/
structure Settling (σ : Sys ι B) (i : ι) : Prop where
  inv : Inv σ
  quiet : ∀ j id, σ.pc j ≠ .markDirty id
  ahead : ∀ pages, (σ.pc i).ahead = some pages → ∀ id, σ.store.Differs id → id ∈ pages

theorem Settling.step (h : Settling σ i) (hstep : σ.Step j σ')
    (hwrite : ∀ id buffer, σ.pc j ≠ .writePage id buffer) :
    Settling σ' i ∧ σ'.store.cache = σ.store.cache := by
  have hinv := h.inv.step hstep
  obtain ⟨st, pc, hstep, rfl⟩ := hstep
  obtain ⟨hcache, hdiffers, hmark⟩ := hstep.of_flush hwrite (h.quiet j) (h.inv.current j)
  refine ⟨⟨hinv, fun k id => ?_, ?_⟩, hcache⟩
  · by_cases hk : k = j
    · rw [hk]
      simpa only [Function.update_self] using hmark id
    · simpa only [Function.update_of_ne hk] using h.quiet k id
  · by_cases hi : i = j
    · subst hi
      -- with no write in flight the dirty set accounts for all that differs
      have hdirty : ∀ id, σ.store.Differs id → σ.store.dirty id = true := fun id hid =>
        (h.inv.accounted id hid).resolve_right fun ⟨k, hk⟩ => h.quiet k id hk
      simpa only [Function.update_self] using
        hstep.ahead hwrite (h.quiet i) (h.inv.current i) hdirty h.ahead
    · simp only [Function.update_of_ne hi]
      exact fun pages hpages id hid => h.ahead pages hpages id (hdiffers id hid)

theorem Settling.run (h : Settling σ i) (hrun : σ.FlushRun σ') :
    Settling σ' i ∧ σ'.store.cache = σ.store.cache := by
  induction hrun with
  | refl => exact ⟨h, rfl⟩
  | tail _ hstep ih =>
    obtain ⟨hsettling, hcache⟩ := ih
    obtain ⟨j, hwrite, hstep⟩ := hstep
    obtain ⟨hnext, hsame⟩ := hsettling.step hstep hwrite
    exact ⟨hnext, hsame.trans hcache⟩

/-- **No dirty page is lost.**  At every moment a page that differs from the file is dirty, or a
`write_page` is about to make it so.  Once no write is in flight, the file has every page as it
is cached when a further flush returns `Ok`, whatever other flushes do meanwhile. -/
theorem flush_loses_nothing (hstart : σ₀.Started) (hrun : σ₀.Run σ) :
    (∀ id, σ.store.Differs id → σ.store.dirty id = true ∨ ∃ i, σ.pc i = .markDirty id) ∧
    ((∀ i id, σ.pc i ≠ .markDirty id) → ∀ σ' i, σ.FlushRun σ' → σ.pc i = .flush →
      σ'.pc i = .flushed (.ok ()) → σ'.store.cache = σ.store.cache ∧
        ∀ id buffer, σ'.store.cache id = some buffer → σ'.store.file id = some buffer) := by
  have hinv := (Inv.start hstart).run hrun
  refine ⟨hinv.accounted, fun hquiet σ' i hflush hpc hdone => ?_⟩
  have hsettling : Settling σ i := ⟨hinv, hquiet, fun pages hpages => by rw [hpc] at hpages; cases hpages⟩
  obtain ⟨hend, hcache⟩ := hsettling.run hflush
  refine ⟨hcache, fun id buffer hid => ?_⟩
  by_contra hfile
  exact absurd (hend.ahead [] (by rw [hdone]; rfl) id ⟨buffer, hid, hfile⟩) List.not_mem_nil

/-- A call that runs by itself runs among the others. -/
theorem FlushRun.of_run {x : Store B × Pc B} (h : Pc.Run (σ.store, σ.pc i) x) :
    σ.FlushRun ⟨x.1, Function.update σ.pc i x.2⟩ := by
  induction h with
  | refl =>
    rw [Function.update_eq_self]
    exact .refl
  | @tail y z _ hstep ih =>
    have hpc : Function.update σ.pc i y.2 i = y.2 := Function.update_self ..
    refine ih.tail ⟨i, fun id buffer hwrite => ?_, z.1, z.2, ?_, ?_⟩
    · rw [← hpc] at hstep
      exact hstep.not_writePage hwrite
    · rw [← hpc] at hstep
      exact hstep.mono False.elim
    · rw [Function.update_idem]

/-- A write of page 3, and then a flush. -/
theorem flush_loses_nothing_two : ∃ σ' : Sys Bool ℕ, σ'.pc false = .flushed (.ok ()) ∧
    σ'.store.file 3 = some 7 := by
  obtain ⟨σ₀, hσ₀⟩ : ∃ σ₀ : Sys Bool ℕ, σ₀ = ⟨⟨fun _ => none, fun _ => none, fun _ => false⟩,
    fun b => if b then .writePage 3 7 else .flush⟩ := ⟨_, rfl⟩
  have hstart : σ₀.Started := by
    rw [hσ₀]
    refine ⟨fun i => ?_, fun id ⟨buffer, hcache, _⟩ => nomatch hcache⟩
    cases i with
    | false => exact Or.inl rfl
    | true => exact Or.inr ⟨3, 7, rfl⟩
  have hfree : ∀ j, (σ₀.pc j).holdsCache = false := by
    rw [hσ₀]
    decide
  -- the write, in two accesses
  have hinsert : σ₀.Step true ⟨σ₀.store.insert 3 7, Function.update σ₀.pc true (.markDirty 3)⟩ :=
    .of_pc (by rw [hσ₀]; rfl) (.insert hfree)
  obtain ⟨σ, hσ⟩ : ∃ σ : Sys Bool ℕ, σ = ⟨(σ₀.store.insert 3 7).markDirty 3,
    Function.update (Function.update σ₀.pc true (.markDirty 3)) true .written⟩ := ⟨_, rfl⟩
  have hmark : Step ⟨σ₀.store.insert 3 7, Function.update σ₀.pc true (.markDirty 3)⟩ true σ :=
    hσ ▸ .of_pc (show _ = Pc.markDirty 3 from rfl) .mark
  have hrun : σ₀.Run σ := .tail (.single ⟨true, hinsert⟩) ⟨true, hmark⟩
  have hpc : σ.pc false = .flush := by
    rw [hσ, hσ₀]
    rfl
  have hcache : σ.store.cache 3 = some 7 := by
    rw [hσ]
    rfl
  have hcopy : ∀ id, id ∈ [3] ↔ σ.store.dirty id = true := fun id => by
    rw [hσ, hσ₀, List.mem_singleton]
    by_cases hid : id = 3
    · exact iff_of_true hid (hid ▸ Function.update_self ..)
    · exact iff_of_false hid fun htrue => nomatch (Function.update_of_ne hid ..).symm.trans htrue
  -- the flush, access by access
  have hflush : Pc.Run (σ.store, σ.pc false)
      ((σ.store.writeAll 3 7).clear [3], .flushed (.ok ())) := by
    rw [hpc]
    refine .head (b := (σ.store, .openFile [3])) (.snapshot (by decide) (by decide) hcopy) ?_
    refine .head (b := (σ.store, .lockCache [3])) .opened ?_
    refine .head (b := (σ.store, .loop [] [3])) .locked ?_
    refine .head (b := (σ.store, .write [] 3 7 [])) (.seek hcache) ?_
    refine .head (b := (σ.store.writeAll 3 7, .loop [3] [])) .write ?_
    refine .head (b := (σ.store.writeAll 3 7, .sync [3])) .through ?_
    refine .head (b := (σ.store.writeAll 3 7, .clear [3])) .synced ?_
    exact .single .clear
  have hquiet : ∀ i id, σ.pc i ≠ .markDirty id := by
    rw [hσ, hσ₀]
    rintro (_ | _) id <;> exact nofun
  exact ⟨_, rfl, ((flush_loses_nothing hstart hrun).2 hquiet _ false (.of_run hflush) hpc rfl).2 3 7
    hcache⟩

end Sys

/-! ### As the single calls do it -/

namespace Store

variable {B : Type}

/-- The pages of a list are written as they are cached. -/
def save (st : Store B) (pages : List DirPageId) : Store B :=
  { st with
    file := fun id => if id ∈ pages then (st.cache id).orElse fun _ => st.file id else st.file id }

variable {st : Store B} {pages : List DirPageId} {id : DirPageId} {buffer : B}

theorem save_nil : st.save [] = st := by
  simp only [save, List.not_mem_nil, if_false]

/-- One more page is written, or is not cached. -/
theorem save_append (hcache : st.cache id = some buffer) :
    st.save (pages ++ [id]) = (st.save pages).writeAll id buffer := by
  rw [save, writeAll, save, Store.mk.injEq]
  refine ⟨funext fun id' => ?_, rfl, rfl⟩
  by_cases heq : id' = id
  · rw [heq, Function.update_self, if_pos List.mem_concat_self, hcache]
    rfl
  · have hmem : id' ∈ pages ++ [id] ↔ id' ∈ pages := by
      rw [List.mem_append, List.mem_singleton, or_iff_left heq]
    rw [Function.update_of_ne heq]
    simp only [hmem]

theorem save_append_of_none (hcache : st.cache id = none) :
    st.save (pages ++ [id]) = st.save pages := by
  rw [save, save, Store.mk.injEq]
  refine ⟨funext fun id' => ?_, rfl, rfl⟩
  by_cases heq : id' = id
  · rw [heq, if_pos List.mem_concat_self, hcache]
    split_ifs <;> rfl
  · have hmem : id' ∈ pages ++ [id] ↔ id' ∈ pages := by
      rw [List.mem_append, List.mem_singleton, or_iff_left heq]
    simp only [hmem]

end Store

namespace Pc

variable {B : Type} {st₀ st st' : Store B} {pc pc' : Pc B}

/-- The list is a copy of the dirty set. -/
def Copies (st : Store B) (pages : List DirPageId) : Prop :=
  ∀ id, id ∈ pages ↔ st.dirty id = true

/-- What a flush has done to a directory that nobody else uses. -/
def Alone (st₀ st : Store B) : Pc B → Prop
  | flush => st = st₀
  | openFile pages | lockCache pages => Copies st₀ pages ∧ st = st₀
  | loop behind ahead => Copies st₀ (behind ++ ahead) ∧ st = st₀.save behind
  | write behind id buffer ahead =>
    Copies st₀ (behind ++ id :: ahead) ∧ st₀.cache id = some buffer ∧ st = st₀.save behind
  | sync pages | clear pages => Copies st₀ pages ∧ st = st₀.save pages
  | flushed (.ok ()) => ∃ pages, Copies st₀ pages ∧ st = (st₀.save pages).clear pages
  | flushed (.error _) => True
  | _ => False

theorem Alone.step (h : Alone st₀ st pc) (hstep : Step False st pc st' pc') : Alone st₀ st' pc' := by
  cases hstep with
  | insert | mark => exact h.elim
  | clean hclean =>
    obtain rfl : st = st₀ := h
    refine ⟨[], fun id => ?_, ?_⟩
    · rw [hclean id]
      exact iff_of_false List.not_mem_nil nofun
    · rw [Store.save_nil, Store.clear]
      simp only [List.not_mem_nil, not_false_iff, decide_true, Bool.and_true]
  | snapshot _ _ hcopy =>
    obtain rfl : st = st₀ := h
    exact ⟨hcopy, rfl⟩
  | opened => exact h
  | openFails | seekFails | writeFails | syncFails => trivial
  | locked =>
    obtain ⟨hcopy, rfl⟩ := h
    exact ⟨hcopy, Store.save_nil.symm⟩
  | @uncached behind id ahead hnone =>
    obtain ⟨hcopy, rfl⟩ := h
    have hsave : st₀.save (behind ++ [id]) = st₀.save behind := Store.save_append_of_none hnone
    refine ⟨?_, hsave.symm⟩
    rwa [List.append_assoc]
  | seek hcache =>
    obtain ⟨hcopy, rfl⟩ := h
    exact ⟨hcopy, hcache, rfl⟩
  | write =>
    obtain ⟨hcopy, hcache, rfl⟩ := h
    refine ⟨?_, (Store.save_append hcache).symm⟩
    rwa [List.append_assoc]
  | through =>
    obtain ⟨hcopy, rfl⟩ := h
    exact ⟨by rwa [List.append_nil] at hcopy, rfl⟩
  | synced => exact h
  | clear =>
    obtain ⟨hcopy, rfl⟩ := h
    exact ⟨_, hcopy, rfl⟩

end Pc

end Flush

namespace BTreePageDirectory

open Flush

/-- What of a directory `write_page` and `flush_all_dirty` work on. -/
def pages (d : BTreePageDirectory) : Store DirPage := ⟨d.file, d.cache, d.dirty⟩

variable {d : BTreePageDirectory} {st : Store DirPage}

/-- **A flush by itself** that returns `Ok` is `flush_all_dirty` in one step. -/
theorem pages_flushAllDirty (h : Flush.Pc.Run (d.pages, .flush) (st, .flushed (.ok ()))) :
    st = d.flushAllDirty.pages := by
  have halone : ∀ x, Flush.Pc.Run (d.pages, .flush) x → Flush.Pc.Alone d.pages x.1 x.2 := by
    intro x hx
    induction hx with
    | refl => exact rfl
    | tail _ hstep ih => exact ih.step hstep
  obtain ⟨copy, hcopy, rfl⟩ := halone _ h
  rw [Store.clear, Store.save, pages, flushAllDirty, pages, Store.mk.injEq]
  refine ⟨funext fun id => ?_, rfl, funext fun id => ?_⟩
  · simp only [hcopy id]
    rfl
  · cases hdirty : d.dirty id with
    | false => exact Bool.and_eq_false_imp.2 fun htrue => absurd (hdirty.symm.trans htrue) nofun
    | true =>
      have hmem : id ∈ copy := (hcopy id).2 hdirty
      simp only [hmem, not_true, decide_false, Bool.and_false]

end BTreePageDirectory

end Directory
end Abdb
