/-
# Reads and writes of one directory page side by side

`read_page` and `write_page` of `src/storage/directory/directory.rs` on one page, any number of each,
interleaved at their awaits, with a file that does not fail.  `read_page` looks into the cache, and on a
miss opens, seeks and reads the file with no lock held and then puts what it read into the cache, whatever
is there by now.

The bytes of the file are version 0, and each `write_page` puts the next version into the cache.  A read
that puts its bytes into the cache after a write has come between its miss and this takes the cache back to
version 0 (`insert_goes_back`, `goes_back`); in the runs without such a read the cache never goes back, and
a read that starts after a write has finished returns its bytes or newer ones (`never_back`).
-/

import Mathlib.Logic.Function.Basic
import Mathlib.Logic.Relation
import Abdb.Directory.Machine

namespace Abdb
namespace Directory
namespace Stale

/-- What the calls on a page work on, for any type of page buffers: its bytes in the file, its entry in
the cache and in the dirty set.  The cached bytes carry their version, and the bytes that `write_page` has
put there are kept in order. -/
structure Store (B : Type) where
  file : B
  cache : Option (B × ℕ)
  dirty : Bool
  written : List B

/-- Where a call stands. -/
inductive Pc (B : Type)
  /-- `read_page`, about to take the cache for reading -/
  | readPage
  /-- it missed; `seen` is how many writes there were -/
  | openFile (seen : ℕ)
  | seek (seen : ℕ)
  | readExact (seen : ℕ)
  /-- about to take the cache for writing, with the bytes of the file -/
  | cachePage (buffer : B) (seen : ℕ)
  /-- `read_page` has returned bytes of a version -/
  | read (buffer : B) (version : ℕ)
  /-- `write_page`, about to take the cache for writing -/
  | writePage (buffer : B)
  /-- about to put the page into the dirty set -/
  | markDirty (buffer : B) (version : ℕ)
  /-- `write_page` has returned, and its bytes were this version -/
  | written (buffer : B) (version : ℕ)

/-- How many writes there were when a read that is on its way missed. -/
def Pc.seen {B : Type} : Pc B → Option ℕ
  | openFile seen | seek seen | readExact seen | cachePage _ seen => some seen
  | _ => none

/-- What a write has put into the cache. -/
def Pc.put {B : Type} : Pc B → Option (B × ℕ)
  | markDirty buffer version | written buffer version => some (buffer, version)
  | _ => none

/-- One access of a call. -/
inductive Pc.Step {B : Type} : Store B → Pc B → Store B → Pc B → Prop
  | hit {st buffer version} : st.cache = some (buffer, version) →
    Step st readPage st (read buffer version)
  | miss {st} : st.cache = none → Step st readPage st (openFile st.written.length)
  | opened {st seen} : Step st (openFile seen) st (seek seen)
  | sought {st seen} : Step st (seek seen) st (readExact seen)
  | readFile {st seen} : Step st (readExact seen) st (cachePage st.file seen)
  | insert {st buffer seen} :
    Step st (cachePage buffer seen) { st with cache := some (buffer, 0) } (read buffer 0)
  | put {st buffer} : Step st (writePage buffer)
    { st with cache := some (buffer, st.written.length + 1), written := st.written ++ [buffer] }
    (markDirty buffer (st.written.length + 1))
  | mark {st buffer version} :
    Step st (markDirty buffer version) { st with dirty := true } (written buffer version)

/-- A page and the calls on it. -/
structure Sys (ι B : Type) where
  store : Store B
  pc : ι → Pc B

namespace Sys

variable {ι B : Type} [DecidableEq ι]

/-- A call makes its next access. -/
def Step (σ : Sys ι B) (i : ι) (σ' : Sys ι B) : Prop :=
  ∃ st pc, Pc.Step σ.store (σ.pc i) st pc ∧ σ' = ⟨st, Function.update σ.pc i pc⟩

omit [DecidableEq ι] in
/-- The next access of a call does not put the bytes of the file into the cache, unless no write has put
any since the call missed. -/
def Undisturbed (σ : Sys ι B) (i : ι) : Prop :=
  ∀ buffer seen, σ.pc i = .cachePage buffer seen → σ.store.written.length = seen

/-- Any calls take any number of steps. -/
def Run : Sys ι B → Sys ι B → Prop := Relation.ReflTransGen fun σ σ' => ∃ i, σ.Step i σ'

/-- A run whose steps are all undisturbed. -/
def UndisturbedRun : Sys ι B → Sys ι B → Prop :=
  Relation.ReflTransGen fun σ σ' => ∃ i, σ.Undisturbed i ∧ σ.Step i σ'

/-- No call has begun, and no write is counted yet. -/
structure Started (σ : Sys ι B) : Prop where
  calls : ∀ i, σ.pc i = .readPage ∨ ∃ buffer, σ.pc i = .writePage buffer
  written : σ.store.written = []
  cache : ∀ buffer version, σ.store.cache = some (buffer, version) → version = 0

/-- These are the bytes of a version: what `write_page` put there then, and anything as version 0. -/
def IsVersion (st : Store B) (buffer : B) (version : ℕ) : Prop :=
  version = 0 ∨ st.written[version - 1]? = some buffer

/-- What holds at every moment of an undisturbed run. -/
structure Inv (σ : Sys ι B) : Prop where
  /-- the cache has the last version -/
  current : ∀ buffer version, σ.store.cache = some (buffer, version) →
    version = σ.store.written.length ∧ IsVersion σ.store buffer version
  cached : σ.store.written ≠ [] → σ.store.cache ≠ none
  /-- a read on its way has missed before any write -/
  missed : ∀ i seen, (σ.pc i).seen = some seen → seen = 0
  read : ∀ i buffer version, σ.pc i = .read buffer version → IsVersion σ.store buffer version
  put : ∀ i buffer version, (σ.pc i).put = some (buffer, version) →
    0 < version ∧ version ≤ σ.store.written.length ∧ IsVersion σ.store buffer version

variable {σ₀ σ σ' : Sys ι B} {i j : ι} {st st' : Store B} {pc : Pc B} {buffer : B} {version : ℕ}

theorem IsVersion.mono (h : IsVersion st buffer version) (hgrow : st.written <+: st'.written) :
    IsVersion st' buffer version := by
  refine h.imp_right fun hget => ?_
  obtain ⟨rest, hrest⟩ := hgrow
  rw [← hrest, List.getElem?_append_left (List.getElem?_eq_some_iff.1 hget).1, hget]

namespace Inv

omit [DecidableEq ι] in
/-- Before any call. -/
theorem start (h : σ.Started) : Inv σ where
  current buffer version hcache := by
    obtain rfl := h.cache buffer version hcache
    exact ⟨by rw [h.written]; rfl, .inl rfl⟩
  cached hne := absurd h.written hne
  missed i seen hseen := by
    rcases h.calls i with hpc | ⟨buffer, hpc⟩ <;> rw [hpc] at hseen <;> cases hseen
  read i buffer version hread := by
    rcases h.calls i with hpc | ⟨buffer', hpc⟩ <;> rw [hpc] at hread <;> cases hread
  put i buffer version hput := by
    rcases h.calls i with hpc | ⟨buffer', hpc⟩ <;> rw [hpc] at hput <;> cases hput

/-- An access of one call, by what it does to the cache and where the call stands after it. -/
theorem update (h : Inv σ) (hgrow : σ.store.written <+: st.written)
    (hcurrent : ∀ buffer version, st.cache = some (buffer, version) →
      version = st.written.length ∧ IsVersion st buffer version)
    (hcached : st.written ≠ [] → st.cache ≠ none) (hseen : ∀ seen, pc.seen = some seen → seen = 0)
    (hread : ∀ buffer version, pc = .read buffer version → IsVersion st buffer version)
    (hput : ∀ buffer version, pc.put = some (buffer, version) →
      0 < version ∧ version ≤ st.written.length ∧ IsVersion st buffer version) :
    Inv ⟨st, Function.update σ.pc i pc⟩ where
  current := hcurrent
  cached := hcached
  missed j := by
    by_cases hji : j = i
    · simpa only [hji, Function.update_self] using hseen
    · simpa only [Function.update_of_ne hji] using h.missed j
  read j := by
    by_cases hji : j = i
    · simpa only [hji, Function.update_self] using hread
    · simp only [Function.update_of_ne hji]
      exact fun buffer version hpc => (h.read j buffer version hpc).mono hgrow
  put j := by
    by_cases hji : j = i
    · simpa only [hji, Function.update_self] using hput
    · simp only [Function.update_of_ne hji]
      intro buffer version hpc
      obtain ⟨hpos, hle, hversion⟩ := h.put j buffer version hpc
      exact ⟨hpos, hle.trans hgrow.length_le, hversion.mono hgrow⟩

/-- An access of a read on its way that touches nothing. -/
theorem idle (h : Inv σ) (hseen : ∀ seen, pc.seen = some seen → seen = 0)
    (hread : ∀ buffer version, pc = .read buffer version → IsVersion σ.store buffer version)
    (hput : pc.put = none) : Inv ⟨σ.store, Function.update σ.pc i pc⟩ :=
  h.update List.prefix_rfl h.current h.cached hseen hread fun _ _ heq => by rw [hput] at heq; cases heq

/-- **Every undisturbed access keeps the last version in the cache.** -/
theorem step (h : Inv σ) (hfree : σ.Undisturbed i) (hstep : σ.Step i σ') : Inv σ' := by
  obtain ⟨st, pc, hstep, rfl⟩ := hstep
  have hmissed := h.missed i
  have hputs := h.put i
  rw [Undisturbed] at hfree
  generalize hpc : σ.pc i = q at hstep hmissed hputs hfree
  cases hstep with
  | hit hcache =>
    refine h.idle nofun (fun buffer version heq => ?_) rfl
    cases heq
    exact (h.current _ _ hcache).2
  | miss hcache =>
    refine h.idle (fun seen hseen => ?_) nofun rfl
    cases hseen
    by_contra hne
    exact h.cached (fun hnil => hne (congrArg List.length hnil)) hcache
  | opened | sought | readFile => exact h.idle hmissed nofun rfl
  | @insert buffer seen =>
    -- no write came in between, and there was none before
    have hnil : σ.store.written = [] := List.length_eq_zero_iff.1
      ((hfree buffer seen rfl).trans (hmissed seen rfl))
    refine h.update List.prefix_rfl (fun buffer' version heq => ?_) nofun nofun
      (fun buffer' version heq => ?_)
      nofun
    · cases heq
      exact ⟨(congrArg List.length hnil).symm, .inl rfl⟩
    · cases heq
      exact .inl rfl
  | @put buffer =>
    have hlast : IsVersion ⟨σ.store.file, some (buffer, σ.store.written.length + 1), σ.store.dirty,
        σ.store.written ++ [buffer]⟩ buffer (σ.store.written.length + 1) := .inr List.getElem?_concat_length
    have hlen : (σ.store.written ++ [buffer]).length = σ.store.written.length + 1 := List.length_append
    refine h.update (List.prefix_append _ _) (fun buffer' version heq => ?_) nofun nofun nofun
      fun buffer' version heq => ?_
    · cases heq
      exact ⟨hlen.symm, hlast⟩
    · cases heq
      exact ⟨Nat.succ_pos _, hlen.ge, hlast⟩
  | mark =>
    exact h.update List.prefix_rfl h.current h.cached nofun nofun fun buffer' version heq => hputs _ _ heq

theorem run (h : Inv σ) (hrun : σ.UndisturbedRun σ') : Inv σ' := by
  induction hrun with
  | refl => exact h
  | tail _ hstep ih =>
    obtain ⟨i, hfree, hstep⟩ := hstep
    exact ih.step hfree hstep

/-- **A disturbed access takes the cache back**, from a version that a write put there to version 0. -/
theorem insert_goes_back (h : Inv σ) (hfree : ¬ σ.Undisturbed i) (hstep : σ.Step i σ') :
    (∃ buffer version, σ.store.cache = some (buffer, version) ∧ 0 < version) ∧
      ∃ buffer, σ'.store.cache = some (buffer, 0) := by
  obtain ⟨st, pc, hstep, rfl⟩ := hstep
  simp only [Undisturbed, not_forall] at hfree
  obtain ⟨buffer, seen, hpc, hne⟩ := hfree
  obtain rfl := h.missed i seen (hpc ▸ rfl)
  have hwritten : σ.store.written ≠ [] := fun hnil => hne (congrArg List.length hnil)
  obtain ⟨⟨buffer', version⟩, hcache⟩ := Option.ne_none_iff_exists'.1 (h.cached hwritten)
  obtain ⟨rfl, -⟩ := h.current buffer' version hcache
  refine ⟨⟨buffer', _, hcache, List.length_pos_iff.2 hwritten⟩, ?_⟩
  rw [hpc] at hstep
  cases hstep
  exact ⟨buffer, rfl⟩

end Inv

/-- What an access leaves: the writes so far, and an entry of the cache. -/
theorem Step.grows (h : σ.Step i σ') : σ.store.written <+: σ'.store.written ∧
    (σ.store.cache ≠ none → σ'.store.cache ≠ none) := by
  obtain ⟨st, pc, hstep, rfl⟩ := h
  generalize σ.pc i = q at hstep
  cases hstep with
  | put => exact ⟨List.prefix_append _ _, nofun⟩
  | insert => exact ⟨List.prefix_rfl, nofun⟩
  | _ => exact ⟨List.prefix_rfl, id⟩

theorem UndisturbedRun.grows (h : σ.UndisturbedRun σ') : σ.store.written <+: σ'.store.written ∧
    (σ.store.cache ≠ none → σ'.store.cache ≠ none) := by
  induction h with
  | refl => exact ⟨List.prefix_rfl, id⟩
  | tail _ hstep ih =>
    obtain ⟨i, -, hstep⟩ := hstep
    obtain ⟨hgrow, hcache⟩ := hstep.grows
    exact ⟨ih.1.trans hgrow, hcache ∘ ih.2⟩

/-- **A read that starts once there are this many writes** returns the last of them or a newer one. -/
theorem read_after (h : Inv σ) (hlen : 0 < version ∧ version ≤ σ.store.written.length)
    (hpc : σ.pc j = .readPage) (hrun : σ.UndisturbedRun σ') :
    σ'.pc j = .readPage ∨ ∃ buffer version', σ'.pc j = .read buffer version' ∧ version ≤ version' := by
  induction hrun with
  | refl => exact .inl hpc
  | @tail σ₁ σ₂ hrun hstep ih =>
    obtain ⟨i, -, st, pc, hstep, rfl⟩ := hstep
    by_cases hji : j = i
    · subst hji
      simp only [Function.update_self]
      rcases ih with hread | ⟨buffer, version', hread, hle⟩
      · rw [hread] at hstep
        have hgrow := (UndisturbedRun.grows hrun).1.length_le
        have hinv := h.run hrun
        cases hstep with
        | hit hcache =>
          rw [(hinv.current _ _ hcache).1]
          exact .inr ⟨_, _, rfl, hlen.2.trans hgrow⟩
        | miss hcache =>
          exact absurd hcache (hinv.cached fun hnil => by rw [hnil, List.length_nil] at hgrow; omega)
      · rw [hread] at hstep
        cases hstep
    · simpa only [Function.update_of_ne hji] using ih

/-- **The cache never goes back** in a run in which no read puts the bytes of the file into it after a
write came since its miss, and a read that starts after a write has finished returns its bytes or newer
ones. -/
theorem never_back (hstart : σ₀.Started) (hrun : σ₀.UndisturbedRun σ) (hrun' : σ.UndisturbedRun σ') :
    (∀ buffer version, σ.store.cache = some (buffer, version) →
      ∃ buffer' version', σ'.store.cache = some (buffer', version') ∧ version ≤ version') ∧
    ∀ i j buffer version buffer' version', σ.pc i = .written buffer version → σ.pc j = .readPage →
      σ'.pc j = .read buffer' version' →
        version < version' ∨ version = version' ∧ buffer = buffer' := by
  have hinv := (Inv.start hstart).run hrun
  have hinv' := hinv.run hrun'
  obtain ⟨hgrow, hcached⟩ := hrun'.grows
  constructor
  · intro buffer version hcache
    obtain ⟨⟨buffer', version'⟩, hcache'⟩ := Option.ne_none_iff_exists'.1
      (hcached (by rw [hcache]; exact nofun))
    refine ⟨buffer', version', hcache', ?_⟩
    rw [(hinv.current _ _ hcache).1, (hinv'.current _ _ hcache').1]
    exact hgrow.length_le
  · intro i j buffer version buffer' version' hwritten hread hread'
    obtain ⟨hpos, hle, hversion⟩ := hinv.put i buffer version (hwritten ▸ rfl)
    obtain hpc | ⟨buffer'', version'', hpc, hnewer⟩ := read_after hinv ⟨hpos, hle⟩ hread hrun'
    · cases hpc.symm.trans hread'
    · cases hpc.symm.trans hread'
      refine hnewer.lt_or_eq.imp_right fun heq => ⟨heq, ?_⟩
      obtain rfl := heq
      have hget := (hversion.mono hgrow).resolve_left hpos.ne'
      have hget' := (hinv'.read j _ _ hread').resolve_left hpos.ne'
      exact Option.some_inj.1 (hget.symm.trans hget')

/-- A page that only the file has, with one read, which `false` is, and one write, which `true` is. -/
def readAndWrite : Sys Bool ℕ where
  store := { file := 7, cache := none, dirty := false, written := [] }
  pc call := if call then .writePage 8 else .readPage

theorem started_readAndWrite : readAndWrite.Started where
  calls call := by cases call <;> simp [readAndWrite]
  written := rfl
  cache := nofun

/-- The write comes first. -/
theorem never_back_write_first : ∃ σ : Sys Bool ℕ, readAndWrite.UndisturbedRun σ ∧
    σ.pc true = .written 8 1 ∧ σ.pc false = .readPage ∧
    ∀ σ', σ.UndisturbedRun σ' → ∀ buffer version, σ'.pc false = .read buffer version →
      1 < version ∨ 1 = version ∧ 8 = buffer := by
  have hput : readAndWrite.UndisturbedRun _ :=
    .single ⟨true, nofun, _, _, Pc.Step.put, rfl⟩
  have hmark := hput.tail ⟨true, nofun, _, _, Pc.Step.mark, rfl⟩
  exact ⟨_, hmark, rfl, rfl, fun σ' hrun buffer version hread =>
    (never_back started_readAndWrite hmark hrun).2 true false 8 1 buffer version rfl rfl hread⟩

/-- **The cache can go back.**  The read misses and reads the file, the write puts its bytes into the cache,
and the read puts the bytes of the file over them. -/
theorem goes_back : ¬ ∀ σ₀ σ σ' : Sys Bool ℕ, σ₀.Started → σ₀.Run σ → σ.Run σ' →
    ∀ buffer version, σ.store.cache = some (buffer, version) →
      ∃ buffer' version', σ'.store.cache = some (buffer', version') ∧ version ≤ version' := by
  intro hall
  have hmiss : readAndWrite.Run _ := .single ⟨false, _, _, Pc.Step.miss rfl, rfl⟩
  have hopened := hmiss.tail ⟨false, _, _, Pc.Step.opened, rfl⟩
  have hsought := hopened.tail ⟨false, _, _, Pc.Step.sought, rfl⟩
  have hfile := hsought.tail ⟨false, _, _, Pc.Step.readFile, rfl⟩
  have hput := hfile.tail ⟨true, _, _, Pc.Step.put, rfl⟩
  obtain ⟨buffer, version, hcache, hle⟩ := hall _ _ _ started_readAndWrite hput
    (.single ⟨false, _, _, Pc.Step.insert, rfl⟩) 8 1 rfl
  cases hcache
  exact absurd hle (by decide)

end Sys
end Stale
end Directory
end Abdb
