/-
# Write-back caches

A cache in front of a disk.  A resident value carries a dirty bit; an eviction drops it,
writing it back first if it is dirty, and a flush writes back all that are.  A write goes
to the cache alone, and sets the dirty bit only if it is marked.

What a reader sees, the `view`, follows the writes whatever is evicted or flushed in
between, as long as every clean value is the disk's (`Serves`).  A write that is not
marked keeps that only where the value was dirty already.
-/

import Mathlib.Logic.Function.Basic
import Mathlib.Tactic.Common

namespace Abdb
namespace Lib

/-- Resident values with their dirty bits, and the values on the disk. -/
@[ext]
structure WriteBack (κ α : Type*) where
  frame : κ → Option (α × Bool)
  disk : κ → Option α

namespace WriteBack

variable {κ α : Type*}

/-- The value a reader gets: the resident one, else the one on the disk. -/
def view (c : WriteBack κ α) (k : κ) : Option α :=
  match c.frame k with
  | some (v, _) => some v
  | none => c.disk k

/-- The key is resident and marked dirty. -/
def isDirty (c : WriteBack κ α) (k : κ) : Bool := (c.frame k).any Prod.snd

/-- Write back every dirty value. -/
def flush (c : WriteBack κ α) : WriteBack κ α where
  frame k := (c.frame k).map fun x => (x.1, false)
  disk k :=
    match c.frame k with
    | some (v, true) => some v
    | _ => c.disk k

variable [DecidableEq κ]

/-- Make a key resident. -/
def load (c : WriteBack κ α) (k : κ) : WriteBack κ α :=
  match c.frame k with
  | some _ => c
  | none => { c with frame := Function.update c.frame k ((c.disk k).map (·, false)) }

/-- Write to a resident key, and mark it dirty or leave its dirty bit as it is. -/
def write (c : WriteBack κ α) (k : κ) (v : α) (marked : Bool) : WriteBack κ α :=
  { c with frame := Function.update c.frame k (some (v, marked || c.isDirty k)) }

/-- Drop a key, written back first if it is dirty. -/
def evict (c : WriteBack κ α) (k : κ) : WriteBack κ α :=
  match c.frame k with
  | some (v, true) => ⟨Function.update c.frame k none, Function.update c.disk k (some v)⟩
  | _ => { c with frame := Function.update c.frame k none }

/-- Write back one dirty value. -/
def sync (c : WriteBack κ α) (k : κ) : WriteBack κ α :=
  match c.frame k with
  | some (v, true) =>
    ⟨Function.update c.frame k (some (v, false)), Function.update c.disk k (some v)⟩
  | _ => c

/-- Readers see `s`, and every clean value is the disk's but where it is `loose`. -/
structure Serves (c : WriteBack κ α) (loose : κ → Prop) (s : κ → Option α) : Prop where
  view : c.view = s
  clean : ∀ k v, c.frame k = some (v, false) → loose k ∨ c.disk k = some v

variable {c : WriteBack κ α} {loose loose' : κ → Prop} {s : κ → Option α} {k : κ} {v : α} {b : Bool}

omit [DecidableEq κ] in
theorem view_of_frame (h : c.frame k = some (v, b)) : c.view k = some v := by rw [view, h]

omit [DecidableEq κ] in
theorem view_of_not_resident (h : c.frame k = none) : c.view k = c.disk k := by rw [view, h]

theorem isDirty_load {j : κ} : (c.load k).isDirty j = c.isDirty j := by
  unfold load isDirty
  split
  · rfl
  · dsimp only
    by_cases hj : j = k
    · subst hj
      rename_i h
      rw [Function.update_self, h]
      cases c.disk j <;> rfl
    · rw [Function.update_of_ne hj]

theorem isDirty_write {j : κ} {marked : Bool} :
    (c.write k v marked).isDirty j = (c.isDirty j || decide (j = k) && marked) := by
  unfold write
  by_cases hj : j = k
  · subst hj
    simp [isDirty, Bool.or_comm]
  · simp [isDirty, hj]

theorem view_write {marked : Bool} :
    (c.write k v marked).view = Function.update c.view k (some v) := by
  funext j
  unfold write view
  by_cases hj : j = k
  · subst hj
    simp
  · simp [hj]

namespace Serves

omit [DecidableEq κ] in
theorem mono (h : c.Serves loose s) (hl : ∀ k v, c.frame k = some (v, false) → loose k → loose' k) :
    c.Serves loose' s :=
  ⟨h.view, fun k v hk => (h.clean k v hk).imp_left (hl k v hk)⟩

/-- Making a key resident changes nothing a reader sees. -/
theorem load (h : c.Serves loose s) (k : κ) : (c.load k).Serves loose s := by
  unfold WriteBack.load
  split
  · exact h
  · rename_i hk
    constructor
    · rw [← h.view]
      funext j
      unfold WriteBack.view
      dsimp only
      by_cases hj : j = k
      · subst hj
        rw [Function.update_self, hk]
        cases c.disk j <;> rfl
      · rw [Function.update_of_ne hj]
    · intro j v hj
      dsimp only at hj ⊢
      by_cases hjk : j = k
      · subst hjk
        rw [Function.update_self, Option.map_eq_some_iff] at hj
        obtain ⟨x, hx, heq⟩ := hj
        obtain ⟨rfl, -⟩ := Prod.mk.injEq .. ▸ heq
        exact Or.inr hx
      · rw [Function.update_of_ne hjk] at hj
        exact h.clean j v hj

/-- **A write changes what readers see.**  Where it neither marks the value nor finds it
dirty, the value becomes loose. -/
theorem write (h : c.Serves loose s) (k : κ) (v : α) (marked : Bool) :
    (c.write k v marked).Serves (fun j => if j = k then marked = false ∧ c.isDirty k = false
      else loose j) (Function.update s k (some v)) := by
  refine ⟨by rw [view_write, h.view], fun j w hj => ?_⟩
  unfold WriteBack.write at hj ⊢
  dsimp only at hj ⊢
  by_cases hjk : j = k
  · subst hjk
    rw [Function.update_self] at hj
    rw [if_pos rfl]
    simp only [Option.some.injEq, Prod.mk.injEq, Bool.or_eq_false_iff] at hj
    exact Or.inl hj.2
  · rw [Function.update_of_ne hjk] at hj
    rw [if_neg hjk]
    exact h.clean j w hj

/-- **An eviction changes nothing a reader sees**, unless the value is loose. -/
theorem evict (h : c.Serves loose s) (hk : ¬ loose k) : (c.evict k).Serves loose s := by
  unfold WriteBack.evict
  split
  · rename_i v hv
    constructor
    · rw [← h.view]
      funext j
      unfold WriteBack.view
      dsimp only
      by_cases hj : j = k
      · subst hj
        simp [hv]
      · simp [hj]
    · intro j w hj
      dsimp only at hj ⊢
      by_cases hjk : j = k
      · subst hjk
        simp at hj
      · rw [Function.update_of_ne hjk] at hj ⊢
        exact h.clean j w hj
  · rename_i hne
    constructor
    · rw [← h.view]
      funext j
      unfold WriteBack.view
      dsimp only
      by_cases hj : j = k
      · subst hj
        rw [Function.update_self]
        rcases hf : c.frame j with _ | ⟨w, _ | _⟩
        · rfl
        · exact (h.clean j w hf).resolve_left hk
        · exact absurd hf (hne w)
      · rw [Function.update_of_ne hj]
    · intro j w hj
      dsimp only at hj ⊢
      by_cases hjk : j = k
      · subst hjk
        simp at hj
      · rw [Function.update_of_ne hjk] at hj
        exact h.clean j w hj

/-- Writing one value back changes nothing a reader sees. -/
theorem sync (h : c.Serves loose s) (k : κ) : (c.sync k).Serves loose s := by
  unfold WriteBack.sync
  split
  · rename_i v hv
    constructor
    · rw [← h.view]
      funext j
      unfold WriteBack.view
      dsimp only
      by_cases hj : j = k
      · subst hj
        simp [hv]
      · simp [hj]
    · intro j w hj
      dsimp only at hj ⊢
      by_cases hjk : j = k
      · subst hjk
        rw [Function.update_self] at hj ⊢
        cases hj
        exact Or.inr rfl
      · rw [Function.update_of_ne hjk] at hj ⊢
        exact h.clean j w hj
  · exact h

omit [DecidableEq κ] in
/-- With nothing dirty, the disk is what readers see, where it is not loose. -/
theorem disk_eq (h : c.Serves loose s) (hk : ¬ loose k) (hclean : ∀ v, c.frame k ≠ some (v, true)) :
    c.disk k = s k := by
  rw [← h.view]
  rcases hf : c.frame k with _ | ⟨v, _ | _⟩
  · rw [view_of_not_resident hf]
  · rw [view_of_frame hf]
    exact (h.clean k v hf).resolve_left hk
  · exact absurd hf (hclean v)

omit [DecidableEq κ] in
/-- **A flush changes nothing a reader sees.** -/
theorem flush (h : c.Serves loose s) : c.flush.Serves loose s := by
  constructor
  · rw [← h.view]
    funext j
    unfold WriteBack.view WriteBack.flush
    rcases hf : c.frame j with _ | ⟨w, b⟩ <;> simp [hf]
  · intro j w hj
    unfold WriteBack.flush at hj ⊢
    dsimp only at hj ⊢
    rcases hf : c.frame j with _ | ⟨x, _ | _⟩
    · simp [hf] at hj
    · obtain rfl : x = w := by simpa [hf] using hj
      exact h.clean j x hf
    · obtain rfl : x = w := by simpa [hf] using hj
      exact Or.inr rfl

end Serves

end WriteBack

end Lib
end Abdb
