/-
# Things with a key and a name

A registry finds what was registered by its key, and by its name through the key.  Registering checks
that the key is new but puts the name over whatever had it.

What is registered can be found by its key ever after (`Holds.register`), and by its name as long as no
other thing takes the name: registering keeps everything resolvable exactly if the name is new
(`resolves_register_iff`).
-/

import Mathlib.Logic.Function.Basic
import Mathlib.Tactic.Common

namespace Abdb
namespace Lib

/-- What is found by a key, and the key of a name. -/
structure Registry (K N α : Type*) where
  byKey : K → Option α
  byName : N → Option K

namespace Registry

variable {K N α : Type*}

/-- What is found by a name. -/
def findByName (r : Registry K N α) (n : N) : Option α := (r.byName n).bind r.byKey

section Register

variable [DecidableEq K] [DecidableEq N] (key : α → K) (name : α → N)

/-- The registry with one more thing under its key and its name. -/
def register (r : Registry K N α) (a : α) : Registry K N α where
  byKey := Function.update r.byKey (key a) (some a)
  byName := Function.update r.byName (name a) (some (key a))

/-- The registry holds these things by their keys, and nothing else. -/
def Holds (r : Registry K N α) (l : List α) : Prop := ∀ k a, r.byKey k = some a ↔ a ∈ l ∧ key a = k

/-- Each of these things is found by its key and by its name. -/
def Resolves (r : Registry K N α) (l : List α) : Prop :=
  ∀ a ∈ l, r.byKey (key a) = some a ∧ r.findByName (name a) = some a

variable {key name} {r : Registry K N α} {l : List α} {a : α}

theorem byKey_register : (r.register key name a).byKey (key a) = some a := Function.update_self ..

theorem byKey_register_of_ne {k : K} (h : k ≠ key a) : (r.register key name a).byKey k = r.byKey k :=
  Function.update_of_ne h ..

theorem byName_register : (r.register key name a).byName (name a) = some (key a) :=
  Function.update_self ..

theorem byName_register_of_ne {n : N} (h : n ≠ name a) :
    (r.register key name a).byName n = r.byName n :=
  Function.update_of_ne h ..

omit [DecidableEq K] [DecidableEq N] in
theorem Holds.ne_key (h : Holds key r l) (hnew : r.byKey (key a) = none) {b : α} (hb : b ∈ l) :
    key b ≠ key a := by
  intro heq
  have hfound := (h (key b) b).2 ⟨hb, rfl⟩
  rw [heq, hnew] at hfound
  cases hfound

/-- **A thing with a new key is held** beside the others. -/
theorem Holds.register (h : Holds key r l) (hnew : r.byKey (key a) = none) :
    Holds key (r.register key name a) (l ++ [a]) := by
  intro k b
  rw [List.mem_append, List.mem_singleton]
  by_cases hk : k = key a
  · subst hk
    rw [byKey_register, Option.some_inj]
    constructor
    · rintro rfl
      exact ⟨.inr rfl, rfl⟩
    · rintro ⟨hb | rfl, heq⟩
      · exact absurd heq (h.ne_key hnew hb)
      · rfl
  · rw [byKey_register_of_ne hk, h k b]
    constructor
    · exact fun ⟨hb, heq⟩ => ⟨.inl hb, heq⟩
    · rintro ⟨hb | rfl, heq⟩
      · exact ⟨hb, heq⟩
      · exact absurd heq.symm hk

/-- What is found by another name, once a thing is registered. -/
theorem findByName_register_of_ne {n : N} (hn : n ≠ name a) (hk : r.byName n ≠ some (key a)) :
    (r.register key name a).findByName n = r.findByName n := by
  rw [findByName, findByName, byName_register_of_ne hn]
  cases hkey : r.byName n with
  | none => rfl
  | some k =>
    have hne : k ≠ key a := by
      rintro rfl
      exact hk hkey
    exact byKey_register_of_ne hne

theorem findByName_register : (r.register key name a).findByName (name a) = some a := by
  rw [findByName, byName_register, Option.bind_some, byKey_register]

/-- **Everything stays resolvable** exactly if the new name is not taken. -/
theorem resolves_register_iff (hholds : Holds key r l) (hresolves : Resolves key name r l)
    (hnew : r.byKey (key a) = none) :
    Resolves key name (r.register key name a) (l ++ [a]) ↔ ∀ b ∈ l, name b ≠ name a := by
  constructor
  · intro h b hb heq
    have hfound := (h b (List.mem_append_left _ hb)).2
    rw [heq, findByName_register] at hfound
    exact hholds.ne_key hnew hb (congrArg key (Option.some_inj.1 hfound)).symm
  · intro hnames b hb
    refine ⟨(hholds.register hnew _ _).2 ⟨hb, rfl⟩, ?_⟩
    rcases List.mem_append.1 hb with hb | hb
    · have hfound := (hresolves b hb).2
      have hname : r.byName (name b) ≠ some (key a) := by
        intro hk
        rw [findByName, hk, Option.bind_some, hnew] at hfound
        cases hfound
      rw [findByName_register_of_ne (hnames b hb) hname, hfound]
    · rw [List.mem_singleton.1 hb, findByName_register]

end Register
end Registry
end Lib
end Abdb
