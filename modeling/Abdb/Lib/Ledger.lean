/-
# Ledgers: partial maps whose entries have owners

Concurrent parties each own at most one entry of a shared partial map.  `Ledger m own`
says that the map `m` holds exactly the entries `own i` the parties `i` own, and that
no key has two owners.  A party may clear the entry it owns and may take a free key.
-/

import Mathlib.Logic.Function.Basic
import Mathlib.Tactic.Common

namespace Abdb
namespace Lib

variable {A B ι : Type*} [DecidableEq A] [DecidableEq ι]

/-- The entries of `m` are those owned, each key by one owner. -/
structure Ledger (m : A → Option B) (own : ι → Option (A × B)) : Prop where
  entry : ∀ a b, m a = some b ↔ ∃ i, own i = some (a, b)
  owner : ∀ {i j a b b'}, own i = some (a, b) → own j = some (a, b') → i = j

namespace Ledger

variable {m : A → Option B} {own : ι → Option (A × B)} {a : A} {b : B} {i j : ι}

omit [DecidableEq A] [DecidableEq ι] in
theorem of_own (h : Ledger m own) (hi : own i = some (a, b)) : m a = some b :=
  (h.entry a b).2 ⟨i, hi⟩

omit [DecidableEq A] [DecidableEq ι] in
/-- The empty ledger. -/
theorem nil (hm : ∀ a, m a = none) (ho : ∀ i, own i = none) : Ledger m own where
  entry a b := by simp [hm, ho]
  owner hi := by simp [ho] at hi

omit [DecidableEq A] in
/-- Nothing changes for a party that owned nothing and owns nothing. -/
theorem idle (h : Ledger m own) (hi : own i = none) : Ledger m (Function.update own i none) := by
  rwa [← hi, Function.update_eq_self]

/-- **An owner clears its entry.** -/
theorem clear (h : Ledger m own) (hi : own i = some (a, b)) :
    Ledger (Function.update m a none) (Function.update own i none) where
  entry a' b' := by
    by_cases ha : a' = a
    · subst ha
      rw [Function.update_self]
      refine iff_of_false (by simp) ?_
      rintro ⟨j, hj⟩
      by_cases hji : j = i
      · subst hji
        simp at hj
      · rw [Function.update_of_ne hji] at hj
        exact hji (h.owner hj hi)
    · rw [Function.update_of_ne ha, h.entry]
      refine exists_congr fun j => ?_
      by_cases hji : j = i
      · subst hji
        rw [Function.update_self, hi]
        simp [Ne.symm ha]
      · rw [Function.update_of_ne hji]
  owner {j k a' c c'} hj hk := by
    by_cases hji : j = i
    · subst hji
      simp at hj
    · by_cases hki : k = i
      · subst hki
        simp at hk
      · rw [Function.update_of_ne hji] at hj
        rw [Function.update_of_ne hki] at hk
        exact h.owner hj hk

/-- **A party takes a free key.** -/
theorem take (h : Ledger m own) (hi : own i = none) (ha : m a = none) :
    Ledger (Function.update m a (some b)) (Function.update own i (some (a, b))) := by
  have hfree : ∀ j c, own j ≠ some (a, c) := fun j c hj => by
    rw [h.of_own hj] at ha
    cases ha
  refine ⟨fun a' b' => ?_, fun {j k a' c c'} hj hk => ?_⟩
  · by_cases haa : a' = a
    · subst haa
      rw [Function.update_self]
      constructor
      · intro hb
        exact ⟨i, by rw [Function.update_self, Option.some.inj hb]⟩
      · rintro ⟨j, hj⟩
        by_cases hji : j = i
        · subst hji
          simpa using hj
        · rw [Function.update_of_ne hji] at hj
          exact absurd hj (hfree j b')
    · rw [Function.update_of_ne haa, h.entry]
      refine exists_congr fun j => ?_
      by_cases hji : j = i
      · subst hji
        simp [hi, Ne.symm haa]
      · rw [Function.update_of_ne hji]
  · by_cases hji : j = i <;> by_cases hki : k = i
    · exact hji.trans hki.symm
    · subst hji
      rw [Function.update_self, Option.some.injEq, Prod.mk.injEq] at hj
      rw [Function.update_of_ne hki, ← hj.1] at hk
      exact absurd hk (hfree k c')
    · subst hki
      rw [Function.update_self, Option.some.injEq, Prod.mk.injEq] at hk
      rw [Function.update_of_ne hji, ← hk.1] at hj
      exact absurd hj (hfree j c)
    · rw [Function.update_of_ne hji] at hj
      rw [Function.update_of_ne hki] at hk
      exact h.owner hj hk

/-- An owner moves to a free key: its old entry goes, the new one comes. -/
theorem move (h : Ledger m own) {a' : A} {b' : B} (hi : own i = some (a, b)) (ha : m a' = none) :
    Ledger (Function.update (Function.update m a none) a' (some b'))
      (Function.update own i (some (a', b'))) := by
  have h₁ := (h.clear hi).take (i := i) (a := a') (b := b') (by simp) (by
    by_cases haa : a' = a
    · rw [haa, Function.update_self]
    · rwa [Function.update_of_ne haa])
  rwa [Function.update_idem] at h₁

end Ledger

end Lib
end Abdb
