/-
# Counts, locks and slots of what each party holds

Each party holds at most one resource.  `Census w count holds` says that a counter per
resource, kept modulo `w`, counts the parties that hold it; `Exclusive` is the discipline of
readers-writer locks: who holds a lock for writing holds it alone; `Slots` is that of a free
list: a vacant slot is on it or taken by one party, which fills it or gives it back.
-/

import Mathlib.Data.Finset.Basic
import Mathlib.Data.Fintype.Basic
import Mathlib.Data.Set.Card
import Mathlib.Logic.Function.Basic

namespace Abdb
namespace Lib

variable {κ ι : Type*} [DecidableEq ι]

/-! ### Counting holders -/

/-- The parties that hold `k`. -/
def holders (holds : ι → Option κ) (k : κ) : Set ι := {i | holds i = some k}

/-- Each counter is the number of holders modulo `w`. -/
structure Census (w : ℕ) (count : κ → ℕ) (holds : ι → Option κ) : Prop where
  finite : ∀ k, (holders holds k).Finite
  count : ∀ k, count k = (holders holds k).ncard % w

section

variable {holds : ι → Option κ} {i : ι} {k k' : κ}

omit [DecidableEq ι] in
@[simp] theorem mem_holders : i ∈ holders holds k ↔ holds i = some k := Iff.rfl

theorem holders_take (hi : holds i = none) :
    holders (Function.update holds i (some k)) k = insert i (holders holds k) := by
  ext j
  by_cases hj : j = i
  · subst hj
    simp
  · simp [hj]

theorem holders_take_of_ne (hi : holds i = none) (hk : k' ≠ k) :
    holders (Function.update holds i (some k)) k' = holders holds k' := by
  ext j
  by_cases hj : j = i
  · subst hj
    simp [hi, hk.symm]
  · simp [hj]

theorem holders_release : holders (Function.update holds i none) k = holders holds k \ {i} := by
  ext j
  by_cases hj : j = i
  · subst hj
    simp
  · simp [hj]

end

namespace Census

variable [DecidableEq κ] {w : ℕ} {count : κ → ℕ} {holds : ι → Option κ} {i : ι} {k : κ}

omit [DecidableEq ι] [DecidableEq κ] in
/-- Nobody holds anything. -/
theorem nil (hcount : ∀ k, count k = 0) (hholds : ∀ i, holds i = none) : Census w count holds := by
  have hempty : ∀ k, holders holds k = ∅ := fun k => by
    ext i
    simp [hholds i]
  constructor
  · intro k
    rw [hempty k]
    exact Set.finite_empty
  · intro k
    rw [hempty k, hcount k, Set.ncard_empty, Nat.zero_mod]

/-- **A party takes a resource**, and its counter goes up. -/
theorem take (h : Census w count holds) (hi : holds i = none) :
    Census w (Function.update count k ((count k + 1) % w))
      (Function.update holds i (some k)) := by
  constructor
  · intro k'
    by_cases hk : k' = k
    · rw [hk, holders_take hi]
      exact (h.finite k).insert i
    · rw [holders_take_of_ne hi hk]
      exact h.finite k'
  · intro k'
    by_cases hk : k' = k
    · have hnot : i ∉ holders holds k := by simp [hi]
      rw [hk, Function.update_self, holders_take hi,
        Set.ncard_insert_of_notMem hnot (h.finite k), h.count k, Nat.mod_add_mod]
    · rw [Function.update_of_ne hk, holders_take_of_ne hi hk]
      exact h.count k'

/-- **A holder lets go**, and its counter goes down. -/
theorem release (h : Census w count holds) (hi : holds i = some k) (hw : 0 < w) :
    Census w (Function.update count k ((count k + (w - 1)) % w))
      (Function.update holds i none) := by
  constructor
  · intro k'
    rw [holders_release]
    exact (h.finite k').subset Set.sdiff_subset
  · intro k'
    rw [holders_release]
    by_cases hk : k' = k
    · have hmem : i ∈ holders holds k := hi
      have hcard := Set.ncard_sdiff_singleton_add_one hmem (h.finite k)
      rw [hk, Function.update_self, h.count k, Nat.mod_add_mod, ← hcard, add_assoc,
        Nat.add_sub_cancel' hw, Nat.add_mod_right]
    · have hnot : i ∉ holders holds k' := by
        rw [mem_holders, hi]
        simpa using Ne.symm hk
      rw [Function.update_of_ne hk, Set.sdiff_singleton_eq_self hnot]
      exact h.count k'

omit [DecidableEq κ] in
/-- A party that holds nothing and goes on holding nothing changes no count. -/
theorem idle (h : Census w count holds) {o : Option κ} (hi : holds i = o) :
    Census w count (Function.update holds i o) := by
  rwa [← hi, Function.update_eq_self]

omit [DecidableEq ι] [DecidableEq κ] in
/-- A counter at zero, with fewer than `w` holders: there are none. -/
theorem eq_none_of_zero (h : Census w count holds) (hlt : (holders holds k).ncard < w)
    (h0 : count k = 0) : holds i ≠ some k := by
  rw [h.count k, Nat.mod_eq_of_lt hlt, Set.ncard_eq_zero (h.finite k)] at h0
  intro hi
  have : i ∈ holders holds k := hi
  rw [h0] at this
  exact this

end Census

/-! ### Readers-writer locks -/

/-- How a lock is held. -/
inductive Access
  | read
  | write
deriving DecidableEq, Repr

instance : Fintype Access := ⟨{.read, .write}, fun m => by cases m <;> decide⟩

/-- Who holds a lock for writing holds it alone. -/
def Exclusive (holds : ι → Option (κ × Access)) : Prop :=
  ∀ i j k m, holds i = some (k, .write) → holds j = some (k, m) → i = j

/-- The lock is granted: nobody holds it, or readers do and one more reader asks. -/
def Grants (holds : ι → Option (κ × Access)) (k : κ) (m : Access) : Prop :=
  ∀ j m', holds j = some (k, m') → m = .read ∧ m' = .read

omit [DecidableEq ι] in
instance [Fintype ι] [DecidableEq κ] (holds : ι → Option (κ × Access)) (k : κ) (m : Access) :
    Decidable (Grants holds k m) :=
  inferInstanceAs (Decidable (∀ j m', holds j = some (k, m') → m = .read ∧ m' = .read))

namespace Exclusive

variable {holds : ι → Option (κ × Access)} {i j : ι} {k : κ} {m : Access}

omit [DecidableEq ι] in
theorem nil (h : ∀ i, holds i = none) : Exclusive holds := by
  intro i j k m hi
  simp [h i] at hi

theorem take (h : Exclusive holds) (hgrant : Grants holds k m) :
    Exclusive (Function.update holds i (some (k, m))) := by
  intro a b k' m' ha hb
  by_cases hai : a = i <;> by_cases hbi : b = i
  · rw [hai, hbi]
  · subst hai
    rw [Function.update_self] at ha
    rw [Function.update_of_ne hbi] at hb
    cases ha
    cases (hgrant b m' hb).1
  · subst hbi
    rw [Function.update_of_ne hai] at ha
    rw [Function.update_self] at hb
    cases hb
    cases (hgrant a _ ha).2
  · rw [Function.update_of_ne hai] at ha
    rw [Function.update_of_ne hbi] at hb
    exact h a b k' m' ha hb

theorem release (h : Exclusive holds) : Exclusive (Function.update holds i none) := by
  intro a b k m ha hb
  have hai : a ≠ i := by
    rintro rfl
    simp at ha
  have hbi : b ≠ i := by
    rintro rfl
    simp at hb
  rw [Function.update_of_ne hai] at ha
  rw [Function.update_of_ne hbi] at hb
  exact h a b k m ha hb

/-- A writer becomes a reader. -/
theorem downgrade (h : Exclusive holds) (hi : holds i = some (k, .write)) :
    Exclusive (Function.update holds i (some (k, .read))) := by
  have h' := h.release (i := i)
  rw [← Function.update_idem (f := holds) (a := i) (v := none)]
  refine h'.take fun j m hj => ?_
  by_cases hji : j = i
  · subst hji
    simp at hj
  · rw [Function.update_of_ne hji] at hj
    exact absurd (h i j k m hi hj).symm hji

end Exclusive

/-! ### Free lists -/

/-- The free slots are vacant, the vacant ones among `dom` are free or taken, and each is
taken by at most one party, from the free list; outside `dom` nothing happens. -/
structure Slots (dom : κ → Prop) (free : Finset κ) (vacant : κ → Prop) (taken : ι → Option κ) :
    Prop where
  freed : ∀ {k}, k ∈ free → vacant k
  held : ∀ {i k}, taken i = some k → vacant k ∧ k ∉ free
  owner : ∀ {i j k}, taken i = some k → taken j = some k → i = j
  home : ∀ {k}, dom k → vacant k → k ∈ free ∨ ∃ i, taken i = some k
  inside : ∀ {k}, (k ∈ free ∨ (∃ i, taken i = some k) ∨ ¬ vacant k) → dom k

namespace Slots

variable {dom vacant vacant' : κ → Prop} {free : Finset κ} {taken : ι → Option κ} {i : ι} {k : κ}

omit [DecidableEq ι] in
theorem congr (h : Slots dom free vacant taken) (hv : ∀ k, vacant' k ↔ vacant k) :
    Slots dom free vacant' taken where
  freed hk := (hv _).2 (h.freed hk)
  held hi := ⟨(hv _).2 (h.held hi).1, (h.held hi).2⟩
  owner := h.owner
  home hd hk := h.home hd ((hv _).1 hk)
  inside hk := h.inside (hk.imp_right (Or.imp_right fun hn hv' => hn ((hv _).2 hv')))

variable [DecidableEq κ]

/-- A party takes a free slot. -/
theorem take (h : Slots dom free vacant taken) (hk : k ∈ free) (hi : taken i = none) :
    Slots dom (free.erase k) vacant (Function.update taken i (some k)) where
  freed hk' := h.freed (Finset.mem_of_mem_erase hk')
  held {j k'} hj := by
    by_cases hji : j = i
    · subst hji
      rw [Function.update_self] at hj
      cases hj
      exact ⟨h.freed hk, Finset.notMem_erase k free⟩
    · rw [Function.update_of_ne hji] at hj
      exact ⟨(h.held hj).1, fun hmem => (h.held hj).2 (Finset.mem_of_mem_erase hmem)⟩
  owner {a b k'} ha hb := by
    by_cases hai : a = i <;> by_cases hbi : b = i
    · rw [hai, hbi]
    · subst hai
      rw [Function.update_self] at ha
      rw [Function.update_of_ne hbi] at hb
      cases ha
      exact absurd hk (h.held hb).2
    · subst hbi
      rw [Function.update_self] at hb
      rw [Function.update_of_ne hai] at ha
      cases hb
      exact absurd hk (h.held ha).2
    · rw [Function.update_of_ne hai] at ha
      rw [Function.update_of_ne hbi] at hb
      exact h.owner ha hb
  home {k'} hd hv := by
    by_cases hk' : k' = k
    · subst hk'
      exact Or.inr ⟨i, Function.update_self ..⟩
    · rcases h.home hd hv with hf | ⟨j, hj⟩
      · exact Or.inl (Finset.mem_erase.2 ⟨hk', hf⟩)
      · refine Or.inr ⟨j, ?_⟩
        rwa [Function.update_of_ne]
        rintro rfl
        rw [hi] at hj
        cases hj
  inside {k'} hk' := by
    by_cases hkk : k' = k
    · rw [hkk]
      exact h.inside (Or.inl hk)
    · refine h.inside (hk'.imp Finset.mem_of_mem_erase (Or.imp_left fun ⟨j, hj⟩ => ⟨j, ?_⟩))
      rwa [Function.update_of_ne] at hj
      rintro rfl
      rw [Function.update_self] at hj
      exact hkk (Option.some.inj hj).symm

omit [DecidableEq κ] in
/-- The parties other than `i` keep what they took. -/
theorem taken_release {j : ι} {k' : κ} (hj : Function.update taken i none j = some k') :
    taken j = some k' ∧ j ≠ i := by
  by_cases hji : j = i
  · subst hji
    simp at hj
  · rw [Function.update_of_ne hji] at hj
    exact ⟨hj, hji⟩

/-- A party gives the slot it took back. -/
theorem giveBack (h : Slots dom free vacant taken) (hi : taken i = some k) :
    Slots dom (insert k free) vacant (Function.update taken i none) where
  freed hk' := by
    rcases Finset.mem_insert.1 hk' with rfl | hk'
    · exact (h.held hi).1
    · exact h.freed hk'
  held {j k'} hj := by
    obtain ⟨hj, hji⟩ := taken_release hj
    refine ⟨(h.held hj).1, fun hmem => ?_⟩
    rcases Finset.mem_insert.1 hmem with rfl | hmem
    · exact hji (h.owner hj hi)
    · exact (h.held hj).2 hmem
  owner ha hb := h.owner (taken_release ha).1 (taken_release hb).1
  home {k'} hd hv := by
    rcases h.home hd hv with hf | ⟨j, hj⟩
    · exact Or.inl (Finset.mem_insert_of_mem hf)
    · by_cases hji : j = i
      · subst hji
        rw [hi] at hj
        cases hj
        exact Or.inl (Finset.mem_insert_self ..)
      · exact Or.inr ⟨j, by rwa [Function.update_of_ne hji]⟩
  inside {k'} hk' := by
    rcases hk' with hmem | ⟨j, hj⟩ | hv
    · rcases Finset.mem_insert.1 hmem with rfl | hmem
      · exact h.inside (Or.inr (Or.inl ⟨i, hi⟩))
      · exact h.inside (Or.inl hmem)
    · exact h.inside (Or.inr (Or.inl ⟨j, (taken_release hj).1⟩))
    · exact h.inside (Or.inr (Or.inr hv))

omit [DecidableEq κ] in
/-- A party fills the slot it took. -/
theorem fill (h : Slots dom free vacant taken) (hi : taken i = some k) :
    Slots dom free (fun j => j ≠ k ∧ vacant j) (Function.update taken i none) where
  freed {k'} hk' := by
    refine ⟨?_, h.freed hk'⟩
    rintro rfl
    exact (h.held hi).2 hk'
  held {j k'} hj := by
    obtain ⟨hj, hji⟩ := taken_release hj
    refine ⟨⟨?_, (h.held hj).1⟩, (h.held hj).2⟩
    rintro rfl
    exact hji (h.owner hj hi)
  owner ha hb := h.owner (taken_release ha).1 (taken_release hb).1
  home {k'} hd hv := by
    rcases h.home hd hv.2 with hf | ⟨j, hj⟩
    · exact Or.inl hf
    · refine Or.inr ⟨j, ?_⟩
      rwa [Function.update_of_ne]
      rintro rfl
      rw [hi] at hj
      exact hv.1 (Option.some.inj hj).symm
  inside {k'} hk' := by
    by_cases hkk : k' = k
    · rw [hkk]
      exact h.inside (Or.inr (Or.inl ⟨i, hi⟩))
    · rcases hk' with hmem | ⟨j, hj⟩ | hv
      · exact h.inside (Or.inl hmem)
      · exact h.inside (Or.inr (Or.inl ⟨j, (taken_release hj).1⟩))
      · exact h.inside (Or.inr (Or.inr fun hvac => hv ⟨hkk, hvac⟩))

omit [DecidableEq ι] in
/-- A vacant slot nobody took is put on the free list, where it may be already. -/
theorem refree (h : Slots dom free vacant taken) (hd : dom k) (hv : vacant k)
    (hno : ∀ i, taken i ≠ some k) : Slots dom (insert k free) vacant taken where
  freed hk' := by
    rcases Finset.mem_insert.1 hk' with rfl | hk'
    · exact hv
    · exact h.freed hk'
  held {j k'} hj := by
    refine ⟨(h.held hj).1, fun hmem => ?_⟩
    rcases Finset.mem_insert.1 hmem with rfl | hmem
    · exact hno j hj
    · exact (h.held hj).2 hmem
  owner := h.owner
  home hd hk' := (h.home hd hk').imp_left Finset.mem_insert_of_mem
  inside {k'} hk' := by
    by_cases hkk : k' = k
    · rwa [hkk]
    · exact h.inside (hk'.imp_left fun hmem => (Finset.mem_insert.1 hmem).resolve_left hkk)

omit [DecidableEq ι] in
/-- A filled slot becomes vacant and free. -/
theorem vacate (h : Slots dom free vacant taken) (hv : ¬ vacant k) :
    Slots dom (insert k free) (fun j => j = k ∨ vacant j) taken where
  freed hk' := (Finset.mem_insert.1 hk').imp_right h.freed
  held {j k'} hj := by
    refine ⟨Or.inr (h.held hj).1, fun hmem => ?_⟩
    rcases Finset.mem_insert.1 hmem with rfl | hmem
    · exact hv (h.held hj).1
    · exact (h.held hj).2 hmem
  owner := h.owner
  home {k'} hd hk' := by
    rcases hk' with rfl | hk'
    · exact Or.inl (Finset.mem_insert_self ..)
    · exact (h.home hd hk').imp_left Finset.mem_insert_of_mem
  inside {k'} hk' := by
    by_cases hkk : k' = k
    · rw [hkk]
      exact h.inside (Or.inr (Or.inr hv))
    · refine h.inside (hk'.imp (fun hmem => (Finset.mem_insert.1 hmem).resolve_left hkk) ?_)
      exact Or.imp_right fun hn hvac => hn (Or.inr hvac)

end Slots

end Lib
end Abdb
