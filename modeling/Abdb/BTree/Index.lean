/-
# The index as a map

What the index is for: a finite map from keys to records.  `Bindings.Answers` says what
each call returns on a map and `Bindings.after` what it makes of it.  A store represents a
map if it holds a tree at rest with the same bindings; a call that runs alone on such a
store returns, answers as the map does, and leaves a store that represents the map after it
(`Store.Represents.exec`).  So do all calls of a sequence (`index_correct`).
-/

import Mathlib.Data.Finmap
import Abdb.BTree.DeleteAlone
import Abdb.BTree.InsertAlone

namespace Abdb
namespace BTree

/-- A finite map from keys to records. -/
abbrev Bindings := Finmap fun _ : ℕ => RecordId

namespace Bindings

/-- What a lookup returns: the record of the key, or `TupleNonExistent`. -/
def answer (m : Bindings) (key : ℕ) : Except Error RecordId :=
  match m.lookup key with
  | some rid => .ok rid
  | none => .error .tupleNonExistent

/-- What a call returns on a map. -/
def Answers (m : Bindings) : Call → Reply → Prop
  | .insert key _, .unit (.ok ()) => keyFromBytes key ∉ m
  | .insert key _, .unit (.error e) => keyFromBytes key ∈ m ∧ e ≠ .outsideModel
  | .get key, .record r => r = m.answer (keyFromBytes key)
  | .delete key rid, .unit r =>
    r = if m.lookup (keyFromBytes key) = some rid then .ok () else .error .tupleNonExistent
  | _, _ => False

/-- The map after a call. -/
def after (m : Bindings) : Call → Bindings
  | .insert key rid => if keyFromBytes key ∈ m then m else m.insert (keyFromBytes key) rid
  | .get _ => m
  | .delete key rid =>
    if m.lookup (keyFromBytes key) = some rid then m.erase (keyFromBytes key) else m

/-- Every reply is the map's, from call to call. -/
def Agrees : Bindings → List (Call × Reply) → Prop
  | _, [] => True
  | m, (c, r) :: l => m.Answers c r ∧ Agrees (m.after c) l

end Bindings

namespace Store

variable {S : PageSupply} {st st' : Store} {m : Bindings} {c : Call} {r : Reply}
  {l : List (Call × Reply)}

/-- The store holds a tree at rest with the bindings of a map. -/
def Represents (S : PageSupply) (st : Store) (m : Bindings) : Prop :=
  ∃ F, st.Rests S F ∧ ∀ k r, F.Binds st.page k r ↔ m.lookup k = some r

theorem represents_empty : Store.empty.Represents S ∅ :=
  ⟨_, rests_empty, fun _ _ => iff_of_false (fun ⟨_, _, _, h, _⟩ => nomatch h) nofun⟩

/-- An operation that settles with the bindings of a map leaves a store that represents
it. -/
theorem Settles.represents {Pc : Type} {M : Machine Pc} {B : ℕ → RecordId → Prop} {pc pc' : Pc}
    (h : Settles S M B st pc pc') (hB : ∀ k r, B k r ↔ m.lookup k = some r) :
    ∃ st', Returns S M st pc st' pc' ∧ st'.Represents S m := by
  obtain ⟨st', F, hret, hrests, hbinds⟩ := h
  exact ⟨st', hret, F, hrests, fun k r => (hbinds k r).trans (hB k r)⟩

namespace Represents

/-- **An insert returns**: an error and nothing has changed if the key is in the map, else
`Ok` and the binding is added. -/
theorem insert (h : st.Represents S m) {key : ℕ} (hk : key < keyBound) (rid : RecordId) :
    (key ∈ m → Insert.Refuses S key rid st .start) ∧
    (key ∉ m → ∃ st', Returns S (Insert.machine key rid) st .start st' (.done (.ok ())) ∧
      st'.Represents S (m.insert key rid)) := by
  obtain ⟨F, hrests, hbinds⟩ := h
  obtain ⟨hpresent, habsent⟩ := hrests.insert hk rid
  constructor
  · intro hmem
    obtain ⟨r, hr⟩ := Finmap.mem_iff.1 hmem
    exact hpresent ⟨r, (hbinds _ _).2 hr⟩
  · intro hmem
    have hnone : ∀ r, ¬ F.Binds st.page key r := fun r hr =>
      hmem (Finmap.mem_of_lookup_eq_some ((hbinds _ _).1 hr))
    refine (habsent hnone).represents fun k r => ?_
    by_cases hk : k = key
    · subst hk
      rw [Finmap.lookup_insert]
      simp [hnone, eq_comm]
    · rw [Finmap.lookup_insert_of_ne m hk, hbinds]
      simp [hk]

/-- **A get returns** what the map holds. -/
theorem get (h : st.Represents S m) {key : ℕ} (hk : key < keyBound) :
    Returns S (Get.machine key) st .start st (.done (m.answer key)) := by
  obtain ⟨F, hrests, hbinds⟩ := h
  have hans : F.Answer st.page key (m.answer key) := by
    rw [Bindings.answer]
    cases hlook : m.lookup key with
    | some rid => exact (hbinds _ _).2 hlook
    | none => exact ⟨rfl, fun r hr => by simpa [hlook] using (hbinds _ r).1 hr⟩
  exact GetOk.returns hrests.tree hk hans trivial

/-- **An insert answers as the map does.** -/
theorem exec_insert (h : st.Represents S m) (key : List UInt8) (rid : RecordId) :
    ∃ st' r, Exec S st (.insert key rid) st' r ∧ m.Answers (.insert key rid) r ∧
      st'.Represents S (m.after (.insert key rid)) := by
  obtain ⟨hpresent, habsent⟩ := h.insert (keyFromBytes_lt key) rid
  by_cases hmem : keyFromBytes key ∈ m
  · obtain ⟨e, hne, he⟩ := hpresent hmem
    refine ⟨st, .unit (.error e), he, ⟨hmem, hne⟩, ?_⟩
    rw [Bindings.after, if_pos hmem]
    exact h
  · obtain ⟨st', hret, hrep⟩ := habsent hmem
    refine ⟨st', .unit (.ok ()), hret, hmem, ?_⟩
    rw [Bindings.after, if_neg hmem]
    exact hrep

/-- **A delete answers as the map does.** -/
theorem exec_delete (h : st.Represents S m) (key : List UInt8) (rid : RecordId) :
    ∃ st' r, Exec S st (.delete key rid) st' r ∧ m.Answers (.delete key rid) r ∧
      st'.Represents S (m.after (.delete key rid)) := by
  obtain ⟨F, hrests, hbinds⟩ := h
  obtain ⟨hmiss, hhit⟩ := hrests.delete (keyFromBytes_lt key) rid
  by_cases hlook : m.lookup (keyFromBytes key) = some rid
  · have hbound := (hbinds _ _).2 hlook
    obtain ⟨st', hret, hrep⟩ := (hhit hbound).represents (m := m.erase (keyFromBytes key))
      fun k r => by
        by_cases hk : k = keyFromBytes key
        · subst hk
          simp [Finmap.lookup_erase]
        · rw [Finmap.lookup_erase_ne hk, hbinds]
          simp [hk]
    refine ⟨st', .unit (.ok ()), hret, ?_, ?_⟩
    · rw [Bindings.Answers, if_pos hlook]
    · rw [Bindings.after, if_pos hlook]
      exact hrep
  · have hunbound : ¬ F.Binds st.page (keyFromBytes key) rid := fun hb => hlook ((hbinds _ _).1 hb)
    refine ⟨st, .unit (.error .tupleNonExistent), hmiss hunbound, ?_, ?_⟩
    · rw [Bindings.Answers, if_neg hlook]
    · rw [Bindings.after, if_neg hlook]
      exact ⟨F, hrests, hbinds⟩

/-- **A call that runs alone returns, and answers as the map does.** -/
theorem exec (h : st.Represents S m) (c : Call) :
    ∃ st' r, Exec S st c st' r ∧ m.Answers c r ∧ st'.Represents S (m.after c) := by
  cases c with
  | insert key rid => exact h.exec_insert key rid
  | get key => exact ⟨st, .record _, h.get (keyFromBytes_lt key), rfl, h⟩
  | delete key rid => exact h.exec_delete key rid

/-- Every sequence of calls can be run. -/
theorem exists_trace (h : st.Represents S m) (calls : List Call) :
    ∃ l st', Trace S st l st' ∧ l.map Prod.fst = calls := by
  induction calls generalizing st m with
  | nil => exact ⟨[], st, .nil st, rfl⟩
  | cons c calls ih =>
    obtain ⟨st₁, r, hexec, -, h₁⟩ := h.exec c
    obtain ⟨l, st', htrace, hl⟩ := ih h₁
    exact ⟨(c, r) :: l, st', .cons hexec htrace, congrArg (c :: ·) hl⟩

/-- **Every run agrees with the map**, and represents the map at its end. -/
theorem trace (h : st.Represents S m) (htrace : Trace S st l st') :
    m.Agrees l ∧ st'.Represents S (l.foldl (fun m x => m.after x.1) m) := by
  induction htrace generalizing m with
  | nil st => exact ⟨trivial, h⟩
  | cons hexec _ ih =>
    obtain ⟨st₂, r₂, hexec₂, hans, h₂⟩ := h.exec _
    obtain ⟨rfl, rfl⟩ := hexec.unique hexec₂
    obtain ⟨hagrees, hrep⟩ := ih h₂
    exact ⟨⟨hans, hagrees⟩, hrep⟩

end Represents

/-- Every run from an empty index ends in a tree at rest. -/
theorem Trace.valid (h : Trace S .empty l st) : st.Valid S := by
  obtain ⟨-, F, hrests, -⟩ := represents_empty.trace h
  exact ⟨F, hrests⟩

end Store

/-- **The index is a finite map.**  On an index that starts empty every sequence of calls
returns, and whatever it returns is what the map returns. -/
theorem index_correct (S : PageSupply) (calls : List Call) :
    (∃ l st, Store.Trace S .empty l st ∧ l.map Prod.fst = calls) ∧
    ∀ l st, Store.Trace S .empty l st → Bindings.Agrees ∅ l :=
  ⟨Store.represents_empty.exists_trace calls, fun _ _ h => (Store.represents_empty.trace h).1⟩

end BTree
end Abdb
