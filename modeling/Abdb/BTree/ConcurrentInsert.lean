/-
# Concurrent inserts

Inserts that interleave on a valid tree lose nothing as long as no step acts on an
outdated root (`insert_not_lost`).  Without that condition they do: two inserts into an
empty index can each read `root_page = 0`, make a first leaf and set it as the root, and
the second root replaces the first (`insert_lost`).
-/

import Abdb.BTree.InsertSteps
import Abdb.BTree.Lookup

namespace Abdb
namespace BTree

variable {ι : Type} [DecidableEq ι] {S : PageSupply} {st : Store} {σ : Sys ι}
  {key : ι → List UInt8} {rid : ι → RecordId} {F : Layout} {D : Dues}

/-- Once all tasks have finished, `get` finds every key whose insert returned `Ok` and
every key present before. -/
def Sys.NothingLost (S : PageSupply) (st : Store) (key : ι → List UInt8) (rid : ι → RecordId)
    (σ : Sys ι) : Prop :=
  (∀ i, (σ.task i).Done) →
    (∀ i, σ.task i = .insert (keyFromBytes (key i)) (rid i) (.done (.ok ())) →
      σ.store.Exec S (.get (key i)) σ.store (.record (.ok (rid i)))) ∧
    ∀ k r, st.Exec S (.get k) st (.record (.ok r)) →
      σ.store.Exec S (.get k) σ.store (.record (.ok r))

/-- **Interleaved inserts lose nothing** in a run none of whose steps acts on an outdated
root. -/
theorem insert_not_lost (hst : st.Valid S)
    (hrun : Sys.Run S RootCurrent (Sys.inserting st key rid) σ) : σ.NothingLost S st key rid := by
  obtain ⟨F₀, h₀, hfresh⟩ := hst
  obtain ⟨F, D, h⟩ := (Inv.start h₀ hfresh
    fun i => Or.inl ⟨_, _, keyFromBytes_lt (key i), rfl⟩).run hrun
  intro hdone
  obtain rfl := h.settled fun i _ _ _ _ => hdone i
  refine ⟨fun i hi => ?_, fun k r hk => ?_⟩
  · exact h.tree.exec_get_iff.2 (h.binds_stored hi rfl)
  · rw [h₀.exec_get_iff] at hk
    exact h.tree.exec_get_iff.2 ((h.binds _ _).2 (Or.inl hk))

/-- Two keys, and the records two inserts put under them. -/
def twoKeys (i : Bool) : List UInt8 := if i then [2] else [1]

def twoRecords (i : Bool) : RecordId := if i then ⟨7, 1⟩ else ⟨7, 0⟩

/-- One insert after the other: the first makes the root leaf, the second finds it. -/
theorem insert_not_lost_two : Sys.NothingLost .count .empty twoKeys twoRecords
    ([false, false, false, true, true].foldl (Sys.step .count)
      (Sys.inserting .empty twoKeys twoRecords)) := by
  refine insert_not_lost Store.valid_empty (Sys.Legal.run ⟨trivial, trivial, trivial, trivial,
    trivial, rfl, trivial, trivial, ?_, ⟨rfl, ?_⟩, trivial⟩)
  · exact fun j => by cases j <;> exact List.not_mem_nil
  · exact fun j e => by cases j <;> exact nofun

/-- **The second root replaces the first.**  Both inserts read `root_page = 0`, and each
sets its own leaf as the root: the key of the first is gone, though both returned `Ok`. -/
theorem insert_lost : ¬ ∀ (ι : Type) [DecidableEq ι] (S : PageSupply) (st : Store)
    (key : ι → List UInt8) (rid : ι → RecordId) (σ : Sys ι), st.Valid S →
    Function.Injective (fun i => keyFromBytes (key i)) →
    Sys.Run S (fun _ _ => True) (Sys.inserting st key rid) σ → σ.NothingLost S st key rid := by
  intro hall
  let σ := [false, true, false, true, false, true].foldl (Sys.step .count)
    (Sys.inserting .empty twoKeys twoRecords)
  have hrun : Sys.Run .count (fun _ _ => True) (Sys.inserting .empty twoKeys twoRecords) σ :=
    Sys.Legal.run ⟨trivial, trivial, trivial, trivial, trivial, trivial, trivial, trivial, trivial,
      trivial, trivial, trivial, trivial⟩
  obtain ⟨hok, -⟩ := hall _ _ _ _ _ σ Store.valid_empty (Bool.injective_iff.2 (by decide)) hrun
    (fun i => by cases i <;> rfl)
  have hget := hok false rfl
  -- the root is the leaf of the second insert
  have hmiss : σ.store.Exec .count (.get (twoKeys false)) σ.store
      (.record (.error .tupleNonExistent)) :=
    .step (.step (.step (.done rfl)))
  obtain ⟨-, heq⟩ := Store.Exec.unique hget hmiss
  cases heq

end BTree
end Abdb
