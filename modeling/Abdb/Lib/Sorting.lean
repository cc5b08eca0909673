/-
# Sorting by several keys

Lists of values are compared key by key, each key in an order of its own: the first key on which
they differ decides (`KeysLE`).  That is a total preorder if the orders of the keys are.  A stable
sort and the removal of duplicates may be done in either order (`dedup_insertionSort`).
-/

import Mathlib.Data.List.Dedup
import Mathlib.Data.List.Sort

namespace Abdb

open List

section Keys

variable {κ α : Type*} (le : κ → α → α → Prop) (d : α)

/-- Lists are in order by some keys; a value that is missing is `d`. -/
def KeysLE : List κ → List α → List α → Prop
  | [], _, _ => True
  | k :: ks, vs, ws => le k (vs.headD d) (ws.headD d) ∧
    (le k (ws.headD d) (vs.headD d) → KeysLE ks vs.tail ws.tail)

instance KeysLE.decidable [∀ k, DecidableRel (le k)] : ∀ ks vs ws, Decidable (KeysLE le d ks vs ws)
  | [], _, _ => .isTrue trivial
  | _ :: ks, vs, ws =>
    haveI := KeysLE.decidable ks vs.tail ws.tail
    inferInstanceAs (Decidable (_ ∧ (_ → _)))

variable {le d} {us vs ws : List α}

theorem KeysLE.total (h : ∀ k v w, le k v w ∨ le k w v) (ks : List κ) :
    KeysLE le d ks vs ws ∨ KeysLE le d ks ws vs := by
  induction ks generalizing vs ws with
  | nil => exact .inl trivial
  | cons k ks ih =>
    by_cases hvw : le k (vs.headD d) (ws.headD d)
    · by_cases hwv : le k (ws.headD d) (vs.headD d)
      · have hrest : KeysLE le d ks vs.tail ws.tail ∨ KeysLE le d ks ws.tail vs.tail := ih
        exact hrest.imp (fun hks => ⟨hvw, fun _ => hks⟩) fun hks => ⟨hwv, fun _ => hks⟩
      · exact .inl ⟨hvw, fun h => absurd h hwv⟩
    · exact .inr ⟨(h k _ _).resolve_left hvw, fun h => absurd h hvw⟩

theorem KeysLE.trans (h : ∀ k u v w, le k u v → le k v w → le k u w) {ks : List κ}
    (huv : KeysLE le d ks us vs) (hvw : KeysLE le d ks vs ws) : KeysLE le d ks us ws := by
  induction ks generalizing us vs ws with
  | nil => trivial
  | cons k ks ih =>
    obtain ⟨huv, huv'⟩ := huv
    obtain ⟨hvw, hvw'⟩ := hvw
    refine ⟨h k _ _ _ huv hvw, fun hwu => ?_⟩
    -- all three have the same first key
    exact ih (huv' (h k _ _ _ hvw hwu)) (hvw' (h k _ _ _ hwu huv))

end Keys

section Duplicates

variable {α : Type*} [DecidableEq α] {r : α → α → Prop} [DecidableRel r]

/-- An element that is in the list already goes before itself. -/
theorem dedup_orderedInsert_of_mem [Std.Refl r] {a : α} {l : List α} (ha : a ∈ l) :
    (l.orderedInsert r a).dedup = l.dedup := by
  induction l with
  | nil => cases ha
  | cons b l ih =>
    by_cases hab : r a b
    · rw [orderedInsert_cons_of_le r l hab, dedup_cons_of_mem ha]
    · have hne : a ≠ b := by
        rintro rfl
        exact hab (refl a)
      have hl : a ∈ l := (mem_cons.1 ha).resolve_left hne
      rw [orderedInsert_of_not_le r l hab]
      by_cases hb : b ∈ l
      · rw [dedup_cons_of_mem ((mem_orderedInsert r).2 (.inr hb)), dedup_cons_of_mem hb, ih hl]
      · have hb' : b ∉ l.orderedInsert r a := fun h =>
          ((mem_orderedInsert r).1 h).elim (fun h => hne h.symm) hb
        rw [dedup_cons_of_notMem hb', dedup_cons_of_notMem hb, ih hl]

theorem dedup_orderedInsert_of_notMem [IsTrans α r] {a : α} {l : List α} (ha : a ∉ l) (hl : l.Pairwise r) :
    (l.orderedInsert r a).dedup = l.dedup.orderedInsert r a := by
  induction l with
  | nil => rfl
  | cons b l ih =>
    obtain ⟨hb, hl⟩ := pairwise_cons.1 hl
    have hne : b ≠ a := fun h => ha (mem_cons.2 (.inl h.symm))
    have hal : a ∉ l := fun h => ha (mem_cons_of_mem b h)
    by_cases hab : r a b
    · -- `a` goes before all that is left
      have hfirst : (b :: l).dedup.orderedInsert r a = a :: (b :: l).dedup := by
        rcases hdedup : (b :: l).dedup with _ | ⟨c, l'⟩
        · rfl
        · have hc : c ∈ b :: l := mem_dedup.1 (hdedup ▸ mem_cons_self)
          refine orderedInsert_cons_of_le r l' ?_
          exact (mem_cons.1 hc).elim (fun h => h ▸ hab) fun h => Trans.trans hab (hb c h)
      rw [orderedInsert_cons_of_le r l hab, dedup_cons_of_notMem ha, hfirst]
    · rw [orderedInsert_of_not_le r l hab]
      by_cases hbl : b ∈ l
      · rw [dedup_cons_of_mem ((mem_orderedInsert r).2 (.inr hbl)), dedup_cons_of_mem hbl, ih hal hl]
      · have hb' : b ∉ l.orderedInsert r a := fun h => ((mem_orderedInsert r).1 h).elim hne hbl
        rw [dedup_cons_of_notMem hb', dedup_cons_of_notMem hbl, ih hal hl, orderedInsert_of_not_le r _ hab]

/-- **Sorting and removing duplicates**, in either order. -/
theorem dedup_insertionSort [IsTrans α r] [Std.Total r] (l : List α) :
    (l.insertionSort r).dedup = l.dedup.insertionSort r := by
  induction l with
  | nil => rfl
  | cons a l ih =>
    rw [insertionSort_cons]
    by_cases ha : a ∈ l
    · rw [dedup_orderedInsert_of_mem ((mem_insertionSort r).2 ha), ih, dedup_cons_of_mem ha]
    · rw [dedup_orderedInsert_of_notMem (fun h => ha ((mem_insertionSort r).1 h)) (pairwise_insertionSort r l),
        ih, dedup_cons_of_notMem ha, insertionSort_cons]

end Duplicates
end Abdb
