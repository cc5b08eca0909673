/-
# Filters before and after

A filter may be applied before a stable sort, or before duplicates are removed, as well as
after it.  It may be applied before a map exactly if it does not tell an element from its
image (`map_filter_eq_iff`).  A weaker filter gives the same elements exactly if it lets nothing
more pass (`map_filter_perm_iff`).
-/

import Mathlib.Data.List.Dedup
import Mathlib.Data.List.Sort
import Mathlib.Data.Multiset.Count
import Mathlib.Data.Multiset.Filter

namespace Abdb

open List

variable {α : Type*} {p : α → Bool}

section Sorting

variable {r : α → α → Prop} [DecidableRel r] [IsTrans α r]

theorem filter_orderedInsert (a : α) : ∀ {l : List α}, l.Pairwise r →
    (l.orderedInsert r a).filter p = if p a then (l.filter p).orderedInsert r a else l.filter p
  | [], _ => by
    rw [orderedInsert_nil, filter_singleton, filter_nil, orderedInsert_nil]
    cases p a <;> rfl
  | b :: l, h => by
    obtain ⟨hb, hl⟩ := pairwise_cons.1 h
    by_cases hab : r a b
    · -- `a` comes before all of `l`, also before what the filter leaves
      have hfirst : (filter p (b :: l)).orderedInsert r a = a :: filter p (b :: l) := by
        rcases hfilter : filter p (b :: l) with _ | ⟨c, l'⟩
        · rfl
        · refine orderedInsert_cons_of_le r l' ?_
          have hc : c ∈ b :: l := (mem_filter.1 (hfilter ▸ mem_cons_self : c ∈ filter p (b :: l))).1
          rcases mem_cons.1 hc with rfl | hc
          · exact hab
          · exact Trans.trans hab (hb c hc)
      rw [orderedInsert_cons_of_le r l hab, filter_cons, hfirst]
    · rw [orderedInsert_of_not_le r l hab, filter_cons, filter_orderedInsert a hl, filter_cons]
      cases hpa : p a <;> cases hpb : p b
      · rfl
      · rfl
      · rfl
      · exact (orderedInsert_of_not_le r _ hab).symm

/-- **Filtering and sorting**, in either order. -/
theorem filter_insertionSort [Std.Total r] (l : List α) :
    (l.insertionSort r).filter p = (l.filter p).insertionSort r := by
  induction l with
  | nil => rfl
  | cons a l ih =>
    rw [insertionSort_cons, filter_orderedInsert a (pairwise_insertionSort r l), ih, filter_cons]
    cases p a <;> rfl

end Sorting

/-- **Filtering and removing duplicates**, in either order. -/
theorem filter_dedup [DecidableEq α] (l : List α) : l.dedup.filter p = (l.filter p).dedup := by
  induction l with
  | nil => rfl
  | cons a l ih =>
    by_cases ha : a ∈ l
    · rw [dedup_cons_of_mem ha, ih, filter_cons]
      cases hp : p a with
      | false => rfl
      | true => exact (dedup_cons_of_mem (mem_filter.2 ⟨ha, hp⟩)).symm
    · rw [dedup_cons_of_notMem ha, filter_cons, ih, filter_cons]
      cases hp : p a with
      | false => rfl
      | true => exact (dedup_cons_of_notMem fun hmem => ha (mem_filter.1 hmem).1).symm

/-- **Filtering before a map** by one predicate and after it by another. -/
theorem map_filter_eq_iff {β : Type*} [DecidableEq β] {f : α → β} {q : β → Bool} {s : Multiset α} :
    (s.filter (p ·)).map f = (s.map f).filter (q ·) ↔ ∀ a ∈ s, p a = q (f a) := by
  rw [Multiset.filter_map]
  constructor
  · intro h a ha
    rw [Bool.eq_iff_iff]
    constructor
    · intro hp
      have hmem : f a ∈ (s.filter fun a => p a).map f :=
        Multiset.mem_map_of_mem f (Multiset.mem_filter.2 ⟨ha, hp⟩)
      rw [h] at hmem
      obtain ⟨b, hb, heq⟩ := Multiset.mem_map.1 hmem
      rw [← heq]
      exact (Multiset.mem_filter.1 hb).2
    · intro hq
      -- all that is mapped to `f a` has to be there before the map
      have hcount := congrArg (Multiset.count (f a)) h
      rw [Multiset.count_map, Multiset.count_map, Multiset.filter_filter, Multiset.filter_filter] at hcount
      have hle : s.filter (fun x => f a = f x ∧ p x) ≤ s.filter (fun x => f a = f x ∧ (q ∘ f) x) := by
        refine Multiset.monotone_filter_right s fun x hx => ⟨hx.1, ?_⟩
        rw [Function.comp, ← hx.1]
        exact hq
      have heq := Multiset.eq_of_le_of_card_le hle hcount.symm.le
      have hmem : a ∈ s.filter (fun x => f a = f x ∧ (q ∘ f) x) := Multiset.mem_filter.2 ⟨ha, rfl, hq⟩
      rw [← heq] at hmem
      exact (Multiset.mem_filter.1 hmem).2.2
  · intro h
    exact congrArg _ (Multiset.filter_congr fun a ha => by rw [Function.comp, h a ha])

/-- **A weaker filter** gives the same elements exactly if it lets nothing more pass. -/
theorem map_filter_perm_iff {β : Type*} {f : α → β} {q : α → Bool} {l : List α} (h : ∀ x, q x = true → p x = true) :
    ((l.filter p).map f).Perm ((l.filter q).map f) ↔ ∀ x ∈ l, p x = true → q x = true := by
  constructor
  · intro hperm x hx hp
    have hlength : (l.filter q).length = (l.filter p).length := by
      rw [← length_map f, ← hperm.length_eq, length_map]
    have heq : l.filter q = l.filter p := (monotone_filter_right l h).eq_of_length hlength
    exact (mem_filter.1 (heq ▸ mem_filter.2 ⟨hx, hp⟩)).2
  · intro hall
    have heq : l.filter p = l.filter q := filter_congr fun x hx => Bool.eq_iff_iff.2 ⟨hall x hx, h x⟩
    rw [heq]

end Abdb
