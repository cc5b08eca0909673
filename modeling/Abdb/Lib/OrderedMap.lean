/-
# Ordered maps

A partial map over a linear order is what an array of entries sorted by key stands for.  Its keys
have a rank, the number of the smaller keys, so that an entry can be named by its index.  `ofList` is
the map of a list of entries; for a sorted list the size and the ranks are lengths (`size_ofList`,
`rank_cut`), and an entry that is put in, taken out or replaced in the list is so in the map.
-/

import Mathlib.Data.Set.Card
import Mathlib.Logic.Function.Basic
import Abdb.Lib.Search

namespace Abdb
namespace Lib
namespace OrderedMap

variable {E K V : Type*} [LinearOrder K]

def keys (m : K → Option V) : Set K := {k | m k ≠ none}

noncomputable def size (m : K → Option V) : ℕ := (keys m).ncard

/-- The number of keys below a key. -/
noncomputable def rank (m : K → Option V) (k : K) : ℕ := (keys m ∩ Set.Iio k).ncard

/-- The map without its key of a rank. -/
noncomputable def eraseAt (m : K → Option V) (i : ℕ) : K → Option V := fun k =>
  if rank m k = i then none else m k

/-- The map with another value for its key of a rank. -/
noncomputable def setAt (m : K → Option V) (i : ℕ) (v : V) : K → Option V := fun k =>
  if rank m k = i then (m k).map fun _ => v else m k

/-- What the entries of a list map a key to. -/
def ofList (key : E → K) (val : E → V) (l : List E) : K → Option V := fun k =>
  (l.find? fun e => key e = k).map val

variable {key : E → K} {val : E → V} {l xs ys : List E} {e e' : E} {k : K}

theorem ofList_eq_none_iff : ofList key val l k = none ↔ ∀ e ∈ l, key e ≠ k := by
  rw [ofList, Option.map_eq_none_iff, List.find?_eq_none]
  simp only [decide_eq_true_eq, ne_eq]

theorem mem_keys_ofList : k ∈ keys (ofList key val l) ↔ ∃ e ∈ l, key e = k := by
  rw [keys, Set.mem_ofPred_eq, ne_eq, ofList_eq_none_iff]
  simp only [not_forall, not_not, exists_prop]

/-- What an entry in the middle does. -/
theorem ofList_middle (hx : ∀ x ∈ xs, key x ≠ key e) : ofList key val (xs ++ e :: ys) =
    Function.update (ofList key val (xs ++ ys)) (key e) (some (val e)) := by
  funext k
  by_cases hk : k = key e
  · subst hk
    have hnone : xs.find? (fun x => key x = key e) = none := by
      simpa only [List.find?_eq_none, decide_eq_true_eq] using hx
    have hsome : (e :: ys).find? (fun x => key x = key e) = some e := List.find?_cons_of_pos (by simp)
    rw [Function.update_self, ofList, List.find?_append, hnone, Option.none_or, hsome, Option.map_some]
  · rw [Function.update_of_ne hk, ofList, ofList, List.find?_append, List.find?_append,
      List.find?_cons_of_neg (by simpa using Ne.symm hk)]

section Sorted

variable (h : SortedBy key (xs ++ e :: ys))
include h

/-- **An entry is put in.** -/
theorem ofList_insert : ofList key val (xs ++ e :: ys) =
    Function.update (ofList key val (xs ++ ys)) (key e) (some (val e)) :=
  ofList_middle fun x hx => (h.of_cut.1 x hx).ne

theorem ofList_cut : ofList key val (xs ++ e :: ys) (key e) = some (val e) := by
  rw [ofList_insert h, Function.update_self]

/-- **An entry is taken out.** -/
theorem ofList_remove : ofList key val (xs ++ ys) =
    Function.update (ofList key val (xs ++ e :: ys)) (key e) none := by
  obtain ⟨hx, hy⟩ := h.of_cut
  have habsent : ofList key val (xs ++ ys) (key e) = none := by
    refine ofList_eq_none_iff.2 fun a ha => ?_
    rcases List.mem_append.1 ha with ha | ha
    · exact (hx a ha).ne
    · exact (hy a ha).ne'
  rw [ofList_insert h, Function.update_idem, ← habsent, Function.update_eq_self]

/-- **An entry is replaced.** -/
theorem ofList_replace (hkey : key e' = key e) : ofList key val (xs ++ e' :: ys) =
    Function.update (ofList key val (xs ++ e :: ys)) (key e) (some (val e')) := by
  have hx : ∀ x ∈ xs, key x ≠ key e' := fun x hxs => hkey ▸ (h.of_cut.1 x hxs).ne
  rw [ofList_middle hx, ofList_insert h, Function.update_idem, hkey]

end Sorted

theorem size_ofList (h : SortedBy key l) : size (ofList key val l) = l.length := by
  have hkeys : keys (ofList key val l) = ((l.map key).toFinset : Set K) := by
    ext k
    rw [mem_keys_ofList]
    simp
  have hnodup : (l.map key).Nodup := List.pairwise_map.2 (h.imp fun hlt => hlt.ne)
  rw [size, hkeys, Set.ncard_coe_finset, List.toFinset_card_of_nodup hnodup, List.length_map]

/-- **The rank of an entry's key is its index.** -/
theorem rank_cut (h : SortedBy key (xs ++ e :: ys)) :
    rank (ofList key val (xs ++ e :: ys)) (key e) = xs.length := by
  obtain ⟨hx, hy⟩ := h.of_cut
  have hbelow : keys (ofList key val (xs ++ e :: ys)) ∩ Set.Iio (key e) = keys (ofList key val xs) := by
    ext k
    rw [Set.mem_inter_iff, mem_keys_ofList, mem_keys_ofList, Set.mem_Iio]
    constructor
    · rintro ⟨⟨a, ha, rfl⟩, hlt⟩
      rcases List.mem_append.1 ha with ha | ha
      · exact ⟨a, ha, rfl⟩
      · rcases List.mem_cons.1 ha with rfl | ha
        · exact absurd hlt (lt_irrefl _)
        · exact absurd hlt (hy a ha).not_gt
    · rintro ⟨a, ha, rfl⟩
      exact ⟨⟨a, List.mem_append_left _ ha, rfl⟩, hx a ha⟩
  rw [rank, hbelow]
  exact size_ofList (SortedBy.append_iff.1 h).1

/-- An entry is the only one with a key of its rank. -/
theorem key_eq_of_rank_eq (h : SortedBy key (xs ++ e :: ys))
    (hk : k ∈ keys (ofList key val (xs ++ e :: ys)))
    (hrank : rank (ofList key val (xs ++ e :: ys)) k = xs.length) : k = key e := by
  obtain ⟨a, ha, rfl⟩ := mem_keys_ofList.1 hk
  obtain ⟨xs', ys', hcut⟩ := List.append_of_mem ha
  have hrank' : rank (ofList key val (xs' ++ a :: ys')) (key a) = xs'.length := rank_cut (hcut ▸ h)
  rw [← hcut, hrank] at hrank'
  obtain ⟨-, htail⟩ := List.append_inj hcut hrank'
  rw [(List.cons.inj htail).1]

/-- An operation on the key of a rank is one on the key of the entry. -/
theorem at_rank (h : SortedBy key (xs ++ e :: ys)) (f : V → Option V) :
    (fun k => if rank (ofList key val (xs ++ e :: ys)) k = xs.length
      then (ofList key val (xs ++ e :: ys) k).bind f else ofList key val (xs ++ e :: ys) k) =
      Function.update (ofList key val (xs ++ e :: ys)) (key e) (f (val e)) := by
  funext k
  by_cases hk : k = key e
  · subst hk
    rw [Function.update_self, if_pos (rank_cut h), ofList_cut h, Option.bind_some]
  · rw [Function.update_of_ne hk]
    split_ifs with hrank
    · by_cases hnone : ofList key val (xs ++ e :: ys) k = none
      · rw [hnone, Option.bind_none]
      · exact absurd (key_eq_of_rank_eq h hnone hrank) hk
    · rfl

/-- **The entry of an index is taken out.** -/
theorem ofList_eraseAt (h : SortedBy key (xs ++ e :: ys)) :
    ofList key val (xs ++ ys) = eraseAt (ofList key val (xs ++ e :: ys)) xs.length := by
  rw [ofList_remove h, ← at_rank h fun _ => none]
  funext k
  rw [eraseAt]
  split_ifs
  · exact Option.bind_fun_none _
  · rfl

/-- **The entry of an index is replaced.** -/
theorem ofList_setAt (h : SortedBy key (xs ++ e :: ys)) (hkey : key e' = key e) :
    ofList key val (xs ++ e' :: ys) = setAt (ofList key val (xs ++ e :: ys)) xs.length (val e') := by
  rw [ofList_replace h hkey, ← at_rank h fun _ => some (val e')]
  funext k
  rw [setAt, Option.map_eq_bind]
  rfl

end OrderedMap
end Lib
end Abdb
