/-
# What an index page is for

A leaf or inner page is an ordered map of limited size.  `PageMap` says what its methods should
return and do to the map: an insertion is refused if the map is full, otherwise if the key is there,
and an index names the key that has so many smaller ones.  A buffer stores a map (`Stores`) if its
entries are sorted, are not too many, and map the keys as the map does; each method of the buffer
then replies as on the map, and the buffer stores the new map and keeps the rest of the page
(`Does`).
-/

import Abdb.Lib.OrderedMap
import Abdb.Page.Edits

namespace Abdb

open Lib

/-- What an index page maps its keys to. -/
abbrev PageMap (R : Type*) := ℕ → Option R

namespace PageMap

open OrderedMap

variable {R : Type*} (m : PageMap R)

def empty : PageMap R := fun _ => none

/-- What `insert_entry` and `insert_separator` should do. -/
noncomputable def insert (capacity key : ℕ) (value : R) : PageMap R × Except OverlayError Unit :=
  if capacity ≤ size m then (m, .error (.pageFull capacity (size m + 1)))
  else if (m key).isSome then (m, .error (.duplicateKey key))
  else (Function.update m key (some value), .ok ())

/-- What `delete_entry` and `delete_separator` should do. -/
noncomputable def delete (index : ℕ) : PageMap R × Except OverlayError Unit :=
  if size m ≤ index then (m, .error (.indexOutOfBounds index (size m))) else (eraseAt m index, .ok ())

/-- What `delete_by_key` should do. -/
def deleteByKey (key : ℕ) : PageMap R × Except OverlayError Bool :=
  (Function.update m key none, .ok (m key).isSome)

/-- What `update_entry` should do. -/
def update (key : ℕ) (value : R) : PageMap R × Except OverlayError Bool :=
  if (m key).isSome then (Function.update m key (some value), .ok true) else (m, .ok false)

/-- What `update_child` should do. -/
noncomputable def updateAt (index : ℕ) (value : R) : PageMap R × Except OverlayError Unit :=
  if size m ≤ index then (m, .error (.indexOutOfBounds index (size m))) else (setAt m index value, .ok ())

end PageMap

namespace PageBuffer

open OrderedMap (ofList)

variable {R ρ : Type*} {L : IndexLayout} {valueOf : List UInt8 → R} {b : PageBuffer} {m : PageMap R}
  {key index : ℕ} {e : List UInt8} {xs ys : List (List UInt8)}

/-- The entries of the buffer are sorted, not too many, and those of the map. -/
structure Stores (L : IndexLayout) (valueOf : List UInt8 → R) (b : PageBuffer) (m : PageMap R) : Prop where
  count_le : b.count ≤ L.capacity
  sorted : SortedBy keyOf (b.entries L)
  map : ofList keyOf valueOf (b.entries L) = m

/-- A call on the buffer does what it should do to the map, and keeps the rest of the page. -/
def Does (L : IndexLayout) (valueOf : List UInt8 → R) (b : PageBuffer)
    (result : Option (PageBuffer × ρ)) (should : PageMap R × ρ) : Prop :=
  ∃ b', result = some (b', should.2) ∧ Stores L valueOf b' should.1 ∧ Kept L b b'

theorem stores_empty (h : b.count = 0) : Stores L valueOf b PageMap.empty where
  count_le := h ▸ Nat.zero_le _
  sorted := (entries_eq_nil (L := L) h).symm ▸ SortedBy.nil
  map := (entries_eq_nil (L := L) h).symm ▸ rfl

theorem cut_lt_count (hcut : b.entries L = xs ++ e :: ys) : xs.length < b.count := by
  rw [← length_entries (L := L), hcut, List.length_append, List.length_cons]
  omega

/-- An insertion into a full page is refused. -/
theorem insert_full (hfull : b.count = L.capacity) :
    b.insert L key e = some (b, .error (.pageFull L.capacity (L.capacity + 1))) := by
  rw [insert, if_pos hfull.ge, hfull]

namespace Stores

variable (h : Stores L valueOf b m)
include h

theorem size_eq : OrderedMap.size m = b.count := by
  rw [← h.map, OrderedMap.size_ofList h.sorted, length_entries]

/-- Nothing has happened. -/
theorem same {reply : ρ} : Does L valueOf b (some (b, reply)) (m, reply) := ⟨b, rfl, h, Kept.refl⟩

/-- **What a search finds**: the entry of the key, or the place where it would be. -/
theorem findSlot_cases (key : ℕ) :
    (∃ xs e ys, b.entries L = xs ++ e :: ys ∧ keyOf e = key ∧ b.findSlot L key = some (true, xs.length) ∧
      m key = some (valueOf e)) ∨
    ∃ xs ys, b.entries L = xs ++ ys ∧ (∀ x ∈ xs, keyOf x < key) ∧ (∀ y ∈ ys, key < keyOf y) ∧
      b.findSlot L key = some (false, xs.length) ∧ m key = none := by
  rw [findSlot_eq_entries h.count_le]
  rcases h.sorted.cut key with ⟨xs, e, ys, hcut, rfl⟩ | ⟨xs, ys, hcut, hx, hy⟩
  · have hs : SortedBy keyOf (xs ++ e :: ys) := hcut ▸ h.sorted
    refine Or.inl ⟨xs, e, ys, hcut, rfl, ?_, ?_⟩
    · rw [hcut, findSlot_hit hs]
    · rw [← h.map, hcut, OrderedMap.ofList_cut hs]
  · refine Or.inr ⟨xs, ys, hcut, hx, hy, ?_, ?_⟩
    · rw [hcut, findSlot_miss hx hy]
    · rw [← h.map, hcut]
      refine OrderedMap.ofList_eq_none_iff.2 fun e he => ?_
      rcases List.mem_append.1 he with he | he
      · exact (hx e he).ne
      · exact (hy e he).ne'

/-- The entry of a cut can be read. -/
theorem entryUnwrap_cut (hcut : b.entries L = xs ++ e :: ys) : b.entryUnwrap L xs.length = some e := by
  have hlt := cut_lt_count hcut
  have hget := getElem?_entries (L := L) (b := b) xs.length
  rw [hcut, if_pos hlt, List.getElem?_append_right le_rfl, Nat.sub_self, List.getElem?_cons_zero] at hget
  rw [entryUnwrap_of_lt (hlt.trans_le h.count_le) hlt, Option.some.inj hget]

/-- **`lookup` is the map.** -/
theorem lookup_eq (key : ℕ) : b.lookup L valueOf key = some (m key) := by
  rw [lookup]
  rcases h.findSlot_cases key with ⟨xs, e, ys, hcut, -, hfind, hkey⟩ | ⟨xs, ys, -, -, -, hfind, hkey⟩
  · rw [hfind, hkey]
    dsimp only
    rw [h.entryUnwrap_cut hcut]
    rfl
  · rw [hfind, hkey]

/-- An insertion of a present key is refused. -/
theorem insert_present (hroom : b.count ≠ L.capacity) (hkey : (m key).isSome = true) :
    b.insert L key e = some (b, .error (.duplicateKey key)) := by
  rcases h.findSlot_cases key with ⟨xs, _, _, -, -, hfind, -⟩ | ⟨_, _, -, -, -, -, hnone⟩
  · exact insert_of_hit (lt_of_le_of_ne h.count_le hroom) hfind
  · rw [hnone] at hkey
    cases hkey

/-- A write between the count and the entries. -/
theorem write_header {o : ℕ} {l : List UInt8} (hcount : uberHeaderSize + 2 ≤ o)
    (hentries : o + l.length ≤ L.entriesOffset) : Stores L valueOf ⟨overwrite b.data o l⟩ m := by
  have hsame : entries L ⟨overwrite b.data o l⟩ = b.entries L := entries_write hcount hentries
  refine ⟨?_, ?_, ?_⟩
  · rw [← length_entries (L := L), hsame, length_entries]
    exact h.count_le
  · rw [hsame]
    exact h.sorted
  · rw [hsame, h.map]

variable (hoff : uberHeaderSize + 2 ≤ L.entriesOffset)
include hoff

/-- An entry is put in. -/
theorem insert_cut (hroom : b.count < L.capacity) (hcut : b.entries L = xs ++ ys)
    (hs : SortedBy keyOf (xs ++ e :: ys)) (he : e.length = 16) :
    ∃ b', b.insert L (keyOf e) e = some (b', .ok ()) ∧ b'.entries L = xs ++ e :: ys ∧
      Stores L valueOf b' (ofList keyOf valueOf (xs ++ e :: ys)) ∧ Kept L b b' := by
  obtain ⟨hx, hy⟩ := hs.of_cut
  have hfind : b.findSlot L (keyOf e) = some (false, xs.length) := by
    rw [findSlot_eq_entries h.count_le, hcut, findSlot_miss hx hy]
  obtain ⟨b', hinsert, hedit⟩ := insert_of_absent hoff hroom hfind he
  rw [hcut, insertIdx_cut] at hedit
  refine ⟨b', hinsert, hedit.entries, ⟨?_, ?_, ?_⟩, hedit.kept⟩
  · have hlen := congrArg List.length hcut
    rw [length_entries, List.length_append] at hlen
    rw [hedit.count, List.length_append, List.length_cons]
    omega
  · rw [hedit.entries]
    exact hs
  · rw [hedit.entries]

/-- **`insert_entry` and `insert_separator`.** -/
theorem insert (he : e.length = 16) :
    Does L valueOf b (b.insert L (keyOf e) e) (m.insert L.capacity (keyOf e) (valueOf e)) := by
  rw [PageMap.insert, h.size_eq]
  by_cases hfull : L.capacity ≤ b.count
  · have hcount := le_antisymm h.count_le hfull
    rw [if_pos hfull, insert_full hcount, hcount]
    exact h.same
  rw [if_neg hfull]
  rcases h.findSlot_cases (keyOf e) with ⟨xs, a, ys, -, -, -, hkey⟩ | ⟨xs, ys, hcut, hx, hy, -, hkey⟩
  · have hsome : (m (keyOf e)).isSome = true := by
      rw [hkey]
      rfl
    rw [if_pos hsome, h.insert_present (not_le.1 hfull).ne hsome]
    exact h.same
  · have hs : SortedBy keyOf (xs ++ e :: ys) := (hcut ▸ h.sorted).insert_gap hx hy
    obtain ⟨b', hinsert, -, hstores, hkept⟩ := h.insert_cut hoff (not_le.1 hfull) hcut hs he
    rw [hkey, if_neg (by simp), hinsert, ← h.map, hcut, ← OrderedMap.ofList_insert hs]
    exact ⟨b', rfl, hstores, hkept⟩

/-- **What an insertion that succeeds has put in.** -/
theorem insert_ok {b' : PageBuffer} (he : e.length = 16)
    (hinsert : b.insert L (keyOf e) e = some (b', .ok ())) :
    ∃ xs ys, b.entries L = xs ++ ys ∧ b'.entries L = xs ++ e :: ys ∧ SortedBy keyOf (xs ++ e :: ys) ∧
      Stores L valueOf b' (ofList keyOf valueOf (xs ++ e :: ys)) ∧ Kept L b b' := by
  by_cases hfull : b.count = L.capacity
  · rw [insert_full hfull] at hinsert
    cases hinsert
  rcases h.findSlot_cases (keyOf e) with ⟨xs, a, ys, -, -, -, hkey⟩ | ⟨xs, ys, hcut, hx, hy, -, -⟩
  · rw [h.insert_present hfull (hkey ▸ rfl)] at hinsert
    cases hinsert
  · have hs : SortedBy keyOf (xs ++ e :: ys) := (hcut ▸ h.sorted).insert_gap hx hy
    obtain ⟨b'', hinsert', hentries, hstores, hkept⟩ :=
      h.insert_cut hoff (lt_of_le_of_ne h.count_le hfull) hcut hs he
    obtain rfl : b' = b'' := congrArg Prod.fst (Option.some.inj (hinsert.symm.trans hinsert'))
    exact ⟨xs, ys, hcut, hentries, hs, hstores, hkept⟩

/-- An entry is taken out. -/
theorem delete_cut (hcut : b.entries L = xs ++ e :: ys) :
    ∃ b', b.delete L xs.length = some (b', .ok ()) ∧
      Stores L valueOf b' (ofList keyOf valueOf (xs ++ ys)) ∧ Kept L b b' := by
  have hlt := cut_lt_count hcut
  obtain ⟨b', hdelete, hedit⟩ := delete_of_lt hoff h.count_le hlt
  rw [hcut, eraseIdx_cut] at hedit
  refine ⟨b', hdelete, ⟨?_, ?_, ?_⟩, hedit.kept⟩
  · have hlen := congrArg List.length hcut
    rw [length_entries, List.length_append, List.length_cons] at hlen
    have hle := h.count_le
    rw [hedit.count, List.length_append]
    omega
  · rw [hedit.entries]
    exact (hcut ▸ h.sorted).remove
  · rw [hedit.entries]

/-- An entry is replaced by one with its key. -/
theorem setEntry_cut {e' : List UInt8} (hcut : b.entries L = xs ++ e :: ys) (he' : e'.length = 16)
    (hkey : keyOf e' = keyOf e) : ∃ b', b.setEntry L xs.length e' = some b' ∧
      Stores L valueOf b' (ofList keyOf valueOf (xs ++ e' :: ys)) ∧ Kept L b b' := by
  have hlt := cut_lt_count hcut
  obtain ⟨b', hset, hedit⟩ := setEntry_of_lt hoff h.count_le hlt he'
  rw [hcut, List.set_append_right _ _ le_rfl, Nat.sub_self, List.set_cons_zero] at hedit
  have hs : SortedBy keyOf (xs ++ e :: ys) := hcut ▸ h.sorted
  refine ⟨b', hset, ⟨?_, ?_, ?_⟩, hedit.kept⟩
  · have hlen := congrArg List.length hcut
    rw [length_entries, List.length_append, List.length_cons] at hlen
    rw [hedit.count, List.length_append, List.length_cons, ← hlen]
    exact h.count_le
  · rw [hedit.entries]
    obtain ⟨hx, hy⟩ := hs.of_cut
    exact hs.remove.insert_gap (hkey ▸ hx) (hkey ▸ hy)
  · rw [hedit.entries]

/-- **`delete_entry` and `delete_separator`.** -/
theorem delete (index : ℕ) : Does L valueOf b (b.delete L index) (m.delete index) := by
  rw [PageMap.delete, h.size_eq]
  by_cases hindex : b.count ≤ index
  · rw [if_pos hindex, PageBuffer.delete, if_pos hindex]
    exact h.same
  · have hlt : index < (b.entries L).length := by
      rw [length_entries]
      exact not_le.1 hindex
    obtain ⟨xs, e, ys, hcut, rfl⟩ := exists_cut_index hlt
    have hs : SortedBy keyOf (xs ++ e :: ys) := hcut ▸ h.sorted
    obtain ⟨b', hdelete, hstores, hkept⟩ := h.delete_cut hoff hcut
    rw [if_neg hindex, ← h.map, hcut, ← OrderedMap.ofList_eraseAt hs]
    exact ⟨b', hdelete, hstores, hkept⟩

/-- **`delete_by_key`.** -/
theorem deleteByKey (key : ℕ) : Does L valueOf b (b.deleteByKey L key) (m.deleteByKey key) := by
  rw [PageBuffer.deleteByKey, PageMap.deleteByKey]
  rcases h.findSlot_cases key with ⟨xs, e, ys, hcut, rfl, hfind, hkey⟩ | ⟨xs, ys, -, -, -, hfind, hkey⟩
  · have hs : SortedBy keyOf (xs ++ e :: ys) := hcut ▸ h.sorted
    obtain ⟨b', hdelete, hstores, hkept⟩ := h.delete_cut hoff hcut
    rw [hfind, hkey]
    dsimp only
    rw [hdelete, ← h.map, hcut, ← OrderedMap.ofList_remove hs]
    exact ⟨b', rfl, hstores, hkept⟩
  · rw [hfind, hkey, ← hkey, Function.update_eq_self, hkey]
    exact h.same

/-- **`update_entry`.** -/
theorem update (he : e.length = 16) :
    Does L valueOf b (b.update L (keyOf e) e) (m.update (keyOf e) (valueOf e)) := by
  rw [PageBuffer.update, PageMap.update]
  rcases h.findSlot_cases (keyOf e) with ⟨xs, a, ys, hcut, ha, hfind, hkey⟩ | ⟨xs, ys, -, -, -, hfind, hkey⟩
  · have hs : SortedBy keyOf (xs ++ a :: ys) := hcut ▸ h.sorted
    obtain ⟨b', hset, hstores, hkept⟩ := h.setEntry_cut hoff hcut he ha.symm
    rw [hfind, hkey, if_pos Option.isSome_some]
    dsimp only
    rw [hset, ← h.map, hcut, ← ha, ← OrderedMap.ofList_replace hs ha.symm]
    exact ⟨b', rfl, hstores, hkept⟩
  · rw [hfind, hkey, if_neg (by simp)]
    exact h.same

/-- **`update_child`**, with a write that keeps the key. -/
theorem updateAt {f : List UInt8 → List UInt8} {value : R} (index : ℕ) (hlength : ∀ e, (f e).length = 16)
    (hkey : ∀ e ∈ b.entries L, keyOf (f e) = keyOf e) (hvalue : ∀ e, valueOf (f e) = value) :
    Does L valueOf b (b.updateAt L index f) (m.updateAt index value) := by
  rw [PageMap.updateAt, h.size_eq, PageBuffer.updateAt]
  by_cases hindex : b.count ≤ index
  · rw [if_pos hindex, if_pos hindex]
    exact h.same
  · have hlt : index < (b.entries L).length := by
      rw [length_entries]
      exact not_le.1 hindex
    obtain ⟨xs, e, ys, hcut, rfl⟩ := exists_cut_index hlt
    have hs : SortedBy keyOf (xs ++ e :: ys) := hcut ▸ h.sorted
    have he : keyOf (f e) = keyOf e := hkey e (by rw [hcut]; simp)
    obtain ⟨b', hset, hstores, hkept⟩ := h.setEntry_cut hoff hcut (hlength e) he
    have hread : b.entry L xs.length = some (.ok e) := by
      have hunwrap := h.entryUnwrap_cut hcut
      rw [entryUnwrap] at hunwrap
      split at hunwrap
      · rename_i a hentry
        rw [hentry, Option.some.inj hunwrap]
      · cases hunwrap
    rw [if_neg hindex, if_neg hindex, hread]
    dsimp only
    rw [hset, ← hvalue e, ← h.map, hcut, ← OrderedMap.ofList_setAt hs he]
    exact ⟨b', rfl, hstores, hkept⟩

end Stores
end PageBuffer
end Abdb
