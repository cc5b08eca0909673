/-
# What a scan leaves out

A scan whose leaves overrun the end key does not yield all rows within its bounds (`scan_complete_iff`).
What it yields is still the rows from the first one on, in key order, and what it leaves out is less than a
leaf: the rows of the one leaf that reaches past the end key, without the first of them (`scanRows_append`).
Without an end key, nothing is left out.

For the map that an index stands for this is `Bindings.Scanned`, over any pages around the index
(`Store.Represents.scans_over`).
-/

import Abdb.BTree.Local
import Abdb.BTree.ScanComplete

namespace Abdb
namespace BTree

open Lib

variable {startKey endKey : Option ℕ} {es : List BTreeLeafEntry} {ess : List (List BTreeLeafEntry)}

/-- Behind an entry past the end there is none within the bounds. -/
theorem filter_within_eq_nil {z : BTreeLeafEntry} (hz : endKey.any (· < z.key) = true)
    (h : ∀ e ∈ es, z.key < e.key) : es.filter (within startKey endKey) = [] := by
  refine List.filter_eq_nil_iff.2 fun e he hw => ?_
  have hlt := h e he
  cases endKey with
  | none => cases hz
  | some stop =>
    have hstop := (within_iff.1 hw).2 stop rfl
    have hpast : stop < z.key := by simpa using hz
    omega

/-- **The stream yields all rows of a chain but some of one leaf**, if that reaches past the end, and never
its first. -/
theorem scanRows_append (h : SortedBy BTreeLeafEntry.key ess.flatten)
    (hstart : ∀ es rest, ess = es :: rest → ∀ e ∈ rest.flatten, startKey.any (e.key < ·) = false) :
    ∃ dropped, (ess.flatten.filter (within startKey endKey)).map scanRow =
        scanRows startKey endKey ess ++ dropped ∧
      (dropped ≠ [] → scanRows startKey endKey ess ≠ [] ∧ endKey ≠ none ∧
        ∃ es ∈ ess, dropped.length + 2 ≤ es.length) := by
  induction ess generalizing startKey with
  | nil => exact ⟨[], rfl, fun h => absurd rfl h⟩
  | cons es rest ih =>
    obtain ⟨hes, hrest, hlt⟩ := SortedBy.append_iff.1 (List.flatten_cons ▸ h)
    have hstart' := hstart es rest rfl
    rw [scanRows, fill_eq hes, List.flatten_cons, List.filter_append, List.map_append]
    dsimp only
    split_ifs with hover
    · -- the stream is done with this leaf, and the others are past the end
      obtain ⟨z, hz, hzs⟩ := List.any_eq_true.1 hover
      have hpast := (Bool.and_eq_true_iff.1 hzs).2
      rw [filter_within_eq_nil hpast (hlt z hz), List.map_nil, List.append_nil]
      refine ⟨((es.filter (within startKey endKey)).map scanRow).drop 1, (List.take_append_drop ..).symm, ?_⟩
      intro hdropped
      have hlong : 1 < ((es.filter (within startKey endKey)).map scanRow).length :=
        lt_of_not_ge (mt List.drop_eq_nil_iff.2 hdropped)
      have hout : ¬ within startKey endKey z = true := by
        rw [within, hpast]
        simp
      have hless : (es.filter (within startKey endKey)).length < es.length :=
        List.length_filter_lt_length_iff_exists.2 ⟨z, hz, hout⟩
      rw [List.length_map] at hlong
      refine ⟨?_, ?_, es, List.mem_cons_self, ?_⟩
      · rw [Ne, List.take_eq_nil_iff, ← List.length_eq_zero_iff, List.length_map]
        omega
      · rintro rfl
        cases hpast
      · rw [List.length_drop, List.length_map]
        omega
    · have hwithin : rest.flatten.filter (within none endKey) = rest.flatten.filter (within startKey endKey) := by
        refine List.filter_congr fun e he => ?_
        rw [within, within, hstart' e he]
        rfl
      have hnone : ∀ es' rest', rest = es' :: rest' →
          ∀ e ∈ rest'.flatten, (none : Option ℕ).any (e.key < ·) = false := fun _ _ _ _ _ => rfl
      obtain ⟨dropped, heq, hend⟩ := ih hrest hnone
      rw [← hwithin, heq, ← List.append_assoc]
      refine ⟨dropped, rfl, fun hdropped => ?_⟩
      obtain ⟨hne, hend, es', hes', hle⟩ := hend hdropped
      exact ⟨List.append_ne_nil_of_right_ne_nil _ hne, hend, es', List.mem_cons_of_mem _ hes', hle⟩

/-! ### Trees among other pages -/

/-- A tree whose pages are those of another store is a tree there. -/
theorem Tree.of_within {F : Layout} {D : Dues} {page page' : LPageId → Option Page} {root : LPageId}
    (h : Tree F D page root) (hpage : Within page page') : Tree F D page' root :=
  { h with
    ok := by
      intro p s hp
      have hok := h.ok hp
      rcases s with ⟨_ | ℓ, lo, hi⟩ <;> obtain ⟨q, hq, hok⟩ := hok <;> exact ⟨q, hpage _ _ hq, hok⟩ }

/-- It binds the same keys. -/
theorem Tree.binds_of_within {F : Layout} {D : Dues} {page page' : LPageId → Option Page} {root : LPageId}
    (h : Tree F D page root) (hpage : Within page page') {k : ℕ} {r : RecordId} :
    F.Binds page k r ↔ F.Binds page' k r := by
  have hentries : ∀ {p lo hi}, F p = some ⟨0, lo, hi⟩ → leafEntries (page' p) = leafEntries (page p) := by
    intro p lo hi hp
    obtain ⟨q, hq, -⟩ := h.ok hp
    rw [hq, hpage _ _ hq]
  constructor
  · rintro ⟨p, lo, hi, hp, hentry⟩
    exact ⟨p, lo, hi, hp, by rwa [hentries hp]⟩
  · rintro ⟨p, lo, hi, hp, hentry⟩
    exact ⟨p, lo, hi, hp, by rwa [← hentries hp]⟩

/-- A key is bound by an entry of a leaf that child pointers lead to. -/
theorem binds_iff_stores {F : Layout} {st : Store} (h : Tree F .settled st.page st.root) {k : ℕ} {r : RecordId} :
    F.Binds st.page k r ↔ st.Stores k r := by
  constructor
  · rintro ⟨p, lo, hi, hp, hentry⟩
    exact ⟨p, h.reachable hp, hentry⟩
  · rintro ⟨p, ⟨h0, d, hd⟩, e, he, heq⟩
    obtain ⟨height, htop, -⟩ := h.top h0
    obtain ⟨ℓ, lo, hi, -, hp, -⟩ := h.span_of_mem htop.1 hd
    cases ℓ with
    | zero => exact ⟨p, lo, hi, hp, e, he, heq⟩
    | succ ℓ =>
      obtain ⟨i, hi, -⟩ := h.inner hp
      rw [hi] at he
      cases he

/-- A page of the tree has room for its entries. -/
theorem length_leafEntries_le {F : Layout} {st : Store} (h : Tree F .settled st.page st.root) {p : LPageId}
    (hp : st.InTree p) : (leafEntries (st.page p)).length ≤ BTreeLeafPage.maxEntries := by
  obtain ⟨h0, d, hd⟩ := hp
  obtain ⟨height, htop, -⟩ := h.top h0
  obtain ⟨ℓ, lo, hi, -, hp, -⟩ := h.span_of_mem htop.1 hd
  cases ℓ with
  | zero =>
    obtain ⟨l, hl, ok⟩ := h.leaf hp
    rw [hl]
    exact ok.capacity
  | succ ℓ =>
    obtain ⟨i, hi, -⟩ := h.inner hp
    rw [hi]
    exact Nat.zero_le _

/-! ### Scans of a map -/

/-- The bindings of a map within bounds, in key order. -/
def Bindings.Range (m : Bindings) (startKey endKey : Option ℕ) (rows : List (ℕ × RecordId)) : Prop :=
  SortedBy Prod.fst rows ∧ ∀ k r, (k, r) ∈ rows ↔ m.lookup k = some r ∧ InBounds startKey endKey k

/-- **What a scan yields of a map**: its bindings within the bounds from the first one on, all of them if
there is no end key, and else all but less than a leaf has room for. -/
def Bindings.Scanned (m : Bindings) (startKey endKey : Option ℕ) (rows : List (ℕ × RecordId)) : Prop :=
  ∃ rest, m.Range startKey endKey (rows ++ rest) ∧
    (rest ≠ [] → rows ≠ [] ∧ endKey ≠ none ∧ rest.length + 2 ≤ BTreeLeafPage.maxEntries)

variable {S : PageSupply} {st : Store} {m : Bindings}

/-- **A scan of an index among other pages.** -/
theorem Store.Represents.scans_over (h : st.Represents S m) (K : LPageId → Option Page)
    (start stop : Option (List UInt8)) : ∃ rows, m.Scanned (start.map keyFromBytes) (stop.map keyFromBytes) rows ∧
      (st.over K).Scans S start stop (rows.map fun x => .ok (keyToBytes x.1, x.2)) := by
  obtain ⟨F, hrests, hbinds⟩ := h
  have htree : Tree F .settled (st.over K).page (st.over K).root := hrests.tree.of_within (within_overlay _ _)
  have hkept : ∀ k r, F.Binds (st.over K).page k r ↔ m.lookup k = some r := fun k r => by
    rw [← hbinds k r, hrests.tree.binds_of_within (within_overlay _ _)]
    rfl
  by_cases h0 : st.root = 0
  · -- an empty index
    have hnone : ∀ k r, m.lookup k ≠ some r := by
      intro k r hk
      obtain ⟨p, lo, hi, hp, -⟩ := (hbinds k r).2 hk
      rw [hrests.tree.empty h0 p] at hp
      cases hp
    refine ⟨[], ⟨[], ⟨SortedBy.nil, fun k r => iff_of_false (by rintro ⟨⟩) fun hk => hnone k r hk.1⟩,
      fun hne => absurd rfl hne⟩, _, .at_page (by rintro ⟨⟩) (by rintro ⟨⟩) (congrArg Out.goto (if_pos h0)) (.done rfl),
      .silent rfl (by rintro ⟨⟩) .ended⟩
  obtain ⟨ps, hscans, hsorted, hrest, hin, hall⟩ := Scan.scans (S := S) htree h0 start stop
  set lo := start.map keyFromBytes
  set hi := stop.map keyFromBytes
  set ess := ps.map fun p => leafEntries ((st.over K).page p) with hess
  have hbelow : ∀ es rest, ess = es :: rest → ∀ e ∈ rest.flatten, lo.any (e.key < ·) = false := by
    intro es rest heq e he
    obtain ⟨q, qs, hps, -, rfl⟩ := List.map_eq_cons_iff.1 heq
    obtain ⟨p, hp, hep⟩ := List.mem_flatMap.1 he
    exact any_lt_eq_false (hrest q qs hps p hp e hep)
  obtain ⟨dropped, heq, hend⟩ : ∃ dropped, (ess.flatten.filter (within lo hi)).map scanRow =
      scanRows lo hi ess ++ dropped ∧ _ := scanRows_append hsorted hbelow
  -- the stream and what it leaves out, as bindings
  set entries := ess.flatten.filter (within lo hi) with hentries
  set n := (scanRows lo hi ess).length
  have hyields : scanRows lo hi ess = (entries.take n).map scanRow := by
    rw [List.map_take, heq, List.take_left]
  have hdropped : dropped = (entries.drop n).map scanRow := by
    rw [List.map_drop, heq, List.drop_left]
  have hmem : ∀ k r, (k, r) ∈ entries.map (fun e => (e.key, e.recordId)) ↔
      m.lookup k = some r ∧ InBounds lo hi k := by
    intro k r
    rw [← hkept, binds_iff_stores htree, List.mem_map]
    constructor
    · rintro ⟨e, he, heq⟩
      obtain ⟨rfl, rfl⟩ := Prod.mk.inj heq
      obtain ⟨hflat, hw⟩ := List.mem_filter.1 he
      obtain ⟨p, hp, hep⟩ := List.mem_flatMap.1 hflat
      exact ⟨⟨p, hin p hp, e, hep, rfl, rfl⟩, within_iff.1 hw⟩
    · rintro ⟨⟨p, hp, e, he, rfl, rfl⟩, hb⟩
      have hflat : e ∈ ess.flatten := List.mem_flatMap.2 ⟨p, hall p hp e he hb.getD_le, he⟩
      exact ⟨e, List.mem_filter.2 ⟨hflat, within_iff.2 hb⟩, rfl⟩
  have hsplit : (entries.take n).map (fun e => (e.key, e.recordId)) ++
      (entries.drop n).map (fun e => (e.key, e.recordId)) = entries.map fun e => (e.key, e.recordId) := by
    rw [← List.map_append, List.take_append_drop]
  refine ⟨(entries.take n).map fun e => (e.key, e.recordId),
    ⟨(entries.drop n).map fun e => (e.key, e.recordId), ⟨?_, ?_⟩, fun hne => ?_⟩, ?_⟩
  · rw [hsplit]
    exact List.pairwise_map.2 (hsorted.filter _)
  · rw [hsplit]
    exact hmem
  · have hne' : dropped ≠ [] := by
      rw [hdropped]
      exact fun hnil => hne (List.map_eq_nil_iff.2 (List.map_eq_nil_iff.1 hnil))
    obtain ⟨hfirst, hstop, es, hes, hle⟩ := hend hne'
    obtain ⟨p, hp, rfl⟩ := List.mem_map.1 hes
    have hcap := length_leafEntries_le htree (hin p hp)
    refine ⟨fun hnil => hfirst ?_, hstop, ?_⟩
    · rw [hyields, List.map_eq_nil_iff.1 hnil]
      rfl
    · rw [hdropped, List.length_map] at hle
      rw [List.length_map]
      omega
  · rw [hyields, List.map_map] at hscans
    rw [List.map_map]
    exact hscans

end BTree
end Abdb
