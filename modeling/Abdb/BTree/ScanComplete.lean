/-
# What a scan yields

A scan on a tree at rest should yield the stored pairs within its bounds, in key order,
and end.  It does exactly when no leaf overruns the end key (`scan_complete_iff`), that
is, when no leaf holds two keys within the bounds together with one past the end: the
stream is done as soon as it loads such a leaf, and only the first of its rows gets out
(`scan_drops`).
-/

import Abdb.BTree.Scan

namespace Abdb
namespace BTree

open Lib Relation

variable {startKey endKey : Option ℕ} {es : List BTreeLeafEntry} {ess : List (List BTreeLeafEntry)}

/-- The key lies within the bounds that are given. -/
def InBounds (startKey endKey : Option ℕ) (k : ℕ) : Prop :=
  (∀ s, startKey = some s → s ≤ k) ∧ ∀ e, endKey = some e → k ≤ e

/-- The entry is neither below the start nor past the end. -/
def within (startKey endKey : Option ℕ) (e : BTreeLeafEntry) : Bool :=
  !startKey.any (e.key < ·) && !endKey.any (· < e.key)

theorem within_iff {e : BTreeLeafEntry} :
    within startKey endKey e = true ↔ InBounds startKey endKey e.key := by
  cases startKey <;> cases endKey <;> simp [within, InBounds]

/-! ### The rows of a chain -/

/-- The leaf has two keys within the bounds and one past the end. -/
def Overrun (startKey endKey : Option ℕ) (es : List BTreeLeafEntry) : Prop :=
  2 ≤ (es.filter (within startKey endKey)).length ∧ ∃ e ∈ es, endKey.any (· < e.key) = true

/-- **The loop over a leaf** keeps the entries within the bounds, and stops if one is past
the end. -/
theorem fill_eq (h : SortedBy BTreeLeafEntry.key es) : fill startKey endKey es =
    ((es.filter (within startKey endKey)).map scanRow,
      es.any fun e => !startKey.any (e.key < ·) && endKey.any (· < e.key)) := by
  induction es with
  | nil => rfl
  | cons e es ih =>
    obtain ⟨hhead, htail⟩ := SortedBy.cons_iff.1 h
    rw [fill, ih htail]
    by_cases hs : startKey.any (e.key < ·) = true
    · simp [hs, within]
    by_cases he : endKey.any (· < e.key) = true
    · -- so are all that follow
      have hpast : es.filter (within startKey endKey) = [] := by
        refine List.filter_eq_nil_iff.2 fun x hx hw => ?_
        have hlt := hhead x hx
        cases endKey with
        | none => simp at he
        | some stop =>
          have hstop := (within_iff.1 hw).2 stop rfl
          simp only [Option.any_some, decide_eq_true_eq] at he
          omega
      simp [hs, he, within] at hpast ⊢
      exact hpast
    · simp [hs, he, within]

/-- **The stream yields all rows of a chain exactly if no leaf overruns.** -/
theorem scanRows_eq_iff (h : SortedBy BTreeLeafEntry.key ess.flatten)
    (hstart : ∀ es rest, ess = es :: rest →
      ∀ e ∈ rest.flatten, startKey.any (e.key < ·) = false) :
    scanRows startKey endKey ess =
        (ess.flatten.filter (within startKey endKey)).map scanRow ↔
      ∀ es ∈ ess, ¬ Overrun startKey endKey es := by
  induction ess generalizing startKey with
  | nil => simp [scanRows]
  | cons es rest ih =>
    obtain ⟨hes, hrest, hlt⟩ := SortedBy.append_iff.1 (List.flatten_cons ▸ h)
    have hstart' := hstart es rest rfl
    have hwithin : ∀ e ∈ rest.flatten, within none endKey e = within startKey endKey e := by
      intro e he
      simp [within, hstart' e he]
    rw [scanRows, fill_eq hes, List.flatten_cons, List.filter_append, List.map_append]
    dsimp only
    split_ifs with hover
    · -- the stream is done with this leaf
      obtain ⟨z, hz, hzs⟩ := List.any_eq_true.1 hover
      rw [Bool.and_eq_true] at hzs
      have hpast : ∀ e ∈ rest.flatten, ¬ within startKey endKey e = true := by
        intro e he hw
        have hze := hlt z hz e he
        cases endKey with
        | none => simp at hzs
        | some stop =>
          have hstop := (within_iff.1 hw).2 stop rfl
          simp only [Option.any_some, decide_eq_true_eq] at hzs
          omega
      rw [List.filter_eq_nil_iff.2 hpast, List.map_nil, List.append_nil, List.take_eq_self_iff,
        List.length_map]
      constructor
      · intro hle es' hes' hov
        rcases List.mem_cons.1 hes' with rfl | hes'
        · exact absurd hov.1 (by omega)
        · have hnil : es'.filter (within startKey endKey) = [] :=
            List.filter_eq_nil_iff.2 fun e he => hpast e (List.mem_flatten.2 ⟨es', hes', he⟩)
          have := hov.1
          rw [hnil] at this
          simp at this
      · intro hno
        by_contra hle
        exact hno es (List.mem_cons_self ..) ⟨by omega, z, hz, hzs.2⟩
    · have hfilter : rest.flatten.filter (within none endKey) =
          rest.flatten.filter (within startKey endKey) := List.filter_congr hwithin
      have hthis : ¬ Overrun startKey endKey es := by
        rintro ⟨htwo, z, hz, hzs⟩
        refine hover (List.any_eq_true.2 ⟨z, hz, ?_⟩)
        have hpos : 0 < (es.filter (within startKey endKey)).length := by omega
        obtain ⟨x, hx⟩ := List.exists_mem_of_length_pos hpos
        obtain ⟨-, hxw⟩ := List.mem_filter.1 hx
        have hxb := within_iff.1 hxw
        cases endKey with
        | none => simp at hzs
        | some stop =>
          have hxe := hxb.2 stop rfl
          simp only [Option.any_some, decide_eq_true_eq] at hzs
          cases startKey with
          | none => simp [hzs]
          | some start =>
            have hxs := hxb.1 start rfl
            simp
            omega
      have hover' : ∀ es' ∈ rest, Overrun none endKey es' ↔ Overrun startKey endKey es' := by
        intro es' hes'
        have : es'.filter (within none endKey) = es'.filter (within startKey endKey) :=
          List.filter_congr fun e he => hwithin e (List.mem_flatten.2 ⟨es', hes', he⟩)
        rw [Overrun, Overrun, this]
      rw [← hfilter, List.append_right_inj, ih hrest fun _ _ _ e _ => by simp]
      simp only [List.forall_mem_cons, hthis, not_false_eq_true, true_and]
      exact forall₂_congr fun es' hes' => not_congr (hover' es' hes')

/-! ### Scans of a store -/

/-- The tree stores a pair. -/
def Store.Stores (st : Store) (k : ℕ) (r : RecordId) : Prop :=
  ∃ p, st.InTree p ∧ ∃ e ∈ leafEntries (st.page p), e.key = k ∧ e.recordId = r

/-- A leaf of the tree holds two keys within the bounds and one past the end. -/
def Store.Overruns (st : Store) (startKey endKey : Option ℕ) : Prop :=
  ∃ p, st.InTree p ∧ ∃ x ∈ leafEntries (st.page p), ∃ y ∈ leafEntries (st.page p),
    ∃ z ∈ leafEntries (st.page p), x.key < y.key ∧ InBounds startKey endKey x.key ∧
      InBounds startKey endKey y.key ∧ endKey.any (· < z.key) = true

/-- A scan that runs alone returns a stream that yields these items and ends. -/
def Store.Scans (S : PageSupply) (st : Store) (startKey endKey : Option (List UInt8))
    (items : List ScanItem) : Prop :=
  ∃ s, st.Returns S (Scan.machine (startKey.map keyFromBytes) (endKey.map keyFromBytes)) .start st
    (.done (.ok s)) ∧ Drains st.view (.poll s) items

/-- A scan yields the stored pairs within its bounds, each once, in key order, and ends. -/
def Store.ScanComplete (S : PageSupply) (st : Store) (startKey endKey : Option (List UInt8)) : Prop :=
  ∃ rows : List (ℕ × RecordId),
    st.Scans S startKey endKey (rows.map fun x => .ok (keyToBytes x.1, x.2)) ∧
    SortedBy Prod.fst rows ∧
    ∀ k r, (k, r) ∈ rows ↔
      st.Stores k r ∧ InBounds (startKey.map keyFromBytes) (endKey.map keyFromBytes) k

variable {S : PageSupply} {st : Store} {F : Layout} {c k ℓ a b : ℕ} {items items' : List ScanItem}

theorem Store.Scans.unique {start stop : Option (List UInt8)} (h : st.Scans S start stop items)
    (h' : st.Scans S start stop items') : items = items' := by
  obtain ⟨s, hs, hdrains⟩ := h
  obtain ⟨s', hs', hdrains'⟩ := h'
  obtain ⟨-, heq⟩ := Store.Returns.unique hs hs'
  obtain rfl : s = s' := by simpa using heq
  exact hdrains.unique hdrains'

/-- **`find_leaf`** reaches the leaf that covers the start key. -/
theorem Scan.descend (startKey endKey : Option ℕ) (h : Tree F .settled st.page st.root)
    (hc : F c = some ⟨ℓ, a, b⟩)
    (ha : a ≤ startKey.getD 0) (hb : startKey.getD 0 < b) :
    ∃ leaf a' b', F leaf = some ⟨0, a', b'⟩ ∧ a' ≤ startKey.getD 0 ∧ startKey.getD 0 < b' ∧
      st.Returns S (Scan.machine startKey endKey) (.findLeaf c) st
        (.done (.ok (Scan.init startKey endKey leaf false))) := by
  induction ℓ generalizing c a b with
  | zero =>
    obtain ⟨l, hl, -⟩ := h.leaf hc
    have hres : Scan.resume startKey endKey st.view (.findLeaf c) =
        .done (.ok (Scan.init startKey endKey c false)) := by
      unfold Scan.resume Store.view
      dsimp only
      rw [hl, dispatch]
    exact ⟨c, a, b, hc, ha, hb,
      .at_page (by rintro ⟨⟩) (by rintro ⟨⟩) (congrArg Out.goto hres) (.done rfl)⟩
  | succ ℓ ih =>
    obtain ⟨i, c', a', b', hi, -, hroute, hc', -, -, ha', hb'⟩ := h.child hc ha hb
    obtain ⟨leaf, a'', b'', hleaf, ha'', hb'', hret⟩ := ih hc' ha' hb'
    have hres : Scan.resume startKey endKey st.view (.findLeaf c) = .findLeaf c' := by
      unfold Scan.resume Store.view
      dsimp only
      rw [hi, dispatch]
      dsimp only
      rw [hroute rfl]
    exact ⟨leaf, a'', b'', hleaf, ha'', hb'',
      .at_page (by rintro ⟨⟩) (by rintro ⟨⟩) (congrArg Out.goto hres) hret⟩

/-- **What a scan yields** on a tree with a root: the rows of a chain of leaves that holds
every entry not below the start. -/
theorem Scan.scans (h : Tree F .settled st.page st.root) (h0 : st.root ≠ 0)
    (start stop : Option (List UInt8)) :
    ∃ ps : List LPageId,
      st.Scans S start stop ((scanRows (start.map keyFromBytes) (stop.map keyFromBytes)
        (ps.map fun p => leafEntries (st.page p))).map .ok) ∧
      SortedBy BTreeLeafEntry.key (ps.flatMap fun p => leafEntries (st.page p)) ∧
      (∀ q rest, ps = q :: rest → ∀ p ∈ rest, ∀ e ∈ leafEntries (st.page p),
        (start.map keyFromBytes).getD 0 ≤ e.key) ∧
      (∀ p ∈ ps, st.InTree p) ∧
      ∀ p, st.InTree p → ∀ e ∈ leafEntries (st.page p),
        (start.map keyFromBytes).getD 0 ≤ e.key → p ∈ ps := by
  obtain ⟨height, htop, -⟩ := h.top h0
  have hroot : F.Covers (0 + height) st.root 0 keyBound := (Nat.zero_add height).symm ▸ htop
  have htiles := h.pagesAt_tiles hroot
  have hkey : (start.map keyFromBytes).getD 0 < keyBound := by
    cases start with
    | none => decide
    | some bytes => exact keyFromBytes_lt bytes
  obtain ⟨leaf, a, b, hleaf, ha, hb, hret⟩ :=
    Scan.descend (S := S) _ (stop.map keyFromBytes) h htop.1 (Nat.zero_le _) hkey
  obtain ⟨xs, leaf', ys, a', b', hps, hxs, hleaf', hys, ha', hb'⟩ :=
    htiles.cut (Nat.zero_le _) hkey
  obtain rfl := h.unique hleaf hleaf'.1 ha hb ha' hb'
  obtain ⟨l, hl, ok⟩ := h.leaf hleaf'.1
  have hsuffix : Lib.Tiles (F.Covers 0) a' (leaf :: ys) keyBound := ⟨b', hleaf', hys⟩
  have hrange : ∀ p a b, F.Covers 0 p a b → SortedBy BTreeLeafEntry.key (leafEntries (st.page p)) ∧
      ∀ e ∈ leafEntries (st.page p), a ≤ e.key ∧ e.key < b := by
    intro p a b hp
    obtain ⟨l, hl, ok⟩ := h.leaf hp.1
    rw [hl]
    exact ⟨ok.sorted, ok.within⟩
  have hcov : ∀ p a b, F.Covers 0 p a b → a < b := fun _ _ _ h => h.lt
  have hin : ∀ p ∈ leaf :: ys, st.InTree p := fun p hp =>
    ⟨h0, height, by rw [hps]; exact List.mem_append_right _ hp⟩
  have hres : Scan.resume (start.map keyFromBytes) (stop.map keyFromBytes) st.view .start =
      .findLeaf st.root := if_neg h0
  refine ⟨leaf :: ys, ⟨_, .at_page nofun nofun (congrArg Out.goto hres) hret, ?_⟩,
    hsuffix.sorted_flatMap hcov hrange, ?_, hin, ?_⟩
  · exact .silent rfl nofun (drains_chain (h.linked hsuffix ok.prev) rfl le_rfl)
  · rintro q rest heq p hp e he
    obtain ⟨rfl, rfl⟩ : leaf = q ∧ ys = rest := by simpa using heq
    obtain ⟨c, d, hcd, hbc, -⟩ := hys.covers hcov hp
    have := ((hrange _ _ _ hcd).2 e he).1
    omega
  · rintro p ⟨-, d, hd⟩ e he hge
    obtain ⟨ℓ, c', d', hℓ, hp, -⟩ := h.span_of_mem htop.1 hd
    cases ℓ with
    | succ ℓ =>
      obtain ⟨i, hi, -⟩ := h.inner hp
      rw [hi] at he
      cases he
    | zero =>
      obtain rfl : d = height := by omega
      rw [hps] at hd
      rcases List.mem_append.1 hd with hx | hx
      · -- a leaf left of the start
        obtain ⟨c, d, hcd, -, hda⟩ := hxs.covers hcov hx
        have := ((hrange _ _ _ hcd).2 e he).2
        omega
      · exact hx

theorem InBounds.getD_le (h : InBounds startKey endKey k) : startKey.getD 0 ≤ k := by
  cases hs : startKey with
  | none => exact Nat.zero_le k
  | some s => exact h.1 s hs

/-- A key that is not below the start. -/
theorem any_lt_eq_false {start : Option ℕ} (h : start.getD 0 ≤ k) : start.any (k < ·) = false := by
  cases start with
  | none => rfl
  | some s => simpa using h

/-- In a sorted leaf, two keys within the bounds are two entries the loop keeps. -/
theorem overrun_iff (h : SortedBy BTreeLeafEntry.key es) : Overrun startKey endKey es ↔
    ∃ x ∈ es, ∃ y ∈ es, ∃ z ∈ es, x.key < y.key ∧ InBounds startKey endKey x.key ∧
      InBounds startKey endKey y.key ∧ endKey.any (· < z.key) = true := by
  have hmem : ∀ e, e ∈ es.filter (within startKey endKey) ↔
      e ∈ es ∧ InBounds startKey endKey e.key := fun e => by
    rw [List.mem_filter, within_iff]
  have hsorted : SortedBy BTreeLeafEntry.key (es.filter (within startKey endKey)) := h.filter _
  rw [Overrun]
  rcases hl : es.filter (within startKey endKey) with _ | ⟨x, _ | ⟨y, rest⟩⟩
  · rw [hl] at hmem
    refine iff_of_false (fun hov => by simp at hov) ?_
    rintro ⟨x, hx, -, -, -, -, -, hxb, -⟩
    cases (hmem x).2 ⟨hx, hxb⟩
  · rw [hl] at hmem
    refine iff_of_false (fun hov => by simp at hov) ?_
    rintro ⟨a, ha, b, hb, -, -, hlt, hab, hbb, -⟩
    have hax := List.mem_singleton.1 ((hmem a).2 ⟨ha, hab⟩)
    have hbx := List.mem_singleton.1 ((hmem b).2 ⟨hb, hbb⟩)
    rw [hax, hbx] at hlt
    exact lt_irrefl _ hlt
  · rw [hl] at hmem hsorted
    obtain ⟨hx, hxb⟩ := (hmem x).1 (by simp)
    obtain ⟨hy, hyb⟩ := (hmem y).1 (by simp)
    have hxy := (SortedBy.cons_iff.1 hsorted).1 y (by simp)
    constructor
    · rintro ⟨-, z, hz, hze⟩
      exact ⟨x, hx, y, hy, z, hz, hxy, hxb, hyb, hze⟩
    · rintro ⟨-, -, -, -, z, hz, -, -, -, hze⟩
      exact ⟨by simp, z, hz, hze⟩

/-- **A scan is complete exactly if no leaf overruns its end key.** -/
theorem scan_complete_iff (h : st.Valid S) (start stop : Option (List UInt8)) :
    st.ScanComplete S start stop ↔
      ¬ st.Overruns (start.map keyFromBytes) (stop.map keyFromBytes) := by
  obtain ⟨F, hrests⟩ := h
  by_cases h0 : st.root = 0
  · -- an empty index
    have hnone : ∀ p, ¬ st.InTree p := fun p hp => hp.1 h0
    refine iff_of_true ⟨[], ⟨_, .at_page nofun nofun (congrArg Out.goto (if_pos h0)) (.done rfl),
      .silent rfl nofun .ended⟩, SortedBy.nil, fun k r => iff_of_false nofun ?_⟩ ?_
    · rintro ⟨⟨p, hp, -⟩, -⟩
      exact hnone p hp
    · rintro ⟨p, hp, -⟩
      exact hnone p hp
  obtain ⟨ps, hscans, hsorted, hrest, hin, hall⟩ :=
    Scan.scans (S := S) hrests.tree h0 start stop
  set lo := start.map keyFromBytes with hlo
  set hi := stop.map keyFromBytes with hhi
  set ess := ps.map fun p => leafEntries (st.page p) with hess
  have hsorted' : SortedBy BTreeLeafEntry.key ess.flatten := hsorted
  have hleaf : ∀ p ∈ ps, SortedBy BTreeLeafEntry.key (leafEntries (st.page p)) := fun p hp =>
    hsorted'.sublist (List.sublist_flatten_of_mem (List.mem_map.2 ⟨p, hp, rfl⟩))
  have hbelow : ∀ es rest, ess = es :: rest → ∀ e ∈ rest.flatten, lo.any (e.key < ·) = false := by
    intro es rest heq e he
    obtain ⟨q, qs, hps, -, rfl⟩ := List.map_eq_cons_iff.1 heq
    obtain ⟨p, hp, hep⟩ := List.mem_flatMap.1 he
    exact any_lt_eq_false (hrest q qs hps p hp e hep)
  have hrows : scanRows lo hi ess = (ess.flatten.filter (within lo hi)).map scanRow ↔
      ∀ es ∈ ess, ¬ Overrun lo hi es := scanRows_eq_iff hsorted' hbelow
  have hover : st.Overruns lo hi ↔ ∃ es ∈ ess, Overrun lo hi es := by
    constructor
    · rintro ⟨p, hp, x, hx, hov⟩
      obtain ⟨y, hy, z, hz, hlt, hxb, hyb, hze⟩ := hov
      have hps := hall p hp x hx hxb.getD_le
      exact ⟨_, List.mem_map.2 ⟨p, hps, rfl⟩,
        (overrun_iff (hleaf p hps)).2 ⟨x, hx, y, hy, z, hz, hlt, hxb, hyb, hze⟩⟩
    · rintro ⟨es, hes, hov⟩
      obtain ⟨p, hp, rfl⟩ := List.mem_map.1 hes
      exact ⟨p, hin p hp, (overrun_iff (hleaf p hp)).1 hov⟩
  -- the rows the scan should yield
  set rows := (ess.flatten.filter (within lo hi)).map fun e => (e.key, e.recordId) with hrowsdef
  have hitems : (rows.map fun x => (.ok (keyToBytes x.1, x.2) : ScanItem)) =
      ((ess.flatten.filter (within lo hi)).map scanRow).map .ok := by
    simp [hrowsdef, scanRow, Function.comp_def]
  have hrowsSorted : SortedBy Prod.fst rows :=
    List.pairwise_map.2 (hsorted'.filter _)
  have hmem : ∀ k r, (k, r) ∈ rows ↔ st.Stores k r ∧ InBounds lo hi k := by
    intro k r
    constructor
    · intro hkr
      obtain ⟨e, he, heq⟩ := List.mem_map.1 hkr
      obtain ⟨rfl, rfl⟩ : e.key = k ∧ e.recordId = r := by simpa using heq
      obtain ⟨hflat, hw⟩ := List.mem_filter.1 he
      obtain ⟨p, hp, hep⟩ := List.mem_flatMap.1 hflat
      exact ⟨⟨p, hin p hp, e, hep, rfl, rfl⟩, within_iff.1 hw⟩
    · rintro ⟨⟨p, hp, e, he, rfl, rfl⟩, hb⟩
      have hflat : e ∈ ess.flatten := List.mem_flatMap.2 ⟨p, hall p hp e he hb.getD_le, he⟩
      exact List.mem_map.2 ⟨e, List.mem_filter.2 ⟨hflat, within_iff.2 hb⟩, rfl⟩
  rw [hover]
  simp only [not_exists, not_and]
  rw [← hrows]
  constructor
  · rintro ⟨rows', hscans', hsortedRows, hmem'⟩
    obtain rfl : rows' = rows :=
      hsortedRows.ext hrowsSorted fun x => (hmem' x.1 x.2).trans (hmem x.1 x.2).symm
    have heq := hscans.unique hscans'
    rw [hitems] at heq
    exact List.map_injective_iff.2 (fun _ _ h => Except.ok.inj h) heq
  · intro heq
    refine ⟨rows, ?_, hrowsSorted, hmem⟩
    rw [hitems, ← heq]
    exact hscans

/-- Three inserts into an empty index, one after the other. -/
theorem three_inserts : ∃ st, Store.Trace .count .empty
    [(.insert [1] ⟨7, 0⟩, .unit (.ok ())), (.insert [2] ⟨7, 1⟩, .unit (.ok ())),
      (.insert [3] ⟨7, 2⟩, .unit (.ok ()))] st ∧
    st.root = 1 ∧ st.page 1 = some (.leaf ⟨1, 0, 0, [⟨1, 7, 0⟩, ⟨2, 7, 1⟩, ⟨3, 7, 2⟩]⟩) :=
  ⟨_, .cons (Store.Returns.step (.step (.step (.done rfl))))
    (.cons (Store.Returns.step (.step (.done rfl)))
      (.cons (Store.Returns.step (.step (.done rfl))) (.nil _))), rfl, rfl⟩

/-- Without an end key nothing is lost. -/
theorem scan_complete_three : ∃ l st, Store.Trace .count .empty l st ∧ st.Stores 3 ⟨7, 2⟩ ∧
    st.ScanComplete .count (some [2]) none := by
  obtain ⟨st, htrace, hroot, hpage⟩ := three_inserts
  have hin : st.InTree 1 := ⟨by rw [hroot]; decide, 0, by rw [hroot]; exact List.mem_singleton.2 rfl⟩
  refine ⟨_, st, htrace, ⟨1, hin, ⟨3, 7, 2⟩, by rw [hpage]; decide, rfl, rfl⟩,
    (scan_complete_iff htrace.valid (some [2]) none).2 ?_⟩
  rintro ⟨p, -, x, -, y, -, z, -, -, -, -, hz⟩
  cases hz

/-- **A scan drops rows.**  The only leaf of an index with the keys 1, 2 and 3 reaches past
the end of a scan from 1 to 2, and the scan yields key 1 alone. -/
theorem scan_drops : ¬ ∀ (S : PageSupply) (l : List (Call × Reply)) (st : Store)
    (start stop : Option (List UInt8)), Store.Trace S .empty l st → st.ScanComplete S start stop := by
  intro hall
  obtain ⟨st, htrace, hroot, hpage⟩ := three_inserts
  obtain ⟨rows, hscans, -, hmem⟩ := hall .count _ st (some [1]) (some [2]) htrace
  have hin : st.InTree 1 := ⟨by rw [hroot]; decide, 0, by rw [hroot]; exact List.mem_singleton.2 rfl⟩
  have hstored : ∀ e ∈ ([⟨1, 7, 0⟩, ⟨2, 7, 1⟩] : List BTreeLeafEntry), st.Stores e.key e.recordId := by
    intro e he
    refine ⟨1, hin, e, ?_, rfl, rfl⟩
    rw [hpage]
    exact List.mem_append_left [⟨3, 7, 2⟩] he
  have h1 : (1, ⟨7, 0⟩) ∈ rows :=
    (hmem _ _).2 ⟨hstored ⟨1, 7, 0⟩ (by decide), by simp [InBounds, keyFromBytes]⟩
  have h2 : (2, ⟨7, 1⟩) ∈ rows :=
    (hmem _ _).2 ⟨hstored ⟨2, 7, 1⟩ (by decide), by simp [InBounds, keyFromBytes]⟩
  have hone : st.Scans .count (some [1]) (some [2]) [.ok (keyToBytes 1, ⟨7, 0⟩)] := by
    obtain ⟨page, root, allocated⟩ := st
    obtain rfl : root = 1 := hroot
    have hstart : Scan.resume (some 1) (some 2) ⟨page, 1⟩ .start = .findLeaf 1 := rfl
    have hfind : Scan.resume (some 1) (some 2) ⟨page, 1⟩ (.findLeaf 1) =
        .done (.ok (Scan.init (some 1) (some 2) 1 false)) := by
      unfold Scan.resume
      dsimp only at hpage ⊢
      rw [hpage, dispatch]
    have hload : streamStep ⟨page, 1⟩ (.loop (Scan.init (some 1) (some 2) 1 false)) = (none, .loop
        ⟨0, none, some 2, [(keyToBytes 1, ⟨7, 0⟩), (keyToBytes 2, ⟨7, 1⟩)], 0, true⟩) := by
      unfold streamStep scanLoop Scan.init
      dsimp only at hpage ⊢
      rw [hpage]
      rfl
    refine ⟨_, .at_page ?_ ?_ (congrArg Out.goto hstart) (.at_page ?_ ?_ (congrArg Out.goto hfind)
      (.done rfl)), .silent rfl ?_ (.silent hload ?_ (.step rfl ?_ (.silent rfl ?_ .ended)))⟩
    all_goals rintro ⟨⟩
  have hlen := congrArg List.length (hscans.unique hone)
  rw [List.length_map, List.length_singleton] at hlen
  obtain ⟨row, hrow⟩ := List.length_eq_one_iff.1 hlen
  rw [hrow, List.mem_singleton] at h1 h2
  cases h1.trans h2.symm

end BTree
end Abdb
