/-
# Streams on pages that cannot be fetched

The streams of `src/accessor/heap.rs` and `src/accessor/btree.rs`, polled until they return
`None`, where the pool fails on a set of pages whenever it is asked for one.  Both return the
error with the state they had, so the next poll asks for the same page again: a stream ends
exactly if it meets none of these pages (`scan_ends_iff`).
-/

import Abdb.BTree.ScanComplete
import Abdb.Heap.File

namespace Abdb

open Relation

/-! ### Heap files -/

namespace Heap

/-- What the code sees where the fetches of some pages fail. -/
def View.failing (view : View) (fails : LPageId → Bool) : View :=
  { view with page := fun id => if fails id then none else view.page id }

variable {view : View} {fails : LPageId → Bool} {s : ScanState} {pc : StreamPc} {l : List Item}
  {c : Contents} {first : LPageId} {st : Store}

theorem View.page_of_fails {id : LPageId} (h : fails id = true) : (view.failing fails).page id = none :=
  if_pos h

theorem View.page_of_not_fails {id : LPageId} (h : fails id = false) :
    (view.failing fails).page id = view.page id := if_neg (h ▸ Bool.false_ne_true)

theorem Chain.failing (h : Chain view.page first c) (hok : ∀ id ∈ ids c, fails id = false) :
    Chain (view.failing fails).page first c := by
  induction c generalizing first with
  | nil => exact h
  | cons x c ih =>
    obtain ⟨hfirst, h0, p, hp, hts, hrest⟩ := h
    have hx : fails x.1 = false := hok _ List.mem_cons_self
    exact ⟨hfirst, h0, p, (View.page_of_not_fails hx).trans hp, hts,
      ih hrest fun id hid => hok id (List.mem_cons_of_mem _ hid)⟩

/-- **A stream that ends has read its pages**: one that fails is asked for again and again. -/
theorem Drains.reads (h : Drains (view.failing fails) pc l) (hpc : pc = .loop s)
    (hc : Chain view.page s.currentPage c) : ∀ id ∈ ids c, fails id = false := by
  induction h generalizing s c with
  | ended => cases hpc
  | step hstep hne _ ih =>
    subst hpc
    rw [streamStep] at hstep
    cases hitem : s.buffered[s.bufIdx]? with
    | some item =>
      rw [hitem] at hstep
      obtain ⟨-, hpc'⟩ := Prod.ext_iff.1 hstep
      exact ih hpc'.symm hc
    | none =>
      rw [hitem] at hstep
      cases c with
      | nil => exact List.forall_mem_nil _
      | cons x c =>
        obtain ⟨hcur, h0, p, hp, -, hrest⟩ := id hc
        dsimp only at hstep
        rw [hcur, if_neg h0] at hstep
        cases hx : fails x.1 with
        | true =>
          -- the state is as before
          rw [View.page_of_fails hx] at hstep
          obtain ⟨-, hpc'⟩ := Prod.ext_iff.1 hstep
          exact ih hpc'.symm hc
        | false =>
          rw [View.page_of_not_fails hx, hp] at hstep
          obtain ⟨-, hpc'⟩ := Prod.ext_iff.1 hstep
          exact List.forall_mem_cons.2 ⟨hx, ih hpc'.symm hrest⟩

/-- **A table scan ends** exactly if no page of its list fails. -/
theorem Store.Holds.ends_iff (h : st.Holds c) (fails : LPageId → Bool) (txn : Txn) :
    (∃ items, Drains (st.failing fails) (.loop (scan (st.failing fails) txn)) items) ↔
      ∀ id ∈ ids c, fails id = false := by
  constructor
  · rintro ⟨items, hdrains⟩
    exact hdrains.reads rfl h.chain
  · intro hok
    exact ⟨_, drains_chain (s := scan (st.failing fails) txn) (h.chain.failing hok) le_rfl⟩

end Heap

/-! ### Indexes -/

namespace BTree

/-- What the code sees where the fetches of some pages fail. -/
def Store.failing (st : Store) (fails : LPageId → Bool) : Store :=
  { st with page := fun id => if fails id then none else st.page id }

/-- A key is routed from a page to a leaf. -/
inductive Routes (page : LPageId → Option Page) (key : ℕ) : LPageId → LPageId → Prop
  | leaf {p : LPageId} {l : BTreeLeafPage} : page p = some (.leaf l) → Routes page key p p
  | inner {p q : LPageId} {i : BTreeInnerPage} :
    page p = some (.inner i) → Routes page key (i.findChild key) q → Routes page key p q

/-- A leaf where the scan stops: it has a key past the end that is not below the start. -/
def Stops (startKey endKey : Option ℕ) (es : List BTreeLeafEntry) : Prop :=
  ∃ e ∈ es, startKey.any (e.key < ·) = false ∧ endKey.any (· < e.key) = true

/-- A scan that has come to a leaf goes on to a leaf, of those that its siblings lead to. -/
inductive Loads (page : LPageId → Option Page) (endKey : Option ℕ) :
    Option ℕ → LPageId → LPageId → Prop
  | here {startKey : Option ℕ} {p : LPageId} : p ≠ 0 → Loads page endKey startKey p p
  | next {startKey : Option ℕ} {p q : LPageId} {l : BTreeLeafPage} :
    p ≠ 0 → page p = some (.leaf l) → ¬ Stops startKey endKey l.entries →
    Loads page endKey none l.nextPage q → Loads page endKey startKey p q

/-- The leaves that a scan visits: from the one that its start key is routed to, up to the first
where it stops. -/
def Store.Visits (st : Store) (startKey endKey : Option ℕ) (q : LPageId) : Prop :=
  st.root ≠ 0 ∧ ∃ p, Routes st.page (startKey.getD 0) st.root p ∧ Loads st.page endKey startKey p q

variable {S : PageSupply} {st st' : Store} {fails : LPageId → Bool} {s : ScanState} {pc : StreamPc}
  {l : List ScanItem} {startKey endKey : Option ℕ} {es : List BTreeLeafEntry} {prev p q q' : LPageId}
  {ps : List LPageId} {k ℓ a b : ℕ} {F : Layout}

theorem Store.page_of_fails (h : fails p = true) : (st.failing fails).view.page p = none := if_pos h

theorem Store.page_of_not_fails (h : fails p = false) :
    (st.failing fails).view.page p = st.page p := if_neg (h ▸ Bool.false_ne_true)

/-- **The loop over a leaf** finds where the scan stops. -/
theorem fill_snd : (fill startKey endKey es).2 = true ↔ Stops startKey endKey es := by
  induction es with
  | nil => simp [fill, Stops]
  | cons e es ih =>
    rw [fill]
    by_cases hs : startKey.any (e.key < ·) = true
    · simp only [if_pos hs, ih, Stops, List.mem_cons]
      constructor
      · rintro ⟨x, hx, hrest⟩
        exact ⟨x, Or.inr hx, hrest⟩
      · rintro ⟨x, rfl | hx, hrest⟩
        · rw [hs] at hrest
          exact absurd hrest.1 (by decide)
        · exact ⟨x, hx, hrest⟩
    · rw [if_neg hs]
      by_cases he : endKey.any (· < e.key) = true
      · rw [if_pos he]
        exact iff_of_true rfl ⟨e, List.mem_cons_self, Bool.not_eq_true _ ▸ hs, he⟩
      · rw [if_neg he]
        dsimp only
        rw [ih]
        constructor
        · rintro ⟨x, hx, hrest⟩
          exact ⟨x, List.mem_cons_of_mem _ hx, hrest⟩
        · rintro ⟨x, hx, hrest⟩
          rcases List.mem_cons.1 hx with rfl | hx
          · exact absurd hrest.2 he
          · exact ⟨x, hx, hrest⟩

theorem Routes.unique (h : Routes st.page k p q) (h' : Routes st.page k p q') : q = q' := by
  induction h with
  | leaf hp =>
    cases h' with
    | leaf => rfl
    | inner hp' => rw [hp] at hp'; cases hp'
  | inner hp _ ih =>
    cases h' with
    | leaf hp' => rw [hp] at hp'; cases hp'
    | inner hp' hrest =>
      rw [hp] at hp'
      cases hp'
      exact ih hrest

/-! ### The stream -/

/-- **A stream that ends has read the leaves it visits.** -/
theorem Drains.loads (h : Drains (st.failing fails).view pc l) (hpc : pc = .poll s ∨ pc = .loop s)
    (hdone : s.done = false) (hq : Loads st.page s.endKey s.startKey s.currentLeaf q) :
    fails q = false := by
  induction h generalizing s with
  | ended => rcases hpc with hpc | hpc <;> cases hpc
  | step hstep hne _ ih =>
    rcases hpc with rfl | rfl
    · rw [streamStep, hdone, if_neg Bool.false_ne_true] at hstep
      obtain ⟨-, hpc'⟩ := Prod.ext_iff.1 hstep
      exact ih (Or.inr hpc'.symm) hdone hq
    · rw [streamStep, scanLoop] at hstep
      cases hitem : s.buffered[s.bufIdx]? with
      | some item =>
        rw [hitem] at hstep
        obtain ⟨-, hpc'⟩ := Prod.ext_iff.1 hstep
        exact ih (s := { s with bufIdx := s.bufIdx + 1 }) (Or.inl hpc'.symm) hdone hq
      | none =>
        have h0 : s.currentLeaf ≠ 0 := by
          cases hq <;> assumption
        rw [hitem] at hstep
        dsimp only at hstep
        rw [if_neg (by simp [h0, hdone])] at hstep
        cases hx : fails s.currentLeaf with
        | true =>
          -- the state is as before
          rw [Store.page_of_fails hx, asLeaf] at hstep
          obtain ⟨-, hpc'⟩ := Prod.ext_iff.1 hstep
          exact ih (Or.inl hpc'.symm) hdone hq
        | false =>
          rw [Store.page_of_not_fails hx] at hstep
          cases hq with
          | here => exact hx
          | @next _ _ _ leaf _ hleaf hstops hrest =>
            rw [hleaf, asLeaf] at hstep
            dsimp only at hstep
            have hn : leaf.nextPage ≠ 0 := by
              cases hrest <;> assumption
            rw [if_neg fun hend => hn hend.1] at hstep
            obtain ⟨-, hpc'⟩ := Prod.ext_iff.1 hstep
            refine ih (Or.inr hpc'.symm) ?_ hrest
            dsimp only
            rw [hdone, Bool.false_or, Bool.eq_false_iff]
            exact mt fill_snd.1 hstops

/-- A stream that is done ends. -/
theorem ends_done {view : View} (hdone : s.done = true) : ∃ items, Drains view (.loop s) items := by
  cases hitem : s.buffered[s.bufIdx]? with
  | none =>
    have hstep : streamStep view (.loop s) = (none, .ended) := by
      rw [streamStep, scanLoop, hitem]
      exact if_pos (Or.inr hdone)
    exact ⟨_, .silent hstep (by rintro ⟨⟩) .ended⟩
  | some item =>
    have hstep : streamStep view (.loop s) = (some (.ok item), .poll { s with bufIdx := s.bufIdx + 1 }) := by
      rw [streamStep, scanLoop, hitem]
    exact ⟨_, .step hstep (by rintro ⟨⟩) (.silent (if_pos hdone) (by rintro ⟨⟩) .ended)⟩

/-- **A stream whose leaves can all be fetched ends.** -/
theorem ends_of_loads (h : Linked st.page prev s.currentLeaf ps) (hdone : s.done = false)
    (hbuf : s.buffered.length ≤ s.bufIdx)
    (hok : ∀ q, Loads st.page s.endKey s.startKey s.currentLeaf q → fails q = false) :
    ∃ items, Drains (st.failing fails).view (.loop s) items := by
  induction ps generalizing prev s with
  | nil =>
    have hstep : streamStep (st.failing fails).view (.loop s) = (none, .ended) := by
      rw [streamStep, scanLoop, List.getElem?_eq_none hbuf]
      exact if_pos (Or.inl h)
    exact ⟨_, .silent hstep (by rintro ⟨⟩) .ended⟩
  | cons p ps ih =>
    obtain ⟨hcur, h0, l, hl, -, hrest⟩ := h
    have hp : fails p = false := hcur ▸ hok _ (.here (hcur ▸ h0))
    have hpage : (st.failing fails).view.page p = some (.leaf l) := (Store.page_of_not_fails hp).trans hl
    rcases hfill : fill s.startKey s.endKey l.entries with ⟨buffered, past⟩
    have hstep : streamStep (st.failing fails).view (.loop s) =
        if l.nextPage = 0 ∧ buffered = [] then (none, .ended)
        else (none, .loop { s with
          currentLeaf := l.nextPage, startKey := none, buffered := buffered, bufIdx := 0, done := past }) := by
      rw [streamStep, scanLoop, List.getElem?_eq_none hbuf, if_neg (by simp [hcur, h0, hdone]), hcur,
        hpage, asLeaf]
      simp [hdone, hfill]
    split_ifs at hstep with hend
    · exact ⟨_, .silent hstep (by rintro ⟨⟩) .ended⟩
    · suffices hnext : ∃ items, Drains (st.failing fails).view (.loop { s with
          currentLeaf := l.nextPage, startKey := none, buffered := buffered, bufIdx := 0, done := past })
          items by
        obtain ⟨items, hitems⟩ := hnext
        exact ⟨items, .silent hstep (by rintro ⟨⟩) hitems⟩
      cases past with
      | true => exact ends_done rfl
      | false =>
        have hstops : ¬ Stops s.startKey s.endKey l.entries := by
          rw [← fill_snd, hfill]
          exact Bool.false_ne_true
        obtain ⟨items, hitems⟩ := ih (s := { s with
          currentLeaf := l.nextPage, startKey := none, buffered := buffered,
          bufIdx := buffered.length, done := false }) hrest rfl le_rfl fun q hq =>
            hok q (.next (hcur ▸ h0) (hcur ▸ hl) hstops hq)
        have hall := drains_buffer (s := { s with
          currentLeaf := l.nextPage, startKey := none, buffered := buffered, bufIdx := 0,
          done := false }) rfl hitems buffered.length le_rfl
        rw [Nat.sub_self] at hall
        exact ⟨_, hall⟩

/-! ### The start of a scan -/

/-- **The leaf that a key is routed to** is the one that covers it. -/
theorem Tree.routes (h : Tree F .settled st.page st.root) (hp : F p = some ⟨ℓ, a, b⟩) (ha : a ≤ k)
    (hb : k < b) :
    ∃ leaf a' b', F leaf = some ⟨0, a', b'⟩ ∧ a' ≤ k ∧ k < b' ∧ Routes st.page k p leaf := by
  induction ℓ generalizing p a b with
  | zero =>
    obtain ⟨l, hl, -⟩ := h.leaf hp
    exact ⟨p, a, b, hp, ha, hb, .leaf hl⟩
  | succ ℓ ih =>
    obtain ⟨i, c, a', b', hi, -, hroute, hc, -, -, ha', hb'⟩ := h.child hp ha hb
    obtain ⟨leaf, a'', b'', hleaf, ha'', hb'', hroutes⟩ := ih hc ha' hb'
    exact ⟨leaf, a'', b'', hleaf, ha'', hb'', .inner hi ((hroute rfl).symm ▸ hroutes)⟩

/-- The leaves from one on are chained. -/
theorem Tree.linked_from (h : Tree F .settled st.page st.root) (h0 : st.root ≠ 0) (hk : k < keyBound)
    (hroutes : Routes st.page k st.root p) : ∃ prev ps, Linked st.page prev p ps := by
  obtain ⟨height, htop, -⟩ := h.top h0
  have hroot : F.Covers (0 + height) st.root 0 keyBound := (Nat.zero_add height).symm ▸ htop
  obtain ⟨leaf, a, b, hleaf, ha, hb, hroutes'⟩ := h.routes htop.1 (Nat.zero_le _) hk
  obtain rfl := hroutes.unique hroutes'
  obtain ⟨xs, leaf', ys, a', b', -, -, hleaf', hys, ha', hb'⟩ :=
    (h.pagesAt_tiles hroot).cut (Nat.zero_le _) hk
  obtain rfl := h.unique hleaf hleaf'.1 ha hb ha' hb'
  obtain ⟨l, hl, ok⟩ := h.leaf hleaf'.1
  exact ⟨_, _, h.linked ⟨b', hleaf', hys⟩ ok.prev⟩

/-- A step of a scan leaves the store alone. -/
theorem Scan.step_eq {pc : ScanPc} : st.step S (Scan.machine startKey endKey) pc =
    (st, Scan.resume startKey endKey st.view pc) := by
  cases pc <;> rfl

/-- Where a scan is on its way to the leaf of its start key. -/
def Opening (st : Store) (startKey endKey : Option ℕ) : ScanPc → Prop
  | .start => True
  | .findLeaf c => st.root ≠ 0 ∧
    ∀ p, Routes st.page (startKey.getD 0) c p → Routes st.page (startKey.getD 0) st.root p
  | .done (.ok s) => (st.root = 0 ∧ s = Scan.init startKey endKey 0 true) ∨
    (st.root ≠ 0 ∧ ∃ p, Routes st.page (startKey.getD 0) st.root p ∧
      s = Scan.init startKey endKey p false)
  | .done (.error _) => True

theorem Opening.step {pc : ScanPc} (h : Opening st startKey endKey pc) :
    Opening st startKey endKey (Scan.resume startKey endKey (st.failing fails).view pc) := by
  cases pc with
  | start =>
    have hroot : (st.failing fails).view.root = st.root := rfl
    rw [Scan.resume, hroot]
    by_cases h0 : st.root = 0
    · rw [if_pos h0]
      exact Or.inl ⟨h0, rfl⟩
    · rw [if_neg h0]
      exact ⟨h0, fun p => id⟩
  | done r => exact h
  | findLeaf c =>
    obtain ⟨h0, hroutes⟩ := h
    rw [Scan.resume]
    cases hc : fails c with
    | true =>
      rw [Store.page_of_fails hc]
      trivial
    | false =>
      rw [Store.page_of_not_fails hc]
      cases hpage : st.page c with
      | none => trivial
      | some page =>
        cases page with
        | inner i => exact ⟨h0, fun p hp => hroutes p (.inner hpage hp)⟩
        | leaf l => exact Or.inr ⟨h0, c, hroutes c (.leaf hpage), rfl⟩
        | other o =>
          dsimp only [dispatch]
          cases PageType.tryFrom o.pageTypeId <;> trivial

/-- **Where a scan starts** if it can be opened. -/
theorem opening_returns (h : (st.failing fails).Returns S (Scan.machine startKey endKey) .start st'
    (.done (.ok s))) : Opening st startKey endKey (.done (.ok s)) := by
  have hrun : ∀ z, ReflTransGen (fun x y => y = x.1.step S (Scan.machine startKey endKey) x.2)
      (st.failing fails, .start) z → z.1 = st.failing fails ∧ Opening st startKey endKey z.2 := by
    intro z hz
    induction hz with
    | refl => exact ⟨rfl, trivial⟩
    | tail _ hstep ih =>
      rw [hstep, Scan.step_eq, ih.1]
      exact ⟨rfl, ih.2.step⟩
  exact (hrun _ h.2).2

/-- **An index scan ends** exactly if no leaf it visits fails. -/
theorem Store.Valid.ends_iff (h : st.Valid S) (fails : LPageId → Bool) (start stop : Option (List UInt8))
    (hopen : (st.failing fails).Returns S
      (Scan.machine (start.map keyFromBytes) (stop.map keyFromBytes)) .start st' (.done (.ok s))) :
    (∃ items, Drains (st.failing fails).view (.poll s) items) ↔
      ∀ q, st.Visits (start.map keyFromBytes) (stop.map keyFromBytes) q → fails q = false := by
  obtain ⟨F, hrests⟩ := h
  rcases opening_returns hopen with ⟨h0, rfl⟩ | ⟨h0, p, hp, rfl⟩
  · exact iff_of_true ⟨_, .silent rfl nofun .ended⟩ fun q hq => absurd h0 hq.1
  · have hvisits : ∀ q, st.Visits (start.map keyFromBytes) (stop.map keyFromBytes) q ↔
        Loads st.page (stop.map keyFromBytes) (start.map keyFromBytes) p q := by
      intro q
      constructor
      · rintro ⟨-, p', hp', hq⟩
        exact hp.unique hp' ▸ hq
      · exact fun hq => ⟨h0, p, hp, hq⟩
    simp only [hvisits]
    have hkey : (start.map keyFromBytes).getD 0 < keyBound := by
      cases start with
      | none => decide
      | some bytes => exact keyFromBytes_lt bytes
    constructor
    · rintro ⟨items, hdrains⟩ q hq
      exact hdrains.loads (Or.inl rfl) rfl hq
    · intro hok
      obtain ⟨prev, ps, hlinked⟩ := hrests.tree.linked_from h0 hkey hp
      obtain ⟨items, hitems⟩ := ends_of_loads
        (s := Scan.init (start.map keyFromBytes) (stop.map keyFromBytes) p false) hlinked rfl le_rfl hok
      exact ⟨items, .silent rfl nofun hitems⟩

end BTree

/-- **A scan stream ends exactly if no page that it visits fails**: of a table all pages of the
list, of an index the leaves from its start on, up to the first with a key past the end. -/
theorem scan_ends_iff (fails : LPageId → Bool) :
    (∀ (st : Heap.Store) (c : Heap.Contents) (txn : Txn), st.Holds c →
      ((∃ items, Heap.Drains (st.failing fails) (.loop (Heap.scan (st.failing fails) txn)) items) ↔
        ∀ id ∈ Heap.ids c, fails id = false)) ∧
    ∀ (S : BTree.PageSupply) (st st' : BTree.Store) (start stop : Option (List UInt8))
      (s : BTree.ScanState), st.Valid S →
      (st.failing fails).Returns S (BTree.Scan.machine (start.map BTree.keyFromBytes)
        (stop.map BTree.keyFromBytes)) .start st' (.done (.ok s)) →
      ((∃ items, BTree.Drains (st.failing fails).view (.poll s) items) ↔
        ∀ q, st.Visits (start.map BTree.keyFromBytes) (stop.map BTree.keyFromBytes) q →
          fails q = false) :=
  ⟨fun _ _ txn h => h.ends_iff fails txn, fun _ _ _ start stop _ h hopen => h.ends_iff fails start stop hopen⟩

namespace Heap

/-- A heap file of one page without tuples. -/
def onePage : Store := ⟨fun id => if id = 1 then some HeapPage.zeroed.init else none, 1⟩

theorem onePage_holds : onePage.Holds [(1, [])] :=
  ⟨⟨rfl, Nat.one_ne_zero, _, rfl, (HeapPage.slotted_init .zeroed).1, (HeapPage.slotted_init .zeroed).2⟩,
    List.nodup_singleton _, by decide⟩

end Heap

/-- Scans of a heap file of one page and of an index of one leaf, where all fetches succeed. -/
theorem scan_ends_iff_one :
    (∃ items, Heap.Drains (Heap.onePage.failing fun _ => false)
      (.loop (Heap.scan (Heap.onePage.failing fun _ => false) ⟨1, .snapshot⟩)) items) ∧
    ∃ (st : BTree.Store) (s : BTree.ScanState), st.Stores 3 ⟨7, 2⟩ ∧
      (∃ st', (st.failing fun _ => false).Returns .count (BTree.Scan.machine none none) .start st'
        (.done (.ok s))) ∧
      ∃ items, BTree.Drains (st.failing fun _ => false).view (.poll s) items := by
  obtain ⟨st, htrace, hroot, hpage⟩ := BTree.three_inserts
  have hin : st.InTree 1 := ⟨by rw [hroot]; decide, 0, by rw [hroot]; exact List.mem_singleton.2 rfl⟩
  have hopen : (st.failing fun _ => false).Returns .count (BTree.Scan.machine none none) .start
      (st.failing fun _ => false) (.done (.ok (BTree.Scan.init none none 1 false))) := by
    have hstart : BTree.Scan.resume none none (st.failing fun _ => false).view .start = .findLeaf 1 := by
      have hroot' : (st.failing fun _ => false).view.root = 1 := hroot
      rw [BTree.Scan.resume, hroot']
      rfl
    have hleaf : BTree.Scan.resume none none (st.failing fun _ => false).view (.findLeaf 1) =
        .done (.ok (BTree.Scan.init none none 1 false)) := by
      rw [BTree.Scan.resume, BTree.Store.page_of_not_fails rfl, hpage]
      rfl
    exact .at_page nofun nofun (congrArg BTree.Out.goto hstart)
      (.at_page nofun nofun (congrArg BTree.Out.goto hleaf) (.done rfl))
  have hends := scan_ends_iff fun _ => false
  exact ⟨(hends.1 _ _ _ Heap.onePage_holds).2 fun _ _ => rfl, st, _,
    ⟨1, hin, ⟨3, 7, 2⟩, by rw [hpage]; decide, rfl, rfl⟩, ⟨_, hopen⟩,
    (hends.2 .count st _ none none _ htrace.valid hopen).2 fun _ _ => rfl⟩

/-- **A scan that never ends**: of a heap file whose only page fails. -/
theorem scan_never_ends : ∃ fails : LPageId → Bool, Heap.onePage.Holds [(1, [])] ∧
    ¬ ∃ items, Heap.Drains (Heap.onePage.failing fails)
      (.loop (Heap.scan (Heap.onePage.failing fails) ⟨1, .snapshot⟩)) items := by
  refine ⟨fun id => id == 1, Heap.onePage_holds, fun hends => ?_⟩
  have hfalse := (Heap.onePage_holds.ends_iff (fun id => id == 1) _).1 hends 1 (List.mem_singleton.2 rfl)
  cases hfalse

end Abdb
