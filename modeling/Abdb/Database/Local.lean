/-
# Heap files among other pages

What `Abdb.BTree.Local` says of an index, for a heap file that takes its page ids from the
counter: an insert over more pages than those of its file does what it does over these alone, and
makes the one page that it allocates (`heap_insert_over`).  `get` and `delete` look at one page.
-/

import Abdb.BTree.Local
import Abdb.Database.FirstPage

namespace Abdb
namespace Heap

open Relation Lib

variable {st : Store} {c : Contents} {K : LPageId → Option HeapPage} {txn : Txn} {tuple : List UInt8}
  {rid : RecordId} {view view' : View} {id : LPageId} {pc : InsertPc}

/-- The store with more pages under its own. -/
def Store.over (st : Store) (K : LPageId → Option HeapPage) : Store := { st with page := overlay st.page K }

theorem Store.page_over {p : HeapPage} (hp : st.page id = some p) : (st.over K).page id = some p :=
  overlay_of_some hp

theorem Store.over_put (w : Option (LPageId × HeapPage)) : (st.over K).put w = (st.put w).over K := by
  cases w with
  | none => rfl
  | some w => rw [Store.put, Store.put, Store.over, Store.over, ← overlay_update]

theorem Store.over_apply {Pc : Type} (o : Out Pc) : (st.over K).apply o = (st.apply o).over K := by
  rw [Store.apply, over_put]
  rfl

/-- A file is a file among other pages. -/
theorem Store.Holds.over (h : st.Holds c) (K : LPageId → Option HeapPage) : (st.over K).Holds c where
  chain := h.chain.congr fun id hid => by
    obtain ⟨ts, hts⟩ := mem_ids.1 hid
    obtain ⟨-, p, hp, -⟩ := h.chain.page_of_mem hts
    rw [Store.page_over hp, hp]
  nodup := h.nodup
  small := h.small

theorem get_congr (h : view.page rid.pageId = view'.page rid.pageId) : get view txn rid = get view' txn rid := by
  rw [get, get, fetch, fetch, h]

theorem delete_congr (h : view.page rid.pageId = view'.page rid.pageId) :
    delete view txn rid = delete view' txn rid := by
  rw [delete, delete, fetch, fetch, h]

/-- A delete fails and writes nothing, or it writes the page that it has read. -/
theorem delete_outcome (view : View) (txn : Txn) (rid : RecordId) :
    (∃ e, delete view txn rid = (none, .error e)) ∨
      view.page rid.pageId ≠ none ∧ ∃ p, delete view txn rid = (some (rid.pageId, p), .ok ()) := by
  rw [delete]
  split
  · exact Or.inl ⟨_, rfl⟩
  · rename_i page data hfetch
    rw [fetch] at hfetch
    split at hfetch
    · cases hfetch
    · rename_i hpage
      split_ifs
      · exact Or.inl ⟨_, rfl⟩
      · exact Or.inr ⟨by rw [hpage]; exact Option.some_ne_none _, _, rfl⟩
      · exact Or.inl ⟨_, rfl⟩

/-- The insert has failed for a page that the pool does not have. -/
def Insert.Lacks (pc : InsertPc) : Prop := ∃ id, pc = .done (.error (.bufferError id))

/-- **A step over more pages.** -/
theorem Insert.step_over (hl : ¬ Lacks (step txn tuple id st pc).2) : step txn tuple id (st.over K) pc =
    ((step txn tuple id st pc).1.over K, (step txn tuple id st pc).2) := by
  cases pc with
  | walk firstPage current =>
    unfold step at hl ⊢
    simp only [await, resume] at hl ⊢
    cases hp : st.page current with
    | none =>
      rw [onPage, hp] at hl
      exact absurd ⟨current, rfl⟩ hl
    | some p =>
      have heq : onPage (st.over K) (makeHeader txn.id ++ tuple) firstPage current =
          onPage st (makeHeader txn.id ++ tuple) firstPage current := by
        rw [onPage, onPage, hp, Store.page_over hp]
      rw [heq, Store.over_apply]
  | alloc firstPage =>
    unfold step
    simp only [await, resume]
    rw [Store.newPage, Store.newPage, Store.over_put, Store.over_apply]
  | _ => rfl

theorem Store.put_ne_none {w : Option (LPageId × HeapPage)} (h : st.page id ≠ none) : (st.put w).page id ≠ none := by
  cases w with
  | none => exact h
  | some w =>
    obtain ⟨i, p⟩ := w
    by_cases hid : id = i
    · rw [hid, page_put_self]
      exact Option.some_ne_none p
    · rwa [page_put_of_ne hid]

/-- No step gives a page up. -/
theorem Insert.step_ne_none {newId : LPageId} (h : st.page id ≠ none) :
    (step txn tuple newId st pc).1.page id ≠ none := by
  unfold step
  split
  · exact h
  · exact Store.put_ne_none (Store.put_ne_none h)
  · exact Store.put_ne_none h

/-- A version of the table is on a page of the file. -/
theorem Store.Represents.page_of_some {T : Table} {v : Version} (h : st.Represents T c)
    (hv : T rid = some v) : st.page rid.pageId ≠ none := by
  obtain ⟨ts, hts, -⟩ := h.hasVersion_iff.2 hv
  obtain ⟨-, p, hp, -⟩ := h.holds.chain.page_of_mem hts
  rw [hp]
  exact Option.some_ne_none p

end Heap

namespace Database

open Relation Lib Heap

variable {st : Store} {c : Contents} {T : Table} {txn : Txn} {tuple : List UInt8} {n : LPageId}

/-- The pages after a run of an insert are those before it and those it has allocated. -/
theorem heap_run_pages {x y : (Store × LPageId) × InsertPc}
    (h : ReflTransGen (fun x y => y = heapStep txn tuple x) x y) : x.1.2 ≤ y.1.2 ∧
      (∀ q, y.1.1.page q ≠ none → x.1.1.page q ≠ none ∨ x.1.2 ≤ q ∧ q < y.1.2) ∧
      ∀ q, x.1.1.page q ≠ none → y.1.1.page q ≠ none := by
  induction h with
  | refl => exact ⟨le_rfl, fun q hq => Or.inl hq, fun q hq => hq⟩
  | @tail y z _ hstep ih =>
    obtain ⟨hle, hpages, hkept⟩ := ih
    subst hstep
    obtain ⟨⟨st, next⟩, pc⟩ := y
    have hmono : next ≤ (heapStep txn tuple ((st, next), pc)).1.2 := by
      show next ≤ if _ then _ else _
      split_ifs
      · exact Nat.le_succ _
      · exact le_rfl
    refine ⟨hle.trans hmono, fun q hq => ?_, fun q hq => Insert.step_ne_none (hkept q hq)⟩
    rcases heap_step_page hq with hq | ⟨hawait, rfl⟩
    · exact (hpages q hq).imp_right (And.imp_right (lt_of_lt_of_le · hmono))
    · refine Or.inr ⟨hle, ?_⟩
      show q < if _ then _ else _
      rw [if_pos hawait]
      exact Nat.lt_succ_self q

/-- **A run over more pages.** -/
theorem heap_run_over (K : LPageId → Option HeapPage) {x y : (Store × LPageId) × InsertPc}
    (h : ReflTransGen (fun x y => y = heapStep txn tuple x) x y) (hl : ¬ Insert.Lacks y.2) :
    ReflTransGen (fun x y => y = heapStep txn tuple x) ((x.1.1.over K, x.1.2), x.2)
      ((y.1.1.over K, y.1.2), y.2) := by
  induction h with
  | refl => exact .refl
  | @tail y z _ hstep ih =>
    subst hstep
    have hy : ¬ Insert.Lacks y.2 := by
      obtain ⟨⟨st, next⟩, pc⟩ := y
      rintro ⟨id, rfl⟩
      exact hl ⟨id, rfl⟩
    refine (ih hy).tail ?_
    rw [heapStep, heapStep, Insert.step_over hl]

/-- From a page of the list on an insert returns, and finds every page it asks for. -/
theorem heap_returns_from (txn : Txn) (n : LPageId) (hlen : tuple.length ≤ maxTupleSize) {first current : LPageId}
    (hfirst : first < 2 ^ 32) (h : Chain st.page current c) : ∃ st' n' r,
      ReflTransGen (fun x y => y = heapStep txn tuple x) ((st, n), Insert.walkTo first current)
        ((st', n'), .done r) ∧ ∀ id, r ≠ .error (.bufferError id) := by
  induction c generalizing current with
  | nil =>
    obtain rfl : current = 0 := h
    obtain ⟨p, hp, -⟩ := Insert.onNewPage_eq txn n hlen hfirst
    have hstep : heapStep txn tuple ((st, n), .alloc first) =
        (((st.newPage n).put (some (n, p)), n + 1), .link first n 0) := by
      rw [heapStep, Insert.step]
      simp only [Insert.await, Insert.resume]
      rw [hp]
      rfl
    exact ⟨_, _, .ok ⟨n, 0⟩, .head hstep.symm (.single rfl), fun id => by rintro ⟨⟩⟩
  | cons x c ih =>
    obtain ⟨rfl, h0, p, hp, hts, hrest⟩ := h
    rw [Insert.walkTo, if_neg h0]
    by_cases hfits : HeapPage.Slotted.Fits p x.2 (makeHeader txn.id ++ tuple)
    · obtain ⟨p', heq, -⟩ := Insert.onPage_fits first hp hts hfits
      have hstep : heapStep txn tuple ((st, n), .walk first x.1) =
          ((st.put (some (x.1, p')), n), .done (.ok ⟨x.1, x.2.length⟩)) := by
        rw [heapStep, Insert.step]
        simp only [Insert.await, Insert.resume]
        rw [heq]
        rfl
      exact ⟨_, _, _, .single hstep.symm, fun id => by rintro ⟨⟩⟩
    · have hstep : heapStep txn tuple ((st, n), .walk first x.1) =
          ((st, n), Insert.walkTo first p.nextPage) := by
        rw [heapStep, Insert.step]
        simp only [Insert.await, Insert.resume]
        rw [Insert.onPage_full hp hts hfits]
        exact congrArg (fun st => ((st, n), Insert.walkTo first p.nextPage)) (Insert.put_self hp)
      obtain ⟨st', n', r, hrun, hr⟩ := ih hrest
      exact ⟨st', n', r, .head hstep.symm hrun, hr⟩

/-- **An insert over more pages than those of its file** puts the tuple into the file, and makes no
page but those it allocates. -/
theorem heap_insert_over (h : st.Represents T c) (txn : Txn) (hlen : tuple.length ≤ maxTupleSize)
    (hpos : 1 ≤ n) (hpages : ∀ q, st.page q ≠ none → q < n) (K : LPageId → Option HeapPage) :
    ∃ (st' : Store) (n' : LPageId) (r : Except Error RecordId),
      ReflTransGen (fun x y => y = heapStep txn tuple x) ((st.over K, n), .start)
        ((st'.over K, n'), .done r) ∧ n ≤ n' ∧
      (∀ q, st'.page q ≠ none → st.page q ≠ none ∨ n ≤ q ∧ q < n') ∧
      (∀ q, st.page q ≠ none → st'.page q ≠ none) ∧
      (n' ≤ 2 ^ 32 → ∃ rid c', r = .ok rid ∧ T rid = none ∧
        st'.Represents (Function.update T rid (some ⟨txn.id, 0, tuple⟩)) c') := by
  obtain ⟨st', n', r, hrest, hr⟩ := heap_returns_from txn n hlen h.holds.small h.holds.chain
  have hrun : ReflTransGen (fun x y => y = heapStep txn tuple x) ((st, n), .start) ((st', n'), .done r) :=
    .head rfl hrest
  obtain ⟨hle, hnew, hkept⟩ := heap_run_pages hrun
  refine ⟨st', n', r, heap_run_over K hrun ?_, hle, hnew, hkept, fun hn' => ?_⟩
  · rintro ⟨id, hid⟩
    exact hr id (InsertPc.done.inj hid)
  · exact h.exec_insert hlen ((heap_run hrun hpos hpages).2 hn').2

end Database
end Abdb
