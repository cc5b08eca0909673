/-
# Heap files

What a heap file holds: its pages in the order of the list, each with the tuples of its
slots.  `Store.Holds` says that the pages of a store are linked so.  A tuple appended to a
page or written in place (`Holds.replace`) and a page put before the others (`Holds.link`)
keep the file a file, and a drained scan yields the visible tuples of the pages in order
(`Holds.drains`).
-/

import Abdb.Heap.Operations

namespace Abdb
namespace Heap

open Lib

/-- The pages of a heap file in list order, with their tuples. -/
abbrev Contents := List (LPageId × List (List UInt8))

/-- The ids of the pages. -/
def ids (c : Contents) : List LPageId := c.map Prod.fst

/-- The tuple is stored under the record id. -/
def Has (c : Contents) (rid : RecordId) (t : List UInt8) : Prop :=
  ∃ ts, (rid.pageId, ts) ∈ c ∧ ts[rid.slotId]? = some t

/-- The pages are linked from the first one on and hold the tuples. -/
def Chain (page : LPageId → Option HeapPage) : LPageId → Contents → Prop
  | first, [] => first = 0
  | first, (id, ts) :: c => first = id ∧ id ≠ 0 ∧
    ∃ p, page id = some p ∧ p.Slotted ts ∧ Chain page p.nextPage c

/-- **The store is a heap file** with the contents. -/
structure Store.Holds (st : Store) (c : Contents) : Prop where
  chain : Chain st.page st.firstPage c
  nodup : (ids c).Nodup
  small : st.firstPage < 2 ^ 32

variable {page page' : LPageId → Option HeapPage} {first id : LPageId} {c xs ys : Contents}
  {ts ts' : List (List UInt8)} {t : List UInt8} {p p' : HeapPage} {st : Store} {rid : RecordId}
  {txn : Txn}

theorem mem_ids : id ∈ ids c ↔ ∃ ts, (id, ts) ∈ c := by simp [ids]

theorem ids_append : ids (xs ++ ys) = ids xs ++ ids ys := List.map_append

@[simp] theorem Store.page_put_self : (st.put (some (id, p))).page id = some p :=
  Function.update_self ..

theorem Store.page_put_of_ne {q : LPageId} (h : q ≠ id) : (st.put (some (id, p))).page q = st.page q :=
  Function.update_of_ne h ..

/-! ### Chains -/

theorem Chain.page_of_mem (h : Chain page first c) (hmem : (id, ts) ∈ c) :
    id ≠ 0 ∧ ∃ p, page id = some p ∧ p.Slotted ts := by
  induction c generalizing first with
  | nil => cases hmem
  | cons x c ih =>
    obtain ⟨-, h0, p, hp, hts, hrest⟩ := h
    rcases List.mem_cons.1 hmem with rfl | hmem
    · exact ⟨h0, p, hp, hts⟩
    · exact ih hrest hmem

/-- A chain does not notice what happens to other pages. -/
theorem Chain.congr (h : Chain page first c) (hpage : ∀ id ∈ ids c, page' id = page id) :
    Chain page' first c := by
  induction c generalizing first with
  | nil => exact h
  | cons x c ih =>
    obtain ⟨hfirst, h0, p, hp, hts, hrest⟩ := h
    exact ⟨hfirst, h0, p, (hpage _ List.mem_cons_self).trans hp, hts,
      ih hrest fun id hid => hpage id (List.mem_cons_of_mem _ hid)⟩

/-- A page is replaced by one that links on as it did. -/
theorem Chain.replace (h : Chain page first (xs ++ (id, ts) :: ys)) (hx : id ∉ ids xs) (hy : id ∉ ids ys)
    (hp : page id = some p) (hts : p'.Slotted ts') (hnext : p'.nextPage = p.nextPage) :
    Chain (Function.update page id (some p')) first (xs ++ (id, ts') :: ys) := by
  induction xs generalizing first with
  | nil =>
    obtain ⟨hfirst, h0, q, hq, -, hrest⟩ := h
    obtain rfl : p = q := Option.some.inj (hp.symm.trans hq)
    refine ⟨hfirst, h0, p', Function.update_self .., hts, ?_⟩
    rw [hnext]
    exact hrest.congr fun id' hid' => Function.update_of_ne (ne_of_mem_of_not_mem hid' hy) ..
  | cons x xs ih =>
    obtain ⟨hfirst, h0, q, hq, hqts, hrest⟩ := h
    have hne : x.1 ≠ id := fun heq => hx (heq ▸ List.mem_cons_self)
    exact ⟨hfirst, h0, q, (Function.update_of_ne hne ..).trans hq, hqts,
      ih hrest fun hmem => hx (List.mem_cons_of_mem _ hmem)⟩

/-! ### What the tuples of a file are -/

theorem has_iff_of_cut (hx : id ∉ ids xs) (hy : id ∉ ids ys) : Has (xs ++ (id, ts) :: ys) rid t ↔
    if rid.pageId = id then ts[rid.slotId]? = some t else Has (xs ++ ys) rid t := by
  split_ifs with hid
  · constructor
    · rintro ⟨us, hmem, hget⟩
      rcases List.mem_append.1 hmem with hmem | hmem
      · exact absurd (mem_ids.2 ⟨us, hid ▸ hmem⟩) hx
      · rcases List.mem_cons.1 hmem with heq | hmem
        · rw [Prod.mk.injEq] at heq
          rwa [heq.2] at hget
        · exact absurd (mem_ids.2 ⟨us, hid ▸ hmem⟩) hy
    · exact fun hget => ⟨ts, List.mem_append_right _ (by rw [hid]; exact List.mem_cons_self), hget⟩
  · simp only [Has, List.mem_append, List.mem_cons, Prod.mk.injEq, hid, false_and, false_or]

theorem Has.unique {t' : List UInt8} (hc : (ids c).Nodup) (h : Has c rid t) (h' : Has c rid t') : t = t' := by
  obtain ⟨us, hmem, hget⟩ := h
  obtain ⟨us', hmem', hget'⟩ := h'
  obtain ⟨xs, ys, rfl⟩ := List.append_of_mem hmem
  rw [ids_append] at hc
  have hx : rid.pageId ∉ ids xs := fun hx => (List.nodup_append.1 hc).2.2 _ hx _ List.mem_cons_self rfl
  have hy : rid.pageId ∉ ids ys := (List.nodup_cons.1 (List.nodup_append.1 hc).2.1).1
  have := (has_iff_of_cut (t := t') hx hy).1 ⟨us', hmem', hget'⟩
  rw [if_pos rfl, hget, Option.some.injEq] at this
  exact this

namespace Store.Holds

theorem empty : Store.empty.Holds [] := ⟨rfl, List.nodup_nil, by decide⟩

/-- A page of the list, with what stands before and after it. -/
theorem cut (h : st.Holds c) (hmem : (id, ts) ∈ c) : ∃ xs ys, c = xs ++ (id, ts) :: ys ∧
    id ∉ ids xs ∧ id ∉ ids ys := by
  obtain ⟨xs, ys, rfl⟩ := List.append_of_mem hmem
  have hnodup := h.nodup
  rw [ids_append] at hnodup
  exact ⟨xs, ys, rfl, fun hx => (List.nodup_append.1 hnodup).2.2 _ hx _ List.mem_cons_self rfl,
    (List.nodup_cons.1 (List.nodup_append.1 hnodup).2.1).1⟩

/-- **Writing a page of the file** with its link as before. -/
theorem replace (h : st.Holds (xs ++ (id, ts) :: ys)) (hp : st.page id = some p)
    (hts : p'.Slotted ts') (hnext : p'.nextPage = p.nextPage) :
    (st.put (some (id, p'))).Holds (xs ++ (id, ts') :: ys) := by
  have hnodup := h.nodup
  rw [ids_append] at hnodup
  refine ⟨h.chain.replace ?_ ?_ hp hts hnext, ?_, h.small⟩
  · exact fun hx => (List.nodup_append.1 hnodup).2.2 _ hx _ List.mem_cons_self rfl
  · exact (List.nodup_cons.1 (List.nodup_append.1 hnodup).2.1).1
  · rw [ids_append]
    exact hnodup

/-- Writing a page that is not in the list. -/
theorem put_of_not_mem (h : st.Holds c) (hid : id ∉ ids c) : (st.put (some (id, p'))).Holds c :=
  ⟨h.chain.congr fun _ hid' => Function.update_of_ne (ne_of_mem_of_not_mem hid' hid) .., h.nodup,
    h.small⟩

/-- **A page put before the others.** -/
theorem link (h : st.Holds c) (hid : id ∉ ids c) (h0 : id ≠ 0) (hsmall : id < 2 ^ 32)
    (hp : st.page id = some p) (hts : p.Slotted ts) (hnext : p.nextPage = st.firstPage) :
    Store.Holds { st with firstPage := id } ((id, ts) :: c) :=
  ⟨⟨rfl, h0, p, hp, hts, hnext ▸ h.chain⟩, List.nodup_cons.2 ⟨hid, h.nodup⟩, hsmall⟩

end Store.Holds

/-! ### Scans -/

/-- What the scan yields of a page. -/
def rowsOf (txn : Txn) (id : LPageId) (ts : List (List UInt8)) : List (List UInt8 × RecordId) :=
  (List.range ts.length).filterMap fun slot =>
    (ts[slot]?).bind fun t =>
      if isVisible t txn then some (t.drop tupleHeaderSize, ⟨id, slot⟩) else none

/-- What it yields of a file. -/
def scanRows (txn : Txn) (c : Contents) : List (List UInt8 × RecordId) :=
  c.flatMap fun x => rowsOf txn x.1 x.2

theorem pageRows_eq (h : p.Slotted ts) : pageRows p id txn = rowsOf txn id ts := by
  rw [pageRows, rowsOf, h.numSlots]
  refine List.filterMap_congr fun slot _ => ?_
  rw [h.getData_eq]
  cases ts[slot]? with
  | none => rfl
  | some t =>
    dsimp only [Option.bind_some]
    by_cases ht : t = []
    · subst ht
      rfl
    · rw [if_neg ht]

theorem mem_rowsOf {d : List UInt8} : (d, rid) ∈ rowsOf txn id ts ↔ rid.pageId = id ∧
    ∃ t, ts[rid.slotId]? = some t ∧ isVisible t txn = true ∧ d = t.drop tupleHeaderSize := by
  rw [rowsOf, List.mem_filterMap]
  constructor
  · rintro ⟨slot, -, heq⟩
    obtain ⟨t, ht, heq⟩ := Option.bind_eq_some_iff.1 heq
    split_ifs at heq with hvis
    cases heq
    exact ⟨rfl, t, ht, hvis, rfl⟩
  · rintro ⟨rfl, t, ht, hvis, rfl⟩
    refine ⟨rid.slotId, List.mem_range.2 (List.getElem?_eq_some_iff.1 ht).1, ?_⟩
    rw [ht, Option.bind_some, if_pos hvis]

/-- **A scan yields the visible tuples.** -/
theorem mem_scanRows {d : List UInt8} : (d, rid) ∈ scanRows txn c ↔
    ∃ t, Has c rid t ∧ isVisible t txn = true ∧ d = t.drop tupleHeaderSize := by
  rw [scanRows, List.mem_flatMap]
  constructor
  · rintro ⟨⟨id, ts⟩, hmem, hrow⟩
    obtain ⟨rfl, t, ht, hvis, rfl⟩ := mem_rowsOf.1 hrow
    exact ⟨t, ⟨ts, hmem, ht⟩, hvis, rfl⟩
  · rintro ⟨t, ⟨ts, hmem, ht⟩, hvis, rfl⟩
    exact ⟨(rid.pageId, ts), hmem, mem_rowsOf.2 ⟨rfl, t, ht, hvis, rfl⟩⟩

theorem nodup_rowsOf : ((rowsOf txn id ts).map Prod.snd).Nodup := by
  rw [rowsOf, List.map_filterMap]
  refine List.nodup_range.filterMap ?_
  intro i j rid hi hj
  obtain ⟨⟨d, r⟩, hd, rfl⟩ := Option.map_eq_some_iff.1 hi
  obtain ⟨⟨d', r'⟩, hd', hr⟩ := Option.map_eq_some_iff.1 hj
  obtain ⟨t, -, heq⟩ := Option.bind_eq_some_iff.1 hd
  obtain ⟨t', -, heq'⟩ := Option.bind_eq_some_iff.1 hd'
  split_ifs at heq
  split_ifs at heq'
  cases heq
  cases heq'
  cases hr
  rfl

/-- **It yields no record id twice.** -/
theorem nodup_scanRows (h : (ids c).Nodup) : ((scanRows txn c).map Prod.snd).Nodup := by
  induction c with
  | nil => exact List.nodup_nil
  | cons x c ih =>
    obtain ⟨hx, hc⟩ := List.nodup_cons.1 h
    rw [scanRows, List.flatMap_cons, List.map_append]
    refine List.nodup_append.2 ⟨nodup_rowsOf, ih hc, ?_⟩
    intro rid hrid rid' hrid' heq
    subst heq
    obtain ⟨⟨d, r⟩, hrow, rfl⟩ := List.mem_map.1 hrid
    obtain ⟨⟨d', r'⟩, hrow', hr⟩ := List.mem_map.1 hrid'
    obtain rfl : r' = r := hr
    obtain ⟨hid, -⟩ := mem_rowsOf.1 hrow
    obtain ⟨t, ⟨ts, hmem, -⟩, -⟩ := mem_scanRows.1 hrow'
    exact hx (mem_ids.2 ⟨ts, hid ▸ hmem⟩)

variable {view : View} {s : ScanState} {pc pc' : StreamPc} {l l' : List Item}

theorem Drains.silent (hstep : streamStep view pc = (none, pc')) (hne : pc ≠ .ended)
    (h : Drains view pc' l) : Drains view pc l := .step hstep hne h

/-- **Draining a stream has one outcome.** -/
theorem Drains.unique (h : Drains view pc l) (h' : Drains view pc l') : l = l' := by
  induction h generalizing l' with
  | ended =>
    cases h' with
    | ended => rfl
    | step _ hne => exact absurd rfl hne
  | step hstep hne _ ih =>
    cases h' with
    | ended => exact absurd rfl hne
    | step hstep' _ hrest =>
      obtain ⟨rfl, rfl⟩ := Prod.ext_iff.1 (hstep.symm.trans hstep')
      rw [ih hrest]

/-- A buffer is yielded item by item. -/
theorem drains_buffer (h : Drains view (.loop { s with bufIdx := s.buffered.length }) l) :
    ∀ n ≤ s.buffered.length, Drains view (.loop { s with bufIdx := s.buffered.length - n })
      ((s.buffered.drop (s.buffered.length - n)).map .ok ++ l) := by
  intro n
  induction n with
  | zero => simpa using h
  | succ n ih =>
    intro hn
    have hlt : s.buffered.length - (n + 1) < s.buffered.length := by omega
    have hnext : s.buffered.length - (n + 1) + 1 = s.buffered.length - n := by omega
    have hyield : streamStep view (.loop { s with bufIdx := s.buffered.length - (n + 1) }) =
        (some (.ok s.buffered[s.buffered.length - (n + 1)]),
          .loop { s with bufIdx := s.buffered.length - n }) := by
      rw [streamStep]
      dsimp only
      rw [List.getElem?_eq_getElem hlt, hnext]
    rw [List.drop_eq_getElem_cons hlt, hnext]
    exact .step hyield nofun (ih (by omega))

/-- **Draining a stream over a chain of pages** whose buffer is empty. -/
theorem drains_chain (h : Chain view.page s.currentPage c) (hbuf : s.buffered.length ≤ s.bufIdx) :
    Drains view (.loop s) ((scanRows s.txn c).map .ok) := by
  induction c generalizing s with
  | nil =>
    have hstep : streamStep view (.loop s) = (none, .ended) := by
      rw [streamStep, List.getElem?_eq_none hbuf]
      exact if_pos h
    exact .silent hstep nofun .ended
  | cons x c ih =>
    obtain ⟨id, ts⟩ := x
    obtain ⟨hcur, h0, p, hp, hts, hrest⟩ := h
    have hstep : streamStep view (.loop s) = (none, .loop { s with
        currentPage := p.nextPage
        buffered := rowsOf s.txn id ts
        bufIdx := 0 }) := by
      rw [streamStep, List.getElem?_eq_none hbuf, ← pageRows_eq hts, hcur]
      dsimp only
      rw [if_neg h0, hp]
    rw [scanRows, List.flatMap_cons, List.map_append]
    have hnext := ih (s := { s with
      currentPage := p.nextPage, buffered := rowsOf s.txn id ts,
      bufIdx := (rowsOf s.txn id ts).length }) hrest le_rfl
    have hall := drains_buffer (s := { s with
      currentPage := p.nextPage, buffered := rowsOf s.txn id ts, bufIdx := 0 }) hnext
      (rowsOf s.txn id ts).length le_rfl
    rw [Nat.sub_self] at hall
    exact .silent hstep nofun hall

/-- **A scan of a heap file.** -/
theorem Store.Holds.drains (h : st.Holds c) (txn : Txn) :
    Drains st (.loop (scan st txn)) ((scanRows txn c).map .ok) :=
  drains_chain (s := scan st txn) h.chain le_rfl

end Heap
end Abdb
