/-
# `insert`, step by step

What one step of an insert does to a heap file (`Insert.step_cases`): it leaves the file as
it is, and fails only if the tuple is too long for a page, or it returns `Ok` with a record
id under which the file has the tuple from then on.  The one step that needs something of the
others is the last, which prepends a new page: the first page of the file has to be the one that
the insert read when it began.
-/

import Abdb.Heap.File

namespace Abdb
namespace Heap

open BTree (Await Mode)

/-- The file after a tuple is added: at the end of a page, or on a page put before the
others. -/
def Added (c : Contents) (rid : RecordId) (t : List UInt8) (c' : Contents) : Prop :=
  (∃ xs ts ys, c = xs ++ (rid.pageId, ts) :: ys ∧ rid.slotId = ts.length ∧
    c' = xs ++ (rid.pageId, ts ++ [t]) :: ys) ∨
  (rid.pageId ∉ ids c ∧ rid.slotId = 0 ∧ c' = (rid.pageId, [t]) :: c)

/-- The longest user tuple that a page has room for. -/
def maxTupleSize : ℕ := pageBufSize - HeapPage.headersSize - HeapPage.slotSize - tupleHeaderSize

@[simp] theorem maxTupleSize_eq : maxTupleSize = 4052 := rfl

variable {c c' : Contents} {rid rid' : RecordId} {t t' full tuple : List UInt8} {st st' : Store}
  {txn : Txn} {pc pc' : InsertPc} {id newId firstPage : LPageId} {p p' : HeapPage}
  {ts : List (List UInt8)} {view : View}

namespace Added

/-- The record id is new. -/
theorem not_has (h : Added c rid full c') (hc : (ids c).Nodup) : ¬ Has c rid t := by
  rintro ⟨us, hmem, hget⟩
  rcases h with ⟨xs, ts, ys, rfl, hslot, -⟩ | ⟨hnot, -⟩
  · have hts : Has (xs ++ (rid.pageId, ts) :: ys) rid t := ⟨us, hmem, hget⟩
    rw [ids, List.map_append, List.map_cons] at hc
    rw [has_iff_of_cut (fun hx => (List.nodup_append.1 hc).2.2 _ hx _ List.mem_cons_self rfl)
      (List.nodup_cons.1 (List.nodup_append.1 hc).2.1).1, if_pos rfl, hslot] at hts
    simp at hts
  · exact hnot (mem_ids.2 ⟨us, hmem⟩)

/-- **The file has the tuple as well.** -/
theorem has_iff (h : Added c rid full c') (hc : (ids c).Nodup) :
    Has c' rid' t ↔ if rid' = rid then t = full else Has c rid' t := by
  rcases h with ⟨xs, ts, ys, rfl, hslot, rfl⟩ | ⟨hnot, hslot, rfl⟩
  · rw [ids, List.map_append, List.map_cons] at hc
    have hx : rid.pageId ∉ ids xs := fun hx => (List.nodup_append.1 hc).2.2 _ hx _ List.mem_cons_self rfl
    have hy : rid.pageId ∉ ids ys := (List.nodup_cons.1 (List.nodup_append.1 hc).2.1).1
    rw [has_iff_of_cut hx hy, has_iff_of_cut hx hy]
    by_cases hpage : rid'.pageId = rid.pageId
    · rw [if_pos hpage, if_pos hpage]
      by_cases hlen : rid'.slotId = ts.length
      · obtain rfl : rid' = rid := by
          cases rid
          cases rid'
          simp_all
        rw [if_pos rfl, hlen, List.getElem?_concat_length, Option.some.injEq, eq_comm]
      · rw [if_neg (fun heq : rid' = rid => hlen (heq ▸ hslot))]
        rcases lt_or_gt_of_ne hlen with hlt | hgt
        · rw [List.getElem?_append_left hlt]
        · rw [List.getElem?_eq_none (by rw [List.length_append]; exact hgt),
            List.getElem?_eq_none (Nat.le_of_lt hgt)]
    · rw [if_neg hpage, if_neg hpage, if_neg (fun heq : rid' = rid => hpage (congrArg _ heq))]
  · have hcut : Has ([] ++ (rid.pageId, [full]) :: c) rid' t ↔ _ := has_iff_of_cut List.not_mem_nil hnot
    rw [List.nil_append, List.nil_append] at hcut
    rw [hcut]
    by_cases hpage : rid'.pageId = rid.pageId
    · rw [if_pos hpage]
      by_cases hzero : rid'.slotId = 0
      · obtain rfl : rid' = rid := by
          cases rid
          cases rid'
          simp_all
        rw [if_pos rfl, hzero, List.getElem?_cons_zero, Option.some.injEq, eq_comm]
      · rw [if_neg (fun heq : rid' = rid => hzero (heq ▸ hslot)), List.getElem?_eq_none (Nat.pos_of_ne_zero hzero)]
        refine iff_of_false (by rintro ⟨⟩) ?_
        rintro ⟨us, hmem, -⟩
        exact hnot (mem_ids.2 ⟨us, hpage ▸ hmem⟩)
    · rw [if_neg hpage, if_neg (fun heq : rid' = rid => hpage (congrArg _ heq))]

/-- The pages of the file, and one more if the tuple is on a new page. -/
theorem mem_ids (h : Added c rid full c') : id ∈ ids c' ↔ id ∈ ids c ∨ id = rid.pageId := by
  rcases h with ⟨xs, ts, ys, rfl, -, rfl⟩ | ⟨-, -, rfl⟩
  · simp only [ids, List.map_append, List.map_cons, List.mem_append, List.mem_cons]
    tauto
  · rw [ids, List.map_cons, List.mem_cons, or_comm]
    rfl

end Added

namespace Insert

/-! ### At a page -/

/-- A page with room takes the tuple. -/
theorem onPage_fits (firstPage : LPageId) (hp : view.page id = some p) (hts : p.Slotted ts)
    (hfits : HeapPage.Slotted.Fits p ts full) : ∃ p', onPage view full firstPage id =
      ⟨some (id, p'), none, .done (.ok ⟨id, ts.length⟩)⟩ ∧ p'.Slotted (ts ++ [full]) ∧
        p'.nextPage = p.nextPage := by
  obtain ⟨p', hinsert, hslotted, hnext, -⟩ := hts.insert_fits hfits
  refine ⟨p', ?_, hslotted, hnext⟩
  rw [onPage, hp]
  dsimp only
  rw [hinsert]

/-- A page without room is passed by. -/
theorem onPage_full (hp : view.page id = some p) (hts : p.Slotted ts)
    (hfits : ¬ HeapPage.Slotted.Fits p ts full) : onPage view full firstPage id =
      ⟨some (id, p), none, walkTo firstPage p.nextPage⟩ := by
  rw [onPage, hp]
  dsimp only
  rw [hts.insert_noSpace hfits]

@[simp] theorem length_makeHeader (xmin : TxnId) : (makeHeader xmin).length = tupleHeaderSize := by
  simp [makeHeader, tupleHeaderSize]

/-- The page that `insert` has made of the page of zeros. -/
theorem slotted_newPage (firstPage : LPageId) :
    (HeapPage.zeroed.init.setNextPage firstPage).Slotted [] ∧
      (HeapPage.zeroed.init.setNextPage firstPage).dataOffset = pageBufSize := by
  refine ⟨(HeapPage.slotted_init .zeroed).1.setNextPage firstPage, ?_⟩
  rw [HeapPage.dataOffset, HeapPage.setNextPage, HeapPage.field_setField_of_apart (by decide)]
  exact HeapPage.dataOffset_init _

/-- A new page has room for every tuple that is not too long. -/
theorem onNewPage_eq (txn : Txn) (newId : LPageId) (hlen : tuple.length ≤ maxTupleSize)
    (hfirst : firstPage < 2 ^ 32) :
    ∃ p, onNewPage (makeHeader txn.id ++ tuple) firstPage newId =
      ⟨some (newId, p), none, .link firstPage newId 0⟩ ∧
        p.Slotted [makeHeader txn.id ++ tuple] ∧ p.nextPage = firstPage := by
  obtain ⟨hslotted, hoff⟩ := slotted_newPage firstPage
  have hfits : HeapPage.Slotted.Fits (HeapPage.zeroed.init.setNextPage firstPage) []
      (makeHeader txn.id ++ tuple) := by
    rw [HeapPage.Slotted.Fits, hoff, List.length_append, length_makeHeader]
    simp only [HeapPage.headersSize_eq, HeapPage.slotSize_eq, List.length_nil, pageBufSize,
      tupleHeaderSize]
    rw [maxTupleSize_eq] at hlen
    omega
  obtain ⟨p, hinsert, hp, hnext, -⟩ := hslotted.insert_fits hfits
  refine ⟨p, ?_, hp, hnext.trans (HeapPage.nextPage_setNextPage hfirst)⟩
  rw [onNewPage, hinsert]
  rfl

/-- No page has room for a longer one. -/
theorem onNewPage_long (txn : Txn) (firstPage newId : LPageId) (hlen : maxTupleSize < tuple.length) :
    onNewPage (makeHeader txn.id ++ tuple) firstPage newId =
      ⟨some (newId, HeapPage.zeroed.init.setNextPage firstPage), none,
        .done (.error (.pageCorruption "insert into fresh page failed"))⟩ := by
  obtain ⟨hslotted, hoff⟩ := slotted_newPage firstPage
  have hfits : ¬ HeapPage.Slotted.Fits (HeapPage.zeroed.init.setNextPage firstPage) []
      (makeHeader txn.id ++ tuple) := by
    rw [HeapPage.Slotted.Fits, hoff, List.length_append, length_makeHeader]
    simp only [HeapPage.headersSize_eq, HeapPage.slotSize_eq, List.length_nil, pageBufSize,
      tupleHeaderSize]
    rw [maxTupleSize_eq] at hlen
    omega
  rw [onNewPage, hslotted.insert_noSpace hfits]

/-! ### One step -/

/-- The first page that an insert has read. -/
def first : InsertPc → Option LPageId
  | .walk firstPage _ | .alloc firstPage | .link firstPage _ _ => some firstPage
  | _ => none

/-- The first page that the insert has read is still the first. -/
def HeadCurrent (st : Store) (pc : InsertPc) : Prop := ∀ f, first pc = some f → f = st.firstPage

/-- What is known about an insert at its await points: the page it awaits is in the list, and
the page it has made is not, and holds the tuple. -/
def Ok (full : List UInt8) (st : Store) (c : Contents) : InsertPc → Prop
  | .walk firstPage current => current ∈ ids c ∧ firstPage < 2 ^ 32
  | .alloc firstPage => firstPage < 2 ^ 32
  | .link firstPage newPage slotId => newPage ∉ ids c ∧ newPage ≠ 0 ∧ newPage < 2 ^ 32 ∧ slotId = 0 ∧
    ∃ p, st.page newPage = some p ∧ p.Slotted [full] ∧ p.nextPage = firstPage
  | _ => True

theorem ok_walkTo (hfirst : firstPage < 2 ^ 32) (h : id = 0 ∨ id ∈ ids c) :
    Ok full st c (walkTo firstPage id) := by
  rw [walkTo]
  split_ifs with h0
  · exact hfirst
  · exact ⟨h.resolve_left h0, hfirst⟩

/-- The page after a page of the list is one too, or none. -/
theorem next_mem {first : LPageId} {page : LPageId → Option HeapPage} (h : Chain page first c)
    (hid : id ∈ ids c) (hp : page id = some p) : p.nextPage = 0 ∨ p.nextPage ∈ ids c := by
  have hhead : ∀ {f : LPageId} {c : Contents}, Chain page f c → f = 0 ∨ f ∈ ids c := by
    rintro f (_ | ⟨x, c⟩) hch
    · exact Or.inl hch
    · exact Or.inr (hch.1 ▸ List.mem_cons_self)
  induction c generalizing first with
  | nil => cases hid
  | cons x c ih =>
    obtain ⟨-, -, q, hq, -, hrest⟩ := h
    rcases List.mem_cons.1 hid with rfl | hid
    · obtain rfl : p = q := Option.some.inj (hp.symm.trans hq)
      exact (hhead hrest).imp_right (List.mem_cons_of_mem _)
    · exact (ih hrest hid).imp_right (List.mem_cons_of_mem _)

theorem put_self (hp : st.page id = some p) : st.put (some (id, p)) = st := by
  have : Function.update st.page id (some p) = st.page := by rw [← hp, Function.update_eq_self]
  rw [Store.put, this]

/-- A step that leaves the file as it is: only `new_page` changes the pages, by a new one that
is then to be linked, and the insert fails only if the tuple is too long. -/
structure Quiet (full : List UInt8) (c : Contents) (newId : LPageId) (st : Store) (pc : InsertPc)
    (st' : Store) (pc' : InsertPc) : Prop where
  holds : st'.Holds c
  ok : Ok full st' c pc'
  firstPage : st'.firstPage = st.firstPage
  page : ∀ q, st'.page q = st.page q ∨ await pc = .newPage ∧ q = newId
  made : await pc = .newPage → st'.page newId ≠ none ∧
    ((∃ f s, pc' = .link f newId s) ∨ ∃ r, pc' = .done r)
  head : HeadCurrent st pc → HeadCurrent st' pc'
  same : await pc ≠ .newPage → st' = st ∧ (∀ f n s, pc' ≠ .link f n s) ∧ ∀ r, pc' ≠ .done r
  failed : ∀ r, pc' = .done r → tupleHeaderSize + maxTupleSize < full.length ∧ ∃ e, r = .error e

/-- A step that adds the tuple. -/
structure Adds (full : List UInt8) (c : Contents) (st : Store) (pc : InsertPc) (st' : Store)
    (rid : RecordId) (c' : Contents) : Prop where
  holds : st'.Holds c'
  added : Added c rid full c'
  page : ∀ q, q ∉ ids c → st'.page q = st.page q
  place : rid.pageId ∈ ids c ∨ ∃ f s, pc = .link f rid.pageId s

/-- **One step of an insert**: it has returned already, or leaves the file as it is, or adds
the tuple and returns its record id. -/
theorem step_cases (newId : LPageId) (h : st.Holds c) (hok : Ok (makeHeader txn.id ++ tuple) st c pc)
    (hlink : ∀ f n s, pc = .link f n s → f = st.firstPage)
    (hfresh : await pc = .newPage → st.Fresh newId) :
    (∃ r, pc = .done r) ∨
    (∃ st' pc', step txn tuple newId st pc = (st', pc') ∧
      Quiet (makeHeader txn.id ++ tuple) c newId st pc st' pc') ∨
    ∃ st' rid c', step txn tuple newId st pc = (st', .done (.ok rid)) ∧
      Adds (makeHeader txn.id ++ tuple) c st pc st' rid c' := by
  have hwalkTo : ∀ f p, (∀ f' n s, walkTo f p ≠ .link f' n s) ∧ ∀ r, walkTo f p ≠ .done r := by
    intro f p
    rw [walkTo]
    split_ifs <;> exact ⟨nofun, nofun⟩
  cases pc with
  | done r => exact Or.inl ⟨r, rfl⟩
  | start =>
    refine Or.inr (Or.inl ⟨st, walkTo st.firstPage st.firstPage, rfl, h, ?_, rfl, fun q => Or.inl rfl,
      nofun, fun _ f hf => ?_, fun _ => ⟨rfl, hwalkTo _ _⟩,
      fun r heq => absurd heq ((hwalkTo _ _).2 r)⟩)
    · refine ok_walkTo h.small ?_
      have hchain := h.chain
      rcases c with _ | ⟨x, c⟩
      · exact Or.inl hchain
      · exact Or.inr (hchain.1 ▸ List.mem_cons_self)
    · rw [walkTo] at hf
      split_ifs at hf <;> exact (Option.some.inj hf).symm
  | walk firstPage current =>
    obtain ⟨hmem, hfirst⟩ := hok
    obtain ⟨ts, hts⟩ := mem_ids.1 hmem
    obtain ⟨h0, p, hp, hslotted⟩ := h.chain.page_of_mem hts
    by_cases hfits : HeapPage.Slotted.Fits p ts (makeHeader txn.id ++ tuple)
    · obtain ⟨p', heq, hslotted', hnext⟩ := onPage_fits firstPage hp hslotted hfits
      obtain ⟨xs, ys, rfl, -⟩ := h.cut hts
      refine Or.inr (Or.inr ⟨st.put (some (current, p')), ⟨current, ts.length⟩, _, ?_,
        h.replace hp hslotted' hnext, Or.inl ⟨xs, ts, ys, rfl, rfl, rfl⟩, fun q hq => ?_, Or.inl hmem⟩)
      · rw [step]
        simp only [await, resume]
        rw [heq]
        rfl
      · exact Function.update_of_ne (ne_of_mem_of_not_mem hmem hq).symm ..
    · refine Or.inr (Or.inl ⟨st, walkTo firstPage p.nextPage, ?_, h, ?_, rfl, fun q => Or.inl rfl,
        nofun, fun hcur f hf => ?_, fun _ => ⟨rfl, hwalkTo _ _⟩,
        fun r heq => absurd heq ((hwalkTo _ _).2 r)⟩)
      · rw [step]
        simp only [await, resume]
        rw [onPage_full hp hslotted hfits]
        exact congrArg (·, _) (put_self hp)
      · exact ok_walkTo hfirst (next_mem h.chain hmem hp)
      · rw [walkTo] at hf
        split_ifs at hf <;> exact hcur f hf
  | alloc firstPage =>
    obtain ⟨h0, hsmall, hnone⟩ := hfresh rfl
    have hnot : newId ∉ ids c := fun hid => by
      obtain ⟨ts, hts⟩ := mem_ids.1 hid
      obtain ⟨-, p, hp, -⟩ := h.chain.page_of_mem hts
      rw [hnone] at hp
      cases hp
    have hpage : ∀ (p : HeapPage) q, ((st.newPage newId).put (some (newId, p))).page q = st.page q ∨
        await (.alloc firstPage) = .newPage ∧ q = newId := by
      intro p q
      rcases eq_or_ne q newId with rfl | hq
      · exact Or.inr ⟨rfl, rfl⟩
      · exact Or.inl ((Store.page_put_of_ne hq).trans (Store.page_put_of_ne hq))
    have hmade : ∀ p : HeapPage, ((st.newPage newId).put (some (newId, p))).page newId ≠ none := by
      intro p
      rw [Store.page_put_self]
      exact Option.some_ne_none p
    by_cases hlen : tuple.length ≤ maxTupleSize
    · obtain ⟨p, heq, hslotted, hnext⟩ := onNewPage_eq txn newId hlen hok
      refine Or.inr (Or.inl ⟨(st.newPage newId).put (some (newId, p)), .link firstPage newId 0, ?_,
        (h.put_of_not_mem hnot).put_of_not_mem hnot,
        ⟨hnot, h0, hsmall, rfl, p, Function.update_self .., hslotted, hnext⟩, rfl, hpage p,
        fun _ => ⟨hmade p, Or.inl ⟨_, _, rfl⟩⟩, fun hcur f hf => hcur f hf,
        fun hne => absurd rfl hne, nofun⟩)
      rw [step]
      simp only [await, resume]
      rw [heq]
      rfl
    · refine Or.inr (Or.inl ⟨(st.newPage newId).put (some (newId, HeapPage.zeroed.init.setNextPage
        firstPage)), .done (.error (.pageCorruption "insert into fresh page failed")), ?_,
        (h.put_of_not_mem hnot).put_of_not_mem hnot, trivial, rfl, hpage _,
        fun _ => ⟨hmade _, Or.inr ⟨_, rfl⟩⟩, fun _ => nofun, fun hne => absurd rfl hne,
        fun r hr => ⟨?_, _, (InsertPc.done.inj hr).symm⟩⟩)
      · rw [step]
        simp only [await, resume]
        rw [onNewPage_long _ _ _ (not_le.1 hlen)]
        rfl
      · rw [List.length_append, length_makeHeader]
        omega
  | link firstPage newPage slotId =>
    obtain ⟨hnot, h0, hsmall, rfl, p, hp, hslotted, hnext⟩ := hok
    have hhead := hlink _ _ _ rfl
    exact Or.inr (Or.inr ⟨{ st with firstPage := newPage }, ⟨newPage, 0⟩, _, rfl,
      h.link hnot h0 hsmall hp hslotted (hnext.trans hhead), Or.inr ⟨hnot, rfl, rfl⟩, fun q _ => rfl,
      Or.inr ⟨_, _, rfl⟩⟩)

end Insert

end Heap
end Abdb
