/-
# The heap file as a table

What a heap file is for: a table of versions by record id.  `Table.Answers` says what each
call returns on a table and `Table.after` what it makes of it.  A call that runs alone
answers as the table does (`Represents.exec`), so does every call of a sequence
(`heap_correct`), and as long as the pool has an id left every call returns
(`Represents.exists_exec`).
-/

import Abdb.Heap.Delete
import Abdb.Heap.Insert

namespace Abdb
namespace Heap

open Relation

/-- The versions by record id. -/
abbrev Table := RecordId → Option Version

/-- An operation on the table with its arguments. -/
inductive Call
  | insert (txn : Txn) (tuple : List UInt8)
  | get (txn : Txn) (rid : RecordId)
  | delete (txn : Txn) (rid : RecordId)
  | scan (txn : Txn)
deriving DecidableEq

/-- What an operation returns; of a scan, all that its stream yields. -/
inductive Reply
  | inserted (r : Except Error RecordId)
  | got (r : Except Error (List UInt8))
  | deleted (r : Except Error Unit)
  | scanned (items : List Item)

namespace Table

/-- The version under the record id is there and visible. -/
def Sees (T : Table) (txn : Txn) (rid : RecordId) (v : Version) : Prop :=
  T rid = some v ∧ passes v.xmin v.xmax txn = true

/-- What a call returns on a table. -/
def Answers (T : Table) : Call → Reply → Prop
  | .insert _ _, .inserted r => ∃ rid, r = .ok rid ∧ T rid = none
  | .get txn rid, .got r => (∀ d, r = .ok d ↔ ∃ v, T.Sees txn rid v ∧ d = v.data)
  | .delete txn rid, .deleted r => (r = .ok () ↔ ∃ v, T.Sees txn rid v ∧ v.xmax = 0)
  | .scan txn, .scanned items => ∃ rows : List (List UInt8 × RecordId), items = rows.map .ok ∧
    (rows.map Prod.snd).Nodup ∧
    ∀ d rid, (d, rid) ∈ rows ↔ ∃ v, T.Sees txn rid v ∧ d = v.data
  | _, _ => False

/-- The table after a call that returned the reply. -/
def after (T : Table) : Call → Reply → Table
  | .insert txn tuple, .inserted (.ok rid) => Function.update T rid (some ⟨txn.id, 0, tuple⟩)
  | .delete txn rid, .deleted (.ok _) =>
    Function.update T rid ((T rid).map fun v => { v with xmax := txn.id })
  | _, _ => T

/-- Every reply is the table's, from call to call. -/
def Agrees : Table → List (Call × Reply) → Prop
  | _, [] => True
  | T, (c, r) :: l => T.Answers c r ∧ Agrees (T.after c r) l

end Table

/-- A page has room for the tuple of an insert. -/
def Call.Legal : Call → Prop
  | .insert _ tuple => tuple.length ≤ maxTupleSize
  | _ => True

/-! ### Calls that run alone -/

/-- One step of an insert that runs alone, with any fresh id if it awaits one. -/
def Insert.Next (txn : Txn) (tuple : List UInt8) (x y : Store × InsertPc) : Prop :=
  ∃ id, (Insert.await x.2 = .newPage → x.1.Fresh id) ∧ y = Insert.step txn tuple id x.1 x.2

/-- A call on a store that runs alone, its reply and the store it leaves. -/
def Store.Exec (st : Store) : Call → Store → Reply → Prop
  | .insert txn tuple, st', .inserted r =>
    ReflTransGen (Insert.Next txn tuple) (st, .start) (st', .done r)
  | .get txn rid, st', .got r => st' = st ∧ r = Heap.get st txn rid
  | .delete txn rid, st', .deleted r => st' = st.put (Heap.delete st txn rid).1 ∧
    r = (Heap.delete st txn rid).2
  | .scan txn, st', .scanned items => st' = st ∧ Drains st (.loop (Heap.scan st txn)) items
  | _, _, _ => False

/-- A sequence of calls, each run alone, with their replies. -/
inductive Store.Trace : Store → List (Call × Reply) → Store → Prop
  | nil (st : Store) : Trace st [] st
  | cons {st st₁ st' : Store} {c : Call} {r : Reply} {l : List (Call × Reply)} :
    Exec st c st₁ r → Trace st₁ l st' → Trace st ((c, r) :: l) st'

variable {st st' : Store} {c c' : Contents} {T : Table} {txn : Txn} {tuple : List UInt8} {rid : RecordId}
  {r : Except Error RecordId} {call : Call} {reply : Reply} {l : List (Call × Reply)}

namespace Insert

/-- The insert has added its tuple to the file of the store it began on, and its page to
the pages there. -/
def Succeeded (full : List UInt8) (c : Contents) (st₀ st : Store) (rid : RecordId) : Prop :=
  ∃ c', st.Holds c' ∧ Added c rid full c' ∧ (rid.pageId ∈ ids c ∨ st₀.page rid.pageId = none) ∧
    ∀ q, st.page q ≠ none ↔ st₀.page q ≠ none ∨ q = rid.pageId

/-- It has failed for its length, and the file is as it was. -/
def TooLong (full : List UInt8) (c : Contents) (st₀ st : Store) : Prop :=
  tupleHeaderSize + maxTupleSize < full.length ∧ st.Holds c ∧ ∀ q, st₀.page q ≠ none → st.page q ≠ none

/-- What an insert that runs alone is doing: it walks the list, or it is about to link the
page that it has made, or it has returned. -/
inductive Alone (full : List UInt8) (c : Contents) (st₀ : Store) : Store × InsertPc → Prop
  | walking {pc : InsertPc} (ok : Ok full st₀ c pc) (head : HeadCurrent st₀ pc)
    (hlink : ∀ f n s, pc ≠ .link f n s) (hdone : ∀ r, pc ≠ .done r) : Alone full c st₀ (st₀, pc)
  | linking {st : Store} {n : LPageId} {s : SlotId} (holds : st.Holds c)
    (ok : Ok full st c (.link st.firstPage n s)) (new : st₀.page n = none)
    (page : ∀ q, q ≠ n → st.page q = st₀.page q) : Alone full c st₀ (st, .link st.firstPage n s)
  | succeeded {st : Store} {rid : RecordId} (h : Succeeded full c st₀ st rid) :
    Alone full c st₀ (st, .done (.ok rid))
  | failed {st : Store} {e : Error} (h : TooLong full c st₀ st) :
    Alone full c st₀ (st, .done (.error e))

theorem Alone.next {st₀ : Store} (h₀ : st₀.Holds c) {x y : Store × InsertPc}
    (h : Alone (makeHeader txn.id ++ tuple) c st₀ x) (hxy : Next txn tuple x y) :
    Alone (makeHeader txn.id ++ tuple) c st₀ y := by
  obtain ⟨id, hfresh, rfl⟩ := hxy
  have hexists : ∀ q ∈ ids c, st₀.page q ≠ none := by
    intro q hq
    obtain ⟨ts, hts⟩ := mem_ids.1 hq
    obtain ⟨-, p, hp, -⟩ := h₀.chain.page_of_mem hts
    exact fun hnone => nomatch hp.symm.trans hnone
  cases h with
  | @walking pc hok hcur hlink hdone =>
    rcases step_cases id h₀ hok (fun f n s hpc => absurd hpc (hlink f n s)) hfresh with ⟨r, hr⟩ |
        ⟨st', pc', heq, hq⟩ | ⟨st', rid, c', heq, hadd⟩
    · exact absurd hr (hdone r)
    · dsimp only
      rw [heq]
      by_cases hawait : await pc = .newPage
      · have hnew := (hfresh hawait).2.2
        have hpage : ∀ q, q ≠ id → st'.page q = st₀.page q := fun q hne =>
          (hq.page q).resolve_right fun hor => hne hor.2
        rcases (hq.made hawait).2 with ⟨f, s, rfl⟩ | ⟨r, rfl⟩
        · obtain rfl : f = st'.firstPage := hq.head hcur f rfl
          exact .linking hq.holds hq.ok hnew hpage
        · obtain ⟨hlen, e, rfl⟩ := hq.failed r rfl
          refine .failed ⟨hlen, hq.holds, fun q hne => ?_⟩
          rcases eq_or_ne q id with rfl | hqid
          · exact absurd hnew hne
          · rwa [hpage q hqid]
      · obtain ⟨rfl, hlink', hdone'⟩ := hq.same hawait
        exact .walking hq.ok (hq.head hcur) hlink' hdone'
    · dsimp only
      rw [heq]
      have hmem : rid.pageId ∈ ids c := hadd.place.resolve_right fun ⟨f, s, hpc⟩ => hlink _ _ _ hpc
      refine .succeeded ⟨c', hadd.holds, hadd.added, Or.inl hmem, fun q => ?_⟩
      by_cases hq : q ∈ ids c
      · refine iff_of_true ?_ (Or.inl (hexists q hq))
        obtain ⟨ts, hts⟩ := mem_ids.1 (hadd.added.mem_ids.2 (Or.inl hq))
        obtain ⟨-, p, hp, -⟩ := hadd.holds.chain.page_of_mem hts
        exact fun hnone => nomatch hp.symm.trans hnone
      · rw [hadd.page q hq]
        exact ⟨Or.inl, fun hor => hor.resolve_right (ne_of_mem_of_not_mem hmem hq).symm⟩
  | @linking st n s hst hok hnew hpage =>
    rcases step_cases id hst hok (fun f _ _ hpc => by cases hpc; rfl) nofun with ⟨r, hr⟩ |
        ⟨st', pc', heq, hq⟩ | ⟨st', rid, c', heq, hadd⟩
    · cases hr
    · obtain ⟨-, -, hdone⟩ := hq.same nofun
      exact absurd (congrArg Prod.snd heq).symm (hdone _)
    · dsimp only
      have hrid : rid.pageId = n := by
        cases heq
        rfl
      rw [heq]
      refine .succeeded ⟨c', hadd.holds, hadd.added, Or.inr (by rwa [hrid]), fun q => ?_⟩
      rw [hrid]
      have hsame : st'.page q = st.page q := by
        cases heq
        rfl
      rw [hsame]
      rcases eq_or_ne q n with rfl | hqn
      · refine iff_of_true ?_ (Or.inr rfl)
        obtain ⟨-, -, -, -, p, hp, -⟩ := hok
        exact fun hnone => nomatch hp.symm.trans hnone
      · rw [hpage q hqn]
        exact ⟨Or.inl, fun hor => hor.resolve_right hqn⟩
  | succeeded h => exact .succeeded h
  | failed h => exact .failed h

/-- **An insert that runs alone** adds its tuple, or the tuple is too long. -/
theorem returns_cases (h : st.Holds c)
    (hrun : ReflTransGen (Next txn tuple) (st, .start) (st', .done r)) :
    (∃ rid, r = .ok rid ∧ Succeeded (makeHeader txn.id ++ tuple) c st st' rid) ∨
    ∃ e, r = .error e ∧ TooLong (makeHeader txn.id ++ tuple) c st st' := by
  have hall : ∀ x, ReflTransGen (Next txn tuple) (st, .start) x →
      Alone (makeHeader txn.id ++ tuple) c st x := by
    intro x hx
    induction hx with
    | refl => exact .walking trivial nofun nofun nofun
    | tail _ hstep ih => exact ih.next h hstep
  have hend := hall _ hrun
  cases hend with
  | walking _ _ _ hdone => exact absurd rfl (hdone r)
  | succeeded h => exact Or.inl ⟨_, rfl, h⟩
  | failed h => exact Or.inr ⟨_, rfl, h⟩

/-- From a page of the list on the insert returns, if there is a fresh id. -/
theorem exists_run_from (txn : Txn) (hlen : tuple.length ≤ maxTupleSize) {id : LPageId} (hid : st.Fresh id)
    {first current : LPageId} (hfirst : first < 2 ^ 32) (h : Chain st.page current c) :
    ∃ st' r, ReflTransGen (Next txn tuple) (st, walkTo first current) (st', .done r) := by
  induction c generalizing current with
  | nil =>
    obtain rfl : current = 0 := h
    obtain ⟨p, hp, -⟩ := onNewPage_eq txn id hlen hfirst
    have hstep : step txn tuple id st (.alloc first) =
        ((st.newPage id).put (some (id, p)), .link first id 0) := by
      rw [step]
      simp only [await, resume]
      rw [hp]
      rfl
    exact ⟨_, _, .head ⟨id, fun _ => hid, hstep.symm⟩ (.head ⟨0, by rintro ⟨⟩, rfl⟩ .refl)⟩
  | cons x c ih =>
    obtain ⟨rfl, h0, p, hp, hts, hrest⟩ := h
    rw [walkTo, if_neg h0]
    by_cases hfits : HeapPage.Slotted.Fits p x.2 (makeHeader txn.id ++ tuple)
    · obtain ⟨p', heq, -⟩ := onPage_fits first hp hts hfits
      have hstep : step txn tuple 0 st (.walk first x.1) =
          (st.put (some (x.1, p')), .done (.ok ⟨x.1, x.2.length⟩)) := by
        rw [step]
        simp only [await, resume]
        rw [heq]
        rfl
      exact ⟨_, _, .single ⟨0, by rintro ⟨⟩, hstep.symm⟩⟩
    · have hstep : step txn tuple 0 st (.walk first x.1) = (st, walkTo first p.nextPage) := by
        rw [step]
        simp only [await, resume]
        rw [onPage_full hp hts hfits]
        exact congrArg (·, _) (put_self hp)
      obtain ⟨st', r, hrun⟩ := ih hrest
      exact ⟨st', r, .head ⟨0, by rintro ⟨⟩, hstep.symm⟩ hrun⟩

end Insert

/-! ### The table of a store -/

/-- The store holds a heap file with the versions of a table, and no other page. -/
structure Store.Represents (st : Store) (T : Table) (c : Contents) : Prop where
  holds : st.Holds c
  only : ∀ q, st.page q ≠ none → q ∈ ids c
  has : ∀ rid t, Has c rid t ↔ ∃ v, T rid = some v ∧ t = v.bytes

namespace Store.Represents

theorem empty : Store.empty.Represents (fun _ => none) [] where
  holds := .empty
  only _ h := absurd rfl h
  has _ _ := iff_of_false (fun ⟨_, hmem, _⟩ => nomatch hmem) nofun

theorem hasVersion_iff (h : st.Represents T c) {v : Version} : HasVersion c rid v ↔ T rid = some v := by
  rw [HasVersion, h.has]
  constructor
  · rintro ⟨v', hv', heq⟩
    rwa [Version.bytes_inj.1 heq]
  · exact fun hv => ⟨v, hv, rfl⟩

/-- **`insert` returns a new record id**, and the table has the tuple under it. -/
theorem exec_insert (h : st.Represents T c) (hlen : tuple.length ≤ maxTupleSize)
    (hexec : st.Exec (.insert txn tuple) st' (.inserted r)) : ∃ rid c', r = .ok rid ∧ T rid = none ∧
      st'.Represents (Function.update T rid (some ⟨txn.id, 0, tuple⟩)) c' := by
  rcases Insert.returns_cases h.holds hexec with ⟨rid, rfl, c', hst', hadd, -, hpages⟩ |
      ⟨e, rfl, hlong, -⟩
  swap
  · rw [List.length_append, Insert.length_makeHeader] at hlong
    omega
  have honly : ∀ q, st'.page q ≠ none → q ∈ ids c' := fun q hq =>
    hadd.mem_ids.2 (((hpages q).1 hq).imp_left (h.only q))
  rw [Version.bytes_new] at hadd
  have hnone : T rid = none := by
    rw [Option.eq_none_iff_forall_ne_some]
    exact fun v hv => hadd.not_has h.holds.nodup (h.hasVersion_iff.2 hv)
  refine ⟨rid, c', rfl, hnone, hst', honly, fun rid' t => ?_⟩
  rw [hadd.has_iff h.holds.nodup, h.has]
  by_cases hrid : rid' = rid
  · subst hrid
    rw [if_pos rfl, Function.update_self]
    simp
  · rw [if_neg hrid, Function.update_of_ne hrid]

/-- **`get` returns the data of a visible version** and an error otherwise. -/
theorem get_eq_ok_iff (h : st.Represents T c) {d : List UInt8} :
    Heap.get st txn rid = .ok d ↔ ∃ v, T.Sees txn rid v ∧ d = v.data := by
  by_cases hex : ∃ v, T rid = some v
  · obtain ⟨v, hv⟩ := hex
    rw [get_has h.holds (h.hasVersion_iff.2 hv)]
    constructor
    · intro heq
      split_ifs at heq with hvis
      exact ⟨v, ⟨hv, hvis⟩, (Except.ok.inj heq).symm⟩
    · rintro ⟨v', ⟨hv', hvis⟩, rfl⟩
      obtain rfl : v = v' := Option.some.inj (hv.symm.trans hv')
      rw [if_pos hvis]
  · refine iff_of_false ?_ fun ⟨v, ⟨hv, _⟩, _⟩ => hex ⟨v, hv⟩
    by_cases hid : rid.pageId ∈ ids c
    · rw [get_not_has h.holds hid fun v hv => hex ⟨v, h.hasVersion_iff.1 hv⟩]
      rintro ⟨⟩
    · have hpage : st.page rid.pageId = none := by
        by_contra hne
        exact hid (h.only _ hne)
      rw [Heap.get, fetch, hpage]
      rintro ⟨⟩

/-- **`delete` sets the XMAX of a visible version** without one, and changes nothing
otherwise. -/
theorem exec_delete (h : st.Represents T c) (txn : Txn) (rid : RecordId) :
    ((Heap.delete st txn rid).2 = .ok () ↔ ∃ v, T.Sees txn rid v ∧ v.xmax = 0) ∧
    ∃ c', (st.put (Heap.delete st txn rid).1).Represents
      (T.after (.delete txn rid) (.deleted (Heap.delete st txn rid).2)) c' := by
  rcases delete_cases h.holds txn rid with ⟨v, c', hv, ⟨hvis, hzero⟩, hok, hre, hst', hpage⟩ |
      ⟨e, heq, hnot⟩ | ⟨hid, -⟩
  · have hT := h.hasVersion_iff.1 hv
    refine ⟨iff_of_true hok ⟨v, ⟨hT, hvis⟩, hzero⟩, c', hst', fun q hq => ?_, fun rid' t => ?_⟩
    · by_contra hmem
      rw [hre.ids_eq] at hmem
      rw [hpage q hmem] at hq
      exact hmem (h.only q hq)
    · rw [hre.has_iff h.holds.nodup, h.has, hok, Table.after, hT]
      by_cases hrid : rid' = rid
      · subst hrid
        rw [if_pos rfl, Function.update_self]
        simp
      · rw [if_neg hrid, Function.update_of_ne hrid]
  · rw [heq]
    refine ⟨iff_of_false (by rintro ⟨⟩) ?_, c, h⟩
    rintro ⟨v, ⟨hv, hvis⟩, hzero⟩
    exact hnot v (h.hasVersion_iff.2 hv) ⟨hvis, hzero⟩
  · have hpage : st.page rid.pageId = none := by
      by_contra hne
      exact hid (h.only _ hne)
    have heq : Heap.delete st txn rid = (none, .error (.bufferError rid.pageId)) := by
      rw [Heap.delete, fetch, hpage]
    rw [heq]
    refine ⟨iff_of_false (by rintro ⟨⟩) ?_, c, h⟩
    rintro ⟨v, ⟨hv, -⟩, -⟩
    exact hid (mem_ids.2 ((h.hasVersion_iff.2 hv).imp fun _ => And.left))

/-- **A scan yields the visible versions**, each once. -/
theorem exec_scan (h : st.Represents T c) {items : List Item}
    (hdrains : Drains st (.loop (Heap.scan st txn)) items) : T.Answers (.scan txn) (.scanned items) := by
  obtain rfl := hdrains.unique (h.holds.drains txn)
  refine ⟨scanRows txn c, rfl, nodup_scanRows h.holds.nodup, fun d rid => ?_⟩
  rw [mem_scanRows]
  constructor
  · rintro ⟨t, ht, hvis, rfl⟩
    obtain ⟨v, hv, rfl⟩ := (h.has _ _).1 ht
    rw [Version.isVisible_bytes] at hvis
    exact ⟨v, ⟨hv, hvis⟩, Version.drop_bytes⟩
  · rintro ⟨v, ⟨hv, hvis⟩, rfl⟩
    exact ⟨v.bytes, (h.has _ _).2 ⟨v, hv, rfl⟩, Version.isVisible_bytes.trans hvis,
      Version.drop_bytes.symm⟩

/-- **A call that runs alone answers as the table does.** -/
theorem exec (h : st.Represents T c) (hlegal : call.Legal) (hexec : st.Exec call st' reply) :
    T.Answers call reply ∧ ∃ c', st'.Represents (T.after call reply) c' := by
  cases call with
  | insert txn tuple =>
    cases reply with
    | inserted r =>
      obtain ⟨rid, c', rfl, hnone, hrep⟩ := h.exec_insert hlegal hexec
      exact ⟨⟨rid, rfl, hnone⟩, c', hrep⟩
    | _ => exact hexec.elim
  | get txn rid =>
    cases reply with
    | got r =>
      obtain ⟨rfl, rfl⟩ := hexec
      exact ⟨fun d => h.get_eq_ok_iff, c, h⟩
    | _ => exact hexec.elim
  | delete txn rid =>
    cases reply with
    | deleted r =>
      obtain ⟨rfl, rfl⟩ := hexec
      exact h.exec_delete txn rid
    | _ => exact hexec.elim
  | scan txn =>
    cases reply with
    | scanned items =>
      obtain ⟨rfl, hdrains⟩ := hexec
      exact ⟨h.exec_scan hdrains, c, h⟩
    | _ => exact hexec.elim

/-- **Every call returns**, if the pool has an id left. -/
theorem exists_exec (h : st.Represents T c) (hlegal : call.Legal) (hfresh : ∃ id, st.Fresh id) :
    ∃ st' reply, st.Exec call st' reply := by
  cases call with
  | insert txn tuple =>
    obtain ⟨id, hid⟩ := hfresh
    obtain ⟨st', r, hrun⟩ := Insert.exists_run_from txn hlegal hid h.holds.small h.holds.chain
    exact ⟨st', .inserted r, .head ⟨0, nofun, rfl⟩ hrun⟩
  | get txn rid => exact ⟨st, .got _, rfl, rfl⟩
  | delete txn rid => exact ⟨_, .deleted _, rfl, rfl⟩
  | scan txn => exact ⟨st, .scanned _, rfl, h.holds.drains txn⟩

/-- **Every run agrees with the table**, and represents one at its end. -/
theorem trace (h : st.Represents T c) (htrace : Store.Trace st l st') (hl : ∀ x ∈ l, x.1.Legal) :
    T.Agrees l ∧ ∃ T' c', st'.Represents T' c' := by
  induction htrace generalizing T c with
  | nil st => exact ⟨trivial, T, c, h⟩
  | cons hexec _ ih =>
    obtain ⟨hans, c', hrep⟩ := h.exec (hl _ List.mem_cons_self) hexec
    obtain ⟨hagrees, hend⟩ := ih hrep fun x hx => hl x (List.mem_cons_of_mem _ hx)
    exact ⟨⟨hans, hagrees⟩, hend⟩

end Store.Represents

/-- **The heap file is a table.**  In every sequence of calls on a table that starts empty,
each run alone, every reply is what the table gives, and after it every further call
returns as long as the pool has a fresh page id. -/
theorem heap_correct (l : List (Call × Reply)) (st : Store) (htrace : Store.Trace .empty l st)
    (hl : ∀ x ∈ l, x.1.Legal) : Table.Agrees (fun _ => none) l ∧
      ∀ call : Call, call.Legal → (∃ id, st.Fresh id) → ∃ st' reply, st.Exec call st' reply := by
  obtain ⟨hagrees, T, c, hrep⟩ := Store.Represents.empty.trace htrace hl
  exact ⟨hagrees, fun call hlegal hfresh => hrep.exists_exec hlegal hfresh⟩

/-- An insert and a scan on an empty table. -/
theorem heap_correct_two : ∃ l st, Store.Trace .empty l st ∧
    l.map Prod.fst = [.insert ⟨1, .snapshot⟩ [7], .scan ⟨1, .snapshot⟩] ∧
      Table.Agrees (fun _ => none) l := by
  have hlegal : (Call.insert ⟨1, .snapshot⟩ [7]).Legal := (by decide : 1 ≤ maxTupleSize)
  obtain ⟨st₁, r₁, h₁⟩ := Store.Represents.empty.exists_exec hlegal ⟨1, by decide, by decide, rfl⟩
  obtain ⟨-, c, hrep⟩ := Store.Represents.empty.exec hlegal h₁
  have h₂ : st₁.Exec (.scan ⟨1, .snapshot⟩) st₁ (.scanned _) := ⟨rfl, hrep.holds.drains _⟩
  have htrace := Store.Trace.cons h₁ (.cons h₂ (.nil st₁))
  exact ⟨_, _, htrace, rfl, (heap_correct _ _ htrace (by
    simp only [List.mem_cons, List.not_mem_nil, or_false, forall_eq_or_imp, forall_eq]
    exact ⟨hlegal, trivial⟩)).1⟩

end Heap
end Abdb
