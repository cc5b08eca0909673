/-
# An insert of a tuple that is too long

`HeapPage::insert` looks at the free space before it writes anything; `heap::insert` finds out
that a tuple fits no page only from the new page that it has asked for, and returns the error
without giving that page back.  The insert here takes its page from the disk manager of
`src/storage/disk.rs`, so that its counters and the directory are in view: the file is left as
it was, and one more page is allocated and in the directory, in no list
(`rejected_insert_abandons`).
-/

import Abdb.Directory.NewPage
import Abdb.Heap.Insert

namespace Abdb
namespace Heap

open Relation Directory Directory.BTreePageDirectory DiskManagerImpl

/-- The pages of a heap file, and the disk manager that makes new ones. -/
structure Served where
  store : Store
  disk : DiskManagerImpl

namespace Served

/-- The error of an insert that no page has room for. -/
def noFit : Except Error RecordId := .error (.pageCorruption "insert into fresh page failed")

/-- One step of an insert into the file, alone. -/
def Step (file : FileId) (txn : Txn) (tuple : List UInt8) (x y : Served × InsertPc) : Prop :=
  match Insert.await x.2 with
  | .nothing => False
  | .newPage => ∃ disk r, x.1.disk.NewPage file disk r ∧
    match r with
    | .ok (id, _) =>
      let z := Insert.step txn tuple id x.1.store x.2
      y = (⟨z.1, disk⟩, z.2)
    | .error _ => y = (⟨x.1.store, disk⟩, .done (.error (.bufferError x.1.disk.nextLpageId.toNat)))
  | _ =>
    let z := Insert.step txn tuple 0 x.1.store x.2
    y = (⟨z.1, x.1.disk⟩, z.2)

/-- The insert runs from its start and returns. -/
def Inserts (file : FileId) (txn : Txn) (tuple : List UInt8) (x y : Served)
    (r : Except Error RecordId) : Prop :=
  ReflTransGen (Step file txn tuple) (x, .start) (y, .done r)

/-- **Everything is as before**: the header, every page, the directory and the counters. -/
structure NoEffect (x y : Served) : Prop where
  firstPage : y.store.firstPage = x.store.firstPage
  page : ∀ q, x.store.page q ≠ none → y.store.page q = x.store.page q
  directory : ∀ k < idBound, ∀ r, Answer y.disk.pageDirectory k r ↔ Answer x.disk.pageDirectory k r
  allocator : y.disk.allocator = x.disk.allocator
  nextLpageId : y.disk.nextLpageId = x.disk.nextLpageId

/-- **A page is allocated and abandoned**: the file is as before, and the directory and the
counters have one page more, which no list has. -/
structure Abandons (file : FileId) (c : Contents) (m : Mapping) (x y : Served) : Prop where
  holds : y.store.Holds c
  firstPage : y.store.firstPage = x.store.firstPage
  page : ∀ q, q ≠ x.disk.nextLpageId.toNat → y.store.page q = x.store.page q
  new : x.disk.nextLpageId.toNat ∉ m
  directory : y.disk.pageDirectory.Represents
    (m.insert x.disk.nextLpageId.toNat (x.disk.allocator.allocate file).2)
  allocator : y.disk.allocator = (x.disk.allocator.allocate file).1
  nextLpageId : y.disk.nextLpageId = x.disk.nextLpageId + 1

end Served

open Served

variable {x y : Served} {z z' : Served × InsertPc} {file : FileId} {txn : Txn} {tuple : List UInt8}
  {c : Contents} {m : Mapping} {r : Except Error RecordId} {first firstPage : LPageId}

/-- No page has room for a tuple that is too long. -/
theorem not_fits_long {p : HeapPage} {ts : List (List UInt8)} (hts : p.Slotted ts)
    (hlong : maxTupleSize < tuple.length) :
    ¬ HeapPage.Slotted.Fits p ts (makeHeader txn.id ++ tuple) := by
  have hbound := hts.bound
  rw [maxTupleSize_eq] at hlong
  rw [HeapPage.Slotted.Fits, List.length_append, Insert.length_makeHeader]
  simp only [HeapPage.headersSize_eq, HeapPage.slotSize_eq, tupleHeaderSize, pageBufSize] at hbound ⊢
  omega

/-- The locations that the allocator gives out can be stored in the directory. -/
theorem addressable_allocate (a : SimpleAllocator) (file : FileId) : (a.allocate file).2.Addressable := by
  have hoff : (a.allocate file).2.offset = ((a.nextPage file).getD 1).toNat * pageBufSize := rfl
  rw [PPageId.Addressable, hoff, Nat.mul_mod_left, Nat.mul_div_cancel _ (by decide)]
  exact ⟨rfl, UInt32.toNat_lt _⟩

/-- **What a successful `new_page` does**: the next id is new, and is registered. -/
theorem newPage_ok {s s' : DiskManagerImpl} {id : LPageId} {loc : PPageId}
    (hdir : s.pageDirectory.Represents m) (hnew : s.NewPage file s' (.ok (id, loc))) :
    id = s.nextLpageId.toNat ∧ s.nextLpageId.toNat ∉ m ∧
      s'.pageDirectory.Represents (m.insert s.nextLpageId.toNat (s.allocator.allocate file).2) ∧
      s'.allocator = (s.allocator.allocate file).1 ∧ s'.nextLpageId = s.nextLpageId + 1 := by
  have hnot : s.nextLpageId.toNat ∉ m := fun hmem =>
    NewPage.not_ok (.of_represents hdir) rfl hmem hnew
  obtain ⟨hallocator, hnext, res, hexec, hr⟩ := hnew
  obtain ⟨d', hexec', hdir'⟩ :=
    (hdir.exec_addPage (UInt32.toNat_lt _) (addressable_allocate s.allocator file)).2 hnot
  obtain ⟨hd, rfl⟩ := hexec.unique hexec'
  cases hr
  exact ⟨rfl, hnot, hd ▸ hdir', hallocator, hnext⟩

/-- A new id makes `new_page` succeed. -/
theorem exists_newPage_ok {s : DiskManagerImpl} (hdir : s.pageDirectory.Represents m)
    (hnot : s.nextLpageId.toNat ∉ m) (file : FileId) :
    ∃ s' loc, s.NewPage file s' (.ok (s.nextLpageId.toNat, loc)) := by
  obtain ⟨d', hexec, -⟩ :=
    (hdir.exec_addPage (UInt32.toNat_lt _) (addressable_allocate s.allocator file)).2 hnot
  exact ⟨⟨d', (s.allocator.allocate file).1, s.nextLpageId + 1⟩, _, rfl, rfl, _, hexec, rfl⟩

/-- Where an insert of a tuple that is too long can be: on its way, with nothing done, or
refused. -/
def Refusing (file : FileId) (c : Contents) (m : Mapping) (x : Served) (z : Served × InsertPc) : Prop :=
  match z.2 with
  | .start | .alloc _ => z.1 = x
  | .walk _ current => z.1 = x ∧ current ∈ ids c
  | .link .. => False
  | .done r => (∃ e, r = .error e) ∧ (r = noFit → Abandons file c m x z.1)

theorem refusing_walkTo (h : first = 0 ∨ first ∈ ids c) :
    Refusing file c m x (x, Insert.walkTo firstPage first) := by
  rw [Insert.walkTo]
  split_ifs with h0
  · exact rfl
  · exact ⟨rfl, h.resolve_left h0⟩

/-- The step of the insert on a page of the list: it passes the page by. -/
theorem step_walk {st : Store} {newId current : LPageId} {p : HeapPage} {ts : List (List UInt8)}
    (hlong : maxTupleSize < tuple.length) (hp : st.page current = some p) (hts : p.Slotted ts) :
    Insert.step txn tuple newId st (.walk firstPage current) = (st, Insert.walkTo firstPage p.nextPage) := by
  simp only [Insert.step, Insert.await, Insert.resume]
  rw [Insert.onPage_full hp hts (not_fits_long hts hlong)]
  exact congrArg (·, _) (Insert.put_self hp)

/-- The step of the insert on its new page: it fails, and the page is there. -/
theorem step_alloc {st : Store} {newId : LPageId} (hlong : maxTupleSize < tuple.length) :
    Insert.step txn tuple newId st (.alloc firstPage) =
      ((st.newPage newId).put (some (newId, HeapPage.zeroed.init.setNextPage firstPage)), .done noFit) := by
  simp only [Insert.step, Insert.await, Insert.resume]
  rw [Insert.onNewPage_long _ _ _ hlong]
  rfl

/-- **One step** of an insert of a tuple that is too long. -/
theorem Refusing.step (hst : x.store.Holds c) (hdir : x.disk.pageDirectory.Represents m)
    (hids : ∀ id ∈ ids c, id ∈ m) (hlong : maxTupleSize < tuple.length)
    (h : Refusing file c m x z) (hstep : Step file txn tuple z z') : Refusing file c m x z' := by
  obtain ⟨z, pc⟩ := z
  cases pc with
  | start =>
    obtain rfl : z = x := h
    obtain rfl : z' = (z, Insert.walkTo z.store.firstPage z.store.firstPage) := hstep
    refine refusing_walkTo ?_
    have hchain := hst.chain
    rcases c with _ | ⟨a, c⟩
    · exact Or.inl hchain
    · exact Or.inr (hchain.1 ▸ List.mem_cons_self)
  | walk firstPage current =>
    obtain ⟨rfl, hmem⟩ : z = x ∧ current ∈ ids c := h
    obtain ⟨ts, hts⟩ := mem_ids.1 hmem
    obtain ⟨-, p, hp, hslotted⟩ := hst.chain.page_of_mem hts
    have hstep' : z' = (⟨(Insert.step txn tuple 0 z.store (.walk firstPage current)).1, z.disk⟩,
      (Insert.step txn tuple 0 z.store (.walk firstPage current)).2) := hstep
    rw [step_walk hlong hp hslotted] at hstep'
    rw [hstep']
    exact refusing_walkTo (Insert.next_mem hst.chain hmem hp)
  | alloc firstPage =>
    obtain rfl : z = x := h
    obtain ⟨disk, r, hnew, hr⟩ := hstep
    match r with
    | .error e =>
      rw [show z' = _ from hr]
      exact ⟨⟨_, rfl⟩, nofun⟩
    | .ok (id, loc) =>
      obtain ⟨rfl, hnot, hdir', hallocator, hnext⟩ := newPage_ok hdir hnew
      dsimp only at hr
      rw [step_alloc hlong] at hr
      rw [hr]
      have hnotin : z.disk.nextLpageId.toNat ∉ ids c := fun hmem => hnot (hids _ hmem)
      refine ⟨⟨_, rfl⟩, fun _ => ⟨(hst.put_of_not_mem hnotin).put_of_not_mem hnotin, rfl, fun q hq => ?_,
        hnot, hdir', hallocator, hnext⟩⟩
      exact (Store.page_put_of_ne hq).trans (Store.page_put_of_ne hq)
  | link firstPage newPage slotId => exact h.elim
  | done r => exact hstep.elim

/-- What is abandoned is an effect. -/
theorem Served.Abandons.not_noEffect (h : Abandons file c m x y) : ¬ NoEffect x y := by
  intro hnone
  have heq : x.disk.nextLpageId + 1 = x.disk.nextLpageId := h.nextLpageId.symm.trans hnone.nextLpageId
  have hone : (1 : UInt32) = 0 := by
    rwa [add_eq_left] at heq
  exact absurd hone (by decide)

/-- The walk along the list ends with a new page. -/
theorem walks {c' : Contents} (hlong : maxTupleSize < tuple.length) (firstPage : LPageId)
    (h : Chain x.store.page first c') : ReflTransGen (Step file txn tuple)
      (x, Insert.walkTo firstPage first) (x, .alloc firstPage) := by
  induction c' generalizing first with
  | nil =>
    rw [Insert.walkTo, if_pos (show first = 0 from h)]
  | cons a c' ih =>
    obtain ⟨rfl, h0, p, hp, hts, hrest⟩ := h
    refine .head ?_ (ih hrest)
    rw [Insert.walkTo, if_neg h0]
    show (x, Insert.walkTo firstPage p.nextPage) =
      (⟨(Insert.step txn tuple 0 x.store (.walk firstPage a.1)).1, x.disk⟩,
        (Insert.step txn tuple 0 x.store (.walk firstPage a.1)).2)
    rw [step_walk hlong hp hts]

/-- An insert of a tuple that is too long returns the error of `insert` on the new page, if
there is one. -/
theorem inserts_long (hst : x.store.Holds c) (hdir : x.disk.pageDirectory.Represents m)
    (hlong : maxTupleSize < tuple.length) (hnot : x.disk.nextLpageId.toNat ∉ m) (file : FileId)
    (txn : Txn) : ∃ y, Inserts file txn tuple x y noFit := by
  obtain ⟨disk, loc, hnew⟩ := exists_newPage_ok hdir hnot file
  obtain ⟨st, hst'⟩ : ∃ st, st = (Insert.step txn tuple x.disk.nextLpageId.toNat x.store
    (.alloc x.store.firstPage)).1 := ⟨_, rfl⟩
  have hlast : Step file txn tuple (x, .alloc x.store.firstPage) (⟨st, disk⟩, .done noFit) := by
    refine ⟨disk, _, hnew, ?_⟩
    dsimp only
    rw [hst', step_alloc hlong]
  exact ⟨⟨st, disk⟩, .head rfl ((walks hlong _ hst.chain).tail hlast)⟩

/-- **An insert that no page has room for abandons one.** -/
theorem Served.Inserts.abandons (hst : x.store.Holds c) (hdir : x.disk.pageDirectory.Represents m)
    (hids : ∀ id ∈ ids c, id ∈ m) (hlong : maxTupleSize < tuple.length)
    (h : Inserts file txn tuple x y noFit) : Abandons file c m x y := by
  have hrefusing : ∀ z, ReflTransGen (Step file txn tuple) (x, .start) z → Refusing file c m x z := by
    intro z hz
    induction hz with
    | refl => exact rfl
    | tail _ hstep ih => exact ih.step hst hdir hids hlong hstep
  exact (hrefusing _ h).2 rfl

/-- **A rejected insert has an effect**: whenever `insert` returns the error of a tuple that
fits no page, the file is as before, but the directory and the counters are not. -/
theorem rejected_insert_abandons (hst : x.store.Holds c) (hdir : x.disk.pageDirectory.Represents m)
    (hids : ∀ id ∈ ids c, id ∈ m) (hlong : maxTupleSize < tuple.length) (file : FileId) (txn : Txn) :
    (∀ y, Inserts file txn tuple x y noFit → ¬ NoEffect x y ∧ Abandons file c m x y) ∧
    (x.disk.nextLpageId.toNat ∉ m → ∃ y, Inserts file txn tuple x y noFit) :=
  ⟨fun _ hrun => ⟨(hrun.abandons hst hdir hids hlong).not_noEffect, hrun.abandons hst hdir hids hlong⟩,
    fun hnot => inserts_long hst hdir hlong hnot file txn⟩

/-- A new server with an empty heap file. -/
def Served.new : Served := ⟨.empty, setUp initNew⟩

/-- The smallest tuple that is too long. -/
def longTuple : List UInt8 := List.replicate 4053 0

theorem maxTupleSize_lt_longTuple : maxTupleSize < longTuple.length := by
  rw [longTuple, List.length_replicate, maxTupleSize_eq]
  decide

/-- An empty heap file and a tuple of 4053 bytes. -/
theorem rejected_insert_abandons_new : ∃ y, Inserts 1 ⟨1, .snapshot⟩ longTuple .new y noFit ∧
    ¬ NoEffect .new y ∧ Abandons 1 [] ∅ .new y := by
  have hboth := rejected_insert_abandons (x := Served.new) Store.Holds.empty represents_initNew
    (List.forall_mem_nil _) maxTupleSize_lt_longTuple 1 ⟨1, .snapshot⟩
  obtain ⟨y, hy⟩ := hboth.2 Finmap.notMem_empty
  exact ⟨y, hy, hboth.1 y hy⟩

/-- **What a rejected insert leaves behind**: in an empty heap file nothing, and in the directory
page 0, at the first page after the header. -/
theorem rejected_insert_effect : ∃ y, Inserts 1 ⟨1, .snapshot⟩ longTuple .new y noFit ∧
    ¬ NoEffect .new y ∧ y.store.firstPage = 0 ∧ y.disk.nextLpageId = 1 ∧
    Answer y.disk.pageDirectory 0 (.ok (.found ⟨1, 4096⟩)) := by
  obtain ⟨y, hy⟩ := inserts_long (x := Served.new) Store.Holds.empty represents_initNew
    maxTupleSize_lt_longTuple Finmap.notMem_empty 1 ⟨1, .snapshot⟩
  have habandons := hy.abandons Store.Holds.empty represents_initNew (List.forall_mem_nil _)
    maxTupleSize_lt_longTuple
  refine ⟨y, hy, habandons.not_noEffect, habandons.firstPage, habandons.nextLpageId, ?_⟩
  rw [(Holding.of_represents habandons.directory).answer_iff (by decide)]
  exact Finmap.lookup_insert _

end Heap
end Abdb
