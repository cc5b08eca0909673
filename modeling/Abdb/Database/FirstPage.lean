/-
# The first page of a database

`TcpServer::new` of `src/server/tcp.rs` starts `next_lpage_id` at 0, the id that
`first_page`, `next_page` and `root_page` use for "none".  Heap and index files take their
page ids from this one counter, so the first insert of a database gets page 0: what it links
is nothing, and its tuple or key is gone.

Everything is kept from the first insert on exactly when that insert is one of a tuple too
long for a page, which takes page 0 and then fails (`inserts_kept_iff`).  No operation follows a
link out of its file, so each file is modelled with the pages it has allocated.
-/

import Abdb.BTree.Eviction
import Abdb.Heap.Snapshot

namespace Abdb

open Relation

/-- Two runs of a function to fixed points end in one. -/
theorem ended_unique {α : Type*} {f : α → α} {x a b : α} (ha : f a = a) (hb : f b = b)
    (hxa : ReflTransGen (fun x y => y = f x) x a) (hxb : ReflTransGen (fun x y => y = f x) x b) :
    a = b := by
  have hstay : ∀ {y z}, f y = y → ReflTransGen (fun x y => y = f x) y z → z = y := by
    intro y z hy hyz
    induction hyz with
    | refl => rfl
    | tail _ hstep ih => rw [hstep, ih, hy]
  rcases ReflTransGen.total_of_right_unique (fun (_ _ _ : α) hab hac => hab.trans hac.symm) hxa hxb with
    h | h
  · exact (hstay ha h).symm
  · exact hstay hb h

/-- The files of a database and `next_lpage_id`. -/
structure Database where
  heap : FileId → Heap.Store
  index : FileId → BTree.View
  nextLpageId : LPageId

namespace Database

/-- The empty database, with initialised file headers. -/
def init : Database := ⟨fun _ => .empty, fun _ => ⟨fun _ => none, 0⟩, 0⟩

/-- One step of an insert into a heap file that takes its page id from the counter. -/
def heapStep (txn : Txn) (tuple : List UInt8) (x : (Heap.Store × LPageId) × Heap.InsertPc) :
    (Heap.Store × LPageId) × Heap.InsertPc :=
  let y := Heap.Insert.step txn tuple x.1.2 x.1.1 x.2
  ((y.1, if Heap.Insert.await x.2 = .newPage then x.1.2 + 1 else x.1.2), y.2)

/-- One step of an index operation that takes its page ids from the counter, which is the
number of pages allocated so far. -/
def indexStep {Pc : Type} (M : BTree.Machine Pc) (x : BTree.Store × Pc) : BTree.Store × Pc :=
  match M.await x.2 with
  | .nothing => x
  | .newPage =>
    let st : BTree.Store := { x.1 with
      page := Function.update x.1.page x.1.allocated (some Page.zeroed)
      allocated := x.1.allocated + 1 }
    let o := M.resume st.view x.1.allocated x.2
    (st.apply o, o.pc)
  | _ =>
    let o := M.resume x.1.view 0 x.2
    (x.1.apply o, o.pc)

/-- The pages of an index file, with the counter. -/
def indexStore (db : Database) (file : FileId) : BTree.Store :=
  ⟨(db.index file).page, (db.index file).root, db.nextLpageId⟩

/-- An operation with its arguments. -/
inductive Call
  | heapInsert (file : FileId) (txn : Txn) (tuple : List UInt8)
  | heapScan (file : FileId) (txn : Txn)
  | indexInsert (file : FileId) (key : List UInt8) (rid : RecordId)
  | indexGet (file : FileId) (key : List UInt8)

/-- What an operation returns. -/
inductive Reply
  | rid (r : Except Heap.Error RecordId)
  | rows (items : List Heap.Item)
  | unit (r : Except BTree.Error Unit)
  | record (r : Except BTree.Error RecordId)

/-- An operation on a database, run alone.  Page ids are `u32`, and every one of them is new. -/
def Exec (db : Database) : Call → Database → Reply → Prop
  | .heapInsert file txn tuple, db', .rid r => ∃ st next,
    ReflTransGen (fun x y => y = heapStep txn tuple x) ((db.heap file, db.nextLpageId), .start)
      ((st, next), .done r) ∧ next ≤ 2 ^ 32 ∧
      db' = { db with heap := Function.update db.heap file st, nextLpageId := next }
  | .heapScan file txn, db', .rows items => db' = db ∧
    Heap.Drains (db.heap file) (.loop (Heap.scan (db.heap file) txn)) items
  | .indexInsert file key rid, db', .unit r => ∃ st,
    ReflTransGen (fun x y => y = indexStep (BTree.Insert.machine (BTree.keyFromBytes key) rid) x)
      (db.indexStore file, .start) (st, .done r) ∧ st.allocated ≤ 2 ^ 32 ∧
      db' = { db with index := Function.update db.index file st.view, nextLpageId := st.allocated }
  | .indexGet file key, db', .record r => db' = db ∧
    ReflTransGen (fun x y => y = indexStep (BTree.Get.machine (BTree.keyFromBytes key)) x)
      (db.indexStore file, .start) (db.indexStore file, .done r)
  | _, _, _ => False

/-- A run: operations one after the other, with their replies. -/
inductive Trace : Database → List (Call × Reply) → Database → Prop
  | nil (db : Database) : Trace db [] db
  | cons {db db₁ db' : Database} {c : Call} {r : Reply} {l : List (Call × Reply)} :
    Exec db c db₁ r → Trace db₁ l db' → Trace db ((c, r) :: l) db'

/-- Every tuple and every key whose insert has returned `Ok` is there, for the transaction that
inserted it, and what holds it is linked by an id that is not 0. -/
structure Kept (db : Database) (l : List (Call × Reply)) : Prop where
  heap : ∀ file txn tuple rid, (.heapInsert file txn tuple, .rid (.ok rid)) ∈ l →
    (db.heap file).Shows txn tuple rid ∧ (db.heap file).firstPage ≠ 0 ∧ rid.pageId ≠ 0
  index : ∀ file key rid, (.indexInsert file key rid, .unit (.ok ())) ∈ l →
    db.Exec (.indexGet file key) db (.record (.ok rid)) ∧ (db.index file).root ≠ 0

/-- **Nothing is lost**: it is there at every later point of the run. -/
def Sound (l : List (Call × Reply)) : Prop :=
  ∀ l₁ l₂ db, l = l₁ ++ l₂ → Trace init l₁ db → Kept db l₁

/-- The first insert, if there is one, is of a tuple that no page has room for. -/
def FirstTooLong : List Call → Prop
  | [] => True
  | .heapInsert _ _ tuple :: _ => Heap.maxTupleSize < tuple.length
  | .indexInsert .. :: _ => False
  | _ :: l => FirstTooLong l

variable {db db' db₁ : Database} {l : List (Call × Reply)} {c : Call} {r : Reply} {file : FileId}
  {txn : Txn} {tuple : List UInt8} {m : BTree.Bindings} {key : List UInt8} {rid : RecordId}

/-! ### Ids from the counter -/

/-- A step of an insert makes no page but the new one. -/
theorem heap_step_page {st : Heap.Store} {pc : Heap.InsertPc} {id q : LPageId}
    (h : (Heap.Insert.step txn tuple id st pc).1.page q ≠ none) :
    st.page q ≠ none ∨ Heap.Insert.await pc = .newPage ∧ q = id := by
  have hput : ∀ {st : Heap.Store} {p : HeapPage} {i : LPageId}, (st.put (some (i, p))).page q ≠ none →
      st.page q ≠ none ∨ q = i := by
    intro st p i hq
    rcases eq_or_ne q i with rfl | hqi
    · exact Or.inr rfl
    · exact Or.inl (by rwa [Heap.Store.page_put_of_ne hqi] at hq)
  cases pc with
  | walk f current =>
    refine Or.inl ?_
    rw [Heap.Insert.step] at h
    simp only [Heap.Insert.await, Heap.Insert.resume] at h
    rw [Heap.Insert.onPage] at h
    cases hp : st.page current with
    | none =>
      rw [hp] at h
      exact h
    | some p =>
      rw [hp] at h
      dsimp only at h
      have hcur : st.page q ≠ none ∨ q = current := by
        split at h <;> exact hput h
      rcases hcur with hq | rfl
      · exact hq
      · rw [hp]
        exact Option.some_ne_none p
  | alloc f =>
    rw [Heap.Insert.step] at h
    simp only [Heap.Insert.await, Heap.Insert.resume] at h
    rw [Heap.Insert.onNewPage] at h
    have hid : (st.newPage id).page q ≠ none ∨ q = id := by
      split at h <;> exact hput h
    rcases hid.elim hput Or.inr with hq | hq
    · exact Or.inl hq
    · exact Or.inr ⟨rfl, hq⟩
  | _ => exact Or.inl h

/-- Once page 0 is gone the counter gives fresh ids to heap files. -/
theorem heap_run {x y : (Heap.Store × LPageId) × Heap.InsertPc}
    (h : ReflTransGen (fun x y => y = heapStep txn tuple x) x y) (hpos : 1 ≤ x.1.2)
    (hpages : ∀ q, x.1.1.page q ≠ none → q < x.1.2) : x.1.2 ≤ y.1.2 ∧
      (y.1.2 ≤ 2 ^ 32 → (∀ q, y.1.1.page q ≠ none → q < y.1.2) ∧
        ReflTransGen (Heap.Insert.Next txn tuple) (x.1.1, x.2) (y.1.1, y.2)) := by
  induction h with
  | refl => exact ⟨le_rfl, fun _ => ⟨hpages, .refl⟩⟩
  | @tail y z _ hstep ih =>
    obtain ⟨hle, hrest⟩ := ih
    subst hstep
    obtain ⟨⟨st, next⟩, pc⟩ := y
    have hmono : next ≤ (heapStep txn tuple ((st, next), pc)).1.2 := by
      show next ≤ if _ then _ else _
      split_ifs
      · exact Nat.le_succ _
      · exact le_rfl
    refine ⟨hle.trans hmono, fun hbound => ?_⟩
    obtain ⟨hpages', hrun⟩ := hrest (hmono.trans hbound)
    refine ⟨fun q hq => ?_, hrun.tail ⟨next, fun hawait => ⟨?_, ?_, ?_⟩, rfl⟩⟩
    · rcases heap_step_page hq with hq | ⟨hawait, hq⟩
      · exact (hpages' q hq).trans_le hmono
      · show q < if _ then _ else _
        rw [if_pos hawait, hq]
        exact Nat.lt_succ_self _
    · exact Nat.one_le_iff_ne_zero.1 (hpos.trans hle)
    · have : next + 1 ≤ 2 ^ 32 := by
        have hnext : (heapStep txn tuple ((st, next), pc)).1.2 = next + 1 := if_pos hawait
        rwa [hnext] at hbound
      exact this
    · by_contra hne
      exact lt_irrefl _ (hpages' next hne)

/-- The same store with one more page allocated. -/
def lift (st : BTree.Store) : BTree.Store := { st with allocated := st.allocated + 1 }

/-- **Once page 0 is gone the counter is a supply of page ids.** -/
theorem indexStep_lift {Pc : Type} (M : BTree.Machine Pc) (st : BTree.Store) (pc : Pc) :
    indexStep M (lift st, pc) = (lift (st.step .count M pc).1, (st.step .count M pc).2) := by
  unfold indexStep BTree.Store.step
  dsimp only
  cases M.await pc <;> rfl

theorem index_run {Pc : Type} {M : BTree.Machine Pc} {st : BTree.Store} {pc : Pc} {y : BTree.Store × Pc}
    (h : ReflTransGen (fun x y => y = indexStep M x) (lift st, pc) y) :
    ∃ st', y.1 = lift st' ∧ ReflTransGen (fun x y => y = x.1.step .count M x.2) (st, pc) (st', y.2) := by
  induction h with
  | refl => exact ⟨st, rfl, .refl⟩
  | @tail y z _ hstep ih =>
    obtain ⟨st', hst', hrun⟩ := ih
    have hy : y = (lift st', y.2) := by rw [← hst']
    rw [hstep, hy, indexStep_lift]
    exact ⟨_, rfl, hrun.tail rfl⟩

theorem index_run_of {Pc : Type} {M : BTree.Machine Pc} {st st' : BTree.Store} {pc pc' : Pc}
    (h : ReflTransGen (fun x y => y = x.1.step .count M x.2) (st, pc) (st', pc')) :
    ReflTransGen (fun x y => y = indexStep M x) (lift st, pc) (lift st', pc') := by
  generalize hx : (st', pc') = x at h
  have hx' : (lift st', pc') = (lift x.1, x.2) := by rw [← hx]
  rw [hx']
  clear hx hx'
  induction h with
  | refl => exact .refl
  | tail _ hstep ih =>
    refine ih.tail ?_
    rw [hstep, indexStep_lift]

/-! ### Nothing is lost after page 0 -/

/-- A tree at rest stays one when pages are allocated for other files. -/
theorem represents_mono {st : BTree.Store} {n : ℕ} (h : st.Represents .count m) (hn : st.allocated ≤ n) :
    BTree.Store.Represents .count { st with allocated := n } m := by
  obtain ⟨F, hrests, hbinds⟩ := h
  exact ⟨F, ⟨hrests.tree, fun i hi => hrests.fresh i (hn.trans hi)⟩, hbinds⟩

/-- The database after page 0 is allocated: every file is in order, with everything that was
inserted. -/
structure Good (db : Database) (l : List (Call × Reply)) : Prop where
  pos : 1 ≤ db.nextLpageId
  heap : ∀ file, ∃ c, (db.heap file).Holds c ∧
    (∀ q, (db.heap file).page q ≠ none → q < db.nextLpageId) ∧
    ∀ txn tuple rid, (.heapInsert file txn tuple, .rid (.ok rid)) ∈ l →
      Heap.HasVersion c rid ⟨txn.id, 0, tuple⟩
  index : ∀ file, ∃ m, BTree.Store.Represents .count
      ⟨(db.index file).page, (db.index file).root, db.nextLpageId - 1⟩ m ∧
    ∀ key rid, (.indexInsert file key rid, .unit (.ok ())) ∈ l →
      m.lookup (BTree.keyFromBytes key) = some rid

namespace Good

theorem indexStore_eq (h : Good db l) (file : FileId) : db.indexStore file =
    lift ⟨(db.index file).page, (db.index file).root, db.nextLpageId - 1⟩ := by
  have hpos := h.pos
  rw [indexStore, lift]
  congr 1
  exact (Nat.sub_add_cancel hpos).symm

theorem kept (h : Good db l) : Kept db l where
  heap file txn tuple rid hmem := by
    obtain ⟨c, hc, -, hall⟩ := h.heap file
    have hver := hall txn tuple rid hmem
    have hvis : Heap.passes txn.id 0 txn = true := by
      rw [Heap.passes]
      cases txn.isolation <;> simp
    refine ⟨hc.shows_iff.2 ⟨_, hver, hvis, rfl⟩, ?_⟩
    obtain ⟨ts, hts, -⟩ := hver
    refine ⟨?_, (hc.chain.page_of_mem hts).1⟩
    have hchain := hc.chain
    rcases c with _ | ⟨x, c⟩
    · cases hts
    · rw [hchain.1]
      exact hchain.2.1
  index file key rid hmem := by
    obtain ⟨m, hm, hall⟩ := h.index file
    have hlook := hall key rid hmem
    have hget := hm.get (BTree.keyFromBytes_lt key)
    rw [BTree.Bindings.answer, hlook] at hget
    refine ⟨⟨rfl, ?_⟩, fun hroot => ?_⟩
    · rw [h.indexStore_eq]
      exact index_run_of hget.2
    · obtain ⟨F, hrests, hbinds⟩ := hm
      obtain ⟨p, a, b, hp, -⟩ := (hbinds _ _).2 hlook
      rw [hrests.tree.empty hroot p] at hp
      cases hp

/-- An insert into a heap file keeps the database good. -/
theorem exec_heapInsert (h : Good db l) {st : Heap.Store} {next : LPageId} {r : Except Heap.Error RecordId}
    (hrun : ReflTransGen (fun x y => y = heapStep txn tuple x) ((db.heap file, db.nextLpageId), .start)
      ((st, next), .done r)) (hnext : next ≤ 2 ^ 32) :
    Good { db with heap := Function.update db.heap file st, nextLpageId := next }
      ((.heapInsert file txn tuple, .rid r) :: l) := by
  obtain ⟨c, hc, hpages, hall⟩ := h.heap file
  obtain ⟨hle, hrest⟩ := heap_run hrun h.pos hpages
  obtain ⟨hpages', hrun'⟩ := hrest hnext
  refine ⟨h.pos.trans hle, fun file' => ?_, fun file' => ?_⟩
  · rcases eq_or_ne file' file with rfl | hfile
    · dsimp only
      rw [Function.update_self]
      rcases Heap.Insert.returns_cases hc hrun' with ⟨rid, rfl, c', hst, hadd, -⟩ | ⟨e, rfl, -, hst, -⟩
      · rw [Heap.Version.bytes_new] at hadd
        refine ⟨c', hst, hpages', fun txn' tuple' rid' hmem => ?_⟩
        rw [Heap.HasVersion, hadd.has_iff hc.nodup]
        rcases List.mem_cons.1 hmem with heq | hmem
        · cases heq
          rw [if_pos rfl]
        · have hver := hall _ _ _ hmem
          rw [if_neg]
          · exact hver
          · rintro rfl
            exact hadd.not_has hc.nodup hver
      · refine ⟨c, hst, hpages', fun txn' tuple' rid' hmem => ?_⟩
        rcases List.mem_cons.1 hmem with heq | hmem
        · cases heq
        · exact hall _ _ _ hmem
    · obtain ⟨c', hc', hp', hall'⟩ := h.heap file'
      dsimp only
      rw [Function.update_of_ne hfile]
      refine ⟨c', hc', fun q hq => (hp' q hq).trans_le hle, fun txn' tuple' rid' hmem => ?_⟩
      rcases List.mem_cons.1 hmem with heq | hmem
      · cases heq
        exact absurd rfl hfile
      · exact hall' _ _ _ hmem
  · obtain ⟨m, hm, hall'⟩ := h.index file'
    refine ⟨m, represents_mono hm (Nat.sub_le_sub_right hle 1), fun key rid hmem => ?_⟩
    rcases List.mem_cons.1 hmem with heq | hmem
    · cases heq
    · exact hall' _ _ hmem

/-- An insert into an index file keeps the database good. -/
theorem exec_indexInsert (h : Good db l) {st : BTree.Store} {r : Except BTree.Error Unit}
    (hrun : ReflTransGen (fun x y => y = indexStep (BTree.Insert.machine (BTree.keyFromBytes key) rid) x)
      (db.indexStore file, .start) (st, .done r)) :
    Good { db with index := Function.update db.index file st.view, nextLpageId := st.allocated }
      ((.indexInsert file key rid, .unit r) :: l) := by
  obtain ⟨m, hm, hall⟩ := h.index file
  rw [h.indexStore_eq] at hrun
  obtain ⟨st', rfl, hrun'⟩ := index_run hrun
  have hle : db.nextLpageId - 1 ≤ st'.allocated := BTree.Store.allocated_le hrun'
  have hexec : BTree.Store.Exec .count ⟨(db.index file).page, (db.index file).root, db.nextLpageId - 1⟩
      (.insert key rid) st' (.unit r) := ⟨rfl, hrun'⟩
  obtain ⟨st₂, r₂, hexec₂, hans, hrep⟩ := hm.exec (.insert key rid)
  obtain ⟨rfl, rfl⟩ := hexec.unique hexec₂
  have hmono : db.nextLpageId ≤ st'.allocated + 1 := Nat.sub_le_iff_le_add.1 hle
  refine ⟨Nat.le_add_left .., fun file' => ?_, fun file' => ?_⟩
  · obtain ⟨c, hc, hpages, hall'⟩ := h.heap file'
    refine ⟨c, hc, fun q hq => (hpages q hq).trans_le hmono, fun txn tuple rid' hmem => ?_⟩
    rcases List.mem_cons.1 hmem with heq | hmem
    · cases heq
    · exact hall' _ _ _ hmem
  · rcases eq_or_ne file' file with rfl | hfile
    · dsimp only
      rw [Function.update_self]
      refine ⟨_, hrep, fun key' rid' hmem => ?_⟩
      rw [BTree.Bindings.after]
      rcases List.mem_cons.1 hmem with heq | hmem
      · cases heq
        rw [if_neg hans, Finmap.lookup_insert]
      · have hlook := hall _ _ hmem
        split_ifs with hin
        · exact hlook
        · rw [Finmap.lookup_insert_of_ne]
          · exact hlook
          · intro heq
            exact hin (heq ▸ Finmap.mem_of_lookup_eq_some hlook)
    · obtain ⟨m', hm', hall'⟩ := h.index file'
      dsimp only
      rw [Function.update_of_ne hfile]
      refine ⟨m', represents_mono hm' hle, fun key' rid' hmem => ?_⟩
      rcases List.mem_cons.1 hmem with heq | hmem
      · cases heq
        exact absurd rfl hfile
      · exact hall' _ _ hmem

/-- A call that inserts nothing. -/
theorem cons (h : Good db l) (hheap : ∀ file txn tuple rid,
    (c, r) ≠ (.heapInsert file txn tuple, .rid (.ok rid)))
    (hindex : ∀ file key rid, (c, r) ≠ (.indexInsert file key rid, .unit (.ok ()))) :
    Good db ((c, r) :: l) where
  pos := h.pos
  heap file := by
    obtain ⟨c', hc', hpages, hall⟩ := h.heap file
    exact ⟨c', hc', hpages, fun txn tuple rid hmem =>
      hall _ _ _ ((List.mem_cons.1 hmem).resolve_left (hheap _ _ _ _).symm)⟩
  index file := by
    obtain ⟨m, hm, hall⟩ := h.index file
    exact ⟨m, hm, fun key rid hmem =>
      hall _ _ ((List.mem_cons.1 hmem).resolve_left (hindex _ _ _).symm)⟩

/-- **Every operation keeps the database good.** -/
theorem exec (h : Good db l) (hexec : db.Exec c db' r) : Good db' ((c, r) :: l) := by
  cases c with
  | heapInsert file txn tuple =>
    cases r with
    | rid r =>
      obtain ⟨st, next, hrun, hnext, rfl⟩ := hexec
      exact h.exec_heapInsert hrun hnext
    | _ => exact hexec.elim
  | heapScan file txn =>
    cases r with
    | rows items =>
      obtain ⟨rfl, -⟩ := hexec
      exact h.cons nofun nofun
    | _ => exact hexec.elim
  | indexInsert file key rid =>
    cases r with
    | unit r =>
      obtain ⟨st, hrun, -, rfl⟩ := hexec
      exact h.exec_indexInsert hrun
    | _ => exact hexec.elim
  | indexGet file key =>
    cases r with
    | record r =>
      obtain ⟨rfl, -⟩ := hexec
      exact h.cons nofun nofun
    | _ => exact hexec.elim

end Good

/-! ### The first insert -/

/-- An insert into an empty heap file with page 0. -/
theorem heap_first {st : Heap.Store} {next : LPageId} {r : Except Heap.Error RecordId}
    (hrun : ReflTransGen (fun x y => y = heapStep txn tuple x) ((.empty, 0), .start)
      ((st, next), .done r)) :
    (tuple.length ≤ Heap.maxTupleSize → r = .ok ⟨0, 0⟩ ∧ st.firstPage = 0) ∧
    (Heap.maxTupleSize < tuple.length → (∃ e, r = .error e) ∧ next = 1 ∧ st.Holds [] ∧
      ∀ q, st.page q ≠ none → q < 1) := by
  have hstart : heapStep txn tuple ((.empty, 0), .start) = ((.empty, 0), .alloc 0) := rfl
  have hend : ∀ {x : (Heap.Store × LPageId) × Heap.InsertPc} {r'}, x.2 = .done r' →
      heapStep txn tuple x = x := by
    rintro ⟨x, pc⟩ r' rfl
    rfl
  have halloc : heapStep txn tuple ((.empty, 0), .alloc 0) =
      (((Heap.Store.empty.newPage 0).apply (Heap.Insert.onNewPage (Heap.makeHeader txn.id ++ tuple) 0 0),
        1), (Heap.Insert.onNewPage (Heap.makeHeader txn.id ++ tuple) 0 0).pc) := rfl
  constructor
  · intro hlen
    obtain ⟨p, hp, -⟩ := Heap.Insert.onNewPage_eq txn 0 hlen
      (by decide : 0 < 2 ^ 32)
    rw [hp] at halloc
    have hlink : heapStep txn tuple (heapStep txn tuple (heapStep txn tuple ((.empty, 0), .alloc 0))) =
        heapStep txn tuple (heapStep txn tuple ((.empty, 0), .alloc 0)) := by
      rw [halloc]
      rfl
    have heq := ended_unique (hend rfl) hlink hrun (.head hstart.symm (.head rfl (.single rfl)))
    rw [halloc] at heq
    cases heq
    exact ⟨rfl, rfl⟩
  · intro hlen
    rw [Heap.Insert.onNewPage_long _ _ _ hlen] at halloc
    have heq := ended_unique (hend rfl) (hend rfl) hrun (.head hstart.symm (.single halloc.symm))
    cases heq
    refine ⟨⟨_, rfl⟩, rfl, ⟨rfl, List.nodup_nil, by decide⟩, fun q hq => ?_⟩
    by_contra hge
    refine hq ?_
    have hne : q ≠ 0 := by
      rintro rfl
      exact hge Nat.one_pos
    exact (Heap.Store.page_put_of_ne hne).trans (Heap.Store.page_put_of_ne hne)

/-- An insert into an empty index file with page 0. -/
theorem index_first {st : BTree.Store} {r : Except BTree.Error Unit} {k : ℕ}
    (hrun : ReflTransGen (fun x y => y = indexStep (BTree.Insert.machine k rid) x)
      (init.indexStore file, .start) (st, .done r)) : r = .ok () ∧ st.root = 0 := by
  obtain ⟨p, hp⟩ : ∃ p, (BTreeLeafPage.init 0).insertEntry k rid.pageId rid.slotId = .ok p :=
    ⟨_, BTreeLeafPage.insertEntry_of_absent List.Pairwise.nil (by decide) nofun⟩
  have hfirst : BTree.Insert.firstLeaf k rid 0 = ⟨[⟨0, .leaf p, true⟩], none, .setRoot 0⟩ := by
    rw [BTree.Insert.firstLeaf, hp]
  have halloc : indexStep (BTree.Insert.machine k rid) (init.indexStore file, .allocFirst) =
      (BTree.Store.apply _ (BTree.Insert.firstLeaf k rid 0), (BTree.Insert.firstLeaf k rid 0).pc) := rfl
  rw [hfirst] at halloc
  have heq := ended_unique (f := indexStep (BTree.Insert.machine k rid)) rfl rfl hrun
    (.head rfl (.head halloc.symm (.single rfl)))
  cases heq
  exact ⟨rfl, rfl⟩

/-- A call that inserts nothing leaves the empty database empty. -/
theorem Exec.init_eq (hexec : init.Exec c db' r)
    (hc : (∃ file txn, c = .heapScan file txn) ∨ ∃ file key, c = .indexGet file key) : db' = init := by
  rcases hc with ⟨file, txn, rfl⟩ | ⟨file, key, rfl⟩
  · cases r with
    | rows items => exact hexec.1
    | _ => exact hexec.elim
  · cases r with
    | record r => exact hexec.1
    | _ => exact hexec.elim

/-- The first insert, if its tuple is too long, takes page 0 and changes nothing else. -/
theorem good_first (hexec : init.Exec (.heapInsert file txn tuple) db' r)
    (hlen : Heap.maxTupleSize < tuple.length) : Good db' [(.heapInsert file txn tuple, r)] := by
  cases r with
  | rid r =>
    obtain ⟨st, next, hrun, -, rfl⟩ := hexec
    obtain ⟨⟨e, rfl⟩, rfl, hst, hpages⟩ := (heap_first hrun).2 hlen
    have hnone : ∀ file' txn' tuple' rid, (Call.heapInsert file' txn' tuple', Reply.rid (.ok rid)) ∉
        [(.heapInsert file txn tuple, .rid (.error e))] := by
      rintro file' txn' tuple' rid hmem
      cases List.mem_singleton.1 hmem
    refine ⟨le_rfl, fun file' => ?_, fun file' => ⟨∅, BTree.Store.represents_empty, ?_⟩⟩
    · rcases eq_or_ne file' file with rfl | hfile
      · refine ⟨[], ?_, ?_, fun _ _ _ hmem => absurd hmem (hnone _ _ _ _)⟩ <;>
          dsimp only <;> rw [Function.update_self]
        · exact hst
        · exact hpages
      · refine ⟨[], ?_, ?_, fun _ _ _ hmem => absurd hmem (hnone _ _ _ _)⟩ <;>
          dsimp only <;> rw [Function.update_of_ne hfile]
        · exact Heap.Store.Holds.empty
        · exact fun q hq => absurd rfl hq
    · intro key rid hmem
      cases List.mem_singleton.1 hmem
  | _ => exact hexec.elim

/-- A first insert that is not too long loses what it inserts. -/
theorem not_kept_first (hexec : init.Exec c db' r) (hc : (∃ file txn tuple, c = .heapInsert file txn tuple ∧
    tuple.length ≤ Heap.maxTupleSize) ∨ ∃ file key rid, c = .indexInsert file key rid) :
    ¬ Kept db' [(c, r)] := by
  rintro ⟨hheap, hindex⟩
  rcases hc with ⟨file, txn, tuple, rfl, hlen⟩ | ⟨file, key, rid, rfl⟩
  · cases r with
    | rid r =>
      obtain ⟨st, next, hrun, -, rfl⟩ := hexec
      obtain ⟨rfl, hfirst⟩ := (heap_first hrun).1 hlen
      obtain ⟨⟨items, hdrains, hmem⟩, -⟩ := hheap file txn tuple _ List.mem_cons_self
      dsimp only at hdrains
      rw [Function.update_self] at hdrains
      -- the scan ends before the first page
      have hchain : Heap.Chain st.page (Heap.scan st txn).currentPage [] := hfirst
      obtain rfl := hdrains.unique (Heap.drains_chain hchain le_rfl)
      cases hmem
    | _ => exact hexec.elim
  · cases r with
    | unit r =>
      obtain ⟨st, hrun, -, rfl⟩ := hexec
      obtain ⟨rfl, hroot⟩ := index_first hrun
      obtain ⟨⟨-, hget⟩, -⟩ := hindex file key rid List.mem_cons_self
      rw [indexStore] at hget
      dsimp only at hget
      rw [Function.update_self] at hget
      have hmiss : indexStep (BTree.Get.machine (BTree.keyFromBytes key))
          (⟨st.view.page, st.view.root, st.allocated⟩, .start) =
          (⟨st.view.page, st.view.root, st.allocated⟩, .done (.error .tupleNonExistent)) := by
        rw [indexStep]
        simp only [BTree.Get.machine, BTree.Get.await, BTree.Get.resume, BTree.Store.view, hroot]
        rfl
      have heq := ended_unique (f := indexStep (BTree.Get.machine (BTree.keyFromBytes key))) rfl rfl hget
        (.single hmiss.symm)
      cases heq
    | _ => exact hexec.elim

/-- What comes after a good start is good. -/
theorem Good.trace (h : Good db l) {l' : List (Call × Reply)} (htrace : Trace db l' db') :
    ∃ l'', Good db' l'' ∧ ∀ x, x ∈ l ∨ x ∈ l' → x ∈ l'' := by
  induction htrace generalizing l with
  | nil db => exact ⟨l, h, fun x hx => hx.resolve_right List.not_mem_nil⟩
  | cons hexec _ ih =>
    obtain ⟨l'', hgood, hmem⟩ := ih (h.exec hexec)
    refine ⟨l'', hgood, fun x hx => hmem x ?_⟩
    rcases hx with hx | hx
    · exact Or.inl (List.mem_cons_of_mem _ hx)
    · rcases List.mem_cons.1 hx with rfl | hx
      · exact Or.inl List.mem_cons_self
      · exact Or.inr hx

theorem Kept.mono {l' : List (Call × Reply)} (h : Kept db l') (hl : ∀ x ∈ l, x ∈ l') : Kept db l :=
  ⟨fun _ _ _ _ hmem => h.heap _ _ _ _ (hl _ hmem), fun _ _ _ hmem => h.index _ _ _ (hl _ hmem)⟩

/-- A run whose first insert is too long keeps everything. -/
theorem kept_of_firstTooLong (htrace : Trace init l db) (h : FirstTooLong (l.map Prod.fst)) :
    Kept db l := by
  induction l with
  | nil => exact ⟨nofun, nofun⟩
  | cons x l ih =>
    cases htrace with
    | @cons _ db₁ _ c r _ hexec hrest =>
      cases c with
      | heapInsert file txn tuple =>
        obtain ⟨l'', hgood, hmem⟩ := (good_first hexec h).trace hrest
        refine hgood.kept.mono fun x hx => hmem x ?_
        rcases List.mem_cons.1 hx with rfl | hx
        · exact Or.inl List.mem_cons_self
        · exact Or.inr hx
      | indexInsert file key rid => exact h.elim
      | heapScan file txn =>
        obtain rfl := hexec.init_eq (Or.inl ⟨_, _, rfl⟩)
        have hkept := ih hrest h
        exact ⟨fun _ _ _ _ hmem => hkept.heap _ _ _ _ ((List.mem_cons.1 hmem).resolve_left nofun),
          fun _ _ _ hmem => hkept.index _ _ _ ((List.mem_cons.1 hmem).resolve_left nofun)⟩
      | indexGet file key =>
        obtain rfl := hexec.init_eq (Or.inr ⟨_, _, rfl⟩)
        have hkept := ih hrest h
        exact ⟨fun _ _ _ _ hmem => hkept.heap _ _ _ _ ((List.mem_cons.1 hmem).resolve_left nofun),
          fun _ _ _ hmem => hkept.index _ _ _ ((List.mem_cons.1 hmem).resolve_left nofun)⟩

/-- Any other run loses something. -/
theorem exists_not_kept (htrace : Trace init l db) (h : ¬ FirstTooLong (l.map Prod.fst)) :
    ∃ l₁ l₂ db₁, l = l₁ ++ l₂ ∧ Trace init l₁ db₁ ∧ ¬ Kept db₁ l₁ := by
  induction l with
  | nil => exact absurd trivial h
  | cons x l ih =>
    cases htrace with
    | @cons _ db₁ _ c r _ hexec hrest =>
      have hskip : db₁ = init → ¬ FirstTooLong (l.map Prod.fst) →
          ∃ l₁ l₂ db₁, (c, r) :: l = l₁ ++ l₂ ∧ Trace init l₁ db₁ ∧ ¬ Kept db₁ l₁ := by
        rintro rfl hl
        obtain ⟨l₁, l₂, db₂, rfl, htrace, hnot⟩ := ih hrest hl
        exact ⟨(c, r) :: l₁, l₂, db₂, rfl, .cons hexec htrace, fun hkept =>
          hnot (hkept.mono fun x hx => List.mem_cons_of_mem _ hx)⟩
      have hfirst : ¬ Kept db₁ [(c, r)] →
          ∃ l₁ l₂ db₁, (c, r) :: l = l₁ ++ l₂ ∧ Trace init l₁ db₁ ∧ ¬ Kept db₁ l₁ := fun hnot =>
        ⟨[(c, r)], l, db₁, rfl, .cons hexec (.nil db₁), hnot⟩
      cases c with
      | heapInsert file txn tuple =>
        exact hfirst (not_kept_first hexec (Or.inl ⟨_, _, _, rfl, not_lt.1 h⟩))
      | indexInsert file key rid => exact hfirst (not_kept_first hexec (Or.inr ⟨_, _, _, rfl⟩))
      | heapScan file txn => exact hskip (hexec.init_eq (Or.inl ⟨_, _, rfl⟩)) h
      | indexGet file key => exact hskip (hexec.init_eq (Or.inr ⟨_, _, rfl⟩)) h

theorem FirstTooLong.of_append {l₁ l₂ : List Call} (h : FirstTooLong (l₁ ++ l₂)) : FirstTooLong l₁ := by
  induction l₁ with
  | nil => trivial
  | cons c l₁ ih =>
    cases c with
    | heapInsert file txn tuple => exact h
    | indexInsert file key rid => exact h
    | heapScan file txn => exact ih h
    | indexGet file key => exact ih h

/-- **Nothing is lost exactly if the first insert takes page 0 and fails.** -/
theorem inserts_kept_iff (l : List (Call × Reply)) (db : Database) (htrace : Trace init l db) :
    Sound l ↔ FirstTooLong (l.map Prod.fst) := by
  constructor
  · intro hsound
    by_contra hlong
    obtain ⟨l₁, l₂, db₁, hl, htrace₁, hnot⟩ := exists_not_kept htrace hlong
    exact hnot (hsound l₁ l₂ db₁ hl htrace₁)
  · rintro hlong l₁ l₂ db₁ rfl htrace₁
    rw [List.map_append] at hlong
    exact kept_of_firstTooLong htrace₁ hlong.of_append

/-- An insert of one byte into an empty database, and what it returns. -/
theorem exec_first : ∃ db r, init.Exec (.heapInsert 0 ⟨1, .snapshot⟩ [7]) db r := by
  obtain ⟨p, hp, -⟩ := Heap.Insert.onNewPage_eq ⟨1, .snapshot⟩ 0
    (by decide : ([7] : List UInt8).length ≤ Heap.maxTupleSize) (by decide : 0 < 2 ^ 32)
  have halloc : heapStep ⟨1, .snapshot⟩ [7] ((.empty, 0), .alloc 0) =
      ((((Heap.Store.empty.newPage 0).put (some (0, p))), 1), .link 0 0 0) := by
    rw [heapStep, Heap.Insert.step]
    simp only [Heap.Insert.await, Heap.Insert.resume]
    rw [hp]
    rfl
  exact ⟨_, .rid (.ok ⟨0, 0⟩), _, 1, .head rfl (.head halloc.symm (.single rfl)), by decide, rfl⟩

/-- A run whose only insert is too long. -/
theorem inserts_kept_iff_long : ∃ l db, Trace init l db ∧ l ≠ [] ∧ Sound l := by
  have hlen : Heap.maxTupleSize < (List.replicate 4053 (7 : UInt8)).length := by
    rw [List.length_replicate]
    decide
  have halloc : heapStep ⟨1, .snapshot⟩ (List.replicate 4053 7) ((.empty, 0), .alloc 0) =
      (((Heap.Store.empty.newPage 0).put (some (0, HeapPage.zeroed.init.setNextPage 0)), 1),
        .done (.error (.pageCorruption "insert into fresh page failed"))) := by
    have hnew := Heap.Insert.onNewPage_long ⟨1, .snapshot⟩ 0 0 hlen
    rw [heapStep, Heap.Insert.step]
    simp only [Heap.Insert.await, Heap.Insert.resume]
    rw [hnew]
    rfl
  have hexec : init.Exec (.heapInsert 0 ⟨1, .snapshot⟩ (List.replicate 4053 7)) _
      (.rid (.error (.pageCorruption "insert into fresh page failed"))) :=
    ⟨_, 1, .head rfl (.single halloc.symm), by decide, rfl⟩
  have htrace := Trace.cons hexec (.nil _)
  exact ⟨_, _, htrace, by rintro ⟨⟩, (inserts_kept_iff _ _ htrace).2 hlen⟩

/-- **The first tuple is lost.** -/
theorem first_tuple_lost : ¬ ∀ (l : List (Call × Reply)) (db : Database), Trace init l db → Sound l := by
  intro hall
  obtain ⟨db, r, hexec⟩ := exec_first
  have htrace := Trace.cons hexec (.nil db)
  exact not_kept_first hexec (Or.inl ⟨_, _, _, rfl, by decide⟩) (hall _ db htrace _ [] db rfl htrace)

end Database
end Abdb
