/-
# Concurrent inserts into a heap file

Any number of inserts on one heap file, taking turns at their await points.  An insert that
finds no space reads the first page at its start and prepends its new page at its end; if
another has prepended one in between, that one is overwritten in the header and its tuples
are gone (`tuple_lost`).  In a run where no insert links on an outdated first page all
tuples are kept (`tuples_kept`).
-/

import Abdb.Heap.Snapshot

namespace Abdb
namespace Heap

open Relation

/-- An insert in progress. -/
structure Task where
  txn : Txn
  tuple : List UInt8
  pc : InsertPc

namespace Task

def full (t : Task) : List UInt8 := makeHeader t.txn.id ++ t.tuple

end Task

/-- A store and the inserts that work on it. -/
structure Sys (ι : Type) where
  store : Store
  task : ι → Task

namespace Sys

variable {ι : Type} [DecidableEq ι]

/-- A task can go on: it has not returned, the page it awaits is not latched, and the id is
fresh if it awaits a new page. -/
def Enabled (σ : Sys ι) (i : ι) (newId : LPageId) : Prop :=
  match Insert.await (σ.task i).pc with
  | .nothing => False
  | .page p _ => ∀ j, p ∉ Insert.holds (σ.task j).pc
  | .newPage => σ.store.Fresh newId
  | .header => True

/-- Task `i` runs to its next await point. -/
def step (σ : Sys ι) (i : ι) (newId : LPageId) : Sys ι :=
  let y := Insert.step (σ.task i).txn (σ.task i).tuple newId σ.store (σ.task i).pc
  ⟨y.1, Function.update σ.task i { σ.task i with pc := y.2 }⟩

/-- A run whose steps all meet a condition on the state and the task that moves. -/
def Run (C : Sys ι → ι → Prop) : Sys ι → Sys ι → Prop :=
  ReflTransGen fun σ σ' => ∃ i newId, σ.Enabled i newId ∧ C σ i ∧ σ' = σ.step i newId

/-- The inserts at their start. -/
def inserting (st : Store) (txn : ι → Txn) (tuple : ι → List UInt8) : Sys ι :=
  ⟨st, fun i => ⟨txn i, tuple i, .start⟩⟩

/-- An insert that links a new page finds the first page that it has read. -/
def HeadKept (σ : Sys ι) (i : ι) : Prop :=
  ∀ f n s, (σ.task i).pc = .link f n s → f = σ.store.firstPage

/-- Once all inserts have returned `Ok`, they have different record ids, none of which was
taken, and every scan yields what it yielded before and the tuples that it may see, each
once. -/
def NothingLost (st : Store) (σ : Sys ι) : Prop :=
  (∀ i, ∃ rid, (σ.task i).pc = .done (.ok rid)) → ∃ rid : ι → RecordId,
    (∀ i, (σ.task i).pc = .done (.ok (rid i))) ∧ Function.Injective rid ∧
    ∀ t : Txn, (∀ i d, ¬ st.Shows t d (rid i)) ∧ ∃ rows : List (List UInt8 × RecordId),
      Drains σ.store (.loop (scan σ.store t)) (rows.map .ok) ∧ (rows.map Prod.snd).Nodup ∧
      ∀ d r, (d, r) ∈ rows ↔ st.Shows t d r ∨
        ∃ i, r = rid i ∧ d = (σ.task i).tuple ∧ passes (σ.task i).txn.id 0 t = true

end Sys

variable {ι : Type} [DecidableEq ι] {σ σ' : Sys ι} {c c' c₀ : Contents} {i j : ι} {newId : LPageId}
  {st : Store} {txn : ι → Txn} {tuple : ι → List UInt8}

/-- The contents of the file while inserts are at work: those at the start and the tuples of
the inserts that have returned. -/
structure Inv (c₀ : Contents) (σ : Sys ι) (c : Contents) : Prop where
  holds : σ.store.Holds c
  ok : ∀ i, Insert.Ok (σ.task i).full σ.store c (σ.task i).pc
  apart : ∀ i j f s f' s' n, (σ.task i).pc = .link f n s → (σ.task j).pc = .link f' n s' → i = j
  has : ∀ rid t, Has c rid t ↔ Has c₀ rid t ∨ ∃ i, (σ.task i).pc = .done (.ok rid) ∧ t = (σ.task i).full
  new : ∀ i rid t, (σ.task i).pc = .done (.ok rid) → ¬ Has c₀ rid t
  inj : ∀ i j rid, (σ.task i).pc = .done (.ok rid) → (σ.task j).pc = .done (.ok rid) → i = j

omit [DecidableEq ι] in
theorem Inv.start (h : st.Holds c) : Inv c (Sys.inserting st txn tuple) c where
  holds := h
  ok _ := trivial
  apart _ _ _ _ _ _ _ h _ := nomatch h
  has _ _ := ⟨Or.inl, fun hor => hor.resolve_right fun ⟨_, h, _⟩ => nomatch h⟩
  new _ _ _ h := nomatch h
  inj _ _ _ h _ := nomatch h

/-- An insert does not notice what the others do to other pages. -/
theorem Insert.Ok.frame {full : List UInt8} {st st' : Store} {pc : InsertPc} (h : Ok full st c pc)
    (hids : ∀ q ∈ ids c, q ∈ ids c')
    (hlink : ∀ f n s, pc = .link f n s → n ∉ ids c' ∧ st'.page n = st.page n) : Ok full st' c' pc := by
  cases pc with
  | walk f q => exact ⟨hids _ h.1, h.2⟩
  | link f n s =>
    obtain ⟨-, h0, hsmall, hs, p, hp, hrest⟩ := h
    obtain ⟨hnot, hsame⟩ := hlink _ _ _ rfl
    exact ⟨hnot, h0, hsmall, hs, p, hsame.trans hp, hrest⟩
  | _ => exact h

namespace Inv

omit [DecidableEq ι] in
theorem link_page (h : Inv c₀ σ c) {f n : LPageId} {s : SlotId} (hpc : (σ.task i).pc = .link f n s) :
    n ∉ ids c ∧ σ.store.page n ≠ none := by
  have hok := h.ok i
  rw [hpc] at hok
  obtain ⟨hnot, -, -, -, p, hp, -⟩ := hok
  exact ⟨hnot, by rw [hp]; exact Option.some_ne_none p⟩

/-- A step that leaves the file as it is. -/
theorem quiet (h : Inv c₀ σ c) {st' : Store} {pc' : InsertPc}
    (hfresh : Insert.await (σ.task i).pc = .newPage → σ.store.Fresh newId)
    (hnot : ∀ r, (σ.task i).pc ≠ .done r)
    (hq : Insert.Quiet (σ.task i).full c newId σ.store (σ.task i).pc st' pc') :
    Inv c₀ ⟨st', Function.update σ.task i { σ.task i with pc := pc' }⟩ c := by
  have hpage : ∀ q, σ.store.page q ≠ none → st'.page q = σ.store.page q := by
    intro q hne
    refine (hq.page q).resolve_right ?_
    rintro ⟨hawait, rfl⟩
    exact hne (hfresh hawait).2.2
  have hnotok : ∀ rid, pc' ≠ .done (.ok rid) := by
    intro rid hpc
    obtain ⟨-, e, he⟩ := hq.failed _ hpc
    cases he
  have hfull : ∀ j, (Function.update σ.task i { σ.task i with pc := pc' } j).full = (σ.task j).full := by
    intro j
    rcases eq_or_ne j i with rfl | hj
    · rw [Function.update_self]
      rfl
    · rw [Function.update_of_ne hj]
  have hdone : ∀ j rid, (Function.update σ.task i { σ.task i with pc := pc' } j).pc = .done (.ok rid) ↔
      (σ.task j).pc = .done (.ok rid) := by
    intro j rid
    rcases eq_or_ne j i with rfl | hj
    · rw [Function.update_self]
      exact iff_of_false (hnotok rid) (hnot _)
    · rw [Function.update_of_ne hj]
  -- the page that a link is about is new, or was so before
  have hlink : ∀ f n s, pc' = .link f n s → ∀ j f' s', (σ.task j).pc = .link f' n s' → False := by
    intro f n s hpc j f' s' hj
    by_cases hawait : Insert.await (σ.task i).pc = .newPage
    · rcases (hq.made hawait).2 with ⟨f₁, s₁, rfl⟩ | ⟨r, rfl⟩
      · cases hpc
        exact (h.link_page hj).2 (hfresh hawait).2.2
      · cases hpc
    · exact (hq.same hawait).2.1 f n s hpc
  refine ⟨hq.holds, fun j => ?_, fun j k f s f' s' n hj hk => ?_, fun rid t => ?_, fun j rid t hj => ?_,
    fun j k rid hj hk => ?_⟩
  · dsimp only
    rw [hfull]
    rcases eq_or_ne j i with rfl | hj
    · rw [Function.update_self]
      exact hq.ok
    · rw [Function.update_of_ne hj]
      exact (h.ok j).frame (fun _ => id) fun f n s hpc =>
        ⟨(h.link_page hpc).1, hpage n (h.link_page hpc).2⟩
  · dsimp only at hj hk
    rcases eq_or_ne j i with rfl | hji <;> rcases eq_or_ne k j with rfl | hkj
    · rfl
    · rw [Function.update_self] at hj
      rw [Function.update_of_ne hkj] at hk
      exact (hlink _ _ _ hj _ _ _ hk).elim
    · rfl
    · rw [Function.update_of_ne hji] at hj
      rcases eq_or_ne k i with rfl | hki
      · rw [Function.update_self] at hk
        exact (hlink _ _ _ hk _ _ _ hj).elim
      · rw [Function.update_of_ne hki] at hk
        exact h.apart j k f s f' s' n hj hk
  · simp only [hdone, hfull]
    exact h.has rid t
  · exact h.new j rid t ((hdone j rid).1 hj)
  · exact h.inj j k rid ((hdone j rid).1 hj) ((hdone k rid).1 hk)

/-- A step that adds a tuple. -/
theorem adds (h : Inv c₀ σ c) {st' : Store} {rid : RecordId} (hnot : ∀ r, (σ.task i).pc ≠ .done r)
    (hadd : Insert.Adds (σ.task i).full c σ.store (σ.task i).pc st' rid c') :
    Inv c₀ ⟨st', Function.update σ.task i { σ.task i with pc := .done (.ok rid) }⟩ c' := by
  have hfull : ∀ j, (Function.update σ.task i { σ.task i with pc := .done (.ok rid) } j).full =
      (σ.task j).full := by
    intro j
    rcases eq_or_ne j i with rfl | hj
    · rw [Function.update_self]
      rfl
    · rw [Function.update_of_ne hj]
  have hdone : ∀ j r, (Function.update σ.task i { σ.task i with pc := .done (.ok rid) } j).pc =
      .done (.ok r) ↔ (j = i ∧ r = rid) ∨ (σ.task j).pc = .done (.ok r) := by
    intro j r
    rcases eq_or_ne j i with rfl | hj
    · rw [Function.update_self]
      simp only [InsertPc.done.injEq, Except.ok.injEq, true_and, hnot, or_false]
      exact eq_comm
    · rw [Function.update_of_ne hj]
      simp [hj]
  have hfree : ∀ t, ¬ Has c rid t := fun t => hadd.added.not_has h.holds.nodup
  have hno : ∀ j, (σ.task j).pc ≠ .done (.ok rid) := by
    intro j hj
    exact hfree _ ((h.has rid _).2 (Or.inr ⟨j, hj, rfl⟩))
  have hnew : ∀ j f n s, j ≠ i → (σ.task j).pc = .link f n s → n ∉ ids c' := by
    intro j f n s hji hj hmem
    rcases hadd.added.mem_ids.1 hmem with hmem | rfl
    · exact (h.link_page hj).1 hmem
    · rcases hadd.place with hmem | ⟨f', s', hi⟩
      · exact (h.link_page hj).1 hmem
      · exact hji (h.apart j i _ _ _ _ _ hj hi)
  refine ⟨hadd.holds, fun j => ?_, fun j k f s f' s' n hj hk => ?_, fun r t => ?_, fun j r t hj => ?_,
    fun j k r hj hk => ?_⟩
  · dsimp only
    rw [hfull]
    rcases eq_or_ne j i with rfl | hj
    · rw [Function.update_self]
      trivial
    · rw [Function.update_of_ne hj]
      exact (h.ok j).frame (fun q hq => hadd.added.mem_ids.2 (Or.inl hq)) fun f n s hpc =>
        ⟨hnew j f n s hj hpc, hadd.page n (h.link_page hpc).1⟩
  · dsimp only at hj hk
    rcases eq_or_ne j i with rfl | hji
    · rw [Function.update_self] at hj
      cases hj
    · rcases eq_or_ne k i with rfl | hki
      · rw [Function.update_self] at hk
        cases hk
      · rw [Function.update_of_ne hji] at hj
        rw [Function.update_of_ne hki] at hk
        exact h.apart j k f s f' s' n hj hk
  · rw [hadd.added.has_iff h.holds.nodup]
    simp only [hdone, hfull]
    split_ifs with hr
    · subst hr
      constructor
      · rintro rfl
        exact Or.inr ⟨i, Or.inl ⟨rfl, rfl⟩, rfl⟩
      · rintro (ht | ⟨j, ⟨rfl, -⟩ | hj, rfl⟩)
        · exact absurd ((h.has _ _).2 (Or.inl ht)) (hfree t)
        · rfl
        · exact absurd hj (hno j)
    · rw [h.has]
      simp only [hr, and_false, false_or]
  · rcases (hdone j r).1 hj with ⟨-, rfl⟩ | hj
    · exact fun ht => hfree t ((h.has _ _).2 (Or.inl ht))
    · exact h.new j r t hj
  · rcases (hdone j r).1 hj with ⟨rfl, rfl⟩ | hj'
    · rcases (hdone k _).1 hk with ⟨rfl, -⟩ | hk'
      · rfl
      · exact absurd hk' (hno k)
    · rcases (hdone k r).1 hk with ⟨rfl, rfl⟩ | hk'
      · exact absurd hj' (hno j)
      · exact h.inj j k r hj' hk'

/-- **One step** keeps the invariant, unless it links on an outdated first page. -/
theorem step (h : Inv c₀ σ c) (hen : σ.Enabled i newId) (hhead : σ.HeadKept i) :
    ∃ c', Inv c₀ (σ.step i newId) c' := by
  have hfresh : Insert.await (σ.task i).pc = .newPage → σ.store.Fresh newId := by
    intro hawait
    rw [Sys.Enabled, hawait] at hen
    exact hen
  have hnot : ∀ r, (σ.task i).pc ≠ .done r := by
    intro r hr
    rw [Sys.Enabled, hr] at hen
    exact hen
  rw [Sys.step]
  rcases Insert.step_cases newId h.holds (h.ok i) hhead hfresh with ⟨r, hr⟩ | ⟨st', pc', heq, hq⟩ |
      ⟨st', rid, c', heq, hadd⟩
  · exact absurd hr (hnot r)
  · rw [heq]
    exact ⟨c, h.quiet hfresh hnot hq⟩
  · rw [heq]
    exact ⟨c', h.adds hnot hadd⟩

theorem run (h : Inv c₀ σ c) (hrun : Sys.Run Sys.HeadKept σ σ') : ∃ c', Inv c₀ σ' c' := by
  induction hrun with
  | refl => exact ⟨c, h⟩
  | tail _ hstep ih =>
    obtain ⟨c', h'⟩ := ih
    obtain ⟨i, newId, hen, hhead, rfl⟩ := hstep
    exact h'.step hen hhead

end Inv

/-- **Interleaved inserts lose nothing** in a run where none links a new page to an outdated
first page. -/
theorem tuples_kept (st : Store) (txn : ι → Txn) (tuple : ι → List UInt8) (σ : Sys ι) (h : st.IsFile)
    (hrun : Sys.Run Sys.HeadKept (Sys.inserting st txn tuple) σ) : σ.NothingLost st := by
  obtain ⟨c₀, h₀⟩ := h
  obtain ⟨c, h⟩ := (Inv.start h₀).run hrun
  intro hdone
  choose rid hrid using hdone
  have hv : ∀ (i : ι) (v : Version), (σ.task i).full = v.bytes ↔ v = ⟨(σ.task i).txn.id, 0, (σ.task i).tuple⟩ := by
    intro i v
    rw [Task.full, Version.bytes_new, Version.bytes_inj, eq_comm]
  refine ⟨rid, hrid, fun i j hij => h.inj i j _ (hrid i) (hij ▸ hrid j), fun t => ⟨fun i d hshows => ?_,
    scanRows t c, h.holds.drains t, nodup_scanRows h.holds.nodup, fun d r => ?_⟩⟩
  · obtain ⟨v, hver, -⟩ := h₀.shows_iff.1 hshows
    exact h.new i _ _ (hrid i) hver
  · have hrow : (d, r) ∈ scanRows t c ↔ σ.store.Shows t d r := by
      constructor
      · exact fun hmem => ⟨_, h.holds.drains t, List.mem_map_of_mem hmem⟩
      · rintro ⟨items, hdrains, hmem⟩
        obtain rfl := hdrains.unique (h.holds.drains t)
        obtain ⟨row, hrow, heq⟩ := List.mem_map.1 hmem
        rwa [← Except.ok.inj heq]
    rw [hrow, h.holds.shows_iff, h₀.shows_iff]
    constructor
    · rintro ⟨v, hver, hvis, rfl⟩
      rcases (h.has _ _).1 hver with hver | ⟨i, hi, hfull⟩
      · exact Or.inl ⟨v, hver, hvis, rfl⟩
      · obtain rfl := (hv i v).1 hfull.symm
        exact Or.inr ⟨i, Except.ok.inj (InsertPc.done.inj (hi.symm.trans (hrid i))), rfl, hvis⟩
    · rintro (⟨v, hver, hvis, rfl⟩ | ⟨i, rfl, rfl, hvis⟩)
      · exact ⟨v, (h.has _ _).2 (Or.inl hver), hvis, rfl⟩
      · exact ⟨⟨_, 0, _⟩, (h.has _ _).2 (Or.inr ⟨i, hrid i, ((hv i _).2 rfl).symm⟩), hvis, rfl⟩

/-! ### Inserts of one tuple -/

/-- Inserts of the same tuple by one transaction, each at its await point. -/
def working (st : Store) (pc : ι → InsertPc) : Sys ι := ⟨st, fun i => ⟨⟨1, .snapshot⟩, [7], pc i⟩⟩

theorem working_step (i : ι) (newId : LPageId) (st : Store) (pc : ι → InsertPc) {st' : Store}
    {pc' : InsertPc}
    (h : Insert.step ⟨1, .snapshot⟩ [7] newId st (pc i) = (st', pc')) :
    (working st pc).step i newId = working st' (Function.update pc i pc') := by
  rw [Sys.step, working, working]
  dsimp only
  rw [h]
  congr 1
  funext j
  rcases eq_or_ne j i with rfl | hj
  · rw [Function.update_self, Function.update_self]
  · rw [Function.update_of_ne hj, Function.update_of_ne hj]

/-- The page of an insert that finds the list empty. -/
theorem exists_newPage (st : Store) (newId : LPageId) : ∃ p,
    Insert.step ⟨1, .snapshot⟩ [7] newId st (.alloc 0) =
      ((st.newPage newId).put (some (newId, p)), .link 0 newId 0) ∧
    p.Slotted [makeHeader 1 ++ [7]] ∧ p.nextPage = 0 := by
  obtain ⟨p, heq, hslotted, hnext⟩ := Insert.onNewPage_eq ⟨1, .snapshot⟩ newId
    (by decide : ([7] : List UInt8).length ≤ maxTupleSize) (by decide : 0 < 2 ^ 32)
  refine ⟨p, ?_, hslotted, hnext⟩
  rw [Insert.step]
  simp only [Insert.await, Insert.resume]
  rw [heq]
  rfl

/-- One insert into an empty table: it makes the first page and links it. -/
theorem tuples_kept_one : ∃ σ : Sys Unit, (∃ rid, (σ.task ()).pc = .done (.ok rid)) ∧
    σ.NothingLost .empty := by
  obtain ⟨p, hp, -⟩ := exists_newPage .empty 1
  have h₁ := working_step () 0 .empty (fun _ => .start) rfl
  have h₂ := working_step () 1 _ (Function.update (fun _ => .start) () (.alloc 0)) hp
  have h₃ := working_step () 0 ((Store.empty.newPage 1).put (some (1, p)))
    (Function.update (Function.update (fun _ => .start) () (.alloc 0)) () (.link 0 1 0)) rfl
  refine ⟨_, ⟨⟨1, 0⟩, ?_⟩, tuples_kept .empty (fun _ => ⟨1, .snapshot⟩) (fun _ => [7]) _ ⟨[], .empty⟩
    (.head ⟨(), 0, trivial, nofun, h₁.symm⟩ (.head ⟨(), 1, ⟨by decide, by decide, rfl⟩, nofun, h₂.symm⟩
      (.head ⟨(), 0, trivial, ?_, h₃.symm⟩ .refl)))⟩
  · rfl
  · intro f n s hpc
    cases hpc
    rfl

/-- **A tuple is lost.**  Two inserts into an empty table each make a page and link it: the
second page replaces the first in the header, and is the only one a scan sees. -/
theorem tuple_lost : ¬ ∀ (ι : Type) [DecidableEq ι] (st : Store) (txn : ι → Txn) (tuple : ι → List UInt8)
    (σ : Sys ι), st.IsFile → Sys.Run (fun _ _ => True) (Sys.inserting st txn tuple) σ →
      σ.NothingLost st := by
  intro hall
  obtain ⟨p, hp, -⟩ := exists_newPage .empty 1
  obtain ⟨p', hp', hslotted, hnext⟩ := exists_newPage ((Store.empty.newPage 1).put (some (1, p))) 2
  have h₁ := working_step false 0 .empty (fun _ : Bool => .start) rfl
  have h₂ := working_step true 0 .empty (Function.update (fun _ : Bool => .start) false (.alloc 0)) rfl
  have h₃ := working_step false 1 _
    (Function.update (Function.update (fun _ : Bool => .start) false (.alloc 0)) true (.alloc 0)) hp
  have h₄ := working_step true 2 _
    (Function.update (Function.update (Function.update (fun _ : Bool => .start) false (.alloc 0))
      true (.alloc 0)) false (.link 0 1 0)) hp'
  obtain ⟨st, hst⟩ : ∃ st, st = (((Store.empty.newPage 1).put (some (1, p))).newPage 2).put
    (some (2, p')) := ⟨_, rfl⟩
  obtain ⟨pc, hpc⟩ : ∃ pc, pc = Function.update (Function.update (Function.update (Function.update
    (fun _ : Bool => InsertPc.start) false (.alloc 0)) true (.alloc 0)) false (.link 0 1 0)) true
      (.link 0 2 0) := ⟨_, rfl⟩
  rw [← hst, ← hpc] at h₄
  have h₅ := @working_step _ _ false 0 st pc { st with firstPage := 1 } (.done (.ok ⟨1, 0⟩)) (by rw [hpc]; rfl)
  have h₆ := @working_step _ _ true 0 { st with firstPage := 1 }
    (Function.update pc false (.done (.ok ⟨1, 0⟩))) { st with firstPage := 2 } (.done (.ok ⟨2, 0⟩))
    (by rw [hpc]; rfl)
  have hrun : Sys.Run (fun _ _ => True) (Sys.inserting .empty (fun _ : Bool => ⟨1, .snapshot⟩) fun _ => [7])
      (working { st with firstPage := 2 } (Function.update (Function.update pc false
        (.done (.ok ⟨1, 0⟩))) true (.done (.ok ⟨2, 0⟩)))) := by
    refine .head ⟨false, 0, trivial, trivial, h₁.symm⟩ (.head ⟨true, 0, trivial, trivial, h₂.symm⟩
      (.head ⟨false, 1, ⟨by decide, by decide, rfl⟩, trivial, h₃.symm⟩
        (.head ⟨true, 2, ⟨by decide, by decide, rfl⟩, trivial, h₄.symm⟩
          (.head ⟨false, 0, ?_, trivial, h₅.symm⟩ (.head ⟨true, 0, ?_, trivial, h₆.symm⟩ .refl)))))
    · rw [hpc]
      trivial
    · rw [hpc]
      trivial
  obtain ⟨rid, hrid, -, hscan⟩ := hall Bool .empty _ _ _ ⟨[], .empty⟩ hrun
    (fun i => by cases i <;> exact ⟨_, rfl⟩)
  obtain ⟨-, rows, hdrains, -, hrows⟩ := hscan ⟨1, .snapshot⟩
  -- the file is the second page
  have hfile : Store.Holds { st with firstPage := 2 } [(2, [makeHeader 1 ++ [7]])] := by
    refine ⟨⟨rfl, by decide, p', ?_, hslotted, hnext⟩, List.nodup_singleton _, ?_⟩
    · show st.page 2 = some p'
      rw [hst, Store.page_put_self]
    · show 2 < 2 ^ 32
      decide
  have hmem := (hrows [7] ⟨1, 0⟩).2 (Or.inr ⟨false, ?_, rfl, rfl⟩)
  · have heq := hdrains.unique (hfile.drains ⟨1, .snapshot⟩)
    have hin : (.ok ([7], ⟨1, 0⟩) : Item) ∈ (scanRows ⟨1, .snapshot⟩ _).map .ok :=
      heq ▸ List.mem_map_of_mem hmem
    obtain ⟨row, hrow, hok⟩ := List.mem_map.1 hin
    cases hok
    obtain ⟨u, ⟨ts, hts, -⟩, -⟩ := mem_scanRows.1 hrow
    simp at hts
  · have := hrid false
    exact (Except.ok.inj (InsertPc.done.inj this))

end Heap
end Abdb
