/-
# An insert whose page fetches fail

`insert` passes an error on as soon as the pool cannot return a page it fetches, or cannot
allocate one, and undoes nothing.  The allocation of the new leaf comes before the first
write of a split, so up to there a failure loses nothing.  From there on it does
(`insert_fails_iff`): the separator of the new page never arrives, no way leads to the
keys the page covers, and these are old keys, or else the key of the failed insert is
found (`Insert.AloneInv.answers_change`).
-/

import Abdb.BTree.Latches

namespace Abdb
namespace BTree

open Lib

variable {S : PageSupply} {B : ℕ → RecordId → Prop} {F F' : Layout} {D D' : Dues} {R R' : Places}
  {st st' : Store} {key : ℕ} {rid : RecordId} {pc pc' : InsertPc}

namespace Insert

/-- A step of an insert whose page fetches and allocations may fail: it goes on to its next
await point, or passes the error on. -/
inductive FaultyStep (S : PageSupply) (key : ℕ) (rid : RecordId) :
    Store × InsertPc → Store × InsertPc → Prop
  | goes {st : Store} {pc : InsertPc} : await pc ≠ .nothing →
    FaultyStep S key rid (st, pc) (st.step S (machine key rid) pc)
  | fails {st : Store} {pc : InsertPc} (p : LPageId) : await pc ≠ .nothing →
    FaultyStep S key rid (st, pc) (st, .done (.error (.bufferError p)))

/-- An insert that runs alone on a store comes to an await point where the fetch or the
allocation fails: it returns the error and leaves the store as it then is. -/
structure FailsAt (S : PageSupply) (key : ℕ) (rid : RecordId) (st : Store) (pc : InsertPc)
    (st' : Store) : Prop where
  steps : Relation.ReflTransGen (FaultyStep S key rid) (st, .start) (st', pc)
  awaits : await pc ≠ .nothing

/-- The await points after `split_leaf` has rewritten the leaf. -/
def PastSplit : InsertPc → Prop
  | .splitLeafSibling .. | .splitInnerAlloc .. | .newRootAlloc .. | .newRootHeader .. => True
  | _ => False

/-- A run that has not failed is a plain run. -/
theorem FailsAt.plain (h : FailsAt S key rid st pc st') :
    Relation.ReflTransGen (fun x y => y = x.1.step S (machine key rid) x.2) (st, .start)
      (st', pc) := by
  have hplain : ∀ x, Relation.ReflTransGen (FaultyStep S key rid) (st, .start) x →
      await x.2 ≠ .nothing → Relation.ReflTransGen
        (fun x y => y = x.1.step S (machine key rid) x.2) (st, .start) x := by
    intro x hx
    induction hx with
    | refl => exact fun _ => .refl
    | tail _ hlast ih =>
      intro hx
      cases hlast with
      | goes hn => exact (ih hn).tail rfl
      | fails p hn => exact absurd rfl hx
  exact hplain _ h.steps h.awaits

end Insert

/-- `get` answers for every key on one store as it does on another. -/
def Store.SameAnswers (S : PageSupply) (st st' : Store) : Prop :=
  ∀ key res, st.Exec S (.get key) st (.record res) ↔ st'.Exec S (.get key) st' (.record res)

namespace Insert

/-- **An insert of an absent key returns an error exactly if a fetch or an allocation fails.** -/
theorem returns_error_iff (hst : st.Rests S F) (hk : key < keyBound)
    (habs : ∀ r, ¬ F.Binds st.page key r) :
    (∃ e, Relation.ReflTransGen (FaultyStep S key rid) (st, .start) (st', .done (.error e))) ↔
      ∃ pc, FailsAt S key rid st pc st' := by
  constructor
  · rintro ⟨e, hrun⟩
    obtain heq | ⟨⟨st₁, pc₁⟩, hrun, hlast⟩ := Relation.ReflTransGen.cases_tail hrun
    · cases heq
    · generalize hx : (st', InsertPc.done (.error e)) = x at hlast
      cases hlast with
      | goes hn =>
        -- no failure: the insert would return `Ok`
        have hplain := (FailsAt.plain ⟨hrun, hn⟩).tail hx
        obtain ⟨st₂, F₂, hok, -⟩ := (hst.insert hk rid).2 habs
        obtain ⟨-, heq⟩ := Store.Returns.unique ⟨rfl, hplain⟩ hok
        cases heq
      | fails p hn =>
        obtain ⟨rfl, -⟩ := Prod.mk.inj hx
        exact ⟨pc₁, hrun, hn⟩
  · rintro ⟨pc, hsteps, hawait⟩
    exact ⟨.bufferError 0, hsteps.tail (.fails 0 hawait)⟩

/-! ### The insert as the only task -/

/-- The insert as the only task of its store. -/
def alone (st : Store) (key : ℕ) (rid : RecordId) (pc : InsertPc) : Sys Unit :=
  ⟨st, fun _ => .insert key rid pc⟩

theorem alone_step : (alone st key rid pc).step S () =
    alone (st.step S (machine key rid) pc).1 key rid (st.step S (machine key rid) pc).2 := by
  exact congrArg (Sys.mk _) (funext fun _ => Function.update_self ..)

/-- What the descent starts from: the root the header names, or its `0`. -/
def FromRoot (root : LPageId) : InsertPc → Prop
  | .allocFirst | .setRoot _ => root = 0
  | .findLeafForWrite c [] => c = root
  | _ => True

/-- Past the descent, or in it below the first page. -/
def Below : InsertPc → Prop
  | .start | .allocFirst | .setRoot _ | .findLeafForWrite _ [] => False
  | _ => True

theorem Below.fromRoot {root : LPageId} (h : Below pc) : FromRoot root pc := by
  cases pc with
  | findLeafForWrite c locked =>
    cases locked with
    | nil => exact h.elim
    | cons q rest => trivial
  | allocFirst => exact h.elim
  | setRoot n => exact h.elim
  | _ => trivial

/-- Past the descent. -/
def Climbs : InsertPc → Prop
  | .start | .allocFirst | .setRoot _ | .findLeafForWrite .. => False
  | _ => True

theorem Climbs.below (h : Climbs pc) : Below pc := by
  cases pc <;> first | exact h.elim | trivial

theorem Climbs.ne {c : LPageId} {locked : List LPageId} (h : Climbs pc) :
    pc ≠ .findLeafForWrite c locked := by
  rintro rfl
  exact h

theorem climbs_intoAncestors {view : View} {locked : List LPageId} {sepKey : ℕ} {c : LPageId} :
    Climbs (insertIntoAncestorsWithLocks view locked sepKey c).pc := by
  unfold insertIntoAncestorsWithLocks
  split
  · trivial
  · split
    · trivial
    · split_ifs
      · split <;> trivial
      · unfold splitInner
        split <;> trivial

theorem climbs_intoLeaf {leaf : LPageId} {locked : List LPageId} {l : BTreeLeafPage} :
    Climbs (intoLeaf key rid leaf locked l).pc := by
  unfold intoLeaf
  split
  · split <;> trivial
  · split <;> trivial

/-- **An insert does not descend again.** -/
theorem climbs_resume {view : View} {n : LPageId} (h : Climbs pc) :
    Climbs (resume key rid view n pc).pc := by
  cases pc with
  | splitLeafAlloc leaf locked entries oldPrev oldNext =>
    rw [resume, splitLeafFinish]
    dsimp only
    split
    · trivial
    · split
      · trivial
      · split
        · trivial
        · split_ifs
          · exact climbs_intoAncestors
          · trivial
  | splitLeafSibling leaf locked newLeaf sep oldNext =>
    rw [resume, splitLeafSibling]
    split
    · trivial
    · exact climbs_intoAncestors
  | splitInnerAlloc parent locked sep c entries left =>
    rw [resume, splitInnerFinish]
    dsimp only
    split
    · trivial
    · split
      · trivial
      · split
        · trivial
        · exact climbs_intoAncestors
  | newRootHeader n sep c =>
    rw [resume, newRootFinish]
    split <;> trivial
  | newRootAlloc sep c => trivial
  | done res => trivial
  | _ => exact h.elim

theorem below_resume {view : View} {n : LPageId} (h : pc ≠ .start) (h' : pc ≠ .allocFirst) :
    Below (resume key rid view n pc).pc := by
  cases pc with
  | start => exact absurd rfl h
  | allocFirst => exact absurd rfl h'
  | setRoot n => trivial
  | findLeafForWrite c locked =>
    rw [resume, findLeafForWrite]
    split
    · trivial
    · trivial
    · exact climbs_intoLeaf.below
  | _ =>
    refine Climbs.below (climbs_resume ?_)
    trivial

/-- A key that was there before the insert has its leaf in common with the key of the insert. -/
def Shared (B : ℕ → RecordId → Prop) (F : Layout) (key : ℕ) : Prop :=
  ∃ q a b k r, F q = some ⟨0, a, b⟩ ∧ a ≤ key ∧ key < b ∧ a ≤ k ∧ k < b ∧ B k r

/-- What holds at every await point of an insert that runs alone.  `B` is what the tree bound
at the start. -/
structure AloneInv (S : PageSupply) (B : ℕ → RecordId → Prop) (key : ℕ) (rid : RecordId)
    (x : Store × InsertPc) (F : Layout) (D : Dues) : Prop where
  inv : Inv S B (alone x.1 key rid x.2) F D
  latches : ∃ R, LatchInv S R (alone x.1 key rid x.2)
  fromRoot : FromRoot x.1.root x.2
  shared : PastSplit x.2 → Shared B F key

namespace AloneInv

/-- It does not wait for itself. -/
theorem enabled (h : AloneInv S B key rid (st, pc) F D) (hpc : await pc ≠ .nothing) :
    (alone st key rid pc).Enabled () := by
  obtain ⟨R, hR⟩ := h.latches
  have hok := hR.ok (i := ()) rfl
  unfold Sys.Enabled alone
  dsimp only
  rw [Task.await]
  cases hw : await pc with
  | nothing => exact hpc hw
  | page p m => exact fun _ hp => irrefl_of R.Before p (hok.before hw hp)
  | header => trivial
  | newPage => trivial

/-- It acts on a current root. -/
theorem rootCurrent (h : AloneInv S B key rid (st, pc) F D) : RootCurrent (alone st key rid pc) () := by
  have hroot := h.fromRoot
  unfold RootCurrent alone
  dsimp only
  cases pc with
  | findLeafForWrite c locked =>
    cases locked with
    | nil => exact ⟨hroot, fun _ _ => nofun⟩
    | cons q rest => trivial
  | setRoot n => exact hroot
  | _ => trivial

/-- Before the split is written the next await point is not past it either, unless it was the
split's allocation that succeeded. -/
theorem pastSplit_resume {view : View} {n : LPageId}
    (hpast : PastSplit (resume key rid view n pc).pc) :
    PastSplit pc ∨ ∃ leaf locked entries oldPrev oldNext,
      pc = .splitLeafAlloc leaf locked entries oldPrev oldNext := by
  cases pc with
  | start =>
    rw [resume] at hpast
    dsimp only [Out.goto] at hpast
    split_ifs at hpast <;> exact hpast.elim
  | allocFirst => exact hpast.elim
  | setRoot n => exact hpast.elim
  | findLeafForWrite c locked =>
    rw [resume, findLeafForWrite] at hpast
    split at hpast
    · exact hpast.elim
    · exact hpast.elim
    · unfold intoLeaf at hpast
      split at hpast
      · split at hpast <;> exact hpast.elim
      · split at hpast <;> exact hpast.elim
  | splitLeafAlloc leaf locked entries oldPrev oldNext => exact Or.inr ⟨_, _, _, _, _, rfl⟩
  | done res => exact hpast.elim
  | _ => exact Or.inl trivial

/-- Of the keys around the middle of a sorted list, some other key lies on the same side of
the middle as a given one. -/
theorem exists_same_side {es : List BTreeLeafEntry} (hs : SortedBy BTreeLeafEntry.key es)
    {mid : ℕ} (h₂ : 2 ≤ mid) (hmid : mid + 1 < es.length) (k : ℕ) :
    ∃ x ∈ es, x.key ≠ k ∧ (x.key < es[mid].key ↔ k < es[mid].key) := by
  have hlt : ∀ (i j : ℕ) (hij : i < j) (hj : j < es.length), es[i].key < es[j].key :=
    fun i j hij hj => List.pairwise_iff_getElem.1 hs i j (hij.trans hj) hj hij
  rcases Nat.lt_or_ge k es[mid].key with hk | hk
  · have h₀₁ := hlt 0 1 Nat.one_pos (by omega)
    have h₁ := hlt 1 mid h₂ (by omega)
    by_cases hne : es[0].key = k
    · exact ⟨es[1], List.getElem_mem _, by omega, iff_of_true h₁ hk⟩
    · exact ⟨es[0], List.getElem_mem _, hne, iff_of_true (h₀₁.trans h₁) hk⟩
  · have h₁ := hlt mid (mid + 1) (Nat.lt_succ_self _) hmid
    by_cases hne : es[mid].key = k
    · exact ⟨es[mid + 1], List.getElem_mem _, by omega, iff_of_false h₁.not_gt hk.not_gt⟩
    · exact ⟨es[mid], List.getElem_mem _, hne, iff_of_false (lt_irrefl _) hk.not_gt⟩

/-- **The split leaves an old key in the same half as the new one.** -/
theorem shared_split (h : AloneInv S B key rid (st, pc) F D) {leaf : LPageId}
    {locked : List LPageId} {entries : List BTreeLeafEntry} {oldPrev oldNext : LPageId}
    (hpc : pc = .splitLeafAlloc leaf locked entries oldPrev oldNext) {a b m : ℕ}
    (hleaf : F leaf = some ⟨0, a, b⟩) (ha : a ≤ key) (hb : key < b) (hcut : cut pc = some (leaf, m)) :
    Shared B (F.split leaf (S.id st.allocated) 0 a m b) key := by
  subst hpc
  obtain ⟨-, a', b', l, -, -, -, hl, hfull, habs, rfl, -, -, -⟩ := h.inv.ok (i := ()) rfl
  obtain ⟨-, ok⟩ := h.inv.tree.leaf_level hleaf hl
  replace hl : st.page leaf = some (.leaf l) := hl
  obtain ⟨-, hFn, -, -⟩ := h.inv.fresh_page
  have hn : leaf ≠ S.id st.allocated := by
    rintro hn
    rw [hn] at hleaf
    exact absurd (hleaf.symm.trans hFn) nofun
  have hs := (insertIdx_findSlot (e := newEntry key rid) ok.sorted habs).2.2
  have hlen : (insertBy BTreeLeafEntry.key (newEntry key rid) l.entries).length = 254 := by
    have := ok.capacity
    simp only [BTreeLeafPage.maxEntries_eq, BTreeLeafPage.numEntries] at this hfull
    rw [length_insertBy]
    omega
  rw [cut, hlen, List.getElem?_eq_getElem (by rw [hlen]; decide)] at hcut
  obtain rfl : _ = m := by simpa using hcut
  have hmid : 127 + 1 < (insertBy BTreeLeafEntry.key (newEntry key rid) l.entries).length := by
    rw [hlen]
    decide
  obtain ⟨x, hx, hxk, hside⟩ := exists_same_side hs (by decide) hmid key
  -- the other key is an old one
  have hold : x ∈ l.entries := by
    rcases mem_insertBy.1 hx with rfl | hx
    · exact absurd rfl hxk
    · exact hx
  obtain ⟨hax, hxb⟩ := ok.within x hold
  have hB : B x.key x.recordId := by
    have hbind : F.Binds st.page x.key x.recordId := ⟨leaf, a, b, hleaf, x, by rwa [hl], rfl, rfl⟩
    rcases (h.inv.binds _ _).1 hbind with hB | ⟨i, hi⟩
    · exact hB
    · cases hi
  rcases Nat.lt_or_ge key
      (insertBy BTreeLeafEntry.key (newEntry key rid) l.entries)[127].key with hkm | hmk
  · exact ⟨leaf, a, _, x.key, x.recordId, Layout.split_left hn, ha, hkm, hax, hside.2 hkm, hB⟩
  · exact ⟨S.id st.allocated, _, b, x.key, x.recordId, Layout.split_right, hmk, hb,
      not_lt.1 fun hlt => hmk.not_gt (hside.1 hlt), hxb, hB⟩

/-- The shared leaf is none that the insert cuts later. -/
theorem shared_grows (h : AloneInv S B key rid (st, pc) F D) (hpast : PastSplit pc)
    (hF : F.Grows F' (cut pc)) : Shared B F' key := by
  obtain ⟨q, a, b, k, r, hq, hshared⟩ := h.shared hpast
  refine ⟨q, a, b, k, r, ?_, hshared⟩
  rcases hF q _ hq with hq' | ⟨m, hm, -⟩
  · exact hq'
  · cases pc with
    | splitInnerAlloc parent locked sep c entries left =>
      -- that page is no leaf
      obtain ⟨-, ℓ, a', b', i, hp, -⟩ := h.inv.ok (i := ()) rfl
      obtain ⟨e, -, he⟩ := Option.map_eq_some_iff.1 hm
      obtain ⟨rfl, -⟩ := Prod.mk.inj he
      cases hq.symm.trans hp
    | splitLeafSibling => cases hm
    | newRootAlloc => cases hm
    | newRootHeader => cases hm
    | _ => exact hpast.elim

/-- A step does not bring the insert back to the start of its descent. -/
theorem fromRoot_step (h : AloneInv S B key rid (st, pc) F D) (hpc : await pc ≠ .nothing) :
    FromRoot (st.step S (machine key rid) pc).1.root (st.step S (machine key rid) pc).2 := by
  by_cases hstart : pc = .start
  · subst hstart
    change FromRoot st.root (if st.root = 0 then .allocFirst else .findLeafForWrite st.root [])
    split_ifs with h0
    · exact h0
    · exact rfl
  · by_cases hfirst : pc = .allocFirst
    · subst hfirst
      exact h.fromRoot
    · refine Below.fromRoot ?_
      unfold Store.step
      split
      · exact absurd ‹_› hpc
      · exact below_resume hstart hfirst
      · exact below_resume hstart hfirst

/-- **A step of the insert keeps the invariant.** -/
theorem step (h : AloneInv S B key rid (st, pc) F D) (hpc : await pc ≠ .nothing) :
    ∃ F' D', AloneInv S B key rid (st.step S (machine key rid) pc) F' D' := by
  obtain ⟨R, hR⟩ := h.latches
  obtain ⟨R', hR'⟩ := hR.step (h.enabled hpc)
  rw [alone_step] at hR'
  have hroot := h.fromRoot_step hpc
  have hnext : PastSplit (st.step S (machine key rid) pc).2 →
      PastSplit pc ∨ ∃ leaf locked entries oldPrev oldNext,
        pc = .splitLeafAlloc leaf locked entries oldPrev oldNext := by
    unfold Store.step
    split
    · exact absurd ‹_› hpc
    · exact pastSplit_resume
    · exact pastSplit_resume
  by_cases hsplit : ∃ leaf locked entries oldPrev oldNext,
      pc = .splitLeafAlloc leaf locked entries oldPrev oldNext
  · obtain ⟨leaf, locked, entries, oldPrev, oldNext, rfl⟩ := hsplit
    obtain ⟨a, b, m, D', hleaf, ha, hb, hcut, h'⟩ := h.inv.step_cutLeaf (i := ()) rfl
    rw [alone_step] at h'
    exact ⟨_, D', h', ⟨R', hR'⟩, hroot, fun _ => h.shared_split rfl hleaf ha hb hcut⟩
  · obtain ⟨F', D', h', hF⟩ := h.inv.step (h.enabled hpc) h.rootCurrent
    rw [alone_step] at h'
    exact ⟨F', D', h', ⟨R', hR'⟩, hroot, fun hpast =>
      h.shared_grows ((hnext hpast).resolve_right hsplit) hF⟩

end AloneInv

/-- The invariant holds at the start of an insert. -/
theorem alone_start (hst : st.Rests S F) (hk : key < keyBound) (rid : RecordId) :
    AloneInv S (F.Binds st.page) key rid (st, .start) F .settled where
  inv := Inv.start (σ := alone st key rid .start) hst.tree hst.fresh fun _ =>
    Or.inl ⟨key, rid, hk, rfl⟩
  latches := by
    refine ⟨F.places, .start hst.tree hst.fresh fun _ _ _ _ hi => ?_⟩
    cases hi
    rfl
  fromRoot := trivial
  shared h := h.elim

/-- **The invariant holds at every await point.** -/
theorem FailsAt.aloneInv (h : FailsAt S key rid st pc st') (hst : st.Rests S F)
    (hk : key < keyBound) : ∃ F' D', AloneInv S (F.Binds st.page) key rid (st', pc) F' D' := by
  have hrun : ∀ x, Relation.ReflTransGen (fun x y => y = x.1.step S (machine key rid) x.2)
      (st, .start) x → ∃ F' D', AloneInv S (F.Binds st.page) key rid x F' D' := by
    intro x hx
    induction hx with
    | refl => exact ⟨F, .settled, alone_start hst hk rid⟩
    | @tail x y _ hlast ih =>
      obtain ⟨F', D', h'⟩ := ih
      rw [hlast]
      by_cases hpc : await x.2 = .nothing
      · have hstay : x.1.step S (machine key rid) x.2 = x := by
          unfold Store.step
          rw [show (machine key rid).await x.2 = .nothing from hpc]
        rw [hstay]
        exact ⟨F', D', h'⟩
      · exact h'.step hpc
  exact hrun _ h.plain

/-! ### What a failure loses -/

/-- Before the split is written nothing is due. -/
theorem idle_of_not_pastSplit (h : ¬ PastSplit pc) : due pc = none ∧ duePrev pc = none := by
  cases pc with
  | splitLeafSibling => exact absurd trivial h
  | splitInnerAlloc => exact absurd trivial h
  | newRootAlloc => exact absurd trivial h
  | newRootHeader => exact absurd trivial h
  | _ => exact ⟨rfl, rfl⟩

/-- After it a separator is, and the entry is in the tree. -/
theorem due_of_pastSplit (h : PastSplit pc) : (∃ t e, due pc = some (t, e)) ∧ stored pc = true := by
  cases pc with
  | splitLeafSibling => exact ⟨⟨_, _, rfl⟩, rfl⟩
  | splitInnerAlloc => exact ⟨⟨_, _, rfl⟩, rfl⟩
  | newRootAlloc => exact ⟨⟨_, _, rfl⟩, rfl⟩
  | newRootHeader => exact ⟨⟨_, _, rfl⟩, rfl⟩
  | _ => exact h.elim

namespace AloneInv

variable {t : Option LPageId} {e : BTreeInnerEntry}

/-- The page the separator is due for covers a range on one level, below the page that is to
lead there. -/
theorem due_span (h : AloneInv S B key rid (st, pc) F D) (hdue : due pc = some (t, e)) :
    ∃ ℓ y, (∀ q, t = some q → ∃ a b, F q = some ⟨ℓ + 1, a, b⟩) ∧
      F e.rightChild = some ⟨ℓ, e.separatorKey, y⟩ := by
  have hd : D.due t = some e := h.inv.seps.of_own (i := ()) hdue
  have hok := (h.inv.ok (i := ()) rfl).2
  cases t with
  | none =>
    have h0 : st.root ≠ 0 := by
      refine h.inv.root_ne_zero ?_
      rw [show D.root = some e from hd]
      nofun
    obtain ⟨ℓ, htop, -⟩ := h.inv.tree.top h0
    rw [show D.root = some e from hd] at htop
    exact ⟨ℓ, keyBound, nofun, htop.2.1⟩
  | some q =>
    obtain ⟨ℓ, a, b, hq⟩ : ∃ ℓ a b, F q = some ⟨ℓ + 1, a, b⟩ := by
      cases pc with
      | splitLeafSibling leaf locked n sep oldNext =>
        obtain ⟨-, -, hcan⟩ := hok
        cases locked with
        | nil => cases hdue
        | cons x rest =>
          obtain ⟨⟨a, b, hx, -⟩, -⟩ := hcan
          obtain ⟨rfl, -⟩ : x = q ∧ _ := by simpa [due] using hdue
          exact ⟨0, a, b, hx⟩
      | splitInnerAlloc parent locked sep c entries left =>
        obtain ⟨ℓ, a, b, i, hp, -⟩ := hok
        obtain ⟨rfl, -⟩ : parent = q ∧ _ := by simpa [due] using hdue
        exact ⟨ℓ, a, b, hp⟩
      | _ => cases hdue
    obtain ⟨y, hy, -⟩ := h.inv.tree.due_child hq hd
    refine ⟨ℓ, y, fun q' hq' => ?_, hy⟩
    obtain rfl := Option.some.inj hq'
    exact ⟨a, b, hq⟩

/-- Nothing else is due. -/
theorem due_unique (h : AloneInv S B key rid (st, pc) F D) (hdue : due pc = some (t, e))
    {t' : Option LPageId} {e' : BTreeInnerEntry} (hd : D.due t' = some e') : t' = t ∧ e' = e := by
  obtain ⟨i, hi⟩ := (h.inv.seps.entry t' e').1 hd
  have heq : due pc = some (t', e') := hi
  rw [hdue] at heq
  obtain ⟨rfl, rfl⟩ : t = t' ∧ e = e' := by simpa using heq
  exact ⟨rfl, rfl⟩

end AloneInv

end Insert

/-- The leaf of a key lies within every page that covers the key. -/
theorem Tree.leaf_within {page : LPageId → Option Page} {root p q : LPageId} {k ℓ a b x y : ℕ}
    (h : Tree F D page root) (hp : F p = some ⟨ℓ, x, y⟩) (hxk : x ≤ k) (hky : k < y)
    (hq : F q = some ⟨0, a, b⟩) (hak : a ≤ k) (hkb : k < b) : x ≤ a ∧ b ≤ y := by
  induction ℓ generalizing p x y with
  | zero =>
    obtain rfl := h.unique hp hq hxk hky hak hkb
    obtain ⟨rfl, rfl⟩ : x = a ∧ y = b := by simpa [hp] using hq
    exact ⟨le_rfl, le_rfl⟩
  | succ ℓ ih =>
    obtain ⟨-, c, x', y', -, -, -, hc, hx, hy, hx', hy'⟩ := h.child hp hxk hky
    obtain ⟨ha, hb⟩ := ih hc hx' hy'
    exact ⟨hx.trans ha, hb.trans hy⟩

/-- Trees at rest that bind the same give the same answers. -/
theorem Store.Rests.sameAnswers (h : st.Rests S F) (h' : st'.Rests S F')
    (hb : ∀ k r, F'.Binds st'.page k r ↔ F.Binds st.page k r) : st.SameAnswers S st' := by
  intro key res
  rw [h.tree.exec_get_answer_iff Dues.not_hides_settled,
    h'.tree.exec_get_answer_iff Dues.not_hides_settled]
  cases res with
  | ok r => exact (hb _ r).symm
  | error e => exact and_congr_right fun _ => forall_congr' fun r => not_congr (hb _ r).symm

/-- **Past the split a failure changes an answer.**  A key that the due page covers is not found
any more; if the key of the insert is one of these, so is an old key, and if it is none, it is
found. -/
theorem Insert.AloneInv.answers_change {st₀ : Store}
    (h : AloneInv S (F.Binds st₀.page) key rid (st, pc) F' D) (hst : st₀.Rests S F)
    (hk : key < keyBound) (habs : ∀ r, ¬ F.Binds st₀.page key r) (hpast : PastSplit pc) :
    ¬ st₀.SameAnswers S st := by
  intro hsame
  obtain ⟨⟨t, e, hdue⟩, hstored⟩ := due_of_pastSplit hpast
  obtain ⟨ℓ, y, ht, he⟩ := h.due_span hdue
  have hd : D.due t = some e := h.inv.seps.of_own (i := ()) hdue
  by_cases hcov : e.separatorKey ≤ key ∧ key < y
  · obtain ⟨hek, hky⟩ := hcov
    obtain ⟨q, a, b, k, r, hq, ha, hb, hak, hkb, hB⟩ := h.shared hpast
    obtain ⟨hea, hby⟩ := h.inv.tree.leaf_within he hek hky hq ha hb
    obtain ⟨bytes, rfl⟩ := exists_keyFromBytes (hst.tree.lt_of_binds hB)
    exact h.inv.tree.not_exec_get hd ht he (hea.trans hak) (hkb.trans_le hby) r
      ((hsame bytes _).1 (hst.tree.exec_get_iff.2 hB))
  · obtain ⟨bytes, rfl⟩ := exists_keyFromBytes hk
    have hbind := h.inv.binds_stored (i := ()) rfl hstored
    have hside : ¬ D.Hides F' (keyFromBytes bytes) := by
      rintro ⟨t', e', ℓ', y', hd', he', hek, hky⟩
      obtain ⟨rfl, rfl⟩ := h.due_unique hdue hd'
      obtain ⟨-, rfl⟩ : ℓ = ℓ' ∧ y = y' := by simpa [he] using he'
      exact hcov ⟨hek, hky⟩
    have hnone : st₀.Exec S (.get bytes) st₀ (.record (.error .tupleNonExistent)) :=
      (hst.tree.exec_get_answer_iff Dues.not_hides_settled).2 ⟨rfl, habs⟩
    have hsome : st.Exec S (.get bytes) st (.record (.ok rid)) :=
      (h.inv.tree.exec_get_answer_iff hside).2 hbind
    obtain ⟨-, heq⟩ := Store.Exec.unique hsome ((hsame bytes _).1 hnone)
    cases heq

/-- **A failed insert loses nothing exactly if it failed before its split was written.** -/
theorem insert_fails_iff {key : List UInt8} (hst : st.Valid S)
    (habs : ∀ r, ¬ st.Exec S (.get key) st (.record (.ok r)))
    (hfail : Insert.FailsAt S (keyFromBytes key) rid st pc st') :
    st.SameAnswers S st' ↔ ¬ Insert.PastSplit pc := by
  obtain ⟨F, hF⟩ := hst
  have hnone : ∀ r, ¬ F.Binds st.page (keyFromBytes key) r := fun r hr =>
    habs r (hF.tree.exec_get_iff.2 hr)
  obtain ⟨F', D', h⟩ := hfail.aloneInv hF (keyFromBytes_lt key)
  refine ⟨fun hsame hpast => h.answers_change hF (keyFromBytes_lt key) hnone hpast hsame,
    fun hnot => ?_⟩
  obtain rfl := h.inv.settled_of_idle fun _ => Insert.idle_of_not_pastSplit hnot
  refine hF.sameAnswers ⟨h.inv.tree, h.inv.fresh⟩ fun k r => (h.inv.binds k r).trans
    (or_iff_left_of_imp ?_)
  rintro ⟨i, hi⟩
  change (if Insert.stored pc then some (keyFromBytes key, rid) else none) = some (k, r) at hi
  cases pc with
  | done res => exact absurd rfl hfail.awaits
  | splitLeafSibling => exact absurd trivial hnot
  | splitInnerAlloc => exact absurd trivial hnot
  | newRootAlloc => exact absurd trivial hnot
  | newRootHeader => exact absurd trivial hnot
  | _ => cases hi

/-- An insert that reads the root and cannot fetch it. -/
theorem insert_fails_one : (oneLeaf [⟨1, 7, 0⟩]).SameAnswers .count (oneLeaf [⟨1, 7, 0⟩]) ↔
    ¬ Insert.PastSplit (.findLeafForWrite 1 []) := by
  obtain ⟨hst, -⟩ := oneLeaf_tree [⟨1, 7, 0⟩] (List.pairwise_singleton ..)
    (by simp [keyBound]) (by simp)
  have hmiss : (oneLeaf [⟨1, 7, 0⟩]).Exec .count (.get [2]) (oneLeaf [⟨1, 7, 0⟩])
      (.record (.error .tupleNonExistent)) := .step (.step (.step (.done rfl)))
  have hfail : Insert.FailsAt .count (keyFromBytes [2]) ⟨7, 1⟩ (oneLeaf [⟨1, 7, 0⟩])
      (.findLeafForWrite 1 []) (oneLeaf [⟨1, 7, 0⟩]) :=
    ⟨.tail .refl (.goes (by rintro ⟨⟩)), by rintro ⟨⟩⟩
  refine insert_fails_iff hst (fun r hr => ?_) hfail
  obtain ⟨-, heq⟩ := Store.Exec.unique hmiss hr
  cases heq

/-- While the root is a leaf without the key, `get` does not find it. -/
theorem exec_get_of_root_leaf {st : Store} {l : BTreeLeafPage} {key : List UInt8}
    (h0 : st.root ≠ 0) (hl : st.page st.root = some (.leaf l)) (hs : l.Sorted)
    (hk : ∀ e ∈ l.entries, e.key ≠ keyFromBytes key) :
    st.Exec S (.get key) st (.record (.error .tupleNonExistent)) := by
  have hstart : Get.resume (keyFromBytes key) st.view .start = .findLeaf st.root := if_neg h0
  have hdown : Get.resume (keyFromBytes key) st.view (.findLeaf st.root) = .readLeaf st.root := by
    rw [Get.resume]
    unfold Get.findLeaf Store.view
    dsimp only
    rw [hl, dispatch]
  have hread : Get.resume (keyFromBytes key) st.view (.readLeaf st.root) =
      .done (.error .tupleNonExistent) := by
    rw [Get.resume]
    unfold Get.readLeaf Store.view
    dsimp only
    rw [hl, asLeaf]
    dsimp only
    rw [(BTreeLeafPage.lookup_eq_none_iff hs).2 hk]
  refine .step ?_
  rw [Get.step_eq, hstart]
  refine .step ?_
  rw [Get.step_eq, hdown]
  refine .step ?_
  rw [Get.step_eq, hread]
  exact .done rfl

/-- **A failed insert loses keys.**  The insert of key `253` splits a full root leaf, and the
allocation of the new root fails: the header still names the old leaf, and key `200`, which
the split has moved to the new one, is not found. -/
theorem insert_fails_loses : ¬ ∀ (S : PageSupply) (st st' : Store) (key : List UInt8)
    (rid : RecordId) (pc : InsertPc), st.Valid S →
    (∀ r, ¬ st.Exec S (.get key) st (.record (.ok r))) →
    Insert.FailsAt S (keyFromBytes key) rid st pc st' → st.SameAnswers S st' := by
  intro hall
  obtain ⟨hst, hread⟩ := oneLeaf_tree _ sorted_fullEntries
    (fun e he => (fullEntries_lt he).trans (by decide)) length_fullEntries.le
  have hmiss : (oneLeaf fullEntries).Exec .count (.get [253]) (oneLeaf fullEntries)
      (.record (.error .tupleNonExistent)) :=
    exec_get_of_root_leaf (l := ⟨1, 0, 0, fullEntries⟩) nofun rfl sorted_fullEntries
      fun e he => (fullEntries_lt he).ne
  have h200 := hread [200] _ (mem_fullEntries.2 ⟨200, by decide, rfl⟩) rfl
  obtain ⟨entries, xs, e, ys, st', hsplit⟩ := exists_splitsFull
  generalize fullEntries = es at hst hmiss h200 hsplit
  -- the insert reads the root, finds the leaf full, and splits it
  have hfail : Insert.FailsAt .count 253 ⟨7, 1⟩ (oneLeaf es) (.newRootAlloc 127 2) st' := by
    have run₁ : Relation.ReflTransGen (Insert.FaultyStep .count 253 ⟨7, 1⟩)
        (oneLeaf es, .start) (oneLeaf es, .findLeafForWrite 1 []) := .tail .refl (.goes nofun)
    have run₂ := run₁.tail (.goes nofun)
    rw [hsplit.finds] at run₂
    have run₃ := run₂.tail (.goes nofun)
    rw [hsplit.splits] at run₃
    exact ⟨run₃, nofun⟩
  have hlost : st'.Exec .count (.get [200]) st' (.record (.error .tupleNonExistent)) := by
    refine exec_get_of_root_leaf (l := ⟨1, 2, 0, xs⟩) ?_ ?_ hsplit.sorted fun x hx =>
      (hsplit.below x hx).ne
    · rw [hsplit.root]
      nofun
    · rw [hsplit.root]
      exact hsplit.lower
  have hsame := hall .count _ _ [253] ⟨7, 1⟩ _ hst (fun r hr => ?_) hfail
  · obtain ⟨-, heq⟩ := Store.Exec.unique hlost ((hsame [200] _).1 h200)
    cases heq
  · obtain ⟨-, heq⟩ := Store.Exec.unique hmiss hr
    cases heq

end BTree
end Abdb
