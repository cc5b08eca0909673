/-
# A reader among inserts

`get` holds no latch from one page to the next.  It still answers right as long as no
step acts on an outdated root and no split moves its key away from the page it is about
to fetch (`get_among_inserts`); a split that does so makes it miss a key that was there
all along (`get_misses`).
-/

import Abdb.BTree.InsertSteps
import Abdb.BTree.Lookup

namespace Abdb
namespace BTree

open Lib

variable {ι : Type} [DecidableEq ι] {S : PageSupply} {st : Store} {σ : Sys ι}
  {F F' : Layout} {D D' : Dues}

/-- A `get` and any number of inserts, none of which has taken a step. -/
def Sys.reading (st : Store) (k : List UInt8) (key : ι → List UInt8) (rid : ι → RecordId) :
    Sys (Option ι) :=
  ⟨st, fun
    | none => .get (keyFromBytes k) .start
    | some i => .insert (keyFromBytes (key i)) (rid i) .start⟩

/-- The step moves no reader's key away from it: no page that a `get` is about to fetch is
split at a separator that is not above its key, and a `get` does not read the root
pointer while such a separator waits for its new root. -/
def ReadersSafe (σ : Sys ι) (i : ι) : Prop :=
  ∀ j k pc, σ.task j = .get k pc →
    (∀ c m, (σ.task i).cut = some (c, m) → pc = .findLeaf c ∨ pc = .readLeaf c → k < m) ∧
    (i = j → pc = .start → ∀ l e, (σ.task l).due = some (none, e) → k < e.separatorKey)

/-- A `get` finds the record: it has returned it, or will once the inserts have finished. -/
def Sys.Finds (S : PageSupply) (k : ℕ) (r : RecordId) (σ : Sys (Option ι)) : Prop :=
  (∀ res, σ.task none = .get k (.done res) → res = .ok r) ∧
    ((∀ i, (σ.task (some i)).Done) → ∃ pc, σ.task none = .get k pc ∧
      σ.store.Returns S (Get.machine k) pc σ.store (.done (.ok r)))

/-- **A reader's step, or another task's, keeps it on the way to its key.** -/
theorem GetOk.step {B : ℕ → RecordId → Prop} {i j : ι} {k : ℕ} {r : RecordId} {pc : GetPc}
    (h : Inv S B σ F D) (hok : GetOk F k (.ok r) pc) (hj : σ.task j = .get k pc) (hB : B k r)
    (hen : σ.Enabled i) (hsafe : ReadersSafe σ i) (hF : F.Grows F' (σ.task i).cut)
    (h' : Inv S B (σ.step S i) F' D') :
    ∃ pc', (σ.step S i).task j = .get k pc' ∧ GetOk F' k (.ok r) pc' := by
  obtain ⟨hcut, hroot⟩ := hsafe j k pc hj
  have hbinds := (h.binds k r).2 (Or.inl hB)
  by_cases hji : j = i
  · subst hji
    have hF' : F.Grows F' none := by
      rw [hj] at hF
      exact hF
    have hok' : GetOk F k (.ok r) (Get.resume k σ.store.view pc) := by
      refine hok.resume h.tree (h.tree.lt_of_binds hbinds) hbinds ?_ ?_
      · -- a page that a separator is due in is latched
        rintro c rfl
        by_contra hne
        obtain ⟨l, hl⟩ := h.due_held hne
        unfold Sys.Enabled at hen
        rw [hj] at hen
        exact hen l hl
      · intro hpc e he
        obtain ⟨l, hl⟩ := (h.seps.entry none e).1 he
        exact hroot rfl hpc l e hl
    refine ⟨_, ?_, hok'.grows hF' nofun⟩
    rw [Sys.step_get hj]
    exact Function.update_self ..
  · exact ⟨pc, (Sys.step_task_of_ne hji).trans hj, hok.grows hF hcut⟩

/-- **A `get` among inserts finds a key that was there before**, in every run none of whose
steps acts on an outdated root or moves its key away from it. -/
theorem get_among_inserts {σ : Sys (Option ι)} (hst : st.Valid S) {k : List UInt8} {r : RecordId}
    (hk : st.Exec S (.get k) st (.record (.ok r))) {key : ι → List UInt8} {rid : ι → RecordId}
    (hrun : Sys.Run S (fun σ i => RootCurrent σ i ∧ ReadersSafe σ i) (Sys.reading st k key rid) σ) :
    σ.Finds S (keyFromBytes k) r := by
  obtain ⟨F₀, h₀, hfresh⟩ := hst
  rw [h₀.exec_get_iff] at hk
  have hinv : ∃ F D pc, Inv S (F₀.Binds st.page) σ F D ∧
      σ.task none = .get (keyFromBytes k) pc ∧ GetOk F (keyFromBytes k) (.ok r) pc := by
    induction hrun with
    | refl =>
      refine ⟨F₀, .settled, .start, Inv.start (σ := Sys.reading st k key rid) h₀ hfresh ?_, rfl,
        trivial⟩
      rintro (_ | i)
      · exact Or.inr ⟨_, rfl⟩
      · exact Or.inl ⟨_, _, keyFromBytes_lt _, rfl⟩
    | tail _ hstep ih =>
      obtain ⟨F, D, pc, h, hget, hok⟩ := ih
      obtain ⟨i, hen, ⟨hcur, hsafe⟩, rfl⟩ := hstep
      obtain ⟨F', D', h', hF⟩ := h.step hen hcur
      obtain ⟨pc', hget', hok'⟩ := hok.step h hget hk hen hsafe hF h'
      exact ⟨F', D', pc', h', hget', hok'⟩
  obtain ⟨F, D, pc, h, hget, hok⟩ := hinv
  have hbinds := (h.binds _ _).2 (Or.inl hk)
  refine ⟨fun res hres => ?_, fun hdone => ⟨pc, hget, ?_⟩⟩
  · rw [hget] at hres
    obtain rfl : pc = .done res := by simpa using hres
    exact hok
  · -- the inserts have finished, and nothing is due any more
    obtain rfl := h.settled fun i k' r' pc' hi => by
      cases i with
      | none =>
        rw [hget] at hi
        cases hi
      | some i => exact hdone i
    have hans : F.Answer σ.store.page (keyFromBytes k) (.ok r) := hbinds
    exact hok.returns h.tree (keyFromBytes_lt k) hans

/-! ### A split that moves a key away from its reader -/

/-- An index of one leaf, on page `1`. -/
def oneLeaf (es : List BTreeLeafEntry) : Store :=
  ⟨fun p => if p = 1 then some (.leaf ⟨1, 0, 0, es⟩) else none, 1, 1⟩

/-- An index of one leaf is valid, and binds the entries of the leaf. -/
theorem oneLeaf_tree (es : List BTreeLeafEntry) (hs : SortedBy BTreeLeafEntry.key es)
    (hk : ∀ e ∈ es, e.key < keyBound) (hcap : es.length ≤ BTreeLeafPage.maxEntries) :
    (oneLeaf es).Valid .count ∧ ∀ k e, e ∈ es → e.key = keyFromBytes k →
      (oneLeaf es).Exec .count (.get k) (oneLeaf es) (.record (.ok e.recordId)) := by
  have hempty : Tree (fun _ => none) .settled (oneLeaf es).page 0 :=
    ⟨rfl, nofun, nofun, nofun, fun _ _ => rfl, fun h => absurd rfl h⟩
  obtain ⟨tree, hb⟩ := hempty.oneLeaf (n := 1) rfl rfl (by decide) rfl hs hk hcap rfl
  refine ⟨⟨_, tree, fun i hi => ?_⟩, fun k e he hek => ?_⟩
  · have h1 : 1 ≤ i := hi
    exact if_neg fun h => absurd (Nat.succ.inj h) (Nat.one_le_iff_ne_zero.1 h1)
  · have hrest : Tree _ .settled (oneLeaf es).page (oneLeaf es).root := tree
    exact hrest.exec_get_iff.2 ((hb _ _).2 ⟨e, he, hek, rfl⟩)

/-- A reader of key `1` on its way while key `2` is inserted beside it. -/
theorem get_among_inserts_one : Sys.Finds .count (keyFromBytes [1]) ⟨7, 0⟩
    ([none, some (), some (), none, none].foldl (Sys.step .count)
      (Sys.reading (oneLeaf [⟨1, 7, 0⟩]) [1] (fun _ => [2]) fun _ : Unit => ⟨7, 1⟩)) := by
  obtain ⟨hst, hget⟩ := oneLeaf_tree [⟨1, 7, 0⟩] (List.pairwise_singleton ..)
    (by simp [keyBound]) (by simp)
  refine get_among_inserts hst (hget [1] _ (List.mem_singleton_self _) rfl) (Sys.Legal.run
    ⟨trivial, ⟨trivial, ?_⟩, trivial, ⟨trivial, ?_⟩, ?_, ⟨⟨rfl, ?_⟩, ?_⟩, ?_, ⟨trivial, ?_⟩, ?_,
      ⟨trivial, ?_⟩, trivial⟩)
  · exact fun j k pc _ => ⟨nofun, fun _ _ l _ => by cases l <;> nofun⟩
  · exact fun j k pc _ => ⟨nofun, fun _ _ l _ => by cases l <;> nofun⟩
  · exact fun j => by cases j <;> exact List.not_mem_nil
  · exact fun j _ => by cases j <;> nofun
  · exact fun j k pc _ => ⟨nofun, fun _ _ l _ => by cases l <;> nofun⟩
  · exact fun j => by cases j <;> exact List.not_mem_nil
  · exact fun j k pc _ => ⟨nofun, fun _ _ l _ => by cases l <;> nofun⟩
  · exact fun j => by cases j <;> exact List.not_mem_nil
  · exact fun j k pc _ => ⟨nofun, fun _ _ l _ => by cases l <;> nofun⟩

/-- A full leaf: the keys from `0` to `252`. -/
def fullEntries : List BTreeLeafEntry := (List.range 253).map fun k => ⟨k, 7, 0⟩

theorem mem_fullEntries {e : BTreeLeafEntry} : e ∈ fullEntries ↔ ∃ k < 253, e = ⟨k, 7, 0⟩ := by
  simp [fullEntries, eq_comm]

theorem sorted_fullEntries : SortedBy BTreeLeafEntry.key fullEntries :=
  List.pairwise_map.2 List.pairwise_lt_range

theorem length_fullEntries : fullEntries.length = 253 := by simp [fullEntries]

theorem fullEntries_lt {e : BTreeLeafEntry} (he : e ∈ fullEntries) : e.key < 253 := by
  obtain ⟨k, hk, rfl⟩ := mem_fullEntries.1 he
  exact hk

/-- What an insert of key `253` into a full leaf comes to: it finds the leaf full, and moves
the keys from `127` on to page `2`. -/
structure SplitsFull (es entries xs : List BTreeLeafEntry) (e : BTreeLeafEntry)
    (ys : List BTreeLeafEntry) (st : Store) : Prop where
  finds : (oneLeaf es).step .count (Insert.machine 253 ⟨7, 1⟩) (.findLeafForWrite 1 []) =
    (oneLeaf es, .splitLeafAlloc 1 [] entries 0 0)
  splits : (oneLeaf es).step .count (Insert.machine 253 ⟨7, 1⟩)
    (.splitLeafAlloc 1 [] entries 0 0) = (st, .newRootAlloc 127 2)
  root : st.root = 1
  lower : st.page 1 = some (.leaf ⟨1, 2, 0, xs⟩)
  upper : st.page 2 = some (.leaf ⟨2, 0, 1, e :: ys⟩)
  sorted : SortedBy BTreeLeafEntry.key xs
  below : ∀ x ∈ xs, x.key < 200
  first : e.key = 127

/-- An insert of key `253` cuts the full leaf at key `127`. -/
theorem exists_splitsFull : ∃ entries xs e ys st, SplitsFull fullEntries entries xs e ys st := by
  have habs : ∀ e ∈ fullEntries, e.key ≠ 253 := fun e he => (fullEntries_lt he).ne
  have hs := (insertIdx_findSlot (e := Insert.newEntry 253 ⟨7, 1⟩) sorted_fullEntries habs).2.2
  obtain ⟨xs, e, ys, he, -, -, hcut, hsplit⟩ := Insert.splitLeafFinish_spec hs
    (by rw [length_insertBy, length_fullEntries]; rfl)
  have hkey : e.key = 127 := by
    rw [insertBy_last (fun x hx => fullEntries_lt hx)] at hcut
    have hmid : (fullEntries ++ [Insert.newEntry 253 ⟨7, 1⟩]).length / 2 = 127 := by
      rw [List.length_append, length_fullEntries]
      rfl
    have h127 : fullEntries[127]? = some ⟨127, 7, 0⟩ := by simp [fullEntries]
    rw [hmid, List.getElem?_append_left (by rw [length_fullEntries]; decide), h127] at hcut
    rw [← Option.some.inj hcut]
  rw [he] at hs
  obtain ⟨hsx, -, hxy⟩ := SortedBy.append_iff.1 hs
  have hleaf : (oneLeaf fullEntries).view.page 1 = some (.leaf ⟨1, 0, 0, fullEntries⟩) := rfl
  have hfull : Insert.resume 253 ⟨7, 1⟩ (oneLeaf fullEntries).view 0 (.findLeafForWrite 1 []) =
      ⟨[], none, .splitLeafAlloc 1 []
        (insertBy BTreeLeafEntry.key (Insert.newEntry 253 ⟨7, 1⟩) fullEntries) 0 0⟩ := by
    rw [Insert.resume, Insert.findLeafForWrite_leaf hleaf, ite_self]
    exact Insert.intoLeaf_full sorted_fullEntries habs length_fullEntries.ge
  have hnew : Insert.resume 253 ⟨7, 1⟩ ((oneLeaf fullEntries).newPage .count).view 2
      (.splitLeafAlloc 1 []
        (insertBy BTreeLeafEntry.key (Insert.newEntry 253 ⟨7, 1⟩) fullEntries) 0 0) =
      ⟨Insert.leafWrites 2 1 xs (e :: ys) 0 0, none, .newRootAlloc 127 2⟩ := by
    rw [Insert.resume, hsplit, if_pos rfl, hkey]
    rfl
  have hbelow : ∀ x ∈ xs, x.key < 200 := fun x hx =>
    (hxy x hx e (List.mem_cons_self ..)).trans (by omega)
  generalize fullEntries = es at hfull hnew ⊢
  exact ⟨_, xs, e, ys, _, Store.step_goto (by rintro ⟨⟩) (by rintro ⟨⟩) hfull,
    Store.step_newPage rfl hnew, rfl, rfl,
    rfl, hsx, hbelow, hkey⟩

/-- **A split takes a key away from its reader.**  The reader of key `200` is about to fetch
the root leaf when an insert splits it; no new root is there yet, and the reader finds the
lower half. -/
theorem get_misses : ¬ ∀ (ι : Type) [DecidableEq ι] (S : PageSupply) (st : Store) (k : List UInt8)
    (r : RecordId) (key : ι → List UInt8) (rid : ι → RecordId) (σ : Sys (Option ι)), st.Valid S →
    st.Exec S (.get k) st (.record (.ok r)) → (∀ i, keyFromBytes (key i) ≠ keyFromBytes k) →
    Sys.Run S (fun _ _ => True) (Sys.reading st k key rid) σ → σ.Finds S (keyFromBytes k) r := by
  intro hall
  obtain ⟨hst, hread⟩ := oneLeaf_tree _ sorted_fullEntries
    (fun e he => (fullEntries_lt he).trans (by decide)) length_fullEntries.le
  obtain ⟨entries, xs, e, ys, st', hsplit⟩ := exists_splitsFull
  have h200 := hread [200] _ (mem_fullEntries.2 ⟨200, by decide, rfl⟩) rfl
  generalize fullEntries = es at hst h200 hsplit
  -- both have read the root
  let σ₂ := [none, some ()].foldl (Sys.step .count)
    (Sys.reading (oneLeaf es) [200] (fun _ => [253]) fun _ : Unit => ⟨7, 1⟩)
  have run₂ : Sys.Run .count (fun _ _ => True) _ σ₂ :=
    Sys.Legal.run ⟨trivial, trivial, trivial, trivial, trivial⟩
  -- the insert finds its leaf full
  have step₃ := Sys.step_insert (σ := σ₂) (i := some ()) rfl hsplit.finds
  have run₃ := run₂.tail ⟨some (), fun j => by cases j <;> exact List.not_mem_nil, trivial, rfl⟩
  rw [step₃] at run₃
  set σ₃ : Sys (Option Unit) := ⟨_, Function.update σ₂.task (some ()) _⟩ with hσ₃
  -- the leaf splits
  have step₄ := Sys.step_insert (σ := σ₃) (i := some ()) rfl hsplit.splits
  have run₄ := run₃.tail ⟨some (), trivial, trivial, rfl⟩
  rw [step₄] at run₄
  set σ₄ : Sys (Option Unit) := ⟨_, Function.update σ₃.task (some ()) _⟩ with hσ₄
  have hidle : ∀ j, 1 ∉ (σ₄.task j).holds := fun j => by cases j <;> exact List.not_mem_nil
  -- the reader finds the lower half
  have hget₄ : σ₄.task none = .get 200 (.findLeaf 1) := rfl
  have hfind : Get.resume 200 σ₄.store.view (.findLeaf 1) = .readLeaf 1 := by
    have hview : σ₄.store.view.page 1 = some (.leaf ⟨1, 2, 0, xs⟩) := hsplit.lower
    rw [Get.resume]
    unfold Get.findLeaf
    rw [hview, dispatch]
  have step₅ := Sys.step_get (S := .count) hget₄
  have run₅ := run₄.tail ⟨none, hidle, trivial, rfl⟩
  rw [step₅, hfind] at run₅
  set σ₅ : Sys (Option Unit) := ⟨σ₄.store, Function.update σ₄.task none _⟩ with hσ₅
  have hget₅ : σ₅.task none = .get 200 (.readLeaf 1) := rfl
  have hmiss : Get.resume 200 σ₅.store.view (.readLeaf 1) = .done (.error .tupleNonExistent) := by
    have hlook : (⟨1, 2, 0, xs⟩ : BTreeLeafPage).lookup 200 = none :=
      (BTreeLeafPage.lookup_eq_none_iff (p := ⟨1, 2, 0, xs⟩) hsplit.sorted).2 fun x hx => (hsplit.below x hx).ne
    have hview : σ₅.store.view.page 1 = some (.leaf ⟨1, 2, 0, xs⟩) := hsplit.lower
    rw [Get.resume]
    unfold Get.readLeaf
    rw [hview, asLeaf]
    dsimp only
    rw [hlook]
  have step₆ := Sys.step_get (S := .count) hget₅
  have run₆ := run₅.tail ⟨none, fun j => by cases j <;> exact List.not_mem_nil, trivial, rfl⟩
  rw [step₆, hmiss] at run₆
  obtain ⟨hfound, -⟩ := hall Unit .count _ _ ⟨7, 0⟩ _ _ _ hst h200 (fun _ => by decide) run₆
  cases hfound _ rfl

end BTree
end Abdb
