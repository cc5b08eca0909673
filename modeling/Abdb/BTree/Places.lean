/-
# Places of pages

An order for the latches of an index.  Each page of the tree has a `Place`: a level, and
a position among the pages of its level.  Child pointers lead to lower levels and
`next_page` to positions further right (`Links`), and an insert latches pages downwards
and then to the right, so that it never waits for a page before one it holds.

A page keeps its place for ever.  A split puts the new leaf between the old one and its
right sibling, positions being rational numbers, and a new root above the pages it is to
lead to.  None of this depends on keys, on which root an insert has read or on
what other inserts do meanwhile; so every piece of `insert` keeps it (`Allows`), on any
pages and in its error branches too.
-/

import Mathlib.Algebra.Field.Rat
import Mathlib.Algebra.Order.Field.Basic
import Mathlib.Algebra.Order.Ring.Rat
import Mathlib.Order.Defs.Unbundled
import Abdb.BTree.InsertSpec
import Abdb.BTree.Shape

namespace Abdb
namespace BTree

open Lib

/-- Where a page lies in the order of the latches. -/
structure Place where
  level : ℕ
  pos : ℚ

/-- Latches are taken downwards, and along a level to the right. -/
def Place.Before (x y : Place) : Prop := y.level < x.level ∨ x.level = y.level ∧ x.pos < y.pos

/-- The places of the pages that have one. -/
abbrev Places := LPageId → Option Place

namespace Places

variable {R R' : Places} {p q c root : LPageId} {x y : Place} {ℓ ℓ' : ℕ} {locked : List LPageId}

/-- One page is latched before another. -/
def Before (R : Places) (p q : LPageId) : Prop := ∃ x y, R p = some x ∧ R q = some y ∧ x.Before y

instance : IsStrictOrder LPageId R.Before where
  irrefl p := by
    rintro ⟨x, y, hx, hy, h⟩
    obtain rfl : x = y := Option.some.inj (hx.symm.trans hy)
    rcases h with h | ⟨-, h⟩
    · exact lt_irrefl _ h
    · exact lt_irrefl _ h
  trans p q r := by
    rintro ⟨x, y, hx, hy, h⟩ ⟨y', z, hy', hz, h'⟩
    obtain rfl : y = y' := Option.some.inj (hy.symm.trans hy')
    refine ⟨x, z, hx, hz, ?_⟩
    rcases h with h | ⟨h, hp⟩ <;> rcases h' with h' | ⟨h', hp'⟩
    · exact Or.inl (h'.trans h)
    · exact Or.inl (h' ▸ h)
    · exact Or.inl (h ▸ h')
    · exact Or.inr ⟨h.trans h', hp.trans hp'⟩

/-- The page has a place below a level. -/
def Below (R : Places) (ℓ : ℕ) (c : LPageId) : Prop := ∃ y, R c = some y ∧ y.level < ℓ

/-- The pages have places above a level, each further up than the one before it. -/
def Above (R : Places) : ℕ → List LPageId → Prop
  | _, [] => True
  | ℓ, q :: rest => ∃ x, R q = some x ∧ ℓ < x.level ∧ R.Above x.level rest

/-- The page is a leaf's right sibling: there is none, or it lies further right. -/
def RightOf (R : Places) (x : Place) (p : LPageId) : Prop :=
  p = 0 ∨ ∃ y, R p = some y ∧ y.level = 0 ∧ x.pos < y.pos

/-- The pointers of a page at a place lead further in the order. -/
def Links (R : Places) (x : Place) : Page → Prop
  | .inner i =>
    ∀ c ∈ childrenOf BTreeInnerEntry.rightChild i.leftmostChild i.entries, R.Below x.level c
  | .leaf l => x.level = 0 ∧ R.RightOf x l.nextPage
  | .other _ => True

/-- The pages that have a place exist, and their pointers lead further in the order. -/
def On (R : Places) (page : LPageId → Option Page) : Prop :=
  ∀ p x, R p = some x → ∃ pg, page p = some pg ∧ R.Links x pg

/-- Pages keep their places. -/
def Grows (R R' : Places) : Prop := ∀ p x, R p = some x → R' p = some x

theorem Grows.refl : R.Grows R := fun _ _ h => h

theorem Below.mono (h : R.Below ℓ c) (hR : R.Grows R') (hℓ : ℓ ≤ ℓ') : R'.Below ℓ' c := by
  obtain ⟨y, hy, hlt⟩ := h
  exact ⟨y, hR _ _ hy, hlt.trans_le hℓ⟩

theorem Above.mono (h : R.Above ℓ locked) (hR : R.Grows R') : R'.Above ℓ locked := by
  induction locked generalizing ℓ with
  | nil => trivial
  | cons q rest ih =>
    obtain ⟨x, hx, hlt, hrest⟩ := h
    exact ⟨x, hR _ _ hx, hlt, ih hrest⟩

theorem RightOf.mono (h : R.RightOf x p) (hR : R.Grows R') : R'.RightOf x p := by
  rcases h with h | ⟨y, hy, h0, hlt⟩
  · exact Or.inl h
  · exact Or.inr ⟨y, hR _ _ hy, h0, hlt⟩

theorem Links.mono {pg : Page} (h : R.Links x pg) (hR : R.Grows R') : R'.Links x pg := by
  cases pg with
  | inner i => exact fun c hc => (h c hc).mono hR le_rfl
  | leaf l => exact ⟨h.1, h.2.mono hR⟩
  | other o => trivial

/-- Every page of a chain above a level lies above it. -/
theorem Above.lt (h : R.Above ℓ locked) (hq : q ∈ locked) : ∃ x, R q = some x ∧ ℓ < x.level := by
  induction locked generalizing ℓ with
  | nil => cases hq
  | cons p rest ih =>
    obtain ⟨x, hx, hlt, hrest⟩ := h
    rcases List.mem_cons.1 hq with rfl | hq
    · exact ⟨x, hx, hlt⟩
    · obtain ⟨y, hy, hlt'⟩ := ih hrest hq
      exact ⟨y, hy, hlt.trans hlt'⟩

/-- The pages of a chain come before a page below it. -/
theorem Above.before (h : R.Above y.level locked) (hp : R p = some y) (hq : q ∈ locked) :
    R.Before q p := by
  obtain ⟨x, hx, hlt⟩ := h.lt hq
  exact ⟨x, y, hx, hp, Or.inl hlt⟩

/-- A page gets a place. -/
theorem grows_update (h : R p = none) : R.Grows (Function.update R p (some x)) := by
  intro q y hq
  rw [Function.update_of_ne]
  · exact hq
  · rintro rfl
    rw [h] at hq
    cases hq

/-- A zeroed page gets a place. -/
theorem On.place {page : LPageId → Option Page} (h : R.On page) (hp : R p = none)
    (hpage : page p = some .zeroed) (x : Place) : Places.On (Function.update R p (some x)) page := by
  intro q y hq
  by_cases hqp : q = p
  · subst hqp
    exact ⟨_, hpage, trivial⟩
  · rw [Function.update_of_ne hqp] at hq
    obtain ⟨pg, hpg, hlinks⟩ := h q y hq
    exact ⟨pg, hpg, hlinks.mono (grows_update hp)⟩

/-! ### What an insert at an await point needs -/

/-- Where the pages an insert has at an await point lie: those it has latched above the one
it awaits, what it is to link further in the order than what will lead there.  Past the
start of a descent there is a root. -/
def LatchOk (R : Places) (root : LPageId) : InsertPc → Prop
  | .start | .allocFirst | .done _ => True
  | .setRoot n => n ≠ 0 ∧ ∃ x, R n = some x
  | .findLeafForWrite c locked => root ≠ 0 ∧ ∃ x, R c = some x ∧ R.Above x.level locked
  | .splitLeafAlloc leaf locked _ _ oldNext =>
    root ≠ 0 ∧ ∃ x, R leaf = some x ∧ x.level = 0 ∧ R.RightOf x oldNext ∧ R.Above 0 locked
  | .splitLeafSibling leaf locked n _ oldNext =>
    root ≠ 0 ∧ R.Before leaf oldNext ∧ R.Below 1 oldNext ∧ R.Below 1 n ∧ R.Above 0 locked
  | .splitInnerAlloc parent locked _ c entries left =>
    root ≠ 0 ∧ ∃ x, R parent = some x ∧ R.Above x.level locked ∧ R.Below x.level c ∧
      ∀ d ∈ childrenOf BTreeInnerEntry.rightChild left entries, R.Below x.level d
  | .newRootAlloc _ c => root ≠ 0 ∧ ∃ x, R c = some x
  | .newRootHeader n _ c => root ≠ 0 ∧ n ≠ 0 ∧ ∃ x, R c = some x

theorem LatchOk.mono {root' : LPageId} {pc : InsertPc} (h : R.LatchOk root pc) (hR : R.Grows R')
    (h0 : root ≠ 0 → root' ≠ 0) : R'.LatchOk root' pc := by
  cases pc with
  | start => trivial
  | allocFirst => trivial
  | done => trivial
  | setRoot n =>
    obtain ⟨hn, x, hx⟩ := h
    exact ⟨hn, x, hR _ _ hx⟩
  | findLeafForWrite c locked =>
    obtain ⟨hr, x, hx, habove⟩ := h
    exact ⟨h0 hr, x, hR _ _ hx, habove.mono hR⟩
  | splitLeafAlloc leaf locked entries oldPrev oldNext =>
    obtain ⟨hr, x, hx, hlevel, hright, habove⟩ := h
    exact ⟨h0 hr, x, hR _ _ hx, hlevel, hright.mono hR, habove.mono hR⟩
  | splitLeafSibling leaf locked n sep oldNext =>
    obtain ⟨hr, ⟨x, y, hx, hy, hbefore⟩, ho, hn, habove⟩ := h
    exact ⟨h0 hr, ⟨x, y, hR _ _ hx, hR _ _ hy, hbefore⟩, ho.mono hR le_rfl, hn.mono hR le_rfl,
      habove.mono hR⟩
  | splitInnerAlloc parent locked sep c entries left =>
    obtain ⟨hr, x, hx, habove, hc, hall⟩ := h
    exact ⟨h0 hr, x, hR _ _ hx, habove.mono hR, hc.mono hR le_rfl,
      fun d hd => (hall d hd).mono hR le_rfl⟩
  | newRootAlloc sep c =>
    obtain ⟨hr, x, hx⟩ := h
    exact ⟨h0 hr, x, hR _ _ hx⟩
  | newRootHeader n sep c =>
    obtain ⟨hr, hn, x, hx⟩ := h
    exact ⟨h0 hr, hn, x, hR _ _ hx⟩

/-- **An insert holds only pages before the one it awaits.** -/
theorem LatchOk.before {pc : InsertPc} {m : Mode} (h : R.LatchOk root pc)
    (hp : Insert.await pc = .page p m) (hq : q ∈ Insert.holds pc) : R.Before q p := by
  cases pc with
  | findLeafForWrite c locked =>
    obtain ⟨-, x, hx, habove⟩ := h
    obtain ⟨rfl, -⟩ : c = p ∧ Mode.write = m := by simpa [Insert.await] using hp
    exact habove.before hx hq
  | splitLeafSibling leaf locked n sep oldNext =>
    obtain ⟨-, hbefore, ⟨y, hy, h0⟩, -, habove⟩ := h
    obtain ⟨rfl, -⟩ : oldNext = p ∧ Mode.write = m := by simpa [Insert.await] using hp
    rcases List.mem_cons.1 hq with rfl | hq
    · exact hbefore
    · refine Above.before (y := y) ?_ hy hq
      rwa [Nat.lt_one_iff.1 h0]
  | _ => cases hp

/-- The page an insert keeps for the new root, which gets its place only with the root
pointer. -/
def reserved : InsertPc → Option LPageId
  | .newRootHeader n _ _ => some n
  | _ => none

/-- What an insert does up to its next await point keeps to the order: it writes pages that
have a place, with pointers that lead further, and its next state has what it needs. -/
structure Allows (R : Places) (r : LPageId) (o : Out InsertPc) : Prop where
  writes : ∀ w ∈ o.writes, ∃ x, R w.id = some x ∧ R.Links x w.page
  root : ∀ r', o.root = some r' → r' ≠ 0 ∧ ∃ x, R r' = some x
  pc : R.LatchOk (o.root.getD r) o.pc
  unreserved : reserved o.pc = none

theorem allows_goto {pc : InsertPc} (h : R.LatchOk root pc) (hr : reserved pc = none) :
    R.Allows root (Out.goto pc) := ⟨nofun, nofun, h, hr⟩

theorem allows_fail (e : Error) : R.Allows root (Insert.fail e) := allows_goto trivial rfl

/-- An insert ends with some writes. -/
theorem allows_done {ws : List Write} {res : Except Error Unit}
    (h : ∀ w ∈ ws, ∃ x, R w.id = some x ∧ R.Links x w.page) :
    R.Allows root ⟨ws, none, .done res⟩ := ⟨h, nofun, trivial, rfl⟩

theorem Allows.after {ws : List Write} {o : Out InsertPc} (h : R.Allows root o)
    (hws : ∀ w ∈ ws, ∃ x, R w.id = some x ∧ R.Links x w.page) : R.Allows root (o.after ws) where
  writes w hw := (List.mem_append.1 hw).elim (hws w) (h.writes w)
  root := h.root
  pc := h.pc
  unreserved := h.unreserved

/-- Such writes leave the pages in order. -/
theorem On.write {page : LPageId → Option Page} {ws : List Write} (h : R.On page)
    (hws : ∀ w ∈ ws, ∃ x, R w.id = some x ∧ R.Links x w.page) : R.On (writePages page ws) := by
  induction ws generalizing page with
  | nil => exact h
  | cons w ws ih =>
    rw [writePages_cons]
    refine ih (fun p x hx => ?_) fun w' hw' => hws w' (List.mem_cons_of_mem _ hw')
    by_cases hp : p = w.id
    · subst hp
      obtain ⟨x', hx', hlinks⟩ := hws w (List.mem_cons_self ..)
      obtain rfl : x = x' := Option.some.inj (hx.symm.trans hx')
      exact ⟨w.page, Function.update_self .., hlinks⟩
    · rw [Function.update_of_ne hp]
      exact h p x hx

/-- Pages without a place are not written. -/
theorem writePages_of_unplaced {page : LPageId → Option Page} {ws : List Write}
    (hws : ∀ w ∈ ws, ∃ x, R w.id = some x ∧ R.Links x w.page) (hp : R p = none) :
    writePages page ws p = page p := by
  induction ws generalizing page with
  | nil => rfl
  | cons w ws ih =>
    rw [writePages_cons, ih fun w' hw' => hws w' (List.mem_cons_of_mem _ hw')]
    refine Function.update_of_ne ?_ ..
    rintro rfl
    obtain ⟨x, hx, -⟩ := hws w (List.mem_cons_self ..)
    rw [hp] at hx
    cases hx

/-! ### The pieces of `insert` -/

end Places

namespace Insert

variable {R : Places} {root c n leaf parent : LPageId} {x y : Place} {ℓ : ℕ} {key sepKey : ℕ}
  {rid : RecordId} {view : View} {locked : List LPageId}

/-- Filling in entries leaves the sibling links as they are. -/
theorem insertEntry_nextPage {l l' : BTreeLeafPage} {rp : LPageId} {rs : SlotId}
    (h : l.insertEntry key rp rs = .ok l') : l'.nextPage = l.nextPage := by
  unfold BTreeLeafPage.insertEntry at h
  split at h
  · cases h
  · split at h
    · cases h
    · obtain rfl := Except.ok.inj h
      rfl

theorem insertEntries_nextPage (es : List BTreeLeafEntry) (l : BTreeLeafPage) :
    (l.insertEntries es).1.nextPage = l.nextPage := by
  induction es generalizing l with
  | nil => rfl
  | cons e es ih =>
    rw [BTreeLeafPage.insertEntries]
    split
    · rename_i l' hl
      exact (ih l').trans (insertEntry_nextPage hl)
    · rfl

/-- Children after a separator is put in anywhere: the old ones and the new one. -/
theorem below_insertIdx {es : List BTreeInnerEntry} {left : LPageId} {pos : ℕ} (hc : R.Below ℓ c)
    (h : ∀ d ∈ childrenOf BTreeInnerEntry.rightChild left es, R.Below ℓ d) :
    ∀ d ∈ childrenOf BTreeInnerEntry.rightChild left (es.insertIdx pos ⟨sepKey, c⟩),
      R.Below ℓ d := by
  intro d hd
  rcases mem_childrenOf.1 hd with rfl | ⟨e, he, rfl⟩
  · exact h _ (List.mem_cons_self ..)
  · rcases List.eq_or_mem_of_mem_insertIdx he with rfl | he
    · exact hc
    · exact h _ (mem_childrenOf.2 (Or.inr ⟨e, he, rfl⟩))

theorem insertSeparator_below {i i' : BTreeInnerPage}
    (h : i.insertSeparator sepKey c = .ok i') (hc : R.Below ℓ c)
    (hi : ∀ d ∈ childrenOf BTreeInnerEntry.rightChild i.leftmostChild i.entries, R.Below ℓ d) :
    ∀ d ∈ childrenOf BTreeInnerEntry.rightChild i'.leftmostChild i'.entries, R.Below ℓ d := by
  unfold BTreeInnerPage.insertSeparator at h
  split at h
  · cases h
  · split at h
    · cases h
    · obtain rfl := Except.ok.inj h
      exact below_insertIdx hc hi

theorem insertSeparators_below (es : List BTreeInnerEntry) {i : BTreeInnerPage}
    (hes : ∀ e ∈ es, R.Below ℓ e.rightChild)
    (hi : ∀ d ∈ childrenOf BTreeInnerEntry.rightChild i.leftmostChild i.entries, R.Below ℓ d) :
    ∀ d ∈ childrenOf BTreeInnerEntry.rightChild (i.insertSeparators es).1.leftmostChild
      (i.insertSeparators es).1.entries, R.Below ℓ d := by
  induction es generalizing i with
  | nil => exact hi
  | cons e es ih =>
    rw [BTreeInnerPage.insertSeparators]
    split
    · rename_i i' hi'
      exact ih (fun e' he' => hes e' (List.mem_cons_of_mem _ he'))
        (insertSeparator_below hi' (hes e (List.mem_cons_self ..)) hi)
    · exact hi

/-- **Climbing into the ancestors** keeps to the order, when the page to be linked lies
below them. -/
theorem allows_intoAncestors (hon : R.On view.page) (h0 : root ≠ 0) (hc : R c = some y)
    (habove : R.Above y.level locked) :
    R.Allows root (insertIntoAncestorsWithLocks view locked sepKey c) := by
  cases locked with
  | nil => exact Places.allows_goto ⟨h0, y, hc⟩ rfl
  | cons parent rest =>
    obtain ⟨x, hx, hlt, hrest⟩ := habove
    have hbelow : R.Below x.level c := ⟨y, hc, hlt⟩
    obtain ⟨pg, hpg, hlinks⟩ := hon parent x hx
    rw [insertIntoAncestorsWithLocks, hpg]
    cases pg with
    | leaf l => exact Places.allows_fail _
    | other o => exact Places.allows_fail _
    | inner i =>
      rw [asInner]
      dsimp only
      split_ifs with hroom
      · split
        · rename_i i' hi'
          refine Places.allows_done fun w hw => ?_
          obtain rfl := List.mem_singleton.1 hw
          exact ⟨x, hx, insertSeparator_below hi' hbelow hlinks⟩
        · exact Places.allows_fail _
      · rw [splitInner]
        split
        · exact Places.allows_fail _
        · exact Places.allows_goto ⟨h0, x, hx, hrest, hbelow, below_insertIdx hbelow hlinks⟩ rfl

/-- `split_inner` with its fresh page, which gets a place on the level of the old one. -/
theorem allows_splitInnerFinish {entries : List BTreeInnerEntry} {left : LPageId}
    (hon : R.On view.page) (h0 : root ≠ 0) (hn : R n = some y) (hp : R parent = some x)
    (hlevel : y.level = x.level) (habove : R.Above x.level locked)
    (hall : ∀ d ∈ childrenOf BTreeInnerEntry.rightChild left entries, R.Below x.level d) :
    R.Allows root (splitInnerFinish view n parent locked entries left) := by
  have hentry : ∀ e ∈ entries, R.Below x.level e.rightChild := fun e he =>
    hall _ (mem_childrenOf.2 (Or.inr ⟨e, he, rfl⟩))
  rw [splitInnerFinish]
  dsimp only
  split
  · exact Places.allows_fail _
  · rename_i pushedUp hmid
    have hnew := insertSeparators_below (entries.drop (entries.length / 2 + 1)) (R := R)
      (ℓ := x.level) (i := BTreeInnerPage.init n pushedUp.rightChild)
      (fun e he => hentry e (List.mem_of_mem_drop he)) fun d hd => by
        obtain rfl := List.mem_singleton.1 hd
        exact hentry _ (List.mem_of_getElem? hmid)
    have hold := insertSeparators_below (entries.take (entries.length / 2)) (R := R)
      (ℓ := x.level) (i := BTreeInnerPage.init parent left)
      (fun e he => hentry e (List.mem_of_mem_take he)) fun d hd => by
        obtain rfl := List.mem_singleton.1 hd
        exact hall _ (List.mem_cons_self ..)
    split
    · rename_i newPage e hnp
      rw [hnp] at hnew
      refine Places.allows_done fun w hw => ?_
      obtain rfl := List.mem_singleton.1 hw
      exact ⟨y, hn, fun d hd => (hnew d hd).mono .refl hlevel.ge⟩
    · rename_i newPage hnp
      rw [hnp] at hnew
      have hws : ∀ oldPage, (∀ d ∈ childrenOf BTreeInnerEntry.rightChild
          oldPage.leftmostChild oldPage.entries, R.Below x.level d) → ∀ w ∈
          [(⟨n, .inner newPage, true⟩ : Write), ⟨parent, .inner oldPage, false⟩],
          ∃ z, R w.id = some z ∧ R.Links z w.page := by
        intro oldPage hpage w hw
        rcases List.mem_cons.1 hw with rfl | hw
        · exact ⟨y, hn, fun d hd => (hnew d hd).mono .refl hlevel.ge⟩
        · obtain rfl := List.mem_singleton.1 hw
          exact ⟨x, hp, hpage⟩
      split
      · rename_i oldPage e hop
        rw [hop] at hold
        exact Places.allows_done (hws oldPage hold)
      · rename_i oldPage hop
        rw [hop] at hold
        exact (allows_intoAncestors (hon.write (hws oldPage hold)) h0 hn
          (hlevel ▸ habove)).after (hws oldPage hold)

/-- `split_leaf` with its fresh page, which gets a place between the old leaf and its right
sibling. -/
theorem allows_splitLeafFinish {entries : List BTreeLeafEntry} {oldPrev oldNext : LPageId}
    (hon : R.On view.page) (h0 : root ≠ 0) (hn : R n = some y) (hl : R leaf = some x)
    (hy : y.level = 0) (hx : x.level = 0) (hxy : x.pos < y.pos)
    (hright : R.RightOf y oldNext) (habove : R.Above 0 locked) :
    R.Allows root (splitLeafFinish view n leaf locked entries oldPrev oldNext) := by
  rw [splitLeafFinish]
  dsimp only
  split
  · exact Places.allows_fail _
  · rename_i first hmid
    have hnew := insertEntries_nextPage (entries.drop (entries.length / 2)) (.init n)
    have hold := insertEntries_nextPage (entries.take (entries.length / 2)) (.init leaf)
    split
    · rename_i newPage e hnp
      rw [hnp] at hnew
      refine Places.allows_done fun w hw => ?_
      obtain rfl := List.mem_singleton.1 hw
      exact ⟨y, hn, hy, Or.inl hnew⟩
    · rename_i newPage hnp
      have hws : ∀ oldPage : BTreeLeafPage, R.RightOf x oldPage.nextPage → ∀ w ∈
          [(⟨n, .leaf ((newPage.setNextPage oldNext).setPrevPage leaf), true⟩ : Write),
            ⟨leaf, .leaf oldPage, false⟩], ∃ z, R w.id = some z ∧ R.Links z w.page := by
        intro oldPage hpage w hw
        rcases List.mem_cons.1 hw with rfl | hw
        · exact ⟨y, hn, hy, hright⟩
        · obtain rfl := List.mem_singleton.1 hw
          exact ⟨x, hl, hx, hpage⟩
      split
      · rename_i oldPage e hop
        rw [hop] at hold
        exact Places.allows_done (hws oldPage (Or.inl hold))
      · rename_i oldPage hop
        have hws' := hws ((oldPage.setNextPage n).setPrevPage oldPrev)
          (Or.inr ⟨y, hn, hy, hxy⟩)
        split_ifs with hnext
        · exact (allows_intoAncestors (hon.write hws') h0 hn (hy ▸ habove)).after hws'
        · obtain ⟨z, hz, hz0, hyz⟩ := hright.resolve_left hnext
          refine ⟨hws', by rintro _ ⟨⟩, ⟨h0, ⟨x, z, hl, hz, Or.inr ⟨hx.trans hz0.symm, hxy.trans hyz⟩⟩,
            ⟨z, hz, by omega⟩, ⟨y, hn, by omega⟩, habove⟩, rfl⟩

/-- `split_leaf` at the old right sibling, whose `next_page` stays. -/
theorem allows_splitLeafSibling {oldNext : LPageId} (hon : R.On view.page) (h0 : root ≠ 0)
    (hn : R.Below 1 n) (ho : R.Below 1 oldNext) (habove : R.Above 0 locked) :
    R.Allows root (splitLeafSibling view locked n sepKey oldNext) := by
  obtain ⟨y, hy, hy0⟩ := hn
  obtain ⟨z, hz, -⟩ := ho
  obtain ⟨pg, hpg, hlinks⟩ := hon oldNext z hz
  rw [splitLeafSibling, hpg]
  cases pg with
  | inner i => exact Places.allows_fail _
  | other o => exact Places.allows_fail _
  | leaf l =>
    have hws : ∀ w ∈ [(⟨oldNext, .leaf (l.setPrevPage n), true⟩ : Write)],
        ∃ x, R w.id = some x ∧ R.Links x w.page := by
      intro w hw
      obtain rfl := List.mem_singleton.1 hw
      exact ⟨z, hz, hlinks⟩
    rw [asLeaf]
    dsimp only
    exact (allows_intoAncestors (hon.write hws) h0 hy (Nat.lt_one_iff.1 hy0 ▸ habove)).after hws

/-- `insert` on the leaf it has found. -/
theorem allows_intoLeaf {l : BTreeLeafPage} (h0 : root ≠ 0) (hl : R leaf = some x)
    (hlinks : R.Links x (.leaf l)) (habove : R.Above x.level locked) :
    R.Allows root (intoLeaf key rid leaf locked l) := by
  obtain ⟨hx, hright⟩ := hlinks
  rw [intoLeaf]
  split_ifs
  · split
    · exact Places.allows_fail _
    · exact Places.allows_goto ⟨h0, x, hl, hx, hright, hx ▸ habove⟩ rfl
  · split
    · rename_i l' hl'
      refine Places.allows_done fun w hw => ?_
      obtain rfl := List.mem_singleton.1 hw
      exact ⟨x, hl, hx, insertEntry_nextPage hl' ▸ hright⟩
    · exact Places.allows_fail _

/-- One round of `find_leaf_for_write`. -/
theorem allows_findLeafForWrite (hon : R.On view.page) (h0 : root ≠ 0) (hc : R c = some x)
    (habove : R.Above x.level locked) :
    R.Allows root (findLeafForWrite view key rid c locked) := by
  obtain ⟨pg, hpg, hlinks⟩ := hon c x hc
  rw [findLeafForWrite, hpg]
  cases pg with
  | other o =>
    rw [dispatch]
    cases PageType.tryFrom o.pageTypeId <;> exact Places.allows_fail _
  | inner i =>
    obtain ⟨y, hy, hlt⟩ := hlinks _ (i.findChild_mem key)
    refine Places.allows_goto ⟨h0, y, hy, x, hc, hlt, ?_⟩ rfl
    split_ifs
    · trivial
    · exact habove
  | leaf l =>
    refine allows_intoLeaf h0 hc hlinks ?_
    split_ifs
    · trivial
    · exact habove

/-- The new root leads to the old one and to its new sibling. -/
theorem allows_newRootFinish (h0 : n ≠ 0) (hn : R n = some x) (hr : R.Below x.level view.root)
    (hc : R.Below x.level c) : R.Allows root (newRootFinish view n sepKey c) := by
  have hinit : ∀ d ∈ childrenOf BTreeInnerEntry.rightChild view.root [], R.Below x.level d :=
    fun d hd => List.mem_singleton.1 hd ▸ hr
  have hroot : ∀ r', some n = some r' → r' ≠ 0 ∧ ∃ x, R r' = some x := by
    rintro r' hr'
    obtain rfl := Option.some.inj hr'
    exact ⟨h0, x, hn⟩
  rw [newRootFinish]
  split
  · rename_i i hi
    refine ⟨fun w hw => ?_, hroot, trivial, rfl⟩
    obtain rfl := List.mem_singleton.1 hw
    exact ⟨x, hn, insertSeparator_below hi hc hinit⟩
  · refine ⟨fun w hw => ?_, hroot, trivial, rfl⟩
    obtain rfl := List.mem_singleton.1 hw
    exact ⟨x, hn, hinit⟩

end Insert
end BTree
end Abdb
