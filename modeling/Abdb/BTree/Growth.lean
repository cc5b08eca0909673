/-
# How a tree grows

The changes an insert makes to a tree, one at a time and each on the whole
representation invariant: new content for a page, a page that splits in two with a
separator due above it, a due separator that arrives, a new root, a first leaf.  The
page rewrites of `split_leaf`, `split_inner` and `insert_into_ancestors_with_locks` are
instances, and so is every interleaving of them that keeps the dues apart.
-/

import Abdb.BTree.Tree

namespace Abdb
namespace BTree

open Lib

variable {F F' : Layout} {D D' : Dues} {page page' : LPageId → Option Page}
  {root p q n : LPageId} {ℓ a b m lo hi k : ℕ} {t : Option LPageId}

/-! ### Dues -/

/-- What is due in a page, or above the root. -/
def Dues.due (D : Dues) : Option LPageId → Option BTreeInnerEntry
  | none => D.root
  | some q => D.sep q

/-- Change what is due in a page, or above the root. -/
def Dues.setDue (D : Dues) : Option LPageId → Option BTreeInnerEntry → Dues
  | none, e => { D with root := e }
  | some q, e => { D with sep := Function.update D.sep q e }

theorem Dues.setDue_sep {e : Option BTreeInnerEntry} :
    (D.setDue t e).sep q = if t = some q then e else D.sep q := by
  cases t with
  | none => simp [Dues.setDue]
  | some r =>
    simp only [Dues.setDue, Function.update_apply, Option.some.injEq]
    exact if_congr eq_comm rfl rfl

theorem Dues.setDue_root {e : Option BTreeInnerEntry} :
    (D.setDue t e).root = if t = none then e else D.root := by
  cases t <;> simp [Dues.setDue]

theorem Dues.setDue_due {e : Option BTreeInnerEntry} :
    (D.setDue t e).due = Function.update D.due t e := by
  funext s
  cases s with
  | none =>
    rw [Dues.due, Dues.setDue_root, Function.update_apply]
    exact if_congr eq_comm rfl rfl
  | some q =>
    rw [Dues.due, Dues.setDue_sep, Function.update_apply]
    exact if_congr eq_comm rfl rfl

@[simp] theorem Dues.setDue_prev {e : Option BTreeInnerEntry} : (D.setDue t e).prev = D.prev := by
  cases t <;> rfl

/-- A due that is settled again leaves nothing behind. -/
theorem Dues.setDue_settled {e : Option BTreeInnerEntry} :
    (Dues.settled.setDue t e).setDue t none = Dues.settled := by
  refine Dues.ext (funext fun q => ?_) ?_ ?_
  · rw [Dues.setDue_sep, Dues.setDue_sep]
    split_ifs <;> rfl
  · rw [Dues.setDue_root, Dues.setDue_root]
    split_ifs <;> rfl
  · rw [Dues.setDue_prev, Dues.setDue_prev]

/-- Where the separator of a split page goes: into the page one level above that shares
a key with it, or above the root. -/
def Layout.Above (F : Layout) (root : LPageId) : Option LPageId → LPageId → Prop
  | none, p => p = root
  | some q, p => ∃ ℓ a b lo hi k, F p = some ⟨ℓ, a, b⟩ ∧ F q = some ⟨ℓ + 1, lo, hi⟩ ∧
      a ≤ k ∧ k < b ∧ lo ≤ k ∧ k < hi

/-! ### Local changes -/

/-- **Pages may be rewritten and dues settled page by page**, as long as every page stays
well formed and nothing changes about the root. -/
theorem Tree.local (h : Tree F D page root)
    (hok : ∀ p s, F p = some s → PageOk F D p s (page p) → PageOk F D' p s (page' p))
    (hroot : D'.root = D.root) : Tree F D' page' root where
  zero := h.zero
  bounds := h.bounds
  disjoint := h.disjoint
  ok hp := hok _ _ hp (h.ok hp)
  empty := h.empty
  top hr := by rw [hroot]; exact h.top hr

/-- New content for one page. -/
theorem Tree.update (h : Tree F D page root) {pg : Page}
    (hok : ∀ s, F p = some s → PageOk F D p s (some pg)) :
    Tree F D (Function.update page p (some pg)) root := by
  refine h.local (fun q s hq ok => ?_) rfl
  by_cases hqp : q = p
  · subst hqp
    rw [Function.update_self]
    exact hok s hq
  · rwa [Function.update_of_ne hqp]

/-- A page outside the tree may hold anything. -/
theorem Tree.update_outside (h : Tree F D page root) (hp : F p = none) (pg : Page) :
    Tree F D (Function.update page p (some pg)) root :=
  h.update fun s hs => by rw [hp] at hs; cases hs

/-! ### A split -/

/-- The layout after page `p` with `[a, b)` gave up `[m, b)` to page `n`. -/
def Layout.split (F : Layout) (p n : LPageId) (ℓ a m b : ℕ) : Layout :=
  Function.update (Function.update F p (some ⟨ℓ, a, m⟩)) n (some ⟨ℓ, m, b⟩)

theorem Layout.split_right : F.split p n ℓ a m b n = some ⟨ℓ, m, b⟩ := by
  simp [Layout.split]

theorem Layout.split_left (h : p ≠ n) : F.split p n ℓ a m b p = some ⟨ℓ, a, m⟩ := by
  simp [Layout.split, h]

theorem Layout.split_of_ne (hp : q ≠ p) (hn : q ≠ n) : F.split p n ℓ a m b q = F q := by
  simp [Layout.split, hp, hn]

/-- A span of the split layout is a part of a span of the old one, of the same page or,
for the two halves, of the page that split. -/
theorem Layout.of_split (hp : F p = some ⟨ℓ, a, b⟩) (ham : a ≤ m) (hmb : m ≤ b) {s : Span}
    (hq : F.split p n ℓ a m b q = some s) :
    ∃ q' x y, F q' = some ⟨s.level, x, y⟩ ∧ x ≤ s.lo ∧ s.hi ≤ y ∧
      (q' = q ∧ q ≠ p ∧ q ≠ n ∨ q' = p ∧ q = p ∧ s = ⟨ℓ, a, m⟩ ∨
        q' = p ∧ q = n ∧ s = ⟨ℓ, m, b⟩) := by
  by_cases hqn : q = n
  · subst hqn
    rw [Layout.split_right, Option.some.injEq] at hq
    subst hq
    exact ⟨p, a, b, hp, ham, le_rfl, Or.inr (Or.inr ⟨rfl, rfl, rfl⟩)⟩
  · by_cases hqp : q = p
    · subst hqp
      rw [Layout.split_left hqn, Option.some.injEq] at hq
      subst hq
      exact ⟨q, a, b, hp, le_rfl, hmb, Or.inr (Or.inl ⟨rfl, rfl, rfl⟩)⟩
    · rw [Layout.split_of_ne hqp hqn] at hq
      exact ⟨q, s.lo, s.hi, hq, le_rfl, le_rfl, Or.inl ⟨rfl, hqp, hqn⟩⟩

/-- Every span of `F` is one of `F'`, except that a page that was cut at a key has lost
the part of its range from there on. -/
def Layout.Grows (F F' : Layout) (cut : Option (LPageId × ℕ)) : Prop :=
  ∀ p s, F p = some s → F' p = some s ∨ ∃ m, cut = some (p, m) ∧ F' p = some ⟨s.level, s.lo, m⟩

theorem Layout.Grows.refl {cut : Option (LPageId × ℕ)} : F.Grows F cut := fun _ _ h => Or.inl h

/-- Every page keeps its level and its start. -/
theorem Layout.Grows.start {cut : Option (LPageId × ℕ)} (h : F.Grows F' cut) {p : LPageId}
    {ℓ a b : ℕ} (hp : F p = some ⟨ℓ, a, b⟩) : ∃ b', F' p = some ⟨ℓ, a, b'⟩ := by
  rcases h p _ hp with hp' | ⟨m, -, hp'⟩
  · exact ⟨b, hp'⟩
  · exact ⟨m, hp'⟩

theorem Layout.grows_split (hp : F p = some ⟨ℓ, a, b⟩) (hn : F n = none) :
    F.Grows (F.split p n ℓ a m b) (some (p, m)) := by
  intro q s hq
  have hqn : q ≠ n := by rintro rfl; rw [hn] at hq; cases hq
  by_cases hqp : q = p
  · subst hqp
    obtain rfl : ⟨ℓ, a, b⟩ = s := by simpa [hp] using hq
    exact Or.inr ⟨m, rfl, Layout.split_left hqn⟩
  · exact Or.inl ((Layout.split_of_ne hqp hqn).trans hq)

/-- The page a separator is due in is no other page that has the split page as a child. -/
theorem Tree.above_unique (h : Tree F D page root) (hp : F p = some ⟨ℓ, a, b⟩)
    (ht : F.Above root t p) (hq : F q = some ⟨ℓ + 1, lo, hi⟩) (hla : lo ≤ a) (hbh : b ≤ hi) :
    t = some q := by
  cases t with
  | none =>
    obtain rfl : p = root := ht
    obtain ⟨h', htop, hle⟩ := h.top (h.ne_zero hp)
    obtain ⟨_, _, hc, -, -⟩ := htop.covers (fun _ _ _ h => h.lt) (List.mem_cons_self ..)
    have h₁ := hle hq
    obtain rfl := Layout.Covers.level hp hc
    dsimp only at h₁
    omega
  | some q' =>
    obtain ⟨ℓ', a', b', lo', hi', k, hp', hq', ha, hb, hlo, hhi⟩ := ht
    rw [hp, Option.some.injEq, Span.mk.injEq] at hp'
    obtain ⟨rfl, rfl, rfl⟩ := hp'
    rw [h.unique hq' hq hlo hhi (hla.trans ha) (hb.trans_le hbh)]

/-- **A page splits.**  Page `p` with `[a, b)` keeps `[a, m)`, the fresh page `n` gets
`[m, b)`, and the separator between them is due above `p`.  For a leaf, the old right
neighbour is due the new page as its `prev_page`. -/
theorem Tree.split (h : Tree F D page root) (hp : F p = some ⟨ℓ, a, b⟩) (hn : F n = none)
    (hn0 : n ≠ 0) (ham : a < m) (hmb : m < b) (ht : F.Above root t p) (hdue : D.due t = none)
    (hsep : ∀ q, q ≠ p → q ≠ n → D'.sep q = if t = some q then some ⟨m, n⟩ else D.sep q)
    (hroot : D'.root = if t = none then some ⟨m, n⟩ else D.root)
    (hprev : ∀ q lo hi, F q = some ⟨0, lo, hi⟩ → q ≠ p →
      ¬(ℓ = 0 ∧ lo = b) ∧ D'.prev q = D.prev q ∨ (ℓ = 0 ∧ lo = b) ∧ D'.prev q = some n)
    (hpage : ∀ q, q ≠ p → q ≠ n → page' q = page q)
    (hpok : PageOk (F.split p n ℓ a m b) D' p ⟨ℓ, a, m⟩ (page' p))
    (hnok : PageOk (F.split p n ℓ a m b) D' n ⟨ℓ, m, b⟩ (page' n)) :
    Tree (F.split p n ℓ a m b) D' page' root := by
  have hpn : p ≠ n := by rintro rfl; rw [hn] at hp; cases hp
  have hroot0 : root ≠ 0 := fun h0 => by have := h.empty h0 p; rw [hp] at this; cases this
  -- what other pages cover, they still cover
  have keep : ∀ {ℓ' x c d}, F.Covers ℓ' x c d → x ≠ p → (F.split p n ℓ a m b).Covers ℓ' x c d := by
    intro ℓ' x c d hx hxp
    refine ⟨?_, hx.2⟩
    rw [Layout.split_of_ne hxp]
    · exact hx.1
    · rintro rfl; have := hx.1; rw [hn] at this; cases this
  have hright : (F.split p n ℓ a m b).Covers ℓ n m b := ⟨Layout.split_right, hmb⟩
  have hleft : (F.split p n ℓ a m b).Covers ℓ p a m := ⟨Layout.split_left hpn, ham⟩
  refine ⟨?_, ?_, ?_, ?_, fun h0 => absurd h0 hroot0, fun _ => ?_⟩
  · rw [Layout.split_of_ne (h.ne_zero hp).symm hn0.symm]
    exact h.zero
  · intro q s hq
    obtain ⟨q', x, y, hq', -, hy, hcase⟩ := Layout.of_split hp ham.le hmb.le hq
    refine ⟨?_, hy.trans (h.bounds hq').2⟩
    rcases hcase with ⟨rfl, hqp, hqn⟩ | ⟨-, -, rfl⟩ | ⟨-, -, rfl⟩
    · rw [Layout.split_of_ne hqp hqn] at hq
      exact (h.bounds hq).1
    · exact ham
    · exact hmb
  · intro q q' ℓ' x y x' y' hq hq'
    obtain ⟨r, u, v, hr, hu, hv, hc⟩ := Layout.of_split hp ham.le hmb.le hq
    obtain ⟨r', u', v', hr', hu', hv', hc'⟩ := Layout.of_split hp ham.le hmb.le hq'
    dsimp only at hr hr' hu hv hu' hv'
    rcases h.disjoint hr hr' with rfl | hd | hd
    · rcases hc with ⟨rfl, hqp, hqn⟩ | ⟨rfl, rfl, hs⟩ | ⟨rfl, rfl, hs⟩ <;>
        rcases hc' with ⟨h₁, hqp', hqn'⟩ | ⟨h₁, h₂, hs'⟩ | ⟨h₁, h₂, hs'⟩ <;>
        simp_all
    · exact Or.inr (Or.inl (by omega))
    · exact Or.inr (Or.inr (by omega))
  · intro q s hq
    by_cases hqp : q = p
    · subst hqp
      rw [Layout.split_left hpn, Option.some.injEq] at hq
      exact hq ▸ hpok
    by_cases hqn : q = n
    · subst hqn
      rw [Layout.split_right, Option.some.injEq] at hq
      exact hq ▸ hnok
    rw [Layout.split_of_ne hqp hqn] at hq
    rw [hpage q hqp hqn]
    obtain ⟨ℓ', lo, hi⟩ := s
    cases ℓ' with
    | zero =>
      obtain ⟨l, hl, ok⟩ := h.leaf hq
      refine ⟨l, hl, ok.sorted, ok.within, ok.capacity, ?_, ?_⟩
      · refine ok.next.imp id ?_
        rintro ⟨hi', hc⟩
        by_cases hx : l.nextPage = p
        · rw [hx] at hc ⊢
          obtain rfl := Layout.Covers.level hp hc
          obtain ⟨rfl, rfl⟩ := Layout.Covers.unique hp hc
          exact ⟨m, hleft⟩
        · exact ⟨hi', keep hc hx⟩
      · rcases hprev q lo hi hq hqp with ⟨hne, he⟩ | ⟨⟨rfl, rfl⟩, he⟩
        · rw [he]
          refine ok.prev.imp id ?_
          rintro ⟨lo', hc⟩
          refine ⟨lo', keep hc fun hx => hne ?_⟩
          rw [hx] at hc
          obtain rfl := Layout.Covers.level hp hc
          exact ⟨rfl, (Layout.Covers.unique hp hc).2⟩
        · exact Or.inr ⟨m, by rw [he]; exact hright⟩
    | succ ℓ' =>
      obtain ⟨i, hi', ok⟩ := h.inner hq
      refine ⟨i, hi', ok.sorted, ok.capacity, ?_⟩
      rw [hsep q hqp hqn]
      split_ifs with htq
      · -- the page the separator is due in
        subst htq
        obtain ⟨ℓ'', a', b', lo', hi'', k, hp', hq', ha, hb, hlo, hhi⟩ := ht
        rw [hp, Option.some.injEq, Span.mk.injEq] at hp'
        obtain ⟨rfl, rfl, rfl⟩ := hp'
        rw [hq, Option.some.injEq, Span.mk.injEq] at hq'
        obtain ⟨hl, rfl, rfl⟩ := hq'
        obtain rfl : ℓ' = ℓ := by omega
        obtain ⟨i', hi'', -, hmem, -⟩ := h.child_of_covers hq hp hlo hhi ha hb
        obtain rfl : i = i' := by simpa [hi'] using hi''
        have hd : D.sep q = none := hdue
        have hf := ok.fenced
        rw [hd] at hf hmem
        exact hf.split_child (fun _ _ _ h => h.lt) hmem (h.covers hp)
          (fun _ _ hc => Layout.Covers.unique hp hc) (fun x _ _ hx hc => keep hc hx) rfl rfl ham hmb
          hleft hright
      · refine ok.fenced.mono fun x hx c d hc => keep hc ?_
        rintro rfl
        obtain rfl := Layout.Covers.level hp hc
        obtain ⟨c', d', hc', hlo, hhi⟩ := ok.fenced.covers (fun _ _ _ h => h.lt) hx
        obtain ⟨rfl, rfl⟩ := Layout.Covers.unique hp hc'
        exact htq (h.above_unique hp ht hq hlo hhi)
  · obtain ⟨h', htop, hle⟩ := h.top hroot0
    refine ⟨h', ?_, fun {q s} hq => ?_⟩
    · rw [hroot]
      split_ifs with htn
      · subst htn
        obtain rfl : p = root := ht
        have hd : D.root = none := hdue
        rw [hd] at htop
        have hc : F.Covers h' p 0 keyBound := htop
        obtain rfl := Layout.Covers.level hp hc
        obtain ⟨rfl, rfl⟩ := Layout.Covers.unique hp hc
        exact ⟨hleft, hright⟩
      · refine htop.mono fun x hx c d hc => keep hc ?_
        rintro rfl
        obtain ⟨q, rfl⟩ := Option.ne_none_iff_exists'.1 htn
        obtain ⟨ℓ', a', b', lo', hi', k, hp', hq', -⟩ := ht
        obtain rfl := Layout.Covers.level hp' hc
        have := hle hq'
        dsimp only at this
        omega
    · obtain ⟨q', x, y, hq', -⟩ := Layout.of_split hp ham.le hmb.le hq
      simpa using hle hq'

/-! ### The steps of an insert -/

/-- The bindings of a layout with the same leaves and the same entries in them. -/
theorem Layout.binds_congr {r : RecordId}
    (hF : ∀ p lo hi, F' p = some ⟨0, lo, hi⟩ ↔ F p = some ⟨0, lo, hi⟩)
    (hpage : ∀ p lo hi, F p = some ⟨0, lo, hi⟩ → leafEntries (page' p) = leafEntries (page p)) :
    F'.Binds page' k r ↔ F.Binds page k r := by
  constructor
  · rintro ⟨p, lo, hi, hp, e, he, hk, hr⟩
    rw [hF] at hp
    exact ⟨p, lo, hi, hp, e, hpage p lo hi hp ▸ he, hk, hr⟩
  · rintro ⟨p, lo, hi, hp, e, he, hk, hr⟩
    exact ⟨p, lo, hi, (hF ..).2 hp, e, (hpage p lo hi hp).symm ▸ he, hk, hr⟩

/-- **An entry goes into a leaf with room.** -/
theorem Tree.insertLeaf (h : Tree F D page root) {l : BTreeLeafPage} {e : BTreeLeafEntry}
    (hp : F p = some ⟨0, lo, hi⟩) (hl : page p = some (.leaf l)) (hlo : lo ≤ e.key)
    (hhi : e.key < hi) (hcap : l.numEntries < BTreeLeafPage.maxEntries)
    (habs : ∀ x ∈ l.entries, x.key ≠ e.key) :
    Tree F D (Function.update page p
      (some (.leaf { l with entries := insertBy BTreeLeafEntry.key e l.entries }))) root := by
  refine h.update fun s hs => ?_
  obtain rfl : ⟨0, lo, hi⟩ = s := by simpa [hp] using hs
  obtain ⟨-, ok⟩ := h.leaf_level hp hl
  refine ⟨_, rfl, (insertIdx_findSlot ok.sorted habs).2.2, fun x hx => ?_, ?_, ok.next, ok.prev⟩
  · rcases mem_insertBy.1 hx with rfl | hx
    · exact ⟨hlo, hhi⟩
    · exact ok.within x hx
  · rw [BTreeLeafPage.numEntries, length_insertBy]
    exact hcap

/-- The bindings after one leaf took an entry more. -/
theorem Layout.binds_insert {e : BTreeLeafEntry} {r : RecordId}
    (hp : F p = some ⟨0, lo, hi⟩)
    (hpage : ∀ q, q ≠ p → leafEntries (page' q) = leafEntries (page q))
    (he : ∀ x, x ∈ leafEntries (page' p) ↔ x = e ∨ x ∈ leafEntries (page p)) :
    F.Binds page' k r ↔ F.Binds page k r ∨ k = e.key ∧ r = e.recordId := by
  constructor
  · rintro ⟨q, a, b, hq, x, hx, rfl, rfl⟩
    by_cases hqp : q = p
    · subst hqp
      rcases (he x).1 hx with rfl | hx
      · exact Or.inr ⟨rfl, rfl⟩
      · exact Or.inl ⟨q, a, b, hq, x, hx, rfl, rfl⟩
    · rw [hpage q hqp] at hx
      exact Or.inl ⟨q, a, b, hq, x, hx, rfl, rfl⟩
  · rintro (⟨q, a, b, hq, x, hx, rfl, rfl⟩ | ⟨rfl, rfl⟩)
    · by_cases hqp : q = p
      · subst hqp
        exact ⟨q, a, b, hq, x, (he x).2 (Or.inr hx), rfl, rfl⟩
      · rw [← hpage q hqp] at hx
        exact ⟨q, a, b, hq, x, hx, rfl, rfl⟩
    · exact ⟨p, lo, hi, hp, e, (he e).2 (Or.inl rfl), rfl, rfl⟩

/-- The dues a split leaves behind: the separator above the page, and the new leaf as
`prev_page` of the old right sibling. -/
def Dues.split (D : Dues) (t : Option LPageId) (m : ℕ) (n oldNext : LPageId) : Dues :=
  { D.setDue t (some ⟨m, n⟩) with
    prev := if oldNext = 0 then D.prev else Function.update D.prev oldNext (some n) }

theorem Dues.split_due {oldNext : LPageId} :
    (D.split t m n oldNext).due = Function.update D.due t (some ⟨m, n⟩) := Dues.setDue_due

theorem Dues.split_root {oldNext : LPageId} :
    (D.split t m n oldNext).root = if t = none then some ⟨m, n⟩ else D.root := Dues.setDue_root

/-- A split without a right sibling owes the separator only. -/
theorem Dues.split_zero : D.split t m n 0 = D.setDue t (some ⟨m, n⟩) := by
  refine Dues.ext rfl rfl ?_
  rw [Dues.split, if_pos rfl, Dues.setDue_prev]

/-- Once the right sibling is relinked, a split owes the separator only. -/
theorem Dues.split_settlePrev {oldNext : LPageId} (h0 : oldNext ≠ 0) (hd : D.prev oldNext = none) :
    ({ D.split t m n oldNext with
      prev := Function.update (D.split t m n oldNext).prev oldNext none } : Dues) =
      D.setDue t (some ⟨m, n⟩) := by
  refine Dues.ext rfl rfl ?_
  dsimp only
  rw [Dues.split, if_neg h0, Dues.setDue_prev, Function.update_idem, ← hd, Function.update_eq_self]

/-- **A leaf splits.**  The entries `xs ++ e :: ys` of its range are divided between the
leaf and a fresh right neighbour at the key of `e`. -/
theorem Tree.splitLeaf (h : Tree F D page root) {l : BTreeLeafPage} {e : BTreeLeafEntry}
    {xs ys : List BTreeLeafEntry} (hp : F p = some ⟨0, lo, hi⟩) (hl : page p = some (.leaf l))
    (hn : F n = none) (hn0 : n ≠ 0) (hnd : D.prev n = none) (ht : F.Above root t p)
    (hdue : D.due t = none) (hs : SortedBy BTreeLeafEntry.key (xs ++ e :: ys))
    (hw : ∀ x ∈ xs ++ e :: ys, lo ≤ x.key ∧ x.key < hi) (hxs : xs ≠ [])
    (hcx : xs.length ≤ BTreeLeafPage.maxEntries)
    (hcy : (e :: ys).length ≤ BTreeLeafPage.maxEntries) :
    Tree (F.split p n 0 lo e.key hi) (D.split t e.key n l.nextPage)
      (Function.update (Function.update page n (some (.leaf ⟨n, l.nextPage, p, e :: ys⟩)))
        p (some (.leaf ⟨p, n, l.prevPage, xs⟩))) root := by
  have hpn : p ≠ n := by rintro rfl; rw [hn] at hp; cases hp
  obtain ⟨-, ok⟩ := h.leaf_level hp hl
  obtain ⟨hsx, hsy, hxy⟩ := SortedBy.append_iff.1 hs
  have hey : ∀ y ∈ e :: ys, e.key ≤ y.key := fun y hy => by
    rcases List.mem_cons.1 hy with rfl | hy
    · exact le_rfl
    · exact ((SortedBy.cons_iff.1 hsy).1 y hy).le
  -- the separator lies strictly above the range's start: an entry stays left of it
  obtain ⟨x, hx⟩ := List.exists_mem_of_ne_nil xs hxs
  have ham : lo < e.key :=
    (hw x (List.mem_append_left _ hx)).1.trans_lt (hxy x hx e (List.mem_cons_self ..))
  have hmb : e.key < hi := (hw e (by simp)).2
  have hnext : ∀ q lo' hi', F q = some ⟨0, lo', hi'⟩ → (lo' = hi ↔ q = l.nextPage ∧ q ≠ 0) := by
    intro q lo' hi' hq
    have hlt := (h.bounds hq).1
    have hle := (h.bounds hq).2
    dsimp only at hlt hle
    rcases ok.next with ⟨rfl, h0⟩ | ⟨hi'', hc⟩
    · rw [h0]
      exact iff_of_false (by omega) (by tauto)
    · constructor
      · rintro rfl
        exact ⟨h.unique hq hc.1 le_rfl hlt le_rfl hc.2, h.ne_zero hq⟩
      · rintro ⟨rfl, -⟩
        exact (Layout.Covers.unique hq hc).1.symm
  have hnn : l.nextPage ≠ n := by
    rcases ok.next with ⟨-, h0⟩ | ⟨hi', hc⟩
    · rw [h0]; exact hn0.symm
    · rintro rfl; have := hc.1; rw [hn] at this; cases this
  have hprevn : (D.split t e.key n l.nextPage).prev n = none := by
    unfold Dues.split
    dsimp only
    split_ifs
    · exact hnd
    · rwa [Function.update_of_ne hnn.symm]
  have hprevp : (D.split t e.key n l.nextPage).prev p = D.prev p := by
    unfold Dues.split
    dsimp only
    split_ifs with h0
    · rfl
    · refine Function.update_of_ne ?_ ..
      intro hpnext
      have := (hnext p lo hi hp).2 ⟨hpnext, h.ne_zero hp⟩
      have := (h.bounds hp).1
      dsimp only at this
      omega
  refine h.split hp hn hn0 ham hmb ht hdue (fun q _ _ => Dues.setDue_sep) Dues.setDue_root
    (fun q lo' hi' hq hqp => ?_) (fun q hqp hqn => by simp [hqp, hqn]) ?_ ?_
  · unfold Dues.split
    dsimp only
    by_cases hq' : lo' = hi
    · obtain ⟨rfl, h0⟩ := (hnext q lo' hi' hq).1 hq'
      exact Or.inr ⟨⟨rfl, hq'⟩, by rw [if_neg h0, Function.update_self]⟩
    · refine Or.inl ⟨fun hc => hq' hc.2, ?_⟩
      split_ifs with h0
      · rfl
      · refine Function.update_of_ne ?_ ..
        rintro rfl
        exact hq' ((hnext _ lo' hi' hq).2 ⟨rfl, h0⟩)
  · rw [Function.update_self]
    refine ⟨_, rfl, hsx, fun y hy => ⟨(hw y (List.mem_append_left _ hy)).1,
      hxy y hy e (List.mem_cons_self ..)⟩, hcx, Or.inr ⟨hi, Layout.split_right, hmb⟩, ?_⟩
    rw [hprevp]
    refine ok.prev.imp id ?_
    rintro ⟨lo', hc⟩
    refine ⟨lo', ?_, hc.2⟩
    rw [Layout.split_of_ne]
    · exact hc.1
    · intro hx
      rw [hx] at hc
      have := (Layout.Covers.unique hp hc).2
      have := (h.bounds hp).1
      dsimp only at this
      omega
    · intro hx
      have := hc.1
      rw [hx, hn] at this
      cases this
  · rw [Function.update_of_ne hpn.symm, Function.update_self]
    refine ⟨_, rfl, hsy, fun y hy => ⟨hey y hy, (hw y (List.mem_append_right _ hy)).2⟩, hcy, ?_, ?_⟩
    · refine ok.next.imp id ?_
      rintro ⟨hi', hc⟩
      refine ⟨hi', ?_, hc.2⟩
      rw [Layout.split_of_ne _ hnn]
      · exact hc.1
      · intro hx
        rw [hx] at hc
        have := (Layout.Covers.unique hp hc).1
        have := (h.bounds hp).1
        dsimp only at this
        omega
    · rw [hprevn]
      exact Or.inr ⟨lo, Layout.split_left hpn, ham⟩

/-- A leaf split with an entry merged in binds what the leaf did, and the entry. -/
theorem Layout.binds_splitLeaf {l : BTreeLeafPage} {e x : BTreeLeafEntry}
    {xs ys : List BTreeLeafEntry} {r : RecordId}
    (hp : F p = some ⟨0, lo, hi⟩) (hl : page p = some (.leaf l)) (hn : F n = none)
    (hes : insertBy BTreeLeafEntry.key x l.entries = xs ++ e :: ys) :
    (F.split p n 0 lo e.key hi).Binds
      (Function.update (Function.update page n (some (.leaf ⟨n, l.nextPage, p, e :: ys⟩)))
        p (some (.leaf ⟨p, n, l.prevPage, xs⟩))) k r ↔
      F.Binds page k r ∨ k = x.key ∧ r = x.recordId := by
  have hpn : p ≠ n := by rintro rfl; rw [hn] at hp; cases hp
  -- the split leaf's bindings are those of the unsplit leaf with the entry merged in
  have hone : F.Binds (Function.update page p (some (.leaf { l with entries := xs ++ e :: ys })))
      k r ↔ F.Binds page k r ∨ k = x.key ∧ r = x.recordId := by
    refine Layout.binds_insert hp (fun q hq => by rw [Function.update_of_ne hq]) fun y => ?_
    rw [Function.update_self, hl, ← hes]
    exact mem_insertBy
  rw [← hone]
  constructor
  · rintro ⟨q, c, d, hq, y, hy, hk, hr⟩
    by_cases hqp : q = p
    · subst hqp
      rw [Function.update_self] at hy
      refine ⟨q, lo, hi, hp, y, ?_, hk, hr⟩
      rw [Function.update_self]
      exact List.mem_append_left _ hy
    · rw [Function.update_of_ne hqp] at hy
      by_cases hqn : q = n
      · subst hqn
        rw [Function.update_self] at hy
        refine ⟨p, lo, hi, hp, y, ?_, hk, hr⟩
        rw [Function.update_self]
        exact List.mem_append_right _ hy
      · rw [Function.update_of_ne hqn] at hy
        rw [Layout.split_of_ne hqp hqn] at hq
        exact ⟨q, c, d, hq, y, by rwa [Function.update_of_ne hqp], hk, hr⟩
  · rintro ⟨q, c, d, hq, y, hy, hk, hr⟩
    by_cases hqp : q = p
    · subst hqp
      rw [Function.update_self] at hy
      rcases List.mem_append.1 hy with hy | hy
      · exact ⟨q, _, _, Layout.split_left hpn, y, by rwa [Function.update_self], hk, hr⟩
      · refine ⟨n, _, _, Layout.split_right, y, ?_, hk, hr⟩
        rw [Function.update_of_ne hpn.symm, Function.update_self]
        exact hy
    · rw [Function.update_of_ne hqp] at hy
      have hqn : q ≠ n := by rintro rfl; rw [hn] at hq; cases hq
      refine ⟨q, c, d, ?_, y, ?_, hk, hr⟩
      · rwa [Layout.split_of_ne hqp hqn]
      · rwa [Function.update_of_ne hqp, Function.update_of_ne hqn]

/-- **The `prev_page` due in a leaf arrives.** -/
theorem Tree.settlePrev (h : Tree F D page root) {l : BTreeLeafPage} (hp : F p = some ⟨0, lo, hi⟩)
    (hl : page p = some (.leaf l)) (hd : D.prev p = some n) :
    Tree F { D with prev := Function.update D.prev p none }
      (Function.update page p (some (.leaf (l.setPrevPage n)))) root := by
  obtain ⟨-, ok⟩ := h.leaf_level hp hl
  refine h.local (fun q s hq hok => ?_) rfl
  by_cases hqp : q = p
  · subst hqp
    obtain rfl : ⟨0, lo, hi⟩ = s := by simpa [hp] using hq
    rw [Function.update_self]
    refine ⟨_, rfl, ok.sorted, ok.within, ok.capacity, ok.next, ?_⟩
    have := ok.prev
    rw [hd] at this
    simpa [BTreeLeafPage.setPrevPage] using this
  · rw [Function.update_of_ne hqp]
    obtain ⟨_ | ℓ, a, b⟩ := s
    · obtain ⟨l', hl', ok'⟩ := hok
      exact ⟨l', hl', by dsimp only; rwa [Function.update_of_ne hqp]⟩
    · exact hok

/-- **The separator due in an inner page with room arrives.** -/
theorem Tree.settleSep (h : Tree F D page root) {i : BTreeInnerPage} {e : BTreeInnerEntry}
    (hp : F p = some ⟨ℓ, lo, hi⟩) (hi' : page p = some (.inner i)) (hd : D.sep p = some e)
    (hcap : i.numKeys < BTreeInnerPage.maxKeys) :
    Tree F (D.setDue (some p) none) (Function.update page p
      (some (.inner { i with entries := insertBy BTreeInnerEntry.separatorKey e i.entries })))
      root := by
  obtain ⟨ℓ', rfl, ok⟩ := h.inner_level hp hi'
  have hf := ok.fenced
  rw [hd] at hf
  refine h.local (fun q s hq hok => ?_) (by simp [Dues.setDue_root])
  by_cases hqp : q = p
  · subst hqp
    obtain rfl : ⟨ℓ' + 1, lo, hi⟩ = s := by simpa [hp] using hq
    rw [Function.update_self]
    refine ⟨_, rfl, hf.sorted (fun _ _ _ h => h.lt), ?_, ?_⟩
    · rw [BTreeInnerPage.numKeys, length_insertBy]
      exact hcap
    · rw [Dues.setDue_sep, if_pos rfl]
      exact hf
  · rw [Function.update_of_ne hqp]
    obtain ⟨_ | ℓ, a, b⟩ := s
    · obtain ⟨l', hl', ok'⟩ := hok
      exact ⟨l', hl', by simpa using ok'⟩
    · obtain ⟨i', hi'', ok'⟩ := hok
      refine ⟨i', hi'', ?_⟩
      rwa [Dues.setDue_sep, if_neg (by simpa using Ne.symm hqp)]

/-- **An inner page splits.**  With the separator due in it, its separators are
`xs ++ e :: ys`; the page keeps `xs`, the fresh page takes `ys`, and `e` moves up. -/
theorem Tree.splitInner (h : Tree F D page root) {i : BTreeInnerPage} {d e : BTreeInnerEntry}
    {xs ys : List BTreeInnerEntry} (hp : F p = some ⟨ℓ, lo, hi⟩) (hi' : page p = some (.inner i))
    (hn : F n = none) (hn0 : n ≠ 0) (hnd : D.sep n = none) (ht : F.Above root t p)
    (hdue : D.due t = none) (hd : D.sep p = some d)
    (hes : insertBy BTreeInnerEntry.separatorKey d i.entries = xs ++ e :: ys)
    (hcx : xs.length ≤ BTreeInnerPage.maxKeys) (hcy : ys.length ≤ BTreeInnerPage.maxKeys) :
    Tree (F.split p n ℓ lo e.separatorKey hi)
      ((D.setDue (some p) none).setDue t (some ⟨e.separatorKey, n⟩))
      (Function.update (Function.update page n (some (.inner ⟨n, e.rightChild, ys⟩)))
        p (some (.inner ⟨p, i.leftmostChild, xs⟩))) root := by
  have hpn : p ≠ n := by rintro rfl; rw [hn] at hp; cases hp
  obtain ⟨ℓ, rfl, ok⟩ := h.inner_level hp hi'
  have hf := ok.fenced
  rw [hd, withDue, hes] at hf
  have hs := hf.sorted fun _ _ _ h => h.lt
  obtain ⟨hsx, hsy, -⟩ := SortedBy.append_iff.1 hs
  obtain ⟨ham, hmb⟩ := hf.between (fun _ _ _ h => h.lt) e (by simp)
  obtain ⟨hfx, hfy⟩ := Fenced.append_iff.1 hf
  have htp : t ≠ some p := by
    rintro rfl
    rw [Dues.due, hd] at hdue
    cases hdue
  have keep : ∀ {x c d}, F.Covers ℓ x c d →
      (F.split p n (ℓ + 1) lo e.separatorKey hi).Covers ℓ x c d := by
    intro x c d hc
    refine ⟨?_, hc.2⟩
    rw [Layout.split_of_ne]
    · exact hc.1
    · rintro rfl
      have := Layout.Covers.level hp hc
      omega
    · rintro rfl
      have := hc.1
      rw [hn] at this
      cases this
  refine h.split hp hn hn0 ham hmb ht hdue (fun q hqp _ => ?_) ?_
    (fun q lo' hi' _ _ => Or.inl ⟨by omega, by simp⟩) (fun q hqp hqn => by simp [hqp, hqn]) ?_ ?_
  · rw [Dues.setDue_sep, Dues.setDue_sep, if_neg (c := some p = some q) (by simpa using Ne.symm hqp)]
  · rw [Dues.setDue_root, Dues.setDue_root, if_neg (c := some p = none) (by simp)]
  · rw [Function.update_self]
    refine ⟨_, rfl, hsx, hcx, ?_⟩
    rw [Dues.setDue_sep, if_neg htp, Dues.setDue_sep, if_pos rfl]
    exact hfx.mono fun _ _ _ _ hc => keep hc
  · rw [Function.update_of_ne hpn.symm, Function.update_self]
    refine ⟨_, rfl, (SortedBy.cons_iff.1 hsy).2, hcy, ?_⟩
    have htn : t ≠ some n := by
      rintro rfl
      obtain ⟨_, _, _, _, _, _, -, hn', -⟩ := ht
      rw [hn] at hn'
      cases hn'
    rw [Dues.setDue_sep, if_neg htn, Dues.setDue_sep, if_neg (by simpa using hpn), hnd]
    exact hfy.mono fun _ _ _ _ hc => keep hc

/-- Splitting an inner page changes no leaf. -/
theorem Tree.binds_splitInner (h : Tree F D page root) {r : RecordId} {i₁ i₂ i : BTreeInnerPage}
    (hp : F p = some ⟨ℓ, lo, hi⟩) (hi' : page p = some (.inner i)) (hn : F n = none) :
    (F.split p n ℓ lo m hi).Binds
      (Function.update (Function.update page n (some (.inner i₁))) p (some (.inner i₂))) k r ↔
      F.Binds page k r := by
  obtain ⟨ℓ, rfl, -⟩ := h.inner_level hp hi'
  refine Layout.binds_congr (fun q a b => ?_) fun q a b hq => ?_
  · by_cases hqn : q = n
    · subst hqn
      simp [Layout.split_right, hn]
    · by_cases hqp : q = p
      · subst hqp
        simp [Layout.split_left hqn, hp]
      · rw [Layout.split_of_ne hqp hqn]
  · have hqn : q ≠ n := by rintro rfl; rw [hn] at hq; cases hq
    have hqp : q ≠ p := by rintro rfl; rw [hp] at hq; simp at hq
    rw [Function.update_of_ne hqp, Function.update_of_ne hqn]

/-- A layout with one page more. -/
def Layout.add (F : Layout) (n : LPageId) (s : Span) : Layout := Function.update F n (some s)

theorem Layout.add_self {s : Span} : F.add n s n = some s := Function.update_self ..

theorem Layout.add_of_ne {s : Span} (h : q ≠ n) : F.add n s q = F q := Function.update_of_ne h ..

theorem Layout.grows_add {s : Span} {cut : Option (LPageId × ℕ)} (hn : F n = none) :
    F.Grows (F.add n s) cut := by
  intro q t hq
  have hqn : q ≠ n := by rintro rfl; rw [hn] at hq; cases hq
  exact Or.inl ((Layout.add_of_ne hqn).trans hq)

private theorem Layout.bounds_add {s t : Span} (hs : ∀ {p s}, F p = some s → s.lo < s.hi ∧
    s.hi ≤ keyBound) (ht : t.lo < t.hi ∧ t.hi ≤ keyBound)
    (hq : F.add n t q = some s) : s.lo < s.hi ∧ s.hi ≤ keyBound := by
  by_cases hqn : q = n
  · subst hqn
    rw [Layout.add_self, Option.some.injEq] at hq
    exact hq ▸ ht
  · rw [Layout.add_of_ne hqn] at hq
    exact hs hq

/-- **The new root takes its place.**  The old root, which has split, and the page it
split off become the two children of a fresh page that covers every key. -/
theorem Tree.newRoot (h : Tree F D page root) {e : BTreeInnerEntry} (h0 : root ≠ 0)
    (he : D.root = some e) (hn : F n = none) (hn0 : n ≠ 0) (hnd : D.sep n = none) :
    ∃ ℓ, Tree (F.add n ⟨ℓ + 1, 0, keyBound⟩) (D.setDue none none)
        (Function.update page n (some (.inner ⟨n, root, [e]⟩))) n ∧
      ∀ k r, (F.add n ⟨ℓ + 1, 0, keyBound⟩).Binds
        (Function.update page n (some (.inner ⟨n, root, [e]⟩))) k r ↔ F.Binds page k r := by
  obtain ⟨ℓ, htop, hle⟩ := h.top h0
  rw [he] at htop
  have hkb : (0 : ℕ) < keyBound := by decide
  have keep : ∀ {ℓ' x c d}, F.Covers ℓ' x c d →
      (F.add n ⟨ℓ + 1, 0, keyBound⟩).Covers ℓ' x c d := by
    intro ℓ' x c d hc
    refine ⟨?_, hc.2⟩
    rw [Layout.add_of_ne]
    · exact hc.1
    · rintro rfl
      have := hc.1
      rw [hn] at this
      cases this
  refine ⟨ℓ, ⟨?_, Layout.bounds_add h.bounds ⟨hkb, le_rfl⟩, ?_, ?_, fun h => absurd h hn0,
    fun _ => ⟨ℓ + 1, ⟨Layout.add_self, hkb⟩, ?_⟩⟩, fun k r => ?_⟩
  · rw [Layout.add_of_ne hn0.symm]
    exact h.zero
  · intro q q' ℓ' x y x' y' hq hq'
    by_cases hqn : q = n <;> by_cases hqn' : q' = n
    · exact Or.inl (hqn.trans hqn'.symm)
    · -- a page of the old tree is below the new root
      subst hqn
      rw [Layout.add_self, Option.some.injEq, Span.mk.injEq] at hq
      rw [Layout.add_of_ne hqn'] at hq'
      have := hle hq'
      dsimp only at this
      omega
    · subst hqn'
      rw [Layout.add_self, Option.some.injEq, Span.mk.injEq] at hq'
      rw [Layout.add_of_ne hqn] at hq
      have := hle hq
      dsimp only at this
      omega
    · rw [Layout.add_of_ne hqn] at hq
      rw [Layout.add_of_ne hqn'] at hq'
      exact h.disjoint hq hq'
  · intro q s hq
    by_cases hqn : q = n
    · subst hqn
      rw [Layout.add_self, Option.some.injEq] at hq
      subst hq
      refine ⟨_, Function.update_self .., List.pairwise_singleton .., by simp [BTreeInnerPage.numKeys], ?_⟩
      rw [Dues.setDue_sep, if_neg (by simp), hnd]
      exact htop.mono fun _ _ _ _ hc => keep hc
    · rw [Layout.add_of_ne hqn] at hq
      rw [Function.update_of_ne hqn]
      obtain ⟨_ | ℓ', a, b⟩ := s
      · obtain ⟨l, hl, ok⟩ := h.leaf hq
        refine ⟨l, hl, ok.sorted, ok.within, ok.capacity, ok.next.imp id (.imp fun _ => keep), ?_⟩
        rw [Dues.setDue_prev]
        exact ok.prev.imp id (.imp fun _ => keep)
      · obtain ⟨i, hi', ok⟩ := h.inner hq
        refine ⟨i, hi', ok.sorted, ok.capacity, ?_⟩
        rw [Dues.setDue_sep, if_neg (by simp)]
        exact ok.fenced.mono fun _ _ _ _ hc => keep hc
  · intro q s hq
    by_cases hqn : q = n
    · subst hqn
      rw [Layout.add_self, Option.some.injEq] at hq
      exact hq ▸ le_rfl
    · rw [Layout.add_of_ne hqn] at hq
      exact (hle hq).trans (Nat.le_succ _)
  · refine Layout.binds_congr (fun q a b => ?_) fun q a b hq => ?_
    · by_cases hqn : q = n
      · subst hqn
        simp [hn, Layout.add_self]
      · rw [Layout.add_of_ne hqn]
    · rw [Function.update_of_ne]
      rintro rfl
      rw [hn] at hq
      cases hq

/-- **One leaf is a tree**, on a page of a store that held an empty one. -/
theorem Tree.oneLeaf (h : Tree F D page root) {es : List BTreeLeafEntry} (h0 : root = 0)
    (hd : D.root = none) (hn0 : n ≠ 0) (hnd : D.prev n = none)
    (hs : SortedBy BTreeLeafEntry.key es) (hk : ∀ e ∈ es, e.key < keyBound)
    (hcap : es.length ≤ BTreeLeafPage.maxEntries) (hpage : page n = some (.leaf ⟨n, 0, 0, es⟩)) :
    Tree (F.add n ⟨0, 0, keyBound⟩) D page n ∧
      ∀ k r, (F.add n ⟨0, 0, keyBound⟩).Binds page k r ↔
        ∃ e ∈ es, e.key = k ∧ e.recordId = r := by
  have hF := h.empty h0
  have hkb : (0 : ℕ) < keyBound := by decide
  -- the new leaf is the only page of the tree
  have hone : ∀ {q s}, F.add n ⟨0, 0, keyBound⟩ q = some s →
      q = n ∧ s = ⟨0, 0, keyBound⟩ := by
    intro q s hq
    by_cases hqn : q = n
    · subst hqn
      rw [Layout.add_self, Option.some.injEq] at hq
      exact ⟨rfl, hq.symm⟩
    · rw [Layout.add_of_ne hqn, hF q] at hq
      cases hq
  refine ⟨⟨?_, Layout.bounds_add h.bounds ⟨hkb, le_rfl⟩, ?_, ?_, fun h => absurd h hn0,
    fun _ => ⟨0, ?_, ?_⟩⟩, fun k r => ⟨?_, ?_⟩⟩
  · rw [Layout.add_of_ne hn0.symm]
    exact h.zero
  · intro q q' ℓ x y x' y' hq hq'
    exact Or.inl ((hone hq).1.trans (hone hq').1.symm)
  · intro q s hq
    obtain ⟨rfl, rfl⟩ := hone hq
    exact ⟨_, hpage, hs, fun x hx => ⟨Nat.zero_le _, hk x hx⟩, hcap, Or.inl ⟨rfl, rfl⟩,
      Or.inl ⟨rfl, by rw [hnd]; rfl⟩⟩
  · rw [hd]
    exact ⟨Layout.add_self, hkb⟩
  · intro q s hq
    rw [(hone hq).2]
  · rintro ⟨q, a, b, hq, x, hx, hxk, hxr⟩
    obtain ⟨rfl, -⟩ := hone hq
    rw [hpage] at hx
    exact ⟨x, hx, hxk, hxr⟩
  · rintro ⟨e, he, hek, her⟩
    exact ⟨n, _, _, Layout.add_self, e, by rwa [hpage], hek, her⟩

/-- **The first leaf becomes the root** of an empty tree. -/
theorem Tree.firstLeaf (h : Tree F D page root) {e : BTreeLeafEntry} (h0 : root = 0)
    (hd : D.root = none) (hn0 : n ≠ 0) (hnd : D.prev n = none) (hk : e.key < keyBound)
    (hpage : page n = some (.leaf ⟨n, 0, 0, [e]⟩)) :
    Tree (F.add n ⟨0, 0, keyBound⟩) D page n ∧
      ∀ k r, (F.add n ⟨0, 0, keyBound⟩).Binds page k r ↔
        F.Binds page k r ∨ k = e.key ∧ r = e.recordId := by
  obtain ⟨tree', hb⟩ := h.oneLeaf h0 hd hn0 hnd (List.pairwise_singleton ..)
    (fun x hx => by rwa [List.mem_singleton.1 hx]) (by simp) hpage
  refine ⟨tree', fun k r => (hb k r).trans ?_⟩
  have hnone : ¬ F.Binds page k r := by
    rintro ⟨q, a, b, hq, -⟩
    rw [h.empty h0 q] at hq
    cases hq
  simp [hnone, eq_comm]

end BTree
end Abdb
