/-
# Sorted key lists and binary search

A list of entries with strictly increasing keys, the three-way binary search over
its indices, and the two list edits a sorted array makes after a search: an
insertion at the position found and a removal of the entry found.

Everything is stated through *cuts*.  A key cuts a sorted list either at an entry
that carries it, `l = xs ++ e :: ys`, or between two entries, `l = xs ++ ys`
(`SortedBy.cut`), and the search returns the length of the left part
(`findSlot_hit`, `findSlot_miss`), where both edits have their obvious form.
-/

import Mathlib.Order.Basic
import Mathlib.Order.Lattice
import Mathlib.Tactic.Common

namespace Abdb
namespace Lib

variable {E K : Type*} [LinearOrder K]

/-- Strictly increasing keys. -/
def SortedBy (key : E → K) (l : List E) : Prop := l.Pairwise fun a b => key a < key b

namespace SortedBy

variable {key : E → K} {l xs ys : List E} {e : E}

theorem nil : SortedBy key ([] : List E) := List.Pairwise.nil

theorem append_iff : SortedBy key (xs ++ ys) ↔
    SortedBy key xs ∧ SortedBy key ys ∧ ∀ x ∈ xs, ∀ y ∈ ys, key x < key y :=
  List.pairwise_append

theorem cons_iff : SortedBy key (e :: ys) ↔ (∀ y ∈ ys, key e < key y) ∧ SortedBy key ys :=
  List.pairwise_cons

/-- The part of a cut left of its entry is below it, the part right of it above. -/
theorem of_cut (h : SortedBy key (xs ++ e :: ys)) :
    (∀ x ∈ xs, key x < key e) ∧ ∀ y ∈ ys, key e < key y := by
  obtain ⟨-, hys, hxy⟩ := append_iff.1 h
  exact ⟨fun x hx => hxy x hx e (List.mem_cons_self ..), (cons_iff.1 hys).1⟩

/-- Two entries of a sorted list with one key are the same entry. -/
theorem eq_of_key_eq (h : SortedBy key l) {a b : E} (ha : a ∈ l) (hb : b ∈ l)
    (hk : key a = key b) : a = b := by
  induction l with
  | nil => simp at ha
  | cons c l ih =>
    obtain ⟨hc, hl⟩ := cons_iff.1 h
    rcases List.mem_cons.1 ha with rfl | ha' <;> rcases List.mem_cons.1 hb with rfl | hb'
    · rfl
    · exact absurd hk (hc b hb').ne
    · exact absurd hk (hc a ha').ne'
    · exact ih hl ha' hb'

/-- Two sorted lists with the same entries are equal. -/
theorem ext {l' : List E} (h : SortedBy key l) (h' : SortedBy key l') (hmem : ∀ x, x ∈ l ↔ x ∈ l') :
    l = l' := by
  have hnodup : ∀ {l : List E}, SortedBy key l → l.Nodup := fun h =>
    h.imp fun hlt heq => hlt.ne (congrArg key heq)
  have hperm := (List.perm_ext_iff_of_nodup (hnodup h) (hnodup h')).2 hmem
  exact hperm.eq_of_pairwise (fun a b _ _ hab hba => absurd hab hba.not_gt) h h'

/-- **Every key cuts a sorted list**, at the entry that carries it or between entries. -/
theorem cut (h : SortedBy key l) (k : K) :
    (∃ xs e ys, l = xs ++ e :: ys ∧ key e = k) ∨
      ∃ xs ys, l = xs ++ ys ∧ (∀ x ∈ xs, key x < k) ∧ ∀ y ∈ ys, k < key y := by
  induction l with
  | nil => exact Or.inr ⟨[], [], rfl, by simp, by simp⟩
  | cons c l ih =>
    obtain ⟨hc, hl⟩ := cons_iff.1 h
    rcases lt_trichotomy (key c) k with hk | hk | hk
    · rcases ih hl with ⟨xs, e, ys, rfl, he⟩ | ⟨xs, ys, rfl, hx, hy⟩
      · exact Or.inl ⟨c :: xs, e, ys, rfl, he⟩
      · refine Or.inr ⟨c :: xs, ys, rfl, fun x hxm => ?_, hy⟩
        rcases List.mem_cons.1 hxm with rfl | hxm
        · exact hk
        · exact hx x hxm
    · exact Or.inl ⟨[], c, l, rfl, hk⟩
    · refine Or.inr ⟨[], c :: l, rfl, by simp, fun y hy => ?_⟩
      rcases List.mem_cons.1 hy with rfl | hy
      · exact hk
      · exact hk.trans (hc y hy)

/-- Putting an entry into the gap its key cuts keeps the list sorted. -/
theorem insert_gap (h : SortedBy key (xs ++ ys)) (hx : ∀ x ∈ xs, key x < key e)
    (hy : ∀ y ∈ ys, key e < key y) : SortedBy key (xs ++ e :: ys) := by
  obtain ⟨h₁, h₂, h₁₂⟩ := append_iff.1 h
  refine append_iff.2 ⟨h₁, cons_iff.2 ⟨hy, h₂⟩, fun x hxm y hym => ?_⟩
  rcases List.mem_cons.1 hym with rfl | hym
  · exact hx x hxm
  · exact h₁₂ x hxm y hym

/-- Taking an entry out keeps the list sorted. -/
theorem remove (h : SortedBy key (xs ++ e :: ys)) : SortedBy key (xs ++ ys) := by
  obtain ⟨h₁, h₂, h₁₂⟩ := append_iff.1 h
  exact append_iff.2 ⟨h₁, (cons_iff.1 h₂).2, fun x hx y hy => h₁₂ x hx y (List.mem_cons_of_mem _ hy)⟩

end SortedBy

/-! ### Binary search -/

/-- Three-way binary search over the indices `left ≤ i < right`; `cmp i` compares
the entry at `i` with the target.  `fuel` bounds the number of rounds and any bound
of at least `right - left` gives the loop its full course (`bsearch_hit`,
`bsearch_miss`). -/
def bsearch (cmp : ℕ → Ordering) : ℕ → ℕ → ℕ → Bool × ℕ
  | 0, left, _ => (false, left)
  | fuel + 1, left, right =>
    if left < right then
      let mid := left + (right - left) / 2
      match cmp mid with
      | .eq => (true, mid)
      | .lt => bsearch cmp fuel (mid + 1) right
      | .gt => bsearch cmp fuel left mid
    else (false, left)

theorem bsearch_hit {cmp : ℕ → Ordering} {n p : ℕ} (hlt : ∀ i < p, cmp i = .lt)
    (heq : cmp p = .eq) (hgt : ∀ i, p < i → i < n → cmp i = .gt) :
    ∀ {fuel left right : ℕ}, right - left ≤ fuel → left ≤ p → p < right → right ≤ n →
      bsearch cmp fuel left right = (true, p) := by
  intro fuel
  induction fuel with
  | zero => intro left right hf hl hr _; omega
  | succ fuel ih =>
    intro left right hf hl hr hn
    rw [bsearch, if_pos (by omega)]
    rcases lt_trichotomy (left + (right - left) / 2) p with h | h | h
    · simp only [hlt _ h]
      exact ih (by omega) h hr hn
    · simp only [h, heq]
    · simp only [hgt _ h (by omega)]
      exact ih (by omega) hl h (by omega)

theorem bsearch_miss {cmp : ℕ → Ordering} {n p : ℕ} (hlt : ∀ i < p, cmp i = .lt)
    (hgt : ∀ i, p ≤ i → i < n → cmp i = .gt) :
    ∀ {fuel left right : ℕ}, right - left ≤ fuel → left ≤ p → p ≤ right → right ≤ n →
      bsearch cmp fuel left right = (false, p) := by
  intro fuel
  induction fuel with
  | zero => intro left right hf hl hr _; simp only [bsearch, Prod.mk.injEq, true_and]; omega
  | succ fuel ih =>
    intro left right hf hl hr hn
    rw [bsearch]
    split_ifs with h
    · rcases Nat.lt_or_ge (left + (right - left) / 2) p with h' | h'
      · simp only [hlt _ h']
        exact ih (by omega) h' hr hn
      · simp only [hgt _ h' (by omega)]
        exact ih (by omega) hl h' (by omega)
    · simp only [Prod.mk.injEq, true_and]; omega

/-- Wherever the search ends, its answer lies in the window. -/
theorem bsearch_snd_le {cmp : ℕ → Ordering} {fuel left right : ℕ} (h : left ≤ right) :
    (bsearch cmp fuel left right).2 ≤ right := by
  induction fuel generalizing left right with
  | zero => exact h
  | succ fuel ih =>
    rw [bsearch]
    split_ifs with hlt
    · dsimp only
      split
      · dsimp only
        omega
      · exact ih (by omega)
      · exact (ih (by omega)).trans (by omega)
    · exact h

/-- Compare the key of the entry at `i` with the target.  Out of range the answer is
irrelevant: a search over a list never leaves it. -/
def cmpAt (key : E → K) (l : List E) (target : K) (i : ℕ) : Ordering :=
  match l[i]? with
  | some e => compare (key e) target
  | none => .gt

/-- Exact match or insertion point of `target` in a sorted list. -/
def findSlot (key : E → K) (l : List E) (target : K) : Bool × ℕ :=
  bsearch (cmpAt key l target) l.length 0 l.length

variable {key : E → K} {xs ys : List E} {e : E} {k : K}

/-- An entry put in at the slot the search reports, sorted list or not. -/
theorem perm_insertIdx_findSlot {l : List E} :
    (l.insertIdx (findSlot key l k).2 e).Perm (e :: l) :=
  List.perm_insertIdx _ _ (bsearch_snd_le (Nat.zero_le _))

private theorem cmpAt_left (h : ∀ x ∈ xs, key x < k) {zs : List E} {i : ℕ}
    (hi : i < xs.length) : cmpAt key (xs ++ zs) k i = .lt := by
  rw [cmpAt, List.getElem?_append_left hi, List.getElem?_eq_getElem hi]
  exact compare_lt_iff_lt.2 (h _ (List.getElem_mem hi))

private theorem cmpAt_right (h : ∀ y ∈ ys, k < key y) {zs : List E} {i : ℕ}
    (hi : zs.length ≤ i) (hi' : i < (zs ++ ys).length) : cmpAt key (zs ++ ys) k i = .gt := by
  rw [List.length_append] at hi'
  have hj : i - zs.length < ys.length := by omega
  rw [cmpAt, List.getElem?_append_right hi, List.getElem?_eq_getElem hj]
  exact compare_gt_iff_gt.2 (h _ (List.getElem_mem hj))

/-- **A key that is present is found where it is.** -/
theorem findSlot_hit (h : SortedBy key (xs ++ e :: ys)) :
    findSlot key (xs ++ e :: ys) (key e) = (true, xs.length) := by
  obtain ⟨hx, hy⟩ := h.of_cut
  refine bsearch_hit (n := (xs ++ e :: ys).length) (fun i hi => cmpAt_left hx hi) ?_ ?_ le_rfl
    (Nat.zero_le _) (by simp) le_rfl
  · rw [cmpAt, List.getElem?_append_right le_rfl, Nat.sub_self, List.getElem?_cons_zero]
    exact compare_eq_iff_eq.2 rfl
  · intro i hi hn
    rw [List.append_cons] at hn ⊢
    exact cmpAt_right hy (by simp; omega) hn

/-- **An absent key is answered with the gap it cuts.** -/
theorem findSlot_miss (hx : ∀ x ∈ xs, key x < k) (hy : ∀ y ∈ ys, k < key y) :
    findSlot key (xs ++ ys) k = (false, xs.length) :=
  bsearch_miss (n := (xs ++ ys).length) (fun _ hi => cmpAt_left hx hi)
    (fun _ hi hn => cmpAt_right hy hi hn) le_rfl (Nat.zero_le _) (by simp) le_rfl

/-- The search finds a key exactly when some entry carries it. -/
theorem findSlot_fst_iff {l : List E} (h : SortedBy key l) :
    (findSlot key l k).1 = true ↔ ∃ e ∈ l, key e = k := by
  rcases h.cut k with ⟨xs, e, ys, rfl, rfl⟩ | ⟨xs, ys, rfl, hx, hy⟩
  · rw [findSlot_hit h]
    exact iff_of_true rfl ⟨e, by simp, rfl⟩
  · rw [findSlot_miss hx hy]
    simp only [Bool.false_eq_true, false_iff, not_exists, not_and]
    intro e he
    rcases List.mem_append.1 he with he | he
    · exact (hx e he).ne
    · exact (hy e he).ne'

/-- The search goes through a map that keeps the keys. -/
theorem findSlot_map {E' : Type*} {key' : E' → K} {f : E → E'} (hf : ∀ x, key' (f x) = key x) (l : List E) :
    findSlot key' (l.map f) k = findSlot key l k := by
  have hcmp : cmpAt key' (l.map f) k = cmpAt key l k := by
    funext i
    rw [cmpAt, cmpAt, List.getElem?_map]
    cases l[i]? with
    | none => rfl
    | some x => exact congrArg (compare · k) (hf x)
  rw [findSlot, findSlot, hcmp, List.length_map]

/-- `insertIdx` at a cut. -/
theorem insertIdx_cut (xs ys : List E) (e : E) :
    (xs ++ ys).insertIdx xs.length e = xs ++ e :: ys := by
  induction xs with
  | nil => simp
  | cons x xs ih => simp [List.insertIdx_succ_cons, ih]

/-- `eraseIdx` at a cut. -/
theorem eraseIdx_cut (xs ys : List E) (e : E) :
    (xs ++ e :: ys).eraseIdx xs.length = xs ++ ys := by
  induction xs with
  | nil => simp
  | cons x xs ih => simp [ih]

/-! ### Ordered insertion -/

/-- Insert an entry before the first one whose key is not smaller. -/
def insertBy (key : E → K) (e : E) : List E → List E
  | [] => [e]
  | x :: xs => if key x < key e then x :: insertBy key e xs else e :: x :: xs

theorem insertBy_gap (hx : ∀ x ∈ xs, key x < key e) (hy : ∀ y ∈ ys, key e < key y) :
    insertBy key e (xs ++ ys) = xs ++ e :: ys := by
  induction xs with
  | nil =>
    cases ys with
    | nil => rfl
    | cons y ys => exact if_neg (hy y (List.mem_cons_self ..)).not_gt
  | cons x xs ih =>
    have hxe := hx x (List.mem_cons_self ..)
    rw [List.cons_append, insertBy, if_pos hxe, ih fun z hz => hx z (List.mem_cons_of_mem _ hz)]
    rfl

theorem insertBy_last (hx : ∀ x ∈ xs, key x < key e) : insertBy key e xs = xs ++ [e] := by
  have h : insertBy key e (xs ++ []) = xs ++ [e] := insertBy_gap hx (by simp)
  rwa [List.append_nil] at h

theorem mem_insertBy {l : List E} {a : E} : a ∈ insertBy key e l ↔ a = e ∨ a ∈ l := by
  induction l with
  | nil => simp [insertBy]
  | cons x l ih =>
    rw [insertBy]
    split_ifs
    · simp only [List.mem_cons, ih]; tauto
    · simp only [List.mem_cons]

theorem length_insertBy {l : List E} : (insertBy key e l).length = l.length + 1 := by
  induction l with
  | nil => rfl
  | cons x l ih =>
    rw [insertBy]
    split_ifs <;> simp [ih]

/-- What is inserted into a list that stays strictly sorted was not in it. -/
theorem ne_of_sorted_insertBy {l : List E} (h : SortedBy key (insertBy key e l)) :
    ∀ x ∈ l, key x ≠ key e := by
  induction l with
  | nil => simp
  | cons y l ih =>
    rw [insertBy] at h
    split_ifs at h with hy
    · intro x hx
      rcases List.mem_cons.1 hx with rfl | hx
      · exact hy.ne
      · exact ih (SortedBy.cons_iff.1 h).2 x hx
    · exact fun x hx => ((SortedBy.cons_iff.1 h).1 x hx).ne'

/-- Inserting at the slot the search reports is ordered insertion. -/
theorem insertIdx_findSlot {l : List E} (h : SortedBy key l) (he : ∀ x ∈ l, key x ≠ key e) :
    (findSlot key l (key e)).1 = false ∧
      l.insertIdx (findSlot key l (key e)).2 e = insertBy key e l ∧
      SortedBy key (insertBy key e l) := by
  rcases h.cut (key e) with ⟨xs, a, ys, rfl, ha⟩ | ⟨xs, ys, rfl, hx, hy⟩
  · exact absurd ha (he a (by simp))
  · rw [findSlot_miss hx hy, insertIdx_cut, insertBy_gap hx hy]
    exact ⟨rfl, rfl, h.insert_gap hx hy⟩

/-- Insertion goes through a map that keeps the keys. -/
theorem insertBy_map {E' : Type*} {key' : E' → K} {f : E → E'} {l : List E}
    (hf : ∀ x ∈ e :: l, key' (f x) = key x) :
    insertBy key' (f e) (l.map f) = (insertBy key e l).map f := by
  induction l with
  | nil => rfl
  | cons x l ih =>
    rw [List.map_cons, insertBy, insertBy, hf e (by simp), hf x (by simp)]
    split_ifs
    · rw [List.map_cons, ih fun y hy => hf y (by
        rcases List.mem_cons.1 hy with rfl | hy
        · simp
        · simp [hy])]
    · rfl

/-- A map that keeps the keys keeps a list sorted. -/
theorem SortedBy.map {E' : Type*} {key' : E' → K} {f : E → E'} {l : List E}
    (h : SortedBy key l) (hf : ∀ x ∈ l, key' (f x) = key x) : SortedBy key' (l.map f) := by
  refine List.pairwise_map.2 (h.imp_of_mem fun ha hb hab => ?_)
  rwa [hf _ ha, hf _ hb]

/-! ### Cuts at an index -/

/-- Every index of a list cuts it. -/
theorem exists_cut_index {α : Type*} {es : List α} {i : ℕ} (h : i < es.length) :
    ∃ xs e ys, es = xs ++ e :: ys ∧ xs.length = i := by
  refine ⟨es.take i, es[i], es.drop (i + 1), ?_, ?_⟩
  · rw [← List.drop_eq_getElem_cons h, List.take_append_drop]
  · rw [List.length_take]
    omega

/-- A cut of a list in two halves, the right one nonempty. -/
theorem exists_cut_half {α : Type*} (es : List α) (h : es ≠ []) :
    ∃ xs e ys, es = xs ++ e :: ys ∧ xs.length = es.length / 2 ∧ es[es.length / 2]? = some e ∧
      es.take (es.length / 2) = xs ∧ es.drop (es.length / 2) = e :: ys ∧
      es.drop (es.length / 2 + 1) = ys := by
  have hlen : es.length / 2 < es.length :=
    Nat.div_lt_self (List.length_pos_iff.2 h) (by decide)
  refine ⟨es.take (es.length / 2), es[es.length / 2], es.drop (es.length / 2 + 1), ?_, ?_,
    List.getElem?_eq_getElem hlen, rfl, List.drop_eq_getElem_cons hlen, rfl⟩
  · rw [← List.drop_eq_getElem_cons hlen, List.take_append_drop]
  · rw [List.length_take]
    omega

end Lib
end Abdb
