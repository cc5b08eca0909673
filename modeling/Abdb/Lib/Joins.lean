/-
# Joins of lists

The joins of two lists of rows by a relation `match_`, as nested loops compute them: a pair of
rows that match is put together by `pair`, a row without a partner is kept by `padRight` or
`padLeft` where the kind of the join says so.

A filter that looks at one side of a joined row may be applied to that side first, as long as
the join adds no rows for partners the filter takes away (`filter_left`, `filter_right`).
-/

import Mathlib.Data.List.Basic
import Mathlib.Tactic.Common

namespace Abdb

/-- The five kinds of join. -/
inductive Joined
  | inner | leftOuter | rightOuter | fullOuter | cross
deriving DecidableEq

namespace Joined

variable {α β γ : Type*} (match_ : α → β → Bool) (pair : α → β → γ) (padRight : α → γ)
  (padLeft : β → γ) (l : List α) (r : List β)

/-- The pairs that match. -/
def pairs : List γ := l.flatMap fun a => (r.filter (match_ a)).map (pair a)

/-- The pairs that match, and every row on the left without a partner. -/
def leftPairs : List γ := l.flatMap fun a =>
  if r.any (match_ a) then (r.filter (match_ a)).map (pair a) else [padRight a]

/-- The rows on the right without a partner. -/
def unmatched : List γ := (r.filter fun b => !l.any (match_ · b)).map padLeft

/-- The join of two lists. -/
def rows : Joined → List γ
  | .inner | .cross => pairs match_ pair l r
  | .leftOuter => leftPairs match_ pair padRight l r
  | .rightOuter => pairs match_ pair l r ++ unmatched match_ padLeft l r
  | .fullOuter => leftPairs match_ pair padRight l r ++ unmatched match_ padLeft l r

/-- A kind that keeps no row on the right without a partner. -/
def KeepsLeft : Joined → Prop
  | .inner | .cross | .leftOuter => True
  | .rightOuter | .fullOuter => False

/-- A kind that keeps no row on the left without a partner. -/
def KeepsRight : Joined → Prop
  | .inner | .cross | .rightOuter => True
  | .leftOuter | .fullOuter => False

variable {match_ pair padRight padLeft l r} {P : γ → Bool} {p : α → Bool} {q : β → Bool} {kind : Joined}

/-- Filtering the rows made of each element is filtering the elements. -/
theorem filter_flatMap_of {f : α → List γ} (h : ∀ a ∈ l, ∀ c ∈ f a, P c = p a) :
    (l.flatMap f).filter P = (l.filter p).flatMap f := by
  induction l with
  | nil => rfl
  | cons a l ih =>
    have hl := ih fun b hb => h b (List.mem_cons_of_mem _ hb)
    have ha := h a List.mem_cons_self
    rw [List.flatMap_cons, List.filter_append, hl, List.filter_cons]
    cases hp : p a with
    | false =>
      have hnone : (f a).filter P = [] := List.filter_eq_nil_iff.2 fun c hc => by
        rw [ha c hc, hp]
        exact Bool.false_ne_true
      rw [hnone, List.nil_append, if_neg Bool.false_ne_true]
    | true =>
      have hall : (f a).filter P = f a := List.filter_eq_self.2 fun c hc => by rw [ha c hc, hp]
      rw [hall, if_pos rfl, List.flatMap_cons]

/-- **A filter on the left side** may be applied first if the join keeps the left. -/
theorem filter_left (hkind : kind.KeepsLeft) (hpair : ∀ a ∈ l, ∀ b ∈ r, P (pair a b) = p a)
    (hpad : ∀ a ∈ l, P (padRight a) = p a) :
    (kind.rows match_ pair padRight padLeft l r).filter P =
      kind.rows match_ pair padRight padLeft (l.filter p) r := by
  have hmatch : ∀ a ∈ l, ∀ c ∈ (r.filter (match_ a)).map (pair a), P c = p a := by
    intro a ha c hc
    obtain ⟨b, hb, rfl⟩ := List.mem_map.1 hc
    exact hpair a ha b (List.mem_filter.1 hb).1
  cases kind with
  | inner => exact filter_flatMap_of hmatch
  | cross => exact filter_flatMap_of hmatch
  | leftOuter =>
    refine filter_flatMap_of fun a ha c hc => ?_
    split_ifs at hc
    · exact hmatch a ha c hc
    · rw [List.mem_singleton.1 hc, hpad a ha]
  | rightOuter => exact hkind.elim
  | fullOuter => exact hkind.elim

theorem filter_pairs_right (hpair : ∀ a ∈ l, ∀ b ∈ r, P (pair a b) = q b) :
    (pairs match_ pair l r).filter P = pairs match_ pair l (r.filter q) := by
  rw [pairs, pairs, List.filter_flatMap]
  refine List.flatMap_congr fun a ha => ?_
  rw [List.filter_map, List.filter_filter, List.filter_filter]
  refine congrArg _ (List.filter_congr fun b hb => ?_)
  rw [Function.comp, hpair a ha b hb, Bool.and_comm]

/-- **A filter on the right side** may be applied first if the join keeps the right. -/
theorem filter_right (hkind : kind.KeepsRight) (hpair : ∀ a ∈ l, ∀ b ∈ r, P (pair a b) = q b)
    (hpad : ∀ b ∈ r, P (padLeft b) = q b) :
    (kind.rows match_ pair padRight padLeft l r).filter P =
      kind.rows match_ pair padRight padLeft l (r.filter q) := by
  cases kind with
  | inner => exact filter_pairs_right hpair
  | cross => exact filter_pairs_right hpair
  | rightOuter =>
    rw [rows, rows, List.filter_append, filter_pairs_right hpair]
    refine congrArg _ ?_
    rw [unmatched, unmatched, List.filter_map, List.filter_filter, List.filter_filter]
    refine congrArg _ (List.filter_congr fun b hb => ?_)
    rw [Function.comp, hpad b hb, Bool.and_comm]
  | leftOuter => exact hkind.elim
  | fullOuter => exact hkind.elim

theorem any_congr_of_mem {p' : α → Bool} (h : ∀ a ∈ l, p a = p' a) : l.any p = l.any p' := by
  rw [Bool.eq_iff_iff, List.any_eq_true, List.any_eq_true]
  exact exists_congr fun a => and_congr_right fun ha => by rw [h a ha]

/-- **The join depends on which of the rows match** only. -/
theorem rows_congr {match' : α → β → Bool} (h : ∀ a ∈ l, ∀ b ∈ r, match_ a b = match' a b) :
    kind.rows match_ pair padRight padLeft l r = kind.rows match' pair padRight padLeft l r := by
  have hpairs : pairs match_ pair l r = pairs match' pair l r := by
    refine List.flatMap_congr fun a ha => ?_
    rw [List.filter_congr fun b hb => h a ha b hb]
  have hleft : leftPairs match_ pair padRight l r = leftPairs match' pair padRight l r := by
    refine List.flatMap_congr fun a ha => ?_
    rw [List.filter_congr fun b hb => h a ha b hb, any_congr_of_mem fun b hb => h a ha b hb]
  have hright : unmatched match_ padLeft l r = unmatched match' padLeft l r := by
    refine congrArg _ (List.filter_congr fun b hb => ?_)
    rw [any_congr_of_mem fun a ha => h a ha b hb]
  cases kind with
  | inner => exact hpairs
  | cross => exact hpairs
  | leftOuter => exact hleft
  | rightOuter => rw [rows, rows, hpairs, hright]
  | fullOuter => rw [rows, rows, hleft, hright]

/-- What a joined row is made of: a row without a partner is kept where the kind says so. -/
theorem mem_rows {c : γ} (hc : c ∈ kind.rows match_ pair padRight padLeft l r) :
    (∃ a ∈ l, ∃ b ∈ r, c = pair a b) ∨ (¬ kind.KeepsRight ∧ ∃ a ∈ l, c = padRight a) ∨
      ¬ kind.KeepsLeft ∧ ∃ b ∈ r, c = padLeft b := by
  have hpairs : ∀ {a}, a ∈ l → c ∈ (r.filter (match_ a)).map (pair a) → ∃ a ∈ l, ∃ b ∈ r, c = pair a b := by
    intro a ha hc
    obtain ⟨b, hb, rfl⟩ := List.mem_map.1 hc
    exact ⟨a, ha, b, (List.mem_filter.1 hb).1, rfl⟩
  have hinner : c ∈ pairs match_ pair l r → ∃ a ∈ l, ∃ b ∈ r, c = pair a b := fun hc => by
    obtain ⟨a, ha, hc⟩ := List.mem_flatMap.1 hc
    exact hpairs ha hc
  have hleft : c ∈ leftPairs match_ pair padRight l r →
      (∃ a ∈ l, ∃ b ∈ r, c = pair a b) ∨ ∃ a ∈ l, c = padRight a := fun hc => by
    obtain ⟨a, ha, hc⟩ := List.mem_flatMap.1 hc
    split_ifs at hc
    · exact Or.inl (hpairs ha hc)
    · exact Or.inr ⟨a, ha, List.mem_singleton.1 hc⟩
  have hright : c ∈ unmatched match_ padLeft l r → ∃ b ∈ r, c = padLeft b := fun hc => by
    obtain ⟨b, hb, rfl⟩ := List.mem_map.1 hc
    exact ⟨b, (List.mem_filter.1 hb).1, rfl⟩
  cases kind with
  | inner => exact Or.inl (hinner hc)
  | cross => exact Or.inl (hinner hc)
  | leftOuter => exact (hleft hc).imp id fun hpad => Or.inl ⟨id, hpad⟩
  | rightOuter => exact (List.mem_append.1 hc).imp hinner fun hpad => Or.inr ⟨id, hright hpad⟩
  | fullOuter =>
    rcases List.mem_append.1 hc with hc | hc
    · exact (hleft hc).imp id fun hpad => Or.inl ⟨id, hpad⟩
    · exact Or.inr (Or.inr ⟨id, hright hc⟩)

end Joined
end Abdb
