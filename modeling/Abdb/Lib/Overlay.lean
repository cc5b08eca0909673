/-
# Maps shared out among owners

`overlay m M` is the map `M` with the values of `m` where `m` has any.  A family of maps shares
out `M` when each of them is part of it and no two have a key in common.  An owner who changes
what is under its own keys, and under keys that nobody has, leaves the parts of the others as they
are (`Shares.update`).

`embed` and `pick` go between a map and one of the kinds of values that a larger map holds.
-/

import Mathlib.Data.Option.Basic
import Mathlib.Logic.Function.Basic
import Mathlib.Order.Basic

namespace Abdb
namespace Lib

variable {ι α β φ : Type*} {m M : ι → Option α} {i : ι} {x : α}

/-- The first map where it has a value, else the second. -/
def overlay (m M : ι → Option α) : ι → Option α := fun i => (m i).or (M i)

/-- What the first map has, the second has too. -/
def Within (m M : ι → Option α) : Prop := ∀ i x, m i = some x → M i = some x

theorem overlay_of_some (h : m i = some x) : overlay m M i = some x := by
  rw [overlay, h, Option.some_or]

theorem overlay_of_none (h : m i = none) : overlay m M i = M i := by
  rw [overlay, h, Option.none_or]

theorem overlay_update [DecidableEq ι] (m M : ι → Option α) (i : ι) (x : α) :
    overlay (Function.update m i (some x)) M = Function.update (overlay m M) i (some x) := by
  funext j
  by_cases hj : j = i
  · subst hj
    rw [Function.update_self, overlay_of_some (Function.update_self ..)]
  · rw [Function.update_of_ne hj, overlay, overlay, Function.update_of_ne hj]

theorem within_overlay (m M : ι → Option α) : Within m (overlay m M) := fun _ _ => overlay_of_some

/-- A part put over the whole changes nothing. -/
theorem Within.overlay_eq (h : Within m M) : overlay m M = M := by
  funext i
  cases hi : m i with
  | none => exact overlay_of_none hi
  | some x => rw [overlay_of_some hi, h i x hi]

theorem Within.update [DecidableEq ι] (h : Within m M) (i : ι) (x : α) :
    Within (Function.update m i (some x)) (Function.update M i (some x)) := by
  intro j y hj
  by_cases hji : j = i
  · subst hji
    rwa [Function.update_self] at hj ⊢
  · rw [Function.update_of_ne hji] at hj ⊢
    exact h j y hj

/-! ### Parts -/

/-- **The maps share out `M`**: they are parts of it, no key is in two of them, and the keys from
`n` on are in none. -/
structure Shares [LT ι] (part : φ → ι → Option α) (M : ι → Option α) (n : ι) : Prop where
  within : ∀ f, Within (part f) M
  apart : ∀ {f g i}, part f i ≠ none → part g i ≠ none → f = g
  below : ∀ {f i}, part f i ≠ none → i < n

/-- **An owner that changes its own part** and takes new keys. -/
theorem Shares.update [DecidableEq φ] [Preorder ι] {part : φ → ι → Option α} {n n' : ι} {f : φ}
    (h : Shares part M n) (hle : n ≤ n') (hm : ∀ i, m i ≠ none → part f i ≠ none ∨ n ≤ i ∧ i < n') :
    Shares (Function.update part f m) (overlay m M) n' := by
  have hother : ∀ {g i}, g ≠ f → part g i ≠ none → m i = none := by
    intro g i hg hi
    cases hmi : m i with
    | none => rfl
    | some x =>
      rcases hm i (by rw [hmi]; exact Option.some_ne_none x) with hf | ⟨hn, -⟩
      · exact absurd (h.apart hi hf) hg
      · exact absurd hn (not_le_of_gt (h.below hi))
  refine ⟨fun g => ?_, fun {g g' i} hg hg' => ?_, fun {g i} hg => ?_⟩
  · rcases eq_or_ne g f with rfl | hne
    · rw [Function.update_self]
      exact within_overlay m M
    · rw [Function.update_of_ne hne]
      intro i x hi
      rw [overlay_of_none (hother hne (by rw [hi]; exact Option.some_ne_none x))]
      exact h.within g i x hi
  · by_cases hgf : g = f <;> by_cases hgf' : g' = f
    · exact hgf.trans hgf'.symm
    · rw [hgf, Function.update_self] at hg
      rw [Function.update_of_ne hgf'] at hg'
      exact absurd (hother hgf' hg') hg
    · rw [Function.update_of_ne hgf] at hg
      rw [hgf', Function.update_self] at hg'
      exact absurd (hother hgf hg) hg'
    · rw [Function.update_of_ne hgf] at hg
      rw [Function.update_of_ne hgf'] at hg'
      exact h.apart hg hg'
  · rcases eq_or_ne g f with rfl | hne
    · rw [Function.update_self] at hg
      exact (hm i hg).elim (fun hi => (h.below hi).trans_le hle) And.right
    · rw [Function.update_of_ne hne] at hg
      exact (h.below hg).trans_le hle

/-! ### Values of one kind -/

/-- The values of one kind that a map holds. -/
def pick (proj : α → Option β) (M : ι → Option α) : ι → Option β := fun i => (M i).bind proj

/-- A map to values of one kind as a map to values of any. -/
def embed (inj : β → α) (m : ι → Option β) : ι → Option α := fun i => (m i).map inj

variable {inj : β → α} {proj : α → Option β} {b : ι → Option β}

theorem embed_eq_none : embed inj b i = none ↔ b i = none := Option.map_eq_none_iff

theorem embed_update [DecidableEq ι] (b : ι → Option β) (i : ι) (y : β) :
    embed inj (Function.update b i (some y)) = Function.update (embed inj b) i (some (inj y)) := by
  funext j
  by_cases hj : j = i
  · subst hj
    rw [embed, Function.update_self, Function.update_self, Option.map_some]
  · rw [embed, Function.update_of_ne hj, Function.update_of_ne hj, embed]

theorem pick_eq_some (h : Function.IsPartialInv inj proj) {y : β} :
    pick proj M i = some y ↔ M i = some (inj y) := by
  rw [pick, Option.bind_eq_some_iff]
  constructor
  · rintro ⟨a, ha, hy⟩
    rw [ha, (h y a).1 hy]
  · exact fun hi => ⟨inj y, hi, (h y _).2 rfl⟩

/-- Putting values of one kind over a map puts them over what it holds of the kind. -/
theorem pick_overlay_embed (h : Function.IsPartialInv inj proj) (b : ι → Option β) (M : ι → Option α) :
    pick proj (overlay (embed inj b) M) = overlay b (pick proj M) := by
  funext i
  cases hb : b i with
  | none => rw [overlay_of_none hb, pick, overlay_of_none (embed_eq_none.2 hb), pick]
  | some y => rw [overlay_of_some hb, pick_eq_some h, overlay_of_some (by rw [embed, hb, Option.map_some])]

/-- What a map holds of a kind, put over it, changes nothing. -/
theorem overlay_embed_pick (h : Function.IsPartialInv inj proj) (b : ι → Option β) (M : ι → Option α) :
    overlay (embed inj (overlay b (pick proj M))) M = overlay (embed inj b) M := by
  funext i
  cases hb : b i with
  | some y =>
    rw [overlay_of_some (x := inj y) (by rw [embed, overlay_of_some hb, Option.map_some]),
      overlay_of_some (by rw [embed, hb, Option.map_some])]
  | none =>
    rw [overlay_of_none (embed_eq_none.2 hb)]
    cases hv : pick proj M i with
    | none => rw [overlay_of_none (embed_eq_none.2 ((overlay_of_none hb).trans hv))]
    | some y =>
      rw [overlay_of_some (x := inj y) (by rw [embed, overlay_of_none hb, hv, Option.map_some]),
        (pick_eq_some h).1 hv]

theorem within_pick (h : Function.IsPartialInv inj proj) (hw : Within (embed inj b) M) :
    Within b (pick proj M) := by
  intro i y hi
  rw [pick_eq_some h]
  exact hw i _ (by rw [embed, hi, Option.map_some])

end Lib
end Abdb
