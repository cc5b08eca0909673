/-
# Trees and their parts

A tree, given by the parts right below each tree.  `Everywhere P` says that a property holds of a
tree and of its parts at any depth.  What holds of a tree wherever it holds of the parts right
below it is proved by induction on a size (`Everywhere.induct`), and what goes from a tree to its
parts is carried down from the root (`Everywhere.descend`).
-/

import Mathlib.Data.Nat.Notation
import Mathlib.Logic.Relation

namespace Abdb

variable {α : Type*} {below : α → List α} {P Q M : α → Prop} {a b : α}

/-- A property of a tree and of its parts at any depth. -/
def Everywhere (below : α → List α) (P : α → Prop) (a : α) : Prop :=
  ∀ b, Relation.ReflTransGen (fun x y => y ∈ below x) a b → P b

namespace Everywhere

theorem here (h : Everywhere below P a) : P a := h a .refl

theorem part (h : Everywhere below P a) (hb : b ∈ below a) : Everywhere below P b :=
  fun c hc => h c (.head hb hc)

theorem iff_below : Everywhere below P a ↔ P a ∧ ∀ b ∈ below a, Everywhere below P b := by
  refine ⟨fun h => ⟨h.here, fun b hb => h.part hb⟩, fun ⟨ha, hbelow⟩ b hb => ?_⟩
  rcases hb.cases_head with rfl | ⟨c, hc, hcb⟩
  · exact ha
  · exact hbelow c hc b hcb

theorem mono (h : Everywhere below P a) (himp : ∀ b, P b → Q b) : Everywhere below Q a :=
  fun b hb => himp b (h b hb)

theorem and (hP : Everywhere below P a) (hQ : Everywhere below Q a) : Everywhere below (fun b => P b ∧ Q b) a :=
  fun b hb => ⟨hP b hb, hQ b hb⟩

/-- A property is everywhere in every part. -/
theorem self (h : Everywhere below P a) : Everywhere below (Everywhere below P) a :=
  fun _ hb c hc => h c (hb.trans hc)

/-- **Induction on a tree**: from the parts right below to the tree. -/
theorem induct (size : α → ℕ) (hsize : ∀ a, ∀ b ∈ below a, size b < size a)
    (step : ∀ a, P a → (∀ b ∈ below a, M b) → M a) (h : Everywhere below P a) : M a := by
  induction hn : size a using Nat.strongRecOn generalizing a with
  | ind n ih =>
    refine step a h.here fun b hb => ?_
    exact ih (size b) (hn ▸ hsize a b hb) (h.part hb) rfl

/-- **From the root down**: what a tree hands on to the parts right below it is everywhere. -/
theorem descend (h : Everywhere below P a) (step : ∀ a, P a → Q a → ∀ b ∈ below a, Q b) (ha : Q a) :
    Everywhere below Q a := by
  intro b hb
  induction hb with
  | refl => exact ha
  | tail hc hbelow ih => exact step _ (h _ hc) ih _ hbelow

end Everywhere
end Abdb
