/-
# Waiting for resources

Parties hold resources and each awaits at most one.  If an order on the resources puts
what a party awaits after everything it holds, no chain of waiting parties closes
(`acyclic`): along it the resources do not go back.  From a party of finitely many, such
a chain then leads to one that waits for nobody (`exists_free`).
-/

import Mathlib.Data.Fintype.Card
import Mathlib.Logic.Relation
import Mathlib.Order.Defs.Unbundled
import Mathlib.Order.WellFounded

namespace Abdb
namespace Lib

variable {ι R : Type*} {awaits : ι → Option R} {holds : ι → R → Prop} {a b : ι}

/-- One party awaits what another one holds. -/
def WaitsFor (awaits : ι → Option R) (holds : ι → R → Prop) (a b : ι) : Prop :=
  ∃ r, awaits a = some r ∧ holds b r

namespace WaitsFor

variable {lt : R → R → Prop} [IsStrictOrder R lt]

/-- Along a chain of waiting parties the resources do not go back: the last party holds what
the first awaits, or something after it. -/
theorem chain (h : ∀ a r, awaits a = some r → ∀ s, holds a s → lt s r)
    (hab : Relation.TransGen (WaitsFor awaits holds) a b) :
    ∃ r s, awaits a = some r ∧ holds b s ∧ (r = s ∨ lt r s) := by
  induction hab with
  | single hab =>
    obtain ⟨r, hr, hs⟩ := hab
    exact ⟨r, r, hr, hs, Or.inl rfl⟩
  | tail _ hbc ih =>
    obtain ⟨r, s, hr, hs, hrs⟩ := ih
    obtain ⟨t, ht, hct⟩ := hbc
    have hst := h _ t ht s hs
    refine ⟨r, t, hr, hct, Or.inr ?_⟩
    rcases hrs with rfl | hrs
    · exact hst
    · exact trans_of lt hrs hst

/-- **No chain of waiting parties closes.** -/
theorem acyclic (h : ∀ a r, awaits a = some r → ∀ s, holds a s → lt s r) (a : ι) :
    ¬ Relation.TransGen (WaitsFor awaits holds) a a := by
  intro hcycle
  obtain ⟨r, s, hr, hs, hrs⟩ := chain h hcycle
  have hsr := h a r hr s hs
  rcases hrs with rfl | hrs
  · exact irrefl_of lt r hsr
  · exact irrefl_of lt r (trans_of lt hrs hsr)

omit [IsStrictOrder R lt] in
/-- **Somebody can go on**: the chain of waiting from one of finitely many parties ends. -/
theorem exists_free [Finite ι] (h : ∀ a, ¬ Relation.TransGen (WaitsFor awaits holds) a a)
    (a : ι) : ∃ b, Relation.ReflTransGen (WaitsFor awaits holds) a b ∧
      ∀ c, ¬ WaitsFor awaits holds b c := by
  let after (b a : ι) : Prop := Relation.TransGen (WaitsFor awaits holds) a b
  have : IsTrans ι after := ⟨fun _ _ _ hba hcb => hcb.trans hba⟩
  have : Std.Irrefl after := ⟨h⟩
  have hwf : WellFounded after := Finite.wellFounded_of_trans_of_irrefl _
  obtain ⟨b, hab, hmin⟩ := hwf.has_min {b | Relation.ReflTransGen (WaitsFor awaits holds) a b}
    ⟨a, .refl⟩
  exact ⟨b, hab, fun c hbc => hmin c (hab.tail hbc) (.single hbc)⟩

end WaitsFor

end Lib
end Abdb
