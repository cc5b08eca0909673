/-
# Numbers given out once

A supply gives out numbers in steps.  What was given out in a state is a set that only grows, and the
numbers of a stretch of steps are new and distinct (`Issues`).  Stretches put end to end issue what they
issue one by one (`Issues.append`).
-/

import Mathlib.Data.List.Nodup
import Mathlib.Data.Set.Basic

namespace Abdb
namespace Lib

variable {σ α : Type*} {given : σ → Set α} {s s' s'' : σ} {l l' : List α} {a : α}

/-- From one state to another these numbers are given out, and perhaps others. -/
structure Issues (given : σ → Set α) (s : σ) (l : List α) (s' : σ) : Prop where
  kept : given s ⊆ given s'
  fresh : ∀ a ∈ l, a ∉ given s
  taken : ∀ a ∈ l, a ∈ given s'
  nodup : l.Nodup

namespace Issues

theorem none (h : given s ⊆ given s') : Issues given s [] s' := ⟨h, nofun, nofun, .nil⟩

theorem refl (s : σ) : Issues given s [] s := none subset_rfl

theorem one (h : given s ⊆ given s') (hfresh : a ∉ given s) (htaken : a ∈ given s') : Issues given s [a] s' :=
  ⟨h, List.forall_mem_singleton.2 hfresh, List.forall_mem_singleton.2 htaken, List.nodup_singleton a⟩

/-- **One stretch after the other**: what was given out before is not given out again. -/
theorem append (h : Issues given s l s') (h' : Issues given s' l' s'') : Issues given s (l ++ l') s'' where
  kept := h.kept.trans h'.kept
  fresh := List.forall_mem_append.2 ⟨h.fresh, fun a ha hgiven => h'.fresh a ha (h.kept hgiven)⟩
  taken := List.forall_mem_append.2 ⟨fun a ha => h'.kept (h.taken a ha), h'.taken⟩
  nodup := List.nodup_append'.2 ⟨h.nodup, h'.nodup, fun a ha ha' => h'.fresh a ha' (h.taken a ha)⟩

theorem cons (h : Issues given s [a] s') (h' : Issues given s' l s'') : Issues given s (a :: l) s'' := h.append h'

/-- Fewer numbers are looked at. -/
theorem sublist (h : Issues given s l s') (hsub : l'.Sublist l) : Issues given s l' s' where
  kept := h.kept
  fresh a ha := h.fresh a (hsub.subset ha)
  taken a ha := h.taken a (hsub.subset ha)
  nodup := h.nodup.sublist hsub

end Issues
end Lib
end Abdb
