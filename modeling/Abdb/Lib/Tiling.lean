/-
# Ranges tiled by a list

The pieces of a list tile the half-open range `[lo, hi)` from left to right: the first
starts at `lo`, each one where the one before it ends, and the last ends at `hi`.  The
children of a fenced node tile its range (`Fenced.tiles`), tilings nest
(`Tiles.flatMap`), and entries that each piece holds in order and within its part are in
order over all of them (`Tiles.sorted_flatMap`).
-/

import Abdb.Lib.Fence

namespace Abdb
namespace Lib

variable {C D E K : Type*} [LinearOrder K]

/-- The pieces tile `[lo, hi)`; `cov c a b` says that piece `c` covers `[a, b)`. -/
def Tiles (cov : C → K → K → Prop) : K → List C → K → Prop
  | lo, [], hi => lo = hi
  | lo, c :: cs, hi => ∃ m, cov c lo m ∧ Tiles cov m cs hi

variable {cov : C → K → K → Prop} {cov' : D → K → K → Prop} {lo hi m k : K} {c : C}
  {cs xs ys : List C}

omit [LinearOrder K] in
/-- The children of a node tile its range. -/
theorem Fenced.tiles {sep : E → K} {child : E → C} {es : List E}
    (h : Fenced sep child cov lo c es hi) : Tiles cov lo (childrenOf child c es) hi := by
  induction es generalizing lo c with
  | nil => exact ⟨hi, h, rfl⟩
  | cons e es ih => exact ⟨sep e, h.1, ih h.2⟩

namespace Tiles

omit [LinearOrder K] in
theorem append (hx : Tiles cov lo xs m) (hy : Tiles cov m ys hi) : Tiles cov lo (xs ++ ys) hi := by
  induction xs generalizing lo with
  | nil =>
    obtain rfl : lo = m := hx
    exact hy
  | cons c xs ih =>
    obtain ⟨m', hc, hrest⟩ := hx
    exact ⟨m', hc, ih hrest⟩

omit [LinearOrder K] in
/-- **Tilings nest.** -/
theorem flatMap {f : C → List D} (hf : ∀ c a b, cov c a b → Tiles cov' a (f c) b)
    (h : Tiles cov lo cs hi) : Tiles cov' lo (cs.flatMap f) hi := by
  induction cs generalizing lo with
  | nil => exact h
  | cons c cs ih =>
    obtain ⟨m, hc, hrest⟩ := h
    exact (hf _ _ _ hc).append (ih hrest)

variable (hcov : ∀ x a b, cov x a b → a < b)
include hcov

theorem le (h : Tiles cov lo cs hi) : lo ≤ hi := by
  induction cs generalizing lo with
  | nil => exact le_of_eq h
  | cons c cs ih =>
    obtain ⟨m, hc, hrest⟩ := h
    exact (hcov _ _ _ hc).le.trans (ih hrest)

/-- Every piece covers a part of the range. -/
theorem covers (h : Tiles cov lo cs hi) (hc : c ∈ cs) : ∃ a b, cov c a b ∧ lo ≤ a ∧ b ≤ hi := by
  induction cs generalizing lo with
  | nil => cases hc
  | cons d cs ih =>
    obtain ⟨m, hd, hrest⟩ := h
    rcases List.mem_cons.1 hc with rfl | hc
    · exact ⟨lo, m, hd, le_rfl, hrest.le hcov⟩
    · obtain ⟨a, b, hab, ha, hb⟩ := ih hrest hc
      exact ⟨a, b, hab, (hcov _ _ _ hd).le.trans ha, hb⟩

/-- No piece occurs twice. -/
theorem nodup (huniq : ∀ x a b a' b', cov x a b → cov x a' b' → a' = a ∧ b' = b)
    (h : Tiles cov lo cs hi) : cs.Nodup := by
  induction cs generalizing lo with
  | nil => exact List.nodup_nil
  | cons c cs ih =>
    obtain ⟨m, hc, hrest⟩ := h
    refine List.nodup_cons.2 ⟨fun hmem => ?_, ih hrest⟩
    obtain ⟨a, b, hab, ha, -⟩ := hrest.covers hcov hmem
    obtain ⟨rfl, rfl⟩ := huniq _ _ _ _ _ hc hab
    exact absurd (hcov _ _ _ hc) ha.not_gt

/-- **Entries in order within each piece are in order over all of them.** -/
theorem sorted_flatMap {key : E → K} {f : C → List E}
    (hf : ∀ c a b, cov c a b → SortedBy key (f c) ∧ ∀ e ∈ f c, a ≤ key e ∧ key e < b)
    (h : Tiles cov lo cs hi) : SortedBy key (cs.flatMap f) := by
  induction cs generalizing lo with
  | nil => exact SortedBy.nil
  | cons c cs ih =>
    obtain ⟨m, hc, hrest⟩ := h
    obtain ⟨hsorted, hwithin⟩ := hf _ _ _ hc
    rw [List.flatMap_cons]
    refine SortedBy.append_iff.2 ⟨hsorted, ih hrest, fun x hx y hy => ?_⟩
    obtain ⟨d, hd, hyd⟩ := List.mem_flatMap.1 hy
    obtain ⟨a, b, hab, ha, -⟩ := hrest.covers hcov hd
    have hym := ((hf _ _ _ hab).2 y hyd).1
    exact (hwithin x hx).2.trans_le (ha.trans hym)

omit hcov in
/-- A point of the range lies in one piece, between the tilings left and right of it. -/
theorem cut (h : Tiles cov lo cs hi) (hlo : lo ≤ k) (hhi : k < hi) :
    ∃ xs c ys a b, cs = xs ++ c :: ys ∧ Tiles cov lo xs a ∧ cov c a b ∧ Tiles cov b ys hi ∧
      a ≤ k ∧ k < b := by
  induction cs generalizing lo with
  | nil =>
    obtain rfl : lo = hi := h
    exact absurd hhi hlo.not_gt
  | cons c cs ih =>
    obtain ⟨m, hc, hrest⟩ := h
    rcases lt_or_ge k m with hk | hk
    · exact ⟨[], c, cs, lo, m, rfl, rfl, hc, hrest, hlo, hk⟩
    · obtain ⟨xs, d, ys, a, b, rfl, hxs, hd, hys, hak, hkb⟩ := ih hrest hk
      exact ⟨c :: xs, d, ys, a, b, rfl, ⟨m, hc, hxs⟩, hd, hys, hak, hkb⟩

end Tiles

end Lib
end Abdb
