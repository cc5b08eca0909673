/-
# Fenced children of a search-tree node

An inner node of a search tree is a first child followed by separators, each with
the child to its right.  `Fenced cov lo c es hi` says that those children partition
the half-open key range `[lo, hi)`: the first child covers `[lo, s₁)`, the child
after separator `sᵢ` covers `[sᵢ, sᵢ₊₁)` and the last one ends at `hi`, where
`cov c a b` is whatever it means for child `c` to cover `[a, b)`.

Sortedness of the separators, the bounds they respect and the correctness of routing
are consequences (`Fenced.sorted`, `Fenced.between`, `Fenced.route`); cutting the list
of separators cuts the range (`Fenced.append_iff`), and a child that splits in two
is a separator more (`Fenced.split_child`).
-/

import Abdb.Lib.Search

namespace Abdb
namespace Lib

variable {C E K : Type*} [LinearOrder K]

/-- The child a key is routed to: the one right of the last separator not above it. -/
def route (sep : E → K) (child : E → C) (k : K) : C → List E → C
  | c, [] => c
  | c, e :: es => if k < sep e then c else route sep child k (child e) es

/-- The children of a node, left to right. -/
def childrenOf (child : E → C) (c : C) (es : List E) : List C := c :: es.map child

/-- The last child of a node. -/
def lastChild (child : E → C) : C → List E → C
  | c, [] => c
  | _, e :: es => lastChild child (child e) es

/-- The children partition `[lo, hi)` at the separators. -/
def Fenced (sep : E → K) (child : E → C) (cov : C → K → K → Prop) :
    K → C → List E → K → Prop
  | lo, c, [], hi => cov c lo hi
  | lo, c, e :: es, hi => cov c lo (sep e) ∧ Fenced sep child cov (sep e) (child e) es hi

variable {sep : E → K} {child : E → C} {cov cov' : C → K → K → Prop}
variable {lo hi k a b m : K} {c x n : C} {e : E} {es xs ys : List E}

theorem mem_childrenOf {x : C} : x ∈ childrenOf child c es ↔ x = c ∨ ∃ e ∈ es, child e = x := by
  simp [childrenOf]

theorem route_append (hx : ∀ e ∈ xs, sep e ≤ k) (e : E) (he : sep e ≤ k) :
    route sep child k c (xs ++ e :: ys) = route sep child k (child e) ys := by
  induction xs generalizing c with
  | nil => exact if_neg he.not_gt
  | cons x xs ih =>
    rw [List.cons_append, route, if_neg (hx x (List.mem_cons_self ..)).not_gt]
    exact ih fun z hz => hx z (List.mem_cons_of_mem _ hz)

theorem route_below (hy : ∀ e ∈ ys, k < sep e) : route sep child k c ys = c := by
  cases ys with
  | nil => rfl
  | cons y ys => exact if_pos (hy y (List.mem_cons_self ..))

/-- Separators above the key at the end do not matter. -/
theorem route_append_above (hy : ∀ e ∈ ys, k < sep e) :
    route sep child k c (xs ++ ys) = route sep child k c xs := by
  induction xs generalizing c with
  | nil => exact route_below hy
  | cons x xs ih =>
    rw [List.cons_append, route, route, ih]

/-- **A new separator** takes the keys from it up to the next one, and no others. -/
theorem route_insert (h : SortedBy sep (xs ++ e :: ys)) : route sep child k c (xs ++ e :: ys) =
    if sep e ≤ k ∧ ∀ y ∈ xs ++ ys, sep e < sep y → k < sep y then child e
    else route sep child k c (xs ++ ys) := by
  obtain ⟨hx, hy⟩ := h.of_cut
  rcases lt_or_ge k (sep e) with hlt | hle
  · have hall : ∀ y ∈ e :: ys, k < sep y := by
      intro y hmem
      rcases List.mem_cons.1 hmem with rfl | hmem
      · exact hlt
      · exact hlt.trans (hy y hmem)
    rw [if_neg fun hk => hlt.not_ge hk.1, route_append_above hall,
      route_append_above fun y hmem => hall y (List.mem_cons_of_mem _ hmem)]
  · have hxk : ∀ x ∈ xs, sep x ≤ k := fun x hmem => (hx x hmem).le.trans hle
    rw [route_append hxk e hle]
    split_ifs with hnext
    · exact route_below fun y hmem => hnext.2 y (List.mem_append_right _ hmem) (hy y hmem)
    · -- the key is right of a separator above the new one
      obtain ⟨y, hmem, hgt, hyk⟩ : ∃ y ∈ xs ++ ys, sep e < sep y ∧ sep y ≤ k := by
        by_contra hnone
        refine hnext ⟨hle, fun y hmem hgt => lt_of_not_ge fun hyk => hnone ⟨y, hmem, hgt, hyk⟩⟩
      have hys : y ∈ ys := (List.mem_append.1 hmem).resolve_left fun hxs => (hx y hxs).not_gt hgt
      have hsorted : SortedBy sep ys := (SortedBy.cons_iff.1 (SortedBy.append_iff.1 h).2.1).2
      cases ys with
      | nil => cases hys
      | cons z zs =>
        have hz : sep z ≤ k := by
          rcases List.mem_cons.1 hys with rfl | hys
          · exact hyk
          · exact ((SortedBy.cons_iff.1 hsorted).1 y hys).le.trans hyk
        rw [route_append hxk z hz, route, if_neg hz.not_gt]

/-- **Where a key is routed**: to the first child if every separator is above it, else
right of the last separator that is not. -/
theorem route_cases (child : E → C) (h : SortedBy sep es) :
    ((∀ e ∈ es, k < sep e) ∧ route sep child k c es = c) ∨
      ∃ e ∈ es, sep e ≤ k ∧ (∀ y ∈ es, sep y ≤ k → sep y ≤ sep e) ∧
        route sep child k c es = child e := by
  induction es generalizing c with
  | nil => exact Or.inl ⟨by simp, rfl⟩
  | cons e es ih =>
    obtain ⟨he, hes⟩ := SortedBy.cons_iff.1 h
    rw [route]
    split_ifs with hk
    · refine Or.inl ⟨fun y hy => ?_, rfl⟩
      rcases List.mem_cons.1 hy with rfl | hy
      · exact hk
      · exact hk.trans (he y hy)
    · rcases ih (c := child e) hes with ⟨hlt, hroute⟩ | ⟨y, hy, hyk, hmax, hroute⟩
      · refine Or.inr ⟨e, List.mem_cons_self .., not_lt.1 hk, fun y hy hyk => ?_, hroute⟩
        rcases List.mem_cons.1 hy with rfl | hy
        · exact le_rfl
        · exact absurd (hlt y hy) hyk.not_gt
      · refine Or.inr ⟨y, List.mem_cons_of_mem _ hy, hyk, fun z hz hzk => ?_, hroute⟩
        rcases List.mem_cons.1 hz with rfl | hz
        · exact (he y hy).le
        · exact hmax z hz hzk

omit [LinearOrder K] in
theorem lastChild_mem : lastChild child c es ∈ childrenOf child c es := by
  induction es generalizing c with
  | nil => exact List.mem_cons_self ..
  | cons e es ih => exact List.mem_cons_of_mem _ ih

namespace Fenced

omit [LinearOrder K] in
/-- **Cutting the separators cuts the range.** -/
theorem append_iff : Fenced sep child cov lo c (xs ++ e :: ys) hi ↔
    Fenced sep child cov lo c xs (sep e) ∧ Fenced sep child cov (sep e) (child e) ys hi := by
  induction xs generalizing lo c with
  | nil => rfl
  | cons x xs ih =>
    rw [List.cons_append, Fenced, Fenced, ih, and_assoc]

omit [LinearOrder K] in
theorem mono (h : Fenced sep child cov lo c es hi)
    (hcov : ∀ x ∈ childrenOf child c es, ∀ a b, cov x a b → cov' x a b) :
    Fenced sep child cov' lo c es hi := by
  induction es generalizing lo c with
  | nil => exact hcov c (List.mem_cons_self ..) _ _ h
  | cons e es ih =>
    refine ⟨hcov c (List.mem_cons_self ..) _ _ h.1, ih h.2 fun x hx => ?_⟩
    exact hcov x (List.mem_cons_of_mem _ hx)

variable (hcov : ∀ x a b, cov x a b → a < b)
include hcov

theorem lt (h : Fenced sep child cov lo c es hi) : lo < hi := by
  induction es generalizing lo c with
  | nil => exact hcov _ _ _ h
  | cons e es ih => exact (hcov _ _ _ h.1).trans (ih h.2)

/-- Every separator lies strictly inside the range. -/
theorem between (h : Fenced sep child cov lo c es hi) : ∀ e ∈ es, lo < sep e ∧ sep e < hi := by
  intro e he
  obtain ⟨xs, ys, rfl⟩ := List.append_of_mem he
  obtain ⟨h₁, h₂⟩ := append_iff.1 h
  exact ⟨h₁.lt hcov, h₂.lt hcov⟩

/-- The separators are strictly increasing. -/
theorem sorted (h : Fenced sep child cov lo c es hi) : SortedBy sep es := by
  induction es generalizing lo c with
  | nil => exact SortedBy.nil
  | cons e es ih =>
    exact SortedBy.cons_iff.2 ⟨fun y hy => (h.2.between hcov y hy).1, ih h.2⟩

/-- **Routing is correct**: a key in the range reaches a child that covers it. -/
theorem route (h : Fenced sep child cov lo c es hi) (hlo : lo ≤ k) (hhi : k < hi) :
    ∃ a b, cov (route sep child k c es) a b ∧ lo ≤ a ∧ b ≤ hi ∧ a ≤ k ∧ k < b := by
  induction es generalizing lo c with
  | nil => exact ⟨lo, hi, h, le_rfl, le_rfl, hlo, hhi⟩
  | cons e es ih =>
    have hlt := hcov _ _ _ h.1
    rw [Lib.route]
    split_ifs with hk
    · exact ⟨lo, sep e, h.1, le_rfl, (h.2.lt hcov).le, hlo, hk⟩
    · obtain ⟨a, b, hab, ha, hb, hak, hkb⟩ := ih h.2 (not_lt.1 hk)
      exact ⟨a, b, hab, hlt.le.trans ha, hb, hak, hkb⟩

/-- Every child covers a part of the range. -/
theorem covers (h : Fenced sep child cov lo c es hi) (hx : x ∈ childrenOf child c es) :
    ∃ a b, cov x a b ∧ lo ≤ a ∧ b ≤ hi := by
  induction es generalizing lo c with
  | nil =>
    obtain rfl : x = c := by simpa [childrenOf] using hx
    exact ⟨lo, hi, h, le_rfl, le_rfl⟩
  | cons e es ih =>
    rcases List.mem_cons.1 hx with rfl | hx
    · exact ⟨lo, sep e, h.1, le_rfl, (h.2.lt hcov).le⟩
    · obtain ⟨a, b, hab, ha, hb⟩ := ih h.2 hx
      exact ⟨a, b, hab, (hcov _ _ _ h.1).le.trans ha, hb⟩

/-- The first child covers the start of the range. -/
theorem first (h : Fenced sep child cov lo c es hi) : ∃ b, cov c lo b ∧ b ≤ hi := by
  cases es with
  | nil => exact ⟨hi, h, le_rfl⟩
  | cons e es => exact ⟨sep e, h.1, (h.2.lt hcov).le⟩

/-- The child right of a separator covers the range from there on. -/
theorem covers_right (h : Fenced sep child cov lo c es hi) (he : e ∈ es) :
    ∃ b, cov (child e) (sep e) b ∧ b ≤ hi := by
  obtain ⟨xs, ys, rfl⟩ := List.append_of_mem he
  exact (append_iff.1 h).2.first hcov

/-- The last child covers the end of the range. -/
theorem last (h : Fenced sep child cov lo c es hi) :
    ∃ a, cov (lastChild child c es) a hi ∧ lo ≤ a := by
  induction es generalizing lo c with
  | nil => exact ⟨lo, h, le_rfl⟩
  | cons e es ih =>
    obtain ⟨a, ha, hle⟩ := ih h.2
    exact ⟨a, ha, (hcov _ _ _ h.1).le.trans hle⟩

/-- A child whose range lies below a bound is not among the children above it. -/
theorem not_mem_of_le (h : Fenced sep child cov lo c es hi) (hx : cov x a b) (hb : b ≤ lo)
    (huniq : ∀ a' b', cov x a' b' → a' = a ∧ b' = b) : x ∉ childrenOf child c es := by
  intro hm
  obtain ⟨a', b', hc, ha', -⟩ := h.covers hcov hm
  obtain ⟨rfl, rfl⟩ := huniq _ _ hc
  exact absurd (hcov _ _ _ hx) (not_lt.2 (hb.trans ha'))

/-- **A child that splits is one separator more.**  Child `x` gives up the part of its
range from `m` on to a new child `n`; the other children keep theirs. -/
theorem split_child (h : Fenced sep child cov lo c es hi)
    (hx : x ∈ childrenOf child c es) (hxa : cov x a b)
    (huniq : ∀ a' b', cov x a' b' → a' = a ∧ b' = b)
    (hcov' : ∀ y a' b', y ≠ x → cov y a' b' → cov' y a' b')
    (hm : sep e = m) (hn : child e = n) (ham : a < m) (hmb : m < b)
    (hleft : cov' x a m) (hright : cov' n m b) :
    Fenced sep child cov' lo c (insertBy sep e es) hi := by
  induction es generalizing lo c with
  | nil =>
    obtain rfl : x = c := by simpa [childrenOf] using hx
    obtain ⟨rfl, rfl⟩ := huniq _ _ h
    subst hm hn
    exact ⟨hleft, hright⟩
  | cons y es ih =>
    have hlt := h.2.lt hcov
    by_cases hxc : x = c
    · subst hxc
      obtain ⟨rfl, hb⟩ := huniq _ _ h.1
      subst hm hn hb
      rw [insertBy, if_neg hmb.not_gt]
      refine ⟨hleft, hright, h.2.mono fun z hz p q hpq => hcov' z p q ?_ hpq⟩
      rintro rfl
      exact h.2.not_mem_of_le hcov h.1 le_rfl huniq hz
    · have hx' : x ∈ childrenOf child (child y) es :=
        (List.mem_cons.1 hx).resolve_left hxc
      obtain ⟨a', b', hc, ha', -⟩ := h.2.covers hcov hx'
      obtain ⟨rfl, rfl⟩ := huniq _ _ hc
      rw [insertBy, if_pos (by rw [hm]; exact ha'.trans_lt ham)]
      exact ⟨hcov' c _ _ (Ne.symm hxc) h.1, ih h.2 hx'⟩

/-- **Two neighbours that merge are one separator less.**  The child left of separator `e`
takes over the range of the child right of it; the other children keep theirs. -/
theorem merge_child (h : Fenced sep child cov lo c (xs ++ e :: ys) hi)
    (huniq : ∀ x a b a' b', cov x a b → cov x a' b' → a' = a ∧ b' = b)
    (hcov' : ∀ y a' b', y ≠ lastChild child c xs → y ≠ child e → cov y a' b' → cov' y a' b')
    (hmerge : ∀ a b, cov (lastChild child c xs) a (sep e) → cov (child e) (sep e) b →
      cov' (lastChild child c xs) a b) :
    Fenced sep child cov' lo c (xs ++ ys) hi := by
  induction xs generalizing lo c with
  | nil =>
    cases ys with
    | nil => exact hmerge _ _ h.1 h.2
    | cons y ys =>
      obtain ⟨hc, he, hys⟩ := h
      refine ⟨hmerge _ _ hc he, hys.mono fun x hx a b hab => hcov' x a b ?_ ?_ hab⟩
      · rintro rfl
        refine hys.not_mem_of_le hcov hc (hcov _ _ _ he).le (fun a' b' h' => huniq _ _ _ _ _ hc h') hx
      · rintro rfl
        exact hys.not_mem_of_le hcov he le_rfl (fun a' b' h' => huniq _ _ _ _ _ he h') hx
  | cons x xs ih =>
    obtain ⟨hc, hrest⟩ := h
    have hne : ∀ z ∈ childrenOf child (child x) (xs ++ e :: ys), c ≠ z := by
      rintro z hz rfl
      exact hrest.not_mem_of_le hcov hc le_rfl (fun a' b' h' => huniq _ _ _ _ _ hc h') hz
    refine ⟨hcov' c _ _ (hne _ ?_) (hne _ ?_) hc, ih hrest hcov' hmerge⟩
    · rw [mem_childrenOf]
      have hlast : lastChild child (child x) xs ∈ childrenOf child (child x) xs := lastChild_mem
      rcases mem_childrenOf.1 hlast with h | h
      · exact Or.inl h
      · obtain ⟨z, hz, hzx⟩ := h
        exact Or.inr ⟨z, List.mem_append_left _ hz, hzx⟩
    · exact mem_childrenOf.2 (Or.inr ⟨e, by simp, rfl⟩)

end Fenced

end Lib
end Abdb
