/-
# Search trees level by level

A search tree whose nodes split before their parents learn of it.  Every node has an
`Extent`, its level above the leaves and the half-open range of keys it is responsible
for; on each level the extents partition the whole key range.  An inner node directs
keys by *signs*: `sign q k c` sends the keys from `k` on to child `c`, up to the next
sign.  A node that no sign leads to yet is *due* in its parent.

A node keeps its level and its lower bound for good, and a split only lowers its upper
bound, so what an operation learned on its way down stays true (`Extent.Shrinks`).
Routing is exact where nothing is due (`Levels.route`).  The changes an insertion makes
are a split (`Levels.splitLeaf`, `Levels.splitInner`), a sign for a node that was due
(`Levels.link`), a new root (`Levels.newRoot`) and a first leaf (`Levels.first`).
-/

import Mathlib.Logic.Function.Basic
import Mathlib.Order.Lattice
import Mathlib.Tactic.Common

namespace Abdb
namespace Lib

/-- What a node is responsible for: the keys `lo ≤ k < hi`, `level` steps above the
leaves. -/
structure Extent (K : Type*) where
  level : ℕ
  lo : K
  hi : K

variable {N K : Type*} [LinearOrder K]

/-- The extents of the nodes of a tree. -/
abbrev Extents (N K : Type*) := N → Option (Extent K)

/-- Node `p` is on a level and its keys start at `lo`. -/
def Extents.At (F : Extents N K) (p : N) (level : ℕ) (lo : K) : Prop :=
  ∃ hi, F p = some ⟨level, lo, hi⟩

/-- Every node keeps its level and lower bound and no upper bound grows. -/
def Extents.Shrinks (F F' : Extents N K) : Prop :=
  ∀ p ℓ a b, F p = some ⟨ℓ, a, b⟩ → ∃ b', F' p = some ⟨ℓ, a, b'⟩ ∧ b' ≤ b

/-- The extents partition `[bot, top)` on every level up to `height`. -/
structure Tiled (bot top : K) (F : Extents N K) (height : ℕ) : Prop where
  bounds : ∀ {p ℓ a b}, F p = some ⟨ℓ, a, b⟩ → bot ≤ a ∧ a < b ∧ b ≤ top
  disjoint : ∀ {p q ℓ a b a' b'}, F p = some ⟨ℓ, a, b⟩ → F q = some ⟨ℓ, a', b'⟩ →
    p = q ∨ b ≤ a' ∨ b' ≤ a
  level_le : ∀ {p ℓ a b}, F p = some ⟨ℓ, a, b⟩ → ℓ ≤ height
  complete : ∀ {ℓ k}, ℓ ≤ height → bot ≤ k → k < top →
    ∃ p a b, F p = some ⟨ℓ, a, b⟩ ∧ a ≤ k ∧ k < b

/-- **The tree under `root`**: signs lead one level down to where a child starts, the
first of them to where the node itself starts, and every node but the root is under a
sign or due. -/
structure Levels (bot top : K) (F : Extents N K) (sign : N → K → N → Prop) (due : N → Prop)
    (root : N) (height : ℕ) : Prop where
  tiled : Tiled bot top F height
  rooted : F.At root height bot
  leads : ∀ {q ℓ lo hi k c}, F q = some ⟨ℓ + 1, lo, hi⟩ → sign q k c →
    lo ≤ k ∧ k < hi ∧ F.At c ℓ k
  first : ∀ {q ℓ lo hi}, F q = some ⟨ℓ + 1, lo, hi⟩ → ∃ c, sign q lo c
  linked : ∀ {p ℓ a b}, F p = some ⟨ℓ, a, b⟩ →
    p = root ∨ due p ∨ ∃ q lo hi, F q = some ⟨ℓ + 1, lo, hi⟩ ∧ sign q a p
  loose : ∀ {p q ℓ lo hi k}, due p → F q = some ⟨ℓ + 1, lo, hi⟩ → ¬ sign q k p
  placed : ∀ {p}, due p → ∃ ℓ a, F.At p ℓ a
  standing : ¬ due root

variable {bot top : K} {F F' : Extents N K} {sign sign' : N → K → N → Prop} {due due' : N → Prop}
  {root p q c n : N} {height ℓ ℓ' : ℕ} {a b a' b' lo hi k m s : K}

/-! ### Extents -/

omit [LinearOrder K] in
theorem Extents.At.unique (h : F.At p ℓ a) (h' : F.At p ℓ' a') : ℓ = ℓ' ∧ a = a' := by
  obtain ⟨b, hb⟩ := h
  obtain ⟨b', hb'⟩ := h'
  rw [hb, Option.some.injEq, Extent.mk.injEq] at hb'
  exact ⟨hb'.1, hb'.2.1⟩

omit [LinearOrder K] in
theorem Extents.at_of (h : F p = some ⟨ℓ, a, b⟩) : F.At p ℓ a := ⟨b, h⟩

theorem Extents.Shrinks.refl : F.Shrinks F := fun _ _ _ b h => ⟨b, h, le_rfl⟩

theorem Extents.Shrinks.at (h : F.Shrinks F') (hp : F.At p ℓ a) : F'.At p ℓ a := by
  obtain ⟨b, hb⟩ := hp
  obtain ⟨b', hb', -⟩ := h p ℓ a b hb
  exact ⟨b', hb'⟩

namespace Tiled

variable (h : Tiled bot top F height)
include h

/-- **A key has one node on each level.** -/
theorem unique (hp : F p = some ⟨ℓ, a, b⟩) (hq : F q = some ⟨ℓ, a', b'⟩)
    (ha : a ≤ k) (hb : k < b) (ha' : a' ≤ k) (hb' : k < b') : p = q := by
  rcases h.disjoint hp hq with hpq | hpq | hpq
  · exact hpq
  · exact absurd (hb.trans_le hpq) ha'.not_gt
  · exact absurd (hb'.trans_le hpq) ha.not_gt

/-- Two nodes of one level that start at one key are the same. -/
theorem at_unique (hp : F.At p ℓ a) (hq : F.At q ℓ a) : p = q := by
  obtain ⟨b, hp⟩ := hp
  obtain ⟨b', hq⟩ := hq
  exact h.unique hp hq le_rfl (h.bounds hp).2.1 le_rfl (h.bounds hq).2.1

end Tiled

/-! ### Routing -/

namespace Levels

/-- A child starts where its sign says. -/
theorem child_at (h : Levels bot top F sign due root height) (hq : F q = some ⟨ℓ + 1, lo, hi⟩)
    (hs : sign q k c) : F.At c ℓ k := (h.leads hq hs).2.2

/-- What is under one sign is under no other key. -/
theorem sign_unique (h : Levels bot top F sign due root height)
    (hq : F q = some ⟨ℓ + 1, lo, hi⟩) (hs : sign q k c) (hn : F.At n ℓ k) : c = n :=
  h.tiled.at_unique (h.child_at hq hs) hn

/-- No sign stands where a due node starts. -/
theorem sign_ne_of_due (h : Levels bot top F sign due root height)
    (hq : F q = some ⟨ℓ + 1, lo, hi⟩) (hdue : due n) (hn : F.At n ℓ s) (hs : sign q k c) :
    k ≠ s := by
  rintro rfl
  obtain rfl := h.sign_unique hq hs hn
  exact h.loose hdue hq hs

/-- **Routing is exact where nothing is due.**  The child under the last sign not above a
key of the node is responsible for the key, unless the node that is has no sign yet. -/
theorem route (h : Levels bot top F sign due root height) (hq : F q = some ⟨ℓ + 1, lo, hi⟩)
    (hlo : lo ≤ k) (hhi : k < hi) (hs : sign q a c) (hak : a ≤ k)
    (hlast : ∀ k' c', sign q k' c' → k' ≤ k → k' ≤ a)
    (hdue : ∀ x a' b', F x = some ⟨ℓ, a', b'⟩ → a' ≤ k → k < b' → ¬ due x) :
    ∃ b, F c = some ⟨ℓ, a, b⟩ ∧ k < b := by
  obtain ⟨hbot, -, htop⟩ := h.tiled.bounds hq
  have hℓ := h.tiled.level_le hq
  -- the node responsible for the key is under some sign
  obtain ⟨x, a', b', hx, hak', hkb'⟩ :=
    h.tiled.complete (ℓ := ℓ) (k := k) (by omega) (hbot.trans hlo) (hhi.trans_le htop)
  obtain ⟨q', lo', hi', hq', hs'⟩ : ∃ q lo hi, F q = some ⟨ℓ + 1, lo, hi⟩ ∧ sign q a' x := by
    rcases h.linked hx with rfl | hd | hl
    · obtain ⟨rfl, -⟩ := h.rooted.unique (Extents.at_of hx)
      omega
    · exact absurd hd (hdue x a' b' hx hak' hkb')
    · exact hl
  obtain ⟨hlo', hhi', -⟩ := h.leads hq' hs'
  -- and the node of that sign is `q`: both start a child at a key of the other
  obtain rfl : q = q' := by
    rcases h.tiled.disjoint hq hq' with heq | hle | hle
    · exact heq
    · exact absurd (hhi.trans_le hle) (hlo'.trans hak').not_gt
    · obtain ⟨c₀, hc₀⟩ := h.first hq
      obtain ⟨b₀, hb₀⟩ := h.child_at hq hc₀
      obtain ⟨-, hlt, -⟩ := h.tiled.bounds hb₀
      have hlo'' : a' < lo := hhi'.trans_le hle
      rcases h.tiled.disjoint hx hb₀ with rfl | hd | hd
      · rw [hx, Option.some.injEq, Extent.mk.injEq] at hb₀
        exact absurd hb₀.2.1 hlo''.ne
      · exact absurd (hkb'.trans_le hd) hlo.not_gt
      · exact absurd (hlt.trans_le hd) hlo''.not_gt
  -- so the last sign not above the key is its sign
  obtain ⟨b, hc⟩ := h.child_at hq hs
  have haa := hlast a' x hs' hak'
  rcases h.tiled.disjoint hc hx with rfl | hd | hd
  · rw [hc, Option.some.injEq, Extent.mk.injEq] at hx
    exact ⟨b, hc, hx.2.2 ▸ hkb'⟩
  · exact absurd ((h.tiled.bounds hc).2.1.trans_le hd) haa.not_gt
  · exact absurd (hkb'.trans_le hd) hak.not_gt

/-- A child under a sign ends where its node does, or before. -/
theorem child_hi_le (h : Levels bot top F sign due root height)
    (hq : F q = some ⟨ℓ + 1, lo, hi⟩) (hs : sign q a c) (hc : F c = some ⟨ℓ, a, b⟩) : b ≤ hi := by
  by_contra hlt
  obtain ⟨hbot, hlohi, htop⟩ := h.tiled.bounds hq
  obtain ⟨-, -, hbtop⟩ := h.tiled.bounds hc
  -- the node after `q` would start inside the child
  have hℓ := h.tiled.level_le hq
  obtain ⟨q', lo', hi', hq', hlo', hhi'⟩ := h.tiled.complete (k := hi) hℓ
    (hbot.trans hlohi.le) ((not_le.1 hlt).trans_le hbtop)
  have hstart : lo' = hi := by
    rcases h.tiled.disjoint hq hq' with rfl | hd | hd
    · rw [hq, Option.some.injEq, Extent.mk.injEq] at hq'
      exact absurd (hq'.2.2 ▸ hhi') (lt_irrefl _)
    · exact le_antisymm hlo' hd
    · exact absurd (hhi'.trans_le hd) hlohi.le.not_gt
  subst hstart
  obtain ⟨c₀, hc₀⟩ := h.first hq'
  obtain ⟨b₀, hb₀⟩ := h.child_at hq' hc₀
  obtain ⟨-, hahi, -⟩ := h.leads hq hs
  obtain rfl := h.tiled.unique hc hb₀ hahi.le (not_le.1 hlt) le_rfl (h.tiled.bounds hb₀).2.1
  rw [hc, Option.some.injEq, Extent.mk.injEq] at hb₀
  exact absurd hb₀.2.1 hahi.ne

/-- Only the signs of inner nodes count. -/
theorem congr_sign (h : Levels bot top F sign due root height)
    (hsign : ∀ q ℓ lo hi k c, F q = some ⟨ℓ + 1, lo, hi⟩ → (sign' q k c ↔ sign q k c)) :
    Levels bot top F sign' due root height where
  tiled := h.tiled
  rooted := h.rooted
  leads hq hs := h.leads hq ((hsign _ _ _ _ _ _ hq).1 hs)
  first hq := by
    obtain ⟨c, hc⟩ := h.first hq
    exact ⟨c, (hsign _ _ _ _ _ _ hq).2 hc⟩
  linked hp := by
    rcases h.linked hp with hr | hd | ⟨q, lo, hi, hq, hs⟩
    · exact Or.inl hr
    · exact Or.inr (Or.inl hd)
    · exact Or.inr (Or.inr ⟨q, lo, hi, hq, (hsign _ _ _ _ _ _ hq).2 hs⟩)
  loose hp hq hs := h.loose hp hq ((hsign _ _ _ _ _ _ hq).1 hs)
  placed := h.placed
  standing := h.standing

end Levels

/-! ### What an insertion changes -/

section Changes

variable [DecidableEq N]

/-- The extents after node `p` with `[a, b)` gave up `[m, b)` to node `n`. -/
def Extents.split (F : Extents N K) (p n : N) (ℓ : ℕ) (a m b : K) : Extents N K :=
  Function.update (Function.update F p (some ⟨ℓ, a, m⟩)) n (some ⟨ℓ, m, b⟩)

/-- The extents with one node more. -/
def Extents.add (F : Extents N K) (n : N) (ℓ : ℕ) (a b : K) : Extents N K :=
  Function.update F n (some ⟨ℓ, a, b⟩)

omit [LinearOrder K] in
@[simp] theorem Extents.split_right : F.split p n ℓ a m b n = some ⟨ℓ, m, b⟩ := by
  simp [Extents.split]

omit [LinearOrder K] in
theorem Extents.split_left (h : p ≠ n) : F.split p n ℓ a m b p = some ⟨ℓ, a, m⟩ := by
  simp [Extents.split, h]

omit [LinearOrder K] in
theorem Extents.split_of_ne (hp : q ≠ p) (hn : q ≠ n) : F.split p n ℓ a m b q = F q := by
  simp [Extents.split, hp, hn]

omit [LinearOrder K] in
@[simp] theorem Extents.add_self : F.add n ℓ a b n = some ⟨ℓ, a, b⟩ := Function.update_self ..

omit [LinearOrder K] in
theorem Extents.add_of_ne (h : q ≠ n) : F.add n ℓ a b q = F q := Function.update_of_ne h ..

omit [LinearOrder K] in
/-- Where an extent of the split comes from: the right half, the left half, or a node that
kept its own. -/
theorem Extents.of_split (hpn : p ≠ n) (h : F.split p n ℓ a m b q = some ⟨ℓ', lo, hi⟩) :
    (q = n ∧ ℓ' = ℓ ∧ lo = m ∧ hi = b) ∨ (q = p ∧ ℓ' = ℓ ∧ lo = a ∧ hi = m) ∨
      (q ≠ p ∧ q ≠ n ∧ F q = some ⟨ℓ', lo, hi⟩) := by
  by_cases hqn : q = n
  · subst hqn
    rw [Extents.split_right, Option.some.injEq, Extent.mk.injEq] at h
    exact Or.inl ⟨rfl, h.1.symm, h.2.1.symm, h.2.2.symm⟩
  · by_cases hqp : q = p
    · subst hqp
      rw [Extents.split_left hpn, Option.some.injEq, Extent.mk.injEq] at h
      exact Or.inr (Or.inl ⟨rfl, h.1.symm, h.2.1.symm, h.2.2.symm⟩)
    · rw [Extents.split_of_ne hqp hqn] at h
      exact Or.inr (Or.inr ⟨hqp, hqn, h⟩)

theorem Extents.shrinks_split (hp : F p = some ⟨ℓ, a, b⟩) (hn : F n = none) (hmb : m < b) :
    F.Shrinks (F.split p n ℓ a m b) := by
  intro q ℓ' lo hi hq
  have hqn : q ≠ n := by
    rintro rfl
    rw [hn] at hq
    cases hq
  by_cases hqp : q = p
  · subst hqp
    rw [hp, Option.some.injEq, Extent.mk.injEq] at hq
    obtain ⟨rfl, rfl, rfl⟩ := hq
    exact ⟨m, Extents.split_left hqn, hmb.le⟩
  · exact ⟨hi, (Extents.split_of_ne hqp hqn).trans hq, le_rfl⟩

theorem Extents.shrinks_add (hn : F n = none) : F.Shrinks (F.add n ℓ a b) := by
  intro q ℓ' lo hi hq
  refine ⟨hi, (Extents.add_of_ne ?_).trans hq, le_rfl⟩
  rintro rfl
  rw [hn] at hq
  cases hq

namespace Tiled

variable (h : Tiled bot top F height)
include h

/-- A split keeps every level partitioned. -/
theorem split (hp : F p = some ⟨ℓ, a, b⟩) (hn : F n = none) (ham : a < m) (hmb : m < b) :
    Tiled bot top (F.split p n ℓ a m b) height := by
  have hpn : p ≠ n := by
    rintro rfl
    rw [hn] at hp
    cases hp
  obtain ⟨hbot, -, htop⟩ := h.bounds hp
  refine ⟨fun {q _ _ _} hq => ?_, fun {q q' _ _ _ _ _} hq hq' => ?_, fun {q _ _ _} hq => ?_,
    fun {ℓ' k} hℓ hlo hhi => ?_⟩
  · rcases Extents.of_split hpn hq with ⟨-, -, rfl, rfl⟩ | ⟨-, -, rfl, rfl⟩ | ⟨-, -, hq⟩
    · exact ⟨hbot.trans ham.le, hmb, htop⟩
    · exact ⟨hbot, ham, hmb.le.trans htop⟩
    · exact h.bounds hq
  · rcases Extents.of_split hpn hq with ⟨rfl, rfl, rfl, rfl⟩ | ⟨rfl, rfl, rfl, rfl⟩ | ⟨hqp, -, hq₁⟩ <;>
      rcases Extents.of_split hpn hq' with ⟨rfl, h₁, rfl, rfl⟩ | ⟨rfl, h₁, rfl, rfl⟩ | ⟨hqp', -, hq₂⟩
    · exact Or.inl rfl
    · exact Or.inr (Or.inr le_rfl)
    · rcases h.disjoint hp hq₂ with heq | hd | hd
      · exact absurd heq.symm hqp'
      · exact Or.inr (Or.inl hd)
      · exact Or.inr (Or.inr (hd.trans ham.le))
    · exact Or.inr (Or.inl le_rfl)
    · exact Or.inl rfl
    · rcases h.disjoint hp hq₂ with heq | hd | hd
      · exact absurd heq.symm hqp'
      · exact Or.inr (Or.inl (hmb.le.trans hd))
      · exact Or.inr (Or.inr hd)
    · subst h₁
      rcases h.disjoint hq₁ hp with heq | hd | hd
      · exact absurd heq hqp
      · exact Or.inr (Or.inl (hd.trans ham.le))
      · exact Or.inr (Or.inr hd)
    · subst h₁
      rcases h.disjoint hq₁ hp with heq | hd | hd
      · exact absurd heq hqp
      · exact Or.inr (Or.inl hd)
      · exact Or.inr (Or.inr (hmb.le.trans hd))
    · exact h.disjoint hq₁ hq₂
  · rcases Extents.of_split hpn hq with ⟨-, rfl, -⟩ | ⟨-, rfl, -⟩ | ⟨-, -, hq⟩
    · exact h.level_le hp
    · exact h.level_le hp
    · exact h.level_le hq
  · obtain ⟨q, lo, hi, hq, hlok, hkhi⟩ := h.complete hℓ hlo hhi
    have hqn : q ≠ n := by
      rintro rfl
      rw [hn] at hq
      cases hq
    by_cases hqp : q = p
    · subst hqp
      rw [hp, Option.some.injEq, Extent.mk.injEq] at hq
      obtain ⟨rfl, rfl, rfl⟩ := hq
      rcases lt_or_ge k m with hk | hk
      · exact ⟨q, a, m, Extents.split_left hqn, hlok, hk⟩
      · exact ⟨n, m, b, Extents.split_right, hk, hkhi⟩
    · exact ⟨q, lo, hi, (Extents.split_of_ne hqp hqn).trans hq, hlok, hkhi⟩

/-- A node for the whole range may stand above the highest level. -/
theorem raise (hn : F n = none) (hlt : bot < top) :
    Tiled bot top (F.add n (height + 1) bot top) (height + 1) := by
  have hcases : ∀ {q ℓ lo hi}, F.add n (height + 1) bot top q = some ⟨ℓ, lo, hi⟩ →
      (q = n ∧ ℓ = height + 1 ∧ lo = bot ∧ hi = top) ∨ F q = some ⟨ℓ, lo, hi⟩ := by
    intro q ℓ lo hi hq
    by_cases hqn : q = n
    · subst hqn
      rw [Extents.add_self, Option.some.injEq, Extent.mk.injEq] at hq
      exact Or.inl ⟨rfl, hq.1.symm, hq.2.1.symm, hq.2.2.symm⟩
    · exact Or.inr ((Extents.add_of_ne hqn).symm.trans hq)
  refine ⟨fun {q _ _ _} hq => ?_, fun {q q' _ _ _ _ _} hq hq' => ?_, fun {q _ _ _} hq => ?_,
    fun {ℓ' k} hℓ hlo hhi => ?_⟩
  · rcases hcases hq with ⟨-, -, rfl, rfl⟩ | hq
    · exact ⟨le_rfl, hlt, le_rfl⟩
    · exact h.bounds hq
  · rcases hcases hq with ⟨rfl, rfl, rfl, rfl⟩ | hq₁ <;>
      rcases hcases hq' with ⟨rfl, h₁, rfl, rfl⟩ | hq₂
    · exact Or.inl rfl
    · have := h.level_le hq₂
      omega
    · have := h.level_le hq₁
      omega
    · exact h.disjoint hq₁ hq₂
  · rcases hcases hq with ⟨-, rfl, -⟩ | hq
    · exact le_rfl
    · have := h.level_le hq
      omega
  · rcases Nat.lt_or_ge height ℓ' with hℓ' | hℓ'
    · obtain rfl : ℓ' = height + 1 := by omega
      exact ⟨n, bot, top, Extents.add_self, hlo, hhi⟩
    · obtain ⟨q, lo, hi, hq, hk⟩ := h.complete hℓ' hlo hhi
      refine ⟨q, lo, hi, (Extents.add_of_ne ?_).trans hq, hk⟩
      rintro rfl
      rw [hn] at hq
      cases hq

end Tiled

namespace Levels

variable (h : Levels bot top F sign due root height)
include h

omit [DecidableEq N] in
/-- The key range is not empty. -/
theorem bot_lt_top : bot < top := by
  obtain ⟨b, hb⟩ := h.rooted
  obtain ⟨-, hlt, hle⟩ := h.tiled.bounds hb
  exact hlt.trans_le hle

omit [DecidableEq N] in
/-- A node the tree does not have is under no sign. -/
theorem not_sign_of_none (hn : F n = none) (hq : F q = some ⟨ℓ + 1, lo, hi⟩) : ¬ sign q k n := by
  intro hs
  obtain ⟨b, hb⟩ := h.child_at hq hs
  rw [hn] at hb
  cases hb

/-- **A leaf splits.**  The new leaf is due. -/
theorem splitLeaf (hp : F p = some ⟨0, a, b⟩) (hn : F n = none) (ham : a < m) (hmb : m < b)
    (hsign : ∀ q ℓ lo hi k c, F q = some ⟨ℓ + 1, lo, hi⟩ → (sign' q k c ↔ sign q k c))
    (hdue : ∀ x, due' x ↔ due x ∨ x = n) :
    Levels bot top (F.split p n 0 a m b) sign' due' root height := by
  have hpn : p ≠ n := by
    rintro rfl
    rw [hn] at hp
    cases hp
  have hshrink := Extents.shrinks_split (a := a) hp hn hmb
  have hinner : ∀ {q ℓ lo hi}, F.split p n 0 a m b q = some ⟨ℓ + 1, lo, hi⟩ →
      F q = some ⟨ℓ + 1, lo, hi⟩ := by
    intro q ℓ lo hi hq
    rcases Extents.of_split hpn hq with ⟨-, h₁, -⟩ | ⟨-, h₁, -⟩ | ⟨-, -, hq⟩
    · cases h₁
    · cases h₁
    · exact hq
  refine ⟨h.tiled.split hp hn ham hmb, hshrink.at h.rooted, fun {q ℓ lo hi k c} hq hs => ?_,
    fun {q ℓ lo hi} hq => ?_, fun {x ℓ lo hi} hx => ?_, fun {x q ℓ lo hi k} hx hq hs => ?_,
    fun {x} hx => ?_, ?_⟩
  · obtain ⟨hlo, hhi, hc⟩ := h.leads (hinner hq) ((hsign q ℓ lo hi k c (hinner hq)).1 hs)
    exact ⟨hlo, hhi, hshrink.at hc⟩
  · obtain ⟨c, hc⟩ := h.first (hinner hq)
    exact ⟨c, (hsign q ℓ lo hi lo c (hinner hq)).2 hc⟩
  · have hold : ∀ {hi'}, x ≠ n → F x = some ⟨ℓ, lo, hi'⟩ → x = root ∨ due' x ∨
        ∃ q lo' hi, F.split p n 0 a m b q = some ⟨ℓ + 1, lo', hi⟩ ∧ sign' q lo x := by
      intro hi' hxn hx
      rcases h.linked hx with hr | hd | ⟨q, lo', hi', hq, hs⟩
      · exact Or.inl hr
      · exact Or.inr (Or.inl ((hdue x).2 (Or.inl hd)))
      · refine Or.inr (Or.inr ⟨q, lo', hi', ?_, (hsign _ _ _ _ _ _ hq).2 hs⟩)
        rw [Extents.split_of_ne _ _, hq]
        · rintro rfl
          rw [hp] at hq
          cases hq
        · rintro rfl
          rw [hn] at hq
          cases hq
    rcases Extents.of_split hpn hx with ⟨rfl, -⟩ | ⟨rfl, rfl, rfl, -⟩ | ⟨-, hxn, hx⟩
    · exact Or.inr (Or.inl ((hdue x).2 (Or.inr rfl)))
    · exact hold hpn hp
    · exact hold hxn hx
  · have hs := (hsign q ℓ lo hi k x (hinner hq)).1 hs
    rcases (hdue x).1 hx with hx | rfl
    · exact h.loose hx (hinner hq) hs
    · exact h.not_sign_of_none hn (hinner hq) hs
  · rcases (hdue x).1 hx with hx | rfl
    · obtain ⟨ℓ, c, hc⟩ := h.placed hx
      exact ⟨ℓ, c, hshrink.at hc⟩
    · exact ⟨0, m, b, Extents.split_right⟩
  · intro hr
    rcases (hdue root).1 hr with hr | rfl
    · exact h.standing hr
    · obtain ⟨b', hb'⟩ := h.rooted
      rw [hn] at hb'
      cases hb'

/-- **An inner node splits** with the sign of a due child merged in: the signs below `m`
stay, those from `m` on go to the new node, which is due in turn. -/
theorem splitInner {x : N} (hp : F p = some ⟨ℓ + 1, a, b⟩) (hn : F n = none) (ham : a < m)
    (hmb : m < b) (hx : F.At x ℓ s) (has : a ≤ s) (hsb : s < b)
    (hleft : ∀ k c, sign' p k c ↔ (sign p k c ∨ k = s ∧ c = x) ∧ k < m)
    (hright : ∀ k c, sign' n k c ↔ (sign p k c ∨ k = s ∧ c = x) ∧ m ≤ k)
    (hmid : ∃ c, sign p m c ∨ m = s ∧ c = x)
    (hsign : ∀ q ℓ lo hi k c, q ≠ p → F q = some ⟨ℓ + 1, lo, hi⟩ → (sign' q k c ↔ sign q k c))
    (hdue : ∀ y, due' y ↔ due y ∧ y ≠ x ∨ y = n) (hxdue : due x) :
    Levels bot top (F.split p n (ℓ + 1) a m b) sign' due' root height := by
  have hpn : p ≠ n := by
    rintro rfl
    rw [hn] at hp
    cases hp
  have hshrink := Extents.shrinks_split (a := a) hp hn hmb
  -- a sign of either half is an old one of the node, or the one merged in
  have hmerged : ∀ {k c}, sign p k c ∨ k = s ∧ c = x → a ≤ k ∧ k < b ∧ F.At c ℓ k := by
    rintro k c (hs | ⟨rfl, rfl⟩)
    · exact h.leads hp hs
    · exact ⟨has, hsb, hx⟩
  have hxn : x ≠ n := by
    rintro rfl
    obtain ⟨b', hb'⟩ := hx
    rw [hn] at hb'
    cases hb'
  refine ⟨h.tiled.split hp hn ham hmb, hshrink.at h.rooted, fun {q ℓ' lo hi k c} hq hs => ?_,
    fun {q ℓ' lo hi} hq => ?_, fun {y ℓ' lo hi} hy => ?_,
    fun {y q ℓ' lo hi k} hy hq hs => ?_, fun {y} hy => ?_, ?_⟩
  · rcases Extents.of_split hpn hq with ⟨rfl, h₁, rfl, rfl⟩ | ⟨rfl, h₁, rfl, rfl⟩ | ⟨hqp, -, hq⟩
    · obtain rfl : ℓ' = ℓ := by omega
      obtain ⟨hs, hk⟩ := (hright k c).1 hs
      exact ⟨hk, (hmerged hs).2.1, hshrink.at (hmerged hs).2.2⟩
    · obtain rfl : ℓ' = ℓ := by omega
      obtain ⟨hs, hk⟩ := (hleft k c).1 hs
      exact ⟨(hmerged hs).1, hk, hshrink.at (hmerged hs).2.2⟩
    · obtain ⟨hlo, hhi, hc⟩ := h.leads hq ((hsign q ℓ' lo hi k c hqp hq).1 hs)
      exact ⟨hlo, hhi, hshrink.at hc⟩
  · rcases Extents.of_split hpn hq with ⟨rfl, -, rfl, -⟩ | ⟨rfl, -, rfl, -⟩ | ⟨hqp, -, hq⟩
    · obtain ⟨c, hc⟩ := hmid
      exact ⟨c, (hright lo c).2 ⟨hc, le_rfl⟩⟩
    · obtain ⟨c, hc⟩ := h.first hp
      exact ⟨c, (hleft lo c).2 ⟨Or.inl hc, ham⟩⟩
    · obtain ⟨c, hc⟩ := h.first hq
      exact ⟨c, (hsign q ℓ' lo hi lo c hqp hq).2 hc⟩
  · -- a merged sign is on one of the halves
    have hhalf : ∀ {k c}, sign p k c ∨ k = s ∧ c = x →
        ∃ q lo hi, F.split p n (ℓ + 1) a m b q = some ⟨ℓ + 1, lo, hi⟩ ∧ sign' q k c := by
      intro k c hs
      rcases lt_or_ge k m with hk | hk
      · exact ⟨p, a, m, Extents.split_left hpn, (hleft k c).2 ⟨hs, hk⟩⟩
      · exact ⟨n, m, b, Extents.split_right, (hright k c).2 ⟨hs, hk⟩⟩
    have hold : ∀ {hi'}, F y = some ⟨ℓ', lo, hi'⟩ → y = root ∨ due' y ∨
        ∃ q lo' hi, F.split p n (ℓ + 1) a m b q = some ⟨ℓ' + 1, lo', hi⟩ ∧ sign' q lo y := by
      intro hi' hy
      rcases h.linked hy with hr | hd | ⟨q, lo', hi', hq, hs⟩
      · exact Or.inl hr
      · by_cases hyx : y = x
        · subst hyx
          obtain ⟨rfl, rfl⟩ := (Extents.at_of hy).unique hx
          exact Or.inr (Or.inr (hhalf (Or.inr ⟨rfl, rfl⟩)))
        · exact Or.inr (Or.inl ((hdue y).2 (Or.inl ⟨hd, hyx⟩)))
      · by_cases hqp : q = p
        · subst hqp
          rw [hp, Option.some.injEq, Extent.mk.injEq] at hq
          obtain rfl : ℓ = ℓ' := by omega
          exact Or.inr (Or.inr (hhalf (Or.inl hs)))
        · refine Or.inr (Or.inr ⟨q, lo', hi', ?_, (hsign _ _ _ _ _ _ hqp hq).2 hs⟩)
          rw [Extents.split_of_ne hqp _, hq]
          rintro rfl
          rw [hn] at hq
          cases hq
    rcases Extents.of_split hpn hy with ⟨rfl, -⟩ | ⟨rfl, rfl, rfl, -⟩ | ⟨-, -, hy⟩
    · exact Or.inr (Or.inl ((hdue y).2 (Or.inr rfl)))
    · exact hold hp
    · exact hold hy
  · have hnot : ∀ {k}, ¬ (sign p k y ∨ k = s ∧ y = x) := by
      rintro k (hs | ⟨-, rfl⟩)
      · rcases (hdue y).1 hy with ⟨hy, -⟩ | rfl
        · exact h.loose hy hp hs
        · exact h.not_sign_of_none hn hp hs
      · rcases (hdue y).1 hy with ⟨-, hne⟩ | hne
        · exact hne rfl
        · exact hxn hne
    rcases Extents.of_split hpn hq with ⟨rfl, -⟩ | ⟨rfl, -⟩ | ⟨hqp, -, hq₁⟩
    · exact hnot ((hright k y).1 hs).1
    · exact hnot ((hleft k y).1 hs).1
    · have hs := (hsign q ℓ' lo hi k y hqp hq₁).1 hs
      rcases (hdue y).1 hy with ⟨hy, -⟩ | rfl
      · exact h.loose hy hq₁ hs
      · exact h.not_sign_of_none hn hq₁ hs
  · rcases (hdue y).1 hy with ⟨hy, -⟩ | rfl
    · obtain ⟨ℓ', c, hc⟩ := h.placed hy
      exact ⟨ℓ', c, hshrink.at hc⟩
    · exact ⟨ℓ + 1, m, b, Extents.split_right⟩
  · intro hr
    rcases (hdue root).1 hr with ⟨hr, -⟩ | rfl
    · exact h.standing hr
    · obtain ⟨b', hb'⟩ := h.rooted
      rw [hn] at hb'
      cases hb'

omit [DecidableEq N] in
/-- **A due node gets its sign.** -/
theorem link {x : N} (hp : F p = some ⟨ℓ + 1, lo, hi⟩) (hx : F.At x ℓ s) (hlo : lo ≤ s)
    (hhi : s < hi) (hleft : ∀ k c, sign' p k c ↔ sign p k c ∨ k = s ∧ c = x)
    (hsign : ∀ q ℓ lo hi k c, q ≠ p → F q = some ⟨ℓ + 1, lo, hi⟩ → (sign' q k c ↔ sign q k c))
    (hdue : ∀ y, due' y ↔ due y ∧ y ≠ x) :
    Levels bot top F sign' due' root height := by
  have hgain : ∀ {q ℓ lo hi k c}, F q = some ⟨ℓ + 1, lo, hi⟩ → sign q k c → sign' q k c := by
    intro q ℓ lo hi k c hq hs
    by_cases hqp : q = p
    · subst hqp
      exact (hleft k c).2 (Or.inl hs)
    · exact (hsign q ℓ lo hi k c hqp hq).2 hs
  refine ⟨h.tiled, h.rooted, fun {q ℓ' lo' hi' k c} hq hs => ?_, fun {q ℓ' lo' hi'} hq => ?_,
    fun {y ℓ' lo' hi'} hy => ?_, fun {y q ℓ' lo' hi' k} hy hq hs => ?_,
    fun {y} hy => h.placed ((hdue y).1 hy).1, ?_⟩
  · by_cases hqp : q = p
    · subst hqp
      rcases (hleft k c).1 hs with hs | ⟨rfl, rfl⟩
      · exact h.leads hq hs
      · rw [hp, Option.some.injEq, Extent.mk.injEq] at hq
        obtain ⟨h₁, rfl, rfl⟩ := hq
        obtain rfl : ℓ = ℓ' := by omega
        exact ⟨hlo, hhi, hx⟩
    · exact h.leads hq ((hsign q ℓ' lo' hi' k c hqp hq).1 hs)
  · obtain ⟨c, hc⟩ := h.first hq
    exact ⟨c, hgain hq hc⟩
  · rcases h.linked hy with hr | hd | ⟨q, lo₁, hi₁, hq, hs⟩
    · exact Or.inl hr
    · by_cases hyx : y = x
      · subst hyx
        obtain ⟨rfl, rfl⟩ := (Extents.at_of hy).unique hx
        exact Or.inr (Or.inr ⟨p, lo, hi, hp, (hleft _ _).2 (Or.inr ⟨rfl, rfl⟩)⟩)
      · exact Or.inr (Or.inl ((hdue y).2 ⟨hd, hyx⟩))
    · exact Or.inr (Or.inr ⟨q, lo₁, hi₁, hq, hgain hq hs⟩)
  · obtain ⟨hy, hyx⟩ := (hdue y).1 hy
    by_cases hqp : q = p
    · subst hqp
      rcases (hleft k y).1 hs with hs | ⟨-, rfl⟩
      · exact h.loose hy hq hs
      · exact hyx rfl
    · exact h.loose hy hq ((hsign q ℓ' lo' hi' k y hqp hq).1 hs)
  · exact fun hr => h.standing ((hdue root).1 hr).1

/-- **A new root** over the old one and a node of its level that was due. -/
theorem newRoot {x : N} (hn : F n = none) (hx : F.At x height s) (hs : bot ≤ s) (hst : s < top)
    (hroot : ∀ k c, sign' n k c ↔ k = bot ∧ c = root ∨ k = s ∧ c = x)
    (hsign : ∀ q ℓ lo hi k c, F q = some ⟨ℓ + 1, lo, hi⟩ → (sign' q k c ↔ sign q k c))
    (hdue : ∀ y, due' y ↔ due y ∧ y ≠ x) :
    Levels bot top (F.add n (height + 1) bot top) sign' due' n (height + 1) := by
  have hshrink : F.Shrinks (F.add n (height + 1) bot top) := Extents.shrinks_add hn
  have hcases : ∀ {q ℓ lo hi}, F.add n (height + 1) bot top q = some ⟨ℓ, lo, hi⟩ →
      (q = n ∧ ℓ = height + 1 ∧ lo = bot ∧ hi = top) ∨ q ≠ n ∧ F q = some ⟨ℓ, lo, hi⟩ := by
    intro q ℓ lo hi hq
    by_cases hqn : q = n
    · subst hqn
      rw [Extents.add_self, Option.some.injEq, Extent.mk.injEq] at hq
      exact Or.inl ⟨rfl, hq.1.symm, hq.2.1.symm, hq.2.2.symm⟩
    · exact Or.inr ⟨hqn, (Extents.add_of_ne hqn).symm.trans hq⟩
  refine ⟨h.tiled.raise hn h.bot_lt_top, ⟨top, Extents.add_self⟩,
    fun {q ℓ lo hi k c} hq hs' => ?_, fun {q ℓ lo hi} hq => ?_, fun {y ℓ lo hi} hy => ?_,
    fun {y q ℓ lo hi k} hy hq hs' => ?_, fun {y} hy => ?_, fun hr => ?_⟩
  · rcases hcases hq with ⟨rfl, h₁, rfl, rfl⟩ | ⟨-, hq⟩
    · obtain rfl : ℓ = height := by omega
      rcases (hroot k c).1 hs' with ⟨rfl, rfl⟩ | ⟨rfl, rfl⟩
      · exact ⟨le_rfl, h.bot_lt_top, hshrink.at h.rooted⟩
      · exact ⟨hs, hst, hshrink.at hx⟩
    · obtain ⟨hlo, hhi, hc⟩ := h.leads hq ((hsign q ℓ lo hi k c hq).1 hs')
      exact ⟨hlo, hhi, hshrink.at hc⟩
  · rcases hcases hq with ⟨rfl, h₁, rfl, rfl⟩ | ⟨-, hq⟩
    · exact ⟨root, (hroot lo root).2 (Or.inl ⟨rfl, rfl⟩)⟩
    · obtain ⟨c, hc⟩ := h.first hq
      exact ⟨c, (hsign q ℓ lo hi lo c hq).2 hc⟩
  · have hnew : ∀ {k c}, sign' n k c → ∃ q lo hi,
        F.add n (height + 1) bot top q = some ⟨height + 1, lo, hi⟩ ∧ sign' q k c :=
      fun hs' => ⟨n, bot, top, Extents.add_self, hs'⟩
    rcases hcases hy with ⟨rfl, -⟩ | ⟨hyn, hy⟩
    · exact Or.inl rfl
    rcases h.linked hy with rfl | hd | ⟨q, lo', hi', hq, hs'⟩
    · obtain ⟨rfl, rfl⟩ := (Extents.at_of hy).unique h.rooted
      exact Or.inr (Or.inr (hnew ((hroot _ _).2 (Or.inl ⟨rfl, rfl⟩))))
    · by_cases hyx : y = x
      · subst hyx
        obtain ⟨rfl, rfl⟩ := (Extents.at_of hy).unique hx
        exact Or.inr (Or.inr (hnew ((hroot _ _).2 (Or.inr ⟨rfl, rfl⟩))))
      · exact Or.inr (Or.inl ((hdue y).2 ⟨hd, hyx⟩))
    · refine Or.inr (Or.inr ⟨q, lo', hi', ?_, (hsign _ _ _ _ _ _ hq).2 hs'⟩)
      rw [Extents.add_of_ne _, hq]
      rintro rfl
      rw [hn] at hq
      cases hq
  · obtain ⟨hy, hyx⟩ := (hdue y).1 hy
    rcases hcases hq with ⟨rfl, -⟩ | ⟨-, hq⟩
    · rcases (hroot k y).1 hs' with ⟨-, rfl⟩ | ⟨-, rfl⟩
      · exact h.standing hy
      · exact hyx rfl
    · exact h.loose hy hq ((hsign q ℓ lo hi k y hq).1 hs')
  · obtain ⟨ℓ, c, hc⟩ := h.placed ((hdue y).1 hy).1
    exact ⟨ℓ, c, hshrink.at hc⟩
  · obtain ⟨ℓ, c, b', hc⟩ := h.placed ((hdue n).1 hr).1
    rw [hn] at hc
    cases hc

end Levels

/-- **A first leaf.** -/
theorem Levels.single (hlt : bot < top) (hF : ∀ q, F q = none) (hdue : ∀ y, ¬ due y) :
    Levels bot top (F.add n 0 bot top) sign due n 0 := by
  have hcases : ∀ {q ℓ lo hi}, F.add n 0 bot top q = some ⟨ℓ, lo, hi⟩ →
      q = n ∧ ℓ = 0 ∧ lo = bot ∧ hi = top := by
    intro q ℓ lo hi hq
    by_cases hqn : q = n
    · subst hqn
      rw [Extents.add_self, Option.some.injEq, Extent.mk.injEq] at hq
      exact ⟨rfl, hq.1.symm, hq.2.1.symm, hq.2.2.symm⟩
    · rw [Extents.add_of_ne hqn, hF] at hq
      cases hq
  refine ⟨⟨fun hq => ?_, fun hq hq' => ?_, fun hq => ?_, fun {ℓ k} hℓ hlo hhi => ?_⟩,
    ⟨top, Extents.add_self⟩, fun hq => ?_, fun hq => ?_, fun hy => ?_, fun hy => absurd hy (hdue _),
    fun hy => absurd hy (hdue _), hdue n⟩
  · obtain ⟨-, -, rfl, rfl⟩ := hcases hq
    exact ⟨le_rfl, hlt, le_rfl⟩
  · exact Or.inl ((hcases hq).1.trans (hcases hq').1.symm)
  · exact (hcases hq).2.1.le
  · obtain rfl : ℓ = 0 := by omega
    exact ⟨n, bot, top, Extents.add_self, hlo, hhi⟩
  · cases (hcases hq).2.1
  · cases (hcases hq).2.1
  · exact Or.inl (hcases hy).1

end Changes

end Lib
end Abdb
