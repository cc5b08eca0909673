/-
# Trees that were only inserted into

A page splits only when it is full, and both of its halves are at least half full
(`Page.SplitsInto.halfFull`); the root alone may hold less, an inner one at least one
separator.  An insert into an index whose pages are so leaves them so (`Dense.insert`),
because the old root is below a new one only after it has split.  A tree of `h` levels of
inner pages has then `2 * 128 ^ (h - 1)` leaves at least (`length_leaves`).
-/

import Mathlib.Algebra.Group.Action.Defs
import Mathlib.Algebra.Order.BigOperators.Group.List
import Mathlib.Tactic.Ring
import Abdb.BTree.Crabbing
import Abdb.BTree.Shape

namespace Abdb
namespace BTree

open Relation

variable {S : PageSupply} {st st' : Store} {key : ℕ} {rid : RecordId}

/-- Every page but the root is at least half full, and an inner root has a separator.  An
index with no root has no pages. -/
structure Dense (st : Store) : Prop where
  halfFull : ∀ p pg, st.page p = some pg → p ≠ st.root → pg.HalfFull
  root : ∀ i, st.page st.root = some (.inner i) → 1 ≤ i.numKeys
  empty : st.root = 0 → ∀ p, st.page p = none

theorem dense_empty : Dense .empty := ⟨nofun, nofun, fun _ _ => rfl⟩

/-- What an insert leaves of a dense index with a root when it returns `Ok`. -/
theorem Dense.filled (hd : Dense st) {leaf : LPageId} {path kept : List LPageId}
    (hpath : Descends st.page key st.root leaf path)
    (he : Insert.Ended st st' leaf path kept) (hf : Insert.Filled st st') (h0' : st'.root ≠ 0) :
    Dense st' := by
  refine ⟨fun p pg hp hpr => ?_, fun i hi => ?_, fun h => absurd h h0'⟩
  · rcases hf.grown p pg hp (fun heq => absurd heq hpr) with ⟨pg₀, hpg₀, hgrows⟩ | hhalf
    · by_cases hroot : p = st.root
      · -- the old root has split
        subst hroot
        obtain ⟨_, _, l, _, -, -, hl, -, hinto⟩ := he.root hpr.symm _ hpath.root_mem
        obtain rfl : l = pg := Option.some.inj (hl.symm.trans hp)
        exact hinto.halfFull.1
      · exact hgrows.halfFull (hd.halfFull p pg₀ hpg₀ hroot)
    · exact hhalf
  · by_cases hroot : st'.root = st.root
    · rcases hf.grown _ _ hi fun _ => hroot with ⟨pg₀, hpg₀, hgrows⟩ | hhalf
      · rw [hroot] at hpg₀
        cases pg₀ with
        | inner i₀ => exact (hd.root i₀ hpg₀).trans hgrows
        | leaf l => exact hgrows.elim
        | other o => exact hgrows.elim
      · have : 127 ≤ i.numKeys := hhalf
        omega
    · obtain ⟨i', hi', hone⟩ := hf.root hroot
      obtain rfl : i = i' := by simpa [hi] using hi'
      exact hone

/-- **The first leaf** is the root and the only page. -/
theorem Dense.firstLeaf (hd : Dense st) (h0 : st.root = 0) {res : Except Error Unit}
    (hret : Store.Returns S (Insert.machine key rid) st .start st' (.done res)) : Dense st' := by
  have h₁ : st.step S (Insert.machine key rid) .start = (st, .allocFirst) :=
    Store.step_goto nofun nofun (congrArg Out.goto (if_pos h0))
  set n := S.id st.allocated with hn
  have hres : (Insert.machine key rid).resume (st.newPage S).view n .allocFirst =
      ⟨[⟨n, .leaf ⟨n, 0, 0, [Insert.newEntry key rid]⟩, true⟩], none, .setRoot n⟩ :=
    Insert.firstLeaf_eq
  have h₂ := Store.step_newPage rfl hres
  set page' := writePages (Function.update st.page n (some .zeroed))
    [⟨n, .leaf ⟨n, 0, 0, [Insert.newEntry key rid]⟩, true⟩] with hpage'
  have hret' : Store.Returns S (Insert.machine key rid) st .start ⟨page', n, st.allocated + 1⟩
      (.done (.ok ())) := by
    refine .step ?_
    rw [h₁]
    refine .step ?_
    rw [h₂]
    exact .step (.done rfl)
  obtain ⟨rfl, -⟩ := hret.unique hret'
  have hpage : ∀ p pg, page' p = some pg → p = n ∧ ∃ l, pg = .leaf l := by
    intro p pg hp
    rw [hpage', writePages_cons, writePages_nil, Function.update_idem] at hp
    by_cases hpn : p = n
    · rw [hpn, Function.update_self, Option.some.injEq] at hp
      exact ⟨hpn, _, hp.symm⟩
    · rw [Function.update_of_ne hpn, hd.empty h0 p] at hp
      cases hp
  refine ⟨fun p pg hp hpr => absurd (hpage p pg hp).1 hpr, fun i hi => ?_, fun h =>
    absurd h (S.ne_zero _)⟩
  obtain ⟨-, l, hl⟩ := hpage _ _ hi
  cases hl

/-- **An insert leaves a dense index dense.** -/
theorem Dense.insert (hd : Dense st) (hst : st.Valid S) (hk : key < keyBound)
    {res : Except Error Unit}
    (hret : Store.Returns S (Insert.machine key rid) st .start st' (.done res)) : Dense st' := by
  obtain ⟨F, hF⟩ := hst
  obtain ⟨hpresent, habsent⟩ := hF.insert hk rid
  by_cases hb : ∃ r, F.Binds st.page key r
  · -- refused, with nothing changed
    obtain ⟨e, -, he⟩ := hpresent hb
    obtain ⟨rfl, -⟩ := hret.unique he
    exact hd
  obtain ⟨st₂, F', hret', hF', hbinds⟩ := habsent fun r hr => hb ⟨r, hr⟩
  obtain ⟨rfl, hok⟩ := hret.unique hret'
  have hres : res = .ok () := by simpa using hok
  by_cases h0 : st.root = 0
  · exact hd.firstLeaf h0 hret
  · have h0' : st'.root ≠ 0 := fun h => by
      obtain ⟨p, a, b, hp, -⟩ := (hbinds key rid).2 (Or.inr ⟨rfl, rfl⟩)
      rw [hF'.tree.empty h p] at hp
      cases hp
    obtain ⟨leaf, locked, l, hfind, hl⟩ := Insert.finds_leaf_from_start hF h0 hk rid
    obtain ⟨-, -, path, hpath, hkept⟩ := Insert.descends_of_reaches hfind
    have hf := Insert.found hF h0 hk hl hpath hkept
    have hrun : ReflTransGen (fun x y => y = x.1.step S (Insert.machine key rid) x.2)
        (st, .findLeafForWrite leaf locked) (st', .done res) := by
      rcases ReflTransGen.total_of_right_unique
        (fun (_ _ _ : Store × InsertPc) hab hac => hab.trans hac.symm) hfind hret.2 with h | h
      · exact h
      · cases Store.eq_of_reaches hret.1 h
    obtain ⟨hended, hfilled⟩ := Insert.climbOk_of_reaches hf hkept hrun
    exact hd.filled hpath hended (hfilled hres) h0'

/-- A sequence of inserts leaves a dense index dense. -/
theorem Dense.trace {l : List (Call × Reply)} (hd : Dense st) {m : Bindings}
    (hm : st.Represents S m) (htrace : Store.Trace S st l st')
    (hins : ∀ x ∈ l, ∃ key rid, x.1 = .insert key rid) : Dense st' := by
  induction htrace generalizing m with
  | nil st => exact hd
  | @cons st st₁ st' c r l hexec _ ih =>
    obtain ⟨key, rid, hc⟩ := hins _ (List.mem_cons_self ..)
    obtain rfl : c = .insert key rid := hc
    obtain ⟨st₂, r₂, hexec₂, -, h₂⟩ := hm.exec_insert key rid
    obtain ⟨rfl, rfl⟩ := hexec.unique hexec₂
    obtain ⟨F, hF, -⟩ := hm
    cases r with
    | record res => exact hexec.elim
    | unit res =>
      exact ih (hd.insert ⟨F, hF⟩ (keyFromBytes_lt key) hexec) h₂ fun x hx =>
        hins x (List.mem_cons_of_mem _ hx)

/-! ### How many keys there are -/

variable {page : LPageId → Option Page} {root p : LPageId} {height d : ℕ}

/-- Below each child at least `m` entries, below the page as many times that. -/
theorem length_pagesAt_succ {m : ℕ} {i : BTreeInnerPage} (hp : page p = some (.inner i))
    (hm : ∀ c ∈ childPages (page p),
      m ≤ ((pagesAt page d c).flatMap fun q => leafEntries (page q)).length) :
    (i.numKeys + 1) * m ≤
      ((pagesAt page (d + 1) p).flatMap fun q => leafEntries (page q)).length := by
  have hlen : (childPages (page p)).length = i.numKeys + 1 := by
    rw [hp]
    exact congrArg Nat.succ (List.length_map ..)
  rw [pagesAt, List.flatMap_assoc, List.length_flatMap, ← hlen, ← smul_eq_mul]
  refine le_of_eq_of_le (by rw [List.length_map]) (List.card_nsmul_le_sum _ _ fun x hx => ?_)
  obtain ⟨c, hc, rfl⟩ := List.mem_map.1 hx
  exact hm c hc

/-- A dense tree of pages has that many entries `k` levels below a page other than the root. -/
theorem WellShaped.length_below (h : WellShaped page root height)
    (hhalf : ∀ p pg, page p = some pg → p ≠ root → pg.HalfFull) {k : ℕ} :
    ∀ {d p}, p ∈ pagesAt page d root → p ≠ root → d + k = height →
      128 ^ k * 127 ≤ ((pagesAt page k p).flatMap fun q => leafEntries (page q)).length := by
  induction k with
  | zero =>
    intro d p hp hpr hd
    rcases h.pages d p hp with ⟨-, l, hl, -⟩ | ⟨hlt, -⟩
    · have hfull : 127 ≤ l.entries.length := hhalf p _ hl hpr
      rw [pagesAt, List.flatMap_singleton, hl, pow_zero, Nat.one_mul]
      exact hfull
    · omega
  | succ k ih =>
    intro d p hp hpr hd
    rcases h.pages d p hp with ⟨rfl, -⟩ | ⟨-, i, hi, -⟩
    · omega
    · have hfull : 127 ≤ i.entries.length := hhalf p _ hi hpr
      have hchild : ∀ c ∈ childPages (page p), 128 ^ k * 127 ≤
          ((pagesAt page k c).flatMap fun q => leafEntries (page q)).length := by
        intro c hc
        refine ih (mem_pagesAt_succ.2 ⟨p, hp, hc⟩) ?_ (by omega)
        rintro rfl
        exact h.top p ⟨d, hp⟩ hc
      calc 128 ^ (k + 1) * 127 = 128 * (128 ^ k * 127) := by ring
        _ ≤ (i.numKeys + 1) * (128 ^ k * 127) :=
          Nat.mul_le_mul_right _ (show 128 ≤ i.entries.length + 1 by omega)
        _ ≤ _ := length_pagesAt_succ hi hchild

/-- **A dense tree of `h + 1` levels of inner pages** has that many entries. -/
theorem Dense.length_leaves (hd : Dense st) (h : WellShaped st.page st.root (d + 1)) :
    2 * 128 ^ d * 127 ≤
      ((pagesAt st.page (d + 1) st.root).flatMap fun q => leafEntries (st.page q)).length := by
  have hroot : st.root ∈ pagesAt st.page 0 st.root := List.mem_singleton_self _
  rcases h.pages 0 st.root hroot with ⟨hlt, -⟩ | ⟨-, i, hi, -⟩
  · omega
  have hchild : ∀ c ∈ childPages (st.page st.root), 128 ^ d * 127 ≤
      ((pagesAt st.page d c).flatMap fun q => leafEntries (st.page q)).length := by
    intro c hc
    refine h.length_below hd.halfFull (d := 1) (mem_pagesAt_succ.2 ⟨st.root, hroot, hc⟩) ?_
      (Nat.add_comm ..)
    rintro rfl
    exact h.top st.root ⟨0, hroot⟩ hc
  calc 2 * 128 ^ d * 127 = 2 * (128 ^ d * 127) := Nat.mul_assoc ..
    _ ≤ (i.numKeys + 1) * (128 ^ d * 127) :=
      Nat.mul_le_mul_right _ (Nat.succ_le_succ (hd.root i hi))
    _ ≤ _ := length_pagesAt_succ hi hchild

end BTree
end Abdb
