/-
# What `get` finds

On the pages of a tree, a `get` whose next page covers its key keeps doing so on its way
down, and answers from the leaf that covers the key (`GetOk.resume`).  Running alone on a
tree at rest it returns what the tree binds the key to (`GetOk.returns`).
-/

import Abdb.BTree.Growth
import Abdb.BTree.Sequential

namespace Abdb
namespace BTree

open Lib

variable {F F' : Layout} {D : Dues} {page : LPageId → Option Page} {root c : LPageId} {k : ℕ}
  {ℓ a b : ℕ} {want : Except Error RecordId} {S : PageSupply} {st : Store} {pc : GetPc}

/-- The answer to a lookup: the record the key is bound to, or that there is none. -/
def Layout.Answer (F : Layout) (page : LPageId → Option Page) (k : ℕ) :
    Except Error RecordId → Prop
  | .ok r => F.Binds page k r
  | .error e => e = .tupleNonExistent ∧ ∀ r, ¬ F.Binds page k r

theorem Layout.exists_answer (F : Layout) (page : LPageId → Option Page) (k : ℕ) :
    ∃ want, F.Answer page k want := by
  by_cases h : ∃ r, F.Binds page k r
  · obtain ⟨r, hr⟩ := h
    exact ⟨.ok r, hr⟩
  · exact ⟨.error .tupleNonExistent, rfl, fun r hr => h ⟨r, hr⟩⟩

/-- What is known about a `get` at its await points: the page it is about to fetch covers
the key, and a result is the wanted one. -/
def GetOk (F : Layout) (k : ℕ) (want : Except Error RecordId) : GetPc → Prop
  | .start => True
  | .findLeaf c => ∃ ℓ a b, F c = some ⟨ℓ, a, b⟩ ∧ a ≤ k ∧ k < b
  | .readLeaf c => ∃ a b, F c = some ⟨0, a, b⟩ ∧ a ≤ k ∧ k < b
  | .done r => r = want

/-- A page whose separator is due covers the key: no way leads to its leaf yet. -/
def Dues.Hides (D : Dues) (F : Layout) (k : ℕ) : Prop :=
  ∃ t e ℓ b, D.due t = some e ∧ F e.rightChild = some ⟨ℓ, e.separatorKey, b⟩ ∧
    e.separatorKey ≤ k ∧ k < b

theorem Dues.not_hides_settled : ¬ Dues.settled.Hides F k := by
  rintro ⟨t, e, ℓ, b, hd, -⟩
  cases t <;> cases hd

namespace Tree

/-- The page a separator is due for covers the range from the separator on, and is no child
yet. -/
theorem due_child (h : Tree F D page root) (hc : F c = some ⟨ℓ + 1, a, b⟩) {e : BTreeInnerEntry}
    (hd : D.sep c = some e) : ∃ y, F e.rightChild = some ⟨ℓ, e.separatorKey, y⟩ ∧
      a < e.separatorKey ∧ y ≤ b ∧ ∀ i, page c = some (.inner i) →
        e.rightChild ∉ childrenOf BTreeInnerEntry.rightChild i.leftmostChild i.entries := by
  obtain ⟨i, hi, ok⟩ := h.inner hc
  have hf := ok.fenced
  rw [hd] at hf
  have hlt : ∀ x a b, F.Covers ℓ x a b → a < b := fun _ _ _ h => h.2
  have hmem : e ∈ insertBy BTreeInnerEntry.separatorKey e i.entries := mem_insertBy.2 (Or.inl rfl)
  obtain ⟨y, hy, hyb⟩ := hf.covers_right hlt hmem
  refine ⟨y, hy.1, (hf.between hlt e hmem).1, hyb, fun i' hi' hm => ?_⟩
  obtain rfl : i = i' := by simpa [hi] using hi'
  rcases mem_childrenOf.1 hm with heq | ⟨e', he', heq⟩
  · obtain ⟨z, hz, -⟩ := hf.first hlt
    rw [← heq] at hz
    exact absurd (hf.between hlt e hmem).1 (Layout.Covers.unique hy.1 hz).1.not_lt
  · obtain ⟨z, hz, -⟩ := hf.covers_right hlt (mem_insertBy.2 (Or.inr he'))
    rw [heq] at hz
    exact absurd (Layout.Covers.unique hy.1 hz).1 (ne_of_sorted_insertBy (hf.sorted hlt) e' he')

/-- **Where a page leads a key by its own separators**, whatever is due in it: to the last of
its children that does not start after the key. -/
theorem findChild_own (h : Tree F D page root) (hc : F c = some ⟨ℓ + 1, a, b⟩) (ha : a ≤ k) :
    ∃ i a' b', page c = some (.inner i) ∧ F (i.findChild k) = some ⟨ℓ, a', b'⟩ ∧ a' ≤ k ∧ a ≤ a' ∧
      b' ≤ b ∧ ∀ x ax bx, x ∈ childrenOf BTreeInnerEntry.rightChild i.leftmostChild i.entries →
        F x = some ⟨ℓ, ax, bx⟩ → ax ≤ k → ax ≤ a' := by
  obtain ⟨i, hi, ok⟩ := h.inner hc
  have hf := ok.fenced
  have hlt : ∀ x a b, F.Covers ℓ x a b → a < b := fun _ _ _ h => h.2
  have hdue : ∀ e ∈ i.entries, e ∈ withDue (D.sep c) i.entries := by
    intro e he
    cases D.sep c with
    | none => exact he
    | some d => exact mem_insertBy.2 (Or.inr he)
  obtain ⟨z, hz, hzb⟩ := hf.first hlt
  have hstart : ∀ x ax bx, x ∈ childrenOf BTreeInnerEntry.rightChild i.leftmostChild i.entries →
      F x = some ⟨ℓ, ax, bx⟩ → ax = a ∨ ∃ e ∈ i.entries, e.separatorKey = ax := by
    intro x ax bx hx hFx
    rcases mem_childrenOf.1 hx with rfl | ⟨e, he, rfl⟩
    · exact Or.inl (Layout.Covers.unique hFx hz).1.symm
    · obtain ⟨y, hy, -⟩ := hf.covers_right hlt (hdue e he)
      exact Or.inr ⟨e, he, (Layout.Covers.unique hFx hy).1⟩
  have hroute := BTreeInnerPage.findChild_eq_route ok.sorted (k := k)
  rcases route_cases (c := i.leftmostChild) (k := k) BTreeInnerEntry.rightChild ok.sorted with
    ⟨habove, heq⟩ | ⟨e, he, hek, hmax, heq⟩
  · refine ⟨i, a, z, hi, hroute.trans heq ▸ hz.1, ha, le_rfl, hzb, fun x ax bx hx hFx hax => ?_⟩
    rcases hstart x ax bx hx hFx with rfl | ⟨e, he, rfl⟩
    · exact le_rfl
    · exact absurd (habove e he) hax.not_gt
  · obtain ⟨y, hy, hyb⟩ := hf.covers_right hlt (hdue e he)
    have hae := (hf.between hlt e (hdue e he)).1
    refine ⟨i, e.separatorKey, y, hi, hroute.trans heq ▸ hy.1, hek, hae.le, hyb,
      fun x ax bx hx hFx hax => ?_⟩
    rcases hstart x ax bx hx hFx with rfl | ⟨e', he', rfl⟩
    · exact hae.le
    · exact hmax e' he' hax

end Tree

namespace Get

/-- At an inner page nothing is due in, the descent goes on to the child that covers the
key, one level down. -/
theorem findLeaf_inner (h : Tree F D page root) (hc : F c = some ⟨ℓ + 1, a, b⟩) (ha : a ≤ k)
    (hb : k < b) (hd : D.sep c = none) :
    ∃ c' a' b', Get.findLeaf ⟨page, root⟩ k c = .findLeaf c' ∧ F c' = some ⟨ℓ, a', b'⟩ ∧
      a' ≤ k ∧ k < b' := by
  obtain ⟨i, c', a', b', hpage, -, hroute, hc', -, -, ha', hb'⟩ := h.child hc ha hb
  refine ⟨c', a', b', ?_, hc', ha', hb'⟩
  unfold Get.findLeaf
  dsimp only
  rw [hpage, dispatch]
  dsimp only
  rw [hroute hd]

/-- Also at a page a separator is due in, for a key that no due page covers. -/
theorem findLeaf_beside (h : Tree F D page root) (hc : F c = some ⟨ℓ + 1, a, b⟩) (ha : a ≤ k)
    (hb : k < b) (hside : ¬ D.Hides F k) :
    ∃ c' a' b', Get.findLeaf ⟨page, root⟩ k c = .findLeaf c' ∧ F c' = some ⟨ℓ, a', b'⟩ ∧
      a' ≤ k ∧ k < b' := by
  obtain ⟨i, a', b', hi, hc', ha', -, -, hlast⟩ := h.findChild_own hc ha
  obtain ⟨i', x, ax, bx, hi', hx, -, hFx, -, -, hax, hbx⟩ := h.child hc ha hb
  obtain rfl : i = i' := by simpa [hi] using hi'
  have hown : x ∈ childrenOf BTreeInnerEntry.rightChild i.leftmostChild i.entries := by
    cases hd : D.sep c with
    | none => rwa [hd] at hx
    | some e =>
      rw [hd] at hx
      rcases mem_childrenOf.1 hx with rfl | ⟨e', he', rfl⟩
      · exact List.mem_cons_self ..
      · rcases mem_insertBy.1 he' with rfl | he'
        · -- the due page itself would cover the key
          obtain ⟨y, hy, -⟩ := h.due_child hc hd
          obtain ⟨rfl, rfl⟩ : e'.separatorKey = ax ∧ y = bx := by simpa [hy] using hFx
          exact absurd ⟨some c, e', ℓ, y, hd, hy, hax, hbx⟩ hside
        · exact mem_childrenOf.2 (Or.inr ⟨e', he', rfl⟩)
  obtain rfl : i.findChild k = x := by
    have hle := hlast x ax bx hown hFx hax
    exact h.unique hc' hFx le_rfl (h.bounds hc').1 hle (ha'.trans_lt hbx)
  refine ⟨i.findChild k, ax, bx, ?_, hFx, hax, hbx⟩
  unfold Get.findLeaf
  dsimp only
  rw [hi, dispatch]

/-- The descent stops at a leaf. -/
theorem findLeaf_leaf (h : Tree F D page root) (hc : F c = some ⟨0, a, b⟩) :
    Get.findLeaf ⟨page, root⟩ k c = .readLeaf c := by
  obtain ⟨l, hl, -⟩ := h.leaf hc
  unfold Get.findLeaf
  dsimp only
  rw [hl, dispatch]

/-- The leaf that covers the key gives the answer. -/
theorem readLeaf_eq (h : Tree F D page root) (hc : F c = some ⟨0, a, b⟩) (ha : a ≤ k)
    (hb : k < b) (hw : F.Answer page k want) : Get.readLeaf ⟨page, root⟩ k c = .done want := by
  obtain ⟨l, hl, ok⟩ := h.leaf hc
  have hbinds : ∀ r, F.Binds page k r ↔ l.lookup k = some r := fun r => by
    rw [h.binds_iff hc ha hb, hl, BTreeLeafPage.lookup_eq_some_iff ok.sorted]
    rfl
  unfold Get.readLeaf
  dsimp only
  rw [hl, asLeaf]
  dsimp only
  cases want with
  | ok r => rw [(hbinds r).1 hw]
  | error e =>
    obtain ⟨rfl, hnone⟩ := hw
    cases hlook : l.lookup k with
    | none => rfl
    | some r => exact absurd ((hbinds r).2 hlook) (hnone r)

end Get

/-- **A step of `get` keeps to the key's path**, provided no separator is due in the page
it reads, nor one that is not above the key over the root it reads. -/
theorem GetOk.resume (h : Tree F D page root) (hk : k < keyBound) (hw : F.Answer page k want)
    (hok : GetOk F k want pc) (hsep : ∀ c, pc = .findLeaf c → D.sep c = none)
    (hroot : pc = .start → ∀ e, D.root = some e → k < e.separatorKey) :
    GetOk F k want (Get.resume k ⟨page, root⟩ pc) := by
  cases pc with
  | start =>
    rw [Get.resume]
    dsimp only
    split_ifs with h0
    · have hnone : ∀ r, ¬ F.Binds page k r := by
        rintro r ⟨p, lo, hi, hp, -⟩
        rw [h.empty h0 p] at hp
        cases hp
      cases want with
      | ok r => exact absurd hw (hnone r)
      | error e => exact congrArg Except.error hw.1.symm
    · obtain ⟨ℓ, htop, -⟩ := h.top h0
      have hbelow := hroot rfl
      cases hd : D.root with
      | none =>
        rw [hd] at htop
        exact ⟨ℓ, 0, keyBound, htop.1, Nat.zero_le _, hk⟩
      | some e =>
        rw [hd] at htop
        exact ⟨ℓ, 0, e.separatorKey, htop.1.1, Nat.zero_le _, hbelow e hd⟩
  | findLeaf c =>
    obtain ⟨ℓ, a, b, hc, ha, hb⟩ := hok
    rw [Get.resume]
    cases ℓ with
    | zero =>
      rw [Get.findLeaf_leaf h hc]
      exact ⟨a, b, hc, ha, hb⟩
    | succ ℓ =>
      obtain ⟨c', a', b', hres, hc', ha', hb'⟩ := Get.findLeaf_inner h hc ha hb (hsep c rfl)
      rw [hres]
      exact ⟨ℓ, a', b', hc', ha', hb'⟩
  | readLeaf c =>
    obtain ⟨a, b, hc, ha, hb⟩ := hok
    rw [Get.resume, Get.readLeaf_eq h hc ha hb hw]
    exact rfl
  | done r => exact hok

/-- The layout changes elsewhere, or cuts the page a `get` is about to fetch above its
key. -/
theorem GetOk.grows {cut : Option (LPageId × ℕ)} (hok : GetOk F k want pc) (hF : F.Grows F' cut)
    (hcut : ∀ c m, cut = some (c, m) → pc = .findLeaf c ∨ pc = .readLeaf c → k < m) :
    GetOk F' k want pc := by
  cases pc with
  | start => trivial
  | findLeaf c =>
    obtain ⟨ℓ, a, b, hc, ha, hb⟩ := hok
    rcases hF c _ hc with hc' | ⟨m, hm, hc'⟩
    · exact ⟨ℓ, a, b, hc', ha, hb⟩
    · exact ⟨ℓ, a, m, hc', ha, hcut c m hm (Or.inl rfl)⟩
  | readLeaf c =>
    obtain ⟨a, b, hc, ha, hb⟩ := hok
    rcases hF c _ hc with hc' | ⟨m, hm, hc'⟩
    · exact ⟨a, b, hc', ha, hb⟩
    · exact ⟨a, m, hc', ha, hcut c m hm (Or.inr rfl)⟩
  | done r => exact hok

/-- The root of a tree covers a key that no page due above it covers. -/
theorem Tree.root_beside (h : Tree F D page root) (h0 : root ≠ 0) (hk : k < keyBound)
    (hside : ¬ D.Hides F k) : ∃ ℓ b, F root = some ⟨ℓ, 0, b⟩ ∧ k < b := by
  obtain ⟨ℓ, htop, -⟩ := h.top h0
  cases hd : D.root with
  | none =>
    rw [hd] at htop
    exact ⟨ℓ, keyBound, htop.1, hk⟩
  | some e =>
    rw [hd] at htop
    refine ⟨ℓ, e.separatorKey, htop.1.1, not_le.1 fun hle => hside ?_⟩
    exact ⟨none, e, ℓ, keyBound, hd, htop.2.1, hle, hk⟩

/-- **A `get` returns what the key is bound to**, from wherever it is on its way, if no page
that is due covers the key. -/
theorem GetOk.returns_beside (h : Tree F D st.page st.root) (hk : k < keyBound)
    (hw : F.Answer st.page k want) (hside : ¬ D.Hides F k) (hok : GetOk F k want pc) :
    st.Returns S (Get.machine k) pc st (.done want) := by
  have hread : ∀ {c a b}, F c = some ⟨0, a, b⟩ → a ≤ k → k < b →
      st.Returns S (Get.machine k) (.readLeaf c) st (.done want) := by
    intro c a b hc ha hb
    refine .step ?_
    rw [Get.step_eq, Get.resume, Store.view, Get.readLeaf_eq h hc ha hb hw]
    exact .done rfl
  -- the descent, one level after the other
  have hdown : ∀ {ℓ c a b}, F c = some ⟨ℓ, a, b⟩ → a ≤ k → k < b →
      st.Returns S (Get.machine k) (.findLeaf c) st (.done want) := by
    intro ℓ
    induction ℓ with
    | zero =>
      intro c a b hc ha hb
      refine .step ?_
      rw [Get.step_eq, Get.resume, Store.view, Get.findLeaf_leaf h hc]
      exact hread hc ha hb
    | succ ℓ ih =>
      intro c a b hc ha hb
      obtain ⟨c', a', b', hres, hc', ha', hb'⟩ := Get.findLeaf_beside h hc ha hb hside
      refine .step ?_
      rw [Get.step_eq, Get.resume, Store.view, hres]
      exact ih hc' ha' hb'
  cases pc with
  | start =>
    refine .step ?_
    rw [Get.step_eq, Get.resume]
    split_ifs with h0
    · have hempty := h.empty h0
      cases want with
      | ok r =>
        obtain ⟨p, lo, hi, hp, -⟩ := hw
        rw [hempty p] at hp
        cases hp
      | error e =>
        obtain ⟨rfl, -⟩ := hw
        exact .done rfl
    · obtain ⟨ℓ, b, hc, hb⟩ := h.root_beside h0 hk hside
      exact hdown hc (Nat.zero_le _) hb
  | findLeaf c =>
    obtain ⟨ℓ, a, b, hc, ha, hb⟩ := hok
    exact hdown hc ha hb
  | readLeaf c =>
    obtain ⟨a, b, hc, ha, hb⟩ := hok
    exact hread hc ha hb
  | done res =>
    rw [show res = want from hok]
    exact .done rfl

/-- **On a tree at rest a `get` returns what the key is bound to**, from wherever it is on
its way. -/
theorem GetOk.returns (h : Tree F .settled st.page st.root) (hk : k < keyBound)
    (hw : F.Answer st.page k want) (hok : GetOk F k want pc) :
    st.Returns S (Get.machine k) pc st (.done want) :=
  hok.returns_beside h hk hw Dues.not_hides_settled

/-- **`get` answers as the tree binds the key**, if no page that is due covers it. -/
theorem Tree.exec_get_answer_iff (h : Tree F D st.page st.root) {key : List UInt8}
    (hside : ¬ D.Hides F (keyFromBytes key)) {res : Except Error RecordId} :
    st.Exec S (.get key) st (.record res) ↔ F.Answer st.page (keyFromBytes key) res := by
  obtain ⟨want, hw⟩ := F.exists_answer st.page (keyFromBytes key)
  have hstart : GetOk F (keyFromBytes key) want .start := trivial
  have hget := hstart.returns_beside (S := S) h (keyFromBytes_lt key) hw hside
  constructor
  · intro hr
    obtain ⟨-, heq⟩ := Store.Returns.unique hr hget
    obtain rfl : res = want := by simpa using heq
    exact hw
  · intro hr
    exact GetOk.returns_beside h (keyFromBytes_lt key) hr hside trivial

/-- What `get` returns is what the tree binds. -/
theorem Tree.exec_get_iff (h : Tree F .settled st.page st.root) {key : List UInt8} {r : RecordId} :
    st.Exec S (.get key) st (.record (.ok r)) ↔ F.Binds st.page (keyFromBytes key) r :=
  h.exec_get_answer_iff Dues.not_hides_settled

/-! ### Keys that a due page covers -/

/-- What is known about a `get` of a key that a due page of a level covers: it is above that
level, or has been led to the left of its key. -/
def Astray (F : Layout) (ℓ k : ℕ) : GetPc → Prop
  | .start => True
  | .findLeaf c => ∃ ℓ' a b, F c = some ⟨ℓ', a, b⟩ ∧ (b ≤ k ∨ ℓ < ℓ' ∧ a ≤ k ∧ k < b)
  | .readLeaf c => ∃ a b, F c = some ⟨0, a, b⟩ ∧ b ≤ k
  | .done res => ∀ r, res ≠ .ok r

section Hidden

variable {t : Option LPageId} {e : BTreeInnerEntry} {y : ℕ}
variable (h : Tree F D page root) (hd : D.due t = some e)
  (ht : ∀ q, t = some q → ∃ a b, F q = some ⟨ℓ + 1, a, b⟩)
  (he : F e.rightChild = some ⟨ℓ, e.separatorKey, y⟩) (hk : e.separatorKey ≤ k) (hy : k < y)
include h hd ht he hk hy

/-- No child pointer leads to the due page. -/
theorem Tree.due_not_own (hc : F c = some ⟨ℓ + 1, a, b⟩) (ha : a ≤ k) (hb : k < b)
    {i : BTreeInnerPage} (hi : page c = some (.inner i)) :
    e.rightChild ∉ childrenOf BTreeInnerEntry.rightChild i.leftmostChild i.entries := by
  cases t with
  | none =>
    obtain ⟨ℓ', htop, hle⟩ := h.top fun h0 => by rw [h.empty h0 c] at hc; cases hc
    rw [show D.root = some e from hd] at htop
    have hlevel := Layout.Covers.level he htop.2
    have := hle hc
    dsimp only at this
    omega
  | some q =>
    obtain ⟨aq, bq, hq⟩ := ht q rfl
    obtain ⟨y', hy', haq, hbq, hnot⟩ := h.due_child hq hd
    obtain rfl : y = y' := by simpa [he] using hy'
    obtain rfl := h.unique hc hq ha hb (haq.le.trans hk) (hy.trans_le hbq)
    exact hnot i hi

/-- **The descent of such a `get` goes astray**: at the level of the due page it is led to the
left of the key, and stays there. -/
theorem Astray.resume {pc : GetPc} (hok : Astray F ℓ k pc) :
    Astray F ℓ k (Get.resume k ⟨page, root⟩ pc) := by
  cases pc with
  | start =>
    rw [Get.resume]
    dsimp only
    split_ifs with h0
    · exact nofun
    · obtain ⟨ℓ', htop, hle⟩ := h.top h0
      obtain ⟨b, hroot, -⟩ := htop.first fun _ _ _ h => h.lt
      refine ⟨ℓ', 0, b, hroot.1, ?_⟩
      rcases Nat.lt_or_ge k b with hkb | hbk
      · refine Or.inr ⟨?_, Nat.zero_le k, hkb⟩
        cases t with
        | none =>
          -- the root ends where the due page starts
          rw [show D.root = some e from hd] at htop
          have := (Layout.Covers.unique htop.1.1 hroot).2
          omega
        | some q =>
          obtain ⟨aq, bq, hq⟩ := ht q rfl
          exact hle hq
      · exact Or.inl hbk
  | findLeaf c =>
    obtain ⟨ℓ', a, b, hc, hside⟩ := hok
    rw [Get.resume]
    cases ℓ' with
    | zero =>
      rw [Get.findLeaf_leaf h hc]
      exact ⟨a, b, hc, hside.resolve_right fun hlt => absurd hlt.1 (Nat.not_lt_zero _)⟩
    | succ ℓ' =>
      have hlt := (h.bounds hc).1
      dsimp only at hlt
      obtain ⟨i, a', b', hi, hc', ha', -, hb', -⟩ := h.findChild_own (k := k) hc (by omega)
      have hres : Get.findLeaf ⟨page, root⟩ k c = .findLeaf (i.findChild k) := by
        unfold Get.findLeaf
        dsimp only
        rw [hi, dispatch]
      rw [hres]
      refine ⟨ℓ', a', b', hc', ?_⟩
      rcases hside with hbk | ⟨hℓ, hak, hkb⟩
      · exact Or.inl (hb'.trans hbk)
      · rcases Nat.lt_or_ge k b' with hkb' | hbk'
        · refine Or.inr ⟨?_, ha', hkb'⟩
          by_contra hle
          obtain rfl : ℓ = ℓ' := by omega
          have hchild := h.unique hc' he ha' hkb' hk hy
          exact h.due_not_own hd ht he hk hy hc hak hkb hi (hchild ▸ i.findChild_mem k)
        · exact Or.inl hbk'
  | readLeaf c =>
    obtain ⟨a, b, hc, hbk⟩ := hok
    obtain ⟨l, hl, ok⟩ := h.leaf hc
    have hnone : l.lookup k = none :=
      (BTreeLeafPage.lookup_eq_none_iff ok.sorted).2 fun x hx => by
        have := (ok.within x hx).2
        omega
    rw [Get.resume]
    unfold Get.readLeaf
    dsimp only
    rw [hl, asLeaf]
    dsimp only
    rw [hnone]
    exact nofun
  | done res => exact hok

end Hidden

/-- **`get` does not find a key that a due page covers.** -/
theorem Tree.not_exec_get (h : Tree F D st.page st.root) {t : Option LPageId}
    {e : BTreeInnerEntry} {y : ℕ} (hd : D.due t = some e)
    (ht : ∀ q, t = some q → ∃ a b, F q = some ⟨ℓ + 1, a, b⟩)
    (he : F e.rightChild = some ⟨ℓ, e.separatorKey, y⟩) {key : List UInt8}
    (hk : e.separatorKey ≤ keyFromBytes key) (hy : keyFromBytes key < y) (r : RecordId) :
    ¬ st.Exec S (.get key) st (.record (.ok r)) := by
  rintro ⟨-, hsteps⟩
  have hrun : ∀ x, Relation.ReflTransGen
      (fun x y => y = x.1.step S (Get.machine (keyFromBytes key)) x.2) (st, GetPc.start) x →
      x.1 = st ∧ Astray F ℓ (keyFromBytes key) x.2 := by
    intro x hx
    induction hx with
    | refl => exact ⟨rfl, trivial⟩
    | tail _ hlast ih =>
      obtain ⟨hst, hok⟩ := ih
      rw [hlast, Get.step_eq]
      refine ⟨hst, ?_⟩
      rw [hst]
      exact Astray.resume h hd ht he hk hy hok
  exact (hrun _ hsteps).2 r rfl

end BTree
end Abdb
