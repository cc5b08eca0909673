/-
# A directory call that runs alone

`Steps` runs one call by itself, `Exec` runs it from start to result.  What a call does
to a directory depends on the pages it reads, the counter and the root only, not on
which pages happen to be cached, so its behaviour is stated over these three
(`Reaches`): one rule for each kind of access, and the calls are put together from them.

On a tree at rest `lookup`, `update_page` and `delete_page` return what a map returns
(`reaches_lookup`, `Rests.update`, `Rests.delete`), and so does `add_page`, whose separators
climb through the path one page after the other (`reaches_add_present`, `Rests.add`,
`climb`).
-/

import Mathlib.Logic.Relation
import Abdb.Directory.Spec

namespace Abdb
namespace Directory

open Lib Relation

/-- One call by itself gets from one point to another. -/
def Steps (d : BTreePageDirectory) (pc : Pc) (d' : BTreePageDirectory) (pc' : Pc) : Prop :=
  ReflTransGen (fun x y : BTreePageDirectory × Pc => y = step x.1 x.2) (d, pc) (d', pc')

/-- A call that runs alone, the directory it leaves and its result. -/
def Exec (d : BTreePageDirectory) (op : Op) (d' : BTreePageDirectory) (r : Except Error Reply) :
    Prop :=
  Steps d (.start op) d' (.done r)

variable {d d' d₁ d₂ : BTreePageDirectory} {pc pc' : Pc} {op : Op} {r r₁ r₂ : Except Error Reply}

/-- A call that has returned goes nowhere. -/
theorem eq_of_steps_done {x : BTreePageDirectory × Pc}
    (h : ReflTransGen (fun x y : BTreePageDirectory × Pc => y = step x.1 x.2) (d, .done r) x) :
    x = (d, .done r) := by
  induction h with
  | refl => rfl
  | tail _ hstep ih =>
    rw [hstep, ih]
    rfl

/-- **A call that runs alone returns in one way.** -/
theorem Exec.unique (h₁ : Exec d op d₁ r₁) (h₂ : Exec d op d₂ r₂) : d₁ = d₂ ∧ r₁ = r₂ := by
  have htotal := ReflTransGen.total_of_right_unique
    (fun (_ _ _ : BTreePageDirectory × Pc) hab hac => hab.trans hac.symm) h₁ h₂
  rcases htotal with h | h
  · have := eq_of_steps_done h
    simp only [Prod.mk.injEq, Pc.done.injEq] at this
    exact ⟨this.1.symm, this.2.symm⟩
  · have := eq_of_steps_done h
    simpa only [Prod.mk.injEq, Pc.done.injEq] using this

/-! ### One rule for each access -/

/-- A cached page that is not to be flushed is the page in the file. -/
def BTreePageDirectory.Clean (d : BTreePageDirectory) : Prop :=
  ∀ id pg, d.cache id = some pg → d.dirty id = true ∨ d.file id = some pg

section Reaches

variable {page page' : Pages} {next root id : DirPageId} {pg : DirPage} {rd : Reading}
  {P Q : Pages → DirPageId → DirPageId → Except Error Reply → Prop}

/-- On every directory with these pages, counter and root the call returns from `pc`, and
leaves pages, a counter, a root and a result with the property.  If the dirty set tells which
cached pages are not in the file, it goes on to do so. -/
def Reaches (page : Pages) (next root : DirPageId) (pc : Pc)
    (P : Pages → DirPageId → DirPageId → Except Error Reply → Prop) : Prop :=
  ∀ d : BTreePageDirectory, d.page = page → d.nextDirPage = next → d.rootPage = root →
    ∃ d' r, Steps d pc d' (.done r) ∧ (d.Clean → d'.Clean) ∧ P d'.page d'.nextDirPage d'.rootPage r

/-- A page put into the cache is the page that is read. -/
theorem BTreePageDirectory.page_cache {cache : DirPageId → Option DirPage}
    (h : d.cache = cache) : BTreePageDirectory.page { d with
      cache := Function.update cache id (some pg) } = Function.update d.page id (some pg) := by
  subst h
  funext q
  by_cases hq : q = id
  · subst hq
    simp [BTreePageDirectory.page]
  · simp [BTreePageDirectory.page, hq]

namespace Reaches

theorem done (h : P page next root r) : Reaches page next root (.done r) P := by
  rintro d rfl rfl rfl
  exact ⟨d, r, .refl, id, h⟩

/-- One access that changes none of the three. -/
theorem goto {q : Pc} (hstep : ∀ d : BTreePageDirectory, d.page = page → d.nextDirPage = next →
      d.rootPage = root → (step d pc).1 = d ∧ (step d pc).2 = q)
    (h : Reaches page next root q P) : Reaches page next root pc P := by
  rintro d hp hn hr
  obtain ⟨d', r, hsteps, hd', hP⟩ := h d hp hn hr
  refine ⟨d', r, ReflTransGen.head ?_ hsteps, hd', hP⟩
  obtain ⟨h₁, h₂⟩ := hstep d hp hn hr
  exact Prod.ext h₁.symm h₂.symm

/-- **Reading a page**, from the cache or from the file, changes none of the three. -/
theorem read (hpg : page id = some pg) (h : Reaches page next root (resume id pg rd) P) :
    Reaches page next root (.readPage id rd) P := by
  rintro d rfl hn hr
  cases hc : d.cache id with
  | some q =>
    obtain rfl : q = pg := by simpa [BTreePageDirectory.page, hc] using hpg
    obtain ⟨d', r, hsteps, hd', hP⟩ := h d rfl hn hr
    refine ⟨d', r, ReflTransGen.head ?_ hsteps, hd', hP⟩
    simp only [step, hc]
  | none =>
    have hf : d.file id = some pg := by simpa [BTreePageDirectory.page, hc] using hpg
    have hsame : BTreePageDirectory.page
        { d with cache := Function.update d.cache id (some pg) } = d.page := by
      rw [BTreePageDirectory.page_cache rfl, ← hpg, Function.update_eq_self]
    have hclean : d.Clean → BTreePageDirectory.Clean
        { d with cache := Function.update d.cache id (some pg) } := by
      intro hd q pg' hq
      by_cases hqid : q = id
      · subst hqid
        obtain rfl : pg = pg' := by simpa using hq
        exact Or.inr hf
      · exact hd q pg' ((Function.update_of_ne hqid ..).symm.trans hq)
    obtain ⟨d', r, hsteps, hd', hP⟩ :=
      h { d with cache := Function.update d.cache id (some pg) } hsame hn hr
    refine ⟨d', r, ?_, hd' ∘ hclean, hP⟩
    refine ReflTransGen.head (b := (d, .readFile id rd)) ?_ (ReflTransGen.head
      (b := (d, .cachePage id pg rd)) ?_ (ReflTransGen.head ?_ hsteps))
    · simp only [step, hc]
    · simp only [step, hf]
    · simp only [step]

/-- **Writing a page** changes the pages in one place. -/
theorem write (h : Reaches (Function.update page id (some pg)) next root pc P) :
    Reaches page next root (.writePage id pg pc) P := by
  rintro d rfl hn hr
  have hclean : d.Clean → BTreePageDirectory.Clean { d with
      cache := Function.update d.cache id (some pg)
      dirty := Function.update d.dirty id true } := by
    intro hd q pg' hq
    by_cases hqid : q = id
    · subst hqid
      exact Or.inl (Function.update_self ..)
    · exact (hd q pg' ((Function.update_of_ne hqid ..).symm.trans hq)).imp_left
        (Function.update_of_ne hqid ..).trans
  obtain ⟨d', r, hsteps, hd', hP⟩ := h { d with
      cache := Function.update d.cache id (some pg)
      dirty := Function.update d.dirty id true } (BTreePageDirectory.page_cache rfl) hn hr
  exact ⟨d', r, ReflTransGen.head rfl (ReflTransGen.head rfl hsteps), hd' ∘ hclean, hP⟩

/-- **Allocating a page** changes the counter. -/
theorem alloc {a : Allocating} (h : Reaches page (next + 1) root (allocated next a) P) :
    Reaches page next root (.alloc a) P := by
  rintro d hp rfl hr
  obtain ⟨d', r, hsteps, hd', hP⟩ := h { d with nextDirPage := d.nextDirPage + 1 } hp rfl hr
  exact ⟨d', r, ReflTransGen.head rfl hsteps, hd', hP⟩

/-- **`set_root_page`** changes the root and rewrites the header. -/
theorem setRoot {newRoot : DirPageId} (hpg : ∃ h, page 0 = some (.header h))
    (h : P (Function.update page 0 (some (.header ⟨next, newRoot⟩))) next newRoot (.ok .unit)) :
    Reaches page next root (.setRoot newRoot) P := by
  rintro d hp hn rfl
  obtain ⟨h₀, hpg⟩ := hpg
  have hrest : Reaches page next newRoot (.readPage 0 (.header newRoot)) P := by
    refine read hpg (goto (q := .writePage 0 (.header ⟨next, newRoot⟩) .ok)
      (fun d _ hn _ => ⟨rfl, ?_⟩) (write (done h)))
    rw [← hn]
    rfl
  obtain ⟨d', r, hsteps, hd', hP⟩ := hrest { d with rootPage := newRoot } hp hn rfl
  exact ⟨d', r, ReflTransGen.head rfl hsteps, hd', hP⟩

/-- A call on a directory that has a root goes down from it. -/
theorem start (hroot : root ≠ 0) (h : Reaches page next root (.readPage root (.descend op [])) P) :
    Reaches page next root (.start op) P := by
  refine goto (q := .locate op) (fun d _ _ hr => ?_) (goto (fun d _ _ hr => ?_) h)
  · have hstep : step d (.start op) = (d, .locate op) := by
      cases op <;> exact if_neg (hr ▸ hroot)
    rw [hstep]
    exact ⟨rfl, rfl⟩
  · rw [step, if_neg (hr ▸ hroot), hr]
    exact ⟨rfl, rfl⟩

/-- A call other than `add_page` finds no page in an empty directory. -/
theorem empty (hroot : root = 0) (hop : ∀ k l, op ≠ .addPage k l)
    (h : P page next root (.error (.pageNotFound op.key))) : Reaches page next root (.start op) P := by
  refine goto (q := .fail (.pageNotFound op.key)) (fun d _ _ hr => ?_) (done h)
  have hstep : step d (.start op) = (d, .fail (.pageNotFound op.key)) := by
    cases op with
    | addPage k l => exact absurd rfl (hop k l)
    | _ => exact if_pos (hr.trans hroot)
  rw [hstep]
  exact ⟨rfl, rfl⟩

theorem mono (h : Reaches page next root pc P) (hPQ : ∀ p n r res, P p n r res → Q p n r res) :
    Reaches page next root pc Q := by
  intro d hp hn hr
  obtain ⟨d', r, hsteps, hd', hP⟩ := h d hp hn hr
  exact ⟨d', r, hsteps, hd', hPQ _ _ _ _ hP⟩

end Reaches

end Reaches

/-! ### Trees at rest -/

/-- The header page holds the root, and a counter that is not ahead. -/
def HasHeader (page : Pages) (next root : DirPageId) : Prop :=
  ∃ c ≤ next, page 0 = some (.header ⟨c, root⟩)

/-- The pages hold a tree at rest beside a header page, the pages from the counter on are
not in use, and the one below it is, unless no page was ever allocated. -/
structure Rests (F : Layout) (page : Pages) (next root : DirPageId) : Prop where
  tree : Tree F (fun _ => False) page root
  header : HasHeader page next root
  fresh : ∀ id, next ≤ id → F id = none
  counter : 0 < next
  last : root = 0 ∧ next = 1 ∨ F (next - 1) ≠ none

/-- `path` are the pages above an extent on level `ℓ`, innermost first and up to the root:
each holds the extent below it. -/
def Ancestors (F : Layout) (root : DirPageId) : ℕ → ℕ → ℕ → List DirPageId → Prop
  | ℓ, _, _, [] => F.At root ℓ 0
  | ℓ, lo, hi, q :: path => ∃ a b, F q = some ⟨ℓ + 1, a, b⟩ ∧ a ≤ lo ∧ hi ≤ b ∧
      Ancestors F root (ℓ + 1) a b path

/-- The call has succeeded and left a tree at rest with the bindings `B`. -/
def Settled (B : ℕ → PPageId → Prop) (page : Pages) (next root : DirPageId)
    (r : Except Error Reply) : Prop :=
  r = .ok .unit ∧ ∃ F, Rests F page next root ∧ ∀ k l, Binds F page k l ↔ B k l

/-- The call has returned `r` and left everything as it was. -/
def Kept (r : Except Error Reply) (page : Pages) (next root : DirPageId) :
    Pages → DirPageId → DirPageId → Except Error Reply → Prop :=
  fun page' next' root' r' => page' = page ∧ next' = next ∧ root' = root ∧ r' = r

section Calls

variable {F F' : Layout} {page page' : Pages} {next root p x : DirPageId} {ℓ lo hi a b k s : ℕ}
  {path : List DirPageId} {B : ℕ → PPageId → Prop}
  {P : Pages → DirPageId → DirPageId → Except Error Reply → Prop}

theorem HasHeader.update (h : HasHeader page next root) (hp : p ≠ 0) (pg : Option DirPage) :
    HasHeader (Function.update page p pg) next root := by
  obtain ⟨c, hc, hpage⟩ := h
  exact ⟨c, hc, (Function.update_of_ne hp.symm ..).trans hpage⟩

theorem HasHeader.succ (h : HasHeader page next root) : HasHeader page (next + 1) root := by
  obtain ⟨c, hc, hpage⟩ := h
  exact ⟨c, Nat.le_succ_of_le hc, hpage⟩

/-- Ancestors stay ancestors when other pages change their extents. -/
theorem Ancestors.frame (h : Ancestors F root ℓ lo hi path)
    (hF : ∀ q ℓ' a b, ℓ < ℓ' → F q = some ⟨ℓ', a, b⟩ → F' q = some ⟨ℓ', a, b⟩)
    (hroot : F.At root ℓ 0 → F'.At root ℓ 0) : Ancestors F' root ℓ lo hi path := by
  induction path generalizing ℓ lo hi with
  | nil => exact hroot h
  | cons q path ih =>
    obtain ⟨a, b, hq, hlo, hhi, hrest⟩ := h
    refine ⟨a, b, hF q _ _ _ (Nat.lt_succ_self ℓ) hq, hlo, hhi, ih hrest
      (fun q' ℓ' a b hℓ hq' => hF q' ℓ' a b (by omega) hq') ?_⟩
    rintro ⟨c, hc⟩
    exact ⟨c, hF root _ _ _ (Nat.lt_succ_self ℓ) hc⟩

theorem Ancestors.mono (h : Ancestors F root ℓ lo hi path) (hlo : lo ≤ a) (hhi : b ≤ hi) :
    Ancestors F root ℓ a b path := by
  cases path with
  | nil => exact h
  | cons q path =>
    obtain ⟨a', b', hq, hlo', hhi', hrest⟩ := h
    exact ⟨a', b', hq, hlo'.trans hlo, hhi.trans hhi', hrest⟩

/-- **The descent of a call** ends at the leaf responsible for its key. -/
theorem reaches_leaf (h : Tree F (fun _ => False) page root)
    (hleaf : ∀ p a b l path, F p = some ⟨0, a, b⟩ → a ≤ op.key → op.key < b →
      page p = some (.leaf l) → LeafOk F a b l → Ancestors F root 0 a b path →
        Reaches page next root (atLeaf p l path op) P)
    (hp : F p = some ⟨ℓ, a, b⟩) (ha : a ≤ op.key) (hb : op.key < b)
    (hpath : Ancestors F root ℓ a b path) :
    Reaches page next root (.readPage p (.descend op path)) P := by
  induction ℓ generalizing p a b path with
  | zero =>
    obtain ⟨l, hl, ok⟩ := h.leaf hp
    have hp0 : p ≠ 0 := h.ne_zero_of_at (Extents.at_of hp)
    have hresume : resume p (.leaf l) (.descend op path) = .readPage p (.leaf op path) := by
      cases op with
      | addPage => exact if_neg hp0
      | _ => rfl
    refine .read hl ?_
    rw [hresume]
    exact .read hl (hleaf p a b l path hp ha hb hl ok hpath)
  | succ ℓ ih =>
    obtain ⟨i, hi, -⟩ := h.inner hp
    obtain ⟨a', b', hc, ha', hb', haa, hbb⟩ := h.descend (fun _ => id) hp hi ha hb
    exact .read hi (ih hc ha' hb' ⟨a, b, hp, haa, hbb, hpath⟩)

/-- Every call on a directory with a root gets to the leaf responsible for its key. -/
theorem reaches_start (h : Tree F (fun _ => False) page root) (hroot : root ≠ 0) (hk : op.key < idBound)
    (hleaf : ∀ p a b l path, F p = some ⟨0, a, b⟩ → a ≤ op.key → op.key < b →
      page p = some (.leaf l) → LeafOk F a b l → Ancestors F root 0 a b path →
        Reaches page next root (atLeaf p l path op) P) :
    Reaches page next root (.start op) P := by
  obtain ⟨t, hL⟩ := h.levels hroot
  -- nothing is due, so the root is responsible for every key
  obtain ⟨b, hb⟩ := hL.rooted
  have htop : op.key < b := by
    obtain ⟨q, a', b', hq, ha', hb'⟩ := hL.tiled.complete le_rfl (Nat.zero_le op.key) hk
    rcases hL.linked hq with rfl | hd | ⟨_, _, _, hq', -⟩
    · rw [hb, Option.some.injEq, Extent.mk.injEq] at hq
      exact hq.2.2 ▸ hb'
    · exact hd.elim
    · have := hL.tiled.level_le hq'
      omega
  exact .start hroot (reaches_leaf h hleaf hb (Nat.zero_le _) htop hL.rooted)

/-- **`lookup` returns** the location of the page, or `PageNotFound`. -/
theorem reaches_lookup (h : Tree F (fun _ => False) page root) (hk : k < idBound)
    (next : DirPageId) :
    (∀ l, Binds F page k l →
      Reaches page next root (.start (.lookup k)) (Kept (.ok (.found l)) page next root)) ∧
    ((∀ l, ¬ Binds F page k l) →
      Reaches page next root (.start (.lookup k)) (Kept (.error (.pageNotFound k)) page next root)) := by
  by_cases hroot : root = 0
  · refine ⟨fun l hl => absurd hl (h.not_binds hroot),
      fun _ => .empty hroot nofun ⟨rfl, rfl, rfl, rfl⟩⟩
  · constructor
    · intro l hl
      refine reaches_start h hroot hk fun p a b lf path hp ha hb hlf ok _ => ?_
      have hlook : lf.lookup k = some l := by
        rw [DirectoryLeafPage.lookup_eq_some_iff ok.sorted]
        have := (h.binds_iff hp ha hb).1 hl
        rwa [hlf] at this
      rw [atLeaf, hlook]
      exact .done ⟨rfl, rfl, rfl, rfl⟩
    · intro hnone
      refine reaches_start h hroot hk fun p a b lf path hp ha hb hlf ok _ => ?_
      have hlook : lf.lookup k = none := by
        rw [Option.eq_none_iff_forall_ne_some]
        intro l hl
        refine hnone l ((h.binds_iff hp ha hb).2 ?_)
        rw [hlf]
        exact (DirectoryLeafPage.lookup_eq_some_iff ok.sorted).1 hl
      rw [atLeaf, hlook]
      exact .done ⟨rfl, rfl, rfl, rfl⟩

/-- A leaf in the middle of a tree at rest gets new content. -/
theorem Rests.setLeaf {l : DirectoryLeafPage} (h : Rests F page next root)
    (hp : F p = some ⟨0, a, b⟩) (ok : LeafOk F a b l) :
    Rests F (Function.update page p (some (.leaf l))) next root where
  tree := h.tree.setLeaf hp ok
  header := h.header.update (h.tree.ne_zero_of_at (Extents.at_of hp)) _
  fresh := h.fresh
  counter := h.counter
  last := h.last

/-- A present key cuts its leaf. -/
theorem Tree.cut {due : DirPageId → Prop} (h : Tree F due page root) {lf : DirectoryLeafPage} {l : PPageId}
    (hp : F p = some ⟨0, a, b⟩) (ha : a ≤ k) (hb : k < b) (hlf : page p = some (.leaf lf))
    (hl : Binds F page k l) : ∃ xs e ys, lf.entries = xs ++ e :: ys ∧ e.searchKey = k := by
  obtain ⟨e, he, hek, -⟩ := (h.binds_iff hp ha hb).1 hl
  rw [hlf] at he
  exact DirectoryLeafPage.exists_cut ⟨e, he, hek⟩

/-- An absent key is not in its leaf. -/
theorem Rests.absent (h : Rests F page next root) {lf : DirectoryLeafPage}
    (hp : F p = some ⟨0, a, b⟩) (ha : a ≤ k) (hb : k < b) (hlf : page p = some (.leaf lf))
    (hnone : ∀ l, ¬ Binds F page k l) : ∀ e ∈ lf.entries, e.searchKey ≠ k := fun e he hek =>
  hnone e.toPPageId ((h.tree.binds_iff hp ha hb).2 ⟨e, by rwa [hlf], hek, rfl⟩)

/-- **`update_page` replaces** the location of a page that has one. -/
theorem Rests.update (h : Rests F page next root) (hk : k < idBound) {r : PPageId}
    (hr : r.Addressable) :
    ((∃ l, Binds F page k l) → Reaches page next root (.start (.updatePage k r))
      (Settled fun k' l => if k' = k then l = r else Binds F page k' l)) ∧
    ((∀ l, ¬ Binds F page k l) → Reaches page next root (.start (.updatePage k r))
      (Kept (.error (.pageNotFound k)) page next root)) := by
  by_cases hroot : root = 0
  · exact ⟨fun ⟨l, hl⟩ => absurd hl (h.tree.not_binds hroot),
      fun _ => .empty hroot nofun ⟨rfl, rfl, rfl, rfl⟩⟩
  constructor
  · rintro ⟨l, hl⟩
    refine reaches_start h.tree hroot hk fun p a b lf path hp (ha : a ≤ k) (hb : k < b) hlf ok _ => ?_
    obtain ⟨xs, e, ys, hcut, rfl⟩ := h.tree.cut hp ha hb hlf hl
    rw [atLeaf, DirectoryLeafPage.updateEntry_cut ok.sorted hcut]
    have hs : SortedBy DirectoryLeafEntry.searchKey (xs ++ e :: ys) := hcut ▸ ok.sorted
    obtain ⟨hx, hy⟩ := hs.of_cut
    have ok' : LeafOk F a b { lf with entries := xs ++ newEntry e.searchKey r :: ys } := by
      refine ⟨hs.remove.insert_gap hx hy, fun z hz => ?_, ?_, ok.next⟩
      · rcases List.mem_append.1 hz with hz | hz
        · exact ok.within z (by simp [hcut, hz])
        · rcases List.mem_cons.1 hz with rfl | hz
          · exact ⟨ha, hb⟩
          · exact ok.within z (by simp [hcut, hz])
      · have := ok.capacity
        rw [DirectoryLeafPage.numEntries, hcut] at this
        simpa [DirectoryLeafPage.numEntries] using this
    refine .write (.done ⟨rfl, F, h.setLeaf hp ok', fun k' l' => ?_⟩)
    by_cases hk' : k' = e.searchKey
    · subst hk'
      rw [h.tree.binds_setLeaf hp ok' ha hb]
      dsimp only
      rw [if_pos rfl]
      constructor
      · rintro ⟨z, hz, hzk, rfl⟩
        obtain rfl := ok'.sorted.eq_of_key_eq hz (b := newEntry e.searchKey r) (by simp) hzk
        exact DirectoryLeafEntry.toPPageId_fromPPageId hr
      · rintro rfl
        exact ⟨newEntry e.searchKey l', by simp, rfl, DirectoryLeafEntry.toPPageId_fromPPageId hr⟩
    · dsimp only
      rw [if_neg hk']
      refine h.tree.binds_setLeaf_of_ne hp hlf ok' (fun z hz => ?_) hk'
      have h₁ : z ≠ e := by rintro rfl; exact hz rfl
      have h₂ : z ≠ newEntry e.searchKey r := by rintro rfl; exact hz rfl
      simp [hcut, h₁, h₂]
  · intro hnone
    refine reaches_start h.tree hroot hk fun p a b lf path hp (ha : a ≤ k) (hb : k < b) hlf ok _ => ?_
    rw [atLeaf, DirectoryLeafPage.updateEntry_absent ok.sorted (h.absent hp ha hb hlf hnone)]
    exact .done ⟨rfl, rfl, rfl, rfl⟩

/-- **`delete_page` removes** a page that has a location. -/
theorem Rests.delete (h : Rests F page next root) (hk : k < idBound) :
    ((∃ l, Binds F page k l) → Reaches page next root (.start (.deletePage k))
      (Settled fun k' l => k' ≠ k ∧ Binds F page k' l)) ∧
    ((∀ l, ¬ Binds F page k l) → Reaches page next root (.start (.deletePage k))
      (Kept (.error (.pageNotFound k)) page next root)) := by
  by_cases hroot : root = 0
  · exact ⟨fun ⟨l, hl⟩ => absurd hl (h.tree.not_binds hroot),
      fun _ => .empty hroot nofun ⟨rfl, rfl, rfl, rfl⟩⟩
  constructor
  · rintro ⟨l, hl⟩
    refine reaches_start h.tree hroot hk fun p a b lf path hp (ha : a ≤ k) (hb : k < b) hlf ok _ => ?_
    obtain ⟨xs, e, ys, hcut, rfl⟩ := h.tree.cut hp ha hb hlf hl
    rw [atLeaf, DirectoryLeafPage.deleteByKey_cut ok.sorted hcut]
    have hs : SortedBy DirectoryLeafEntry.searchKey (xs ++ e :: ys) := hcut ▸ ok.sorted
    obtain ⟨hx, hy⟩ := hs.of_cut
    have ok' : LeafOk F a b { lf with entries := xs ++ ys } := by
      refine ⟨hs.remove, fun z hz => ok.within z ?_, ?_, ok.next⟩
      · rcases List.mem_append.1 hz with hz | hz <;> simp [hcut, hz]
      · have := ok.capacity
        rw [DirectoryLeafPage.numEntries, hcut] at this
        simp only [DirectoryLeafPage.numEntries, List.length_append, List.length_cons] at this ⊢
        omega
    refine .write (.done ⟨rfl, F, h.setLeaf hp ok', fun k' l' => ?_⟩)
    by_cases hk' : k' = e.searchKey
    · subst hk'
      rw [h.tree.binds_setLeaf hp ok' ha hb]
      refine iff_of_false ?_ fun hne => hne.1 rfl
      rintro ⟨z, hz, hzk, -⟩
      rcases List.mem_append.1 hz with hz | hz
      · exact (hx z hz).ne hzk
      · exact (hy z hz).ne' hzk
    · dsimp only
      rw [h.tree.binds_setLeaf_of_ne hp hlf ok' (fun z hz => ?_) hk', and_iff_right hk']
      have h₁ : z ≠ e := by rintro rfl; exact hz rfl
      simp [hcut, h₁]
  · intro hnone
    refine reaches_start h.tree hroot hk fun p a b lf path hp (ha : a ≤ k) (hb : k < b) hlf ok _ => ?_
    rw [atLeaf, DirectoryLeafPage.deleteByKey_absent ok.sorted (h.absent hp ha hb hlf hnone)]
    exact .done ⟨rfl, rfl, rfl, rfl⟩

/-- **A new root** is put above the old one and the page that is due beside it. -/
theorem newRoot (h : Tree F (fun y => y = x) page root) (hroot : F.At root ℓ 0) (hx : F.At x ℓ s)
    (hheader : HasHeader page next root) (hfresh : ∀ id, next ≤ id → F id = none)
    (hcounter : 0 < next) :
    Reaches page next root (.alloc (.newRoot root s x)) (Settled (Binds F page)) := by
  have hFn : F next = none := hfresh next le_rfl
  obtain ⟨hd, -, hhd⟩ := hheader
  refine .alloc ?_
  rw [allocated_newRoot]
  refine .write (.setRoot ⟨⟨hd, root⟩, ?_⟩
    ⟨rfl, F.add next (ℓ + 1) 0 idBound, ⟨?_, ?_, ?_, ?_, Or.inr ?_⟩, ?_⟩)
  · rwa [Function.update_of_ne hcounter.ne]
  · have tree' := (h.outside hFn (.inner ⟨next, root, [⟨s, x⟩]⟩)).newRoot hFn hcounter.ne'
      (Function.update_self ..) rfl rfl hroot hx
    refine (tree'.outside ?_ _).congr_due fun y => by simp
    exact (Extents.add_of_ne hcounter.ne).trans h.zero
  · exact ⟨_, le_rfl, Function.update_self ..⟩
  · intro id hid
    rw [Extents.add_of_ne (Nat.lt_of_succ_le hid).ne']
    exact hfresh id (Nat.le_of_succ_le hid)
  · exact Nat.succ_pos _
  · rw [Nat.add_sub_cancel, Extents.add_self]
    exact Option.some_ne_none _
  · intro k l
    refine binds_congr (fun q lo hi => add_succ_zero_iff hFn) fun q lo hi hq => ?_
    obtain ⟨hqn, hq0⟩ := h.ne_of_none hFn hq
    rw [Function.update_of_ne hq0, Function.update_of_ne hqn]

/-- **A separator climbs** through the path, up to the first page with room or to a new
root. -/
theorem climb (h : Tree F (fun y => y = x) page root) (hx : F.At x ℓ s) (hlo : lo ≤ s)
    (hhi : s < hi) (hpath : Ancestors F root ℓ lo hi path) (hheader : HasHeader page next root)
    (hfresh : ∀ id, next ≤ id → F id = none) (hcounter : 0 < next) (hlast : F (next - 1) ≠ none) :
    Reaches page next root (insertIntoAncestors path s x) (Settled (Binds F page)) := by
  induction path generalizing F page next s x ℓ lo hi with
  | nil =>
    refine .goto (q := .alloc (.newRoot root s x)) (fun d _ _ hr => ⟨rfl, ?_⟩)
      (newRoot h hpath hx hheader hfresh hcounter)
    rw [← hr]
    rfl
  | cons q path ih =>
    have hFn : F next = none := hfresh next le_rfl
    obtain ⟨a, b, hq, hlo', hhi', hrest⟩ := hpath
    obtain ⟨hqn, hq0⟩ := h.ne_of_none hFn hq
    obtain ⟨i, hi', ok⟩ := h.inner hq
    have hls : a ≤ s := hlo'.trans hlo
    have hsb : s < b := hhi.trans_le hhi'
    obtain ⟨habs, hs⟩ := h.sorted_insertBy hq hi' hx rfl
    refine .read hi' ?_
    rw [resume]
    rcases Nat.lt_or_ge i.numKeys BTreeInnerPage.maxKeys with hroom | hfull
    · -- the page has room
      rw [insertIntoParent_room ok.sorted habs hroom]
      refine .write (.done ⟨rfl, F, ⟨?_, ?_, hfresh, hcounter, Or.inr hlast⟩, fun k l => ?_⟩)
      · exact (h.link hq hi' hroom hx hls hsb rfl).congr_due fun y => by simp
      · exact hheader.update hq0 _
      · refine binds_congr (fun _ _ _ => Iff.rfl) fun p lo hi hp => ?_
        rw [Function.update_of_ne]
        rintro rfl
        rw [hq] at hp
        cases hp
    · -- the page splits, and its middle separator climbs on
      rw [insertIntoParent_full ok.sorted habs hfull]
      have hlen : (insertBy BTreeInnerEntry.separatorKey ⟨s, x⟩ i.entries).length =
          BTreeInnerPage.maxKeys + 1 := by
        rw [length_insertBy]
        have := ok.capacity
        rw [BTreeInnerPage.numKeys] at this hfull
        omega
      obtain ⟨xs, e, ys, he, hxs, hys, hfinish⟩ := splitInnerFinish_spec hs hlen
      refine .alloc ?_
      rw [allocated, hfinish]
      refine .write (.write ?_)
      have tree' := (h.outside hFn (.inner ⟨next, e.rightChild, ys⟩)).splitInner ⟨q, i.leftmostChild, xs⟩ hq
        ((Function.update_of_ne hqn ..).trans hi') hFn hcounter.ne' hx hls hsb rfl he
        (by rintro rfl; cases hxs) (by rw [hxs]; decide) (by rw [hys]; decide)
        (Function.update_self ..) rfl rfl rfl rfl
      obtain ⟨hae, -⟩ := tree'.bounds (Extents.split_left hqn)
      obtain ⟨heb, -⟩ := tree'.bounds Extents.split_right
      have hshrink := Extents.shrinks_split (a := a) hq hFn heb
      refine (ih (tree'.congr_due fun y => by simp) ⟨b, Extents.split_right⟩
        hae.le heb (hrest.frame (fun p ℓ' c d hℓ hp => ?_) hshrink.at) ?_ (fun id hid => ?_)
        next.succ_pos (by rw [Nat.succ_sub_one, Extents.split_right]; rintro ⟨⟩)).mono ?_
      · rw [Extents.split_of_ne, hp]
        · rintro rfl
          rw [hq, Option.some.injEq, Extent.mk.injEq] at hp
          omega
        · exact (h.ne_of_none hFn hp).1
      · exact (hheader.succ.update hcounter.ne' _).update hq0 _
      · rw [Extents.split_of_ne _ (Nat.lt_of_succ_le hid).ne']
        · exact hfresh id (Nat.le_of_succ_le hid)
        · rintro rfl
          rw [hfresh _ (Nat.le_of_succ_le hid)] at hq
          cases hq
      · rintro p n r res ⟨hres, F', hrests, hbinds⟩
        refine ⟨hres, F', hrests, fun k l => (hbinds k l).trans ?_⟩
        refine binds_congr (fun _ _ _ => split_succ_zero_iff hq hFn) fun p lo hi hp => ?_
        rw [Function.update_of_ne, Function.update_of_ne (h.ne_of_none hFn hp).1]
        rintro rfl
        rw [hq] at hp
        cases hp

/-- **The old half of a leaf that splits** is written, and the separator climbs. -/
theorem splitLeafDone {l : DirectoryLeafPage} {xs ys : List DirectoryLeafEntry}
    {e y : DirectoryLeafEntry} {n prev : DirPageId} {upper : DirectoryLeafPage}
    (h : Tree F (fun _ => False) page root) (hp : F p = some ⟨0, a, b⟩)
    (hl : page p = some (.leaf l)) (hn : F n = none) (hn0 : n ≠ 0) (ha : a ≤ y.searchKey)
    (hb : y.searchKey < b) (habs : ∀ z ∈ l.entries, z.searchKey ≠ y.searchKey)
    (hes : insertBy DirectoryLeafEntry.searchKey y l.entries = xs ++ e :: ys)
    (hxs : xs.length = 127) (hys : (e :: ys).length = 127)
    (hupper : page n = some (.leaf upper)) (hue : upper.entries = e :: ys)
    (hun : upper.nextPage = l.nextPage) (hpath : Ancestors F root 0 a b path)
    (hheader : HasHeader page next root) (hfresh : ∀ id, next ≤ id → F id = none)
    (hnn : n + 1 = next) :
    Reaches page next root
      (.writePage p (.leaf ⟨p, n, prev, xs⟩) (afterSplitLeaf p path n e.searchKey))
      (Settled fun k r => Binds F page k r ∨ y.searchKey = k ∧ y.toPPageId = r) := by
  obtain ⟨hpn, hp0⟩ := h.ne_of_none hn hp
  subst hnn
  have tree' := h.splitLeaf ⟨p, n, prev, xs⟩ hp hl hn hn0 ha hb habs hes
    (by rintro rfl; cases hxs) (by rw [hxs]; decide) (by rw [hys]; decide) hupper hue hun rfl rfl
  replace tree' : Tree _ (fun z => z = n) _ _ := tree'.congr_due fun z => by simp
  obtain ⟨hae, -⟩ := tree'.bounds (Extents.split_left hpn)
  obtain ⟨heb, -⟩ := tree'.bounds Extents.split_right
  have hshrink := Extents.shrinks_split (a := a) hp hn heb
  have hheader' := hheader.update hp0 (some (.leaf ⟨p, n, prev, xs⟩))
  have hfresh' : ∀ id, n + 1 ≤ id → F.split p n 0 a e.searchKey b id = none := by
    intro id hid
    rw [Extents.split_of_ne _ (Nat.lt_of_succ_le hid).ne']
    · exact hfresh id hid
    · rintro rfl
      rw [hfresh _ hid] at hp
      cases hp
  have hpath' : Ancestors (F.split p n 0 a e.searchKey b) root 0 a b path := by
    refine hpath.frame (fun q ℓ c d hℓ hq => ?_) hshrink.at
    rw [Extents.split_of_ne _ (h.ne_of_none hn hq).1, hq]
    rintro rfl
    rw [hp, Option.some.injEq, Extent.mk.injEq] at hq
    omega
  refine .write (Reaches.mono (P := Settled (Binds (F.split p n 0 a e.searchKey b)
    (Function.update page p (some (.leaf ⟨p, n, prev, xs⟩))))) ?_ ?_)
  · cases path with
    | nil =>
      -- the leaf is the root
      obtain rfl : p = root := by
        obtain ⟨t, hL⟩ := h.levels_of_at hpath
        obtain ⟨rfl, -⟩ := hL.rooted.unique hpath
        rcases hL.linked hp with hr | hd | ⟨_, _, _, hq, -⟩
        · exact hr
        · exact hd.elim
        · exact absurd (hL.tiled.level_le hq) (by omega)
      exact newRoot tree' hpath' ⟨b, Extents.split_right⟩ hheader' hfresh' (Nat.succ_pos n)
    | cons q path =>
      refine climb tree' ⟨b, Extents.split_right⟩ hae.le heb hpath' hheader' hfresh'
        (Nat.succ_pos n) ?_
      rw [Nat.add_sub_cancel, Extents.split_right]
      exact Option.some_ne_none _
  · rintro page'' next'' root'' res ⟨hres, F', hrests, hbinds⟩
    exact ⟨hres, F', hrests, fun k r => (hbinds k r).trans
      (Tree.binds_splitLeaf hp hl hn hes hupper hue rfl)⟩

/-- **A full leaf splits** and its separator climbs. -/
theorem Rests.split (h : Rests F page next root) (hk : k < idBound) {r : PPageId}
    (hr : r.Addressable) {lf : DirectoryLeafPage} (hp : F p = some ⟨0, a, b⟩) (ha : a ≤ k)
    (hb : k < b) (hlf : page p = some (.leaf lf)) (ok : LeafOk F a b lf)
    (hfull : DirectoryLeafPage.maxEntries ≤ lf.numEntries)
    (habs : ∀ e ∈ lf.entries, e.searchKey ≠ k) (hpath : Ancestors F root 0 a b path) :
    Reaches page next root (splitLeaf p lf path k r)
      (Settled fun k' l => Binds F page k' l ∨ k' = k ∧ l = r) := by
  have hbound : ∀ e ∈ lf.entries, e.searchKey < idBound := fun e he =>
    (ok.within e he).2.trans_le (h.tree.bounds hp).2
  have hs := (insertIdx_findSlot (e := newEntry k r) ok.sorted habs).2.2
  have hlen : (insertBy DirectoryLeafEntry.searchKey (newEntry k r) lf.entries).length =
      DirectoryLeafPage.maxEntries + 1 := by
    rw [length_insertBy]
    have := ok.capacity
    rw [DirectoryLeafPage.numEntries] at this hfull
    omega
  have hb' : ∀ e ∈ insertBy DirectoryLeafEntry.searchKey (newEntry k r) lf.entries,
      e.searchKey < idBound := by
    intro e he
    rcases mem_insertBy.1 he with rfl | he
    · exact hk
    · exact hbound e he
  obtain ⟨xs, e, ys, he, hxs, hys, hfinish⟩ := splitLeafFinish_spec hs hb' hlen
  have hFn : F next = none := h.fresh next le_rfl
  have hfresh : ∀ id, next + 1 ≤ id → F id = none := fun id hid => h.fresh id (Nat.le_of_succ_le hid)
  obtain ⟨hpn, hp0⟩ := h.tree.ne_of_none hFn hp
  have hn0 : next ≠ 0 := h.counter.ne'
  rw [splitLeaf_absent ok.sorted hbound hk hr habs]
  refine .alloc ?_
  rw [allocated, hfinish]
  refine .write ?_
  -- the upper half is written outside the tree
  have tree₁ := h.tree.outside hFn (.leaf ⟨next, lf.nextPage, p, e :: ys⟩)
  have hl₁ : Function.update page next (some (.leaf ⟨next, lf.nextPage, p, e :: ys⟩)) p =
      some (.leaf lf) := (Function.update_of_ne hpn ..).trans hlf
  have hheader₁ := h.header.succ.update hn0 (some (.leaf ⟨next, lf.nextPage, p, e :: ys⟩))
  have hbinds₁ : ∀ k' l, Binds F (Function.update page next
      (some (.leaf ⟨next, lf.nextPage, p, e :: ys⟩))) k' l ↔ Binds F page k' l := fun k' l =>
    binds_congr (fun _ _ _ => Iff.rfl) fun q lo hi hq => by
      rw [Function.update_of_ne (h.tree.ne_of_none hFn hq).1]
  have hpost : ∀ {B : ℕ → PPageId → Prop}, (∀ k' l, B k' l ↔ Binds F page k' l) →
      ∀ p n r' res, Settled (fun k' l => B k' l ∨ (newEntry k r).searchKey = k' ∧
        (newEntry k r).toPPageId = l) p n r' res →
          Settled (fun k' l => Binds F page k' l ∨ k' = k ∧ l = r) p n r' res := by
    rintro B hB p n r' res ⟨hres, F', hrests, hbinds⟩
    exact ⟨hres, F', hrests, fun k' l =>
      (hbinds k' l).trans (or_congr (hB k' l) (newEntry_binds hr))⟩
  rw [rebuiltLeaf]
  by_cases hnext : lf.nextPage = 0
  · -- no right sibling
    rw [if_neg (not_not.2 hnext)]
    exact (splitLeafDone tree₁ hp hl₁ hFn hn0 ha hb habs he hxs hys (Function.update_self ..) rfl rfl
      hpath hheader₁ hfresh rfl).mono (hpost hbinds₁)
  · -- the right sibling is relinked
    rw [if_pos hnext]
    obtain ⟨d, hq⟩ := ok.next hnext
    obtain ⟨sib, hsib, oks⟩ := tree₁.leaf hq
    obtain ⟨hqn, hq0⟩ := h.tree.ne_of_none hFn hq
    have hpq : p ≠ lf.nextPage := by
      intro hpq
      rw [← hpq, hp, Option.some.injEq, Extent.mk.injEq] at hq
      exact (ha.trans_lt hb).ne hq.2.1
    refine .read hsib (.write ?_)
    have tree₂ := tree₁.setLeaf hq (l := sib.setPrevPage next)
      ⟨oks.sorted, oks.within, oks.capacity, oks.next⟩
    have hupper : Function.update (Function.update page next
        (some (.leaf ⟨next, lf.nextPage, p, e :: ys⟩))) lf.nextPage
          (some (.leaf (sib.setPrevPage next))) next =
        some (.leaf ⟨next, lf.nextPage, p, e :: ys⟩) :=
      (Function.update_of_ne hqn.symm ..).trans (Function.update_self ..)
    refine (splitLeafDone tree₂ hp ((Function.update_of_ne hpq ..).trans hl₁) hFn hn0 ha hb habs he
      hxs hys hupper rfl rfl hpath (hheader₁.update hq0 _) hfresh rfl).mono (hpost fun k' l => ?_)
    refine (binds_congr (fun _ _ _ => Iff.rfl) fun q lo hi _ => ?_).trans (hbinds₁ k' l)
    by_cases hqs : q = lf.nextPage
    · rw [hqs, Function.update_self, hsib]
      rfl
    · rw [Function.update_of_ne hqs]

/-- **`add_page` refuses** a page that has a location. -/
theorem reaches_add_present (h : Tree F (fun _ => False) page root) (hk : k < idBound)
    {l : PPageId} (hl : Binds F page k l) (r : PPageId) (next : DirPageId) :
    Reaches page next root (.start (.addPage k r)) fun page' next' root' res =>
      ∃ e, e ≠ .outsideModel ∧ Kept (.error e) page next root page' next' root' res := by
  have hroot : root ≠ 0 := fun hroot => h.not_binds hroot hl
  refine reaches_start h hroot hk fun p a b lf path hp (ha : a ≤ k) (hb : k < b) hlf ok _ => ?_
  have hmem : ∃ e ∈ lf.entries, e.searchKey = k := by
    obtain ⟨xs, e, ys, hcut, hek⟩ := h.cut hp ha hb hlf hl
    exact ⟨e, by simp [hcut], hek⟩
  rw [atLeaf]
  split_ifs with hfull
  · rw [splitLeaf_present ok.sorted (fun e he =>
      (ok.within e he).2.trans_le (h.bounds hp).2) hmem]
    exact .done ⟨_, by exact nofun, rfl, rfl, rfl, rfl⟩
  · rw [DirectoryLeafPage.insertEntry_of_present ok.sorted (not_le.1 hfull) hmem]
    exact .done ⟨_, by exact nofun, rfl, rfl, rfl, rfl⟩

/-- **`add_page` adds** a page that has no location. -/
theorem Rests.add (h : Rests F page next root) (hk : k < idBound) {r : PPageId}
    (hr : r.Addressable) (hnone : ∀ l, ¬ Binds F page k l) :
    Reaches page next root (.start (.addPage k r))
      (Settled fun k' l => Binds F page k' l ∨ k' = k ∧ l = r) := by
  by_cases hroot : root = 0
  · -- the first leaf
    obtain ⟨hd, -, hhd⟩ := h.header
    have hn0 : next ≠ 0 := h.counter.ne'
    have hFn : F next = none := h.fresh next le_rfl
    refine .goto (q := .alloc (.firstLeaf k r)) (fun d _ _ hr => ?_) (.alloc ?_)
    · have hstep : step d (.start (.addPage k r)) = (d, .alloc (.firstLeaf k r)) :=
        if_pos (hr.trans hroot)
      rw [hstep]
      exact ⟨rfl, rfl⟩
    rw [allocated_firstLeaf]
    refine .write (.setRoot ⟨⟨hd, root⟩, ?_⟩ ⟨rfl, F.add next 0 0 idBound, ⟨?_, ?_, ?_, ?_, Or.inr ?_⟩, ?_⟩)
    · rwa [Function.update_of_ne hn0.symm]
    · refine Tree.outside ?_ ((Extents.add_of_ne hn0.symm).trans h.tree.zero) _
      exact (h.tree.outside hFn _).firstLeaf (l := ⟨next, 0, 0, [newEntry k r]⟩) hroot hn0
        (Function.update_self ..) rfl hk rfl
    · exact ⟨_, le_rfl, Function.update_self ..⟩
    · intro id hid
      rw [Extents.add_of_ne (Nat.lt_of_succ_le hid).ne']
      exact h.fresh id (Nat.le_of_succ_le hid)
    · exact Nat.succ_pos _
    · rw [Nat.add_sub_cancel, Extents.add_self]
      exact Option.some_ne_none _
    · intro k' l
      refine Iff.trans ?_ (or_iff_right (h.tree.not_binds hroot)).symm
      rw [Tree.binds_firstLeaf (l := ⟨next, 0, 0, [newEntry k r]⟩) (h.tree.empty hroot).1
        ((Function.update_of_ne hn0 ..).trans (Function.update_self ..)), ← newEntry_binds hr]
      simp only [List.mem_singleton, exists_eq_left]
  · refine reaches_start h.tree hroot hk fun p a b lf path hp (ha : a ≤ k) (hb : k < b) hlf ok hpath => ?_
    have habs := h.absent hp ha hb hlf hnone
    rw [atLeaf]
    split_ifs with hfull
    · exact h.split hk hr hp ha hb hlf ok hfull habs hpath
    · rw [DirectoryLeafPage.insertEntry_of_absent ok.sorted (not_le.1 hfull) habs]
      obtain ⟨ok', hbinds⟩ := h.tree.insertEntry (y := newEntry k r)
        { lf with entries := insertBy DirectoryLeafEntry.searchKey (newEntry k r) lf.entries }
        hp hlf ha hb habs (not_le.1 hfull) rfl rfl
      exact .write (.done ⟨rfl, F, h.setLeaf hp ok', fun k' l =>
        hbinds.trans (or_congr_right (newEntry_binds hr))⟩)

end Calls

end Directory
end Abdb
