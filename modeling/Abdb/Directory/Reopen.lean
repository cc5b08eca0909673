/-
# A directory opened again

`flush_all_dirty` writes every page that a reader would see (`flushAllDirty_file`), so a
directory that is opened again has the pages and the root it had.  Not so its counter:
`alloc_dir_page` counts in memory, and only `set_root_page` copies the counter to the
header.  A split that ends below the root leaves the header behind, and the counter that
`load_header` finds there hands out pages of the stored tree again.

The mappings survive every further addition exactly when the header was current at the
flush (`reopen_survives_iff`).
-/

import Abdb.Directory.Map

namespace Abdb
namespace Directory

open Lib

/-- The page belongs to the stored tree: it is the root or a child of a page that does. -/
inductive Used (page : Pages) (root : DirPageId) : DirPageId → Prop
  | root : root ≠ 0 → Used page root root
  | leftmost {q : DirPageId} {i : DirectoryInnerPage} :
    Used page root q → page q = some (.inner i) → Used page root i.leftmostChild
  | right {q : DirPageId} {i : DirectoryInnerPage} {e : DirectoryInnerEntry} :
    Used page root q → page q = some (.inner i) → e ∈ i.entries → Used page root e.rightChild

/-- **The pages of the stored tree** are those with an extent. -/
theorem Tree.used_iff {F : Layout} {page : Pages} {root p : DirPageId}
    (h : Tree F (fun _ => False) page root) : Used page root p ↔ F p ≠ none := by
  have hsome : ∀ {q ℓ a}, F.At q ℓ a → F q ≠ none := by
    rintro q ℓ a ⟨b, hq⟩
    rw [hq]
    exact Option.some_ne_none _
  have hchild : ∀ {q i c} {k : ℕ → ℕ}, F q ≠ none → page q = some (.inner i) →
      (∀ ℓ a, F.At q (ℓ + 1) a → Sign F page q (k a) c) → F c ≠ none := by
    intro q i k c hq hi hsign
    obtain ⟨⟨ℓ, a, b⟩, hq⟩ := Option.ne_none_iff_exists'.1 hq
    obtain ⟨ℓ, rfl, -⟩ := h.inner_level hq hi
    obtain ⟨t, hL⟩ := h.levels_of_at (Extents.at_of hq)
    exact hsome (hL.child_at hq (hsign ℓ a (Extents.at_of hq)))
  constructor
  · intro hused
    induction hused with
    | root hroot =>
      obtain ⟨t, hL⟩ := h.levels hroot
      exact hsome hL.rooted
    | leftmost _ hi ih =>
      exact hchild ih hi fun ℓ a ha => (sign_inner (k := a) hi ha).2 (Or.inl ⟨rfl, rfl⟩)
    | @right q i e _ hi he ih =>
      exact hchild ih hi fun ℓ a ha =>
        (sign_inner (k := e.separatorKey) hi ha).2 (Or.inr ⟨e, he, rfl, rfl⟩)
  · intro hne
    obtain ⟨⟨ℓ, a, b⟩, hp⟩ := Option.ne_none_iff_exists'.1 hne
    obtain ⟨t, hL⟩ := h.levels_of_at (Extents.at_of hp)
    -- from the root down to the level of the page
    obtain ⟨j, hj⟩ : ∃ j, j = t - ℓ := ⟨_, rfl⟩
    clear hne
    induction j generalizing p ℓ a b with
    | zero =>
      rcases hL.linked hp with rfl | hd | ⟨q, lo, hi, hq, -⟩
      · exact .root (h.root_ne_zero (Extents.at_of hp))
      · exact hd.elim
      · have := hL.tiled.level_le hq
        omega
    | succ j ih =>
      rcases hL.linked hp with rfl | hd | ⟨q, lo, hi, hq, i, hi', hs⟩
      · exact .root (h.root_ne_zero (Extents.at_of hp))
      · exact hd.elim
      · have hused := ih _ _ _ hq (by omega)
        rcases hs with ⟨-, rfl⟩ | ⟨e, he, -, rfl⟩
        · exact .leftmost hused hi'
        · exact .right hused hi' he

namespace BTreePageDirectory

variable {d d₁ d₂ : BTreePageDirectory} {m : Mapping} {k : LPageId} {r : Except Error Reply}
  {l : List (Op × Except Error Reply)}

/-- `flush_all_dirty`, and `open` on the file it leaves. -/
def reopen (d : BTreePageDirectory) : Except Error BTreePageDirectory :=
  loadHeader d.flushAllDirty.file

/-- What `lookup` returns. -/
def Answer (d : BTreePageDirectory) (k : LPageId) (r : Except Error Reply) : Prop :=
  ∃ d', Exec d (.lookup k) d' r

/-- The counter in the header page, as `load_header` reads it, is the one in memory. -/
def HeaderCurrent (d : BTreePageDirectory) : Prop :=
  ∃ h, d.page 0 = some (.header h) ∧ (if h.nextPageId = 0 then 1 else h.nextPageId) = d.nextDirPage

/-- What a directory keeps when it is opened again: its answers, also after further
additions, and the pages of its tree, which the counter hands out no more. -/
structure Survives (d d₁ : BTreePageDirectory) : Prop where
  answers : ∀ k r, k < idBound → (Answer d₁ k r ↔ Answer d k r)
  kept : ∀ l d₂, Trace d₁ l d₂ → (∀ x ∈ l, x.1.Legal ∧ ∃ k loc, x.1 = .addPage k loc) →
    ∀ k loc, k < idBound → Answer d k (.ok (.found loc)) → Answer d₂ k (.ok (.found loc))
  unused : ∀ id, Used d.page d.rootPage id → id < d₁.nextDirPage

/-- **A flush writes what a reader sees.** -/
theorem flushAllDirty_file (h : d.Clean) : d.flushAllDirty.file = d.page := by
  funext id
  simp only [flushAllDirty, page]
  cases hc : d.cache id with
  | none => simp
  | some pg =>
    rcases h id pg hc with hd | hf
    · simp [hd]
    · simp [hf]

/-- A directory opened again has its pages and its root, and the counter of its header. -/
theorem reopen_eq (h : d.Clean) {hd : DirectoryFileHeader} (hhd : d.page 0 = some (.header hd)) :
    ∃ d₁, d.reopen = .ok d₁ ∧ d₁.Clean ∧ d₁.page = d.page ∧ d₁.rootPage = hd.dirRootPage ∧
      d₁.nextDirPage = if hd.nextPageId = 0 then 1 else hd.nextPageId := by
  rw [reopen, flushAllDirty_file h, loadHeader, hhd]
  exact ⟨_, rfl, nofun, rfl, rfl, rfl⟩

/-- A tree at rest answers with its bindings, whatever the counter is. -/
theorem answer_found_iff {F : Layout} {loc : PPageId}
    (h : Tree F (fun _ => False) d.page d.rootPage) (hk : k < idBound) :
    Answer d k (.ok (.found loc)) ↔ Binds F d.page k loc := by
  obtain ⟨hfound, hmissing⟩ := reaches_lookup h hk d.nextDirPage
  constructor
  · rintro ⟨d₂, h₂⟩
    by_contra hnot
    by_cases hex : ∃ l, Binds F d.page k l
    · obtain ⟨l, hl⟩ := hex
      obtain ⟨d', r, hsteps, -, -, -, -, rfl⟩ := hfound l hl d rfl rfl rfl
      have := (h₂.unique hsteps).2
      simp only [Except.ok.injEq, Reply.found.injEq] at this
      exact hnot (this ▸ hl)
    · obtain ⟨d', r, hsteps, -, -, -, -, rfl⟩ := hmissing (not_exists.1 hex) d rfl rfl rfl
      cases (h₂.unique hsteps).2
  · intro hl
    obtain ⟨d', r, hsteps, -, -, -, -, rfl⟩ := hfound loc hl d rfl rfl rfl
    exact ⟨d', hsteps⟩

namespace Represents

/-- **`lookup` answers with the map**, and with nothing else. -/
theorem answer_iff (h : d.Represents m) (hk : k < idBound) : Answer d k r ↔ r = m.answer k := by
  obtain ⟨d', hexec, -⟩ := h.exec_lookup hk
  constructor
  · rintro ⟨d₂, h₂⟩
    exact (h₂.unique hexec).2
  · rintro rfl
    exact ⟨d', hexec⟩

/-- A tree at rest answers as the map does, whatever the counter is. -/
theorem answer_iff_of_page (h : d.Represents m) (hpage : d₁.page = d.page)
    (hroot : d₁.rootPage = d.rootPage) (hk : k < idBound) : Answer d₁ k r ↔ r = m.answer k := by
  obtain ⟨-, F, hrests, hbinds⟩ := h
  obtain ⟨hfound, hmissing⟩ := reaches_lookup hrests.tree hk d₁.nextDirPage
  obtain ⟨d', hexec⟩ : ∃ d', Exec d₁ (.lookup k) d' (m.answer k) := by
    rw [Mapping.answer]
    cases hlook : m.lookup k with
    | some loc =>
      obtain ⟨d', r, hsteps, -, -, -, -, rfl⟩ :=
        hfound loc ((hbinds k loc).2 hlook) d₁ hpage rfl hroot
      exact ⟨d', hsteps⟩
    | none =>
      obtain ⟨d', r, hsteps, -, -, -, -, rfl⟩ :=
        hmissing (fun loc hl => by simpa [hlook] using (hbinds k loc).1 hl) d₁ hpage rfl hroot
      exact ⟨d', hsteps⟩
  constructor
  · rintro ⟨d₂, h₂⟩
    exact (h₂.unique hexec).2
  · rintro rfl
    exact ⟨d', hexec⟩

/-- Additions leave what the map holds. -/
theorem lookup_additions {loc : PPageId} (hl : ∀ x ∈ l, ∃ k loc, x.1 = Op.addPage k loc)
    (hk : m.lookup k = some loc) : (l.foldl (fun m x => m.after x.1) m).lookup k = some loc := by
  induction l generalizing m with
  | nil => exact hk
  | cons x l ih =>
    refine ih (fun y hy => hl y (List.mem_cons_of_mem _ hy)) ?_
    obtain ⟨k', loc', hx⟩ := hl x List.mem_cons_self
    dsimp only
    rw [hx, Mapping.after]
    split_ifs with hmem
    · exact hk
    · rwa [Finmap.lookup_insert_of_ne]
      rintro rfl
      exact hmem (Finmap.mem_of_lookup_eq_some hk)

end Represents

end BTreePageDirectory

open BTreePageDirectory

/-- **A directory survives being opened again exactly when its header was current.**  It is
opened, its lookups answer as before and go on to do so through any further additions, and
no page of its tree is handed out again, if and only if the counter in the header was not
behind the one in memory at the flush. -/
theorem reopen_survives_iff {l : List (Op × Except Error Reply)} {d : BTreePageDirectory}
    (htrace : Trace initNew l d) (hops : ∀ x ∈ l, x.1.Legal) :
    ∃ d₁, d.reopen = .ok d₁ ∧ (Survives d d₁ ↔ d.HeaderCurrent) := by
  have hrep := (represents_initNew.trace htrace hops).2
  obtain ⟨hclean, F, hrests, hbinds⟩ := id hrep
  obtain ⟨c, hle, hc⟩ := hrests.header
  obtain ⟨d₁, hopen, hclean₁, hpage, hroot, hnext⟩ := reopen_eq hclean hc
  refine ⟨d₁, hopen, fun hs => ⟨_, hc, ?_⟩, fun ⟨h, hh, hcur⟩ => ⟨fun k r hk => ?_, ?_, ?_⟩⟩
  · refine le_antisymm ?_ ?_
    · dsimp only
      split_ifs
      · exact hrests.counter
      · exact hle
    -- the page allocated last is one of the tree
    rw [← hnext]
    rcases hrests.last with ⟨-, hfirst⟩ | hlast
    · rw [hfirst, hnext]
      split_ifs with h0
      · exact le_rfl
      · exact Nat.one_le_iff_ne_zero.2 h0
    · exact Nat.le_of_pred_lt (hs.unused _ (hrests.tree.used_iff.2 hlast))
  · rw [hrep.answer_iff_of_page hpage hroot hk, hrep.answer_iff hk]
  all_goals
    obtain rfl : h = ⟨c, d.rootPage⟩ := by simpa [hc] using hh.symm
    rw [← hnext] at hcur
  · -- the directory opened again represents the map
    have hrep₁ : d₁.Represents _ := ⟨hclean₁, F, by rwa [hpage, hcur, hroot], by rwa [hpage]⟩
    intro l' d₂ htrace' hops' k loc hk hans
    have hmap := (hrep.answer_iff hk).1 hans
    have hrep₂ := (hrep₁.trace htrace' fun x hx => (hops' x hx).1).2
    refine (hrep₂.answer_iff hk).2 ?_
    have hlook := Mapping.answer_eq_found_iff.1 hmap.symm
    exact (Mapping.answer_eq_found_iff.2
      (Represents.lookup_additions (fun x hx => (hops' x hx).2) hlook)).symm
  · intro id hid
    by_contra hge
    exact (hrests.tree.used_iff.1 hid) (hrests.fresh id (hcur ▸ not_lt.1 hge))

/-- An addition is legal, and leaves a header that is current. -/
theorem reopen_survives_one : ∃ l d, Trace initNew l d ∧ l.map Prod.fst = [.addPage 1 ⟨0, 4096⟩] ∧
    ∃ d₁, d.reopen = .ok d₁ ∧ (Survives d d₁ ↔ d.HeaderCurrent) := by
  have hlegal : ∀ op ∈ [Op.addPage 1 ⟨0, 4096⟩], op.Legal := by
    simp only [List.mem_singleton, forall_eq, Op.Legal]
    decide
  obtain ⟨l, d, htrace, hmap⟩ := represents_initNew.exists_trace _ hlegal
  refine ⟨l, d, htrace, hmap, reopen_survives_iff htrace fun x hx => hlegal x.1 ?_⟩
  rw [← hmap]
  exact List.mem_map_of_mem hx

/-! ### A header that is behind -/

section Behind

variable {page : Pages} {next root p : DirPageId} {lf : DirectoryLeafPage} {path : List DirPageId}
  {k n : ℕ} {P : Pages → DirPageId → DirPageId → Except Error Reply → Prop}

/-- Entries for consecutive ids, all at the start of one file. -/
def consecutive (k n : ℕ) : List DirectoryLeafEntry :=
  (List.range' k n).map fun k => newEntry k ⟨0, 0⟩

/-- Additions of consecutive ids. -/
def additions (k n : ℕ) : List (Op × Except Error Reply) :=
  (List.range' k n).map fun k => (.addPage k ⟨0, 0⟩, .ok .unit)

theorem consecutive_succ : consecutive k (n + 1) = newEntry k ⟨0, 0⟩ :: consecutive (k + 1) n := rfl

theorem consecutive_append (k m n : ℕ) :
    consecutive k m ++ consecutive (k + m) n = consecutive k (m + n) := by
  rw [consecutive, consecutive, ← List.map_append, List.range'_append_1]
  rfl

theorem searchKey_consecutive {e : DirectoryLeafEntry} (he : e ∈ consecutive k n) :
    k ≤ e.searchKey ∧ e.searchKey < k + n := by
  obtain ⟨j, hj, rfl⟩ := List.mem_map.1 he
  rw [List.mem_range'_1] at hj
  exact hj

@[simp] theorem length_consecutive : (consecutive k n).length = n := by simp [consecutive]

theorem sorted_consecutive : SortedBy DirectoryLeafEntry.searchKey (consecutive k n) := by
  rw [SortedBy, consecutive, List.pairwise_map]
  exact List.pairwise_lt_range'

theorem legal_additions (h : k + n ≤ idBound) {x : Op × Except Error Reply}
    (hx : x ∈ additions k n) : x.1.Legal ∧ ∃ j loc, x.1 = .addPage j loc ∧ k ≤ j ∧ j < k + n := by
  obtain ⟨j, hj, rfl⟩ := List.mem_map.1 hx
  rw [List.mem_range'_1] at hj
  exact ⟨⟨hj.2.trans_le h, by decide⟩, j, _, rfl, hj⟩

theorem Trace.append {d d₁ d₂ : BTreePageDirectory} {l l' : List (Op × Except Error Reply)}
    (h : Trace d l d₁) (h' : Trace d₁ l' d₂) : Trace d (l ++ l') d₂ := by
  induction h with
  | nil => exact h'
  | cons hexec _ ih => exact .cons hexec (ih h')

/-- The root is leaf `p`, or sends the key to it. -/
def LeadsTo (page : Pages) (root : DirPageId) (k : ℕ) (p : DirPageId) (path : List DirPageId) : Prop :=
  path = [] ∧ root = p ∨ path = [root] ∧ ∃ i, page root = some (.inner i) ∧ i.findChild k = p

/-- A call goes to the leaf that the root leads to. -/
theorem LeadsTo.start (op : Op) (h : LeadsTo page root op.key p path) (hroot : root ≠ 0) (hp0 : p ≠ 0)
    (hp : page p = some (.leaf lf)) (hleaf : Reaches page next root (atLeaf p lf path op) P) :
    Reaches page next root (.start op) P := by
  have hresume : ∀ path, resume p (.leaf lf) (.descend op path) = .readPage p (.leaf op path) := by
    intro path
    cases op with
    | addPage => exact if_neg hp0
    | _ => rfl
  refine .start hroot ?_
  rcases h with ⟨rfl, rfl⟩ | ⟨rfl, i, hi, rfl⟩
  · refine .read hp ?_
    rw [hresume]
    exact .read hp hleaf
  · refine .read hi (.read hp ?_)
    rw [hresume]
    exact .read hp hleaf

/-- A leaf with room gets an entry at its end. -/
theorem LeadsTo.append (h : LeadsTo page root k p path) (hroot : root ≠ 0) (hp0 : p ≠ 0)
    (hp : page p = some (.leaf lf)) (hs : lf.Sorted) (hlt : ∀ e ∈ lf.entries, e.searchKey < k)
    (hroom : lf.numEntries < DirectoryLeafPage.maxEntries) :
    Reaches page next root (.start (.addPage k ⟨0, 0⟩)) fun page' next' root' r =>
      r = .ok .unit ∧ page' = Function.update page p
        (some (.leaf { lf with entries := lf.entries ++ consecutive k 1 })) ∧
        next' = next ∧ root' = root := by
  refine LeadsTo.start (.addPage k ⟨0, 0⟩) h hroot hp0 hp ?_
  rw [atLeaf, if_neg (not_le.2 hroom),
    DirectoryLeafPage.insertEntry_of_absent hs hroom fun e he => (hlt e he).ne, insertBy_last hlt]
  exact .write (.done ⟨rfl, rfl, rfl, rfl⟩)

/-- A leaf with room for them gets entries at its end, one after the other. -/
theorem exists_additions {d : BTreePageDirectory} (hroot : d.rootPage ≠ 0)
    (hp0 : p ≠ 0) (hp : d.page p = some (.leaf lf)) (hs : lf.Sorted)
    (hlt : ∀ e ∈ lf.entries, e.searchKey < k)
    (hroom : lf.numEntries + n ≤ DirectoryLeafPage.maxEntries)
    (hlead : ∀ j, k ≤ j → j < k + n → LeadsTo d.page d.rootPage j p path) :
    ∃ d', Trace d (additions k n) d' ∧ (d.Clean → d'.Clean) ∧ d'.page = Function.update d.page p
      (some (.leaf { lf with entries := lf.entries ++ consecutive k n })) ∧
      d'.nextDirPage = d.nextDirPage ∧ d'.rootPage = d.rootPage := by
  induction n generalizing d lf k with
  | zero =>
    refine ⟨d, .nil d, id, ?_, rfl, rfl⟩
    rw [consecutive, List.range'_zero, List.map_nil, List.append_nil, ← hp, Function.update_eq_self]
  | succ n ih =>
    obtain ⟨d₁, r, hexec, hclean₁, rfl, hpage₁, hnext₁, hroot₁⟩ :=
      (hlead k le_rfl (by omega)).append hroot hp0 hp hs hlt (by omega) d rfl rfl rfl
    have hp₁ : d₁.page p = some (.leaf { lf with entries := lf.entries ++ consecutive k 1 }) := by
      rw [hpage₁, Function.update_self]
    have hs₁ : SortedBy DirectoryLeafEntry.searchKey (lf.entries ++ consecutive k 1) :=
      SortedBy.append_iff.2 ⟨hs, sorted_consecutive, fun x hx y hy => (hlt x hx).trans_le
        (searchKey_consecutive hy).1⟩
    have hlt₁ : ∀ e ∈ lf.entries ++ consecutive k 1, e.searchKey < k + 1 := by
      intro e he
      rcases List.mem_append.1 he with he | he
      · exact (hlt e he).trans (Nat.lt_succ_self k)
      · exact (searchKey_consecutive he).2
    have hlead₁ : ∀ j, k + 1 ≤ j → j < k + 1 + n → LeadsTo d₁.page d₁.rootPage j p path := by
      intro j hj hjn
      rw [hpage₁, hroot₁]
      rcases hlead j (by omega) (by omega) with hj | ⟨hpath, i, hi, hc⟩
      · exact Or.inl hj
      · refine Or.inr ⟨hpath, i, ?_, hc⟩
        rw [Function.update_of_ne, hi]
        intro hrp
        rw [hrp, hp] at hi
        cases hi
    obtain ⟨d₂, htrace, hclean₂, hpage₂, hnext₂, hroot₂⟩ := ih (hroot₁ ▸ hroot) hp₁ hs₁ hlt₁ (by
      simp only [DirectoryLeafPage.numEntries, List.length_append, length_consecutive] at hroom ⊢
      omega) hlead₁
    refine ⟨d₂, .cons hexec htrace, hclean₂ ∘ hclean₁, ?_, hnext₂.trans hnext₁, hroot₂.trans hroot₁⟩
    rw [hpage₂, hpage₁, Function.update_idem, consecutive_succ, List.append_assoc]
    rfl

/-- A full leaf with 127 entries below a key and 126 above it is cut at it. -/
theorem LeadsTo.split {a b : ℕ} (h : LeadsTo page root (b + 126) p path) (hroot : root ≠ 0)
    (hp0 : p ≠ 0) (hp : page p = some (.leaf lf)) (hent : lf.entries = consecutive a 127 ++ consecutive b 126)
    (hab : a + 127 ≤ b) (hb : b + 127 ≤ idBound)
    (hrest : Reaches (Function.update page next
        (some (.leaf ⟨next, lf.nextPage, p, consecutive b 127⟩))) (next + 1) root
      (rebuiltLeaf p lf (consecutive a 127) path next b) P) :
    Reaches page next root (.start (.addPage (b + 126) ⟨0, 0⟩)) P := by
  have hlt : ∀ e ∈ lf.entries, e.searchKey < b + 126 := by
    intro e he
    rw [hent] at he
    rcases List.mem_append.1 he with he | he
    · have := (searchKey_consecutive he).2
      omega
    · exact (searchKey_consecutive he).2
  have hs : lf.Sorted := by
    rw [DirectoryLeafPage.Sorted, hent, SortedBy.append_iff]
    refine ⟨sorted_consecutive, sorted_consecutive, fun x hx y hy => ?_⟩
    exact (searchKey_consecutive hx).2.trans_le (hab.trans (searchKey_consecutive hy).1)
  have hlast : insertBy DirectoryLeafEntry.searchKey (newEntry (b + 126) ⟨0, 0⟩) lf.entries =
      consecutive a 127 ++ consecutive b 127 := by
    rw [insertBy_last hlt, hent, List.append_assoc]
    rfl
  have habs : ∀ e ∈ lf.entries, e.searchKey ≠ b + 126 := fun e he => (hlt e he).ne
  obtain ⟨xs, e, ys, hcut, hxs, -, hfinish⟩ := splitLeafFinish_spec
    (hlast ▸ (insertIdx_findSlot (e := newEntry (b + 126) ⟨0, 0⟩) hs habs).2.2)
    (fun e he => by
      rcases List.mem_append.1 he with he | he
      · have := (searchKey_consecutive he).2
        omega
      · exact (searchKey_consecutive he).2.trans_le hb)
    (by simp)
  obtain ⟨rfl, hys⟩ := List.append_inj hcut (by simp [hxs])
  rw [consecutive_succ, List.cons.injEq] at hys
  obtain ⟨rfl, rfl⟩ := hys
  refine LeadsTo.start (.addPage (b + 126) ⟨0, 0⟩) h hroot hp0 hp ?_
  rw [atLeaf, if_pos (by rw [DirectoryLeafPage.numEntries, hent]; simp), splitLeaf_absent hs
    (fun e he => (hlt e he).trans (by omega)) (by omega) (by decide) habs, hlast]
  refine .alloc ?_
  rw [allocated, hfinish]
  exact .write hrest

/-- A leaf that leads the root's keys is asked for one of them. -/
theorem LeadsTo.answer {d : BTreePageDirectory} (h : LeadsTo d.page d.rootPage k p path)
    (hroot : d.rootPage ≠ 0) (hp0 : p ≠ 0) (hp : d.page p = some (.leaf lf))
    {a n : ℕ} (hent : lf.entries = consecutive a n) :
    Answer d k (if a ≤ k ∧ k < a + n then .ok (.found ⟨0, 0⟩) else .error (.pageNotFound k)) := by
  have hs : lf.Sorted := by
    rw [DirectoryLeafPage.Sorted, hent]
    exact sorted_consecutive
  have hlook : lf.lookup k = if a ≤ k ∧ k < a + n then some ⟨0, 0⟩ else none := by
    split_ifs with hk
    · rw [DirectoryLeafPage.lookup_eq_some_iff hs, hent]
      exact ⟨newEntry k ⟨0, 0⟩, List.mem_map.2 ⟨k, List.mem_range'_1.2 hk, rfl⟩, rfl,
        DirectoryLeafEntry.toPPageId_fromPPageId (by decide)⟩
    · rw [Option.eq_none_iff_forall_ne_some]
      intro loc hloc
      obtain ⟨e, he, rfl, -⟩ := (DirectoryLeafPage.lookup_eq_some_iff hs).1 hloc
      exact hk (searchKey_consecutive (hent ▸ he))
  obtain ⟨d', r, hsteps, -, hr⟩ := LeadsTo.start (.lookup k) h hroot hp0 hp
    (P := fun _ _ _ r => r = if a ≤ k ∧ k < a + n then .ok (.found ⟨0, 0⟩)
      else .error (.pageNotFound k))
    (by
      rw [atLeaf, hlook]
      split_ifs <;> exact .done rfl) d rfl rfl rfl
  exact ⟨d', hr ▸ hsteps⟩

/-- 254 additions split the first leaf and make a root, which updates the header. -/
theorem exists_root_split : ∃ l d, Trace initNew l d ∧ (∀ x ∈ l, x.1.Legal) ∧ d.Clean ∧
    d.nextDirPage = 4 ∧ d.rootPage = 3 ∧ d.page 0 = some (.header ⟨4, 3⟩) ∧
    d.page 1 = some (.leaf ⟨1, 2, 0, consecutive 0 127⟩) ∧
    d.page 2 = some (.leaf ⟨2, 0, 1, consecutive 1000 127⟩) ∧
    d.page 3 = some (.inner ⟨3, 1, [⟨1000, 2⟩]⟩) := by
  have hfirst : Reaches initNew.page 1 0 (.start (.addPage 0 ⟨0, 0⟩)) fun page next root r =>
      r = .ok .unit ∧ next = 2 ∧ root = 1 ∧ page 0 = some (.header ⟨2, 1⟩) ∧
        page 1 = some (.leaf ⟨1, 0, 0, consecutive 0 1⟩) := by
    refine .goto (q := .alloc (.firstLeaf 0 ⟨0, 0⟩)) (fun d _ _ hr => ?_) (.alloc ?_)
    · have hstep : step d (.start (.addPage 0 ⟨0, 0⟩)) = (d, .alloc (.firstLeaf 0 ⟨0, 0⟩)) :=
        if_pos hr
      rw [hstep]
      exact ⟨rfl, rfl⟩
    · rw [allocated_firstLeaf]
      exact .write (.setRoot ⟨_, rfl⟩ ⟨rfl, rfl, rfl, rfl, rfl⟩)
  obtain ⟨d₁, r, hexec, hclean₁, rfl, hnext₁, hroot₁, hhd₁, hp₁⟩ := hfirst initNew rfl rfl rfl
  have hlead : ∀ {page : Pages} (j : ℕ), LeadsTo page 1 j 1 [] := fun j => Or.inl ⟨rfl, rfl⟩
  obtain ⟨d₂, htrace₂, hclean₂, hpage₂, hnext₂, hroot₂⟩ := exists_additions (k := 1) (n := 126)
    (by rw [hroot₁]; exact one_ne_zero) one_ne_zero hp₁ sorted_consecutive
    (fun e he => (searchKey_consecutive he).2) (by decide) fun j _ _ => by
      rw [hroot₁]
      exact hlead j
  have hp₂ : d₂.page 1 = some (.leaf ⟨1, 0, 0, consecutive 0 127⟩) := by
    rw [hpage₂, Function.update_self]
    exact congrArg (fun es => some (DirPage.leaf ⟨1, 0, 0, es⟩)) (consecutive_append 0 1 126)
  obtain ⟨d₃, htrace₃, hclean₃, hpage₃, hnext₃, hroot₃⟩ := exists_additions (k := 1000) (n := 126)
    (by rw [hroot₂, hroot₁]; exact one_ne_zero) one_ne_zero hp₂ sorted_consecutive (fun e he => by
      have := (searchKey_consecutive he).2
      omega) (by simp [DirectoryLeafPage.numEntries]) fun j _ _ => by
        rw [hroot₂, hroot₁]
        exact hlead j
  have hp₃ : d₃.page 1 = some (.leaf ⟨1, 0, 0, consecutive 0 127 ++ consecutive 1000 126⟩) := by
    rw [hpage₃, Function.update_self]
  have hhd₃ : d₃.page 0 = some (.header ⟨2, 1⟩) := by
    rw [hpage₃, hpage₂, Function.update_of_ne zero_ne_one, Function.update_of_ne zero_ne_one, hhd₁]
  have hsplit : Reaches d₃.page 2 1 (.start (.addPage 1126 ⟨0, 0⟩)) fun page next root r =>
      r = .ok .unit ∧ next = 4 ∧ root = 3 ∧ page 0 = some (.header ⟨4, 3⟩) ∧
        page 1 = some (.leaf ⟨1, 2, 0, consecutive 0 127⟩) ∧
        page 2 = some (.leaf ⟨2, 0, 1, consecutive 1000 127⟩) ∧
        page 3 = some (.inner ⟨3, 1, [⟨1000, 2⟩]⟩) := by
    refine (hlead 1126).split (a := 0) (b := 1000) one_ne_zero one_ne_zero hp₃ rfl (by omega)
      (by decide) ?_
    rw [rebuiltLeaf, if_neg (not_not.2 rfl)]
    refine .write (.alloc ?_)
    rw [allocated_newRoot]
    exact .write (.setRoot ⟨_, hhd₃⟩ ⟨rfl, rfl, rfl, rfl, rfl, rfl, rfl⟩)
  obtain ⟨d₄, r, hexec₄, hclean₄, rfl, hnext₄, hroot₄, hhd₄, hp₄⟩ :=
    hsplit d₃ rfl (hnext₃.trans (hnext₂.trans hnext₁)) (hroot₃.trans (hroot₂.trans hroot₁))
  refine ⟨_, d₄, .cons hexec (htrace₂.append (htrace₃.append (.cons hexec₄ (.nil d₄)))), ?_,
    hclean₄ (hclean₃ (hclean₂ (hclean₁ (by rintro _ _ ⟨⟩)))), hnext₄, hroot₄, hhd₄, hp₄⟩
  intro x hx
  simp only [List.mem_cons, List.mem_append, List.not_mem_nil, or_false] at hx
  rcases hx with rfl | hx | hx | rfl
  · exact ⟨by decide, by decide⟩
  · exact (legal_additions (by decide) hx).1
  · exact (legal_additions (by decide) hx).1
  · exact ⟨by decide, by decide⟩

/-- 127 further additions split the upper leaf; the root has room, and the header keeps its
counter. -/
theorem exists_leaf_split : ∃ l d, Trace initNew l d ∧ (∀ x ∈ l, x.1.Legal) ∧ d.Clean ∧
    d.nextDirPage = 5 ∧ d.rootPage = 3 ∧ d.page 0 = some (.header ⟨4, 3⟩) ∧
    d.page 1 = some (.leaf ⟨1, 2, 0, consecutive 0 127⟩) ∧
    d.page 2 = some (.leaf ⟨2, 4, 1, consecutive 1000 127⟩) ∧
    d.page 3 = some (.inner ⟨3, 1, [⟨1000, 2⟩, ⟨1127, 4⟩]⟩) ∧
    d.page 4 = some (.leaf ⟨4, 0, 2, consecutive 1127 127⟩) := by
  obtain ⟨l, d, htrace, hl, hclean, hnext, hroot, hhd, hp₁, hp₂, hp₃⟩ := exists_root_split
  have hsorted : BTreeInnerPage.Sorted ⟨3, 1, [⟨1000, 2⟩]⟩ := List.pairwise_singleton ..
  have hlead : ∀ {page : Pages} j, page 3 = some (.inner ⟨3, 1, [⟨1000, 2⟩]⟩) → 1000 ≤ j →
      LeadsTo page 3 j 2 [3] := by
    refine fun j hp hj => Or.inr ⟨rfl, _, hp, ?_⟩
    rw [BTreeInnerPage.findChild_eq_route hsorted]
    exact if_neg (not_lt.2 hj)
  obtain ⟨d₁, htrace₁, hclean₁, hpage₁, hnext₁, hroot₁⟩ := exists_additions (k := 1127) (n := 126)
    (by rw [hroot]; exact three_ne_zero) two_ne_zero hp₂ sorted_consecutive
    (fun e he => (searchKey_consecutive he).2) (by simp [DirectoryLeafPage.numEntries])
    fun j hj _ => by
      rw [hroot]
      exact hlead j hp₃ (by omega)
  have hpage : ∀ p, p ≠ 2 → d₁.page p = d.page p := fun p hp => by
    rw [hpage₁, Function.update_of_ne hp]
  have hsplit : Reaches d₁.page 4 3 (.start (.addPage 1253 ⟨0, 0⟩)) fun page next root r =>
      r = .ok .unit ∧ next = 5 ∧ root = 3 ∧ (∀ p < 2, page p = d₁.page p) ∧
        page 2 = some (.leaf ⟨2, 4, 1, consecutive 1000 127⟩) ∧
        page 3 = some (.inner ⟨3, 1, [⟨1000, 2⟩, ⟨1127, 4⟩]⟩) ∧
        page 4 = some (.leaf ⟨4, 0, 2, consecutive 1127 127⟩) := by
    have hp₃' : d₁.page 3 = some (.inner ⟨3, 1, [⟨1000, 2⟩]⟩) := (hpage 3 (by decide)).trans hp₃
    refine (hlead 1253 hp₃' (by omega)).split (a := 1000) (b := 1127) three_ne_zero two_ne_zero
      (by rw [hpage₁, Function.update_self]) rfl (by omega) (by decide) ?_
    rw [rebuiltLeaf, if_neg (not_not.2 rfl)]
    refine .write (.read ((Function.update_of_ne (by decide) ..).trans
      ((Function.update_of_ne (by decide) ..).trans hp₃')) ?_)
    rw [resume, insertIntoParent_room hsorted (by decide) (by decide)]
    refine .write (.done ⟨rfl, rfl, rfl, fun p hp => ?_, ?_, Function.update_self .., ?_⟩)
    · rw [Function.update_of_ne (hp.trans (by decide)).ne, Function.update_of_ne hp.ne,
        Function.update_of_ne (hp.trans (by decide)).ne]
    · rw [Function.update_of_ne (by decide), Function.update_self]
    · rw [Function.update_of_ne (by decide), Function.update_of_ne (by decide), Function.update_self]
  obtain ⟨d₂, r, hexec₂, hclean₂, rfl, hnext₂, hroot₂, hlow, hp⟩ :=
    hsplit d₁ rfl (hnext₁.trans hnext) (hroot₁.trans hroot)
  refine ⟨_, d₂, htrace.append (htrace₁.append (.cons hexec₂ (.nil d₂))), ?_,
    hclean₂ (hclean₁ hclean), hnext₂,
    hroot₂, ?_, ?_, hp⟩
  · intro x hx
    simp only [List.mem_append, List.mem_cons, List.not_mem_nil, or_false] at hx
    rcases hx with hx | hx | rfl
    · exact hl x hx
    · exact (legal_additions (by decide) hx).1
    · exact ⟨by decide, by decide⟩
  · rw [hlow 0 (by decide), hpage 0 (by decide), hhd]
  · rw [hlow 1 (by decide), hpage 1 (by decide), hp₁]

/-- **A mapping is lost.**  The page that the reopened directory allocates first is the leaf
of the mappings from 1127 on: 127 additions elsewhere split a leaf, and its upper half is
written over them. -/
theorem reopen_loses_mapping : ∃ l d d₁ l' d₂, Trace initNew l d ∧ (∀ x ∈ l, x.1.Legal) ∧
    d.reopen = .ok d₁ ∧ Trace d₁ l' d₂ ∧
    (∀ x ∈ l', x.1.Legal ∧ ∃ k loc, x.1 = .addPage k loc ∧ Answer d k (.error (.pageNotFound k))) ∧
    Answer d 1127 (.ok (.found ⟨0, 0⟩)) ∧ Answer d₂ 1127 (.error (.pageNotFound 1127)) := by
  obtain ⟨l, d, htrace, hl, hclean, hnext, hroot, hhd, hp₁, hp₂, hp₃, hp₄⟩ := exists_leaf_split
  have hroot0 : d.rootPage ≠ 0 := by rw [hroot]; exact three_ne_zero
  have hsorted : BTreeInnerPage.Sorted ⟨3, 1, [⟨1000, 2⟩, ⟨1127, 4⟩]⟩ := by
    simp [BTreeInnerPage.Sorted, SortedBy]
  have hlead : ∀ {page : Pages} j, page 3 = some (.inner ⟨3, 1, [⟨1000, 2⟩, ⟨1127, 4⟩]⟩) →
      j < 1000 → LeadsTo page 3 j 1 [3] := by
    refine fun j hp hj => Or.inr ⟨rfl, _, hp, ?_⟩
    rw [BTreeInnerPage.findChild_eq_route hsorted]
    exact if_pos hj
  have hlead' : ∀ {page : Pages} {i}, page 3 = some (.inner i) → i.findChild 1127 = 4 →
      LeadsTo page 3 1127 4 [3] := fun hp hi => Or.inr ⟨rfl, _, hp, hi⟩
  obtain ⟨d₁, hopen, hclean₁, hpage₁, hroot₁, hnext₁⟩ := reopen_eq hclean hhd
  have hroot₁0 : d₁.rootPage ≠ 0 := by rw [hroot₁]; exact three_ne_zero
  obtain ⟨d₂, htrace₂, hclean₂, hpage₂, hnext₂, hroot₂⟩ := exists_additions (k := 127) (n := 126)
    hroot₁0 one_ne_zero ((congrFun hpage₁ 1).trans hp₁) sorted_consecutive
    (fun e he => (searchKey_consecutive he).2) (by simp [DirectoryLeafPage.numEntries])
    fun j _ hj => by
      rw [hroot₁, hpage₁]
      exact hlead j hp₃ (by omega)
  have hpage : ∀ p, p ≠ 1 → d₂.page p = d.page p := fun p hp => by
    rw [hpage₂, Function.update_of_ne hp, hpage₁]
  have hsplit : Reaches d₂.page 4 3 (.start (.addPage 253 ⟨0, 0⟩)) fun page next root r =>
      r = .ok .unit ∧ root = 3 ∧
        page 3 = some (.inner ⟨3, 1, [⟨127, 4⟩, ⟨1000, 2⟩, ⟨1127, 4⟩]⟩) ∧
        page 4 = some (.leaf ⟨4, 2, 1, consecutive 127 127⟩) := by
    have hp₃' := (hpage 3 (by decide)).trans hp₃
    refine (hlead 253 hp₃' (by omega)).split (a := 0) (b := 127) three_ne_zero one_ne_zero
      (by rw [hpage₂, Function.update_self]) rfl (by omega) (by decide) ?_
    rw [rebuiltLeaf, if_pos two_ne_zero]
    refine .read ((Function.update_of_ne (by decide) ..).trans ((hpage 2 (by decide)).trans hp₂))
      (.write (.write (.read ((Function.update_of_ne (by decide) ..).trans
        ((Function.update_of_ne (by decide) ..).trans
          ((Function.update_of_ne (by decide) ..).trans hp₃'))) ?_)))
    rw [resume, insertIntoParent_room hsorted (by decide) (by decide)]
    refine .write (.done ⟨rfl, rfl, Function.update_self .., ?_⟩)
    rw [Function.update_of_ne (by decide), Function.update_of_ne (by decide),
      Function.update_of_ne (by decide), Function.update_self]
  obtain ⟨d₃, r, hexec₃, hclean₃, rfl, hroot₃, hp₃', hp₄'⟩ :=
    hsplit d₂ rfl (hnext₂.trans hnext₁) (hroot₂.trans hroot₁)
  refine ⟨l, d, d₁, _, d₃, htrace, hl, hopen, htrace₂.append (.cons hexec₃ (.nil d₃)), ?_, ?_, ?_⟩
  · have hnew : ∀ k, 127 ≤ k → k < 1000 → Answer d k (.error (.pageNotFound k)) := by
      intro k hk hk'
      have hans := LeadsTo.answer (d := d) (hroot ▸ hlead k hp₃ hk') hroot0 one_ne_zero hp₁ rfl
      rwa [if_neg fun h => h.2.not_ge hk] at hans
    intro x hx
    simp only [List.mem_append, List.mem_cons, List.not_mem_nil, or_false] at hx
    rcases hx with hx | rfl
    · obtain ⟨hlegal, k, loc, hxk, hk, hk'⟩ := legal_additions (by decide) hx
      exact ⟨hlegal, k, loc, hxk, hnew k hk (hk'.trans (by decide))⟩
    · exact ⟨⟨by decide, by decide⟩, 253, _, rfl, hnew 253 (by decide) (by decide)⟩
  · have hans := LeadsTo.answer (d := d) (hroot ▸ hlead' hp₃ (by decide)) hroot0
      four_ne_zero hp₄ rfl
    rwa [if_pos (by decide)] at hans
  · have hans := LeadsTo.answer (d := d₃) (hroot₃ ▸ hlead' hp₃' (by decide))
      (by rw [hroot₃]; exact three_ne_zero) four_ne_zero hp₄' rfl
    rwa [if_neg (by decide)] at hans

end Behind

end Directory
end Abdb
