/-
# The directory as a map

What the directory is for: a finite map from logical pages to physical locations.
`Mapping.Answers` says what each call returns on a map and `Mapping.after` what it makes of
it.  A directory represents a map if its pages hold a tree at rest with the same bindings.
A call that runs alone on such a directory returns, answers as the map does, and leaves a
directory that represents the map after it (`Represents.exec`); so do all calls of a
sequence (`directory_correct`).
-/

import Mathlib.Data.Finmap
import Abdb.Directory.Alone

namespace Abdb
namespace Directory

open Lib

/-- A finite map from logical pages to locations. -/
abbrev Mapping := Finmap fun _ : LPageId => PPageId

namespace Mapping

/-- What `lookup` returns on a map. -/
def answer (m : Mapping) (k : LPageId) : Except Error Reply :=
  match m.lookup k with
  | some l => .ok (.found l)
  | none => .error (.pageNotFound k)

theorem answer_eq_found_iff {m : Mapping} {k : LPageId} {l : PPageId} :
    m.answer k = .ok (.found l) ↔ m.lookup k = some l := by
  rw [answer]
  cases m.lookup k <;> simp

/-- What a call returns on a map. -/
def Answers (m : Mapping) : Op → Except Error Reply → Prop
  | .lookup k, r => r = m.answer k
  | .addPage k _, r => if k ∈ m then ∃ e, e ≠ .outsideModel ∧ r = .error e else r = .ok .unit
  | .updatePage k _, r => r = if k ∈ m then .ok .unit else .error (.pageNotFound k)
  | .deletePage k, r => r = if k ∈ m then .ok .unit else .error (.pageNotFound k)

/-- The map after a call. -/
def after (m : Mapping) : Op → Mapping
  | .lookup _ => m
  | .addPage k l => if k ∈ m then m else m.insert k l
  | .updatePage k l => if k ∈ m then m.insert k l else m
  | .deletePage k => if k ∈ m then m.erase k else m

/-- Every reply is the map's, from call to call. -/
def Agrees : Mapping → List (Op × Except Error Reply) → Prop
  | _, [] => True
  | m, (op, r) :: l => m.Answers op r ∧ Agrees (m.after op) l

end Mapping

/-- The arguments are ones a call can have: the logical page id is a `u32`, and the location
starts a page whose number is one. -/
def Op.Legal : Op → Prop
  | .lookup k => k < idBound
  | .addPage k l => k < idBound ∧ l.Addressable
  | .updatePage k l => k < idBound ∧ l.Addressable
  | .deletePage k => k < idBound

/-- A sequence of calls, each run alone, with their results. -/
inductive Trace : BTreePageDirectory → List (Op × Except Error Reply) → BTreePageDirectory → Prop
  | nil (d : BTreePageDirectory) : Trace d [] d
  | cons {d d₁ d' : BTreePageDirectory} {op : Op} {r : Except Error Reply}
    {l : List (Op × Except Error Reply)} : Exec d op d₁ r → Trace d₁ l d' → Trace d ((op, r) :: l) d'

namespace BTreePageDirectory

variable {d d' : BTreePageDirectory} {m : Mapping} {op : Op} {r : Except Error Reply}
  {l : List (Op × Except Error Reply)} {k : LPageId} {loc : PPageId}

/-- The pages, the counter and the root are the same. -/
def SameContents (d d' : BTreePageDirectory) : Prop :=
  d'.page = d.page ∧ d'.nextDirPage = d.nextDirPage ∧ d'.rootPage = d.rootPage

/-- The directory holds a tree at rest with the bindings of a map, and its dirty set tells
which cached pages are not in the file. -/
def Represents (d : BTreePageDirectory) (m : Mapping) : Prop :=
  d.Clean ∧ ∃ F, Rests F d.page d.nextDirPage d.rootPage ∧ ∀ k l, Binds F d.page k l ↔ m.lookup k = some l

/-- A new directory is an empty tree. -/
theorem rests_initNew : Rests (fun _ => none) initNew.page 1 0 where
  tree := ⟨rfl, fun _ => ⟨fun _ => rfl, fun _ => id⟩, fun h => absurd rfl h, nofun, nofun⟩
  header := ⟨0, Nat.zero_le _, rfl⟩
  fresh _ _ := rfl
  counter := Nat.one_pos
  last := Or.inl ⟨rfl, rfl⟩

theorem represents_initNew : initNew.Represents ∅ :=
  ⟨nofun, _, rests_initNew, fun _ _ => iff_of_false (fun ⟨_, _, _, h, _⟩ => nomatch h) nofun⟩

/-- A call that returns `r` and changes nothing leaves the representation alone. -/
theorem exec_kept (h : d.Represents m) (hreach : Reaches d.page d.nextDirPage d.rootPage (.start op)
      (Kept r d.page d.nextDirPage d.rootPage)) :
    ∃ d', Exec d op d' r ∧ SameContents d d' ∧ d'.Represents m := by
  obtain ⟨hclean, F, hF⟩ := h
  obtain ⟨d', r', hsteps, hclean', hpage, hnext, hroot, rfl⟩ := hreach d rfl rfl rfl
  refine ⟨d', hsteps, ⟨hpage, hnext, hroot⟩, hclean' hclean, F, ?_⟩
  rwa [hpage, hnext, hroot]

/-- A call that settles with the bindings of a map leaves a directory that represents it. -/
theorem exec_settled {B : ℕ → PPageId → Prop} (hclean : d.Clean) (hreach : Reaches d.page d.nextDirPage d.rootPage
      (.start op) (Settled B)) (hB : ∀ k l, B k l ↔ m.lookup k = some l) :
    ∃ d', Exec d op d' (.ok .unit) ∧ d'.Represents m := by
  obtain ⟨d', r, hsteps, hclean', rfl, F, hrests, hbinds⟩ := hreach d rfl rfl rfl
  exact ⟨d', hsteps, hclean' hclean, F, hrests, fun k l => (hbinds k l).trans (hB k l)⟩

namespace Represents

/-- Present and absent, in the tree and in the map. -/
theorem binds_or {B : ℕ → PPageId → Prop} (h : ∀ k l, B k l ↔ m.lookup k = some l) :
    (k ∈ m → ∃ l, B k l) ∧ (k ∉ m → ∀ l, ¬ B k l) := by
  refine ⟨fun hk => ?_, fun hk l hl => hk (Finmap.mem_of_lookup_eq_some ((h k l).1 hl))⟩
  obtain ⟨l, hl⟩ := Finmap.mem_iff.1 hk
  exact ⟨l, (h k l).2 hl⟩

/-- **`lookup` answers as the map does.** -/
theorem exec_lookup (h : d.Represents m) (hk : k < idBound) :
    ∃ d', Exec d (.lookup k) d' (m.answer k) ∧ SameContents d d' ∧ d'.Represents m := by
  obtain ⟨hclean, F, hrests, hbinds⟩ := id h
  obtain ⟨hfound, hmissing⟩ := reaches_lookup hrests.tree hk d.nextDirPage
  rw [Mapping.answer]
  cases hlook : m.lookup k with
  | some l => exact exec_kept h (hfound l ((hbinds k l).2 hlook))
  | none => exact exec_kept h (hmissing fun l hl => by simpa [hlook] using (hbinds k l).1 hl)

/-- **`add_page` answers as the map does.** -/
theorem exec_addPage (h : d.Represents m) (hk : k < idBound) (hl : loc.Addressable) :
    (k ∈ m → ∃ d' e, Exec d (.addPage k loc) d' (.error e) ∧ e ≠ .outsideModel ∧
      SameContents d d' ∧ d'.Represents m) ∧
    (k ∉ m → ∃ d', Exec d (.addPage k loc) d' (.ok .unit) ∧ d'.Represents (m.insert k loc)) := by
  obtain ⟨hclean, F, hrests, hbinds⟩ := id h
  obtain ⟨hmem, hnot⟩ := binds_or (k := k) hbinds
  constructor
  · intro hmem'
    obtain ⟨l, hbound⟩ := hmem hmem'
    obtain ⟨d', r, hsteps, hclean', e, hne, hpage, hnext, hroot, rfl⟩ :=
      reaches_add_present hrests.tree hk hbound loc d.nextDirPage d rfl rfl rfl
    refine ⟨d', e, hsteps, hne, ⟨hpage, hnext, hroot⟩, hclean' hclean, F, ?_⟩
    rw [hpage, hnext, hroot]
    exact ⟨hrests, hbinds⟩
  · intro hmem'
    refine exec_settled hclean (hrests.add hk hl (hnot hmem')) fun k' l => ?_
    by_cases hk' : k' = k
    · subst hk'
      rw [Finmap.lookup_insert]
      simp [hnot hmem', eq_comm]
    · rw [Finmap.lookup_insert_of_ne m hk', hbinds]
      simp [hk']

/-- **`update_page` answers as the map does.** -/
theorem exec_updatePage (h : d.Represents m) (hk : k < idBound) (hl : loc.Addressable) :
    (k ∈ m → ∃ d', Exec d (.updatePage k loc) d' (.ok .unit) ∧ d'.Represents (m.insert k loc)) ∧
    (k ∉ m → ∃ d', Exec d (.updatePage k loc) d' (.error (.pageNotFound k)) ∧ SameContents d d' ∧
      d'.Represents m) := by
  obtain ⟨hclean, F, hrests, hbinds⟩ := id h
  obtain ⟨hpresent, habsent⟩ := hrests.update hk hl
  obtain ⟨hmem, hnot⟩ := binds_or (k := k) hbinds
  refine ⟨fun hk => exec_settled hclean (hpresent (hmem hk)) fun k' l => ?_,
    fun hk => exec_kept h (habsent (hnot hk))⟩
  by_cases hk' : k' = k
  · subst hk'
    rw [if_pos rfl, Finmap.lookup_insert]
    simp [eq_comm]
  · rw [if_neg hk', Finmap.lookup_insert_of_ne m hk', hbinds]

/-- **`delete_page` answers as the map does.** -/
theorem exec_deletePage (h : d.Represents m) (hk : k < idBound) :
    (k ∈ m → ∃ d', Exec d (.deletePage k) d' (.ok .unit) ∧ d'.Represents (m.erase k)) ∧
    (k ∉ m → ∃ d', Exec d (.deletePage k) d' (.error (.pageNotFound k)) ∧ SameContents d d' ∧
      d'.Represents m) := by
  obtain ⟨hclean, F, hrests, hbinds⟩ := id h
  obtain ⟨hpresent, habsent⟩ := hrests.delete hk
  obtain ⟨hmem, hnot⟩ := binds_or (k := k) hbinds
  refine ⟨fun hk => exec_settled hclean (hpresent (hmem hk)) fun k' l => ?_,
    fun hk => exec_kept h (habsent (hnot hk))⟩
  by_cases hk' : k' = k
  · subst hk'
    simp [Finmap.lookup_erase]
  · rw [Finmap.lookup_erase_ne hk', hbinds, and_iff_right hk']

/-- **A call that runs alone returns, and answers as the map does**; one that fails changes
nothing. -/
theorem exec (h : d.Represents m) (hop : op.Legal) :
    ∃ d' r, Exec d op d' r ∧ m.Answers op r ∧ d'.Represents (m.after op) ∧
      ∀ e, r = .error e → SameContents d d' := by
  cases op with
  | lookup k =>
    obtain ⟨d', hexec, hsame, hrep⟩ := h.exec_lookup hop
    exact ⟨d', _, hexec, rfl, hrep, fun _ _ => hsame⟩
  | addPage k loc =>
    obtain ⟨hpresent, habsent⟩ := h.exec_addPage hop.1 hop.2
    by_cases hk : k ∈ m
    · obtain ⟨d', e, hexec, hne, hsame, hrep⟩ := hpresent hk
      refine ⟨d', _, hexec, ?_, ?_, fun _ _ => hsame⟩
      · rw [Mapping.Answers, if_pos hk]
        exact ⟨e, hne, rfl⟩
      · rwa [Mapping.after, if_pos hk]
    · obtain ⟨d', hexec, hrep⟩ := habsent hk
      refine ⟨d', _, hexec, ?_, ?_, nofun⟩
      · rw [Mapping.Answers, if_neg hk]
      · rwa [Mapping.after, if_neg hk]
  | updatePage k loc =>
    obtain ⟨hpresent, habsent⟩ := h.exec_updatePage hop.1 hop.2
    by_cases hk : k ∈ m
    · obtain ⟨d', hexec, hrep⟩ := hpresent hk
      refine ⟨d', _, hexec, ?_, ?_, nofun⟩
      · rw [Mapping.Answers, if_pos hk]
      · rwa [Mapping.after, if_pos hk]
    · obtain ⟨d', hexec, hsame, hrep⟩ := habsent hk
      refine ⟨d', _, hexec, ?_, ?_, fun _ _ => hsame⟩
      · rw [Mapping.Answers, if_neg hk]
      · rwa [Mapping.after, if_neg hk]
  | deletePage k =>
    obtain ⟨hpresent, habsent⟩ := h.exec_deletePage hop
    by_cases hk : k ∈ m
    · obtain ⟨d', hexec, hrep⟩ := hpresent hk
      refine ⟨d', _, hexec, ?_, ?_, nofun⟩
      · rw [Mapping.Answers, if_pos hk]
      · rwa [Mapping.after, if_pos hk]
    · obtain ⟨d', hexec, hsame, hrep⟩ := habsent hk
      refine ⟨d', _, hexec, ?_, ?_, fun _ _ => hsame⟩
      · rw [Mapping.Answers, if_neg hk]
      · rwa [Mapping.after, if_neg hk]

/-- Every sequence of calls can be run. -/
theorem exists_trace (h : d.Represents m) (ops : List Op) (hops : ∀ op ∈ ops, op.Legal) :
    ∃ l d', Trace d l d' ∧ l.map Prod.fst = ops := by
  induction ops generalizing d m with
  | nil => exact ⟨[], d, .nil d, rfl⟩
  | cons op ops ih =>
    obtain ⟨d₁, r, hexec, -, h₁, -⟩ := h.exec (hops op List.mem_cons_self)
    obtain ⟨l, d', htrace, hl⟩ := ih h₁ fun op' h' => hops op' (List.mem_cons_of_mem _ h')
    exact ⟨(op, r) :: l, d', .cons hexec htrace, congrArg (op :: ·) hl⟩

/-- **Every run agrees with the map**, and represents the map at its end. -/
theorem trace (h : d.Represents m) (htrace : Trace d l d') (hops : ∀ x ∈ l, x.1.Legal) :
    m.Agrees l ∧ d'.Represents (l.foldl (fun m x => m.after x.1) m) := by
  induction htrace generalizing m with
  | nil d => exact ⟨trivial, h⟩
  | cons hexec _ ih =>
    obtain ⟨d₂, r₂, hexec₂, hans, h₂, -⟩ := h.exec (hops _ List.mem_cons_self)
    obtain ⟨rfl, rfl⟩ := hexec.unique hexec₂
    obtain ⟨hagrees, hrep⟩ := ih h₂ fun x hx => hops x (List.mem_cons_of_mem _ hx)
    exact ⟨⟨hans, hagrees⟩, hrep⟩

end Represents

end BTreePageDirectory

open BTreePageDirectory

/-- **The directory is a finite map.**  On a directory that starts empty every sequence of
calls returns, whatever it returns is what the map returns, and a call that fails changes
nothing. -/
theorem directory_correct (ops : List Op) (hops : ∀ op ∈ ops, op.Legal) :
    (∃ l d, Trace initNew l d ∧ l.map Prod.fst = ops) ∧
    (∀ l d, Trace initNew l d → l.map Prod.fst = ops → Mapping.Agrees ∅ l) ∧
    ∀ l d, Trace initNew l d → l.map Prod.fst = ops → ∀ op d' e, op.Legal →
      Exec d op d' (.error e) → SameContents d d' := by
  have hl : ∀ l : List (Op × Except Error Reply), l.map Prod.fst = ops → ∀ x ∈ l, x.1.Legal :=
    fun l hl x hx => hops x.1 (hl ▸ List.mem_map_of_mem hx)
  refine ⟨represents_initNew.exists_trace ops hops,
    fun l d htrace hmap => (represents_initNew.trace htrace (hl l hmap)).1, ?_⟩
  intro l d htrace hmap op d' e hop hexec
  obtain ⟨d₂, r₂, hexec₂, -, -, hsame⟩ :=
    (represents_initNew.trace htrace (hl l hmap)).2.exec hop
  obtain ⟨rfl, rfl⟩ := hexec.unique hexec₂
  exact hsame e rfl

/-- An add, a second one of the same page and a lookup are legal, and can be run. -/
theorem directory_correct_three : ∃ l d, Trace initNew l d ∧
    l.map Prod.fst = [.addPage 1 ⟨0, 4096⟩, .addPage 1 ⟨0, 8192⟩, .lookup 1] ∧
      Mapping.Agrees ∅ l := by
  obtain ⟨⟨l, d, htrace, hmap⟩, hagrees, -⟩ :=
    directory_correct [.addPage 1 ⟨0, 4096⟩, .addPage 1 ⟨0, 8192⟩, .lookup 1] (by
      simp only [List.mem_cons, List.not_mem_nil, or_false, forall_eq_or_imp, forall_eq, Op.Legal]
      decide)
  exact ⟨l, d, htrace, hmap, hagrees l d htrace hmap⟩

end Directory
end Abdb
