/-
# New pages across restarts

`new_page` of `src/storage/disk.rs` with the allocator of `src/storage/allocator/allocator.rs`
and the directory, as `TcpServer::new` of `src/server/tcp.rs` sets them up.  Logical ids come
from one counter and page numbers from one for each file; the counters are in memory, wrap at
`2 ^ 32` as `u32` arithmetic does in a release build, and every restart begins them anew, while
the directory comes back from its file.

New pages stay new exactly when they are all made in one run of the server
(`sound_iff_oneRun`): the first id after a restart is 0 again.
-/

import Abdb.Directory.Reopen

namespace Abdb

open Directory Directory.BTreePageDirectory

/-- `SimpleAllocator`: the next page number of each registered file. -/
structure SimpleAllocator where
  nextPage : FileId → Option UInt32

namespace SimpleAllocator

def new : SimpleAllocator := ⟨fun _ => none⟩

/-- `allocate`; a file that is not registered starts at page 1. -/
def allocate (a : SimpleAllocator) (fileId : FileId) : SimpleAllocator × PPageId :=
  let allocated := (a.nextPage fileId).getD 1
  (⟨Function.update a.nextPage fileId (some (allocated + 1))⟩,
    ⟨fileId, allocated.toNat * pageBufSize⟩)

end SimpleAllocator

/-- `DiskError`, as far as `new_page` can return it: the allocator has no errors. -/
inductive DiskError
  | directoryError (e : Directory.Error)

/-- The parts of `DiskManagerImpl` that `new_page` uses. -/
structure DiskManagerImpl where
  pageDirectory : BTreePageDirectory
  allocator : SimpleAllocator
  nextLpageId : UInt32

namespace DiskManagerImpl

/-- `new_page`: `alloc_lpage_id`, `allocate` and `add_page`. -/
def NewPage (s : DiskManagerImpl) (fileId : FileId) (s' : DiskManagerImpl)
    (r : Except DiskError (LPageId × PPageId)) : Prop :=
  let lpageId := s.nextLpageId.toNat
  let ppageId := (s.allocator.allocate fileId).2
  s'.allocator = (s.allocator.allocate fileId).1 ∧ s'.nextLpageId = s.nextLpageId + 1 ∧
    ∃ res, Exec s.pageDirectory (.addPage lpageId ppageId) s'.pageDirectory res ∧
      r = match res with
        | .ok _ => .ok (lpageId, ppageId)
        | .error e => .error (.directoryError e)

/-- What `TcpServer::new` sets up over an open directory: a new allocator, and 0 as the first
logical id. -/
def setUp (pageDirectory : BTreePageDirectory) : DiskManagerImpl := ⟨pageDirectory, .new, 0⟩

/-- The server stops with its directory flushed, and starts again. -/
def restart (s : DiskManagerImpl) : Except Directory.Error DiskManagerImpl :=
  s.pageDirectory.reopen.map setUp

end DiskManagerImpl

/-- What happens to a server. -/
inductive Event
  | newPage (fileId : FileId)
  | restart
deriving DecidableEq, Repr

namespace DiskManagerImpl

/-- No two logical ids have one location. -/
def OneToOne (d : BTreePageDirectory) : Prop :=
  ∀ k k' l, k < idBound → k' < idBound → Answer d k (.ok (.found l)) →
    Answer d k' (.ok (.found l)) → k = k'

/-- **New pages are new**: throughout the history, every `new_page` returns an id that the
directory does not have, and no two ids have one location. -/
def Sound : DiskManagerImpl → List Event → Prop
  | s, [] => OneToOne s.pageDirectory
  | s, .newPage fileId :: h => OneToOne s.pageDirectory ∧
    ∃ s' id loc, s.NewPage fileId s' (.ok (id, loc)) ∧
      (∀ l, ¬ Answer s.pageDirectory id (.ok (.found l))) ∧ Sound s' h
  | s, .restart :: h => OneToOne s.pageDirectory ∧ ∃ s', s.restart = .ok s' ∧ Sound s' h

/-- All new pages are made between two restarts, and there are at most `2 ^ 32` of them. -/
def OneRun (h : List Event) : Prop :=
  ∃ (a : ℕ) (fs : List FileId) (b : ℕ),
    h = List.replicate a .restart ++ fs.map .newPage ++ List.replicate b .restart ∧
      fs.length ≤ 2 ^ 32

/-! ### Directories that come back -/

/-- The pages hold a tree with the bindings of a map, and the header its root; the counter
may be behind. -/
structure Holding (d : BTreePageDirectory) (m : Mapping) : Prop where
  clean : d.Clean
  header : ∃ c, d.page 0 = some (.header ⟨c, d.rootPage⟩)
  tree : ∃ F, Tree F (fun _ => False) d.page d.rootPage ∧
    ∀ k l, Binds F d.page k l ↔ m.lookup k = some l

variable {d d' : BTreePageDirectory} {m : Mapping} {k : LPageId} {l : PPageId}
  {s s' : DiskManagerImpl} {f : FileId} {r : Except DiskError (LPageId × PPageId)} {n : ℕ}
  {c : FileId → ℕ} {h : List Event}

theorem Holding.of_represents (h : d.Represents m) : Holding d m := by
  obtain ⟨hclean, F, hrests, hbinds⟩ := h
  obtain ⟨c, -, hc⟩ := hrests.header
  exact ⟨hclean, ⟨c, hc⟩, F, hrests.tree, hbinds⟩

/-- **What a directory holds survives being opened again**, current header or not. -/
theorem Holding.reopen (h : Holding d m) : ∃ d₁, d.reopen = .ok d₁ ∧ Holding d₁ m := by
  obtain ⟨c, hc⟩ := h.header
  obtain ⟨F, tree, hbinds⟩ := h.tree
  obtain ⟨d₁, hopen, hclean, hpage, hroot, -⟩ := reopen_eq h.clean hc
  refine ⟨d₁, hopen, hclean, ⟨c, ?_⟩, F, ?_, ?_⟩
  · rw [hpage, hc, hroot]
  · rwa [hpage, hroot]
  · rwa [hpage]

theorem Holding.answer_iff (h : Holding d m) (hk : k < idBound) :
    Answer d k (.ok (.found l)) ↔ m.lookup k = some l := by
  obtain ⟨F, tree, hbinds⟩ := h.tree
  exact (answer_found_iff tree hk).trans (hbinds k l)

/-- An id that the directory has is refused. -/
theorem Holding.refuses (h : Holding d m) (hk : k < idBound) (hmem : k ∈ m)
    {res : Except Directory.Error Reply} (hexec : Exec d (.addPage k l) d' res) :
    ∃ e, res = .error e := by
  obtain ⟨F, tree, hbinds⟩ := h.tree
  obtain ⟨loc, hloc⟩ := Finmap.mem_iff.1 hmem
  obtain ⟨d₂, r, hsteps, -, e, -, -, -, -, rfl⟩ :=
    reaches_add_present tree hk ((hbinds k loc).2 hloc) l d.nextDirPage d rfl rfl rfl
  exact ⟨e, (hexec.unique hsteps).2⟩

theorem Holding.oneToOne (h : Holding d m)
    (hm : ∀ k k' l, m.lookup k = some l → m.lookup k' = some l → k = k') : OneToOne d := by
  intro k k' l hk hk' hl hl'
  exact hm k k' l ((h.answer_iff hk).1 hl) ((h.answer_iff hk').1 hl')

/-! ### One run of the server -/

/-- After `n` new pages in the first run, `c f` of them in file `f`. -/
structure Serving (n : ℕ) (c : FileId → ℕ) (m : Mapping) (s : DiskManagerImpl) : Prop where
  represents : s.pageDirectory.Represents m
  next : s.nextLpageId = UInt32.ofNat n
  bound : n ≤ 2 ^ 32
  ids : ∀ k, k ∈ m ↔ k < n
  pages : ∀ f, (s.allocator.nextPage f).getD 1 = UInt32.ofNat (1 + c f)
  count : ∀ f, c f ≤ n
  places : ∀ k l, m.lookup k = some l →
    ∃ j < c l.file, l.offset = (UInt32.ofNat (1 + j)).toNat * pageBufSize
  inj : ∀ k k' l, m.lookup k = some l → m.lookup k' = some l → k = k'

theorem serving_setUp : Serving 0 (fun _ => 0) ∅ (setUp initNew) where
  represents := represents_initNew
  next := rfl
  bound := Nat.zero_le _
  ids k := iff_of_false Finmap.notMem_empty (Nat.not_lt_zero k)
  pages _ := rfl
  count _ := le_rfl
  places _ _ h := nomatch h
  inj _ _ _ h := nomatch h

/-- **A new page** gets an id and a location that the directory does not have. -/
theorem Serving.newPage (h : Serving n c m s) (hn : n < 2 ^ 32) (f : FileId) :
    ∃ s' loc, s.NewPage f s' (.ok (n, loc)) ∧
      Serving (n + 1) (Function.update c f (c f + 1)) (m.insert n loc) s' := by
  have hid : s.nextLpageId.toNat = n := by
    rw [h.next, UInt32.toNat_ofNat_of_lt' hn]
  have hpage : (s.allocator.nextPage f).getD 1 = UInt32.ofNat (1 + c f) := h.pages f
  obtain ⟨loc, hloc⟩ : ∃ loc, loc = (s.allocator.allocate f).2 := ⟨_, rfl⟩
  have hfile : loc.file = f := by rw [hloc]; rfl
  have hoff : loc.offset = (UInt32.ofNat (1 + c f)).toNat * pageBufSize := by
    rw [hloc, ← hpage]
    rfl
  have hlegal : loc.Addressable := by
    rw [PPageId.Addressable, hoff, Nat.mul_mod_left, Nat.mul_div_cancel _ (by decide)]
    exact ⟨rfl, UInt32.toNat_lt _⟩
  have hnot : n ∉ m := fun hmem => (lt_irrefl n) ((h.ids n).1 hmem)
  obtain ⟨d', hexec, hrep⟩ := (h.represents.exec_addPage hn hlegal).2 hnot
  have hnew : ∀ k l, m.lookup k = some l → l ≠ loc := by
    rintro k l hk rfl
    obtain ⟨j, hj, hjo⟩ := h.places k l hk
    rw [hfile] at hj
    have hle := h.count f
    rw [hoff] at hjo
    have := Nat.eq_of_mul_eq_mul_right (by decide) hjo
    rw [UInt32.toNat_ofNat', UInt32.toNat_ofNat'] at this
    omega
  refine ⟨⟨d', (s.allocator.allocate f).1, s.nextLpageId + 1⟩, loc, ⟨rfl, rfl, .ok .unit, ?_, ?_⟩, ?_⟩
  · rw [hid, ← hloc]
    exact hexec
  · rw [hid, ← hloc]
  refine ⟨hrep, ?_, hn, fun k => ?_, fun g => ?_, fun g => ?_, fun k l hk => ?_, fun k k' l hk hk' => ?_⟩
  · show s.nextLpageId + 1 = _
    rw [h.next]
    exact (UInt32.ofNat_add n 1).symm
  · rw [Finmap.mem_insert, h.ids k, or_comm]
    exact Nat.lt_succ_iff_lt_or_eq.symm
  · by_cases hg : g = f
    · subst hg
      simp only [SimpleAllocator.allocate, Function.update_self, Option.getD_some, hpage]
      rw [← Nat.add_assoc]
      exact (UInt32.ofNat_add (1 + c g) 1).symm
    · simp only [SimpleAllocator.allocate, Function.update_of_ne hg]
      exact h.pages g
  · by_cases hg : g = f
    · subst hg
      rw [Function.update_self]
      exact Nat.succ_le_succ (h.count g)
    · rw [Function.update_of_ne hg]
      exact (h.count g).trans (Nat.le_succ n)
  · by_cases hkn : k = n
    · subst hkn
      rw [Finmap.lookup_insert, Option.some.injEq] at hk
      subst hk
      rw [hfile, Function.update_self]
      exact ⟨c f, Nat.lt_succ_self _, hoff⟩
    · rw [Finmap.lookup_insert_of_ne m hkn] at hk
      obtain ⟨j, hj, hjo⟩ := h.places k l hk
      refine ⟨j, ?_, hjo⟩
      by_cases hlf : l.file = f
      · rw [hlf] at hj ⊢
        rw [Function.update_self]
        exact Nat.lt_succ_of_lt hj
      · rwa [Function.update_of_ne hlf]
  · by_cases hkn : k = n <;> by_cases hkn' : k' = n
    · rw [hkn, hkn']
    · rw [hkn, Finmap.lookup_insert, Option.some.injEq] at hk
      rw [Finmap.lookup_insert_of_ne m hkn'] at hk'
      exact absurd hk.symm (hnew k' l hk')
    · rw [hkn', Finmap.lookup_insert, Option.some.injEq] at hk'
      rw [Finmap.lookup_insert_of_ne m hkn] at hk
      exact absurd hk'.symm (hnew k l hk)
    · rw [Finmap.lookup_insert_of_ne m hkn] at hk
      rw [Finmap.lookup_insert_of_ne m hkn'] at hk'
      exact h.inj k k' l hk hk'

theorem NewPage.unique {s₁ s₂ : DiskManagerImpl} {r₁ r₂ : Except DiskError (LPageId × PPageId)}
    (h₁ : s.NewPage f s₁ r₁) (h₂ : s.NewPage f s₂ r₂) : s₁ = s₂ ∧ r₁ = r₂ := by
  obtain ⟨ha₁, hn₁, res₁, hexec₁, rfl⟩ := h₁
  obtain ⟨ha₂, hn₂, res₂, hexec₂, rfl⟩ := h₂
  obtain ⟨hd, rfl⟩ := hexec₁.unique hexec₂
  cases s₁
  cases s₂
  simp only at ha₁ ha₂ hn₁ hn₂ hd
  subst ha₁ hn₁ ha₂ hn₂ hd
  exact ⟨rfl, rfl⟩

theorem Serving.holding (h : Serving n c m s) : Holding s.pageDirectory m :=
  .of_represents h.represents

theorem Serving.oneToOne (h : Serving n c m s) : OneToOne s.pageDirectory :=
  h.holding.oneToOne h.inj

/-- An id that the directory has makes `new_page` fail. -/
theorem NewPage.not_ok {d : BTreePageDirectory} (hold : Holding d m) (hd : s.pageDirectory = d)
    (hmem : s.nextLpageId.toNat ∈ m) {id : LPageId} {loc : PPageId} :
    ¬ s.NewPage f s' (.ok (id, loc)) := by
  rintro ⟨-, -, res, hexec, hr⟩
  obtain ⟨e, rfl⟩ := hold.refuses (UInt32.toNat_lt _) hmem (hd ▸ hexec)
  cases hr

/-! ### After a restart -/

/-- The directory has the first id that the counter gives out. -/
structure Stale (m : Mapping) (s : DiskManagerImpl) : Prop where
  holding : Holding s.pageDirectory m
  next : s.nextLpageId = 0
  taken : 0 ∈ m
  inj : ∀ k k' l, m.lookup k = some l → m.lookup k' = some l → k = k'

theorem Stale.of_restart (hold : Holding s.pageDirectory m) (h0 : 0 ∈ m)
    (hinj : ∀ k k' l, m.lookup k = some l → m.lookup k' = some l → k = k') :
    ∃ s', s.restart = .ok s' ∧ Stale m s' := by
  obtain ⟨d, hopen, hold'⟩ := hold.reopen
  exact ⟨setUp d, by rw [restart, hopen]; rfl, hold', rfl, h0, hinj⟩

/-- A server that starts on a directory with pages makes no new one. -/
theorem Stale.sound_iff (hs : Stale m s) : Sound s h ↔ ∀ e ∈ h, e = .restart := by
  induction h generalizing s with
  | nil =>
    exact iff_of_true (hs.holding.oneToOne hs.inj) (List.forall_mem_nil _)
  | cons e h ih =>
    rw [List.forall_mem_cons]
    cases e with
    | newPage f =>
      refine iff_of_false ?_ (by simp)
      rintro ⟨-, s', id, loc, hnew, -⟩
      refine NewPage.not_ok hs.holding rfl ?_ hnew
      rw [hs.next]
      exact hs.taken
    | restart =>
      obtain ⟨s', hrestart, hs'⟩ := Stale.of_restart hs.holding hs.taken hs.inj
      rw [and_iff_right rfl, ← ih hs']
      constructor
      · rintro ⟨-, s₂, h₂, hsound⟩
        rw [hrestart] at h₂
        cases h₂
        exact hsound
      · exact fun hsound => ⟨hs.holding.oneToOne hs.inj, s', hrestart, hsound⟩

/-- New pages, at most as many as the counter has left, and then restarts. -/
def Finishes (n : ℕ) (h : List Event) : Prop :=
  ∃ (fs : List FileId) (b : ℕ),
    h = fs.map .newPage ++ List.replicate b .restart ∧ n + fs.length ≤ 2 ^ 32

theorem finishes_nil (hn : n ≤ 2 ^ 32) : Finishes n [] := ⟨[], 0, rfl, hn⟩

theorem finishes_newPage : Finishes n (.newPage f :: h) ↔ Finishes (n + 1) h := by
  constructor
  · rintro ⟨fs, b, hh, hlen⟩
    cases fs with
    | nil =>
      have hmem : Event.newPage f ∈ List.replicate b .restart := by
        rw [List.map_nil, List.nil_append] at hh
        rw [← hh]
        exact List.mem_cons_self
      cases List.eq_of_mem_replicate hmem
    | cons g fs =>
      rw [List.map_cons, List.cons_append, List.cons.injEq] at hh
      rw [List.length_cons] at hlen
      exact ⟨fs, b, hh.2, by omega⟩
  · rintro ⟨fs, b, rfl, hlen⟩
    exact ⟨f :: fs, b, rfl, by rw [List.length_cons]; omega⟩

theorem finishes_restart (hn : n ≤ 2 ^ 32) :
    Finishes n (.restart :: h) ↔ ∀ e ∈ h, e = .restart := by
  constructor
  · rintro ⟨fs, b, hh, -⟩
    cases fs with
    | nil =>
      intro e he
      rw [List.map_nil, List.nil_append] at hh
      exact List.eq_of_mem_replicate (hh ▸ List.mem_cons_of_mem _ he)
    | cons g fs => cases hh
  · intro hall
    exact ⟨[], h.length + 1, congrArg _ (List.eq_replicate_iff.2 ⟨rfl, hall⟩), hn⟩

/-- Once the server has made pages, new pages stay new until it stops, as long as the counter
does not come back to 0. -/
theorem Serving.sound_iff (hs : Serving n c m s) (hn : 0 < n) : Sound s h ↔ Finishes n h := by
  induction h generalizing n c m s with
  | nil => exact iff_of_true hs.oneToOne (finishes_nil hs.bound)
  | cons e h ih =>
    cases e with
    | newPage f =>
      rw [finishes_newPage]
      rcases hs.bound.lt_or_eq with hlt | rfl
      · obtain ⟨s', loc, hnew, hs'⟩ := hs.newPage hlt f
        rw [← ih hs' (Nat.succ_pos n)]
        constructor
        · rintro ⟨-, s₂, id, loc₂, hnew₂, -, hsound⟩
          obtain ⟨rfl, -⟩ := hnew.unique hnew₂
          exact hsound
        · refine fun hsound => ⟨hs.oneToOne, s', n, loc, hnew, fun l hl => ?_, hsound⟩
          exact lt_irrefl n ((hs.ids n).1 (Finmap.mem_of_lookup_eq_some
            ((hs.holding.answer_iff hlt).1 hl)))
      · refine iff_of_false ?_ fun ⟨fs, b, _, hlen⟩ => by omega
        rintro ⟨-, s', id, loc, hnew, -⟩
        refine NewPage.not_ok hs.holding rfl ?_ hnew
        rw [hs.next]
        exact (hs.ids 0).2 hn
    | restart =>
      obtain ⟨s', hrestart, hs'⟩ := Stale.of_restart hs.holding ((hs.ids 0).2 hn) hs.inj
      rw [finishes_restart hs.bound, ← hs'.sound_iff]
      constructor
      · rintro ⟨-, s₂, h₂, hsound⟩
        rw [hrestart] at h₂
        cases h₂
        exact hsound
      · exact fun hsound => ⟨hs.oneToOne, s', hrestart, hsound⟩

theorem oneRun_newPage : OneRun (.newPage f :: h) ↔ Finishes 1 h := by
  rw [← finishes_newPage (f := f)]
  constructor
  · rintro ⟨a, fs, b, hh, hlen⟩
    cases a with
    | zero => exact ⟨fs, b, hh, by omega⟩
    | succ a => cases hh
  · rintro ⟨fs, b, hh, hlen⟩
    exact ⟨0, fs, b, hh, by omega⟩

theorem oneRun_restart : OneRun (.restart :: h) ↔ OneRun h := by
  constructor
  · rintro ⟨a, fs, b, hh, hlen⟩
    cases a with
    | zero =>
      have hall := (finishes_restart (Nat.zero_le _)).1 ⟨fs, b, hh, by omega⟩
      exact ⟨h.length, [], 0, by simpa using List.eq_replicate_iff.2 ⟨rfl, hall⟩, Nat.zero_le _⟩
    | succ a => exact ⟨a, fs, b, (List.cons.inj hh).2, hlen⟩
  · rintro ⟨a, fs, b, rfl, hlen⟩
    exact ⟨a + 1, fs, b, rfl, hlen⟩

/-- A new directory comes back as it was. -/
theorem restart_setUp : (setUp initNew).restart = .ok (setUp initNew) := by
  have hfile : initNew.flushAllDirty.file = initNew.file := by
    rw [flushAllDirty_file represents_initNew.1]
    rfl
  rw [restart, setUp, reopen, loadHeader, hfile]
  rfl

/-- **New pages are new exactly in one run of the server**, of at most `2 ^ 32` pages. -/
theorem sound_iff_oneRun (h : List Event) : Sound (setUp initNew) h ↔ OneRun h := by
  have hone := serving_setUp.oneToOne
  induction h with
  | nil => exact iff_of_true hone ⟨0, [], 0, rfl, Nat.zero_le _⟩
  | cons e h ih =>
    cases e with
    | newPage f =>
      obtain ⟨s', loc, hnew, hs'⟩ := serving_setUp.newPage (by decide) f
      rw [oneRun_newPage, ← hs'.sound_iff Nat.one_pos]
      constructor
      · rintro ⟨-, s₂, id, loc₂, hnew₂, -, hsound⟩
        obtain ⟨rfl, -⟩ := hnew.unique hnew₂
        exact hsound
      · refine fun hsound => ⟨hone, s', 0, loc, hnew, fun l hl => ?_, hsound⟩
        have := (serving_setUp.holding.answer_iff (by decide)).1 hl
        cases this
    | restart =>
      refine Iff.trans ?_ (ih.trans oneRun_restart.symm)
      constructor
      · rintro ⟨-, s₂, h₂, hsound⟩
        rw [restart_setUp] at h₂
        cases h₂
        exact hsound
      · exact fun hsound => ⟨hone, _, restart_setUp, hsound⟩

/-- **A new page fails after a restart**: its id is that of the page made before. -/
theorem newPage_after_restart : ¬ Sound (setUp initNew) [.newPage 0, .restart, .newPage 0] := by
  rintro ⟨-, s₁, id, loc, hnew, -, -, s₂, hrestart, hsound⟩
  obtain ⟨s₁', loc', hnew', hs⟩ := serving_setUp.newPage (by decide) 0
  obtain ⟨rfl, -⟩ := hnew.unique hnew'
  obtain ⟨s₂', hrestart', hs₂⟩ := Stale.of_restart hs.holding ((hs.ids 0).2 Nat.one_pos) hs.inj
  rw [hrestart] at hrestart'
  cases hrestart'
  exact nomatch (hs₂.sound_iff.1 hsound) _ List.mem_cons_self

end DiskManagerImpl
end Abdb
