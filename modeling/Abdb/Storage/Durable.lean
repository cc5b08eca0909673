/-
# The disk manager is a disk

What the buffer pool takes for its disk, a map of ids to locations and the bytes of each location, the disk
manager keeps in its directory and its files.  Over any run, with restarts in it, every page reads as it was
written last, by its id or by its location, and new pages get ids and locations of their own
(`diskFiles_correct`).

New pages are made before the first restart only, for the reason in `Abdb.Directory.NewPage`, and every start
registers the files with the types they had: the type is part of a file's name.
-/

import Abdb.Storage.Files

namespace Abdb

open Buffer Directory Directory.BTreePageDirectory DiskManagerImpl Lib

/-- The call returns the bytes of a location.  A location that was never written reads as zeros if the file
goes on behind it, and not at all if not. -/
def Reads (page : Option PageData) (reply : PageData → DiskReply) (r : DiskResult) : Prop :=
  match page with
  | some buffer => r = .ok (reply buffer)
  | none => r = .error .unexpectedEof ∨ r = .ok (reply (.replicate pageBufSize 0))

namespace DiskCall

/-- Ids are 32-bit numbers, and locations are of whole pages. -/
def Legal : DiskCall → Prop
  | .readPage id | .writePage id _ => id < idBound
  | .readPageAtLoc loc | .writePageAtLoc loc _ => pageBufSize ∣ loc.offset
  | .newPage _ | .restart _ => True

/-- Legal calls, with so many new pages and none after a restart, and with restarts that give every file
the type it had. -/
def Lawful (types : FileId → Option FileType) : ℕ → List DiskCall → Prop
  | _, [] => True
  | 0, .newPage _ :: _ => False
  | n + 1, .newPage _ :: calls => Lawful types n calls
  | _, .restart types' :: calls => (∀ f, (types' f).getD .heap = (types f).getD .heap) ∧ Lawful types 0 calls
  | n, c :: calls => c.Legal ∧ Lawful types n calls

end DiskCall

namespace Buffer.Disk

/-- What a disk answers. -/
def Answers (d : Disk PageData) : DiskCall → DiskResult → Prop
  | .newPage f, r => ∃ id loc, r = .ok (.created id loc) ∧ loc.file = f ∧ d.pageDirectory id = none ∧
      ∀ k, d.pageDirectory k ≠ some loc
  | .readPage id, r =>
    match d.pageDirectory id with
    | some loc => Reads (d.page loc) (.page loc) r
    | none => r = .error (.disk (.directoryError (.pageNotFound id)))
  | .writePage id _, r =>
    match d.pageDirectory id with
    | some _ => r = .ok .unit
    | none => r = .error (.disk (.directoryError (.pageNotFound id)))
  | .readPageAtLoc loc, r => Reads (d.page loc) .buffer r
  | .writePageAtLoc _ _, r => r = .ok .unit
  | .restart _, r => r = .ok .unit

/-- The disk after a call. -/
def after (d : Disk PageData) : DiskCall → DiskResult → Disk PageData
  | .newPage _, .ok (.created id loc) => { d with pageDirectory := Function.update d.pageDirectory id (some loc) }
  | .writePage id buffer, _ =>
    match d.pageDirectory id with
    | some loc => d.writePageAtLoc loc buffer
    | none => d
  | .writePageAtLoc loc buffer, _ => d.writePageAtLoc loc buffer
  | _, _ => d

/-- Every result is an answer of the disk that the calls before left. -/
def Agrees : Disk PageData → List (DiskCall × DiskResult) → Prop
  | _, [] => True
  | d, (c, r) :: l => d.Answers c r ∧ Agrees (d.after c r) l

end Buffer.Disk

namespace DiskFiles

variable {s s' s₁ s₂ : DiskFiles} {types : FileId → Option FileType} {d : Disk PageData} {m : Mapping}
  {loc : PPageId} {id : LPageId} {buffer : PageData} {c : DiskCall} {r r₁ r₂ : DiskResult} {f : FileId} {budget : ℕ}

/-- The name of a file that is registered so. -/
def pathOf (types : FileId → Option FileType) (f : FileId) : String := filePath f ((types f).getD .heap)

/-- What a file has at an offset: a page, or nothing. -/
def Stores (bytes : List UInt8) (offset : ℕ) : Option PageData → Prop
  | some buffer => Holds bytes offset buffer.toList
  | none => Blank 0 bytes offset pageBufSize

/-- **The files hold a disk**, whichever of them are open. -/
structure Keeps (types : FileId → Option FileType) (d : Disk PageData) (m : Mapping) (s : DiskFiles) : Prop where
  holding : Holding s.pageDirectory m
  mapping : ∀ k, d.pageDirectory k = m.lookup k
  aligned : ∀ k loc, m.lookup k = some loc → pageBufSize ∣ loc.offset
  registered : ∀ f, (s.fileTypes f).getD .heap = (types f).getD .heap
  handles : ∀ f path, s.fileHandles f = some path → path = pathOf types f
  pages : ∀ loc : PPageId, pageBufSize ∣ loc.offset →
    Stores ((s.files (pathOf types loc.file)).getD []) loc.offset (d.page loc)

/-- So many new pages may still be made. -/
def Budget (budget : ℕ) (m : Mapping) (s : DiskFiles) : Prop :=
  0 < budget → ∃ n c, Serving n c m s.toDiskManagerImpl ∧ n + budget ≤ 2 ^ 32

/-! ### One file -/

/-- A file is opened under its name, and nothing is read or written. -/
theorem Keeps.getFile (h : Keeps types d m s) (f : FileId) : (s.getFile f).2 = pathOf types f ∧
    Keeps types d m (s.getFile f).1 ∧ (s.getFile f).1.toDiskManagerImpl = s.toDiskManagerImpl := by
  rw [DiskFiles.getFile]
  cases hopen : s.fileHandles f with
  | some path => exact ⟨h.handles f path hopen, h, rfl⟩
  | none =>
    have hpath : filePath f ((s.fileTypes f).getD .heap) = pathOf types f := by
      rw [h.registered, pathOf]
    refine ⟨hpath, ⟨h.holding, h.mapping, h.aligned, h.registered, fun g path hg => ?_, fun loc hloc => ?_⟩, rfl⟩
    · dsimp only at hg
      by_cases hgf : g = f
      · subst hgf
        rw [Function.update_self] at hg
        rw [← Option.some.inj hg, hpath]
      · rw [Function.update_of_ne hgf] at hg
        exact h.handles g path hg
    · have hsame : ∀ path, ((Function.update s.files (filePath f ((s.fileTypes f).getD .heap))
          (some ((s.files (filePath f ((s.fileTypes f).getD .heap))).getD [])) path).getD []) =
            (s.files path).getD [] := by
        intro path
        rw [Function.update_apply]
        split
        · rename_i hpath
          rw [hpath, Option.getD_some]
        · rfl
      rw [hsame]
      exact h.pages loc hloc

/-- **Reading a location.** -/
theorem Keeps.readPageAtLoc (h : Keeps types d m s) (hloc : pageBufSize ∣ loc.offset) (reply : PageData → DiskReply) :
    Keeps types d m (s.readPageAtLoc loc).1 ∧
      (s.readPageAtLoc loc).1.toDiskManagerImpl = s.toDiskManagerImpl ∧
      Reads (d.page loc) reply ((s.readPageAtLoc loc).2.map reply) := by
  obtain ⟨hpath, hkeeps, himpl⟩ := h.getFile loc.file
  have hpage := hkeeps.pages loc hloc
  rw [DiskFiles.readPageAtLoc]
  rcases hfile : s.getFile loc.file with ⟨s', path⟩
  rw [hfile] at hpath hkeeps himpl hpage
  dsimp only at hpath hpage
  subst hpath
  cases hbuffer : d.page loc with
  | some buffer =>
    rw [hbuffer] at hpage
    dsimp only
    rw [Holds.readExactAt hpage (by decide)]
    exact ⟨hkeeps, himpl, rfl⟩
  | none =>
    rw [hbuffer] at hpage
    dsimp only
    rcases Blank.readExactAt hpage with hread | hread <;> rw [hread]
    · exact ⟨hkeeps, himpl, .inl rfl⟩
    · exact ⟨hkeeps, himpl, .inr rfl⟩

/-- Two pages of a file are apart. -/
theorem apart_of_aligned {o o' : ℕ} (ho : pageBufSize ∣ o) (ho' : pageBufSize ∣ o') (hne : o ≠ o') :
    Apart o' pageBufSize o pageBufSize := by
  obtain ⟨i, rfl⟩ := ho
  obtain ⟨j, rfl⟩ := ho'
  simp only [Apart, pageBufSize] at hne ⊢
  omega

/-- **Writing a location** changes one page of the disk. -/
theorem Keeps.writePageAtLoc (h : Keeps types d m s) (hloc : pageBufSize ∣ loc.offset) (buffer : PageData) :
    Keeps types (d.writePageAtLoc loc buffer) m (s.writePageAtLoc loc buffer) ∧
      (s.writePageAtLoc loc buffer).toDiskManagerImpl = s.toDiskManagerImpl := by
  obtain ⟨hpath, hkeeps, himpl⟩ := h.getFile loc.file
  rw [DiskFiles.writePageAtLoc]
  rcases hfile : s.getFile loc.file with ⟨s', path⟩
  rw [hfile] at hpath hkeeps himpl
  dsimp only at hpath
  subst hpath
  refine ⟨⟨hkeeps.holding, hkeeps.mapping, hkeeps.aligned, hkeeps.registered, hkeeps.handles, fun p hp => ?_⟩, himpl⟩
  have hpage := hkeeps.pages p hp
  by_cases hne : p = loc
  · subst hne
    simp only [Disk.writePageAtLoc, Function.update_self, Option.getD_some]
    exact Holds.writeAllAt_self
  dsimp only [Disk.writePageAtLoc]
  rw [Function.update_of_ne hne]
  by_cases hsame : p.file = loc.file
  · have hoffset : loc.offset ≠ p.offset := fun heq => hne (by cases p; cases loc; simp_all)
    have hapart := apart_of_aligned hloc hp hoffset
    rw [hsame] at hpage ⊢
    rw [Function.update_self, Option.getD_some]
    cases hbuffer : d.page p with
    | some b =>
      rw [hbuffer] at hpage
      exact Holds.writeAllAt hpage (by rwa [b.toList_length, buffer.toList_length])
    | none =>
      rw [hbuffer] at hpage
      exact Blank.writeAllAt hpage (by rwa [buffer.toList_length])
  · have hpath : pathOf types p.file ≠ pathOf types loc.file := fun heq => hsame (filePath_injective heq)
    rw [Function.update_of_ne hpath]
    exact hpage

/-! ### The directory -/

theorem Lookup.unique {r₁ r₂ : Except Directory.Error PPageId} (h₁ : s.Lookup id s₁ r₁) (h₂ : s.Lookup id s₂ r₂) :
    s₁ = s₂ ∧ r₁ = r₂ := by
  obtain ⟨d₁, res₁, hexec₁, rfl, hr₁⟩ := h₁
  obtain ⟨d₂, res₂, hexec₂, rfl, hr₂⟩ := h₂
  obtain ⟨rfl, rfl⟩ := hexec₁.unique hexec₂
  refine ⟨rfl, ?_⟩
  cases res₁ with
  | error e => exact hr₁.trans hr₂.symm
  | ok reply =>
    cases reply with
    | found loc => exact hr₁.trans hr₂.symm
    | unit => exact hr₁.elim

/-- What `lookup` returns. -/
def located (m : Mapping) (id : LPageId) : Except Directory.Error PPageId :=
  match m.lookup id with
  | some loc => .ok loc
  | none => .error (.pageNotFound id)

/-- **A lookup** answers with the map, and only caches pages of the directory. -/
theorem Keeps.lookup (h : Keeps types d m s) (hid : id < idBound) : ∃ s', s.Lookup id s' (located m id) ∧
    Keeps types d m s' ∧ ∀ b, Budget b m s → Budget b m s' := by
  obtain ⟨F, tree, hbinds⟩ := h.holding.tree
  obtain ⟨hfound, hmissing⟩ := reaches_lookup tree hid s.pageDirectory.nextDirPage
  have hkept : ∀ {res}, Reaches s.pageDirectory.page s.pageDirectory.nextDirPage s.pageDirectory.rootPage
      (.start (.lookup id)) (Kept res s.pageDirectory.page s.pageDirectory.nextDirPage s.pageDirectory.rootPage) →
        ∃ d₁, Directory.Exec s.pageDirectory (.lookup id) d₁ res ∧ Keeps types d m { s with pageDirectory := d₁ } ∧
          ∀ b, Budget b m s → Budget b m { s with pageDirectory := d₁ } := by
    intro res hreach
    obtain ⟨d₁, res₁, hexec, hclean, hpage, hnext, hroot, rfl⟩ := hreach s.pageDirectory rfl rfl rfl
    refine ⟨d₁, hexec, ⟨⟨hclean h.holding.clean, ?_, F, ?_, ?_⟩, h.mapping, h.aligned, h.registered, h.handles,
      h.pages⟩, fun b hb hpos => ?_⟩
    · rw [hpage, hroot]
      exact h.holding.header
    · rwa [hpage, hroot]
    · rwa [hpage]
    · obtain ⟨n, c, hserving, hn⟩ := hb hpos
      obtain ⟨hclean', F', hrests, hbinds'⟩ := hserving.represents
      refine ⟨n, c, ⟨⟨hclean hclean', F', ?_, ?_⟩, hserving.next, hserving.bound, hserving.ids, hserving.pages,
        hserving.count, hserving.places, hserving.inj⟩, hn⟩
      · rwa [hpage, hnext, hroot]
      · rwa [hpage]
  rw [located]
  cases hlook : m.lookup id with
  | some loc =>
    obtain ⟨d₁, hexec, hkeeps⟩ := hkept (hfound loc ((hbinds id loc).2 hlook))
    exact ⟨_, ⟨d₁, _, hexec, rfl, rfl⟩, hkeeps⟩
  | none =>
    obtain ⟨d₁, hexec, hkeeps⟩ := hkept (hmissing fun loc hl => by simpa [hlook] using (hbinds id loc).1 hl)
    exact ⟨_, ⟨d₁, _, hexec, rfl, rfl⟩, hkeeps⟩

/-- **A new page** has an id and a location that the disk does not have. -/
theorem Keeps.newPage (h : Keeps types d m s) (hbudget : Budget (budget + 1) m s) (f : FileId) :
    ∃ impl id loc, s.NewPage f impl (.ok (id, loc)) ∧ loc.file = f ∧ d.pageDirectory id = none ∧
      (∀ k, d.pageDirectory k ≠ some loc) ∧
      Keeps types { d with pageDirectory := Function.update d.pageDirectory id (some loc) } (m.insert id loc)
        { s with toDiskManagerImpl := impl } ∧ Budget budget (m.insert id loc) { s with toDiskManagerImpl := impl } := by
  obtain ⟨n, c, hserving, hn⟩ := hbudget (Nat.succ_pos budget)
  obtain ⟨impl, loc, hnew, hserving'⟩ := hserving.newPage (by omega) f
  have hfile : loc.file = f := by
    obtain ⟨-, -, res, -, hres⟩ := hnew
    cases res with
    | error e => cases hres
    | ok reply =>
      obtain ⟨-, rfl⟩ := Prod.mk.inj (Except.ok.inj hres)
      rfl
  have habsent : n ∉ m := fun hmem => lt_irrefl n ((hserving.ids n).1 hmem)
  have hmapping : ∀ k, Function.update d.pageDirectory n (some loc) k = (m.insert n loc).lookup k := by
    intro k
    by_cases hk : k = n
    · subst hk
      rw [Function.update_self, Finmap.lookup_insert]
    · rw [Function.update_of_ne hk, Finmap.lookup_insert_of_ne m hk, h.mapping]
  refine ⟨impl, n, loc, hnew, hfile, ?_, fun k hk => ?_, ⟨hserving'.holding, hmapping, fun k l hk => ?_, h.registered,
    h.handles, h.pages⟩, fun _ => ⟨n + 1, _, hserving', by omega⟩⟩
  · rw [h.mapping, Finmap.lookup_eq_none.2 habsent]
  · have hkn : k ≠ n := by
      rintro rfl
      rw [h.mapping, Finmap.lookup_eq_none.2 habsent] at hk
      cases hk
    refine hkn (hserving'.inj k n loc ?_ (Finmap.lookup_insert m))
    rw [Finmap.lookup_insert_of_ne m hkn, ← h.mapping, hk]
  · obtain ⟨j, -, hj⟩ := hserving'.places k l hk
    exact ⟨_, hj.trans (Nat.mul_comm _ _)⟩

/-- **A restart** keeps the disk. -/
theorem Keeps.restart (h : Keeps types d m s) {types' : FileId → Option FileType}
    (htypes : ∀ f, (types' f).getD .heap = (types f).getD .heap) : ∃ d₁, s.pageDirectory.reopen = .ok d₁ ∧
      Keeps types d m (setUp types' s.files d₁) := by
  obtain ⟨d₁, hopen, hholding⟩ := h.holding.reopen
  exact ⟨d₁, hopen, hholding, h.mapping, h.aligned, htypes, nofun, h.pages⟩

/-! ### Runs -/

/-- A new server over no files. -/
theorem keeps_setUp : Keeps types ⟨fun _ => none, fun _ => none⟩ ∅ (setUp types (fun _ => none) initNew) where
  holding := .of_represents represents_initNew
  mapping k := by rw [Finmap.lookup_empty]
  aligned _ _ h := nomatch h
  registered _ := rfl
  handles := nofun
  pages _ _ := Blank.nil

theorem budget_setUp : Budget (2 ^ 32) ∅ (setUp types (fun _ => none) initNew) :=
  fun _ => ⟨0, _, serving_setUp, (Nat.zero_add _).le⟩

/-- **A call returns in one way.** -/
theorem Exec.unique (h₁ : Exec s c s₁ r₁) (h₂ : Exec s c s₂ r₂) : s₁ = s₂ ∧ r₁ = r₂ := by
  cases h₁ with
  | newPage h₁ =>
    cases h₂ with
    | newPage h₂ =>
      obtain ⟨rfl, rfl⟩ := h₁.unique h₂
      exact ⟨rfl, rfl⟩
  | readPage h₁ =>
    cases h₂ with
    | readPage h₂ =>
      obtain ⟨rfl, h⟩ := h₁.unique h₂
      cases h
      exact ⟨rfl, rfl⟩
    | readMissing h₂ => cases (h₁.unique h₂).2
  | writePage h₁ =>
    cases h₂ with
    | writePage h₂ =>
      obtain ⟨rfl, h⟩ := h₁.unique h₂
      cases h
      exact ⟨rfl, rfl⟩
    | writeMissing h₂ => cases (h₁.unique h₂).2
  | readMissing h₁ =>
    cases h₂ with
    | readPage h₂ => cases (h₁.unique h₂).2
    | readMissing h₂ =>
      obtain ⟨rfl, h⟩ := h₁.unique h₂
      cases h
      exact ⟨rfl, rfl⟩
  | writeMissing h₁ =>
    cases h₂ with
    | writePage h₂ => cases (h₁.unique h₂).2
    | writeMissing h₂ =>
      obtain ⟨rfl, h⟩ := h₁.unique h₂
      cases h
      exact ⟨rfl, rfl⟩
  | readPageAtLoc =>
    cases h₂
    exact ⟨rfl, rfl⟩
  | writePageAtLoc =>
    cases h₂
    exact ⟨rfl, rfl⟩
  | restart h₁ =>
    cases h₂ with
    | restart h₂ =>
      cases h₁.symm.trans h₂
      exact ⟨rfl, rfl⟩

/-- Any call but `new_page` and a restart answers as the disk does. -/
theorem Keeps.exec (h : Keeps types d m s) (hb : Budget budget m s) (hc : c.Legal) (hnew : ∀ f, c ≠ .newPage f)
    (hrestart : ∀ types, c ≠ .restart types) : ∃ s' r, Exec s c s' r ∧ d.Answers c r ∧ Keeps types (d.after c r) m s' ∧
      Budget budget m s' := by
  have hsame : ∀ {s₁ s₂ : DiskFiles}, s₂.toDiskManagerImpl = s₁.toDiskManagerImpl → Budget budget m s₁ →
      Budget budget m s₂ := by
    intro s₁ s₂ himpl hb hpos
    rw [himpl]
    exact hb hpos
  cases c with
  | newPage f => exact absurd rfl (hnew f)
  | restart types => exact absurd rfl (hrestart types)
  | readPageAtLoc loc =>
    obtain ⟨hkeeps, himpl, hreads⟩ := h.readPageAtLoc hc .buffer
    exact ⟨_, _, .readPageAtLoc, hreads, hkeeps, hsame himpl hb⟩
  | writePageAtLoc loc buffer =>
    obtain ⟨hkeeps, himpl⟩ := h.writePageAtLoc hc buffer
    exact ⟨_, _, .writePageAtLoc, rfl, hkeeps, hsame himpl hb⟩
  | readPage id =>
    obtain ⟨s', hlookup, hkeeps, hbudget⟩ := h.lookup hc
    have hmapping := h.mapping id
    rw [located] at hlookup
    cases hlook : m.lookup id with
    | some loc =>
      rw [hlook] at hlookup hmapping
      obtain ⟨hread, himpl, hreads⟩ := hkeeps.readPageAtLoc (h.aligned id loc hlook) (.page loc)
      refine ⟨_, _, .readPage hlookup, ?_, hread, hsame himpl (hbudget _ hb)⟩
      rw [Disk.Answers, hmapping]
      exact hreads
    | none =>
      rw [hlook] at hlookup hmapping
      refine ⟨_, _, .readMissing hlookup, ?_, hkeeps, hbudget _ hb⟩
      rw [Disk.Answers, hmapping]
  | writePage id buffer =>
    obtain ⟨s', hlookup, hkeeps, hbudget⟩ := h.lookup hc
    have hmapping := h.mapping id
    rw [located] at hlookup
    cases hlook : m.lookup id with
    | some loc =>
      rw [hlook] at hlookup hmapping
      obtain ⟨hwrite, himpl⟩ := hkeeps.writePageAtLoc (h.aligned id loc hlook) buffer
      refine ⟨_, _, .writePage hlookup, ?_, ?_, hsame himpl (hbudget _ hb)⟩
      · rw [Disk.Answers, hmapping]
      · rw [Disk.after, hmapping]
        exact hwrite
    | none =>
      rw [hlook] at hlookup hmapping
      refine ⟨_, _, .writeMissing hlookup, ?_, ?_, hbudget _ hb⟩
      · rw [Disk.Answers, hmapping]
      · rw [Disk.after, hmapping]
        exact hkeeps

/-- **One lawful call** returns as the disk does, and leaves files that hold the disk after it. -/
theorem Keeps.step (h : Keeps types d m s) (hb : Budget budget m s) {calls : List DiskCall}
    (hlawful : DiskCall.Lawful types budget (c :: calls)) : ∃ s' r m' budget', Exec s c s' r ∧ d.Answers c r ∧
      Keeps types (d.after c r) m' s' ∧ Budget budget' m' s' ∧ DiskCall.Lawful types budget' calls := by
  have hsame : c.Legal ∧ DiskCall.Lawful types budget calls → (∀ f, c ≠ .newPage f) → (∀ types, c ≠ .restart types) → ∃ s' r m' budget',
      Exec s c s' r ∧ d.Answers c r ∧ Keeps types (d.after c r) m' s' ∧ Budget budget' m' s' ∧
        DiskCall.Lawful types budget' calls := by
    rintro ⟨hc, hcalls⟩ hnew hrestart
    obtain ⟨s', r, hexec, hanswers, hkeeps, hbudget⟩ := h.exec hb hc hnew hrestart
    exact ⟨s', r, m, budget, hexec, hanswers, hkeeps, hbudget, hcalls⟩
  cases c with
  | newPage f =>
    cases budget with
    | zero => exact hlawful.elim
    | succ budget =>
      obtain ⟨impl, id, loc, hnew, hfile, habsent, hfresh, hkeeps, hbudget⟩ := h.newPage hb f
      exact ⟨_, _, _, _, .newPage hnew, ⟨id, loc, rfl, hfile, habsent, hfresh⟩, hkeeps, hbudget, hlawful⟩
  | restart types' =>
    obtain ⟨htypes, hcalls⟩ : (∀ f, (types' f).getD .heap = (types f).getD .heap) ∧ DiskCall.Lawful types 0 calls := by
      cases budget <;> exact hlawful
    obtain ⟨d₁, hopen, hkeeps⟩ := h.restart htypes
    exact ⟨_, _, _, 0, .restart hopen, rfl, hkeeps, fun h => absurd h (lt_irrefl 0), hcalls⟩
  | readPage id => exact hsame (by cases budget <;> exact hlawful) nofun nofun
  | writePage id buffer => exact hsame (by cases budget <;> exact hlawful) nofun nofun
  | readPageAtLoc loc => exact hsame (by cases budget <;> exact hlawful) nofun nofun
  | writePageAtLoc loc buffer => exact hsame (by cases budget <;> exact hlawful) nofun nofun

theorem Keeps.trace {l : List (DiskCall × DiskResult)} (h : Keeps types d m s) (hb : Budget budget m s)
    (htrace : Trace s l s') (hlawful : DiskCall.Lawful types budget (l.map Prod.fst)) : d.Agrees l := by
  induction htrace generalizing d m budget with
  | nil => trivial
  | cons hexec _ ih =>
    obtain ⟨s₂, r₂, m', budget', hexec₂, hanswers, hkeeps, hbudget, hcalls⟩ := h.step hb hlawful
    obtain ⟨rfl, rfl⟩ := hexec.unique hexec₂
    exact ⟨hanswers, ih hkeeps hbudget hcalls⟩

theorem Keeps.exists_trace {calls : List DiskCall} (h : Keeps types d m s) (hb : Budget budget m s)
    (hlawful : DiskCall.Lawful types budget calls) : ∃ l s', Trace s l s' ∧ l.map Prod.fst = calls := by
  induction calls generalizing s d m budget with
  | nil => exact ⟨[], s, .nil s, rfl⟩
  | cons c calls ih =>
    obtain ⟨s₁, r, m', budget', hexec, -, hkeeps, hbudget, hcalls⟩ := h.step hb hlawful
    obtain ⟨l, s', htrace, hl⟩ := ih hkeeps hbudget hcalls
    exact ⟨(c, r) :: l, s', .cons hexec htrace, congrArg (c :: ·) hl⟩

end DiskFiles
end Abdb
