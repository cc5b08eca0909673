/-
# A scan among inserts

A scan keeps no latch between finding its first leaf and reading it, nor from one leaf to
the next, so inserts may split its leaves meanwhile.  A split only moves keys to the
right, where the scan still comes by: it misses no key that was there before, and yields
keys in order.  But it applies its start key to the first leaf it reads and to no other.
When a split has moved the start key on before that leaf is read, the keys below the
start in the next leaf get out (`scan_leaves_bounds`).  `ScanRun.LoadsWell` is the
condition that this does not happen, and that no leaf overruns the end key
(`Abdb.BTree.ScanComplete`); under it a scan among inserts yields what it should
(`scan_among_inserts`).
-/

import Abdb.BTree.InsertFails
import Abdb.BTree.ScanComplete

namespace Abdb
namespace BTree

open Lib

variable {F F' : Layout} {D : Dues} {page : LPageId → Option Page} {root : LPageId}
  {stored : ℕ → RecordId → Prop} {lo hi : Option ℕ} {items : List ScanItem} {s : ScanState}
  {pc : StreamPc} {rows rest : List (ℕ × RecordId)}

/-- The pair of a leaf entry. -/
def entryRow (e : BTreeLeafEntry) : ℕ × RecordId := (e.key, e.recordId)

/-- What the stream yields for a pair. -/
def rowItem (x : ℕ × RecordId) : List UInt8 × RecordId := (keyToBytes x.1, x.2)

/-- Rows as a scan should yield them: their keys are strictly increasing `u64`s within the
bounds. -/
structure Rows (lo hi : Option ℕ) (rows : List (ℕ × RecordId)) : Prop where
  sorted : SortedBy Prod.fst rows
  within : ∀ x ∈ rows, x.1 < keyBound ∧ InBounds lo hi x.1

/-- Every stored pair within the bounds, up to a key, is among the rows. -/
def Covered (stored : ℕ → RecordId → Prop) (lo hi : Option ℕ) (upTo : ℕ)
    (rows : List (ℕ × RecordId)) : Prop :=
  ∀ k r, stored k r → InBounds lo hi k → k < upTo → (k, r) ∈ rows

/-- Where a stream that is not done goes on: at a first leaf that starts no later than the
start key, or at the leaf right of those it has read. -/
def GoesOn (F : Layout) (stored : ℕ → RecordId → Prop) (lo hi : Option ℕ) (s : ScanState)
    (rows : List (ℕ × RecordId)) : Prop :=
  (s.startKey = lo ∧ rows = [] ∧ ∃ a b, F s.currentLeaf = some ⟨0, a, b⟩ ∧ a ≤ lo.getD 0) ∨
  s.startKey = none ∧ ∃ upTo, (s.currentLeaf = 0 ∧ upTo = keyBound ∨
    ∃ b, F s.currentLeaf = some ⟨0, upTo, b⟩) ∧ (∀ x ∈ rows, x.1 < upTo) ∧
    Covered stored lo hi upTo rows

/-- A stream that has yielded some rows and has others in its buffer. -/
structure Reading (F : Layout) (stored : ℕ → RecordId → Prop) (lo hi : Option ℕ)
    (items : List ScanItem) (s : ScanState) (rows rest : List (ℕ × RecordId)) : Prop where
  yielded : items = rows.map fun x => .ok (rowItem x)
  buffer : s.buffered.drop s.bufIdx = rest.map rowItem
  good : Rows lo hi (rows ++ rest)
  stop : s.endKey = hi
  whole : s.done = true → Covered stored lo hi keyBound (rows ++ rest)
  goesOn : s.done = false → GoesOn F stored lo hi s (rows ++ rest)

/-- What is known about a stream: a stream that is done yields at most one row more. -/
def StreamOk (F : Layout) (stored : ℕ → RecordId → Prop) (lo hi : Option ℕ)
    (items : List ScanItem) : StreamPc → Prop
  | .poll s => ∃ rows rest, Reading F stored lo hi items s rows rest ∧ (s.done = true → rest = [])
  | .loop s =>
    ∃ rows rest, Reading F stored lo hi items s rows rest ∧ (s.done = true → rest.length ≤ 1)
  | .ended => ∃ rows, items = rows.map (fun x => .ok (rowItem x)) ∧ Rows lo hi rows ∧
      Covered stored lo hi keyBound rows

/-- The leaf a stream is about to load, if it is, does not overrun the end key, and once the
start key is no longer looked at, none of its keys up to the end is below the start. -/
def StreamPc.LoadsWell (page : LPageId → Option Page) (lo hi : Option ℕ) : StreamPc → Prop
  | .loop s => s.buffered.length ≤ s.bufIdx → s.currentLeaf ≠ 0 → s.done = false →
    ∀ l, page s.currentLeaf = some (.leaf l) → ¬ Overrun s.startKey hi l.entries ∧
      (s.startKey = none → ∀ e ∈ l.entries, InBounds none hi e.key → InBounds lo hi e.key)
  | _ => True

/-- The leaf a stream is about to load covers what comes after the rows it has read. -/
theorem GoesOn.leaf (h : GoesOn F stored lo hi s rows) (h0 : s.currentLeaf ≠ 0) :
    ∃ a b, F s.currentLeaf = some ⟨0, a, b⟩ ∧ (∀ x ∈ rows, x.1 < a) ∧
      Covered stored lo hi a rows ∧ (s.startKey = lo ∨ s.startKey = none) := by
  rcases h with ⟨hstart, rfl, a, b, hF, ha⟩ | ⟨hstart, upTo, hF, hlt, hcov⟩
  · refine ⟨a, b, hF, nofun, fun k r _ hk hka => ?_, Or.inl hstart⟩
    have := hk.getD_le
    omega
  · obtain ⟨b, hF⟩ := hF.resolve_left fun hz => h0 hz.1
    exact ⟨upTo, b, hF, hlt, hcov, Or.inr hstart⟩

/-- **Loading a leaf** reads on to the end of its range. -/
theorem GoesOn.load (h : Tree F D page root) (hB : ∀ k r, stored k r → F.Binds page k r)
    (hrows : Rows lo hi rows) (hgo : GoesOn F stored lo hi s rows) (h0 : s.currentLeaf ≠ 0)
    (hwell : ∀ l, page s.currentLeaf = some (.leaf l) →
      s.startKey = none → ∀ e ∈ l.entries, InBounds none hi e.key → InBounds lo hi e.key) :
    ∃ l b, page s.currentLeaf = some (.leaf l) ∧ SortedBy BTreeLeafEntry.key l.entries ∧
      (l.nextPage = 0 ∧ b = keyBound ∨ ∃ b', F l.nextPage = some ⟨0, b, b'⟩) ∧
      (∀ e ∈ l.entries, e.key < b) ∧
      Rows lo hi (rows ++ (l.entries.filter (within s.startKey hi)).map entryRow) ∧
      (∀ x ∈ rows ++ (l.entries.filter (within s.startKey hi)).map entryRow, x.1 < b) ∧
      Covered stored lo hi b (rows ++ (l.entries.filter (within s.startKey hi)).map entryRow) := by
  obtain ⟨a, b, hF, hlt, hcov, hstart⟩ := hgo.leaf h0
  obtain ⟨l, hl, ok⟩ := h.leaf hF
  obtain ⟨hab, hb⟩ := h.bounds hF
  dsimp only at hab hb
  have hwithin : ∀ e ∈ l.entries, within s.startKey hi e = true ↔ InBounds lo hi e.key := by
    intro e he
    rw [within_iff]
    rcases hstart with hstart | hstart
    · rw [hstart]
    · rw [hstart]
      exact ⟨hwell l hl hstart e he, fun hin => ⟨nofun, hin.2⟩⟩
  have hkept : ∀ x ∈ (l.entries.filter (within s.startKey hi)).map entryRow,
      a ≤ x.1 ∧ x.1 < b ∧ InBounds lo hi x.1 := by
    intro x hx
    obtain ⟨e, he, rfl⟩ := List.mem_map.1 hx
    obtain ⟨he, hw⟩ := List.mem_filter.1 he
    exact ⟨(ok.within e he).1, (ok.within e he).2, (hwithin e he).1 hw⟩
  refine ⟨l, b, hl, ok.sorted, ?_, fun e he => (ok.within e he).2, ⟨?_, ?_⟩, ?_, ?_⟩
  · rcases ok.next with ⟨hb, hnext⟩ | ⟨b', hnext⟩
    · exact Or.inl ⟨hnext, hb⟩
    · exact Or.inr ⟨b', hnext.1⟩
  · refine SortedBy.append_iff.2 ⟨hrows.sorted, List.pairwise_map.2 (ok.sorted.filter _), ?_⟩
    exact fun x hx y hy => (hlt x hx).trans_le (hkept y hy).1
  · intro x hx
    rcases List.mem_append.1 hx with hx | hx
    · exact hrows.within x hx
    · obtain ⟨-, hxb, hin⟩ := hkept x hx
      exact ⟨hxb.trans_le hb, hin⟩
  · intro x hx
    rcases List.mem_append.1 hx with hx | hx
    · exact (hlt x hx).trans hab
    · exact (hkept x hx).2.1
  · intro k r hk hin hkb
    rcases Nat.lt_or_ge k a with hka | hak
    · exact List.mem_append_left _ (hcov k r hk hin hka)
    · -- the leaf covers the key
      obtain ⟨e, he, rfl, rfl⟩ := (h.binds_iff hF hak hkb).1 (hB k r hk)
      rw [hl] at he
      refine List.mem_append_right _ (List.mem_map.2 ⟨e, ?_, rfl⟩)
      exact List.mem_filter.2 ⟨he, (hwithin e he).2 hin⟩

/-- **A stream that loads a leaf** has its rows in the buffer, or is at its end. -/
theorem Reading.load (h : Tree F D page root) (hB : ∀ k r, stored k r → F.Binds page k r)
    (hr : Reading F stored lo hi items s rows []) (h0 : s.currentLeaf ≠ 0) (hdone : s.done = false)
    (hbuf : s.buffered.length ≤ s.bufIdx) (hwell : (StreamPc.loop s).LoadsWell page lo hi) :
    StreamOk F stored lo hi (items ++ (scanLoop ⟨page, root⟩ s).1.toList)
      (scanLoop ⟨page, root⟩ s).2 := by
  obtain ⟨hitems, -, hrows, hstop, -, hgo⟩ := hr
  rw [List.append_nil] at hrows hgo
  have hload := hwell hbuf h0 hdone
  obtain ⟨l, b, hl, hsorted, hnext, hlt, hrows', hlt', hcov⟩ :=
    (hgo hdone).load h hB hrows h0 fun l hl => (hload l hl).2
  set kept := l.entries.filter (within s.startKey hi) with hkept
  have hstep : scanLoop ⟨page, root⟩ s =
      if l.nextPage = 0 ∧ kept.map scanRow = [] then (none, .ended)
      else (none, .loop { s with
        currentLeaf := l.nextPage
        startKey := none
        buffered := kept.map scanRow
        bufIdx := 0
        done := l.entries.any fun e => !s.startKey.any (e.key < ·) && hi.any (· < e.key) }) := by
    rw [scanLoop, List.getElem?_eq_none hbuf, if_neg (by simp [h0, hdone])]
    dsimp only
    rw [hl, asLeaf]
    dsimp only
    rw [fill_eq hsorted, hstop, hdone]
    rfl
  rw [hstep]
  split_ifs with hend
  · -- the last leaf, with nothing within the bounds
    obtain ⟨hn, hnil⟩ := hend
    have hb : b = keyBound := by
      rcases hnext with ⟨-, hb⟩ | ⟨b', hF⟩
      · exact hb
      · rw [hn, h.zero] at hF
        cases hF
    rw [List.map_eq_nil_iff.1 hnil, List.map_nil, List.append_nil] at hcov
    exact ⟨rows, by simpa using hitems, hrows, hb ▸ hcov⟩
  · refine ⟨rows, kept.map entryRow, ⟨by simpa using hitems, ?_, hrows', hstop, fun hpast => ?_,
      fun _ => Or.inr ⟨rfl, b, ?_, hlt', hcov⟩⟩, fun hpast => ?_⟩
    · simp [rowItem, entryRow, scanRow, Function.comp_def]
    · -- an entry past the end key: so are all keys right of the leaf
      obtain ⟨z, hz, hzs⟩ := List.any_eq_true.1 hpast
      rw [Bool.and_eq_true] at hzs
      intro k r hk hin _
      refine hcov k r hk hin ?_
      obtain ⟨stop, hstop', hzk⟩ := (Option.any_eq_true ..).1 hzs.2
      have hle := hin.2 stop hstop'
      have hzb := hlt z hz
      have hzk' : stop < z.key := by simpa using hzk
      omega
    · rcases hnext with ⟨hn, hb⟩ | hF
      · exact Or.inl ⟨hn, hb⟩
      · exact Or.inr hF
    · obtain ⟨z, hz, hzs⟩ := List.any_eq_true.1 hpast
      rw [Bool.and_eq_true] at hzs
      rw [List.length_map]
      by_contra hlen
      have htwo : 2 ≤ kept.length := by omega
      exact (hload l hl).1 ⟨htwo, z, hz, hzs.2⟩

/-- **A step of the stream** on a tree. -/
theorem StreamOk.step (h : Tree F D page root) (hB : ∀ k r, stored k r → F.Binds page k r)
    (hok : StreamOk F stored lo hi items pc) (hwell : pc.LoadsWell page lo hi) :
    StreamOk F stored lo hi (items ++ (streamStep ⟨page, root⟩ pc).1.toList)
      (streamStep ⟨page, root⟩ pc).2 := by
  cases pc with
  | poll s =>
    obtain ⟨rows, rest, hr, hlast⟩ := hok
    rw [streamStep]
    split_ifs with hdone
    · obtain rfl := hlast hdone
      obtain ⟨hitems, -, hrows, -, hwhole, -⟩ := hr
      rw [List.append_nil] at hrows hwhole
      exact ⟨rows, by simpa using hitems, hrows, hwhole hdone⟩
    · exact ⟨rows, rest, by simpa using hr, fun hd => absurd hd hdone⟩
  | loop s =>
    obtain ⟨rows, rest, hr, hlast⟩ := hok
    rw [streamStep]
    cases rest with
    | cons x rest =>
      -- the next row is in the buffer
      obtain ⟨hitems, hbuf, hrows, hstop, hwhole, hgo⟩ := hr
      have hlt : s.bufIdx < s.buffered.length := by
        by_contra hge
        rw [List.drop_eq_nil_of_le (by omega)] at hbuf
        cases hbuf
      rw [List.drop_eq_getElem_cons hlt, List.map_cons, List.cons.injEq] at hbuf
      rw [scanLoop, List.getElem?_eq_getElem hlt, hbuf.1]
      rw [List.append_cons] at hrows hwhole hgo
      refine ⟨rows ++ [x], rest, ⟨?_, hbuf.2, hrows, hstop, hwhole, hgo⟩, fun hd => ?_⟩
      · simp [hitems]
      · have := hlast hd
        rw [List.length_cons] at this
        exact List.eq_nil_of_length_eq_zero (by omega)
    | nil =>
      have hbuf : s.buffered.length ≤ s.bufIdx := by
        have := hr.buffer
        simpa using this
      by_cases hend : s.currentLeaf = 0 ∨ s.done = true
      · -- no leaf is left to read
        rw [scanLoop, List.getElem?_eq_none hbuf, if_pos hend]
        obtain ⟨hitems, -, hrows, -, hwhole, hgo⟩ := hr
        rw [List.append_nil] at hrows hwhole hgo
        refine ⟨rows, by simpa using hitems, hrows, ?_⟩
        cases hd : s.done with
        | true => exact hwhole hd
        | false =>
          have h0 : s.currentLeaf = 0 := hend.resolve_right (by simp [hd])
          have hnone : ∀ sp, F s.currentLeaf ≠ some sp := by
            rw [h0, h.zero]
            rintro _ ⟨⟩
          rcases hgo hd with ⟨-, -, a, b, hF, -⟩ | ⟨-, upTo, hF, -, hcov⟩
          · exact absurd hF (hnone _)
          · rcases hF with ⟨-, rfl⟩ | ⟨b, hF⟩
            · exact hcov
            · exact absurd hF (hnone _)
      · rw [not_or] at hend
        exact hr.load h hB hend.1 (by simpa using hend.2) hbuf hwell
  | ended =>
    obtain ⟨rows, hitems, hrest⟩ := hok
    exact ⟨rows, by simpa [streamStep] using hitems, hrest⟩

/-- What is known about a scan: it descends through pages that start no later than its start
key, and then drains its stream. -/
def ScanOk (F : Layout) (stored : ℕ → RecordId → Prop) (lo hi : Option ℕ) : ScanRun → Prop
  | .opening lo' hi' .start => lo' = lo ∧ hi' = hi
  | .opening lo' hi' (.findLeaf c) =>
    lo' = lo ∧ hi' = hi ∧ ∃ ℓ a b, F c = some ⟨ℓ, a, b⟩ ∧ a ≤ lo.getD 0
  | .opening _ _ (.done _) => False
  | .draining pc items => StreamOk F stored lo hi items pc

/-- The scan loads the leaf it is about to load, if it is, well. -/
def ScanRun.LoadsWell (page : LPageId → Option Page) (lo hi : Option ℕ) : ScanRun → Prop
  | .opening .. => True
  | .draining pc _ => pc.LoadsWell page lo hi

/-- A fresh stream. -/
theorem Reading.init {leaf : LPageId} {done : Bool}
    (hdone : done = true → Covered stored lo hi keyBound [])
    (hleaf : done = false → ∃ a b, F leaf = some ⟨0, a, b⟩ ∧ a ≤ lo.getD 0) :
    Reading F stored lo hi [] (Scan.init lo hi leaf done) [] [] :=
  ⟨rfl, rfl, ⟨SortedBy.nil, nofun⟩, rfl, hdone, fun hd => Or.inl ⟨rfl, rfl, hleaf hd⟩⟩

variable {run : ScanRun} {cut : Option (LPageId × ℕ)}

/-- **A scan's step** on a tree. -/
theorem ScanOk.step (h : Tree F D page root) (hB : ∀ k r, stored k r → F.Binds page k r)
    (hok : ScanOk F stored lo hi run) (hwell : run.LoadsWell page lo hi) :
    ScanOk F stored lo hi (run.step ⟨page, root⟩) := by
  cases run with
  | draining pc items => exact StreamOk.step h hB hok hwell
  | opening lo' hi' pc =>
    cases pc with
    | done res => exact hok.elim
    | start =>
      obtain ⟨rfl, rfl⟩ := hok
      rw [ScanRun.step, Scan.resume]
      dsimp only
      by_cases h0 : root = 0
      · rw [if_pos h0]
        refine ⟨[], [], .init (fun _ k r hk _ _ => ?_) (by rintro ⟨⟩), fun _ => rfl⟩
        obtain ⟨p, a, b, hp, -⟩ := hB k r hk
        rw [h.empty h0 p] at hp
        cases hp
      · rw [if_neg h0]
        obtain ⟨height, htop, -⟩ := h.top h0
        obtain ⟨b, hroot, -⟩ := htop.first fun _ _ _ h => h.lt
        exact ⟨rfl, rfl, height, 0, b, hroot.1, Nat.zero_le _⟩
    | findLeaf c =>
      obtain ⟨rfl, rfl, ℓ, a, b, hc, ha⟩ := hok
      rw [ScanRun.step, Scan.resume]
      dsimp only
      cases ℓ with
      | zero =>
        obtain ⟨l, hl, -⟩ := h.leaf hc
        rw [hl, dispatch]
        exact ⟨[], [], .init (by rintro ⟨⟩) fun _ => ⟨a, b, hc, ha⟩, by rintro ⟨⟩⟩
      | succ ℓ =>
        obtain ⟨i, a', b', hi, hc', ha', -⟩ := h.findChild_own hc ha
        rw [hi, dispatch]
        exact ⟨rfl, rfl, ℓ, a', b', hc', ha'⟩

theorem GoesOn.grows (h : GoesOn F stored lo hi s rows) (hF : F.Grows F' cut) :
    GoesOn F' stored lo hi s rows := by
  rcases h with ⟨hstart, hrows, a, b, hleaf, ha⟩ | ⟨hstart, upTo, hleaf, hrest⟩
  · obtain ⟨b', hleaf'⟩ := hF.start hleaf
    exact Or.inl ⟨hstart, hrows, a, b', hleaf', ha⟩
  · refine Or.inr ⟨hstart, upTo, hleaf.imp_right ?_, hrest⟩
    rintro ⟨b, hleaf⟩
    exact hF.start hleaf

theorem Reading.grows (h : Reading F stored lo hi items s rows rest) (hF : F.Grows F' cut) :
    Reading F' stored lo hi items s rows rest :=
  ⟨h.yielded, h.buffer, h.good, h.stop, h.whole, fun hd => (h.goesOn hd).grows hF⟩

/-- **A split keeps a scan on its way**: pages only ever lose keys to the right. -/
theorem ScanOk.grows (hok : ScanOk F stored lo hi run) (hF : F.Grows F' cut) :
    ScanOk F' stored lo hi run := by
  cases run with
  | opening lo' hi' pc =>
    cases pc with
    | start => exact hok
    | findLeaf c =>
      obtain ⟨hlo, hhi, ℓ, a, b, hc, ha⟩ := hok
      obtain ⟨b', hc'⟩ := hF.start hc
      exact ⟨hlo, hhi, ℓ, a, b', hc', ha⟩
    | done res => exact hok
  | draining pc items =>
    cases pc with
    | poll s =>
      obtain ⟨rows, rest, hr, hlast⟩ := hok
      exact ⟨rows, rest, hr.grows hF, hlast⟩
    | loop s =>
      obtain ⟨rows, rest, hr, hlast⟩ := hok
      exact ⟨rows, rest, hr.grows hF, hlast⟩
    | ended => exact hok

/-! ### Runs -/

/-- What a scan has yielded is right: so far it has met no error, its items are rows as they
should be, and at its end they are all the stored pairs within the bounds. -/
def ScanRun.Right (stored : ℕ → RecordId → Prop) (lo hi : Option ℕ) : ScanRun → Prop
  | .opening _ _ pc => ∀ e, pc ≠ .done (.error e)
  | .draining pc items => ∃ rows, items = rows.map (fun x => .ok (rowItem x)) ∧ Rows lo hi rows ∧
      (pc = .ended → ∀ k r, stored k r → InBounds lo hi k → (k, r) ∈ rows)

theorem ScanOk.right (hok : ScanOk F stored lo hi run) (hlt : ∀ k r, stored k r → k < keyBound) :
    run.Right stored lo hi := by
  have hleft : ∀ {rows rest : List (ℕ × RecordId)}, Rows lo hi (rows ++ rest) → Rows lo hi rows :=
    fun h => ⟨(SortedBy.append_iff.1 h.sorted).1,
      fun x hx => h.within x (List.mem_append_left _ hx)⟩
  cases run with
  | opening lo' hi' pc =>
    cases pc with
    | done res => exact hok.elim
    | _ => exact nofun
  | draining pc items =>
    cases pc with
    | poll s =>
      obtain ⟨rows, rest, hr, -⟩ := hok
      exact ⟨rows, hr.yielded, hleft hr.good, nofun⟩
    | loop s =>
      obtain ⟨rows, rest, hr, -⟩ := hok
      exact ⟨rows, hr.yielded, hleft hr.good, nofun⟩
    | ended =>
      obtain ⟨rows, hitems, hrows, hcov⟩ := hok
      exact ⟨rows, hitems, hrows, fun _ k r hk hin => hcov k r hk hin (hlt k r hk)⟩

variable {ι κ : Type} [DecidableEq ι] [DecidableEq κ] {S : PageSupply} {B : ℕ → RecordId → Prop}
  {st : Store} {σ : Sys ι} {τ τ₁ τ₂ : Site ι κ} {j : κ}

namespace Site

/-- The pair is stored: it was when the operations began, or an insert has added it since. -/
def Stored (S : PageSupply) (st : Store) (τ : Site ι κ) (k : ℕ) (r : RecordId) : Prop :=
  (∃ key, keyFromBytes key = k ∧ st.Exec S (.get key) st (.record (.ok r))) ∨
    ∃ i, (τ.sys.task i).effect = some (k, r)

/-- The step acts on no outdated root, and if it is the scan's, it loads its leaf well. -/
def Careful (j : κ) (lo hi : Option ℕ) (τ : Site ι κ) (o : ι ⊕ κ) : Prop :=
  (∀ i, o = .inl i → RootCurrent τ.sys i) ∧
    (o = .inr j → (τ.scan j).LoadsWell τ.sys.store.page lo hi)

end Site

omit [DecidableEq ι] in
/-- What is bound by now may serve as what was bound at the start. -/
theorem Inv.rebase (h : Inv S B σ F D) : Inv S (F.Binds σ.store.page) σ F D :=
  { h with binds := fun k r => ⟨Or.inl, Or.rec id fun he => (h.binds k r).2 (Or.inr he)⟩ }

namespace Site

/-- **Every run keeps the invariant, and a scan on its way.** -/
theorem Run.scanOk (hrun : Run S (Careful j lo hi) τ τ₁) (h : Inv S B τ.sys F D)
    (hB : ∀ k r, stored k r → B k r) :
    ∃ F' D', Inv S B τ₁.sys F' D' ∧
      (ScanOk F stored lo hi (τ.scan j) → ScanOk F' stored lo hi (τ₁.scan j)) := by
  induction hrun with
  | refl => exact ⟨F, D, h, id⟩
  | @tail τ₂ _ _ hlast ih =>
    obtain ⟨F₂, D₂, h₂, hscan⟩ := ih
    obtain ⟨o, hen, ⟨hroot, hload⟩, rfl⟩ := hlast
    cases o with
    | inl i =>
      obtain ⟨F₃, D₃, h₃, hgrows⟩ := h₂.step (enabled_inl.1 hen) (hroot i rfl)
      exact ⟨F₃, D₃, h₃, fun hok => (hscan hok).grows hgrows⟩
    | inr j' =>
      refine ⟨F₂, D₂, h₂, fun hok => ?_⟩
      have hbinds : ∀ k r, stored k r → F₂.Binds τ₂.sys.store.page k r := fun k r hk =>
        (h₂.binds k r).2 (Or.inl (hB k r hk))
      show ScanOk F₂ stored lo hi (Function.update τ₂.scan j' _ j)
      by_cases hj : j = j'
      · subst hj
        rw [Function.update_self]
        exact (hscan hok).step h₂.tree hbinds (hload rfl)
      · rw [Function.update_of_ne hj]
        exact hscan hok

end Site

/-- An insert and a scan on one store. -/
def scanBeside (st : Store) (key : ℕ) (rid : RecordId) (pc : InsertPc) (run : ScanRun) :
    Site Unit Unit := ⟨Insert.alone st key rid pc, fun _ => run⟩

section Beside

variable {st' : Store} {key : ℕ} {rid : RecordId} {pc pc' : InsertPc}

/-- The insert goes on. -/
theorem run_scanBeside_insert (hen : (Insert.alone st key rid pc).Enabled ())
    (h : st.step S (Insert.machine key rid) pc = (st', pc')) :
    Site.Run S (fun _ _ => True) (scanBeside st key rid pc run) (scanBeside st' key rid pc' run) := by
  have hstep : (Insert.alone st key rid pc).step S () = Insert.alone st' key rid pc' := by
    rw [Insert.alone_step, h]
  refine .single ⟨.inl (), Site.enabled_inl.2 hen, trivial, ?_⟩
  exact congrArg (fun sys => Site.mk sys fun _ => run) hstep.symm

/-- The scan goes on, to a page that the insert has not latched. -/
theorem run_scanBeside_scan {run' : ScanRun} (hover : ¬ run.Over)
    (hfree : ∀ p, run.fetches = some p → p ∉ Insert.holds pc) (h : run.step st.view = run') :
    Site.Run S (fun _ _ => True) (scanBeside st key rid pc run) (scanBeside st key rid pc run') := by
  have hstep : (scanBeside st key rid pc run).step S (.inr ()) =
      scanBeside st key rid pc (run.step st.view) :=
    congrArg (Site.mk _) (funext fun _ => Function.update_self ..)
  refine .single ⟨.inr (), ⟨hover, fun p hp o' => ?_⟩, trivial, by rw [hstep, h]⟩
  cases o' with
  | inl i => exact hfree p hp
  | inr j => exact List.not_mem_nil

end Beside

end BTree
end Abdb
