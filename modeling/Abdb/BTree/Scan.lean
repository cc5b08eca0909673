/-
# `scan`

`src/accessor/btree.rs`.  `scan` finds the leaf its start key belongs to and returns a
stream over a `ScanState`; that is a machine like the other operations.  Each poll of the
stream yields from the buffer, or loads leaf after leaf until one fills it.

What a whole stream yields is determined (`Drains.unique`), and over a chain of leaves it
is `scanRows` of their entries (`drains_chain`): where a leaf reaches past the end key the
stream is done, and of what that leaf has put into the buffer only the first item gets out.
-/

import Abdb.BTree.Shape

namespace Abdb
namespace BTree

open Lib

/-- `key_to_bytes`: the 8 bytes of a `u64`, little-endian. -/
def keyToBytes (key : ℕ) : List UInt8 := (List.range 8).map fun i => UInt8.ofNat (key / 256 ^ i)

theorem keyToBytes_eq (key : ℕ) : keyToBytes key = toLe 8 key := by
  simp [keyToBytes, toLe, List.range_succ, Nat.div_div_eq_div_mul]

/-- The bytes of a key give it back. -/
theorem keyFromBytes_keyToBytes {key : ℕ} (h : key < keyBound) :
    keyFromBytes (keyToBytes key) = key := by
  rw [keyToBytes_eq, keyFromBytes_toLe le_rfl h]

/-- `BTreeScanState`. -/
structure ScanState where
  currentLeaf : LPageId
  startKey : Option ℕ
  endKey : Option ℕ
  buffered : List (List UInt8 × RecordId)
  bufIdx : ℕ
  done : Bool
deriving DecidableEq

/-- The await points of `scan`, up to the stream it returns. -/
inductive ScanPc
  /-- `read_root_page` -/
  | start
  /-- `find_leaf`: the next page down -/
  | findLeaf (current : LPageId)
  | done (result : Except Error ScanState)
deriving DecidableEq

namespace Scan

/-- The state of a fresh stream. -/
def init (startKey endKey : Option ℕ) (leafPage : LPageId) (done : Bool) : ScanState :=
  ⟨leafPage, startKey, endKey, [], 0, done⟩

/-- `scan`, from one await point to the next. -/
def resume (startKey endKey : Option ℕ) (view : View) : ScanPc → ScanPc
  | .start =>
    if view.root = 0 then .done (.ok (init startKey endKey 0 true)) else .findLeaf view.root
  | .findLeaf current =>
    match dispatch "B-Tree traversal" current (view.page current) with
    | .error e => .done (.error e)
    | .ok (.inl page) => .findLeaf (page.findChild (startKey.getD 0))
    | .ok (.inr _) => .done (.ok (init startKey endKey current false))
  | .done result => .done result

/-- What `scan` waits for. -/
def await : ScanPc → Await
  | .start => .header
  | .findLeaf current => .page current .read
  | .done _ => .nothing

/-- `scan` of a key range: it holds no latch across an await and writes nothing. -/
def machine (startKey endKey : Option ℕ) : Machine ScanPc :=
  ⟨await, fun _ => [], fun view _ pc => Out.goto (resume startKey endKey view pc)⟩

end Scan

/-! ### The stream -/

/-- Where a stream is: about to be polled, in the loop of a poll, or at its end. -/
inductive StreamPc
  | poll (s : ScanState)
  | loop (s : ScanState)
  | ended
deriving DecidableEq

/-- What the stream yields: a key with its record, or an error. -/
abbrev ScanItem := Except Error (List UInt8 × RecordId)

/-- The item of a leaf entry. -/
def scanRow (e : BTreeLeafEntry) : List UInt8 × RecordId := (keyToBytes e.key, e.recordId)

/-- The loop over the entries of a leaf: those that go into the buffer, and whether one
past the end key stopped it. -/
def fill (startKey endKey : Option ℕ) : List BTreeLeafEntry → List (List UInt8 × RecordId) × Bool
  | [] => ([], false)
  | e :: es =>
    if startKey.any (e.key < ·) then fill startKey endKey es
    else if endKey.any (· < e.key) then ([], true)
    else
      let (buffered, past) := fill startKey endKey es
      (scanRow e :: buffered, past)

/-- One round of the loop of a poll. -/
def scanLoop (view : View) (s : ScanState) : Option ScanItem × StreamPc :=
  match s.buffered[s.bufIdx]? with
  | some item => (some (.ok item), .poll { s with bufIdx := s.bufIdx + 1 })
  | none =>
    if s.currentLeaf = 0 ∨ s.done then (none, .ended)
    else
      match asLeaf s.currentLeaf (view.page s.currentLeaf) with
      | .error e => (some (.error e), .poll s)
      | .ok page =>
        let (buffered, past) := fill s.startKey s.endKey page.entries
        if page.nextPage = 0 ∧ buffered = [] then (none, .ended)
        else
          (none, .loop { s with
            currentLeaf := page.nextPage
            startKey := none
            buffered := buffered
            bufIdx := 0
            done := s.done || past })

/-- One step of the stream, with the item it yields. -/
def streamStep (view : View) : StreamPc → Option ScanItem × StreamPc
  | .poll s => if s.done then (none, .ended) else (none, .loop s)
  | .loop s => scanLoop view s
  | .ended => (none, .ended)

/-- Draining the stream yields these items, and then it ends. -/
inductive Drains (view : View) : StreamPc → List ScanItem → Prop
  | ended : Drains view .ended []
  | step {pc pc' : StreamPc} {o : Option ScanItem} {l : List ScanItem} :
    streamStep view pc = (o, pc') → pc ≠ .ended → Drains view pc' l → Drains view pc (o.toList ++ l)

variable {view : View} {s : ScanState} {pc : StreamPc} {l l' : List ScanItem}
  {startKey endKey : Option ℕ} {es : List BTreeLeafEntry}

/-- **Draining a stream has one outcome.** -/
theorem Drains.unique (h : Drains view pc l) (h' : Drains view pc l') : l = l' := by
  induction h generalizing l' with
  | ended =>
    cases h' with
    | ended => rfl
    | step _ hne => exact absurd rfl hne
  | step hstep hne _ ih =>
    cases h' with
    | ended => exact absurd rfl hne
    | step hstep' _ hrest =>
      obtain ⟨rfl, rfl⟩ := Prod.ext_iff.1 (hstep.symm.trans hstep')
      rw [ih hrest]

/-- A step that yields nothing. -/
theorem Drains.silent {pc' : StreamPc} (hstep : streamStep view pc = (none, pc')) (hne : pc ≠ .ended)
    (h : Drains view pc' l) : Drains view pc l := .step hstep hne h

/-- **A buffer is yielded item by item**, as long as the stream is not done. -/
theorem drains_buffer (hdone : s.done = false)
    (h : Drains view (.loop { s with bufIdx := s.buffered.length }) l) :
    ∀ n ≤ s.buffered.length, Drains view (.loop { s with bufIdx := s.buffered.length - n })
      ((s.buffered.drop (s.buffered.length - n)).map .ok ++ l) := by
  intro n
  induction n with
  | zero => simpa using h
  | succ n ih =>
    intro hn
    have hlt : s.buffered.length - (n + 1) < s.buffered.length := by omega
    have hnext : s.buffered.length - (n + 1) + 1 = s.buffered.length - n := by omega
    have hyield : streamStep view (.loop { s with bufIdx := s.buffered.length - (n + 1) }) =
        (some (.ok s.buffered[s.buffered.length - (n + 1)]),
          .poll { s with bufIdx := s.buffered.length - n }) := by
      rw [streamStep, scanLoop]
      dsimp only
      rw [List.getElem?_eq_getElem hlt, hnext]
    have hpoll : streamStep view (.poll { s with bufIdx := s.buffered.length - n }) =
        (none, .loop { s with bufIdx := s.buffered.length - n }) := by
      simp [streamStep, hdone]
    rw [List.drop_eq_getElem_cons hlt, hnext]
    exact .step hyield nofun (.silent hpoll nofun (ih (by omega)))

/-- What a stream yields from the entries of a chain of leaves. -/
def scanRows (startKey endKey : Option ℕ) : List (List BTreeLeafEntry) → List (List UInt8 × RecordId)
  | [] => []
  | es :: rest =>
    if (fill startKey endKey es).2 then (fill startKey endKey es).1.take 1
    else (fill startKey endKey es).1 ++ scanRows none endKey rest

/-- **Draining a stream over a chain of leaves** whose buffer is empty. -/
theorem drains_chain {prev : LPageId} {ps : List LPageId}
    (h : Linked view.page prev s.currentLeaf ps) (hdone : s.done = false)
    (hbuf : s.buffered.length ≤ s.bufIdx) :
    Drains view (.loop s)
      ((scanRows s.startKey s.endKey (ps.map fun p => leafEntries (view.page p))).map .ok) := by
  induction ps generalizing prev s with
  | nil =>
    have hstep : streamStep view (.loop s) = (none, .ended) := by
      rw [streamStep, scanLoop, List.getElem?_eq_none hbuf]
      exact if_pos (Or.inl h)
    exact .silent hstep (by rintro ⟨⟩) .ended
  | cons p ps ih =>
    obtain ⟨hcur, h0, l, hl, -, hrest⟩ := h
    have hstep : streamStep view (.loop s) =
        if l.nextPage = 0 ∧ (fill s.startKey s.endKey l.entries).1 = [] then (none, .ended)
        else (none, .loop { s with
          currentLeaf := l.nextPage
          startKey := none
          buffered := (fill s.startKey s.endKey l.entries).1
          bufIdx := 0
          done := (fill s.startKey s.endKey l.entries).2 }) := by
      rw [streamStep, scanLoop, List.getElem?_eq_none hbuf, if_neg (by simp [hcur, h0, hdone]), hcur,
        hl, asLeaf]
      simp [hdone]
    rw [List.map_cons, hl, leafEntries, scanRows]
    rcases hfill : fill s.startKey s.endKey l.entries with ⟨buffered, past⟩
    rw [hfill] at hstep
    dsimp only at hstep ⊢
    split_ifs at hstep with hend
    · -- the last leaf, with nothing in range
      obtain ⟨hn, rfl⟩ := hend
      rw [hn] at hrest
      cases ps with
      | nil => split_ifs <;> exact .silent hstep (by rintro ⟨⟩) .ended
      | cons q ps =>
        obtain ⟨rfl, hq, -⟩ := hrest
        exact absurd rfl hq
    · refine .silent hstep (by rintro ⟨⟩) ?_
      cases past with
      | false =>
        rw [if_neg (by decide), List.map_append]
        have hnext := ih (s := { s with
          currentLeaf := l.nextPage, startKey := none, buffered := buffered,
          bufIdx := buffered.length, done := false }) hrest rfl le_rfl
        have hall := drains_buffer (s := { s with
          currentLeaf := l.nextPage, startKey := none, buffered := buffered, bufIdx := 0,
          done := false }) rfl hnext buffered.length le_rfl
        simpa using hall
      | true =>
        rw [if_pos rfl]
        cases buffered with
        | nil =>
          have hstop : streamStep view (.loop { s with
              currentLeaf := l.nextPage, startKey := none, buffered := [], bufIdx := 0,
              done := true }) = (none, .ended) := by
            simp [streamStep, scanLoop]
          exact .silent hstop (by rintro ⟨⟩) .ended
        | cons b bs =>
          -- the rest of the buffer is lost
          have hyield : streamStep view (.loop { s with
              currentLeaf := l.nextPage, startKey := none, buffered := b :: bs, bufIdx := 0,
              done := true }) = (some (.ok b), .poll { s with
              currentLeaf := l.nextPage, startKey := none, buffered := b :: bs, bufIdx := 1,
              done := true }) := rfl
          exact .step hyield (by rintro ⟨⟩) (.silent rfl (by rintro ⟨⟩) .ended)

end BTree
end Abdb
