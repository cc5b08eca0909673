/-
# Page overlays on corrupt bytes

Which calls on a page panic, for buffers with any bytes.  `HeapPage::insert` takes the offset of
the data from the header and checks only that the free space below it suffices, so an offset past
the end of the page sends its write out of range (`insertChecked_eq_none_iff`).  The searches of
the index pages believe the count in the header (`Abdb.Page.IndexBuffer`).  All other calls check
what they read (`overlay_returns_iff`).
-/

import Abdb.Page.Heap
import Abdb.Page.IndexBuffer

namespace Abdb

open Lib

namespace HeapPage

/-- `slot_array`. -/
def slotArray (p : HeapPage) : Except Error (List Slot) :=
  if (pageBufSize - headersSize) / slotSize < p.numSlots then
    .error (.corruption "num_slots is possibly corrupted")
  else .ok ((List.range p.numSlots).map p.slot)

/-- A `u16` subtraction. -/
def checkedSub (a b : ℕ) : Option ℕ := if b ≤ a then some (a - b) else none

/-- A `u16` addition. -/
def checkedAdd (a b : ℕ) : Option ℕ := if a + b < 2 ^ 16 then some (a + b) else none

/-- `insert` with its casts, its `u16` arithmetic and its slice; `none` is a panic. -/
def insertChecked (p : HeapPage) (tupleData : List UInt8) : Option (HeapPage × Except Error SlotId) :=
  if p.freeSpaceRemaining < tupleData.length + slotSize then some (p, .error .noSpace)
  else
    let slotIdx := p.numSlots
    match checkedSub p.dataOffset (tupleData.length % 2 ^ 16) with
    | none => none
    | some newDataOffset =>
      if pageBufSize < newDataOffset + tupleData.length then none
      else
        let p := (p.write newDataOffset tupleData).setField (uberHeaderSize + 2) 2 newDataOffset
        match checkedAdd p.numSlots 1 with
        | none => none
        | some numSlots =>
          let p := p.setField uberHeaderSize 2 numSlots
          match p.getSlot slotIdx with
          | .error e => some (p, .error e)
          | .ok _ =>
            let at' := headersSize + slotSize * slotIdx
            some ((p.setField at' 2 newDataOffset).setField (at' + 2) 2 (tupleData.length % 2 ^ 16),
              .ok slotIdx)

variable {p : HeapPage} {t : List UInt8} {idx : ℕ}

/-- `get_slot` indexes the slot array. -/
theorem getSlot_eq_slotArray : p.getSlot idx =
    match p.slotArray with
    | .error e => .error e
    | .ok slots => match slots[idx]? with
      | some s => .ok s
      | none => .error (.invalidIndex idx) := by
  rw [getSlot, slotArray]
  split_ifs with hcap hidx
  · rfl
  · simp [hidx]
  · simp [hidx]

/-- **`insert` panics** if the data offset is past the end of the page and there is free space
below it. -/
theorem insertChecked_eq_none (hfree : t.length + slotSize ≤ p.freeSpaceRemaining)
    (hoff : pageBufSize < p.dataOffset) : p.insertChecked t = none := by
  have hbound : p.dataOffset < 2 ^ 16 := field_lt p _ 2
  have hlen : t.length + slotSize ≤ p.dataOffset := hfree.trans (Nat.sub_le ..)
  rw [slotSize_eq] at hlen
  have hcast : t.length % 2 ^ 16 = t.length := Nat.mod_eq_of_lt (by omega)
  rw [insertChecked, if_neg (not_lt.2 hfree), hcast, checkedSub, if_pos (by omega)]
  dsimp only
  rw [if_pos (by omega)]

/-- **Else it returns** what `insert` does. -/
theorem insertChecked_eq_some
    (h : p.freeSpaceRemaining < t.length + slotSize ∨ p.dataOffset ≤ pageBufSize) :
    p.insertChecked t = some (p.insert t) := by
  rw [insertChecked, insert]
  by_cases hfree : p.freeSpaceRemaining < t.length + slotSize
  · rw [if_pos hfree, if_pos hfree]
  rw [if_neg hfree, if_neg hfree]
  have hoff := h.resolve_left hfree
  have hroom : headersSize + p.numSlots * slotSize + (t.length + slotSize) ≤ p.dataOffset := by
    rw [freeSpaceRemaining] at hfree
    simp only [slotSize_eq] at hfree ⊢
    omega
  simp only [headersSize_eq, slotSize_eq, pageBufSize] at hroom hoff
  have hcast : t.length % 2 ^ 16 = t.length := Nat.mod_eq_of_lt (by omega)
  have hsub : checkedSub p.dataOffset t.length = some (p.dataOffset - t.length) := if_pos (by omega)
  have hin : ¬ pageBufSize < p.dataOffset - t.length + t.length := by
    rw [pageBufSize]
    omega
  obtain ⟨q, hq⟩ : ∃ q, q = (p.write (p.dataOffset - t.length) t).setField (uberHeaderSize + 2) 2
    (p.dataOffset - t.length) := ⟨_, rfl⟩
  have hnum : q.numSlots = p.numSlots := by
    rw [hq, numSlots, field_setField_of_apart (by decide),
      field_write_of_apart (by simp only [uberHeaderSize]; omega), numSlots]
  have hadd : checkedAdd p.numSlots 1 = some (p.numSlots + 1) := if_pos (by omega)
  rw [hcast, hsub]
  dsimp only
  rw [if_neg hin, if_neg hin, ← hq, hnum, hadd]
  dsimp only
  cases (q.setField uberHeaderSize 2 (p.numSlots + 1)).getSlot p.numSlots <;> rfl

theorem insertChecked_eq_none_iff : p.insertChecked t = none ↔
    ¬ (p.freeSpaceRemaining < t.length + slotSize ∨ p.dataOffset ≤ pageBufSize) := by
  by_cases h : p.freeSpaceRemaining < t.length + slotSize ∨ p.dataOffset ≤ pageBufSize
  · rw [insertChecked_eq_some h]
    exact iff_of_false nofun (not_not.2 h)
  · rw [not_or, not_lt, not_le] at h
    exact iff_of_true (insertChecked_eq_none h.1 h.2) (by rwa [not_or, not_lt, not_le])

theorem getSlot_ne_panic : p.getSlot idx ≠ .error .panic := by
  rw [getSlot]
  split_ifs <;> rintro ⟨⟩

theorem dataRange_ne_panic : p.dataRange idx ≠ .error .panic := by
  rw [dataRange]
  have hslot : p.getSlot idx ≠ .error .panic := getSlot_ne_panic
  cases hget : p.getSlot idx with
  | error e =>
    rw [hget] at hslot
    exact hslot
  | ok s =>
    dsimp only
    split_ifs <;> rintro ⟨⟩

end HeapPage

/-- A call on a page overlay. -/
inductive OverlayCall
  | slotArray (p : HeapPage)
  | freeSpaceRemaining (p : HeapPage)
  | getData (p : HeapPage) (idx : ℕ)
  | getDataMut (p : HeapPage) (idx : ℕ)
  | insert (p : HeapPage) (tupleData : List UInt8)
  | delete (p : HeapPage) (slotIdx : ℕ)
  | findSlot (b : PageBuffer) (targetKey : ℕ)
  | lookup (b : PageBuffer) (key : ℕ)
  | insertEntry (b : PageBuffer) (key : ℕ) (recordPage : LPageId) (recordSlot : SlotId)
  | findChild (b : PageBuffer) (searchKey : ℕ)
  | insertSeparator (b : PageBuffer) (separatorKey : ℕ) (rightChild : LPageId)

namespace OverlayCall

/-- The buffer is accepted by `from_buffer`, for an index page. -/
def Accepted : OverlayCall → Prop
  | findSlot b _ | lookup b _ | insertEntry b _ _ _ => LeafBuffer.fromBuffer b = .ok b
  | findChild b _ | insertSeparator b _ _ => InnerBuffer.fromBuffer b = .ok b
  | _ => True

/-- The call returns, with a value or an error. -/
def Returns : OverlayCall → Prop
  | slotArray p => p.slotArray ≠ .error .panic
  -- a saturating subtraction
  | freeSpaceRemaining _ => True
  | getData p idx => p.getData idx ≠ .error .panic
  | getDataMut p idx => p.dataRange idx ≠ .error .panic
  | insert p tupleData => (p.insertChecked tupleData).isSome = true
  | delete p slotIdx => (p.delete slotIdx).2 ≠ .error .panic
  | findSlot b targetKey => (LeafBuffer.findSlot b targetKey).isSome = true
  | lookup b key => (LeafBuffer.lookup b key).isSome = true
  | insertEntry b key recordPage recordSlot =>
    (LeafBuffer.insertEntry b key recordPage recordSlot).isSome = true
  | findChild b searchKey => (InnerBuffer.findChild b searchKey).isSome = true
  | insertSeparator b separatorKey rightChild =>
    (InnerBuffer.insertSeparator b separatorKey rightChild).isSome = true

/-- The header fields are such that the call reads and writes within the page. -/
def Sound : OverlayCall → Prop
  | insert p tupleData => p.freeSpaceRemaining < tupleData.length + 4 ∨ p.dataOffset ≤ 4096
  | findSlot b key | lookup b key => b.count ≤ 253 ∨ b.Turns LeafBuffer.layout (key ≤ ·)
  | findChild b key => b.count ≤ 254 ∨ key < b.keyAt InnerBuffer.layout 0 ∨
    b.Turns InnerBuffer.layout (key < ·)
  | _ => True

end OverlayCall

/-- When the calls return. -/
theorem overlay_returns (c : OverlayCall) : c.Returns ↔ c.Sound := by
  cases c with
  | slotArray p =>
    refine iff_of_true ?_ trivial
    rw [OverlayCall.Returns, HeapPage.slotArray]
    split_ifs <;> rintro ⟨⟩
  | freeSpaceRemaining p => exact Iff.rfl
  | getData p idx =>
    refine iff_of_true ?_ trivial
    have hrange : p.dataRange idx ≠ .error .panic := HeapPage.dataRange_ne_panic
    rw [OverlayCall.Returns, HeapPage.getData]
    cases hget : p.dataRange idx with
    | error e =>
      rw [hget] at hrange
      exact fun heq => hrange (congrArg _ (Except.error.inj heq))
    | ok s => rintro ⟨⟩
  | getDataMut p idx => exact iff_of_true HeapPage.dataRange_ne_panic trivial
  | insert p t =>
    rw [OverlayCall.Returns, OverlayCall.Sound, Option.isSome_iff_ne_none, ne_eq,
      HeapPage.insertChecked_eq_none_iff, not_not]
    rfl
  | delete p idx =>
    refine iff_of_true ?_ trivial
    have hslot : p.getSlot idx ≠ .error .panic := HeapPage.getSlot_ne_panic
    rw [OverlayCall.Returns, HeapPage.delete]
    split_ifs
    · rintro ⟨⟩
    · cases hget : p.getSlot idx with
      | error e =>
        rw [hget] at hslot
        exact fun heq => hslot (congrArg _ (Except.error.inj heq))
      | ok s => rintro ⟨⟩
  | findSlot b key => exact LeafBuffer.findSlot_isSome_iff
  | lookup b key => exact LeafBuffer.lookup_isSome_iff
  | insertEntry b key recordPage recordSlot => exact iff_of_true LeafBuffer.insertEntry_isSome trivial
  | findChild b key => exact InnerBuffer.findChild_isSome_iff
  | insertSeparator b key rightChild => exact iff_of_true InnerBuffer.insertSeparator_isSome trivial

/-- **Which calls on a page return**, whatever its bytes. -/
theorem overlay_returns_iff (c : OverlayCall) : c.Returns ↔ c.Sound := overlay_returns c

/-- A heap page that says its data begin at 5000. -/
def overshotPage : HeapPage := HeapPage.zeroed.setField (uberHeaderSize + 2) 2 5000

/-- An index page of a type, of zeros, that says it has 512 entries. -/
def overfullBuffer (pageType : UInt8) : PageBuffer :=
  ⟨fun i => if i = 12 then pageType else if i = 17 then 2 else 0⟩

/-- **Calls that panic**: the empty tuple put into a heap page whose data offset is 5000, and
searches of a leaf and an inner page whose count is 512. -/
theorem overlay_panics : ¬ (OverlayCall.insert overshotPage []).Returns ∧
    (OverlayCall.findSlot (overfullBuffer 3) 1).Accepted ∧
    ¬ (OverlayCall.findSlot (overfullBuffer 3) 1).Returns ∧
    (OverlayCall.findChild (overfullBuffer 2) 1).Accepted ∧
    ¬ (OverlayCall.findChild (overfullBuffer 2) 1).Returns := by
  have hcount : ∀ t, (overfullBuffer t).count = 512 := fun t => rfl
  have hturns : ∀ (L : IndexLayout) (t : UInt8) (P : ℕ → Prop), L.capacity ≤ 254 →
      ¬ (overfullBuffer t).Turns L P := by
    rintro L t P hcap ⟨j, hj, -⟩
    have hpow : 2 ≤ 2 ^ (j + 1) := Nat.le_self_pow (Nat.succ_ne_zero j) 2
    have hle : (512 + 1) / 2 ^ (j + 1) ≤ 513 / 2 := Nat.div_le_div_left hpow Nat.two_pos
    rw [hcount] at hj
    omega
  have hoff : overshotPage.dataOffset = 5000 := HeapPage.field_setField (by decide)
  have hnum : overshotPage.numSlots = 0 := HeapPage.field_setField_of_apart (by decide)
  refine ⟨?_, rfl, ?_, rfl, ?_⟩
  · rw [overlay_returns, OverlayCall.Sound, HeapPage.freeSpaceRemaining, hoff, hnum]
    decide
  · rw [overlay_returns, OverlayCall.Sound, hcount]
    rintro (hle | hturn)
    · omega
    · exact hturns _ _ _ (by decide) hturn
  · rw [overlay_returns, OverlayCall.Sound, hcount]
    rintro (hle | hfirst | hturn)
    · omega
    · exact absurd hfirst (by decide)
    · exact hturns _ _ _ (by decide) hturn

end Abdb
