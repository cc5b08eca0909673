/-
# Heap pages

`src/page/overlays/table/heap_page.rs`: slotted pages, byte by byte.  After the header
stand the slots, growing up; tuples are put in from the end of the page down.

`Slotted p ts` says that page `p` holds the tuples `ts`, slot by slot.  `init` makes an
empty page (`slotted_init`), `insert` appends a tuple if there is room and else changes
nothing (`Slotted.insert_fits`, `Slotted.insert_noSpace`), `delete` empties a slot
(`Slotted.delete_eq`), `getData` reads tuples (`Slotted.getData_eq`), and a write inside a tuple
changes that tuple only (`Slotted.write`).
-/

import Abdb.Lib.Bytes
import Abdb.Page.Basic

namespace Abdb

open Lib

/-- A heap page: the bytes of its buffer, by offset below `PAGE_BUF_SIZE`. -/
structure HeapPage where
  data : ℕ → UInt8

namespace HeapPage

/-- Where a tuple lies on the page. -/
structure Slot where
  offset : ℕ
  length : ℕ
deriving DecidableEq, Repr

inductive Error
  | invalidIndex (idx : ℕ)
  | noSpace
  | corruption (text : String)
  /-- Not an error of the source: the code panics. -/
  | panic
deriving DecidableEq, Repr

/-- `HEADERS_SIZE`: the uber header, two `u16` and a `u32`. -/
def headersSize : ℕ := uberHeaderSize + 8

/-- The bytes of a slot. -/
def slotSize : ℕ := 4

@[simp] theorem headersSize_eq : headersSize = 24 := rfl
@[simp] theorem slotSize_eq : slotSize = 4 := rfl

/-- The number of `n` bytes at an offset. -/
def field (p : HeapPage) (o n : ℕ) : ℕ := ofLe (extract p.data o n)

/-- Bytes put over the buffer. -/
def write (p : HeapPage) (o : ℕ) (l : List UInt8) : HeapPage := ⟨overwrite p.data o l⟩

/-- A number put into `n` bytes. -/
def setField (p : HeapPage) (o n v : ℕ) : HeapPage := p.write o (toLe n v)

def numSlots (p : HeapPage) : ℕ := p.field uberHeaderSize 2

def dataOffset (p : HeapPage) : ℕ := p.field (uberHeaderSize + 2) 2

/-- Next page in the heap linked list (0 = end of list). -/
def nextPage (p : HeapPage) : LPageId := p.field (uberHeaderSize + 4) 4

def setNextPage (p : HeapPage) (id : LPageId) : HeapPage := p.setField (uberHeaderSize + 4) 4 id

/-- The page of zeros that `new_page` returns. -/
def zeroed : HeapPage := ⟨fun _ => 0⟩

def init (p : HeapPage) : HeapPage :=
  ((p.setField uberHeaderSize 2 0).setField (uberHeaderSize + 2) 2 pageBufSize).setNextPage 0

/-- The slot at an index, wherever that is in the buffer. -/
def slot (p : HeapPage) (idx : ℕ) : Slot :=
  ⟨p.field (headersSize + slotSize * idx) 2, p.field (headersSize + slotSize * idx + 2) 2⟩

def freeSpaceRemaining (p : HeapPage) : ℕ := p.dataOffset - (headersSize + p.numSlots * slotSize)

/-- `get_slot`: the slots in use are a prefix of those the buffer has room for. -/
def getSlot (p : HeapPage) (idx : ℕ) : Except Error Slot :=
  if (pageBufSize - headersSize) / slotSize < p.numSlots then
    .error (.corruption "num_slots is possibly corrupted")
  else if idx < p.numSlots then .ok (p.slot idx)
  else .error (.invalidIndex idx)

/-- Where `get_data` and `get_data_mut` find the bytes of a tuple. -/
def dataRange (p : HeapPage) (idx : ℕ) : Except Error Slot :=
  match p.getSlot idx with
  | .error e => .error e
  | .ok s =>
    if s.offset + s.length ≤ pageBufSize then .ok s
    else .error (.corruption s!"slot[{idx}] is possibly corrupted")

def getData (p : HeapPage) (idx : ℕ) : Except Error (List UInt8) :=
  match p.dataRange idx with
  | .error e => .error e
  | .ok s => .ok (extract p.data s.offset s.length)

/-- `insert`, with the page as it is then.  The free space bounds the length of the tuple, so
neither the cast to `u16` nor the subtraction wraps. -/
def insert (p : HeapPage) (tupleData : List UInt8) : HeapPage × Except Error SlotId :=
  if p.freeSpaceRemaining < tupleData.length + slotSize then (p, .error .noSpace)
  else
    let slotIdx := p.numSlots
    let newDataOffset := p.dataOffset - tupleData.length
    if pageBufSize < newDataOffset + tupleData.length then (p, .error .panic)
    else
      let p := p.write newDataOffset tupleData
      let p := (p.setField (uberHeaderSize + 2) 2 newDataOffset).setField uberHeaderSize 2 (slotIdx + 1)
      match p.getSlot slotIdx with
      | .error e => (p, .error e)
      | .ok _ =>
        let at' := headersSize + slotSize * slotIdx
        ((p.setField at' 2 newDataOffset).setField (at' + 2) 2 tupleData.length, .ok slotIdx)

/-- `delete`: the length of the slot is set to 0. -/
def delete (p : HeapPage) (slotIdx : ℕ) : HeapPage × Except Error Unit :=
  if p.numSlots ≤ slotIdx then (p, .error (.invalidIndex slotIdx))
  else
    match p.getSlot slotIdx with
    | .error e => (p, .error e)
    | .ok _ => (p.setField (headersSize + slotSize * slotIdx + 2) 2 0, .ok ())

/-! ### Fields -/

variable {p : HeapPage} {o n v o' n' i : ℕ} {l t : List UInt8} {ts : List (List UInt8)}

theorem field_write_of_apart (h : Apart o n o' l.length) : (p.write o' l).field o n = p.field o n := by
  rw [field, write, extract_overwrite_of_apart h, field]

theorem field_setField (h : v < 256 ^ n) : (p.setField o n v).field o n = v := by
  rw [field, setField, write, extract_overwrite (length_toLe n v).symm, ofLe_toLe h]

theorem field_setField_of_apart (h : Apart o n o' n') : (p.setField o' n' v).field o n = p.field o n :=
  field_write_of_apart (by rwa [length_toLe])

theorem field_lt (p : HeapPage) (o n : ℕ) : p.field o n < 256 ^ n := by
  have := ofLe_lt (extract p.data o n)
  rwa [length_extract] at this

theorem extract_setField_of_apart (h : Apart o n o' n') :
    extract (p.setField o' n' v).data o n = extract p.data o n :=
  extract_overwrite_of_apart (by rwa [length_toLe])

/-! ### Pages with tuples -/

/-- The ranges of two slots do not meet. -/
def Slot.Apart (s s' : Slot) : Prop := Lib.Apart s.offset s.length s'.offset s'.length

/-- **The page holds the tuples**: each at the slot of its index, above the slots and apart
from the others. -/
structure Slotted (p : HeapPage) (ts : List (List UInt8)) : Prop where
  numSlots : p.numSlots = ts.length
  room : headersSize + slotSize * ts.length ≤ p.dataOffset
  bound : p.dataOffset ≤ pageBufSize
  slot : ∀ i t, ts[i]? = some t → p.dataOffset ≤ (p.slot i).offset ∧ (p.slot i).length = t.length ∧
    (p.slot i).offset + t.length ≤ pageBufSize ∧ extract p.data (p.slot i).offset t.length = t
  apart : ∀ i j, i < j → j < ts.length → (p.slot i).Apart (p.slot j)

theorem dataOffset_init (p : HeapPage) : p.init.dataOffset = pageBufSize := by
  rw [dataOffset, init, setNextPage, field_setField_of_apart (by decide), field_setField (by decide)]

/-- `init` leaves the uber header alone. -/
theorem extract_init (p : HeapPage) :
    extract p.init.data 0 uberHeaderSize = extract p.data 0 uberHeaderSize := by
  rw [init, setNextPage, extract_setField_of_apart (by decide), extract_setField_of_apart (by decide),
    extract_setField_of_apart (by decide)]

theorem slotted_init (p : HeapPage) : Slotted p.init [] ∧ p.init.nextPage = 0 := by
  have hnum : p.init.numSlots = 0 := by
    rw [numSlots, init, setNextPage, field_setField_of_apart (by decide),
      field_setField_of_apart (by decide), field_setField (by decide)]
  refine ⟨⟨hnum, by rw [dataOffset_init]; decide, (dataOffset_init p).le, nofun, nofun⟩, ?_⟩
  rw [nextPage, init, setNextPage, field_setField (by decide)]

namespace Slotted

theorem length_le (h : Slotted p ts) : ts.length ≤ 1018 := by
  have h₁ := h.room
  have h₂ := h.bound
  simp only [headersSize_eq, slotSize_eq, pageBufSize] at h₁ h₂
  omega

theorem getSlot_eq (h : Slotted p ts) (i : ℕ) :
    p.getSlot i = if i < ts.length then .ok (p.slot i) else .error (.invalidIndex i) := by
  rw [getSlot, if_neg, h.numSlots]
  rw [h.numSlots]
  exact not_lt.2 h.length_le

theorem dataRange_eq (h : Slotted p ts) (i : ℕ) :
    p.dataRange i = if i < ts.length then .ok (p.slot i) else .error (.invalidIndex i) := by
  rw [dataRange, h.getSlot_eq]
  by_cases hi : i < ts.length
  · obtain ⟨-, hlen, hle, -⟩ := h.slot i ts[i] (List.getElem?_eq_getElem hi)
    rw [if_pos hi]
    dsimp only
    rw [hlen, if_pos hle]
  · rw [if_neg hi]

/-- **`get_data` reads the tuple of a slot.** -/
theorem getData_eq (h : Slotted p ts) (i : ℕ) : p.getData i =
    match ts[i]? with
    | some t => .ok t
    | none => .error (.invalidIndex i) := by
  rw [getData, h.dataRange_eq]
  by_cases hi : i < ts.length
  · obtain ⟨-, hlen, -, heq⟩ := h.slot i ts[i] (List.getElem?_eq_getElem hi)
    rw [if_pos hi, List.getElem?_eq_getElem hi]
    dsimp only
    rw [hlen, heq]
  · rw [if_neg hi, List.getElem?_eq_none (not_lt.1 hi)]

/-- The tuple has room, as a tuple and as a slot. -/
def Fits (p : HeapPage) (ts : List (List UInt8)) (t : List UInt8) : Prop :=
  headersSize + slotSize * (ts.length + 1) + t.length ≤ p.dataOffset

theorem freeSpace_lt_iff (h : Slotted p ts) :
    p.freeSpaceRemaining < t.length + slotSize ↔ ¬ Fits p ts t := by
  have := h.room
  rw [freeSpaceRemaining, h.numSlots, Fits]
  simp only [headersSize_eq, slotSize_eq] at this ⊢
  omega

/-- **No room, no change.** -/
theorem insert_noSpace (h : Slotted p ts) (ht : ¬ Fits p ts t) : p.insert t = (p, .error .noSpace) :=
  if_pos (h.freeSpace_lt_iff.2 ht)

/-- **`insert` appends a tuple that fits.** -/
theorem insert_fits (h : Slotted p ts) (ht : Fits p ts t) : ∃ p', p.insert t = (p', .ok ts.length) ∧
    Slotted p' (ts ++ [t]) ∧ p'.nextPage = p.nextPage ∧ p'.dataOffset = p.dataOffset - t.length ∧
    extract p'.data 0 uberHeaderSize = extract p.data 0 uberHeaderSize := by
  have hroom := h.room
  have hbound := h.bound
  have hfits := ht
  rw [Fits] at hfits
  simp only [headersSize_eq, slotSize_eq, pageBufSize] at hroom hbound hfits
  obtain ⟨new, hnew⟩ : ∃ new, new = p.dataOffset - t.length := ⟨_, rfl⟩
  obtain ⟨p₁, hp₁⟩ : ∃ p₁, p₁ = p.write new t := ⟨_, rfl⟩
  obtain ⟨p₂, hp₂⟩ : ∃ p₂, p₂ = (p₁.setField 18 2 new).setField 16 2 (ts.length + 1) := ⟨_, rfl⟩
  obtain ⟨p', hp'⟩ : ∃ p', p' = (p₂.setField (24 + 4 * ts.length) 2 new).setField
    (24 + 4 * ts.length + 2) 2 t.length := ⟨_, rfl⟩
  -- what is apart from the new tuple, its slot and the two header fields is as before
  have hkept : ∀ o n, Apart o n new t.length → Apart o n 18 2 → Apart o n 16 2 →
      Apart o n (24 + 4 * ts.length) 4 → extract p'.data o n = extract p.data o n := by
    intro o n h₁ h₂ h₃ h₄
    rw [hp', extract_setField_of_apart (by omega), extract_setField_of_apart (by omega), hp₂,
      extract_setField_of_apart h₃, extract_setField_of_apart h₂, hp₁]
    exact extract_overwrite_of_apart h₁
  have hnum₂ : p₂.numSlots = ts.length + 1 := by
    rw [hp₂]
    exact field_setField (by omega)
  have hnum : p'.numSlots = ts.length + 1 := by
    rw [hp', HeapPage.numSlots, field_setField_of_apart (by simp only [uberHeaderSize]; omega),
      field_setField_of_apart (by simp only [uberHeaderSize]; omega)]
    exact hnum₂
  have hoff : p'.dataOffset = new := by
    rw [hp', dataOffset, field_setField_of_apart (by simp only [uberHeaderSize]; omega),
      field_setField_of_apart (by simp only [uberHeaderSize]; omega), hp₂,
        field_setField_of_apart (by decide)]
    exact field_setField (by omega)
  have hslot : p'.slot ts.length = ⟨new, t.length⟩ := by
    rw [HeapPage.slot, hp', headersSize_eq, slotSize_eq]
    congr 1
    · rw [field_setField_of_apart (by omega), field_setField (by omega)]
    · rw [field_setField (by omega)]
  have hslots : ∀ i < ts.length, p'.slot i = p.slot i := by
    intro i hi
    rw [HeapPage.slot, HeapPage.slot, headersSize_eq, slotSize_eq]
    congr 1 <;> exact congrArg ofLe (hkept _ _ (by omega) (by omega) (by omega) (by omega))
  have hnew' : extract p'.data new t.length = t := by
    rw [hp', extract_setField_of_apart (by omega), extract_setField_of_apart (by omega), hp₂,
      extract_setField_of_apart (by omega), extract_setField_of_apart (by omega), hp₁]
    exact extract_overwrite rfl
  have hinsert : p.insert t = (p', .ok ts.length) := by
    have hget : p₂.getSlot ts.length = .ok (p₂.slot ts.length) := by
      rw [getSlot, hnum₂, if_neg (by simp [pageBufSize]; omega), if_pos (Nat.lt_succ_self _)]
    rw [HeapPage.insert, if_neg (not_not.2 ht ∘ h.freeSpace_lt_iff.1), h.numSlots]
    dsimp only
    rw [if_neg (by simp only [pageBufSize]; omega), ← hnew, ← hp₁]
    rw [show (p₁.setField (uberHeaderSize + 2) 2 new).setField uberHeaderSize 2 (ts.length + 1) = p₂
      from hp₂.symm, hget, hp']
    rfl
  refine ⟨p', hinsert, ⟨?_, ?_, ?_, fun i t' hi => ?_, fun i j hij hj => ?_⟩, ?_, hoff.trans hnew,
    hkept _ _ (by simp only [uberHeaderSize]; omega) (by decide) (by decide)
      (by simp only [uberHeaderSize]; omega)⟩
  · rw [hnum, List.length_append, List.length_singleton]
  · rw [hoff, List.length_append, List.length_singleton, headersSize_eq, slotSize_eq]
    omega
  · rw [hoff, pageBufSize]
    omega
  · rw [hoff]
    rcases lt_or_ge i ts.length with hlt | hge
    · rw [List.getElem?_append_left hlt] at hi
      obtain ⟨h₁, h₂, h₃, h₄⟩ := h.slot i t' hi
      rw [hslots i hlt]
      refine ⟨by omega, h₂, h₃, ?_⟩
      rw [hkept _ _ (by omega) (by omega) (by omega) (by omega), h₄]
    · obtain rfl : i = ts.length := by
        have := (List.getElem?_eq_some_iff.1 hi).1
        rw [List.length_append, List.length_singleton] at this
        omega
      rw [List.getElem?_concat_length, Option.some.injEq] at hi
      subst hi
      rw [hslot]
      exact ⟨le_rfl, rfl, by simp only [pageBufSize]; omega, hnew'⟩
  · rw [List.length_append, List.length_singleton] at hj
    rcases (Nat.lt_succ_iff_lt_or_eq.1 hj) with hlt | rfl
    · rw [hslots i (hij.trans hlt), hslots j hlt]
      exact h.apart i j hij hlt
    · obtain ⟨h₁, -⟩ := h.slot i ts[i] (List.getElem?_eq_getElem hij)
      rw [hslots i hij, hslot]
      exact Or.inr (by dsimp only; omega)
  · exact congrArg ofLe (hkept _ _ (by simp only [uberHeaderSize]; omega) (by decide) (by decide)
      (by simp only [uberHeaderSize]; omega))

/-- **`delete` empties a slot.** -/
theorem delete_eq (h : Slotted p ts) (i : ℕ) :
    (ts.length ≤ i → p.delete i = (p, .error (.invalidIndex i))) ∧
    (i < ts.length → ∃ p', p.delete i = (p', .ok ()) ∧ Slotted p' (ts.set i []) ∧
      p'.nextPage = p.nextPage ∧ p'.dataOffset = p.dataOffset ∧
      extract p'.data 0 uberHeaderSize = extract p.data 0 uberHeaderSize) := by
  have hroom := h.room
  simp only [headersSize_eq, slotSize_eq] at hroom
  constructor
  · intro hi
    rw [HeapPage.delete, h.numSlots, if_pos hi]
  intro hi
  obtain ⟨p', hp'⟩ : ∃ p', p' = p.setField (24 + 4 * i + 2) 2 0 := ⟨_, rfl⟩
  have hkept : ∀ o n, Apart o n (24 + 4 * i + 2) 2 → extract p'.data o n = extract p.data o n := by
    intro o n hon
    rw [hp', extract_setField_of_apart hon]
  have hfield : ∀ o n, Apart o n (24 + 4 * i + 2) 2 → p'.field o n = p.field o n :=
    fun o n hon => congrArg ofLe (hkept o n hon)
  have hslots : ∀ j, p'.slot j = if j = i then ⟨(p.slot i).offset, 0⟩ else p.slot j := by
    intro j
    rw [HeapPage.slot, headersSize_eq, slotSize_eq, hfield _ _ (by omega)]
    split_ifs with hj
    · subst hj
      rw [hp', field_setField (by decide)]
      rfl
    · rw [hfield _ _ (by omega)]
      rfl
  have hoff : p'.dataOffset = p.dataOffset := hfield _ _ (by simp only [uberHeaderSize]; omega)
  refine ⟨p', ?_, ⟨?_, ?_, ?_, fun j t hj => ?_, fun j k hjk hk => ?_⟩, ?_, hoff, ?_⟩
  · rw [HeapPage.delete, h.numSlots, if_neg (not_le.2 hi), h.getSlot_eq, if_pos hi, hp']
    rfl
  · rw [List.length_set, ← h.numSlots]
    exact hfield _ _ (by simp only [uberHeaderSize]; omega)
  · rw [hoff, List.length_set]
    exact h.room
  · rw [hoff]
    exact h.bound
  · rw [hoff, hslots]
    rcases eq_or_ne j i with rfl | hne
    · rw [List.getElem?_set_self hi, Option.some.injEq] at hj
      subst hj
      obtain ⟨h₁, -, h₃, -⟩ := h.slot j ts[j] (List.getElem?_eq_getElem hi)
      rw [if_pos rfl]
      exact ⟨h₁, rfl, by dsimp only [List.length_nil]; omega, rfl⟩
    · rw [List.getElem?_set_ne hne.symm] at hj
      obtain ⟨h₁, h₂, h₃, h₄⟩ := h.slot j t hj
      rw [if_neg hne]
      exact ⟨h₁, h₂, h₃, (hkept _ _ (by omega)).trans h₄⟩
  · rw [List.length_set] at hk
    have hapart := h.apart j k hjk hk
    rw [hslots, hslots]
    simp only [Slot.Apart] at hapart ⊢
    split_ifs with hj hk' hk'
    · omega
    · subst hj
      exact hapart.imp (fun hle => by dsimp only; omega) fun hle => hle
    · subst hk'
      exact hapart.imp (fun hle => hle) fun hle => by dsimp only; omega
    · exact hapart
  · exact hfield _ _ (by simp only [uberHeaderSize]; omega)
  · exact hkept _ _ (by simp only [uberHeaderSize]; omega)

theorem setNextPage (h : Slotted p ts) (id : LPageId) : Slotted (p.setNextPage id) ts := by
  have hkept : ∀ o n, Apart o n 20 4 → extract (p.setNextPage id).data o n = extract p.data o n :=
    fun o n => extract_setField_of_apart
  have hfield : ∀ o n, Apart o n 20 4 → (p.setNextPage id).field o n = p.field o n :=
    fun o n hon => congrArg ofLe (hkept o n hon)
  have hslot : ∀ i, (p.setNextPage id).slot i = p.slot i := by
    intro i
    rw [HeapPage.slot, HeapPage.slot, headersSize_eq, slotSize_eq]
    congr 1 <;> exact hfield _ _ (by omega)
  have hroom := h.room
  simp only [headersSize_eq, slotSize_eq] at hroom
  refine ⟨(hfield _ _ (by decide)).trans h.numSlots, ?_, ?_, fun i t hi => ?_, fun i j hij hj => ?_⟩
  · exact h.room.trans (hfield _ _ (by decide)).ge
  · exact (hfield _ _ (by decide)).trans_le h.bound
  · obtain ⟨h₁, h₂, h₃, h₄⟩ := h.slot i t hi
    rw [hslot]
    refine ⟨(hfield _ _ (by decide)).trans_le h₁, h₂, h₃, ?_⟩
    rw [hkept _ _ (by omega), h₄]
  · rw [hslot, hslot]
    exact h.apart i j hij hj

/-- **A write inside a tuple** changes that tuple only. -/
theorem write (h : Slotted p ts) {xs ys zs : List UInt8} (hi : ts[i]? = some (xs ++ ys ++ zs))
    (hl : l.length = ys.length) :
    Slotted (p.write ((p.slot i).offset + xs.length) l) (ts.set i (xs ++ l ++ zs)) ∧
      (p.write ((p.slot i).offset + xs.length) l).nextPage = p.nextPage := by
  obtain ⟨h₁, h₂, h₃, h₄⟩ := h.slot i _ hi
  have hlen : (xs ++ ys ++ zs).length = xs.length + ys.length + zs.length := by simp [Nat.add_assoc]
  have hroom := h.room
  simp only [headersSize_eq, slotSize_eq] at hroom
  obtain ⟨p', hp'⟩ : ∃ p', p' = p.write ((p.slot i).offset + xs.length) l := ⟨_, rfl⟩
  have hilt : i < ts.length := (List.getElem?_eq_some_iff.1 hi).1
  have hkept : ∀ o n, Apart o n (p.slot i).offset (xs ++ ys ++ zs).length →
      extract p'.data o n = extract p.data o n := by
    intro o n hon
    rw [hp']
    exact extract_overwrite_of_apart (by omega)
  have hfield : ∀ o n, o + n ≤ p.dataOffset → p'.field o n = p.field o n := fun o n hon =>
    congrArg ofLe (hkept o n (by omega))
  have hslot : ∀ j < ts.length, p'.slot j = p.slot j := by
    intro j hj
    rw [HeapPage.slot, HeapPage.slot, headersSize_eq, slotSize_eq]
    congr 1 <;> exact hfield _ _ (by omega)
  have hoff : p'.dataOffset = p.dataOffset := hfield _ _ (by simp only [uberHeaderSize]; omega)
  rw [← hp']
  refine ⟨⟨?_, ?_, ?_, fun j t hj => ?_, fun j k hjk hk => ?_⟩, ?_⟩
  · rw [List.length_set, ← h.numSlots]
    exact hfield _ _ (by simp only [uberHeaderSize]; omega)
  · rw [hoff, List.length_set]
    exact h.room
  · rw [hoff]
    exact h.bound
  · have hjlt : j < ts.length := by
      have := (List.getElem?_eq_some_iff.1 hj).1
      rwa [List.length_set] at this
    rw [hoff, hslot j hjlt]
    rcases eq_or_ne j i with rfl | hji
    · rw [List.getElem?_set_self hjlt, Option.some.injEq] at hj
      subst hj
      have hsame : (xs ++ l ++ zs).length = (xs ++ ys ++ zs).length := by simp [hl]
      rw [hsame]
      refine ⟨h₁, h₂, h₃, ?_⟩
      rw [hp']
      exact extract_overwrite_inside h₄ hl
    · rw [List.getElem?_set_ne hji.symm] at hj
      obtain ⟨g₁, g₂, g₃, g₄⟩ := h.slot j t hj
      refine ⟨g₁, g₂, g₃, ?_⟩
      have hapart : Lib.Apart (p.slot j).offset t.length (p.slot i).offset (xs ++ ys ++ zs).length := by
        rw [← g₂, ← h₂]
        rcases lt_or_gt_of_ne hji with hlt | hgt
        · exact h.apart j i hlt hilt
        · exact (h.apart i j hgt hjlt).symm
      rw [hkept _ _ hapart, g₄]
  · rw [List.length_set] at hk
    rw [hslot j (hjk.trans hk), hslot k hk]
    exact h.apart j k hjk hk
  · exact hfield _ _ (by simp only [uberHeaderSize]; omega)

end Slotted

theorem nextPage_setNextPage {id : LPageId} (h : id < 2 ^ 32) : (p.setNextPage id).nextPage = id :=
  field_setField (n := 4) h

end HeapPage
end Abdb
