/-
# A heap page is a list of cells

`src/page/overlays/table/heap_page.rs` for a caller: each slot has the bytes that were inserted
as it, until it is deleted.  `Cells.exec` says what `insert` and `delete` return and what becomes
of the list; on every page that `init` has made the code does the same, whatever the calls
(`heap_page_refines`).
-/

import Abdb.Page.Heap

namespace Abdb

open Lib

namespace HeapPage

/-- A call on a page. -/
inductive Call
  | insert (tupleData : List UInt8)
  | delete (slotIdx : ℕ)
deriving DecidableEq, Repr

/-- What a call returns. -/
inductive Reply
  | slot (result : Except Error SlotId)
  | unit (result : Except Error Unit)

/-- A call, with the page it leaves. -/
def exec (p : HeapPage) : Call → HeapPage × Reply
  | .insert tupleData => ((p.insert tupleData).1, .slot (p.insert tupleData).2)
  | .delete slotIdx => ((p.delete slotIdx).1, .unit (p.delete slotIdx).2)

/-- Calls one after the other, with their replies. -/
def run (p : HeapPage) : List Call → HeapPage × List Reply
  | [] => (p, [])
  | c :: cs => ((run (p.exec c).1 cs).1, (p.exec c).2 :: (run (p.exec c).1 cs).2)

end HeapPage

/-- What was inserted as a slot, and whether it has been deleted. -/
structure Cell where
  bytes : List UInt8
  deleted : Bool
deriving DecidableEq, Repr

namespace Cell

/-- What `get_data` should return. -/
def content (c : Cell) : List UInt8 := if c.deleted then [] else c.bytes

def delete (c : Cell) : Cell := { c with deleted := true }

@[simp] theorem content_delete (c : Cell) : c.delete.content = [] := rfl

end Cell

/-- The cells of a page, by slot. -/
abbrev Cells := List Cell

namespace Cells

open HeapPage (Call Reply)

/-- The total number of bytes inserted, deleted since or not. -/
def total (cs : Cells) : ℕ := (cs.map fun c => c.bytes.length).sum

/-- The page has room for the tuple and its slot. -/
def Room (cs : Cells) (tupleData : List UInt8) : Prop :=
  24 + 4 * (cs.length + 1) + cs.total + tupleData.length ≤ 4096

instance (cs : Cells) (tupleData : List UInt8) : Decidable (cs.Room tupleData) :=
  inferInstanceAs (Decidable (_ ≤ _))

/-- What a call should return and do. -/
def exec (cs : Cells) : Call → Cells × Reply
  | .insert tupleData =>
    if cs.Room tupleData then (cs ++ [⟨tupleData, false⟩], .slot (.ok cs.length))
    else (cs, .slot (.error .noSpace))
  | .delete slotIdx =>
    if slotIdx < cs.length then (cs.modify slotIdx Cell.delete, .unit (.ok ()))
    else (cs, .unit (.error (.invalidIndex slotIdx)))

def run (cs : Cells) : List Call → Cells × List Reply
  | [] => (cs, [])
  | c :: calls => ((run (cs.exec c).1 calls).1, (cs.exec c).2 :: (run (cs.exec c).1 calls).2)

/-- What `get_data` should return. -/
def get (cs : Cells) (idx : ℕ) : Except HeapPage.Error (List UInt8) :=
  match cs[idx]? with
  | some c => .ok c.content
  | none => .error (.invalidIndex idx)

variable {cs : Cells} {i : ℕ} {t : List UInt8}

theorem total_append : total (cs ++ [⟨t, false⟩]) = cs.total + t.length := by
  rw [total, List.map_append, List.sum_append, total]
  rfl

theorem total_modify : total (cs.modify i Cell.delete) = cs.total := by
  rw [total, total]
  congr 1
  refine List.ext_getElem? fun j => ?_
  rw [List.getElem?_map, List.getElem?_modify, List.getElem?_map]
  cases cs[j]? with
  | none => rfl
  | some c =>
    dsimp only [Option.map_eq_map, Option.map_some]
    split_ifs <;> rfl

theorem content_modify (hi : i < cs.length) :
    (cs.modify i Cell.delete).map Cell.content = (cs.map Cell.content).set i [] := by
  refine List.ext_getElem? fun j => ?_
  rw [List.getElem?_map, List.getElem?_modify, List.getElem?_set, List.length_map, List.getElem?_map]
  by_cases hij : i = j
  · subst hij
    rw [if_pos rfl, if_pos hi, List.getElem?_eq_getElem hi]
    simp
  · rw [if_neg hij]
    simp [hij]

end Cells

namespace HeapPage

variable {p p₀ : HeapPage} {cs : Cells}

/-- **The page is the list of cells**: what it holds, how far down it is filled, and what every
call leaves alone. -/
structure Refines (p₀ p : HeapPage) (cs : Cells) : Prop where
  slotted : p.Slotted (cs.map Cell.content)
  dataOffset : p.dataOffset + cs.total = pageBufSize
  nextPage : p.nextPage = p₀.nextPage
  uberHeader : extract p.data 0 uberHeaderSize = extract p₀.data 0 uberHeaderSize

theorem refines_init (p : HeapPage) : Refines p.init p.init [] :=
  ⟨(slotted_init p).1, dataOffset_init p, rfl, rfl⟩

namespace Refines

theorem fits_iff (h : Refines p₀ p cs) (t : List UInt8) :
    Slotted.Fits p (cs.map Cell.content) t ↔ cs.Room t := by
  have hoff := h.dataOffset
  rw [Slotted.Fits, Cells.Room, List.length_map]
  simp only [headersSize_eq, slotSize_eq, pageBufSize] at hoff ⊢
  omega

theorem numSlots (h : Refines p₀ p cs) : p.numSlots = cs.length := by
  rw [h.slotted.numSlots, List.length_map]

/-- **A call on the page does what it does on the cells.** -/
theorem exec (h : Refines p₀ p cs) (c : Call) :
    (p.exec c).2 = (cs.exec c).2 ∧ Refines p₀ (p.exec c).1 (cs.exec c).1 := by
  cases c with
  | insert t =>
    rw [HeapPage.exec, Cells.exec]
    by_cases hroom : cs.Room t
    · obtain ⟨p', hinsert, hslotted, hnext, hoff, hhead⟩ := h.slotted.insert_fits ((h.fits_iff t).2 hroom)
      rw [hinsert, if_pos hroom, List.length_map]
      refine ⟨rfl, ?_, ?_, hnext.trans h.nextPage, hhead.trans h.uberHeader⟩
      · rw [List.map_append]
        exact hslotted
      · have hbefore := h.dataOffset
        rw [Cells.Room] at hroom
        rw [hoff, Cells.total_append]
        simp only [pageBufSize] at hbefore ⊢
        omega
    · rw [h.slotted.insert_noSpace (mt (h.fits_iff t).1 hroom), if_neg hroom]
      exact ⟨rfl, h⟩
  | delete i =>
    rw [HeapPage.exec, Cells.exec]
    obtain ⟨hout, hin⟩ := h.slotted.delete_eq i
    rw [List.length_map] at hout hin
    by_cases hi : i < cs.length
    · obtain ⟨p', hdelete, hslotted, hnext, hoff, hhead⟩ := hin hi
      rw [hdelete, if_pos hi]
      refine ⟨rfl, ?_, ?_, hnext.trans h.nextPage, hhead.trans h.uberHeader⟩
      · rw [Cells.content_modify hi]
        exact hslotted
      · rw [hoff, Cells.total_modify]
        exact h.dataOffset
    · rw [hout (not_lt.1 hi), if_neg hi]
      exact ⟨rfl, h⟩

/-- **So do all calls of a sequence.** -/
theorem run (h : Refines p₀ p cs) (calls : List Call) :
    (p.run calls).2 = (cs.run calls).2 ∧ Refines p₀ (p.run calls).1 (cs.run calls).1 := by
  induction calls generalizing p cs with
  | nil => exact ⟨rfl, h⟩
  | cons c calls ih =>
    obtain ⟨hreply, hnext⟩ := h.exec c
    obtain ⟨hreplies, hend⟩ := ih hnext
    rw [HeapPage.run, Cells.run]
    exact ⟨by rw [hreply, hreplies], hend⟩

theorem getData_eq (h : Refines p₀ p cs) (i : ℕ) : p.getData i = cs.get i := by
  rw [h.slotted.getData_eq, Cells.get, List.getElem?_map]
  cases cs[i]? <;> rfl

end Refines

/-- What the calls and reads of a page tell about it, if it is a list of cells. -/
structure Presents (p₀ p : HeapPage) (cs : Cells) : Prop where
  numSlots : p.numSlots = cs.length
  getData : ∀ i, p.getData i = cs.get i
  noSpace : ∀ t : List UInt8, 4096 < 24 + 4 * (p.numSlots + 1) + cs.total + t.length →
    p.insert t = (p, .error .noSpace)
  space : ∀ t : List UInt8, 24 + 4 * (p.numSlots + 1) + cs.total + t.length ≤ 4096 →
    (p.insert t).2 = .ok p.numSlots
  /-- The tuples lie above the slots, within the page and apart from each other. -/
  slots : 24 + 4 * p.numSlots ≤ p.dataOffset
  range : ∀ i < p.numSlots, p.dataOffset ≤ (p.slot i).offset ∧
    (p.slot i).offset + (p.slot i).length ≤ 4096
  apart : ∀ i j, i < j → j < p.numSlots → (p.slot i).Apart (p.slot j)
  nextPage : p.nextPage = p₀.nextPage
  uberHeader : extract p.data 0 16 = extract p₀.data 0 16

theorem Refines.presents (h : Refines p₀ p cs) : Presents p₀ p cs where
  numSlots := h.numSlots
  getData := h.getData_eq
  noSpace t hfull := by
    refine h.slotted.insert_noSpace (mt (h.fits_iff t).1 ?_)
    rw [Cells.Room, ← h.numSlots]
    exact not_le.2 hfull
  space t hroom := by
    rw [h.numSlots] at hroom ⊢
    obtain ⟨p', hinsert, -⟩ := h.slotted.insert_fits ((h.fits_iff t).2 hroom)
    rw [hinsert, List.length_map]
  slots := by
    have hroom := h.slotted.room
    rwa [List.length_map, ← h.numSlots] at hroom
  range i hi := by
    rw [h.slotted.numSlots] at hi
    obtain ⟨hle, hlen, hbound, -⟩ := h.slotted.slot i _ (List.getElem?_eq_getElem hi)
    exact ⟨hle, hlen ▸ hbound⟩
  apart i j hij hj := by
    rw [h.slotted.numSlots] at hj
    exact h.slotted.apart i j hij hj
  nextPage := h.nextPage
  uberHeader := h.uberHeader

/-- **A heap page is a list of cells**, from `init` on and whatever the calls. -/
theorem heap_page_refines (p : HeapPage) (calls : List Call) :
    (p.init.run calls).2 = (Cells.run [] calls).2 ∧
      Presents p.init (p.init.run calls).1 (Cells.run [] calls).1 ∧
      extract p.init.data 0 16 = extract p.data 0 16 := by
  obtain ⟨hreplies, hrefines⟩ := (refines_init p).run calls
  exact ⟨hreplies, hrefines.presents, extract_init p⟩

example : (Cells.run [] [.insert [1, 2], .insert [3], .delete 0, .delete 5]).1 =
    [⟨[1, 2], true⟩, ⟨[3], false⟩] := by decide

end HeapPage
end Abdb
