/-
# Reads and writes at offsets of a file

A file is a list of values.  A write at an offset past the end fills the gap with a zero (`writeAllAt`);
a read that goes past the end fails (`readExactAt`).  Reading where one wrote gives what was written
(`Holds.writeAllAt_self`), and a write apart from a range leaves it as it was, holding some values
(`Holds.writeAllAt`) or never written (`Blank.writeAllAt`).
-/

import Abdb.Lib.Bytes
import Mathlib.Data.Vector.Basic

namespace Abdb
namespace Lib

variable {α : Type*} {zero : α} {bytes buf buf' : List α} {o o' n : ℕ}

/-- `read_exact_at` into a buffer of `n` values: `none` at the end of the file. -/
def readExactAt (bytes : List α) (n offset : ℕ) : Option (List.Vector α n) :=
  if h : offset + n ≤ bytes.length then
    some ⟨(bytes.drop offset).take n, by rw [List.length_take, List.length_drop]; omega⟩
  else none

/-- `write_all_at` of a buffer that is not empty. -/
def writeAllAt (zero : α) (bytes buf : List α) (offset : ℕ) : List α :=
  bytes.take offset ++ List.replicate (offset - bytes.length) zero ++ buf ++ bytes.drop (offset + buf.length)

/-- The file has these values from an offset on. -/
def Holds (bytes : List α) (o : ℕ) (buf : List α) : Prop := ∀ i < buf.length, bytes[o + i]? = buf[i]?

/-- A range where nothing was written: past the end, or in a gap. -/
def Blank (zero : α) (bytes : List α) (o n : ℕ) : Prop := ∀ i < n, ∀ a, bytes[o + i]? = some a → a = zero

theorem getElem?_writeAllAt (i : ℕ) : (writeAllAt zero bytes buf o)[i]? =
    if i < o then (if i < bytes.length then bytes[i]? else some zero)
    else if i < o + buf.length then buf[i - o]? else bytes[i]? := by
  have hfront : (bytes.take o ++ List.replicate (o - bytes.length) zero).length = o := by
    rw [List.length_append, List.length_take, List.length_replicate]
    omega
  rw [writeAllAt, List.append_assoc]
  split
  · rename_i hi
    rw [List.getElem?_append_left (hfront.symm ▸ hi)]
    split
    · rw [List.getElem?_append_left (by rw [List.length_take]; omega), List.getElem?_take_of_lt hi]
    · rw [List.getElem?_append_right (by rw [List.length_take]; omega), List.getElem?_replicate, List.length_take,
        if_pos (by omega)]
  · rename_i hi
    rw [List.getElem?_append_right (by omega), hfront]
    split
    · rw [List.getElem?_append_left (by omega)]
    · rw [List.getElem?_append_right (by omega), List.getElem?_drop]
      congr 1
      omega

/-- What was written is there. -/
theorem Holds.writeAllAt_self : Holds (writeAllAt zero bytes buf o) o buf := by
  intro i hi
  rw [getElem?_writeAllAt, if_neg (by omega), if_pos (by omega), Nat.add_sub_cancel_left]

/-- **A write apart from it** leaves what a file holds. -/
theorem Holds.writeAllAt (h : Holds bytes o' buf') (hapart : Apart o' buf'.length o buf.length) :
    Holds (writeAllAt zero bytes buf o) o' buf' := by
  intro i hi
  have hbyte := h i hi
  have hlen : o' + i < bytes.length := by
    by_contra hlen
    rw [List.getElem?_eq_none (by omega), List.getElem?_eq_getElem hi] at hbyte
    cases hbyte
  rw [getElem?_writeAllAt, ← hbyte]
  rcases hapart with hapart | hapart
  · rw [if_pos (by omega), if_pos hlen]
  · rw [if_neg (by omega), if_neg (by omega)]

theorem Blank.nil : Blank zero [] o n := by
  intro i _ a h
  cases h

/-- **A write apart from it** leaves a blank range blank. -/
theorem Blank.writeAllAt (h : Blank zero bytes o' n) (hapart : Apart o' n o buf.length) :
    Blank zero (writeAllAt zero bytes buf o) o' n := by
  intro i hi a ha
  rw [getElem?_writeAllAt] at ha
  split at ha
  · split at ha
    · exact h i hi a ha
    · exact (Option.some.inj ha).symm
  · rw [if_neg (by omega)] at ha
    exact h i hi a ha

/-- Reading what a file holds. -/
theorem Holds.readExactAt {b : List.Vector α n} (h : Holds bytes o b.toList) (hn : 0 < n) :
    readExactAt bytes n o = some b := by
  have hb : b.toList.length = n := b.toList_length
  have hlen : o + n ≤ bytes.length := by
    have hlast := h (n - 1) (by omega)
    rw [List.getElem?_eq_getElem (show n - 1 < b.toList.length by omega)] at hlast
    obtain ⟨hlt, -⟩ := List.getElem?_eq_some_iff.1 hlast
    omega
  rw [Lib.readExactAt, dif_pos hlen]
  refine congrArg some (Subtype.ext (List.ext_getElem? fun i => ?_))
  by_cases hi : i < n
  · rw [List.getElem?_take_of_lt hi, List.getElem?_drop]
    exact h i (hb.symm ▸ hi)
  · rw [List.getElem?_eq_none (by rw [List.length_take]; omega), List.getElem?_eq_none (by exact hb.trans_le (by omega))]

/-- Reading a blank range. -/
theorem Blank.readExactAt (h : Blank zero bytes o n) :
    Lib.readExactAt bytes n o = none ∨ Lib.readExactAt bytes n o = some (List.Vector.replicate n zero) := by
  rw [Lib.readExactAt]
  split
  · rename_i hlen
    refine .inr (congrArg some (Subtype.ext (List.ext_getElem? fun i => ?_)))
    have hzeros : (List.Vector.replicate n zero).val = List.replicate n zero := rfl
    rw [hzeros, List.getElem?_replicate]
    split
    · rename_i hi
      have hlt : o + i < bytes.length := by omega
      rw [List.getElem?_take_of_lt hi, List.getElem?_drop, List.getElem?_eq_getElem hlt]
      exact congrArg some (h i hi _ (List.getElem?_eq_getElem hlt))
    · rw [List.getElem?_eq_none (by rw [List.length_take]; omega)]
  · exact .inl rfl

end Lib
end Abdb
