/-
# Tuple headers and visibility

`src/accessor/visibility.rs` and `src/common/txn.rs`.  A stored tuple starts with the
transactions that created and deleted it.  `Version` is a tuple taken apart; what the code
reads off its bytes is what was put in (`readXmin_bytes`, `readXmax_bytes`,
`isVisible_bytes`).
-/

import Abdb.Lib.Bytes
import Abdb.Page.Basic
import Mathlib.Data.UInt

namespace Abdb

open Lib

abbrev TxnId := UInt64

inductive IsolationLevel
  | readUncommitted
  | readCommitted
  | snapshot
deriving DecidableEq, Repr

structure Txn where
  id : TxnId
  isolation : IsolationLevel
deriving DecidableEq, Repr

namespace Heap

/-- `TUPLE_HEADER_SIZE`: `u64` XMIN and `u64` XMAX. -/
def tupleHeaderSize : ℕ := 16

/-- The creating transaction.  Read of a tuple with a header only. -/
def readXmin (tuple : List UInt8) : TxnId := .ofNat (ofLe (tuple.take 8))

/-- The deleting transaction, 0 if there is none.  Read of a tuple with a header only. -/
def readXmax (tuple : List UInt8) : TxnId := .ofNat (ofLe ((tuple.drop 8).take 8))

def makeHeader (xmin : TxnId) : List UInt8 := toLe 8 xmin.toNat ++ List.replicate 8 0

/-- The rules by isolation level. -/
def passes (xmin xmax : TxnId) (txn : Txn) : Bool :=
  match txn.isolation with
  | .readUncommitted => xmax = 0 || txn.id < xmax
  | .readCommitted | .snapshot => xmin ≤ txn.id && (xmax = 0 || txn.id < xmax)

/-- Check whether a tuple is visible to the given transaction. -/
def isVisible (tuple : List UInt8) (txn : Txn) : Bool :=
  if tuple.length < tupleHeaderSize then false else passes (readXmin tuple) (readXmax tuple) txn

/-- A stored tuple, header and user data. -/
structure Version where
  xmin : TxnId
  xmax : TxnId
  data : List UInt8
deriving DecidableEq, Repr

namespace Version

def bytes (v : Version) : List UInt8 := toLe 8 v.xmin.toNat ++ toLe 8 v.xmax.toNat ++ v.data

variable {v : Version}

@[simp] theorem length_bytes : v.bytes.length = tupleHeaderSize + v.data.length := by
  simp [bytes, tupleHeaderSize]
  omega

theorem ofNat_ofLe (x : TxnId) : UInt64.ofNat (ofLe (toLe 8 x.toNat)) = x := by
  rw [ofLe_toLe x.toNat_lt, UInt64.ofNat_toNat]

theorem readXmin_bytes : readXmin v.bytes = v.xmin := by
  rw [readXmin, bytes, List.append_assoc, List.take_left' (length_toLe ..), ofNat_ofLe]

theorem readXmax_bytes : readXmax v.bytes = v.xmax := by
  rw [readXmax, bytes, List.append_assoc, List.drop_left' (length_toLe ..),
    List.take_left' (length_toLe ..), ofNat_ofLe]

theorem drop_bytes : v.bytes.drop tupleHeaderSize = v.data :=
  List.drop_left' (by simp [tupleHeaderSize])

/-- **Visibility is a matter of XMIN and XMAX.** -/
theorem isVisible_bytes {txn : Txn} : isVisible v.bytes txn = passes v.xmin v.xmax txn := by
  rw [isVisible, if_neg (by rw [length_bytes]; omega), readXmin_bytes, readXmax_bytes]

/-- A version as `insert` builds it. -/
theorem bytes_new (xmin : TxnId) (data : List UInt8) :
    makeHeader xmin ++ data = bytes ⟨xmin, 0, data⟩ :=
  congrArg (fun l => toLe 8 xmin.toNat ++ l ++ data) (show List.replicate 8 0 = toLe 8 0 by decide)

end Version

/-- Bytes with a header are those of a version. -/
theorem exists_bytes {tuple : List UInt8} (h : tupleHeaderSize ≤ tuple.length) :
    ∃ v : Version, tuple = v.bytes := by
  have hword : ∀ l : List UInt8, l.length = 8 → toLe 8 (UInt64.ofNat (ofLe l)).toNat = l := by
    intro l hl
    have hlt := ofLe_lt l
    rw [hl] at hlt
    rw [UInt64.toNat_ofNat_of_lt' hlt, ← hl, toLe_ofLe]
  simp only [tupleHeaderSize] at h
  refine ⟨⟨readXmin tuple, readXmax tuple, tuple.drop 16⟩, ?_⟩
  rw [Version.bytes, readXmin, readXmax, hword _ (by simp; omega), hword _ (by simp; omega),
    List.append_assoc]
  conv_lhs => rw [← List.take_append_drop 8 tuple, ← List.take_append_drop 8 (tuple.drop 8),
    List.drop_drop]

end Heap
end Abdb
