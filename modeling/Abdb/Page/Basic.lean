/-
# Identifiers, page types and overlay errors

`src/common/aliases.rs`, `src/common/constants.rs`, `src/page/header.rs` and
`src/page/overlays/index/error.rs`, as far as the index pages use them.

Page numbers, slots and index keys (`u64`) are the unsigned integers of the source read
as natural numbers: the index code compares and copies them and does no arithmetic on
them.  Page number `0` is the null link.
-/

import Mathlib.Algebra.Order.Ring.Nat
import Mathlib.Data.Nat.Notation
import Mathlib.Tactic.Common

namespace Abdb

/-- Logical page id (`u32`), resolved to a location by the page directory. -/
abbrev LPageId := ℕ

/-- Logical file id (`u32`). -/
abbrev FileId := ℕ

/-- Physical page id: an aligned offset in a file. -/
structure PPageId where
  file : FileId
  offset : ℕ
deriving DecidableEq, Repr

/-- The index of a slot within a heap page (`u16`). -/
abbrev SlotId := ℕ

/-- Points to a logical tuple. -/
structure RecordId where
  pageId : LPageId
  slotId : SlotId
deriving DecidableEq, Repr

/-- `PAGE_BUF_SIZE`, the bytes of one page. -/
def pageBufSize : ℕ := 4096

/-- `UBER_HEADER_SIZE`, the bytes of the header every page starts with. -/
def uberHeaderSize : ℕ := 16

/-- `PageType`, the kinds of page a header byte may name. -/
inductive PageType
  | unused | heapPage | btreeInner | btreeLeaf
  | heapFileHeader | indexFileHeader | directoryFileHeader
  | directoryInner | directoryLeaf
deriving DecidableEq, Repr

/-- `PageType::try_from`: the page type of a type byte, if it is one. -/
def PageType.tryFrom (v : ℕ) : Option PageType :=
  match v with
  | 0 => some .unused
  | 1 => some .heapPage
  | 2 => some .btreeInner
  | 3 => some .btreeLeaf
  | 32 => some .heapFileHeader
  | 33 => some .indexFileHeader
  | 34 => some .directoryFileHeader
  | 64 => some .directoryInner
  | 65 => some .directoryLeaf
  | _ => none

/-- `OverlayError`, the errors of the index overlays' page operations. -/
inductive OverlayError
  | pageFull (capacity attempted : ℕ)
  | duplicateKey (key : ℕ)
  | indexOutOfBounds (index max : ℕ)
deriving DecidableEq, Repr

end Abdb
