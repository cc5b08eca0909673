/-
# Data types and values

`src/databox/databox.rs`: the types a column can have and the values a row holds.

Floats are kept as their bits: nothing here computes with them.
-/

import Mathlib.Data.Nat.Notation

namespace Abdb

/-- `DataType`, the type of a column or an expression. -/
inductive DataType
  | bool
  | i8 | i16 | i32 | i64
  | u8 | u16 | u32 | u64
  | f32 | f64
  | string
deriving DecidableEq, Repr

/-- `Value`, a value of one of the data types, or NULL. -/
inductive Value
  | bool (v : Bool)
  | i8 (v : Int8) | i16 (v : Int16) | i32 (v : Int32) | i64 (v : Int64)
  | u8 (v : UInt8) | u16 (v : UInt16) | u32 (v : UInt32) | u64 (v : UInt64)
  | f32 (bits : UInt32) | f64 (bits : UInt64)
  | string (v : String)
  | null
deriving DecidableEq, Repr

/-- A row of a table or of a plan's output. -/
abbrev Row := List Value

end Abdb
