/-
# UTF-8 with replacements

`String::from_utf8_lossy`: bytes that are no UTF-8 are replaced by U+FFFD, each longest start of a
character at once.  The bytes of a string give it back (`fromUtf8Lossy_toUTF8`).
-/

import Mathlib.Tactic.Common

namespace Abdb
namespace Lib

/-- A byte that continues a character. -/
def isTail (b : UInt8) : Bool := 0x80 ≤ b && b ≤ 0xBF

/-- The second byte may follow the first in a character of three or four bytes. -/
def continues (b c : UInt8) : Bool :=
  (b = 0xE0 && 0xA0 ≤ c && c ≤ 0xBF) || (0xE1 ≤ b && b ≤ 0xEC && isTail c) ||
  (b = 0xED && 0x80 ≤ c && c ≤ 0x9F) || (0xEE ≤ b && b ≤ 0xEF && isTail c) ||
  (b = 0xF0 && 0x90 ≤ c && c ≤ 0xBF) || (0xF1 ≤ b && b ≤ 0xF3 && isTail c) ||
  (b = 0xF4 && 0x80 ≤ c && c ≤ 0x8F)

/-- How many bytes one replacement stands for, where no character starts. -/
def badLen : List UInt8 → ℕ
  | b :: c :: d :: _ => if continues b c then if 0xF0 ≤ b && isTail d then 3 else 2 else 1
  | [b, c] => if continues b c then 2 else 1
  | _ => 1

/-- The characters of at most `n` steps. -/
def lossyChars : ℕ → List UInt8 → List Char
  | 0, _ => []
  | n + 1, bytes =>
    if bytes = [] then []
    else match bytes.toByteArray.utf8DecodeChar? 0 with
      | some c => c :: lossyChars n (bytes.drop c.utf8Size)
      | none => Char.ofNat 0xFFFD :: lossyChars n (bytes.drop (badLen bytes))

/-- `String::from_utf8_lossy`. -/
def fromUtf8Lossy (bytes : List UInt8) : String := String.ofList (lossyChars bytes.length bytes)

theorem toList_loop (bytes : ByteArray) (i : ℕ) (acc : List UInt8) :
    ByteArray.toList.loop bytes i acc = acc.reverse ++ bytes.data.toList.drop i := by
  fun_induction ByteArray.toList.loop bytes i acc with
  | case1 i acc h ih =>
    have hget : bytes.get! i = bytes.data.toList[i] := getElem!_pos bytes.data i h
    rw [ih, List.drop_eq_getElem_cons h, List.reverse_cons, hget, List.append_assoc]
    rfl
  | case2 i acc h =>
    rw [List.drop_eq_nil_of_le (Nat.le_of_not_lt h), List.append_nil]

/-- The bytes of a string, character by character. -/
theorem toUTF8_toList (s : String) : s.toUTF8.toList = s.toList.flatMap String.utf8EncodeChar := by
  have hdata : s.toUTF8.toList = s.toUTF8.data.toList := toList_loop _ 0 []
  have hencode : s.toUTF8 = (s.toList.flatMap String.utf8EncodeChar).toByteArray := by
    rw [String.toUTF8_eq_toByteArray, ← String.utf8Encode_toList, List.utf8Encode]
  rw [hdata, hencode, List.toList_data_toByteArray]

theorem lossyChars_encode (l : List Char) : ∀ n, (l.flatMap String.utf8EncodeChar).length ≤ n →
    lossyChars n (l.flatMap String.utf8EncodeChar) = l := by
  induction l with
  | nil => intro n _; cases n <;> rfl
  | cons c l ih =>
    intro n hn
    rw [List.flatMap_cons, List.length_append, String.length_utf8EncodeChar] at hn
    have hpos := c.utf8Size_pos
    obtain ⟨n, rfl⟩ : ∃ m, n = m + 1 := ⟨n - 1, by omega⟩
    have hne : String.utf8EncodeChar c ++ l.flatMap String.utf8EncodeChar ≠ [] :=
      List.append_ne_nil_of_left_ne_nil String.utf8EncodeChar_ne_nil _
    rw [List.flatMap_cons, lossyChars, if_neg hne, List.toByteArray_append,
      ByteArray.utf8DecodeChar?_utf8EncodeChar_append]
    simp only
    rw [← String.length_utf8EncodeChar, List.drop_left, ih n (by omega)]

/-- **The bytes of a string are its text.** -/
theorem fromUtf8Lossy_toUTF8 (s : String) : fromUtf8Lossy s.toUTF8.toList = s := by
  rw [fromUtf8Lossy, toUTF8_toList, lossyChars_encode _ _ (Nat.le_refl _), String.ofList_toList]

end Lib
end Abdb
