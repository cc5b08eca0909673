/-
# Integers as binary64 numbers

`as f64` of an integer rounds it to 53 significant bits, ties to even (`round53`), and the bits of the
result are those of the binary64 format: sign, exponent with bias 1023, and 52 bits of the significand
(`ofInt`).  Floats are compared as their bits read in sign and magnitude (`cmp`), so integers are
compared as what they are rounded to (`cmp_ofInt`).

Rounding keeps the order (`round53_mono`), and the numbers of 53 bits (`round53_of_le`).  The number
nearest to a ratio of two naturals is `ofRatio`, as decimal numbers are read.
-/

import Mathlib.Algebra.Order.Ring.Int
import Mathlib.Order.Compare
import Mathlib.Tactic.Common
import Mathlib.Tactic.Ring

namespace Abdb
namespace Lib
namespace Binary64

/-- A number without its last `s` bits, to the nearest, ties to even. -/
def shiftEven (n s : ℕ) : ℕ :=
  if 2 ^ s < 2 * (n % 2 ^ s) ∨ 2 * (n % 2 ^ s) = 2 ^ s ∧ n / 2 ^ s % 2 = 1 then n / 2 ^ s + 1 else n / 2 ^ s

/-- The significand of a number, of 53 bits.  It is `2 ^ 53` where the number is rounded up to the next
power of two. -/
def significand (n : ℕ) : ℕ :=
  if n.log2 ≤ 52 then n * 2 ^ (52 - n.log2) else shiftEven n (n.log2 - 52)

/-- The number with 53 significant bits nearest to a number, ties to even. -/
def roundNat (n : ℕ) : ℕ := if n.log2 ≤ 52 then n else significand n * 2 ^ (n.log2 - 52)

/-- An integer rounded to 53 significant bits, ties to even. -/
def round53 (n : ℤ) : ℤ := if n < 0 then -roundNat n.natAbs else roundNat n.natAbs

/-- The bits of a number without the sign: the exponent and the significand without its first bit. -/
def magnitude (n : ℕ) : ℕ := if n = 0 then 0 else (n.log2 + 1023) * 2 ^ 52 + (significand n - 2 ^ 52)

/-- The bits of an integer `as f64`. -/
def ofInt (n : ℤ) : UInt64 :=
  if n < 0 then UInt64.ofNat (2 ^ 63 + magnitude n.natAbs) else UInt64.ofNat (magnitude n.natAbs)

/-- The bits of an infinity without the sign; above it are the NaNs. -/
def infinity : ℕ := 2047 * 2 ^ 52

/-- The bits of a positive ratio without the sign: the nearest float, ties to even.  A ratio in
`[2 ^ l, 2 ^ (l + 1))` is rounded to a multiple of `2 ^ (l - 52)`, and of `2 ^ (-1074)` if it is smaller. -/
def ofRatio (p q : ℕ) : ℕ :=
  if p = 0 then 0 else
  let l : ℤ := p.log2 - q.log2
  let l := if p * 2 ^ (-l).toNat < q * 2 ^ l.toNat then l - 1 else l
  let e := max (l - 52) (-1074)
  let n := p * 2 ^ (-e).toNat
  let d := q * 2 ^ e.toNat
  let s := if d < 2 * (n % d) ∨ 2 * (n % d) = d ∧ n / d % 2 = 1 then n / d + 1 else n / d
  min infinity ((e + 1074).toNat * 2 ^ 52 + s)

-- one tenth, and two numbers of 54 bits between floats
example : ofRatio 1 10 = 0x3FB999999999999A ∧ ofRatio (2 ^ 53 + 1) 1 = ofRatio (2 ^ 53) 1 ∧
    ofRatio (2 ^ 53 + 3) 1 = ofRatio (2 ^ 53 + 4) 1 := by
  decide

def isNaN (bits : UInt64) : Bool := infinity < bits.toNat % 2 ^ 63

/-- The bits of a float as a number, the sign apart. -/
def key (bits : UInt64) : ℤ := if bits.toNat < 2 ^ 63 then bits.toNat else -(bits.toNat % 2 ^ 63 : ℕ)

/-- `partial_cmp` of two floats: a NaN has no order, and the zeros are equal. -/
def cmp (a b : UInt64) : Option Ordering :=
  if isNaN a || isNaN b then none else some (compare (key a) (key b))

/-! ### The significand -/

section Significand

variable {n m : ℕ}

theorem shiftEven_bounds (n s : ℕ) : n / 2 ^ s ≤ shiftEven n s ∧ shiftEven n s ≤ n / 2 ^ s + 1 := by
  rw [shiftEven]
  split_ifs <;> omega

theorem shiftEven_mono (s : ℕ) (h : n ≤ m) : shiftEven n s ≤ shiftEven m s := by
  rcases (Nat.div_le_div_right h : n / 2 ^ s ≤ m / 2 ^ s).lt_or_eq with hlt | heq
  · exact (shiftEven_bounds n s).2.trans (hlt.trans_le (shiftEven_bounds m s).1)
  · have hn := Nat.div_add_mod n (2 ^ s)
    have hm := Nat.div_add_mod m (2 ^ s)
    rw [heq] at hn
    rw [shiftEven, shiftEven, heq]
    split_ifs <;> omega

theorem significand_bounds (hn : n ≠ 0) : 2 ^ 52 ≤ significand n ∧ significand n ≤ 2 ^ 53 := by
  have hle := Nat.log2_self_le hn
  have hlt := Nat.lt_log2_self (n := n)
  rw [significand]
  split_ifs with h
  · have hpow : 2 ^ n.log2 * 2 ^ (52 - n.log2) = 2 ^ 52 := by
      rw [← pow_add, Nat.add_sub_cancel' h]
    constructor
    · rw [← hpow]
      exact Nat.mul_le_mul_right _ hle
    · calc n * 2 ^ (52 - n.log2) ≤ 2 ^ (n.log2 + 1) * 2 ^ (52 - n.log2) := Nat.mul_le_mul_right _ hlt.le
        _ = 2 * (2 ^ n.log2 * 2 ^ (52 - n.log2)) := by ring
        _ = 2 ^ 53 := by rw [hpow]; rfl
  · have hpow : 2 ^ 52 * 2 ^ (n.log2 - 52) = 2 ^ n.log2 := by
      rw [← pow_add, Nat.add_sub_cancel' (Nat.le_of_not_le h)]
    obtain ⟨hlow, hhigh⟩ := shiftEven_bounds n (n.log2 - 52)
    constructor
    · exact ((Nat.le_div_iff_mul_le (Nat.two_pow_pos _)).2 (hpow ▸ hle)).trans hlow
    · refine hhigh.trans ((Nat.div_lt_iff_lt_mul (Nat.two_pow_pos _)).2 ?_)
      calc n < 2 * 2 ^ n.log2 := by rw [← pow_succ']; exact hlt
        _ = 2 ^ 53 * 2 ^ (n.log2 - 52) := by rw [← hpow]; ring

/-- A number is rounded to its significand, moved to its place. -/
theorem roundNat_mul : roundNat n * 2 ^ 52 = significand n * 2 ^ n.log2 := by
  rw [roundNat]
  split_ifs with h
  · rw [significand, if_pos h, mul_assoc, ← pow_add, Nat.sub_add_cancel h]
  · rw [mul_assoc, ← pow_add, Nat.sub_add_cancel (Nat.le_of_not_le h)]

/-- Between two powers of two the significand keeps the order. -/
theorem significand_mono (hlog : n.log2 = m.log2) (h : n ≤ m) : significand n ≤ significand m := by
  rw [significand, significand, hlog]
  split_ifs
  · exact Nat.mul_le_mul_right _ h
  · exact shiftEven_mono _ h

/-- **Rounding keeps the order.** -/
theorem roundNat_mono (h : n ≤ m) : roundNat n ≤ roundNat m := by
  rcases Nat.eq_zero_or_pos n with rfl | hn
  · exact Nat.zero_le _
  have hm : m ≠ 0 := by omega
  refine Nat.le_of_mul_le_mul_right ?_ (Nat.two_pow_pos 52)
  rw [roundNat_mul, roundNat_mul]
  have hlog : n.log2 ≤ m.log2 := (Nat.le_log2 hm).2 ((Nat.log2_self_le hn.ne').trans h)
  rcases hlog.lt_or_eq with hlt | heq
  · calc significand n * 2 ^ n.log2 ≤ 2 ^ 53 * 2 ^ n.log2 :=
          Nat.mul_le_mul_right _ (significand_bounds (by omega)).2
      _ = 2 ^ 52 * 2 ^ (n.log2 + 1) := by ring
      _ ≤ significand m * 2 ^ m.log2 :=
          Nat.mul_le_mul (significand_bounds hm).1 (Nat.pow_le_pow_right (by decide) hlt)
  · rw [heq]
    exact Nat.mul_le_mul_right _ (significand_mono heq h)

/-- Two floats in order, as bits and as numbers. -/
theorem bits_le_iff {e e' a b : ℕ} (ha : 2 ^ 52 ≤ a ∧ a ≤ 2 ^ 53) (hb : 2 ^ 52 ≤ b ∧ b ≤ 2 ^ 53) :
    (e + 1023) * 2 ^ 52 + (a - 2 ^ 52) ≤ (e' + 1023) * 2 ^ 52 + (b - 2 ^ 52) ↔
      a * 2 ^ e ≤ b * 2 ^ e' := by
  rcases Nat.lt_trichotomy e e' with hlt | rfl | hlt
  · obtain ⟨d, rfl⟩ := Nat.exists_eq_add_of_lt hlt
    refine iff_of_true (by omega) ?_
    calc a * 2 ^ e ≤ 2 ^ 53 * 2 ^ e := Nat.mul_le_mul_right _ ha.2
      _ ≤ 2 ^ 53 * 2 ^ (e + d) := Nat.mul_le_mul_left _ (Nat.pow_le_pow_right (by decide) (by omega))
      _ = 2 ^ 52 * 2 ^ (e + d + 1) := by ring
      _ ≤ b * 2 ^ (e + d + 1) := Nat.mul_le_mul_right _ hb.1
  · rw [Nat.mul_le_mul_right_iff (Nat.two_pow_pos e)]
    omega
  · obtain ⟨d, rfl⟩ := Nat.exists_eq_add_of_lt hlt
    have hpow : a * 2 ^ (e' + d + 1) = a * 2 ^ (d + 1) * 2 ^ e' := by ring
    rw [hpow, Nat.mul_le_mul_right_iff (Nat.two_pow_pos e')]
    cases d with
    | zero => omega
    | succ d =>
      have hfour : 4 ≤ 2 ^ (d + 1 + 1) := by
        rw [pow_succ, pow_succ]
        have := Nat.two_pow_pos d
        omega
      have hle := Nat.mul_le_mul_left a hfour
      refine iff_of_false (by omega) (by omega)

/-- **The bits of two numbers are in the order of what they are rounded to.** -/
theorem magnitude_le_iff : magnitude n ≤ magnitude m ↔ roundNat n ≤ roundNat m := by
  rw [magnitude, magnitude]
  split_ifs with hn hm hm
  · exact iff_of_true le_rfl (hn.trans hm.symm ▸ le_rfl)
  · rw [hn]
    exact iff_of_true (Nat.zero_le _) (Nat.zero_le _)
  · have hpos : 0 < roundNat n := by
      refine Nat.pos_of_mul_pos_right (b := 2 ^ 52) ?_
      rw [roundNat_mul]
      exact Nat.mul_pos ((Nat.two_pow_pos 52).trans_le (significand_bounds hn).1) (Nat.two_pow_pos _)
    rw [hm]
    exact iff_of_false (by omega) (Nat.not_le.2 hpos)
  · rw [bits_le_iff (significand_bounds hn) (significand_bounds hm), ← roundNat_mul, ← roundNat_mul,
      Nat.mul_le_mul_right_iff (Nat.two_pow_pos 52)]

/-- Numbers of at most 53 bits are kept. -/
theorem roundNat_of_le (h : n ≤ 2 ^ 53) : roundNat n = n := by
  rcases Nat.eq_zero_or_pos n with rfl | hn
  · rfl
  rcases h.lt_or_eq with hlt | rfl
  · have hlog : n.log2 < 53 := (Nat.log2_lt hn.ne').2 hlt
    rw [roundNat, if_pos (by omega)]
  · rfl

theorem magnitude_lt (h : n < 2 ^ 64) : magnitude n ≤ 1087 * 2 ^ 52 := by
  rw [magnitude]
  split_ifs with hn
  · exact Nat.zero_le _
  · have hlog := (Nat.log2_lt hn).2 h
    have hbound := (significand_bounds hn).2
    omega

end Significand

/-! ### Integers -/

section Integers

variable {n m : ℤ}

/-- **Rounding keeps the order** of integers. -/
theorem round53_mono (h : n ≤ m) : round53 n ≤ round53 m := by
  rw [round53, round53]
  split_ifs with hn hm hm
  · have := roundNat_mono (by omega : m.natAbs ≤ n.natAbs)
    omega
  · omega
  · omega
  · have := roundNat_mono (by omega : n.natAbs ≤ m.natAbs)
    omega

/-- The integers of 53 bits are kept. -/
theorem round53_of_le (h : n.natAbs ≤ 2 ^ 53) : round53 n = n := by
  rw [round53, roundNat_of_le h]
  split_ifs <;> omega

theorem roundNat_pos {k : ℕ} (hk : k ≠ 0) : 0 < roundNat k := by
  have hone : roundNat 1 ≤ roundNat k := roundNat_mono (Nat.one_le_iff_ne_zero.2 hk)
  exact hone

theorem toNat_ofInt (h : n.natAbs < 2 ^ 64) :
    (ofInt n).toNat = if n < 0 then 2 ^ 63 + magnitude n.natAbs else magnitude n.natAbs := by
  have hlt := magnitude_lt h
  rw [ofInt]
  split_ifs
  · exact Nat.mod_eq_of_lt (by omega)
  · exact Nat.mod_eq_of_lt (by omega)

/-- The key of an integer has its sign. -/
theorem key_ofInt (h : n.natAbs < 2 ^ 64) :
    key (ofInt n) = if n < 0 then -(magnitude n.natAbs : ℤ) else magnitude n.natAbs := by
  have hlt := magnitude_lt h
  rw [key, toNat_ofInt h]
  split_ifs <;> omega

theorem not_isNaN_ofInt (h : n.natAbs < 2 ^ 64) : isNaN (ofInt n) = false := by
  have hlt := magnitude_lt h
  refine decide_eq_false ?_
  rw [toNat_ofInt h, infinity]
  split_ifs <;> omega

theorem key_le_iff (hn : n.natAbs < 2 ^ 64) (hm : m.natAbs < 2 ^ 64) :
    key (ofInt n) ≤ key (ofInt m) ↔ round53 n ≤ round53 m := by
  rw [key_ofInt hn, key_ofInt hm, round53, round53]
  have hiff : magnitude n.natAbs ≤ magnitude m.natAbs ↔ roundNat n.natAbs ≤ roundNat m.natAbs :=
    magnitude_le_iff
  have hiff' : magnitude m.natAbs ≤ magnitude n.natAbs ↔ roundNat m.natAbs ≤ roundNat n.natAbs :=
    magnitude_le_iff
  have hzero : magnitude n.natAbs ≤ magnitude 0 ↔ roundNat n.natAbs ≤ roundNat 0 := magnitude_le_iff
  have hzero' : magnitude m.natAbs ≤ magnitude 0 ↔ roundNat m.natAbs ≤ roundNat 0 := magnitude_le_iff
  rw [show magnitude 0 = 0 from rfl, show roundNat 0 = 0 from rfl] at hzero hzero'
  split_ifs with hneg hneg' hneg'
  · omega
  · omega
  · have hpos := roundNat_pos (by omega : m.natAbs ≠ 0)
    omega
  · omega

/-- **Two integers are compared as what they are rounded to.** -/
theorem cmp_ofInt (hn : n.natAbs < 2 ^ 64) (hm : m.natAbs < 2 ^ 64) :
    cmp (ofInt n) (ofInt m) = some (compare (round53 n) (round53 m)) := by
  rw [cmp, not_isNaN_ofInt hn, not_isNaN_ofInt hm, Bool.or_false, if_neg Bool.false_ne_true]
  refine congrArg some ?_
  have hle := key_le_iff hn hm
  have hge := key_le_iff hm hn
  rcases lt_trichotomy (round53 n) (round53 m) with hlt | heq | hlt
  · rw [compare_lt_iff_lt.2 hlt, compare_lt_iff_lt.2 (by omega)]
  · rw [compare_eq_iff_eq.2 heq, compare_eq_iff_eq.2 (by omega)]
  · rw [compare_gt_iff_gt.2 hlt, compare_gt_iff_gt.2 (by omega)]

end Integers

end Binary64
end Lib
end Abdb
