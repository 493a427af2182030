/-
Bit fields of a machine word: reading a field of `n` bits at position `p`, and
replacing it. The two operations are written with shifts and masks, as C macros
write them; the lemmas describe them bit by bit, and everything else about fields
follows from those two descriptions.
-/
import Mathlib.Algebra.Group.Nat.Defs
import Mathlib.Tactic.Common

set_option autoImplicit false

namespace NostalgiaConv.BitField

variable {w : Nat}

/-- `n` one bits at position `p`. -/
def mask1 (n p : Nat) : BitVec w := (~~~(BitVec.allOnes w <<< n)) <<< p

/-- The field of `n` bits at position `p`. -/
def getField (n p : Nat) (x : BitVec w) : BitVec w := (x >>> p) &&& mask1 n 0

/-- `x` with the field of `n` bits at position `p` replaced by the low bits of `v`. -/
def setField (n p : Nat) (x v : BitVec w) : BitVec w :=
  (x &&& ~~~(mask1 n p)) ||| ((v <<< p) &&& mask1 n p)

theorem getLsbD_mask1 {n p i : Nat} (hi : i < w) :
    (mask1 n p : BitVec w).getLsbD i = decide (p ≤ i ∧ i < p + n) := by
  unfold mask1
  rw [BitVec.getLsbD_shiftLeft, BitVec.getLsbD_not, BitVec.getLsbD_shiftLeft,
    BitVec.getLsbD_allOnes]
  by_cases hp : i < p
  · have : ¬ p ≤ i := by omega
    simp [hp, this]
  · have hpi : p ≤ i := by omega
    have hiw : i - p < w := by omega
    by_cases hn : i - p < n
    · have : i < p + n := by omega
      simp [hi, hiw, hn, hpi, this]
    · have h1 : ¬ i < p + n := by omega
      have h2 : i - p - n < w := by omega
      simp [hi, hiw, hn, h1, h2]

theorem getLsbD_getField {n p i : Nat} (hi : i < w) (x : BitVec w) :
    (getField n p x).getLsbD i = (decide (i < n) && x.getLsbD (p + i)) := by
  unfold getField
  rw [BitVec.getLsbD_and, BitVec.getLsbD_ushiftRight, getLsbD_mask1 hi, Bool.and_comm]
  simp

theorem getLsbD_setField {n p i : Nat} (hi : i < w) (x v : BitVec w) :
    (setField n p x v).getLsbD i
      = if p ≤ i ∧ i < p + n then v.getLsbD (i - p) else x.getLsbD i := by
  unfold setField
  rw [BitVec.getLsbD_or, BitVec.getLsbD_and, BitVec.getLsbD_and, BitVec.getLsbD_not,
    getLsbD_mask1 hi, BitVec.getLsbD_shiftLeft]
  split_ifs with hin
  · have : ¬ i < p := by omega
    simp [hi, hin, this]
  · simp [hi, hin]

/-- Two words with the same bits in every field of a partition are equal; this
is the form for one cut, applied as often as there are cuts. -/
theorem getLsbD_eq_of_getField_eq {n p : Nat} {x y : BitVec w} (hw : p + n ≤ w)
    (h : getField n p x = getField n p y) {i : Nat} (hp : p ≤ i) (hn : i < p + n) :
    x.getLsbD i = y.getLsbD i := by
  have hbit : (getField n p x).getLsbD (i - p) = (getField n p y).getLsbD (i - p) := by rw [h]
  have hin : i - p < n := by omega
  have hsum : p + (i - p) = i := by omega
  rw [getLsbD_getField (by omega), getLsbD_getField (by omega), hsum] at hbit
  simpa [hin] using hbit

/-- A field read back is the low bits of what was stored. -/
theorem getField_setField_same {n p : Nat} (hw : p + n ≤ w) (x v : BitVec w) :
    getField n p (setField n p x v) = getField n 0 v := by
  apply BitVec.eq_of_getLsbD_eq
  intro i hi
  rw [getLsbD_getField hi, getLsbD_getField hi, Nat.zero_add]
  by_cases hn : i < n
  · have hin : p ≤ p + i ∧ p + i < p + n := by omega
    rw [getLsbD_setField (by omega), if_pos hin, Nat.add_sub_cancel_left]
  · simp [hn]

/-- Storing a field leaves every disjoint field alone. -/
theorem getField_setField_disjoint {n p m q : Nat} (hw : q + m ≤ w)
    (hdis : p + n ≤ q ∨ q + m ≤ p) (x v : BitVec w) :
    getField m q (setField n p x v) = getField m q x := by
  apply BitVec.eq_of_getLsbD_eq
  intro i hi
  rw [getLsbD_getField hi, getLsbD_getField hi]
  by_cases hm : i < m
  · have hout : ¬ (p ≤ q + i ∧ q + i < p + n) := by omega
    rw [getLsbD_setField (by omega), if_neg hout]
  · simp [hm]

/-- A field of a field at position zero is the field itself. -/
theorem getField_getField {n p : Nat} (x : BitVec w) :
    getField n 0 (getField n p x) = getField n p x := by
  apply BitVec.eq_of_getLsbD_eq
  intro i hi
  rw [getLsbD_getField hi, Nat.zero_add, getLsbD_getField hi]
  simp

/-- A field as a number. -/
theorem toNat_getField {n p : Nat} (x : BitVec w) :
    (getField n p x).toNat = x.toNat / 2 ^ p % 2 ^ n := by
  apply Nat.eq_of_testBit_eq
  intro i
  rw [BitVec.testBit_toNat, Nat.testBit_mod_two_pow, Nat.testBit_div_two_pow, BitVec.testBit_toNat,
    Nat.add_comm i p]
  by_cases hi : i < w
  · rw [getLsbD_getField hi]
  · rw [BitVec.getLsbD_of_ge _ i (by omega), BitVec.getLsbD_of_ge x (p + i) (by omega)]
    simp

/-- A value below `2 ^ n` is its own field of `n` bits. -/
theorem getField_eq_self {n : Nat} {v : BitVec w} (hv : v.toNat < 2 ^ n) :
    getField n 0 v = v := by
  apply BitVec.eq_of_getLsbD_eq
  intro i hi
  rw [getLsbD_getField hi, Nat.zero_add]
  by_cases hn : i < n
  · simp [hn]
  · have hle : 2 ^ n ≤ 2 ^ i := Nat.pow_le_pow_right (by omega) (by omega)
    have : v.getLsbD i = false := by
      rw [← BitVec.testBit_toNat]
      exact Nat.testBit_lt_two_pow (Nat.lt_of_lt_of_le hv hle)
    simp [this]

end NostalgiaConv.BitField
