/-
Solving a triangular equation over machine words, one bit at a time.

A word function is *triangular* when the low `k` bits of its result depend on
the low `k` bits of its argument only, and setting bit `k` of an argument flips
bit `k` of the result. Sums, products and exclusive ors of words are all of the
first kind, because carries run upwards; an odd factor gives the second. For
such a function `f x = y` has exactly one solution in the low bits, and the
greedy pass that decides the bits from the lowest up finds it without going
back. Nothing here is about a particular cipher.
-/
import Mathlib.Algebra.Group.Nat.Defs
import Mathlib.Tactic.Common

set_option autoImplicit false

namespace NostalgiaConv.TriangularSolve

variable {w : Nat}

/-! ## Agreement in the low bits -/

/-- The words `x` and `y` agree modulo `2 ^ k`, stated bit by bit. -/
def LowEq (k : Nat) (x y : BitVec w) : Prop :=
  ∀ i, i < k → x.getLsbD i = y.getLsbD i

/-- Below the width, agreement in the low `k` bits is equality of truncations.
This is how the arithmetic of `BitVec` is reached. -/
theorem lowEq_iff_setWidth {k : Nat} (x y : BitVec w) :
    LowEq k x y ↔ x.setWidth k = y.setWidth k := by
  constructor
  · intro h
    apply BitVec.eq_of_getLsbD_eq
    intro i hi
    rw [BitVec.getLsbD_setWidth, BitVec.getLsbD_setWidth, h i hi]
  · intro h i hi
    have hb : (x.setWidth k).getLsbD i = (y.setWidth k).getLsbD i := by rw [h]
    simpa only [BitVec.getLsbD_setWidth, hi, decide_true, Bool.true_and] using hb

theorem LowEq.refl (k : Nat) (x : BitVec w) : LowEq k x x := fun _ _ => rfl

theorem LowEq.symm {k : Nat} {x y : BitVec w} (h : LowEq k x y) : LowEq k y x :=
  fun i hi => (h i hi).symm

theorem LowEq.trans {k : Nat} {x y z : BitVec w} (h : LowEq k x y) (h' : LowEq k y z) :
    LowEq k x z :=
  fun i hi => (h i hi).trans (h' i hi)

theorem LowEq.mono {j k : Nat} {x y : BitVec w} (hjk : j ≤ k) (h : LowEq k x y) :
    LowEq j x y :=
  fun i hi => h i (Nat.lt_of_lt_of_le hi hjk)

/-- Agreement in the low `k` bits is congruence modulo `2 ^ k`. -/
theorem lowEq_iff_toNat_mod {k : Nat} (x y : BitVec w) :
    LowEq k x y ↔ x.toNat % 2 ^ k = y.toNat % 2 ^ k := by
  rw [lowEq_iff_setWidth, ← BitVec.toNat_inj, BitVec.toNat_setWidth, BitVec.toNat_setWidth]

/-- One more bit: agreement below `k` and at `k`. -/
theorem LowEq.succ {k : Nat} {x y : BitVec w} (h : LowEq k x y)
    (hk : x.getLsbD k = y.getLsbD k) : LowEq (k + 1) x y := by
  intro i hi
  rcases Nat.lt_succ_iff_lt_or_eq.mp hi with hlt | rfl
  · exact h i hlt
  · exact hk

theorem LowEq.add {k : Nat} {x x' y y' : BitVec w} (hk : k ≤ w)
    (hx : LowEq k x x') (hy : LowEq k y y') : LowEq k (x + y) (x' + y') := by
  rw [lowEq_iff_setWidth] at hx hy ⊢
  rw [BitVec.setWidth_add _ _ hk, BitVec.setWidth_add _ _ hk, hx, hy]

theorem LowEq.mul {k : Nat} {x x' y y' : BitVec w} (hk : k ≤ w)
    (hx : LowEq k x x') (hy : LowEq k y y') : LowEq k (x * y) (x' * y') := by
  rw [lowEq_iff_setWidth] at hx hy ⊢
  rw [BitVec.setWidth_mul _ _ hk, BitVec.setWidth_mul _ _ hk, hx, hy]

theorem LowEq.sub {k : Nat} {x x' y y' : BitVec w} (hk : k ≤ w)
    (hx : LowEq k x x') (hy : LowEq k y y') : LowEq k (x - y) (x' - y') := by
  rw [BitVec.sub_eq_add_neg, BitVec.sub_eq_add_neg]
  refine LowEq.add hk hx ?_
  rw [lowEq_iff_setWidth] at hy ⊢
  rw [BitVec.setWidth_neg_of_le hk, BitVec.setWidth_neg_of_le hk, hy]

theorem LowEq.xor {k : Nat} {x x' y y' : BitVec w}
    (hx : LowEq k x x') (hy : LowEq k y y') : LowEq k (x ^^^ y) (x' ^^^ y') := by
  intro i hi
  rw [BitVec.getLsbD_xor, BitVec.getLsbD_xor, hx i hi, hy i hi]

/-! ## Adding one bit -/

/-- Adding `2 ^ k` flips bit `k`: no carry arrives from below. -/
theorem getLsbD_add_twoPow {k : Nat} (hk : k < w) (x : BitVec w) :
    (x + BitVec.twoPow w k).getLsbD k = !x.getLsbD k := by
  have hcarry : BitVec.carry k x (BitVec.twoPow w k) false = false := by
    have hlt : x.toNat % 2 ^ k < 2 ^ k := Nat.mod_lt _ (Nat.two_pow_pos k)
    simp only [BitVec.carry, BitVec.toNat_twoPow_of_lt hk, Nat.mod_self, Bool.toNat_false,
      decide_eq_false_iff_not]
    omega
  rw [BitVec.getLsbD_add hk, hcarry, BitVec.getLsbD_twoPow]
  simp [hk]

/-- Setting a clear bit is adding it. -/
theorem or_twoPow_eq_add {k : Nat} {x : BitVec w} (hx : x.getLsbD k = false) :
    x ||| BitVec.twoPow w k = x + BitVec.twoPow w k := by
  refine (BitVec.add_eq_or_of_and_eq_zero _ _ ?_).symm
  rw [BitVec.and_twoPow, hx]
  simp

/-- What a factor contributes at bit `k`: an odd one the bit itself. -/
theorem lowEq_odd_mul_twoPow {k : Nat} {c : BitVec w} (hc : c.getLsbD 0 = true) :
    LowEq (k + 1) (c * BitVec.twoPow w k) (BitVec.twoPow w k) := by
  intro i hi
  rw [BitVec.mul_twoPow_eq_shiftLeft, BitVec.getLsbD_shiftLeft, BitVec.getLsbD_twoPow]
  rcases Nat.lt_succ_iff_lt_or_eq.mp hi with hlt | rfl
  · have hne : k ≠ i := by omega
    simp [hlt, hne]
  · simp [hc]

/-- An even factor contributes nothing at bit `k`. -/
theorem lowEq_even_mul_twoPow {k : Nat} {c : BitVec w} (hc : c.getLsbD 0 = false) :
    LowEq (k + 1) (c * BitVec.twoPow w k) 0 := by
  intro i hi
  rw [BitVec.mul_twoPow_eq_shiftLeft, BitVec.getLsbD_shiftLeft]
  rcases Nat.lt_succ_iff_lt_or_eq.mp hi with hlt | rfl
  · simp [hlt]
  · simp [hc]

/-! ## Triangular functions -/

/-- `f` is triangular in its low `m` bits. -/
structure Triangular (m : Nat) (f : BitVec w → BitVec w) : Prop where
  le_width : m ≤ w
  low : ∀ k, k ≤ m → ∀ x y, LowEq k x y → LowEq k (f x) (f y)
  flip : ∀ k, k < m → ∀ x, x.getLsbD k = false →
    (f (x ||| BitVec.twoPow w k)).getLsbD k = !(f x).getLsbD k

/-- The exclusive or of an affine map with an odd factor and one with an even
factor is triangular: the odd one flips the bit, the even one leaves it. -/
theorem triangular_affine_xor {m : Nat} (hm : m ≤ w) {c d : BitVec w} (a b : BitVec w)
    (hc : c.getLsbD 0 = true) (hd : d.getLsbD 0 = false) :
    Triangular m (fun x => (c * x - a) ^^^ (b - d * x)) := by
  refine ⟨hm, ?_, ?_⟩
  · intro k hk x y hxy
    have hkw : k ≤ w := Nat.le_trans hk hm
    exact LowEq.xor
      (LowEq.sub hkw (LowEq.mul hkw (LowEq.refl k c) hxy) (LowEq.refl k a))
      (LowEq.sub hkw (LowEq.refl k b) (LowEq.mul hkw (LowEq.refl k d) hxy))
  · intro k hk x hx
    have hkw : k < w := Nat.lt_of_lt_of_le hk hm
    -- setting bit `k` adds `c * 2 ^ k`, which for an odd `c` is bit `k` and higher ones
    have hodd : (c * (x ||| BitVec.twoPow w k) - a).getLsbD k = !(c * x - a).getLsbD k := by
      have hsum : c * (x ||| BitVec.twoPow w k) - a
          = (c * x - a) + c * BitVec.twoPow w k := by
        rw [or_twoPow_eq_add hx, BitVec.mul_add, BitVec.sub_eq_add_neg, BitVec.sub_eq_add_neg,
          BitVec.add_assoc, BitVec.add_assoc, BitVec.add_comm (c * BitVec.twoPow w k)]
      rw [hsum, (LowEq.add hkw (LowEq.refl _ _) (lowEq_odd_mul_twoPow hc)) k (Nat.lt_succ_self k),
        getLsbD_add_twoPow hkw]
    -- for an even `d` it is higher bits only
    have heven : (b - d * (x ||| BitVec.twoPow w k)).getLsbD k = (b - d * x).getLsbD k := by
      have hprod : LowEq (k + 1) (d * (x ||| BitVec.twoPow w k)) (d * x) := by
        have h := LowEq.add hkw (LowEq.refl (k + 1) (d * x)) (lowEq_even_mul_twoPow (k := k) hd)
        rw [or_twoPow_eq_add hx, BitVec.mul_add]
        simpa using h
      exact (LowEq.sub hkw (LowEq.refl _ b) hprod) k (Nat.lt_succ_self k)
    rw [BitVec.getLsbD_xor, BitVec.getLsbD_xor, hodd, heven, Bool.not_xor]

/-- A triangular function is injective on words that share their upper bits. -/
theorem Triangular.injective {m : Nat} {f : BitVec w → BitVec w} (hf : Triangular m f)
    {x y : BitVec w} (hhigh : ∀ i, m ≤ i → x.getLsbD i = y.getLsbD i)
    (hfxy : LowEq m (f x) (f y)) : x = y := by
  -- two words that agree below `k` and differ at `k` are told apart at `k`
  have key : ∀ k, k < m → ∀ u v : BitVec w, LowEq k u v → u.getLsbD k = false →
      v.getLsbD k = true → (f v).getLsbD k = !(f u).getLsbD k := by
    intro k hk u v huv hu hv
    have hset : LowEq (k + 1) v (u ||| BitVec.twoPow w k) := by
      refine LowEq.succ ?_ ?_
      · intro i hi
        have hne : k ≠ i := by omega
        rw [BitVec.getLsbD_or, BitVec.getLsbD_twoPow, ← huv i hi]
        simp [hne]
      · have hkw : k < w := Nat.lt_of_lt_of_le hk hf.le_width
        rw [BitVec.getLsbD_or, BitVec.getLsbD_twoPow, hv]
        simp [hkw]
    rw [hf.low (k + 1) hk _ _ hset k (Nat.lt_succ_self k), hf.flip k hk u hu]
  -- so they agree below every `k`, by induction from the bottom
  have hlow : ∀ k, k ≤ m → LowEq k x y := by
    intro k
    induction k with
    | zero => intro _ i hi; exact absurd hi (Nat.not_lt_zero i)
    | succ k ih =>
      intro hk
      have hxy := ih (Nat.le_of_succ_le hk)
      refine hxy.succ ?_
      have hbit := hfxy k hk
      cases hx : x.getLsbD k <;> cases hy : y.getLsbD k
      · rfl
      · rw [key k hk x y hxy hx hy] at hbit
        simp at hbit
      · rw [key k hk y x hxy.symm hy hx] at hbit
        simp at hbit
      · rfl
  apply BitVec.eq_of_getLsbD_eq
  intro i hi
  rcases Nat.lt_or_ge i m with hlt | hge
  · exact hlow m (Nat.le_refl m) i hlt
  · exact hhigh i hge

/-! ## The greedy pass -/

/-- The partial solution after the bits below `k` are decided: bit `k` is set
when `f` of what is there so far disagrees with the target at `k`. -/
def solveTo (f : BitVec w → BitVec w) (y x₀ : BitVec w) : Nat → BitVec w
  | 0 => x₀
  | k + 1 =>
    let x := solveTo f y x₀ k
    if (f x).getLsbD k ≠ y.getLsbD k then x ||| BitVec.twoPow w k else x

/-- The pass below `k` leaves the bits from `k` up alone. -/
theorem getLsbD_solveTo_of_le (f : BitVec w → BitVec w) (y x₀ : BitVec w) (k : Nat) :
    ∀ i, k ≤ i → (solveTo f y x₀ k).getLsbD i = x₀.getLsbD i := by
  induction k with
  | zero => intro i _; rfl
  | succ k ih =>
    intro i hi
    have hne : k ≠ i := by omega
    rw [solveTo]
    split_ifs
    · rw [BitVec.getLsbD_or, BitVec.getLsbD_twoPow, ih i (by omega)]
      simp [hne]
    · exact ih i (by omega)

/-- A decided bit stays: the later steps touch higher bits only. -/
theorem lowEq_solveTo_succ (f : BitVec w → BitVec w) (y x₀ : BitVec w) (k : Nat) :
    LowEq k (solveTo f y x₀ (k + 1)) (solveTo f y x₀ k) := by
  intro i hi
  have hne : k ≠ i := by omega
  rw [solveTo]
  split_ifs
  · rw [BitVec.getLsbD_or, BitVec.getLsbD_twoPow]
    simp [hne]
  · rfl

/-- The bits below `k` are final once they are decided. -/
theorem lowEq_solveTo_of_le (f : BitVec w → BitVec w) (y x₀ : BitVec w) {k j : Nat}
    (hkj : k ≤ j) : LowEq k (solveTo f y x₀ j) (solveTo f y x₀ k) := by
  induction hkj with
  | refl => exact LowEq.refl k _
  | step hkj ih => exact ((lowEq_solveTo_succ f y x₀ _).mono hkj).trans ih

/-- One step of two passes that agree in the low `k` bits, at functions and
targets that do. -/
theorem lowEq_solveTo_step {k j : Nat} {f g : BitVec w → BitVec w} {y y' x₀ x₀' : BitVec w}
    (hfg : ∀ x x', LowEq k x x' → LowEq k (f x) (g x')) (hy : LowEq k y y')
    (h : LowEq k (solveTo f y x₀ j) (solveTo g y' x₀' j)) :
    LowEq k (solveTo f y x₀ (j + 1)) (solveTo g y' x₀' (j + 1)) := by
  rcases Nat.lt_or_ge j k with hlt | hge
  -- below `k` both passes see the same bits, so they take the same decision
  · intro i hi
    simp only [solveTo]
    rw [hfg _ _ h j hlt, hy j hlt]
    split_ifs
    · rw [BitVec.getLsbD_or, BitVec.getLsbD_or, h i hi]
    · exact h i hi
  -- from `k` up neither touches the low bits
  · exact (((lowEq_solveTo_succ f y x₀ j).mono hge).trans h).trans
      ((lowEq_solveTo_succ g y' x₀' j).mono hge).symm

/-- The low `k` bits of the pass depend on the low `k` bits of the function, the
target and the start only. -/
theorem lowEq_solveTo {k : Nat} {f g : BitVec w → BitVec w} {y y' x₀ x₀' : BitVec w}
    (hfg : ∀ x x', LowEq k x x' → LowEq k (f x) (g x')) (hy : LowEq k y y')
    (hx₀ : LowEq k x₀ x₀') (j : Nat) :
    LowEq k (solveTo f y x₀ j) (solveTo g y' x₀' j) := by
  induction j with
  | zero => exact hx₀
  | succ j ih => exact lowEq_solveTo_step hfg hy ih

/-- The invariant of the pass: the bits decided so far already solve the
equation modulo `2 ^ k`. The start must be clear in the bits to be decided. -/
theorem Triangular.solveTo_spec {m : Nat} {f : BitVec w → BitVec w} (hf : Triangular m f)
    (y x₀ : BitVec w) (hx₀ : ∀ i, i < m → x₀.getLsbD i = false) :
    ∀ k, k ≤ m → LowEq k (f (solveTo f y x₀ k)) y := by
  intro k
  induction k with
  | zero => intro _ i hi; exact absurd hi (Nat.not_lt_zero i)
  | succ k ih =>
    intro hk
    have hprev := ih (Nat.le_of_succ_le hk)
    refine LowEq.succ ?_ ?_
    · exact (hf.low k (Nat.le_of_succ_le hk) _ _ (lowEq_solveTo_succ f y x₀ k)).trans hprev
    -- bit `k` is still clear, and setting it flips bit `k` of `f`
    · have hclear : (solveTo f y x₀ k).getLsbD k = false := by
        rw [getLsbD_solveTo_of_le f y x₀ k k (Nat.le_refl k), hx₀ k hk]
      rw [solveTo]
      split_ifs with hbit
      · rw [hf.flip k hk _ hclear, Bool.not_eq_eq_eq_not, Bool.eq_not]
        exact hbit
      · simpa using hbit

end NostalgiaConv.TriangularSolve
