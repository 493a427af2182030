/-
`obfuscateInstructionSlow` of `update.hpp`, the encoder that came before
`obfuscateInstructionFast`.

It tries the words with the instruction's opcode bits one after another until the
decoder's equation holds. For opcode 63 the last candidate is `0xFFFFFFFF`, so the
guard `i <= 0xFFFFFFFF` is true of every word and only a solution ends the loop.
There is one, and no other: the word that the bit-by-bit pass finds.
-/
import NostalgiaConv.Cipher
import NostalgiaConv.LinearScan

set_option autoImplicit false

namespace NostalgiaConv.SlowCipher

open NostalgiaConv.TriangularSolve NostalgiaConv.Cipher NostalgiaConv.LinearScan

/-! ## The source -/

/-- `VCLEAR_OPCODE(x)` -/
def VCLEAR_OPCODE (x : Word) : Word := x &&& 0x3FFFFFF#32

def startRange (instruction : Word) : Word := (VGET_OPCODE instruction).setWidth 32 <<< 26

/-- `i <= (startRange + 0x3FFFFFF)` -/
def slowGuard (instruction i : Word) : Prop := i ≤ startRange instruction + 0x3FFFFFF#32

/-- The condition in the loop. The macro's argument is not in parentheses, so on the
left it masks the affine map only, and then `syntheticOpInstr` comes in. -/
def slowTest (instruction index i : Word) : Prop :=
  let syntheticOpInstr := VCLEAR_OPCODE instruction
  syntheticOpInstr ^^^ VCLEAR_OPCODE (0x1451AFB#32 * i - 0x1A7D575#32)
    = VCLEAR_OPCODE (index - 0x1C6B438#32 * i)

instance (instruction : Word) : DecidablePred (slowGuard instruction) :=
  fun i => inferInstanceAs (Decidable (i ≤ startRange instruction + 0x3FFFFFF#32))

instance (instruction index : Word) : DecidablePred (slowTest instruction index) :=
  fun _ => inferInstanceAs (Decidable (_ = _))

/-- The loop, for at most `fuel` rounds. -/
def slowLoop (instruction index : Word) (fuel : Nat) : Scan 32 :=
  scan (slowGuard instruction) (slowTest instruction index) fuel (startRange instruction)

/-- What the encoder returns within `fuel` rounds of its loop. -/
def obfuscateInstructionSlow (instruction index : Word) (fuel : Nat) : Option Word :=
  (slowLoop instruction index fuel).value

/-! ## The candidates -/

/-- Words with the same upper six bits, as numbers. -/
theorem toNat_div_eq_iff (x y : Word) :
    x.toNat / 2 ^ 26 = y.toNat / 2 ^ 26 ↔ ∀ i, 26 ≤ i → x.getLsbD i = y.getLsbD i := by
  rw [← Nat.shiftRight_eq_div_pow, ← Nat.shiftRight_eq_div_pow, ← BitVec.toNat_ushiftRight,
    ← BitVec.toNat_ushiftRight, BitVec.toNat_inj]
  constructor
  · intro h i hi
    have hbit := congrArg (fun z : Word => z.getLsbD (i - 26)) h
    simpa only [BitVec.getLsbD_ushiftRight, Nat.add_sub_cancel' hi] using hbit
  · intro h
    apply BitVec.eq_of_getLsbD_eq
    intro i _
    rw [BitVec.getLsbD_ushiftRight, BitVec.getLsbD_ushiftRight]
    exact h (26 + i) (Nat.le_add_right _ _)

/-- The first candidate is the instruction with its operands cleared. -/
theorem toNat_startRange (instruction : Word) :
    (startRange instruction).toNat = instruction.toNat / 2 ^ 26 * 2 ^ 26 := by
  have hlow : (startRange instruction).toNat % 2 ^ 26 = 0 := by
    rw [startRange, BitVec.toNat_shiftLeft, Nat.shiftLeft_eq]
    omega
  have hhigh : (startRange instruction).toNat / 2 ^ 26 = instruction.toNat / 2 ^ 26 := by
    rw [toNat_div_eq_iff]
    intro i hi
    rw [startRange, getLsbD_opcodeBits]
    simp [hi]
  omega

/-- The guard lets through what comes before the candidates and the candidates
themselves; the bound does not wrap. -/
theorem slowGuard_iff (instruction i : Word) :
    slowGuard instruction i ↔ i.toNat / 2 ^ 26 ≤ instruction.toNat / 2 ^ 26 := by
  have hstart := toNat_startRange instruction
  have hlt : instruction.toNat < 2 ^ 32 := instruction.isLt
  have hbound : (startRange instruction + 0x3FFFFFF#32).toNat
      = (startRange instruction).toNat + 0x3FFFFFF := by
    rw [BitVec.toNat_add]
    exact Nat.mod_eq_of_lt (by show _ + 0x3FFFFFF < _; omega)
  rw [slowGuard, BitVec.le_def, hbound]
  omega

/-- The test is the decoder's equation in the low 26 bits. -/
theorem slowTest_iff (instruction index i : Word) :
    slowTest instruction index i ↔ LowEq 26 (mixed index i) instruction := by
  have hclear : ∀ (x : Word) (k : Nat),
      (VCLEAR_OPCODE x).getLsbD k = (x.getLsbD k && decide (k < 26)) := fun x k => by
    rw [VCLEAR_OPCODE, BitVec.getLsbD_and, getLsbD_lowMask]
  have hxor : ∀ a b c : Bool, (a ^^ b) = c ↔ (b ^^ c) = a := by decide
  constructor
  · intro h k hk
    have hbit := congrArg (fun z : Word => z.getLsbD k) h
    simp only [BitVec.getLsbD_xor, hclear, hk, decide_true, Bool.and_true] at hbit
    rw [mixed, BitVec.getLsbD_xor]
    exact (hxor _ _ _).mp hbit
  · intro h
    apply BitVec.eq_of_getLsbD_eq
    intro k _
    rw [BitVec.getLsbD_xor, hclear, hclear, hclear]
    by_cases hk : k < 26
    · have hbit := h k hk
      rw [mixed, BitVec.getLsbD_xor] at hbit
      simp only [hk, decide_true, Bool.and_true]
      exact (hxor _ _ _).mpr hbit
    · simp [hk]

/-- **One solution.** Among the words with the instruction's opcode bits the fast
encoder's word passes the test, and no other does. -/
theorem slowTest_unique {instruction index i : Word}
    (hi : i.toNat / 2 ^ 26 = instruction.toNat / 2 ^ 26) :
    slowTest instruction index i ↔ i = obfuscateInstructionFast instruction index := by
  rw [slowTest_iff]
  constructor
  · intro h
    refine (triangular_mixed index).injective (fun k hk => ?_)
      (h.trans (lowEq_mixed_obfuscate instruction index).symm)
    rw [getLsbD_obfuscate_of_le _ _ hk]
    exact (toNat_div_eq_iff _ _).mp hi k hk
  · rintro rfl
    exact lowEq_mixed_obfuscate instruction index

/-! ## The scan -/

/-- For opcode 63 the guard ends no round: every word passes it. -/
theorem slowGuard_of_opcode63 {instruction : Word} (hop : instruction.toNat / 2 ^ 26 = 63)
    (i : Word) : slowGuard instruction i := by
  have hi : i.toNat < 2 ^ 32 := i.isLt
  rw [slowGuard_iff]
  omega

/-- **The brute force agrees with the bit-by-bit pass.** For every instruction and
every index the loop ends at a solution within its 2^26 candidates, however many
rounds it is given beyond those, and what it returns is the fast encoder's word. -/
theorem slow_eq_fast (instruction index : Word) (n : Nat) :
    slowLoop instruction index (2 ^ 26 + n) = .found (obfuscateInstructionFast instruction index)
      ∧ obfuscateInstructionSlow instruction index (2 ^ 26 + n)
        = some (obfuscateInstructionFast instruction index) := by
  have hfast : (obfuscateInstructionFast instruction index).toNat / 2 ^ 26
      = instruction.toNat / 2 ^ 26 :=
    (toNat_div_eq_iff _ _).mpr (fun k hk => getLsbD_obfuscate_of_le instruction index hk)
  have hstart := toNat_startRange instruction
  have hfound : slowLoop instruction index (2 ^ 26 + n)
      = .found (obfuscateInstructionFast instruction index) := by
    refine scan_found _ ((slowTest_unique hfast).mpr rfl) _ _ (by omega) (by omega) ?_ ?_
    · intro j hle hlek
      rw [slowGuard_iff]
      omega
    · -- a smaller candidate has the opcode bits too, and there is one solution only
      intro j hle hlt htest
      rw [slowTest_unique (by omega)] at htest
      rw [htest] at hlt
      exact Nat.lt_irrefl _ hlt
  refine ⟨hfound, ?_⟩
  rw [obfuscateInstructionSlow, hfound]
  rfl

end NostalgiaConv.SlowCipher
