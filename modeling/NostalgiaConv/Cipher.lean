/-
The instruction cipher of `update.hpp`: `deobfuscateInstruction`, which the host
applies to four of its opcodes, and `obfuscateInstructionFast`, which the
transpiler applies so that the host's decoder undoes it.

The decoder keeps the six opcode bits and replaces the other 26 by the exclusive
or of two affine maps of the whole word. The encoder has to solve that equation
for the word, and does so bit by bit with no backtracking. This file instantiates
`TriangularSolve` at the two maps, shows that the C loop with its running mask is
the greedy pass, and concludes that encoder and decoder are inverse to each other
at every index. All arithmetic is modulo `2 ^ 32`, which is `BitVec 32`.
-/
import NostalgiaConv.TriangularSolve

set_option autoImplicit false

namespace NostalgiaConv.Cipher

open NostalgiaConv.TriangularSolve

/-- `std::uint32_t`, and Lua's `Instruction`. -/
abbrev Word := BitVec 32

/-! ## The two functions of the source -/

/-- `VGET_OPCODE(x)`: the top six bits, as a `std::uint8_t`. -/
def VGET_OPCODE (x : Word) : BitVec 8 := (x >>> 26).setWidth 8

/-- The host's decoder. The opcode bits pass through; the other 26 bits are the
exclusive or of the two affine maps. -/
def deobfuscateInstruction (obfInstruction index : Word) : Word :=
  let opcode : Word := (VGET_OPCODE obfInstruction).setWidth 32
  let decodedWithoutOp :=
    (0x1451AFB#32 * obfInstruction - 0x1A7D575#32)
      ^^^ (index - 0x1C6B438#32 * obfInstruction)
  (decodedWithoutOp &&& 0x3FFFFFF#32) ||| (opcode <<< 26)

/-- The body of the encoder's loop at one mask. -/
def obfuscateStep (instruction index mask obfuscated : Word) : Word :=
  let T1 := 0x1451AFB#32 * obfuscated - 0x1A7D575#32
  let T2 := index - 0x1C6B438#32 * obfuscated
  if (T1 ^^^ T2) &&& mask ≠ instruction &&& mask then obfuscated ||| mask else obfuscated

/-- `for (mask = 1; !((mask >> 26) & 1); mask <<= 1)`. The first argument bounds
the number of iterations; `obfuscateLoop_eq_solveTo` shows that the guard ends
the loop at bit 26. -/
def obfuscateLoop (instruction index : Word) : Nat → Word → Word → Word
  | 0, _, obfuscated => obfuscated
  | fuel + 1, mask, obfuscated =>
    if (mask >>> 26) &&& 1#32 ≠ 0#32 then obfuscated
    else obfuscateLoop instruction index fuel (mask <<< 1)
      (obfuscateStep instruction index mask obfuscated)

/-- The encoder: it starts from the opcode bits alone. -/
def obfuscateInstructionFast (instruction index : Word) : Word :=
  obfuscateLoop instruction index 32 1#32 ((VGET_OPCODE instruction).setWidth 32 <<< 26)

/-! ## The equation the encoder solves -/

/-- What the decoder computes before it masks the opcode away. -/
def mixed (index x : Word) : Word :=
  (0x1451AFB#32 * x - 0x1A7D575#32) ^^^ (index - 0x1C6B438#32 * x)

/-- `0x1451AFB` is odd and `0x1C6B438` is even. -/
theorem triangular_mixed (index : Word) : Triangular 26 (mixed index) :=
  triangular_affine_xor (by omega) _ _ (by decide) (by decide)

/-- The opcode as it stands in the word: bits 26 to 31, the rest clear. -/
theorem getLsbD_opcodeBits (x : Word) (i : Nat) :
    ((VGET_OPCODE x).setWidth 32 <<< 26).getLsbD i = (decide (26 ≤ i) && x.getLsbD i) := by
  rw [VGET_OPCODE, BitVec.getLsbD_shiftLeft]
  simp only [BitVec.getLsbD_setWidth, BitVec.getLsbD_ushiftRight]
  rcases Nat.lt_or_ge i 26 with hlt | hge
  · have : ¬ 26 ≤ i := by omega
    simp [hlt, this]
  · rcases Nat.lt_or_ge i 32 with hlt32 | hge32
    · have h26 : 26 + (i - 26) = i := by omega
      have h8 : i - 26 < 8 := by omega
      have h32 : i - 26 < 32 := by omega
      have hnlt : ¬ i < 26 := by omega
      simp [hge, hlt32, hnlt, h26, h8, h32]
    · have hnlt : ¬ i < 32 := by omega
      rw [BitVec.getLsbD_of_ge x i hge32]
      simp [hnlt]

/-- The mask `0x3FFFFFF` is the low 26 bits. -/
theorem getLsbD_lowMask (i : Nat) : (0x3FFFFFF#32).getLsbD i = decide (i < 26) := by
  rcases Nat.lt_or_ge i 32 with hlt | hge
  · have h : ∀ j : Fin 32, (0x3FFFFFF#32).getLsbD j = decide (j.val < 26) := by decide
    exact h ⟨i, hlt⟩
  · rw [BitVec.getLsbD_of_ge _ _ hge]
    have : ¬ i < 26 := by omega
    simp [this]

/-- The decoder bit by bit: below 26 the mixed word, from 26 up the input. -/
theorem getLsbD_deobfuscateInstruction (x index : Word) (i : Nat) :
    (deobfuscateInstruction x index).getLsbD i
      = if i < 26 then (mixed index x).getLsbD i else x.getLsbD i := by
  rw [deobfuscateInstruction, BitVec.getLsbD_or, BitVec.getLsbD_and, getLsbD_opcodeBits,
    getLsbD_lowMask]
  rcases Nat.lt_or_ge i 26 with hlt | hge
  · have : ¬ 26 ≤ i := by omega
    simp [hlt, this, mixed]
  · have : ¬ i < 26 := by omega
    simp [hge, this]

/-! ## The loop is the greedy pass -/

/-- The guard at mask `2 ^ k` stops exactly at `k = 26`. -/
theorem maskGuard {k : Nat} (hk : k ≤ 26) :
    ((BitVec.twoPow 32 k >>> 26) &&& 1#32 ≠ 0#32) ↔ k = 26 := by
  have h : ∀ j : Fin 27, ((BitVec.twoPow 32 j >>> 26) &&& 1#32 ≠ 0#32) ↔ j.val = 26 := by decide
  exact h ⟨k, by omega⟩

/-- `mask <<= 1`. -/
theorem mask_shift (k : Nat) : BitVec.twoPow 32 k <<< 1 = BitVec.twoPow 32 (k + 1) := by
  rw [BitVec.twoPow_eq, BitVec.twoPow_eq, BitVec.shiftLeft_add]

/-- One iteration decides one bit, as `solveTo` does. -/
theorem obfuscateStep_eq_solveTo (instruction index x₀ : Word) {k : Nat} (hk : k < 32) :
    obfuscateStep instruction index (BitVec.twoPow 32 k)
        (solveTo (mixed index) instruction x₀ k)
      = solveTo (mixed index) instruction x₀ (k + 1) := by
  have hiff : ∀ a b : Word, a &&& BitVec.twoPow 32 k ≠ b &&& BitVec.twoPow 32 k
      ↔ a.getLsbD k ≠ b.getLsbD k := by
    intro a b
    have hne : BitVec.twoPow 32 k ≠ 0#32 := by
      intro h
      have hbit : (BitVec.twoPow 32 k).getLsbD k = (0#32).getLsbD k := by rw [h]
      rw [BitVec.getLsbD_twoPow] at hbit
      simp [hk] at hbit
    rw [BitVec.and_twoPow, BitVec.and_twoPow]
    cases a.getLsbD k <;> cases b.getLsbD k <;> simp [hne, hne.symm]
  simp only [obfuscateStep, solveTo]
  exact if_congr (hiff _ _) rfl rfl

/-- The C loop, entered at mask `2 ^ k` with the bits below `k` decided, runs the
next steps of the greedy pass, as many as the bound allows, and the guard ends
it when all 26 bits are decided. -/
theorem obfuscateLoop_eq_solveTo (instruction index x₀ : Word) :
    ∀ fuel k, k ≤ 26 →
      obfuscateLoop instruction index fuel (BitVec.twoPow 32 k)
          (solveTo (mixed index) instruction x₀ k)
        = solveTo (mixed index) instruction x₀ (min (k + fuel) 26) := by
  intro fuel
  induction fuel with
  | zero =>
    intro k hk
    rw [obfuscateLoop, Nat.add_zero, Nat.min_eq_left hk]
  | succ fuel ih =>
    intro k hk
    rcases Nat.lt_or_ge k 26 with hlt | hge
    · have hguard : ¬ ((BitVec.twoPow 32 k >>> 26) &&& 1#32 ≠ 0#32) := by
        rw [maskGuard hk]; omega
      rw [obfuscateLoop, if_neg hguard, mask_shift, obfuscateStep_eq_solveTo _ _ _ (by omega),
        ih (k + 1) hlt, Nat.add_right_comm, Nat.add_assoc]
    -- the guard stops at bit 26, whatever the bound
    · have h26 : k = 26 := by omega
      rw [obfuscateLoop, if_pos ((maskGuard hk).2 h26), h26, Nat.min_eq_right (by omega)]

/-- The encoder is the greedy pass from the opcode bits. -/
theorem obfuscateInstructionFast_eq_solveTo (instruction index : Word) :
    obfuscateInstructionFast instruction index
      = solveTo (mixed index) instruction ((VGET_OPCODE instruction).setWidth 32 <<< 26) 26 :=
  obfuscateLoop_eq_solveTo instruction index _ 32 0 (by omega)

/-! ## Encoder and decoder -/

/-- The low 26 bits of the encoded word decode to those of the instruction. -/
theorem lowEq_mixed_obfuscate (instruction index : Word) :
    LowEq 26 (mixed index (obfuscateInstructionFast instruction index)) instruction := by
  rw [obfuscateInstructionFast_eq_solveTo]
  refine (triangular_mixed index).solveTo_spec instruction _ ?_ 26 (Nat.le_refl 26)
  intro i hi
  have : ¬ 26 ≤ i := by omega
  rw [getLsbD_opcodeBits]
  simp [this]

/-- The encoder keeps the opcode bits. -/
theorem getLsbD_obfuscate_of_le (instruction index : Word) {i : Nat} (hi : 26 ≤ i) :
    (obfuscateInstructionFast instruction index).getLsbD i = instruction.getLsbD i := by
  rw [obfuscateInstructionFast_eq_solveTo, getLsbD_solveTo_of_le _ _ _ 26 i hi,
    getLsbD_opcodeBits]
  simp [hi]

/-- The decoder undoes the encoder. -/
theorem deobfuscate_obfuscate (w n : Word) :
    deobfuscateInstruction (obfuscateInstructionFast w n) n = w := by
  apply BitVec.eq_of_getLsbD_eq
  intro i _
  rw [getLsbD_deobfuscateInstruction]
  split_ifs with hi
  · exact lowEq_mixed_obfuscate w n i hi
  · exact getLsbD_obfuscate_of_le w n (by omega)

/-- The decoder is injective at every index: it keeps the opcode, and the mixed
word is triangular in the rest. -/
theorem deobfuscate_injective (n : Word) :
    Function.Injective (fun x => deobfuscateInstruction x n) := by
  intro x y hxy
  have hbit : ∀ i, (deobfuscateInstruction x n).getLsbD i
      = (deobfuscateInstruction y n).getLsbD i := fun i => by
    rw [show deobfuscateInstruction x n = deobfuscateInstruction y n from hxy]
  refine (triangular_mixed n).injective ?_ ?_
  · intro i hi
    have h := hbit i
    have hnlt : ¬ i < 26 := by omega
    rwa [getLsbD_deobfuscateInstruction, getLsbD_deobfuscateInstruction, if_neg hnlt,
      if_neg hnlt] at h
  · intro i hi
    have h := hbit i
    rwa [getLsbD_deobfuscateInstruction, getLsbD_deobfuscateInstruction, if_pos hi,
      if_pos hi] at h

/-- The encoder undoes the decoder, since the decoder cannot tell the two apart. -/
theorem obfuscate_deobfuscate (w n : Word) :
    obfuscateInstructionFast (deobfuscateInstruction w n) n = w :=
  deobfuscate_injective n (deobfuscate_obfuscate (deobfuscateInstruction w n) n)

/-- **The cipher is a permutation.** At every index the encoder and the decoder
are inverse to each other on all words, whatever the opcode bits. -/
theorem cipher_mutually_inverse (w n : Word) :
    deobfuscateInstruction (obfuscateInstructionFast w n) n = w
      ∧ obfuscateInstructionFast (deobfuscateInstruction w n) n = w :=
  ⟨deobfuscate_obfuscate w n, obfuscate_deobfuscate w n⟩

/-! ## The passes of the loop -/

/-- The variable `obfuscated` after the first `k` iterations, those for the bits
below `k`; the guard leaves it alone from `k = 26` on. -/
def obfuscatePartial (instruction index : Word) (k : Nat) : Word :=
  obfuscateLoop instruction index k 1#32 ((VGET_OPCODE instruction).setWidth 32 <<< 26)

theorem obfuscatePartial_eq_solveTo (instruction index : Word) (k : Nat) :
    obfuscatePartial instruction index k
      = solveTo (mixed index) instruction ((VGET_OPCODE instruction).setWidth 32 <<< 26)
          (min k 26) := by
  have h := obfuscateLoop_eq_solveTo instruction index
    ((VGET_OPCODE instruction).setWidth 32 <<< 26) k 0 (by omega)
  rwa [Nat.zero_add] at h

/-- The iteration for bit `k` is the loop body at mask `2 ^ k`. -/
theorem obfuscatePartial_succ (instruction index : Word) {k : Nat} (hk : k < 26) :
    obfuscatePartial instruction index (k + 1)
      = obfuscateStep instruction index (BitVec.twoPow 32 k)
          (obfuscatePartial instruction index k) := by
  rw [obfuscatePartial_eq_solveTo, obfuscatePartial_eq_solveTo, Nat.min_eq_left (by omega),
    Nat.min_eq_left (by omega), obfuscateStep_eq_solveTo _ _ _ (by omega)]

/-- The loop starts with the 26 low bits clear. -/
theorem getLsbD_opcodeBits_of_lt (x : Word) {i : Nat} (hi : i < 26) :
    ((VGET_OPCODE x).setWidth 32 <<< 26).getLsbD i = false := by
  have : ¬ 26 ≤ i := by omega
  rw [getLsbD_opcodeBits]
  simp [this]

/-- In the low bits the two affine maps depend on the low bits of both arguments only. -/
theorem lowEq_mixed {k : Nat} (hk : k ≤ 32) {n n' x x' : Word} (hn : LowEq k n n')
    (hx : LowEq k x x') : LowEq k (mixed n x) (mixed n' x') :=
  LowEq.xor
    (LowEq.sub hk (LowEq.mul hk (LowEq.refl k _) hx) (LowEq.refl k _))
    (LowEq.sub hk hn (LowEq.mul hk (LowEq.refl k _) hx))

/-- Below bit 26 the decoder computes the mixed word. -/
theorem lowEq_deobfuscateInstruction {k : Nat} (hk : k ≤ 26) (x index : Word) :
    LowEq k (deobfuscateInstruction x index) (mixed index x) := by
  intro i hi
  rw [getLsbD_deobfuscateInstruction, if_pos (Nat.lt_of_lt_of_le hi hk)]

/-- The low `k` bits of the result depend on those of the arguments only. -/
theorem lowEq_obfuscateInstructionFast {k : Nat} (hk : k ≤ 26) {w w' n n' : Word}
    (hw : LowEq k w w') (hn : LowEq k n n') :
    LowEq k (obfuscateInstructionFast w n) (obfuscateInstructionFast w' n') := by
  rw [obfuscateInstructionFast_eq_solveTo, obfuscateInstructionFast_eq_solveTo]
  refine lowEq_solveTo (fun x x' hx => lowEq_mixed (by omega) hn hx) hw ?_ 26
  intro i hi
  rw [getLsbD_opcodeBits_of_lt w (by omega), getLsbD_opcodeBits_of_lt w' (by omega)]

/-- After the iteration for bit `k - 1` every word with the low `k` bits of
`obfuscated` decodes to the low `k` bits of the instruction. -/
theorem lowEq_deobfuscate_partial {k : Nat} (hk : k ≤ 26) {w n x : Word}
    (hx : LowEq k x (obfuscatePartial w n k)) : LowEq k (deobfuscateInstruction x n) w := by
  have hsolved : LowEq k (mixed n (obfuscatePartial w n k)) w := by
    rw [obfuscatePartial_eq_solveTo, Nat.min_eq_left hk]
    exact (triangular_mixed n).solveTo_spec w _ (fun i => getLsbD_opcodeBits_of_lt w) k hk
  have hmixed : LowEq k (mixed n x) (mixed n (obfuscatePartial w n k)) :=
    lowEq_mixed (by omega) (LowEq.refl k n) hx
  exact (lowEq_deobfuscateInstruction hk x n).trans (hmixed.trans hsolved)

/-- No later iteration changes a bit that is decided. -/
theorem lowEq_obfuscatePartial_of_le {k j : Nat} (hk : k ≤ 26) (hkj : k ≤ j) (w n : Word) :
    LowEq k (obfuscatePartial w n j) (obfuscatePartial w n k) := by
  rw [obfuscatePartial_eq_solveTo, obfuscatePartial_eq_solveTo, Nat.min_eq_left hk]
  exact lowEq_solveTo_of_le _ _ _ (by omega)

/-- **The solver is triangular.** Arguments that agree modulo `2 ^ k` give results
that do; and within one run the low `k` bits are settled by the first `k`
iterations: they decode to those of the instruction, and neither a later
iteration nor the result differs from them. -/
theorem obfuscateInstructionFast_triangular (k : Nat) (hk : k ≤ 26) :
    (∀ w w' n n' : Word, w.toNat % 2 ^ k = w'.toNat % 2 ^ k →
      n.toNat % 2 ^ k = n'.toNat % 2 ^ k →
      (obfuscateInstructionFast w n).toNat % 2 ^ k
        = (obfuscateInstructionFast w' n').toNat % 2 ^ k)
    ∧ ∀ w n : Word,
      (∀ x : Word, x.toNat % 2 ^ k = (obfuscatePartial w n k).toNat % 2 ^ k →
        (deobfuscateInstruction x n).toNat % 2 ^ k = w.toNat % 2 ^ k)
      ∧ (∀ j, k ≤ j →
        (obfuscatePartial w n j).toNat % 2 ^ k = (obfuscatePartial w n k).toNat % 2 ^ k)
      ∧ (obfuscateInstructionFast w n).toNat % 2 ^ k
        = (obfuscatePartial w n k).toNat % 2 ^ k := by
  simp only [← lowEq_iff_toNat_mod]
  refine ⟨fun w w' n n' hw hn => lowEq_obfuscateInstructionFast hk hw hn, fun w n => ?_⟩
  refine ⟨fun x hx => lowEq_deobfuscate_partial hk hx,
    fun j hkj => lowEq_obfuscatePartial_of_le hk hkj w n, ?_⟩
  exact lowEq_obfuscatePartial_of_le hk (j := 32) (by omega) w n

/-- Two instructions and two indices that differ above bit 2. -/
theorem obfuscateInstructionFast_triangular_low :
    (obfuscateInstructionFast 0x5#32 0x3#32).toNat % 2 ^ 2
        = (obfuscateInstructionFast 0x9#32 0x7#32).toNat % 2 ^ 2
      ∧ (deobfuscateInstruction (obfuscatePartial 0x5#32 0x3#32 2) 0x3#32).toNat % 2 ^ 2
        = (0x5#32 : Word).toNat % 2 ^ 2 := by
  have h := obfuscateInstructionFast_triangular 2 (by decide)
  exact ⟨h.1 _ _ _ _ (by decide) (by decide), (h.2 0x5#32 0x3#32).1 _ rfl⟩

end NostalgiaConv.Cipher
