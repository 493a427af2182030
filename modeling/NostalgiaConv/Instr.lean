/-
The code loop of `TranspileProto`: what becomes of one instruction word.

A word is translated in three steps. Its opcode is renumbered by a 38-way
switch, its operands are copied with `B` and `C` exchanged (and a `MOVE` marked
by a one in the place its source left), and four opcodes are put through the
cipher at the word's own index. What is stored is the result times the encode
key. `decodeInstr` is the one decoder a host would use; it returns every word the
compiler can emit.
-/
import NostalgiaConv.Opcodes

set_option autoImplicit false

namespace NostalgiaConv.Instr

open NostalgiaConv.BitField NostalgiaConv.Cipher NostalgiaConv.Opcodes
open OpCode OpMode OpArgMask

/-! ## The loop body -/

/-- The second switch: operands by the opcode's mode. -/
def placeOperands (vOpcode : OpCode) (vInstr transpiledInstr : Word) : Word :=
  match getOpMode vOpcode with
  | iABC => -- iABC = iACB
    let t := SETARG_A transpiledInstr (GETARG_A vInstr)
    let t := SETARG_B t (GETARG_C vInstr)
    let t := SETARG_C t (GETARG_B vInstr)
    if vOpcode = OP_MOVE then SETARG_B t 1#32 else t -- prevents the stack clear
  | iABx =>
    let t := SETARG_A transpiledInstr (GETARG_A vInstr)
    SETARG_Bx t (GETARG_Bx vInstr)
  | iAsBx =>
    let t := SETARG_A transpiledInstr (GETARG_A vInstr)
    SETARG_sBx t (GETARG_sBx vInstr)

/-- The third switch: which opcodes go through the cipher. -/
def specialObfuscation : OpCode → Bool
  | OP_CALL | OP_TAILCALL | OP_CLOSURE | OP_RETURN => true
  | _ => false

/-- One word at index `currIndex`, before the key. The opcode field indexes
`luaP_opmodes`; `none` is the read past that table. -/
def transpileInstr (vInstr currIndex : Word) : Option Word :=
  match OpCode.ofWord (GET_OPCODE vInstr) with
  | none => none
  | some vOpcode =>
    let transpiledInstr := placeOperands vOpcode vInstr (SET_OPCODE 0#32 (rbxOpcode vOpcode))
    some (if specialObfuscation vOpcode then obfuscateInstructionFast transpiledInstr currIndex
      else transpiledInstr)

/-- The word stored for `vInstr` at `currIndex`. -/
def storedWord (encodeKey vInstr currIndex : Word) : Option Word :=
  (transpileInstr vInstr currIndex).map (· * encodeKey)

/-- The code loop from index `currIndex` on: the words it stores, in order. -/
def transpileCodeFrom (encodeKey : Word) : Nat → List Word → Option (List Word)
  | _, [] => some []
  | currIndex, vInstr :: code =>
    match storedWord encodeKey vInstr (BitVec.ofNat 32 currIndex) with
    | none => none
    | some stored => (transpileCodeFrom encodeKey (currIndex + 1) code).map (stored :: ·)

/-- The instruction table of a proto with code vector `code`. -/
def transpileCode (encodeKey : Word) (code : List Word) : Option (List Word) :=
  transpileCodeFrom encodeKey 0 code

/-! ## The host's decoder -/

/-- The opcode with a given host number. -/
def ofRbxOpcode (n : Word) : Option OpCode := OpCode.all.find? (fun o => rbxOpcode o == n)

/-- Undo `placeOperands`: in mode iABC the host's `C` is `B`, and its `B` is `C`
except for `MOVE`, which has no `C`. -/
def undoOperands (opcode : OpCode) (plain : Word) : Word :=
  let w := SETARG_A (SET_OPCODE 0#32 opcode.toWord) (GETARG_A plain)
  match getOpMode opcode with
  | iABC =>
    SETARG_C (SETARG_B w (GETARG_C plain))
      (if opcode = OP_MOVE then 0#32 else GETARG_B plain)
  | iABx => SETARG_Bx w (GETARG_Bx plain)
  | iAsBx => SETARG_sBx w (GETARG_sBx plain)

/-- The one fixed decoder. -/
def decodeInstr (decodeKey index stored : Word) : Option Word :=
  let keyed := stored * decodeKey
  let plain :=
    match ofRbxOpcode (GET_OPCODE keyed) with
    | some o => if specialObfuscation o then deobfuscateInstruction keyed index else keyed
    | none => keyed
  (ofRbxOpcode (GET_OPCODE plain)).map (undoOperands · plain)

/-- The operands of an iABC word that its opcode does not use are zero, as
`luaK_codeABC` asserts. -/
def UnusedZero (vOpcode : OpCode) (vInstr : Word) : Prop :=
  getOpMode vOpcode = iABC →
    (getBMode vOpcode = OpArgN → GETARG_B vInstr = 0#32)
      ∧ (getCMode vOpcode = OpArgN → GETARG_C vInstr = 0#32)

/-! ## Field lemmas -/

@[simp] theorem GET_OPCODE_SET_OPCODE (i o : Word) :
    GET_OPCODE (SET_OPCODE i o) = getField SIZE_OP 0 o :=
  getField_setField_same (by decide) i o

@[simp] theorem GETARG_A_SETARG_A (i u : Word) : GETARG_A (SETARG_A i u) = getField SIZE_A 0 u :=
  getField_setField_same (by decide) i u

@[simp] theorem GETARG_B_SETARG_B (i b : Word) : GETARG_B (SETARG_B i b) = getField SIZE_B 0 b :=
  getField_setField_same (by decide) i b

@[simp] theorem GETARG_C_SETARG_C (i b : Word) : GETARG_C (SETARG_C i b) = getField SIZE_C 0 b :=
  getField_setField_same (by decide) i b

@[simp] theorem GETARG_Bx_SETARG_Bx (i b : Word) :
    GETARG_Bx (SETARG_Bx i b) = getField SIZE_Bx 0 b :=
  getField_setField_same (by decide) i b

@[simp] theorem GET_OPCODE_SETARG_A (i u : Word) : GET_OPCODE (SETARG_A i u) = GET_OPCODE i :=
  getField_setField_disjoint (by decide) (by decide) i u

@[simp] theorem GET_OPCODE_SETARG_B (i b : Word) : GET_OPCODE (SETARG_B i b) = GET_OPCODE i :=
  getField_setField_disjoint (by decide) (by decide) i b

@[simp] theorem GET_OPCODE_SETARG_C (i b : Word) : GET_OPCODE (SETARG_C i b) = GET_OPCODE i :=
  getField_setField_disjoint (by decide) (by decide) i b

@[simp] theorem GET_OPCODE_SETARG_Bx (i b : Word) : GET_OPCODE (SETARG_Bx i b) = GET_OPCODE i :=
  getField_setField_disjoint (by decide) (by decide) i b

@[simp] theorem GETARG_A_SETARG_B (i b : Word) : GETARG_A (SETARG_B i b) = GETARG_A i :=
  getField_setField_disjoint (by decide) (by decide) i b

@[simp] theorem GETARG_A_SETARG_C (i b : Word) : GETARG_A (SETARG_C i b) = GETARG_A i :=
  getField_setField_disjoint (by decide) (by decide) i b

@[simp] theorem GETARG_A_SETARG_Bx (i b : Word) : GETARG_A (SETARG_Bx i b) = GETARG_A i :=
  getField_setField_disjoint (by decide) (by decide) i b

@[simp] theorem GETARG_B_SETARG_C (i b : Word) : GETARG_B (SETARG_C i b) = GETARG_B i :=
  getField_setField_disjoint (by decide) (by decide) i b

@[simp] theorem GETARG_C_SETARG_B (i b : Word) : GETARG_C (SETARG_B i b) = GETARG_C i :=
  getField_setField_disjoint (by decide) (by decide) i b

@[simp] theorem getField_GET_OPCODE (i : Word) : getField SIZE_OP 0 (GET_OPCODE i) = GET_OPCODE i :=
  getField_getField i

@[simp] theorem getField_GETARG_A (i : Word) : getField SIZE_A 0 (GETARG_A i) = GETARG_A i :=
  getField_getField i

@[simp] theorem getField_GETARG_B (i : Word) : getField SIZE_B 0 (GETARG_B i) = GETARG_B i :=
  getField_getField i

@[simp] theorem getField_GETARG_C (i : Word) : getField SIZE_C 0 (GETARG_C i) = GETARG_C i :=
  getField_getField i

/-- `B` and `C` have the same width, so either holds the other. -/
@[simp] theorem getField_B_GETARG_C (i : Word) : getField SIZE_B 0 (GETARG_C i) = GETARG_C i :=
  getField_getField i

@[simp] theorem getField_C_GETARG_B (i : Word) : getField SIZE_C 0 (GETARG_B i) = GETARG_B i :=
  getField_getField i

@[simp] theorem getField_GETARG_Bx (i : Word) :
    getField SIZE_Bx 0 (GETARG_Bx i) = GETARG_Bx i :=
  getField_getField i

@[simp] theorem getField_rbxOpcode (o : OpCode) : getField SIZE_OP 0 (rbxOpcode o) = rbxOpcode o :=
  getField_eq_self (toNat_rbxOpcode_lt o)

/-- The signed operand goes through `int` and back: storing what was read is
storing the field. -/
theorem SETARG_sBx_GETARG_sBx (i j : Word) :
    SETARG_sBx i (GETARG_sBx j) = SETARG_Bx i (GETARG_Bx j) := by
  unfold SETARG_sBx GETARG_sBx
  rw [Int.sub_add_cancel, BitVec.ofInt_natCast, BitVec.ofNat_toNat, BitVec.setWidth_eq]

/-! ## One word survives -/

@[simp] theorem ofRbxOpcode_rbxOpcode (o : OpCode) : ofRbxOpcode (rbxOpcode o) = some o := by
  cases o <;> rfl

theorem getLsbD_opcode_eq {x y : Word} (h : ∀ i, 26 ≤ i → x.getLsbD i = y.getLsbD i) :
    GET_OPCODE x = GET_OPCODE y := by
  apply BitVec.eq_of_getLsbD_eq
  intro i hi
  unfold GET_OPCODE
  rw [getLsbD_getField hi, getLsbD_getField hi, h _ (by simp only [POS_OP]; omega)]

/-- The cipher leaves the opcode field alone, so the host can tell from it
whether to decipher. -/
theorem GET_OPCODE_obfuscate (w n : Word) :
    GET_OPCODE (obfuscateInstructionFast w n) = GET_OPCODE w :=
  getLsbD_opcode_eq (fun _ hi => getLsbD_obfuscate_of_le w n hi)

@[simp] theorem GET_OPCODE_placeOperands (o : OpCode) (v t : Word) :
    GET_OPCODE (placeOperands o v t) = GET_OPCODE t := by
  unfold placeOperands
  cases getOpMode o
  · by_cases hmove : o = OP_MOVE <;> simp [hmove]
  · simp
  · simp only [SETARG_sBx_GETARG_sBx]
    simp

/-- Placing the operands and undoing it is the identity on words whose unused
operands are zero; only `MOVE` needs that, whose `C` the marker replaces. -/
theorem undoOperands_placeOperands {o : OpCode} {v : Word}
    (ho : OpCode.ofWord (GET_OPCODE v) = some o) (hzero : UnusedZero o v) :
    undoOperands o (placeOperands o v (SET_OPCODE 0#32 (rbxOpcode o))) = v := by
  have hop : o.toWord = GET_OPCODE v := OpCode.toWord_of_ofWord ho
  unfold undoOperands placeOperands
  cases hmode : getOpMode o with
  | iABC =>
    apply eq_of_ABC
    · simp [hop]
    · by_cases hmove : o = OP_MOVE <;> simp [hmove]
    · by_cases hmove : o = OP_MOVE <;> simp [hmove]
    · by_cases hmove : o = OP_MOVE
      · have hc : GETARG_C v = 0#32 := (hzero hmode).2 (by rw [hmove]; rfl)
        rw [hc]
        simp only [hmove, if_true, GETARG_C_SETARG_C]
        decide
      · simp [hmove]
  | iABx =>
    apply eq_of_ABx <;> simp [hop]
  | iAsBx =>
    simp only [SETARG_sBx_GETARG_sBx]
    apply eq_of_ABx <;> simp [hop]

/-- Deciphering what the loop body produced gives back the placed operands. -/
theorem transpileInstr_eq {v : Word} {o : OpCode} (ho : OpCode.ofWord (GET_OPCODE v) = some o)
    (n : Word) :
    transpileInstr v n = some (if specialObfuscation o
      then obfuscateInstructionFast (placeOperands o v (SET_OPCODE 0#32 (rbxOpcode o))) n
      else placeOperands o v (SET_OPCODE 0#32 (rbxOpcode o))) := by
  unfold transpileInstr
  rw [ho]

theorem mul_key_cancel {decodeKey encodeKey : Word} (hkey : decodeKey * encodeKey = 1#32)
    (x : Word) : x * encodeKey * decodeKey = x := by
  rw [BitVec.mul_assoc, BitVec.mul_comm encodeKey, hkey, BitVec.mul_one]

/-- The decoder returns the word, whatever index and key it was stored under. -/
theorem decodeInstr_storedWord {v : Word} {o : OpCode} (n : Word) {decodeKey encodeKey : Word}
    (ho : OpCode.ofWord (GET_OPCODE v) = some o) (hzero : UnusedZero o v)
    (hkey : decodeKey * encodeKey = 1#32) :
    ∃ stored, storedWord encodeKey v n = some stored
      ∧ decodeInstr decodeKey n stored = some v := by
  refine ⟨_, by rw [storedWord, transpileInstr_eq ho n]; rfl, ?_⟩
  have hback := undoOperands_placeOperands ho hzero
  unfold decodeInstr
  simp only [mul_key_cancel hkey]
  by_cases hspecial : specialObfuscation o
  · -- the opcode bits pass the cipher, so the decoder takes the same branch
    simp [hspecial, GET_OPCODE_obfuscate, deobfuscate_obfuscate, hback]
  · simp [hspecial, hback]

/-! ## The whole table -/

/-- Entry `n` of the instruction table is the stored form of word `n`. -/
theorem getElem?_transpileCodeFrom {encodeKey : Word} {code table : List Word} :
    ∀ {start : Nat}, transpileCodeFrom encodeKey start code = some table →
      ∀ n, table[n]? = (code[n]?).bind
        (fun v => storedWord encodeKey v (BitVec.ofNat 32 (start + n))) := by
  induction code generalizing table with
  | nil =>
    intro start h n
    obtain rfl : [] = table := by simpa [transpileCodeFrom] using h
    rfl
  | cons v code ih =>
    intro start h n
    unfold transpileCodeFrom at h
    cases hv : storedWord encodeKey v (BitVec.ofNat 32 start) with
    | none => simp [hv] at h
    | some stored =>
      rw [hv] at h
      obtain ⟨rest, hrest, rfl⟩ := Option.map_eq_some_iff.mp h
      cases n with
      | zero => simp [hv]
      | succ n =>
        have := ih hrest n
        simpa [Nat.add_assoc, Nat.add_comm 1] using this

/-- It stores one word for each. -/
theorem length_transpileCodeFrom {encodeKey : Word} {code table : List Word} {start : Nat}
    (h : transpileCodeFrom encodeKey start code = some table) : table.length = code.length := by
  induction code generalizing table start with
  | nil =>
    obtain rfl : [] = table := by simpa [transpileCodeFrom] using h
    rfl
  | cons v code ih =>
    unfold transpileCodeFrom at h
    cases hv : storedWord encodeKey v (BitVec.ofNat 32 start) with
    | none => simp [hv] at h
    | some stored =>
      rw [hv] at h
      obtain ⟨rest, hrest, rfl⟩ := Option.map_eq_some_iff.mp h
      rw [List.length_cons, List.length_cons, ih hrest]

/-- The loop runs to its end exactly when every word names an opcode. -/
theorem transpileCodeFrom_isSome_iff (encodeKey : Word) (code : List Word) (start : Nat) :
    (transpileCodeFrom encodeKey start code).isSome
      ↔ ∀ v ∈ code, (OpCode.ofWord (GET_OPCODE v)).isSome := by
  induction code generalizing start with
  | nil => simp [transpileCodeFrom]
  | cons v code ih =>
    unfold transpileCodeFrom storedWord transpileInstr
    cases hv : OpCode.ofWord (GET_OPCODE v) with
    | none => simp [hv]
    | some o =>
      simp only [Option.map_some, Option.isSome_map, ih, List.mem_cons, forall_eq_or_imp, hv,
        Option.isSome_some, true_and]

/-- A code vector whose words all name opcodes has a table, of the same length. -/
theorem exists_transpileCode (encodeKey : Word) {code : List Word}
    (hops : ∀ v ∈ code, (OpCode.ofWord (GET_OPCODE v)).isSome) :
    ∃ table, transpileCode encodeKey code = some table ∧ table.length = code.length := by
  obtain ⟨table, htable⟩ := Option.isSome_iff_exists.mp
    ((transpileCodeFrom_isSome_iff encodeKey code 0).mpr hops)
  exact ⟨table, htable, length_transpileCodeFrom htable⟩

end NostalgiaConv.Instr
