/-
`lua/lopcodes.h` and `lua/lopcodes.c` as the repository vendors them: the
instruction layout (moved to the host's: opcode on top, then `A`, `B`, `C`), the
38 opcodes in `ORDER OP`, and the table `luaP_opmodes`; with the host's opcode
numbers of `update.hpp` beside them.
-/
import NostalgiaConv.BitField
import NostalgiaConv.Cipher

set_option autoImplicit false

namespace NostalgiaConv.Opcodes

open NostalgiaConv.BitField NostalgiaConv.Cipher

/-! ## The instruction layout -/

def SIZE_C : Nat := 9
def SIZE_B : Nat := 9
def SIZE_Bx : Nat := SIZE_C + SIZE_B
def SIZE_A : Nat := 8
def SIZE_OP : Nat := 6

def POS_OP : Nat := 26
def POS_A : Nat := 18
def POS_C : Nat := 0
def POS_B : Nat := 9
def POS_Bx : Nat := POS_C

def MAXARG_Bx : Nat := 2 ^ SIZE_Bx - 1
def MAXARG_sBx : Nat := MAXARG_Bx / 2
def MAXARG_C : Nat := 2 ^ SIZE_C - 1

def GET_OPCODE (i : Word) : Word := getField SIZE_OP POS_OP i
def SET_OPCODE (i o : Word) : Word := setField SIZE_OP POS_OP i o

def GETARG_A (i : Word) : Word := getField SIZE_A POS_A i
def SETARG_A (i u : Word) : Word := setField SIZE_A POS_A i u

def GETARG_B (i : Word) : Word := getField SIZE_B POS_B i
def SETARG_B (i b : Word) : Word := setField SIZE_B POS_B i b

def GETARG_C (i : Word) : Word := getField SIZE_C POS_C i
def SETARG_C (i b : Word) : Word := setField SIZE_C POS_C i b

def GETARG_Bx (i : Word) : Word := getField SIZE_Bx POS_Bx i
def SETARG_Bx (i b : Word) : Word := setField SIZE_Bx POS_Bx i b

/-- The signed operand is an `int`: the field less its excess. -/
def GETARG_sBx (i : Word) : Int := (GETARG_Bx i).toNat - MAXARG_sBx
def SETARG_sBx (i : Word) (b : Int) : Word := SETARG_Bx i (BitVec.ofInt 32 (b + MAXARG_sBx))

def CREATE_ABC (o a b c : Word) : Word :=
  (o <<< POS_OP) ||| (a <<< POS_A) ||| (b <<< POS_B) ||| (c <<< POS_C)

def CREATE_ABx (o a bc : Word) : Word :=
  (o <<< POS_OP) ||| (a <<< POS_A) ||| (bc <<< POS_Bx)

/-- `BITRK`: the bit of `B` or `C` that marks a constant index. -/
def BITRK : Nat := 2 ^ (SIZE_B - 1)

def ISK (x : Word) : Bool := x &&& BitVec.ofNat 32 BITRK ≠ 0#32
def INDEXK (r : Word) : Nat := (r &&& ~~~(BitVec.ofNat 32 BITRK)).toNat

/-- `LFIELDS_PER_FLUSH`: list items stored by one `SETLIST`. -/
def LFIELDS_PER_FLUSH : Nat := 50

/-! ## The opcodes -/

/-- `OpCode`, in `ORDER OP`. -/
inductive OpCode where
  | OP_MOVE | OP_LOADK | OP_LOADBOOL | OP_LOADNIL | OP_GETUPVAL
  | OP_GETGLOBAL | OP_GETTABLE
  | OP_SETGLOBAL | OP_SETUPVAL | OP_SETTABLE
  | OP_NEWTABLE | OP_SELF
  | OP_ADD | OP_SUB | OP_MUL | OP_DIV | OP_MOD | OP_POW | OP_UNM | OP_NOT | OP_LEN
  | OP_CONCAT | OP_JMP | OP_EQ | OP_LT | OP_LE | OP_TEST | OP_TESTSET
  | OP_CALL | OP_TAILCALL | OP_RETURN
  | OP_FORLOOP | OP_FORPREP | OP_TFORLOOP | OP_SETLIST
  | OP_CLOSE | OP_CLOSURE | OP_VARARG
  deriving DecidableEq, Repr

open OpCode

/-- The enumerators in order; the position is the number. -/
def OpCode.all : List OpCode :=
  [OP_MOVE, OP_LOADK, OP_LOADBOOL, OP_LOADNIL, OP_GETUPVAL,
    OP_GETGLOBAL, OP_GETTABLE,
    OP_SETGLOBAL, OP_SETUPVAL, OP_SETTABLE,
    OP_NEWTABLE, OP_SELF,
    OP_ADD, OP_SUB, OP_MUL, OP_DIV, OP_MOD, OP_POW, OP_UNM, OP_NOT, OP_LEN,
    OP_CONCAT, OP_JMP, OP_EQ, OP_LT, OP_LE, OP_TEST, OP_TESTSET,
    OP_CALL, OP_TAILCALL, OP_RETURN,
    OP_FORLOOP, OP_FORPREP, OP_TFORLOOP, OP_SETLIST,
    OP_CLOSE, OP_CLOSURE, OP_VARARG]

/-- The number of an enumerator. -/
def OpCode.toWord (o : OpCode) : Word := BitVec.ofNat 32 (OpCode.all.idxOf o)

/-- `NUM_OPCODES`. -/
def NUM_OPCODES : Nat := 38

/-- The enumerator with a given number; a six-bit field can also hold numbers
from `NUM_OPCODES` up, which name none. -/
def OpCode.ofWord (n : Word) : Option OpCode := OpCode.all[n.toNat]?

/-- `RBX_OP_*`: the host's number for each opcode. -/
def rbxOpcode : OpCode → Word
  | OP_LOADBOOL => 0x00
  | OP_GETTABLE => 0x01
  | OP_GETUPVAL => 0x02
  | OP_SETGLOBAL => 0x03
  | OP_LOADK => 0x04
  | OP_SETUPVAL => 0x05
  | OP_MOVE => 0x06
  | OP_LOADNIL => 0x07
  | OP_GETGLOBAL => 0x08
  | OP_SELF => 0x09
  | OP_DIV => 0x0A
  | OP_SUB => 0x0B
  | OP_MOD => 0x0C
  | OP_NEWTABLE => 0x0D
  | OP_POW => 0x0E
  | OP_SETTABLE => 0x0F
  | OP_ADD => 0x10
  | OP_MUL => 0x11
  | OP_LEN => 0x12
  | OP_LT => 0x13
  | OP_JMP => 0x14
  | OP_LE => 0x15
  | OP_NOT => 0x16
  | OP_TEST => 0x17
  | OP_UNM => 0x18
  | OP_CONCAT => 0x19
  | OP_EQ => 0x1A
  | OP_TAILCALL => 0x1B
  | OP_TFORLOOP => 0x1C
  | OP_FORLOOP => 0x1D
  | OP_SETLIST => 0x1E
  | OP_CALL => 0x1F
  | OP_CLOSE => 0x20
  | OP_TESTSET => 0x21
  | OP_RETURN => 0x22
  | OP_FORPREP => 0x23
  | OP_VARARG => 0x24
  | OP_CLOSURE => 0x25

/-! ## `luaP_opmodes` -/

inductive OpMode where
  | iABC | iABx | iAsBx
  deriving DecidableEq, Repr

inductive OpArgMask where
  | OpArgN | OpArgU | OpArgR | OpArgK
  deriving DecidableEq, Repr

open OpMode OpArgMask

/-- One entry of the table, with the packed byte taken apart: the arguments of
the macro `opmode(t,a,b,c,m)`. -/
structure OpModes where
  testT : Bool
  testA : Bool
  bMode : OpArgMask
  cMode : OpArgMask
  opMode : OpMode
  deriving DecidableEq, Repr

def luaP_opmodes : OpCode → OpModes
  | OP_MOVE => ⟨false, true, OpArgR, OpArgN, iABC⟩
  | OP_LOADK => ⟨false, true, OpArgK, OpArgN, iABx⟩
  | OP_LOADBOOL => ⟨false, true, OpArgU, OpArgU, iABC⟩
  | OP_LOADNIL => ⟨false, true, OpArgR, OpArgN, iABC⟩
  | OP_GETUPVAL => ⟨false, true, OpArgU, OpArgN, iABC⟩
  | OP_GETGLOBAL => ⟨false, true, OpArgK, OpArgN, iABx⟩
  | OP_GETTABLE => ⟨false, true, OpArgR, OpArgK, iABC⟩
  | OP_SETGLOBAL => ⟨false, false, OpArgK, OpArgN, iABx⟩
  | OP_SETUPVAL => ⟨false, false, OpArgU, OpArgN, iABC⟩
  | OP_SETTABLE => ⟨false, false, OpArgK, OpArgK, iABC⟩
  | OP_NEWTABLE => ⟨false, true, OpArgU, OpArgU, iABC⟩
  | OP_SELF => ⟨false, true, OpArgR, OpArgK, iABC⟩
  | OP_ADD => ⟨false, true, OpArgK, OpArgK, iABC⟩
  | OP_SUB => ⟨false, true, OpArgK, OpArgK, iABC⟩
  | OP_MUL => ⟨false, true, OpArgK, OpArgK, iABC⟩
  | OP_DIV => ⟨false, true, OpArgK, OpArgK, iABC⟩
  | OP_MOD => ⟨false, true, OpArgK, OpArgK, iABC⟩
  | OP_POW => ⟨false, true, OpArgK, OpArgK, iABC⟩
  | OP_UNM => ⟨false, true, OpArgR, OpArgN, iABC⟩
  | OP_NOT => ⟨false, true, OpArgR, OpArgN, iABC⟩
  | OP_LEN => ⟨false, true, OpArgR, OpArgN, iABC⟩
  | OP_CONCAT => ⟨false, true, OpArgR, OpArgR, iABC⟩
  | OP_JMP => ⟨false, false, OpArgR, OpArgN, iAsBx⟩
  | OP_EQ => ⟨true, false, OpArgK, OpArgK, iABC⟩
  | OP_LT => ⟨true, false, OpArgK, OpArgK, iABC⟩
  | OP_LE => ⟨true, false, OpArgK, OpArgK, iABC⟩
  | OP_TEST => ⟨true, true, OpArgR, OpArgU, iABC⟩
  | OP_TESTSET => ⟨true, true, OpArgR, OpArgU, iABC⟩
  | OP_CALL => ⟨false, true, OpArgU, OpArgU, iABC⟩
  | OP_TAILCALL => ⟨false, true, OpArgU, OpArgU, iABC⟩
  | OP_RETURN => ⟨false, false, OpArgU, OpArgN, iABC⟩
  | OP_FORLOOP => ⟨false, true, OpArgR, OpArgN, iAsBx⟩
  | OP_FORPREP => ⟨false, true, OpArgR, OpArgN, iAsBx⟩
  | OP_TFORLOOP => ⟨true, false, OpArgN, OpArgU, iABC⟩
  | OP_SETLIST => ⟨false, false, OpArgU, OpArgU, iABC⟩
  | OP_CLOSE => ⟨false, false, OpArgN, OpArgN, iABC⟩
  | OP_CLOSURE => ⟨false, true, OpArgU, OpArgN, iABx⟩
  | OP_VARARG => ⟨false, true, OpArgU, OpArgN, iABC⟩

def getOpMode (m : OpCode) : OpMode := (luaP_opmodes m).opMode
def getBMode (m : OpCode) : OpArgMask := (luaP_opmodes m).bMode
def getCMode (m : OpCode) : OpArgMask := (luaP_opmodes m).cMode

/-! ## Facts about the tables -/

theorem OpCode.length_all : OpCode.all.length = NUM_OPCODES := rfl

theorem OpCode.ofWord_toWord (o : OpCode) : OpCode.ofWord o.toWord = some o := by
  cases o <;> rfl

/-- An opcode field names an enumerator exactly below `NUM_OPCODES`. -/
theorem OpCode.ofWord_isSome_iff (n : Word) :
    (OpCode.ofWord n).isSome ↔ n.toNat < NUM_OPCODES := by
  rw [← OpCode.length_all, OpCode.ofWord]
  simp

theorem OpCode.toWord_of_ofWord {n : Word} {o : OpCode} (h : OpCode.ofWord n = some o) :
    o.toWord = n := by
  have hlt : n.toNat < NUM_OPCODES := by
    rw [← OpCode.ofWord_isSome_iff, h]; rfl
  have hall : ∀ m : Fin 38, ∀ o, OpCode.all[m.val]? = some o → OpCode.all.idxOf o = m.val := by
    decide
  have hidx := hall ⟨n.toNat, hlt⟩ o h
  rw [OpCode.toWord, hidx, BitVec.ofNat_toNat, BitVec.setWidth_eq]

/-- The host's number determines the opcode. -/
theorem rbxOpcode_injective : Function.Injective rbxOpcode := by
  intro a b h
  have hidx : ∀ o : OpCode, OpCode.all.find? (fun p => rbxOpcode p == rbxOpcode o) = some o := by
    intro o; cases o <;> rfl
  have ha := hidx a
  rw [h, hidx b] at ha
  exact (Option.some.inj ha).symm

/-- The host's numbers fit the opcode field. -/
theorem toNat_rbxOpcode_lt (o : OpCode) : (rbxOpcode o).toNat < 2 ^ SIZE_OP := by
  cases o <;> decide

/-- A word is determined by its opcode, `A` and `Bx` fields. -/
theorem eq_of_ABx {x y : Word} (ho : GET_OPCODE x = GET_OPCODE y)
    (ha : GETARG_A x = GETARG_A y) (hb : GETARG_Bx x = GETARG_Bx y) : x = y := by
  apply BitVec.eq_of_getLsbD_eq
  intro i hi
  by_cases h18 : i < 18
  · exact getLsbD_eq_of_getField_eq (by decide) hb (Nat.zero_le i) h18
  · by_cases h26 : i < 26
    · exact getLsbD_eq_of_getField_eq (by decide) ha (Nat.not_lt.mp h18) h26
    · exact getLsbD_eq_of_getField_eq (by decide) ho (Nat.not_lt.mp h26) hi

/-- A word is determined by its opcode, `A`, `B` and `C` fields. -/
theorem eq_of_ABC {x y : Word} (ho : GET_OPCODE x = GET_OPCODE y)
    (ha : GETARG_A x = GETARG_A y) (hb : GETARG_B x = GETARG_B y)
    (hc : GETARG_C x = GETARG_C y) : x = y := by
  refine eq_of_ABx ho ha ?_
  apply BitVec.eq_of_getLsbD_eq
  intro i hi
  unfold GETARG_Bx
  rw [getLsbD_getField hi, getLsbD_getField hi]
  by_cases h18 : i < SIZE_Bx
  · have hbit : x.getLsbD (POS_Bx + i) = y.getLsbD (POS_Bx + i) := by
      by_cases h9 : i < 9
      · exact getLsbD_eq_of_getField_eq (by decide) hc (Nat.zero_le _)
          (by simp only [POS_Bx, POS_C, SIZE_C]; omega)
      · exact getLsbD_eq_of_getField_eq (by decide) hb
          (by simp only [POS_Bx, POS_C, POS_B]; omega)
          (by simp only [POS_Bx, POS_C, POS_B, SIZE_B, SIZE_Bx, SIZE_C] at h18 ⊢; omega)
    rw [hbit]
  · simp [h18]

end NostalgiaConv.Opcodes
