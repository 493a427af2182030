/-
Where `luaV_execute` goes, and what it touches on the way, for all opcodes.

`successors` lists the places in the same function at which the main loop can go on
after an instruction, `accesses` what the instruction's case reads or writes of the
function, its constants and its frame. A machine of call frames takes any of these
successors, calls any loaded function at any instruction, and returns; every run of
the interpreter, whatever the values are, is one of its runs. The slots of an open
call or an open list, whose number only `L->top` knows, are left out, and the two
arguments that `TFORLOOP` sets up may lie above the frame, in the `EXTRA_STACK`.
-/
import NostalgiaConv.CodeCheck
import NostalgiaConv.Hoare
import NostalgiaConv.Lvm
import NostalgiaConv.Transition

set_option autoImplicit false

namespace NostalgiaConv.CodeFlow

open NostalgiaConv.Cipher NostalgiaConv.Opcodes NostalgiaConv.Interpreter NostalgiaConv.CodeCheck
open NostalgiaConv.Transition NostalgiaConv.Relational NostalgiaConv.Hoare NostalgiaConv.Lvm
open OpCode OpMode OpArgMask

/-! ## One instruction -/

inductive Access where
  | code (n : Nat)
  | constant (n : Nat)
  | stringConstant (n : Nat) -- `lua_assert(ttisstring(..))`
  | register (n : Nat)
  | callSlot (n : Nat) -- above the frame: an argument of the call that is set up
  | upvalue (n : Nat)
  | child (n : Nat)
  deriving DecidableEq

def EXTRA_STACK : Nat := 5

/-- A closure has as many upvalues as its proto says. -/
def Access.InBounds (f : LProto) : Access → Prop
  | .code n => n < f.head.code.length
  | .constant n => n < f.head.k.length
  | .stringConstant n => isStringConstant f.head n = true
  | .register n => n < f.head.maxstacksize.toNat
  | .callSlot n => n < f.head.maxstacksize.toNat + EXTRA_STACK
  | .upvalue n => n < f.head.nups.toNat
  | .child n => n < f.childNups.length

/-- `RKB`, `RKC` -/
def rk (x : Word) : Access := if ISK x then .constant (INDEXK x) else .register x.toNat

/-- The `n` registers from `a` on. -/
def span (a n : Nat) : List Access := (List.range n).map fun j => .register (a + j)

/-- `nup = p->nups` for the child of a `CLOSURE`. -/
def nupOf (f : LProto) (i : Word) : Nat := (f.childNups[argBx i]?).getD 0

/-- What a capturing pseudo-instruction makes the `CLOSURE` before it touch. -/
def captureAccess (i : Word) : Access :=
  if GET_OPCODE i = OP_GETUPVAL.toWord then .upvalue (argB i) else .register (argB i)

/-- What the instruction `i` at `pc` touches. -/
def accesses (f : LProto) (pc : Nat) (op : OpCode) (i : Word) : List Access :=
  let a := argA i
  let b := argB i
  let c := argC i
  let rb := Access.register b
  let rc := rk (GETARG_C i)
  match op with
  | OP_MOVE => [.register a, rb]
  | OP_LOADK => [.register a, .constant (argBx i)]
  | OP_LOADBOOL => [.register a]
  | OP_LOADNIL => rb :: span a (b + 1 - a)
  | OP_GETUPVAL => [.register a, .upvalue b]
  | OP_GETGLOBAL | OP_SETGLOBAL => [.register a, .stringConstant (argBx i)]
  | OP_GETTABLE => [.register a, rb, rc]
  | OP_SETUPVAL => [.register a, .upvalue b]
  | OP_SETTABLE => [.register a, rk (GETARG_B i), rc]
  | OP_NEWTABLE => [.register a]
  | OP_SELF => [.register a, .register (a + 1), rb, rc]
  | OP_ADD | OP_SUB | OP_MUL | OP_DIV | OP_MOD | OP_POW => [.register a, rk (GETARG_B i), rc]
  | OP_UNM | OP_NOT | OP_LEN => [.register a, rb]
  | OP_CONCAT => .register a :: span b (c + 1 - b)
  | OP_JMP => []
  | OP_EQ | OP_LT | OP_LE => [rk (GETARG_B i), rc, .code (pc + 1)]
  | OP_TEST => [.register a, .code (pc + 1)]
  | OP_TESTSET => [.register a, rb, .code (pc + 1)]
  | OP_CALL => .register a :: (span a b ++ span a (c - 1))
  | OP_TAILCALL => .register a :: span a b
  | OP_RETURN => .register a :: span a (b - 1)
  | OP_FORLOOP => span a 4
  | OP_FORPREP => span a 3
  | OP_TFORLOOP =>
    span a 4 ++ span (a + 3) c ++ [.callSlot (a + 4), .callSlot (a + 5), .code (pc + 1)]
  | OP_SETLIST => span a (b + 1) ++ if c = 0 then [.code (pc + 1)] else []
  | OP_CLOSE => [.register a]
  | OP_CLOSURE =>
    [.register a, .child (argBx i)] ++ (List.range (nupOf f i)).map (fun j => .code (pc + j + 1))
      ++ (List.range (nupOf f i)).map fun j => captureAccess (codeWord f.head (pc + j + 1))
  | OP_VARARG => .register a :: span a (b - 1)

/-- Where the loop can go on in this function. A test jumps as the next instruction
says, or over it. -/
def successors (f : LProto) (pc : Nat) (op : OpCode) (i : Word) : List Int :=
  let next : Int := pc + 1
  match op with
  | OP_LOADBOOL => [if argC i ≠ 0 then next + 1 else next]
  | OP_JMP | OP_FORPREP => [next + GETARG_sBx i]
  | OP_FORLOOP => [next + GETARG_sBx i, next]
  | OP_EQ | OP_LT | OP_LE | OP_TEST | OP_TESTSET | OP_TFORLOOP =>
    [next + GETARG_sBx (codeWord f.head (pc + 1)) + 1, next + 1]
  | OP_SETLIST => [if argC i = 0 then next + 1 else next]
  | OP_CLOSURE => [next + nupOf f i]
  | OP_RETURN => []
  | _ => [next]

/-! ## Frames -/

structure Frame where
  f : LProto
  pc : Int

/-- The instruction that is fetched, if the program counter is in the code. -/
def Frame.fetch (fr : Frame) : Option (Nat × OpCode × Word) :=
  if 0 ≤ fr.pc ∧ fr.pc < fr.f.head.code.length then
    let i := codeWord fr.f.head fr.pc.toNat
    (OpCode.ofWord (GET_OPCODE i)).map fun op => (fr.pc.toNat, op, i)
  else none

/-- What the interpreter does next. A call can come from any instruction, by way of a
metamethod; the number says which successor the caller goes on with. -/
inductive Action where
  | go (n : Nat)
  | call (n : Nat) (g : LProto)
  | tailcall (g : LProto)
  | ret

def step (s : List Frame) (a : Action) : Option (List Frame) :=
  match s with
  | [] => none
  | fr :: rest =>
    match fr.fetch with
    | none => none
    | some (pc, op, i) =>
      match a with
      | .go n => ((successors fr.f pc op i)[n]?).map fun pc' => { fr with pc := pc' } :: rest
      | .call n g => ((successors fr.f pc op i)[n]?).map fun pc' =>
        { f := g, pc := 0 } :: { fr with pc := pc' } :: rest
      | .tailcall g => if op = OP_TAILCALL then some ({ f := g, pc := 0 } :: rest) else none
      | .ret => if op = OP_RETURN then some rest else none

/-- Every `LOADBOOL` skips by a one, as the compiler writes it: the checker looks at a
skip by a one only. -/
def PlainSkips (f : LProto) : Prop :=
  ∀ n < f.head.code.length, isCount f.head n = false →
    OpCode.ofWord (GET_OPCODE (codeWord f.head n)) = some OP_LOADBOOL →
      argC (codeWord f.head n) ≤ 1

/-- A function that was accepted. -/
def Accepted (f : LProto) : Prop := luaG_checkcode f = true ∧ PlainSkips f

/-- A frame whose next instruction is one: it is in the code, is no count, has an
opcode, and all that it touches is there. -/
def Frame.Defined (fr : Frame) : Prop :=
  ∃ pc op i, fr.fetch = some (pc, op, i) ∧ isCount fr.f.head pc = false
    ∧ ∀ x ∈ accesses fr.f pc op i, x.InBounds fr.f

/-! ## Where an instruction leads -/

section

variable {f : LProto} {n : Nat} {op : OpCode}

/-- The checker's parity is the one of the counts. -/
theorem setlistsBefore_even {pt : CodeCheck.LHead} (n : Nat) :
    setlistsBefore pt n % 2 = 0 ↔ isCount pt n = false := by
  induction n with
  | zero => simp [setlistsBefore, isCount]
  | succ n ih =>
    rw [setlistsBefore, isCount]
    by_cases hopen : isOpenSetlist (codeWord pt n) = true
    · rw [if_pos hopen, hopen, Bool.and_true, Bool.not_eq_false', ← Bool.not_eq_false, ← ih]
      omega
    · rw [if_neg hopen, Bool.eq_false_iff.mpr hopen, Bool.and_false]
      exact ⟨fun _ => rfl, fun _ => rfl⟩

/-- A place in the code that is no count. -/
def Lands (f : LProto) (pc : Int) : Prop :=
  0 ≤ pc ∧ pc < f.head.code.length ∧ isCount f.head pc.toNat = false

theorem lands_of_checkDest {dest : Int} (h : checkDest f.head dest = true) : Lands f dest := by
  simp only [checkDest, Bool.and_eq_true, decide_eq_true_eq] at h
  exact ⟨h.1.1, h.1.2, (setlistsBefore_even _).mp h.2⟩

theorem lands_natCast {m : Nat} (hm : m < f.head.code.length) (hcount : isCount f.head m = false) :
    Lands f m :=
  ⟨by omega, by omega, hcount⟩

/-- What the checker says of an instruction, with its check of a test. -/
structure Checked (f : LProto) (n : Nat) (op : OpCode) : Prop where
  lt : n < f.head.code.length
  count : isCount f.head n = false
  opcode : OpCode.ofWord (GET_OPCODE (codeWord f.head n)) = some op
  regA : argA (codeWord f.head n) < f.head.maxstacksize.toNat
  operands : checkOperands f.head op (codeWord f.head n) n = true
  skip : (luaP_opmodes op).testT = true →
    n + 2 < f.head.code.length ∧ GET_OPCODE (codeWord f.head (n + 1)) = OP_JMP.toWord
  check : checkOp f.head f.childNups op (argA (codeWord f.head n))
    (operandB op (codeWord f.head n)) (operandC op (codeWord f.head n)) n = true

theorem checked_of_lands (hf : luaG_checkcode f = true) (hlt : n < f.head.code.length)
    (hn : isCount f.head n = false) : ∃ op, Checked f n op := by
  have h := checkcode_checked hf hlt hn
  unfold checkInstr at h
  cases hop : OpCode.ofWord (GET_OPCODE (codeWord f.head n)) with
  | none =>
    simp only [hop] at h
    exact absurd h Bool.false_ne_true
  | some op =>
    simp only [hop, Bool.and_eq_true, Bool.or_eq_true, Bool.not_eq_true', decide_eq_true_eq] at h
    obtain ⟨⟨⟨hA, hoperands⟩, hskip⟩, hcheck⟩ := h
    refine ⟨op, hlt, hn, hop, Int.ofNat_lt.mp (of_decide_eq_true hA), hoperands, ?_, hcheck⟩
    intro ht
    rcases hskip with hfalse | hskip
    · rw [ht] at hfalse
      exact absurd hfalse.symm Bool.false_ne_true
    · exact hskip

theorem Checked.toWord (h : Checked f n op) : GET_OPCODE (codeWord f.head n) = op.toWord :=
  (OpCode.toWord_of_ofWord h.opcode).symm

/-- The code ends in a `RETURN`. -/
theorem code_last (hf : luaG_checkcode f = true) : 0 < f.head.code.length
    ∧ GET_OPCODE (codeWord f.head (f.head.code.length - 1)) = OP_RETURN.toWord := by
  have hpre := (checkcode_ran hf).1
  simp only [precheck, Bool.and_eq_true, decide_eq_true_eq] at hpre
  exact ⟨hpre.1.2, hpre.2⟩

theorem toWord_injective {o o' : OpCode} (h : o.toWord = o'.toWord) : o = o' := by
  have := OpCode.ofWord_toWord o
  rw [h, OpCode.ofWord_toWord] at this
  exact (Option.some.inj this).symm

/-- So what is no `RETURN` is not the last. -/
theorem Checked.succ_lt (hf : luaG_checkcode f = true) (h : Checked f n op) (hret : op ≠ OP_RETURN) :
    n + 1 < f.head.code.length := by
  obtain ⟨-, hlast⟩ := code_last hf
  have hlt := h.lt
  by_contra hge
  have hn : f.head.code.length - 1 = n := by omega
  rw [hn, h.toWord] at hlast
  exact hret (toWord_injective hlast)

/-- The instruction after one that is no list. -/
theorem Checked.lands_next (hf : luaG_checkcode f = true) (h : Checked f n op)
    (hret : op ≠ OP_RETURN) (hlist : op ≠ OP_SETLIST) : Lands f (n + 1 : Nat) :=
  lands_natCast (h.succ_lt hf hret) (isCount_succ_of_ne h.toWord hlist)

/-- The two ways out of a test. -/
theorem Checked.lands_test (hf : luaG_checkcode f = true) (h : Checked f n op)
    (ht : (luaP_opmodes op).testT = true) :
    Lands f ((n + 1 : Nat) + GETARG_sBx (codeWord f.head (n + 1)) + 1) ∧ Lands f (n + 2 : Nat) := by
  obtain ⟨hlt, hjmp⟩ := h.skip ht
  have hne : op ≠ OP_RETURN ∧ op ≠ OP_SETLIST := by
    constructor <;> (rintro rfl; exact absurd ht (by decide))
  obtain ⟨-, -, hcount⟩ := h.lands_next hf hne.1 hne.2
  obtain ⟨op', hnext⟩ := checked_of_lands hf (by omega) hcount
  obtain rfl : op' = OP_JMP := toWord_injective (hnext.toWord.symm.trans hjmp)
  refine ⟨?_, lands_natCast hlt (isCount_succ_of_ne hjmp (by decide))⟩
  have hoperands := hnext.operands
  simp only [checkOperands, getOpMode, getBMode, luaP_opmodes] at hoperands
  have hdest := lands_of_checkDest hoperands
  have heq : ((n + 1 : Nat) : Int) + 1 + GETARG_sBx (codeWord f.head (n + 1))
      = (n + 1 : Nat) + GETARG_sBx (codeWord f.head (n + 1)) + 1 := by omega
  exact heq ▸ hdest

/-- A jump by its own operand. -/
theorem Checked.lands_jump (h : Checked f n op) (hmode : getOpMode op = iAsBx)
    (hB : getBMode op = OpArgR) :
    Lands f ((n : Int) + 1 + GETARG_sBx (codeWord f.head n)) := by
  have hoperands := h.operands
  simp only [checkOperands, hmode, hB] at hoperands
  exact lands_of_checkDest hoperands

/-- A skip does not lead to a count. -/
theorem Checked.lands_skip (h : Checked f n OP_LOADBOOL)
    (hC : argC (codeWord f.head n) = 1) : Lands f (n + 2 : Nat) := by
  have hcheck := h.check
  have hc : operandC OP_LOADBOOL (codeWord f.head n) = 1 := by
    rw [operandC]
    exact congrArg Nat.cast hC
  simp only [checkOp, hc, Bool.and_eq_true, Bool.or_eq_true, decide_eq_true_eq, ne_eq,
    not_true_eq_false, false_or] at hcheck
  obtain ⟨hlt, hnext⟩ := hcheck
  refine lands_natCast hlt ?_
  have hclosed : isOpenSetlist (codeWord f.head (n + 1)) = false := by
    rw [isOpenSetlist, decide_eq_false_iff_not]
    rintro ⟨hop, hzero⟩
    rcases hnext with hne | hne
    · exact hne hop
    · exact hne hzero
  rw [isCount, hclosed, Bool.and_false]

/-- After a list the count is passed over, where there is one. -/
theorem Checked.lands_setlist (hf : luaG_checkcode f = true) (h : Checked f n OP_SETLIST) :
    Lands f (if argC (codeWord f.head n) = 0 then (n : Int) + 1 + 1 else (n : Int) + 1) := by
  have hopen := isOpenSetlist_iff h.opcode
  have hnext : isCount f.head (n + 1) = isOpenSetlist (codeWord f.head n) := by
    rw [isCount, h.count, Bool.not_false, Bool.true_and]
  by_cases hC : argC (codeWord f.head n) = 0
  · rw [if_pos hC]
    have hcheck := h.check
    have hc : operandC OP_SETLIST (codeWord f.head n) = 0 := by
      rw [operandC]
      exact congrArg Nat.cast hC
    simp only [checkOp, hc, Bool.and_eq_true, Bool.or_eq_true, decide_eq_true_eq, ne_eq,
      not_true_eq_false, false_or] at hcheck
    have hcount : isCount f.head (n + 2) = false := by
      rw [isCount, hnext, hopen.mpr ⟨rfl, hC⟩, Bool.not_true, Bool.false_and]
    exact lands_natCast (m := n + 2) (by omega) hcount
  · rw [if_neg hC]
    have hcount : isCount f.head (n + 1) = false := by
      rw [hnext, Bool.eq_false_iff]
      exact fun hlist => hC (hopen.mp hlist).2
    exact lands_natCast (m := n + 1) (h.succ_lt hf (by decide)) hcount

/-- The words that a closure takes its captures from are instructions, and so is what
follows them. -/
theorem Checked.captures (hf : luaG_checkcode f = true) (h : Checked f n OP_CLOSURE) :
    (∀ j < nupOf f (codeWord f.head n), Lands f (n + j + 1 : Nat)
        ∧ (GET_OPCODE (codeWord f.head (n + j + 1)) = OP_GETUPVAL.toWord
          ∨ GET_OPCODE (codeWord f.head (n + j + 1)) = OP_MOVE.toWord))
      ∧ Lands f (n + nupOf f (codeWord f.head n) + 1 : Nat)
      ∧ argBx (codeWord f.head n) < f.childNups.length := by
  have hcheck := h.check
  have hB : (operandB OP_CLOSURE (codeWord f.head n)).toNat = argBx (codeWord f.head n) := rfl
  simp only [checkOp, hB] at hcheck
  cases hnup : f.childNups[argBx (codeWord f.head n)]? with
  | none =>
    rw [hnup] at hcheck
    exact absurd hcheck Bool.false_ne_true
  | some nup =>
    have hnupOf : nupOf f (codeWord f.head n) = nup := by rw [nupOf, hnup, Option.getD_some]
    simp only [hnup, checkCaptures, Bool.and_eq_true, decide_eq_true_eq, List.all_eq_true,
      List.mem_range, Bool.or_eq_true] at hcheck
    obtain ⟨hlt, hwords⟩ := hcheck
    rw [hnupOf]
    have hland : ∀ j < nup, Lands f (n + j + 1 : Nat) := fun j hj =>
      have hcapture := captures_checked hf h.lt h.count h.opcode hnup hj
      lands_natCast hcapture.1 hcapture.2
    refine ⟨fun j hj => ⟨hland j hj, hwords j hj⟩, ?_,
      (List.getElem?_eq_some_iff.mp hnup).1⟩
    -- the last word before it is a capture, or the closure itself
    cases nup with
    | zero => exact h.lands_next hf (by decide) (by decide)
    | succ j =>
      obtain ⟨-, hjlt, hjcount⟩ := hland j (Nat.lt_succ_self j)
      obtain ⟨op', hlast⟩ := checked_of_lands hf (by omega) hjcount
      have hne : op' ≠ OP_RETURN ∧ op' ≠ OP_SETLIST := by
        rcases hwords j (Nat.lt_succ_self j) with hop | hop
        · obtain rfl := toWord_injective (hlast.toWord.symm.trans hop)
          exact ⟨by decide, by decide⟩
        · obtain rfl := toWord_injective (hlast.toWord.symm.trans hop)
          exact ⟨by decide, by decide⟩
      exact hlast.lands_next hf hne.1 hne.2

/-- **Accepted code leads to accepted code**: after any instruction the interpreter is
at an instruction again. -/
theorem Checked.lands_successors (hf : Accepted f) (h : Checked f n op) :
    ∀ pc ∈ successors f n op (codeWord f.head n), Lands f pc := by
  intro pc hpc
  cases op with
  | OP_LOADBOOL =>
    obtain rfl := List.mem_singleton.mp hpc
    by_cases hC : argC (codeWord f.head n) = 0
    · rw [if_neg (not_not.mpr hC)]
      exact h.lands_next hf.1 (by decide) (by decide)
    · rw [if_pos hC]
      have hle := hf.2 n h.lt h.count h.opcode
      exact h.lands_skip (by omega)
  | OP_JMP | OP_FORPREP =>
    obtain rfl := List.mem_singleton.mp hpc
    exact h.lands_jump rfl rfl
  | OP_FORLOOP =>
    simp only [successors, List.mem_cons, List.not_mem_nil, or_false] at hpc
    rcases hpc with rfl | rfl
    · exact h.lands_jump rfl rfl
    · exact h.lands_next hf.1 (by decide) (by decide)
  | OP_EQ | OP_LT | OP_LE | OP_TEST | OP_TESTSET | OP_TFORLOOP =>
    obtain ⟨hjump, hskip⟩ := h.lands_test hf.1 rfl
    simp only [successors, List.mem_cons, List.not_mem_nil, or_false] at hpc
    rcases hpc with rfl | rfl
    · exact hjump
    · exact hskip
  | OP_SETLIST =>
    obtain rfl := List.mem_singleton.mp hpc
    exact h.lands_setlist hf.1
  | OP_CLOSURE =>
    obtain rfl := List.mem_singleton.mp hpc
    have hland := (h.captures hf.1).2.1
    have heq : ((n + nupOf f (codeWord f.head n) + 1 : Nat) : Int)
        = (n : Int) + 1 + nupOf f (codeWord f.head n) := by omega
    exact heq ▸ hland
  | OP_RETURN => exact absurd hpc List.not_mem_nil
  | _ =>
    obtain rfl := List.mem_singleton.mp hpc
    exact h.lands_next hf.1 (by decide) (by decide)

/-! ## What an instruction touches -/

theorem span_inBounds {a m : Nat} (h : m = 0 ∨ a + m ≤ f.head.maxstacksize.toNat) :
    ∀ x ∈ span a m, x.InBounds f := by
  intro x hx
  obtain ⟨j, hj, rfl⟩ := List.mem_map.mp hx
  have hjm := List.mem_range.mp hj
  exact show a + j < f.head.maxstacksize.toNat by omega

theorem checkreg_iff {pt : CodeCheck.LHead} {r : Int} :
    checkreg pt r = true ↔ r < pt.maxstacksize.toNat := decide_eq_true_iff

theorem rk_inBounds {x : Word} (h : checkArgMode f.head x OpArgK = true) : (rk x).InBounds f := by
  rw [checkArgMode] at h
  rw [rk]
  by_cases hx : ISK x = true
  · rw [if_pos hx] at h ⊢
    have hlt : INDEXK x < f.head.k.length := of_decide_eq_true h
    exact hlt
  · rw [if_neg hx] at h ⊢
    exact Int.ofNat_lt.mp (checkreg_iff.mp h)

/-- The operands of an `iABC` instruction, by their modes. -/
theorem Checked.args (h : Checked f n op) (hmode : getOpMode op = iABC) :
    checkArgMode f.head (GETARG_B (codeWord f.head n)) (getBMode op) = true
      ∧ checkArgMode f.head (GETARG_C (codeWord f.head n)) (getCMode op) = true
      ∧ operandB op (codeWord f.head n) = argB (codeWord f.head n)
      ∧ operandC op (codeWord f.head n) = argC (codeWord f.head n) := by
  have hoperands := h.operands
  rw [checkOperands, hmode] at hoperands
  rw [operandB, operandC, hmode]
  simp only [Bool.and_eq_true] at hoperands
  exact ⟨hoperands.1, hoperands.2, rfl, rfl⟩

theorem register_inBounds {x : Word} (h : checkArgMode f.head x OpArgR = true) :
    (Access.register x.toNat).InBounds f :=
  Int.ofNat_lt.mp (checkreg_iff.mp h)

/-- A capture is a `GETUPVAL` or a `MOVE`, and checked as one. -/
theorem Checked.capture_inBounds (hf : luaG_checkcode f = true) (hland : Lands f n)
    (hword : GET_OPCODE (codeWord f.head n) = OP_GETUPVAL.toWord
      ∨ GET_OPCODE (codeWord f.head n) = OP_MOVE.toWord) :
    (captureAccess (codeWord f.head n)).InBounds f := by
  obtain ⟨-, hlt, hcount⟩ := hland
  obtain ⟨op, h⟩ := checked_of_lands hf (by omega) hcount
  rw [captureAccess]
  rcases hword with hop | hop
  · obtain rfl := toWord_injective (h.toWord.symm.trans hop)
    rw [if_pos hop]
    have hcheck := h.check
    rw [(h.args rfl).2.2.1] at hcheck
    exact Int.ofNat_lt.mp (of_decide_eq_true hcheck)
  · obtain rfl := toWord_injective (h.toWord.symm.trans hop)
    have hne : GET_OPCODE (codeWord f.head n) ≠ OP_GETUPVAL.toWord := by
      rw [hop]
      decide
    rw [if_neg hne]
    exact register_inBounds (h.args rfl).1

/-- **What an instruction of accepted code touches is there.** -/
theorem Checked.accesses_inBounds (hf : Accepted f) (h : Checked f n op) :
    ∀ x ∈ accesses f n op (codeWord f.head n), x.InBounds f := by
  have hA : (Access.register (argA (codeWord f.head n))).InBounds f := h.regA
  have hcheck := h.check
  cases op with
  | OP_MOVE | OP_UNM | OP_NOT | OP_LEN =>
    have hB := register_inBounds (h.args rfl).1
    simp only [accesses, List.forall_mem_cons]
    exact ⟨hA, hB, List.forall_mem_nil _⟩
  | OP_LOADK =>
    have hK : argBx (codeWord f.head n) < f.head.k.length := of_decide_eq_true h.operands
    simp only [accesses, List.forall_mem_cons]
    exact ⟨hA, hK, List.forall_mem_nil _⟩
  | OP_LOADBOOL | OP_NEWTABLE | OP_CLOSE =>
    simp only [accesses, List.forall_mem_cons]
    exact ⟨hA, List.forall_mem_nil _⟩
  | OP_LOADNIL =>
    -- the checker looks at the last register, `B`
    have hB := register_inBounds (h.args rfl).1
    refine List.forall_mem_cons.mpr ⟨hB, span_inBounds ?_⟩
    have : argB (codeWord f.head n) < f.head.maxstacksize.toNat := hB
    omega
  | OP_GETUPVAL | OP_SETUPVAL =>
    rw [(h.args rfl).2.2.1] at hcheck
    simp only [accesses, List.forall_mem_cons]
    exact ⟨hA, Int.ofNat_lt.mp (of_decide_eq_true hcheck), List.forall_mem_nil _⟩
  | OP_GETGLOBAL | OP_SETGLOBAL =>
    simp only [accesses, List.forall_mem_cons]
    exact ⟨hA, hcheck, List.forall_mem_nil _⟩
  | OP_GETTABLE =>
    have hargs := h.args rfl
    simp only [accesses, List.forall_mem_cons]
    exact ⟨hA, register_inBounds hargs.1, rk_inBounds hargs.2.1, List.forall_mem_nil _⟩
  | OP_SETTABLE | OP_ADD | OP_SUB | OP_MUL | OP_DIV | OP_MOD | OP_POW =>
    have hargs := h.args rfl
    simp only [accesses, List.forall_mem_cons]
    exact ⟨hA, rk_inBounds hargs.1, rk_inBounds hargs.2.1, List.forall_mem_nil _⟩
  | OP_SELF =>
    have hargs := h.args rfl
    have hnext := checkreg_iff.mp hcheck
    simp only [accesses, List.forall_mem_cons]
    refine ⟨hA, ?_, register_inBounds hargs.1, rk_inBounds hargs.2.1, List.forall_mem_nil _⟩
    exact show _ + 1 < f.head.maxstacksize.toNat by omega
  | OP_CONCAT =>
    have hC : argC (codeWord f.head n) < f.head.maxstacksize.toNat :=
      register_inBounds (h.args rfl).2.1
    exact List.forall_mem_cons.mpr ⟨hA, span_inBounds (by omega)⟩
  | OP_JMP => exact List.forall_mem_nil _
  | OP_EQ | OP_LT | OP_LE =>
    have hargs := h.args rfl
    have hnext := (h.skip rfl).1
    simp only [accesses, List.forall_mem_cons]
    refine ⟨rk_inBounds hargs.1, rk_inBounds hargs.2.1, ?_, List.forall_mem_nil _⟩
    exact show n + 1 < f.head.code.length by omega
  | OP_TEST =>
    have hnext := (h.skip rfl).1
    simp only [accesses, List.forall_mem_cons]
    refine ⟨hA, ?_, List.forall_mem_nil _⟩
    exact show n + 1 < f.head.code.length by omega
  | OP_TESTSET =>
    have hnext := (h.skip rfl).1
    simp only [accesses, List.forall_mem_cons]
    refine ⟨hA, register_inBounds (h.args rfl).1, ?_, List.forall_mem_nil _⟩
    exact show n + 1 < f.head.code.length by omega
  | OP_CALL =>
    rw [(h.args rfl).2.2.1, (h.args rfl).2.2.2] at hcheck
    simp only [checkOp, Bool.and_eq_true, Bool.or_eq_true, decide_eq_true_eq, checkreg_iff]
      at hcheck
    refine List.forall_mem_cons.mpr ⟨hA, List.forall_mem_append.mpr ⟨span_inBounds (by omega), ?_⟩⟩
    -- no results are named when their number is open
    by_cases hopen : (argC (codeWord f.head n) : Int) - 1 = -1
    · exact span_inBounds (Or.inl (by omega))
    · rw [if_neg hopen, Bool.or_eq_true, decide_eq_true_eq, checkreg_iff] at hcheck
      exact span_inBounds (by omega)
  | OP_TAILCALL =>
    rw [(h.args rfl).2.2.1, (h.args rfl).2.2.2] at hcheck
    simp only [checkOp, Bool.and_eq_true, Bool.or_eq_true, decide_eq_true_eq, checkreg_iff]
      at hcheck
    exact List.forall_mem_cons.mpr ⟨hA, span_inBounds (by omega)⟩
  | OP_RETURN =>
    rw [(h.args rfl).2.2.1] at hcheck
    simp only [checkOp, Bool.or_eq_true, decide_eq_true_eq, checkreg_iff] at hcheck
    exact List.forall_mem_cons.mpr ⟨hA, span_inBounds (by omega)⟩
  | OP_FORLOOP | OP_FORPREP =>
    have hnext := checkreg_iff.mp hcheck
    exact span_inBounds (Or.inr (by omega))
  | OP_TFORLOOP =>
    rw [(h.args rfl).2.2.2] at hcheck
    simp only [checkOp, Bool.and_eq_true, decide_eq_true_eq, checkreg_iff] at hcheck
    have hnext := (h.skip rfl).1
    -- the copies for the call may lie above the frame, the results may not
    have hresults : argA (codeWord f.head n) + 3 + argC (codeWord f.head n)
        ≤ f.head.maxstacksize.toNat := by omega
    refine List.forall_mem_append.mpr ⟨List.forall_mem_append.mpr
      ⟨span_inBounds (by omega), span_inBounds (Or.inr hresults)⟩, ?_⟩
    simp only [List.forall_mem_cons, Access.InBounds, EXTRA_STACK]
    exact ⟨by omega, by omega, by omega, List.forall_mem_nil _⟩
  | OP_SETLIST =>
    rw [(h.args rfl).2.2.1, (h.args rfl).2.2.2] at hcheck
    simp only [checkOp, Bool.and_eq_true, Bool.or_eq_true, decide_eq_true_eq, checkreg_iff]
      at hcheck
    have hA' : argA (codeWord f.head n) < f.head.maxstacksize.toNat := hA
    refine List.forall_mem_append.mpr ⟨span_inBounds (by omega), ?_⟩
    by_cases hC : argC (codeWord f.head n) = 0
    · rw [if_pos hC]
      intro x hx
      obtain rfl := List.mem_singleton.mp hx
      exact show n + 1 < f.head.code.length by omega
    · rw [if_neg hC]
      exact List.forall_mem_nil _
  | OP_CLOSURE =>
    -- the words behind it are captures, and each names what the new closure gets
    obtain ⟨hwords, -, hchild⟩ := h.captures hf.1
    refine List.forall_mem_append.mpr ⟨List.forall_mem_append.mpr ⟨?_, ?_⟩, ?_⟩
    · simp only [List.forall_mem_cons]
      exact ⟨hA, hchild, List.forall_mem_nil _⟩
    · intro x hx
      obtain ⟨j, hj, rfl⟩ := List.mem_map.mp hx
      exact Int.ofNat_lt.mp (hwords j (List.mem_range.mp hj)).1.2.1
    · intro x hx
      obtain ⟨j, hj, rfl⟩ := List.mem_map.mp hx
      obtain ⟨hland, hword⟩ := hwords j (List.mem_range.mp hj)
      exact Checked.capture_inBounds hf.1 hland hword
  | OP_VARARG =>
    rw [(h.args rfl).2.2.1] at hcheck
    simp only [checkOp, Bool.and_eq_true, Bool.or_eq_true, decide_eq_true_eq, checkreg_iff]
      at hcheck
    exact List.forall_mem_cons.mpr ⟨hA, span_inBounds (by omega)⟩

/-! ## Runs -/

theorem Lands.defined {fr : Frame} (hf : Accepted fr.f) (h : Lands fr.f fr.pc) : fr.Defined := by
  obtain ⟨hpos, hlt, hcount⟩ := h
  obtain ⟨op, hchecked⟩ := checked_of_lands hf.1 (by omega) hcount
  refine ⟨fr.pc.toNat, op, codeWord fr.f.head fr.pc.toNat, ?_, hcount,
    hchecked.accesses_inBounds hf⟩
  rw [Frame.fetch, if_pos ⟨hpos, hlt⟩]
  simp only [hchecked.opcode, Option.map_some]

theorem lands_zero (hf : Accepted f) : Lands f 0 :=
  lands_natCast (code_last hf.1).1 rfl

/-- What is fetched is where the program counter is. -/
theorem Frame.fetch_eq_some {fr : Frame} {pc : Nat} {i : Word}
    (h : fr.fetch = some (pc, op, i)) : fr.pc = pc ∧ pc < fr.f.head.code.length
      ∧ i = codeWord fr.f.head pc ∧ OpCode.ofWord (GET_OPCODE i) = some op := by
  unfold Frame.fetch at h
  by_cases hpc : 0 ≤ fr.pc ∧ fr.pc < fr.f.head.code.length
  · rw [if_pos hpc] at h
    obtain ⟨op', hop, heq⟩ := Option.map_eq_some_iff.mp h
    obtain ⟨rfl, rfl, rfl⟩ : fr.pc.toNat = pc ∧ op' = op ∧ codeWord fr.f.head fr.pc.toNat = i := by
      simpa using heq
    exact ⟨by omega, by omega, rfl, hop⟩
  · rw [if_neg hpc] at h
    exact nomatch h

/-- Functions are called only when they were accepted. -/
def Called (_ : List Frame) : Action → Prop
  | .call _ g => Accepted g
  | .tailcall g => Accepted g
  | _ => True

/-- All frames, the waiting ones too, are at instructions of accepted functions. -/
def AllLand (s : List Frame) : Prop := ∀ fr ∈ s, Accepted fr.f ∧ Lands fr.f fr.pc

/-- What a step does to the topmost frame. -/
theorem step_cases {fr : Frame} {rest s' : List Frame} {a : Action}
    (h : step (fr :: rest) a = some s') : ∃ pc op i, fr.fetch = some (pc, op, i)
      ∧ ((∃ n, ∃ pc' ∈ successors fr.f pc op i, a = .go n ∧ s' = { fr with pc := pc' } :: rest)
        ∨ (∃ n g, ∃ pc' ∈ successors fr.f pc op i,
          a = .call n g ∧ s' = { f := g, pc := 0 } :: { fr with pc := pc' } :: rest)
        ∨ (∃ g, a = .tailcall g ∧ s' = { f := g, pc := 0 } :: rest)
        ∨ a = .ret ∧ s' = rest) := by
  cases hfetch : fr.fetch with
  | none => simp [step, hfetch] at h
  | some r =>
    obtain ⟨pc, op, i⟩ := r
    refine ⟨pc, op, i, rfl, ?_⟩
    cases a with
    | go n =>
      simp only [step, hfetch, Option.map_eq_some_iff] at h
      obtain ⟨pc', hpc', rfl⟩ := h
      exact Or.inl ⟨n, pc', List.mem_of_getElem? hpc', rfl, rfl⟩
    | call n g =>
      simp only [step, hfetch, Option.map_eq_some_iff] at h
      obtain ⟨pc', hpc', rfl⟩ := h
      exact Or.inr (Or.inl ⟨n, g, pc', List.mem_of_getElem? hpc', rfl, rfl⟩)
    | tailcall g =>
      simp only [step, hfetch, Option.ite_none_right_eq_some, Option.some.injEq] at h
      exact Or.inr (Or.inr (Or.inl ⟨g, rfl, h.2.symm⟩))
    | ret =>
      simp only [step, hfetch, Option.ite_none_right_eq_some, Option.some.injEq] at h
      exact Or.inr (Or.inr (Or.inr ⟨rfl, h.2.symm⟩))

/-- What an instruction at such a place is followed by. -/
theorem Lands.next (fr : Frame) {pc : Nat} {i : Word} (hf : Accepted fr.f)
    (hland : Lands fr.f fr.pc) (hfetch : fr.fetch = some (pc, op, i)) :
    ∀ pc' ∈ successors fr.f pc op i, Lands fr.f pc' := by
  obtain ⟨hpc, hlt, rfl, hop⟩ := Frame.fetch_eq_some hfetch
  have hcount : isCount fr.f.head pc = false := by
    have := hland.2.2
    rwa [hpc] at this
  obtain ⟨op', hchecked⟩ := checked_of_lands hf.1 hlt hcount
  obtain rfl := Option.some.inj (hchecked.opcode.symm.trans hop)
  exact hchecked.lands_successors hf

/-- One step keeps them there. -/
theorem step_allLand {s s' : List Frame} {a : Action} (hs : AllLand s) (ha : Called s a)
    (h : step s a = some s') : AllLand s' := by
  cases s with
  | nil => exact nomatch h
  | cons fr rest =>
    obtain ⟨⟨hf, hland⟩, hrest⟩ := List.forall_mem_cons.mp hs
    obtain ⟨pc, op, i, hfetch, hcases⟩ := step_cases h
    have hnext := hland.next fr hf hfetch
    rcases hcases with ⟨n, pc', hpc', rfl, rfl⟩ | ⟨n, g, pc', hpc', rfl, rfl⟩ | ⟨g, rfl, rfl⟩
      | ⟨rfl, rfl⟩
    · exact List.forall_mem_cons.mpr ⟨⟨hf, hnext _ hpc'⟩, hrest⟩
    · refine List.forall_mem_cons.mpr ⟨⟨ha, lands_zero ha⟩, ?_⟩
      exact List.forall_mem_cons.mpr ⟨⟨hf, hnext _ hpc'⟩, hrest⟩
    · exact List.forall_mem_cons.mpr ⟨⟨ha, lands_zero ha⟩, hrest⟩
    · exact hrest

/-- An instruction leads on, or returns. -/
theorem successors_ne_nil (f : LProto) (pc : Nat) (op : OpCode) (i : Word)
    (hret : op ≠ OP_RETURN) : ∃ pc', (successors f pc op i)[0]? = some pc' := by
  cases op with
  | OP_RETURN => exact absurd rfl hret
  | _ => exact ⟨_, rfl⟩

/-- **The checker is sound for every run**: as long as only accepted functions are
called, every frame of every reachable state is at an instruction of its code that has
an opcode and touches nothing outside its code, its constants, its children, its
upvalues and its frame, but for the arguments of a `TFORLOOP`, which have the slots of
`EXTRA_STACK`; and the machine can go on until the last frame has returned. -/
theorem reachable_defined {main : LProto} (hmain : Accepted main) {s : List Frame}
    (h : Reachable step Called [{ f := main, pc := 0 }] s) :
    (∀ fr ∈ s, fr.Defined) ∧ (s ≠ [] → ∃ a s', step s a = some s') := by
  have hland : AllLand s := by
    refine h.invariant ?_ fun s a s' hs ha hstep => step_allLand hs ha hstep
    exact List.forall_mem_singleton.mpr ⟨hmain, lands_zero hmain⟩
  refine ⟨fun fr hfr => (hland fr hfr).2.defined (hland fr hfr).1, fun hne => ?_⟩
  cases s with
  | nil => exact absurd rfl hne
  | cons fr rest =>
    obtain ⟨hf, hfr⟩ := hland fr List.mem_cons_self
    obtain ⟨pc, op, i, hfetch, -⟩ := hfr.defined hf
    by_cases hret : op = OP_RETURN
    · refine ⟨.ret, rest, ?_⟩
      simp only [step, hfetch]
      exact if_pos hret
    · obtain ⟨pc', hpc'⟩ := successors_ne_nil fr.f pc op i hret
      refine ⟨.go 0, { fr with pc := pc' } :: rest, ?_⟩
      simp only [step, hfetch, hpc', Option.map_some]

/-- A function without constants, children and debug information. -/
def plainFunction (code : List Word) : LProto :=
  .mk { source := Value.luaS_newlstr [0x40], nups := 0, numparams := 0, is_vararg := 0
        maxstacksize := 2, code, k := [], lineinfo := [], upvalues := [] } 0 Fin.elim0

/-- `LOADBOOL` with a skip of `c`, and two `RETURN`s. -/
def skipFunction (c : Word) : LProto :=
  plainFunction [CREATE_ABC OP_LOADBOOL.toWord 0 1 c, CREATE_ABC OP_RETURN.toWord 0 1 0,
    CREATE_ABC OP_RETURN.toWord 0 1 0]

theorem skipFunction_accepted : Accepted (skipFunction 1) := by
  refine ⟨by decide, ?_⟩
  unfold PlainSkips
  decide

/-- `TFORLOOP` with one result, which jumps back to itself, in a frame of its four registers. -/
def loopFunction : LProto :=
  .mk { source := Value.luaS_newlstr [0x40], nups := 0, numparams := 0, is_vararg := 0
        maxstacksize := 4, k := [], lineinfo := [], upvalues := []
        code := [CREATE_ABC OP_TFORLOOP.toWord 0 0 1,
          CREATE_ABx OP_JMP.toWord 0 (BitVec.ofInt 32 (MAXARG_sBx - 2)),
          CREATE_ABC OP_RETURN.toWord 0 1 0] } 0 Fin.elim0

theorem loopFunction_accepted : Accepted loopFunction := by
  refine ⟨by decide, ?_⟩
  unfold PlainSkips
  decide

/-- A function that skips over its first `RETURN` has called one that loops. -/
def looping : List Frame := [⟨loopFunction, 0⟩, ⟨skipFunction 1, 2⟩]

theorem looping_reachable : Reachable step Called [⟨skipFunction 1, 0⟩] looping :=
  .step (.step .start (a := .call 0 loopFunction) loopFunction_accepted rfl) (a := .go 0) trivial rfl

theorem looping_defined : (∀ fr ∈ looping, fr.Defined)
    ∧ (looping ≠ [] → ∃ a s', step looping a = some s') :=
  reachable_defined skipFunction_accepted looping_reachable

/-- **A skip by more than one escapes the checker**: it asks of a `LOADBOOL` with `C = 1`
only that there be an instruction to skip, and the interpreter skips for every `C` but
zero. -/
theorem checkcode_misses_skip :
    luaG_checkcode (plainFunction [CREATE_ABC OP_LOADBOOL.toWord 0 1 2,
        CREATE_ABC OP_RETURN.toWord 0 1 0]) = true
      ∧ ∃ s, step [⟨plainFunction [CREATE_ABC OP_LOADBOOL.toWord 0 1 2,
          CREATE_ABC OP_RETURN.toWord 0 1 0], 0⟩] (.go 0) = some s
        ∧ ∀ fr ∈ s, fr.fetch = none := by
  refine ⟨by decide, _, rfl, List.forall_mem_singleton.mpr (by decide)⟩

end

/-! ## The interpreter with values -/

section

variable {W α β : Type}

/-- The program counter stays where it is. -/
def KeepsPc (x : LuaM W α) : Prop := ∀ m, Triple (fun s => s.pc = m) x fun _ s => s.pc = m

theorem KeepsPc.bind {x : LuaM W α} {g : α → LuaM W β} (hx : KeepsPc x) (hg : ∀ a, KeepsPc (g a)) :
    KeepsPc (x >>= g) :=
  fun m => Triple.bind (hx m) fun a => hg a m

theorem KeepsPc.pure (a : α) : KeepsPc (W := W) (Pure.pure a) := fun _ => Triple.pure fun _ h => h

theorem KeepsPc.throw (e : Stop) : KeepsPc (W := W) (α := α) (MonadExcept.throw e) :=
  fun _ => Triple.throw e

theorem KeepsPc.look (g : LuaVm W → α) : KeepsPc (look g) := fun _ => Triple.look fun _ h => h

theorem KeepsPc.update {g : LuaVm W → LuaVm W} (hg : ∀ s, (g s).pc = s.pc) :
    KeepsPc (update g) :=
  fun _ => Triple.update fun s h => (hg s).trans h

theorem KeepsPc.ite {c : Prop} [Decidable c] {x y : LuaM W α} (hx : KeepsPc x) (hy : KeepsPc y) :
    KeepsPc (if c then x else y) :=
  fun m => Triple.ite (fun _ => hx m) fun _ => hy m

theorem keeps_setSlot (n : Nat) (v : LuaValue) : KeepsPc (W := W) (setSlot n v) :=
  KeepsPc.update fun _ => rfl

theorem keeps_callLua (x : LuaOp W α) : KeepsPc (callLua x) := by
  intro m s a s' hs h
  unfold callLua callOn at h
  cases hx : x s.L with
  | ok b L =>
    rw [hx] at h
    obtain ⟨rfl, rfl⟩ := EStateM.Result.ok.inj h
    exact hs
  | error e L =>
    rw [hx] at h
    exact nomatch h

theorem keeps_protect (x : LuaOp W PUnit) : KeepsPc (protect x) :=
  KeepsPc.bind (KeepsPc.update fun _ => rfl) fun _ =>
    KeepsPc.bind (keeps_callLua x) fun _ => KeepsPc.update fun _ => rfl

theorem keeps_constantAt (p : Transpile.ProtoHead) (n : Nat) :
    KeepsPc (W := W) (constantAt p n) := by
  unfold constantAt
  cases p.k[n]? with
  | none => exact KeepsPc.throw _
  | some c => exact KeepsPc.pure c

theorem keeps_rk (p : Transpile.ProtoHead) (base : Nat) (x : Word) :
    KeepsPc (W := W) (Lvm.rk p base x) :=
  KeepsPc.ite (KeepsPc.bind (keeps_constantAt p _) fun _ => KeepsPc.pure _) (KeepsPc.look _)

theorem keeps_tonumber (N : Doubles) (n : Nat) : KeepsPc (W := W) (tonumber N n) := by
  refine KeepsPc.bind (KeepsPc.look _) fun v => ?_
  cases v with
  | number x => exact KeepsPc.pure _
  | string ts =>
    cases h : N.str2d (untilZero ts.bytes) with
    | none =>
      simp only [h]
      exact KeepsPc.pure _
    | some x =>
      simp only [h]
      exact KeepsPc.bind (keeps_setSlot n _) fun _ => KeepsPc.pure _
  | _ => exact KeepsPc.pure _

theorem keeps_nvalue (n : Nat) : KeepsPc (W := W) (nvalue n) := by
  refine KeepsPc.bind (KeepsPc.look _) fun v => ?_
  cases v with
  | number x => exact KeepsPc.pure x
  | _ => exact KeepsPc.throw _

variable (N : Doubles) (V : LuaApi W) (p : Transpile.ProtoHead) (base : Nat) (i : Word)

theorem keeps_op_move : KeepsPc (W := W) (op_move base i) :=
  KeepsPc.bind (KeepsPc.look _) fun _ => keeps_setSlot _ _

theorem keeps_op_loadk : KeepsPc (W := W) (op_loadk p base i) :=
  KeepsPc.bind (keeps_constantAt p _) fun _ => keeps_setSlot _ _

theorem keeps_op_loadnil : KeepsPc (W := W) (op_loadnil base i) := KeepsPc.update fun _ => rfl

theorem keeps_op_getglobal : KeepsPc (op_getglobal V p base i) :=
  KeepsPc.bind (keeps_constantAt p _) fun _ => KeepsPc.bind (KeepsPc.look _) fun _ =>
    keeps_protect _

theorem keeps_op_setglobal : KeepsPc (op_setglobal V p base i) :=
  KeepsPc.bind (keeps_constantAt p _) fun _ => KeepsPc.bind (KeepsPc.look _) fun _ =>
    KeepsPc.bind (KeepsPc.look _) fun _ => keeps_protect _

theorem keeps_op_gettable : KeepsPc (op_gettable V p base i) :=
  KeepsPc.bind (keeps_rk p base _) fun _ => KeepsPc.bind (KeepsPc.look _) fun _ => keeps_protect _

theorem keeps_op_settable : KeepsPc (op_settable V p base i) :=
  KeepsPc.bind (keeps_rk p base _) fun _ => KeepsPc.bind (keeps_rk p base _) fun _ =>
    KeepsPc.bind (KeepsPc.look _) fun _ => keeps_protect _

theorem keeps_op_self : KeepsPc (op_self V p base i) :=
  KeepsPc.bind (KeepsPc.look _) fun _ => KeepsPc.bind (keeps_setSlot _ _) fun _ =>
    KeepsPc.bind (keeps_rk p base _) fun _ => KeepsPc.bind (KeepsPc.look _) fun _ => keeps_protect _

theorem keeps_op_not : KeepsPc (W := W) (op_not base i) :=
  KeepsPc.bind (KeepsPc.look _) fun _ => keeps_setSlot _ _

theorem keeps_op_call : KeepsPc (op_call V base i) := by
  refine KeepsPc.bind (KeepsPc.ite (KeepsPc.update fun _ => rfl) (KeepsPc.pure _)) fun _ => ?_
  refine KeepsPc.bind (KeepsPc.update fun _ => rfl) fun _ => ?_
  refine KeepsPc.bind (keeps_callLua _) fun r => KeepsPc.ite (KeepsPc.throw _) ?_
  refine KeepsPc.ite (KeepsPc.bind ?_ fun _ => KeepsPc.update fun _ => rfl) (KeepsPc.throw _)
  exact KeepsPc.ite (KeepsPc.update fun _ => rfl) (KeepsPc.pure _)

/-- After a part that keeps the program counter. -/
theorem KeepsPc.then {x : LuaM W α} {g : α → LuaM W β} {m : Int} {Q : β → LuaVm W → Prop}
    (hx : KeepsPc x) (hg : ∀ a, Triple (fun s => s.pc = m) (g a) Q) :
    Triple (fun s => s.pc = m) (x >>= g) Q :=
  Triple.bind (hx m) hg

theorem moves_jump (d m : Int) :
    Triple (fun s : LuaVm W => s.pc = m) (jump d) fun _ s => s.pc = m + d :=
  Triple.update fun _ h => congrArg (· + d) h

theorem moves_op_loadbool (m : Int) : Triple (fun s : LuaVm W => s.pc = m) (op_loadbool base i)
    fun _ s => s.pc = if argC i ≠ 0 then m + 1 else m := by
  have hC : GETARG_C i ≠ 0 ↔ argC i ≠ 0 := not_congr (BitVec.toNat_inj (y := 0)).symm
  refine (keeps_setSlot _ _).then fun _ => Triple.when (fun hc => ?_) fun hc s hs => ?_
  · rw [if_pos (hC.mp hc)]
    exact moves_jump 1 m
  · rw [if_neg fun h => hc (hC.mpr h)]
    exact hs

theorem moves_op_forprep (m : Int) : Triple (fun s : LuaVm W => s.pc = m) (op_forprep N base i)
    fun _ s => s.pc = m + GETARG_sBx i := by
  refine KeepsPc.then (KeepsPc.update fun _ => rfl) fun _ => ?_
  refine (keeps_tonumber N _).then fun b => Triple.ite (fun _ => Triple.throw _) fun _ => ?_
  refine (keeps_tonumber N _).then fun b => Triple.ite (fun _ => Triple.throw _) fun _ => ?_
  refine (keeps_tonumber N _).then fun b => Triple.ite (fun _ => Triple.throw _) fun _ => ?_
  refine (keeps_nvalue _).then fun _ => (keeps_nvalue _).then fun _ => ?_
  exact (keeps_setSlot _ _).then fun _ => moves_jump _ m

theorem moves_op_forloop (m : Int) : Triple (fun s : LuaVm W => s.pc = m) (op_forloop N base i)
    fun _ s => s.pc = m + GETARG_sBx i ∨ s.pc = m := by
  refine (keeps_nvalue _).then fun step => (keeps_nvalue _).then fun init => ?_
  refine (keeps_nvalue _).then fun limit => Triple.when (fun _ => ?_) fun _ s hs => Or.inr hs
  refine Triple.bind (moves_jump _ m) fun _ => ?_
  refine (keeps_setSlot _ _).then fun _ => (keeps_setSlot _ _ _).conseq (fun _ hs => hs) ?_
  exact fun _ _ hs => Or.inl hs

theorem moves_op_tforloop (m : Int) : Triple (fun s : LuaVm W => s.pc = m) (op_tforloop V p base i)
    fun _ s => s.pc = m + 1 ∨ ∃ next, codeAt p m = some next ∧ s.pc = m + GETARG_sBx next + 1 := by
  refine KeepsPc.then (KeepsPc.look _) fun _ => (keeps_setSlot _ _).then fun _ => ?_
  refine KeepsPc.then (KeepsPc.look _) fun _ => (keeps_setSlot _ _).then fun _ => ?_
  refine KeepsPc.then (KeepsPc.look _) fun _ => (keeps_setSlot _ _).then fun _ => ?_
  refine KeepsPc.then (KeepsPc.update fun _ => rfl) fun _ => (keeps_protect _).then fun _ => ?_
  refine KeepsPc.then (KeepsPc.update fun _ => rfl) fun _ => KeepsPc.then (KeepsPc.look _) fun _ => ?_
  refine KeepsPc.then (KeepsPc.look _) fun v => ?_
  have hloop : ∀ (n : Nat) (v : LuaValue), Triple (fun s : LuaVm W => s.pc = m)
      (do
        setSlot n v
        let pc ← look (fun s => s.pc)
        let next ← instrAt p pc
        jump (GETARG_sBx next)
        jump 1)
      fun _ s => s.pc = m + 1
        ∨ ∃ next, codeAt p m = some next ∧ s.pc = m + GETARG_sBx next + 1 := by
    intro n v
    refine (keeps_setSlot n v).then fun _ => ?_
    refine Triple.bind (R := fun pc s => pc = m ∧ s.pc = m) (Triple.look fun s hs => ⟨hs, hs⟩) ?_
    intro pc s a s' hs hrun
    obtain ⟨rfl, hpc⟩ := hs
    cases hnext : codeAt p pc with
    | none =>
      rw [instrAt_none hnext] at hrun
      exact nomatch hrun
    | some next =>
      rw [instrAt_some hnext] at hrun
      have hmove := Triple.bind (moves_jump (W := W) (GETARG_sBx next) pc) fun _ => moves_jump 1 _
      exact Or.inr ⟨next, rfl, hmove s a s' hpc hrun⟩
  cases v with
  | nil => exact (moves_jump 1 m).conseq (fun _ hs => hs) fun _ _ hs => Or.inl hs
  | _ => exact hloop _ _

theorem codeAt_eq_some {pc : Int} {i : Word} (h : codeAt p pc = some i) :
    0 ≤ pc ∧ pc < p.code.length ∧ p.code.getD pc.toNat 0 = i := by
  unfold codeAt at h
  by_cases hpc : 0 ≤ pc
  · rw [if_pos hpc] at h
    obtain ⟨hlt, -⟩ := List.getElem?_eq_some_iff.mp h
    refine ⟨hpc, by omega, ?_⟩
    rw [List.getD_eq_getElem?_getD, h, Option.getD_some]
  · rw [if_neg hpc] at h
    exact nomatch h

variable {f : LProto} {p}

/-- **A round of the interpreter goes to one of the successors** of the instruction it
has executed. -/
theorem luaV_executeStep_successor (hcode : f.head.code = p.code) {s s' : LuaVm W}
    (h : luaV_executeStep N V p s = .ok ⟨⟩ s') :
    ∃ pc op i, ({ f, pc := s.pc } : Frame).fetch = some (pc, op, i)
      ∧ s'.pc ∈ successors f pc op i := by
  unfold luaV_executeStep at h
  rw [look_bind] at h
  cases hi : codeAt p s.pc with
  | none =>
    rw [instrAt_none hi] at h
    cases h
  | some i =>
    obtain ⟨hpos, hlt, hword⟩ := codeAt_eq_some p hi
    obtain ⟨pc, hpc⟩ := Int.eq_ofNat_of_zero_le hpos
    have hcodeWord : ∀ n, codeWord f.head n = p.code.getD n 0 := fun n => by rw [codeWord, hcode]
    rw [instrAt_some hi, bind_of_ok (x := jump 1) rfl, look_bind] at h
    cases hop : OpCode.ofWord (GET_OPCODE i) with
    | none =>
      rw [hop] at h
      cases h
    | some op =>
      have hi' : codeWord f.head pc = i := by
        rw [hcodeWord, ← hword, hpc]
        rfl
      have hfetch : ({ f, pc := s.pc } : Frame).fetch = some (pc, op, i) := by
        rw [Frame.fetch, if_pos ⟨hpos, by rw [hcode]; exact hlt⟩]
        simp only [hpc, Int.toNat_natCast, hi', hop, Option.map_some]
      refine ⟨pc, op, i, hfetch, ?_⟩
      have hstart : ({ s with pc := s.pc + 1 } : LuaVm W).pc = pc + 1 := congrArg (· + 1) hpc
      -- a handler that leaves the `pc` alone goes to the next instruction
      have hnext : ∀ {x : LuaM W PUnit}, KeepsPc x →
          x { s with pc := s.pc + 1 } = .ok ⟨⟩ s' → s'.pc ∈ [(pc : Int) + 1] :=
        fun hx hrun => List.mem_singleton.mpr (hx _ _ _ _ hstart hrun)
      rw [hop] at h
      cases op with
      | OP_MOVE => exact hnext (keeps_op_move _ i) h
      | OP_LOADK => exact hnext (keeps_op_loadk p _ i) h
      | OP_LOADBOOL =>
        rw [successors, List.mem_singleton]
        exact moves_op_loadbool _ i _ _ _ _ hstart h
      | OP_LOADNIL => exact hnext (keeps_op_loadnil _ i) h
      | OP_GETGLOBAL => exact hnext (keeps_op_getglobal V p _ i) h
      | OP_GETTABLE => exact hnext (keeps_op_gettable V p _ i) h
      | OP_SETGLOBAL => exact hnext (keeps_op_setglobal V p _ i) h
      | OP_SETTABLE => exact hnext (keeps_op_settable V p _ i) h
      | OP_SELF => exact hnext (keeps_op_self V p _ i) h
      | OP_NOT => exact hnext (keeps_op_not _ i) h
      | OP_CALL => exact hnext (keeps_op_call V _ i) h
      | OP_JMP =>
        rw [successors, List.mem_singleton]
        exact moves_jump _ _ _ _ _ hstart h
      | OP_FORPREP =>
        rw [successors, List.mem_singleton]
        exact moves_op_forprep N _ i _ _ _ _ hstart h
      | OP_FORLOOP =>
        simp only [successors, List.mem_cons, List.not_mem_nil, or_false]
        exact moves_op_forloop N _ i _ _ _ _ hstart h
      | OP_TFORLOOP =>
        simp only [successors, List.mem_cons, List.not_mem_nil, or_false]
        -- past the `OP_JMP` when the loop ends, else where that jump leads
        rcases moves_op_tforloop V p _ i _ _ _ _ hstart h with hend | ⟨next, hat, hloop⟩
        · exact Or.inr hend
        · obtain ⟨-, -, hword'⟩ := codeAt_eq_some p hat
          have hjmp : codeWord f.head (pc + 1) = next := by
            rw [hcodeWord, ← hword']
            rfl
          rw [hjmp]
          exact Or.inl hloop
      | _ => cases h

/-- So a run over accepted code stays at instructions. -/
theorem luaV_execute_lands (hf : Accepted f) (hcode : f.head.code = p.code) (n : Nat) :
    Triple (fun s => Lands f s.pc) (luaV_execute N V p n) fun _ s => Lands f s.pc := by
  refine Triple.iter (fun s a s' hs hstep => ?_) n
  obtain ⟨pc, op, i, hfetch, hnext⟩ := luaV_executeStep_successor N V hcode hstep
  exact Lands.next ⟨f, s.pc⟩ hf hs hfetch _ hnext

end

end NostalgiaConv.CodeFlow
