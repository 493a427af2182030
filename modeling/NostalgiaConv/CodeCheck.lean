/-
The code checker of `lua/ldebug.c`.

`luaG_checkcode` walks over the code vector of a loaded proto and checks each
instruction. The word after a `SETLIST` with `C = 0` is a count and is stepped over,
so the words of a vector are of two kinds, and an accepted vector says nothing of the
second. A loaded proto can hold null strings, which the compiler never makes.
-/
import NostalgiaConv.Interpreter
import NostalgiaConv.Value

set_option autoImplicit false

namespace NostalgiaConv.CodeCheck

open NostalgiaConv.Cipher NostalgiaConv.Host NostalgiaConv.Opcodes NostalgiaConv.Value
open NostalgiaConv.Interpreter
open OpCode OpMode OpArgMask

/-! ## Loaded protos -/

/-- An entry of `Proto.k`, with the null string that `LoadString` can give. -/
inductive LConstant where
  | nil
  | boolean (b : Word)
  | number (n : BitVec 64)
  | string (ts : Option TString)
  deriving DecidableEq

/-- The fields of a `Proto` that are used, less its children. -/
structure LHead where
  source : TString
  nups : Byte
  numparams : Byte
  is_vararg : Byte
  maxstacksize : Byte
  code : List Word
  k : List LConstant
  lineinfo : List Word
  upvalues : List (Option TString)

inductive LProto where
  | mk (head : LHead) (sizep : Nat) (p : Fin sizep → LProto)

def LProto.head : LProto → LHead
  | .mk head _ _ => head

/-- The `nups` of the children, in order. -/
def LProto.childNups : LProto → List Nat
  | .mk _ _ p => List.ofFn fun i => (p i).head.nups.toNat

/-- `P` holds of every proto of the tree. -/
def LProto.All (P : LProto → Prop) : LProto → Prop
  | .mk head sizep p => P (.mk head sizep p) ∧ ∀ i, (p i).All P

theorem LProto.All.here {P : LProto → Prop} {p : LProto} (h : p.All P) : P p := by
  cases p
  exact h.1

theorem LProto.All.imp {P Q : LProto → Prop} (hPQ : ∀ p, P p → Q p) {p : LProto} (h : p.All P) :
    p.All Q := by
  induction p with
  | mk head sizep p ih => exact ⟨hPQ _ h.1, fun i => ih i (h.2 i)⟩

theorem LProto.all_and {P Q : LProto → Prop} {p : LProto} :
    p.All (fun n => P n ∧ Q n) ↔ p.All P ∧ p.All Q := by
  induction p with
  | mk head sizep p ih =>
    simp only [LProto.All, ih, forall_and]
    exact and_and_and_comm

/-! ## The checker -/

def MAXSTACK : Nat := 250
def NO_REG : Int := 255

def VARARG_HASARG : Byte := 1
def VARARG_ISVARARG : Byte := 2
def VARARG_NEEDSARG : Byte := 4

/-- `SETLIST` whose count is in the next word. -/
def isOpenSetlist (d : Word) : Bool := GET_OPCODE d = OP_SETLIST.toWord ∧ GETARG_C d = 0

def luaG_checkopenop (i : Word) : Bool :=
  match OpCode.ofWord (GET_OPCODE i) with
  | some OP_CALL | some OP_TAILCALL | some OP_RETURN | some OP_SETLIST => GETARG_B i = 0
  | _ => false -- invalid instruction after an open call

section

variable (pt : LHead) (pnups : List Nat)

/-- `pt->code[pc]` -/
def codeWord (pc : Nat) : Word := pt.code.getD pc 0

def checkreg (reg : Int) : Bool := reg < pt.maxstacksize.toNat

def checkArgMode (r : Word) : OpArgMask → Bool
  | OpArgN => r = 0
  | OpArgU => true
  | OpArgR => checkreg pt r.toNat
  | OpArgK => if ISK r then INDEXK r < pt.k.length else checkreg pt r.toNat

def precheck : Bool :=
  pt.maxstacksize.toNat ≤ MAXSTACK
    && pt.numparams.toNat + (pt.is_vararg &&& VARARG_HASARG).toNat ≤ pt.maxstacksize.toNat
    && (pt.is_vararg &&& VARARG_NEEDSARG = 0 || pt.is_vararg &&& VARARG_HASARG ≠ 0)
    && pt.upvalues.length ≤ pt.nups.toNat
    && (pt.lineinfo.length = pt.code.length || pt.lineinfo.length = 0)
    && 0 < pt.code.length && GET_OPCODE (codeWord pt (pt.code.length - 1)) = OP_RETURN.toWord

/-- How many open `SETLIST`s stand right before `dest`. -/
def setlistsBefore : Nat → Nat
  | 0 => 0
  | dest + 1 => if isOpenSetlist (codeWord pt dest) then setlistsBefore dest + 1 else 0

/-- A jump does not leave the code, and does not lead to the count of a `SETLIST`. -/
def checkDest (dest : Int) : Bool :=
  0 ≤ dest && dest < pt.code.length && setlistsBefore pt dest.toNat % 2 = 0

/-- The variable `b`, by the mode of the opcode. -/
def operandB (op : OpCode) (i : Word) : Int :=
  match getOpMode op with
  | iABC => argB i
  | iABx => argBx i
  | iAsBx => GETARG_sBx i

/-- The variable `c`. -/
def operandC (op : OpCode) (i : Word) : Int :=
  match getOpMode op with
  | iABC => argC i
  | _ => 0

/-- The checks by mode. -/
def checkOperands (op : OpCode) (i : Word) (pc : Nat) : Bool :=
  match getOpMode op with
  | iABC => checkArgMode pt (GETARG_B i) (getBMode op) && checkArgMode pt (GETARG_C i) (getCMode op)
  | iABx => getBMode op ≠ OpArgK || argBx i < pt.k.length
  | iAsBx => getBMode op ≠ OpArgR || checkDest pt (pc + 1 + GETARG_sBx i)

/-- `ttisstring(&pt->k[n])` -/
def isStringConstant (n : Nat) : Bool :=
  match pt.k[n]? with
  | some (.string _) => true
  | _ => false

/-- The `nup` words after `pc` are capturing pseudo-instructions. -/
def checkCaptures (pc nup : Nat) : Bool :=
  pc + nup < pt.code.length && (List.range nup).all fun j =>
    let op1 := GET_OPCODE (codeWord pt (pc + j + 1))
    op1 = OP_GETUPVAL.toWord || op1 = OP_MOVE.toWord

/-- The checks by opcode. -/
def checkOp (op : OpCode) (a b c : Int) (pc : Nat) : Bool :=
  let next := codeWord pt (pc + 1)
  match op with
  | OP_LOADBOOL =>
    c ≠ 1 || pc + 2 < pt.code.length -- check its jump
      && (GET_OPCODE next ≠ OP_SETLIST.toWord || GETARG_C next ≠ 0)
  | OP_GETUPVAL | OP_SETUPVAL => b < pt.nups.toNat
  | OP_GETGLOBAL | OP_SETGLOBAL => isStringConstant pt b.toNat
  | OP_SELF => checkreg pt (a + 1)
  | OP_CONCAT => b < c -- at least two operands
  | OP_TFORLOOP => 1 ≤ c && checkreg pt (a + 2 + c)
  | OP_FORLOOP | OP_FORPREP => checkreg pt (a + 3)
  | OP_CALL | OP_TAILCALL =>
    (b = 0 || checkreg pt (a + b - 1))
      && (if c - 1 = -1 then luaG_checkopenop next else c - 1 = 0 || checkreg pt (a + (c - 1) - 1))
  | OP_RETURN => b - 1 ≤ 0 || checkreg pt (a + (b - 1) - 1)
  | OP_SETLIST =>
    (b ≤ 0 || checkreg pt (a + b)) && (c ≠ 0 || pc + 1 < pt.code.length - 1)
  | OP_CLOSURE =>
    match pnups[b.toNat]? with
    | none => false
    | some nup => checkCaptures pt pc nup
  | OP_VARARG =>
    pt.is_vararg &&& VARARG_ISVARARG ≠ 0 && pt.is_vararg &&& VARARG_NEEDSARG = 0
      && (b - 1 ≠ -1 || luaG_checkopenop next) && checkreg pt (a + (b - 1) - 1)
  | _ => true

/-- All checks of the instruction at `pc`. -/
def checkInstr (pc : Nat) : Bool :=
  let i := codeWord pt pc
  match OpCode.ofWord (GET_OPCODE i) with
  | none => false
  | some op =>
    checkreg pt (argA i) && checkOperands pt op i pc
      && (!(luaP_opmodes op).testT || pc + 2 < pt.code.length -- check skip
        && GET_OPCODE (codeWord pt (pc + 1)) = OP_JMP.toWord)
      && checkOp pt pnups op (argA i) (operandB op i) (operandC op i) pc

/-- `pc` after the instruction, before the increment. Jumps and captures are followed
only when a register is traced. -/
def nextPc (lastpc : Nat) (reg : Int) (pc : Nat) : Nat :=
  let i := codeWord pt pc
  match OpCode.ofWord (GET_OPCODE i) with
  | some OP_FORLOOP | some OP_FORPREP | some OP_JMP =>
    let b := GETARG_sBx i
    let dest := pc + 1 + b
    if reg ≠ NO_REG ∧ pc < dest ∧ dest ≤ lastpc then (pc + b).toNat else pc
  | some OP_SETLIST => if argC i = 0 then pc + 1 else pc
  | some OP_CLOSURE => if reg ≠ NO_REG then pc + (pnups[argBx i]?).getD 0 else pc
  | _ => pc

/-- The last instruction that changed `reg`. -/
def nextLast (reg : Int) (pc last : Nat) : Nat :=
  let i := codeWord pt pc
  let a : Int := argA i
  match OpCode.ofWord (GET_OPCODE i) with
  | none => last
  | some op =>
    let last := if (luaP_opmodes op).testA ∧ a = reg then pc else last
    match op with
    | OP_LOADNIL => if a ≤ reg ∧ reg ≤ argB i then pc else last
    | OP_SELF => if reg = a + 1 then pc else last
    | OP_TFORLOOP => if a + 2 ≤ reg then pc else last
    | OP_CALL | OP_TAILCALL => if a ≤ reg then pc else last
    | _ => last

/-- `for (pc = 0; pc < lastpc; pc++)`; the first argument bounds the rounds. -/
def symbexecLoop (lastpc : Nat) (reg : Int) : Nat → Nat → Nat → Option Nat
  | 0, _, last => some last
  | fuel + 1, pc, last =>
    if pc < lastpc then
      if checkInstr pt pnups pc then
        symbexecLoop lastpc reg fuel (nextPc pt pnups lastpc reg pc + 1) (nextLast pt reg pc last)
      else none
    else some last

/-- `symbexec`, where `none` is the zero that a failed check returns. -/
def symbexec (lastpc : Nat) (reg : Int) : Option Word :=
  if precheck pt then
    (symbexecLoop pt pnups lastpc reg lastpc 0 (pt.code.length - 1)).map (codeWord pt)
  else none

end

def luaG_checkcode (f : LProto) : Bool :=
  (symbexec f.head f.childNups f.head.code.length NO_REG).getD 0 ≠ 0

/-! ## Instructions and counts -/

section

variable {pt : LHead} {pnups : List Nat}

/-- The word at `n` is the count of the `SETLIST` before it. -/
def isCount (pt : LHead) : Nat → Bool
  | 0 => false
  | n + 1 => !isCount pt n && isOpenSetlist (codeWord pt n)

theorem codeWord_of_lt {pc : Nat} (h : pc < pt.code.length) : codeWord pt pc = pt.code[pc] := by
  rw [codeWord, List.getD_eq_getElem?_getD, List.getElem?_eq_getElem h, Option.getD_some]

/-- What a check that went well says. -/
theorem checkInstr_spec {pc : Nat} (h : checkInstr pt pnups pc = true) :
    ∃ op, OpCode.ofWord (GET_OPCODE (codeWord pt pc)) = some op
      ∧ checkreg pt (argA (codeWord pt pc)) = true
      ∧ checkOperands pt op (codeWord pt pc) pc = true
      ∧ checkOp pt pnups op (argA (codeWord pt pc)) (operandB op (codeWord pt pc))
        (operandC op (codeWord pt pc)) pc = true := by
  unfold checkInstr at h
  cases hop : OpCode.ofWord (GET_OPCODE (codeWord pt pc)) with
  | none =>
    simp only [hop] at h
    exact absurd h Bool.false_ne_true
  | some op =>
    simp only [hop, Bool.and_eq_true] at h
    obtain ⟨⟨⟨hA, hoperands⟩, -⟩, hcheck⟩ := h
    exact ⟨op, rfl, hA, hoperands, hcheck⟩

theorem isOpenSetlist_iff {i : Word} {op : OpCode} (hop : OpCode.ofWord (GET_OPCODE i) = some op) :
    isOpenSetlist i = true ↔ op = OP_SETLIST ∧ argC i = 0 := by
  have hop' : GET_OPCODE i = OP_SETLIST.toWord ↔ op = OP_SETLIST := by
    constructor
    · intro h
      rw [h, OpCode.ofWord_toWord] at hop
      exact (Option.some.inj hop).symm
    · rintro rfl
      exact (OpCode.toWord_of_ofWord hop).symm
  have hC : GETARG_C i = 0 ↔ argC i = 0 := (BitVec.toNat_inj (y := 0)).symm
  rw [isOpenSetlist, decide_eq_true_iff, hop', hC]

/-- Without a register to trace, `pc` passes over a count and moves on otherwise. -/
theorem nextPc_untraced (lastpc pc : Nat) {op : OpCode}
    (hop : OpCode.ofWord (GET_OPCODE (codeWord pt pc)) = some op) :
    nextPc pt pnups lastpc NO_REG pc
      = if isOpenSetlist (codeWord pt pc) then pc + 1 else pc := by
  have hopen := isOpenSetlist_iff hop
  unfold nextPc
  simp only [hop, ne_eq, not_true_eq_false, false_and, if_false]
  by_cases hsetlist : op = OP_SETLIST
  · subst hsetlist
    refine if_congr ?_ rfl rfl
    rw [hopen]
    exact (and_iff_right rfl).symm
  · rw [if_neg (fun h => hsetlist (hopen.mp h).1)]
    cases op <;> first | rfl | exact absurd rfl hsetlist

/-- The loop has checked every instruction from `pc` on. -/
theorem symbexecLoop_checked {fuel pc last r : Nat} (hfuel : pt.code.length ≤ pc + fuel)
    (hpc : isCount pt pc = false)
    (h : symbexecLoop pt pnups pt.code.length NO_REG fuel pc last = some r) :
    ∀ n, pc ≤ n → n < pt.code.length → isCount pt n = false → checkInstr pt pnups n = true := by
  induction fuel generalizing pc last with
  | zero => intro n hle hlt; omega
  | succ fuel ih =>
    intro n hle hlt hn
    rw [symbexecLoop, if_pos (Nat.lt_of_le_of_lt hle hlt)] at h
    by_cases hcheck : checkInstr pt pnups pc = true
    · rw [if_pos hcheck] at h
      rcases Nat.eq_or_lt_of_le hle with rfl | hgt
      · exact hcheck
      obtain ⟨op, hop, -⟩ := checkInstr_spec hcheck
      rw [nextPc_untraced _ _ hop] at h
      have hnext : isCount pt (pc + 1) = isOpenSetlist (codeWord pt pc) := by
        rw [isCount, hpc, Bool.not_false, Bool.true_and]
      cases hopen : isOpenSetlist (codeWord pt pc) with
      | false =>
        rw [hopen, if_neg Bool.false_ne_true] at h
        exact ih (by omega) (hnext.trans hopen) h n hgt hlt hn
      | true =>
        -- the next word is a count, and is stepped over
        rw [hopen, if_pos rfl] at h
        have hcount : isCount pt (pc + 1) = true := hnext.trans hopen
        have hafter : isCount pt (pc + 1 + 1) = false := by
          rw [isCount, hcount, Bool.not_true, Bool.false_and]
        have hne : n ≠ pc + 1 := by
          rintro rfl
          exact Bool.false_ne_true (hn.symm.trans hcount)
        exact ih (by omega) hafter h n (by omega) hlt hn
    · rw [if_neg hcheck] at h
      exact nomatch h

/-- What was accepted passed the first checks, and the loop ran to its end. -/
theorem checkcode_ran {f : LProto} (h : luaG_checkcode f = true) : precheck f.head = true
    ∧ ∃ r, symbexecLoop f.head f.childNups f.head.code.length NO_REG f.head.code.length 0
      (f.head.code.length - 1) = some r := by
  rw [luaG_checkcode, decide_eq_true_iff, symbexec] at h
  cases hpre : precheck f.head with
  | false =>
    rw [hpre, if_neg Bool.false_ne_true] at h
    exact absurd rfl h
  | true =>
    rw [hpre, if_pos rfl] at h
    cases hloop : symbexecLoop f.head f.childNups f.head.code.length NO_REG f.head.code.length 0
        (f.head.code.length - 1) with
    | none =>
      rw [hloop] at h
      exact absurd rfl h
    | some r => exact ⟨rfl, r, rfl⟩

/-- **Every instruction of an accepted vector was checked.** Nothing is said of the
counts. -/
theorem checkcode_checked {f : LProto} (h : luaG_checkcode f = true) {n : Nat}
    (hlt : n < f.head.code.length) (hn : isCount f.head n = false) :
    checkInstr f.head f.childNups n = true := by
  obtain ⟨-, r, hloop⟩ := checkcode_ran h
  exact symbexecLoop_checked (by omega) rfl hloop n (Nat.zero_le n) hlt hn

/-- The parameters of an accepted proto fit in its frame, and the frame in `MAXSTACK`. -/
theorem checkcode_params {f : LProto} (h : luaG_checkcode f = true) :
    f.head.numparams.toNat ≤ f.head.maxstacksize.toNat
      ∧ f.head.maxstacksize.toNat ≤ MAXSTACK := by
  obtain ⟨hpre, -⟩ := checkcode_ran h
  simp only [precheck, Bool.and_eq_true, decide_eq_true_eq] at hpre
  omega

/-- It has an opcode, and its upvalue is one of the closure's. -/
theorem checkcode_instruction {f : LProto} (h : luaG_checkcode f = true) {n : Nat}
    (hlt : n < f.head.code.length) (hn : isCount f.head n = false) :
    ∃ op, OpCode.ofWord (GET_OPCODE (codeWord f.head n)) = some op
      ∧ (op = OP_GETUPVAL ∨ op = OP_SETUPVAL →
        argB (codeWord f.head n) < f.head.nups.toNat) := by
  obtain ⟨op, hop, -, -, hcheck⟩ := checkInstr_spec (checkcode_checked h hlt hn)
  refine ⟨op, hop, ?_⟩
  rintro (rfl | rfl)
  · exact Int.ofNat_lt.mp (of_decide_eq_true hcheck)
  · exact Int.ofNat_lt.mp (of_decide_eq_true hcheck)

/-- After a word that is no `SETLIST` there is no count. -/
theorem isCount_succ_of_ne {n : Nat} {op : OpCode} (hop : GET_OPCODE (codeWord pt n) = op.toWord)
    (hne : op ≠ OP_SETLIST) : isCount pt (n + 1) = false := by
  have hclosed : isOpenSetlist (codeWord pt n) = false := by
    rw [Bool.eq_false_iff]
    intro hopen
    exact hne ((isOpenSetlist_iff (hop ▸ OpCode.ofWord_toWord op)).mp hopen).1
  rw [isCount, hclosed, Bool.and_false]

/-- The words that a `CLOSURE` reads its captures from are instructions themselves. -/
theorem captures_checked {f : LProto} (h : luaG_checkcode f = true) {n nup : Nat}
    (hlt : n < f.head.code.length) (hn : isCount f.head n = false)
    (hop : OpCode.ofWord (GET_OPCODE (codeWord f.head n)) = some OP_CLOSURE)
    (hnup : f.childNups[argBx (codeWord f.head n)]? = some nup) {j : Nat} (hj : j < nup) :
    n + j + 1 < f.head.code.length ∧ isCount f.head (n + j + 1) = false := by
  obtain ⟨op, hop', -, -, hcheck⟩ := checkInstr_spec (checkcode_checked h hlt hn)
  obtain rfl := Option.some.inj (hop.symm.trans hop')
  have hB : (operandB OP_CLOSURE (codeWord f.head n)).toNat = argBx (codeWord f.head n) := rfl
  simp only [checkOp, hB, hnup, checkCaptures, Bool.and_eq_true, decide_eq_true_eq,
    List.all_eq_true, List.mem_range, Bool.or_eq_true] at hcheck
  refine ⟨by omega, ?_⟩
  cases j with
  | zero => exact isCount_succ_of_ne (OpCode.toWord_of_ofWord hop).symm (by decide)
  | succ j =>
    -- the capture before this one is a `GETUPVAL` or a `MOVE`
    rcases hcheck.2 j (by omega) with hupval | hmove
    · exact isCount_succ_of_ne hupval (by decide)
    · exact isCount_succ_of_ne hmove (by decide)

end

end NostalgiaConv.CodeCheck
