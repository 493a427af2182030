/-
`cluaV_execute` of `vm/vm.cpp`: Lua's main loop over the host's stack.

The registers are raw host values, 16 bytes each; a number is under `xorConst`, and
what is written is the union member and the tag, no more. The host's own operations
are parameters; each may change the whole of the host state, and the handlers
reload `robloxBase` after it. One step is one round of the main loop.
-/
import NostalgiaConv.Interpreter

set_option autoImplicit false

namespace NostalgiaConv.Clvm

open NostalgiaConv.ByteMem NostalgiaConv.Cipher NostalgiaConv.Host NostalgiaConv.Opcodes
open NostalgiaConv.Value NostalgiaConv.Transpile NostalgiaConv.Relational
open NostalgiaConv.Interpreter

/-! ## States -/

/-- The host thread `RS`: its stack, the pointers at `+0x1C` and `+0x10`, `top` of
the call record at `+0xC`, the globals at `+0x68` and the saved program counter at
`+0x14`, which is stored relative to its own address. -/
structure RbxState (A : Type) where
  host : HostState A
  stack : Nat → TValue
  base : Nat
  top : Nat
  ciTop : Nat
  l_gt : TValue
  savedpc : Word

abbrev RbxOp (A α : Type) := EStateM HostError (RbxState A) α

/-- The host's operations, beside those of the transpiler. A value that is passed
by pointer is passed as it is, a slot that is written as its index. -/
structure RbxApi (A : Type) where
  api : HostApi A
  rbxV_gettable (t key : TValue) (val : Nat) : RbxOp A PUnit
  rbxV_settable (t key val : TValue) : RbxOp A PUnit
  rbxV_precall (func : Nat) (nresults : Int) : RbxOp A Int
  rbxD_call (func : Nat) (nresults : Int) : RbxOp A PUnit

/-- The state between two instructions: the locals of `cluaV_execute`, the host
thread, and `L->savedpc` of the private state. -/
structure CluaVm (A : Type) where
  pc : Int
  robloxBase : Nat
  RS : RbxState A
  savedpc : Int

/-- What does not change: the running proto, and the addresses of its code and of
the host thread. -/
structure Closure where
  p : ProtoHead
  code : Addr
  RS : Addr

abbrev CluaM (A : Type) := EStateM Stop (CluaVm A)

section

variable {A : Type}

/-! ## Registers and jumps -/

def RbxState.setStack (RS : RbxState A) (n : Nat) (v : TValue) : RbxState A :=
  { RS with stack := Function.update RS.stack n v }

def slot (n : Nat) : CluaM A TValue := look (fun s => s.RS.stack n)

def setSlot (n : Nat) (v : TValue) : CluaM A PUnit :=
  update (fun s => { s with RS := s.RS.setStack n v })

/-- Store `value.b` and the tag. -/
def setBoolean (n : Nat) (b : Word) : CluaM A PUnit := do
  let v ← slot n
  setSlot n ⟨setWord v.value b, RBX_TYPE_BOOLEAN⟩

/-- `dojump` -/
def jump (d : Int) : CluaM A PUnit := update (fun s => { s with pc := s.pc + d })

def setTop (n : Nat) : CluaM A PUnit := update (fun s => { s with RS := { s.RS with top := n } })

/-- `L->top = L->ci->top`, on the host thread. -/
def topToCi : CluaM A PUnit := update (fun s => { s with RS := { s.RS with top := s.RS.ciTop } })

/-- `RS + 0x14`: the address of the next instruction, less its own. -/
def encryptedPc (cl : Closure) (pc : Int) : Word :=
  cl.code + BitVec.ofInt 32 (4 * pc) - (cl.RS + 0x14)

def saveEncryptedPc (cl : Closure) : CluaM A PUnit :=
  update (fun s => { s with RS := { s.RS with savedpc := encryptedPc cl s.pc } })

/-- `L->savedpc = pc`, on the private state. -/
def savePc : CluaM A PUnit := update (fun s => { s with savedpc := s.pc })

def restoreBase : CluaM A PUnit := update (fun s => { s with robloxBase := s.RS.base })

def callRbx {α : Type} (x : RbxOp A α) : CluaM A α :=
  callOn CluaVm.RS (fun RS s => { s with RS := RS }) .callee x

/-- `*(const char*)(a), *(const char*)(a + 1), …` up to the first zero. -/
def cstring (m : Mem 32) : Nat → Addr → List Byte
  | 0, _ => []
  | n + 1, a => if m a = 0 then [] else m a :: cstring m n (a + 1)

/-- `svalue`: the characters of a string lie behind its 16-byte header. -/
def svalue (m : Mem 32) (ts : Addr) : List Byte := cstring m (2 ^ 32) (ts + 16)

/-! ## The handlers -/

variable (N : Doubles) (V : RbxApi A) (cl : Closure) (robloxBase : Nat) (i : Word)

/-- `transpileConstant(RS, k + n)` -/
def constant (n : Nat) : CluaM A TValue := do
  let c ← constantAt cl.p n
  callOn (fun s => s.RS.host) (fun h s => { s with RS := { s.RS with host := h } }) .memory
    (transpileConstant V.api cl.RS c)

/-- A constant or a register, by `ISK`. -/
def rk (x : Word) : CluaM A TValue :=
  if ISK x then constant V cl (INDEXK x) else slot (robloxBase + x.toNat)

/-- `numberXor(o->value.n)`, whatever the tag. -/
def decoded (n : Nat) : CluaM A lua_Number :=
  look (fun s => numberXor V.api (s.RS.stack n).value)

def convertNumber (n : Nat) : CluaM A Bool := do
  let value ← slot n
  if value.tt = RBX_TYPE_NUMBER then pure true
  else if value.tt = RBX_TYPE_STRING then do
    let m ← look (fun s => s.RS.host.mem)
    match N.str2d (svalue m value.word) with
    | some num => do
      setSlot n ⟨numberXor V.api num, RBX_TYPE_NUMBER⟩
      pure true
    | none => pure false
  else pure false

section

variable {N V} {n : Nat} {s : CluaVm A}

theorem convertNumber_number (h : (s.RS.stack n).tt = RBX_TYPE_NUMBER) :
    convertNumber N V n s = .ok true s := by
  simp only [convertNumber, slot, look, bind, EStateM.bind, if_pos h]
  rfl

theorem convertNumber_string (h : (s.RS.stack n).tt = RBX_TYPE_STRING) {num : lua_Number}
    (hnum : N.str2d (svalue s.RS.host.mem (s.RS.stack n).word) = some num) :
    convertNumber N V n s
      = (setSlot n ⟨numberXor V.api num, RBX_TYPE_NUMBER⟩ >>= fun _ => pure true) s := by
  have hne : (s.RS.stack n).tt ≠ RBX_TYPE_NUMBER := by rw [h]; decide
  simp only [convertNumber, slot, look, bind, EStateM.bind, if_neg hne, if_pos h, hnum]

theorem convertNumber_unread (h : (s.RS.stack n).tt = RBX_TYPE_STRING)
    (hnum : N.str2d (svalue s.RS.host.mem (s.RS.stack n).word) = none) :
    convertNumber N V n s = .ok false s := by
  have hne : (s.RS.stack n).tt ≠ RBX_TYPE_NUMBER := by rw [h]; decide
  simp only [convertNumber, slot, look, bind, EStateM.bind, if_neg hne, if_pos h, hnum]
  rfl

theorem convertNumber_other (hnum : (s.RS.stack n).tt ≠ RBX_TYPE_NUMBER)
    (hstr : (s.RS.stack n).tt ≠ RBX_TYPE_STRING) : convertNumber N V n s = .ok false s := by
  simp only [convertNumber, slot, look, bind, EStateM.bind, if_neg hnum, if_neg hstr]
  rfl

end

/-- The two stores before a host operation, the operation, and the base again. -/
def hostCall (x : RbxOp A PUnit) : CluaM A PUnit := do
  saveEncryptedPc cl
  savePc
  callRbx x
  restoreBase

def op_getglobal : CluaM A PUnit := do
  let rb ← constant V cl (argBx i)
  let g ← look (fun s => s.RS.l_gt)
  hostCall cl (V.rbxV_gettable g rb (robloxBase + argA i))

def op_setglobal : CluaM A PUnit := do
  let rb ← constant V cl (argBx i)
  let g ← look (fun s => s.RS.l_gt)
  let ra ← slot (robloxBase + argA i)
  hostCall cl (V.rbxV_settable g rb ra)

def op_gettable : CluaM A PUnit := do
  let value ← rk V cl robloxBase (GETARG_C i)
  let rb ← slot (robloxBase + argB i)
  hostCall cl (V.rbxV_gettable rb value (robloxBase + argA i))

def op_settable : CluaM A PUnit := do
  let bValue ← rk V cl robloxBase (GETARG_B i)
  let cValue ← rk V cl robloxBase (GETARG_C i)
  let ra ← slot (robloxBase + argA i)
  hostCall cl (V.rbxV_settable ra bValue cValue)

/-- A call of a Lua function restarts the loop at `L->savedpc`, in the same proto. -/
def op_call : CluaM A PUnit := do
  let ra := robloxBase + argA i
  let nresults : Int := argC i - 1
  when (argB i ≠ 0) (setTop (ra + argB i))
  saveEncryptedPc cl
  savePc
  let r ← callRbx (V.rbxV_precall ra nresults)
  if r = PCRLUA then
    update (fun s => { s with pc := s.savedpc, robloxBase := s.RS.base })
  else if r = PCRC then do
    when (0 ≤ nresults) topToCi
    restoreBase
  else throw .returned

def op_self : CluaM A PUnit := do
  let rb ← slot (robloxBase + argB i)
  setSlot (robloxBase + argA i + 1) rb
  let value ← rk V cl robloxBase (GETARG_C i)
  let rb ← slot (robloxBase + argB i)
  hostCall cl (V.rbxV_gettable rb value (robloxBase + argA i))

def op_forprep : CluaM A PUnit := do
  let ra := robloxBase + argA i
  saveEncryptedPc cl
  savePc
  if !(← convertNumber N V ra) then
    throw (.raised (.runerror "'for' initial value must be a number"))
  else if !(← convertNumber N V (ra + 1)) then
    throw (.raised (.runerror "'for' limit must be a number"))
  else if !(← convertNumber N V (ra + 2)) then
    throw (.raised (.runerror "'for' step must be a number"))
  else
    let init ← decoded V ra
    let pstep ← decoded V (ra + 2)
    setSlot ra ⟨numberXor V.api (N.numsub init pstep), RBX_TYPE_NUMBER⟩
    jump (GETARG_sBx i)

def op_forloop : CluaM A PUnit := do
  let ra := robloxBase + argA i
  let step ← decoded V (ra + 2)
  let init ← decoded V ra
  let limit ← decoded V (ra + 1)
  let idx := N.numadd init step
  when (N.forCondition idx limit step) do
    jump (GETARG_sBx i)
    setSlot ra ⟨numberXor V.api idx, RBX_TYPE_NUMBER⟩
    setSlot (ra + 3) ⟨numberXor V.api idx, RBX_TYPE_NUMBER⟩

/-- Only the host's program counter is saved here. -/
def op_tforloop : CluaM A PUnit := do
  let ra := robloxBase + argA i
  let cb := ra + 3
  setSlot (cb + 2) (← slot (ra + 2))
  setSlot (cb + 1) (← slot (ra + 1))
  setSlot cb (← slot ra)
  setTop (cb + 3)
  saveEncryptedPc cl
  callRbx (V.rbxD_call cb (argC i))
  restoreBase
  topToCi
  let robloxBase ← look (fun s => s.robloxBase)
  let cb := robloxBase + argA i + 3
  let v ← slot cb
  if v.tt ≠ RBX_TYPE_NIL then do
    setSlot (cb - 1) v
    let pc ← look (fun s => s.pc)
    let next ← instrAt cl.p pc
    jump (GETARG_sBx next)
    jump 1
  else jump 1

def op_jmp : CluaM A PUnit := jump (GETARG_sBx i)

def op_not : CluaM A PUnit := do
  let value ← slot (robloxBase + argB i)
  let res := value.tt = RBX_TYPE_NIL ∨ (value.tt = RBX_TYPE_BOOLEAN ∧ value.word = 0)
  setBoolean (robloxBase + argA i) (if res then 1 else 0)

def op_loadbool : CluaM A PUnit := do
  setBoolean (robloxBase + argA i) (GETARG_B i)
  when (GETARG_C i ≠ 0) (jump 1)

def op_loadnil : CluaM A PUnit :=
  update (fun s => { s with RS := { s.RS with
    stack := setNils (fun v => { v with tt := RBX_TYPE_NIL }) (robloxBase + argA i)
      (robloxBase + argB i) s.RS.stack } })

def op_move : CluaM A PUnit := do
  let rb ← slot (robloxBase + argB i)
  setSlot (robloxBase + argA i) rb

def op_loadk : CluaM A PUnit := do
  let transpiledConst ← constant V cl (argBx i)
  setSlot (robloxBase + argA i) transpiledConst

/-- The default branch prints the name of the opcode. `luaP_opnames` has one entry more than
there are opcodes; past it there is nothing to print. -/
def unknownOpcode : CluaM A PUnit :=
  if (GET_OPCODE i).toNat ≤ NUM_OPCODES then throw .returned else throw .undefined

/-! ## The loop -/

/-- One round of the main loop. -/
def cluaV_executeStep : CluaM A PUnit := do
  let pc ← look (fun s => s.pc)
  let i ← instrAt cl.p pc
  jump 1
  let robloxBase ← look (fun s => s.robloxBase)
  match OpCode.ofWord (GET_OPCODE i) with
  | some .OP_GETGLOBAL => op_getglobal V cl robloxBase i
  | some .OP_SETGLOBAL => op_setglobal V cl robloxBase i
  | some .OP_GETTABLE => op_gettable V cl robloxBase i
  | some .OP_SETTABLE => op_settable V cl robloxBase i
  | some .OP_CALL => op_call V cl robloxBase i
  | some .OP_SELF => op_self V cl robloxBase i
  | some .OP_FORPREP => op_forprep N V cl robloxBase i
  | some .OP_FORLOOP => op_forloop N V robloxBase i
  | some .OP_TFORLOOP => op_tforloop V cl robloxBase i
  | some .OP_JMP => op_jmp i
  | some .OP_NOT => op_not robloxBase i
  | some .OP_LOADBOOL => op_loadbool robloxBase i
  | some .OP_LOADNIL => op_loadnil robloxBase i
  | some .OP_MOVE => op_move robloxBase i
  | some .OP_LOADK => op_loadk V cl robloxBase i
  | some .OP_RETURN => throw .returned -- call depth is not supported
  | _ => unknownOpcode i

/-- The first `n` rounds. -/
def cluaV_execute (n : Nat) : CluaM A PUnit := iter (cluaV_executeStep N V cl) n

end

end NostalgiaConv.Clvm
