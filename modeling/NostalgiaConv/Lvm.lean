/-
`luaV_execute` of `lua/lvm.c`, for the fifteen opcodes that the host's interpreter
implements.

One step is one round of the main loop. The operations that reach into tables or
call functions are parameters; each may change the whole of the Lua state, so
`base` is reloaded after it, as `Protect` does. Hooks are off.
-/
import NostalgiaConv.Interpreter

set_option autoImplicit false

namespace NostalgiaConv.Lvm

open NostalgiaConv.Cipher NostalgiaConv.Opcodes NostalgiaConv.Value NostalgiaConv.Transpile
open NostalgiaConv.Relational NostalgiaConv.Interpreter

/-! ## Values and states -/

/-- The types whose values are compared by identity. -/
inductive ObjectType where
  | lightuserdata | thread | function | table | userdata
  deriving DecidableEq

/-- A Lua value, read by its tag. -/
inductive LuaValue where
  | nil
  | boolean (b : Word)
  | number (n : lua_Number)
  | string (ts : TString)
  | object (type : ObjectType) (ref : Nat)

def LuaValue.ofConstant : Constant → LuaValue
  | .nil => .nil
  | .boolean b => .boolean b
  | .number n => .number n
  | .string ts => .string ts

def l_isfalse : LuaValue → Bool
  | .nil => true
  | .boolean b => b = 0
  | _ => false

/-- What the interpreter uses of a `lua_State`; `env` is the environment of the
running closure, `world` all that the operations work on besides. -/
structure LuaState (W : Type) where
  world : W
  stack : Nat → LuaValue
  base : Nat
  top : Nat
  ciTop : Nat
  savedpc : Int
  env : Nat

inductive LuaError where
  | raised

abbrev LuaOp (W α : Type) := EStateM LuaError (LuaState W) α

/-- The operations. A value that is passed by pointer is passed as it is, a slot
that is written as its index. -/
structure LuaApi (W : Type) where
  luaV_gettable (t key : LuaValue) (val : Nat) : LuaOp W PUnit
  luaV_settable (t key val : LuaValue) : LuaOp W PUnit
  luaD_precall (func : Nat) (nresults : Int) : LuaOp W Int
  luaD_call (func : Nat) (nresults : Int) : LuaOp W PUnit

/-- The state between two instructions: the locals of `luaV_execute`, and `L`. -/
structure LuaVm (W : Type) where
  pc : Int
  base : Nat
  L : LuaState W

abbrev LuaM (W : Type) := EStateM Stop (LuaVm W)

section

variable {W : Type}

/-! ## Registers and jumps -/

def LuaState.setStack (L : LuaState W) (n : Nat) (v : LuaValue) : LuaState W :=
  { L with stack := Function.update L.stack n v }

def slot (n : Nat) : LuaM W LuaValue := look (fun s => s.L.stack n)

def setSlot (n : Nat) (v : LuaValue) : LuaM W PUnit :=
  update (fun s => { s with L := s.L.setStack n v })

/-- `dojump` -/
def jump (d : Int) : LuaM W PUnit := update (fun s => { s with pc := s.pc + d })

def setTop (n : Nat) : LuaM W PUnit := update (fun s => { s with L := { s.L with top := n } })

/-- `L->top = L->ci->top` -/
def topToCi : LuaM W PUnit := update (fun s => { s with L := { s.L with top := s.L.ciTop } })

def savePc : LuaM W PUnit := update (fun s => { s with L := { s.L with savedpc := s.pc } })

def reloadBase : LuaM W PUnit := update (fun s => { s with base := s.L.base })

def callLua {α : Type} (x : LuaOp W α) : LuaM W α :=
  callOn LuaVm.L (fun L s => { s with L := L }) .callee x

/-- `Protect` -/
def protect (x : LuaOp W PUnit) : LuaM W PUnit := do
  savePc
  callLua x
  reloadBase

/-- `nvalue`, which asserts the tag. -/
def nvalue (n : Nat) : LuaM W lua_Number := do
  match ← slot n with
  | .number x => pure x
  | _ => throw .undefined

theorem nvalue_number {n : Nat} {s : LuaVm W} {x : lua_Number} (h : s.L.stack n = .number x) :
    nvalue n s = .ok x s := by
  simp only [nvalue, slot, look, bind, EStateM.bind, h]
  rfl

theorem nvalue_other {n : Nat} {s : LuaVm W} (h : ∀ x, s.L.stack n ≠ .number x) :
    nvalue n s = .error .undefined s := by
  simp only [nvalue, slot, look, bind, EStateM.bind]
  cases hreg : s.L.stack n with
  | number x => exact absurd hreg (h x)
  | _ => rfl

/-! ## The handlers -/

variable (N : Doubles) (V : LuaApi W) (p : ProtoHead) (base : Nat) (i : Word)

/-- `RKB`, `RKC`: a constant or a register. -/
def rk (x : Word) : LuaM W LuaValue := do
  if ISK x then
    let c ← constantAt p (INDEXK x)
    pure (.ofConstant c)
  else slot (base + x.toNat)

/-- `tonumber(o, n)` with both the same register. -/
def tonumber (n : Nat) : LuaM W Bool := do
  match ← slot n with
  | .number _ => pure true
  | .string ts =>
    match N.str2d (untilZero ts.bytes) with
    | some x => do
      setSlot n (.number x)
      pure true
    | none => pure false
  | _ => pure false

section

variable {n : Nat} {s : LuaVm W}

theorem tonumber_number {x : lua_Number} (h : s.L.stack n = .number x) :
    tonumber N n s = .ok true s := by
  simp only [tonumber, slot, look, bind, EStateM.bind, h]
  rfl

theorem tonumber_string {ts : TString} (h : s.L.stack n = .string ts) {x : lua_Number}
    (hx : N.str2d (untilZero ts.bytes) = some x) :
    tonumber N n s = (setSlot n (.number x) >>= fun _ => pure true) s := by
  simp only [tonumber, slot, look, bind, EStateM.bind, h, hx]

theorem tonumber_unread {ts : TString} (h : s.L.stack n = .string ts)
    (hx : N.str2d (untilZero ts.bytes) = none) : tonumber N n s = .ok false s := by
  simp only [tonumber, slot, look, bind, EStateM.bind, h, hx]
  rfl

theorem tonumber_other (hnum : ∀ x, s.L.stack n ≠ .number x)
    (hstr : ∀ ts, s.L.stack n ≠ .string ts) : tonumber N n s = .ok false s := by
  simp only [tonumber, slot, look, bind, EStateM.bind]
  cases hreg : s.L.stack n with
  | number x => exact absurd hreg (hnum x)
  | string ts => exact absurd hreg (hstr ts)
  | _ => rfl

end

def op_move : LuaM W PUnit := do
  let rb ← slot (base + argB i)
  setSlot (base + argA i) rb

def op_loadk : LuaM W PUnit := do
  let c ← constantAt p (argBx i)
  setSlot (base + argA i) (.ofConstant c)

def op_loadbool : LuaM W PUnit := do
  setSlot (base + argA i) (.boolean (GETARG_B i))
  when (GETARG_C i ≠ 0) (jump 1)

def op_loadnil : LuaM W PUnit :=
  update (fun s => { s with
    L := { s.L with stack := setNils (fun _ => .nil) (base + argA i) (base + argB i) s.L.stack } })

def op_getglobal : LuaM W PUnit := do
  let c ← constantAt p (argBx i)
  let env ← look (fun s => s.L.env)
  protect (V.luaV_gettable (.object .table env) (.ofConstant c) (base + argA i))

def op_setglobal : LuaM W PUnit := do
  let c ← constantAt p (argBx i)
  let env ← look (fun s => s.L.env)
  let ra ← slot (base + argA i)
  protect (V.luaV_settable (.object .table env) (.ofConstant c) ra)

def op_gettable : LuaM W PUnit := do
  let rc ← rk p base (GETARG_C i)
  let rb ← slot (base + argB i)
  protect (V.luaV_gettable rb rc (base + argA i))

def op_settable : LuaM W PUnit := do
  let rb ← rk p base (GETARG_B i)
  let rc ← rk p base (GETARG_C i)
  let ra ← slot (base + argA i)
  protect (V.luaV_settable ra rb rc)

def op_self : LuaM W PUnit := do
  let rb ← slot (base + argB i)
  setSlot (base + argA i + 1) rb
  let rc ← rk p base (GETARG_C i)
  let rb ← slot (base + argB i)
  protect (V.luaV_gettable rb rc (base + argA i))

def op_not : LuaM W PUnit := do
  let rb ← slot (base + argB i)
  setSlot (base + argA i) (.boolean (if l_isfalse rb then 1 else 0))

def op_jmp : LuaM W PUnit := jump (GETARG_sBx i)

def op_forprep : LuaM W PUnit := do
  let ra := base + argA i
  savePc
  if !(← tonumber N ra) then
    throw (.raised (.runerror "'for' initial value must be a number"))
  else if !(← tonumber N (ra + 1)) then
    throw (.raised (.runerror "'for' limit must be a number"))
  else if !(← tonumber N (ra + 2)) then
    throw (.raised (.runerror "'for' step must be a number"))
  else
    let init ← nvalue ra
    let pstep ← nvalue (ra + 2)
    setSlot ra (.number (N.numsub init pstep))
    jump (GETARG_sBx i)

/-- `tonumber` returns, and where it returns true it has left a number. -/
theorem tonumber_spec (n : Nat) (s : LuaVm W) : ∃ b s', tonumber N n s = .ok b s'
    ∧ (b = true → (∃ x, s'.L.stack n = .number x) ∧ ∀ m ≠ n, s'.L.stack m = s.L.stack m) := by
  cases hreg : s.L.stack n with
  | number x => exact ⟨true, s, tonumber_number N hreg, fun _ => ⟨⟨x, hreg⟩, fun _ _ => rfl⟩⟩
  | string ts =>
    cases hx : N.str2d (untilZero ts.bytes) with
    | some x =>
      refine ⟨true, { s with L := s.L.setStack n (.number x) }, tonumber_string N hreg hx,
        fun _ => ⟨⟨x, Function.update_self _ _ _⟩, fun m hm => ?_⟩⟩
      exact Function.update_of_ne hm _ _
    | none => exact ⟨false, s, tonumber_unread N hreg hx, nofun⟩
  | _ =>
    exact ⟨false, s, tonumber_other N (by rw [hreg]; exact nofun) (by rw [hreg]; exact nofun), nofun⟩

/-- `OP_FORPREP` takes `nvalue` of numbers only: it jumps, or raises one of its
three errors. -/
theorem op_forprep_defined (s s' : LuaVm W) : op_forprep N base i s ≠ .error .undefined s' := by
  intro h
  have hno : ¬ (!true) = true := by decide
  obtain ⟨b₀, s₀, h₀, hinit⟩ := tonumber_spec N (base + argA i)
    { s with L := { s.L with savedpc := s.pc } }
  unfold op_forprep at h
  rw [bind_of_ok (x := savePc) rfl, bind_of_ok h₀] at h
  cases b₀ with
  | false => exact nomatch h
  | true =>
    obtain ⟨b₁, s₁, h₁, hlimit⟩ := tonumber_spec N (base + argA i + 1) s₀
    rw [if_neg hno, bind_of_ok h₁] at h
    cases b₁ with
    | false => exact nomatch h
    | true =>
      obtain ⟨b₂, s₂, h₂, hstep⟩ := tonumber_spec N (base + argA i + 2) s₁
      rw [if_neg hno, bind_of_ok h₂] at h
      cases b₂ with
      | false => exact nomatch h
      | true =>
        -- the later conversions leave the initial value alone
        obtain ⟨⟨init, hra⟩, -⟩ := hinit rfl
        obtain ⟨⟨pstep, hra2⟩, hkeep⟩ := hstep rfl
        have hra' : s₂.L.stack (base + argA i) = .number init := by
          rw [hkeep _ (by omega), (hlimit rfl).2 _ (by omega), hra]
        rw [if_neg hno, bind_of_ok (nvalue_number hra'), bind_of_ok (nvalue_number hra2)] at h
        exact nomatch h

def op_forloop : LuaM W PUnit := do
  let ra := base + argA i
  let step ← nvalue (ra + 2)
  let init ← nvalue ra
  let limit ← nvalue (ra + 1)
  let idx := N.numadd init step
  when (N.forCondition idx limit step) do
    jump (GETARG_sBx i)
    setSlot ra (.number idx)
    setSlot (ra + 3) (.number idx)

def op_tforloop : LuaM W PUnit := do
  let ra := base + argA i
  let cb := ra + 3
  setSlot (cb + 2) (← slot (ra + 2))
  setSlot (cb + 1) (← slot (ra + 1))
  setSlot cb (← slot ra)
  setTop (cb + 3)
  protect (V.luaD_call cb (argC i))
  topToCi
  let base ← look (fun s => s.base)
  let cb := base + argA i + 3
  match ← slot cb with
  | .nil => jump 1
  | v => do
    setSlot (cb - 1) v
    let pc ← look (fun s => s.pc)
    let next ← instrAt p pc
    jump (GETARG_sBx next)
    jump 1

def op_call : LuaM W PUnit := do
  let ra := base + argA i
  let nresults : Int := argC i - 1
  when (argB i ≠ 0) (setTop (ra + argB i))
  savePc
  let r ← callLua (V.luaD_precall ra nresults)
  if r = PCRLUA then throw .outside
  else if r = PCRC then do
    when (0 ≤ nresults) topToCi
    reloadBase
  else throw .returned

/-! ## The loop -/

/-- One round of the main loop. -/
def luaV_executeStep : LuaM W PUnit := do
  let pc ← look (fun s => s.pc)
  let i ← instrAt p pc
  jump 1
  let base ← look (fun s => s.base)
  match OpCode.ofWord (GET_OPCODE i) with
  | some .OP_MOVE => op_move base i
  | some .OP_LOADK => op_loadk p base i
  | some .OP_LOADBOOL => op_loadbool base i
  | some .OP_LOADNIL => op_loadnil base i
  | some .OP_GETGLOBAL => op_getglobal V p base i
  | some .OP_GETTABLE => op_gettable V p base i
  | some .OP_SETGLOBAL => op_setglobal V p base i
  | some .OP_SETTABLE => op_settable V p base i
  | some .OP_SELF => op_self V p base i
  | some .OP_NOT => op_not base i
  | some .OP_JMP => op_jmp i
  | some .OP_CALL => op_call V base i
  | some .OP_FORLOOP => op_forloop N base i
  | some .OP_FORPREP => op_forprep N base i
  | some .OP_TFORLOOP => op_tforloop V p base i
  | _ => throw .outside

/-- The first `n` rounds. -/
def luaV_execute (n : Nat) : LuaM W PUnit := iter (luaV_executeStep N V p) n

end

end NostalgiaConv.Lvm
