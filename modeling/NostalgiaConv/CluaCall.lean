/-
`cluaD_precall`, `cluaD_call` and `clua_call` of `vm/vm.cpp`, beside `luaD_precall`
and `luaD_call` of `lua/ldo.c`.

A precall answers with one of three small numbers. `cluaD_call` runs `cluaV_execute`
on the zero, and that also stands for a value that is no function: then there is no
new record, and what runs is the caller's code. After a run nothing takes the record
away again.
-/
import NostalgiaConv.CallFrames

set_option autoImplicit false

namespace NostalgiaConv.CluaCall

open NostalgiaConv.Cipher NostalgiaConv.Host NostalgiaConv.Transpile NostalgiaConv.Relational
open NostalgiaConv.Interpreter NostalgiaConv.Hoare NostalgiaConv.Clvm NostalgiaConv.CallFrames
open NostalgiaConv.TableHost (machineDoubles rbxTables)
open NostalgiaConv.Lvm (LuaValue)

section

variable {W : Type} (E : LuaEnv W)

/-! ## Hooks -/

def LUA_HOOKCALL : Int := 0
def LUA_HOOKRET : Int := 1
def LUA_HOOKTAILRET : Int := 4
def LUA_MASKCALL : BitVec 8 := 1
def LUA_MASKRET : BitVec 8 := 2

def luaD_callhook (event : Int) : LOp W PUnit := do
  let L ← look id
  when (L.hook = true ∧ L.allowhook = true) do
    luaD_checkstack E LUA_MINSTACK
    update (fun L₁ => { L₁ with
      calls := L₁.calls.setTop (L₁.top + LUA_MINSTACK)
      allowhook := false }) -- cannot call hooks inside a hook
    E.hook event
    update (fun L₁ => { L₁ with
      allowhook := true
      calls := L₁.calls.setTop L.calls.ci.top
      top := L.top })

/-! ## Returning from a function -/

/-- `ttisfunction`, and the function that the value refers to. -/
def functionRef : LuaValue → Option Nat
  | .object .function ref => some ref
  | _ => none

/-- `isLua(ci)` for the current record. -/
def currentIsLua (L : LState W) : Bool :=
  match functionRef (L.stack L.calls.ci.func) with
  | some ref => match E.clvalue ref with
    | .lua _ => true
    | .c => false
  | none => false

/-- `while ((L->hookmask & LUA_MASKRET) && L->ci->tailcalls--)` -/
def tailHooks : Nat → LOp W PUnit
  | 0 => pure ⟨⟩
  | tailcalls + 1 => do
    let mask ← look LState.hookmask
    when (mask &&& LUA_MASKRET ≠ 0) do
      luaD_callhook E LUA_HOOKTAILRET
      tailHooks tailcalls

def callrethooks : LOp W PUnit := do
  luaD_callhook E LUA_HOOKRET
  let L ← look id
  when (currentIsLua E L = true) (tailHooks E L.calls.ci.tailcalls)

/-- `for (i = wanted; i != 0 && firstResult < L->top; i--)`, with the distance of
`firstResult` from the top: how many are still wanted, the next place, the stack. -/
def moveResults : Nat → Int → Nat → Nat → (Nat → LuaValue) → Int × Nat × (Nat → LuaValue)
  | 0, i, res, _, stack => (i, res, stack)
  | n + 1, i, res, firstResult, stack =>
    if i = 0 then (i, res, stack)
    else moveResults n (i - 1) (res + 1) (firstResult + 1)
      (Function.update stack res (stack firstResult))

/-- `L->ci--` -/
def popCalls (c : Calls) : Option Calls :=
  match h : c.callers with
  | [] => none
  | caller :: callers => some ⟨caller, callers, c.size_ci, by
      have hlt : c.callers.length < c.size_ci := c.ci_lt
      rw [h, List.length_cons] at hlt
      omega⟩

def luaD_poscall (firstResult : Nat) : LOp W Int := do
  let mask ← look LState.hookmask
  when (mask &&& LUA_MASKRET ≠ 0) (callrethooks E)
  let L ← look id
  match popCalls L.calls with
  | none => throw .undefined
  | some calls => do
    let wanted := L.calls.ci.nresults
    let (i, res, stack) :=
      moveResults (L.top - firstResult) wanted L.calls.ci.func firstResult L.stack
    update (fun L => { L with
      calls, base := calls.ci.base, savedpc := calls.ci.savedpc
      stack := StaleStack.nilFrom i.toNat res stack
      top := res + i.toNat })
    pure (wanted + 1)

/-! ## Calling a function -/

/-- `if (L->hookmask & LUA_MASKCALL)`, around a call hook. -/
def hooked (x : LOp W PUnit) : LOp W PUnit := do
  let mask ← look LState.hookmask
  when (mask &&& LUA_MASKCALL ≠ 0) x

/-- The call hook of a Lua function: hooks take `savedpc` to be incremented. -/
def luaHook : LOp W PUnit :=
  hooked do
    update (fun L => { L with savedpc := L.savedpc + 1 })
    luaD_callhook E LUA_HOOKCALL
    update (fun L => { L with savedpc := L.savedpc - 1 })

def PCRYIELD : Int := 2

/-- The branch for a C function. -/
def callC (grow : LOp W PUnit) (ref func : Nat) (nresults : Int) : LOp W Int := do
  luaD_checkstack E LUA_MINSTACK
  let top ← look LState.top
  inc_ci grow { base := func + 1, func, top := top + LUA_MINSTACK, savedpc := 0, nresults,
                tailcalls := 0 }
  update (fun L => { L with base := func + 1 })
  hooked (luaD_callhook E LUA_HOOKCALL)
  let n ← E.cfunction ref
  if n < 0 then pure PCRYIELD -- yielding?
  else do
    let top ← look LState.top
    let _ ← luaD_poscall E (top - n.toNat)
    pure PCRC

/-- The call of what `ref` refers to, from slot `func`. -/
def precallFunction (adjust : ProtoHead → Nat → LState W → LState W × Nat) (grow : LOp W PUnit)
    (ref func : Nat) (nresults : Int) : LOp W Int := do
  update (fun L => { L with calls := L.calls.savePc L.savedpc })
  match E.clvalue ref with
  | .lua cl => do
    enterLua E adjust grow cl func nresults
    luaHook E
    pure PCRLUA
  | .c => callC E grow ref func nresults

/-- `for (p = L->top; p > func; p--) setobjs2s(L, p, p-1)`, for the `n` slots above
`func`. -/
def openHole : Nat → Nat → (Nat → LuaValue) → Nat → LuaValue
  | 0, _, stack => stack
  | n + 1, func, stack =>
    openHole n func (Function.update stack (func + n + 1) (stack (func + n)))

/-- The function that `__call` gives in place of `func`. -/
def tryfuncTM (func : Nat) : LOp W Nat := do
  let L ← look id
  let tm := E.gettmbyobj (L.stack func) L.world
  match functionRef tm with
  | none => throw (.typeerror "call")
  | some ref => do
    update (fun L => { L with stack := openHole (L.top - func) func L.stack })
    luaD_checkstack E 1
    update (fun L => { L with top := L.top + 1, stack := Function.update L.stack func tm })
    pure ref

def luaD_precall (func : Nat) (nresults : Int) : LOp W Int := do
  let v ← look (fun L => L.stack func)
  match functionRef v with
  | none => do -- `func' is not a function?
    let ref ← tryfuncTM E func
    precallFunction E adjust_varargs (growCI E) ref func nresults
  | some ref => precallFunction E adjust_varargs (growCI E) ref func nresults

def cluaD_precall (func : Nat) (nresults : Int) : LOp W Int := do
  let v ← look (fun L => L.stack func)
  match functionRef v with
  | none => pure 0 -- `func' is not a function?
  | some ref => precallFunction E cadjust_varargs (cgrowCI E) ref func nresults

/-- The check of the depth of C calls. -/
def enterCCall (msg : String) : LOp W PUnit := do
  update (fun L => { L with nCcalls := L.nCcalls + 1 })
  let n ← look (fun L => L.nCcalls.toNat)
  when (LUAI_MAXCCALLS ≤ n) do
    if n = LUAI_MAXCCALLS then throw (.runerror msg)
    else when (LUAI_MAXCCALLS + LUAI_MAXCCALLS / 8 ≤ n) (throw (.thrown 5))

/-- `cluaD_call` up to `cluaV_execute`, and whether that is run. -/
def cluaD_callStart (func : Nat) (nResults : Int) : LOp W Bool := do
  enterCCall "(CLVM) C stack overflow"
  let r ← cluaD_precall E func nResults
  pure (r = PCRLUA)

/-- `luaD_call` up to `luaV_execute`, and whether that is run. -/
def luaD_callStart (func : Nat) (nResults : Int) : LOp W Bool := do
  enterCCall "C stack overflow"
  let r ← luaD_precall E func nResults
  pure (r = PCRLUA)

/-! ## What a hook leaves alone -/

/-- The calls of `L'` are those of `L`, and so is the stack below the top. -/
structure CallKept (L L' : LState W) : Prop where
  ci : L'.calls.ci = L.calls.ci
  callers : L'.calls.callers = L.calls.callers
  size_ci : L.calls.size_ci ≤ LUAI_MAXCALLS → L'.calls.size_ci ≤ LUAI_MAXCALLS
  base : L'.base = L.base
  savedpc : L'.savedpc = L.savedpc
  nCcalls : L'.nCcalls = L.nCcalls
  stack : ∀ m, m < L.top → L'.stack m = L.stack m

theorem CallKept.refl (L : LState W) : CallKept L L :=
  ⟨rfl, rfl, id, rfl, rfl, rfl, fun _ _ => rfl⟩

/-- A hook that returns has undone its own calls. -/
def HookReturns : Prop :=
  ∀ event L L', E.hook event L = .ok ⟨⟩ L' → CallKept L L'

variable {E}

theorem callhook_kept (hhook : HookReturns E) {event : Int} {L L' : LState W}
    (h : luaD_callhook E event L = .ok ⟨⟩ L') : CallKept L L' := by
  rw [luaD_callhook, look_bind, when] at h
  by_cases hset : L.hook = true ∧ L.allowhook = true
  · rw [id_eq, if_pos hset] at h
    obtain ⟨⟨⟩, L₁, hcheck, h⟩ := bind_eq_ok.mp h
    rw [update_bind] at h
    obtain ⟨⟨⟩, L₃, hcall, hlast⟩ := bind_eq_ok.mp h
    obtain ⟨-, rfl⟩ := EStateM.Result.ok.inj hlast
    have hkept := hhook event _ _ hcall
    obtain ⟨w, -, rfl⟩ := luaD_checkstack_ok E hcheck
    refine ⟨?_, hkept.callers, hkept.size_ci, hkept.base, hkept.savedpc, hkept.nCcalls,
      hkept.stack⟩
    -- the record's `top` is put back
    show { L₃.calls.ci with top := L.calls.ci.top } = L.calls.ci
    rw [hkept.ci]
    rfl
  · rw [id_eq, if_neg hset] at h
    obtain ⟨-, rfl⟩ := EStateM.Result.ok.inj h
    exact CallKept.refl _

theorem luaHook_kept (hhook : HookReturns E) {L L' : LState W} (h : luaHook E L = .ok ⟨⟩ L') :
    CallKept L L' := by
  rw [luaHook, hooked, look_bind, when] at h
  by_cases hmask : L.hookmask &&& LUA_MASKCALL ≠ 0
  · rw [if_pos hmask] at h
    rw [update_bind] at h
    obtain ⟨⟨⟩, L₂, hcall, hlast⟩ := bind_eq_ok.mp h
    obtain ⟨-, rfl⟩ := EStateM.Result.ok.inj hlast
    have hkept := callhook_kept hhook hcall
    refine ⟨hkept.ci, hkept.callers, hkept.size_ci, hkept.base, ?_, hkept.nCcalls, hkept.stack⟩
    show L₂.savedpc - 1 = L.savedpc
    rw [hkept.savedpc]
    exact Int.add_sub_cancel _ _
  · rw [if_neg hmask] at h
    obtain ⟨-, rfl⟩ := EStateM.Result.ok.inj h
    exact CallKept.refl _

/-! ## What a precall answers -/

/-- The state in which a function is entered: the caller's place is kept. -/
def saved (L : LState W) : LState W := { L with calls := L.calls.savePc L.savedpc }

/-- A C function is never answered with a zero. -/
theorem callC_ne {grow : LOp W PUnit} {ref func : Nat} {nresults r : Int} {L L' : LState W}
    (h : callC E grow ref func nresults L = .ok r L') : r ≠ PCRLUA := by
  unfold callC at h
  obtain ⟨⟨⟩, _, -, h⟩ := bind_eq_ok.mp h
  obtain ⟨top, _, -, h⟩ := bind_eq_ok.mp h
  obtain ⟨⟨⟩, _, -, h⟩ := bind_eq_ok.mp h
  obtain ⟨⟨⟩, _, -, h⟩ := bind_eq_ok.mp h
  obtain ⟨⟨⟩, _, -, h⟩ := bind_eq_ok.mp h
  obtain ⟨n, _, -, h⟩ := bind_eq_ok.mp h
  by_cases hyield : n < 0
  · rw [if_pos hyield] at h
    obtain ⟨rfl, -⟩ := EStateM.Result.ok.inj h
    decide
  · rw [if_neg hyield] at h
    obtain ⟨top, _, -, h⟩ := bind_eq_ok.mp h
    obtain ⟨_, _, -, h⟩ := bind_eq_ok.mp h
    obtain ⟨rfl, -⟩ := EStateM.Result.ok.inj h
    decide

/-- A Lua function is answered with a zero, in a frame of its own. -/
theorem precallFunction_lua (hhook : HookReturns E) {ref func : Nat} {nresults r : Int}
    {cl : LClosure} {L L' : LState W} (hcl : E.clvalue ref = .lua cl)
    (h : precallFunction E cadjust_varargs (cgrowCI E) ref func nresults L = .ok r L') :
    r = PCRLUA ∧ ∃ w c, Entered (saved L).calls c (frameInfo cl.p func nresults L)
      ∧ CallKept (framed cl func (saved L) w c) L' := by
  unfold precallFunction at h
  rw [update_bind, hcl] at h
  obtain ⟨⟨⟩, L₁, henter, h⟩ := bind_eq_ok.mp h
  obtain ⟨⟨⟩, L₂, hhooked, hlast⟩ := bind_eq_ok.mp h
  obtain ⟨rfl, rfl⟩ := EStateM.Result.ok.inj hlast
  obtain ⟨w, w', c, -, -, hc, rfl⟩ := enterLua_ok E henter
  exact ⟨rfl, w', c, hc, luaHook_kept hhook hhooked⟩

/-- A zero for a function is that of a Lua function. -/
theorem precallFunction_zero {ref func : Nat} {nresults : Int} {L L' : LState W}
    (h : precallFunction E cadjust_varargs (cgrowCI E) ref func nresults L = .ok PCRLUA L') :
    ∃ cl, E.clvalue ref = .lua cl := by
  unfold precallFunction at h
  rw [update_bind] at h
  cases hcl : E.clvalue ref with
  | lua cl => exact ⟨cl, rfl⟩
  | c =>
    rw [hcl] at h
    exact absurd rfl (callC_ne h)

variable (E)

/-- The last record of `L'` is new: that of a Lua closure at `func`, at the start of its
code. -/
structure NewFrame (func : Nat) (L L' : LState W) : Prop where
  callers : L'.calls.callers = { L.calls.ci with savedpc := L.savedpc } :: L.calls.callers
  closureAt : L'.calls.ci.func = func
  base : L'.base = L'.calls.ci.base
  closure : ∃ ref cl, functionRef (L'.stack func) = some ref ∧ E.clvalue ref = .lua cl
    ∧ L'.savedpc = cl.code

variable {E}

theorem newFrame_of_precall (hhook : HookReturns E) {ref func : Nat} {nresults : Int}
    {L L' : LState W} (hfunc : func < L.top) (href : functionRef (L.stack func) = some ref)
    (h : precallFunction E cadjust_varargs (cgrowCI E) ref func nresults L = .ok PCRLUA L') :
    NewFrame E func L L' := by
  obtain ⟨cl, hcl⟩ := precallFunction_zero h
  obtain ⟨-, w, c, hc, hkept⟩ := precallFunction_lua hhook hcl h
  have hci : L'.calls.ci = frameInfo cl.p func nresults L := hkept.ci.trans hc.ci
  refine ⟨hkept.callers.trans hc.callers, by rw [hci]; rfl, ?_, ref, cl, ?_, hcl, hkept.savedpc⟩
  · rw [hkept.base, hci]
    rfl
  · -- the slot of the function lies below the frame's top
    have htop : func < (framed cl func (saved L) w c).top :=
      Nat.lt_add_right _ (lt_frameBase cl.p (L := saved L) hfunc)
    rw [hkept.stack func htop, framed_stack_le (L := saved L) w c hfunc (Nat.le_refl func)]
    exact href

/-! ## When a call runs the interpreter -/

/-- The state once the call is counted. -/
def counted (L : LState W) : LState W := { L with nCcalls := L.nCcalls + 1 }

/-- The C calls are too deep for one more. -/
def CCallLimit (L : LState W) : Prop :=
  (L.nCcalls + 1).toNat = LUAI_MAXCCALLS
    ∨ LUAI_MAXCCALLS + LUAI_MAXCCALLS / 8 ≤ (L.nCcalls + 1).toNat

theorem enterCCall_eq (msg : String) (L : LState W) :
    enterCCall msg L
      = if (L.nCcalls + 1).toNat = LUAI_MAXCCALLS then .error (.runerror msg) (counted L)
        else if LUAI_MAXCCALLS + LUAI_MAXCCALLS / 8 ≤ (L.nCcalls + 1).toNat then
          .error (.thrown 5) (counted L)
        else .ok ⟨⟩ (counted L) := by
  rw [enterCCall, update_bind, look_bind, when, when]
  dsimp only
  by_cases heq : (L.nCcalls + 1).toNat = LUAI_MAXCCALLS
  · rw [if_pos heq, if_pos heq, if_pos (Nat.le_of_eq heq.symm)]
    rfl
  · rw [if_neg heq, if_neg heq]
    by_cases hfar : LUAI_MAXCCALLS + LUAI_MAXCCALLS / 8 ≤ (L.nCcalls + 1).toNat
    · rw [if_pos hfar, if_pos hfar, if_pos (Nat.le_trans (Nat.le_add_right _ _) hfar)]
      rfl
    · rw [if_neg hfar, if_neg hfar, ite_self]
      rfl

theorem enterCCall_ok {msg : String} {L L' : LState W} (h : enterCCall msg L = .ok ⟨⟩ L') :
    ¬ CCallLimit L ∧ L' = counted L := by
  rw [enterCCall_eq] at h
  split_ifs at h with heq hfar
  obtain ⟨-, rfl⟩ := EStateM.Result.ok.inj h
  exact ⟨not_or.mpr ⟨heq, hfar⟩, rfl⟩

theorem enterCCall_of_not (msg : String) {L : LState W} (h : ¬ CCallLimit L) :
    enterCCall msg L = .ok ⟨⟩ (counted L) := by
  obtain ⟨heq, hfar⟩ := not_or.mp h
  rw [enterCCall_eq, if_neg heq, if_neg hfar]

/-- A value that is no function is answered with the zero of a Lua function. -/
theorem cluaD_precall_none {func : Nat} (nresults : Int) {L : LState W}
    (href : functionRef (L.stack func) = none) :
    cluaD_precall E func nresults L = .ok PCRLUA L := by
  rw [cluaD_precall, look_bind, href]
  rfl

theorem cluaD_precall_some {func ref : Nat} (nresults : Int) {L : LState W}
    (href : functionRef (L.stack func) = some ref) :
    cluaD_precall E func nresults L
      = precallFunction E cadjust_varargs (cgrowCI E) ref func nresults L := by
  rw [cluaD_precall, look_bind, href]

theorem luaD_precall_some {func ref : Nat} (nresults : Int) {L : LState W}
    (href : functionRef (L.stack func) = some ref) :
    luaD_precall E func nresults L
      = precallFunction E cadjust_varargs (cgrowCI E) ref func nresults L := by
  rw [luaD_precall, look_bind, href]
  rfl

/-- The function that `__call` gives lies where the value was. -/
theorem tryfuncTM_ok {func ref : Nat} {L L' : LState W} (hfunc : func < L.top)
    (h : tryfuncTM E func L = .ok ref L') :
    functionRef (L'.stack func) = some ref ∧ func < L'.top ∧ L'.calls = L.calls
      ∧ L'.savedpc = L.savedpc := by
  rw [tryfuncTM, look_bind, id_eq] at h
  cases htm : functionRef (E.gettmbyobj (L.stack func) L.world) with
  | none =>
    simp only [htm] at h
    exact nomatch h
  | some ref' =>
    simp only [htm] at h
    rw [update_bind] at h
    obtain ⟨⟨⟩, L₂, hcheck, h⟩ := bind_eq_ok.mp h
    rw [update_bind] at h
    obtain ⟨rfl, rfl⟩ := EStateM.Result.ok.inj h
    obtain ⟨w, -, rfl⟩ := luaD_checkstack_ok E hcheck
    refine ⟨?_, Nat.lt_succ_of_lt hfunc, rfl, rfl⟩
    rw [← htm]
    exact congrArg functionRef (Function.update_self _ _ _)

variable (E)

/-- A call runs the interpreter on a new frame only, and not at all for a value that is
no function. -/
structure RunsNewFrames (start : LOp W Bool) (func : Nat) (L : LState W) : Prop where
  frame : ∀ L', start L = .ok true L' → NewFrame E func L L'
  notFunction : functionRef (L.stack func) = none → ∀ L', start L ≠ .ok true L'

variable {E}

/-- What runs the interpreter got a zero. -/
theorem callStart_true {msg : String} {precall : LOp W Int} {L L' : LState W}
    (h : (do enterCCall msg; let r ← precall; pure (r = PCRLUA) : LOp W Bool) L = .ok true L') :
    ¬ CCallLimit L ∧ precall (counted L) = .ok PCRLUA L' := by
  obtain ⟨⟨⟩, L₁, henter, h⟩ := bind_eq_ok.mp h
  obtain ⟨r, L₂, hprecall, hlast⟩ := bind_eq_ok.mp h
  obtain ⟨hr, rfl⟩ := EStateM.Result.ok.inj hlast
  obtain ⟨hlimit, rfl⟩ := enterCCall_ok henter
  rw [of_decide_eq_true hr] at hprecall
  exact ⟨hlimit, hprecall⟩

/-- The count of C calls is no part of a frame. -/
theorem newFrame_counted {func : Nat} {L L' : LState W} (h : NewFrame E func (counted L) L') :
    NewFrame E func L L' :=
  ⟨h.callers, h.closureAt, h.base, h.closure⟩

/-- `luaD_call` runs the interpreter on new frames only. -/
theorem luaD_call_newFrame (hhook : HookReturns E) {func : Nat} {nResults : Int} {L L' : LState W}
    (hfunc : func < L.top) (h : luaD_callStart E func nResults L = .ok true L') :
    NewFrame E func L L' := by
  obtain ⟨-, hprecall⟩ := callStart_true h
  refine newFrame_counted ?_
  cases href : functionRef (L.stack func) with
  | some ref =>
    rw [luaD_precall_some nResults (L := counted L) href] at hprecall
    exact newFrame_of_precall hhook hfunc href hprecall
  | none =>
    rw [luaD_precall, look_bind] at hprecall
    simp only [counted, href] at hprecall
    obtain ⟨ref, L₁, htry, hprecall⟩ := bind_eq_ok.mp hprecall
    obtain ⟨href₁, hfunc₁, hcalls, hpc⟩ := tryfuncTM_ok (L := counted L) hfunc htry
    have hframe := newFrame_of_precall hhook hfunc₁ href₁ hprecall
    refine ⟨?_, hframe.closureAt, hframe.base, hframe.closure⟩
    rw [hframe.callers, hcalls, hpc]

/-- **What `cluaD_call` runs.** It runs the interpreter on a new frame of a Lua closure
at `func`, as `luaD_call` does, if and only if there is a function at `func`, or the C
calls are too deep and it raises first. For a function the two precalls are equal. -/
theorem cluaD_call_runs_iff (hhook : HookReturns E) (func : Nat) (nResults : Int) (L : LState W)
    (hfunc : func < L.top) :
    (RunsNewFrames E (cluaD_callStart E func nResults) func L
        ↔ (∃ ref, functionRef (L.stack func) = some ref) ∨ CCallLimit L)
      ∧ (∀ L', luaD_callStart E func nResults L = .ok true L' → NewFrame E func L L')
      ∧ ((∃ ref, functionRef (L.stack func) = some ref) →
        cluaD_precall E func nResults L = luaD_precall E func nResults L) := by
  refine ⟨⟨fun h => ?_, fun h => ⟨fun L' hstart => ?_, fun hnone L' hstart => ?_⟩⟩, ?_, ?_⟩
  · by_contra hno
    obtain ⟨hfun, hlimit⟩ := not_or.mp hno
    have hnone : functionRef (L.stack func) = none :=
      Option.eq_none_iff_forall_ne_some.mpr fun ref href => hfun ⟨ref, href⟩
    -- the zero is answered, and the interpreter is run on the state as it is
    refine h.notFunction hnone (counted L) ?_
    rw [cluaD_callStart, bind_of_ok (enterCCall_of_not _ hlimit),
      bind_of_ok (cluaD_precall_none nResults (L := counted L) hnone)]
    rfl
  · obtain ⟨hlimit, hprecall⟩ := callStart_true hstart
    obtain ⟨ref, href⟩ := h.resolve_right hlimit
    rw [cluaD_precall_some nResults (L := counted L) href] at hprecall
    exact newFrame_counted (newFrame_of_precall hhook hfunc href hprecall)
  · obtain ⟨hlimit, -⟩ := callStart_true hstart
    obtain ⟨ref, href⟩ := h.resolve_right hlimit
    rw [hnone] at href
    exact nomatch href
  · exact fun L' hstart => luaD_call_newFrame hhook hfunc hstart
  · rintro ⟨ref, href⟩
    rw [cluaD_precall_some nResults href, luaD_precall_some nResults href]

/-! ## Running a script -/

variable {A : Type} (E)

/-- `clvalue(L->ci->func)`, when it is a Lua closure. -/
def runningClosure (L : LState W) : Option LClosure :=
  match functionRef (L.stack L.calls.ci.func) with
  | none => none
  | some ref => match E.clvalue ref with
    | .lua cl => some cl
    | .c => none

/-- How a run of `cluaV_execute` is over: by `return`, whatever the opcode, or by an
exception of the host. -/
inductive ScriptEnd where
  | returned
  | hostError
  deriving DecidableEq

/-- What `cluaV_execute` starts from. -/
def vmOf (cl : LClosure) (L : LState W) (RS : RbxState A) : CluaVm A :=
  ⟨L.savedpc - cl.code, RS.base, RS, L.savedpc - cl.code⟩

/-- `cluaV_execute(RS, L, 1)`, when it is over within `n` rounds. Of `L` it changes
`savedpc`. -/
def cluaV_execute (N : Doubles) (V : RbxApi A) (rs : Addr) (n : Nat) (L : LState W)
    (RS : RbxState A) : Option (ScriptEnd × LState W × RbxState A) :=
  match runningClosure E L with
  | none => none
  | some cl =>
    match Clvm.cluaV_execute N V ⟨cl.p, BitVec.ofInt 32 (4 * cl.code), rs⟩ n (vmOf cl L RS) with
    | .error .returned t => some (.returned, { L with savedpc := cl.code + t.savedpc }, t.RS)
    | .error (.raised _) t => some (.hostError, { L with savedpc := cl.code + t.savedpc }, t.RS)
    | _ => none

/-- How a call is over. An error on the private state itself has no handler. -/
inductive CallEnd (W A : Type) where
  | returned (L : LState W) (RS : RbxState A)
  | hostError (L : LState W) (RS : RbxState A)
  | luaError (e : LuaError) (L : LState W)
  | running

/-- `L->nCcalls--; luaC_checkGC(L);` -/
def finishCall (L : LState W) (RS : RbxState A) : CallEnd W A :=
  match E.checkGC { L with nCcalls := L.nCcalls - 1 } with
  | .ok _ L => .returned L RS
  | .error e L => .luaError e L

def cluaD_call (N : Doubles) (V : RbxApi A) (rs : Addr) (n func : Nat) (nResults : Int)
    (L : LState W) (RS : RbxState A) : CallEnd W A :=
  match cluaD_callStart E func nResults L with
  | .error e L => .luaError e L
  | .ok false L => finishCall E L RS
  | .ok true L =>
    match cluaV_execute E N V rs n L RS with
    | some (.returned, L, RS) => finishCall E L RS
    | some (.hostError, L, RS) => .hostError L RS -- past the lines that follow
    | none => .running

/-- `adjustresults` -/
def adjustresults (nresults : Int) (L : LState W) : LState W :=
  if nresults = -1 ∧ L.calls.ci.top ≤ L.top then { L with calls := L.calls.setTop L.top } else L

def clua_call (N : Doubles) (V : RbxApi A) (rs : Addr) (n nargs : Nat) (nresults : Int)
    (L : LState W) (RS : RbxState A) : CallEnd W A :=
  match cluaD_call E N V rs n (L.top - (nargs + 1)) nresults L RS with
  | .returned L RS => .returned (adjustresults nresults L) RS
  | e => e

/-! ## What a call leaves behind -/

/-- The slot holds a Lua function. -/
def ScriptAt (func : Nat) (L : LState W) : Prop :=
  ∃ ref cl, functionRef (L.stack func) = some ref ∧ E.clvalue ref = .lua cl

/-- The call is over, by an exception of the host if `failed`. -/
def CallEnd.EndsIn (r : CallEnd W A) (failed : Bool) (L' : LState W) : Prop :=
  ∃ RS', r = if failed then .hostError L' RS' else .returned L' RS'

/-- What a caller counts on: the calls are as they were, and after a normal end the
results stand in the place of the function. -/
structure Balanced (func : Nat) (nresults : Int) (failed : Bool) (L L' : LState W) : Prop where
  ci : L'.calls.callers.length = L.calls.callers.length
  base : L'.base = L.base
  nCcalls : L'.nCcalls = L.nCcalls
  results : failed = false → func ≤ L'.top ∧ (0 ≤ nresults → (L'.top : Int) = func + nresults)

/-- The collector leaves the calls and what is in use of the stack. -/
def CollectorKeeps : Prop :=
  ∀ L L', E.checkGC L = .ok ⟨⟩ L' → CallKept L L'

/-- One more record, and one more C call after an exception. -/
structure Leaked (failed : Bool) (L L' : LState W) : Prop where
  callers : L'.calls.callers.length = L.calls.callers.length + 1
  size_ci : L.calls.size_ci ≤ LUAI_MAXCALLS → L'.calls.size_ci ≤ LUAI_MAXCALLS
  nCcalls : L'.nCcalls = L.nCcalls + if failed then 1 else 0
  limit : ¬ CCallLimit L

variable {E}

/-- A Lua function is entered, or the call raises. -/
theorem callStart_script (hhook : HookReturns E) {func : Nat} {nResults : Int} {runs : Bool}
    {L L' : LState W} (hscript : ScriptAt E func L)
    (h : cluaD_callStart E func nResults L = .ok runs L') : runs = true ∧ Leaked true L L' := by
  obtain ⟨ref, cl, href, hcl⟩ := hscript
  obtain ⟨⟨⟩, L₁, henter, h⟩ := bind_eq_ok.mp h
  obtain ⟨r, L₂, hprecall, hlast⟩ := bind_eq_ok.mp h
  obtain ⟨rfl, rfl⟩ := EStateM.Result.ok.inj hlast
  obtain ⟨hlimit, rfl⟩ := enterCCall_ok henter
  rw [cluaD_precall_some nResults (L := counted L) href] at hprecall
  obtain ⟨rfl, w, c, hc, hkept⟩ := precallFunction_lua hhook hcl hprecall
  refine ⟨rfl, ?_, fun hsize => hkept.size_ci (hc.size_ci hsize), ?_, hlimit⟩
  · rw [hkept.callers]
    exact congrArg List.length hc.callers
  · rw [hkept.nCcalls, framed_nCcalls]
    rfl

/-- The interpreter leaves the calls alone. -/
theorem cluaV_execute_kept {N : Doubles} {V : RbxApi A} {rs : Addr} {n : Nat} {L L' : LState W}
    {RS RS' : RbxState A} {e : ScriptEnd} (h : cluaV_execute E N V rs n L RS = some (e, L', RS')) :
    L'.calls = L.calls ∧ L'.nCcalls = L.nCcalls := by
  unfold cluaV_execute at h
  split at h
  · exact nomatch h
  · split at h
    · obtain ⟨-, rfl, -⟩ := Prod.mk.inj (Option.some.inj h)
      exact ⟨rfl, rfl⟩
    · obtain ⟨-, rfl, -⟩ := Prod.mk.inj (Option.some.inj h)
      exact ⟨rfl, rfl⟩
    · exact nomatch h

/-- A normal end takes the C call back, and no record. -/
theorem finishCall_leaked (hgc : CollectorKeeps E) {L L₁ L' : LState W} {RS RS' : RbxState A}
    (hleak : Leaked true L L₁) (h : finishCall E L₁ RS = .returned L' RS') :
    Leaked false L L' := by
  unfold finishCall at h
  cases hcheck : E.checkGC { L₁ with nCcalls := L₁.nCcalls - 1 } with
  | error e L₂ =>
    rw [hcheck] at h
    exact nomatch h
  | ok _ L₂ =>
    rw [hcheck] at h
    obtain ⟨rfl, -⟩ := CallEnd.returned.inj h
    have hkept := hgc _ _ hcheck
    refine ⟨?_, fun hsize => hkept.size_ci (hleak.size_ci hsize), ?_, hleak.limit⟩
    · rw [hkept.callers]
      exact hleak.callers
    · rw [hkept.nCcalls]
      show L₁.nCcalls - 1 = L.nCcalls + 0
      rw [hleak.nCcalls, if_pos rfl, BitVec.add_sub_cancel]
      exact (BitVec.add_zero _).symm

theorem adjustresults_leaked (nresults : Int) {failed : Bool} {L L' : LState W}
    (h : Leaked failed L L') : Leaked failed L (adjustresults nresults L') := by
  unfold adjustresults
  split_ifs
  · exact ⟨h.callers, h.size_ci, h.nCcalls, h.limit⟩
  · exact h

/-- Whichever way a call of a script ends, its record stays. -/
theorem clua_call_leaked (hhook : HookReturns E) (hgc : CollectorKeeps E) {N : Doubles}
    {V : RbxApi A} {rs : Addr} {n nargs : Nat} {nresults : Int} {L L' : LState W}
    {RS : RbxState A} {failed : Bool} (hscript : ScriptAt E (L.top - (nargs + 1)) L)
    (h : (clua_call E N V rs n nargs nresults L RS).EndsIn failed L') : Leaked failed L L' := by
  obtain ⟨RS', h⟩ := h
  unfold clua_call cluaD_call at h
  cases hstart : cluaD_callStart E (L.top - (nargs + 1)) nresults L with
  | error e L₁ =>
    rw [hstart] at h
    cases failed <;> exact nomatch h
  | ok runs L₁ =>
    -- a script is entered with a record of its own
    obtain ⟨rfl, hentered⟩ := callStart_script hhook hscript hstart
    rw [hstart] at h
    cases hrun : cluaV_execute E N V rs n L₁ RS with
    | none =>
      simp only [hrun] at h
      cases failed <;> exact nomatch h
    | some r =>
      obtain ⟨e, L₂, RS₂⟩ := r
      obtain ⟨hcalls, hcount⟩ := cluaV_execute_kept hrun
      -- and its run gives none back
      have hran : Leaked true L L₂ :=
        ⟨by rw [hcalls, hentered.callers], fun hsize => hcalls ▸ hentered.size_ci hsize,
          hcount.trans hentered.nCcalls, hentered.limit⟩
      cases e with
      | hostError =>
        simp only [hrun] at h
        cases failed with
        | false => exact nomatch h
        | true =>
          obtain ⟨rfl, -⟩ := CallEnd.hostError.inj h
          exact hran
      | returned =>
        simp only [hrun] at h
        cases hfinish : finishCall E L₂ RS₂ with
        | returned L₃ RS₃ =>
          simp only [hfinish] at h
          cases failed with
          | true => exact nomatch h
          | false =>
            obtain ⟨rfl, -⟩ := CallEnd.returned.inj h
            exact adjustresults_leaked nresults (finishCall_leaked hgc hran hfinish)
        | hostError L₃ RS₃ =>
          unfold finishCall at hfinish
          split at hfinish <;> exact nomatch hfinish
        | luaError e L₃ =>
          simp only [hfinish] at h
          cases failed <;> exact nomatch h
        | running =>
          simp only [hfinish] at h
          cases failed <;> exact nomatch h

theorem not_balanced_of_leaked {func : Nat} {nresults : Int} {failed : Bool} {L L' : LState W}
    (h : Leaked failed L L') : ¬ Balanced func nresults failed L L' :=
  fun hbalanced => absurd (h.callers.symm.trans hbalanced.ci) (Nat.succ_ne_self _)

/-! ## One call after the other -/

/-- Between two calls the stack is used, but nothing is called. -/
structure Prepared (L L' : LState W) : Prop where
  callers : L'.calls.callers = L.calls.callers
  size_ci : L'.calls.size_ci = L.calls.size_ci
  nCcalls : L'.nCcalls = L.nCcalls

variable (E)

/-- `m` calls of scripts one after the other, `e` of which end by an exception. -/
inductive Invocations (N : Doubles) (V : RbxApi A) (rs : Addr) :
    Nat → Nat → LState W → LState W → Prop
  | none (L : LState W) : Invocations N V rs 0 0 L L
  | call {m e n nargs : Nat} {nresults : Int} {L L₁ L₂ L₃ : LState W} {RS : RbxState A}
      {failed : Bool} (before : Invocations N V rs m e L L₁) (prepared : Prepared L₁ L₂)
      (script : ScriptAt E (L₂.top - (nargs + 1)) L₂)
      (ends : (clua_call E N V rs n nargs nresults L₂ RS).EndsIn failed L₃) :
      Invocations N V rs (m + 1) (e + if failed then 1 else 0) L L₃

variable {E}

/-- Every call adds its record. -/
theorem invocations_depth (hhook : HookReturns E) (hgc : CollectorKeeps E) {N : Doubles}
    {V : RbxApi A} {rs : Addr} {m e : Nat} {L L' : LState W}
    (h : Invocations E N V rs m e L L') :
    L'.calls.callers.length = L.calls.callers.length + m
      ∧ (L.calls.size_ci ≤ LUAI_MAXCALLS → L'.calls.size_ci ≤ LUAI_MAXCALLS) := by
  induction h with
  | none L => exact ⟨rfl, id⟩
  | call before prepared script ends ih =>
    have hleak := clua_call_leaked hhook hgc script ends
    refine ⟨?_, fun hsize => hleak.size_ci (prepared.size_ci ▸ ih.2 hsize)⟩
    rw [hleak.callers, prepared.callers, ih.1, Nat.add_assoc]

/-- From a state without C calls, each call that an exception ended counts as one. -/
theorem invocations_nCcalls (hhook : HookReturns E) (hgc : CollectorKeeps E) {N : Doubles}
    {V : RbxApi A} {rs : Addr} {m e : Nat} {L L' : LState W}
    (h : Invocations E N V rs m e L L') (hzero : L.nCcalls = 0) :
    L'.nCcalls.toNat = e ∧ e < LUAI_MAXCCALLS := by
  induction h with
  | none L =>
    rw [hzero]
    decide
  | @call m e n nargs nresults L L₁ L₂ L₃ RS failed before prepared script ends ih =>
    have hleak := clua_call_leaked hhook hgc script ends
    obtain ⟨hcount, hlt⟩ := ih hzero
    have hnext : (L₂.nCcalls + 1).toNat = e + 1 := by
      have hfits : e + 1 < 2 ^ 16 := Nat.lt_of_le_of_lt hlt (by decide)
      rw [prepared.nCcalls, BitVec.toNat_add, hcount]
      exact Nat.mod_eq_of_lt hfits
    have hne : e + 1 ≠ LUAI_MAXCCALLS := fun heq => hleak.limit (Or.inl (hnext.trans heq))
    rw [hleak.nCcalls]
    cases failed with
    | true => exact ⟨hnext, Nat.lt_of_le_of_ne hlt hne⟩
    | false =>
      refine ⟨?_, hlt⟩
      rw [← prepared.nCcalls] at hcount
      exact (congrArg BitVec.toNat (BitVec.add_zero L₂.nCcalls)).trans hcount

/-- **`clua_call` is never balanced.** No call of a script that ends, normally or by an
exception of the host, leaves the calls as they were: the record stays, and so does the
C call after an exception. So there is no run of `LUAI_MAXCALLS` calls, and none in
which `LUAI_MAXCCALLS` end by an exception. -/
theorem clua_call_never_balanced (hhook : HookReturns E) (hgc : CollectorKeeps E) (N : Doubles)
    (V : RbxApi A) (rs : Addr) (L : LState W) :
    (∀ n nargs nresults RS failed L', ScriptAt E (L.top - (nargs + 1)) L →
      (clua_call E N V rs n nargs nresults L RS).EndsIn failed L' →
      ¬ Balanced (L.top - (nargs + 1)) nresults failed L L')
    ∧ ∀ m e L', Invocations E N V rs m e L L' →
      L'.calls.callers.length = L.calls.callers.length + m
      ∧ (L.calls.size_ci ≤ LUAI_MAXCALLS → m < LUAI_MAXCALLS)
      ∧ (L.nCcalls = 0 → L'.nCcalls.toNat = e ∧ e < LUAI_MAXCCALLS) := by
  refine ⟨fun n nargs nresults RS failed L' hscript hends => ?_, fun m e L' h => ?_⟩
  · exact not_balanced_of_leaked (clua_call_leaked hhook hgc hscript hends)
  · obtain ⟨hdepth, hsize⟩ := invocations_depth hhook hgc h
    refine ⟨hdepth, fun hmax => ?_, invocations_nCcalls hhook hgc h⟩
    have hlt : L'.calls.callers.length < L'.calls.size_ci := L'.calls.ci_lt
    have hle : L'.calls.size_ci ≤ LUAI_MAXCALLS := hsize hmax
    omega

end

/-! ## A value that is no function, and a script that returns -/

/-- Every function is `local a = true; local b = a`. -/
def scriptEnv : LuaEnv Unit := grantedEnv fun _ => .lua ⟨StaleStack.assigned.p, 0x100⟩

theorem grantedEnv_hook (clvalue : Nat → FunctionObject) : HookReturns (grantedEnv clvalue) := by
  intro event L L' h
  obtain ⟨-, rfl⟩ := EStateM.Result.ok.inj h
  exact CallKept.refl L

theorem grantedEnv_collector (clvalue : Nat → FunctionObject) :
    CollectorKeeps (grantedEnv clvalue) := by
  intro L L' h
  obtain ⟨-, rfl⟩ := EStateM.Result.ok.inj h
  exact CallKept.refl L

/-- A new state with the script at slot 1. -/
def pushed : LState Unit :=
  { newState with stack := Function.update newState.stack 1 (.object .function 0) }

/-- The script is running, and there is a nil at slot 35. -/
def running : LState Unit :=
  { secondCall with
    stack := Function.update secondCall.stack 1 (.object .function 0)
    savedpc := 0x100 }

theorem cluaD_call_runs_pushed :
    RunsNewFrames scriptEnv (cluaD_callStart scriptEnv 1 0) 1 pushed :=
  (cluaD_call_runs_iff (grantedEnv_hook _) 1 0 pushed (by decide)).1.mpr (Or.inl ⟨0, rfl⟩)

/-- **A call of nil executes the caller's code.** There is no new record, and the
interpreter runs the closure that was running, from its first instruction on. -/
theorem nil_runs_caller :
    functionRef (running.stack 35) = none
      ∧ cluaD_callStart scriptEnv 35 0 running = .ok true (counted running)
      ∧ ¬ RunsNewFrames scriptEnv (cluaD_callStart scriptEnv 35 0) 35 running
      ∧ runningClosure scriptEnv (counted running) = some ⟨StaleStack.assigned.p, 0x100⟩
      ∧ ∃ L' RS', cluaV_execute scriptEnv machineDoubles (rbxTables 0) 0 3 (counted running)
          StaleStack.thread = some (.returned, L', RS')
        ∧ (StaleStack.thread.stack 4).view = .nil ∧ (RS'.stack 4).view = .boolean 1 :=
  ⟨rfl, rfl, fun h => h.notFunction rfl (counted running) rfl, rfl, _, _, rfl, rfl, rfl⟩

/-- What the script's call leaves of the private state. -/
def leftover : LState Unit :=
  { framed ⟨StaleStack.assigned.p, 0x100⟩ 1 (saved pushed) ()
      ⟨⟨2, 1, 4, 0, 0, 0⟩, [⟨1, 0, 21, 0, 0, 0⟩], 8, secondCall.calls.ci_lt⟩ with
    savedpc := 0x100 }

theorem clua_call_leftover : ∃ RS',
    clua_call scriptEnv machineDoubles (rbxTables 0) 0 3 0 0 pushed
      StaleStack.thread = .returned leftover RS' :=
  ⟨_, rfl⟩

/-- **A script that returns leaves its record.** One call of `local a = true; local b = a`
ends at its `return` with one record more, another base, and no place for results. -/
theorem return_leaves_record :
    ∃ L' RS', clua_call scriptEnv machineDoubles (rbxTables 0) 0 3 0 0 pushed
        StaleStack.thread = .returned L' RS'
      ∧ pushed.calls.callers.length = 0 ∧ L'.calls.callers.length = 1
      ∧ pushed.base = 1 ∧ L'.base = 2 ∧ L'.top = 4
      ∧ ¬ Balanced 1 0 false pushed L' :=
  ⟨_, _, rfl, rfl, rfl, rfl, rfl, rfl, fun h => absurd h.ci (by decide)⟩

theorem clua_call_never_balanced_pushed :
    ¬ Balanced (pushed.top - (0 + 1)) 0 false pushed leftover :=
  (clua_call_never_balanced (grantedEnv_hook _) (grantedEnv_collector _)
    machineDoubles (rbxTables 0) 0 pushed).1 3 0 0 StaleStack.thread false
    leftover ⟨0, _, rfl, rfl⟩ clua_call_leftover

end NostalgiaConv.CluaCall
