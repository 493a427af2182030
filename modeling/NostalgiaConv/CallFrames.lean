/-
The call records and the stack of the private state, and how `vm/vm.cpp` and
`lua/ldo.c` enter a function.

The two files hold one text for this part: `cluaD_precall` is a copy of
`luaD_precall`, less the `__call` metamethod. `LUA_COMPAT_VARARG` is not defined, so
there is no `arg` table. A stack is indexed by slot; the memory behind it, hooks, C
functions and metamethods are parameters. `luaD_checkstack` makes room once, for
`maxstacksize` slots, and a vararg function then moves its parameters up.
-/
import NostalgiaConv.Hoare
import NostalgiaConv.StaleStack

set_option autoImplicit false

namespace NostalgiaConv.CallFrames

open NostalgiaConv.Cipher NostalgiaConv.Transpile NostalgiaConv.Relational NostalgiaConv.Interpreter
open NostalgiaConv.Hoare
open NostalgiaConv.Lvm (LuaValue LuaState)

/-! ## The private state -/

def EXTRA_STACK : Nat := 5
def LUA_MINSTACK : Nat := 20
def LUAI_MAXCALLS : Nat := 20000
def LUAI_MAXCCALLS : Nat := 200

/-- `CallInfo`. A place in code is counted in instructions. -/
structure CallInfo where
  base : Nat
  func : Nat
  top : Nat
  savedpc : Int
  nresults : Int
  tailcalls : Nat

/-- The array of call records: `L->ci`, those under it down to `base_ci`, and the
size of the array. -/
structure Calls where
  ci : CallInfo
  callers : List CallInfo
  size_ci : Nat
  ci_lt : callers.length < size_ci

/-- What the calls use of a `lua_State`. `hook` tells whether `L->hook` is set. -/
structure LState (W : Type) where
  world : W
  stack : Nat → LuaValue
  stack_last : Nat
  top : Nat
  base : Nat
  calls : Calls
  savedpc : Int
  nCcalls : BitVec 16
  hookmask : BitVec 8
  hook : Bool
  allowhook : Bool

/-- `luaD_reallocstack` asserts `stack_last - stack == stacksize - EXTRA_STACK - 1`. -/
def LState.stacksize {W : Type} (L : LState W) : Nat := L.stack_last + 1 + EXTRA_STACK

inductive LuaError where
  | runerror (msg : String) -- `luaG_runerror`
  | thrown (errcode : Int) -- `luaD_throw`
  | typeerror (op : String) -- `luaG_typeerror`
  | undefined -- the C program has no behaviour here

abbrev LOp (W α : Type) := EStateM LuaError (LState W) α

/-- A Lua closure: its proto, and where the proto's code lies. -/
structure LClosure where
  p : ProtoHead
  code : Int

inductive FunctionObject where
  | lua (cl : LClosure)
  | c

/-- What the calls rely on: the closures, `frealloc` by the bytes that are asked for,
`luaT_gettmbyobj(L, func, TM_CALL)`, the hook, the C functions, `luaC_checkGC`. -/
structure LuaEnv (W : Type) where
  clvalue : Nat → FunctionObject
  realloc : Nat → W → Except LuaError W
  gettmbyobj : LuaValue → W → LuaValue
  hook : Int → LOp W PUnit
  cfunction : Nat → LOp W Int
  checkGC : LOp W PUnit

/-! ## The array of call records -/

namespace Calls

/-- `++L->ci`, and what is stored there. -/
def next (c : Calls) (h : c.callers.length + 1 < c.size_ci) (ci : CallInfo) : Calls :=
  ⟨ci, c.ci :: c.callers, c.size_ci, h⟩

/-- `luaD_reallocCI(L, 2 * L->size_ci)` -/
def double (c : Calls) : Calls :=
  { c with size_ci := 2 * c.size_ci, ci_lt := by have := c.ci_lt; omega }

theorem double_room (c : Calls) : c.double.callers.length + 1 < c.double.size_ci := by
  have hlt : c.callers.length < c.size_ci := c.ci_lt
  show c.callers.length + 1 < 2 * c.size_ci
  omega

/-- `L->ci->savedpc = pc` -/
def savePc (c : Calls) (pc : Int) : Calls := { c with ci := { c.ci with savedpc := pc } }

/-- `L->ci->top = n` -/
def setTop (c : Calls) (n : Nat) : Calls := { c with ci := { c.ci with top := n } }

end Calls

section

variable {W : Type} (E : LuaEnv W)

/-! ## Growing -/

/-- `luaM_reallocvector`, for `n` elements of `e` bytes. -/
def luaM_reallocvector (n e : Nat) : LOp W PUnit := fun L =>
  match E.realloc (n * e) L.world with
  | .ok w => .ok ⟨⟩ { L with world := w }
  | .error err => .error err L

def luaD_reallocstack (newsize : Nat) : LOp W PUnit := do
  luaM_reallocvector E (newsize + 1 + EXTRA_STACK) 16
  update (fun L => { L with stack_last := newsize })

def luaD_growstack (n : Nat) : LOp W PUnit := do
  let stacksize ← look LState.stacksize
  if n ≤ stacksize then luaD_reallocstack E (2 * stacksize) -- double size is enough?
  else luaD_reallocstack E (stacksize + n)

def luaD_checkstack (n : Nat) : LOp W PUnit := do
  let room ← look (fun L => L.stack_last - L.top)
  when (room ≤ n) (luaD_growstack E n)

/-- `cgrowCI` and `growCI`, up to the increment. -/
def growCalls : LOp W PUnit := do
  let c ← look LState.calls
  if LUAI_MAXCALLS < c.size_ci then throw (.thrown 5) -- overflow while handling overflow?
  else do
    luaM_reallocvector E (2 * c.size_ci) 24
    update (fun L => { L with calls := c.double })
    when (LUAI_MAXCALLS < 2 * c.size_ci) (throw (.runerror "stack overflow"))

def cgrowCI : LOp W PUnit := growCalls E

def growCI : LOp W PUnit := growCalls E

/-- `inc_ci`, and the fields of the new record. -/
def inc_ci (grow : LOp W PUnit) (ci : CallInfo) : LOp W PUnit := do
  let c ← look LState.calls
  if h : c.callers.length + 1 < c.size_ci then
    update (fun L => { L with calls := c.next h ci })
  else do
    grow
    update (fun L => { L with calls := c.double.next c.double_room ci })

/-- `stack_last` once there is room for `n` slots above `top`. -/
def stackLimit (L : LState W) (n : Nat) : Nat :=
  if L.stack_last - L.top ≤ n then
    if n ≤ L.stacksize then 2 * L.stacksize else L.stacksize + n
  else L.stack_last

/-- The memory for that room. -/
def stackMemory (L : LState W) (n : Nat) : Except LuaError W :=
  if L.stack_last - L.top ≤ n then
    E.realloc ((stackLimit L n + 1 + EXTRA_STACK) * 16) L.world
  else .ok L.world

theorem luaD_reallocstack_eq (newsize : Nat) (L : LState W) :
    luaD_reallocstack E newsize L
      = match E.realloc ((newsize + 1 + EXTRA_STACK) * 16) L.world with
        | .ok w => .ok ⟨⟩ { L with world := w, stack_last := newsize }
        | .error err => .error err L := by
  simp only [luaD_reallocstack, luaM_reallocvector, bind, EStateM.bind]
  cases E.realloc ((newsize + 1 + EXTRA_STACK) * 16) L.world with
  | ok w => rfl
  | error err => rfl

/-- All that `luaD_checkstack` does. -/
theorem luaD_checkstack_eq (n : Nat) (L : LState W) :
    luaD_checkstack E n L
      = match stackMemory E L n with
        | .ok w => .ok ⟨⟩ { L with world := w, stack_last := stackLimit L n }
        | .error err => .error err L := by
  have hcheck : luaD_checkstack E n L
      = when (L.stack_last - L.top ≤ n) (luaD_growstack E n) L := rfl
  have hgrow : luaD_growstack E n L
      = (if n ≤ L.stacksize then luaD_reallocstack E (2 * L.stacksize)
        else luaD_reallocstack E (L.stacksize + n)) L := rfl
  rw [hcheck, when, stackMemory, stackLimit]
  by_cases hroom : L.stack_last - L.top ≤ n
  · rw [if_pos hroom, if_pos hroom, if_pos hroom, hgrow]
    by_cases hdouble : n ≤ L.stacksize
    · rw [if_pos hdouble, if_pos hdouble, luaD_reallocstack_eq]
    · rw [if_neg hdouble, if_neg hdouble, luaD_reallocstack_eq]
  · rw [if_neg hroom, if_neg hroom, if_neg hroom]
    rfl

/-- What it leaves when it returns. -/
theorem luaD_checkstack_ok {n : Nat} {L L' : LState W}
    (h : luaD_checkstack E n L = .ok ⟨⟩ L') :
    ∃ w, stackMemory E L n = .ok w ∧ L' = { L with world := w, stack_last := stackLimit L n } := by
  rw [luaD_checkstack_eq] at h
  cases hw : stackMemory E L n with
  | error err =>
    rw [hw] at h
    exact nomatch h
  | ok w =>
    rw [hw] at h
    obtain ⟨-, rfl⟩ := EStateM.Result.ok.inj h
    exact ⟨w, rfl, rfl⟩

/-- There is the room that was asked for. -/
theorem le_stackLimit {L : LState W} (htop : L.top ≤ L.stacksize) (n : Nat) :
    L.top + n ≤ stackLimit L n := by
  rw [stackLimit]
  split_ifs <;> omega

/-- The memory for one more call record. -/
def callMemory (c : Calls) (w : W) : Except LuaError W :=
  if c.callers.length + 1 < c.size_ci then .ok w
  else if LUAI_MAXCALLS < c.size_ci then .error (.thrown 5)
  else
    match E.realloc (2 * c.size_ci * 24) w with
    | .ok w => if LUAI_MAXCALLS < 2 * c.size_ci then .error (.runerror "stack overflow") else .ok w
    | .error err => .error err

theorem growCalls_eq (L : LState W) :
    growCalls E L
      = if LUAI_MAXCALLS < L.calls.size_ci then .error (.thrown 5) L
        else
          match E.realloc (2 * L.calls.size_ci * 24) L.world with
          | .ok w =>
            let L' := { L with world := w, calls := L.calls.double }
            if LUAI_MAXCALLS < 2 * L.calls.size_ci then .error (.runerror "stack overflow") L'
            else .ok ⟨⟩ L'
          | .error err => .error err L := by
  rw [growCalls, look_bind]
  by_cases hover : LUAI_MAXCALLS < L.calls.size_ci
  · rw [if_pos hover, if_pos hover]
    rfl
  · rw [if_neg hover, if_neg hover]
    simp only [luaM_reallocvector, bind, EStateM.bind]
    cases E.realloc (2 * L.calls.size_ci * 24) L.world with
    | error err => rfl
    | ok w =>
      by_cases hmax : LUAI_MAXCALLS < 2 * L.calls.size_ci
      · simp only [hmax, when, if_true]
        rfl
      · simp only [hmax, when, if_false]
        rfl

/-- The record that `inc_ci` makes, over those there were. -/
structure Entered (c c' : Calls) (ci : CallInfo) : Prop where
  ci : c'.ci = ci
  callers : c'.callers = c.ci :: c.callers
  size_ci : c.size_ci ≤ LUAI_MAXCALLS → c'.size_ci ≤ LUAI_MAXCALLS

/-- Where there is memory for a record it is entered, and nothing else changes. -/
theorem inc_ci_of_ok (ci : CallInfo) {L : LState W} {w : W}
    (h : callMemory E L.calls L.world = .ok w) : ∃ c, Entered L.calls c ci
      ∧ inc_ci (growCalls E) ci L = .ok ⟨⟩ { L with world := w, calls := c } := by
  rw [inc_ci, look_bind]
  rw [callMemory] at h
  by_cases hroom : L.calls.callers.length + 1 < L.calls.size_ci
  · rw [if_pos hroom] at h
    obtain rfl := Except.ok.inj h
    refine ⟨L.calls.next hroom ci, ⟨rfl, rfl, id⟩, ?_⟩
    rw [dif_pos hroom]
    rfl
  · rw [if_neg hroom] at h
    rw [dif_neg hroom]
    have hgrow := growCalls_eq E L
    by_cases hover : LUAI_MAXCALLS < L.calls.size_ci
    · rw [if_pos hover] at h
      exact nomatch h
    · rw [if_neg hover] at h hgrow
      cases hmem : E.realloc (2 * L.calls.size_ci * 24) L.world with
      | error err =>
        rw [hmem] at h
        exact nomatch h
      | ok w' =>
        rw [hmem] at h hgrow
        by_cases hmax : LUAI_MAXCALLS < 2 * L.calls.size_ci
        · simp only [hmax, if_true] at h
          exact nomatch h
        · simp only [hmax, if_false, Except.ok.injEq] at h hgrow
          subst h
          refine ⟨L.calls.double.next L.calls.double_room ci, ⟨rfl, rfl, fun _ => ?_⟩, ?_⟩
          · exact Nat.le_of_not_lt hmax
          · rw [bind_of_ok hgrow]
            rfl

/-- Where there is none it raises. -/
theorem inc_ci_of_error (ci : CallInfo) {L : LState W} {err : LuaError}
    (h : callMemory E L.calls L.world = .error err) :
    ∃ L', inc_ci (growCalls E) ci L = .error err L' := by
  rw [inc_ci, look_bind]
  rw [callMemory] at h
  by_cases hroom : L.calls.callers.length + 1 < L.calls.size_ci
  · rw [if_pos hroom] at h
    exact nomatch h
  · rw [if_neg hroom] at h
    rw [dif_neg hroom]
    have hgrow := growCalls_eq E L
    suffices hraise : ∃ L', growCalls E L = .error err L' by
      obtain ⟨L', hL'⟩ := hraise
      exact ⟨L', bind_eq_error.mpr (Or.inl hL')⟩
    by_cases hover : LUAI_MAXCALLS < L.calls.size_ci
    · rw [if_pos hover] at h hgrow
      obtain rfl := Except.error.inj h
      exact ⟨L, hgrow⟩
    · rw [if_neg hover] at h hgrow
      cases hmem : E.realloc (2 * L.calls.size_ci * 24) L.world with
      | error err' =>
        rw [hmem] at h hgrow
        obtain rfl := Except.error.inj h
        exact ⟨L, hgrow⟩
      | ok w =>
        rw [hmem] at h hgrow
        by_cases hmax : LUAI_MAXCALLS < 2 * L.calls.size_ci
        · simp only [hmax, if_true, Except.error.injEq] at h hgrow
          subst h
          exact ⟨_, hgrow⟩
        · simp only [hmax, if_false] at h
          exact nomatch h

/-- A record that was entered had its memory. -/
theorem inc_ci_ok {ci : CallInfo} {L L' : LState W}
    (h : inc_ci (growCalls E) ci L = .ok ⟨⟩ L') : ∃ w c, callMemory E L.calls L.world = .ok w
      ∧ Entered L.calls c ci ∧ L' = { L with world := w, calls := c } := by
  cases hmem : callMemory E L.calls L.world with
  | ok w =>
    obtain ⟨c, hc, hok⟩ := inc_ci_of_ok E ci hmem
    rw [hok] at h
    obtain ⟨-, rfl⟩ := EStateM.Result.ok.inj h
    exact ⟨w, c, rfl, hc, rfl⟩
  | error err =>
    obtain ⟨L₁, hraise⟩ := inc_ci_of_error E ci hmem
    rw [hraise] at h
    exact nomatch h

/-! ## The frame of a Lua function -/

/-- `adjust_varargs` without the `arg` table; the state afterwards, and the base. -/
def adjustVarargs (p : ProtoHead) (actual : Nat) (L : LState W) : LState W × Nat :=
  let nfixargs := p.numparams.toNat
  let missing := nfixargs - actual
  let stack := StaleStack.nilFrom missing L.top L.stack
  let top := L.top + missing
  let fixed := top - (actual + missing)
  ({ L with stack := StaleStack.moveFixed nfixargs fixed top stack, top := top + nfixargs }, top)

def cadjust_varargs (p : ProtoHead) (actual : Nat) (L : LState W) : LState W × Nat :=
  adjustVarargs p actual L

def adjust_varargs (p : ProtoHead) (actual : Nat) (L : LState W) : LState W × Nat :=
  adjustVarargs p actual L

/-- The arguments of a Lua function, and its base. -/
def placeArguments (adjust : ProtoHead → Nat → LState W → LState W × Nat) (p : ProtoHead)
    (func : Nat) (L : LState W) : LState W × Nat :=
  if p.is_vararg = 0 then
    let base := func + 1
    ({ L with top := if base + p.numparams.toNat < L.top then base + p.numparams.toNat
        else L.top }, base)
  else adjust p (L.top - func - 1) L

/-- The branch for a Lua function, up to the call hook. A new record's `savedpc` is
what the memory held, and is written before it is read. -/
def enterLua (adjust : ProtoHead → Nat → LState W → LState W × Nat) (grow : LOp W PUnit)
    (cl : LClosure) (func : Nat) (nresults : Int) : LOp W PUnit := do
  luaD_checkstack E cl.p.maxstacksize.toNat
  let base ← look (fun L => (placeArguments adjust cl.p func L).2)
  update (fun L => (placeArguments adjust cl.p func L).1)
  let ciTop := base + cl.p.maxstacksize.toNat
  inc_ci grow { base, func, top := ciTop, savedpc := 0, nresults, tailcalls := 0 }
  update (fun L => { L with
    base, savedpc := cl.code, stack := StaleStack.nilFrom (ciTop - L.top) L.top L.stack,
    top := ciTop })

/-- The base of the frame. -/
def frameBase (p : ProtoHead) (func : Nat) (L : LState W) : Nat :=
  if p.is_vararg = 0 then func + 1 else L.top + (p.numparams.toNat - (L.top - func - 1))

theorem lt_frameBase (p : ProtoHead) {func : Nat} {L : LState W} (hfunc : func < L.top) :
    func < frameBase p func L := by
  rw [frameBase]
  split_ifs <;> omega

/-- The record of the frame. -/
def frameInfo (p : ProtoHead) (func : Nat) (nresults : Int) (L : LState W) : CallInfo :=
  { base := frameBase p func L, func, top := frameBase p func L + p.maxstacksize.toNat,
    savedpc := 0, nresults, tailcalls := 0 }

/-- The state at the function's first instruction: its frame over `L`, with the
memory `w` and the records `c`. -/
def framed (cl : LClosure) (func : Nat) (L : LState W) (w : W) (c : Calls) : LState W :=
  let placed := (placeArguments cadjust_varargs cl.p func L).1
  let ciTop := frameBase cl.p func L + cl.p.maxstacksize.toNat
  { placed with
    world := w, stack_last := stackLimit L cl.p.maxstacksize.toNat, calls := c,
    base := frameBase cl.p func L, savedpc := cl.code,
    stack := StaleStack.nilFrom (ciTop - placed.top) placed.top placed.stack, top := ciTop }

/-- Arguments are placed without a look at the calls and the memory. -/
theorem placeArguments_grown (p : ProtoHead) (func : Nat) (L : LState W) (w : W) (n : Nat) :
    placeArguments cadjust_varargs p func { L with world := w, stack_last := n }
      = ({ (placeArguments cadjust_varargs p func L).1 with world := w, stack_last := n },
        frameBase p func L) := by
  rw [placeArguments, placeArguments, frameBase]
  by_cases hvararg : p.is_vararg = 0
  · rw [if_pos hvararg, if_pos hvararg, if_pos hvararg]
  · rw [if_neg hvararg, if_neg hvararg, if_neg hvararg]
    rfl

/-- They change the stack and the top only. -/
theorem placeArguments_fst (p : ProtoHead) (func : Nat) (L : LState W) :
    (placeArguments cadjust_varargs p func L).1
      = { L with
          stack := (placeArguments cadjust_varargs p func L).1.stack
          top := (placeArguments cadjust_varargs p func L).1.top } := by
  rw [placeArguments]
  split_ifs
  · rfl
  · rfl

theorem placeArguments_calls (p : ProtoHead) (func : Nat) (L : LState W) :
    (placeArguments cadjust_varargs p func L).1.calls = L.calls := by
  rw [placeArguments_fst]

theorem framed_nCcalls (cl : LClosure) (func : Nat) (L : LState W) (w : W) (c : Calls) :
    (framed cl func L w c).nCcalls = L.nCcalls := by
  show (placeArguments cadjust_varargs cl.p func L).1.nCcalls = L.nCcalls
  rw [placeArguments_fst]

/-- Without memory for the room nothing is entered. -/
theorem enterLua_of_error {cl : LClosure} {func : Nat} {nresults : Int} {L : LState W}
    {err : LuaError} (h : stackMemory E L cl.p.maxstacksize.toNat = .error err) :
    enterLua E cadjust_varargs (cgrowCI E) cl func nresults L = .error err L := by
  refine bind_eq_error.mpr (Or.inl ?_)
  rw [luaD_checkstack_eq, h]

/-- With it, what is left is the record. -/
theorem enterLua_of_memory {cl : LClosure} {func : Nat} {nresults : Int} {L : LState W} {w : W}
    (hw : stackMemory E L cl.p.maxstacksize.toNat = .ok w) :
    enterLua E cadjust_varargs (cgrowCI E) cl func nresults L
      = (inc_ci (growCalls E) (frameInfo cl.p func nresults L) >>= fun _ => update (fun L₁ =>
          let ciTop := frameBase cl.p func L + cl.p.maxstacksize.toNat
          { L₁ with
            base := frameBase cl.p func L, savedpc := cl.code,
            stack := StaleStack.nilFrom (ciTop - L₁.top) L₁.top L₁.stack, top := ciTop }))
        { (placeArguments cadjust_varargs cl.p func L).1 with
          world := w, stack_last := stackLimit L cl.p.maxstacksize.toNat } := by
  have hcheck := luaD_checkstack_eq E cl.p.maxstacksize.toNat L
  rw [hw] at hcheck
  rw [enterLua, bind_of_ok hcheck, look_bind, update_bind,
    placeArguments_grown]
  rfl

/-- Where there is memory for the room and the record, the frame is built. -/
theorem enterLua_of_ok {cl : LClosure} {func : Nat} (nresults : Int) {L : LState W} {w w' : W}
    (hw : stackMemory E L cl.p.maxstacksize.toNat = .ok w)
    (hw' : callMemory E L.calls w = .ok w') :
    ∃ c, Entered L.calls c (frameInfo cl.p func nresults L)
      ∧ enterLua E cadjust_varargs (cgrowCI E) cl func nresults L
        = .ok ⟨⟩ (framed cl func L w' c) := by
  rw [← placeArguments_calls cl.p func L] at hw'
  obtain ⟨c, hc, hinc⟩ := inc_ci_of_ok E (frameInfo cl.p func nresults L) (L :=
    { (placeArguments cadjust_varargs cl.p func L).1 with
      world := w, stack_last := stackLimit L cl.p.maxstacksize.toNat }) hw'
  rw [placeArguments_calls] at hc
  refine ⟨c, hc, ?_⟩
  rw [enterLua_of_memory E hw, bind_of_ok hinc]
  rfl

/-- A frame that was built had its memory. -/
theorem enterLua_ok {cl : LClosure} {func : Nat} {nresults : Int} {L L' : LState W}
    (h : enterLua E cadjust_varargs (cgrowCI E) cl func nresults L = .ok ⟨⟩ L') :
    ∃ w w' c, stackMemory E L cl.p.maxstacksize.toNat = .ok w ∧ callMemory E L.calls w = .ok w'
      ∧ Entered L.calls c (frameInfo cl.p func nresults L) ∧ L' = framed cl func L w' c := by
  cases hw : stackMemory E L cl.p.maxstacksize.toNat with
  | error err =>
    rw [enterLua_of_error E hw] at h
    exact nomatch h
  | ok w =>
    rw [enterLua_of_memory E hw] at h
    obtain ⟨⟨⟩, L₁, hinc, hlast⟩ := bind_eq_ok.mp h
    obtain ⟨w', c, hw', hc, rfl⟩ := inc_ci_ok E hinc
    obtain ⟨-, rfl⟩ := EStateM.Result.ok.inj hlast
    rw [placeArguments_calls] at hw' hc
    exact ⟨w, w', c, rfl, hw', hc, rfl⟩

/-- The state as `luaV_execute` has it, with the places in code counted from `code`. -/
def LState.view (code : Int) (env : Nat) (L : LState W) : LuaState W :=
  ⟨L.world, L.stack, L.base, L.top, L.calls.ci.top, L.savedpc - code, env⟩

/-- The frame is the one that `StaleStack` works with. -/
theorem framed_view {cl : LClosure} {func : Nat} {nresults : Int} {L : LState W} (w : W) {c : Calls}
    (hc : Entered L.calls c (frameInfo cl.p func nresults L)) (env : Nat) :
    (framed cl func L w c).view cl.code env
      = StaleStack.cluaD_precall cl.p func { L.view cl.code env with world := w } := by
  have htop : c.ci.top = frameBase cl.p func L + cl.p.maxstacksize.toNat := by rw [hc.ci]; rfl
  simp only [LState.view, framed, StaleStack.cluaD_precall, htop, Int.sub_self]
  simp only [placeArguments, frameBase]
  by_cases hvararg : cl.p.is_vararg = 0
  · simp only [if_pos hvararg]
    rfl
  · simp only [if_neg hvararg]
    rfl

/-! ## What is written, and how far up -/

/-- The slots that the loop for the fixed parameters writes. -/
def moveWrites : Nat → Nat → Nat → List Nat
  | 0, _, _ => []
  | n + 1, fixed, top => top :: fixed :: moveWrites n (fixed + 1) (top + 1)

/-- The slots that `cadjust_varargs` writes: first the padding, then the moves. -/
def varargWrites (p : ProtoHead) (func : Nat) (L : LState W) : List Nat :=
  let actual := L.top - func - 1
  let missing := p.numparams.toNat - actual
  let top := L.top + missing
  List.range' L.top missing ++ moveWrites p.numparams.toNat (top - (actual + missing)) top

theorem mem_moveWrites {n fixed top m : Nat} :
    m ∈ moveWrites n fixed top ↔ (top ≤ m ∧ m < top + n) ∨ (fixed ≤ m ∧ m < fixed + n) := by
  induction n generalizing fixed top with
  | zero =>
    simp only [moveWrites, List.not_mem_nil, false_iff]
    omega
  | succ n ih =>
    simp only [moveWrites, List.mem_cons, ih]
    omega

theorem moveFixed_of_notMem {n fixed top m : Nat} (stack : Nat → LuaValue)
    (h : m ∉ moveWrites n fixed top) : StaleStack.moveFixed n fixed top stack m = stack m := by
  induction n generalizing fixed top stack with
  | zero => rfl
  | succ n ih =>
    simp only [moveWrites, List.mem_cons, not_or] at h
    rw [StaleStack.moveFixed, ih _ h.2.2, Function.update_of_ne h.2.1, Function.update_of_ne h.1]

/-- No other slot is written. -/
theorem cadjust_varargs_of_notMem {p : ProtoHead} {func m : Nat} {L : LState W}
    (h : m ∉ varargWrites p func L) :
    (cadjust_varargs p (L.top - func - 1) L).1.stack m = L.stack m := by
  simp only [varargWrites, List.mem_append, not_or] at h
  show StaleStack.moveFixed _ _ _ _ m = L.stack m
  rw [moveFixed_of_notMem _ h.2, StaleStack.nilFrom_apply, if_neg]
  rw [List.mem_range'_1] at h
  exact h.1

/-- The highest slot written is that of the last fixed parameter. -/
theorem varargWrites_lt_iff {p : ProtoHead} {func : Nat} {L : LState W} (hfunc : func < L.top)
    (b : Nat) : (∀ m ∈ varargWrites p func L, m < b) ↔ p.numparams.toNat = 0
      ∨ L.top + (p.numparams.toNat - (L.top - func - 1)) + p.numparams.toNat ≤ b := by
  simp only [varargWrites, List.mem_append, List.mem_range'_1, mem_moveWrites]
  constructor
  · intro h
    by_cases hzero : p.numparams.toNat = 0
    · exact Or.inl hzero
    · have hlast := h (L.top + (p.numparams.toNat - (L.top - func - 1)) + p.numparams.toNat - 1)
        (by omega)
      omega
  · intro h m hm
    omega

/-- The function and what lies under it stay. -/
theorem framed_stack_le {cl : LClosure} {func : Nat} {L : LState W} (w : W) (c : Calls)
    (hfunc : func < L.top) {m : Nat} (hm : m ≤ func) :
    (framed cl func L w c).stack m = L.stack m := by
  show StaleStack.nilFrom _ (placeArguments cadjust_varargs cl.p func L).1.top
    (placeArguments cadjust_varargs cl.p func L).1.stack m = L.stack m
  rw [StaleStack.nilFrom_apply, placeArguments]
  by_cases hvararg : cl.p.is_vararg = 0
  · rw [if_pos hvararg]
    refine if_neg ?_
    dsimp only
    split_ifs <;> omega
  · rw [if_neg hvararg, cadjust_varargs_of_notMem]
    · refine if_neg ?_
      show ¬ (L.top + (cl.p.numparams.toNat - (L.top - func - 1)) + cl.p.numparams.toNat ≤ m ∧ _)
      omega
    · simp only [varargWrites, List.mem_append, List.mem_range'_1, mem_moveWrites]
      omega

/-! ## Frames and the end of the stack -/

/-- Every write of `cadjust_varargs` lies below `stack_last`, and so does the frame. -/
structure FrameInBounds (cl : LClosure) (func : Nat) (nresults : Int) (L : LState W) : Prop where
  writes : ∀ L', luaD_checkstack E cl.p.maxstacksize.toNat L = .ok ⟨⟩ L' → cl.p.is_vararg ≠ 0 →
    ∀ m ∈ varargWrites cl.p func L', m < L'.stack_last
  ciTop : ∀ L', enterLua E cadjust_varargs (cgrowCI E) cl func nresults L = .ok ⟨⟩ L' →
    L'.calls.ci.top ≤ L'.stack_last

/-- The parameters of `p` that the call leaves out. -/
def missingParams (p : ProtoHead) (func : Nat) (L : LState W) : Nat :=
  p.numparams.toNat - (L.top - func - 1)

/-- The condition on the state before the call. The last case is that of a call that
raises before its frame is built, with room for the parameters. -/
def FrameFits (cl : LClosure) (func : Nat) (L : LState W) : Prop :=
  let limit := stackLimit L cl.p.maxstacksize.toNat
  cl.p.is_vararg = 0 ∨ L.top + missingParams cl.p func L + cl.p.maxstacksize.toNat ≤ limit
    ∨ ∀ w, stackMemory E L cl.p.maxstacksize.toNat = .ok w →
      (∃ err, callMemory E L.calls w = .error err)
        ∧ L.top + missingParams cl.p func L + cl.p.numparams.toNat ≤ limit

/-- The writes are judged in the state that `luaD_checkstack` leaves. -/
theorem writes_in_bounds_iff {cl : LClosure} {func : Nat} {L : LState W} (hfunc : func < L.top)
    (htop : L.top ≤ L.stacksize) (hparams : cl.p.numparams.toNat ≤ cl.p.maxstacksize.toNat) {w : W}
    (hw : stackMemory E L cl.p.maxstacksize.toNat = .ok w) :
    (∀ L', luaD_checkstack E cl.p.maxstacksize.toNat L = .ok ⟨⟩ L' →
      ∀ m ∈ varargWrites cl.p func L', m < L'.stack_last)
      ↔ L.top + missingParams cl.p func L + cl.p.numparams.toNat
        ≤ stackLimit L cl.p.maxstacksize.toNat := by
  have hroom : L.top + cl.p.maxstacksize.toNat ≤ stackLimit L cl.p.maxstacksize.toNat :=
    le_stackLimit htop _
  have hcheck := luaD_checkstack_eq E cl.p.maxstacksize.toNat L
  rw [hw] at hcheck
  rw [hcheck]
  have hlt := varargWrites_lt_iff (p := cl.p) (L := { L with
    world := w, stack_last := stackLimit L cl.p.maxstacksize.toNat }) hfunc
    (stackLimit L cl.p.maxstacksize.toNat)
  constructor
  · intro h
    rcases hlt.mp (h _ rfl) with hzero | hle
    -- without parameters there is nothing to write
    · rw [missingParams]
      omega
    · exact hle
  · intro h L' hL'
    obtain ⟨-, rfl⟩ := EStateM.Result.ok.inj hL'
    exact hlt.mpr (Or.inr h)

/-- **Where a frame stays on the stack.** A fixed-arity frame always does. That of a
vararg function does if and only if there is room for the parameters left out on top
of `maxstacksize`, or the call raises before the frame is built and the moved
parameters fit. -/
theorem frameInBounds_iff (cl : LClosure) (func : Nat) (nresults : Int) (L : LState W)
    (hfunc : func < L.top) (htop : L.top ≤ L.stacksize)
    (hparams : cl.p.numparams.toNat ≤ cl.p.maxstacksize.toNat) :
    FrameInBounds E cl func nresults L ↔ FrameFits E cl func L := by
  have hroom : L.top + cl.p.maxstacksize.toNat ≤ stackLimit L cl.p.maxstacksize.toNat :=
    le_stackLimit htop _
  constructor
  · intro h
    by_cases hvararg : cl.p.is_vararg = 0
    · exact Or.inl hvararg
    refine Or.inr (or_iff_not_imp_left.mpr fun hfull w hw => ⟨?_, ?_⟩)
    · cases hw' : callMemory E L.calls w with
      | error err => exact ⟨err, rfl⟩
      | ok w' =>
        -- the frame would be built, and too high
        obtain ⟨c, hc, hok⟩ := enterLua_of_ok E nresults hw hw'
        have htop' := h.ciTop _ hok
        rw [framed, hc.ci, frameInfo, frameBase, if_neg hvararg] at htop'
        exact absurd htop' hfull
    · exact (writes_in_bounds_iff E hfunc htop hparams hw).mp (fun L' hL' => h.writes L' hL' hvararg)
  · intro h
    constructor
    · intro L' hL' hvararg
      obtain ⟨w, hw, -⟩ := luaD_checkstack_ok E hL'
      refine (writes_in_bounds_iff E hfunc htop hparams hw).mpr ?_ L' hL'
      rcases h with hfixed | hfits | hraises
      · exact absurd hfixed hvararg
      · omega
      · exact (hraises w hw).2
    · intro L' hL'
      obtain ⟨w, w', c, hw, hw', hc, rfl⟩ := enterLua_ok E hL'
      have htop' : c.ci.top = frameBase cl.p func L + cl.p.maxstacksize.toNat := by rw [hc.ci]; rfl
      show c.ci.top ≤ stackLimit L cl.p.maxstacksize.toNat
      rw [htop', frameBase]
      rcases h with hfixed | hfits | hraises
      · rw [if_pos hfixed]
        omega
      · split_ifs
        · omega
        · exact hfits
      · obtain ⟨⟨err, herr⟩, -⟩ := hraises w hw
        rw [hw'] at herr
        exact nomatch herr

end

/-! ## A call that leaves two parameters out -/

/-- Memory is always granted; there are no hooks, metamethods or C functions. -/
def grantedEnv (clvalue : Nat → FunctionObject) : LuaEnv Unit where
  clvalue := clvalue
  realloc _ w := .ok w
  gettmbyobj _ _ := .nil
  hook _ := pure ⟨⟩
  cfunction _ := pure 0
  checkGC := pure ⟨⟩

/-- `function (a, b, ...)` of a precompiled chunk, in two registers. -/
def twoParams : LClosure :=
  ⟨{ BumpHost.leafHead [] [] BumpHost.noConstants_fit BumpHost.noWords_fit with numparams := 2 },
    0x100⟩

/-- A new state, with a function pushed at slot 1. -/
def newState : LState Unit where
  world := ()
  stack _ := .nil
  stack_last := 39
  top := 2
  base := 1
  calls := ⟨⟨1, 0, 21, 0, 0, 0⟩, [], 8, by decide⟩
  savedpc := 0
  nCcalls := 0
  hookmask := 0
  hook := false
  allowhook := true

/-- The state after a chunk of 33 registers was called there, and the next function
pushed. -/
def secondCall : LState Unit :=
  { newState with
    top := 36
    base := 2
    calls := ⟨⟨2, 1, 35, 0, 0, 0⟩, [⟨1, 0, 21, 0, 0, 0⟩], 8, by decide⟩ }

theorem frameInBounds_low :
    FrameInBounds (grantedEnv fun _ => .c) twoParams 1 0 newState :=
  (frameInBounds_iff (grantedEnv fun _ => .c) twoParams 1 0 newState (by decide) (by decide)
    (by decide)).mpr (Or.inr (Or.inl (by decide)))

/-- **A frame past the end of the stack.** The function is at slot 35 and gets no
arguments. Three slots are free, which is more than its two registers, so the stack
does not grow; the second parameter is moved to `stack_last` itself. -/
theorem vararg_frame_past_stack_last :
    twoParams.p.numparams.toNat ≤ twoParams.p.maxstacksize.toNat
      ∧ twoParams.p.maxstacksize.toNat ≤ 250
      ∧ (∃ L', enterLua (grantedEnv fun _ => .c) cadjust_varargs (cgrowCI (grantedEnv fun _ => .c))
          twoParams 35 0 secondCall = .ok ⟨⟩ L' ∧ L'.calls.ci.top = L'.stack_last + 1)
      ∧ secondCall.stack_last ∈ varargWrites twoParams.p 35 secondCall
      ∧ ¬ FrameInBounds (grantedEnv fun _ => .c) twoParams 35 0 secondCall := by
  refine ⟨by decide, by decide, ⟨_, rfl, rfl⟩, by decide, fun h => ?_⟩
  exact absurd (h.ciTop _ rfl) (by decide)

end NostalgiaConv.CallFrames
