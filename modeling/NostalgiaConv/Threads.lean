/-
The threads of the host, and the functions of `vm/vm.cpp` that the host calls.

`LaunchVMClosure` and `ResumeVMClosure` run a script in a protected call on a thread of
the host, and tell by the text of the error whether the script has yielded. What they
use of the host is `ThreadApi`, a parameter; `AsInLua` is what is relied on, which is
what Lua's own functions of these names do. Each invocation keeps a record of what it
pushes. Allocations of the host are taken to succeed here.
-/
import NostalgiaConv.Interpreter
import NostalgiaConv.Launches

set_option autoImplicit false

namespace NostalgiaConv.Threads

open NostalgiaConv.Cipher NostalgiaConv.Host NostalgiaConv.Value NostalgiaConv.Relational
open NostalgiaConv.Interpreter NostalgiaConv.Launches

/-! ## Threads -/

/-- A call record. -/
structure CallInfo where
  func : Nat
  base : Nat
  top : Nat
  nresults : Int
  savedpc : Word

/-- A thread: its stack, the pointers at `+0x1C` and `+0x10`, the call record at `+0xC` and
those under it, the globals and the saved program counter. -/
structure Thread where
  stack : Nat → TValue
  base : Nat
  top : Nat
  ci : CallInfo
  callers : List CallInfo
  l_gt : TValue
  savedpc : Word

structure HostThreads (A : Type) where
  host : HostState A
  thread : Addr → Thread

/-- `LUA_MINSTACK` -/
def LUA_MINSTACK : Nat := 20

namespace Thread

/-- A value at the top. -/
def push (v : TValue) (t : Thread) : Thread :=
  { t with stack := Function.update t.stack t.top v, top := t.top + 1 }

/-- The value under the top is replaced. -/
def replace (v : TValue) (t : Thread) : Thread :=
  { t with stack := Function.update t.stack (t.top - 1) v }

def pop (t : Thread) : Thread := { t with top := t.top - 1 }

/-- `index2adr(L, -1)` -/
def last (t : Thread) : TValue := t.stack (t.top - 1)

@[simp] theorem push_top (v : TValue) (t : Thread) : (t.push v).top = t.top + 1 := rfl

@[simp] theorem pop_top (t : Thread) : t.pop.top = t.top - 1 := rfl

@[simp] theorem push_last (v : TValue) (t : Thread) : (t.push v).last = v := by
  show Function.update t.stack t.top v (t.top + 1 - 1) = v
  rw [Nat.add_sub_cancel, Function.update_self]

/-- A closure with one upvalue takes the upvalue's place. -/
theorem push_replace (v w : TValue) (t : Thread) : (t.push v).replace w = t.push w := by
  unfold push replace
  simp only [Nat.add_sub_cancel, Function.update_idem]

/-- `luaD_precall` of a C function without arguments, up to the call. -/
def luaD_precall (nresults : Int) (t : Thread) : Thread :=
  { t with
    base := t.top
    -- the program counter of the new record is not set, and not read before it is
    ci := ⟨t.top - 1, t.top, t.top + LUA_MINSTACK, nresults, 0⟩
    callers := { t.ci with savedpc := t.savedpc } :: t.callers }

/-- `for (i = wanted; i != 0 && firstResult < L->top; i--)`, with the distance of
`firstResult` from the top: how many are still wanted, the next place, and the stack. -/
def moveResults : Nat → Int → Nat → Nat → (Nat → TValue) → Int × Nat × (Nat → TValue)
  | 0, i, res, _, stack => (i, res, stack)
  | n + 1, i, res, firstResult, stack =>
    if i = 0 then (i, res, stack)
    else moveResults n (i - 1) (res + 1) (firstResult + 1)
      (Function.update stack res (stack firstResult))

/-- `while (i-- > 0) setnilvalue(res++)` -/
def nilResults : Nat → Nat → (Nat → TValue) → Nat × (Nat → TValue)
  | 0, res, stack => (res, stack)
  | i + 1, res, stack =>
    nilResults i (res + 1) (Function.update stack res { stack res with tt := RBX_TYPE_NIL })

/-- `luaD_poscall`, when there is a call to finish and no hook for returns. -/
def luaD_poscall (firstResult : Nat) (t : Thread) (caller : CallInfo) (callers : List CallInfo) :
    Int × Thread :=
  let moved := moveResults (t.top - firstResult) t.ci.nresults t.ci.func firstResult t.stack
  let filled := nilResults moved.1.toNat moved.2.1 moved.2.2
  (t.ci.nresults + 1,
    { t with
      stack := filled.2, base := caller.base, top := filled.1, ci := caller, callers
      savedpc := caller.savedpc })

theorem moveResults_zero (n res firstResult : Nat) (stack : Nat → TValue) :
    moveResults n 0 res firstResult stack = (0, res, stack) := by
  cases n with
  | zero => rfl
  | succ n => exact if_pos rfl

/-- A call that wants no results gives its slot back. -/
theorem luaD_poscall_zero {firstResult : Nat} {t : Thread} (h : t.ci.nresults = 0)
    (caller : CallInfo) (callers : List CallInfo) :
    luaD_poscall firstResult t caller callers
      = (1, { t with
          base := caller.base, top := t.ci.func, ci := caller, callers
          savedpc := caller.savedpc }) := by
  unfold luaD_poscall
  rw [h, moveResults_zero]
  rfl

end Thread

namespace HostThreads

variable {A : Type}

def set (a : Addr) (t : Thread) (s : HostThreads A) : HostThreads A :=
  { s with thread := Function.update s.thread a t }

/-- `*(a + 0x10) = n` -/
def setTop (a : Addr) (n : Nat) (s : HostThreads A) : HostThreads A :=
  s.set a { s.thread a with top := n }

@[simp] theorem set_same (a : Addr) (t : Thread) (s : HostThreads A) : (s.set a t).thread a = t := by
  show Function.update s.thread a t a = t
  rw [Function.update_self]

theorem set_other {a b : Addr} (h : b ≠ a) (t : Thread) (s : HostThreads A) :
    (s.set a t).thread b = s.thread b := by
  show Function.update s.thread a t b = s.thread b
  rw [Function.update_of_ne h]

end HostThreads

/-! ## What is used of the host -/

/-- How a protected call ends. -/
inductive Outcome where
  | finished
  | yielded -- by a function of the host
  | failed (v : TValue) -- with any error value

/-- What `rbx_pcall` returns: zero, or `LUA_ERRRUN`. -/
def Outcome.status : Outcome → Int
  | .finished => 0
  | .yielded | .failed _ => 2

theorem failed_status (v : TValue) : (Outcome.failed v).status ≠ 0 := by
  show (2 : Int) ≠ 0
  decide

/-- The functions of the host that work on threads. Upvalues are left out: a closure with one
takes it from the top of the stack. `rbx_tostring` is of the value at the top. -/
structure ThreadApi (A : Type) where
  rbx_newthread (RS : Addr) : HostThreads A → Addr × HostThreads A
  rbx_setfield (RS : Addr) : HostThreads A → HostThreads A
  rbx_pushnumber (RS : Addr) (n : Int) : HostThreads A → HostThreads A
  rbx_pushcclosure (RS : Addr) (fn : HostFunction) : HostThreads A → HostThreads A
  rbx_tostring (RS : Addr) : HostThreads A → Option (List Byte) × HostThreads A
  rbx_pcall (RS : Addr) : HostThreads A → Outcome × HostThreads A
  rbxD_poscall (RS : Addr) (firstResult : Nat) : HostThreads A → Int × HostThreads A

/-- What a yield is reported as when it cannot be one. -/
def yieldMessage : List Byte := chars "attempt to yield across metamethod/C-call boundary"

/-- The values that have a text. -/
def HasText (v : TValue) : Prop := v.tt = RBX_TYPE_STRING ∨ v.tt = RBX_TYPE_NUMBER

/-- The other threads are where they were. -/
def KeepsOthers {A : Type} (a : Addr) (s s' : HostThreads A) : Prop :=
  ∀ b, b ≠ a → (s'.thread b).top = (s.thread b).top ∧ (s'.thread b).base = (s.thread b).base

/-- The host's functions do what Lua's do. -/
structure AsInLua {A : Type} (E : ThreadApi A) : Prop where
  newthread {RS s t s'} (h : E.rbx_newthread RS s = (t, s')) :
    t ≠ RS ∧ (s'.thread t).base = (s'.thread t).top ∧ (s'.thread t).ci.base = (s'.thread t).base
      ∧ ∃ v, s'.thread RS = (s.thread RS).push v
  setfield (RS s) : (E.rbx_setfield RS s).thread = Function.update s.thread RS (s.thread RS).pop
  pushnumber (RS n s) : ∃ v, (E.rbx_pushnumber RS n s).thread
    = Function.update s.thread RS ((s.thread RS).push v)
  pushcclosure (RS fn s) : ∃ v, v.tt = RBX_TYPE_FUNCTION ∧ (E.rbx_pushcclosure RS fn s).thread
    = Function.update s.thread RS ((s.thread RS).replace v)
  tostring_null (RS s) : (E.rbx_tostring RS s).1 = none ↔ ¬ HasText (s.thread RS).last
  tostring_again (RS s) : (E.rbx_tostring RS (E.rbx_tostring RS s).2).1 = (E.rbx_tostring RS s).1
  tostring_others (RS s) : KeepsOthers RS s (E.rbx_tostring RS s).2
  pcall_failed {RS s v s'} (h : E.rbx_pcall RS s = (.failed v, s')) : (s'.thread RS).last = v
  pcall_yielded {RS s s'} (h : E.rbx_pcall RS s = (.yielded, s')) :
    (E.rbx_tostring RS s').1 = some yieldMessage
  poscall {RS s caller callers} (firstResult) (h : (s.thread RS).callers = caller :: callers) :
    (E.rbxD_poscall RS firstResult s).1
        = ((s.thread RS).luaD_poscall firstResult caller callers).1
      ∧ (E.rbxD_poscall RS firstResult s).2.thread RS
        = ((s.thread RS).luaD_poscall firstResult caller callers).2

/-! ## Invocations -/

/-- How an invocation ends, other than by returning. -/
inductive Leave where
  | nullString -- `strcmp` of a null pointer
  | raised -- an error that unwinds through it
  deriving DecidableEq

/-- A push: where, and which function, if it is one. -/
structure Push where
  thread : Addr
  slot : Nat
  fn : Option HostFunction

/-- The threads, and what this invocation has pushed so far, which is not in the program. -/
structure Invocation (A : Type) where
  host : HostThreads A
  pushed : List Push

abbrev ClosureM (A : Type) := EStateM Leave (Invocation A)

section

variable {A : Type} (E : ThreadApi A)

def newthread (RS : Addr) : ClosureM A Addr := fun c =>
  let r := E.rbx_newthread RS c.host
  .ok r.1 ⟨r.2, c.pushed ++ [⟨RS, (c.host.thread RS).top, none⟩]⟩

def setfield (RS : Addr) : ClosureM A PUnit :=
  update (fun c => { c with host := E.rbx_setfield RS c.host })

def pushnumber (RS : Addr) (n : Int) : ClosureM A PUnit :=
  update (fun c => ⟨E.rbx_pushnumber RS n c.host,
    c.pushed ++ [⟨RS, (c.host.thread RS).top, none⟩]⟩)

/-- With one upvalue. -/
def pushcclosure (RS : Addr) (fn : HostFunction) : ClosureM A PUnit :=
  update (fun c => ⟨E.rbx_pushcclosure RS fn c.host,
    c.pushed ++ [⟨RS, (c.host.thread RS).top - 1, some fn⟩]⟩)

def tostring (RS : Addr) : ClosureM A (Option (List Byte)) := fun c =>
  let r := E.rbx_tostring RS c.host
  .ok r.1 { c with host := r.2 }

def pcall (RS : Addr) : ClosureM A Int := fun c =>
  let r := E.rbx_pcall RS c.host
  .ok r.1.status { c with host := r.2 }

/-- `!strcmp(p, q)` -/
def strcmpEq (p : Option (List Byte)) (q : List Byte) : ClosureM A Bool :=
  match p with
  | some bytes => pure (untilZero bytes = q)
  | none => throw .nullString

/-- `*(RS + 0x10) = *(RS + 0x1C)` -/
def clearStack (RS : Addr) : ClosureM A PUnit :=
  update (fun c => { c with host := c.host.setTop RS (c.host.thread RS).base })

/-! ## The functions -/

/-- The protected call of both functions, and what follows it. The error is read once to
print it, and once to compare it. -/
def protectedRun (RS : Addr) (index : Int) (otherwise : ClosureM A PUnit) : ClosureM A PUnit := do
  let status ← pcall E RS
  if status ≠ 0 then do
    let _ ← tostring E RS
    let msg ← tostring E RS
    if ← strcmpEq msg yieldMessage then do
      clearStack RS
      pushnumber E RS index
      pushcclosure E RS .ResumeVMClosure
    else pure ⟨⟩
  else otherwise

/-- Up to the protected call. -/
def prepareLaunch (index : Int) (information : SharedVMState) : ClosureM A PUnit := do
  pushnumber E information.RS index
  pushcclosure E information.RS .CallVMClosure

/-- The index in the upvalue, and the record that it leads to. -/
def LaunchVMClosure (index : Int) (information : SharedVMState) : ClosureM A Nat := do
  prepareLaunch E index information
  protectedRun E information.RS index (pure ⟨⟩)
  pure 0

/-- Up to the protected call; the new thread is returned. -/
def prepareResume (RS : Addr) (index : Int) : ClosureM A Addr := do
  let resumeThread ← newthread E RS
  setfield E RS
  pushnumber E resumeThread index
  pushcclosure E resumeThread .ResumeVMClosureInternal
  pure resumeThread

def ResumeVMClosure (RS : Addr) (index : Int) : ClosureM A Nat := do
  let resumeThread ← prepareResume E RS index
  protectedRun E resumeThread index (pushnumber E RS 1)
  pure 1

/-- With `clua_call` of the script's function. -/
def CallVMClosure (clua_call : ClosureM A PUnit) : ClosureM A Nat := do
  clua_call
  pure 0

/-- With the loop over the scripts. -/
def RenderSteppedFunc (vState : Bool) (drain : ClosureM A PUnit) : ClosureM A Nat := do
  when (vState = true) drain
  pure 0

/-- Up to `cluaV_execute`. -/
def ResumeVMClosureInternal (RS : Addr) (s : HostThreads A) : HostThreads A :=
  let firstArg := (s.thread RS).base
  let r := E.rbxD_poscall RS firstArg s
  if r.1 ≠ 0 then r.2.setTop RS (r.2.thread RS).ci.top else r.2

end

/-! ## What an invocation does -/

section

variable {A : Type} {E : ThreadApi A} {RS : Addr} {index : Int} {otherwise : ClosureM A PUnit}
  {c : Invocation A} {s s' : HostThreads A}

theorem strcmpEq_some (bytes q : List Byte) (c : Invocation A) :
    strcmpEq (some bytes) q c = .ok (decide (untilZero bytes = q)) c := rfl

/-- A run that finished. -/
theorem protectedRun_finished (h : E.rbx_pcall RS c.host = (.finished, s')) :
    protectedRun E RS index otherwise c = otherwise { c with host := s' } := by
  have hcall : pcall E RS c = .ok 0 { c with host := s' } := by
    unfold pcall
    rw [h]
    rfl
  exact bind_of_ok hcall

/-- What comes after a run that did not. -/
def afterError (E : ThreadApi A) (RS : Addr) (index : Int) : ClosureM A PUnit := do
  let _ ← tostring E RS
  let msg ← tostring E RS
  if ← strcmpEq msg yieldMessage then do
    clearStack RS
    pushnumber E RS index
    pushcclosure E RS .ResumeVMClosure
  else pure ⟨⟩

theorem protectedRun_error {o : Outcome} (h : E.rbx_pcall RS c.host = (o, s')) (ho : o.status ≠ 0) :
    protectedRun E RS index otherwise c = afterError E RS index { c with host := s' } := by
  have hcall : pcall E RS c = .ok o.status { c with host := s' } := by
    unfold pcall
    rw [h]
  refine (bind_of_ok hcall).trans ?_
  rw [if_pos ho]
  rfl

/-- The state when the error has been read twice. -/
def readTwice (E : ThreadApi A) (RS : Addr) (s : HostThreads A) : HostThreads A :=
  (E.rbx_tostring RS (E.rbx_tostring RS s).2).2

/-- The comparison, on the text of the error. -/
theorem afterError_run (hE : AsInLua E) :
    afterError E RS index c
      = (strcmpEq (E.rbx_tostring RS c.host).1 yieldMessage >>= fun same =>
          if same then do
            clearStack RS
            pushnumber E RS index
            pushcclosure E RS .ResumeVMClosure
          else pure ⟨⟩) { c with host := readTwice E RS c.host } := by
  rw [← hE.tostring_again]
  rfl

/-- An error without a text is the end of the process. -/
theorem afterError_null (hE : AsInLua E) (h : (E.rbx_tostring RS c.host).1 = none) :
    afterError E RS index c = .error .nullString { c with host := readTwice E RS c.host } := by
  rw [afterError_run hE, h]
  rfl

/-- Another error is left where it is. -/
theorem afterError_other (hE : AsInLua E) {text : List Byte}
    (h : (E.rbx_tostring RS c.host).1 = some text) (hne : untilZero text ≠ yieldMessage) :
    afterError E RS index c = .ok ⟨⟩ { c with host := readTwice E RS c.host } := by
  rw [afterError_run hE, h]
  refine (bind_of_ok (strcmpEq_some _ _ _)).trans ?_
  rw [decide_eq_false hne]
  rfl

/-- What the handler's installation does. -/
def installed (E : ThreadApi A) (RS : Addr) (index : Int) (c : Invocation A) : Invocation A :=
  let s₁ := c.host.setTop RS (c.host.thread RS).base
  let s₂ := E.rbx_pushnumber RS index s₁
  ⟨E.rbx_pushcclosure RS .ResumeVMClosure s₂,
    c.pushed ++ [⟨RS, (s₁.thread RS).top, none⟩]
      ++ [⟨RS, (s₂.thread RS).top - 1, some .ResumeVMClosure⟩]⟩

/-- An error with the text of a yield: the handler is installed. -/
theorem afterError_yield (hE : AsInLua E) {text : List Byte}
    (h : (E.rbx_tostring RS c.host).1 = some text) (heq : untilZero text = yieldMessage) :
    afterError E RS index c
      = .ok ⟨⟩ (installed E RS index { c with host := readTwice E RS c.host }) := by
  rw [afterError_run hE, h]
  refine (bind_of_ok (strcmpEq_some _ _ _)).trans ?_
  rw [decide_eq_true heq]
  rfl

end

/-! ## What is called -/

section

variable {A : Type} (E : ThreadApi A) (RS : Addr) (index : Int) (information : SharedVMState)
  (s : HostThreads A)

/-- In which state `LaunchVMClosure` makes its call. -/
def launchState : HostThreads A :=
  E.rbx_pushcclosure information.RS .CallVMClosure (E.rbx_pushnumber information.RS index s)

/-- On which thread `ResumeVMClosure` makes its call. -/
def resumeThread : Addr := (E.rbx_newthread RS s).1

/-- In which state. -/
def resumeState : HostThreads A :=
  let t := resumeThread E RS s
  let s := E.rbx_pushnumber t index (E.rbx_setfield RS (E.rbx_newthread RS s).2)
  E.rbx_pushcclosure t .ResumeVMClosureInternal s

/-- What it has pushed. -/
def resumePushes : List Push :=
  let t := resumeThread E RS s
  let s₁ := E.rbx_setfield RS (E.rbx_newthread RS s).2
  let s₂ := E.rbx_pushnumber t index s₁
  [⟨RS, (s.thread RS).top, none⟩, ⟨t, (s₁.thread t).top, none⟩,
    ⟨t, (s₂.thread t).top - 1, some .ResumeVMClosureInternal⟩]

theorem launchVMClosure_run :
    ∃ pushes, LaunchVMClosure E index information ⟨s, []⟩
        = (protectedRun E information.RS index (pure ⟨⟩) >>= fun _ => pure 0)
          ⟨launchState E index information s, pushes⟩
      ∧ ∀ p ∈ pushes, p.fn ≠ some .ResumeVMClosure := by
  refine ⟨[⟨information.RS, _, none⟩, ⟨information.RS, _, some .CallVMClosure⟩], rfl, ?_⟩
  intro p hp
  simp only [List.mem_cons, List.not_mem_nil, or_false] at hp
  rcases hp with rfl | rfl
  · exact nofun
  · exact nofun

theorem resumeVMClosure_run :
    ResumeVMClosure E RS index ⟨s, []⟩
      = (protectedRun E (resumeThread E RS s) index (pushnumber E RS 1) >>= fun _ => pure 1)
        ⟨resumeState E RS index s, resumePushes E RS index s⟩ := rfl

theorem resumePushes_fn : ∀ p ∈ resumePushes E RS index s, p.fn ≠ some .ResumeVMClosure := by
  intro p hp
  simp only [resumePushes, List.mem_cons, List.not_mem_nil, or_false] at hp
  rcases hp with rfl | rfl | rfl
  · exact nofun
  · exact nofun
  · exact nofun

variable {E}

/-- What is known of the new thread when `rbx_newthread` has returned. -/
theorem resumeThread_new (hE : AsInLua E) :
    resumeThread E RS s ≠ RS
      ∧ ((E.rbx_newthread RS s).2.thread (resumeThread E RS s)).base
        = ((E.rbx_newthread RS s).2.thread (resumeThread E RS s)).top
      ∧ ((E.rbx_newthread RS s).2.thread (resumeThread E RS s)).ci.base
        = ((E.rbx_newthread RS s).2.thread (resumeThread E RS s)).base
      ∧ ∃ v, (E.rbx_newthread RS s).2.thread RS = (s.thread RS).push v :=
  hE.newthread rfl

/-- The call is made with one entry less on the caller's stack, which was the new thread, and
with the handler's closure on the new one. -/
theorem resumeState_thread (hE : AsInLua E) :
    ∃ v, v.tt = RBX_TYPE_FUNCTION ∧ (resumeState E RS index s).thread
      = Function.update (Function.update (E.rbx_newthread RS s).2.thread RS
          ((E.rbx_newthread RS s).2.thread RS).pop) (resumeThread E RS s)
        (((E.rbx_newthread RS s).2.thread (resumeThread E RS s)).push v) := by
  let t := resumeThread E RS s
  let s₁ := E.rbx_setfield RS (E.rbx_newthread RS s).2
  obtain ⟨hne, -⟩ := resumeThread_new RS s hE
  obtain ⟨n, hnumber⟩ := hE.pushnumber t index s₁
  obtain ⟨v, hv, hclosure⟩ := hE.pushcclosure t .ResumeVMClosureInternal (E.rbx_pushnumber t index s₁)
  refine ⟨v, hv, hclosure.trans ?_⟩
  -- the number is the closure's upvalue
  rw [hnumber, Function.update_self, Thread.push_replace, Function.update_idem, hE.setfield,
    Function.update_of_ne hne]

/-- The new thread has the handler's closure on its stack. -/
theorem resumeState_new (hE : AsInLua E) :
    ∃ v, v.tt = RBX_TYPE_FUNCTION ∧ (resumeState E RS index s).thread (resumeThread E RS s)
      = ((E.rbx_newthread RS s).2.thread (resumeThread E RS s)).push v := by
  obtain ⟨v, hv, hthread⟩ := resumeState_thread RS index s hE
  refine ⟨v, hv, ?_⟩
  rw [hthread, Function.update_self]

/-- The caller's stack is as high as it was. -/
theorem resumeState_caller (hE : AsInLua E) :
    ((resumeState E RS index s).thread RS).top = (s.thread RS).top := by
  obtain ⟨hne, -, -, w, hpush⟩ := resumeThread_new RS s hE
  obtain ⟨v, -, hthread⟩ := resumeState_thread RS index s hE
  rw [hthread, Function.update_of_ne hne.symm, Function.update_self, hpush, Thread.pop_top,
    Thread.push_top, Nat.add_sub_cancel]

end

/-! ## A host that does what Lua does -/

section

variable {A : Type}

/-- Every number prints alike, and a string is known by its number; the first is the report of
a yield. -/
def luaText (texts : Word → List Byte) (v : TValue) : Option (List Byte) :=
  if v.tt = RBX_TYPE_STRING then some (if v.word = 0 then yieldMessage else texts v.word)
  else if v.tt = RBX_TYPE_NUMBER then some [0x30] else none

/-- A closure is known by its function. -/
def luaClosure : HostFunction → TValue
  | .LaunchVMClosure => ⟨1, RBX_TYPE_FUNCTION⟩
  | .CallVMClosure => ⟨2, RBX_TYPE_FUNCTION⟩
  | .ResumeVMClosure => ⟨3, RBX_TYPE_FUNCTION⟩
  | .ResumeVMClosureInternal => ⟨4, RBX_TYPE_FUNCTION⟩

/-- The stack of a new thread is all nil, behind the entry for its function. -/
def newThread : Thread where
  stack := fun _ => ⟨0, RBX_TYPE_NIL⟩
  base := 1
  top := 1
  ci := ⟨0, 1, 1 + LUA_MINSTACK, 0, 0⟩
  callers := []
  l_gt := ⟨0, RBX_TYPE_TABLE⟩
  savedpc := 0

/-- Nothing has run yet. -/
def idle : HostThreads Unit := ⟨⟨fun _ => 0, ()⟩, fun _ => newThread⟩

/-- What a protected call leaves. -/
def luaPcall (o : Outcome) (t : Thread) : Thread :=
  match o with
  | .finished => t.pop
  | .yielded => t.replace ⟨0, RBX_TYPE_STRING⟩
  | .failed v => t.replace v

/-- `luaD_poscall`; nothing is done when no call is to be finished. -/
def luaPoscall (firstResult : Nat) (t : Thread) : Int × Thread :=
  match t.callers with
  | [] => (0, t)
  | caller :: callers => t.luaD_poscall firstResult caller callers

theorem luaPoscall_cons {t : Thread} {caller : CallInfo} {callers : List CallInfo}
    (firstResult : Nat) (h : t.callers = caller :: callers) :
    luaPoscall firstResult t = t.luaD_poscall firstResult caller callers := by
  unfold luaPoscall
  rw [h]

/-- The host, when protected calls end with `run`. -/
def luaThreads (texts : Word → List Byte) (run : Addr → HostThreads A → Outcome) : ThreadApi A where
  rbx_newthread RS s := (RS + 1, (s.set RS ((s.thread RS).push ⟨0, RBX_TYPE_THREAD⟩)).set (RS + 1)
    newThread)
  rbx_setfield RS s := s.set RS (s.thread RS).pop
  rbx_pushnumber RS n s := s.set RS ((s.thread RS).push ⟨BitVec.ofInt 64 n, RBX_TYPE_NUMBER⟩)
  rbx_pushcclosure RS fn s := s.set RS ((s.thread RS).replace (luaClosure fn))
  rbx_tostring RS s := (luaText texts (s.thread RS).last, s)
  rbx_pcall RS s := (run RS s, s.set RS (luaPcall (run RS s) (s.thread RS)))
  rbxD_poscall RS firstResult s :=
    let r := luaPoscall firstResult (s.thread RS)
    (r.1, s.set RS r.2)

theorem luaText_none (texts : Word → List Byte) (v : TValue) :
    luaText texts v = none ↔ ¬ HasText v := by
  unfold luaText HasText
  by_cases hstr : v.tt = RBX_TYPE_STRING
  · rw [if_pos hstr]
    exact ⟨nofun, fun h => absurd (Or.inl hstr) h⟩
  by_cases hnum : v.tt = RBX_TYPE_NUMBER
  · rw [if_neg hstr, if_pos hnum]
    exact ⟨nofun, fun h => absurd (Or.inr hnum) h⟩
  · rw [if_neg hstr, if_neg hnum]
    exact iff_of_true rfl (fun h => h.elim hstr hnum)

theorem luaClosure_tt (fn : HostFunction) : (luaClosure fn).tt = RBX_TYPE_FUNCTION := by
  cases fn <;> rfl

@[simp] theorem replace_last (v : TValue) (t : Thread) : (t.replace v).last = v := by
  show Function.update t.stack (t.top - 1) v (t.top - 1) = v
  rw [Function.update_self]

variable (texts : Word → List Byte) (run : Addr → HostThreads A → Outcome)

/-- What `rbx_pcall` leaves on the thread. -/
theorem luaThreads_pcall {RS : Addr} {s s' : HostThreads A} {o : Outcome}
    (h : (luaThreads texts run).rbx_pcall RS s = (o, s')) :
    s' = s.set RS (luaPcall o (s.thread RS)) := by
  obtain ⟨rfl, rfl⟩ := Prod.mk.inj h
  rfl

theorem luaThreads_asInLua : AsInLua (luaThreads texts run) where
  newthread {RS s t s'} h := by
    obtain ⟨rfl, rfl⟩ := Prod.mk.inj h
    have hne : RS + 1 ≠ RS := by bv_omega
    refine ⟨hne, ?_, ?_, ⟨0, RBX_TYPE_THREAD⟩, ?_⟩
    · rw [HostThreads.set_same]
      rfl
    · rw [HostThreads.set_same]
      rfl
    · rw [HostThreads.set_other hne.symm, HostThreads.set_same]
  setfield RS s := rfl
  pushnumber RS n s := ⟨_, rfl⟩
  pushcclosure RS fn s := ⟨luaClosure fn, luaClosure_tt fn, rfl⟩
  tostring_null RS s := luaText_none texts _
  tostring_again RS s := rfl
  tostring_others RS s b _ := ⟨rfl, rfl⟩
  pcall_failed {RS s v s'} h := by
    rw [luaThreads_pcall texts run h, HostThreads.set_same]
    exact replace_last v _
  pcall_yielded {RS s s'} h := by
    show luaText texts (s'.thread RS).last = _
    rw [luaThreads_pcall texts run h, HostThreads.set_same]
    show luaText texts ((s.thread RS).replace ⟨0, RBX_TYPE_STRING⟩).last = _
    rw [replace_last]
    rfl
  poscall {RS s caller callers} firstResult h := by
    rw [← luaPoscall_cons firstResult h]
    exact ⟨rfl, HostThreads.set_same _ _ _⟩

end

end NostalgiaConv.Threads
