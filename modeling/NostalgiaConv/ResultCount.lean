/-
The results of the functions that are registered with the host.

A C function that returns `n` promises that the `n` values on top of the stack it was
called on are its results. `LoadstringFunc` returns 1 whether or not the script compiles,
and `ResumeVMClosure` returns 1 whether or not the run finishes; each of them pushes a
value there in one of the two cases only. In the other the host takes what lay on top
when the function was called: for `loadstring` that is the source of the script.
-/
import NostalgiaConv.ConversionExits
import NostalgiaConv.Threads

set_option autoImplicit false

namespace NostalgiaConv.ResultCount

open NostalgiaConv.ByteMem NostalgiaConv.Cipher NostalgiaConv.Host NostalgiaConv.Value
open NostalgiaConv.Transpile NostalgiaConv.ProtoTree NostalgiaConv.Relational NostalgiaConv.Hoare
open NostalgiaConv.BumpHost NostalgiaConv.HostTree NostalgiaConv.Conversion
open NostalgiaConv.ConversionExits
open NostalgiaConv.Interpreter NostalgiaConv.Launches NostalgiaConv.Threads

/-! ## `LoadstringFunc` -/

section

variable {A : Type} (C : ConversionApi A (List Byte)) (myThread : Addr)

/-- With what `rbx_tostring(myThread, -1, &len)` has returned. The length of a value without a
text is zero, and nothing is copied. -/
def LoadstringFunc (str : Option (List Byte)) : ConversionM A Nat := do
  let script := str.getD []
  let _ ← ProtoConversion C myThread script
  pure 1

/-- The `n` values on top are what the call has pushed for `p`, which is one: over what was
the top at entry lies a function of `p`, and nothing over it. -/
def OnTop (p : Proto) (s s' : HostState A) (n : Nat) : Prop :=
  n = 1 ∧ Pushed C.api myThread p (stackTop s.mem myThread) s'

variable {C myThread} {str : Option (List Byte)} {c c' : CState A} {n : Nat}

/-- Nothing is on top of a stack that is as it was. -/
theorem not_onTop_self (p : Proto) (s : HostState A) (n : Nat) : ¬ OnTop C myThread p s s n := by
  rintro ⟨-, hpushed⟩
  have hzero := (add_sub_self_left (stackTop s.mem myThread) 0x10).symm.trans
    (congrArg (· - stackTop s.mem myThread) hpushed.advanced.symm)
  rw [BitVec.sub_self] at hzero
  exact absurd hzero (by decide)

/-- A script that does not compile leaves the host as it was. -/
theorem loadstringFunc_refused {err : List Byte}
    (hload : C.luaL_loadbuffer (str.getD []) = .error err) :
    LoadstringFunc C myThread str c = .ok 1 c :=
  bind_of_ok (protoConversion_refused hload)

/-- One that compiles leaves its function there, when the host does not raise. -/
theorem loadstringFunc_compiled (hC : C.Lawful) (hL : Layout C.api myThread c.host.host) {p : Proto}
    (hload : C.luaL_loadbuffer (str.getD []) = .ok p)
    (h : LoadstringFunc C myThread str c = .ok n c') :
    OnTop C myThread p c.host.host c'.host.host n := by
  obtain ⟨b, c₁, hconversion, h⟩ := bind_eq_ok.mp h
  obtain ⟨rfl, rfl⟩ := EStateM.Result.ok.inj h
  cases hrun : translateAndPush C myThread p c.host with
  | ok u σ' =>
    rw [protoConversion_pushed hload hrun] at hconversion
    obtain ⟨-, rfl⟩ := EStateM.Result.ok.inj hconversion
    exact ⟨rfl, (translateAndPush_pushed hC.api hC.fnewlclosure_ok hL hrun).2.2⟩
  | error f σ' =>
    rw [protoConversion_raised hload hrun] at hconversion
    exact nomatch hconversion

/-- **The result of `loadstring`.** It is the function of the script, pushed by the call, if
the script compiles; and if it does not, nothing was pushed. -/
theorem loadstringFunc_onTop_iff (hC : C.Lawful) (hL : Layout C.api myThread c.host.host)
    (h : LoadstringFunc C myThread str c = .ok n c') :
    ((∃ p, OnTop C myThread p c.host.host c'.host.host n)
        ↔ ∃ p, C.luaL_loadbuffer (str.getD []) = .ok p)
      ∧ ∀ p, C.luaL_loadbuffer (str.getD []) = .ok p →
        OnTop C myThread p c.host.host c'.host.host n := by
  have hcompiled : ∀ p, C.luaL_loadbuffer (str.getD []) = .ok p →
      OnTop C myThread p c.host.host c'.host.host n :=
    fun p hload => loadstringFunc_compiled hC hL hload h
  refine ⟨⟨?_, fun ⟨p, hload⟩ => ⟨p, hcompiled p hload⟩⟩, hcompiled⟩
  rintro ⟨q, hq⟩
  cases hload : C.luaL_loadbuffer (str.getD []) with
  | error err =>
    -- it returns 1 over an unchanged stack
    rw [loadstringFunc_refused hload] at h
    obtain ⟨-, rfl⟩ := EStateM.Result.ok.inj h
    exact absurd hq (not_onTop_self q _ n)
  | ok p => exact ⟨p, rfl⟩

end

/-! ## The functions on threads -/

section

variable {A : Type} {E : ThreadApi A} {RS t : Addr} {index : Int} {n : Nat}
  {s s' : HostThreads A} {c c' : Invocation A}

/-- The `n` values on top were pushed by this invocation. -/
def Results (RS : Addr) (n : Nat) (c : Invocation A) : Prop :=
  n ≤ (c.host.thread RS).top ∧ ∀ i < n, ∃ p ∈ c.pushed,
    p.thread = RS ∧ p.slot = (c.host.thread RS).top - 1 - i

theorem results_zero (RS : Addr) (c : Invocation A) : Results RS 0 c :=
  ⟨Nat.zero_le _, fun _ hi => absurd hi (Nat.not_lt_zero _)⟩

/-- Nothing of a thread has changed that is counted here: its top, and which pushes were on
other threads. -/
structure Untouched (RS : Addr) (c c' : Invocation A) : Prop where
  top : (c'.host.thread RS).top = (c.host.thread RS).top
  pushed : ∀ p ∈ c'.pushed, p.thread = RS → p ∈ c.pushed

theorem untouched_installed (hE : AsInLua E) (hne : RS ≠ t) (index : Int) (c : Invocation A) :
    Untouched RS c (installed E t index c) := by
  let s₁ := c.host.setTop t (c.host.thread t).base
  obtain ⟨v, hnumber⟩ := hE.pushnumber t index s₁
  obtain ⟨w, -, hclosure⟩ := hE.pushcclosure t .ResumeVMClosure (E.rbx_pushnumber t index s₁)
  constructor
  · show ((E.rbx_pushcclosure t _ _).thread RS).top = _
    rw [hclosure, Function.update_of_ne hne, hnumber, Function.update_of_ne hne]
    exact congrArg Thread.top (HostThreads.set_other hne _ _)
  · intro p hp hthread
    rcases List.mem_append.mp hp with hp | hp
    · rcases List.mem_append.mp hp with hp | hp
      · exact hp
      · rw [List.mem_singleton.mp hp] at hthread
        exact absurd hthread.symm hne
    · rw [List.mem_singleton.mp hp] at hthread
      exact absurd hthread.symm hne

theorem readTwice_top (hE : AsInLua E) (hne : RS ≠ t) (s : HostThreads A) :
    ((readTwice E t s).thread RS).top = (s.thread RS).top :=
  (hE.tostring_others t _ RS hne).1.trans (hE.tostring_others t s RS hne).1

/-- What follows an error on `t` leaves the other threads. -/
theorem untouched_afterError (hE : AsInLua E) (hne : RS ≠ t)
    (h : afterError E t index c = .ok ⟨⟩ c') : Untouched RS c c' := by
  cases htext : (E.rbx_tostring t c.host).1 with
  | none =>
    rw [afterError_null hE htext] at h
    exact nomatch h
  | some text =>
    by_cases heq : untilZero text = yieldMessage
    · rw [afterError_yield hE htext heq] at h
      obtain ⟨-, rfl⟩ := EStateM.Result.ok.inj h
      have hinstalled := untouched_installed hE hne index { c with host := readTwice E t c.host }
      exact ⟨hinstalled.top.trans (readTwice_top hE hne c.host), hinstalled.pushed⟩
    · rw [afterError_other hE htext heq] at h
      obtain ⟨-, rfl⟩ := EStateM.Result.ok.inj h
      exact ⟨readTwice_top hE hne c.host, fun p hp _ => hp⟩

/-- The pushes of `ResumeVMClosure` before its call: one on the caller's stack, at its top, which
is taken off again. -/
theorem resumePushes_caller (hE : AsInLua E) {p : Push} (hp : p ∈ resumePushes E RS index s)
    (hthread : p.thread = RS) : p.slot = (s.thread RS).top := by
  obtain ⟨hne, -⟩ := resumeThread_new RS s hE
  simp only [resumePushes, List.mem_cons, List.not_mem_nil, or_false] at hp
  rcases hp with rfl | rfl | rfl
  · rfl
  · exact absurd hthread hne
  · exact absurd hthread hne

/-- A run that finished leaves a number on the caller's stack. -/
theorem resume_finished
    (hrun : E.rbx_pcall (resumeThread E RS s) (resumeState E RS index s) = (.finished, s'))
    (hE : AsInLua E) (h : ResumeVMClosure E RS index ⟨s, []⟩ = .ok n c) : Results RS n c := by
  rw [resumeVMClosure_run] at h
  obtain ⟨⟨⟩, c₁, hprotected, h⟩ := bind_eq_ok.mp h
  obtain ⟨rfl, rfl⟩ := EStateM.Result.ok.inj h
  rw [protectedRun_finished hrun] at hprotected
  obtain ⟨-, rfl⟩ := EStateM.Result.ok.inj hprotected
  obtain ⟨v, hnumber⟩ := hE.pushnumber RS 1 s'
  have htop : ((E.rbx_pushnumber RS 1 s').thread RS).top = (s'.thread RS).top + 1 := by
    rw [hnumber, Function.update_self, Thread.push_top]
  unfold Results
  rw [htop]
  refine ⟨by omega, fun i hi => ?_⟩
  refine ⟨⟨RS, (s'.thread RS).top, none⟩, List.mem_append_right _ (List.mem_singleton_self _), rfl, ?_⟩
  show (s'.thread RS).top = _
  omega

/-- The protected run leaves the calling thread as high as it was: that thread waits for it
inside a C function. -/
def LeavesCaller (E : ThreadApi A) (RS : Addr) (index : Int) (s : HostThreads A) : Prop :=
  ((E.rbx_pcall (resumeThread E RS s) (resumeState E RS index s)).2.thread RS).top
    = ((resumeState E RS index s).thread RS).top

/-- Another leaves nothing there. -/
theorem resume_error {o : Outcome} (hE : AsInLua E) (ho : o.status ≠ 0)
    (hrun : E.rbx_pcall (resumeThread E RS s) (resumeState E RS index s) = (o, s'))
    (hcaller : LeavesCaller E RS index s)
    (h : ResumeVMClosure E RS index ⟨s, []⟩ = .ok n c) : ¬ Results RS n c := by
  obtain ⟨hne, -⟩ := resumeThread_new RS s hE
  rw [resumeVMClosure_run] at h
  obtain ⟨⟨⟩, c₁, hprotected, h⟩ := bind_eq_ok.mp h
  obtain ⟨rfl, rfl⟩ := EStateM.Result.ok.inj h
  rw [protectedRun_error hrun ho] at hprotected
  have huntouched := untouched_afterError hE hne.symm hprotected
  have htop : (c₁.host.thread RS).top = (s.thread RS).top := by
    rw [huntouched.top, ← resumeState_caller RS index s hE, ← hcaller, hrun]
  -- the one push on the caller's stack was at its top, and the result would be below it
  rintro ⟨hle, hresults⟩
  obtain ⟨p, hp, hthread, hslot⟩ := hresults 0 (by omega)
  have hslot' := resumePushes_caller hE (huntouched.pushed p hp hthread) hthread
  omega

/-- What the host calls, with what it reads beside its thread. -/
inductive Registered (A : Type) where
  | RenderSteppedFunc (vState : Bool) (drain : ClosureM A PUnit)
  | LaunchVMClosure (index : Int) (information : SharedVMState)
  | CallVMClosure (clua_call : ClosureM A PUnit)
  | ResumeVMClosure (index : Int)

def Registered.invoke (E : ThreadApi A) (RS : Addr) : Registered A → ClosureM A Nat
  | RenderSteppedFunc vState drain => Threads.RenderSteppedFunc vState drain
  | LaunchVMClosure index information => Threads.LaunchVMClosure E index information
  | CallVMClosure clua_call => Threads.CallVMClosure clua_call
  | ResumeVMClosure index => Threads.ResumeVMClosure E RS index

/-- For `ResumeVMClosure`: the run that it protects finishes. -/
def Registered.Finishes (E : ThreadApi A) (RS : Addr) (s : HostThreads A) : Registered A → Prop
  | ResumeVMClosure index =>
    (E.rbx_pcall (resumeThread E RS s) (resumeState E RS index s)).1 = .finished
  | _ => True

/-- Also: that run leaves the calling thread alone. -/
def Registered.LeavesCaller (E : ThreadApi A) (RS : Addr) (s : HostThreads A) : Registered A → Prop
  | ResumeVMClosure index => ResultCount.LeavesCaller E RS index s
  | _ => True

/-- **The results of the functions on threads.** They were pushed by the invocation if and only
if the run that `ResumeVMClosure` protects finishes; the others return none. -/
theorem registered_results_iff (hE : AsInLua E) (fn : Registered A)
    (hcaller : fn.LeavesCaller E RS s) (h : fn.invoke E RS ⟨s, []⟩ = .ok n c) :
    Results RS n c ↔ fn.Finishes E RS s := by
  cases fn with
  | RenderSteppedFunc vState drain =>
    obtain ⟨⟨⟩, c₁, -, h⟩ := bind_eq_ok.mp h
    obtain ⟨rfl, rfl⟩ := EStateM.Result.ok.inj h
    exact iff_of_true (results_zero RS _) trivial
  | LaunchVMClosure index information =>
    obtain ⟨⟨⟩, c₁, -, h⟩ := bind_eq_ok.mp h
    obtain ⟨⟨⟩, c₂, -, h⟩ := bind_eq_ok.mp h
    obtain ⟨rfl, rfl⟩ := EStateM.Result.ok.inj h
    exact iff_of_true (results_zero RS _) trivial
  | CallVMClosure clua_call =>
    obtain ⟨⟨⟩, c₁, -, h⟩ := bind_eq_ok.mp h
    obtain ⟨rfl, rfl⟩ := EStateM.Result.ok.inj h
    exact iff_of_true (results_zero RS _) trivial
  | ResumeVMClosure index =>
    obtain ⟨o, s', hrun⟩ : ∃ o s', E.rbx_pcall (resumeThread E RS s) (resumeState E RS index s)
      = (o, s') := ⟨_, _, rfl⟩
    have hout : (E.rbx_pcall (resumeThread E RS s) (resumeState E RS index s)).1 = o :=
      congrArg Prod.fst hrun
    show Results RS n c ↔ _ = Outcome.finished
    rw [hout]
    cases o with
    | finished => exact iff_of_true (resume_finished hrun hE h) rfl
    | yielded => exact iff_of_false (resume_error hE (by decide) hrun hcaller h) nofun
    | failed v => exact iff_of_false (resume_error hE (failed_status v) hrun hcaller h) nofun

/-- **The result convention.** For every argument of `loadstring` and every state, what is on
top when it returns was pushed by the call exactly when the script compiles, and it is then
the function of the script; for the functions on threads, exactly when `ResumeVMClosure`, if
it is that one, sees its run finish. -/
theorem results_honoured_iff {B : Type} {C : ConversionApi B (List Byte)} (hC : C.Lawful)
    (hE : AsInLua E) :
    (∀ myThread str n, ∀ c c' : CState B, Layout C.api myThread c.host.host →
        LoadstringFunc C myThread str c = .ok n c' →
        ((∃ p, OnTop C myThread p c.host.host c'.host.host n)
            ↔ ∃ p, C.luaL_loadbuffer (str.getD []) = .ok p)
          ∧ ∀ p, C.luaL_loadbuffer (str.getD []) = .ok p →
            OnTop C myThread p c.host.host c'.host.host n)
      ∧ ∀ (fn : Registered A) RS s n c, fn.LeavesCaller E RS s →
        fn.invoke E RS ⟨s, []⟩ = .ok n c → (Results RS n c ↔ fn.Finishes E RS s) :=
  ⟨fun _ _ _ _ _ hL h => loadstringFunc_onTop_iff hC hL h,
    fun fn _ _ _ _ hcaller h => registered_results_iff hE fn hcaller h⟩

end

/-! ## Sample runs -/

/-- A compiler that refuses `x =`. -/
def textLoad (script : List Byte) : Except (List Byte) Proto :=
  if script = chars "x =" then .error []
  else if script = [] then .ok mainProto
  else .ok sampleTree

abbrev textConversion : ConversionApi Bump (List Byte) := bumpConversion textLoad

/-- The host, when every protected call ends with `o`. -/
def ending (o : Outcome) : ThreadApi Unit := luaThreads (fun _ => []) (fun _ _ => o)

theorem ending_asInLua (o : Outcome) : AsInLua (ending o) := luaThreads_asInLua _ _

theorem ending_leavesCaller (o : Outcome) : LeavesCaller (ending o) 0x1000 7 idle := rfl

theorem translateAndPush_text :
    ended (translateAndPush textConversion 0 sampleTree running.host) = true := by decide +kernel

/-- `loadstring("f()")`, a resumption that finishes, and one that yields. -/
theorem results_honoured_sample :
    (∃ n c', LoadstringFunc textConversion 0 (some (chars "f()")) running = .ok n c'
        ∧ OnTop textConversion 0 sampleTree running.host.host c'.host.host n)
      ∧ (∃ n c, (Registered.ResumeVMClosure 7).invoke (ending .finished) 0x1000 ⟨idle, []⟩ = .ok n c
        ∧ Results 0x1000 n c)
      ∧ ∃ n c, (Registered.ResumeVMClosure 7).invoke (ending .yielded) 0x1000 ⟨idle, []⟩ = .ok n c
        ∧ ¬ Results 0x1000 n c := by
  obtain ⟨hload, hfinished⟩ :=
    results_honoured_iff (bumpConversion_lawful textLoad) (ending_asInLua .finished)
  obtain ⟨-, hyielded⟩ :=
    results_honoured_iff (bumpConversion_lawful textLoad) (ending_asInLua .yielded)
  refine ⟨?_, ?_, ?_⟩
  · have hcompiles : textConversion.luaL_loadbuffer ((some (chars "f()")).getD [])
        = .ok sampleTree := rfl
    obtain ⟨u, σ', hrun⟩ := exists_of_ended translateAndPush_text
    have hconversion : ProtoConversion textConversion 0 (chars "f()") running
        = .ok true { running with host := restored 0 σ' } := protoConversion_pushed hcompiles hrun
    have hreturns : LoadstringFunc textConversion 0 (some (chars "f()")) running
        = .ok 1 { running with host := restored 0 σ' } := bind_of_ok hconversion
    exact ⟨1, _, hreturns, (hload 0 (some (chars "f()")) 1 running _ running_layout hreturns).2
      sampleTree hcompiles⟩
  · exact ⟨_, _, rfl, (hfinished (.ResumeVMClosure 7) 0x1000 idle _ _
      (ending_leavesCaller .finished) rfl).mpr rfl⟩
  · exact ⟨_, _, rfl, fun h => absurd ((hyielded (.ResumeVMClosure 7) 0x1000 idle _ _
      (ending_leavesCaller .yielded) rfl).mp h) nofun⟩

/-- **The source string as the result, and a result on another thread.** `loadstring("x =")`
returns 1 and leaves its stack as it was; `ResumeVMClosure` returns 1 after a yield, and what is
under the top of its stack is not its own. -/
theorem results_not_pushed :
    (LoadstringFunc textConversion 0 (some (chars "x =")) running = .ok 1 running
        ∧ ¬ ∃ p, OnTop textConversion 0 p running.host.host running.host.host 1)
      ∧ ∃ c, (Registered.ResumeVMClosure 7).invoke (ending .yielded) 0x1000 ⟨idle, []⟩ = .ok 1 c
        ∧ ¬ Results 0x1000 1 c := by
  have hrefused : textConversion.luaL_loadbuffer ((some (chars "x =")).getD []) = .error [] := rfl
  let E := ending .yielded
  have hrun : E.rbx_pcall (resumeThread E 0x1000 idle) (resumeState E 0x1000 7 idle)
      = (.yielded, (E.rbx_pcall (resumeThread E 0x1000 idle) (resumeState E 0x1000 7 idle)).2) := rfl
  refine ⟨⟨loadstringFunc_refused hrefused, ?_⟩, _, rfl, ?_⟩
  · rintro ⟨p, hp⟩
    exact not_onTop_self p _ 1 hp
  · exact resume_error (ending_asInLua .yielded) (by decide) hrun (ending_leavesCaller .yielded) rfl

end NostalgiaConv.ResultCount
