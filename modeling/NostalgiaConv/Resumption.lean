/-
The registers of a script that has yielded.

The loop is entered again by `ResumeVMClosureInternal`, which runs on a thread that
`ResumeVMClosure` has made for it, and the registers are where that thread's base is. The
registers of the interrupted frame are on another thread, and nobody copies them. What the
script finds in its place is the stack of a new thread, with the closure of the handler in
the first register: this is followed here through the four functions of the host that are
in between, for any number of yields.
-/
import NostalgiaConv.SavedPc
import NostalgiaConv.Threads

set_option autoImplicit false

namespace NostalgiaConv.Resumption

open NostalgiaConv.Cipher NostalgiaConv.Host NostalgiaConv.Opcodes NostalgiaConv.Value
open NostalgiaConv.Transpile NostalgiaConv.BumpHost NostalgiaConv.Relational
open NostalgiaConv.Interpreter NostalgiaConv.Clvm NostalgiaConv.HostCalls
open NostalgiaConv.TableHost NostalgiaConv.StaleStack NostalgiaConv.SavedPc NostalgiaConv.Threads

/-! ## The way back into the loop -/

section

variable {A : Type} (E : ThreadApi A)

/-- A thread as `cluaV_execute` sees it. -/
def view (s : HostThreads A) (RS : Addr) : RbxState A where
  host := s.host
  stack := (s.thread RS).stack
  base := (s.thread RS).base
  top := (s.thread RS).top
  ciTop := (s.thread RS).ci.top
  l_gt := (s.thread RS).l_gt
  savedpc := (s.thread RS).savedpc

/-- A call of `ResumeVMClosure`: the thread it is made on, the index in the upvalue, and the
threads of the host. -/
structure Resume (A : Type) where
  RS : Addr
  index : Int
  threads : HostThreads A

namespace Resume

/-- The thread it makes. -/
def thread (e : Resume A) : Addr := resumeThread E e.RS e.threads

/-- When `rbx_newthread` has returned it. -/
def fresh (e : Resume A) : Thread := (E.rbx_newthread e.RS e.threads).2.thread (e.thread E)

/-- When `rbx_pcall` is called. -/
def prepared (e : Resume A) : HostThreads A := resumeState E e.RS e.index e.threads

/-- When `rbx_pcall` calls `ResumeVMClosureInternal`. -/
def called (e : Resume A) : HostThreads A :=
  (e.prepared E).set (e.thread E) (((e.prepared E).thread (e.thread E)).luaD_precall 0)

/-- When that calls `cluaV_execute`. -/
def execute (e : Resume A) : HostThreads A := ResumeVMClosureInternal E (e.thread E) (e.called E)

end Resume

/-- The loop after a yield in `u`. -/
def resumed (e : Resume A) (u : CluaVm A) : CluaVm A :=
  reentry { u with RS := view (e.execute E) (e.thread E) }

end

/-! ## Registers -/

/-- The registers that get the results of the call that an instruction makes. -/
def resultRegister (i : Word) (r : Nat) : Prop :=
  match OpCode.ofWord (GET_OPCODE i) with
  | some .OP_GETGLOBAL | some .OP_GETTABLE | some .OP_SELF => r = argA i
  | some .OP_CALL => argA i ≤ r ∧ (argC i = 0 ∨ r + 1 < argA i + argC i)
  | some .OP_TFORLOOP => argA i + 3 ≤ r ∧ r < argA i + 3 + argC i
  | _ => False

section

variable {A : Type} (N : Doubles) (V : RbxApi A) (E : ThreadApi A) (p : ProtoHead)

/-- A register of the frame that was interrupted in `u`, not one for results of the call. -/
def Live (u : CluaVm A) (r : Nat) : Prop :=
  r < p.maxstacksize.toNat ∧ ∀ i, codeAt p (u.pc - 1) = some i → ¬ resultRegister i r

/-- A register, wherever the registers are. -/
def register (s : CluaVm A) (r : Nat) : TValue := s.RS.stack (s.robloxBase + r)

/-- The registers after the yield hold the values that they held at the yield. -/
def Survive (u v : CluaVm A) : Prop :=
  ∀ r, Live p u r → (register v r).view = (register u r).view

/-- What the thread of a resumption has in the place of a register. -/
def found (e : Resume A) (r : Nat) : TValue :=
  if r = 0 then ((e.prepared E).thread (e.thread E)).last
  else (e.fresh E).stack ((e.fresh E).base + r)

/-- The registers at the yield are already what will be found: the handler's closure in the
first, and in the others what is on the stack of the new thread. -/
def Anticipated (u : CluaVm A) (e : Resume A) : Prop :=
  ∀ r, Live p u r → (register u r).view = (found E e r).view

/-- Within `n` rounds from `s`, an operation of the host raises, and `u` is the state. -/
def Yields (cl : Closure) (n : Nat) (s u : CluaVm A) : Prop :=
  cluaV_execute N V cl n s = .error (.raised .callee) u

/-- Every yield of a script meets `P`: it runs for some rounds, yields, is resumed, and so on.
The loop gets the thread of the resumption. -/
def EveryYield (P : CluaVm A → Resume A → Prop) :
    List (Nat × Resume A) → Closure → CluaVm A → Prop
  | [], _, _ => True
  | (n, e) :: rest, cl, s => ∀ u, Yields N V cl n s u →
    P u e ∧ EveryYield P rest { cl with RS := e.thread E } (resumed E e u)

end

section

variable {A : Type} {N : Doubles} {V : RbxApi A} {E : ThreadApi A}

/-- The thread in which `ResumeVMClosureInternal` is called. -/
theorem called_thread (hE : AsInLua E) (e : Resume A) :
    ∃ v, v.tt = RBX_TYPE_FUNCTION
      ∧ (e.prepared E).thread (e.thread E) = (e.fresh E).push v
      ∧ (e.called E).thread (e.thread E) = ((e.fresh E).push v).luaD_precall 0 := by
  obtain ⟨v, hv, hthread⟩ := resumeState_new e.RS e.index e.threads hE
  have hprepared : (e.prepared E).thread (e.thread E) = (e.fresh E).push v := hthread
  refine ⟨v, hv, hprepared, ?_⟩
  unfold Resume.called
  rw [HostThreads.set_same, hprepared]

/-- And in which it calls `cluaV_execute`: its own call is taken off, so the base is that of the
new thread, and the closure is still in the slot there. -/
theorem execute_thread (hE : AsInLua E) (e : Resume A) :
    ∃ v, v.tt = RBX_TYPE_FUNCTION
      ∧ ((e.prepared E).thread (e.thread E)).last = v
      ∧ ((e.execute E).thread (e.thread E)).base = (e.fresh E).base
      ∧ ((e.execute E).thread (e.thread E)).stack
        = Function.update (e.fresh E).stack (e.fresh E).base v := by
  obtain ⟨-, hbase, hci, -⟩ := resumeThread_new e.RS e.threads hE
  obtain ⟨v, hv, hprepared, hcalled⟩ := called_thread hE e
  let r := E.rbxD_poscall (e.thread E) ((e.called E).thread (e.thread E)).base (e.called E)
  -- the call that `rbxD_poscall` finishes is the one of `rbx_pcall`, which wants no results
  have hcallers : ((e.called E).thread (e.thread E)).callers
      = { (e.fresh E).ci with savedpc := (e.fresh E).savedpc } :: (e.fresh E).callers := by
    rw [hcalled]
    rfl
  have hnone : ((e.called E).thread (e.thread E)).ci.nresults = 0 := by
    rw [hcalled]
    rfl
  obtain ⟨hwanted, hreturned⟩ := hE.poscall ((e.called E).thread (e.thread E)).base hcallers
  rw [Thread.luaD_poscall_zero hnone] at hwanted hreturned
  -- so the top is corrected, which leaves base and stack
  have hne : r.1 ≠ 0 := by
    rw [hwanted]
    exact Int.one_ne_zero
  have hexecute : (e.execute E).thread (e.thread E)
      = { r.2.thread (e.thread E) with top := (r.2.thread (e.thread E)).ci.top } := by
    unfold Resume.execute ResumeVMClosureInternal
    rw [if_pos hne]
    exact HostThreads.set_same _ _ _
  refine ⟨v, hv, ?_, ?_, ?_⟩
  · rw [hprepared, Thread.push_last]
  · rw [hexecute]
    exact (congrArg Thread.base hreturned).trans hci
  · rw [hexecute]
    refine (congrArg Thread.stack hreturned).trans ?_
    rw [hcalled]
    show Function.update (e.fresh E).stack (e.fresh E).top v = _
    exact congrArg (fun n => Function.update (e.fresh E).stack n v) hbase.symm

/-- What the loop finds in its registers. -/
theorem register_resumed (hE : AsInLua E) (e : Resume A) (u : CluaVm A) (r : Nat) :
    register (resumed E e u) r = found E e r := by
  obtain ⟨v, -, hlast, hbase, hstack⟩ := execute_thread hE e
  show ((e.execute E).thread (e.thread E)).stack (((e.execute E).thread (e.thread E)).base + r) = _
  unfold found
  rw [hbase, hstack, hlast]
  -- the closure lies at the base
  by_cases hr : r = 0
  · rw [if_pos hr, hr, Nat.add_zero, Function.update_self]
  · rw [if_neg hr]
    apply Function.update_of_ne
    omega

/-- The first register holds a function, so any other value in it is lost. -/
theorem register_resumed_zero (hE : AsInLua E) (e : Resume A) (u : CluaVm A) :
    (register (resumed E e u) 0).tt = RBX_TYPE_FUNCTION := by
  obtain ⟨v, hv, hlast, -, -⟩ := execute_thread hE e
  rw [register_resumed hE, found, if_pos rfl, hlast]
  exact hv

theorem survive_iff (hE : AsInLua E) (p : ProtoHead) (e : Resume A) (u : CluaVm A) :
    Survive p u (resumed E e u) ↔ Anticipated E p u e := by
  refine forall₂_congr fun r _ => ?_
  rw [register_resumed hE]
  exact eq_comm

/-- Conditions that are equivalent at every yield are so for the whole script. -/
theorem everyYield_congr {P Q : CluaVm A → Resume A → Prop} (h : ∀ u e, P u e ↔ Q u e)
    (yields : List (Nat × Resume A)) (cl : Closure) (s : CluaVm A) :
    EveryYield N V E P yields cl s ↔ EveryYield N V E Q yields cl s := by
  induction yields generalizing cl s with
  | nil => exact Iff.rfl
  | cons yield rest ih => exact forall₂_congr fun u _ => and_congr (h u yield.2) (ih _ _)

/-- **Registers after a yield.** For every script, from any state and over any number of
yields, they are what they were if and only if each of them already was what the new thread
has in its place. -/
theorem registers_survive_iff (hE : AsInLua E) (N : Doubles) (V : RbxApi A)
    (yields : List (Nat × Resume A)) (cl : Closure) (s : CluaVm A) :
    EveryYield N V E (fun u e => Survive cl.p u (resumed E e u)) yields cl s
      ↔ EveryYield N V E (Anticipated E cl.p) yields cl s :=
  everyYield_congr (fun u e => survive_iff hE cl.p e u) yields cl s

end

/-! ## Two scripts -/

/-- A host whose protected calls finish. -/
def host : ThreadApi Heap := luaThreads (fun _ => []) (fun _ _ => .finished)

theorem host_asInLua : AsInLua host := luaThreads_asInLua _ _

/-- `ResumeVMClosure` on the thread at `0x1000`. -/
def resume : Resume Heap where
  RS := 0x1000
  index := 7
  threads := ⟨tableProcess [], fun _ => newThread⟩

/-- `local x = wait()`, from the call on. -/
def waiting : Closure := script [CREATE_ABC OpCode.OP_CALL.toWord 0 1 2,
  CREATE_ABC OpCode.OP_RETURN.toWord 0 1 0] (by decide)

/-- It yields in its first round; the first register is for the result, the second is nil, and
so it is on a new thread. -/
theorem waiting_yields : ∃ u,
    Yields machineDoubles (rbxTables 0) waiting 1 (launchOver waiting cleared) u
      ∧ Live waiting.p u 1 ∧ Anticipated host waiting.p u resume := by
  obtain ⟨u, hyields, hpc, hstack⟩ : ∃ u,
      Yields machineDoubles (rbxTables 0) waiting 1 (launchOver waiting cleared) u
        ∧ u.pc = 1 ∧ u.RS.stack = cleared := ⟨_, rfl, rfl, rfl⟩
  have hi : codeAt waiting.p (u.pc - 1) = some (CREATE_ABC OpCode.OP_CALL.toWord 0 1 2) := by
    rw [hpc]
    rfl
  have hresult : ∀ r, resultRegister (CREATE_ABC OpCode.OP_CALL.toWord 0 1 2) r
      ↔ 0 ≤ r ∧ (2 = 0 ∨ r + 1 < 0 + 2) := fun r => Iff.rfl
  refine ⟨u, hyields, ⟨by decide, fun i hi' => ?_⟩, fun r ⟨hr, hlive⟩ => ?_⟩
  · rw [← Option.some.inj (hi.symm.trans hi'), hresult]
    omega
  · have hne := hlive _ hi
    rw [hresult] at hne
    have hr0 : r ≠ 0 := by omega
    unfold register found
    rw [if_neg hr0, hstack]
    rfl

/-- The registers of that script survive. -/
theorem registers_survive_waiting : ∃ u,
    Yields machineDoubles (rbxTables 0) waiting 1 (launchOver waiting cleared) u
      ∧ Live waiting.p u 1 ∧ Survive waiting.p u (resumed host resume u) := by
  obtain ⟨u, hyields, hlive, hanticipated⟩ := waiting_yields
  have hsurvive := (registers_survive_iff host_asInLua machineDoubles (rbxTables 0) [(1, resume)]
    waiting (launchOver waiting cleared)).mpr
  refine ⟨u, hyields, hlive, (hsurvive (fun v hv => ?_) u hyields).1⟩
  rw [← (EStateM.Result.error.inj (hyields.symm.trans hv)).2]
  exact ⟨hanticipated, trivial⟩

/-- `local x = true; wait()`, from the call on, with `wait` in the second register. -/
def remembered : Closure := script [CREATE_ABC OpCode.OP_LOADBOOL.toWord 0 1 0,
  CREATE_ABC OpCode.OP_CALL.toWord 1 1 1, CREATE_ABC OpCode.OP_RETURN.toWord 0 1 0] (by decide)

/-- **A local that does not outlive a yield.** It is `true` when `wait` yields, and when the loop
goes on it is the closure of the handler. -/
theorem local_lost_at_yield : ∃ u,
    Yields machineDoubles (rbxTables 0) remembered 2 (launchOver remembered cleared) u
      ∧ Live remembered.p u 0 ∧ (register u 0).view = .boolean 1
      ∧ (register (resumed host resume u) 0).tt = RBX_TYPE_FUNCTION
      ∧ ¬ EveryYield machineDoubles (rbxTables 0) host
        (fun u e => Survive remembered.p u (resumed host e u)) [(2, resume)] remembered
        (launchOver remembered cleared) := by
  obtain ⟨u, hyields, hpc, htrue⟩ : ∃ u,
      Yields machineDoubles (rbxTables 0) remembered 2 (launchOver remembered cleared) u
        ∧ u.pc = 2 ∧ (register u 0).view = .boolean 1 := ⟨_, rfl, rfl, rfl⟩
  have hfound := register_resumed_zero host_asInLua resume u
  -- the call at the yield is for register 1, without results
  have hlive : Live remembered.p u 0 := by
    refine ⟨by decide, fun i hi => ?_⟩
    rw [hpc] at hi
    rw [← Option.some.inj hi]
    intro h
    exact absurd h.1 (by decide)
  refine ⟨u, hyields, hlive, htrue, hfound, fun h => ?_⟩
  have hkept := (h u hyields).1 0 hlive
  have htag := (view_eq_boolean.mp (hkept.trans htrue)).1
  rw [htag] at hfound
  exact absurd hfound (by decide)

end NostalgiaConv.Resumption
