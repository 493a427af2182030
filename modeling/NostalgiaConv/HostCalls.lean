/-
The rounds of `cluaV_execute`, cut at their calls into the host.

A round calls the host at most once with something that can raise or yield: a table
access, a call, or an error of its own. `before` is what the round does up to that
call, `after` what it does with the result, and `executeStep_of_code` says that the
round is the one, the call, and the other. What holds at a call is then a statement
about `before` alone.
-/
import NostalgiaConv.Clvm
import NostalgiaConv.Hoare

set_option autoImplicit false

namespace NostalgiaConv.HostCalls

open NostalgiaConv.Cipher NostalgiaConv.Host NostalgiaConv.Opcodes NostalgiaConv.Value
open NostalgiaConv.Transpile NostalgiaConv.Relational NostalgiaConv.Hoare
open NostalgiaConv.Interpreter NostalgiaConv.Clvm

/-- A call of a host operation that can raise or yield, with its arguments. -/
inductive RbxCall where
  | gettable (t key : TValue) (val : Nat)
  | settable (t key val : TValue)
  | precall (func : Nat) (nresults : Int)
  | call (func : Nat) (nresults : Int)
  | runerror (msg : String)

variable {A : Type}

/-! ## A round in three parts -/

section

variable (N : Doubles) (V : RbxApi A) (cl : Closure) (robloxBase : Nat) (i : Word)

/-- The two stores before a host operation. -/
def saved (c : RbxCall) : CluaM A (Option RbxCall) := do
  saveEncryptedPc cl
  savePc
  pure (some c)

/-- A round up to its call. -/
def before : CluaM A (Option RbxCall) :=
  let ra := robloxBase + argA i
  match OpCode.ofWord (GET_OPCODE i) with
  | some .OP_GETGLOBAL => do
    let rb ← constant V cl (argBx i)
    let g ← look (fun s => s.RS.l_gt)
    saved cl (.gettable g rb ra)
  | some .OP_SETGLOBAL => do
    let rb ← constant V cl (argBx i)
    let g ← look (fun s => s.RS.l_gt)
    let v ← slot ra
    saved cl (.settable g rb v)
  | some .OP_GETTABLE => do
    let value ← rk V cl robloxBase (GETARG_C i)
    let rb ← slot (robloxBase + argB i)
    saved cl (.gettable rb value ra)
  | some .OP_SETTABLE => do
    let bValue ← rk V cl robloxBase (GETARG_B i)
    let cValue ← rk V cl robloxBase (GETARG_C i)
    let v ← slot ra
    saved cl (.settable v bValue cValue)
  | some .OP_SELF => do
    let rb ← slot (robloxBase + argB i)
    setSlot (ra + 1) rb
    let value ← rk V cl robloxBase (GETARG_C i)
    let rb ← slot (robloxBase + argB i)
    saved cl (.gettable rb value ra)
  | some .OP_CALL => do
    when (argB i ≠ 0) (setTop (ra + argB i))
    saved cl (.precall ra (argC i - 1))
  | some .OP_FORPREP => do
    saveEncryptedPc cl
    savePc
    if !(← convertNumber N V ra) then
      pure (some (.runerror "'for' initial value must be a number"))
    else if !(← convertNumber N V (ra + 1)) then
      pure (some (.runerror "'for' limit must be a number"))
    else if !(← convertNumber N V (ra + 2)) then
      pure (some (.runerror "'for' step must be a number"))
    else pure none
  | some .OP_TFORLOOP => do
    let cb := ra + 3
    setSlot (cb + 2) (← slot (ra + 2))
    setSlot (cb + 1) (← slot (ra + 1))
    setSlot cb (← slot ra)
    setTop (cb + 3)
    saveEncryptedPc cl
    pure (some (.call cb (argC i)))
  | _ => pure none

/-- The call; an operation without a result counts as done. -/
def perform : RbxCall → CluaM A Int
  | .gettable t key val => do
    callRbx (V.rbxV_gettable t key val)
    pure PCRC
  | .settable t key val => do
    callRbx (V.rbxV_settable t key val)
    pure PCRC
  | .precall func nresults => callRbx (V.rbxV_precall func nresults)
  | .call func nresults => do
    callRbx (V.rbxD_call func nresults)
    pure PCRC
  | .runerror msg => throw (.raised (.runerror msg))

/-- A round from its call on; `r` is the call's result, or a one for none. -/
def after (r : Int) : CluaM A PUnit :=
  let ra := robloxBase + argA i
  match OpCode.ofWord (GET_OPCODE i) with
  | some .OP_GETGLOBAL | some .OP_SETGLOBAL | some .OP_GETTABLE | some .OP_SETTABLE
  | some .OP_SELF => restoreBase
  | some .OP_CALL =>
    if r = PCRLUA then
      update (fun s => { s with pc := s.savedpc, robloxBase := s.RS.base })
    else if r = PCRC then do
      when (0 ≤ (argC i - 1 : Int)) topToCi
      restoreBase
    else throw .returned
  | some .OP_FORPREP => do
    let init ← decoded V ra
    let pstep ← decoded V (ra + 2)
    setSlot ra ⟨numberXor V.api (N.numsub init pstep), RBX_TYPE_NUMBER⟩
    jump (GETARG_sBx i)
  | some .OP_FORLOOP => op_forloop N V robloxBase i
  | some .OP_TFORLOOP => do
    restoreBase
    topToCi
    let robloxBase ← look (fun s => s.robloxBase)
    let cb := robloxBase + argA i + 3
    let v ← slot cb
    if v.tt ≠ RBX_TYPE_NIL then do
      setSlot (cb - 1) v
      let pc ← look (fun s => s.pc)
      let next ← instrAt cl.p pc
      jump (GETARG_sBx next)
      jump 1
    else jump 1
  | some .OP_JMP => op_jmp i
  | some .OP_NOT => op_not robloxBase i
  | some .OP_LOADBOOL => op_loadbool robloxBase i
  | some .OP_LOADNIL => op_loadnil robloxBase i
  | some .OP_MOVE => op_move robloxBase i
  | some .OP_LOADK => op_loadk V cl robloxBase i
  | some .OP_RETURN => throw .returned
  | _ => unknownOpcode i

/-- The call of a round, if it has one. -/
def performed : Option RbxCall → CluaM A Int
  | some c => perform V c
  | none => pure PCRC

/-- The three parts in a row. -/
def handler : CluaM A PUnit := do
  let c ← before N V cl robloxBase i
  let r ← performed V c
  after N V cl robloxBase i r

end

/-! ## The parts make up the round -/

section

variable {N : Doubles} {V : RbxApi A} {cl : Closure} {s : CluaVm A} {i : Word}

/-- The state after the fetch. -/
def fetched (s : CluaVm A) : CluaVm A := { s with pc := s.pc + 1 }

/-- The switch of the main loop. -/
def dispatch (N : Doubles) (V : RbxApi A) (cl : Closure) (robloxBase : Nat) (i : Word) :
    CluaM A PUnit :=
  match OpCode.ofWord (GET_OPCODE i) with
  | some .OP_GETGLOBAL => op_getglobal V cl robloxBase i
  | some .OP_SETGLOBAL => op_setglobal V cl robloxBase i
  | some .OP_GETTABLE => op_gettable V cl robloxBase i
  | some .OP_SETTABLE => op_settable V cl robloxBase i
  | some .OP_CALL => op_call V cl robloxBase i
  | some .OP_SELF => op_self V cl robloxBase i
  | some .OP_FORPREP => op_forprep N V cl robloxBase i
  | some .OP_FORLOOP => op_forloop N V robloxBase i
  | some .OP_TFORLOOP => op_tforloop V cl robloxBase i
  | some .OP_JMP => op_jmp i
  | some .OP_NOT => op_not robloxBase i
  | some .OP_LOADBOOL => op_loadbool robloxBase i
  | some .OP_LOADNIL => op_loadnil robloxBase i
  | some .OP_MOVE => op_move robloxBase i
  | some .OP_LOADK => op_loadk V cl robloxBase i
  | some .OP_RETURN => throw .returned
  | _ => unknownOpcode i

/-- A check on the way to an error is the same before the call and in it. -/
theorem check_bind {α β : Type} (b : Bool) (x y : CluaM A α) (f : α → CluaM A β) :
    (if !b then x else y) >>= f = if !b then x >>= f else y >>= f := by
  cases b <;> rfl

/-- **The handlers of `cluaV_execute`, each as its three parts.** -/
theorem handler_eq (robloxBase : Nat) :
    handler N V cl robloxBase i = dispatch N V cl robloxBase i := by
  unfold handler before after dispatch
  cases hop : OpCode.ofWord (GET_OPCODE i) with
  | none => rfl
  | some o =>
    cases o with
    | OP_GETGLOBAL => simp only [op_getglobal, hostCall, saved, performed, perform, bind_assoc, pure_bind]
    | OP_SETGLOBAL => simp only [op_setglobal, hostCall, saved, performed, perform, bind_assoc, pure_bind]
    | OP_GETTABLE => simp only [op_gettable, hostCall, saved, performed, perform, bind_assoc, pure_bind]
    | OP_SETTABLE => simp only [op_settable, hostCall, saved, performed, perform, bind_assoc, pure_bind]
    | OP_SELF => simp only [op_self, hostCall, saved, performed, perform, bind_assoc, pure_bind]
    | OP_CALL => simp only [op_call, saved, performed, perform, bind_assoc, pure_bind]
    | OP_FORPREP =>
      simp only [op_forprep, performed, perform, bind_assoc, pure_bind, check_bind]
      rfl
    | OP_TFORLOOP => simp only [op_tforloop, performed, perform, bind_assoc, pure_bind]
    | _ => rfl

/-- **A round.** It fetches, and goes through the three parts. -/
theorem executeStep_of_code (hi : codeAt cl.p s.pc = some i) :
    cluaV_executeStep N V cl s = handler N V cl s.robloxBase i (fetched s) := by
  rw [handler_eq]
  show (instrAt cl.p s.pc >>= fun i => Relational.update _ >>= fun _ => _) s = _
  rw [instrAt_some hi]
  rfl

/-- Without an instruction there is no round. -/
theorem executeStep_of_no_code (hi : codeAt cl.p s.pc = none) :
    cluaV_executeStep N V cl s = .error .undefined s :=
  instrAt_none hi _ s

variable (N V cl) in
/-- In the round that starts in `s`, the loop calls `c` of the host, in state `t`. -/
def CallsHost (s : CluaVm A) (c : RbxCall) (t : CluaVm A) : Prop :=
  ∃ i, codeAt cl.p s.pc = some i
    ∧ before N V cl s.robloxBase i (fetched s) = .ok (some c) t

/-- What follows a call: the operation, on the state it was called in, and the rest
of the round. -/
theorem executeStep_of_call {c : RbxCall} {t : CluaVm A} (hi : codeAt cl.p s.pc = some i)
    (hbefore : before N V cl s.robloxBase i (fetched s) = .ok (some c) t) :
    cluaV_executeStep N V cl s
      = (perform V c >>= after N V cl s.robloxBase i) t := by
  rw [executeStep_of_code hi]
  exact bind_of_ok hbefore

/-- A round that returns has gone through its three parts. -/
theorem executeStep_ok {s' : CluaVm A} (h : cluaV_executeStep N V cl s = .ok ⟨⟩ s') :
    ∃ i c t r t', codeAt cl.p s.pc = some i
      ∧ before N V cl s.robloxBase i (fetched s) = .ok c t ∧ performed V c t = .ok r t'
      ∧ after N V cl s.robloxBase i r t' = .ok ⟨⟩ s' := by
  cases hi : codeAt cl.p s.pc with
  | none =>
    rw [executeStep_of_no_code hi] at h
    exact nomatch h
  | some i =>
    rw [executeStep_of_code hi] at h
    obtain ⟨c, t, hbefore, h⟩ := bind_eq_ok.mp h
    obtain ⟨r, t', hperform, h⟩ := bind_eq_ok.mp h
    exact ⟨i, c, t, r, t', rfl, hbefore, hperform, h⟩

end

/-! ## The state at a call -/

/-- The two states differ in registers and on the heap only. -/
structure SameControl (u t : CluaVm A) : Prop where
  pc : t.pc = u.pc
  robloxBase : t.robloxBase = u.robloxBase
  savedpc : t.savedpc = u.savedpc
  base : t.RS.base = u.RS.base
  top : t.RS.top = u.RS.top
  ciTop : t.RS.ciTop = u.RS.ciTop
  encrypted : t.RS.savedpc = u.RS.savedpc

section

variable {N : Doubles} {V : RbxApi A} {cl : Closure} {u : CluaVm A} {i : Word}

theorem SameControl.refl (u : CluaVm A) : SameControl u u := ⟨rfl, rfl, rfl, rfl, rfl, rfl, rfl⟩

theorem control_slot (n : Nat) :
    Triple (SameControl u) (slot n) (fun _ => SameControl u) :=
  Triple.look (fun _ h => h)

theorem control_setSlot (n : Nat) (v : TValue) :
    Triple (SameControl u) (setSlot n v) (fun _ => SameControl u) :=
  Triple.update (fun _ h =>
    ⟨h.pc, h.robloxBase, h.savedpc, h.base, h.top, h.ciTop, h.encrypted⟩)

theorem control_constant (n : Nat) :
    Triple (SameControl u) (constant V cl n) (fun _ => SameControl u) := by
  refine Triple.bind (R := fun _ => SameControl u) ?_ (fun c => ?_)
  · unfold constantAt
    cases cl.p.k[n]? with
    | some c => exact Triple.pure (fun _ h => h)
    | none => exact Triple.throw _
  · intro s v s' h hx
    unfold callOn at hx
    cases hv : transpileConstant V.api cl.RS c s.RS.host with
    | ok v h' =>
      rw [hv] at hx
      obtain ⟨-, rfl⟩ := EStateM.Result.ok.inj hx
      exact ⟨h.pc, h.robloxBase, h.savedpc, h.base, h.top, h.ciTop, h.encrypted⟩
    | error e h' =>
      rw [hv] at hx
      exact nomatch hx

theorem control_rk (robloxBase : Nat) (x : Word) :
    Triple (SameControl u) (rk V cl robloxBase x) (fun _ => SameControl u) :=
  Triple.ite (fun _ => control_constant _) (fun _ => control_slot _)

theorem control_convertNumber (n : Nat) :
    Triple (SameControl u) (convertNumber N V n) (fun _ => SameControl u) := by
  refine Triple.bind (control_slot n) (fun v => Triple.ite (fun _ => Triple.pure (fun _ h => h))
    (fun _ => Triple.ite (fun _ => ?_) (fun _ => Triple.pure (fun _ h => h))))
  refine Triple.bind (R := fun _ => SameControl u) (Triple.look (fun _ h => h)) (fun m => ?_)
  cases N.str2d (svalue m v.word) with
  | some num =>
    exact Triple.bind (control_setSlot n _) (fun _ => Triple.pure (fun _ h => h))
  | none => exact Triple.pure (fun _ h => h)

inductive CallKind where
  | access
  | precall
  | call
  | runerror
  deriving DecidableEq

def RbxCall.kind : RbxCall → CallKind
  | .gettable _ _ _ | .settable _ _ _ => .access
  | .precall _ _ => .precall
  | .call _ _ => .call
  | .runerror _ => .runerror

/-- The kind of call that an instruction makes. -/
def kindOf : Option OpCode → Option CallKind
  | some .OP_GETGLOBAL | some .OP_SETGLOBAL | some .OP_GETTABLE | some .OP_SETTABLE
  | some .OP_SELF => some .access
  | some .OP_CALL => some .precall
  | some .OP_TFORLOOP => some .call
  | some .OP_FORPREP => some .runerror
  | _ => none

/-- The instructions that hand over to the host and come back. -/
def callsHost (o : Option OpCode) : Bool :=
  kindOf o = some .access ∨ kindOf o = some .precall ∨ kindOf o = some .call

/-- What a round has done when it gets to its call, or past where it has none: it
has moved no base, the top only for the arguments of a call, and it has saved its
program counter, in `L` too unless the instruction is `OP_TFORLOOP`. -/
structure Reached (cl : Closure) (i : Word) (u : CluaVm A) (c : Option RbxCall) (t : CluaVm A) :
    Prop where
  pc : t.pc = u.pc
  robloxBase : t.robloxBase = u.robloxBase
  base : t.RS.base = u.RS.base
  ciTop : t.RS.ciTop = u.RS.ciTop
  top : (∀ call, c = some call → call.kind = .access) → t.RS.top = u.RS.top
  encrypted : c ≠ none → t.RS.savedpc = encryptedPc cl u.pc
  saved : c ≠ none → t.savedpc
    = if OpCode.ofWord (GET_OPCODE i) = some .OP_TFORLOOP then u.savedpc else u.pc
  savedpc : t.savedpc = u.savedpc
    ∨ t.savedpc = u.pc ∧ OpCode.ofWord (GET_OPCODE i) ≠ some .OP_TFORLOOP
  kind : ∀ call, c = some call → kindOf (OpCode.ofWord (GET_OPCODE i)) = some call.kind
  unkind : c = none → callsHost (OpCode.ofWord (GET_OPCODE i)) = false

/-- The two stores. -/
theorem reached_saved (hop : OpCode.ofWord (GET_OPCODE i) ≠ some .OP_TFORLOOP)
    (c : RbxCall) (hkind : kindOf (OpCode.ofWord (GET_OPCODE i)) = some c.kind) :
    Triple (SameControl u) (HostCalls.saved cl c) (Reached cl i u) := by
  intro s a s' h hx
  obtain ⟨rfl, rfl⟩ := EStateM.Result.ok.inj hx
  refine ⟨h.pc, h.robloxBase, h.base, h.ciTop, fun _ => h.top, fun _ => ?_, fun _ => ?_,
    Or.inr ⟨h.pc, hop⟩, fun call hcall => ?_, nofun⟩
  · show encryptedPc cl s.pc = _
    rw [h.pc]
  · show s.pc = _
    rw [if_neg hop, h.pc]
  · obtain rfl := Option.some.inj hcall
    exact hkind

theorem SameControl.reached {t : CluaVm A} (h : SameControl u t)
    (hcalls : callsHost (OpCode.ofWord (GET_OPCODE i)) = false) : Reached cl i u none t :=
  ⟨h.pc, h.robloxBase, h.base, h.ciTop, fun _ => h.top, absurd rfl, absurd rfl, Or.inl h.savedpc,
    nofun, fun _ => hcalls⟩

theorem control_save :
    Triple (SameControl u) (saveEncryptedPc cl >>= fun _ => savePc)
      (fun _ => SameControl { u with
        RS := { u.RS with savedpc := encryptedPc cl u.pc }, savedpc := u.pc }) := by
  intro s a s' h hx
  obtain ⟨-, rfl⟩ := EStateM.Result.ok.inj hx
  refine ⟨h.pc, h.robloxBase, h.pc, h.base, h.top, h.ciTop, ?_⟩
  show encryptedPc cl s.pc = _
  rw [h.pc]

/-- An error of the round's own, raised with both program counters saved. -/
theorem reached_runerror (hop : OpCode.ofWord (GET_OPCODE i) = some .OP_FORPREP) (msg : String)
    {t : CluaVm A} (h : SameControl { u with
      RS := { u.RS with savedpc := encryptedPc cl u.pc }, savedpc := u.pc } t) :
    Reached cl i u (some (.runerror msg)) t := by
  have hne : OpCode.ofWord (GET_OPCODE i) ≠ some .OP_TFORLOOP := by rw [hop]; decide
  refine ⟨h.pc, h.robloxBase, h.base, h.ciTop, fun _ => h.top, fun _ => h.encrypted,
    fun _ => h.savedpc.trans (if_neg hne).symm, Or.inr ⟨h.savedpc, hne⟩, fun call hcall => ?_, nofun⟩
  obtain rfl := Option.some.inj hcall
  rw [hop]
  rfl

theorem reached_forprep (robloxBase : Nat) (hop : OpCode.ofWord (GET_OPCODE i) = some .OP_FORPREP) :
    Triple (SameControl u) (before N V cl robloxBase i) (Reached cl i u) := by
  have hne : OpCode.ofWord (GET_OPCODE i) ≠ some .OP_TFORLOOP := by rw [hop]; decide
  have hraise : ∀ msg : String, Triple (SameControl { u with
      RS := { u.RS with savedpc := encryptedPc cl u.pc }, savedpc := u.pc })
      (pure (some (.runerror msg)) : CluaM A (Option RbxCall)) (Reached cl i u) :=
    fun msg => Triple.pure (fun _ h => reached_runerror hop msg h)
  unfold before
  rw [hop]
  simp only [← bind_assoc (saveEncryptedPc cl)]
  refine Triple.bind control_save (fun _ => ?_)
  refine Triple.bind (control_convertNumber _) (fun _ => Triple.ite (fun _ => hraise _) (fun _ => ?_))
  refine Triple.bind (control_convertNumber _) (fun _ => Triple.ite (fun _ => hraise _) (fun _ => ?_))
  refine Triple.bind (control_convertNumber _) (fun _ => Triple.ite (fun _ => hraise _) (fun _ => ?_))
  exact Triple.pure (fun _ h =>
    ⟨h.pc, h.robloxBase, h.base, h.ciTop, fun _ => h.top, absurd rfl, absurd rfl,
      Or.inr ⟨h.savedpc, hne⟩, nofun, fun _ => by rw [hop]; rfl⟩)

theorem reached_tforloop (robloxBase : Nat)
    (hop : OpCode.ofWord (GET_OPCODE i) = some .OP_TFORLOOP) :
    Triple (SameControl u) (before N V cl robloxBase i) (Reached cl i u) := by
  unfold before
  rw [hop]
  refine Triple.bind (control_slot _) (fun _ => Triple.bind (control_setSlot _ _) (fun _ => ?_))
  refine Triple.bind (control_slot _) (fun _ => Triple.bind (control_setSlot _ _) (fun _ => ?_))
  refine Triple.bind (control_slot _) (fun _ => Triple.bind (control_setSlot _ _) (fun _ => ?_))
  intro s a s' h hx
  obtain ⟨rfl, rfl⟩ := EStateM.Result.ok.inj hx
  refine ⟨h.pc, h.robloxBase, h.base, h.ciTop, fun hc => ?_, fun _ => ?_, fun _ => ?_,
    Or.inl h.savedpc, fun call hcall => ?_, nofun⟩
  · exact nomatch hc _ rfl
  · show encryptedPc cl s.pc = _
    rw [h.pc]
  · -- `L->savedpc` is what it was
    rw [if_pos hop]
    exact h.savedpc
  · obtain rfl := Option.some.inj hcall
    rw [hop]
    rfl

theorem reached_call (robloxBase : Nat) (hop : OpCode.ofWord (GET_OPCODE i) = some .OP_CALL) :
    Triple (SameControl u) (before N V cl robloxBase i) (Reached cl i u) := by
  have hne : OpCode.ofWord (GET_OPCODE i) ≠ some .OP_TFORLOOP := by rw [hop]; decide
  unfold before
  rw [hop]
  refine Triple.bind (R := fun _ s => ∃ top, SameControl { u with RS := { u.RS with top := top } } s)
    (Triple.when (fun _ => Triple.update (fun s h => ?_)) (fun _ s h => ⟨u.RS.top, h⟩)) (fun _ => ?_)
  · exact ⟨robloxBase + argA i + argB i, h.pc, h.robloxBase, h.savedpc, h.base, rfl, h.ciTop,
      h.encrypted⟩
  · rintro s a s' ⟨top, h⟩ hx
    have hreached := reached_saved hne _ (by rw [hop]; rfl) s a s' h hx
    obtain ⟨rfl, -⟩ := EStateM.Result.ok.inj hx
    exact ⟨hreached.pc, hreached.robloxBase, hreached.base, hreached.ciTop,
      fun hc => (nomatch hc _ rfl), hreached.encrypted, hreached.saved, hreached.savedpc,
      hreached.kind, hreached.unkind⟩

/-- **What a round has done when it gets to its call.** -/
theorem before_spec (robloxBase : Nat) :
    Triple (SameControl u) (before N V cl robloxBase i) (Reached cl i u) := by
  have hnone : callsHost (OpCode.ofWord (GET_OPCODE i)) = false →
      Triple (SameControl u) (pure none : CluaM A (Option RbxCall)) (Reached cl i u) :=
    fun hcalls => Triple.pure (fun _ h => h.reached hcalls)
  cases hop : OpCode.ofWord (GET_OPCODE i) with
  | none =>
    unfold before
    rw [hop]
    exact hnone (by rw [hop]; rfl)
  | some o =>
    cases o with
    | OP_FORPREP => exact reached_forprep robloxBase hop
    | OP_TFORLOOP => exact reached_tforloop robloxBase hop
    | OP_CALL => exact reached_call robloxBase hop
    | OP_GETGLOBAL =>
      unfold before
      rw [hop]
      refine Triple.bind (control_constant _) (fun _ => ?_)
      refine Triple.bind (R := fun _ => SameControl u) (Triple.look (fun _ h => h)) (fun _ => ?_)
      exact reached_saved (by rw [hop]; decide) _ (by rw [hop]; rfl)
    | OP_SETGLOBAL =>
      unfold before
      rw [hop]
      refine Triple.bind (control_constant _) (fun _ => ?_)
      refine Triple.bind (R := fun _ => SameControl u) (Triple.look (fun _ h => h)) (fun _ => ?_)
      exact Triple.bind (control_slot _) (fun _ => reached_saved (by rw [hop]; decide) _ (by rw [hop]; rfl))
    | OP_GETTABLE =>
      unfold before
      rw [hop]
      refine Triple.bind (control_rk _ _) (fun _ => Triple.bind (control_slot _) (fun _ => ?_))
      exact reached_saved (by rw [hop]; decide) _ (by rw [hop]; rfl)
    | OP_SETTABLE =>
      unfold before
      rw [hop]
      refine Triple.bind (control_rk _ _) (fun _ => Triple.bind (control_rk _ _) (fun _ => ?_))
      exact Triple.bind (control_slot _) (fun _ => reached_saved (by rw [hop]; decide) _ (by rw [hop]; rfl))
    | OP_SELF =>
      unfold before
      rw [hop]
      refine Triple.bind (control_slot _) (fun _ => Triple.bind (control_setSlot _ _) (fun _ => ?_))
      refine Triple.bind (control_rk _ _) (fun _ => Triple.bind (control_slot _) (fun _ => ?_))
      exact reached_saved (by rw [hop]; decide) _ (by rw [hop]; rfl)
    | _ =>
      unfold before
      rw [hop]
      exact hnone (by rw [hop]; rfl)

/-- The same for the round that starts in `s`. -/
theorem reached_of_before {s t : CluaVm A} {c : Option RbxCall}
    (h : before N V cl s.robloxBase i (fetched s) = .ok c t) : Reached cl i (fetched s) c t :=
  before_spec s.robloxBase (fetched s) c t (SameControl.refl _) h

end

/-! ## The rest of a round -/

/-- The two states differ in registers, on the heap and in the local program counter
only. -/
def SameButPc (u t : CluaVm A) : Prop := SameControl { u with pc := t.pc } t

/-- The instructions after which the top is the one of the host's call record: a loop
over an iterator, and a call that asked for a fixed number of results. -/
def resetsTop (i : Word) (r : Int) : Prop :=
  OpCode.ofWord (GET_OPCODE i) = some .OP_TFORLOOP
    ∨ OpCode.ofWord (GET_OPCODE i) = some .OP_CALL ∧ r ≠ PCRLUA ∧ argC i ≠ 0

/-- What the rest of a round does: it reloads the base after a call, and sets the top
after a call as `resetsTop` says. -/
structure Finished (i : Word) (r : Int) (u t : CluaVm A) : Prop where
  savedpc : t.savedpc = u.savedpc
  base : t.RS.base = u.RS.base
  ciTop : t.RS.ciTop = u.RS.ciTop
  robloxBase : t.robloxBase
    = if callsHost (OpCode.ofWord (GET_OPCODE i)) then u.RS.base else u.robloxBase
  topReset : resetsTop i r → t.RS.top = u.RS.ciTop
  topKept : ¬ resetsTop i r → t.RS.top = u.RS.top
  result : OpCode.ofWord (GET_OPCODE i) = some .OP_CALL → r = PCRLUA ∨ r = PCRC

section

variable {N : Doubles} {V : RbxApi A} {cl : Closure} {u : CluaVm A} {i : Word}

theorem butPc_of_control {α : Type} {x : CluaM A α}
    (h : ∀ u, Triple (SameControl u) x (fun _ => SameControl u)) :
    Triple (SameButPc u) x (fun _ => SameButPc u) := by
  intro s a s' hs hx
  have h' := h _ s a s' hs hx
  unfold SameButPc
  rwa [show s'.pc = s.pc from h'.pc]

theorem butPc_jump (d : Int) : Triple (SameButPc u) (jump d) (fun _ => SameButPc u) :=
  Triple.update (fun _ h =>
    ⟨rfl, h.robloxBase, h.savedpc, h.base, h.top, h.ciTop, h.encrypted⟩)

theorem butPc_slot (n : Nat) : Triple (SameButPc u) (slot n) (fun _ => SameButPc u) :=
  butPc_of_control (fun _ => control_slot n)

theorem butPc_setSlot (n : Nat) (v : TValue) :
    Triple (SameButPc u) (setSlot n v) (fun _ => SameButPc u) :=
  butPc_of_control (fun _ => control_setSlot n v)

theorem butPc_decoded (n : Nat) : Triple (SameButPc u) (decoded V n) (fun _ => SameButPc u) :=
  Triple.look (fun _ h => h)

theorem butPc_instrAt (p : ProtoHead) (pc : Int) :
    Triple (SameButPc u) (instrAt p pc) (fun _ => SameButPc u) := by
  unfold instrAt
  cases codeAt p pc with
  | some i => exact Triple.pure (fun _ h => h)
  | none => exact Triple.throw _

/-- An instruction without a host call leaves base and top alone. -/
theorem SameButPc.finished {r : Int} {t : CluaVm A} (h : SameButPc u t)
    (hcalls : callsHost (OpCode.ofWord (GET_OPCODE i)) = false) : Finished i r u t := by
  refine ⟨h.savedpc, h.base, h.ciTop, ?_, fun hreset => ?_, fun _ => h.top, fun hop => ?_⟩
  · rw [hcalls]
    exact h.robloxBase
  · rcases hreset with hop | ⟨hop, -⟩ <;>
      · rw [hop] at hcalls
        exact nomatch hcalls
  · rw [hop] at hcalls
    exact nomatch hcalls

theorem finished_restoreBase {r : Int} (hcalls : callsHost (OpCode.ofWord (GET_OPCODE i)) = true)
    (hreset : ¬ resetsTop i r)
    (hresult : OpCode.ofWord (GET_OPCODE i) = some .OP_CALL → r = PCRLUA ∨ r = PCRC) :
    Triple (· = u) restoreBase (fun _ => Finished i r u) := by
  refine Triple.update (fun s hs => ?_)
  subst hs
  exact ⟨rfl, rfl, rfl, (if_pos hcalls).symm, fun h => absurd h hreset, fun _ => rfl, hresult⟩

theorem finished_call (robloxBase : Nat) (r : Int)
    (hop : OpCode.ofWord (GET_OPCODE i) = some .OP_CALL) :
    Triple (· = u) (after N V cl robloxBase i r) (fun _ => Finished i r u) := by
  have hcalls : callsHost (OpCode.ofWord (GET_OPCODE i)) = true := by rw [hop]; rfl
  have hne : OpCode.ofWord (GET_OPCODE i) ≠ some .OP_TFORLOOP := by rw [hop]; decide
  unfold after
  rw [hop]
  refine Triple.ite (fun hlua => ?_) (fun hlua => Triple.ite (fun hc => ?_) (fun _ => Triple.throw _))
  · -- a Lua function was entered: its frame has the base now, and the top it has left
    have hreset : ¬ resetsTop i r := by
      rintro (h | ⟨-, h, -⟩)
      · exact hne h
      · exact h hlua
    refine Triple.update (fun s hs => ?_)
    subst hs
    exact ⟨rfl, rfl, rfl, (if_pos hcalls).symm, fun h => absurd h hreset, fun _ => rfl,
      fun _ => Or.inl hlua⟩
  · -- a C function has returned: the top is reset unless the results are open
    by_cases hfixed : argC i = 0
    · have hreset : ¬ resetsTop i r := by
        rintro (h | ⟨-, -, h⟩)
        · exact hne h
        · exact h hfixed
      refine Triple.bind (R := fun _ => (· = u)) (Triple.when (fun hle => ?_) (fun _ _ h => h))
        (fun _ => finished_restoreBase hcalls hreset (fun _ => Or.inr hc))
      exact absurd hle (by rw [hfixed]; decide)
    · have hreset : resetsTop i r := Or.inr ⟨hop, hlua, hfixed⟩
      refine Triple.bind
        (R := fun _ s => s = { u with RS := { u.RS with top := u.RS.ciTop } })
        (Triple.when (fun _ => Triple.update (fun s hs => by rw [hs])) (fun hle => ?_)) (fun _ => ?_)
      · exact absurd (by omega) hle
      · refine Triple.update (fun s hs => ?_)
        subst hs
        exact ⟨rfl, rfl, rfl, (if_pos hcalls).symm, fun _ => rfl, fun h => absurd hreset h,
          fun _ => Or.inr hc⟩

theorem finished_tforloop (robloxBase : Nat) (r : Int)
    (hop : OpCode.ofWord (GET_OPCODE i) = some .OP_TFORLOOP) :
    Triple (· = u) (after N V cl robloxBase i r) (fun _ => Finished i r u) := by
  have hcalls : callsHost (OpCode.ofWord (GET_OPCODE i)) = true := by rw [hop]; rfl
  -- the top is reset once; after that only registers and the `pc` change
  let v : CluaVm A := { u with robloxBase := u.RS.base, RS := { u.RS with top := u.RS.ciTop } }
  have hdone : ∀ t, SameButPc v t → Finished i r u t := fun t h =>
    ⟨h.savedpc, h.base, h.ciTop, h.robloxBase.trans (if_pos hcalls).symm, fun _ => h.top,
      fun hkept => absurd (Or.inl hop) hkept, fun hcall => nomatch hop.symm.trans hcall⟩
  unfold after
  rw [hop]
  refine Triple.bind (R := fun _ s => s = { u with robloxBase := u.RS.base })
    (Triple.update (fun s hs => by rw [hs])) (fun _ => ?_)
  refine Triple.bind (R := fun _ => SameButPc v) (Triple.update (fun s hs => ?_)) (fun _ => ?_)
  · subst hs
    exact SameControl.refl _
  refine Triple.bind (R := fun _ => SameButPc v) (Triple.look (fun _ h => h)) (fun base => ?_)
  refine Triple.bind (butPc_slot _) (fun _ => Triple.ite (fun _ => ?_) (fun _ => ?_))
  · refine Triple.bind (butPc_setSlot _ _) (fun _ => ?_)
    refine Triple.bind (R := fun _ => SameButPc v) (Triple.look (fun _ h => h)) (fun pc => ?_)
    refine Triple.bind (butPc_instrAt _ _) (fun next => Triple.bind (butPc_jump _) (fun _ => ?_))
    exact (butPc_jump 1).conseq (fun _ h => h) (fun _ => hdone)
  · exact (butPc_jump 1).conseq (fun _ h => h) (fun _ => hdone)

/-- What an instruction without a host call does. -/
theorem butPc_after (robloxBase : Nat) (r : Int)
    (hcalls : callsHost (OpCode.ofWord (GET_OPCODE i)) = false) :
    Triple (SameButPc u) (after N V cl robloxBase i r) (fun _ => SameButPc u) := by
  have hunknown : Triple (SameButPc u) (unknownOpcode i : CluaM A PUnit) (fun _ => SameButPc u) :=
    Triple.ite (fun _ => Triple.throw _) (fun _ => Triple.throw _)
  unfold after
  cases hop : OpCode.ofWord (GET_OPCODE i) with
  | none => exact hunknown
  | some o =>
    cases o with
    | OP_GETGLOBAL | OP_SETGLOBAL | OP_GETTABLE | OP_SETTABLE | OP_SELF | OP_CALL | OP_TFORLOOP =>
      rw [hop] at hcalls
      exact nomatch hcalls
    | OP_FORPREP =>
      refine Triple.bind (butPc_decoded _) (fun _ => Triple.bind (butPc_decoded _) (fun _ => ?_))
      exact Triple.bind (butPc_setSlot _ _) (fun _ => butPc_jump _)
    | OP_FORLOOP =>
      refine Triple.bind (butPc_decoded _) (fun _ => Triple.bind (butPc_decoded _) (fun _ => ?_))
      refine Triple.bind (butPc_decoded _) (fun _ => Triple.when (fun _ => ?_) (fun _ _ h => h))
      refine Triple.bind (butPc_jump _) (fun _ => Triple.bind (butPc_setSlot _ _) (fun _ => ?_))
      exact butPc_setSlot _ _
    | OP_JMP => exact butPc_jump _
    | OP_NOT =>
      refine Triple.bind (butPc_slot _) (fun _ => Triple.bind (butPc_slot _) (fun _ => ?_))
      exact butPc_setSlot _ _
    | OP_LOADBOOL =>
      refine Triple.bind (Triple.bind (butPc_slot _) (fun _ => butPc_setSlot _ _)) (fun _ => ?_)
      exact Triple.when (fun _ => butPc_jump 1) (fun _ _ h => h)
    | OP_LOADNIL =>
      exact Triple.update (fun _ h =>
        ⟨rfl, h.robloxBase, h.savedpc, h.base, h.top, h.ciTop, h.encrypted⟩)
    | OP_MOVE => exact Triple.bind (butPc_slot _) (fun _ => butPc_setSlot _ _)
    | OP_LOADK =>
      exact Triple.bind (butPc_of_control (fun _ => control_constant _)) (fun _ => butPc_setSlot _ _)
    | OP_RETURN => exact Triple.throw _
    | _ => exact hunknown

/-- **What the rest of a round does.** -/
theorem after_spec (robloxBase : Nat) (r : Int) :
    Triple (· = u) (after N V cl robloxBase i r) (fun _ => Finished i r u) := by
  have hbase : callsHost (OpCode.ofWord (GET_OPCODE i)) = true →
      OpCode.ofWord (GET_OPCODE i) ≠ some .OP_CALL →
      OpCode.ofWord (GET_OPCODE i) ≠ some .OP_TFORLOOP →
      Triple (· = u) (restoreBase : CluaM A PUnit) (fun _ => Finished i r u) :=
    fun hcalls hcall htforloop => finished_restoreBase hcalls (fun h => h.elim htforloop
      (fun h => hcall h.1)) (fun h => absurd h hcall)
  by_cases hcalls : callsHost (OpCode.ofWord (GET_OPCODE i)) = true
  · cases hop : OpCode.ofWord (GET_OPCODE i) with
    | none =>
      rw [hop] at hcalls
      exact nomatch hcalls
    | some o =>
      cases o with
      | OP_CALL => exact finished_call robloxBase r hop
      | OP_TFORLOOP => exact finished_tforloop robloxBase r hop
      | OP_GETGLOBAL | OP_SETGLOBAL | OP_GETTABLE | OP_SETTABLE | OP_SELF =>
        unfold after
        rw [hop]
        exact hbase hcalls (by rw [hop]; decide) (by rw [hop]; decide)
      | _ =>
        rw [hop] at hcalls
        exact nomatch hcalls
  · rw [Bool.not_eq_true] at hcalls
    refine (butPc_after robloxBase r hcalls).conseq (fun s hs => ?_) (fun _ _ h => h.finished hcalls)
    subst hs
    exact SameControl.refl _

/-- A host operation works on the host thread. -/
theorem callRbx_ok {α : Type} {x : RbxOp A α} {t t' : CluaVm A} {r : α}
    (h : callRbx x t = .ok r t') : ∃ RS', x t.RS = .ok r RS' ∧ t' = { t with RS := RS' } := by
  unfold callRbx callOn at h
  cases hx : x t.RS with
  | ok a RS' =>
    rw [hx] at h
    obtain ⟨rfl, rfl⟩ := EStateM.Result.ok.inj h
    exact ⟨RS', rfl, rfl⟩
  | error e RS' =>
    rw [hx] at h
    exact nomatch h

/-- What a call that returned did: nothing, or one of the four operations. -/
inductive Performed (V : RbxApi A) : Option RbxCall → RbxState A → Int → RbxState A → Prop where
  | none (RS) : Performed V none RS PCRC RS
  | gettable {t key val RS RS'} (h : V.rbxV_gettable t key val RS = .ok ⟨⟩ RS') :
      Performed V (some (.gettable t key val)) RS PCRC RS'
  | settable {t key val RS RS'} (h : V.rbxV_settable t key val RS = .ok ⟨⟩ RS') :
      Performed V (some (.settable t key val)) RS PCRC RS'
  | precall {func nresults RS r RS'} (h : V.rbxV_precall func nresults RS = .ok r RS') :
      Performed V (some (.precall func nresults)) RS r RS'
  | call {func nresults RS RS'} (h : V.rbxD_call func nresults RS = .ok ⟨⟩ RS') :
      Performed V (some (.call func nresults)) RS PCRC RS'

theorem performed_ok {c : Option RbxCall} {t t' : CluaVm A} {r : Int}
    (h : performed V c t = .ok r t') :
    ∃ RS', Performed V c t.RS r RS' ∧ t' = { t with RS := RS' } := by
  have hunit : ∀ {x : RbxOp A PUnit} {r : Int} {t' : CluaVm A},
      (callRbx x >>= fun _ => (pure PCRC : CluaM A Int)) t = .ok r t' →
      ∃ RS', x t.RS = .ok ⟨⟩ RS' ∧ r = PCRC ∧ t' = { t with RS := RS' } := by
    intro x r t' h
    obtain ⟨⟨⟩, u, hx, hr⟩ := bind_eq_ok.mp h
    obtain ⟨RS', hRS, hu⟩ := callRbx_ok hx
    obtain ⟨rfl, rfl⟩ := EStateM.Result.ok.inj hr
    exact ⟨RS', hRS, rfl, hu⟩
  cases c with
  | none =>
    obtain ⟨rfl, rfl⟩ := EStateM.Result.ok.inj h
    exact ⟨t.RS, .none t.RS, rfl⟩
  | some c =>
    cases c with
    | gettable tv key val =>
      obtain ⟨RS', hRS, rfl, ht'⟩ := hunit h
      exact ⟨RS', .gettable hRS, ht'⟩
    | settable tv key val =>
      obtain ⟨RS', hRS, rfl, ht'⟩ := hunit h
      exact ⟨RS', .settable hRS, ht'⟩
    | precall func nresults =>
      obtain ⟨RS', hRS, ht'⟩ := callRbx_ok h
      exact ⟨RS', .precall hRS, ht'⟩
    | call func nresults =>
      obtain ⟨RS', hRS, rfl, ht'⟩ := hunit h
      exact ⟨RS', .call hRS, ht'⟩
    | runerror msg => exact nomatch h

/-- **A round that returned**: it got to its call, the call returned, and the rest of
the round was done. -/
theorem executeStep_spec {s s' : CluaVm A} (h : cluaV_executeStep N V cl s = .ok ⟨⟩ s') :
    ∃ i c t r RS', codeAt cl.p s.pc = some i ∧ Reached cl i (fetched s) c t
      ∧ Performed V c t.RS r RS' ∧ Finished i r { t with RS := RS' } s' := by
  obtain ⟨i, c, t, r, t', hi, hbefore, hperformed, hafter⟩ := executeStep_ok h
  obtain ⟨RS', hRS, rfl⟩ := performed_ok hperformed
  exact ⟨i, c, t, r, RS', hi, reached_of_before hbefore, hRS,
    after_spec s.robloxBase r _ _ _ rfl hafter⟩

end

end NostalgiaConv.HostCalls
