/-
The string constants that a round of `cluaV_execute` reads.

`transpileConstant` makes a new string of the host for each, every time, and that is the
one thing in a round, beside the operations it calls by name, that can raise. A round
that is ended by such an error has read a string constant for which `rbx_snewlstr`
raised, in the state to which the constants before it had led.
-/
import NostalgiaConv.HostCalls

set_option autoImplicit false

namespace NostalgiaConv.ConstantReads

open NostalgiaConv.Cipher NostalgiaConv.Host NostalgiaConv.Opcodes NostalgiaConv.Value
open NostalgiaConv.Transpile NostalgiaConv.Relational NostalgiaConv.Hoare
open NostalgiaConv.Interpreter NostalgiaConv.Clvm NostalgiaConv.HostCalls

/-! ## The constants of an instruction -/

/-- The constant that an `RK` operand names. -/
def rkConstants (x : Word) : List Nat := if ISK x then [INDEXK x] else []

/-- In the order in which they are read. -/
def constantsRead (i : Word) : List Nat :=
  match OpCode.ofWord (GET_OPCODE i) with
  | some .OP_LOADK | some .OP_GETGLOBAL | some .OP_SETGLOBAL => [argBx i]
  | some .OP_GETTABLE | some .OP_SELF => rkConstants (GETARG_C i)
  | some .OP_SETTABLE => rkConstants (GETARG_B i) ++ rkConstants (GETARG_C i)
  | _ => []

section

variable {A : Type} (V : RbxApi A) (cl : Closure)

/-- The constants are read one after the other, and at one of them, a string,
`rbx_snewlstr` raises. -/
inductive StringRaises : List Nat → HostState A → Prop where
  | here {n : Nat} {ns : List Nat} {h h' : HostState A} {ts : TString} {e : HostError}
      (hk : cl.p.k[n]? = some (.string ts))
      (hraised : V.api.rbx_snewlstr cl.RS ts.bytes h = .error e h') : StringRaises (n :: ns) h
  | later {n : Nat} {ns : List Nat} {h h' : HostState A} {c : Constant} {v : TValue}
      (hk : cl.p.k[n]? = some c) (hread : transpileConstant V.api cl.RS c h = .ok v h')
      (rest : StringRaises ns h') : StringRaises (n :: ns) h

/-- This happens in the round that starts in `t`. -/
def RoundRaises (t : CluaVm A) : Prop :=
  ∃ i, codeAt cl.p t.pc = some i ∧ StringRaises V cl (constantsRead i) t.RS.host

end

/-! ## What never runs out of memory -/

section

variable {A : Type} {N : Doubles} {V : RbxApi A} {cl : Closure} {robloxBase : Nat} {i : Word}
  {s s' : CluaVm A}

/-- The stop of a string that was not made. -/
abbrev memory : Stop := .raised .memory

theorem never_callRbx {α : Type} (x : RbxOp A α) : Never memory (callRbx x) := by
  intro s s' h
  unfold callRbx callOn at h
  cases hx : x s.RS with
  | ok a RS => simp only [hx] at h; exact nomatch h
  | error e RS =>
    simp only [hx] at h
    exact absurd (EStateM.Result.error.inj h).1 (by decide)

theorem never_slot (n : Nat) : Never memory (slot n : CluaM A TValue) := Never.look _ _

theorem never_setSlot (n : Nat) (v : TValue) : Never memory (setSlot n v : CluaM A PUnit) :=
  Never.update _ _

theorem never_setBoolean (n : Nat) (b : Word) : Never memory (setBoolean n b : CluaM A PUnit) :=
  Never.bind (never_slot n) (fun _ => never_setSlot n _)

theorem never_jump (d : Int) : Never memory (jump d : CluaM A PUnit) := Never.update _ _

theorem never_hostCall (x : RbxOp A PUnit) : Never memory (hostCall cl x) :=
  Never.bind (Never.update _ _) (fun _ => Never.bind (Never.update _ _) (fun _ =>
    Never.bind (never_callRbx x) (fun _ => Never.update _ _)))

theorem never_convertNumber (n : Nat) : Never memory (convertNumber N V n) := by
  refine Never.bind (never_slot n) (fun v => Never.ite (Never.pure _ _) (Never.ite ?_ (Never.pure _ _)))
  refine Never.bind (Never.look _ _) (fun m => ?_)
  cases N.str2d (svalue m v.word) with
  | some num => exact Never.bind (never_setSlot n _) (fun _ => Never.pure _ _)
  | none => exact Never.pure _ _

theorem never_instrAt (p : ProtoHead) (pc : Int) :
    Never memory (instrAt p pc : CluaM A Word) := by
  unfold instrAt
  cases codeAt p pc with
  | some i => exact Never.pure _ _
  | none => exact Never.throw (by decide)

theorem never_op_call : Never memory (op_call V cl robloxBase i) := by
  refine Never.bind (Never.when (Never.update _ _)) (fun _ => Never.bind (Never.update _ _) ?_)
  refine fun _ => Never.bind (Never.update _ _) (fun _ => Never.bind (never_callRbx _) (fun r => ?_))
  refine Never.ite (Never.update _ _) (Never.ite ?_ (Never.throw (by decide)))
  exact Never.bind (Never.when (Never.update _ _)) (fun _ => Never.update _ _)

theorem never_op_forprep : Never memory (op_forprep N V cl robloxBase i) := by
  refine Never.bind (Never.update _ _) (fun _ => Never.bind (Never.update _ _) (fun _ => ?_))
  refine Never.bind (never_convertNumber _) (fun _ => Never.ite (Never.throw (by decide)) ?_)
  refine Never.bind (never_convertNumber _) (fun _ => Never.ite (Never.throw (by decide)) ?_)
  refine Never.bind (never_convertNumber _) (fun _ => Never.ite (Never.throw (by decide)) ?_)
  refine Never.bind (Never.look _ _) (fun _ => Never.bind (Never.look _ _) (fun _ => ?_))
  exact Never.bind (never_setSlot _ _) (fun _ => never_jump _)

theorem never_op_forloop : Never memory (op_forloop N V robloxBase i) := by
  refine Never.bind (Never.look _ _) (fun _ => Never.bind (Never.look _ _) (fun _ => ?_))
  refine Never.bind (Never.look _ _) (fun _ => Never.when (Never.bind (never_jump _) (fun _ => ?_)))
  exact Never.bind (never_setSlot _ _) (fun _ => never_setSlot _ _)

theorem never_op_tforloop : Never memory (op_tforloop V cl robloxBase i) := by
  refine Never.bind (never_slot _) (fun _ => Never.bind (never_setSlot _ _) (fun _ => ?_))
  refine Never.bind (never_slot _) (fun _ => Never.bind (never_setSlot _ _) (fun _ => ?_))
  refine Never.bind (never_slot _) (fun _ => Never.bind (never_setSlot _ _) (fun _ => ?_))
  refine Never.bind (Never.update _ _) (fun _ => Never.bind (Never.update _ _) (fun _ => ?_))
  refine Never.bind (never_callRbx _) (fun _ => Never.bind (Never.update _ _) (fun _ => ?_))
  refine Never.bind (Never.update _ _) (fun _ => Never.bind (Never.look _ _) (fun _ => ?_))
  refine Never.bind (never_slot _) (fun _ => Never.ite ?_ (never_jump 1))
  refine Never.bind (never_setSlot _ _) (fun _ => Never.bind (Never.look _ _) (fun _ => ?_))
  refine Never.bind (never_instrAt _ _) (fun _ => ?_)
  exact Never.bind (never_jump _) (fun _ => never_jump 1)

theorem never_op_not : Never memory (op_not robloxBase i : CluaM A PUnit) :=
  Never.bind (never_slot _) (fun _ => never_setBoolean _ _)

theorem never_op_loadbool : Never memory (op_loadbool robloxBase i : CluaM A PUnit) :=
  Never.bind (never_setBoolean _ _) (fun _ => Never.when (never_jump 1))

theorem never_op_move : Never memory (op_move robloxBase i : CluaM A PUnit) :=
  Never.bind (never_slot _) (fun _ => never_setSlot _ _)

theorem never_unknownOpcode : Never memory (unknownOpcode i : CluaM A PUnit) :=
  Never.ite (Never.throw (by decide)) (Never.throw (by decide))

/-! ## Reading a constant -/

/-- A constant that was not read is a string that was not made. -/
theorem constant_error {n : Nat} (h : constant V cl n s = .error memory s') (ns : List Nat) :
    StringRaises V cl (n :: ns) s.RS.host := by
  rcases bind_eq_error.mp h with h | ⟨c, t, hc, h⟩
  · unfold constantAt at h
    cases hk : cl.p.k[n]? with
    | some c => simp only [hk] at h; exact nomatch h
    | none =>
      simp only [hk] at h
      exact absurd (EStateM.Result.error.inj h).1 (by decide)
  · unfold constantAt at hc
    cases hk : cl.p.k[n]? with
    | none => simp only [hk] at hc; exact nomatch hc
    | some c' =>
      simp only [hk] at hc
      obtain ⟨rfl, rfl⟩ := EStateM.Result.ok.inj hc
      unfold callOn at h
      cases c' with
      | string ts =>
        cases hmade : V.api.rbx_snewlstr cl.RS ts.bytes s.RS.host with
        | error e h' => exact .here hk hmade
        | ok a h' =>
          have hread : transpileConstant V.api cl.RS (.string ts) s.RS.host
              = .ok ⟨setWord 0 a, RBX_TYPE_STRING⟩ h' := bind_of_ok hmade
          simp only [hread] at h
          exact nomatch h
      | _ => exact nomatch h

/-- One that was read has been made in the host's state. -/
theorem constant_ok {n : Nat} {v : TValue} (h : constant V cl n s = .ok v s') {ns : List Nat}
    (hrest : StringRaises V cl ns s'.RS.host) : StringRaises V cl (n :: ns) s.RS.host := by
  obtain ⟨c, t, hc, h⟩ := bind_eq_ok.mp h
  unfold constantAt at hc
  cases hk : cl.p.k[n]? with
  | none => simp only [hk] at hc; exact nomatch hc
  | some c' =>
    simp only [hk] at hc
    obtain ⟨rfl, rfl⟩ := EStateM.Result.ok.inj hc
    unfold callOn at h
    cases hread : transpileConstant V.api cl.RS c' s.RS.host with
    | ok w h' =>
      simp only [hread] at h
      obtain ⟨rfl, rfl⟩ := EStateM.Result.ok.inj h
      exact .later hk hread hrest
    | error e h' =>
      simp only [hread] at h
      exact nomatch h

theorem rk_error {x : Word} (h : rk V cl robloxBase x s = .error memory s') (ns : List Nat) :
    StringRaises V cl (rkConstants x ++ ns) s.RS.host := by
  unfold rk at h
  unfold rkConstants
  by_cases hx : ISK x = true
  · rw [if_pos hx] at h ⊢
    exact constant_error h ns
  · rw [if_neg hx] at h
    exact absurd h (never_slot _ _ _)

theorem rk_ok {x : Word} {v : TValue} (h : rk V cl robloxBase x s = .ok v s') {ns : List Nat}
    (hrest : StringRaises V cl ns s'.RS.host) : StringRaises V cl (rkConstants x ++ ns) s.RS.host := by
  unfold rk at h
  unfold rkConstants
  by_cases hx : ISK x = true
  · rw [if_pos hx] at h ⊢
    exact constant_ok h hrest
  · rw [if_neg hx] at h ⊢
    obtain ⟨-, rfl⟩ := EStateM.Result.ok.inj h
    exact hrest

/-! ## A round -/

theorem op_settable_error (h : op_settable V cl robloxBase i s = .error memory s') :
    StringRaises V cl (rkConstants (GETARG_B i) ++ rkConstants (GETARG_C i)) s.RS.host := by
  rcases bind_eq_error.mp h with h | ⟨b, t, hb, h⟩
  · exact rk_error h _
  · -- the first operand was read, so it is the second
    have hsecond := Never.of_bind
      (fun _ => Never.bind (never_slot _) (fun _ => never_hostCall _)) h
    refine rk_ok hb ?_
    have hraises := rk_error hsecond []
    rwa [List.append_nil] at hraises

theorem op_self_error (h : op_self V cl robloxBase i s = .error memory s') :
    StringRaises V cl (rkConstants (GETARG_C i)) s.RS.host := by
  rcases bind_eq_error.mp h with h | ⟨rb, t, hrb, h⟩
  · exact nomatch h
  obtain ⟨-, rfl⟩ := EStateM.Result.ok.inj hrb
  rcases bind_eq_error.mp h with h | ⟨⟨⟩, t, hset, h⟩
  · exact nomatch h
  obtain ⟨-, rfl⟩ := EStateM.Result.ok.inj hset
  -- the copy of the object leaves the heap alone
  have hread := Never.of_bind (fun _ => Never.bind (never_slot _) (fun _ => never_hostCall _)) h
  have hraises := rk_error hread []
  rwa [List.append_nil] at hraises

/-- **A round that runs out of memory has read a string constant that could not be made.** -/
theorem roundRaises_of_memory {t : CluaVm A} (h : cluaV_executeStep N V cl s = .error memory t) :
    RoundRaises V cl s := by
  cases hi : codeAt cl.p s.pc with
  | none =>
    rw [executeStep_of_no_code hi] at h
    exact absurd (EStateM.Result.error.inj h).1 (by decide)
  | some i =>
    refine ⟨i, hi, ?_⟩
    rw [executeStep_of_code hi, handler_eq] at h
    -- a handler that goes on without strings after its one constant
    have hconstant : ∀ {n : Nat} {f : TValue → CluaM A PUnit}, (∀ v, Never memory (f v)) →
        (constant V cl n >>= f) (fetched s) = .error memory t → StringRaises V cl [n] s.RS.host :=
      fun hf h => constant_error (Never.of_bind hf h) []
    unfold dispatch at h
    unfold constantsRead
    cases hop : OpCode.ofWord (GET_OPCODE i) with
    | none =>
      rw [hop] at h
      exact absurd h (never_unknownOpcode _ _)
    | some o =>
      rw [hop] at h
      cases o with
      | OP_LOADK => exact hconstant (fun _ => never_setSlot _ _) h
      | OP_GETGLOBAL =>
        exact hconstant (fun _ => Never.bind (Never.look _ _) (fun _ => never_hostCall _)) h
      | OP_SETGLOBAL =>
        exact hconstant (fun _ => Never.bind (Never.look _ _) (fun _ =>
          Never.bind (never_slot _) (fun _ => never_hostCall _))) h
      | OP_GETTABLE =>
        have hread := Never.of_bind
          (fun _ => Never.bind (never_slot _) (fun _ => never_hostCall _)) h
        have hraises := rk_error hread []
        rwa [List.append_nil] at hraises
      | OP_SETTABLE =>
        have herror : op_settable V cl s.robloxBase i (fetched s) = .error memory t := h
        have hraises := op_settable_error herror
        exact hraises
      | OP_SELF =>
        have herror : op_self V cl s.robloxBase i (fetched s) = .error memory t := h
        have hraises := op_self_error herror
        exact hraises
      | OP_CALL => exact absurd h (never_op_call _ _)
      | OP_FORPREP => exact absurd h (never_op_forprep _ _)
      | OP_FORLOOP => exact absurd h (never_op_forloop _ _)
      | OP_TFORLOOP => exact absurd h (never_op_tforloop _ _)
      | OP_JMP => exact absurd h (never_jump _ _ _)
      | OP_NOT => exact absurd h (never_op_not _ _)
      | OP_LOADBOOL => exact absurd h (never_op_loadbool _ _)
      | OP_LOADNIL => exact nomatch h
      | OP_MOVE => exact absurd h (never_op_move _ _)
      | OP_RETURN => exact absurd (EStateM.Result.error.inj h).1 (by decide)
      | _ => exact absurd h (never_unknownOpcode _ _)

end

end NostalgiaConv.ConstantReads
