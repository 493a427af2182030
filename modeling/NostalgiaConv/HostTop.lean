/-
Where the host's stack top is when the loop makes a table access.

A metamethod is called from the top on, so the registers below it are safe and the
others are not. On the private state `cluaD_precall` raises the top over the frame;
the registers lie on the host's stack, whose top is another one. `CallVMClosure` runs
in a C frame without arguments, which starts with its top at its base. From then on
only `OP_CALL` and `OP_TFORLOOP` move the top, and they reset it to the end of that C
frame, `LUA_MINSTACK` slots up, however many registers the script has.
-/
import NostalgiaConv.HostCalls
import NostalgiaConv.StaleStack

set_option autoImplicit false

namespace NostalgiaConv.HostTop

open NostalgiaConv.Cipher NostalgiaConv.Host NostalgiaConv.Opcodes NostalgiaConv.Value
open NostalgiaConv.Transpile NostalgiaConv.BumpHost NostalgiaConv.Relational NostalgiaConv.Hoare
open NostalgiaConv.Interpreter NostalgiaConv.Lvm NostalgiaConv.Clvm NostalgiaConv.HostCalls
open NostalgiaConv.TableHost NostalgiaConv.Lockstep NostalgiaConv.StaleStack

/-- The slots a C function has over its arguments. -/
def LUA_MINSTACK : Nat := 20

variable {A W : Type} {N : Doubles} {V : RbxApi A} {cl : Closure}

/-- What the host's operations leave of the frame they are called in, when they return: a
table access all of it, a call the base and the end of the frame. A Lua function that is
entered has a frame of its own, above. -/
structure KeepsFrame (V : RbxApi A) : Prop where
  gettable {t key val RS RS'} (h : V.rbxV_gettable t key val RS = .ok ⟨⟩ RS') :
    RS'.base = RS.base ∧ RS'.top = RS.top ∧ RS'.ciTop = RS.ciTop
  settable {t key val RS RS'} (h : V.rbxV_settable t key val RS = .ok ⟨⟩ RS') :
    RS'.base = RS.base ∧ RS'.top = RS.top ∧ RS'.ciTop = RS.ciTop
  precall_c {func nresults RS RS'} (h : V.rbxV_precall func nresults RS = .ok PCRC RS') :
    RS'.base = RS.base ∧ RS'.ciTop = RS.ciTop
  precall_lua {func nresults RS RS'} (h : V.rbxV_precall func nresults RS = .ok PCRLUA RS') :
    RS.base < RS'.base
  call {func nresults RS RS'} (h : V.rbxD_call func nresults RS = .ok ⟨⟩ RS') :
    RS'.base = RS.base ∧ RS'.ciTop = RS.ciTop

/-! ## Who set the top last -/

/-- Nobody since the entry; `topToCi`, in the frame of `CallVMClosure`; or a call, which
left it at `top`. -/
inductive TopFrom where
  | entry
  | reset
  | left (top : Nat)
  deriving DecidableEq

/-- After the instruction `i`, in the state `s'`. -/
def recordTop (base₀ : Nat) (i : Word) (g : TopFrom) (s' : CluaVm A) : TopFrom :=
  match OpCode.ofWord (GET_OPCODE i) with
  | some .OP_CALL =>
    if s'.robloxBase = base₀ ∧ argC i ≠ 0 then .reset else .left s'.RS.top
  | some .OP_TFORLOOP => if s'.robloxBase = base₀ then .reset else .left s'.RS.top
  | _ => g

/-- Over the round from `s` to `s'`. -/
def nextTop (cl : Closure) (base₀ : Nat) (g : TopFrom) (s s' : CluaVm A) : TopFrom :=
  match codeAt cl.p s.pc with
  | some i => recordTop base₀ i g s'
  | none => g

/-- What that says about the state. -/
def TopFrom.At (base₀ : Nat) (RS : RbxState A) : TopFrom → Prop
  | .entry => RS.base = base₀ ∧ RS.top = base₀
  | .reset => RS.base = base₀ ∧ RS.top = base₀ + LUA_MINSTACK
  | .left top => RS.top = top

/-- The top is over the `m` registers of the frame. At the entry it is so for no register,
after a reset for `LUA_MINSTACK`. -/
def TopFrom.Covers (base m : Nat) : TopFrom → Prop
  | .entry => m = 0
  | .reset => m ≤ LUA_MINSTACK
  | .left top => base + m ≤ top

/-- Where base and top stay, the record stays true. -/
theorem TopFrom.At.kept {g : TopFrom} {base₀ : Nat} {RS RS' : RbxState A} (h : g.At base₀ RS)
    (hbase : RS'.base = RS.base) (htop : RS'.top = RS.top) : g.At base₀ RS' := by
  cases g with
  | entry => exact ⟨hbase.trans h.1, htop.trans h.2⟩
  | reset => exact ⟨hbase.trans h.1, htop.trans h.2⟩
  | left top => exact htop.trans h

theorem TopFrom.At.covers_iff {g : TopFrom} {base₀ : Nat} {RS : RbxState A} (h : g.At base₀ RS)
    (m : Nat) : RS.base + m ≤ RS.top ↔ g.Covers RS.base m := by
  cases g with
  | entry =>
    obtain ⟨hbase, htop⟩ := h
    rw [hbase, htop, Covers]
    omega
  | reset =>
    obtain ⟨hbase, htop⟩ := h
    rw [hbase, htop]
    exact Nat.add_le_add_iff_left
  | left top =>
    rw [show RS.top = top from h]
    rfl

/-! ## The invariant -/

/-- Between two rounds: the frame is that of `CallVMClosure` or one above it, and the
record is true. -/
structure TopKnown (base₀ : Nat) (g : TopFrom) (s : CluaVm A) : Prop where
  le : base₀ ≤ s.RS.base
  own : s.RS.base = base₀ → s.RS.ciTop = base₀ + LUA_MINSTACK
  robloxBase : s.robloxBase = s.RS.base
  top : g.At base₀ s.RS

section

variable {base₀ : Nat} {g : TopFrom} {s s' : CluaVm A} {i : Word} {RS RS' : RbxState A} {r : Int}

/-- Of a Lua function that was entered. -/
theorem performed_entered (hV : KeepsFrame V) {c : Option RbxCall} (h : Performed V c RS r RS')
    (hr : r = PCRLUA) : RS.base < RS'.base := by
  cases h with
  | precall h =>
    subst hr
    exact hV.precall_lua h
  | _ => exact absurd hr (by decide)

/-- Any other call that goes on in this loop keeps base and end of the frame. -/
theorem performed_kept (hV : KeepsFrame V) {c : Option RbxCall} (h : Performed V c RS r RS')
    (hr : r = PCRC) : RS'.base = RS.base ∧ RS'.ciTop = RS.ciTop := by
  cases h with
  | none => exact ⟨rfl, rfl⟩
  | gettable h => exact ⟨(hV.gettable h).1, (hV.gettable h).2.2⟩
  | settable h => exact ⟨(hV.settable h).1, (hV.settable h).2.2⟩
  | call h => exact hV.call h
  | precall h =>
    subst hr
    exact hV.precall_c h

/-- A table access keeps the top too. -/
theorem performed_access (hV : KeepsFrame V) {c : Option RbxCall} (h : Performed V c RS r RS')
    (haccess : ∀ call, c = some call → call.kind = .access) : r = PCRC ∧ RS'.top = RS.top := by
  cases h with
  | none => exact ⟨rfl, rfl⟩
  | gettable h => exact ⟨rfl, (hV.gettable h).2.1⟩
  | settable h => exact ⟨rfl, (hV.settable h).2.1⟩
  | precall h => exact nomatch haccess _ rfl
  | call h => exact nomatch haccess _ rfl

/-- `rbxG_runerror` does not return. -/
theorem performed_kind_ne {call : RbxCall} (h : Performed V (some call) RS r RS') :
    call.kind ≠ .runerror := by
  cases h <;> exact nofun

theorem kindOf_eq_precall {o : Option OpCode} : kindOf o = some .precall ↔ o = some .OP_CALL := by
  cases o with
  | none => exact ⟨nofun, nofun⟩
  | some o => cases o <;> simp [kindOf]

theorem kindOf_eq_call {o : Option OpCode} : kindOf o = some .call ↔ o = some .OP_TFORLOOP := by
  cases o with
  | none => exact ⟨nofun, nofun⟩
  | some o => cases o <;> simp [kindOf]

/-- Only `OP_CALL` can enter a Lua function. -/
theorem performed_result {c : Option RbxCall} (h : Performed V c RS r RS')
    (hkind : ∀ call, c = some call → kindOf (OpCode.ofWord (GET_OPCODE i)) = some call.kind)
    (hresult : OpCode.ofWord (GET_OPCODE i) = some .OP_CALL → r = PCRLUA ∨ r = PCRC) :
    r = PCRLUA ∨ r = PCRC := by
  cases h with
  | precall h => exact hresult (kindOf_eq_precall.mp (hkind _ rfl))
  | _ => exact Or.inr rfl

/-- An instruction that leaves the top alone makes a table access, or no call that
returns. -/
theorem access_of_other {c : Option RbxCall} (h : Performed V c RS r RS')
    (hkind : ∀ call, c = some call → kindOf (OpCode.ofWord (GET_OPCODE i)) = some call.kind)
    (hcall : OpCode.ofWord (GET_OPCODE i) ≠ some .OP_CALL)
    (htforloop : OpCode.ofWord (GET_OPCODE i) ≠ some .OP_TFORLOOP) :
    ∀ call, c = some call → call.kind = .access := by
  rintro call rfl
  have hkind := hkind call rfl
  cases hcallKind : call.kind with
  | access => rfl
  | precall =>
    rw [hcallKind] at hkind
    exact absurd (kindOf_eq_precall.mp hkind) hcall
  | call =>
    rw [hcallKind] at hkind
    exact absurd (kindOf_eq_call.mp hkind) htforloop
  | runerror => exact absurd hcallKind (performed_kind_ne h)

/-- **The base in a round.** A Lua function that was entered has it above, everything else
keeps it, and with it the end of the frame. -/
theorem base_step (hV : KeepsFrame V) {c : Option RbxCall} {t : CluaVm A}
    (hreached : Reached cl i (fetched s) c t) (hperformed : Performed V c t.RS r RS')
    (hfinished : Finished i r { t with RS := RS' } s') :
    r = PCRLUA ∧ s.RS.base < s'.RS.base
      ∨ r = PCRC ∧ s'.RS.base = s.RS.base ∧ s'.RS.ciTop = s.RS.ciTop := by
  have hbase : t.RS.base = s.RS.base := hreached.base
  have hciTop : t.RS.ciTop = s.RS.ciTop := hreached.ciTop
  rw [hfinished.base, hfinished.ciTop, ← hbase, ← hciTop]
  rcases performed_result hperformed hreached.kind hfinished.result with hlua | hc
  · exact Or.inl ⟨hlua, performed_entered hV hperformed hlua⟩
  · exact Or.inr ⟨hc, performed_kept hV hperformed hc⟩

/-- The local base is the thread's after a round, if it was before. -/
theorem robloxBase_step (hrobloxBase : s.robloxBase = s.RS.base) {c : Option RbxCall}
    {t : CluaVm A} (hreached : Reached cl i (fetched s) c t)
    (hperformed : Performed V c t.RS r RS') (hfinished : Finished i r { t with RS := RS' } s') :
    s'.robloxBase = s'.RS.base := by
  rw [hfinished.robloxBase, hfinished.base]
  by_cases hcalls : callsHost (OpCode.ofWord (GET_OPCODE i)) = true
  · rw [if_pos hcalls]
  · -- no call was made, so nothing has moved
    rw [if_neg hcalls]
    have hnone : c = none := by
      cases c with
      | none => rfl
      | some call =>
        have hkind := hreached.kind call rfl
        have hne := performed_kind_ne hperformed
        unfold callsHost at hcalls
        rw [hkind] at hcalls
        cases hcall : call.kind <;> simp_all
    subst hnone
    cases hperformed with
    | none =>
      show t.robloxBase = t.RS.base
      rw [hreached.robloxBase, hreached.base]
      exact hrobloxBase

/-- The record of an instruction that leaves the top alone. -/
theorem recordTop_other (hcall : OpCode.ofWord (GET_OPCODE i) ≠ some .OP_CALL)
    (htforloop : OpCode.ofWord (GET_OPCODE i) ≠ some .OP_TFORLOOP) :
    recordTop base₀ i g s' = g := by
  unfold recordTop
  cases hop : OpCode.ofWord (GET_OPCODE i) with
  | none => rfl
  | some o =>
    cases o with
    | OP_CALL => exact absurd hop hcall
    | OP_TFORLOOP => exact absurd hop htforloop
    | _ => rfl

/-- After a round that reset the top, in the frame of `CallVMClosure`. -/
theorem at_reset (hrobloxBase : s'.robloxBase = s'.RS.base)
    (hown : s'.RS.base = base₀ → s'.RS.ciTop = base₀ + LUA_MINSTACK)
    (hbase : s'.robloxBase = base₀) (htop : s'.RS.top = s'.RS.ciTop) :
    TopFrom.reset.At base₀ s'.RS := by
  rw [hrobloxBase] at hbase
  exact ⟨hbase, htop.trans (hown hbase)⟩

/-- **One round keeps the record true.** -/
theorem known_step (hV : KeepsFrame V) (hI : TopKnown base₀ g s)
    (hstep : cluaV_executeStep N V cl s = .ok ⟨⟩ s') :
    TopKnown base₀ (nextTop cl base₀ g s s') s' := by
  obtain ⟨i, c, t, r, RS', hi, hreached, hperformed, hfinished⟩ := executeStep_spec hstep
  have hframe := base_step hV hreached hperformed hfinished
  have hrobloxBase := robloxBase_step hI.robloxBase hreached hperformed hfinished
  have hle : base₀ ≤ s'.RS.base := by
    rcases hframe with ⟨-, hlt⟩ | ⟨-, heq, -⟩
    · exact hI.le.trans hlt.le
    · exact hI.le.trans heq.ge
  have hown : s'.RS.base = base₀ → s'.RS.ciTop = base₀ + LUA_MINSTACK := by
    rintro rfl
    rcases hframe with ⟨-, hlt⟩ | ⟨-, heq, hend⟩
    · exact absurd hI.le hlt.not_ge
    · exact hend.trans (hI.own heq.symm)
  -- a reset is one to the end of the frame
  have hreset : resetsTop i r → s'.RS.top = s'.RS.ciTop := fun h =>
    (hfinished.topReset h).trans hfinished.ciTop.symm
  have hrecord : nextTop cl base₀ g s s' = recordTop base₀ i g s' := by
    unfold nextTop
    rw [hi]
  refine ⟨hle, hown, hrobloxBase, ?_⟩
  rw [hrecord]
  by_cases hcall : OpCode.ofWord (GET_OPCODE i) = some .OP_CALL
  · unfold recordTop
    rw [hcall]
    simp only
    by_cases hfixed : s'.robloxBase = base₀ ∧ argC i ≠ 0
    · rw [if_pos hfixed]
      refine at_reset hrobloxBase hown hfixed.1 (hreset (Or.inr ⟨hcall, ?_, hfixed.2⟩))
      -- a Lua function would have a base above this one
      rintro hlua
      rcases hframe with ⟨-, hlt⟩ | ⟨hc, -⟩
      · rw [← hrobloxBase, hfixed.1] at hlt
        exact absurd hI.le hlt.not_ge
      · exact absurd (hlua.symm.trans hc) (by decide)
    · rw [if_neg hfixed]
      rfl
  · by_cases htforloop : OpCode.ofWord (GET_OPCODE i) = some .OP_TFORLOOP
    · -- it resets the top whatever its iterator did
      unfold recordTop
      rw [htforloop]
      simp only
      by_cases hbase : s'.robloxBase = base₀
      · rw [if_pos hbase]
        exact at_reset hrobloxBase hown hbase (hreset (Or.inl htforloop))
      · rw [if_neg hbase]
        rfl
    · -- a table access, or no call at all: top and base are as before
      rw [recordTop_other hcall htforloop]
      have haccess := access_of_other hperformed hreached.kind hcall htforloop
      obtain ⟨hc, hkeeps⟩ := performed_access hV hperformed haccess
      have hkept : ¬ resetsTop i r := fun h => h.elim htforloop (fun h => hcall h.1)
      have htop : s'.RS.top = s.RS.top :=
        (hfinished.topKept hkept).trans (hkeeps.trans (hreached.top haccess))
      have hbase : s'.RS.base = s.RS.base := by
        rcases hframe with ⟨hlua, -⟩ | ⟨-, heq, -⟩
        · exact absurd (hlua.symm.trans hc) (by decide)
        · exact heq
      exact hI.top.kept hbase htop

end

/-! ## Whole runs -/

/-- In every state that is reached, every table access is made with the top over all of the
frame's registers. -/
def AccessesCovered (N : Doubles) (V : RbxApi A) (cl : Closure) (start : CluaVm A) : Prop :=
  ∀ n s c t, cluaV_execute N V cl n start = .ok ⟨⟩ s → CallsHost N V cl s c t →
    c.kind = .access → t.RS.base + cl.p.maxstacksize.toNat ≤ t.RS.top

theorem codeAt_mem {p : ProtoHead} {pc : Int} {i : Word} (h : codeAt p pc = some i) :
    i ∈ p.code := by
  unfold codeAt at h
  by_cases hpc : 0 ≤ pc
  · rw [if_pos hpc] at h
    exact List.mem_of_getElem? h
  · rw [if_neg hpc] at h
    exact nomatch h

/-- At a table access the top is the one from before the round. -/
theorem callsHost_access {s t : CluaVm A} {c : RbxCall} (h : CallsHost N V cl s c t)
    (haccess : c.kind = .access) : t.RS.base = s.RS.base ∧ t.RS.top = s.RS.top := by
  obtain ⟨i, hi, hbefore⟩ := h
  have hreached := reached_of_before hbefore
  refine ⟨hreached.base, hreached.top (fun call hcall => ?_)⟩
  rw [← Option.some.inj hcall]
  exact haccess

/-- **Table accesses over whole runs.** In a run of `CallVMClosure` the top is over the
registers at all of them if and only if each is made where whoever set the top last has
set it high enough: after a reset, for a script of at most `LUA_MINSTACK` registers; after
a call that left the top to the function it called, as high as that one left it; before
any call, for a script without registers. -/
theorem accessesCovered_iff (hV : KeepsFrame V) (N : Doubles) (cl : Closure) (func : LuaValue)
    (L : LuaState W) (RS : RbxState A) (htop : RS.top = RS.base)
    (hciTop : RS.ciTop = RS.base + LUA_MINSTACK) :
    AccessesCovered N V cl (callVMClosure cl func L RS).2
      ↔ ∀ n s c t, cluaV_execute N V cl n (callVMClosure cl func L RS).2 = .ok ⟨⟩ s →
        CallsHost N V cl s c t → c.kind = .access →
        (track (cluaV_executeStep N V cl) (nextTop cl RS.base) n .entry
          (callVMClosure cl func L RS).2).Covers s.RS.base cl.p.maxstacksize.toNat := by
  have hstart : TopKnown RS.base .entry (callVMClosure cl func L RS).2 :=
    ⟨le_rfl, fun _ => hciTop, rfl, rfl, htop⟩
  have hknown : ∀ n s, cluaV_execute N V cl n (callVMClosure cl func L RS).2 = .ok ⟨⟩ s →
      (s.RS.base + cl.p.maxstacksize.toNat ≤ s.RS.top ↔
        (track (cluaV_executeStep N V cl) (nextTop cl RS.base) n .entry
          (callVMClosure cl func L RS).2).Covers s.RS.base cl.p.maxstacksize.toNat) := by
    intro n s hrun
    have hI := track_invariant (fun _ _ _ hI hstep => known_step hV hI hstep) n _ _ s hstart hrun
    exact hI.top.covers_iff _
  constructor
  · intro h n s c t hrun hcall haccess
    have hcovered := h n s c t hrun hcall haccess
    rw [(callsHost_access hcall haccess).1, (callsHost_access hcall haccess).2] at hcovered
    exact (hknown n s hrun).mp hcovered
  · intro h n s c t hrun hcall haccess
    rw [(callsHost_access hcall haccess).1, (callsHost_access hcall haccess).2]
    exact (hknown n s hrun).mpr (h n s c t hrun hcall haccess)

/-! ## Two scripts -/

theorem rbxTables_keepsFrame (xorConst : BitVec 64) : KeepsFrame (rbxTables xorConst) where
  gettable {t key val RS RS'} h := by
    unfold rbxTables at h
    simp only at h
    by_cases htable : t.tt = RBX_TYPE_TABLE
    · rw [if_pos htable] at h
      obtain ⟨-, rfl⟩ := EStateM.Result.ok.inj h
      exact ⟨rfl, rfl, rfl⟩
    · rw [if_neg htable] at h
      exact nomatch h
  settable {t key val RS RS'} h := by
    unfold rbxTables at h
    simp only at h
    by_cases htable : t.tt = RBX_TYPE_TABLE
    · rw [if_pos htable] at h
      by_cases hnil : rbxKey xorConst RS.host.mem key = .nil
      · rw [if_pos hnil] at h
        exact nomatch h
      · rw [if_neg hnil] at h
        obtain ⟨-, rfl⟩ := EStateM.Result.ok.inj h
        exact ⟨rfl, rfl, rfl⟩
    · rw [if_neg htable] at h
      exact nomatch h
  precall_c h := by
    obtain ⟨-, rfl⟩ := rbxCall_ok h
    exact ⟨rfl, rfl⟩
  precall_lua h := absurd (rbxCall_ok h).1 (by decide)
  call h := by
    obtain ⟨-, rfl⟩ := rbxCall_ok h
    exact ⟨rfl, rfl⟩

section

variable {s : CluaVm A} {i : Word}

/-- A round at `OP_GETGLOBAL` whose constant can be made gets to a table access. -/
theorem access_of_getglobal (hi : codeAt cl.p s.pc = some i)
    (hop : OpCode.ofWord (GET_OPCODE i) = some .OP_GETGLOBAL)
    (hended : ended (before N V cl s.robloxBase i (fetched s)) = true) :
    ∃ c t, CallsHost N V cl s c t ∧ c.kind = .access := by
  obtain ⟨c, t, hbefore⟩ := exists_of_ended hended
  have hreached := reached_of_before hbefore
  rcases c with - | c
  · have hcalls := hreached.unkind rfl
    rw [hop] at hcalls
    exact nomatch hcalls
  · have hkind := hreached.kind c rfl
    rw [hop] at hkind
    exact ⟨c, t, ⟨i, hi, hbefore⟩, (Option.some.inj hkind).symm⟩

/-- An access is made by an instruction for one. -/
theorem kindOf_access {c : RbxCall} {t : CluaVm A} (hcall : CallsHost N V cl s c t)
    (haccess : c.kind = .access) (hi : codeAt cl.p s.pc = some i) :
    kindOf (OpCode.ofWord (GET_OPCODE i)) = some .access := by
  obtain ⟨i', hi', hbefore⟩ := hcall
  obtain rfl := Option.some.inj (hi.symm.trans hi')
  have hkind := (reached_of_before hbefore).kind c rfl
  rwa [haccess] at hkind

end

/-- `local f; f(); local y = g` -/
def calledFirst : Closure where
  p := leafHead [.string (luaS_newlstr (chars "g"))]
    [CREATE_ABC OpCode.OP_MOVE.toWord 1 0 0, CREATE_ABC OpCode.OP_CALL.toWord 1 1 1,
      CREATE_ABx OpCode.OP_GETGLOBAL.toWord 1 0, CREATE_ABC OpCode.OP_RETURN.toWord 0 1 0]
    (by decide) (by decide)
  code := 0x2000
  RS := 0

/-- Its run, over a stack that has a function left where `f` is. -/
def calledStart : CluaVm Heap :=
  launchOver calledFirst (Function.update cleared 4 ⟨7, RBX_TYPE_FUNCTION⟩)

/-- Its rounds: the fourth is the last. -/
theorem calledFirst_rounds {n : Nat} {s : CluaVm Heap}
    (hrun : cluaV_execute machineDoubles (rbxTables 0) calledFirst n calledStart = .ok ⟨⟩ s) :
    n < 4 ∧ s.pc = n := by
  have hcontrol : ∀ n < 4, control (cluaV_execute machineDoubles (rbxTables 0) calledFirst n
      calledStart) = some ((n : Int), 4, if n < 2 then 4 else 24) := by decide +kernel
  have hstopped : ended (cluaV_execute machineDoubles (rbxTables 0) calledFirst 4 calledStart)
      = false := by decide +kernel
  have hn : n < 4 := by
    by_contra hge
    obtain ⟨t, ht⟩ := iter_ok_of_le (Nat.le_of_not_lt hge) hrun
    have hfour : cluaV_execute machineDoubles (rbxTables 0) calledFirst 4 calledStart = .ok ⟨⟩ t := ht
    rw [hfour] at hstopped
    exact nomatch hstopped
  exact ⟨hn, (control_of_ok hrun (hcontrol n hn)).1⟩

/-- The third is the one that makes an access. -/
theorem calledFirst_kind {n : Nat} {i : Word} (hn : n < 4) (hi : codeAt calledFirst.p n = some i)
    (hkind : kindOf (OpCode.ofWord (GET_OPCODE i)) = some .access) : n = 2 := by
  have hkinds : ∀ n < 4, (codeAt calledFirst.p (n : Nat)).map
      (fun i => kindOf (OpCode.ofWord (GET_OPCODE i))) = some (some .access) → n = 2 := by
    decide +kernel
  refine hkinds n hn ?_
  rw [hi, Option.map_some, hkind]

/-- After a call without results the top is at the end of the C frame, and there the next
instruction finds it when it reads the global `g`. -/
theorem accessesCovered_called :
    AccessesCovered machineDoubles (rbxTables 0) calledFirst calledStart
      ∧ ∃ n s c t, cluaV_execute machineDoubles (rbxTables 0) calledFirst n calledStart = .ok ⟨⟩ s
        ∧ CallsHost machineDoubles (rbxTables 0) calledFirst s c t ∧ c.kind = .access := by
  let word := CREATE_ABx OpCode.OP_GETGLOBAL.toWord 1 0
  constructor
  · refine (accessesCovered_iff (rbxTables_keepsFrame 0) machineDoubles calledFirst
      (.object .function 7) private₀ _ rfl rfl).mpr (fun n s c t hrun hcall haccess => ?_)
    obtain ⟨hn, hpc⟩ := calledFirst_rounds hrun
    obtain ⟨i, hi, hbefore⟩ := id hcall
    obtain rfl : n = 2 := calledFirst_kind hn (hpc ▸ hi) (kindOf_access hcall haccess hi)
    have htrack : track (cluaV_executeStep machineDoubles (rbxTables 0) calledFirst)
        (nextTop calledFirst thread.base) 2 .entry calledStart = .reset := by decide +kernel
    have hcovers : TopFrom.reset.Covers s.RS.base calledFirst.p.maxstacksize.toNat :=
      show 2 ≤ LUA_MINSTACK by decide
    exact htrack ▸ hcovers
  · have hended : ended (cluaV_execute machineDoubles (rbxTables 0) calledFirst 2 calledStart) = true := by
      decide +kernel
    let reading : CluaM Heap (Option RbxCall) := fun s =>
      before machineDoubles (rbxTables 0) calledFirst s.robloxBase word (fetched s)
    have hbefore : ended ((cluaV_execute machineDoubles (rbxTables 0) calledFirst 2 >>= fun _ => reading)
        calledStart) = true := by decide +kernel
    obtain ⟨_, s, hrun⟩ := exists_of_ended hended
    rw [bind_of_ok hrun] at hbefore
    have hi : codeAt calledFirst.p s.pc = some word := by
      rw [(calledFirst_rounds hrun).2]
      rfl
    obtain ⟨c, t, hcall, haccess⟩ := access_of_getglobal hi (by decide) hbefore
    exact ⟨2, s, c, t, hrun, hcall, haccess⟩

def globalNames : List Constant := [.string (luaS_newlstr [0x78])]

/-- `local a = x` -/
def readGlobal : Closure where
  p := leafHead globalNames
    [CREATE_ABx OpCode.OP_GETGLOBAL.toWord 0 0, CREATE_ABC OpCode.OP_RETURN.toWord 0 1 0]
    (by decide) (by decide)
  code := 0x2000
  RS := 0

/-- **The first table access of a script.** `local a = x` gets to its `OP_GETGLOBAL` with
the top at the first register of the frame: what a metamethod is called with would be
written over the registers. -/
theorem getglobal_uncovered : ∃ c t,
    CallsHost machineDoubles (rbxTables 0) readGlobal
        (callVMClosure readGlobal (.object .function 7) private₀ thread).2 c t
      ∧ c.kind = .access ∧ t.RS.top = t.RS.base
      ∧ t.RS.top < t.RS.base + readGlobal.p.maxstacksize.toNat := by
  have hfetched : codeAt readGlobal.p
      (callVMClosure readGlobal (.object .function 7) private₀ thread).2.pc
        = some (CREATE_ABx OpCode.OP_GETGLOBAL.toWord 0 0) := rfl
  obtain ⟨c, t, hcall, haccess⟩ := access_of_getglobal (N := machineDoubles) (V := rbxTables 0)
    hfetched (by decide) (by decide +kernel)
  obtain ⟨hbase, htop⟩ := callsHost_access hcall haccess
  have hat : t.RS.top = t.RS.base := htop.trans hbase.symm
  refine ⟨c, t, hcall, haccess, hat, ?_⟩
  rw [hat]
  exact Nat.lt_add_of_pos_right (by decide)

end NostalgiaConv.HostTop
