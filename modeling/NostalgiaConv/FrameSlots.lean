/-
The registers of a run, and the slots that the host has promised for them.

`cluaD_precall` makes room for the script's registers, on the private state. They lie on
the host's stack, in the frame of `CallVMClosure`, and there the host promises a C
function `LUA_MINSTACK` slots. `slotsNeeded` is how many of them an instruction's
operands need; a run that enters no Lua function stays in the guaranteed slots if and only
if no instruction that it executes needs more. Where the checker has passed the instructions,
and generic loops have the space that the compiler gives them, that is a bound on the
frame: a script whose frame fits is safe, and for every larger frame there is one that is
not.
-/
import NostalgiaConv.HostTop
import NostalgiaConv.Undump

set_option autoImplicit false

namespace NostalgiaConv.FrameSlots

open NostalgiaConv.Cipher NostalgiaConv.Host NostalgiaConv.Opcodes NostalgiaConv.Value
open NostalgiaConv.Transpile NostalgiaConv.BumpHost NostalgiaConv.Relational NostalgiaConv.Hoare
open NostalgiaConv.Interpreter NostalgiaConv.Lvm NostalgiaConv.Clvm NostalgiaConv.RegisterUse
open NostalgiaConv.HostCalls NostalgiaConv.HostTop NostalgiaConv.TableHost NostalgiaConv.Lockstep
open NostalgiaConv.StaleStack

def MAXSTACK : Nat := 250

/-! ## The registers that an instruction names -/

def rkRegisters (x : Word) : List Nat := if ISK x then [] else [x.toNat]

/-- As offsets from the base; of a call the function and the arguments up to `B`. -/
def registers (i : Word) : List Nat :=
  match OpCode.ofWord (GET_OPCODE i) with
  | some .OP_GETGLOBAL | some .OP_SETGLOBAL | some .OP_LOADK | some .OP_LOADBOOL => [argA i]
  | some .OP_GETTABLE => argA i :: argB i :: rkRegisters (GETARG_C i)
  | some .OP_SETTABLE => argA i :: (rkRegisters (GETARG_B i) ++ rkRegisters (GETARG_C i))
  | some .OP_SELF => argA i :: (argA i + 1) :: argB i :: rkRegisters (GETARG_C i)
  | some .OP_CALL => argA i :: List.range' (argA i) (argB i)
  | some .OP_FORPREP => List.range' (argA i) 3
  | some .OP_FORLOOP => List.range' (argA i) 4
  | some .OP_TFORLOOP => List.range' (argA i) 6
  | some .OP_NOT | some .OP_MOVE => [argA i, argB i]
  | some .OP_LOADNIL => argB i :: List.range' (argA i) (argB i + 1 - argA i)
  | _ => []

variable {A W : Type}

/-- The same as slots. -/
def named (i : Word) (s : CluaVm A) : Set Nat := {n | ∃ r ∈ registers i, n = s.robloxBase + r}

theorem mem_rkRegisters {base : Nat} {x : Word} {n : Nat} (h : n ∈ rkReads base x) :
    ∃ r ∈ rkRegisters x, n = base + r := by
  obtain ⟨hreg, rfl⟩ := h
  refine ⟨x.toNat, ?_, rfl⟩
  unfold rkRegisters
  rw [hreg]
  exact List.mem_singleton_self _

/-- A range of slots is a range of registers. -/
theorem mem_range_of_slots {base a k n : Nat} (h : n ∈ slots (base + a) (base + a + k)) :
    ∃ r ∈ List.range' a k, n = base + r := by
  obtain ⟨hle, hlt⟩ := h
  refine ⟨n - base, ?_, by omega⟩
  rw [List.mem_range'_1]
  omega

/-- **What an instruction reads, it names**, but for the arguments of a call that are
counted by the top. -/
theorem reads_subset {i : Word} {s : CluaVm A}
    (hfixed : OpCode.ofWord (GET_OPCODE i) = some .OP_CALL → argB i ≠ 0) :
    reads i s ⊆ named i s := by
  intro n hn
  unfold reads at hn
  unfold named registers
  cases hop : OpCode.ofWord (GET_OPCODE i) with
  | none =>
    rw [hop] at hn
    exact hn.elim
  | some o =>
    rw [hop] at hn hfixed
    cases o with
    | OP_MOVE | OP_NOT => exact ⟨argB i, by simp, hn⟩
    | OP_SETGLOBAL => exact ⟨argA i, by simp, hn⟩
    | OP_GETTABLE =>
      rcases hn with hB | hC
      · exact ⟨argB i, by simp, hB⟩
      · obtain ⟨r, hr, hn⟩ := mem_rkRegisters hC
        exact ⟨r, by simp [hr], hn⟩
    | OP_SETTABLE =>
      rcases hn with (hA | hB) | hC
      · exact ⟨argA i, by simp, hA⟩
      · obtain ⟨r, hr, hn⟩ := mem_rkRegisters hB
        exact ⟨r, by simp [hr], hn⟩
      · obtain ⟨r, hr, hn⟩ := mem_rkRegisters hC
        exact ⟨r, by simp [hr], hn⟩
    | OP_SELF =>
      rcases hn with hB | ⟨hC, -⟩
      · exact ⟨argB i, by simp, hB⟩
      · obtain ⟨r, hr, hn⟩ := mem_rkRegisters hC
        exact ⟨r, by simp [hr], hn⟩
    | OP_CALL =>
      rcases hn with hA | hargs
      · exact ⟨argA i, by simp, hA⟩
      · rw [if_pos (hfixed rfl)] at hargs
        obtain ⟨r, hr, hn⟩ := mem_range_of_slots hargs
        exact ⟨r, List.mem_cons_of_mem _ hr, hn⟩
    | OP_FORPREP => exact mem_range_of_slots hn
    | OP_FORLOOP =>
      obtain ⟨r, hr, hn⟩ := mem_range_of_slots (k := 4) ⟨hn.1, by have := hn.2; omega⟩
      exact ⟨r, hr, hn⟩
    | OP_TFORLOOP =>
      obtain ⟨r, hr, hn⟩ := mem_range_of_slots (k := 6) ⟨hn.1, by have := hn.2; omega⟩
      exact ⟨r, hr, hn⟩
    | _ => exact hn.elim

/-- **What an instruction writes, it names**, but for the results of a call, which the
host writes. -/
theorem writes_subset {N : Doubles} {V : RbxApi A} {i : Word} {s s' : CluaVm A}
    (hcall : OpCode.ofWord (GET_OPCODE i) ≠ some .OP_CALL)
    (htforloop : OpCode.ofWord (GET_OPCODE i) ≠ some .OP_TFORLOOP) :
    writes N V i s s' ⊆ named i s := by
  intro n hn
  unfold writes at hn
  unfold named registers
  cases hop : OpCode.ofWord (GET_OPCODE i) with
  | none =>
    rw [hop] at hn
    exact hn.elim
  | some o =>
    rw [hop] at hn hcall htforloop
    cases o with
    | OP_CALL => exact absurd rfl hcall
    | OP_TFORLOOP => exact absurd rfl htforloop
    | OP_MOVE | OP_LOADK | OP_LOADBOOL | OP_NOT | OP_GETGLOBAL | OP_GETTABLE =>
      exact ⟨argA i, by simp, hn⟩
    | OP_LOADNIL =>
      obtain ⟨hle, hge | heq⟩ := hn
      · refine ⟨n - s.robloxBase, List.mem_cons_of_mem _ ?_, by omega⟩
        rw [List.mem_range'_1]
        omega
      · exact ⟨argB i, by simp, heq⟩
    | OP_SELF =>
      rcases hn with hA | hA
      · exact ⟨argA i, by simp, hA⟩
      · exact ⟨argA i + 1, by simp, hA⟩
    | OP_FORLOOP =>
      obtain ⟨-, hA | hA⟩ := hn
      · exact ⟨argA i, by simp [List.mem_range'_1], hA⟩
      · exact ⟨argA i + 3, by simp [List.mem_range'_1], hA⟩
    | _ => exact hn.elim

/-! ## The slots that an instruction needs -/

def rkSlots (x : Word) : Nat := if ISK x then 0 else x.toNat + 1

/-- One more than the largest register that an instruction names, or none. -/
def slotsNeeded (i : Word) : Nat :=
  match OpCode.ofWord (GET_OPCODE i) with
  | some .OP_GETGLOBAL | some .OP_SETGLOBAL | some .OP_LOADK | some .OP_LOADBOOL => argA i + 1
  | some .OP_GETTABLE => max (argA i + 1) (max (argB i + 1) (rkSlots (GETARG_C i)))
  | some .OP_SETTABLE => max (argA i + 1) (max (rkSlots (GETARG_B i)) (rkSlots (GETARG_C i)))
  | some .OP_SELF => max (argA i + 2) (max (argB i + 1) (rkSlots (GETARG_C i)))
  | some .OP_CALL => argA i + max 1 (argB i)
  | some .OP_FORPREP => argA i + 3
  | some .OP_FORLOOP => argA i + 4
  | some .OP_TFORLOOP => argA i + 6
  | some .OP_NOT | some .OP_MOVE => max (argA i + 1) (argB i + 1)
  | some .OP_LOADNIL => argB i + 1
  | _ => 0

theorem rkRegisters_lt_iff {x : Word} {m k : Nat} (hmk : m ≤ k) :
    (∀ r ∈ rkRegisters x, m + r < k) ↔ m + rkSlots x ≤ k := by
  unfold rkRegisters rkSlots
  by_cases hk : ISK x = true
  · rw [if_pos hk, if_pos hk]
    exact iff_of_true (List.forall_mem_nil _) hmk
  · rw [if_neg hk, if_neg hk, List.forall_mem_singleton]
    exact Nat.add_assoc m x.toNat 1 ▸ Iff.rfl

theorem range_lt_iff {a n m k : Nat} :
    (∀ r ∈ List.range' a (n + 1), m + r < k) ↔ m + (a + (n + 1)) ≤ k := by
  simp only [List.mem_range'_1]
  refine ⟨fun h => ?_, fun h r hr => by omega⟩
  have hlast := h (a + n) (by omega)
  omega

/-- The registers of an instruction are below `k` when the slots that it needs are, from
wherever they are counted. -/
theorem registers_lt_iff {i : Word} {m k : Nat} :
    (∀ r ∈ registers i, m + r < k) ↔ slotsNeeded i = 0 ∨ m + slotsNeeded i ≤ k := by
  unfold registers slotsNeeded
  cases OpCode.ofWord (GET_OPCODE i) with
  | none => exact iff_of_true (List.forall_mem_nil _) (Or.inl rfl)
  | some o =>
    cases o with
    | OP_GETGLOBAL | OP_SETGLOBAL | OP_LOADK | OP_LOADBOOL =>
      simp only [List.forall_mem_singleton]
      omega
    | OP_NOT | OP_MOVE =>
      simp only [List.forall_mem_cons, List.not_mem_nil, false_imp_iff, implies_true, and_true]
      omega
    | OP_GETTABLE =>
      simp only [List.forall_mem_cons]
      by_cases hmk : m ≤ k
      · rw [rkRegisters_lt_iff hmk]
        omega
      · exact iff_of_false (fun h => by omega) (by omega)
    | OP_SETTABLE =>
      simp only [List.forall_mem_cons, List.forall_mem_append]
      by_cases hmk : m ≤ k
      · rw [rkRegisters_lt_iff hmk, rkRegisters_lt_iff hmk]
        omega
      · exact iff_of_false (fun h => by omega) (by omega)
    | OP_SELF =>
      simp only [List.forall_mem_cons]
      by_cases hmk : m ≤ k
      · rw [rkRegisters_lt_iff hmk]
        omega
      · exact iff_of_false (fun h => by omega) (by omega)
    | OP_CALL =>
      -- the function, and the arguments behind it if their number is known
      simp only [List.forall_mem_cons]
      cases hB : argB i with
      | zero =>
        simp only [List.range'_zero, List.not_mem_nil, false_imp_iff, implies_true, and_true]
        omega
      | succ n =>
        rw [range_lt_iff]
        omega
    | OP_FORPREP | OP_FORLOOP | OP_TFORLOOP =>
      simp only [range_lt_iff]
      omega
    | OP_LOADNIL =>
      -- from `A` to `B`, which is the last
      simp only [List.forall_mem_cons, List.mem_range'_1]
      refine ⟨fun h => Or.inr (by omega), fun h => ⟨by omega, fun r hr => by omega⟩⟩
    | _ => exact iff_of_true (List.forall_mem_nil _) (Or.inl rfl)

/-! ## The slots of `CallVMClosure`'s frame -/

/-- Every register that an executed instruction names lies in the slots that the host
guarantees above `base₀`. -/
def RegistersGuaranteed (N : Doubles) (V : RbxApi A) (cl : Closure) (base₀ : Nat)
    (start : CluaVm A) : Prop :=
  ∀ n s i, cluaV_execute N V cl n start = .ok ⟨⟩ s → codeAt cl.p s.pc = some i →
    ∀ r ∈ registers i, base₀ ≤ s.robloxBase + r ∧ s.robloxBase + r < base₀ + LUA_MINSTACK

section

variable (N : Doubles) (V : RbxApi A) (cl : Closure)

/-- Where `rbxV_precall` puts the frame of a Lua function, if the round that starts in `s`
enters one. -/
def enteredFrame (s : CluaVm A) : Option Nat :=
  match codeAt cl.p s.pc with
  | none => none
  | some i =>
    match before N V cl s.robloxBase i (fetched s) with
    | .ok (some (.precall func nresults)) t =>
      match V.rbxV_precall func nresults t.RS with
      | .ok r RS' => if r = PCRLUA then some RS'.base else none
      | .error _ _ => none
    | _ => none

/-- The frame of the Lua function that was entered last. -/
def nextFrame (g : Nat) (s _ : CluaVm A) : Nat := (enteredFrame N V cl s).getD g

/-- No call of the run is of a Lua function of the host. -/
def EntersNoLua (start : CluaVm A) : Prop :=
  ∀ n s, cluaV_execute N V cl n start = .ok ⟨⟩ s → enteredFrame N V cl s = none

end

/-- Between two rounds. -/
structure FrameKnown (base₀ g : Nat) (s : CluaVm A) : Prop where
  le : base₀ ≤ g
  robloxBase : s.robloxBase = s.RS.base
  base : s.RS.base = g

section

variable {N : Doubles} {V : RbxApi A} {cl : Closure} {base₀ g : Nat} {s s' : CluaVm A} {i : Word}

/-- What a round whose call has returned has entered. -/
theorem enteredFrame_eq {c : Option RbxCall} {t : CluaVm A} {r : Int} {RS' : RbxState A}
    (hi : codeAt cl.p s.pc = some i) (hbefore : before N V cl s.robloxBase i (fetched s) = .ok c t)
    (hperformed : Performed V c t.RS r RS') :
    enteredFrame N V cl s = if r = PCRLUA then some RS'.base else none := by
  unfold enteredFrame
  simp only [hi, hbefore]
  cases hperformed with
  | precall h => simp only [h]
  | _ => rfl

theorem frameKnown_step (hV : KeepsFrame V) (hI : FrameKnown base₀ g s)
    (hstep : cluaV_executeStep N V cl s = .ok ⟨⟩ s') :
    FrameKnown base₀ (nextFrame N V cl g s s') s' := by
  obtain ⟨i, c, t, r, t', hi, hbefore, hcall, hafter⟩ := executeStep_ok hstep
  obtain ⟨RS', hperformed, rfl⟩ := performed_ok hcall
  have hreached := reached_of_before hbefore
  have hfinished := after_spec s.robloxBase r _ _ _ rfl hafter
  have hbase : s'.RS.base = RS'.base := hfinished.base
  have hrobloxBase := robloxBase_step hI.robloxBase hreached hperformed hfinished
  unfold nextFrame
  rw [enteredFrame_eq hi hbefore hperformed]
  rcases base_step hV hreached hperformed hfinished with ⟨hlua, hlt⟩ | ⟨hc, heq, -⟩
  · -- a Lua function was entered, and its frame is above
    rw [if_pos hlua]
    refine ⟨?_, hrobloxBase, hbase⟩
    show base₀ ≤ RS'.base
    rw [← hbase]
    exact hI.le.trans (hI.base ▸ hlt.le)
  · rw [if_neg (by rw [hc]; decide)]
    exact ⟨hI.le, hrobloxBase, heq.trans hI.base⟩

theorem frameKnown_run (hV : KeepsFrame V) (func : LuaValue) (L : LuaState W) (RS : RbxState A)
    {n : Nat} (hrun : cluaV_execute N V cl n (callVMClosure cl func L RS).2 = .ok ⟨⟩ s) :
    FrameKnown RS.base (track (cluaV_executeStep N V cl) (nextFrame N V cl) n RS.base
      (callVMClosure cl func L RS).2) s :=
  track_invariant (fun _ _ _ hI hstep => frameKnown_step hV hI hstep) n _ _ s
    ⟨le_rfl, rfl, rfl⟩ hrun

/-- Without a Lua function the frame stays that of `CallVMClosure`. -/
theorem base_of_entersNoLua (hV : KeepsFrame V) {start : CluaVm A}
    (hstart : FrameKnown base₀ base₀ start) (hnone : EntersNoLua N V cl start) {n : Nat}
    (hrun : cluaV_execute N V cl n start = .ok ⟨⟩ s) : FrameKnown base₀ base₀ s := by
  induction n generalizing s with
  | zero =>
    obtain ⟨-, rfl⟩ := EStateM.Result.ok.inj hrun
    exact hstart
  | succ n ih =>
    obtain ⟨t, ht, hstep⟩ := iter_succ_eq_ok.mp hrun
    have hnext := frameKnown_step hV (ih ht) hstep
    unfold nextFrame at hnext
    rwa [hnone n t ht] at hnext

/-- In a run, the slots are counted from the frame of the Lua function entered last. -/
theorem registersGuaranteed_iff_needed (hV : KeepsFrame V) (N : Doubles) (cl : Closure)
    (func : LuaValue) (L : LuaState W) (RS : RbxState A) :
    RegistersGuaranteed N V cl RS.base (callVMClosure cl func L RS).2
      ↔ ∀ n s i, cluaV_execute N V cl n (callVMClosure cl func L RS).2 = .ok ⟨⟩ s →
        codeAt cl.p s.pc = some i → slotsNeeded i = 0
          ∨ track (cluaV_executeStep N V cl) (nextFrame N V cl) n RS.base
              (callVMClosure cl func L RS).2 + slotsNeeded i ≤ RS.base + LUA_MINSTACK := by
  constructor
  · intro h n s i hrun hi
    have hknown := frameKnown_run hV func L RS hrun
    rw [← hknown.base, ← hknown.robloxBase]
    exact registers_lt_iff.mp (fun r hr => (h n s i hrun hi r hr).2)
  · intro h n s i hrun hi r hr
    have hknown := frameKnown_run hV func L RS hrun
    have hneeded := h n s i hrun hi
    rw [← hknown.base, ← hknown.robloxBase] at hneeded
    refine ⟨?_, registers_lt_iff.mpr hneeded r hr⟩
    rw [hknown.robloxBase, hknown.base]
    exact Nat.le_add_right_of_le hknown.le

/-- And where none was entered, from that of `CallVMClosure`. -/
theorem registersGuaranteed_iff_own (hV : KeepsFrame V) (N : Doubles) (cl : Closure)
    (func : LuaValue) (L : LuaState W) (RS : RbxState A)
    (hnone : EntersNoLua N V cl (callVMClosure cl func L RS).2) :
    RegistersGuaranteed N V cl RS.base (callVMClosure cl func L RS).2
      ↔ ∀ n s i, cluaV_execute N V cl n (callVMClosure cl func L RS).2 = .ok ⟨⟩ s →
        codeAt cl.p s.pc = some i → slotsNeeded i ≤ LUA_MINSTACK := by
  have hbase : ∀ {n s}, cluaV_execute N V cl n (callVMClosure cl func L RS).2 = .ok ⟨⟩ s →
      s.robloxBase = RS.base := by
    intro n s hrun
    have hknown := base_of_entersNoLua hV ⟨le_rfl, rfl, rfl⟩ hnone hrun
    exact hknown.robloxBase.trans hknown.base
  constructor
  · intro h n s i hrun hi
    have hneeded := registers_lt_iff.mp (fun r hr => (h n s i hrun hi r hr).2)
    rw [hbase hrun] at hneeded
    omega
  · intro h n s i hrun hi r hr
    have hneeded := h n s i hrun hi
    refine ⟨by rw [hbase hrun]; exact Nat.le_add_right _ _, ?_⟩
    refine registers_lt_iff.mpr (Or.inr ?_) r hr
    rw [hbase hrun]
    exact Nat.add_le_add_left hneeded _

end

/-! ## The checker -/

section

variable (p : ProtoHead)

def checkreg (reg : Nat) : Bool := reg < p.maxstacksize.toNat

def checkArgMode (r : Word) : OpArgMask → Bool
  | .OpArgN => r = 0
  | .OpArgU => true
  | .OpArgR => checkreg p r.toNat
  | .OpArgK => if ISK r then INDEXK r < p.k.length else checkreg p r.toNat

/-- What `symbexec` checks of the registers of one instruction. -/
def symbexecRegs (i : Word) : Bool :=
  match OpCode.ofWord (GET_OPCODE i) with
  | none => false
  | some op =>
    checkreg p (argA i)
      && (getOpMode op ≠ .iABC || checkArgMode p (GETARG_B i) (getBMode op)
        && checkArgMode p (GETARG_C i) (getCMode op))
      && match op with
        | .OP_SELF => checkreg p (argA i + 1)
        | .OP_TFORLOOP => 1 ≤ argC i && checkreg p (argA i + 2 + argC i)
        | .OP_FORLOOP | .OP_FORPREP => checkreg p (argA i + 3)
        | .OP_CALL | .OP_TAILCALL =>
          (argB i = 0 || checkreg p (argA i + argB i - 1))
            && (argC i ≤ 1 || checkreg p (argA i + argC i - 2))
        | .OP_RETURN => argB i ≤ 1 || checkreg p (argA i + argB i - 2)
        | .OP_SETLIST => argB i = 0 || checkreg p (argA i + argB i)
        | .OP_VARARG => checkreg p (argA i + argB i - 2)
        | _ => true

/-- `luaK_checkstack(fs, 3)` of `forlist`: what the compiler, not the checker, sees to. -/
def GeneratorSpace (i : Word) : Prop :=
  OpCode.ofWord (GET_OPCODE i) = some .OP_TFORLOOP → argA i + 5 < p.maxstacksize.toNat

end

section

variable {p : ProtoHead} {i : Word}

theorem rk_lt {x : Word} (h : checkArgMode p x .OpArgK = true) :
    ∀ r ∈ rkRegisters x, r < p.maxstacksize.toNat := by
  intro r hr
  unfold rkRegisters at hr
  unfold checkArgMode at h
  by_cases hk : ISK x = true
  · rw [if_pos hk] at hr
    exact nomatch hr
  · rw [if_neg hk] at hr h
    rw [List.mem_singleton.mp hr]
    simpa [checkreg] using h

theorem checkreg_iff {reg : Nat} : checkreg p reg = true ↔ reg < p.maxstacksize.toNat :=
  decide_eq_true_iff

/-- **A checked instruction names registers of its frame only.** -/
theorem registers_lt (hchecked : symbexecRegs p i = true) (hspace : GeneratorSpace p i) :
    ∀ r ∈ registers i, r < p.maxstacksize.toNat := by
  intro r hr
  unfold symbexecRegs at hchecked
  unfold registers at hr
  unfold GeneratorSpace at hspace
  cases hop : OpCode.ofWord (GET_OPCODE i) with
  | none =>
    rw [hop] at hr
    exact nomatch hr
  | some o =>
    rw [hop] at hr hchecked hspace
    simp only [Bool.and_eq_true] at hchecked
    obtain ⟨⟨hA, hmodes⟩, hop'⟩ := hchecked
    rw [checkreg_iff] at hA
    have hargs : getOpMode o = .iABC → checkArgMode p (GETARG_B i) (getBMode o) = true
        ∧ checkArgMode p (GETARG_C i) (getCMode o) = true := by
      intro habc
      simpa [habc] using hmodes
    have hB : getOpMode o = .iABC → getBMode o = .OpArgR → argB i < p.maxstacksize.toNat := by
      intro habc hmode
      have h := (hargs habc).1
      rw [hmode] at h
      exact checkreg_iff.mp h
    cases o with
    | OP_GETGLOBAL | OP_SETGLOBAL | OP_LOADK | OP_LOADBOOL =>
      rw [List.mem_singleton.mp hr]
      exact hA
    | OP_NOT | OP_MOVE =>
      simp only [List.mem_cons, List.not_mem_nil, or_false] at hr
      rcases hr with rfl | rfl
      · exact hA
      · exact hB rfl rfl
    | OP_GETTABLE =>
      simp only [List.mem_cons] at hr
      rcases hr with rfl | rfl | hC
      · exact hA
      · exact hB rfl rfl
      · exact rk_lt (hargs rfl).2 r hC
    | OP_SETTABLE =>
      simp only [List.mem_cons, List.mem_append] at hr
      rcases hr with rfl | hB | hC
      · exact hA
      · exact rk_lt (hargs rfl).1 r hB
      · exact rk_lt (hargs rfl).2 r hC
    | OP_SELF =>
      simp only [List.mem_cons] at hr
      rcases hr with rfl | rfl | rfl | hC
      · exact hA
      · exact checkreg_iff.mp hop'
      · exact hB rfl rfl
      · exact rk_lt (hargs rfl).2 r hC
    | OP_CALL =>
      simp only [List.mem_cons, List.mem_range'_1] at hr
      simp only [Bool.and_eq_true, Bool.or_eq_true, decide_eq_true_eq, checkreg_iff] at hop'
      omega
    | OP_FORPREP | OP_FORLOOP =>
      rw [List.mem_range'_1] at hr
      have hlast := checkreg_iff.mp hop'
      omega
    | OP_TFORLOOP =>
      -- the registers of the iterator's call are more than the checker asks for
      rw [List.mem_range'_1] at hr
      have hlast := hspace rfl
      omega
    | OP_LOADNIL =>
      simp only [List.mem_cons, List.mem_range'_1] at hr
      have hlast := hB rfl rfl
      omega
    | _ => exact nomatch hr

/-! ## The whole checker -/

theorem checkreg_ofHead {reg : Int} :
    CodeCheck.checkreg (Undump.ofHead p) reg = true ↔ reg < p.maxstacksize.toNat :=
  decide_eq_true_iff

theorem checkArgMode_ofHead (r : Word) (m : OpArgMask) :
    CodeCheck.checkArgMode (Undump.ofHead p) r m = checkArgMode p r m := by
  have hreg : CodeCheck.checkreg (Undump.ofHead p) r.toNat = checkreg p r.toNat :=
    decide_eq_decide.mpr Int.ofNat_lt
  have hk : (Undump.ofHead p).k.length = p.k.length := List.length_map _
  cases m with
  | OpArgN | OpArgU => rfl
  | OpArgR => exact hreg
  | OpArgK => rw [CodeCheck.checkArgMode, checkArgMode, hreg, hk]

/-- An instruction that `luaG_checkcode` has passed has passed the register checks. -/
theorem symbexecRegs_of_checkInstr {pnups : List Nat} {pc : Nat}
    (h : CodeCheck.checkInstr (Undump.ofHead p) pnups pc = true) :
    symbexecRegs p (CodeCheck.codeWord (Undump.ofHead p) pc) = true := by
  obtain ⟨op, hop, hA, hoperands, hcheck⟩ := CodeCheck.checkInstr_spec h
  generalize CodeCheck.codeWord (Undump.ofHead p) pc = w at hop hA hoperands hcheck ⊢
  unfold symbexecRegs
  rw [checkreg_ofHead, Int.ofNat_lt] at hA
  simp only [hop, Bool.and_eq_true]
  refine ⟨⟨checkreg_iff.mpr hA, ?_⟩, ?_⟩
  · -- outside `iABC` no operand but `A` is a register
    rw [CodeCheck.checkOperands, checkArgMode_ofHead, checkArgMode_ofHead] at hoperands
    cases hmode : getOpMode op with
    | iABC =>
      rw [hmode] at hoperands
      simpa using hoperands
    | iABx | iAsBx => rfl
  · have hB : ∀ o, getOpMode o = .iABC → CodeCheck.operandB o w = argB w := by
      intro o hmode
      rw [CodeCheck.operandB, hmode]
    have hC : ∀ o, getOpMode o = .iABC → CodeCheck.operandC o w = argC w := by
      intro o hmode
      rw [CodeCheck.operandC, hmode]
    cases op with
    | OP_SELF | OP_FORLOOP | OP_FORPREP =>
      have hnext := checkreg_ofHead.mp hcheck
      exact checkreg_iff.mpr (by omega)
    | OP_TFORLOOP =>
      rw [hC _ rfl] at hcheck
      simp only [CodeCheck.checkOp, Bool.and_eq_true, decide_eq_true_eq, checkreg_ofHead] at hcheck
      simp only [Bool.and_eq_true, decide_eq_true_eq, checkreg_iff]
      omega
    | OP_CALL | OP_TAILCALL =>
      rw [hB _ rfl, hC _ rfl] at hcheck
      simp only [CodeCheck.checkOp, Bool.and_eq_true, Bool.or_eq_true, decide_eq_true_eq,
        checkreg_ofHead] at hcheck
      simp only [Bool.and_eq_true, Bool.or_eq_true, decide_eq_true_eq, checkreg_iff]
      refine ⟨by omega, ?_⟩
      by_cases hopen : (argC w : Int) - 1 = -1
      · exact Or.inl (by omega)
      · simp only [if_neg hopen, Bool.or_eq_true, decide_eq_true_eq, checkreg_ofHead] at hcheck
        omega
    | OP_RETURN =>
      rw [hB _ rfl] at hcheck
      simp only [CodeCheck.checkOp, Bool.or_eq_true, decide_eq_true_eq, checkreg_ofHead] at hcheck
      simp only [Bool.or_eq_true, decide_eq_true_eq, checkreg_iff]
      omega
    | OP_SETLIST =>
      rw [hB _ rfl] at hcheck
      simp only [CodeCheck.checkOp, Bool.and_eq_true, Bool.or_eq_true, decide_eq_true_eq,
        checkreg_ofHead] at hcheck
      simp only [Bool.or_eq_true, decide_eq_true_eq, checkreg_iff]
      omega
    | OP_VARARG =>
      rw [hB _ rfl] at hcheck
      simp only [CodeCheck.checkOp, Bool.and_eq_true, checkreg_ofHead] at hcheck
      exact checkreg_iff.mpr (by omega)
    | _ => rfl

/-- So have all instructions of an accepted function. -/
theorem symbexecRegs_of_checkcode {f : CodeCheck.LProto} (hf : f.head = Undump.ofHead p)
    (h : CodeCheck.luaG_checkcode f = true) {n : Nat} (hlt : n < p.code.length)
    (hn : CodeCheck.isCount f.head n = false) :
    symbexecRegs p (CodeCheck.codeWord f.head n) = true := by
  have hlt' : n < f.head.code.length := by
    rw [hf]
    exact hlt
  have hcheck := CodeCheck.checkcode_checked h hlt' hn
  rw [hf] at hcheck ⊢
  exact symbexecRegs_of_checkInstr hcheck

/-! ## Frames of a given size -/

/-- Every instruction that is executed has passed the checker, and has the space that the
compiler gives it. -/
def CheckedRun (N : Doubles) (V : RbxApi A) (cl : Closure) (start : CluaVm A) : Prop :=
  ∀ n s i, cluaV_execute N V cl n start = .ok ⟨⟩ s → codeAt cl.p s.pc = some i →
    symbexecRegs cl.p i = true ∧ GeneratorSpace cl.p i

theorem slotsNeeded_le {p : ProtoHead} {i : Word} (hchecked : symbexecRegs p i = true)
    (hspace : GeneratorSpace p i) : slotsNeeded i ≤ p.maxstacksize.toNat := by
  have hlt : ∀ r ∈ registers i, 0 + r < p.maxstacksize.toNat := by
    intro r hr
    rw [Nat.zero_add]
    exact registers_lt hchecked hspace r hr
  rcases registers_lt_iff.mp hlt with hzero | hle
  · exact hzero.trans_le (Nat.zero_le _)
  · rwa [Nat.zero_add] at hle

/-- The checker alone does not bound it: for one result it asks for two registers less. -/
example :
    let w := CREATE_ABC OpCode.OP_TFORLOOP.toWord 16 0 1
    let p := { leafHead [] [w, CREATE_ABx OpCode.OP_JMP.toWord 0 MAXARG_sBx,
      CREATE_ABC OpCode.OP_RETURN.toWord 0 1 0] noConstants_fit (by decide) with maxstacksize := 20 }
    CodeCheck.luaG_checkcode (.mk (Undump.ofHead p) 0 nofun) = true ∧ slotsNeeded w = 22 := by
  decide +kernel

/-- All scripts with a frame of `m` registers are safe, as long as they enter no Lua
function. -/
def FrameSizeSafe (m : Nat) : Prop :=
  ∀ (A W : Type) (N : Doubles) (V : RbxApi A) (cl : Closure) (func : LuaValue) (L : LuaState W)
    (RS : RbxState A), KeepsFrame V → cl.p.maxstacksize.toNat = m →
    EntersNoLua N V cl (callVMClosure cl func L RS).2 →
    CheckedRun N V cl (callVMClosure cl func L RS).2 →
    RegistersGuaranteed N V cl RS.base (callVMClosure cl func L RS).2

theorem frameSizeSafe_of_le {m : Nat} (hle : m ≤ LUA_MINSTACK) : FrameSizeSafe m := by
  intro A W N V cl func L RS hV hsize hnone hchecked
  rw [registersGuaranteed_iff_own hV N cl func L RS hnone]
  intro n s i hrun hi
  obtain ⟨hregs, hspace⟩ := hchecked n s i hrun hi
  exact (slotsNeeded_le hregs hspace).trans (hsize.trans_le hle)

end

/-! ## Scripts with too many registers -/

def loadTrue (r : Nat) : Word := CREATE_ABC OpCode.OP_LOADBOOL.toWord (BitVec.ofNat 32 r) 1 0

def returnFrom (n : Nat) : Word := CREATE_ABC OpCode.OP_RETURN.toWord 0 (BitVec.ofNat 32 n) 0

theorem loadTrue_fields {r : Nat} (hr : r < 250) :
    OpCode.ofWord (GET_OPCODE (loadTrue r)) = some .OP_LOADBOOL ∧ argA (loadTrue r) = r
      ∧ GETARG_C (loadTrue r) = 0 := by
  have hall : ∀ r : Fin 250, OpCode.ofWord (GET_OPCODE (loadTrue r)) = some .OP_LOADBOOL
      ∧ argA (loadTrue r) = r ∧ GETARG_C (loadTrue r) = 0 := by
    decide +kernel
  exact hall ⟨r, hr⟩

theorem returnFrom_fields {n : Nat} (hn : n < 252) :
    OpCode.ofWord (GET_OPCODE (returnFrom n)) = some .OP_RETURN ∧ argA (returnFrom n) = 0
      ∧ argB (returnFrom n) = n ∧ GETARG_C (returnFrom n) = 0 := by
  have hall : ∀ n : Fin 252, OpCode.ofWord (GET_OPCODE (returnFrom n)) = some .OP_RETURN
      ∧ argA (returnFrom n) = 0 ∧ argB (returnFrom n) = n ∧ GETARG_C (returnFrom n) = 0 := by
    decide +kernel
  exact hall ⟨n, hn⟩

def truesCode (m : Nat) : List Word :=
  (List.range m).map loadTrue ++ [returnFrom (m + 1), returnFrom 1]

theorem truesCode_fits {m : Nat} (hm : m ≤ MAXSTACK) : 4 * (truesCode m).length < 2 ^ 32 := by
  unfold MAXSTACK at hm
  simp only [truesCode, List.length_append, List.length_map, List.length_range, List.length_cons,
    List.length_nil]
  omega

/-- `return true, …, true`, with `m` values. -/
def returnTrues (m : Nat) (hm : m ≤ MAXSTACK) : Closure where
  p := { leafHead [] (truesCode m) noConstants_fit (truesCode_fits hm) with
    maxstacksize := BitVec.ofNat 8 m }
  code := 0x2000
  RS := 0

section

variable {m : Nat} {hm : m ≤ MAXSTACK} {N : Doubles} {V : RbxApi A} {s s' : CluaVm A} {i : Word}

theorem maxstacksize_returnTrues : (returnTrues m hm).p.maxstacksize.toNat = m := by
  show (BitVec.ofNat 8 m).toNat = m
  unfold MAXSTACK at hm
  rw [BitVec.toNat_ofNat]
  omega

theorem codeAt_returnTrues {r : Nat} (hr : r < m) :
    codeAt (returnTrues m hm).p r = some (loadTrue r) := by
  unfold codeAt
  rw [if_pos (Int.natCast_nonneg r)]
  show (truesCode m)[r]? = _
  unfold truesCode
  rw [List.getElem?_append_left (by simpa using hr), List.getElem?_map, List.getElem?_range hr]
  rfl

/-- What is in the code. -/
theorem mem_returnTrues (hi : codeAt (returnTrues m hm).p s.pc = some i) :
    (∃ r < m, i = loadTrue r) ∨ i = returnFrom (m + 1) ∨ i = returnFrom 1 := by
  have hmem : i ∈ truesCode m := codeAt_mem hi
  unfold truesCode at hmem
  simp only [List.mem_append, List.mem_map, List.mem_range, List.mem_cons, List.not_mem_nil,
    or_false] at hmem
  rcases hmem with ⟨r, hr, rfl⟩ | hret
  · exact Or.inl ⟨r, hr, rfl⟩
  · exact Or.inr hret

/-- All of it passes the checker. -/
theorem checked_returnTrues (hi : codeAt (returnTrues m hm).p s.pc = some i) (hpos : 0 < m) :
    symbexecRegs (returnTrues m hm).p i = true ∧ GeneratorSpace (returnTrues m hm).p i := by
  have hm' : m ≤ 250 := hm
  have hreturn : ∀ n, n < 252 → n ≤ m + 1 → symbexecRegs (returnTrues m hm).p (returnFrom n) = true
      ∧ GeneratorSpace (returnTrues m hm).p (returnFrom n) := by
    intro n hn hle
    obtain ⟨hop, hA, hB, hC⟩ := returnFrom_fields hn
    constructor
    · unfold symbexecRegs
      rw [hop, hA, hB, hC]
      simp only [checkreg, maxstacksize_returnTrues, ne_eq, decide_not, checkArgMode, getBMode,
        luaP_opmodes, getCMode, BitVec.ofNat_eq_ofNat, decide_true, Bool.and_self, Bool.or_true,
        Bool.and_true, zero_add, Bool.and_eq_true, decide_eq_true_eq, Bool.or_eq_true]
      omega
    · intro h
      exact nomatch hop.symm.trans h
  rcases mem_returnTrues hi with ⟨r, hr, rfl⟩ | rfl | rfl
  · obtain ⟨hop, hA, hC⟩ := loadTrue_fields (lt_of_lt_of_le hr hm')
    constructor
    · unfold symbexecRegs
      rw [hop, hA]
      simp only [checkreg, maxstacksize_returnTrues, ne_eq, decide_not, checkArgMode, getBMode,
        luaP_opmodes, getCMode, Bool.and_self, Bool.or_true, Bool.and_true, decide_eq_true_eq]
      omega
    · intro h
      exact nomatch hop.symm.trans h
  · exact hreturn _ (by omega) le_rfl
  · exact hreturn _ (by omega) (by omega)

variable (hm) in
theorem loadTrue_step {r : Nat} (hr : r < m) (hpc : s.pc = r) :
    ∃ s', cluaV_executeStep N V (returnTrues m hm) s = .ok ⟨⟩ s' ∧ s'.pc = (r + 1 : Nat) := by
  have hm' : m ≤ 250 := hm
  have hi : codeAt (returnTrues m hm).p s.pc = some (loadTrue r) := by
    rw [hpc]
    exact codeAt_returnTrues hr
  obtain ⟨hop, -, hC⟩ := loadTrue_fields (lt_of_lt_of_le hr hm')
  have hskip : (when (GETARG_C (loadTrue r) ≠ 0) (jump 1) : CluaM A PUnit) = pure ⟨⟩ := by
    rw [hC]
    rfl
  rw [executeStep_of_code hi, handler_eq]
  unfold dispatch
  rw [hop]
  simp only [Clvm.op_loadbool, hskip]
  refine ⟨_, rfl, ?_⟩
  show s.pc + 1 = _
  rw [hpc]
  rfl

variable (hm) in
/-- The first instructions are executed one after another. -/
theorem returnTrues_run (n : Nat) : ∀ (r : Nat) (s : CluaVm A), r + n ≤ m → s.pc = r →
    ∃ s', cluaV_execute N V (returnTrues m hm) n s = .ok ⟨⟩ s' ∧ s'.pc = (r + n : Nat) := by
  induction n with
  | zero =>
    intro r s _ hpc
    exact ⟨s, rfl, hpc⟩
  | succ n ih =>
    intro r s hle hpc
    obtain ⟨t, hstep, htpc⟩ := loadTrue_step (N := N) (V := V) hm (by omega) hpc
    obtain ⟨s', hrun, hpc'⟩ := ih (r + 1) t (by omega) htpc
    refine ⟨s', ?_, by rw [hpc']; congr 1; omega⟩
    exact (bind_of_ok hstep).trans hrun

end

/-- `CallVMClosure` on the thread of slot 4. -/
def calledOn (cl : Closure) : CluaVm Heap :=
  (callVMClosure cl (.object .function 7) private₀ thread).2

/-- The host of tables has C functions only. -/
theorem entersNoLua_rbxTables (xorConst : BitVec 64) (N : Doubles) (cl : Closure)
    (start : CluaVm Heap) : EntersNoLua N (rbxTables xorConst) cl start := by
  intro n s _
  unfold enteredFrame
  split
  · rfl
  · split
    · next func nresults t _ =>
      cases hprecall : (rbxTables xorConst).rbxV_precall func nresults t.RS with
      | error => rfl
      | ok r RS' =>
        obtain ⟨rfl, -⟩ := rbxCall_ok hprecall
        rfl
    · rfl

theorem checkedRun_returnTrues {m : Nat} (hm : m ≤ MAXSTACK) (hpos : 0 < m) :
    CheckedRun machineDoubles (rbxTables 0) (returnTrues m hm) (calledOn (returnTrues m hm)) :=
  fun _ _ _ _ hi => checked_returnTrues hi hpos

/-- A frame of more than `LUA_MINSTACK` registers is left at the one of that number. -/
theorem returnTrues_overflow {m : Nat} (hm : m ≤ MAXSTACK) (hlarge : LUA_MINSTACK < m) :
    ∃ s i, cluaV_execute machineDoubles (rbxTables 0) (returnTrues m hm) LUA_MINSTACK
          (calledOn (returnTrues m hm)) = .ok ⟨⟩ s
      ∧ codeAt (returnTrues m hm).p s.pc = some i ∧ LUA_MINSTACK ∈ registers i
      ∧ s.robloxBase + LUA_MINSTACK = 4 + LUA_MINSTACK := by
  obtain ⟨s, hrun, hpc⟩ := returnTrues_run (N := machineDoubles) (V := rbxTables 0) hm
    LUA_MINSTACK 0 (calledOn (returnTrues m hm)) (by omega) rfl
  have hi : codeAt (returnTrues m hm).p s.pc = some (loadTrue LUA_MINSTACK) := by
    rw [hpc, Nat.zero_add]
    exact codeAt_returnTrues hlarge
  obtain ⟨hop, hA, -⟩ := loadTrue_fields (r := LUA_MINSTACK) (by decide)
  have hstart : FrameKnown 4 4 (calledOn (returnTrues m hm)) := ⟨le_rfl, rfl, rfl⟩
  have hknown := base_of_entersNoLua (rbxTables_keepsFrame 0) hstart
    (entersNoLua_rbxTables 0 machineDoubles _ _) hrun
  refine ⟨s, _, hrun, hi, ?_, ?_⟩
  · unfold registers
    rw [hop, hA]
    exact List.mem_singleton_self _
  · rw [hknown.robloxBase.trans hknown.base]

/-- Scripts with `m` registers all stay in the guaranteed slots if and only if there are as
many of these. -/
theorem frameSizeSafe_iff {m : Nat} (hm : m ≤ MAXSTACK) : FrameSizeSafe m ↔ m ≤ LUA_MINSTACK := by
  refine ⟨fun h => ?_, frameSizeSafe_of_le⟩
  -- a larger frame has a script that fills it
  by_contra hlarge
  have hlarge : LUA_MINSTACK < m := Nat.lt_of_not_le hlarge
  obtain ⟨s, i, hrun, hi, hmem, hslot⟩ := returnTrues_overflow hm hlarge
  have hguaranteed := h Heap Unit machineDoubles (rbxTables 0) (returnTrues m hm)
    (.object .function 7) private₀ thread (rbxTables_keepsFrame 0) maxstacksize_returnTrues
    (entersNoLua_rbxTables 0 machineDoubles _ _) (checkedRun_returnTrues hm (by omega))
  exact absurd (hguaranteed _ s i hrun hi _ hmem).2 hslot.not_lt

/-- **Registers and guaranteed slots.** A run of `CallVMClosure` stays in the guaranteed
slots if and only if the slots that each of its instructions needs for its operands end
there, counted from the frame that the host made for the Lua function entered last. Where
none is entered they are counted from `CallVMClosure`'s own frame, and the condition is
that no instruction needs more than `LUA_MINSTACK`. For scripts in their own frame that is
a bound on its size: those with `m` registers all stay in the guaranteed slots if and only
if `m` is at most `LUA_MINSTACK`. -/
theorem registersGuaranteed_iff {V : RbxApi A} (hV : KeepsFrame V) (N : Doubles) (cl : Closure)
    (func : LuaValue) (L : LuaState W) (RS : RbxState A) :
    (RegistersGuaranteed N V cl RS.base (callVMClosure cl func L RS).2
        ↔ ∀ n s i, cluaV_execute N V cl n (callVMClosure cl func L RS).2 = .ok ⟨⟩ s →
          codeAt cl.p s.pc = some i → slotsNeeded i = 0
            ∨ track (cluaV_executeStep N V cl) (nextFrame N V cl) n RS.base
                (callVMClosure cl func L RS).2 + slotsNeeded i ≤ RS.base + LUA_MINSTACK)
      ∧ (EntersNoLua N V cl (callVMClosure cl func L RS).2 →
        (RegistersGuaranteed N V cl RS.base (callVMClosure cl func L RS).2
          ↔ ∀ n s i, cluaV_execute N V cl n (callVMClosure cl func L RS).2 = .ok ⟨⟩ s →
            codeAt cl.p s.pc = some i → slotsNeeded i ≤ LUA_MINSTACK))
      ∧ ∀ m ≤ MAXSTACK, FrameSizeSafe m ↔ m ≤ LUA_MINSTACK :=
  ⟨registersGuaranteed_iff_needed hV N cl func L RS,
    registersGuaranteed_iff_own hV N cl func L RS, fun _ hm => frameSizeSafe_iff hm⟩

theorem twenty_le : 20 ≤ MAXSTACK := by decide

theorem twentyone_le : 21 ≤ MAXSTACK := by decide

/-- The call of `Lockstep`'s sample needs few slots, and `return true, …, true` with 20
values all that there are. -/
theorem registersGuaranteed_twenty :
    RegistersGuaranteed machineDoubles (rbxTables 0) calls 4 (calledOn calls)
      ∧ RegistersGuaranteed machineDoubles (rbxTables 0) (returnTrues 20 twenty_le) 4
        (calledOn (returnTrues 20 twenty_le)) := by
  obtain ⟨-, hown, -⟩ := registersGuaranteed_iff (rbxTables_keepsFrame 0) machineDoubles calls
    (.object .function 7) private₀ thread
  obtain ⟨-, -, hsizes⟩ := registersGuaranteed_iff (rbxTables_keepsFrame 0) machineDoubles
    (returnTrues 20 twenty_le) (.object .function 7) private₀ thread
  constructor
  · refine (hown (entersNoLua_rbxTables 0 machineDoubles _ _)).mpr (fun n s i _ hi => ?_)
    have hneeded : callsCode.all (fun i => slotsNeeded i ≤ LUA_MINSTACK) = true := by decide
    exact of_decide_eq_true (List.all_eq_true.mp hneeded i (codeAt_mem hi))
  · exact (hsizes 20 twenty_le).mpr le_rfl Heap Unit machineDoubles (rbxTables 0)
      (returnTrues 20 twenty_le) (.object .function 7) private₀ thread (rbxTables_keepsFrame 0)
      maxstacksize_returnTrues (entersNoLua_rbxTables 0 machineDoubles _ _)
      (checkedRun_returnTrues twenty_le (by decide))

/-- **A script with 21 registers.** `return true, …, true` with 21 values writes the first
slot behind the guaranteed ones. -/
theorem registers_past_guarantee : ∃ s i,
    cluaV_execute machineDoubles (rbxTables 0) (returnTrues 21 twentyone_le) 20
        (calledOn (returnTrues 21 twentyone_le)) = .ok ⟨⟩ s
      ∧ codeAt (returnTrues 21 twentyone_le).p s.pc = some i ∧ 20 ∈ registers i
      ∧ ¬ s.robloxBase + 20 < 4 + LUA_MINSTACK := by
  obtain ⟨s, i, hrun, hi, hmem, hslot⟩ := returnTrues_overflow twentyone_le (by decide)
  exact ⟨s, i, hrun, hi, hmem, hslot.not_lt⟩

end NostalgiaConv.FrameSlots
