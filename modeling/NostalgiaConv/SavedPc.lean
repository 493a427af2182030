/-
The program counters that are saved before a call into the host.

A host operation may raise or yield, and then the loop is entered again at
`L->savedpc`. Every handler stores the program counter twice by hand before it
calls: in `L`, and encrypted in the host thread. `OP_TFORLOOP` stores it once, in
the host thread. In the middle of a generic `for` loop `L->savedpc` is therefore
still behind whichever instruction stored it last.
-/
import NostalgiaConv.HostCalls
import NostalgiaConv.StaleStack

set_option autoImplicit false

namespace NostalgiaConv.SavedPc

open NostalgiaConv.Cipher NostalgiaConv.Host NostalgiaConv.Opcodes NostalgiaConv.Value
open NostalgiaConv.Transpile NostalgiaConv.BumpHost NostalgiaConv.Relational NostalgiaConv.Hoare
open NostalgiaConv.Interpreter NostalgiaConv.Lvm NostalgiaConv.Clvm NostalgiaConv.HostCalls
open NostalgiaConv.TableHost NostalgiaConv.Lockstep NostalgiaConv.StaleStack

variable {A W : Type} {N : Doubles} {V : RbxApi A} {cl : Closure} {s t : CluaVm A} {c : RbxCall}

/-! ## One call -/

/-- Both saved program counters designate the instruction after the one at `s.pc`:
`L->savedpc`, and the word at `RS + 0x14` once it is decoded. -/
structure PcSaved (cl : Closure) (s t : CluaVm A) : Prop where
  own : t.savedpc = s.pc + 1
  host : t.RS.savedpc + (cl.RS + 0x14) = cl.code + BitVec.ofInt 32 (4 * (s.pc + 1))

/-- The instruction at the program counter is an `OP_TFORLOOP`. -/
def AtTforloop (cl : Closure) (s : CluaVm A) : Prop :=
  ∃ i, codeAt cl.p s.pc = some i ∧ OpCode.ofWord (GET_OPCODE i) = some .OP_TFORLOOP

/-- `reentry:`, where the loop starts when `ResumeVMClosureInternal` calls it again. -/
def reentry (t : CluaVm A) : CluaVm A := { t with pc := t.savedpc, robloxBase := t.RS.base }

/-- Decoding undoes the encryption, wherever code and thread lie. -/
theorem encryptedPc_add (cl : Closure) (pc : Int) :
    encryptedPc cl pc + (cl.RS + 0x14) = cl.code + BitVec.ofInt 32 (4 * pc) :=
  BitVec.sub_add_cancel _ _

/-- **At a call into the host** both program counters are saved, unless the
instruction is an `OP_TFORLOOP` and finds `L->savedpc` somewhere else. -/
theorem pcSaved_iff (hcall : CallsHost N V cl s c t) :
    PcSaved cl s t ↔ (AtTforloop cl s → s.savedpc = s.pc + 1) := by
  obtain ⟨i, hi, hbefore⟩ := hcall
  have hreached := reached_of_before hbefore
  have hhost : t.RS.savedpc + (cl.RS + 0x14) = cl.code + BitVec.ofInt 32 (4 * (s.pc + 1)) := by
    rw [hreached.encrypted nofun]
    exact encryptedPc_add cl (s.pc + 1)
  have hown := hreached.saved nofun
  by_cases hop : OpCode.ofWord (GET_OPCODE i) = some .OP_TFORLOOP
  · rw [if_pos hop] at hown
    refine ⟨fun h _ => hown.symm.trans h.own, fun h => ⟨hown.trans ?_, hhost⟩⟩
    exact h ⟨i, hi, hop⟩
  · rw [if_neg hop] at hown
    refine ⟨fun _ h => ?_, fun _ => ⟨hown, hhost⟩⟩
    obtain ⟨i', hi', hop'⟩ := h
    rw [hi] at hi'
    obtain rfl := Option.some.inj hi'
    exact absurd hop' hop

/-- An `OP_TFORLOOP` gets to its call whatever the registers hold. -/
theorem tforloop_calls (N : Doubles) (V : RbxApi A) (h : AtTforloop cl s) :
    ∃ c t, CallsHost N V cl s c t := by
  obtain ⟨i, hi, hop⟩ := h
  have hbefore : ∃ c t, before N V cl s.robloxBase i (fetched s) = .ok (some c) t := by
    unfold before
    rw [hop]
    exact ⟨_, _, rfl⟩
  obtain ⟨c, t, h⟩ := hbefore
  exact ⟨c, t, i, hi, h⟩

/-! ## Whole runs -/

/-- In a run from a cleared `L->savedpc` it stands at the start, or behind an
instruction that stores it, which `OP_TFORLOOP` is not. -/
def SavedBehind (cl : Closure) (s : CluaVm A) : Prop :=
  s.savedpc = 0 ∨ ∃ (pc : Int) (i : Word), s.savedpc = pc + 1 ∧ codeAt cl.p pc = some i
    ∧ OpCode.ofWord (GET_OPCODE i) ≠ some .OP_TFORLOOP

theorem savedBehind_step : Triple (SavedBehind cl) (cluaV_executeStep N V cl)
    (fun _ => SavedBehind cl) := by
  rintro s ⟨⟩ s' hs hstep
  obtain ⟨i, c, t, r, RS', hi, hreached, -, hfinished⟩ := executeStep_spec hstep
  have hsaved : s'.savedpc = t.savedpc := hfinished.savedpc
  rcases hreached.savedpc with hkept | ⟨hstored, hop⟩
  · rwa [SavedBehind, hsaved, hkept]
  · exact Or.inr ⟨s.pc, i, hsaved.trans hstored, hi, hop⟩

/-- An `OP_TFORLOOP` never finds its own successor in `L->savedpc` then. -/
theorem SavedBehind.ne_of_tforloop (h : SavedBehind cl s) (hat : AtTforloop cl s) :
    s.savedpc ≠ s.pc + 1 := by
  obtain ⟨i, hi, hop⟩ := hat
  intro heq
  rcases h with h0 | ⟨pc, i', hpc, hi', hop'⟩
  · -- there is no code before the first instruction
    have hneg : ¬ (0 : Int) ≤ s.pc := by omega
    unfold codeAt at hi
    rw [if_neg hneg] at hi
    exact nomatch hi
  · have : pc = s.pc := by omega
    rw [this, hi] at hi'
    rw [Option.some.inj hi'] at hop
    exact hop' hop

/-- In every state that is reached, every call into the host is made with both program
counters saved, and entering the loop again goes on behind the instruction that made
it. -/
def AllSaved (N : Doubles) (V : RbxApi A) (cl : Closure) (start : CluaVm A) : Prop :=
  ∀ n s c t, cluaV_execute N V cl n start = .ok ⟨⟩ s → CallsHost N V cl s c t →
    PcSaved cl s t ∧ (reentry t).pc = s.pc + 1

theorem allSaved_iff (N : Doubles) (V : RbxApi A) (cl : Closure) (start : CluaVm A) :
    AllSaved N V cl start
      ↔ ∀ n s, cluaV_execute N V cl n start = .ok ⟨⟩ s → AtTforloop cl s → s.savedpc = s.pc + 1 := by
  constructor
  · intro h n s hrun hat
    obtain ⟨c, t, hcall⟩ := tforloop_calls N V hat
    exact (pcSaved_iff hcall).mp (h n s c t hrun hcall).1 hat
  · intro h n s c t hrun hcall
    have hpc := (pcSaved_iff hcall).mpr (h n s hrun)
    exact ⟨hpc, hpc.own⟩

/-- **Saved program counters, over whole runs.** From any entry of the loop they are
saved at all calls if and only if every `OP_TFORLOOP` that is executed finds its own
successor in `L->savedpc` already. In a run started by `CallVMClosure` none does, so
there the condition is that no `OP_TFORLOOP` is executed at all. -/
theorem pcSaved_run_iff (N : Doubles) (V : RbxApi A) (cl : Closure) (start : CluaVm A) :
    (AllSaved N V cl start
        ↔ ∀ n s, cluaV_execute N V cl n start = .ok ⟨⟩ s → AtTforloop cl s →
          s.savedpc = s.pc + 1)
      ∧ ∀ (func : LuaValue) (L : LuaState W) (RS : RbxState A),
          AllSaved N V cl (callVMClosure cl func L RS).2
            ↔ ∀ n s, cluaV_execute N V cl n (callVMClosure cl func L RS).2 = .ok ⟨⟩ s →
              ¬ AtTforloop cl s := by
  refine ⟨allSaved_iff N V cl start, fun func L RS => ?_⟩
  rw [allSaved_iff]
  refine ⟨fun h n s hrun hat => ?_, fun h n s hrun hat => absurd hat (h n s hrun)⟩
  have hbehind := Triple.iter savedBehind_step n _ ⟨⟩ s (Or.inl rfl) hrun
  exact hbehind.ne_of_tforloop hat (h n s hrun hat)

/-! ## A generic `for` loop -/

/-- `for k in f do end` -/
def genericFor : Closure where
  p := leafHead [.string (luaS_newlstr [0x66])]
    [CREATE_ABx OpCode.OP_GETGLOBAL.toWord 0 0, CREATE_ABC OpCode.OP_LOADNIL.toWord 1 2 0,
      CREATE_ABx OpCode.OP_JMP.toWord 0 131071, CREATE_ABC OpCode.OP_TFORLOOP.toWord 0 0 1,
      CREATE_ABx OpCode.OP_JMP.toWord 0 131069, CREATE_ABC OpCode.OP_RETURN.toWord 0 1 0]
    (by decide) (by decide)
  code := 0x2000
  RS := 0

/-- The two program counters of a run that goes on. -/
def counters {ε : Type} : EStateM.Result ε (CluaVm A) PUnit → Option (Int × Int)
  | .ok _ s => some (s.pc, s.savedpc)
  | .error _ _ => none

/-- **The iterator is called with an old `L->savedpc`.** The loop has executed its
first three instructions and gets to `OP_TFORLOOP`. Should the iterator yield, the loop
would be entered again at the second instruction. -/
theorem tforloop_unsaved : ∃ s c t,
    cluaV_execute machineDoubles (rbxTables 0) genericFor 3 (launchOver genericFor cleared)
        = .ok ⟨⟩ s
      ∧ CallsHost machineDoubles (rbxTables 0) genericFor s c t
      ∧ s.pc = 3 ∧ (reentry t).pc = 1 ∧ ¬ PcSaved genericFor s t := by
  have hpcs : counters (cluaV_execute machineDoubles (rbxTables 0) genericFor 3
      (launchOver genericFor cleared)) = some (3, 1) := by decide +kernel
  cases hrun : cluaV_execute machineDoubles (rbxTables 0) genericFor 3
      (launchOver genericFor cleared) with
  | error e s =>
    rw [hrun] at hpcs
    exact nomatch hpcs
  | ok a s =>
    rw [hrun] at hpcs
    obtain ⟨hpc, hsaved⟩ := Prod.mk.inj (Option.some.inj hpcs)
    have hi : codeAt genericFor.p s.pc = some (CREATE_ABC OpCode.OP_TFORLOOP.toWord 0 0 1) := by
      rw [hpc]
      rfl
    have hat : AtTforloop genericFor s := ⟨_, hi, by decide⟩
    obtain ⟨c, t, hcall⟩ := tforloop_calls machineDoubles (rbxTables 0) hat
    have hne : ¬ PcSaved genericFor s t := by
      rw [pcSaved_iff hcall, hpc, hsaved]
      exact fun h => absurd (h hat) (by decide)
    obtain ⟨i, hi', hbefore⟩ := hcall
    obtain rfl := Option.some.inj (hi.symm.trans hi')
    have hkept := (reached_of_before hbefore).saved nofun
    refine ⟨s, c, t, rfl, ⟨_, hi, hbefore⟩, hpc, ?_, hne⟩
    exact hkept.trans hsaved

end NostalgiaConv.SavedPc
