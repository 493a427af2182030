/-
The simulation over whole runs.

One end of the host's run has no counterpart in Lua's, whose constants are made before
it starts: the host makes the string of a constant when an instruction reads it, and that
may raise. `OutOfMemory` says where the run then is.
-/
import NostalgiaConv.ConstantReads
import NostalgiaConv.TableHost

set_option autoImplicit false

namespace NostalgiaConv.Lockstep

open NostalgiaConv.Cipher NostalgiaConv.Host NostalgiaConv.Value NostalgiaConv.Opcodes
open NostalgiaConv.Transpile NostalgiaConv.BumpHost NostalgiaConv.Relational NostalgiaConv.Hoare
open NostalgiaConv.Interpreter NostalgiaConv.Lvm NostalgiaConv.Clvm NostalgiaConv.ConstantReads
open NostalgiaConv.Encoding NostalgiaConv.Simulation NostalgiaConv.TableHost

section

variable {W A : Type} {C : Correspondence W A} {U : LuaApi W} {V : RbxApi A} {N : Doubles}
  {cl : Closure} {n : Nat} {s : LuaVm W} {t : CluaVm A}

variable (C U V N cl n s t) in
/-- Within `n` rounds the host runs out of memory. The rounds before have kept the two
machines in step; then there is one that reads a string constant for which
`rbx_snewlstr` raises, and that error ends the run. -/
def OutOfMemory : Prop :=
  ∃ m < n, ∃ s' t' u, luaV_execute N U cl.p m s = .ok ⟨⟩ s'
    ∧ cluaV_execute N V cl m t = .ok ⟨⟩ t' ∧ InStep C V s' t' ∧ RoundRaises V cl t'
    ∧ cluaV_executeStep N V cl t' = .error memory u ∧ cluaV_execute N V cl n t = .error memory u

/-- Where the host's run has stopped for want of memory, Lua's has got as far, or has
left what is compared. -/
theorem outOfMemory_of_error (hsim : Simulates C U V) (hst : InStep C V s t) {u : CluaVm A}
    (h : cluaV_execute N V cl n t = .error memory u) : OutOfMemory C U V N cl n s t
      ∨ ∃ e s', luaV_execute N U cl.p n s = .error e s' ∧ (e = .undefined ∨ e = .outside) := by
  obtain ⟨m, hm, t', ht', hstep⟩ := iter_eq_error h
  have hrounds := Rel.iter (rel_executeStep hsim N cl) m s t hst
  rw [ht'] at hrounds
  cases hlua : luaV_execute N U cl.p m s with
  | ok x s' =>
    unfold luaV_execute at hlua
    rw [hlua] at hrounds
    exact Or.inl ⟨m, hm, s', t', u, hlua, ht', hrounds, roundRaises_of_memory hstep, hstep, h⟩
  | error e s' =>
    unfold luaV_execute at hlua
    rw [hlua] at hrounds
    exact Or.inr ⟨e, s', iter_error_of_le hm.le hlua, hrounds⟩

/-- **`cluaV_execute` simulates `luaV_execute`**, instruction by instruction. From
states in step, for every proto and every number of instructions: where Lua's run
gets through, the host's run gets through to a state in step with Lua's, with the
same `pc`, the same registers under the encoding and the same tops; where Lua's
run ends, the host's ends the same way, an error with the same message. Lua runs
that leave the fifteen opcodes, call a Lua function, or have no behaviour in C are
not spoken of, and the host may run out of memory where it makes a string constant. -/
theorem cluaV_execute_simulates (hsim : Simulates C U V) (N : Doubles) (cl : Closure) (n : Nat)
    {s : LuaVm W} {t : CluaVm A} (hst : InStep C V s t) :
    (∀ s', luaV_execute N U cl.p n s = .ok ⟨⟩ s' →
        (∃ t', cluaV_execute N V cl n t = .ok ⟨⟩ t' ∧ InStep C V s' t')
          ∨ OutOfMemory C U V N cl n s t)
      ∧ ∀ e s', luaV_execute N U cl.p n s = .error e s' →
        (e = .undefined ∨ e = .outside)
          ∨ (∃ t', cluaV_execute N V cl n t = .error e t')
          ∨ OutOfMemory C U V N cl n s t := by
  have h := Rel.iter (rel_executeStep hsim N cl) n s t hst
  refine ⟨fun s' hs' => ?_, fun e s' hs' => ?_⟩
  · have hrun : Relational.iter (luaV_executeStep N U cl.p) n s = .ok ⟨⟩ s' := hs'
    rw [hrun] at h
    rcases h.of_ok with ⟨_, t', ht', hin⟩ | ⟨d, t', ht', rfl⟩
    · exact Or.inl ⟨t', ht', hin⟩
    · rcases outOfMemory_of_error hsim hst ht' with hmemory | ⟨e, s'', herror, -⟩
      · exact Or.inr hmemory
      · exact nomatch hs'.symm.trans herror
  · have hrun : Relational.iter (luaV_executeStep N U cl.p) n s = .error e s' := hs'
    rw [hrun] at h
    rcases h.of_error with hleft | ⟨d, t', ht', rfl | rfl⟩
    · exact Or.inl hleft
    · rcases outOfMemory_of_error hsim hst ht' with hmemory | ⟨e', s'', herror, hleft⟩
      · exact Or.inr (Or.inr hmemory)
      · obtain ⟨rfl, -⟩ := EStateM.Result.error.inj (hs'.symm.trans herror)
        exact Or.inl hleft
    · exact Or.inr (Or.inl ⟨t', ht'⟩)

end

/-! ## A run -/

/-- `for i = 1, 2 do x = f(i) end` -/
def callsCode : List Word :=
  let jump (o : OpCode) (d : Int) := CREATE_ABx o.toWord 0 (BitVec.ofInt 32 (d + MAXARG_sBx))
  [CREATE_ABx OpCode.OP_LOADK.toWord 0 0, CREATE_ABx OpCode.OP_LOADK.toWord 1 1,
    CREATE_ABx OpCode.OP_LOADK.toWord 2 0, jump .OP_FORPREP 4,
    CREATE_ABx OpCode.OP_GETGLOBAL.toWord 4 2, CREATE_ABC OpCode.OP_MOVE.toWord 5 3 0,
    CREATE_ABC OpCode.OP_CALL.toWord 4 2 2, CREATE_ABx OpCode.OP_SETGLOBAL.toWord 4 3,
    jump .OP_FORLOOP (-5), CREATE_ABC OpCode.OP_RETURN.toWord 0 1 0]

/-- The constants `1`, `2`, `f` and `x`. -/
def calls : Closure where
  p := { leafHead [.number 0x3FF0000000000000, .number 0x4000000000000000,
      .string (luaS_newlstr (chars "f")), .string (luaS_newlstr (chars "x"))] callsCode
      (by decide) (by decide) with maxstacksize := 6 }
  code := 0x2000
  RS := 0

/-- The global `name`, in the entries of a machine whose globals are table 5. -/
def globalKey (name : String) : Key × Key := (.object RBX_TYPE_TABLE 5, .string (chars name))

def luaStart : LuaVm (Entries LuaValue) where
  pc := 0
  base := 1
  L := ⟨[(globalKey "f", .object .function 7)], fun _ => .nil, 1, 7, 7, 0, 5⟩

def rbxStart : CluaVm Heap where
  pc := 0
  robloxBase := 4
  RS := ⟨tableProcess [(globalKey "f", ⟨7, RBX_TYPE_FUNCTION⟩)], fun _ => ⟨0, RBX_TYPE_NIL⟩,
    4, 10, 10, ⟨5, RBX_TYPE_TABLE⟩, 0⟩
  savedpc := 0

theorem start_inStep (xorConst : BitVec 64) :
    InStep (sameNumber xorConst) (rbxTables xorConst) luaStart rbxStart :=
  ⟨rfl, rfl, rfl, ⟨.cons ⟨rfl, 7, rfl, rfl⟩ .nil, fun _ => rfl, rfl, rfl, 5, rfl, rfl⟩⟩

/-- `for i = nil, nil do end` -/
def forNil : Closure where
  p := leafHead [] [CREATE_ABC OpCode.OP_LOADNIL.toWord 0 2 0,
    CREATE_ABx OpCode.OP_FORPREP.toWord 0 (BitVec.ofInt 32 (MAXARG_sBx : Int))] (by decide) (by decide)
  code := 0x2000
  RS := 0

/-- How a run has ended. -/
def stopOf {σ α : Type} : EStateM.Result Stop σ α → Option Stop
  | .ok _ _ => none
  | .error e _ => some e

theorem exists_of_stopOf {σ α : Type} {r : EStateM.Result Stop σ α} {e : Stop}
    (h : stopOf r = some e) : ∃ s, r = .error e s := by
  cases r with
  | ok a s => exact nomatch h
  | error d s => exact ⟨s, congrArg (EStateM.Result.error · s) (Option.some.inj h)⟩

/-- Two iterations of a loop, with two calls and four accesses to globals, get through on
both machines, and a loop over no numbers ends on both with the same message. -/
theorem cluaV_execute_simulates_calls :
    (∃ s' t', luaV_execute integerDoubles luaTables calls.p 15 luaStart = .ok ⟨⟩ s'
      ∧ cluaV_execute integerDoubles (rbxTables 0x1234) calls 15 rbxStart = .ok ⟨⟩ t'
      ∧ InStep (sameNumber 0x1234) (rbxTables 0x1234) s' t')
    ∧ ∃ s' t', luaV_execute integerDoubles luaTables forNil.p 2 luaStart
        = .error (.raised (.runerror "'for' initial value must be a number")) s'
      ∧ cluaV_execute integerDoubles (rbxTables 0x1234) forNil 2 rbxStart
        = .error (.raised (.runerror "'for' initial value must be a number")) t' := by
  constructor
  · have hlua : ended (luaV_execute integerDoubles luaTables calls.p 15 luaStart) = true := by
      decide +kernel
    have hrbx : ended (cluaV_execute integerDoubles (rbxTables 0x1234) calls 15 rbxStart)
        = true := by decide +kernel
    obtain ⟨_, s', hs'⟩ := exists_of_ended hlua
    obtain ⟨_, t', ht'⟩ := exists_of_ended hrbx
    rcases (cluaV_execute_simulates (tables_simulate 0x1234) integerDoubles calls 15
      (start_inStep 0x1234)).1 s' hs' with ⟨u, hu, hin⟩ | ⟨_, _, _, _, u, -, -, -, -, -, hu⟩
    · exact ⟨s', u, hs', hu, hin⟩
    · exact nomatch ht'.symm.trans hu
  · obtain ⟨s', hs'⟩ := exists_of_stopOf (r := luaV_execute integerDoubles luaTables forNil.p 2
      luaStart) (e := .raised (.runerror "'for' initial value must be a number")) (by decide +kernel)
    have hrbx : stopOf (cluaV_execute integerDoubles (rbxTables 0x1234) forNil 2 rbxStart)
        ≠ some memory := by decide +kernel
    rcases (cluaV_execute_simulates (tables_simulate 0x1234) integerDoubles forNil 2
      (start_inStep 0x1234)).2 _ s' hs' with hleft | ⟨t', ht'⟩ | ⟨_, _, _, _, u, -, -, -, -, -, hu⟩
    · exact absurd hleft (by decide)
    · exact ⟨s', t', hs', ht'⟩
    · exact absurd (congrArg stopOf hu) hrbx

end NostalgiaConv.Lockstep
