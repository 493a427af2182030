/-
The upvalues of the closure that `conversion::ProtoConversion` pushes.

Both producers of a main function see to it that its instructions name upvalues below
its own `nups`, and `f_parser` makes the private closure with `nups` of them. The host's
closure is made with none, whatever the proto says. So it has enough exactly when
`nups` is zero, which the compiler asserts and nobody checks for a precompiled chunk.
-/
import NostalgiaConv.ConversionExits
import NostalgiaConv.TableAccess

set_option autoImplicit false

namespace NostalgiaConv.UpvalueSlots

open NostalgiaConv.ByteMem NostalgiaConv.Cipher NostalgiaConv.Host NostalgiaConv.Opcodes
open NostalgiaConv.Value NostalgiaConv.Transpile NostalgiaConv.BumpHost NostalgiaConv.Hoare
open NostalgiaConv.Interpreter NostalgiaConv.Conversion NostalgiaConv.ConversionExits
open NostalgiaConv.CodeCheck NostalgiaConv.Undump NostalgiaConv.TableAccess
open OpCode

/-! ## The upvalues that a function names -/

/-- The opcode of word `n`. -/
def opcodeAt (h : LHead) (n : Nat) : Option OpCode := OpCode.ofWord (GET_OPCODE (codeWord h n))

/-- A closure of `f` with `slots` upvalues has all that `f` declares and all that its
code names, in instructions and in the captures behind a `CLOSURE`. -/
structure UpvaluesExist (f : LProto) (slots : Nat) : Prop where
  nups : f.head.nups.toNat ≤ slots
  operands {n : Nat} (hlt : n < f.head.code.length) (hn : isCount f.head n = false)
    (hop : opcodeAt f.head n = some OP_GETUPVAL ∨ opcodeAt f.head n = some OP_SETUPVAL) :
    argB (codeWord f.head n) < slots
  captures {n nup j : Nat} (hlt : n < f.head.code.length) (hn : isCount f.head n = false)
    (hop : opcodeAt f.head n = some OP_CLOSURE)
    (hnup : f.childNups[argBx (codeWord f.head n)]? = some nup) (hj : j < nup)
    (hcapture : opcodeAt f.head (n + j + 1) = some OP_GETUPVAL) :
    argB (codeWord f.head (n + j + 1)) < slots

/-- More upvalues do no harm. -/
theorem UpvaluesExist.mono {f : LProto} {m k : Nat} (hle : m ≤ k) (h : UpvaluesExist f m) :
    UpvaluesExist f k where
  nups := h.nups.trans hle
  operands hlt hn hop := (h.operands hlt hn hop).trans_le hle
  captures hlt hn hop hnup hj hcapture := (h.captures hlt hn hop hnup hj hcapture).trans_le hle

/-- The checker bounds the operands by `nups`. -/
theorem upvaluesExist_of_checked {f : LProto} (h : luaG_checkcode f = true) :
    UpvaluesExist f f.head.nups.toNat := by
  have hoperand : ∀ {n : Nat}, n < f.head.code.length → isCount f.head n = false →
      (opcodeAt f.head n = some OP_GETUPVAL ∨ opcodeAt f.head n = some OP_SETUPVAL) →
      argB (codeWord f.head n) < f.head.nups.toNat := by
    intro n hlt hn hupval
    obtain ⟨op, hop, hbound⟩ := checkcode_instruction h hlt hn
    unfold opcodeAt at hupval
    rw [hop, Option.some.injEq, Option.some.injEq] at hupval
    exact hbound hupval
  refine ⟨le_rfl, hoperand, ?_⟩
  intro n nup j hlt hn hop hnup hj hcapture
  -- a capture is a checked instruction itself
  obtain ⟨hlt', hn'⟩ := captures_checked h hlt hn hop hnup hj
  exact hoperand hlt' hn' (Or.inl hcapture)

/-- So does the code generator. -/
theorem upvaluesExist_of_emitted {f : LProto}
    (h : ∀ v ∈ f.head.code, EmittedWord f.head.nups.toNat v) :
    UpvaluesExist f f.head.nups.toNat := by
  have hoperand : ∀ {n : Nat} {op : OpCode}, n < f.head.code.length →
      opcodeAt f.head n = some op → (op = OP_GETUPVAL ∨ op = OP_SETUPVAL) →
      argB (codeWord f.head n) < f.head.nups.toNat := by
    intro n op hlt hop hupval
    have hword := h (codeWord f.head n) (by rw [codeWord_of_lt hlt]; exact List.getElem_mem hlt)
    exact hword.upvalue_lt hop hupval
  refine ⟨le_rfl, ?_, ?_⟩
  · rintro n hlt - (hop | hop)
    · exact hoperand hlt hop (Or.inl rfl)
    · exact hoperand hlt hop (Or.inr rfl)
  · intro n nup j _ _ _ _ _ hcapture
    by_cases hlt : n + j + 1 < f.head.code.length
    · exact hoperand hlt hcapture (Or.inl rfl)
    · -- behind the code there is no `GETUPVAL`
      have hzero : codeWord f.head (n + j + 1) = 0 := by
        rw [codeWord, List.getD_eq_getElem?_getD, List.getElem?_eq_none (Nat.not_lt.mp hlt),
          Option.getD_none]
      unfold opcodeAt at hcapture
      rw [hzero] at hcapture
      exact absurd hcapture (by decide)

section

variable {luaYParser : List Byte → Except LoadError Proto} {nCcalls : Nat} {script : List Byte}
  {f : LProto}

/-- The closure that `f_parser` makes, with `nups` upvalues, is large enough. -/
theorem loaded_upvaluesExist (hparser : ParserEmits luaYParser)
    (h : luaL_loadbuffer luaYParser nCcalls script = .ok f) :
    UpvaluesExist f f.head.nups.toNat := by
  rcases luaL_loadbuffer_ok h with ⟨-, hchecked⟩ | ⟨-, p, hparse, rfl⟩
  · exact upvaluesExist_of_checked hchecked.here
  · exact upvaluesExist_of_emitted (hparser.code script p hparse).here

/-- No smaller one is. -/
theorem loaded_upvaluesExist_iff (hparser : ParserEmits luaYParser)
    (h : luaL_loadbuffer luaYParser nCcalls script = .ok f) (slots : Nat) :
    UpvaluesExist f slots ↔ f.head.nups.toNat ≤ slots :=
  ⟨UpvaluesExist.nups, fun hle => (loaded_upvaluesExist hparser h).mono hle⟩

/-- A main function in source form has no upvalues. -/
theorem loaded_nups_eq_zero (hparser : ParserEmits luaYParser)
    (h : luaL_loadbuffer luaYParser nCcalls script = .ok f)
    (hsource : script.head? ≠ some LUA_SIGNATURE) : f.head.nups = 0 := by
  rcases luaL_loadbuffer_ok h with ⟨hsig, -⟩ | ⟨-, p, hparse, rfl⟩
  · exact absurd hsig hsource
  · exact hparser.nups script p hparse

end

/-! ## The closure that is pushed -/

/-- The host, which makes closures with as many upvalues as it is asked for, and the
loader of `vState`. A null string has no counterpart among the host's strings, so only
trees without one are loaded. -/
structure LoadsScripts {A : Type} (C : ConversionApi A (List Byte))
    (luaYParser : List Byte → Except LoadError Proto) (nCcalls : Nat)
    (upvalueSlots : A → Addr → Nat) : Prop where
  api : C.api.Lawful
  fnewlclosure_ok {rs n env a s s'} (h : C.rbx_fnewlclosure rs n env s = .ok a s') :
    Alloc C.api s s' a CLOSURE_SIZE
  slots {rs n env a s s'} (h : C.rbx_fnewlclosure rs n env s = .ok a s') :
    upvalueSlots s'.heap a = n.toNat
  loads {script p} (h : C.luaL_loadbuffer script = .ok p) :
    luaL_loadbuffer luaYParser nCcalls script = .ok (ofProto p)
  parser : ParserEmits luaYParser

section

variable {A : Type} {C : ConversionApi A (List Byte)}
  {luaYParser : List Byte → Except LoadError Proto} {nCcalls : Nat}
  {upvalueSlots : A → Addr → Nat} {rbxState : Addr} {script : List Byte} {c c' : CState A}
  {p : Proto} {σ σ' : TState A}

/-- The closure in the slot that was on top before. -/
def pushedClosure (rbxState : Addr) (s s' : HostState A) : Addr :=
  load32 s'.mem (stackTop s.mem rbxState)

/-- A translation that ends has asked the host for a closure without upvalues. -/
theorem translateAndPush_slots (hC : LoadsScripts C luaYParser nCcalls upvalueSlots)
    (hL : Layout C.api rbxState σ.host) (h : translateAndPush C rbxState p σ = .ok ⟨⟩ σ') :
    upvalueSlots (restored rbxState σ').host.heap
      (pushedClosure rbxState σ.host (restored rbxState σ').host) = 0 := by
  obtain ⟨-, hblock, -⟩ := translateAndPush_pushed hC.api hC.fnewlclosure_ok hL h
  rw [translateAndPush_eq] at h
  obtain ⟨proto, σ₂, env, closure, s₃, -, hL₂, htop, hclosure, heq⟩ :=
    translation_made hC.api hL.switchedOff h
  have hvalue := (hL₂.slot_withFunction (hC.fnewlclosure_ok hclosure) proto).value
  rw [htop, hL.stackTop_switchedOff] at hvalue
  -- the second store of the threshold is not into the slot
  have hkept : pushedClosure rbxState σ.host (restored rbxState σ').host
      = load32 σ'.host.mem (stackTop σ.host.mem rbxState) := by
    refine load_store_disjoint (n := 4) (k := 4) ?_
    have hapart : Disjoint (slotBlock σ.host.mem rbxState) (thresholdBlock σ'.host.mem rbxState) := by
      rw [hblock]
      exact hL.slot_threshold
    exact hapart.mono_left slot_subset_zero
  have hheap : (restored rbxState σ').host.heap = s₃.heap := by
    show σ'.host.heap = s₃.heap
    rw [heq]
  rw [hkept, hheap, heq]
  exact (congrArg (upvalueSlots s₃.heap) hvalue).trans (hC.slots hclosure)

/-- The call that pushes, from its end. -/
theorem protoConversion_true (h : ProtoConversion C rbxState script c = .ok true c') :
    ∃ p σ', C.luaL_loadbuffer script = .ok p
      ∧ translateAndPush C rbxState p c.host = .ok ⟨⟩ σ' ∧ c'.host = restored rbxState σ' := by
  cases hload : C.luaL_loadbuffer script with
  | error err =>
    rw [protoConversion_refused hload] at h
    obtain ⟨hfalse, -⟩ := EStateM.Result.ok.inj h
    exact absurd hfalse Bool.false_ne_true
  | ok p =>
    cases hrun : translateAndPush C rbxState p c.host with
    | ok u σ' =>
      rw [protoConversion_pushed hload hrun] at h
      obtain ⟨-, rfl⟩ := EStateM.Result.ok.inj h
      exact ⟨p, σ', rfl, hrun, rfl⟩
    | error f σ' =>
      rw [protoConversion_raised hload hrun] at h
      exact nomatch h

/-- The closure that is pushed has no upvalues. -/
theorem protoConversion_slots (hC : LoadsScripts C luaYParser nCcalls upvalueSlots)
    (hL : Layout C.api rbxState c.host.host)
    (hrun : ProtoConversion C rbxState script c = .ok true c') :
    upvalueSlots c'.host.host.heap (pushedClosure rbxState c.host.host c'.host.host) = 0 := by
  obtain ⟨p, σ', -, htranslate, heq⟩ := protoConversion_true hrun
  rw [heq]
  exact translateAndPush_slots hC hL htranslate

/-- **The pushed closure is large enough for a function without upvalues, and for no
other.** For every script that loads and every call that pushes: the slot holds a
function of the main proto, whose closure has the upvalues that the main proto declares
and names if and only if its `nups` is zero, as it is for every script in source form. -/
theorem pushed_upvaluesExist_iff (hC : LoadsScripts C luaYParser nCcalls upvalueSlots)
    (hL : Layout C.api rbxState c.host.host) (hload : C.luaL_loadbuffer script = .ok p)
    (hrun : ProtoConversion C rbxState script c = .ok true c') :
    let slots := upvalueSlots c'.host.host.heap (pushedClosure rbxState c.host.host c'.host.host)
    Pushed C.api rbxState p (stackTop c.host.host.mem rbxState) c'.host.host
      ∧ (UpvaluesExist (ofProto p) slots ↔ (ofProto p).head.nups = 0)
      ∧ (script.head? ≠ some LUA_SIGNATURE → UpvaluesExist (ofProto p) slots) := by
  intro slots
  have hslots : slots = 0 := protoConversion_slots hC hL hrun
  have hloaded := hC.loads hload
  have hiff : UpvaluesExist (ofProto p) slots ↔ (ofProto p).head.nups = 0 := by
    rw [loaded_upvaluesExist_iff hC.parser hloaded, hslots, Nat.le_zero]
    exact BitVec.toNat_inj (y := 0)
  refine ⟨?_, hiff, fun hsource => ?_⟩
  · obtain ⟨q, σ', hq, htranslate, heq⟩ := protoConversion_true hrun
    obtain rfl := Except.ok.inj (hload.symm.trans hq)
    rw [heq]
    exact (translateAndPush_pushed hC.api hC.fnewlclosure_ok hL htranslate).2.2
  · exact hiff.mpr (loaded_nups_eq_zero hC.parser hloaded hsource)

end

/-! ## A chunk with an upvalue -/

/-- The words from the end of a closure to the end of the heap: its upvalues, as long as
it is the newest object. -/
def wordsBehind (h : Bump) (closure : Addr) : Nat := (h.length - (closure.toNat + CLOSURE_SIZE)) / 4

def upvalueCode : List Word :=
  [CREATE_ABC OP_GETUPVAL.toWord 0 0 0, CREATE_ABC OP_RETURN.toWord 0 1 0]

theorem upvalueCode_fits : 4 * upvalueCode.length < 2 ^ 32 := by decide

/-- `GETUPVAL 0 0`, `RETURN 0 1` and a `nups` of one. -/
def upvalueProto : Proto :=
  leafProto 0x1000 { leafHead [] upvalueCode noConstants_fit upvalueCode_fits with nups := 1 }

def upvalueChunk : List Byte := plainChunk 1 upvalueCode 0 []

/-- `local x; return function() return x end` -/
def captureSource : List Byte := chars "local x; return function() return x end"

def captureCode : List Word :=
  [CREATE_ABx OP_CLOSURE.toWord 1 0, CREATE_ABC OP_MOVE.toWord 0 0 0,
    CREATE_ABC OP_RETURN.toWord 1 2 0, CREATE_ABC OP_RETURN.toWord 0 1 0]

def capturedCode : List Word :=
  [CREATE_ABC OP_GETUPVAL.toWord 0 0 0, CREATE_ABC OP_RETURN.toWord 0 2 0,
    CREATE_ABC OP_RETURN.toWord 0 1 0]

theorem captureCode_fits : 4 * captureCode.length < 2 ^ 32 := by decide

theorem capturedCode_fits : 4 * capturedCode.length < 2 ^ 32 := by decide

/-- Its main function, whose child takes the first register. -/
def captureMain : Proto :=
  .mk 0x1000
    { leafHead [] captureCode noConstants_fit captureCode_fits with
      source := luaS_newlstr (chars "NostalgiaConv") }
    1 (by decide) (fun _ =>
      leafProto 0x2000 { leafHead [] capturedCode noConstants_fit capturedCode_fits with nups := 1 })

/-- A parser that knows no other script. -/
def captureParser (script : List Byte) : Except LoadError Proto :=
  if script = captureSource then .ok captureMain
  else .error (.syntaxError "'=' expected near '<eof>'")

theorem captureParser_eq_ok {script : List Byte} {p : Proto} (h : captureParser script = .ok p) :
    p = captureMain := by
  unfold captureParser at h
  split at h
  · exact (Except.ok.inj h).symm
  · exact nomatch h

theorem captureParser_emits : ParserEmits captureParser where
  code script p h := by
    obtain rfl := captureParser_eq_ok h
    refine ⟨?_, fun _ => ⟨?_, fun i => i.elim0⟩⟩
    · show ∀ v ∈ captureCode, EmittedWord 0 v
      unfold captureCode
      simp only [List.forall_mem_cons]
      exact ⟨.instruction OP_CLOSURE (by decide) (by decide),
        .instruction OP_MOVE (by decide) (by decide),
        .instruction OP_RETURN (by decide) (by decide),
        .instruction OP_RETURN (by decide) (by decide), nofun⟩
    · show ∀ v ∈ capturedCode, EmittedWord 1 v
      unfold capturedCode
      simp only [List.forall_mem_cons]
      exact ⟨.instruction OP_GETUPVAL (by decide) (by decide),
        .instruction OP_RETURN (by decide) (by decide),
        .instruction OP_RETURN (by decide) (by decide), nofun⟩
  nups script p h := by
    obtain rfl := captureParser_eq_ok h
    rfl

/-- The bump host, whose closures end in their upvalues, and a loader that knows the
chunk and the script. -/
def chunkConversion : ConversionApi Bump (List Byte) where
  api := bumpHost 0
  rbx_fnewlclosure _ n _ := alloc (CLOSURE_SIZE + 4 * n.toNat) false (fun m _ => m)
  luaL_loadbuffer script :=
    if script = upvalueChunk then .ok upvalueProto
    else if script = captureSource then .ok captureMain
    else .error []

theorem chunkConversion_newlclosure {rs env a : Addr} {n : Word} {s s' : State}
    (h : chunkConversion.rbx_fnewlclosure rs n env s = .ok a s') :
    Alloc chunkConversion.api s s' a CLOSURE_SIZE ∧ wordsBehind s'.heap a = n.toNat := by
  have hdef : chunkConversion.rbx_fnewlclosure rs n env s
      = alloc (CLOSURE_SIZE + 4 * n.toNat) false (fun m _ => m) s := rfl
  rw [hdef] at h
  obtain ⟨hn, rfl, rfl⟩ := alloc_returned h
  have halloc : Alloc (bumpHost 0) s (grow s (CLOSURE_SIZE + 4 * n.toNat) false) (top s)
      (CLOSURE_SIZE + 4 * n.toNat) := alloc_grow hn (fun _ _ => rfl)
  have hsub : block (top s) CLOSURE_SIZE ⊆ block (top s) (CLOSURE_SIZE + 4 * n.toNat) :=
    block_mono (Nat.le_add_right _ _)
  refine ⟨⟨halloc.frame, halloc.fresh.mono_left hsub, halloc.owned.mono hsub⟩, ?_⟩
  have htop : (top s).toNat = s.heap.length := by
    rw [top, BitVec.toNat_ofNat]
    unfold CLOSURE_SIZE at hn
    omega
  have hlen := length_grow s (CLOSURE_SIZE + 4 * n.toNat) false
  show ((grow s (CLOSURE_SIZE + 4 * n.toNat) false).heap.length - _) / 4 = n.toNat
  rw [hlen, htop]
  omega

/-- Functions without children differ in their fields only. -/
theorem leaf_eq (head : LHead) (p q : Fin 0 → LProto) : LProto.mk head 0 p = .mk head 0 q :=
  congrArg (LProto.mk head 0) (funext fun i => i.elim0)

theorem upvalueChunk_loads (luaYParser : List Byte → Except LoadError Proto) :
    luaL_loadbuffer luaYParser 0 upvalueChunk = .ok (ofProto upvalueProto) := by
  have hload : luaL_loadbuffer luaYParser 0 upvalueChunk
      = .ok (.mk (ofProto upvalueProto).head 0 fun i => ([] : List LProto).get i) := rfl
  exact hload.trans (congrArg Except.ok (leaf_eq _ _ _))

theorem captureSource_loads :
    luaL_loadbuffer captureParser 0 captureSource = .ok (ofProto captureMain) := by
  have hparse : captureParser captureSource = .ok captureMain := if_pos rfl
  have hsource : ¬ captureSource.head? = some LUA_SIGNATURE := by decide
  unfold luaL_loadbuffer
  rw [if_neg hsource, hparse]

theorem chunkConversion_eq (script : List Byte) : chunkConversion.luaL_loadbuffer script
    = if script = upvalueChunk then .ok upvalueProto
      else if script = captureSource then .ok captureMain else .error [] := rfl

theorem chunkConversion_loads {script : List Byte} {p : Proto}
    (h : chunkConversion.luaL_loadbuffer script = .ok p) :
    luaL_loadbuffer captureParser 0 script = .ok (ofProto p) := by
  rw [chunkConversion_eq] at h
  by_cases hchunk : script = upvalueChunk
  · rw [if_pos hchunk] at h
    obtain rfl := Except.ok.inj h
    rw [hchunk]
    exact upvalueChunk_loads _
  · rw [if_neg hchunk] at h
    by_cases hsource : script = captureSource
    · rw [if_pos hsource] at h
      obtain rfl := Except.ok.inj h
      rw [hsource]
      exact captureSource_loads
    · rw [if_neg hsource] at h
      exact nomatch h

theorem chunkConversion_loadsScripts :
    LoadsScripts chunkConversion captureParser 0 wordsBehind where
  api := bumpHost_lawful 0
  fnewlclosure_ok h := (chunkConversion_newlclosure h).1
  slots h := (chunkConversion_newlclosure h).2
  loads h := chunkConversion_loads h
  parser := captureParser_emits

/-- A translation that ends is a call that pushes. -/
theorem chunkConversion_running {p : Proto}
    (hended : ended (translateAndPush chunkConversion 0 p running.host) = true)
    {script : List Byte} (hload : chunkConversion.luaL_loadbuffer script = .ok p) :
    ∃ c', ProtoConversion chunkConversion 0 script running = .ok true c' := by
  obtain ⟨⟨⟩, σ', hrun⟩ := exists_of_ended hended
  exact ⟨_, protoConversion_pushed hload hrun⟩

/-- A script in source form, whose child captures a register. -/
theorem pushed_upvaluesExist_capture : ∃ c',
    ProtoConversion chunkConversion 0 captureSource running = .ok true c'
      ∧ Pushed chunkConversion.api 0 captureMain (stackTop running.host.host.mem 0) c'.host.host
      ∧ UpvaluesExist (ofProto captureMain) (wordsBehind c'.host.host.heap
        (pushedClosure 0 running.host.host c'.host.host)) := by
  have hload : chunkConversion.luaL_loadbuffer captureSource = .ok captureMain := rfl
  obtain ⟨c', hrun⟩ := chunkConversion_running (by decide +kernel) hload
  obtain ⟨hpushed, -, hexist⟩ :=
    pushed_upvaluesExist_iff chunkConversion_loadsScripts running_layout hload hrun
  exact ⟨c', hrun, hpushed, hexist (by decide)⟩

/-- **The closure of an accepted chunk without its upvalue.** The chunk's main function
declares one upvalue and reads it; the closure that is pushed for it has none. -/
theorem chunk_upvalue_missing :
    luaL_loadbuffer captureParser 0 upvalueChunk = .ok (ofProto upvalueProto)
      ∧ (ofProto upvalueProto).head.nups = 1
      ∧ ∃ c', ProtoConversion chunkConversion 0 upvalueChunk running = .ok true c'
        ∧ wordsBehind c'.host.host.heap (pushedClosure 0 running.host.host c'.host.host) = 0
        ∧ ¬ UpvaluesExist (ofProto upvalueProto) (wordsBehind c'.host.host.heap
          (pushedClosure 0 running.host.host c'.host.host)) := by
  have hload : chunkConversion.luaL_loadbuffer upvalueChunk = .ok upvalueProto := by
    rw [chunkConversion_eq, if_pos rfl]
  obtain ⟨c', hrun⟩ := chunkConversion_running (by decide +kernel) hload
  have hslots := protoConversion_slots chunkConversion_loadsScripts running_layout hrun
  refine ⟨upvalueChunk_loads _, rfl, c', hrun, hslots, fun h => ?_⟩
  exact absurd (hslots ▸ h.nups) (by decide)

end NostalgiaConv.UpvalueSlots
