/-
`conversion::ProtoConversion`.

Two machines are changed: the private state `vState`, on whose stack the compiled
script lies while it is translated, and the host, whose collector is switched off by
a threshold of `MAX_LUMEM` before the first allocation and on again after the new
closure was pushed. The writes are few and lie in known places of the host's state,
and what is in use elsewhere stays: `Layout` says where the places are, and there is
a lemma for each write on what it leaves as it was.
-/
import NostalgiaConv.HostTree
import NostalgiaConv.Hoare

set_option autoImplicit false

namespace NostalgiaConv.Conversion

open NostalgiaConv.ByteMem NostalgiaConv.Cipher NostalgiaConv.Host NostalgiaConv.Value
open NostalgiaConv.Transpile NostalgiaConv.Segments NostalgiaConv.Tables NostalgiaConv.ProtoTree
open NostalgiaConv.HostTree NostalgiaConv.BumpHost NostalgiaConv.Hoare

def MAX_LUMEM : Word := 0xFFFFFFFD

/-- The size of a host closure, as far as the conversion writes it. -/
def CLOSURE_SIZE : Nat := 0x14

/-! ## The program -/

/-- What is used beside the operations of the transpiler: one more operation of the host,
and the compiler. -/
structure ConversionApi (A Script : Type) where
  api : HostApi A
  rbx_fnewlclosure : Addr → Word → Addr → HostM A Addr
  luaL_loadbuffer : Script → Except (List Byte) Proto

/-- A value on the stack of `vState`. -/
inductive VValue where
  | closure (p : Proto)
  | message (err : List Byte)
  | other

/-- Both machines; the top of `vState` comes first. -/
structure CState (A : Type) where
  host : TState A
  vState : List VValue

abbrev ConversionM (A : Type) := EStateM Fault (CState A)

section

variable {A Script : Type} {α : Type}

def onHost (x : TranspileM A α) : ConversionM A α := fun c =>
  match x c.host with
  | .ok a σ => .ok a { c with host := σ }
  | .error f σ => .error f { c with host := σ }

def vPush (v : VValue) : ConversionM A PUnit := modify (fun c => { c with vState := v :: c.vState })

/-- `lua_pop(vState, 1)` -/
def vPop : ConversionM A PUnit := modify (fun c => { c with vState := c.vState.tail })

variable (C : ConversionApi A Script) (rbxState : Addr)

/-- `*(rbxState + 8) + rbxState` -/
def globalState : TranspileM A Addr := do
  let p ← read32 (rbxState + 8)
  pure (p + rbxState)

/-- `GCthreshold` -/
def setThreshold (v : Word) : TranspileM A PUnit := do
  let g ← globalState rbxState
  write32 (g + 0x54) v

/-- Push the closure on the host's stack. -/
def pushClosure (closure : Addr) : TranspileM A PUnit := do
  let pStackTop := rbxState + 0x10
  let top ← read32 pStackTop
  write32 top closure
  let top ← read32 pStackTop
  write32 (top + 8) RBX_TYPE_FUNCTION
  let top ← read32 pStackTop
  write32 pStackTop (top + 0x10)

/-- From the switch of the collector to the push. -/
def translateAndPush (vMainProto : Proto) : TranspileM A PUnit := do
  setThreshold rbxState MAX_LUMEM
  let transpiledProto ← transpileProto C.api rbxState vMainProto Cache.empty Cache.empty
  let globalEnv ← read32 (rbxState + 0x68)
  let closure ← callHost (C.rbx_fnewlclosure rbxState 0 globalEnv)
  write32 (closure + 0x10) (transpiledProto - closure - 0x10)
  pushClosure rbxState closure

/-- `GCthreshold = totalbytes` -/
def restoreThreshold : TranspileM A PUnit := do
  let g ← globalState rbxState
  let totalbytes ← read32 (g + 0x60)
  setThreshold rbxState totalbytes

def ProtoConversion (script : Script) : ConversionM A Bool :=
  match C.luaL_loadbuffer script with
  | .error err => do
    vPush (.message err)
    vPop
    pure false
  | .ok vMainProto => do
    vPush (.closure vMainProto)
    onHost (translateAndPush C rbxState vMainProto)
    onHost (restoreThreshold rbxState)
    vPop
    pure true

end

/-! ## Host and layout -/

section

variable {A Script : Type}

/-- A new closure is an allocation like the others. -/
structure ConversionApi.Lawful (C : ConversionApi A Script) : Prop where
  api : C.api.Lawful
  fnewlclosure_ok {rs n env a s s'} (h : C.rbx_fnewlclosure rs n env s = .ok a s') :
    Alloc C.api s s' a CLOSURE_SIZE
  fnewlclosure_error {rs n env e s s'} (h : C.rbx_fnewlclosure rs n env s = .error e s') :
    Frame C.api ∅ s s'

/-- The words of a script that loads name opcodes. `luaL_loadbuffer` does not see to that:
it passes a chunk whose count word after `OP_SETLIST` has any opcode field, and the
transpiler, which takes the count for an instruction, then reads past `luaP_opmodes`. -/
def NamesOpcodes (C : ConversionApi A Script) (script : Script) : Prop :=
  ∀ p, C.luaL_loadbuffer script = .ok p → OpcodesOk p

def globalOf (m : Mem 32) (rbxState : Addr) : Addr := load32 m (rbxState + 8) + rbxState

def gcThreshold (m : Mem 32) (rbxState : Addr) : Word := load32 m (globalOf m rbxState + 0x54)

def totalbytes (m : Mem 32) (rbxState : Addr) : Word := load32 m (globalOf m rbxState + 0x60)

def stackTop (m : Mem 32) (rbxState : Addr) : Addr := load32 m (rbxState + 0x10)

/-- The fields of the state that are used. -/
def stateBlock (rbxState : Addr) : Set Addr := block rbxState 0x6C

/-- The pointer to the top, in it. -/
def topBlock (rbxState : Addr) : Set Addr := block (rbxState + 0x10) 4

def thresholdBlock (m : Mem 32) (rbxState : Addr) : Set Addr :=
  block (globalOf m rbxState + 0x54) 4

def totalbytesBlock (m : Mem 32) (rbxState : Addr) : Set Addr :=
  block (globalOf m rbxState + 0x60) 4

/-- The slot at the top. -/
def slotBlock (m : Mem 32) (rbxState : Addr) : Set Addr := block (stackTop m rbxState) 0x10

/-- Where things lie: the state, the threshold and a free slot at the top are in use and
apart, and the count of bytes is apart from the first and the last. -/
structure Layout (H : HostApi A) (rbxState : Addr) (s : HostState A) : Prop where
  state : Owned H (stateBlock rbxState) s
  threshold : Owned H (thresholdBlock s.mem rbxState) s
  slot : Owned H (slotBlock s.mem rbxState) s
  threshold_state : Disjoint (thresholdBlock s.mem rbxState) (stateBlock rbxState)
  slot_state : Disjoint (slotBlock s.mem rbxState) (stateBlock rbxState)
  slot_threshold : Disjoint (slotBlock s.mem rbxState) (thresholdBlock s.mem rbxState)
  totalbytes_state : Disjoint (totalbytesBlock s.mem rbxState) (stateBlock rbxState)
  totalbytes_slot : Disjoint (totalbytesBlock s.mem rbxState) (slotBlock s.mem rbxState)

/-- The host's count of bytes, in a call that starts in `s₀`: a new closure does not lie
over it, and it stays below `MAX_LUMEM`. -/
structure Counted (C : ConversionApi A Script) (rbxState : Addr) (s₀ : HostState A) : Prop where
  apart {n env a s s'} (hf : Frame C.api (thresholdBlock s₀.mem rbxState) s₀ s)
    (h : C.rbx_fnewlclosure rbxState n env s = .ok a s') :
    Disjoint (block a CLOSURE_SIZE) (totalbytesBlock s'.mem rbxState)
  below {n env a s s'} (hf : Frame C.api (thresholdBlock s₀.mem rbxState) s₀ s)
    (h : C.rbx_fnewlclosure rbxState n env s = .ok a s') :
    totalbytes s'.mem rbxState ≠ MAX_LUMEM

/-! ## What stays where it is -/

variable {H : HostApi A} {rbxState : Addr} {s s' : HostState A} {W : Set Addr}

/-- A field of the state. -/
theorem field_subset {i : Nat} (h : i + 4 ≤ 0x6C) :
    block (rbxState + BitVec.ofNat 32 i) 4 ⊆ stateBlock rbxState :=
  block_offset_subset h (by decide)

theorem topBlock_subset : topBlock rbxState ⊆ stateBlock rbxState :=
  field_subset (i := 0x10) (by decide)

theorem load32_frame {a : Addr} (hf : Frame H W s s') (hlive : block a 4 ⊆ H.live s.heap)
    (hW : Disjoint (block a 4) W) : load32 s'.mem a = load32 s.mem a :=
  (hf.agreeOn hlive hW).load_eq subset_rfl

/-- A field of the state, over a run that does not write the state. -/
theorem Layout.field (h : Layout H rbxState s) (hf : Frame H W s s')
    (hW : Disjoint (stateBlock rbxState) W) {i : Nat} (hoff : i + 4 ≤ 0x6C) :
    load32 s'.mem (rbxState + BitVec.ofNat 32 i)
      = load32 s.mem (rbxState + BitVec.ofNat 32 i) :=
  load32_frame hf ((field_subset hoff).trans h.state.live) (hW.mono_left (field_subset hoff))

theorem Layout.globalOf_eq (h : Layout H rbxState s) (hf : Frame H W s s')
    (hW : Disjoint (stateBlock rbxState) W) :
    globalOf s'.mem rbxState = globalOf s.mem rbxState :=
  congrArg (· + rbxState) (h.field hf hW (i := 8) (by decide))

theorem Layout.stackTop_eq (h : Layout H rbxState s) (hf : Frame H W s s')
    (hW : Disjoint (stateBlock rbxState) W) :
    stackTop s'.mem rbxState = stackTop s.mem rbxState :=
  h.field hf hW (i := 0x10) (by decide)

/-- The layout lasts while the state is not written. -/
theorem Layout.frame (h : Layout H rbxState s) (hf : Frame H W s s')
    (hW : Disjoint (stateBlock rbxState) W) : Layout H rbxState s' := by
  have hglobal := h.globalOf_eq hf hW
  have htop := h.stackTop_eq hf hW
  have hthreshold : thresholdBlock s'.mem rbxState = thresholdBlock s.mem rbxState := by
    unfold thresholdBlock
    rw [hglobal]
  have hbytes : totalbytesBlock s'.mem rbxState = totalbytesBlock s.mem rbxState := by
    unfold totalbytesBlock
    rw [hglobal]
  have hslot : slotBlock s'.mem rbxState = slotBlock s.mem rbxState := by
    unfold slotBlock
    rw [htop]
  refine ⟨hf.owned h.state, ?_, ?_, ?_, ?_, ?_, ?_, ?_⟩
  · rw [hthreshold]
    exact hf.owned h.threshold
  · rw [hslot]
    exact hf.owned h.slot
  · rw [hthreshold]
    exact h.threshold_state
  · rw [hslot]
    exact h.slot_state
  · rw [hslot, hthreshold]
    exact h.slot_threshold
  · rw [hbytes]
    exact h.totalbytes_state
  · rw [hbytes, hslot]
    exact h.totalbytes_slot

/-- The threshold lasts while it is not written either. -/
theorem Layout.gcThreshold_eq (h : Layout H rbxState s) (hf : Frame H W s s')
    (hW : Disjoint (stateBlock rbxState) W)
    (hW' : Disjoint (thresholdBlock s.mem rbxState) W) :
    gcThreshold s'.mem rbxState = gcThreshold s.mem rbxState := by
  unfold gcThreshold
  rw [h.globalOf_eq hf hW]
  exact load32_frame hf h.threshold.live hW'

/-! ## The writes -/

/-- The memory after the threshold was set. -/
def withThreshold (m : Mem 32) (rbxState : Addr) (v : Word) : Mem 32 :=
  store32 m (globalOf m rbxState + 0x54) v

theorem frame_withThreshold (H : HostApi A) (s : HostState A) (rbxState : Addr) (v : Word) :
    Frame H (thresholdBlock s.mem rbxState) s { s with mem := withThreshold s.mem rbxState v } :=
  frame_store H s 4 _ v

theorem gcThreshold_withThreshold {m : Mem 32}
    (h : Disjoint (thresholdBlock m rbxState) (stateBlock rbxState)) (v : Word) :
    gcThreshold (withThreshold m rbxState v) rbxState = v := by
  have hpointer : load32 (withThreshold m rbxState v) (rbxState + 8) = load32 m (rbxState + 8) := by
    unfold withThreshold
    exact load_store_disjoint (n := 4) (k := 4)
      (h.symm.mono_left (field_subset (i := 8) (by decide)))
  unfold gcThreshold globalOf
  rw [hpointer]
  unfold withThreshold globalOf
  exact load_store_same (n := 4) (by decide) m _ v

/-- The memory after the closure was pushed. -/
def withClosure (m : Mem 32) (rbxState closure : Addr) : Mem 32 :=
  let m := store32 m (stackTop m rbxState) closure
  let m := store32 m (stackTop m rbxState + 8) RBX_TYPE_FUNCTION
  store32 m (rbxState + 0x10) (stackTop m rbxState + 0x10)

theorem slot_subset {m : Mem 32} {i : Nat} (h : i + 4 ≤ 0x10) :
    block (stackTop m rbxState + BitVec.ofNat 32 i) 4 ⊆ slotBlock m rbxState :=
  block_offset_subset h (by decide)

theorem slot_subset_zero {m : Mem 32} : block (stackTop m rbxState) 4 ⊆ slotBlock m rbxState :=
  block_mono (by decide)

/-- The top is read three times, and is the same each time. -/
theorem Layout.withClosure_eq (h : Layout H rbxState s) (closure : Addr) :
    withClosure s.mem rbxState closure
      = store32 (store32 (store32 s.mem (stackTop s.mem rbxState) closure)
          (stackTop s.mem rbxState + 8) RBX_TYPE_FUNCTION) (rbxState + 0x10)
          (stackTop s.mem rbxState + 0x10) := by
  have hfirst : stackTop (store32 s.mem (stackTop s.mem rbxState) closure) rbxState
      = stackTop s.mem rbxState :=
    load_store_disjoint (h.slot_state.symm.mono topBlock_subset slot_subset_zero)
  have hsecond : ∀ m : Mem 32, stackTop (store32 m (stackTop s.mem rbxState + 8)
      RBX_TYPE_FUNCTION) rbxState = stackTop m rbxState := fun m =>
    load_store_disjoint (h.slot_state.symm.mono topBlock_subset
      (slot_subset (i := 8) (by decide)))
  unfold withClosure
  simp only [hfirst, hsecond]

/-- The push writes the slot and the pointer to it. -/
theorem Layout.frame_withClosure (h : Layout H rbxState s) (closure : Addr) :
    Frame H (slotBlock s.mem rbxState ∪ topBlock rbxState) s
      { s with mem := withClosure s.mem rbxState closure } := by
  rw [h.withClosure_eq closure]
  let top := stackTop s.mem rbxState
  let m₁ := store32 s.mem top closure
  let m₂ := store32 m₁ (top + 8) RBX_TYPE_FUNCTION
  have h₁ := frame_store H s 4 top closure
  have h₂ := frame_store H { s with mem := m₁ } 4 (top + 8) RBX_TYPE_FUNCTION
  have h₃ := frame_store H { s with mem := m₂ } 4 (rbxState + 0x10) (top + 0x10)
  refine ((h₁.mono ?_).trans (h₂.mono ?_)).trans (h₃.mono ?_)
  · exact slot_subset_zero.trans Set.subset_union_left
  · exact (slot_subset (i := 8) (by decide)).trans Set.subset_union_left
  · exact Set.subset_union_right

/-- A word that lies apart from both is as it was. -/
theorem Layout.load_withClosure (h : Layout H rbxState s) (closure : Addr) {a : Addr}
    (hslot : Disjoint (block a 4) (slotBlock s.mem rbxState))
    (htop : Disjoint (block a 4) (topBlock rbxState)) :
    load32 (withClosure s.mem rbxState closure) a = load32 s.mem a := by
  rw [h.withClosure_eq closure]
  let top := stackTop s.mem rbxState
  let m₁ := store32 s.mem top closure
  let m₂ := store32 m₁ (top + 8) RBX_TYPE_FUNCTION
  have h₁ : load32 m₁ a = load32 s.mem a :=
    load_store_disjoint (hslot.mono_right slot_subset_zero)
  have h₂ : load32 m₂ a = load32 m₁ a :=
    load_store_disjoint (hslot.mono_right (slot_subset (i := 8) (by decide)))
  have h₃ : load32 (store32 m₂ (rbxState + 0x10) (top + 0x10)) a = load32 m₂ a :=
    load_store_disjoint htop
  exact h₃.trans (h₂.trans h₁)

/-- So are the pointer to the global state, and the threshold. -/
theorem Layout.global_withClosure (h : Layout H rbxState s) (closure : Addr) :
    globalOf (withClosure s.mem rbxState closure) rbxState = globalOf s.mem rbxState
      ∧ gcThreshold (withClosure s.mem rbxState closure) rbxState = gcThreshold s.mem rbxState := by
  have hload := h.load_withClosure closure (a := rbxState + 8)
    (h.slot_state.symm.mono_left (field_subset (i := 8) (by decide)))
    (disjoint_block_offset (i := 8) (j := 0x10) (by decide) (by decide) (by decide))
  have hglobal : globalOf (withClosure s.mem rbxState closure) rbxState
      = globalOf s.mem rbxState := by
    unfold globalOf
    rw [hload]
  refine ⟨hglobal, ?_⟩
  have hkept := h.load_withClosure closure h.slot_threshold.symm
    (h.threshold_state.mono_right topBlock_subset)
  unfold gcThreshold
  rw [hglobal, hkept]

/-- What the push leaves: one slot more, and the closure in it. -/
theorem Layout.slot_withClosure (h : Layout H rbxState s) (closure : Addr) :
    stackTop (withClosure s.mem rbxState closure) rbxState = stackTop s.mem rbxState + 0x10
      ∧ load32 (withClosure s.mem rbxState closure) (stackTop s.mem rbxState) = closure
      ∧ load32 (withClosure s.mem rbxState closure) (stackTop s.mem rbxState + 8)
        = RBX_TYPE_FUNCTION := by
  rw [h.withClosure_eq closure]
  have hapart : Disjoint (slotBlock s.mem rbxState) (topBlock rbxState) :=
    h.slot_state.mono_right topBlock_subset
  let top := stackTop s.mem rbxState
  let m₁ := store32 s.mem top closure
  let m₂ := store32 m₁ (top + 8) RBX_TYPE_FUNCTION
  let m₃ := store32 m₂ (rbxState + 0x10) (top + 0x10)
  refine ⟨?_, ?_, ?_⟩
  · unfold stackTop
    exact load_store_same (n := 4) (by decide) _ _ _
  · have h₃ : load32 m₃ top = load32 m₂ top :=
      load_store_disjoint (hapart.mono_left (slot_subset_zero (m := s.mem)))
    have h₂ : load32 m₂ top = load32 m₁ top :=
      load_store_disjoint (disjoint_block_add (a := top) (j := 8) (m := 4) (n := 4) (by decide)
        (by decide))
    have h₁ : load32 m₁ top = closure := load_store_same (n := 4) (by decide) _ _ _
    exact h₃.trans (h₂.trans h₁)
  · have h₃ : load32 m₃ (top + 8) = load32 m₂ (top + 8) :=
      load_store_disjoint (hapart.mono_left (slot_subset (m := s.mem) (i := 8) (by decide)))
    have h₂ : load32 m₂ (top + 8) = RBX_TYPE_FUNCTION :=
      load_store_same (n := 4) (by decide) _ _ _
    exact h₃.trans h₂

/-- And the count of bytes. -/
theorem Layout.totalbytes_withClosure (h : Layout H rbxState s) (closure : Addr) :
    totalbytes (withClosure s.mem rbxState closure) rbxState = totalbytes s.mem rbxState := by
  have hkept := h.load_withClosure closure h.totalbytes_slot
    (h.totalbytes_state.mono_right topBlock_subset)
  unfold totalbytes
  rw [(h.global_withClosure closure).1, hkept]

end

/-! ## The translation -/

section

variable {A Script : Type} {C : ConversionApi A Script} {rbxState : Addr} {σ σ' : TState A}

/-- The translation of a main proto, when it ends: then every opcode was in the tables. -/
theorem transpileProto_builds (hH : C.api.Lawful) {p : Proto} {proto : Addr}
    (h : transpileProto C.api rbxState p Cache.empty Cache.empty σ = .ok proto σ') :
    Builds C.api ∅ σ.host σ'.host (fun s => Isomorphic C.api s p proto) := by
  have hseg := segment_transpileProto (r := rbxState) (E := fun _ => True) hH trivial p
    Cache.empty (Or.inr trivial) σ ⟨Set.empty_subset _, Set.empty_disjoint _⟩ trivial
  rw [h] at hseg
  exact (hseg.2 _ (compat_self σ')).imp (fun s hs => isomorphic_of_transpiled hs)

/-- When it does not, the host has raised. -/
theorem transpileProto_raised (hC : C.Lawful) {p : Proto} (hops : OpcodesOk p) {f : Fault}
    (h : transpileProto C.api rbxState p Cache.empty Cache.empty σ = .error f σ') :
    f = .raised ∧ Frame C.api ∅ σ.host σ'.host := by
  have hseg := segment_transpileProto (r := rbxState) (E := (· = .raised)) hC.api rfl p
    Cache.empty (Or.inl hops) σ ⟨Set.empty_subset _, Set.empty_disjoint _⟩ trivial
  rw [h] at hseg
  exact ⟨hseg.1, hseg.2.frame⟩

/-- The slot over `top` holds a function of the main proto, and is the last. -/
structure Pushed (H : HostApi A) (rbxState : Addr) (p : Proto) (top : Addr) (s : HostState A) :
    Prop where
  advanced : stackTop s.mem rbxState = top + 0x10
  tag : load32 s.mem (top + 8) = RBX_TYPE_FUNCTION
  proto : Isomorphic H s p (deref s.mem (load32 s.mem top + 0x10))

/-- The memory after a closure was given its proto and pushed. -/
def withFunction (m : Mem 32) (rbxState closure proto : Addr) : Mem 32 :=
  withClosure (store32 m (closure + 0x10) (proto - closure - 0x10)) rbxState closure

/-- What is known of the slot and the closure in it. -/
structure Slot (rbxState top closure proto : Addr) (m : Mem 32) : Prop where
  advanced : stackTop m rbxState = top + 0x10
  value : load32 m top = closure
  tag : load32 m (top + 8) = RBX_TYPE_FUNCTION
  proto : deref m (closure + 0x10) = proto

variable {H : HostApi A} {s s' s'' : HostState A} {closure proto : Addr}

theorem proto_subset : block (closure + 0x10) 4 ⊆ block closure CLOSURE_SIZE :=
  block_offset_subset (i := 0x10) (by decide) (by decide)

/-- The closure is given its proto. What was in use before it was made is not written. -/
theorem frame_linked (ha : Alloc H s s' closure CLOSURE_SIZE) (v : Word) :
    Frame H ∅ s { s' with mem := store32 s'.mem (closure + 0x10) v } := by
  -- the store is into the closure, which was not in use in `s`
  have hstore := (frame_store H s' 4 (closure + 0x10) v).mono proto_subset
  have hframe := (ha.frame.mono (Set.empty_subset _)).trans hstore
  rw [← Set.empty_union (block closure CLOSURE_SIZE)] at hframe
  exact hframe.drop ha.fresh

theorem Layout.linked (h : Layout H rbxState s) (ha : Alloc H s s' closure CLOSURE_SIZE) (v : Word) :
    Layout H rbxState { s' with mem := store32 s'.mem (closure + 0x10) v } :=
  h.frame (frame_linked ha v) (Set.disjoint_empty _)

theorem Layout.stackTop_linked (h : Layout H rbxState s) (ha : Alloc H s s' closure CLOSURE_SIZE)
    (v : Word) :
    stackTop (store32 s'.mem (closure + 0x10) v) rbxState = stackTop s.mem rbxState := by
  have htop := h.stackTop_eq (frame_linked ha v) (Set.disjoint_empty _)
  exact htop

theorem Layout.slotBlock_linked (h : Layout H rbxState s) (ha : Alloc H s s' closure CLOSURE_SIZE)
    (v : Word) :
    slotBlock (store32 s'.mem (closure + 0x10) v) rbxState = slotBlock s.mem rbxState :=
  congrArg (block · 0x10) (h.stackTop_linked ha v)

/-- The slot and the pointer to the top are written. -/
theorem Layout.frame_withFunction (h : Layout H rbxState s)
    (ha : Alloc H s s' closure CLOSURE_SIZE) (proto : Addr) :
    Frame H (slotBlock s.mem rbxState ∪ topBlock rbxState) s
      { s' with mem := withFunction s'.mem rbxState closure proto } := by
  have hpush := (h.linked ha (proto - closure - 0x10)).frame_withClosure closure
  rw [← h.slotBlock_linked ha (proto - closure - 0x10)]
  exact ((frame_linked ha _).mono (Set.empty_subset _)).trans hpush

/-- The closure is not under what the push writes. -/
theorem Layout.closure_apart (h : Layout H rbxState s) (ha : Alloc H s s' closure CLOSURE_SIZE) :
    Disjoint (block closure CLOSURE_SIZE) (slotBlock s.mem rbxState ∪ topBlock rbxState) :=
  Disjoint.union_right (ha.disjoint h.slot.live).symm
    (ha.disjoint (topBlock_subset.trans h.state.live)).symm

/-- What the slot and the closure hold. -/
theorem Layout.slot_withFunction (h : Layout H rbxState s)
    (ha : Alloc H s s' closure CLOSURE_SIZE) (proto : Addr) :
    Slot rbxState (stackTop s.mem rbxState) closure proto
      (withFunction s'.mem rbxState closure proto) := by
  have hlinked := h.linked ha (proto - closure - 0x10)
  obtain ⟨hadvanced, hvalue, htag⟩ := hlinked.slot_withClosure closure
  rw [h.stackTop_linked ha] at hadvanced hvalue htag
  refine ⟨hadvanced, hvalue, htag, ?_⟩
  have hpush := hlinked.frame_withClosure closure
  rw [h.slotBlock_linked ha] at hpush
  have hlive : block (closure + 0x10) 4 ⊆ H.live s'.heap := proto_subset.trans ha.owned.live
  have hload := load32_frame hpush hlive ((h.closure_apart ha).mono_left proto_subset)
  have hstored : load32 (store32 s'.mem (closure + 0x10) (proto - closure - 0x10)) (closure + 0x10)
      = proto - closure - 0x10 := load_store_same (n := 4) (by decide) _ _ _
  refine deref_of_load ((hload.trans hstored).trans ?_)
  bv_omega

/-- The addresses that the slot's facts look at. -/
theorem Slot.agree {top : Addr} {m m' : Mem 32} (h : Slot rbxState top closure proto m)
    (hagree : AgreeOn (block closure CLOSURE_SIZE ∪ (block top 0x10 ∪ topBlock rbxState)) m m') :
    Slot rbxState top closure proto m' := by
  have hslot : block top 0x10 ⊆ block closure CLOSURE_SIZE ∪ (block top 0x10 ∪ topBlock rbxState) :=
    Set.subset_union_left.trans Set.subset_union_right
  have htop : load32 m' (rbxState + 0x10) = load32 m (rbxState + 0x10) :=
    hagree.load_eq (Set.subset_union_right.trans Set.subset_union_right)
  have hvalue : load32 m' top = load32 m top :=
    hagree.load_eq ((block_mono (by decide)).trans hslot)
  have htag : load32 m' (top + 8) = load32 m (top + 8) :=
    hagree.load_eq ((block_offset_subset (i := 8) (by decide) (by decide)).trans hslot)
  have hproto : load32 m' (closure + 0x10) = load32 m (closure + 0x10) :=
    hagree.load_eq (proto_subset.trans Set.subset_union_left)
  refine ⟨htop.trans h.advanced, hvalue.trans h.value, htag.trans h.tag, ?_⟩
  rw [deref, hproto]
  exact h.proto

/-- The closure's part of the conversion, and what it leaves. -/
theorem Layout.builds_withFunction (h : Layout H rbxState s)
    (ha : Alloc H s s' closure CLOSURE_SIZE) (proto : Addr) :
    Builds H (slotBlock s.mem rbxState ∪ topBlock rbxState) s
      { s' with mem := withFunction s'.mem rbxState closure proto }
      (fun s₁ => Slot rbxState (stackTop s.mem rbxState) closure proto s₁.mem) := by
  have hframe := h.frame_withFunction ha proto
  have hpushed : Owned H (slotBlock s.mem rbxState ∪ topBlock rbxState) s :=
    h.slot.union (h.state.mono topBlock_subset)
  refine ⟨hframe, block closure CLOSURE_SIZE ∪ (slotBlock s.mem rbxState ∪ topBlock rbxState),
    ?_, ?_, ?_⟩
  · refine Set.union_subset ?_ Set.subset_union_left
    exact ha.fresh.subset_compl_right.trans Set.subset_union_right
  · have hclosure : Owned H (block closure CLOSURE_SIZE)
        { s' with mem := withFunction s'.mem rbxState closure proto } :=
      ⟨ha.owned.live, ha.owned.noString⟩
    exact hclosure.union (hframe.owned hpushed)
  · intro s₁ hkeep
    exact (h.slot_withFunction ha proto).agree hkeep.mem

/-- The pointer to the global state and the threshold are as they were. -/
theorem Layout.global_withFunction (h : Layout H rbxState s)
    (ha : Alloc H s s' closure CLOSURE_SIZE) (proto : Addr) :
    globalOf (withFunction s'.mem rbxState closure proto) rbxState = globalOf s.mem rbxState
      ∧ gcThreshold (withFunction s'.mem rbxState closure proto) rbxState
        = gcThreshold s.mem rbxState := by
  have hlinked := frame_linked ha (proto - closure - 0x10)
  obtain ⟨hglobal, hthreshold⟩ :=
    (h.linked ha (proto - closure - 0x10)).global_withClosure closure
  have hglobal' := h.globalOf_eq hlinked (Set.disjoint_empty _)
  have hthreshold' := h.gcThreshold_eq hlinked (Set.disjoint_empty _) (Set.disjoint_empty _)
  exact ⟨hglobal.trans hglobal', hthreshold.trans hthreshold'⟩

/-- The count of bytes is as the new closure left it. -/
theorem Layout.totalbytes_withFunction (h : Layout H rbxState s)
    (ha : Alloc H s s' closure CLOSURE_SIZE) (proto : Addr)
    (hapart : Disjoint (block closure CLOSURE_SIZE) (totalbytesBlock s'.mem rbxState)) :
    totalbytes (withFunction s'.mem rbxState closure proto) rbxState
      = totalbytes s'.mem rbxState := by
  have hlinked := h.linked ha (proto - closure - 0x10)
  have hpush := hlinked.totalbytes_withClosure closure
  have hL' : Layout H rbxState s' := h.frame ha.frame (Set.disjoint_empty _)
  have hstore := frame_store H s' 4 (closure + 0x10) (proto - closure - 0x10)
  have hglobal := hL'.globalOf_eq hstore
    ((ha.disjoint h.state.live).mono_right proto_subset)
  have hload := load_store_disjoint (n := 4) (k := 4) (m := s'.mem)
    (v := proto - closure - 0x10) (hapart.symm.mono_right proto_subset)
  refine hpush.trans ?_
  unfold totalbytes
  exact (congrArg (fun g => load32 _ (g + 0x60)) hglobal).trans hload

end

/-! ## From the switch of the collector to the push -/

section

variable {A Script : Type} {C : ConversionApi A Script} {rbxState : Addr} {σ σ' : TState A}
  {p : Proto}

/-- The state in which the translation starts. -/
def switchedOff (rbxState : Addr) (σ : TState A) : TState A :=
  { σ with host := { σ.host with mem := withThreshold σ.host.mem rbxState MAX_LUMEM } }

theorem frame_switchedOff (H : HostApi A) (rbxState : Addr) (σ : TState A) :
    Frame H (thresholdBlock σ.host.mem rbxState) σ.host (switchedOff rbxState σ).host :=
  frame_withThreshold H σ.host rbxState MAX_LUMEM

theorem Layout.switchedOff (h : Layout C.api rbxState σ.host) :
    Layout C.api rbxState (switchedOff rbxState σ).host :=
  h.frame (frame_switchedOff C.api rbxState σ) h.threshold_state.symm

theorem Layout.stackTop_switchedOff (h : Layout C.api rbxState σ.host) :
    stackTop (Conversion.switchedOff rbxState σ).host.mem rbxState
      = stackTop σ.host.mem rbxState := by
  have htop := h.stackTop_eq (frame_switchedOff C.api rbxState σ) h.threshold_state.symm
  exact htop

theorem Layout.gcThreshold_switchedOff (h : Layout C.api rbxState σ.host) :
    gcThreshold (Conversion.switchedOff rbxState σ).host.mem rbxState = MAX_LUMEM :=
  gcThreshold_withThreshold h.threshold_state MAX_LUMEM

/-- The statements after the switch. -/
def translation (C : ConversionApi A Script) (rbxState : Addr) (vMainProto : Proto) :
    TranspileM A PUnit := do
  let transpiledProto ← transpileProto C.api rbxState vMainProto Cache.empty Cache.empty
  let globalEnv ← read32 (rbxState + 0x68)
  let closure ← callHost (C.rbx_fnewlclosure rbxState 0 globalEnv)
  write32 (closure + 0x10) (transpiledProto - closure - 0x10)
  pushClosure rbxState closure

theorem translateAndPush_eq (C : ConversionApi A Script) (rbxState : Addr) (p : Proto)
    (σ : TState A) :
    translateAndPush C rbxState p σ = translation C rbxState p (switchedOff rbxState σ) := rfl

/-- A translation that ends has made the proto and a closure, and pushed it. -/
theorem translation_ok (h : translation C rbxState p σ = .ok ⟨⟩ σ') :
    ∃ proto σ₂ env closure s₃,
      transpileProto C.api rbxState p Cache.empty Cache.empty σ = .ok proto σ₂
        ∧ C.rbx_fnewlclosure rbxState 0 env σ₂.host = .ok closure s₃
        ∧ σ'.host = { s₃ with mem := withFunction s₃.mem rbxState closure proto } := by
  obtain ⟨proto, σ₂, htranspile, h⟩ := bind_eq_ok.mp h
  obtain ⟨env, σ₂', henv, h⟩ := bind_eq_ok.mp h
  obtain ⟨-, rfl⟩ := EStateM.Result.ok.inj henv
  obtain ⟨closure, σ₃, hclosure, h⟩ := bind_eq_ok.mp h
  obtain ⟨-, rfl⟩ := EStateM.Result.ok.inj h
  exact ⟨proto, σ₂, env, closure, σ₃.host, htranspile, (callHost_eq_ok hclosure).1, rfl⟩

/-- One that does not was left from the proto's translation, or by the new closure. -/
theorem translation_error {f : Fault} (h : translation C rbxState p σ = .error f σ') :
    transpileProto C.api rbxState p Cache.empty Cache.empty σ = .error f σ'
      ∨ f = .raised ∧ ∃ proto σ₂ env e,
        transpileProto C.api rbxState p Cache.empty Cache.empty σ = .ok proto σ₂
          ∧ C.rbx_fnewlclosure rbxState 0 env σ₂.host = .error e σ'.host := by
  rcases bind_eq_error.mp h with h | ⟨proto, σ₂, htranspile, h⟩
  · exact Or.inl h
  rcases bind_eq_error.mp h with h | ⟨env, σ₂', henv, h⟩
  · exact nomatch h
  obtain ⟨-, rfl⟩ := EStateM.Result.ok.inj henv
  rcases bind_eq_error.mp h with h | ⟨closure, σ₃, -, h⟩
  · obtain ⟨hraised, e, herror⟩ := callHost_eq_error h
    exact Or.inr ⟨hraised, proto, σ₂, env, e, htranspile, herror⟩
  · exact nomatch h

/-- The same, in a state of the layout: when the closure is made, the protos are there and
the layout is as it was. -/
theorem translation_made (hH : C.api.Lawful) (hL : Layout C.api rbxState σ.host)
    (h : translation C rbxState p σ = .ok ⟨⟩ σ') :
    ∃ (proto : Addr) (σ₂ : TState A) (env closure : Addr) (s₃ : HostState A),
      Builds C.api ∅ σ.host σ₂.host (fun s => Isomorphic C.api s p proto)
        ∧ Layout C.api rbxState σ₂.host
        ∧ stackTop σ₂.host.mem rbxState = stackTop σ.host.mem rbxState
        ∧ C.rbx_fnewlclosure rbxState 0 env σ₂.host = .ok closure s₃
        ∧ σ'.host = { s₃ with mem := withFunction s₃.mem rbxState closure proto } := by
  obtain ⟨proto, σ₂, env, closure, s₃, htranspile, hclosure, heq⟩ := translation_ok h
  have htree := transpileProto_builds hH htranspile
  exact ⟨proto, σ₂, env, closure, s₃, htree, hL.frame htree.frame (Set.disjoint_empty _),
    hL.stackTop_eq htree.frame (Set.disjoint_empty _), hclosure, heq⟩

/-- A translation that ends writes the slot and the pointer to the top of what was in use,
and leaves the function pushed. -/
theorem translation_builds (hH : C.api.Lawful)
    (hnew : ∀ {env a s s'}, C.rbx_fnewlclosure rbxState 0 env s = .ok a s' →
      Alloc C.api s s' a CLOSURE_SIZE)
    (hL : Layout C.api rbxState σ.host) (h : translation C rbxState p σ = .ok ⟨⟩ σ') :
    Builds C.api (slotBlock σ.host.mem rbxState ∪ topBlock rbxState) σ.host σ'.host
        (Pushed C.api rbxState p (stackTop σ.host.mem rbxState))
      ∧ globalOf σ'.host.mem rbxState = globalOf σ.host.mem rbxState
      ∧ gcThreshold σ'.host.mem rbxState = gcThreshold σ.host.mem rbxState := by
  -- first the protos, which are new and write nothing that was in use
  obtain ⟨proto, σ₂, env, closure, s₃, htree, hL₂, htop, hclosure, heq⟩ := translation_made hH hL h
  -- then the closure, and the slot it is pushed to
  have halloc := hnew hclosure
  have hslot := hL₂.builds_withFunction halloc proto
  have hblock : slotBlock σ₂.host.mem rbxState = slotBlock σ.host.mem rbxState :=
    congrArg (block · 0x10) htop
  rw [hblock, htop] at hslot
  have hown : Owned C.api (slotBlock σ.host.mem rbxState ∪ topBlock rbxState) σ.host :=
    hL.slot.union (hL.state.mono topBlock_subset)
  -- the tree lasts, since the slot and the pointer to the top were in use before it
  have hboth := htree.seq hH hslot hown (Set.empty_disjoint _)
  rw [Set.empty_union] at hboth
  obtain ⟨hglobal, hthreshold⟩ := hL₂.global_withFunction halloc proto
  rw [heq]
  refine ⟨hboth.imp ?_, ?_, ?_⟩
  · rintro s ⟨htree, hslot⟩
    refine ⟨hslot.advanced, hslot.tag, ?_⟩
    rw [hslot.value, hslot.proto]
    exact htree
  · exact hglobal.trans (hL.globalOf_eq htree.frame (Set.disjoint_empty _))
  · exact hthreshold.trans
      (hL.gcThreshold_eq htree.frame (Set.disjoint_empty _) (Set.disjoint_empty _))

/-- Started with the collector off, it ends with the host's count of bytes below
`MAX_LUMEM`. -/
theorem translation_totalbytes (hC : C.Lawful) {s₀ : HostState A} (hcount : Counted C rbxState s₀)
    (hf : Frame C.api (thresholdBlock s₀.mem rbxState) s₀ σ.host)
    (hL : Layout C.api rbxState σ.host) (h : translation C rbxState p σ = .ok ⟨⟩ σ') :
    totalbytes σ'.host.mem rbxState ≠ MAX_LUMEM := by
  obtain ⟨proto, σ₂, env, closure, s₃, htree, hL₂, -, hclosure, heq⟩ :=
    translation_made hC.api hL h
  have hf₂ := hf.trans (htree.frame.mono (Set.empty_subset _))
  rw [heq, hL₂.totalbytes_withFunction (hC.fnewlclosure_ok hclosure) proto
    (hcount.apart hf₂ hclosure)]
  exact hcount.below hf₂ hclosure

/-- When the host raises, nothing that was in use is written. -/
theorem translation_raised (hC : C.Lawful) (hops : OpcodesOk p) {f : Fault}
    (h : translation C rbxState p σ = .error f σ') : f = .raised ∧ Frame C.api ∅ σ.host σ'.host := by
  rcases translation_error h with h | ⟨hraised, proto, σ₂, env, e, htranspile, herror⟩
  · exact transpileProto_raised hC hops h
  · exact ⟨hraised,
      (transpileProto_builds hC.api htranspile).frame.trans (hC.fnewlclosure_error herror)⟩

end

end NostalgiaConv.Conversion
