/-
The state that `conversion::ProtoConversion` leaves on each of its exits.

There are three: the script does not compile, the closure is pushed, or an operation
of the host raises between the two stores of the threshold. The first two put things
in order. The third leaves through the middle: the host's stack is as it was, but its
threshold is still `MAX_LUMEM`, and the compiled script is still on `vState`. To speak
of the state at each call of the host, the host is given a number of calls to serve.
-/
import NostalgiaConv.Conversion
import NostalgiaConv.HostOver

set_option autoImplicit false

namespace NostalgiaConv.ConversionExits

open NostalgiaConv.ByteMem NostalgiaConv.Cipher NostalgiaConv.Host NostalgiaConv.HostOver
open NostalgiaConv.Value NostalgiaConv.Transpile NostalgiaConv.ProtoTree NostalgiaConv.HostTree
open NostalgiaConv.BumpHost
open NostalgiaConv.Relational NostalgiaConv.Hoare NostalgiaConv.Opcodes NostalgiaConv.Conversion

/-! ## The host, stopped at a call -/

section

variable {A Script : Type} {C : ConversionApi A Script} {α : Type}

/-- A host operation, for as many calls as are left; the next one raises. -/
def budgeted (x : HostM A α) : HostM (A × Nat) α := fun s =>
  match s.heap.2 with
  | 0 => .error .raised s
  | k + 1 =>
    match x (plain s) with
    | .ok a s' => .ok a ⟨s'.mem, s'.heap, k⟩
    | .error e s' => .error e ⟨s'.mem, s'.heap, k⟩

/-- The same host, which stops at a call. -/
def cut (C : ConversionApi A Script) : ConversionApi (A × Nat) Script where
  api := extended budgeted C.api
  rbx_fnewlclosure rs n env := budgeted (C.rbx_fnewlclosure rs n env)
  luaL_loadbuffer := C.luaL_loadbuffer

/-- The state with `k` calls left. -/
def withBudget (σ : TState A) (k : Nat) : TState (A × Nat) :=
  ⟨⟨σ.host.mem, σ.host.heap, k⟩, σ.encodeKey⟩

theorem budgeted_ok {x : HostM A α} {s s' : HostState (A × Nat)} {a : α}
    (h : budgeted x s = .ok a s') : x (plain s) = .ok a (plain s') := by
  unfold budgeted at h
  cases hk : s.heap.2 with
  | zero =>
    rw [hk] at h
    exact nomatch h
  | succ k =>
    cases hx : x (plain s) with
    | ok b t =>
      rw [hk] at h
      simp only [hx] at h
      obtain ⟨rfl, rfl⟩ := EStateM.Result.ok.inj h
      rfl
    | error e t =>
      rw [hk] at h
      simp only [hx] at h
      exact nomatch h

/-- A host that raises has done nothing, or what the other host did. -/
theorem budgeted_error {x : HostM A α} {s s' : HostState (A × Nat)} {e : HostError}
    (h : budgeted x s = .error e s') : plain s' = plain s ∨ x (plain s) = .error e (plain s') := by
  unfold budgeted at h
  cases hk : s.heap.2 with
  | zero =>
    rw [hk] at h
    obtain ⟨-, rfl⟩ := EStateM.Result.error.inj h
    exact Or.inl rfl
  | succ k =>
    cases hx : x (plain s) with
    | ok b t =>
      rw [hk] at h
      simp only [hx] at h
      exact nomatch h
    | error e t =>
      rw [hk] at h
      simp only [hx] at h
      obtain ⟨rfl, rfl⟩ := EStateM.Result.error.inj h
      exact Or.inr rfl

theorem lifts_budgeted : Lifts (budgeted (A := A) (α := Addr)) := ⟨budgeted_ok, budgeted_error⟩

/-- It behaves like a host. -/
theorem cut_lawful (hC : C.Lawful) : (cut C).Lawful where
  api := extended_lawful lifts_budgeted hC.api
  fnewlclosure_ok h := alloc_extended (hC.fnewlclosure_ok (budgeted_ok h))
  fnewlclosure_error h := lifts_budgeted.frame_error h hC.fnewlclosure_error

end

/-! ## The exits -/

section

variable {A Script : Type} (C : ConversionApi A Script) (rbxState : Addr)

/-- What every exit owes: the height of `vState`, and a collector that is on if it was. -/
structure Balanced (c c' : CState A) : Prop where
  height : c'.vState.length = c.vState.length
  collector : gcThreshold c'.host.host.mem rbxState = MAX_LUMEM →
    gcThreshold c.host.host.mem rbxState = MAX_LUMEM

/-- The collector is off from the first call of the host until after the push: the host
stopped at any call shows it, and so does the state after the push. -/
structure Paused (p : Proto) (σ : TState A) : Prop where
  calls : ∀ k f σ', translateAndPush (cut C) rbxState p (withBudget σ k) = .error f σ' →
    gcThreshold σ'.host.mem rbxState = MAX_LUMEM
  pushed : ∀ σ', translateAndPush C rbxState p σ = .ok ⟨⟩ σ' →
    gcThreshold σ'.host.mem rbxState = MAX_LUMEM

/-- The promise of each exit. -/
inductive Consistent (script : Script) (c : CState A) :
    EStateM.Result Fault (CState A) Bool → Prop where
  | refused {c' : CState A} {err : List Byte} (load : C.luaL_loadbuffer script = .error err)
      (unchanged : c'.host = c.host) (balanced : Balanced rbxState c c') :
      Consistent script c (.ok false c')
  | pushed {c' : CState A} {p : Proto} (load : C.luaL_loadbuffer script = .ok p)
      (function : Pushed C.api rbxState p (stackTop c.host.host.mem rbxState) c'.host.host)
      (paused : Paused C rbxState p c.host) (balanced : Balanced rbxState c c') :
      Consistent script c (.ok true c')
  | raised {c' : CState A} {f : Fault}
      (top : stackTop c'.host.host.mem rbxState = stackTop c.host.host.mem rbxState)
      (balanced : Balanced rbxState c c') : Consistent script c (.error f c')

/-- The script compiles, and an operation of the host raises while it is translated. -/
def HostRaises (script : Script) (c : CState A) : Prop :=
  ∃ p σ', C.luaL_loadbuffer script = .ok p
    ∧ translateAndPush C rbxState p c.host = .error .raised σ'

variable {C : ConversionApi A Script} {rbxState : Addr} {script : Script} {c : CState A} {p : Proto}
  {σ σ' : TState A}

theorem protoConversion_refused {err : List Byte} (hload : C.luaL_loadbuffer script = .error err) :
    ProtoConversion C rbxState script c = .ok false c := by
  unfold ProtoConversion
  rw [hload]
  rfl

theorem onHost_ok {α : Type} {x : TranspileM A α} {a : α} (h : x c.host = .ok a σ') :
    onHost x c = .ok a { c with host := σ' } := by
  unfold onHost
  rw [h]

theorem onHost_error {α : Type} {x : TranspileM A α} {f : Fault} (h : x c.host = .error f σ') :
    onHost x c = .error f { c with host := σ' } := by
  unfold onHost
  rw [h]

/-- The end of a call that pushed: the threshold is the count of bytes. -/
def restored (rbxState : Addr) (σ : TState A) : TState A :=
  { σ with host := { σ.host with
    mem := withThreshold σ.host.mem rbxState (totalbytes σ.host.mem rbxState) } }

theorem protoConversion_pushed (hload : C.luaL_loadbuffer script = .ok p)
    (h : translateAndPush C rbxState p c.host = .ok ⟨⟩ σ') :
    ProtoConversion C rbxState script c = .ok true { c with host := restored rbxState σ' } := by
  unfold ProtoConversion
  rw [hload]
  let c₁ : CState A := { c with vState := .closure p :: c.vState }
  have htranslate : onHost (translateAndPush C rbxState p) c₁ = .ok ⟨⟩ { c₁ with host := σ' } :=
    onHost_ok h
  have hrestore : onHost (restoreThreshold rbxState) { c₁ with host := σ' }
      = .ok ⟨⟩ { c₁ with host := restored rbxState σ' } := onHost_ok rfl
  exact (bind_of_ok rfl).trans ((bind_of_ok htranslate).trans ((bind_of_ok hrestore).trans rfl))

/-- The way out through the middle: nothing is put back. -/
theorem protoConversion_raised (hload : C.luaL_loadbuffer script = .ok p) {f : Fault}
    (h : translateAndPush C rbxState p c.host = .error f σ') :
    ProtoConversion C rbxState script c
      = .error f { host := σ', vState := .closure p :: c.vState } := by
  unfold ProtoConversion
  rw [hload]
  have htranslate : onHost (translateAndPush C rbxState p)
      { c with vState := .closure p :: c.vState }
      = .error f { host := σ', vState := .closure p :: c.vState } := onHost_error h
  exact bind_eq_error.mpr (Or.inr ⟨⟨⟩, _, rfl, bind_eq_error.mpr (Or.inl htranslate)⟩)

/-- Where the words name opcodes, it is the host that raises, and this is what it leaves:
the top as it was, and the collector off. -/
theorem translateAndPush_raised (hC : C.Lawful) (hops : OpcodesOk p)
    (hL : Layout C.api rbxState σ.host) {f : Fault}
    (h : translateAndPush C rbxState p σ = .error f σ') :
    f = .raised ∧ stackTop σ'.host.mem rbxState = stackTop σ.host.mem rbxState
      ∧ gcThreshold σ'.host.mem rbxState = MAX_LUMEM := by
  rw [translateAndPush_eq] at h
  obtain ⟨hraised, hframe⟩ := translation_raised hC hops h
  have hL₁ := hL.switchedOff
  refine ⟨hraised, ?_, ?_⟩
  · exact (hL₁.stackTop_eq hframe (Set.disjoint_empty _)).trans hL.stackTop_switchedOff
  · exact (hL₁.gcThreshold_eq hframe (Set.disjoint_empty _) (Set.disjoint_empty _)).trans
      hL.gcThreshold_switchedOff

/-- The layout is a matter of the memory and of what is in use. -/
theorem layout_withBudget (hL : Layout C.api rbxState σ.host) (k : Nat) :
    Layout (cut C).api rbxState (withBudget σ k).host :=
  ⟨⟨hL.state.live, hL.state.noString⟩, ⟨hL.threshold.live, hL.threshold.noString⟩,
    ⟨hL.slot.live, hL.slot.noString⟩, hL.threshold_state, hL.slot_state, hL.slot_threshold,
    hL.totalbytes_state, hL.totalbytes_slot⟩

/-- What a translation that ends leaves, and what of it the second store of the threshold
leaves. -/
theorem translateAndPush_pushed (hH : C.api.Lawful)
    (hnew : ∀ {env a s s'}, C.rbx_fnewlclosure rbxState 0 env s = .ok a s' →
      Alloc C.api s s' a CLOSURE_SIZE)
    (hL : Layout C.api rbxState σ.host) (h : translateAndPush C rbxState p σ = .ok ⟨⟩ σ') :
    gcThreshold σ'.host.mem rbxState = MAX_LUMEM
      ∧ thresholdBlock σ'.host.mem rbxState = thresholdBlock σ.host.mem rbxState
      ∧ Pushed C.api rbxState p (stackTop σ.host.mem rbxState) (restored rbxState σ').host := by
  rw [translateAndPush_eq] at h
  have hL₁ := hL.switchedOff
  obtain ⟨hbuilds, hglobal, hthreshold⟩ := translation_builds hH hnew hL₁ h
  -- the threshold is where it was, apart from all that the push wrote
  have hglobal₁ : globalOf (switchedOff rbxState σ).host.mem rbxState
      = globalOf σ.host.mem rbxState :=
    hL.globalOf_eq (frame_switchedOff C.api rbxState σ) hL.threshold_state.symm
  have hblock : thresholdBlock σ'.host.mem rbxState
      = thresholdBlock (switchedOff rbxState σ).host.mem rbxState :=
    congrArg (fun g => block (g + 0x54) 4) hglobal
  have hblock₁ : thresholdBlock (switchedOff rbxState σ).host.mem rbxState
      = thresholdBlock σ.host.mem rbxState := congrArg (fun g => block (g + 0x54) 4) hglobal₁
  have hapart : Disjoint (slotBlock (switchedOff rbxState σ).host.mem rbxState ∪ topBlock rbxState)
      (thresholdBlock σ'.host.mem rbxState) := by
    rw [hblock]
    exact Disjoint.union_left hL₁.slot_threshold
      (hL₁.threshold_state.symm.mono_left topBlock_subset)
  have hrestore := frame_withThreshold C.api σ'.host rbxState (totalbytes σ'.host.mem rbxState)
  have hown : Owned C.api (thresholdBlock σ'.host.mem rbxState)
      (switchedOff rbxState σ).host := by
    rw [hblock]
    exact hL₁.threshold
  have hkept := (hbuilds.seq hH (Builds.of_frame hrestore (fun _ => trivial)) hown hapart).holds
  refine ⟨hthreshold.trans hL.gcThreshold_switchedOff, hblock.trans hblock₁, ?_⟩
  rw [← hL.stackTop_switchedOff]
  exact hkept.1

/-- The threshold is then the count of bytes, which is below `MAX_LUMEM`. -/
theorem translateAndPush_restored (hC : C.Lawful)
    (hL : Layout C.api rbxState σ.host) (hcount : Counted C rbxState σ.host)
    (h : translateAndPush C rbxState p σ = .ok ⟨⟩ σ') :
    gcThreshold σ'.host.mem rbxState = MAX_LUMEM
      ∧ Pushed C.api rbxState p (stackTop σ.host.mem rbxState) (restored rbxState σ').host
      ∧ gcThreshold (restored rbxState σ').host.mem rbxState ≠ MAX_LUMEM := by
  obtain ⟨hoff, hblock, hpushed⟩ := translateAndPush_pushed hC.api hC.fnewlclosure_ok hL h
  refine ⟨hoff, hpushed, ?_⟩
  have hstate : Disjoint (thresholdBlock σ'.host.mem rbxState) (stateBlock rbxState) := by
    rw [hblock]
    exact hL.threshold_state
  have hset := gcThreshold_withThreshold hstate (totalbytes σ'.host.mem rbxState)
  rw [translateAndPush_eq] at h
  have hbytes := translation_totalbytes hC hcount (frame_switchedOff C.api rbxState σ)
    hL.switchedOff h
  intro hmax
  exact hbytes (hset.symm.trans hmax)

/-- The collector is off at every call of the host. -/
theorem paused (hC : C.Lawful) (hops : OpcodesOk p) (hL : Layout C.api rbxState σ.host)
    (hcount : Counted C rbxState σ.host) : Paused C rbxState p σ where
  calls k _ _ h := (translateAndPush_raised (cut_lawful hC) hops (layout_withBudget hL k) h).2.2
  pushed _ h := (translateAndPush_restored hC hL hcount h).1

/-- The third exit: the top is as it was, the collector off, and the script still on `vState`. -/
theorem protoConversion_exit_raised (hC : C.Lawful) (hL : Layout C.api rbxState c.host.host)
    (hops : NamesOpcodes C script) (hraises : HostRaises C rbxState script c) :
    ∃ c', ProtoConversion C rbxState script c = .error .raised c'
      ∧ stackTop c'.host.host.mem rbxState = stackTop c.host.host.mem rbxState
      ∧ gcThreshold c'.host.host.mem rbxState = MAX_LUMEM
      ∧ c'.vState.length = c.vState.length + 1 := by
  obtain ⟨p, σ', hload, hrun⟩ := hraises
  obtain ⟨-, htop, hthreshold⟩ := translateAndPush_raised hC (hops p hload) hL hrun
  exact ⟨_, protoConversion_raised hload hrun, htop, hthreshold, rfl⟩

/-- **The exits of `ProtoConversion`.** For every script whose words name opcodes, if it
loads, and every state of the two machines, the exit that is taken keeps its promise if and
only if no operation of the host raises during the call. -/
theorem consistent_iff (hC : C.Lawful) (hL : Layout C.api rbxState c.host.host)
    (hcount : Counted C rbxState c.host.host) (script : Script) (hops : NamesOpcodes C script) :
    Consistent C rbxState script c (ProtoConversion C rbxState script c)
      ↔ ¬ HostRaises C rbxState script c := by
  cases hload : C.luaL_loadbuffer script with
  | error err =>
    rw [protoConversion_refused hload]
    refine iff_of_true (.refused hload rfl ⟨rfl, fun h => h⟩) ?_
    rintro ⟨p, σ', hp, -⟩
    rw [hload] at hp
    exact nomatch hp
  | ok p =>
    cases hrun : translateAndPush C rbxState p c.host with
    | ok u σ' =>
      obtain ⟨-, hpushed, hrestored⟩ := translateAndPush_restored hC hL hcount hrun
      rw [protoConversion_pushed hload hrun]
      refine iff_of_true (.pushed hload hpushed (paused hC (hops p hload) hL hcount) ⟨rfl, ?_⟩) ?_
      · exact fun hmax => absurd hmax hrestored
      · rintro ⟨q, τ, hq, hraised⟩
        obtain rfl := Except.ok.inj (hload.symm.trans hq)
        rw [hrun] at hraised
        exact nomatch hraised
    | error f σ' =>
      obtain ⟨rfl, -⟩ := translateAndPush_raised hC (hops p hload) hL hrun
      rw [protoConversion_raised hload hrun]
      refine iff_of_false ?_ (fun h => h ⟨p, σ', hload, hrun⟩)
      -- the compiled script is still there
      intro h
      cases h with
      | raised htop hbalanced => exact absurd hbalanced.height (Nat.succ_ne_self _)

end

/-! ## On the bump host -/

/-- A host that holds its count of bytes in use, and never changes it. -/
theorem counted_of_live {A Script : Type} {C : ConversionApi A Script} {rbxState : Addr}
    {s₀ : HostState A} (hC : C.Lawful) (hL : Layout C.api rbxState s₀)
    (hlive : totalbytesBlock s₀.mem rbxState ⊆ C.api.live s₀.heap)
    (hbelow : totalbytes s₀.mem rbxState ≠ MAX_LUMEM) : Counted C rbxState s₀ := by
  have hapart : Disjoint (totalbytesBlock s₀.mem rbxState) (thresholdBlock s₀.mem rbxState) :=
    disjoint_block_offset (i := 0x60) (j := 0x54) (by decide) (by decide) (by decide)
  constructor
  · intro n env a s s' hf h
    have halloc := hC.fnewlclosure_ok h
    have hglobal := hL.globalOf_eq (hf.trans (halloc.frame.mono (Set.empty_subset _)))
      hL.threshold_state.symm
    unfold totalbytesBlock
    rw [hglobal]
    exact halloc.fresh.mono_right (hlive.trans hf.live)
  · intro n env a s s' hf h
    have hf' := hf.trans ((hC.fnewlclosure_ok h).frame.mono (Set.empty_subset _))
    have hglobal := hL.globalOf_eq hf' hL.threshold_state.symm
    have hload := load32_frame hf' hlive hapart
    unfold totalbytes
    rw [hglobal, hload]
    exact hbelow

/-- A script that only returns. -/
def mainProto : Proto :=
  leafProto 0x1000 (leafHead [] returnCode noConstants_fit returnCode_fits)

/-- A chunk that the loader passes and the transpiler does not: the count of `OP_SETLIST` is
in the next word, whose opcode field is 63. -/
def countCode : List Word := [CREATE_ABC OpCode.OP_SETLIST.toWord 0 0 0, 0xFC000000] ++ returnCode

theorem countCode_fits : 4 * countCode.length < 2 ^ 32 := by decide

def countProto : Proto := leafProto 0x1000 (leafHead [] countCode noConstants_fit countCode_fits)

theorem not_opcodesOk_countProto : ¬ OpcodesOk countProto := by
  rintro ⟨hcode, -⟩
  exact absurd (hcode 0xFC000000 (by decide)) (by decide)

/-- The bump host with closures, and a compiler. -/
def bumpConversion {Script : Type} (load : Script → Except (List Byte) Proto) :
    ConversionApi Bump Script where
  api := bumpHost 0
  rbx_fnewlclosure _ _ _ := alloc CLOSURE_SIZE false (fun m _ => m)
  luaL_loadbuffer := load

theorem bumpConversion_lawful {Script : Type} (load : Script → Except (List Byte) Proto) :
    (bumpConversion load).Lawful where
  api := bumpHost_lawful 0
  fnewlclosure_ok {rs n env a s s'} h := by
    have hdef : (bumpConversion load).rbx_fnewlclosure rs n env s
        = alloc CLOSURE_SIZE false (fun m _ => m) s := rfl
    rw [hdef] at h
    obtain ⟨hn, rfl, rfl⟩ := alloc_returned h
    exact alloc_grow hn (fun _ _ => rfl)
  fnewlclosure_error {rs n env e s s'} h := by
    have hdef : (bumpConversion load).rbx_fnewlclosure rs n env s
        = alloc CLOSURE_SIZE false (fun m _ => m) s := rfl
    rw [hdef] at h
    obtain rfl := alloc_raised h
    exact Frame.refl _ _ _

/-- What the sample compiler knows. -/
inductive SampleScript where
  | returns
  | tree
  | count
  | refused

def SampleScript.load : SampleScript → Except (List Byte) Proto
  | returns => .ok mainProto
  | tree => .ok sampleTree
  | count => .ok countProto
  | refused => .error [0x3F]

abbrev sampleConversion : ConversionApi Bump SampleScript := bumpConversion SampleScript.load

theorem namesOpcodes_tree : NamesOpcodes sampleConversion .tree := by
  intro p hload
  obtain rfl := Except.ok.inj hload
  exact opcodesOk_sampleTree

/-- It is a condition on the script. -/
theorem not_namesOpcodes_count : ¬ NamesOpcodes sampleConversion .count :=
  fun h => not_opcodesOk_countProto (h countProto rfl)

/-- A host state object at 0, its global object at `0x80`, and a free slot at `0x100`. -/
def stateMemory : Mem 32 :=
  store32 (store32 (store32 (store32 (fun _ => 0) 0x8 0x80) 0x10 0x100) 0xD4 0x2000) 0xE0 0x1000

/-- A process in which the static key was found by an earlier call. -/
def running : CState Bump := ⟨⟨⟨stateMemory, List.replicate 0x110 false⟩, some 3⟩, []⟩

theorem owned_running {a : Addr} {n : Nat} (h : a.toNat + n ≤ 0x110) :
    Owned (bumpHost 0) (block a n) running.host.host := by
  constructor
  · intro x hx
    show x.toNat < (List.replicate 0x110 false).length
    rw [mem_block, BitVec.toNat_sub] at hx
    rw [List.length_replicate]
    omega
  · rw [Set.disjoint_left]
    intro x _ hx
    have hflag : (List.replicate 0x110 false)[x.toNat]? = some true := hx
    rw [List.getElem?_replicate] at hflag
    split at hflag <;> simp at hflag

theorem disjoint_block_toNat {a b : Addr} {m n : Nat} (h : a.toNat + m ≤ b.toNat)
    (hb : b.toNat + n ≤ 2 ^ 32) : Disjoint (block a m) (block b n) := by
  rw [Set.disjoint_left]
  intro x hxa hxb
  rw [mem_block, BitVec.toNat_sub] at hxa hxb
  omega

theorem globalOf_stateMemory : globalOf stateMemory 0 = 0x80 := by decide +kernel

theorem stackTop_stateMemory : stackTop stateMemory 0 = 0x100 := by decide +kernel

theorem totalbytes_stateMemory : totalbytes stateMemory 0 = 0x1000 := by decide +kernel

theorem running_layout : Layout (bumpHost 0) 0 running.host.host := by
  have hthreshold : thresholdBlock stateMemory 0 = block 0xD4 4 := by
    unfold thresholdBlock
    rw [globalOf_stateMemory]
    rfl
  have hbytes : totalbytesBlock stateMemory 0 = block 0xE0 4 := by
    unfold totalbytesBlock
    rw [globalOf_stateMemory]
    rfl
  have hslot : slotBlock stateMemory 0 = block 0x100 0x10 := by
    unfold slotBlock
    rw [stackTop_stateMemory]
  show Layout (bumpHost 0) 0 ⟨stateMemory, _⟩
  refine ⟨owned_running (by decide), ?_, ?_, ?_, ?_, ?_, ?_, ?_⟩
  · rw [hthreshold]
    exact owned_running (by decide)
  · rw [hslot]
    exact owned_running (by decide)
  · rw [hthreshold]
    exact (disjoint_block_toNat (by decide) (by decide)).symm
  · rw [hslot]
    exact (disjoint_block_toNat (by decide) (by decide)).symm
  · rw [hslot, hthreshold]
    exact (disjoint_block_toNat (by decide) (by decide)).symm
  · rw [hbytes]
    exact (disjoint_block_toNat (by decide) (by decide)).symm
  · rw [hbytes, hslot]
    exact disjoint_block_toNat (by decide) (by decide)

theorem running_counted {Script : Type} (load : Script → Except (List Byte) Proto) :
    Counted (bumpConversion load) 0 running.host.host := by
  refine counted_of_live (bumpConversion_lawful load) running_layout ?_ ?_
  · show totalbytesBlock stateMemory 0 ⊆ _
    unfold totalbytesBlock
    rw [globalOf_stateMemory]
    exact (owned_running (by decide)).live
  · show totalbytes stateMemory 0 ≠ MAX_LUMEM
    rw [totalbytes_stateMemory]
    decide

theorem translateAndPush_running :
    ended (translateAndPush sampleConversion 0 sampleTree running.host) = true := by decide +kernel

theorem running_returns : ¬ HostRaises sampleConversion 0 .tree running := by
  rintro ⟨p, σ', hload, hraised⟩
  obtain rfl := Except.ok.inj hload
  have hended := translateAndPush_running
  rw [hraised] at hended
  exact nomatch hended

/-- A script with two children. -/
theorem consistent_running : Consistent sampleConversion 0 .tree running
    (ProtoConversion sampleConversion 0 .tree running) :=
  (consistent_iff (bumpConversion_lawful _) running_layout (running_counted _) SampleScript.tree
    namesOpcodes_tree).mpr running_returns

/-- **A raise leaves the collector off.** The host makes four objects and raises at the next
call. -/
theorem raise_leaves_collector_off : ∃ c',
    ProtoConversion (cut sampleConversion) 0 SampleScript.tree ⟨withBudget running.host 4, []⟩
        = .error .raised c'
      ∧ gcThreshold (withBudget running.host 4).host.mem 0 = 0x2000
      ∧ gcThreshold c'.host.host.mem 0 = MAX_LUMEM ∧ c'.vState.length = 1
      ∧ ¬ Consistent (cut sampleConversion) 0 SampleScript.tree ⟨withBudget running.host 4, []⟩
        (.error .raised c') := by
  have hended : ended (translateAndPush (cut sampleConversion) 0 sampleTree
      (withBudget running.host 4)) = false := by decide +kernel
  have hentry : gcThreshold (withBudget running.host 4).host.mem 0 = 0x2000 := by decide +kernel
  have hL : Layout (cut sampleConversion).api 0 (withBudget running.host 4).host :=
    layout_withBudget running_layout 4
  have hops : NamesOpcodes (cut sampleConversion) SampleScript.tree := namesOpcodes_tree
  cases hrun : translateAndPush (cut sampleConversion) 0 sampleTree
      (withBudget running.host 4) with
  | ok u σ' =>
    rw [hrun] at hended
    exact nomatch hended
  | error f σ' =>
    obtain ⟨rfl, -⟩ := translateAndPush_raised (cut_lawful (bumpConversion_lawful _))
      opcodesOk_sampleTree hL hrun
    have hraises : HostRaises (cut sampleConversion) 0 SampleScript.tree ⟨withBudget running.host 4, []⟩ :=
      ⟨sampleTree, σ', rfl, hrun⟩
    obtain ⟨c', hexit, -, hoff, hheight⟩ := protoConversion_exit_raised
      (cut_lawful (bumpConversion_lawful _)) hL hops hraises
    refine ⟨c', hexit, hentry, hoff, hheight, ?_⟩
    intro h
    cases h with
    | raised htop hbalanced => exact absurd (hheight.symm.trans hbalanced.height) (Nat.succ_ne_self _)

end NostalgiaConv.ConversionExits
