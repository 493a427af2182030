/-
The calls of the host that a translation makes, on record.

`recorded H` is the host `H` with a list beside its heap: each call is entered, with
whether it returned. The transpiler cannot see the list, so its run on `recorded H` is
its run on `H`; a run that ends has a record of calls that all returned, and a run that
an error of the host ends has one whose last call did not. `Follows` is that statement
for a piece of the program, and there is a rule for each kind of statement in it.
-/
import NostalgiaConv.Segments

set_option autoImplicit false

namespace NostalgiaConv.HostRecord

open NostalgiaConv.ByteMem NostalgiaConv.Cipher NostalgiaConv.Host NostalgiaConv.Value
open NostalgiaConv.Instr NostalgiaConv.Transpile NostalgiaConv.Segments

/-! ## The record -/

inductive HostCall where
  | fnewproto
  | malloc (n : Word)
  | snewlstr (bytes : List Byte)

/-- A call, and whether it returned. -/
structure Served where
  call : HostCall
  returned : Bool

section

variable {A α : Type}

def recordedCall (call : HostCall) (x : HostM A α) : HostM (A × List Served) α := fun s =>
  match x ⟨s.mem, s.heap.1⟩ with
  | .ok a s' => .ok a ⟨s'.mem, s'.heap, s.heap.2 ++ [⟨call, true⟩]⟩
  | .error e s' => .error e ⟨s'.mem, s'.heap, s.heap.2 ++ [⟨call, false⟩]⟩

def recorded (H : HostApi A) : HostApi (A × List Served) where
  rbx_fnewproto rs := recordedCall .fnewproto (H.rbx_fnewproto rs)
  rbx_malloc rs x y n := recordedCall (.malloc n) (H.rbx_malloc rs x y n)
  rbx_snewlstr rs bytes := recordedCall (.snewlstr bytes) (H.rbx_snewlstr rs bytes)
  xorConst := H.xorConst
  live h := H.live h.1
  strings h := H.strings h.1
  isStr s := H.isStr ⟨s.mem, s.heap.1⟩

/-- The state with an empty record. -/
def recording (σ : TState A) : TState (A × List Served) :=
  ⟨⟨σ.host.mem, σ.host.heap, []⟩, σ.encodeKey⟩

/-- The state without its record. -/
def plain (σ : TState (A × List Served)) : TState A := ⟨⟨σ.host.mem, σ.host.heap.1⟩, σ.encodeKey⟩

def plainResult : EStateM.Result Fault (TState (A × List Served)) α →
    EStateM.Result Fault (TState A) α
  | .ok a σ => .ok a (plain σ)
  | .error f σ => .error f (plain σ)

def callsOf : EStateM.Result Fault (TState (A × List Served)) α → List Served
  | .ok _ σ | .error _ σ => σ.host.heap.2

/-- Every call returned. -/
def AllReturned (calls : List Served) : Prop := ∀ c ∈ calls, c.returned = true

/-- Every call but the last returned. -/
def LastRaised (calls : List Served) : Prop :=
  ∃ before call, calls = before ++ [⟨call, false⟩] ∧ AllReturned before

theorem AllReturned.snoc {calls : List Served} (h : AllReturned calls) (call : HostCall) :
    AllReturned (calls ++ [⟨call, true⟩]) := by
  intro c hc
  rcases List.mem_append.mp hc with hc | hc
  · exact h c hc
  · rw [List.mem_singleton.mp hc]

theorem LastRaised.not_allReturned {calls : List Served} (h : LastRaised calls) :
    ¬ AllReturned calls := by
  obtain ⟨before, call, rfl, -⟩ := h
  intro hall
  exact absurd (hall ⟨call, false⟩ (by simp)) (by simp)

/-! ## A program and its record -/

/-- What the record of a run says about how it ended. -/
def Tells : EStateM.Result Fault (TState (A × List Served)) α → Prop
  | .ok _ σ | .error .pastTable σ => AllReturned σ.host.heap.2
  | .error .raised σ => LastRaised σ.host.heap.2

/-- `x` is the program `y` on the host that keeps a record. -/
def Follows (x : TranspileM (A × List Served) α) (y : TranspileM A α) : Prop :=
  ∀ σ, AllReturned σ.host.heap.2 → plainResult (x σ) = y (plain σ) ∧ Tells (x σ)

section

variable {β : Type} {x : TranspileM (A × List Served) α} {y : TranspileM A α}

theorem Follows.pure (a : α) :
    Follows (A := A) (Pure.pure a) (Pure.pure a) := fun _ h => ⟨rfl, h⟩

theorem Follows.pastTable :
    Follows (A := A) (α := α) (throw .pastTable) (throw .pastTable) := fun _ h => ⟨rfl, h⟩

theorem Follows.write (n : Nat) (a : Addr) (v : BitVec (8 * n)) :
    Follows (A := A) (Transpile.write n a v) (Transpile.write n a v) := fun _ h => ⟨rfl, h⟩

theorem Follows.read32 (a : Addr) :
    Follows (A := A) (Transpile.read32 a) (Transpile.read32 a) := fun _ h => ⟨rfl, h⟩

theorem Follows.staticEncodeKey (rbxState : Addr) :
    Follows (A := A) (Transpile.staticEncodeKey rbxState) (Transpile.staticEncodeKey rbxState) := by
  intro σ h
  have hkey : (plain σ).encodeKey = σ.encodeKey := rfl
  unfold Transpile.staticEncodeKey
  rw [hkey]
  cases σ.encodeKey with
  | some key => exact ⟨rfl, h⟩
  | none => exact ⟨rfl, h⟩

/-- The one statement that is entered. -/
theorem Follows.callHost (call : HostCall) (f : HostM A α) :
    Follows (Transpile.callHost (recordedCall call f)) (Transpile.callHost f) := by
  intro σ h
  have hhost : (plain σ).host = ⟨σ.host.mem, σ.host.heap.1⟩ := rfl
  unfold Transpile.callHost recordedCall
  rw [hhost]
  cases f ⟨σ.host.mem, σ.host.heap.1⟩ with
  | ok a s => exact ⟨rfl, h.snoc call⟩
  | error e s => exact ⟨rfl, σ.host.heap.2, call, rfl, h⟩

theorem Follows.bind {f : α → TranspileM (A × List Served) β} {g : α → TranspileM A β}
    (hx : Follows x y) (hf : ∀ a, Follows (f a) (g a)) : Follows (x >>= f) (y >>= g) := by
  intro σ h
  obtain ⟨hplain, htells⟩ := hx σ h
  rw [run_bind, run_bind, ← hplain]
  cases hrun : x σ with
  | ok a σ₁ =>
    rw [hrun] at htells
    exact hf a σ₁ htells
  | error f σ₁ =>
    rw [hrun] at htells
    exact ⟨rfl, by cases f <;> exact htells⟩

end

/-! ## The transpiler -/

variable {H : HostApi A} {rbxState : Addr}

theorem follows_newProto (vProto : ProtoHead) :
    Follows (newProto (recorded H) rbxState vProto) (newProto H rbxState vProto) := by
  refine Follows.bind (Follows.callHost .fnewproto _) (fun proto => ?_)
  refine Follows.bind (Follows.callHost (.snewlstr _) _) (fun chunkName => ?_)
  refine Follows.bind (Follows.write 4 _ _) (fun _ => Follows.bind (Follows.write 1 _ _) (fun _ => ?_))
  refine Follows.bind (Follows.write 1 _ _) (fun _ => Follows.bind (Follows.write 1 _ _) (fun _ => ?_))
  exact Follows.bind (Follows.write 1 _ _) (fun _ => Follows.pure proto)

theorem follows_constantSlot (currConst : Addr) (pConst : Constant) (stringCache : Cache) :
    Follows (constantSlot (recorded H) rbxState currConst pConst stringCache)
      (constantSlot H rbxState currConst pConst stringCache) := by
  -- a payload, a tag, and what the cache is then
  have hslot : ∀ (n : Nat) (v : BitVec (8 * n)) (tag : Word)
      {f : TranspileM (A × List Served) Cache} {g : TranspileM A Cache}, Follows f g →
      Follows (do Transpile.write n currConst v; write32 (currConst + 8) tag; f)
        (do Transpile.write n currConst v; write32 (currConst + 8) tag; g) :=
    fun n v tag _ _ hrest => Follows.bind (Follows.write n _ _) (fun _ =>
      Follows.bind (Follows.write 4 _ _) (fun _ => hrest))
  unfold constantSlot
  cases pConst with
  | nil => exact hslot 4 _ _ (Follows.pure _)
  | boolean b => exact hslot 1 _ _ (Follows.pure _)
  | number num => exact hslot 8 _ _ (Follows.pure _)
  | string ts =>
    simp only
    cases stringCache ts.hash with
    | some found => exact hslot 4 _ _ (Follows.pure _)
    | none =>
      refine Follows.bind (Follows.callHost (.snewlstr _) _) (fun str => hslot 4 _ _ ?_)
      exact Follows.bind (Follows.read32 _) (fun _ => Follows.pure _)

theorem follows_constantLoop (constantTable : Addr) : ∀ (k : List Constant) (currIndex : Nat)
    (stringCache : Cache),
    Follows (constantLoop (recorded H) rbxState constantTable currIndex k stringCache)
      (constantLoop H rbxState constantTable currIndex k stringCache)
  | [], _, _ => Follows.pure _
  | pConst :: k, currIndex, _ => Follows.bind (follows_constantSlot _ pConst _)
      (fun _ => follows_constantLoop constantTable k (currIndex + 1) _)

theorem follows_fillTable (table : Addr) : ∀ (n start : Nat)
    {entry : Fin n → TranspileM (A × List Served) Word} {entry' : Fin n → TranspileM A Word},
    (∀ i, Follows (entry i) (entry' i)) →
    Follows (fillTable table start n entry) (fillTable table start n entry')
  | 0, _, _, _, _ => Follows.pure _
  | n + 1, start, _, _, hentry => Follows.bind (hentry 0) (fun _ =>
      Follows.bind (Follows.write 4 _ _) (fun _ =>
        follows_fillTable table n (start + 1) (fun i => hentry i.succ)))

theorem follows_optionalTable (proto pointerField countField : Addr) (n : Nat)
    {entry : Fin n → TranspileM (A × List Served) Word} {entry' : Fin n → TranspileM A Word}
    (hentry : ∀ i, Follows (entry i) (entry' i)) :
    Follows (optionalTable (recorded H) rbxState proto pointerField countField n entry)
      (optionalTable H rbxState proto pointerField countField n entry') := by
  unfold optionalTable
  by_cases hn : n = 0
  · rw [if_pos hn, if_pos hn]
    exact Follows.pure _
  · rw [if_neg hn, if_neg hn]
    refine Follows.bind (Follows.callHost (.malloc _) _) (fun table => ?_)
    refine Follows.bind (Follows.write 4 _ _) (fun _ => Follows.bind (Follows.write 4 _ _) (fun _ => ?_))
    exact follows_fillTable table n 0 hentry

theorem follows_instructionTable (proto : Addr) (vProto : ProtoHead) :
    Follows (instructionTable (recorded H) rbxState proto vProto)
      (instructionTable H rbxState proto vProto) := by
  refine Follows.bind (Follows.staticEncodeKey rbxState) (fun encodeKey => ?_)
  refine Follows.bind (Follows.callHost (.malloc _) _) (fun table => ?_)
  refine Follows.bind (Follows.write 4 _ _) (fun _ => Follows.bind (Follows.write 4 _ _) (fun _ => ?_))
  refine follows_fillTable table _ 0 (fun i => ?_)
  unfold instructionEntry
  cases storedWord encodeKey vProto.code[i] (BitVec.ofNat 32 i) with
  | some stored => exact Follows.pure stored
  | none => exact Follows.pastTable

theorem follows_transpileNode (vProto : ProtoHead) (stringCache : Cache) (sizep : Nat)
    {child : Cache → Fin sizep → TranspileM (A × List Served) Word}
    {child' : Cache → Fin sizep → TranspileM A Word}
    (hchild : ∀ cache i, Follows (child cache i) (child' cache i)) :
    Follows (transpileNode (recorded H) rbxState vProto stringCache sizep child)
      (transpileNode H rbxState vProto stringCache sizep child') := by
  refine Follows.bind (follows_newProto vProto) (fun proto => ?_)
  refine Follows.bind (Follows.callHost (.malloc _) _) (fun constantTable => ?_)
  refine Follows.bind ?_ (fun _ => Follows.pure proto)
  refine Follows.bind (Follows.write 4 _ _) (fun _ => Follows.bind (Follows.write 4 _ _) (fun _ => ?_))
  refine Follows.bind (follows_constantLoop constantTable vProto.k 0 stringCache) (fun cache => ?_)
  refine Follows.bind (follows_instructionTable proto vProto) (fun _ => ?_)
  refine Follows.bind (follows_optionalTable _ _ _ _ (hchild cache)) (fun _ => ?_)
  refine Follows.bind (follows_optionalTable _ _ _ _ (fun _ => Follows.pure _)) (fun _ => ?_)
  exact follows_optionalTable _ _ _ _ (fun _ => Follows.callHost (.snewlstr _) _)

/-- **`TranspileProto` does the same with and without the record**, by induction on the
tree. -/
theorem follows_transpileProto (vProto : Proto) : ∀ protoCache stringCache,
    Follows (transpileProto (recorded H) rbxState vProto protoCache stringCache)
      (transpileProto H rbxState vProto protoCache stringCache) := by
  induction vProto with
  | mk self vProto sizep p_fits p ih =>
    intro protoCache stringCache
    unfold transpileProto
    cases protoCache self with
    | some found => exact Follows.pure found
    | none => exact follows_transpileNode vProto stringCache sizep (fun cache i => ih i protoCache cache)

/-! ## The calls of a translation -/

/-- The calls of the host that the translation of a tree makes, in order. -/
def hostCalls (H : HostApi A) (rbxState : Addr) (vProto : Proto) (stringCache : Cache)
    (σ : TState A) : List Served :=
  callsOf (transpileProto (recorded H) rbxState vProto Cache.empty stringCache (recording σ))

/-- They are the calls of that very run. -/
theorem transpileProto_recorded (H : HostApi A) (rbxState : Addr) (vProto : Proto)
    (stringCache : Cache) (σ : TState A) :
    plainResult (transpileProto (recorded H) rbxState vProto Cache.empty stringCache (recording σ))
      = transpileProto H rbxState vProto Cache.empty stringCache σ :=
  (follows_transpileProto vProto Cache.empty stringCache (recording σ) nofun).1

theorem hostCalls_ok {vProto : Proto} {stringCache : Cache} {σ σ' : TState A} {proto : Addr}
    (h : transpileProto H rbxState vProto Cache.empty stringCache σ = .ok proto σ') :
    AllReturned (hostCalls H rbxState vProto stringCache σ) := by
  have hfollows : Follows _ (transpileProto H rbxState vProto Cache.empty stringCache) :=
    follows_transpileProto vProto Cache.empty stringCache
  obtain ⟨hplain, htells⟩ := hfollows (recording σ) nofun
  have hrun := hplain.trans h
  unfold hostCalls
  cases hrec : transpileProto (recorded H) rbxState vProto Cache.empty stringCache (recording σ) with
  | ok a τ =>
    rw [hrec] at htells
    exact htells
  | error f τ =>
    rw [hrec] at hrun
    exact nomatch hrun

theorem hostCalls_raised {vProto : Proto} {stringCache : Cache} {σ σ' : TState A}
    (h : transpileProto H rbxState vProto Cache.empty stringCache σ = .error .raised σ') :
    LastRaised (hostCalls H rbxState vProto stringCache σ) := by
  have hfollows : Follows _ (transpileProto H rbxState vProto Cache.empty stringCache) :=
    follows_transpileProto vProto Cache.empty stringCache
  obtain ⟨hplain, htells⟩ := hfollows (recording σ) nofun
  have hrun := hplain.trans h
  unfold hostCalls
  cases hrec : transpileProto (recorded H) rbxState vProto Cache.empty stringCache (recording σ) with
  | ok a τ =>
    rw [hrec] at hrun
    exact nomatch hrun
  | error f τ =>
    rw [hrec] at hrun htells
    obtain rfl := (EStateM.Result.error.inj hrun).1
    exact htells

end

end NostalgiaConv.HostRecord
