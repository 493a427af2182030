/-
Rules for reasoning about the transpiler piece by piece.

`Segment H r E pre W x φ` says of a program `x` started with the addresses `W`
in its hands and `pre` true: it writes nothing live outside `W`; if it ends, it
leaves a fact `φ` that outlasts all later writes elsewhere; if it stops, it is
with one of the faults `E`. The fact may mention the static encode key as it will
be when everything is over, since the key is set once and never again.

The rules let a program be taken apart at each statement: the two halves of a
sequence may write disjoint sets of addresses, and a block just allocated is
handed to what follows.
-/
import NostalgiaConv.Transpile

set_option autoImplicit false

namespace NostalgiaConv.Segments

open NostalgiaConv.ByteMem NostalgiaConv.Cipher NostalgiaConv.Host NostalgiaConv.Transpile

section

variable {A : Type} {H : HostApi A} {r : Addr}

/-! ## Running a program -/

theorem run_bind {α β : Type} (x : TranspileM A α) (f : α → TranspileM A β) (σ : TState A) :
    (x >>= f) σ = match x σ with
      | .ok a σ' => f a σ'
      | .error g σ' => .error g σ' := by
  show EStateM.bind x f σ = _
  unfold EStateM.bind
  cases x σ <;> rfl

theorem callHost_ok {α : Type} {x : HostM A α} {σ : TState A} {a : α} {s : HostState A}
    (h : x σ.host = .ok a s) : callHost x σ = .ok a { σ with host := s } := by
  unfold callHost
  rw [h]

theorem callHost_error {α : Type} {x : HostM A α} {σ : TState A} {f : HostError}
    {s : HostState A} (h : x σ.host = .error f s) :
    callHost x σ = .error .raised { σ with host := s } := by
  unfold callHost
  rw [h]

/-- A call of the host that returned, or raised, did so in the host. -/
theorem callHost_eq_ok {α : Type} {x : HostM A α} {σ σ' : TState A} {a : α}
    (h : callHost x σ = .ok a σ') :
    x σ.host = .ok a σ'.host ∧ σ' = { σ with host := σ'.host } := by
  cases hx : x σ.host with
  | ok b s =>
    rw [callHost_ok hx] at h
    obtain ⟨rfl, rfl⟩ := EStateM.Result.ok.inj h
    exact ⟨rfl, rfl⟩
  | error e s =>
    rw [callHost_error hx] at h
    exact nomatch h

theorem callHost_eq_error {α : Type} {x : HostM A α} {σ σ' : TState A} {f : Fault}
    (h : callHost x σ = .error f σ') :
    f = .raised ∧ ∃ e, x σ.host = .error e σ'.host := by
  cases hx : x σ.host with
  | ok b s =>
    rw [callHost_ok hx] at h
    exact nomatch h
  | error e s =>
    rw [callHost_error hx] at h
    obtain ⟨rfl, rfl⟩ := EStateM.Result.error.inj h
    exact ⟨rfl, e, rfl⟩

/-! ## The static key along a run -/

/-- Along a run that writes nothing live outside `W` the static key stays, or it
was unset and is now the inverse of a decode key read in a memory with the same
live bytes outside `W`. -/
def KeyStep (H : HostApi A) (r : Addr) (W : Set Addr) (σ σ' : TState A) : Prop :=
  σ'.encodeKey = σ.encodeKey
    ∨ (σ.encodeKey = none ∧ ∃ m, AgreeOn (H.live σ.host.heap \ W) σ.host.mem m
        ∧ σ'.encodeKey = some (CrackEncodeKey (decodeKeyOf m r)))

/-- `key` is the static key as it will be when everything is over. -/
def Compat (σ : TState A) (key : Option Word) : Prop := ∀ e, σ.encodeKey = some e → key = some e

theorem KeyStep.mono {W W' : Set Addr} (hW : W ⊆ W') {σ σ' : TState A}
    (h : KeyStep H r W σ σ') : KeyStep H r W' σ σ' := by
  rcases h with h | ⟨hnone, m, hm, hkey⟩
  · exact Or.inl h
  · exact Or.inr ⟨hnone, m, fun x hx => hm x ⟨hx.1, fun hxW => hx.2 (hW hxW)⟩, hkey⟩

theorem KeyStep.trans {W : Set Addr} {σ σ' σ'' : TState A} (h : KeyStep H r W σ σ')
    (hf : Frame H W σ.host σ'.host) (h' : KeyStep H r W σ' σ'') : KeyStep H r W σ σ'' := by
  rcases h' with h' | ⟨hnone', m, hm, hkey⟩
  · rcases h with h | ⟨hnone, m, hm, hkey⟩
    · exact Or.inl (h'.trans h)
    · exact Or.inr ⟨hnone, m, hm, h'.trans hkey⟩
  · rcases h with h | ⟨-, m', -, hkey'⟩
    · refine Or.inr ⟨h.symm.trans hnone', m, ?_, hkey⟩
      rintro x ⟨hlive, hxW⟩
      rw [hm x ⟨hf.live hlive, hxW⟩, hf.mem x hlive hxW]
    · rw [hkey'] at hnone'
      exact absurd hnone' (by simp)

/-- Addresses that were not live at the start do not count. -/
theorem KeyStep.drop {W T : Set Addr} {σ σ' : TState A} (hT : Disjoint T (H.live σ.host.heap))
    (h : KeyStep H r (W ∪ T) σ σ') : KeyStep H r W σ σ' := by
  rcases h with h | ⟨hnone, m, hm, hkey⟩
  · exact Or.inl h
  · refine Or.inr ⟨hnone, m, hm.mono ?_, hkey⟩
    rintro x ⟨hlive, hxW⟩
    refine ⟨hlive, ?_⟩
    rintro (hx | hx)
    · exact hxW hx
    · exact Set.disjoint_left.mp hT hx hlive

theorem KeyStep.compat {W : Set Addr} {σ σ' : TState A} (h : KeyStep H r W σ σ')
    {key : Option Word} (hkey : Compat σ' key) : Compat σ key := by
  intro e he
  rcases h with h | ⟨hnone, -⟩
  · exact hkey e (h.trans he)
  · rw [he] at hnone
    exact absurd hnone (by simp)

theorem compat_self (σ : TState A) : Compat σ σ.encodeKey := fun _ he => he

/-- What any piece of the transpiler does to the world: it writes nothing live
outside `W`, and the key steps. -/
structure Step (H : HostApi A) (r : Addr) (W : Set Addr) (σ σ' : TState A) : Prop where
  frame : Frame H W σ.host σ'.host
  key : KeyStep H r W σ σ'

/-- A run that leaves the key alone. -/
theorem Step.of_frame {W : Set Addr} {σ σ' : TState A} (h : Frame H W σ.host σ'.host)
    (hkey : σ'.encodeKey = σ.encodeKey) : Step H r W σ σ' := ⟨h, Or.inl hkey⟩

theorem Step.mono {W W' : Set Addr} (hW : W ⊆ W') {σ σ' : TState A} (h : Step H r W σ σ') :
    Step H r W' σ σ' := ⟨h.frame.mono hW, h.key.mono hW⟩

theorem Step.trans {W : Set Addr} {σ σ' σ'' : TState A} (h : Step H r W σ σ')
    (h' : Step H r W σ' σ'') : Step H r W σ σ'' :=
  ⟨h.frame.trans h'.frame, h.key.trans h.frame h'.key⟩

theorem Step.drop {W T : Set Addr} {σ σ' : TState A} (hT : Disjoint T (H.live σ.host.heap))
    (h : Step H r (W ∪ T) σ σ') : Step H r W σ σ' := ⟨h.frame.drop hT, h.key.drop hT⟩

/-! ## Segments -/

/-- Facts about a final state: they may name the static key as it will be, and the
value returned. -/
abbrev Post (A α : Type) := Option Word → α → HostState A → Prop

variable {α β : Type} {E : Fault → Prop} {pre pre' : HostState A → Prop} {W W' : Set Addr}
  {φ : Post A α} {ψ : Post A β}

def Segment (H : HostApi A) (r : Addr) (E : Fault → Prop) (pre : HostState A → Prop)
    (W : Set Addr) (x : TranspileM A α) (φ : Post A α) : Prop :=
  ∀ σ, Owned H W σ.host → pre σ.host → match x σ with
    | .ok a σ' => Step H r W σ σ' ∧ ∀ key, Compat σ' key → Builds H W σ.host σ'.host (φ key a)
    | .error f σ' => E f ∧ Step H r W σ σ'

/-- A precondition that looks at the bytes of `W` only. -/
def LocalTo (W : Set Addr) (pre : HostState A → Prop) : Prop :=
  ∀ s s', AgreeOn W s.mem s'.mem → pre s → pre s'

theorem localTo_true : LocalTo W (fun _ : HostState A => True) := fun _ _ _ h => h

theorem localTo_agreeOn {B : Set Addr} (m : Mem 32) :
    LocalTo (A := A) B (fun s => AgreeOn B m s.mem) :=
  fun _ _ hagree h => h.trans hagree

theorem LocalTo.and (h : LocalTo W pre) (h' : LocalTo W pre') :
    LocalTo W (fun s => pre s ∧ pre' s) :=
  fun s s' hagree hpre => ⟨h s s' hagree hpre.1, h' s s' hagree hpre.2⟩

theorem LocalTo.mono (hW : W ⊆ W') (h : LocalTo W pre) : LocalTo W' pre :=
  fun s s' hagree => h s s' (hagree.mono hW)

/-- A run that writes elsewhere keeps it. -/
theorem LocalTo.frame (h : LocalTo W pre) {s s' : HostState A} (hf : Frame H W' s s')
    (hlive : W ⊆ H.live s.heap) (hdis : Disjoint W W') (hpre : pre s) : pre s' :=
  h s s' (hf.agreeOn hlive hdis) hpre

theorem Segment.imp {φ' : Post A α} {x : TranspileM A α} (h : Segment H r E pre W x φ)
    (himp : ∀ e a s, φ e a s → φ' e a s) : Segment H r E pre W x φ' := by
  intro σ hown hpre
  have hx := h σ hown hpre
  cases hrun : x σ with
  | ok a σ' =>
    rw [hrun] at hx
    exact ⟨hx.1, fun e he => (hx.2 e he).imp (himp e a)⟩
  | error f σ' =>
    rw [hrun] at hx
    exact hx

theorem Segment.strengthen {x : TranspileM A α} (h : Segment H r E pre W x φ)
    (himp : ∀ s, pre' s → pre s) : Segment H r E pre' W x φ :=
  fun σ hown hpre => h σ hown (himp _ hpre)

theorem Segment.ret {a : α} (hφ : ∀ e s, φ e a s) : Segment H r E pre W (Pure.pure a) φ :=
  fun _ _ _ => ⟨Step.of_frame (Frame.refl H W _) rfl,
    fun e _ => Builds.of_frame (Frame.refl H W _) (hφ e)⟩

theorem Segment.throw {f : Fault} (hf : E f) :
    Segment H r E pre W (MonadExcept.throw f : TranspileM A α) φ :=
  fun _ _ _ => ⟨hf, Step.of_frame (Frame.refl H W _) rfl⟩

/-- What the segment finds at its own addresses is there at the end if it does
nothing. -/
theorem Segment.keep {a : α} (hlocal : LocalTo W pre) :
    Segment H r E pre W (Pure.pure a) (fun _ b s => b = a ∧ pre s) := by
  intro σ hown hpre
  refine ⟨Step.of_frame (Frame.refl H W _) rfl, fun e _ => ?_⟩
  refine ⟨Frame.refl H W _, W, Set.subset_union_left, hown, fun s' hk => ?_⟩
  exact ⟨rfl, hlocal _ _ hk.mem hpre⟩

/-- The written set may be enlarged. -/
theorem Segment.mono {x : TranspileM A α} (hW : W ⊆ W') (h : Segment H r E pre W x φ) :
    Segment H r E pre W' x φ := by
  intro σ hown hpre
  have hx := h σ (hown.mono hW) hpre
  cases hrun : x σ with
  | ok a σ' =>
    rw [hrun] at hx
    exact ⟨hx.1.mono hW, fun e he => (hx.2 e he).mono hW⟩
  | error f σ' =>
    rw [hrun] at hx
    exact ⟨hx.1, hx.2.mono hW⟩

/-- Two statements that write disjoint sets of addresses: both facts stand at
the end, and the second statement may still rely on what it finds at its own
addresses. -/
theorem Segment.bind {x : TranspileM A α} {f : α → TranspileM A β} {ψ : α → Post A β}
    (hH : H.Lawful) (hx : Segment H r E pre W x φ)
    (hf : ∀ a, Segment H r E pre' W' (f a) (ψ a)) (hdis : Disjoint W W')
    (hlocal : LocalTo W' pre') :
    Segment H r E (fun s => pre s ∧ pre' s) (W ∪ W') (x >>= f)
      (fun e b s => ∃ a, φ e a s ∧ ψ a e b s) := by
  intro σ hown hpre
  have hW : Owned H W σ.host := hown.mono Set.subset_union_left
  have hW' : Owned H W' σ.host := hown.mono Set.subset_union_right
  have h1 := hx σ hW hpre.1
  rw [run_bind]
  cases hrun : x σ with
  | error g σ₁ =>
    rw [hrun] at h1
    exact ⟨h1.1, h1.2.mono Set.subset_union_left⟩
  | ok a σ₁ =>
    rw [hrun] at h1
    -- what `f` relies on lies in `W'`, which `x` has not written
    have hpre' : pre' σ₁.host := hlocal.frame h1.1.frame hW'.live hdis.symm hpre.2
    have h2 := hf a σ₁ (h1.1.frame.owned hW') hpre'
    have hstep : Step H r (W ∪ W') σ σ₁ := h1.1.mono Set.subset_union_left
    dsimp only
    cases hrun2 : f a σ₁ with
    | error g σ₂ =>
      rw [hrun2] at h2
      exact ⟨h2.1, hstep.trans (h2.2.mono Set.subset_union_right)⟩
    | ok b σ₂ =>
      rw [hrun2] at h2
      refine ⟨hstep.trans (h2.1.mono Set.subset_union_right), fun e he => ?_⟩
      -- the fact of `x` is kept through `f`, which writes `W'` only
      have hb1 := h1.2 e (h2.1.key.compat he)
      have hb2 := h2.2 e he
      exact (hb1.seq hH hb2 hW' hdis).imp (fun s hs => ⟨a, hs⟩)

/-- Two statements of which the second relies on what the first has just left. -/
theorem Segment.andThen {x : TranspileM A α} {f : α → TranspileM A β}
    {φ : α → HostState A → Prop} (hx : Segment H r E pre W x (fun _ a s => φ a s))
    (hf : ∀ a, Segment H r E (φ a) W (f a) ψ) : Segment H r E pre W (x >>= f) ψ := by
  intro σ hown hpre
  have h1 := hx σ hown hpre
  rw [run_bind]
  cases hrun : x σ with
  | error g σ₁ =>
    rw [hrun] at h1
    exact h1
  | ok a σ₁ =>
    rw [hrun] at h1
    -- what `x` left still holds: `f` has not started
    have h2 := hf a σ₁ (h1.1.frame.owned hown) (h1.2 _ (compat_self σ₁)).holds
    dsimp only
    cases hrun2 : f a σ₁ with
    | error g σ₂ =>
      rw [hrun2] at h2
      exact ⟨h2.1, h1.1.trans h2.2⟩
    | ok b σ₂ =>
      rw [hrun2] at h2
      exact ⟨h1.1.trans h2.1, fun e he => (h2.2 e he).after h1.1.frame⟩

/-! ## The statements -/

/-- A store leaves its own bytes; what else of `B` there was stays. -/
theorem Segment.write {B : Set Addr} {n : Nat} {a : Addr} (ha : block a n ⊆ B)
    (v : BitVec (8 * n)) (m : Mem 32) :
    Segment H r E (fun s => AgreeOn B m s.mem) B (Transpile.write n a v)
      (fun _ _ s => AgreeOn B (store n m a v) s.mem) := by
  intro σ hown hpre
  have hframe := (frame_store H σ.host n a v).mono ha
  refine ⟨Step.of_frame hframe rfl, fun e _ => ?_⟩
  refine ⟨hframe, B, Set.subset_union_left, ⟨hown.live, hown.noString⟩, ?_⟩
  exact fun s' hk => (hpre.store_both n a v).trans hk.mem

/-- A store into a block of its own. -/
theorem Segment.store {n : Nat} (hn : n ≤ 2 ^ 32) (a : Addr) (v : BitVec (8 * n)) :
    Segment H r E (fun _ => True) (block a n) (Transpile.write n a v)
      (fun _ _ s => load n s.mem a = v) := by
  intro σ hown hpre
  have hframe := frame_store H σ.host n a v
  refine ⟨Step.of_frame hframe rfl, fun e _ => ?_⟩
  refine ⟨hframe, block a n, Set.subset_union_left, ⟨hown.live, hown.noString⟩, ?_⟩
  intro s' hk
  rw [hk.mem.load_eq subset_rfl]
  exact load_store_same hn _ _ _

theorem Segment.store32 (a : Addr) (v : Word) :
    Segment H r E (fun _ => True) (block a 4) (Transpile.write32 a v)
      (fun _ _ s => load32 s.mem a = v) :=
  Segment.store (n := 4) (by decide) a v

theorem Segment.read32 {a : Addr} {B : Set Addr} (ha : block a 4 ⊆ B) (m : Mem 32) :
    Segment H r E (fun s => AgreeOn B m s.mem) B (Transpile.read32 a)
      (fun _ v s => v = load32 m a ∧ AgreeOn B m s.mem) := by
  intro σ hown hpre
  refine ⟨Step.of_frame (Frame.refl H _ _) rfl, fun e _ => ?_⟩
  refine ⟨Frame.refl H _ _, B, Set.subset_union_left, hown, ?_⟩
  exact fun s' hk => ⟨hpre.load_eq ha, hpre.trans hk.mem⟩

/-- A new host string. -/
theorem Segment.snewlstr (hH : H.Lawful) (hE : E .raised) (state : Addr) (bytes : List Byte) :
    Segment H r E pre ∅ (callHost (H.rbx_snewlstr state bytes))
      (fun _ a s => H.isStr s a bytes) := by
  intro σ _ _
  cases hrun : H.rbx_snewlstr state bytes σ.host with
  | ok a s =>
    rw [callHost_ok hrun]
    obtain ⟨hframe, hstr⟩ := hH.snewlstr_ok hrun
    refine ⟨Step.of_frame hframe rfl, fun e _ => ⟨hframe, ∅, Set.empty_subset _, ?_, ?_⟩⟩
    · exact ⟨Set.empty_subset _, Set.empty_disjoint _⟩
    · exact secured_isStr hH hstr
  | error f s =>
    rw [callHost_error hrun]
    exact ⟨hE, Step.of_frame (hH.snewlstr_error hrun) rfl⟩

/-- A block from `rbx_malloc` belongs to what follows. -/
theorem Segment.malloc {f : Addr → TranspileM A β} (hH : H.Lawful) (hE : E .raised)
    (state : Addr) (n : Word) (hlocal : LocalTo W pre)
    (hf : ∀ a, Disjoint W (block a n.toNat) →
      Segment H r E pre (W ∪ block a n.toNat) (f a) ψ) :
    Segment H r E pre W (callHost (H.rbx_malloc state 0 0 n) >>= f) ψ := by
  intro σ hown hpre
  rw [run_bind]
  cases hrun : H.rbx_malloc state 0 0 n σ.host with
  | error g s =>
    rw [callHost_error hrun]
    exact ⟨hE, Step.of_frame ((hH.malloc_error hrun).mono (Set.empty_subset W)) rfl⟩
  | ok a s =>
    have halloc := hH.malloc_ok hrun
    have hpre' : pre s := hlocal.frame halloc.frame hown.live (Set.disjoint_empty _) hpre
    have h := hf a (halloc.disjoint hown.live) { σ with host := s }
      ((halloc.frame.owned hown).union halloc.owned) hpre'
    have hstep : Step H r (W ∪ block a n.toNat) σ { σ with host := s } :=
      Step.of_frame (halloc.frame.mono (Set.empty_subset _)) rfl
    rw [callHost_ok hrun]
    dsimp only
    cases hrun2 : f a { σ with host := s } with
    | error g σ₂ =>
      rw [hrun2] at h
      -- seen from before the allocation the block did not exist
      exact ⟨h.1, (hstep.trans h.2).drop halloc.fresh⟩
    | ok b σ₂ =>
      rw [hrun2] at h
      refine ⟨(hstep.trans h.1).drop halloc.fresh, fun e he => ?_⟩
      exact ((h.2 e he).after (halloc.frame.mono (Set.empty_subset _))).drop halloc.fresh

/-- The static key, once read, is the key in force. -/
theorem Segment.staticEncodeKey :
    Segment H r E pre ∅ (Transpile.staticEncodeKey r) (fun key e _ => key = some e) := by
  intro σ _ _
  have hframe := Frame.refl H ∅ σ.host
  unfold Transpile.staticEncodeKey
  cases hkey : σ.encodeKey with
  | some key =>
    exact ⟨Step.of_frame hframe rfl, fun k hk => Builds.of_frame hframe (fun _ => hk key hkey)⟩
  | none =>
    refine ⟨⟨hframe, Or.inr ⟨hkey, σ.host.mem, AgreeOn.refl _ _, rfl⟩⟩, fun e he => ?_⟩
    exact Builds.of_frame hframe (fun _ => he _ rfl)

end

end NostalgiaConv.Segments
