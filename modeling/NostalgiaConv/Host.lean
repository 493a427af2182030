/-
The host process as the transpiler sees it: one 32-bit memory, and three
allocating functions reached through addresses in `update.hpp`.

The host's own code is not in the repository, so the three functions are
parameters. What the transpiler relies on is `HostApi.Lawful`: an allocation is
fresh and leaves everything already live as it was, whether it succeeds or
raises; a string object holds the bytes it was made from until something writes
into it. `Frame` is the relation between two states that everything in this
development is stated with: nothing live outside a set of addresses has changed.
-/
import NostalgiaConv.ByteMem
import NostalgiaConv.Cipher
import Mathlib.Tactic.Common

set_option autoImplicit false

namespace NostalgiaConv.Host

open NostalgiaConv.ByteMem NostalgiaConv.Cipher

/-- `std::uintptr_t`. -/
abbrev Addr := BitVec 32

abbrev Byte := BitVec 8

/-- Memory, and whatever the host's allocator and collector keep beside it. -/
structure HostState (A : Type) where
  mem : Mem 32
  heap : A

/-- A host function that raised: the error unwinds through its caller. -/
inductive HostError where
  | raised
  deriving DecidableEq

abbrev HostM (A : Type) := EStateM HostError (HostState A)

/-- The functions and data of the host that the transpiler uses. `live` are the
addresses in use, `strings` those held by string objects, and `isStr s a bytes`
says that in state `s` there is a host string with these bytes at `a`. -/
structure HostApi (A : Type) where
  rbx_fnewproto : Addr → HostM A Addr
  rbx_malloc : Addr → Word → Word → Word → HostM A Addr
  rbx_snewlstr : Addr → List Byte → HostM A Addr
  xorConst : BitVec 64
  live : A → Set Addr
  strings : A → Set Addr
  isStr : HostState A → Addr → List Byte → Prop

variable {A : Type}

def load8 (m : Mem 32) (a : Addr) : Byte := load 1 m a
def load32 (m : Mem 32) (a : Addr) : Word := load 4 m a
def load64 (m : Mem 32) (a : Addr) : BitVec 64 := load 8 m a
def store8 (m : Mem 32) (a : Addr) (v : Byte) : Mem 32 := store 1 m a v
def store32 (m : Mem 32) (a : Addr) (v : Word) : Mem 32 := store 4 m a v
def store64 (m : Mem 32) (a : Addr) (v : BitVec 64) : Mem 32 := store 8 m a v

/-- Follow a self-relative pointer field. -/
def deref (m : Mem 32) (field : Addr) : Addr := field + load32 m field

/-- The size of a host proto, as far as the transpiler writes it. -/
def PROTO_SIZE : Nat := 0x4C

/-! ## Frames -/

/-- From `s` to `s'` nothing live was freed, nothing live outside `W` was
changed, and no live address became part of a string. -/
structure Frame (H : HostApi A) (W : Set Addr) (s s' : HostState A) : Prop where
  live : H.live s.heap ⊆ H.live s'.heap
  mem : ∀ x ∈ H.live s.heap, x ∉ W → s'.mem x = s.mem x
  strings : H.strings s.heap ⊆ H.strings s'.heap
  noGrab : ∀ x ∈ H.strings s'.heap, x ∈ H.live s.heap → x ∈ H.strings s.heap

/-- The addresses of `T` are the transpiler's: live and in no string. -/
structure Owned (H : HostApi A) (T : Set Addr) (s : HostState A) : Prop where
  live : T ⊆ H.live s.heap
  noString : Disjoint T (H.strings s.heap)

/-- An allocation of `n` bytes at `a`. -/
structure Alloc (H : HostApi A) (s s' : HostState A) (a : Addr) (n : Nat) : Prop where
  frame : Frame H ∅ s s'
  fresh : Disjoint (block a n) (H.live s.heap)
  owned : Owned H (block a n) s'

/-- The documented behaviour of the host functions. -/
structure HostApi.Lawful (H : HostApi A) : Prop where
  strings_live : ∀ h, H.strings h ⊆ H.live h
  isStr_stable : ∀ {s s' a bytes}, H.isStr s a bytes → H.strings s.heap ⊆ H.strings s'.heap →
    AgreeOn (H.strings s.heap) s.mem s'.mem → H.isStr s' a bytes
  isStr_unique : ∀ {s a bytes bytes'}, H.isStr s a bytes → H.isStr s a bytes' → bytes = bytes'
  fnewproto : ∀ rs s, match H.rbx_fnewproto rs s with
    | .ok a s' => Alloc H s s' a PROTO_SIZE
        ∧ ∀ off ∈ [0x14, 0x1C, 0x2C, 0x34, 0x40], load32 s'.mem (a + BitVec.ofNat 32 off) = 0
    | .error _ s' => Frame H ∅ s s'
  malloc : ∀ rs n s, match H.rbx_malloc rs 0 0 n s with
    | .ok a s' => Alloc H s s' a n.toNat
    | .error _ s' => Frame H ∅ s s'
  snewlstr : ∀ rs bytes s, match H.rbx_snewlstr rs bytes s with
    | .ok a s' => Frame H ∅ s s' ∧ H.isStr s' a bytes
    | .error _ s' => Frame H ∅ s s'

section

variable {H : HostApi A} {W W' T : Set Addr} {s s' s'' : HostState A}

theorem Frame.refl (H : HostApi A) (W : Set Addr) (s : HostState A) : Frame H W s s :=
  ⟨subset_rfl, fun _ _ _ => rfl, subset_rfl, fun _ hx _ => hx⟩

theorem Frame.mono (hW : W ⊆ W') (h : Frame H W s s') : Frame H W' s s' :=
  ⟨h.live, fun x hx hW' => h.mem x hx (fun hxW => hW' (hW hxW)), h.strings, h.noGrab⟩

theorem Frame.trans (h : Frame H W s s') (h' : Frame H W s' s'') : Frame H W s s'' := by
  refine ⟨h.live.trans h'.live, ?_, h.strings.trans h'.strings, ?_⟩
  · intro x hx hxW
    rw [h'.mem x (h.live hx) hxW, h.mem x hx hxW]
  · intro x hx hlive
    exact h.noGrab x (h'.noGrab x hx (h.live hlive)) hlive

/-- Addresses that were not live at the start do not count. -/
theorem Frame.drop (hT : Disjoint T (H.live s.heap)) (h : Frame H (W ∪ T) s s') :
    Frame H W s s' := by
  refine ⟨h.live, ?_, h.strings, h.noGrab⟩
  intro x hx hxW
  refine h.mem x hx ?_
  rintro (hxW' | hxT)
  · exact hxW hxW'
  · exact Set.disjoint_left.mp hT hxT hx

theorem Frame.owned (h : Frame H W s s') (hT : Owned H T s) : Owned H T s' := by
  refine ⟨hT.live.trans h.live, ?_⟩
  rw [Set.disjoint_left]
  intro x hxT hxs
  exact Set.disjoint_left.mp hT.noString hxT (h.noGrab x hxs (hT.live hxT))

/-- What is live and outside the written set reads the same. -/
theorem Frame.agreeOn (h : Frame H W s s') (hT : T ⊆ H.live s.heap) (hTW : Disjoint T W) :
    AgreeOn T s.mem s'.mem :=
  fun x hx => h.mem x (hT hx) (Set.disjoint_left.mp hTW hx)

theorem Frame.isStr (hH : H.Lawful) (h : Frame H W s s')
    (hW : Disjoint W (H.strings s.heap)) {a : Addr} {bytes : List Byte}
    (hs : H.isStr s a bytes) : H.isStr s' a bytes :=
  hH.isStr_stable hs h.strings (h.agreeOn (hH.strings_live _) hW.symm)

theorem Owned.mono (hT : W ⊆ T) (h : Owned H T s) : Owned H W s :=
  ⟨hT.trans h.live, h.noString.mono_left hT⟩

theorem Owned.union (h : Owned H T s) (h' : Owned H W s) : Owned H (T ∪ W) s :=
  ⟨Set.union_subset h.live h'.live, h.noString.union_left h'.noString⟩

/-- A store is a frame around the block it writes. -/
theorem frame_store (H : HostApi A) (s : HostState A) (n : Nat) (a : Addr) (v : BitVec (8 * n)) :
    Frame H (block a n) s { s with mem := store n s.mem a v } :=
  ⟨subset_rfl, fun _ _ hx => store_of_notMem hx, subset_rfl, fun _ hx _ => hx⟩

/-- A fresh block is disjoint from everything that was live before it. -/
theorem Alloc.disjoint {a : Addr} {n : Nat} (h : Alloc H s s' a n) (hT : T ⊆ H.live s.heap) :
    Disjoint T (block a n) :=
  (h.fresh.mono_right hT).symm

end

/-! ## Reading the laws as facts about one call -/

section

variable {H : HostApi A} (hH : H.Lawful) {rs a : Addr} {s s' : HostState A} {e : HostError}
include hH

theorem HostApi.Lawful.fnewproto_ok (h : H.rbx_fnewproto rs s = .ok a s') :
    Alloc H s s' a PROTO_SIZE
      ∧ ∀ off ∈ [0x14, 0x1C, 0x2C, 0x34, 0x40], load32 s'.mem (a + BitVec.ofNat 32 off) = 0 := by
  have := hH.fnewproto rs s
  rwa [h] at this

theorem HostApi.Lawful.malloc_ok {n : Word} (h : H.rbx_malloc rs 0 0 n s = .ok a s') :
    Alloc H s s' a n.toNat := by
  have := hH.malloc rs n s
  rwa [h] at this

theorem HostApi.Lawful.snewlstr_ok {bytes : List Byte} (h : H.rbx_snewlstr rs bytes s = .ok a s') :
    Frame H ∅ s s' ∧ H.isStr s' a bytes := by
  have := hH.snewlstr rs bytes s
  rwa [h] at this

theorem HostApi.Lawful.fnewproto_error (h : H.rbx_fnewproto rs s = .error e s') :
    Frame H ∅ s s' := by
  have := hH.fnewproto rs s
  rwa [h] at this

theorem HostApi.Lawful.malloc_error {n : Word} (h : H.rbx_malloc rs 0 0 n s = .error e s') :
    Frame H ∅ s s' := by
  have := hH.malloc rs n s
  rwa [h] at this

theorem HostApi.Lawful.snewlstr_error {bytes : List Byte}
    (h : H.rbx_snewlstr rs bytes s = .error e s') : Frame H ∅ s s' := by
  have := hH.snewlstr rs bytes s
  rwa [h] at this

end

/-! ## Facts that last

A fact about a finished piece of memory has to survive whatever the transpiler
does afterwards. `Secured H F φ s` says that `φ` holds at `s` and goes on holding
as long as the bytes of `F` and the string objects stay as they are; `Builds`
says of a run that it wrote nothing live outside `W` and left a fact secured by
addresses it may call its own: those it wrote, and those that were not live
before. -/

/-- The bytes of `F` and every string object are as they were. -/
structure Keeps (H : HostApi A) (F : Set Addr) (s s' : HostState A) : Prop where
  mem : AgreeOn F s.mem s'.mem
  strings : H.strings s.heap ⊆ H.strings s'.heap
  stringBytes : AgreeOn (H.strings s.heap) s.mem s'.mem

def Secured (H : HostApi A) (F : Set Addr) (φ : HostState A → Prop) (s : HostState A) : Prop :=
  ∀ s', Keeps H F s s' → φ s'

structure Builds (H : HostApi A) (W : Set Addr) (s s' : HostState A) (φ : HostState A → Prop) :
    Prop where
  frame : Frame H W s s'
  secured : ∃ F, F ⊆ W ∪ (H.live s.heap)ᶜ ∧ Owned H F s' ∧ Secured H F φ s'

section

variable {H : HostApi A} {F G W W' T : Set Addr} {φ ψ : HostState A → Prop}
  {s s' s'' : HostState A}

theorem Keeps.refl (H : HostApi A) (F : Set Addr) (s : HostState A) : Keeps H F s s :=
  ⟨AgreeOn.refl _ _, subset_rfl, AgreeOn.refl _ _⟩

theorem Keeps.trans (h : Keeps H F s s') (h' : Keeps H F s' s'') : Keeps H F s s'' :=
  ⟨h.mem.trans h'.mem, h.strings.trans h'.strings,
    h.stringBytes.trans (h'.stringBytes.mono h.strings)⟩

theorem Keeps.mono (hFG : F ⊆ G) (h : Keeps H G s s') : Keeps H F s s' :=
  ⟨h.mem.mono hFG, h.strings, h.stringBytes⟩

theorem Frame.keeps (hH : H.Lawful) (h : Frame H W s s') (hF : F ⊆ H.live s.heap)
    (hFW : Disjoint F W) (hW : Disjoint W (H.strings s.heap)) : Keeps H F s s' :=
  ⟨h.agreeOn hF hFW, h.strings, h.agreeOn (hH.strings_live _) hW.symm⟩

theorem Secured.now (h : Secured H F φ s) : φ s := h s (Keeps.refl H F s)

theorem Secured.keep (h : Secured H F φ s) (hk : Keeps H F s s') : Secured H F φ s' :=
  fun s'' hk' => h s'' (hk.trans hk')

theorem Secured.imp (h : Secured H F φ s) (himp : ∀ s', φ s' → ψ s') : Secured H F ψ s :=
  fun s' hk => himp s' (h s' hk)

theorem Secured.and (h : Secured H F φ s) (h' : Secured H G ψ s) :
    Secured H (F ∪ G) (fun s => φ s ∧ ψ s) s :=
  fun s' hk => ⟨h s' (hk.mono Set.subset_union_left), h' s' (hk.mono Set.subset_union_right)⟩

/-- A string object needs no addresses of ours to last. -/
theorem secured_isStr (hH : H.Lawful) {a : Addr} {bytes : List Byte} (h : H.isStr s a bytes) :
    Secured H ∅ (fun s => H.isStr s a bytes) s :=
  fun _ hk => hH.isStr_stable h hk.strings hk.stringBytes

theorem Builds.holds (h : Builds H W s s' φ) : φ s' := by
  obtain ⟨F, -, -, hF⟩ := h.secured
  exact hF.now

theorem Builds.imp (h : Builds H W s s' φ) (himp : ∀ s', φ s' → ψ s') : Builds H W s s' ψ := by
  obtain ⟨F, hsub, hown, hF⟩ := h.secured
  exact ⟨h.frame, F, hsub, hown, hF.imp himp⟩

/-- A run about which nothing but its frame is to be remembered. -/
theorem Builds.of_frame (h : Frame H W s s') (hφ : ∀ s, φ s) : Builds H W s s' φ :=
  ⟨h, ∅, Set.empty_subset _, ⟨Set.empty_subset _, Set.empty_disjoint _⟩, fun s' _ => hφ s'⟩

/-- A later run that writes elsewhere keeps what an earlier one built. -/
theorem Builds.seq (hH : H.Lawful) (h : Builds H W s s' φ) (h' : Builds H W' s' s'' ψ)
    (hW' : Owned H W' s) (hdis : Disjoint W W') :
    Builds H (W ∪ W') s s'' (fun s => φ s ∧ ψ s) := by
  obtain ⟨F, hF, hFown, hφ⟩ := h.secured
  obtain ⟨G, hG, hGown, hψ⟩ := h'.secured
  have hW's' : Owned H W' s' := h.frame.owned hW'
  have hFW' : Disjoint F W' := by
    rw [Set.disjoint_left]
    intro x hxF hxW'
    rcases hF hxF with hxW | hxfresh
    · exact Set.disjoint_left.mp hdis hxW hxW'
    · exact hxfresh (hW'.live hxW')
  have hkeep : Keeps H F s' s'' := h'.frame.keeps hH hFown.live hFW' hW's'.noString
  refine ⟨(h.frame.mono Set.subset_union_left).trans (h'.frame.mono Set.subset_union_right),
    F ∪ G, ?_, (h'.frame.owned hFown).union hGown, (hφ.keep hkeep).and hψ⟩
  rintro x (hx | hx)
  · rcases hF hx with hxW | hxfresh
    · exact Or.inl (Or.inl hxW)
    · exact Or.inr hxfresh
  · rcases hG hx with hxW' | hxfresh
    · exact Or.inl (Or.inr hxW')
    · exact Or.inr (fun hlive => hxfresh (h.frame.live hlive))

/-- What was fresh at the start need not be named among the addresses written. -/
theorem Builds.drop (hT : Disjoint T (H.live s.heap)) (h : Builds H (W ∪ T) s s' φ) :
    Builds H W s s' φ := by
  obtain ⟨F, hF, hown, hφ⟩ := h.secured
  refine ⟨h.frame.drop hT, F, ?_, hown, hφ⟩
  intro x hx
  rcases hF hx with (hxW | hxT) | hxfresh
  · exact Or.inl hxW
  · exact Or.inr (fun hlive => Set.disjoint_left.mp hT hxT hlive)
  · exact Or.inr hxfresh

theorem Builds.mono (hW : W ⊆ W') (h : Builds H W s s' φ) : Builds H W' s s' φ := by
  obtain ⟨F, hF, hown, hφ⟩ := h.secured
  exact ⟨h.frame.mono hW, F, hF.trans (Set.union_subset_union_left _ hW), hown, hφ⟩

/-- The same from an earlier start. -/
theorem Builds.after (hs : Frame H W s s') (h : Builds H W s' s'' φ) : Builds H W s s'' φ := by
  obtain ⟨F, hF, hown, hφ⟩ := h.secured
  refine ⟨hs.trans h.frame, F, ?_, hown, hφ⟩
  intro x hx
  rcases hF hx with hxW | hxfresh
  · exact Or.inl hxW
  · exact Or.inr (fun hlive => hxfresh (hs.live hlive))

end

end NostalgiaConv.Host
