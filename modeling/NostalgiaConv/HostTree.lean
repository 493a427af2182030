/-
The host tree is isomorphic to the tree of protos.

`Isomorphic` is the reader's side of the translation: what following the
self-relative pointers from a host proto gives at every node, with no mention of
caches, keys or how the memory came to be. `transpileProto_isomorphic` is the
result about `TranspileProto`.
-/
import NostalgiaConv.BumpHost
import NostalgiaConv.HostRecord
import NostalgiaConv.ProtoTree

set_option autoImplicit false

namespace NostalgiaConv.HostTree

open NostalgiaConv.ByteMem NostalgiaConv.Cipher NostalgiaConv.Opcodes NostalgiaConv.Host
open NostalgiaConv.Value NostalgiaConv.Transpile NostalgiaConv.Segments NostalgiaConv.Tables
open NostalgiaConv.ProtoTree NostalgiaConv.BumpHost NostalgiaConv.HostRecord

variable {A : Type} {H : HostApi A} {r : Addr}

/-! ## What a reader finds -/

/-- One node: the scalar fields, the five counts, and the contents of the tables
that do not depend on a key. -/
structure NodeMatches (H : HostApi A) (s : HostState A) (vProto : ProtoHead) (sizep : Nat)
    (proto : Addr) : Prop where
  maxstacksize : load8 s.mem (proto + 0x48) = vProto.maxstacksize
  numparams : load8 s.mem (proto + 0x49) = vProto.numparams
  nups : load8 s.mem (proto + 0x4A) = vProto.nups
  is_vararg : load8 s.mem (proto + 0x4B) = vProto.is_vararg
  source : H.isStr s (deref s.mem (proto + 0xC)) vProto.source.bytes
  sizek : (load32 s.mem (proto + 0x1C)).toNat = vProto.k.length
  sizecode : (load32 s.mem (proto + 0x34)).toNat = vProto.code.length
  sizep : (load32 s.mem (proto + 0x2C)).toNat = sizep
  sizelineinfo : (load32 s.mem (proto + 0x40)).toNat = vProto.lineinfo.length
  sizeupvalues : (load32 s.mem (proto + 0x14)).toNat = vProto.upvalues.length
  constantTags : ∀ i : Fin vProto.k.length,
    load32 s.mem (deref s.mem (proto + 0x20) + BitVec.ofNat 32 (16 * i) + 8) = vProto.k[i].rbxType
  lineinfo : ∀ i : Fin vProto.lineinfo.length,
    load32 s.mem (deref s.mem (proto + 0x24) + BitVec.ofNat 32 (4 * i)) ^^^ (BitVec.ofNat 32 i <<< 8)
      = vProto.lineinfo[i]
  upvalues : ∀ i : Fin vProto.upvalues.length,
    H.isStr s (load32 s.mem (deref s.mem (proto + 0x28) + BitVec.ofNat 32 (4 * i)))
      vProto.upvalues[i].bytes

inductive Isomorphic (H : HostApi A) (s : HostState A) : Proto → Addr → Prop where
  | node {self proto : Addr} {vProto : ProtoHead} {sizep : Nat} {p_fits : 4 * sizep < 2 ^ 32}
      {p : Fin sizep → Proto} (head : NodeMatches H s vProto sizep proto)
      (children : ∀ i : Fin sizep, Isomorphic H s (p i)
        (load32 s.mem (deref s.mem (proto + 0x8) + BitVec.ofNat 32 (4 * i)))) :
      Isomorphic H s (.mk self vProto sizep p_fits p) proto

/-- A finished tree: it is isomorphic, and stays so whatever is written outside
some addresses that belong to the transpiler. -/
def Completed (H : HostApi A) (s : HostState A) (vProto : Proto) (proto : Addr) : Prop :=
  ∃ F, Owned H F s ∧ Secured H F (fun s => Isomorphic H s vProto proto) s

/-! ## From the writer's side to the reader's -/

theorem nodeMatches {key : Option Word} {stale : Mem 32} {cache cache' : Cache} {s : HostState A}
    {vProto : ProtoHead} {sizep : Nat} {proto : Addr} (hsizep : 4 * sizep < 2 ^ 32)
    (header : HeaderRep H vProto proto s) (tables : TablesRep H key stale cache cache' vProto proto s)
    (count : load32 s.mem (proto + 0x2C) = BitVec.ofNat 32 sizep) :
    NodeMatches H s vProto sizep proto := by
  have hcount : ∀ {n : Nat} {a : Addr}, 4 * n < 2 ^ 32 → load32 s.mem a = BitVec.ofNat 32 n →
      (load32 s.mem a).toNat = n := by
    intro n a hn h
    rw [h, toNat_ofNat_of_lt (by omega)]
  obtain ⟨e, -, hcode⟩ := tables.code
  have hk := vProto.k_fits
  refine ⟨header.maxstacksize, header.numparams, header.nups, header.is_vararg, header.source,
    hcount (by omega) tables.sizek, hcount vProto.code_fits hcode.1, hcount hsizep count,
    hcount vProto.lineinfo_fits tables.lineinfo.1, hcount vProto.upvalues_fits tables.upvalues.1,
    ?_, ?_, tables.upvalues.2⟩
  · intro i
    obtain ⟨c, c', hslot, -⟩ := SlotsRep.get tables.constants i i.isLt
    rw [Nat.zero_add] at hslot
    exact hslot.1
  · intro i
    have hline : load32 s.mem (deref s.mem (proto + 0x24) + BitVec.ofNat 32 (4 * i))
        = vProto.lineinfo[i] ^^^ (BitVec.ofNat 32 i <<< 8) := tables.lineinfo.2 i
    rw [hline, BitVec.xor_assoc, BitVec.xor_self, BitVec.xor_zero]

theorem isomorphic_of_transpiled {key : Option Word} {s : HostState A} {cache : Cache}
    {vProto : Proto} {proto : Addr} (h : Transpiled H key s cache vProto proto) :
    Isomorphic H s vProto proto := by
  induction h with
  | @node self proto vProto sizep p_fits p stale cache cache' header tables count children ih =>
    exact Isomorphic.node (nodeMatches p_fits header tables count) ih

/-- Whatever is finished stays finished while others write elsewhere. -/
theorem Completed.frame (hH : H.Lawful) {s s' : HostState A} (hf : Frame H ∅ s s') {vProto : Proto}
    {proto : Addr} (h : Completed H s vProto proto) : Completed H s' vProto proto := by
  obtain ⟨F, hown, hsec⟩ := h
  exact ⟨F, hf.owned hown,
    hsec.keep (hf.keeps hH hown.live (Set.disjoint_empty _) (Set.empty_disjoint _))⟩

/-- **`TranspileProto` builds an isomorphic tree.** Every run that ends leaves a
finished tree and changes nothing that was live before it, in particular no tree
that was finished before. A run stops early only when a call of the host that it has
just made raises, all those before it having returned, or at a word whose opcode field
names no opcode; so a run on a tree of opcodes builds the tree if and only if its calls
all return. The record of its calls is one of this run. -/
theorem transpileProto_isomorphic (H : HostApi A) (hH : H.Lawful) (rbxState : Addr)
    (vProto : Proto) (stringCache : Cache) (σ : TState A) :
    (∀ proto σ', transpileProto H rbxState vProto Cache.empty stringCache σ = .ok proto σ' →
        Completed H σ'.host vProto proto ∧ Frame H ∅ σ.host σ'.host
          ∧ ∀ q a, Completed H σ.host q a → Completed H σ'.host q a)
      ∧ (∀ f σ', transpileProto H rbxState vProto Cache.empty stringCache σ = .error f σ' →
          Frame H ∅ σ.host σ'.host
            ∧ (f = .raised → LastRaised (hostCalls H rbxState vProto stringCache σ))
            ∧ (f = .pastTable → ¬ OpcodesOk vProto))
      ∧ (OpcodesOk vProto → (AllReturned (hostCalls H rbxState vProto stringCache σ) ↔
          ∃ proto σ', transpileProto H rbxState vProto Cache.empty stringCache σ = .ok proto σ'))
      ∧ plainResult (transpileProto (recorded H) rbxState vProto Cache.empty stringCache (recording σ))
        = transpileProto H rbxState vProto Cache.empty stringCache σ := by
  let E : Fault → Prop := fun
    | .raised => True
    | .pastTable => ¬ OpcodesOk vProto
  have hops : OpcodesOk vProto ∨ E .pastTable := Classical.em _
  have h := segment_transpileProto (r := rbxState) (E := E) hH trivial vProto stringCache hops σ
    ⟨Set.empty_subset _, Set.empty_disjoint _⟩ trivial
  have hstops : ∀ f σ', transpileProto H rbxState vProto Cache.empty stringCache σ = .error f σ' →
      Frame H ∅ σ.host σ'.host
        ∧ (f = .raised → LastRaised (hostCalls H rbxState vProto stringCache σ))
        ∧ (f = .pastTable → ¬ OpcodesOk vProto) := by
    intro f σ' hrun
    rw [hrun] at h
    refine ⟨h.2.frame, ?_, ?_⟩
    · rintro rfl
      exact hostCalls_raised hrun
    · rintro rfl
      exact h.1
  refine ⟨fun proto σ' hrun => ?_, hstops, fun hok => ⟨fun hcalls => ?_, fun hbuilt => ?_⟩,
    transpileProto_recorded H rbxState vProto stringCache σ⟩
  · rw [hrun] at h
    obtain ⟨hstep, hbuilds⟩ := h
    obtain ⟨hframe, F, -, hown, hsec⟩ := hbuilds _ (compat_self σ')
    exact ⟨⟨F, hown, hsec.imp (fun s hs => isomorphic_of_transpiled hs)⟩, hframe,
      fun q a hq => hq.frame hH hframe⟩
  · cases hrun : transpileProto H rbxState vProto Cache.empty stringCache σ with
    | ok proto σ' => exact ⟨proto, σ', rfl⟩
    | error f σ' =>
      -- neither way out is open
      obtain ⟨-, hraised, hpast⟩ := hstops f σ' hrun
      cases f with
      | raised => exact absurd hcalls (hraised rfl).not_allReturned
      | pastTable => exact absurd hok (hpast rfl)
  · obtain ⟨proto, σ', hrun⟩ := hbuilt
    exact hostCalls_ok hrun

/-- A function with two children, upvalue names, line numbers and a constant of
each kind. -/
def sampleTree : Proto :=
  .mk 0x1000
    { source := luaS_newlstr [0x40, 0x73]
      k := [.nil, .boolean 1, .number 0x3FF0000000000000#64, .string (luaS_newlstr [0x67])]
      code := [CREATE_ABx OpCode.OP_CLOSURE.toWord 0 1, CREATE_ABC OpCode.OP_RETURN.toWord 0 1 0]
      lineinfo := [1, 2]
      upvalues := [luaS_newlstr [0x78], luaS_newlstr [0x79]]
      nups := 2
      numparams := 0
      is_vararg := 2
      maxstacksize := 4
      k_fits := by decide
      code_fits := by decide
      lineinfo_fits := by decide
      upvalues_fits := by decide }
    2 (by decide)
    (fun i => leafProto (0x2000 + BitVec.ofNat 32 i) (leafHead [.string (luaS_newlstr [0x67])]
      returnCode (by decide) returnCode_fits))

theorem opcodesOk_sampleTree : OpcodesOk sampleTree := by
  have hleaf : ∀ v ∈ returnCode, (OpCode.ofWord (GET_OPCODE v)).isSome := by
    intro v hv
    rw [List.mem_singleton.mp hv]
    decide
  refine ⟨?_, fun _ => ⟨hleaf, fun i => i.elim0⟩⟩
  show ∀ v ∈ [CREATE_ABx OpCode.OP_CLOSURE.toWord 0 1, CREATE_ABC OpCode.OP_RETURN.toWord 0 1 0], _
  simp only [List.forall_mem_cons]
  exact ⟨by decide, by decide, nofun⟩

/-- The sample on the bump host, in a memory full of stale bytes: all its calls of the
host return, so it is built. -/
theorem transpileProto_isomorphic_sample :
    ∃ proto σ', transpileProto (bumpHost 0) 0 sampleTree Cache.empty Cache.empty
        (freshProcess 0xAAAAAAAB 0xCC) = .ok proto σ'
      ∧ Completed (bumpHost 0) σ'.host sampleTree proto := by
  have hserved : ((hostCalls (bumpHost 0) 0 sampleTree Cache.empty
      (freshProcess 0xAAAAAAAB 0xCC)).all (fun c => c.returned)) = true := by decide +kernel
  obtain ⟨hok, -, hbuilt, -⟩ := transpileProto_isomorphic (bumpHost 0) (bumpHost_lawful 0) 0
    sampleTree Cache.empty (freshProcess 0xAAAAAAAB 0xCC)
  obtain ⟨proto, σ', hrun⟩ := (hbuilt opcodesOk_sampleTree).mp (List.all_eq_true.mp hserved)
  exact ⟨proto, σ', hrun, (hok proto σ' hrun).1⟩

end NostalgiaConv.HostTree
