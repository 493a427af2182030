/-
`TranspileProto` on a whole tree.

`NodeRep` says what a reader who starts at a host proto finds there, field by
field; `Transpiled` says it of a tree. Both are facts that last: the run that
establishes them for a node hands the node's addresses over, and nothing that
comes later writes there. The main result of this file is that every run that
ends normally leaves a tree of host protos isomorphic to the tree of protos, and
touches nothing that was live before; a run that does not end normally was
stopped by the host, or met an opcode field that names no opcode.
-/
import NostalgiaConv.Tables

set_option autoImplicit false

namespace NostalgiaConv.ProtoTree

open NostalgiaConv.ByteMem NostalgiaConv.Cipher NostalgiaConv.Instr NostalgiaConv.Opcodes
open NostalgiaConv.Host NostalgiaConv.Value NostalgiaConv.Transpile NostalgiaConv.Segments
open NostalgiaConv.Tables

variable {A : Type} {H : HostApi A} {r : Addr} {E : Fault → Prop}

/-! ## One host proto -/

/-- The scalar fields of a host proto and its chunk name. -/
structure HeaderRep (H : HostApi A) (vProto : ProtoHead) (proto : Addr) (s : HostState A) :
    Prop where
  source : H.isStr s (deref s.mem (proto + 0xC)) vProto.source.bytes
  maxstacksize : load8 s.mem (proto + 0x48) = vProto.maxstacksize
  is_vararg : load8 s.mem (proto + 0x4B) = vProto.is_vararg
  nups : load8 s.mem (proto + 0x4A) = vProto.nups
  numparams : load8 s.mem (proto + 0x49) = vProto.numparams

/-- The tables of a host proto, children apart. `stale` is the memory found by
the constant loop, `cache` and `cache'` the string cache before and after it, and
`key` the static encode key. -/
structure TablesRep (H : HostApi A) (key : Option Word) (stale : Mem 32) (cache cache' : Cache)
    (vProto : ProtoHead) (proto : Addr) (s : HostState A) : Prop where
  sizek : load32 s.mem (proto + 0x1C) = BitVec.ofNat 32 vProto.k.length
  constants : SlotsRep H stale (deref s.mem (proto + 0x20)) 0 vProto.k cache cache' s
  code : ∃ e, key = some e ∧ TableRep s.mem proto 0x18 0x34 vProto.code.length
    (fun i v => storedWord e (vProto.code.get i) (BitVec.ofNat 32 i) = some v)
  lineinfo : TableRep s.mem proto 0x24 0x40 vProto.lineinfo.length
    (fun i v => v = vProto.lineinfo.get i ^^^ (BitVec.ofNat 32 i <<< 8))
  upvalues : TableRep s.mem proto 0x28 0x14 vProto.upvalues.length
    (fun i v => H.isStr s v (vProto.upvalues.get i).bytes)

/-! ## The segments of one node -/

def headerFields : List (Nat × Nat) := [(0xC, 4), (0x48, 1), (0x4B, 1), (0x4A, 1), (0x49, 1)]

def tableFields : List (Nat × Nat) :=
  [(0x18, 4), (0x34, 4), (0x8, 4), (0x2C, 4), (0x24, 4), (0x40, 4), (0x28, 4), (0x14, 4)]

/-- The statements of `newProto` after the proto object was made. -/
theorem segment_header (hH : H.Lawful) (hE : E .raised) (vProto : ProtoHead) (proto : Addr) :
    Segment H r E (fun _ => True) (fields proto headerFields)
      (do
        let chunkName ← callHost (H.rbx_snewlstr r vProto.source.bytes)
        write32 (proto + 0xC) (chunkName - (proto + 0xC))
        write8 (proto + 0x48) vProto.maxstacksize
        write8 (proto + 0x4B) vProto.is_vararg
        write8 (proto + 0x4A) vProto.nups
        write8 (proto + 0x49) vProto.numparams
        pure proto)
      (fun _ a s => a = proto ∧ HeaderRep H vProto proto s) := by
  -- from the last statement backwards, one field at a time
  have hret : Segment H r E (fun _ => True) (fields proto []) (pure proto : TranspileM A Addr)
      (fun _ a _ => a = proto) := Segment.ret (fun _ _ => rfl)
  have hbytes := segment_bindFields hH (segment_field8 (H := H) (r := r) (E := E) proto 0x48
      vProto.maxstacksize) (fun _ =>
    segment_bindFields hH (segment_field8 proto 0x4B vProto.is_vararg) (fun _ =>
      segment_bindFields hH (segment_field8 proto 0x4A vProto.nups) (fun _ =>
        segment_bindFields hH (segment_field8 proto 0x49 vProto.numparams) (fun _ => hret)
          (by decide) localTo_true)
        (by decide) (fun _ _ _ h => h))
      (by decide) (fun _ _ _ h => h))
    (by decide) (fun _ _ _ h => h)
  refine Segment.imp ((Segment.mono ?_ (Segment.bind hH (Segment.snewlstr hH hE r
    vProto.source.bytes) (fun chunkName => segment_bindFields hH
      (segment_field32 proto 0xC (chunkName - (proto + 0xC))) (fun _ => hbytes)
      (by decide) (fun _ _ _ h => h)) (Set.empty_disjoint _) (fun _ _ _ h => h))).strengthen
    (fun _ _ => ⟨trivial, trivial, trivial, trivial, trivial, trivial, trivial⟩)) ?_
  · rw [Set.empty_union]
    exact subset_rfl
  · rintro e a s ⟨chunkName, hsource, _, hname, _, hmax, _, hvararg, _, hnups, _, hparams, rfl⟩
    -- the name is found through the pointer at `+0xC`
    have hderef : deref s.mem (a + 0xC) = chunkName := deref_of_load hname
    exact ⟨rfl, by rw [hderef]; exact hsource, hmax, hvararg, hnups, hparams⟩

/-- The counts that `rbx_fnewproto` zeroed and an empty table leaves alone. -/
def ZeroCounts (proto : Addr) (s : HostState A) : Prop :=
  ∀ off ∈ [0x2C, 0x40, 0x14], load32 s.mem (proto + BitVec.ofNat 32 off) = 0

theorem localTo_zeroCounts (proto : Addr) :
    LocalTo (A := A) (fields proto tableFields) (ZeroCounts proto) := by
  intro s s' hagree h off hoff
  have hmem : (off, 4) ∈ tableFields := by
    simp only [List.mem_cons, List.not_mem_nil, or_false] at hoff
    rcases hoff with rfl | rfl | rfl <;> decide
  exact (hagree.load_eq (block_subset_fields hmem)).trans (h off hoff)

variable {sizep : Nat} {child : Cache → Fin sizep → TranspileM A Word}
  {R : Cache → Fin sizep → Post A Word}

/-- The four tables after the constants. -/
theorem segment_laterTables (hH : H.Lawful) (hE : E .raised) (vProto : ProtoHead) (proto : Addr)
    (hops : (∀ v ∈ vProto.code, (OpCode.ofWord (GET_OPCODE v)).isSome) ∨ E .pastTable)
    (hsizep : 4 * sizep < 2 ^ 32) (cache : Cache)
    (hchild : ∀ i, Segment H r E (fun _ => True) ∅ (child cache i) (R cache i)) :
    Segment H r E (ZeroCounts proto) (fields proto tableFields)
      (do
        instructionTable H r proto vProto
        optionalTable H r proto 0x8 0x2C sizep (child cache)
        lineinfoTable H r proto vProto
        upvalueTable H r proto vProto)
      (fun key _ s =>
        (∃ e, key = some e ∧ TableRep s.mem proto 0x18 0x34 vProto.code.length
            (fun i v => storedWord e (vProto.code.get i) (BitVec.ofNat 32 i) = some v))
          ∧ TableRep s.mem proto 0x8 0x2C sizep (fun i v => R cache i key v s)
          ∧ TableRep s.mem proto 0x24 0x40 vProto.lineinfo.length
            (fun i v => v = vProto.lineinfo.get i ^^^ (BitVec.ofNat 32 i <<< 8))
          ∧ TableRep s.mem proto 0x28 0x14 vProto.upvalues.length
            (fun i v => H.isStr s v (vProto.upvalues.get i).bytes)) := by
  have hupvalues := segment_optionalTable (E := E) hH hE proto 0x28 0x14
    vProto.upvalues_fits (fun i => Segment.snewlstr (r := r) hH hE r
      (vProto.upvalues.get i).bytes) (by decide) (by decide) (by decide)
  have hline : ∀ i : Fin vProto.lineinfo.length,
      Segment H r E (fun _ => True) ∅ (pure (vProto.lineinfo.get i ^^^ (BitVec.ofNat 32 i <<< 8)))
        (fun _ v _ => v = vProto.lineinfo.get i ^^^ (BitVec.ofNat 32 i <<< 8)) :=
    fun _ => Segment.ret (fun _ _ => rfl)
  have hlineinfo := segment_optionalTable (E := E) (r := r) hH hE proto 0x24 0x40
    vProto.lineinfo_fits hline (by decide) (by decide) (by decide)
  have hchildren := segment_optionalTable hH hE proto 0x8 0x2C hsizep
    hchild (by decide) (by decide) (by decide)
  have hinstr := segment_instructionTable (r := r) hH hE proto vProto hops
  -- a count that is not written must still be zero when its table's turn comes
  have hzero : ∀ {l : List (Nat × Nat)} {off : Nat}, (off, 4) ∈ l →
      LocalTo (A := A) (fields proto l) (fun s => load32 s.mem (proto + BitVec.ofNat 32 off) = 0) :=
    fun h => localTo_field32 h 0
  refine Segment.imp ((segment_bindFields hH hinstr (fun _ => segment_bindFields hH hchildren
    (fun _ => segment_bindFields hH hlineinfo (fun _ => hupvalues) (by decide)
      (hzero (by decide))) (by decide)
      (LocalTo.and (hzero (by decide)) (hzero (by decide)))) (by decide)
      (LocalTo.and (hzero (by decide))
        (LocalTo.and (hzero (by decide)) (hzero (by decide))))).strengthen
    (fun s h => ⟨trivial, h 0x2C (by decide), h 0x40 (by decide), h 0x14 (by decide)⟩)) ?_
  rintro e _ s ⟨_, hcode, _, hkids, _, hlines, hups⟩
  exact ⟨hcode, hkids, hlines, hups⟩

/-- Everything after the block for the constants was allocated. -/
theorem segment_transpileTables (hH : H.Lawful) (hE : E .raised) (vProto : ProtoHead)
    (proto constantTable : Addr) (stale : Mem 32) (cache : Cache)
    (hops : (∀ v ∈ vProto.code, (OpCode.ofWord (GET_OPCODE v)).isSome) ∨ E .pastTable)
    (hsizep : 4 * sizep < 2 ^ 32)
    (hdis : Disjoint (block proto PROTO_SIZE) (block constantTable (16 * vProto.k.length)))
    (hchild : ∀ cache i, Segment H r E (fun _ => True) ∅ (child cache i) (R cache i)) :
    Segment H r E
      (fun s => AgreeOn (block constantTable (16 * vProto.k.length)) stale s.mem
        ∧ ZeroCounts proto s)
      (fields proto ([(0x1C, 4)] ++ [(0x20, 4)] ++ tableFields)
        ∪ block constantTable (16 * vProto.k.length))
      (transpileTables H r proto constantTable vProto cache sizep child)
      (fun e _ s => deref s.mem (proto + 0x20) = constantTable
        ∧ ∃ cache', TablesRep H e stale cache cache' vProto proto s
          ∧ TableRep s.mem proto 0x8 0x2C sizep (fun i v => R cache' i e v s)) := by
  -- no field of the proto lies in the block of constants
  have hk : ∀ l : List (Nat × Nat), (∀ p ∈ l, p.1 + p.2 ≤ PROTO_SIZE) →
      Disjoint (fields proto l) (block constantTable (16 * vProto.k.length)) :=
    fun l hl => hdis.mono_left (fields_subset_block hl)
  have hloop := segment_constantLoop (r := r) (E := E) hH hE constantTable stale vProto.k 0 cache
    (by have := vProto.k_fits; omega)
  rw [Nat.mul_zero, BitVec.add_zero] at hloop
  have hafter := Segment.bind hH hloop (fun cache' => segment_laterTables hH hE vProto proto hops
    hsizep cache' (hchild cache')) (hk _ (by decide)).symm (localTo_zeroCounts proto)
  -- what the two stores before the loop must leave alone
  have hpre := LocalTo.and
    (LocalTo.mono (W := block constantTable (16 * vProto.k.length)) Set.subset_union_left
      (localTo_agreeOn stale))
    (LocalTo.mono Set.subset_union_right (localTo_zeroCounts (A := A) proto))
  have hfields : ∀ l, (∀ p ∈ l, p.1 + p.2 ≤ PROTO_SIZE) →
      (∀ p ∈ l, ∀ q ∈ tableFields, p.1 + p.2 ≤ q.1 ∨ q.1 + q.2 ≤ p.1) →
      Disjoint (fields proto l) (block constantTable (16 * vProto.k.length)
        ∪ fields proto tableFields) :=
    fun l hl h => (hk l hl).union_right (disjoint_fields hl (by decide) h)
  have hdisC : Disjoint (fields proto [(0x1C, 4)]) (fields proto [(0x20, 4)]
      ∪ (block constantTable (16 * vProto.k.length) ∪ fields proto tableFields)) :=
    (disjoint_fields (by decide) (by decide) (by decide)).union_right
      (hfields _ (by decide) (by decide))
  unfold transpileTables
  refine Segment.imp ((Segment.mono ?_ (Segment.bind hH (segment_field32 proto 0x1C _) (fun _ =>
    Segment.bind hH (segment_field32 proto 0x20 _) (fun _ => hafter)
      (hfields _ (by decide) (by decide)) hpre) hdisC
      (LocalTo.and localTo_true (LocalTo.mono Set.subset_union_right hpre)))).strengthen
    (fun s h => ⟨trivial, trivial, h⟩)) ?_
  · rw [fields_append, fields_append]
    rintro x (hx | hx | hx | hx)
    · exact Or.inl (Or.inl (Or.inl hx))
    · exact Or.inl (Or.inl (Or.inr hx))
    · exact Or.inr hx
    · exact Or.inl (Or.inr hx)
  · rintro e _ s ⟨_, hsizek, _, hpointer, cache', hslots, hcode, hkids, hlines, hups⟩
    have hderef : deref s.mem (proto + 0x20) = constantTable := deref_of_load hpointer
    refine ⟨hderef, cache', ⟨hsizek, ?_, hcode, hlines, hups⟩, hkids⟩
    rw [hderef]
    exact hslots

/-! ## One node -/

/-- The proto object is fresh, and everything after its allocation is a segment. -/
theorem newProto_spec (hH : H.Lawful) (hE : E .raised) (vProto : ProtoHead) (σ : TState A) :
    match newProto H r vProto σ with
    | .ok proto σ' => ∃ s₁, Alloc H σ.host s₁ proto PROTO_SIZE ∧ ZeroCounts proto s₁
        ∧ Step H r (fields proto headerFields) { σ with host := s₁ } σ'
        ∧ Builds H (fields proto headerFields) s₁ σ'.host (HeaderRep H vProto proto)
    | .error f σ' => E f ∧ Step H r ∅ σ σ' := by
  unfold newProto
  rw [run_bind]
  cases hrun : H.rbx_fnewproto r σ.host with
  | error f s =>
    rw [callHost_error hrun]
    exact ⟨hE, Step.of_frame (hH.fnewproto_error hrun) rfl⟩
  | ok proto s₁ =>
    obtain ⟨halloc, hzero⟩ := hH.fnewproto_ok hrun
    have hsub : fields proto headerFields ⊆ block proto PROTO_SIZE :=
      fields_subset_block (by decide)
    have h := segment_header (r := r) hH hE vProto proto { σ with host := s₁ }
      (halloc.owned.mono hsub) trivial
    -- `rbx_fnewproto` has zeroed the counts, the header does not touch them
    have hcounts : ZeroCounts proto s₁ := by
      intro off hoff
      refine hzero off ?_
      simp only [List.mem_cons, List.not_mem_nil, or_false] at hoff ⊢
      omega
    rw [callHost_ok hrun]
    dsimp only
    split
    next a σ' hrun2 =>
      rw [hrun2] at h
      have hheader := h.2 _ (compat_self σ')
      obtain ⟨rfl, -⟩ := hheader.holds
      exact ⟨s₁, halloc, hcounts, h.1, hheader.imp (fun _ hs => hs.2)⟩
    next f σ' hrun2 =>
      rw [hrun2] at h
      have hpre : Step H r (fields proto headerFields) σ { σ with host := s₁ } :=
        Step.of_frame (halloc.frame.mono (Set.empty_subset _)) rfl
      have hstep := hpre.trans h.2
      -- the object was not there before, so nothing that was has changed
      rw [← Set.empty_union (fields proto headerFields)] at hstep
      exact ⟨h.1, hstep.drop (halloc.fresh.mono_left hsub)⟩

/-- What a reader finds at a node whose constants were written over `stale` into
`constantTable`; `R` describes the children. -/
def NodeRep (H : HostApi A) (key : Option Word) (stale : Mem 32) (cache : Cache) (vProto : ProtoHead)
    (sizep : Nat) (R : Cache → Fin sizep → Post A Word) (constantTable proto : Addr)
    (s : HostState A) : Prop :=
  HeaderRep H vProto proto s
    ∧ deref s.mem (proto + 0x20) = constantTable
    ∧ ∃ cache', TablesRep H key stale cache cache' vProto proto s
      ∧ TableRep s.mem proto 0x8 0x2C sizep (fun i v => R cache' i key v s)

/-- A node: the two allocations it starts with, and what it leaves. -/
theorem transpileNode_spec (hH : H.Lawful) (hE : E .raised) (vProto : ProtoHead) (cache : Cache)
    (hops : (∀ v ∈ vProto.code, (OpCode.ofWord (GET_OPCODE v)).isSome) ∨ E .pastTable)
    (hsizep : 4 * sizep < 2 ^ 32)
    (hchild : ∀ cache i, Segment H r E (fun _ => True) ∅ (child cache i) (R cache i))
    (σ : TState A) :
    match transpileNode H r vProto cache sizep child σ with
    | .ok proto σ' => Step H r ∅ σ σ' ∧ ∃ σ₁ σₘ constantTable,
        newProto H r vProto σ = .ok proto σ₁
          ∧ newConstantTable H r vProto σ₁ = .ok constantTable σₘ
          ∧ ∀ key, Compat σ' key → Builds H ∅ σ.host σ'.host
              (NodeRep H key σₘ.host.mem cache vProto sizep R constantTable proto)
    | .error f σ' => E f ∧ Step H r ∅ σ σ' := by
  have h1 := newProto_spec (r := r) hH hE vProto σ
  unfold transpileNode
  rw [run_bind]
  cases hrun1 : newProto H r vProto σ with
  | error f σ₁ =>
    rw [hrun1] at h1
    exact h1
  | ok proto σ₁ =>
    rw [hrun1] at h1
    obtain ⟨s₁, halloc, hcounts, hstep1, hheader⟩ := h1
    have hk : (BitVec.ofNat 32 (16 * vProto.k.length)).toNat = 16 * vProto.k.length :=
      toNat_ofNat_of_lt vProto.k_fits
    have hheaderSub : fields proto headerFields ⊆ block proto PROTO_SIZE :=
      fields_subset_block (by decide)
    have htableSub : fields proto ([(0x1C, 4)] ++ [(0x20, 4)] ++ tableFields)
        ⊆ block proto PROTO_SIZE := fields_subset_block (by decide)
    -- the object is the transpiler's from its allocation on
    have hP : Owned H (block proto PROTO_SIZE) σ₁.host := hstep1.frame.owned halloc.owned
    have hstart : Step H r (block proto PROTO_SIZE) σ { σ with host := s₁ } :=
      Step.of_frame (halloc.frame.mono (Set.empty_subset _)) rfl
    have hpre : Step H r (block proto PROTO_SIZE) σ σ₁ := hstart.trans (hstep1.mono hheaderSub)
    dsimp only
    rw [run_bind]
    cases hrun2 : H.rbx_malloc r 0 0 (BitVec.ofNat 32 (16 * vProto.k.length)) σ₁.host with
    | error f s =>
      have hmalloc : newConstantTable H r vProto σ₁ = .error .raised { σ₁ with host := s } :=
        callHost_error hrun2
      rw [hmalloc]
      have hstep : Step H r (block proto PROTO_SIZE) σ₁ { σ₁ with host := s } :=
        Step.of_frame ((hH.malloc_error hrun2).mono (Set.empty_subset _)) rfl
      have hall := hpre.trans hstep
      rw [← Set.empty_union (block proto PROTO_SIZE)] at hall
      exact ⟨hE, hall.drop halloc.fresh⟩
    | ok constantTable sₘ =>
      have hmalloc : newConstantTable H r vProto σ₁ = .ok constantTable { σ₁ with host := sₘ } :=
        callHost_ok hrun2
      have halloc2 := hH.malloc_ok hrun2
      rw [hk] at halloc2
      have hdis : Disjoint (block proto PROTO_SIZE) (block constantTable (16 * vProto.k.length)) :=
        halloc2.disjoint hP.live
      -- the counts are still zero after the header and the second allocation
      have hcountsₘ : ZeroCounts proto sₘ := by
        have hcounts₁ := (localTo_zeroCounts proto).frame hstep1.frame
          ((fields_subset_block (by decide)).trans halloc.owned.live)
          (disjoint_fields (by decide) (by decide) (by decide)) hcounts
        exact (localTo_zeroCounts proto).frame halloc2.frame
          ((fields_subset_block (by decide)).trans hP.live) (Set.disjoint_empty _) hcounts₁
      have h3 := segment_transpileTables (r := r) hH hE vProto proto constantTable sₘ.mem cache
        hops hsizep hdis hchild { σ₁ with host := sₘ }
        ((halloc2.frame.owned (hP.mono htableSub)).union halloc2.owned)
        ⟨AgreeOn.refl _ _, hcountsₘ⟩
      -- both blocks are new, so the whole changes nothing that was live before
      have hboth : ∀ {σ' : TState A}, Step H r
            (fields proto ([(0x1C, 4)] ++ [(0x20, 4)] ++ tableFields)
              ∪ block constantTable (16 * vProto.k.length)) { σ₁ with host := sₘ } σ' →
          Step H r ∅ σ σ' := by
        intro σ' hstep
        have hmid : Step H r (block proto PROTO_SIZE ∪ block constantTable (16 * vProto.k.length))
            σ₁ { σ₁ with host := sₘ } :=
          Step.of_frame (halloc2.frame.mono (Set.empty_subset _)) rfl
        have hall := ((hpre.mono Set.subset_union_left).trans hmid).trans
          (hstep.mono (Set.union_subset_union_left _ htableSub))
        rw [← Set.empty_union (block proto PROTO_SIZE ∪ _)] at hall
        exact hall.drop (halloc.fresh.union_left (halloc2.fresh.mono_right hpre.frame.live))
      rw [hmalloc]
      dsimp only
      rw [run_bind]
      cases hrun3 : transpileTables H r proto constantTable vProto cache sizep child
          { σ₁ with host := sₘ } with
      | error f σ' =>
        rw [hrun3] at h3
        exact ⟨h3.1, hboth h3.2⟩
      | ok u σ' =>
        rw [hrun3] at h3
        refine ⟨hboth h3.1, σ₁, { σ₁ with host := sₘ }, constantTable, rfl, hmalloc,
          fun e he => ?_⟩
        -- from the block of constants on, then from the proto object on, then the whole
        have htables := ((h3.2 e he).after (halloc2.frame.mono (Set.empty_subset _))).drop
          halloc2.fresh
        have hnode := (hheader.seq hH htables (halloc.owned.mono htableSub)
          (disjoint_fields (by decide) (by decide) (by decide))).mono
            (Set.union_subset hheaderSub htableSub)
        rw [← Set.empty_union (block proto PROTO_SIZE)] at hnode
        exact (hnode.after (halloc.frame.mono (Set.empty_subset _))).drop halloc.fresh

/-- A node writes nothing that was live before. -/
theorem segment_transpileNode (hH : H.Lawful) (hE : E .raised) (vProto : ProtoHead)
    (cache : Cache)
    (hops : (∀ v ∈ vProto.code, (OpCode.ofWord (GET_OPCODE v)).isSome) ∨ E .pastTable)
    (hsizep : 4 * sizep < 2 ^ 32)
    (hchild : ∀ cache i, Segment H r E (fun _ => True) ∅ (child cache i) (R cache i)) :
    Segment H r E (fun _ => True) ∅ (transpileNode H r vProto cache sizep child)
      (fun e proto s => ∃ stale constantTable,
        NodeRep H e stale cache vProto sizep R constantTable proto s) := by
  intro σ _ _
  have h := transpileNode_spec (r := r) hH hE vProto cache hops hsizep hchild σ
  cases hrun : transpileNode H r vProto cache sizep child σ with
  | error f σ' =>
    rw [hrun] at h
    exact h
  | ok proto σ' =>
    rw [hrun] at h
    obtain ⟨hstep, σ₁, σₘ, constantTable, -, -, hbuilds⟩ := h
    exact ⟨hstep, fun e he => (hbuilds e he).imp (fun s hs => ⟨σₘ.host.mem, constantTable, hs⟩)⟩

/-! ## The tree -/

/-- A host proto that is the translation of a proto, children included, under
the static key `key`. -/
inductive Transpiled (H : HostApi A) (key : Option Word) (s : HostState A) :
    Cache → Proto → Addr → Prop where
  | node {self proto : Addr} {vProto : ProtoHead} {sizep : Nat} {p_fits : 4 * sizep < 2 ^ 32}
      {p : Fin sizep → Proto} {stale : Mem 32} {cache cache' : Cache}
      (header : HeaderRep H vProto proto s)
      (tables : TablesRep H key stale cache cache' vProto proto s)
      (count : load32 s.mem (proto + 0x2C) = BitVec.ofNat 32 sizep)
      (children : ∀ i : Fin sizep, Transpiled H key s cache' (p i)
        (load32 s.mem (deref s.mem (proto + 0x8) + BitVec.ofNat 32 (4 * i)))) :
      Transpiled H key s cache (.mk self vProto sizep p_fits p) proto

/-- Every instruction word of the tree names an opcode. -/
def OpcodesOk : Proto → Prop
  | .mk _ vProto sizep _ p =>
    (∀ v ∈ vProto.code, (OpCode.ofWord (GET_OPCODE v)).isSome) ∧ ∀ i : Fin sizep, OpcodesOk (p i)

/-- No call ever finds its proto in the cache: nobody's additions reach it. -/
theorem transpileProto_empty (self : Addr) (vProto : ProtoHead) (sizep : Nat)
    (p_fits : 4 * sizep < 2 ^ 32) (p : Fin sizep → Proto) (cache : Cache) :
    transpileProto H r (.mk self vProto sizep p_fits p) Cache.empty cache
      = transpileNode H r vProto cache sizep
          (fun cache i => transpileProto H r (p i) Cache.empty cache) := by
  rw [transpileProto]
  rfl

/-- `TranspileProto` from an empty proto cache, by induction on the tree. -/
theorem segment_transpileProto (hH : H.Lawful) (hE : E .raised) (vProto : Proto) :
    ∀ cache, (OpcodesOk vProto ∨ E .pastTable) →
      Segment H r E (fun _ => True) ∅ (transpileProto H r vProto Cache.empty cache)
        (fun key proto s => Transpiled H key s cache vProto proto) := by
  induction vProto with
  | mk self vProto sizep p_fits p ih =>
    intro cache hops
    have hhead : (∀ v ∈ vProto.code, (OpCode.ofWord (GET_OPCODE v)).isSome) ∨ E .pastTable :=
      hops.imp_left (fun h => h.1)
    have hchild : ∀ cache i, Segment H r E (fun _ => True) ∅
        (transpileProto H r (p i) Cache.empty cache)
        (fun key proto s => Transpiled H key s cache (p i) proto) :=
      fun cache i => ih i cache (hops.imp_left (fun h => h.2 i))
    rw [transpileProto_empty]
    refine (segment_transpileNode hH hE vProto cache hhead p_fits hchild).imp ?_
    rintro key proto s ⟨stale, constantTable, hheader, -, cache', htables, hcount, hkids⟩
    exact Transpiled.node hheader htables hcount hkids

end NostalgiaConv.ProtoTree
