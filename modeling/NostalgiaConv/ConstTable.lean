/-
The constant table as the host reads it.

Two translators of one constant exist: the constant loop of `TranspileProto`,
which writes into a block as `rbx_malloc` returned it, and `transpileConstant` of
the VM. Nil and numbers agree. A boolean is written with a store of one byte and
read as an `int`, so it is right only where the other three bytes happen to be.
A string is looked up by its hash alone, so it is right only where no other
string of the same hash came first.
-/
import NostalgiaConv.BumpHost
import NostalgiaConv.ProtoTree

set_option autoImplicit false

namespace NostalgiaConv.ConstTable

open NostalgiaConv.ByteMem NostalgiaConv.Cipher NostalgiaConv.Opcodes NostalgiaConv.Host
open NostalgiaConv.Value NostalgiaConv.Transpile NostalgiaConv.Segments NostalgiaConv.Tables
open NostalgiaConv.ProtoTree NostalgiaConv.BumpHost

variable {A : Type} {H : HostApi A} {r : Addr}

/-! ## One run of `TranspileProto` -/

/-- What a run on a proto that is not cached leaves at its root. -/
theorem transpileProto_root (hH : H.Lawful) {self : Addr} {vProto : ProtoHead} {sizep : Nat}
    {p_fits : 4 * sizep < 2 ^ 32} {p : Fin sizep → Proto} {cache : Cache} {σ σ' : TState A}
    {proto : Addr}
    (hrun : transpileProto H r (.mk self vProto sizep p_fits p) Cache.empty cache σ
      = .ok proto σ') :
    Frame H ∅ σ.host σ'.host ∧ ∃ σ₁ σₘ constantTable,
      newProto H r vProto σ = .ok proto σ₁
        ∧ newConstantTable H r vProto σ₁ = .ok constantTable σₘ
        ∧ deref σ'.host.mem (proto + 0x20) = constantTable
        ∧ ∃ cache', SlotsRep H σₘ.host.mem constantTable 0 vProto.k cache cache' σ'.host := by
  let E : Fault → Prop := fun _ => True
  have h := transpileNode_spec (r := r) (E := E) hH trivial vProto cache (Or.inr trivial) p_fits
    (fun cache i => segment_transpileProto (r := r) hH trivial (p i) cache (Or.inr trivial)) σ
  rw [transpileProto_empty] at hrun
  rw [hrun] at h
  obtain ⟨hstep, σ₁, σₘ, constantTable, hnew, hmalloc, hbuilds⟩ := h
  obtain ⟨-, hderef, cache', htables, -⟩ := (hbuilds _ (compat_self σ')).holds
  refine ⟨hstep.frame, σ₁, σₘ, constantTable, hnew, hmalloc, hderef, cache', ?_⟩
  rw [← hderef]
  exact htables.constants

/-! ## Strings -/

/-- The slot of constant `i` of the host proto `proto`. -/
def constantSlotOf (s : HostState A) (proto : Addr) (i : Nat) : Addr :=
  deref s.mem (proto + 0x20) + BitVec.ofNat 32 (16 * i)

/-- Slot `i` is a string with these bytes. -/
def StringSlot (H : HostApi A) (s : HostState A) (proto : Addr) (i : Nat) (bytes : List Byte) :
    Prop :=
  load32 s.mem (constantSlotOf s proto i + 8) = RBX_TYPE_STRING
    ∧ H.isStr s (load32 s.mem (constantSlotOf s proto i)) bytes

/-- Every entry of the cache is some host string: what a `ProtoConversion`
starts with, and what each constant loop passes on. -/
def CacheOk (H : HostApi A) (s : HostState A) (cache : Cache) : Prop :=
  ∀ key a, cache key = some a → ∃ bytes, H.isStr s a bytes

theorem cacheOk_empty (s : HostState A) : CacheOk H s Cache.empty :=
  fun _ _ h => absurd h (by simp [Cache.empty])

/-- The children of a node start from a cache of host strings too. -/
theorem CacheOk.slots (hH : H.Lawful) {stale : Mem 32} {constantTable : Addr} {start : Nat}
    {k : List Constant} {cache cache' : Cache} {s s' : HostState A} (hf : Frame H ∅ s s')
    (h : CacheOk H s cache) (hslots : SlotsRep H stale constantTable start k cache cache' s') :
    CacheOk H s' cache' := by
  intro key a ha
  rcases hslots.origin ha with ha | ⟨ts, -, -, hstr⟩
  · obtain ⟨bytes, hbytes⟩ := h key a ha
    exact ⟨bytes, hf.isStr hH (Set.empty_disjoint _) hbytes⟩
  · exact ⟨ts.bytes, hstr⟩

/-- **A string constant is right exactly when its hash is its own.** After a run
every string slot holds the bytes of its constant if and only if the cache had no
other string under the hash of one of them, and no two of them share a hash. -/
theorem string_slots_iff (H : HostApi A) (hH : H.Lawful) (rbxState self : Addr)
    (vProto : ProtoHead) (sizep : Nat) (p_fits : 4 * sizep < 2 ^ 32) (p : Fin sizep → Proto)
    (stringCache : Cache) (σ σ' : TState A) (proto : Addr) (hcache : CacheOk H σ.host stringCache)
    (hrun : transpileProto H rbxState (.mk self vProto sizep p_fits p) Cache.empty stringCache σ
      = .ok proto σ') :
    (∀ (i : Nat) (hi : i < vProto.k.length) (ts : TString), vProto.k[i] = .string ts →
        StringSlot H σ'.host proto i ts.bytes)
      ↔ (∀ ts a, .string ts ∈ vProto.k → stringCache ts.hash = some a → H.isStr σ.host a ts.bytes)
        ∧ ∀ ts ts', .string ts ∈ vProto.k → .string ts' ∈ vProto.k → ts.hash = ts'.hash →
            ts.bytes = ts'.bytes := by
  obtain ⟨hframe, σ₁, σₘ, constantTable, -, -, hderef, cache', hslots⟩ :=
    transpileProto_root hH hrun
  have hlater : ∀ {a : Addr} {bytes : List Byte}, H.isStr σ.host a bytes → H.isStr σ'.host a bytes :=
    fun h => hframe.isStr hH (Set.empty_disjoint _) h
  have hslot : ∀ (i : Nat) (hi : i < vProto.k.length) (ts : TString), vProto.k[i] = .string ts →
      load32 σ'.host.mem (constantSlotOf σ'.host proto i + 8) = RBX_TYPE_STRING
        ∧ cache' ts.hash = some (load32 σ'.host.mem (constantSlotOf σ'.host proto i)) := by
    intro i hi ts hts
    rw [constantSlotOf, hderef]
    exact hslots.string hi hts
  constructor
  · intro hright
    have hcached : ∀ ts a, .string ts ∈ vProto.k → cache' ts.hash = some a →
        H.isStr σ'.host a ts.bytes := by
      intro ts a hts ha
      obtain ⟨i, hi, hki⟩ := List.getElem_of_mem hts
      have hload := (hslot i hi ts hki).2
      rw [ha] at hload
      rw [Option.some.inj hload]
      exact (hright i hi ts hki).2
    -- the cache at the end extends the one at the start, and has one string a hash
    refine ⟨fun ts a hts ha => ?_, fun ts ts' hts hts' hhash => ?_⟩
    · obtain ⟨bytes, hbytes⟩ := hcache _ _ ha
      have hsame := hH.isStr_unique (hlater hbytes) (hcached ts a hts (hslots.mono ha))
      rw [← hsame]
      exact hbytes
    · obtain ⟨i, hi, hki⟩ := List.getElem_of_mem hts
      have hload := (hslot i hi ts hki).2
      have hload' := hload
      rw [hhash] at hload'
      exact hH.isStr_unique (hcached ts _ hts hload) (hcached ts' _ hts' hload')
  · rintro ⟨hcached, hhashes⟩ i hi ts hki
    obtain ⟨htag, hload⟩ := hslot i hi ts hki
    have hts : .string ts ∈ vProto.k := hki ▸ List.getElem_mem hi
    refine ⟨htag, ?_⟩
    -- the slot's string was in the cache before, or was made for a constant of this hash
    rcases hslots.origin hload with ha | ⟨ts', hts', hhash, hstr⟩
    · exact hlater (hcached ts _ hts ha)
    · rw [hhashes ts ts' hts hts' hhash.symm]
      exact hstr

def shortStrings : ProtoHead :=
  leafHead [.string (luaS_newlstr [0x61, 0x62]), .string (luaS_newlstr [0x63])] []
    (by decide) noWords_fit

/-- Two short strings, and an empty cache. -/
theorem string_slots_iff_short :
    ∃ proto σ', transpileProto (bumpHost 0) 0 (leafProto 0x1000 shortStrings) Cache.empty
        Cache.empty (freshProcess 0xAAAAAAAB 0xCC) = .ok proto σ'
      ∧ ∀ (i : Nat) (hi : i < shortStrings.k.length) (ts : TString),
          shortStrings.k[i] = .string ts → StringSlot (bumpHost 0) σ'.host proto i ts.bytes := by
  have hended : ended (transpileProto (bumpHost 0) 0 (leafProto 0x1000 shortStrings) Cache.empty
      Cache.empty (freshProcess 0xAAAAAAAB 0xCC)) = true := by decide +kernel
  obtain ⟨proto, σ', hrun⟩ := exists_of_ended hended
  refine ⟨proto, σ', hrun, (string_slots_iff (bumpHost 0) (bumpHost_lawful 0) 0 0x1000 shortStrings
    0 (by decide) (fun i => i.elim0) Cache.empty _ σ' proto (cacheOk_empty _) hrun).mpr ⟨?_, ?_⟩⟩
  · intro ts a _ ha
    exact absurd ha (by simp [Cache.empty])
  · have hhash : (luaS_newlstr [0x61, 0x62]).hash ≠ (luaS_newlstr [0x63]).hash := by decide
    intro ts ts' hts hts' heq
    simp only [shortStrings, leafHead, List.mem_cons, List.not_mem_nil, or_false,
      Constant.string.injEq] at hts hts'
    rcases hts with rfl | rfl <;> rcases hts' with rfl | rfl
    · rfl
    · exact absurd heq hhash
    · exact absurd heq hhash.symm
    · rfl

def longString : List Byte := List.replicate 32 0x61

def longSibling : List Byte := longString.set 30 0x62

def longStrings : ProtoHead :=
  leafHead [.string (luaS_newlstr longString), .string (luaS_newlstr longSibling)] []
    (by decide) noWords_fit

/-- Two strings of 32 bytes that differ in the last byte but one, which the hash
skips: the second constant becomes the first. -/
theorem string_slots_collision :
    ∃ proto σ', transpileProto (bumpHost 0) 0 (leafProto 0x1000 longStrings) Cache.empty
        Cache.empty (freshProcess 0xAAAAAAAB 0xCC) = .ok proto σ'
      ∧ longStrings.k[1]? = some (.string (luaS_newlstr longSibling))
      ∧ ¬ StringSlot (bumpHost 0) σ'.host proto 1 longSibling := by
  let run := transpileProto (bumpHost 0) 0 (leafProto 0x1000 longStrings) Cache.empty Cache.empty
    (freshProcess 0xAAAAAAAB 0xCC)
  -- character 30 of the string in slot 1
  let character : EStateM.Result Fault (TState Bump) Addr → Byte := fun
    | .ok proto σ' => σ'.host.mem
        (load32 σ'.host.mem (constantSlotOf σ'.host proto 1) + 16 + BitVec.ofNat 32 30)
    | .error _ _ => 0
  have hended : ended run = true := by decide +kernel
  have hcharacter : character run = 0x61 := by decide +kernel
  obtain ⟨proto, σ', hrun⟩ := exists_of_ended hended
  refine ⟨proto, σ', hrun, rfl, ?_⟩
  rintro ⟨-, -, -, -, hbytes⟩
  rw [hrun] at hcharacter
  have h := (hbytes 30 (by decide)).symm.trans hcharacter
  exact absurd h (by decide)

/-! ## Nil, booleans and numbers -/

/-- The stale word in the slot and the boolean `b` fit: `b` is its own truth value
in its low byte, and the three bytes above are there already. -/
def StaleFits (stale b : Word) : Prop :=
  b &&& 0xFF = (if b = 0 then 0 else 1) ∧ stale >>> 8 = b >>> 8

/-- A word is its low byte and the three bytes above. -/
theorem word_eq_iff (x b : Word) : x = b ↔ x &&& 0xFF = b &&& 0xFF ∧ x >>> 8 = b >>> 8 := by
  refine ⟨fun h => by rw [h]; exact ⟨rfl, rfl⟩, fun ⟨hlow, hhigh⟩ => ?_⟩
  have hmask : ∀ i < 32, (0xFF : Word).getLsbD i = decide (i < 8) := by decide
  apply BitVec.eq_of_getLsbD_eq
  intro i hi
  by_cases h8 : i < 8
  · have hbit := congrArg (fun y : Word => y.getLsbD i) hlow
    simpa only [BitVec.getLsbD_and, hmask i hi, decide_eq_true h8, Bool.and_true] using hbit
  · have hbit := congrArg (fun y : Word => y.getLsbD (i - 8)) hhigh
    simpa only [BitVec.getLsbD_ushiftRight, Nat.add_sub_cancel' (Nat.not_lt.mp h8)] using hbit

theorem low_load_store8 (m : Mem 32) (a : Addr) (v : Byte) :
    load32 (store8 m a v) a &&& 0xFF = v.setWidth 32 := by
  have hmask : ∀ i < 32, (0xFF : Word).getLsbD i = decide (i < 8) := by decide
  apply BitVec.eq_of_getLsbD_eq
  intro i hi
  have hload : (load32 (store8 m a v) a).getLsbD i = _ :=
    getLsbD_load_store (n := 1) (k := 4) (by decide) m a v (by omega)
  rw [BitVec.getLsbD_and, hmask i hi, hload, BitVec.getLsbD_setWidth]
  by_cases h8 : i < 8
  · simp [h8, hi]
  · simp [h8, BitVec.getLsbD_of_ge v i (by omega)]

theorem high_load_store8 (m : Mem 32) (a : Addr) (v : Byte) :
    load32 (store8 m a v) a >>> 8 = load32 m a >>> 8 := by
  apply BitVec.eq_of_getLsbD_eq
  intro i hi
  rw [BitVec.getLsbD_ushiftRight, BitVec.getLsbD_ushiftRight]
  by_cases h24 : 8 + i < 32
  · have hload : (load32 (store8 m a v) a).getLsbD (8 + i) = _ :=
      getLsbD_load_store (n := 1) (k := 4) (by decide) m a v (by omega)
    rw [hload, if_neg (by omega)]
    rfl
  · rw [BitVec.getLsbD_of_ge _ _ (by omega), BitVec.getLsbD_of_ge _ _ (by omega)]

/-- A store of one byte makes the word `b` exactly where the rest fits. -/
theorem load_store8_eq_iff (m : Mem 32) (a : Addr) (b : Word) :
    load32 (store8 m a (if b = 0 then 0 else 1)) a = b ↔ StaleFits (load32 m a) b := by
  have htruth : (if b = 0 then 0 else 1 : Byte).setWidth 32 = (if b = 0 then 0 else 1 : Word) := by
    by_cases hb : b = 0
    · rw [if_pos hb, if_pos hb]
      rfl
    · rw [if_neg hb, if_neg hb]
      rfl
  rw [word_eq_iff, low_load_store8, high_load_store8, htruth, StaleFits, eq_comm]

/-- The value of a constant that needs no host string. -/
def plainView (H : HostApi A) : Constant → RbxValue
  | .boolean b => .boolean b
  | .number num => .number (numberXor H num)
  | _ => .nil

theorem transpileConstant_view {pConst : Constant} (hstring : ∀ ts, pConst ≠ .string ts)
    {s s' : HostState A} {v : TValue} (hv : transpileConstant H r pConst s = .ok v s') :
    v.view = plainView H pConst := by
  cases pConst with
  | string ts => exact absurd rfl (hstring ts)
  | nil =>
    obtain ⟨rfl, -⟩ : _ = v ∧ s = s' := EStateM.Result.ok.inj hv
    rfl
  | boolean b =>
    obtain ⟨rfl, -⟩ : _ = v ∧ s = s' := EStateM.Result.ok.inj hv
    exact congrArg RbxValue.boolean (word_setWord 0 b RBX_TYPE_BOOLEAN)
  | number num =>
    obtain ⟨rfl, -⟩ : _ = v ∧ s = s' := EStateM.Result.ok.inj hv
    rfl

/-- **A constant is right exactly where the stale bytes fit.** The slot of a nil,
boolean or number constant reads as the value `transpileConstant` returns for it,
except for a boolean in a block whose stale bytes do not fit it. -/
theorem constant_slot_iff (H : HostApi A) (hH : H.Lawful) (rbxState self : Addr)
    (vProto : ProtoHead) (sizep : Nat) (p_fits : 4 * sizep < 2 ^ 32) (p : Fin sizep → Proto)
    (stringCache : Cache) (σ σ' : TState A) (proto : Addr)
    (hrun : transpileProto H rbxState (.mk self vProto sizep p_fits p) Cache.empty stringCache σ
      = .ok proto σ') :
    ∃ σ₁ σₘ constantTable, newProto H rbxState vProto σ = .ok proto σ₁
      ∧ newConstantTable H rbxState vProto σ₁ = .ok constantTable σₘ
      ∧ constantSlotOf σ'.host proto 0 = constantTable
      ∧ ∀ (i : Nat) (hi : i < vProto.k.length) (s s' : HostState A) (v : TValue),
          (∀ ts, vProto.k[i] ≠ .string ts) →
          transpileConstant H rbxState vProto.k[i] s = .ok v s' →
          ((loadTValue σ'.host.mem (constantSlotOf σ'.host proto i)).view = v.view
            ↔ ∀ b, vProto.k[i] = .boolean b →
                StaleFits (load32 σₘ.host.mem (constantTable + BitVec.ofNat 32 (16 * i))) b) := by
  obtain ⟨-, σ₁, σₘ, constantTable, hnew, hmalloc, hderef, cache', hslots⟩ :=
    transpileProto_root hH hrun
  refine ⟨σ₁, σₘ, constantTable, hnew, hmalloc, ?_, ?_⟩
  · rw [constantSlotOf, hderef]
    exact BitVec.add_zero _
  · intro i hi s s' v hstring hv
    obtain ⟨c, c', hslot, -⟩ := hslots.get i hi
    rw [Nat.zero_add] at hslot
    rw [constantSlotOf, hderef]
    -- from here on about one constant and one slot
    generalize hk : vProto.k[i] = pConst at hslot hv hstring
    generalize constantTable + BitVec.ofNat 32 (16 * i) = slot at hslot
    obtain ⟨htag, hpayload⟩ := hslot
    have htt : (loadTValue σ'.host.mem slot).tt = pConst.rbxType := htag
    cases pConst with
    | nil =>
      have hview : (loadTValue σ'.host.mem slot).view = .nil :=
        view_eq_nil.mpr htt
      rw [hview, transpileConstant_view hstring hv]
      exact ⟨fun _ _ h => absurd h (by simp), fun _ => rfl⟩
    | boolean b =>
      have hview : (loadTValue σ'.host.mem slot).view = .boolean (load32 σ'.host.mem slot) :=
        view_eq_boolean.mpr ⟨htt, word_loadTValue _ _⟩
      rw [hview, transpileConstant_view hstring hv, hpayload.1]
      simp only [plainView, RbxValue.boolean.injEq, Constant.boolean.injEq, forall_eq']
      -- one byte of the word was written, the host reads all four
      exact load_store8_eq_iff _ slot b
    | number num =>
      have hview : (loadTValue σ'.host.mem slot).view = .number (load64 σ'.host.mem slot) :=
        view_eq_number.mpr ⟨htt, rfl⟩
      rw [hview, transpileConstant_view hstring hv, hpayload.1]
      exact ⟨fun _ _ h => absurd h (by simp), fun _ => rfl⟩
    | string ts => exact absurd rfl (hstring ts)

def oneBoolean (b : Word) : ProtoHead := leafHead [.boolean b] [] (by simp) (by simp)

/-- `true` in a process whose memory is zero. -/
theorem constant_slot_iff_zeroed :
    ∃ proto σ', transpileProto (bumpHost 0) 0 (leafProto 0x1000 (oneBoolean 1)) Cache.empty
        Cache.empty (freshProcess 0xAAAAAAAB 0) = .ok proto σ'
      ∧ (loadTValue σ'.host.mem (constantSlotOf σ'.host proto 0)).view = .boolean 1 := by
  have hended : ended (transpileProto (bumpHost 0) 0 (leafProto 0x1000 (oneBoolean 1)) Cache.empty
      Cache.empty (freshProcess 0xAAAAAAAB 0)) = true := by decide +kernel
  obtain ⟨proto, σ', hrun⟩ := exists_of_ended hended
  obtain ⟨σ₁, σₘ, constantTable, hnew, hmalloc, -, hslots⟩ := constant_slot_iff (bumpHost 0)
    (bumpHost_lawful 0) 0 0x1000 (oneBoolean 1) 0 (by decide) (fun i => i.elim0) Cache.empty _ σ'
    proto hrun
  -- the word `rbx_malloc` left in the slot
  let stale : EStateM.Result Fault (TState Bump) Addr → Word := fun
    | .ok _ σ => match newConstantTable (bumpHost 0) 0 (oneBoolean 1) σ with
      | .ok table σ => load32 σ.host.mem table
      | .error _ _ => 1
    | .error _ _ => 1
  have hstale : stale (newProto (bumpHost 0) 0 (oneBoolean 1) (freshProcess 0xAAAAAAAB 0)) = 0 := by
    decide +kernel
  rw [hnew] at hstale
  simp only [stale, hmalloc] at hstale
  refine ⟨proto, σ', hrun, ?_⟩
  refine (hslots 0 (by decide) (processAt 0 0) _ _ (fun ts h => Constant.noConfusion h) rfl).mpr ?_
  intro b hb
  have hb : Constant.boolean 1 = Constant.boolean b := hb
  obtain rfl := Constant.boolean.inj hb
  have haddr : constantTable + BitVec.ofNat 32 (16 * 0) = constantTable := BitVec.add_zero _
  rw [haddr, hstale]
  exact ⟨by decide, by decide⟩

/-- `false` in a process whose memory is not zero: the host reads a true value. -/
theorem constant_slot_stale :
    ∃ proto σ', transpileProto (bumpHost 0) 0 (leafProto 0x1000 (oneBoolean 0)) Cache.empty
        Cache.empty (freshProcess 0xAAAAAAAB 0xCC) = .ok proto σ'
      ∧ (loadTValue σ'.host.mem (constantSlotOf σ'.host proto 0)).view = .boolean 0xCCCCCC00
      ∧ ∀ s, ∃ v, transpileConstant (bumpHost 0) 0 (.boolean 0) s = .ok v s
          ∧ v.view = .boolean 0 := by
  let view : EStateM.Result Fault (TState Bump) Addr → RbxValue := fun
    | .ok proto σ' => (loadTValue σ'.host.mem (constantSlotOf σ'.host proto 0)).view
    | .error _ _ => .nil
  have hended : ended (transpileProto (bumpHost 0) 0 (leafProto 0x1000 (oneBoolean 0)) Cache.empty
      Cache.empty (freshProcess 0xAAAAAAAB 0xCC)) = true := by decide +kernel
  have hview : view (transpileProto (bumpHost 0) 0 (leafProto 0x1000 (oneBoolean 0)) Cache.empty
      Cache.empty (freshProcess 0xAAAAAAAB 0xCC)) = .boolean 0xCCCCCC00 := by decide +kernel
  obtain ⟨proto, σ', hrun⟩ := exists_of_ended hended
  rw [hrun] at hview
  exact ⟨proto, σ', hrun, hview, fun s => ⟨_, rfl, by decide⟩⟩

end NostalgiaConv.ConstTable
