/-
The encode key over a history of calls.

Instruction words are stored times the encode key, and the host multiplies them
by its decode key. `CrackEncodeKey` searches for the inverse and finds it for
every odd key but one; the static variable that holds the result is set by the
first call that gets there and kept for all others, whatever state they are made
on. This file says what a sequence of calls on any states stores, and for which
sequences that is what the hosts will decode.
-/
import NostalgiaConv.BumpHost
import NostalgiaConv.LinearScan
import NostalgiaConv.ProtoTree
import Mathlib.Data.Int.GCD
import Mathlib.Data.Nat.Prime.Basic

set_option autoImplicit false

namespace NostalgiaConv.EncodeKey

open NostalgiaConv.ByteMem NostalgiaConv.Cipher NostalgiaConv.Instr NostalgiaConv.Opcodes
open NostalgiaConv.Host NostalgiaConv.Value NostalgiaConv.Transpile NostalgiaConv.Segments
open NostalgiaConv.Tables NostalgiaConv.ProtoTree NostalgiaConv.BumpHost NostalgiaConv.LinearScan

/-! ## The search -/

/-- Inverses are unique. -/
theorem inverse_unique {d k k' : Word} (h : k * d = 1#32) (h' : k' * d = 1#32) : k = k' := by
  calc k = k * (k' * d) := by rw [h', BitVec.mul_one]
    _ = k' * (k * d) := by rw [← BitVec.mul_assoc, BitVec.mul_comm k, BitVec.mul_assoc]
    _ = k' := by rw [h, BitVec.mul_one]

/-- Every odd key has an inverse. -/
theorem exists_inverse {d : Word} (hodd : d.toNat % 2 = 1) : ∃ k : Word, k * d = 1#32 := by
  have hcop2 : Nat.Coprime d.toNat 2 := by
    rw [Nat.coprime_comm, Nat.Prime.coprime_iff_not_dvd Nat.prime_two]
    omega
  have hcop : Nat.Coprime d.toNat (2 ^ 32) :=
    Nat.Coprime.pow_right 32 (hcop2)
  obtain ⟨m, -, hm⟩ := Nat.exists_mul_mod_eq_one_of_coprime hcop (by decide)
  refine ⟨BitVec.ofNat 32 m, ?_⟩
  apply BitVec.eq_of_toNat_eq
  rw [BitVec.toNat_mul, BitVec.toNat_ofNat, Nat.mod_mul_mod, Nat.mul_comm, hm]
  rfl

/-- The search is a linear scan. -/
theorem crackLoop_eq_scan (d : Word) : ∀ fuel i, crackLoop d fuel i
    = ((scan (fun i => i < 0xFFFFFFFF#32) (fun i => i * d = 1#32) fuel i).value).getD 0#32 := by
  intro fuel
  induction fuel with
  | zero => intro i; rfl
  | succ fuel ih =>
    intro i
    rw [crackLoop, scan]
    split_ifs with hguard hi
    · rfl
    · exact ih (i + 1#32)
    · rfl

/-- The search ends at an inverse, unless it is the one word the loop does not
reach. -/
theorem crackEncodeKey_eq {d k : Word} (hk : k * d = 1#32) (hne : k ≠ 0xFFFFFFFF#32) :
    CrackEncodeKey d = k := by
  have hklt : k.toNat < 0xFFFFFFFF := by
    have hle : k.toNat < 2 ^ 32 := k.isLt
    have : k.toNat ≠ 0xFFFFFFFF := fun h => hne (BitVec.eq_of_toNat_eq h)
    omega
  have hfound : scan (fun i => i < 0xFFFFFFFF#32) (fun i => i * d = 1#32) (2 ^ 32) 0#32
      = .found k := by
    refine scan_found k hk _ _ (Nat.zero_le _) (by show k.toNat < 0 + 2 ^ 32; omega) ?_ ?_
    · -- the guard holds up to the inverse
      intro j _ hle
      rw [BitVec.lt_def]
      show j.toNat < 0xFFFFFFFF
      omega
    · intro j _ hlt hj
      rw [inverse_unique hj hk] at hlt
      exact Nat.lt_irrefl _ hlt
  rw [CrackEncodeKey, crackLoop_eq_scan, hfound]
  rfl

/-- A search that meets no inverse returns zero. -/
theorem crackEncodeKey_none {d : Word} (hnone : ∀ k : Word, k < 0xFFFFFFFF#32 → k * d ≠ 1#32) :
    CrackEncodeKey d = 0#32 := by
  rw [CrackEncodeKey, crackLoop_eq_scan]
  cases hscan : scan (fun i => i < 0xFFFFFFFF#32) (fun i => i * d = 1#32) (2 ^ 32) 0#32 with
  | found k => exact absurd hscan (scan_not_found hnone _ _ k)
  | ended => rfl
  | running => rfl

/-- No word is the inverse of an even key. -/
theorem not_inverse_of_even {d : Word} (heven : d.toNat % 2 = 0) (k : Word) : k * d ≠ 1#32 := by
  intro hk
  have hval := congrArg BitVec.toNat hk
  rw [BitVec.toNat_mul] at hval
  have hmod : k.toNat * d.toNat % 2 = 0 := by rw [Nat.mul_mod, heven, Nat.mul_zero, Nat.zero_mod]
  have hone : (1#32).toNat = 1 := rfl
  omega

/-- `0xFFFFFFFF` is its own inverse, and the loop stops before it. -/
theorem crackEncodeKey_skips : 0xFFFFFFFF#32 * 0xFFFFFFFF#32 = 1#32
    ∧ CrackEncodeKey 0xFFFFFFFF#32 = 0#32 := by
  have hself : 0xFFFFFFFF#32 * 0xFFFFFFFF#32 = 1#32 := by decide
  refine ⟨hself, crackEncodeKey_none (fun k hlt hk => ?_)⟩
  rw [inverse_unique hk hself] at hlt
  exact absurd hlt (by decide)

/-- The search finds the inverse of every odd key but `0xFFFFFFFF`, which is its
own inverse and the one candidate left out. -/
theorem crackEncodeKey_iff {d : Word} (hodd : d.toNat % 2 = 1) :
    CrackEncodeKey d * d = 1#32 ↔ d ≠ 0xFFFFFFFF#32 := by
  obtain ⟨hself, hskip⟩ := crackEncodeKey_skips
  constructor
  · rintro h rfl
    rw [hskip, BitVec.zero_mul] at h
    exact absurd h (by decide)
  · intro hne
    obtain ⟨k, hk⟩ := exists_inverse hodd
    have hkne : k ≠ 0xFFFFFFFF#32 := by
      rintro rfl
      refine hne (inverse_unique (d := 0xFFFFFFFF#32) ?_ hself)
      rw [BitVec.mul_comm]
      exact hk
    rw [crackEncodeKey_eq hk hkne]
    exact hk

/-- **The search, for every key.** It returns the inverse of an odd key and zero for
an even one, with one exception. -/
theorem crackEncodeKey_correct_iff (decodeKey : Word) :
    ((decodeKey.toNat % 2 = 1 → CrackEncodeKey decodeKey * decodeKey = 1#32)
      ∧ (CrackEncodeKey decodeKey = 0#32 ↔ decodeKey.toNat % 2 = 0))
      ↔ decodeKey ≠ 0xFFFFFFFF#32 := by
  constructor
  · rintro ⟨hodd, -⟩ rfl
    exact (crackEncodeKey_iff (by decide)).mp (hodd (by decide)) rfl
  · intro hne
    refine ⟨fun hodd => (crackEncodeKey_iff hodd).mpr hne, fun hzero => ?_, fun heven => ?_⟩
    · -- zero is no inverse, so the key has none
      rcases Nat.mod_two_eq_zero_or_one decodeKey.toNat with heven | hodd
      · exact heven
      · have hinv := (crackEncodeKey_iff hodd).mpr hne
        rw [hzero, BitVec.zero_mul] at hinv
        exact absurd hinv (by decide)
    · exact crackEncodeKey_none (fun k _ => not_inverse_of_even heven k)

/-- The odd key `0xFFFFFFFF` gets zero, though it has an inverse. -/
theorem crackEncodeKey_all_ones : (0xFFFFFFFF#32).toNat % 2 = 1
    ∧ 0xFFFFFFFF#32 * 0xFFFFFFFF#32 = 1#32 ∧ CrackEncodeKey 0xFFFFFFFF#32 = 0#32 :=
  ⟨by decide, crackEncodeKey_skips⟩

/-! ## A history of calls -/

variable {A : Type} {H : HostApi A}

/-- One call of `TranspileProto` from outside, by `ProtoConversion` or otherwise:
the host as it finds it, the state it is made on, the proto. Between two calls the
host may do as it likes. -/
structure Call (A : Type) where
  rbxState : Addr
  vProto : Proto
  host : HostState A

def Call.run (H : HostApi A) (c : Call A) (key : Option Word) :
    EStateM.Result Fault (TState A) Addr :=
  transpileProto H c.rbxState c.vProto Cache.empty Cache.empty ⟨c.host, key⟩

/-- The static key as the call leaves it. -/
def Call.keyAfter (H : HostApi A) (c : Call A) (key : Option Word) : Option Word :=
  match c.run H key with
  | .ok _ σ => σ.encodeKey
  | .error _ σ => σ.encodeKey

/-- The decode key of the state the call is made on. -/
def Call.decodeKey (c : Call A) : Word := decodeKeyOf c.host.mem c.rbxState

/-- The state object of the call and the global object it leads to are in use. -/
def Call.StateLive (H : HostApi A) (c : Call A) : Prop :=
  block (c.rbxState + 8) 4 ⊆ H.live c.host.heap
    ∧ block (c.rbxState + (load32 c.host.mem (c.rbxState + 8) + 0x24)) 4 ⊆ H.live c.host.heap

/-- Every instruction word in the tree at a host proto, times `d`, is the plain
instruction. -/
inductive PlainCode (s : HostState A) (d : Word) : Proto → Addr → Prop where
  | node {self proto : Addr} {vProto : ProtoHead} {sizep : Nat} {p_fits : 4 * sizep < 2 ^ 32}
      {p : Fin sizep → Proto}
      (code : ∀ i : Fin vProto.code.length, transpileInstr vProto.code[i] (BitVec.ofNat 32 i)
        = some (load32 s.mem (deref s.mem (proto + 0x18) + BitVec.ofNat 32 (4 * i)) * d))
      (children : ∀ i : Fin sizep, PlainCode s d (p i)
        (load32 s.mem (deref s.mem (proto + 0x8) + BitVec.ofNat 32 (4 * i)))) :
      PlainCode s d (.mk self vProto sizep p_fits p) proto

/-- The call, if it ends, used the inverse of the decode key of its own state, and
all its instruction words decode. -/
def Call.Right (H : HostApi A) (c : Call A) (key : Option Word) : Prop :=
  ∀ proto σ', c.run H key = .ok proto σ' →
    (∃ e, σ'.encodeKey = some e ∧ e * c.decodeKey = 1#32)
      ∧ PlainCode σ'.host c.decodeKey c.vProto proto

/-- Every call of the history is right, the static key passing from call to call. -/
def AllRight (H : HostApi A) : Option Word → List (Call A) → Prop
  | _, [] => True
  | key, c :: calls => c.Right H key ∧ AllRight H (c.keyAfter H key) calls

/-- Every call of the history ends. -/
def AllEnd (H : HostApi A) : Option Word → List (Call A) → Prop
  | _, [] => True
  | key, c :: calls => (∃ proto σ', c.run H key = .ok proto σ')
      ∧ AllEnd H (c.keyAfter H key) calls

/-! ## One call -/

/-- The decode key is the same in every memory that has the state's live bytes. -/
theorem decodeKeyOf_congr {c : Call A} (hlive : c.StateLive H) {m : Mem 32}
    (hm : AgreeOn (H.live c.host.heap) c.host.mem m) : decodeKeyOf m c.rbxState = c.decodeKey := by
  have hglobal : load32 m (c.rbxState + 8) = load32 c.host.mem (c.rbxState + 8) :=
    hm.load_eq hlive.1
  have hkey : load32 m (c.rbxState + (load32 c.host.mem (c.rbxState + 8) + 0x24))
      = load32 c.host.mem (c.rbxState + (load32 c.host.mem (c.rbxState + 8) + 0x24)) :=
    hm.load_eq hlive.2
  unfold Call.decodeKey decodeKeyOf
  simp only [hglobal, hkey]

theorem Call.keyAfter_ok {c : Call A} {key : Option Word} {proto : Addr} {σ' : TState A}
    (hrun : c.run H key = .ok proto σ') : c.keyAfter H key = σ'.encodeKey := by
  unfold Call.keyAfter
  rw [hrun]

/-- A call is a segment that owns nothing, however it ends. -/
theorem Call.run_spec (hH : H.Lawful) (c : Call A) (key : Option Word) :
    (∀ proto σ', c.run H key = .ok proto σ' → KeyStep H c.rbxState ∅ ⟨c.host, key⟩ σ'
        ∧ Transpiled H σ'.encodeKey σ'.host Cache.empty c.vProto proto)
      ∧ ∀ f σ', c.run H key = .error f σ' → KeyStep H c.rbxState ∅ ⟨c.host, key⟩ σ' := by
  have h := segment_transpileProto (E := fun _ => True) (r := c.rbxState) hH trivial
    c.vProto Cache.empty (Or.inr trivial) ⟨c.host, key⟩ ⟨Set.empty_subset _, Set.empty_disjoint _⟩
    trivial
  unfold Call.run
  refine ⟨fun proto σ' hrun => ?_, fun f σ' hrun => ?_⟩
  · rw [hrun] at h
    exact ⟨h.1.key, (h.2 _ (compat_self σ')).holds⟩
  · rw [hrun] at h
    exact h.2.key

/-- What a call does to the static key: nothing, or it sets it from the decode key
of its state. -/
theorem Call.key_step (hH : H.Lawful) {c : Call A} (hlive : c.StateLive H) (key : Option Word) :
    c.keyAfter H key = key
      ∨ key = none ∧ c.keyAfter H key = some (CrackEncodeKey c.decodeKey) := by
  obtain ⟨hok, herror⟩ := c.run_spec hH key
  have hstep : ∀ σ' : TState A, KeyStep H c.rbxState ∅ ⟨c.host, key⟩ σ' →
      σ'.encodeKey = key ∨ key = none ∧ σ'.encodeKey = some (CrackEncodeKey c.decodeKey) := by
    rintro σ' (hsame | ⟨hnone, m, hm, hset⟩)
    · exact Or.inl hsame
    · -- the memory in which the key was read has the live bytes of the start
      rw [decodeKeyOf_congr hlive (fun x hx => hm x ⟨hx, fun h => h⟩)] at hset
      exact Or.inr ⟨hnone, hset⟩
  unfold Call.keyAfter
  cases hrun : c.run H key with
  | ok proto σ' => exact hstep σ' (hok proto σ' hrun).1
  | error f σ' => exact hstep σ' (herror f σ' hrun)

/-- A translation under a key is plain code for every key that it is the inverse of. -/
theorem plainCode_of_transpiled {key : Option Word} {s : HostState A} {cache : Cache} {q : Proto}
    {a : Addr} (hq : Transpiled H key s cache q a) :
    ∃ e, key = some e ∧ ∀ d, e * d = 1#32 → PlainCode s d q a := by
  induction hq with
  | @node self a vProto sizep p_fits p stale cache cache' header tables count children ih =>
    obtain ⟨e, he, -, hcode⟩ := tables.code
    refine ⟨e, he, fun d hd => PlainCode.node (fun i => ?_) (fun i => ?_)⟩
    · -- the word stored is the plain word times `e`
      have hword : storedWord e vProto.code[i] (BitVec.ofNat 32 i) = _ := hcode i
      obtain ⟨plain, hinstr, hstored⟩ := Option.map_eq_some_iff.mp hword
      have hval : load32 s.mem (deref s.mem (a + 0x18) + BitVec.ofNat 32 (4 * i)) = plain * e :=
        hstored.symm
      rw [hinstr, hval, BitVec.mul_assoc, hd, BitVec.mul_one]
    · -- a child was translated under the same key
      obtain ⟨e', he', hchild⟩ := ih i
      rw [he] at he'
      exact hchild d (by rw [← Option.some.inj he']; exact hd)

/-- A call that ends leaves a key, and its words are the plain ones times it. -/
theorem Call.run_ok (hH : H.Lawful) {c : Call A} {key : Option Word} {proto : Addr}
    {σ' : TState A} (hrun : c.run H key = .ok proto σ') :
    ∃ e, c.keyAfter H key = some e ∧ σ'.encodeKey = some e
      ∧ ∀ d, e * d = 1#32 → PlainCode σ'.host d c.vProto proto := by
  obtain ⟨e, he, hplain⟩ := plainCode_of_transpiled ((c.run_spec hH key).1 proto σ' hrun).2
  exact ⟨e, (Call.keyAfter_ok hrun).trans he, he, hplain⟩

/-! ## The whole history -/

/-- While all states have one decode key, a call is right, and leaves the static
key unset or the inverse. -/
theorem Call.right_of_key (hH : H.Lawful) {c : Call A} (hlive : c.StateLive H) {d : Word}
    (hd : CrackEncodeKey d * d = 1#32) (hc : c.decodeKey = d) {key : Option Word}
    (hkey : key = none ∨ key = some (CrackEncodeKey d)) :
    c.Right H key ∧ (c.keyAfter H key = none ∨ c.keyAfter H key = some (CrackEncodeKey d)) := by
  have hafter : c.keyAfter H key = none ∨ c.keyAfter H key = some (CrackEncodeKey d) := by
    rcases c.key_step hH hlive key with h | ⟨-, h⟩
    · rw [h]
      exact hkey
    · rw [h, hc]
      exact Or.inr rfl
  refine ⟨fun proto σ' hrun => ?_, hafter⟩
  obtain ⟨e, hσ, he, hplain⟩ := Call.run_ok hH hrun
  have hinv : e * c.decodeKey = 1#32 := by
    rcases hafter with h | h
    · rw [h] at hσ
      exact absurd hσ (by simp)
    · rw [h] at hσ
      rw [← Option.some.inj hσ, hc]
      exact hd
  exact ⟨⟨e, he, hinv⟩, hplain _ hinv⟩

theorem allRight_of_key (hH : H.Lawful) {d : Word} (hd : CrackEncodeKey d * d = 1#32) :
    ∀ {calls : List (Call A)}, (∀ c ∈ calls, c.StateLive H) → (∀ c ∈ calls, c.decodeKey = d) →
      ∀ {key : Option Word}, (key = none ∨ key = some (CrackEncodeKey d)) → AllRight H key calls := by
  intro calls
  induction calls with
  | nil => intro _ _ key _; exact trivial
  | cons c calls ih =>
    intro hlive hkeys key hkey
    obtain ⟨hright, hafter⟩ := Call.right_of_key hH (hlive c List.mem_cons_self) hd
      (hkeys c List.mem_cons_self) hkey
    exact ⟨hright, ih (fun c hc => hlive c (List.mem_cons_of_mem _ hc))
      (fun c hc => hkeys c (List.mem_cons_of_mem _ hc)) hafter⟩

/-- Once the static key is set, only states with its inverse are served. -/
theorem keys_of_allRight (hH : H.Lawful) {e : Word} :
    ∀ {calls : List (Call A)}, (∀ c ∈ calls, c.StateLive H) → AllEnd H (some e) calls →
      AllRight H (some e) calls → ∀ c ∈ calls, e * c.decodeKey = 1#32 := by
  intro calls
  induction calls with
  | nil => intro _ _ _ c hc; exact absurd hc List.not_mem_nil
  | cons c calls ih =>
    rintro hlive ⟨⟨proto, σ', hrun⟩, hend⟩ ⟨hright, hrest⟩ c' hc'
    -- a key that is set is never set again
    have hafter : c.keyAfter H (some e) = some e := by
      rcases c.key_step hH (hlive c List.mem_cons_self) (some e) with h | ⟨h, -⟩
      · exact h
      · exact absurd h (by simp)
    rw [hafter] at hend hrest
    rcases List.mem_cons.mp hc' with rfl | hc'
    · obtain ⟨⟨e', he', hinv⟩, -⟩ := hright proto σ' hrun
      have hσ : c'.keyAfter H (some e) = some e' := (Call.keyAfter_ok hrun).trans he'
      rw [hafter] at hσ
      rw [Option.some.inj hσ]
      exact hinv
    · exact ih (fun c hc => hlive c (List.mem_cons_of_mem _ hc)) hend hrest c' hc'

/-- **One key serves one decode key.** In every history of calls whose states all
have one decode key, other than `0xFFFFFFFF`, every call is right. A history of
calls that all end is right for no other reason. -/
theorem encodeKey_history (H : HostApi A) (hH : H.Lawful) (calls : List (Call A))
    (hlive : ∀ c ∈ calls, c.StateLive H) (hodd : ∀ c ∈ calls, c.decodeKey.toNat % 2 = 1) :
    ((∃ d, d ≠ 0xFFFFFFFF#32 ∧ ∀ c ∈ calls, c.decodeKey = d) → AllRight H none calls)
      ∧ (AllEnd H none calls → AllRight H none calls →
          ∃ d, d ≠ 0xFFFFFFFF#32 ∧ ∀ c ∈ calls, c.decodeKey = d) := by
  cases calls with
  | nil => exact ⟨fun _ => trivial, fun _ _ => ⟨1, by decide, by simp⟩⟩
  | cons c calls =>
    have hoddc := hodd c List.mem_cons_self
    constructor
    · rintro ⟨d, hd, hkeys⟩
      have hinv : CrackEncodeKey d * d = 1#32 := by
        rw [← hkeys c List.mem_cons_self] at hd ⊢
        exact (crackEncodeKey_iff hoddc).mpr hd
      exact allRight_of_key hH hinv hlive hkeys (Or.inl rfl)
    · rintro ⟨⟨proto, σ', hrun⟩, hend⟩ ⟨hright, hrest⟩
      obtain ⟨⟨e, he, hinv⟩, -⟩ := hright proto σ' hrun
      have hσ : c.keyAfter H none = some e := (Call.keyAfter_ok hrun).trans he
      -- the first call has set the key, and from then on it is kept
      have hcrack : CrackEncodeKey c.decodeKey = e := by
        rcases c.key_step hH (hlive c List.mem_cons_self) none with h | ⟨-, h⟩
        · rw [hσ] at h
          exact absurd h (by simp)
        · rw [hσ] at h
          exact (Option.some.inj h).symm
      rw [← hcrack] at hinv
      rw [hσ, ← hcrack] at hend hrest
      have hothers := keys_of_allRight hH (fun c hc => hlive c (List.mem_cons_of_mem _ hc)) hend
        hrest
      -- all decode keys are the one inverse of the static key
      refine ⟨c.decodeKey, (crackEncodeKey_iff hoddc).mp hinv, fun c' hc' => ?_⟩
      rcases List.mem_cons.mp hc' with rfl | hc'
      · rfl
      · refine inverse_unique (d := CrackEncodeKey c.decodeKey) ?_ ?_
        · rw [BitVec.mul_comm]
          exact hothers c' hc'
        · rw [BitVec.mul_comm]
          exact hinv

/-! ## Two states -/

def returnOnly : ProtoHead :=
  leafHead [] returnCode noConstants_fit returnCode_fits

/-- A call on a state with the given decode key. -/
def callAt (decodeKey : Word) : Call Bump := ⟨0, leafProto 0x1000 returnOnly, processAt decodeKey 0xCC⟩

theorem callAt_live (xorConst : BitVec 64) (d : Word) : (callAt d).StateLive (bumpHost xorConst) := by
  have hglobal : load32 (callAt d).host.mem (0 + 8) = 0x40 := by
    have hdis : Disjoint (block ((0 : Addr) + BitVec.ofNat 32 8) 4)
        (block ((0 : Addr) + BitVec.ofNat 32 0x64) 4) :=
      disjoint_block_offset (by decide) (by decide) (by decide)
    exact (load_store_disjoint (n := 4) hdis).trans (load_store_same (by decide) _ _ _)
  have hlive : ∀ off, off + 4 ≤ 0x80 → block ((0 : Addr) + BitVec.ofNat 32 off) 4
      ⊆ (bumpHost xorConst).live (callAt d).host.heap := by
    intro off hoff x hx
    have hin := mem_block_offset (by omega) hx
    have hx0 : x - 0 = x := BitVec.sub_zero x
    rw [hx0] at hin
    show x.toNat < (List.replicate 0x80 false).length
    rw [List.length_replicate]
    omega
  refine ⟨hlive 8 (by decide), ?_⟩
  show block (0 + (load32 (callAt d).host.mem (0 + 8) + 0x24)) 4 ⊆ _
  rw [hglobal]
  exact hlive 0x64 (by decide)

/-- Two calls on states with the decode key `0xAAAAAAAB`. -/
theorem encodeKey_history_same : AllRight (bumpHost 0) none [callAt 0xAAAAAAAB, callAt 0xAAAAAAAB] := by
  have hkey : (callAt 0xAAAAAAAB).decodeKey = 0xAAAAAAAB := by decide +kernel
  have hall : ∀ c ∈ [callAt 0xAAAAAAAB, callAt 0xAAAAAAAB], c = callAt 0xAAAAAAAB := by simp
  refine (encodeKey_history (bumpHost 0) (bumpHost_lawful 0)
    [callAt 0xAAAAAAAB, callAt 0xAAAAAAAB] ?_ ?_).1 ⟨0xAAAAAAAB, by decide, ?_⟩
  · intro c hc
    rw [hall c hc]
    exact callAt_live 0 _
  · intro c hc
    rw [hall c hc, hkey]
    decide
  · intro c hc
    rw [hall c hc, hkey]

/-- A call on a state with the decode key `0xAAAAAAAB`, then one on a state with
the decode key 1: the second one's instruction is stored under the first one's
key, and its host decodes another word. -/
theorem encodeKey_history_two_states :
    (callAt 0xAAAAAAAB).keyAfter (bumpHost 0) none = some 3#32 ∧ (callAt 1).decodeKey = 1
      ∧ (∃ proto σ', (callAt 1).run (bumpHost 0) (some 3#32) = .ok proto σ'
        ∧ transpileInstr (CREATE_ABC OpCode.OP_RETURN.toWord 0 1 0) 0
          ≠ some (load32 σ'.host.mem (deref σ'.host.mem (proto + 0x18)) * 1))
      ∧ ¬ AllRight (bumpHost 0) none [callAt 0xAAAAAAAB, callAt 1] := by
  have hfirst : (callAt 0xAAAAAAAB).keyAfter (bumpHost 0) none = some 3#32 := by decide +kernel
  have hkey : (callAt 1).decodeKey = 1 := by decide +kernel
  have hended : ended ((callAt 1).run (bumpHost 0) (some 3#32)) = true := by decide +kernel
  let word : EStateM.Result Fault (TState Bump) Addr → Option Word := fun
    | .ok proto σ' => some (load32 σ'.host.mem (deref σ'.host.mem (proto + 0x18)) * 1)
    | .error _ _ => none
  have hword : transpileInstr (CREATE_ABC OpCode.OP_RETURN.toWord 0 1 0) 0
      ≠ word ((callAt 1).run (bumpHost 0) (some 3#32)) := by decide +kernel
  have hafter : (callAt 1).keyAfter (bumpHost 0) (some 3#32) = some 3#32 := by decide +kernel
  obtain ⟨proto, σ', hrun⟩ := exists_of_ended hended
  rw [hrun] at hword
  refine ⟨hfirst, hkey, ⟨proto, σ', hrun, hword⟩, ?_⟩
  rintro ⟨-, hright, -⟩
  rw [hfirst] at hright
  obtain ⟨⟨e, he, hinv⟩, -⟩ := hright proto σ' hrun
  have hσ : (callAt 1).keyAfter (bumpHost 0) (some 3#32) = some e :=
    (Call.keyAfter_ok hrun).trans he
  rw [hafter] at hσ
  rw [← Option.some.inj hσ, hkey] at hinv
  exact absurd hinv (by decide)

end NostalgiaConv.EncodeKey
