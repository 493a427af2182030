/-
A host whose allocator never frees: the smallest one that keeps the promises of
`HostApi.Lawful`.

Its heap is one flag for each byte handed out so far, which says whether the byte
belongs to a string object; the next block starts where the list ends. A block
from `rbx_malloc` keeps whatever bytes the memory had there. A string object is a
16-byte header with the length at its end, then the characters and a zero. The host
raises when the address space is used up.
-/
import NostalgiaConv.Transpile

set_option autoImplicit false

namespace NostalgiaConv.BumpHost

open NostalgiaConv.ByteMem NostalgiaConv.Cipher NostalgiaConv.Host NostalgiaConv.Value
open NostalgiaConv.Opcodes NostalgiaConv.Transpile

/-- One flag a byte: does it belong to a string? -/
abbrev Bump := List Bool

abbrev State := HostState Bump

def live (h : Bump) : Set Addr := {x | x.toNat < h.length}

def strings (h : Bump) : Set Addr := {x | h[x.toNat]? = some true}

/-- The characters `bytes` from `a` on. -/
def writeBytes (m : Mem 32) (a : Addr) (bytes : List Byte) : Mem 32 :=
  fun x => if (x - a).toNat < bytes.length then bytes.getD (x - a).toNat 0 else m x

/-- Hand out `n` bytes. -/
def grow (s : State) (n : Nat) (inString : Bool) : State :=
  { s with heap := s.heap ++ List.replicate n inString }

/-- The start of the next block. -/
def top (s : State) : Addr := BitVec.ofNat 32 s.heap.length

def alloc (n : Nat) (inString : Bool) (write : Mem 32 → Addr → Mem 32) : HostM Bump Addr :=
  fun s =>
    if s.heap.length + n ≤ 2 ^ 32 then
      .ok (top s) { grow s n inString with mem := write s.mem (top s) }
    else .error .raised s

/-- The counts that a new proto has at zero. -/
def zeroCounts (m : Mem 32) (a : Addr) : Mem 32 :=
  store32 (store32 (store32 (store32 (store32 m (a + 0x14) 0) (a + 0x1C) 0) (a + 0x2C) 0)
    (a + 0x34) 0) (a + 0x40) 0

/-- The size of a string object. -/
def sizestring (bytes : List Byte) : Nat := 16 + (bytes.length + 1)

def newString (bytes : List Byte) (m : Mem 32) (a : Addr) : Mem 32 :=
  writeBytes (store32 m (a + 12) (BitVec.ofNat 32 bytes.length)) (a + 16) (bytes ++ [0])

/-- A string object in memory. -/
def isStr (s : State) (a : Addr) (bytes : List Byte) : Prop :=
  sizestring bytes ≤ 2 ^ 32 ∧ block a (sizestring bytes) ⊆ strings s.heap
    ∧ load32 s.mem (a + 12) = BitVec.ofNat 32 bytes.length
    ∧ ∀ i ≤ bytes.length, s.mem (a + 16 + BitVec.ofNat 32 i) = bytes.getD i 0

def bumpHost (xorConst : BitVec 64) : HostApi Bump where
  rbx_fnewproto _ := alloc PROTO_SIZE false zeroCounts
  rbx_malloc _ _ _ n := alloc n.toNat false (fun m _ => m)
  rbx_snewlstr _ bytes := alloc (sizestring bytes) true (newString bytes)
  xorConst := xorConst
  live := live
  strings := strings
  isStr := isStr

/-! ## The promises -/

variable {xorConst : BitVec 64}

/-- An address of the next block is past the end of the heap. -/
theorem block_top {s : State} {n : Nat} (hn : s.heap.length + n ≤ 2 ^ 32) {x : Addr}
    (hx : x ∈ block (top s) n) : s.heap.length ≤ x.toNat ∧ x.toNat < s.heap.length + n := by
  have h : x ∈ block (0#32 + BitVec.ofNat 32 s.heap.length) n := by
    rw [BitVec.zero_add]
    exact hx
  have hoff := mem_block_offset hn h
  rwa [BitVec.sub_zero] at hoff

theorem getElem?_grow_new {s : State} {n : Nat} (b : Bool) {i : Nat} (hi : s.heap.length ≤ i)
    (hin : i < s.heap.length + n) : (grow s n b).heap[i]? = some b := by
  show (s.heap ++ List.replicate n b)[i]? = some b
  rw [List.getElem?_append_right hi, List.getElem?_replicate, if_pos (by omega)]

theorem getElem?_grow_old {s : State} {n : Nat} (b : Bool) {i : Nat} (hi : i < s.heap.length) :
    (grow s n b).heap[i]? = s.heap[i]? :=
  List.getElem?_append_left hi

theorem length_grow (s : State) (n : Nat) (b : Bool) :
    (grow s n b).heap.length = s.heap.length + n := by
  show (s.heap ++ List.replicate n b).length = _
  rw [List.length_append, List.length_replicate]

theorem alloc_ok {s : State} {n : Nat} {b : Bool} {write : Mem 32 → Addr → Mem 32}
    (hn : s.heap.length + n ≤ 2 ^ 32) :
    alloc n b write s = .ok (top s) { grow s n b with mem := write s.mem (top s) } := if_pos hn

theorem alloc_error {s : State} {n : Nat} {b : Bool} {write : Mem 32 → Addr → Mem 32}
    (hn : ¬ s.heap.length + n ≤ 2 ^ 32) : alloc n b write s = .error .raised s := if_neg hn

/-- An allocation that returns had room. -/
theorem alloc_returned {s s' : State} {n : Nat} {b : Bool} {write : Mem 32 → Addr → Mem 32}
    {a : Addr} (h : alloc n b write s = .ok a s') : s.heap.length + n ≤ 2 ^ 32 ∧ a = top s
      ∧ s' = { grow s n b with mem := write s.mem (top s) } := by
  by_cases hn : s.heap.length + n ≤ 2 ^ 32
  · rw [alloc_ok hn] at h
    obtain ⟨rfl, rfl⟩ := EStateM.Result.ok.inj h
    exact ⟨hn, rfl, rfl⟩
  · rw [alloc_error hn] at h
    exact nomatch h

/-- One that raises has done nothing. -/
theorem alloc_raised {s s' : State} {n : Nat} {b : Bool} {write : Mem 32 → Addr → Mem 32}
    {e : HostError} (h : alloc n b write s = .error e s') : s' = s := by
  by_cases hn : s.heap.length + n ≤ 2 ^ 32
  · rw [alloc_ok hn] at h
    exact nomatch h
  · rw [alloc_error hn] at h
    exact (EStateM.Result.error.inj h).2.symm

/-- An allocation that writes into its own block only is a frame. -/
theorem frame_grow {s : State} {n : Nat} {b : Bool} {m : Mem 32}
    (hm : ∀ x, x.toNat < s.heap.length → m x = s.mem x) :
    Frame (bumpHost xorConst) ∅ s { grow s n b with mem := m } := by
  refine ⟨?_, fun x hx _ => hm x hx, ?_, ?_⟩
  · intro x hx
    show x.toNat < (grow s n b).heap.length
    rw [length_grow]
    exact Nat.lt_add_right n hx
  · intro x hx
    have hlt : x.toNat < s.heap.length := (List.getElem?_eq_some_iff.mp hx).1
    show (grow s n b).heap[x.toNat]? = some true
    rw [getElem?_grow_old b hlt]
    exact hx
  · intro x hx hlive
    have h : (grow s n b).heap[x.toNat]? = some true := hx
    rwa [getElem?_grow_old b hlive] at h

theorem alloc_grow {s : State} {n : Nat} {m : Mem 32} (hn : s.heap.length + n ≤ 2 ^ 32)
    (hm : ∀ x, x.toNat < s.heap.length → m x = s.mem x) :
    Alloc (bumpHost xorConst) s { grow s n false with mem := m } (top s) n := by
  refine ⟨frame_grow hm, ?_, ?_, ?_⟩
  · rw [Set.disjoint_left]
    intro x hx hlive
    have hle := (block_top hn hx).1
    have hlt : x.toNat < s.heap.length := hlive
    omega
  · intro x hx
    show x.toNat < (grow s n false).heap.length
    rw [length_grow]
    exact (block_top hn hx).2
  · rw [Set.disjoint_left]
    intro x hx hstr
    have h : (grow s n false).heap[x.toNat]? = some true := hstr
    rw [getElem?_grow_new false (block_top hn hx).1 (block_top hn hx).2] at h
    exact absurd h (by decide)

/-- A store into the next block is not seen below it. -/
theorem store_block_top {s : State} {n k : Nat} (off : Nat) {m : Mem 32} {v : BitVec (8 * k)}
    (hn : s.heap.length + n ≤ 2 ^ 32) (hoff : off + k ≤ n) (hn32 : n ≤ 2 ^ 32)
    (hm : ∀ x, x.toNat < s.heap.length → m x = s.mem x) :
    ∀ x, x.toNat < s.heap.length → store k m (top s + BitVec.ofNat 32 off) v x = s.mem x := by
  intro x hx
  rw [store_of_notMem, hm x hx]
  intro hmem
  have := (block_top hn (block_offset_subset hoff hn32 hmem)).1
  omega

theorem getD_append_zero {bytes : List Byte} {i : Nat} (hi : i ≤ bytes.length) :
    (bytes ++ [0]).getD i 0 = bytes.getD i 0 := by
  rw [List.getD_eq_getElem?_getD, List.getD_eq_getElem?_getD]
  by_cases hlt : i < bytes.length
  · rw [List.getElem?_append_left hlt]
  · have heq : i = bytes.length := by omega
    rw [heq, List.getElem?_append_right le_rfl, Nat.sub_self, List.getElem?_eq_none le_rfl]
    rfl

theorem isStr_newString {s : State} {bytes : List Byte}
    (hn : s.heap.length + sizestring bytes ≤ 2 ^ 32) :
    isStr { grow s (sizestring bytes) true with mem := newString bytes s.mem (top s) } (top s)
      bytes := by
  have hsizestring : sizestring bytes = 16 + (bytes.length + 1) := rfl
  refine ⟨by omega, ?_, ?_, ?_⟩
  · intro x hx
    have h := block_top hn hx
    exact getElem?_grow_new true h.1 h.2
  · have hsize : load 4 (store32 s.mem (top s + 12) (BitVec.ofNat 32 bytes.length)) (top s + 12)
        = BitVec.ofNat 32 bytes.length := load_store_same (by decide) _ _ _
    -- the characters start behind the length
    have hcong : load 4 (newString bytes s.mem (top s)) (top s + 12)
        = load 4 (store32 s.mem (top s + 12) (BitVec.ofNat 32 bytes.length)) (top s + 12) := by
      refine load_congr (fun x hx => if_neg ?_)
      intro hmem
      have hdis := disjoint_block_offset (a := top s) (i := 12) (j := 16) (m := 4)
        (n := (bytes ++ [0]).length) (by omega) (by rw [List.length_append, List.length_singleton]; omega)
        (Or.inl (by omega))
      exact Set.disjoint_left.mp hdis hx hmem
    exact hcong.trans hsize
  · intro i hi
    have hoff : (top s + 16 + BitVec.ofNat 32 i - (top s + 16)).toNat = i := by
      rw [add_sub_self_left, BitVec.toNat_ofNat]
      exact Nat.mod_eq_of_lt (by omega)
    show newString bytes s.mem (top s) _ = _
    unfold newString writeBytes
    rw [hoff, List.length_append, List.length_singleton, if_pos (by omega), getD_append_zero hi]

theorem isStr_stable {s s' : State} {a : Addr} {bytes : List Byte} (h : isStr s a bytes)
    (hsub : strings s.heap ⊆ strings s'.heap) (hagree : AgreeOn (strings s.heap) s.mem s'.mem) :
    isStr s' a bytes := by
  obtain ⟨hlen, hblock, hsize, hbytes⟩ := h
  have hsizestring : sizestring bytes = 16 + (bytes.length + 1) := rfl
  refine ⟨hlen, hblock.trans hsub, ?_, ?_⟩
  · rw [← hsize]
    exact hagree.load_eq ((block_offset_subset (i := 12) (by omega) hlen).trans hblock)
  · intro i hi
    rw [← hbytes i hi]
    refine hagree _ (hblock ?_)
    have hsum : a + 16 + BitVec.ofNat 32 i = a + BitVec.ofNat 32 (16 + i) := by
      rw [BitVec.ofNat_add, ← BitVec.add_assoc]
      rfl
    rw [hsum]
    exact add_ofNat_mem_block (by omega)

theorem isStr_unique {s : State} {a : Addr} {bytes bytes' : List Byte} (h : isStr s a bytes)
    (h' : isStr s a bytes') : bytes = bytes' := by
  obtain ⟨hlen, -, hsize, hbytes⟩ := h
  obtain ⟨hlen', -, hsize', hbytes'⟩ := h'
  have hsizestring : sizestring bytes = 16 + (bytes.length + 1) := rfl
  have hsizestring' : sizestring bytes' = 16 + (bytes'.length + 1) := rfl
  -- the length word is the length: a string fits into the address space
  have heq : bytes.length = bytes'.length := by
    have := congrArg BitVec.toNat (hsize.symm.trans hsize')
    rw [BitVec.toNat_ofNat, BitVec.toNat_ofNat] at this
    omega
  refine List.ext_getElem heq (fun i hi hi' => ?_)
  have hget := (hbytes i hi.le).symm.trans (hbytes' i hi'.le)
  rwa [List.getD_eq_getElem?_getD, List.getD_eq_getElem?_getD, List.getElem?_eq_getElem hi,
    List.getElem?_eq_getElem hi'] at hget

/-- **The bump host keeps the promises.** -/
theorem bumpHost_lawful (xorConst : BitVec 64) : (bumpHost xorConst).Lawful where
  strings_live h x hx := (List.getElem?_eq_some_iff.mp hx).1
  isStr_stable := isStr_stable
  isStr_unique := isStr_unique
  fnewproto rs s := by
    have hdef : (bumpHost xorConst).rbx_fnewproto rs s = alloc PROTO_SIZE false zeroCounts s := rfl
    by_cases hn : s.heap.length + PROTO_SIZE ≤ 2 ^ 32
    · rw [hdef, alloc_ok hn]
      have hstore : ∀ {off : Nat} {m : Mem 32} {v : Word}, off + 4 ≤ PROTO_SIZE →
          (∀ x, x.toNat < s.heap.length → m x = s.mem x) →
          ∀ x, x.toNat < s.heap.length → store32 m (top s + BitVec.ofNat 32 off) v x = s.mem x :=
        fun hoff hm => store_block_top (k := 4) _ hn hoff (by decide) hm
      refine ⟨alloc_grow hn (hstore (by decide) (hstore (by decide) (hstore (by decide)
        (hstore (by decide) (hstore (by decide) (fun _ _ => rfl)))))), ?_⟩
      -- each count reads back zero: its own store is the last to touch it
      have hsame : ∀ {off : Nat} {m : Mem 32}, load32 (store32 m (top s + BitVec.ofNat 32 off) 0)
          (top s + BitVec.ofNat 32 off) = 0 := load_store_same (by decide) _ _ _
      have hother : ∀ {i j : Nat} {m : Mem 32} {v : Word}, i + 4 ≤ 2 ^ 32 → j + 4 ≤ 2 ^ 32 →
          (i + 4 ≤ j ∨ j + 4 ≤ i) →
          load32 (store32 m (top s + BitVec.ofNat 32 j) v) (top s + BitVec.ofNat 32 i)
            = load32 m (top s + BitVec.ofNat 32 i) :=
        fun hi hj h => load_store_offset (n := 4) (k := 4) hi hj h
      intro off hoff
      simp only [List.mem_cons, List.not_mem_nil, or_false] at hoff
      rcases hoff with rfl | rfl | rfl | rfl | rfl
      · exact (hother (j := 0x40) (by decide) (by decide) (by decide)).trans <|
          (hother (j := 0x34) (by decide) (by decide) (by decide)).trans <|
          (hother (j := 0x2C) (by decide) (by decide) (by decide)).trans <|
          (hother (j := 0x1C) (by decide) (by decide) (by decide)).trans hsame
      · exact (hother (j := 0x40) (by decide) (by decide) (by decide)).trans <|
          (hother (j := 0x34) (by decide) (by decide) (by decide)).trans <|
          (hother (j := 0x2C) (by decide) (by decide) (by decide)).trans hsame
      · exact (hother (j := 0x40) (by decide) (by decide) (by decide)).trans <|
          (hother (j := 0x34) (by decide) (by decide) (by decide)).trans hsame
      · exact (hother (j := 0x40) (by decide) (by decide) (by decide)).trans hsame
      · exact hsame
    · rw [hdef, alloc_error hn]
      exact Frame.refl _ _ _
  malloc rs n s := by
    have hdef : (bumpHost xorConst).rbx_malloc rs 0 0 n s
        = alloc n.toNat false (fun m _ => m) s := rfl
    by_cases hn : s.heap.length + n.toNat ≤ 2 ^ 32
    · rw [hdef, alloc_ok hn]
      exact alloc_grow hn (fun _ _ => rfl)
    · rw [hdef, alloc_error hn]
      exact Frame.refl _ _ _
  snewlstr rs bytes s := by
    have hdef : (bumpHost xorConst).rbx_snewlstr rs bytes s
        = alloc (sizestring bytes) true (newString bytes) s := rfl
    have hsizestring : sizestring bytes = 16 + (bytes.length + 1) := rfl
    by_cases hn : s.heap.length + sizestring bytes ≤ 2 ^ 32
    · rw [hdef, alloc_ok hn]
      refine ⟨frame_grow (fun x hx => ?_), isStr_newString hn⟩
      -- an old address is below the new block
      have hmem : x ∉ block (top s + BitVec.ofNat 32 16) (bytes ++ [0]).length := by
        intro hmem
        have := (block_top hn (block_offset_subset (N := sizestring bytes)
          (by rw [List.length_append, List.length_singleton]; omega) (by omega) hmem)).1
        omega
      have hstore := store_block_top 12 (k := 4) (v := BitVec.ofNat 32 bytes.length) hn
        (by omega) (by omega) (fun _ _ => rfl) x hx
      exact (if_neg hmem).trans hstore
    · rw [hdef, alloc_error hn]
      exact Frame.refl _ _ _

/-! ## A process to run in -/

/-- A host state object at address 0 whose global object at `0x40` gives the
decode key `decodeKey`; every other byte of the memory is `fill`. -/
def processAt (decodeKey : Word) (fill : Byte) : State where
  mem := store32 (store32 (fun _ => fill) 0x8 0x40) 0x64 (decodeKey - 0x64)
  heap := List.replicate 0x80 false

/-- The same before the first translation of the process. -/
def freshProcess (decodeKey : Word) (fill : Byte) : TState Bump := ⟨processAt decodeKey fill, none⟩

/-- A function without children, line numbers or upvalues. -/
def leafHead (k : List Constant) (code : List Word) (hk : 16 * k.length < 2 ^ 32)
    (hcode : 4 * code.length < 2 ^ 32) : ProtoHead where
  source := luaS_newlstr [0x40]
  k := k
  code := code
  lineinfo := []
  upvalues := []
  nups := 0
  numparams := 0
  is_vararg := 2
  maxstacksize := 2
  k_fits := hk
  code_fits := hcode
  lineinfo_fits := by decide
  upvalues_fits := by decide

theorem noConstants_fit : 16 * ([] : List Constant).length < 2 ^ 32 := by decide

theorem noWords_fit : 4 * ([] : List Word).length < 2 ^ 32 := by decide

/-- A function that only returns. -/
def returnCode : List Word := [CREATE_ABC OpCode.OP_RETURN.toWord 0 1 0]

theorem returnCode_fits : 4 * returnCode.length < 2 ^ 32 := by decide

def leafProto (self : Addr) (head : ProtoHead) : Proto :=
  .mk self head 0 (by decide) (fun i => i.elim0)

def ended {ε σ α : Type} : EStateM.Result ε σ α → Bool
  | .ok _ _ => true
  | .error _ _ => false

theorem exists_of_ended {ε σ α : Type} {r : EStateM.Result ε σ α} (h : ended r = true) :
    ∃ a s, r = .ok a s := by
  cases r with
  | ok a s => exact ⟨a, s, rfl⟩
  | error e s => exact absurd h (by simp [ended])

end NostalgiaConv.BumpHost
