/-
The loops of `TranspileProto` and the tables they fill.

Every table is described by what a reader finds in it, entry by entry: the words
of the instruction table, the line numbers and upvalue names, and the 16-byte
slots of the constants with the string cache as it passes from slot to slot.
Each loop is a segment that writes its own table only. The words that the code loop
leaves in its table are decoded to the words that it found.
-/
import NostalgiaConv.Segments

set_option autoImplicit false

namespace NostalgiaConv.Tables

open NostalgiaConv.ByteMem NostalgiaConv.Cipher NostalgiaConv.Instr NostalgiaConv.Opcodes
open NostalgiaConv.Host NostalgiaConv.Value NostalgiaConv.Transpile NostalgiaConv.Segments

variable {A : Type} {H : HostApi A} {r : Addr} {E : Fault → Prop}

/-! ## Fields of a proto -/

/-- The addresses of some fields, given by offset and size. -/
def fields (proto : Addr) (l : List (Nat × Nat)) : Set Addr :=
  {x | ∃ p ∈ l, x ∈ block (proto + BitVec.ofNat 32 p.1) p.2}

theorem block_subset_fields {proto : Addr} {l : List (Nat × Nat)} {off n : Nat}
    (h : (off, n) ∈ l) : block (proto + BitVec.ofNat 32 off) n ⊆ fields proto l :=
  fun _ hx => ⟨(off, n), h, hx⟩

/-- Fields that do not overlap as ranges of offsets are disjoint. -/
theorem disjoint_fields {proto : Addr} {l l' : List (Nat × Nat)}
    (hl : ∀ p ∈ l, p.1 + p.2 ≤ PROTO_SIZE) (hl' : ∀ p ∈ l', p.1 + p.2 ≤ PROTO_SIZE)
    (h : ∀ p ∈ l, ∀ q ∈ l', p.1 + p.2 ≤ q.1 ∨ q.1 + q.2 ≤ p.1) :
    Disjoint (fields proto l) (fields proto l') := by
  have hsize : PROTO_SIZE ≤ 2 ^ 32 := by decide
  rw [Set.disjoint_left]
  rintro x ⟨p, hp, hxp⟩ ⟨q, hq, hxq⟩
  exact Set.disjoint_left.mp (disjoint_block_offset ((hl p hp).trans hsize)
    ((hl' q hq).trans hsize) (h p hp q hq)) hxp hxq

theorem fields_subset_block {proto : Addr} {l : List (Nat × Nat)}
    (hl : ∀ p ∈ l, p.1 + p.2 ≤ PROTO_SIZE) : fields proto l ⊆ block proto PROTO_SIZE := by
  rintro x ⟨p, hp, hx⟩
  exact block_offset_subset (hl p hp) (by decide) hx

theorem fields_append (proto : Addr) (l l' : List (Nat × Nat)) :
    fields proto (l ++ l') = fields proto l ∪ fields proto l' := by
  ext x
  simp only [fields, List.mem_append, Set.mem_union, Set.mem_ofPred_eq, or_and_right, exists_or]

theorem segment_field32 (proto : Addr) (off : Nat) (v : Word) :
    Segment H r E (fun _ => True) (fields proto [(off, 4)])
      (write32 (proto + BitVec.ofNat 32 off) v)
      (fun _ _ s => load32 s.mem (proto + BitVec.ofNat 32 off) = v) :=
  (Segment.store32 _ v).mono (block_subset_fields (by simp))

theorem segment_field8 (proto : Addr) (off : Nat) (v : Byte) :
    Segment H r E (fun _ => True) (fields proto [(off, 1)])
      (write8 (proto + BitVec.ofNat 32 off) v)
      (fun _ _ s => load8 s.mem (proto + BitVec.ofNat 32 off) = v) :=
  (Segment.store (n := 1) (by decide) _ v).mono (block_subset_fields (by simp))

/-- Sequencing for statements that write fields of one proto: that the fields do
not overlap is a check of two lists of offsets. -/
theorem segment_bindFields {α β : Type} {x : TranspileM A α} {f : α → TranspileM A β}
    {pre pre' : HostState A → Prop} {φ : Post A α} {ψ : α → Post A β} {proto : Addr}
    {l l' : List (Nat × Nat)} (hH : H.Lawful)
    (hx : Segment H r E pre (fields proto l) x φ)
    (hf : ∀ a, Segment H r E pre' (fields proto l') (f a) (ψ a))
    (hdis : (∀ p ∈ l, p.1 + p.2 ≤ PROTO_SIZE) ∧ (∀ p ∈ l', p.1 + p.2 ≤ PROTO_SIZE)
      ∧ ∀ p ∈ l, ∀ q ∈ l', p.1 + p.2 ≤ q.1 ∨ q.1 + q.2 ≤ p.1)
    (hlocal : LocalTo (fields proto l') pre') :
    Segment H r E (fun s => pre s ∧ pre' s) (fields proto (l ++ l')) (x >>= f)
      (fun e b s => ∃ a, φ e a s ∧ ψ a e b s) := by
  rw [fields_append]
  exact Segment.bind hH hx hf (disjoint_fields hdis.1 hdis.2.1 hdis.2.2) hlocal

theorem localTo_field32 {proto : Addr} {l : List (Nat × Nat)} {off : Nat} (h : (off, 4) ∈ l)
    (v : Word) :
    LocalTo (A := A) (fields proto l) (fun s => load32 s.mem (proto + BitVec.ofNat 32 off) = v) :=
  fun _ _ hagree hv => (hagree.load_eq (block_subset_fields h)).trans hv

/-- A self-relative pointer field leads to the address it was made from. -/
theorem deref_of_load {m : Mem 32} {field a : Addr} (h : load32 m field = a - field) :
    deref m field = a := by
  rw [deref, h, add_sub_self_right]

/-! ## Tables of words -/

/-- A proto's fields for one of its tables say: `n` entries, of which the `i`-th
is as `R i` says. -/
def TableRep (m : Mem 32) (proto : Addr) (pointerField countField n : Nat)
    (R : Fin n → Word → Prop) : Prop :=
  load32 m (proto + BitVec.ofNat 32 countField) = BitVec.ofNat 32 n
    ∧ ∀ i : Fin n, R i (load32 m (deref m (proto + BitVec.ofNat 32 pointerField)
        + BitVec.ofNat 32 (4 * i)))

/-- The loop writes every entry once, and none of its computations undoes an
earlier one. -/
theorem segment_fillTable (hH : H.Lawful) (table : Addr) :
    ∀ (n start : Nat) {entry : Fin n → TranspileM A Word} {R : Fin n → Post A Word},
      4 * (start + n) ≤ 2 ^ 32 →
      (∀ i, Segment H r E (fun _ => True) ∅ (entry i) (R i)) →
      Segment H r E (fun _ => True) (block (table + BitVec.ofNat 32 (4 * start)) (4 * n))
        (fillTable table start n entry)
        (fun e _ s => ∀ i : Fin n,
          R i e (load32 s.mem (table + BitVec.ofNat 32 (4 * (start + i)))) s) := by
  intro n
  induction n with
  | zero =>
    intro start entry R _ _
    exact Segment.ret (fun _ _ i => i.elim0)
  | succ n ih =>
    intro start entry R hfit hentry
    have hslot : Disjoint (block (table + BitVec.ofNat 32 (4 * start)) 4)
        (block (table + BitVec.ofNat 32 (4 * (start + 1))) (4 * n)) :=
      disjoint_block_offset (by omega) (by omega) (Or.inl (by omega))
    have hsub : (∅ : Set Addr) ∪ (block (table + BitVec.ofNat 32 (4 * start)) 4
        ∪ block (table + BitVec.ofNat 32 (4 * (start + 1))) (4 * n))
        ⊆ block (table + BitVec.ofNat 32 (4 * start)) (4 * (n + 1)) := by
      have hnext : table + BitVec.ofNat 32 (4 * (start + 1))
          = table + BitVec.ofNat 32 (4 * start) + BitVec.ofNat 32 4 := by
        rw [BitVec.add_assoc, ← BitVec.ofNat_add, Nat.mul_succ]
      rw [hnext, Set.empty_union]
      exact Set.union_subset (block_mono (by omega)) (block_offset_subset (by omega) (by omega))
    -- the entry that is written is apart from those still to come
    have hrest := ih (start + 1) (by omega) (fun i => hentry i.succ)
    unfold fillTable
    refine Segment.imp ((Segment.mono hsub (Segment.bind hH (hentry 0) (fun value =>
      Segment.bind hH (Segment.store32 _ value) (fun _ => hrest) hslot localTo_true)
      (Set.empty_disjoint _) (fun _ _ _ h => h))).strengthen (fun _ _ => ⟨trivial, trivial, trivial⟩))
      ?_
    rintro e _ s ⟨value, hvalue, _, hload, hentries⟩ i
    -- entry 0 is the one just written, the others are the rest of the loop's
    refine Fin.cases ?_ (fun j => ?_) i
    · show R 0 e (load32 s.mem (table + BitVec.ofNat 32 (4 * start))) s
      rw [hload]
      exact hvalue
    · have hj : start + (j.succ : Nat) = start + 1 + j := by rw [Fin.val_succ]; omega
      rw [hj]
      exact hentries j

/-- The number of bytes asked for is the number of bytes needed. -/
theorem toNat_ofNat_of_lt {n : Nat} (h : n < 2 ^ 32) : (BitVec.ofNat 32 n).toNat = n := by
  rw [BitVec.toNat_ofNat, Nat.mod_eq_of_lt h]

/-- A table that has been allocated: its two fields, in either order, and the loop. -/
theorem segment_tableFields (hH : H.Lawful) {proto table : Addr} (off off' : Nat) (v v' : Word)
    {n : Nat} {entry : Fin n → TranspileM A Word} {R : Fin n → Post A Word}
    {pre : HostState A → Prop} (hn : 4 * n < 2 ^ 32)
    (hentry : ∀ i, Segment H r E (fun _ => True) ∅ (entry i) (R i))
    (hoff : off + 4 ≤ PROTO_SIZE) (hoff' : off' + 4 ≤ PROTO_SIZE)
    (hdis : off + 4 ≤ off' ∨ off' + 4 ≤ off)
    (htable : Disjoint (fields proto [(off, 4), (off', 4)]) (block table (4 * n))) :
    Segment H r E pre (fields proto [(off, 4), (off', 4)] ∪ block table (4 * n))
      (do
        write32 (proto + BitVec.ofNat 32 off) v
        write32 (proto + BitVec.ofNat 32 off') v'
        fillTable table 0 n entry)
      (fun e _ s => load32 s.mem (proto + BitVec.ofNat 32 off) = v
        ∧ load32 s.mem (proto + BitVec.ofNat 32 off') = v'
        ∧ ∀ i : Fin n, R i e (load32 s.mem (table + BitVec.ofNat 32 (4 * i))) s) := by
  have hsize : PROTO_SIZE ≤ 2 ^ 32 := by decide
  have hfield : block (proto + BitVec.ofNat 32 off) 4 ⊆ fields proto [(off, 4), (off', 4)] :=
    block_subset_fields (by simp)
  have hfield' : block (proto + BitVec.ofNat 32 off') 4 ⊆ fields proto [(off, 4), (off', 4)] :=
    block_subset_fields (by simp)
  have hfill := segment_fillTable (r := r) hH table n 0 (by omega) hentry
  rw [Nat.mul_zero, BitVec.add_zero] at hfill
  -- the first field is apart from the second and from the table
  have hfirst : Disjoint (block (proto + BitVec.ofNat 32 off) 4)
      (block (proto + BitVec.ofNat 32 off') 4 ∪ block table (4 * n)) :=
    (disjoint_block_offset (by omega) (by omega) hdis).union_right (htable.mono_left hfield)
  refine Segment.imp ((Segment.mono ?_ (Segment.bind hH (Segment.store32 _ v) (fun _ =>
    Segment.bind hH (Segment.store32 _ v') (fun _ => hfill) (htable.mono_left hfield')
      localTo_true) hfirst (fun _ _ _ h => h))).strengthen (fun _ _ => ⟨trivial, trivial, trivial⟩))
    ?_
  · rw [← Set.union_assoc]
    exact Set.union_subset_union_left _ (Set.union_subset hfield hfield')
  · rintro e _ s ⟨_, hload, _, hload', hentries⟩
    refine ⟨hload, hload', fun i => ?_⟩
    simpa using hentries i

theorem segment_optionalTable (hH : H.Lawful) (hE : E .raised) (proto : Addr)
    (pointerField countField : Nat) {n : Nat} {entry : Fin n → TranspileM A Word}
    {R : Fin n → Post A Word} (hn : 4 * n < 2 ^ 32)
    (hentry : ∀ i, Segment H r E (fun _ => True) ∅ (entry i) (R i))
    (hp : pointerField + 4 ≤ PROTO_SIZE) (hc : countField + 4 ≤ PROTO_SIZE)
    (hpc : pointerField + 4 ≤ countField ∨ countField + 4 ≤ pointerField) :
    Segment H r E (fun s => load32 s.mem (proto + BitVec.ofNat 32 countField) = 0)
      (fields proto [(pointerField, 4), (countField, 4)])
      (optionalTable H r proto (BitVec.ofNat 32 pointerField) (BitVec.ofNat 32 countField) n entry)
      (fun e _ s => TableRep s.mem proto pointerField countField n (fun i v => R i e v s)) := by
  have hlocal : LocalTo (A := A) (fields proto [(pointerField, 4), (countField, 4)])
      (fun s => load32 s.mem (proto + BitVec.ofNat 32 countField) = 0) :=
    localTo_field32 (by simp) 0
  unfold optionalTable
  split_ifs with h0
  · -- nothing is written: the count is what `rbx_fnewproto` left
    subst h0
    exact (Segment.keep hlocal).imp (fun _ _ _ h => ⟨h.2, fun i => i.elim0⟩)
  · refine Segment.malloc hH hE _ _ hlocal (fun table htable => ?_)
    rw [toNat_ofNat_of_lt hn] at htable ⊢
    refine (segment_tableFields hH _ _ _ _ hn hentry hp hc hpc htable).imp ?_
    rintro e _ s ⟨hload, hcount, hentries⟩
    refine ⟨hcount, fun i => ?_⟩
    rw [deref_of_load hload]
    exact hentries i

/-! ## The instruction table -/

theorem segment_instructionEntry {code : List Word} {pre : HostState A → Prop}
    (hops : (∀ v ∈ code, (OpCode.ofWord (GET_OPCODE v)).isSome) ∨ E .pastTable)
    (encodeKey : Word) (i : Fin code.length) :
    Segment H r E pre ∅ (instructionEntry encodeKey code i)
      (fun _ v _ => storedWord encodeKey (code.get i) (BitVec.ofNat 32 i) = some v) := by
  unfold instructionEntry
  cases hstored : storedWord encodeKey code[i] (BitVec.ofNat 32 i) with
  | some stored => exact Segment.ret (fun _ _ => rfl)
  | none =>
    refine Segment.throw ?_
    rcases hops with hops | hE
    · -- a word that names an opcode is stored
      have hsome := hops code[i] (List.getElem_mem _)
      obtain ⟨o, ho⟩ := Option.isSome_iff_exists.mp hsome
      rw [storedWord, transpileInstr_eq ho] at hstored
      exact absurd hstored (by simp)
    · exact hE

theorem segment_instructionTable (hH : H.Lawful) (hE : E .raised) (proto : Addr)
    (vProto : ProtoHead)
    (hops : (∀ v ∈ vProto.code, (OpCode.ofWord (GET_OPCODE v)).isSome) ∨ E .pastTable) :
    Segment H r E (fun _ => True) (fields proto [(0x18, 4), (0x34, 4)])
      (instructionTable H r proto vProto)
      (fun key _ s => ∃ e, key = some e ∧ TableRep s.mem proto 0x18 0x34 vProto.code.length
        (fun i v => storedWord e (vProto.code.get i) (BitVec.ofNat 32 i) = some v)) := by
  have hfits := vProto.code_fits
  have hswap : fields proto [(0x34, 4), (0x18, 4)] = fields proto [(0x18, 4), (0x34, 4)] := by
    rw [← List.singleton_append, fields_append, Set.union_comm, ← fields_append,
      List.singleton_append]
  have hafter : ∀ encodeKey, Segment H r E (fun _ => True) (fields proto [(0x18, 4), (0x34, 4)])
      (do
        let table ← callHost (H.rbx_malloc r 0 0 (BitVec.ofNat 32 (4 * vProto.code.length)))
        write32 (proto + 0x34) (BitVec.ofNat 32 vProto.code.length)
        write32 (proto + 0x18) (table - (proto + 0x18))
        fillTable table 0 vProto.code.length (instructionEntry encodeKey vProto.code))
      (fun _ _ s => TableRep s.mem proto 0x18 0x34 vProto.code.length
        (fun i v => storedWord encodeKey (vProto.code.get i) (BitVec.ofNat 32 i) = some v)) := by
    intro encodeKey
    refine Segment.malloc hH hE _ _ localTo_true (fun table htable => ?_)
    rw [toNat_ofNat_of_lt hfits] at htable ⊢
    -- here the count is written before the pointer
    rw [← hswap] at htable ⊢
    refine (segment_tableFields hH 0x34 0x18 _ _ hfits
      (segment_instructionEntry hops encodeKey) (by decide) (by decide) (by decide) htable).imp ?_
    rintro e _ s ⟨hcount, hload, hentries⟩
    refine ⟨hcount, fun i => ?_⟩
    rw [deref_of_load hload]
    exact hentries i
  unfold instructionTable
  refine Segment.imp ((Segment.mono ?_ (Segment.bind hH Segment.staticEncodeKey hafter
    (Set.empty_disjoint _) localTo_true)).strengthen (fun _ _ => ⟨trivial, trivial⟩)) ?_
  · exact Set.union_subset (Set.empty_subset _) subset_rfl
  · rintro key _ s ⟨e, hkey, htable⟩
    exact ⟨e, hkey, htable⟩

/-! ## The code loop

The entries of the instruction table are computed without the host, so the loop that
writes them needs no more than the room. -/

/-- Entries that are known beforehand: each is found in its place, and what lies before
the loop's first place is as it was. -/
theorem fillTable_known (table : Addr) : ∀ (n start : Nat) {entry : Fin n → TranspileM A Word}
    {words : Fin n → Word}, 4 * (start + n) ≤ 2 ^ 32 → (∀ i σ, entry i σ = .ok (words i) σ) →
    ∀ σ, ∃ σ', fillTable table start n entry σ = .ok ⟨⟩ σ'
      ∧ (∀ i : Fin n, load32 σ'.host.mem (table + BitVec.ofNat 32 (4 * (start + i))) = words i)
      ∧ ∀ j < start, load32 σ'.host.mem (table + BitVec.ofNat 32 (4 * j))
          = load32 σ.host.mem (table + BitVec.ofNat 32 (4 * j)) := by
  intro n
  induction n with
  | zero => exact fun start _ _ _ _ σ => ⟨σ, rfl, fun i => i.elim0, fun _ _ => rfl⟩
  | succ n ih =>
    intro start entry words hfit hentry σ
    let σ₁ : TState A := { σ with host := { σ.host with
      mem := store32 σ.host.mem (table + BitVec.ofNat 32 (4 * start)) (words 0) } }
    obtain ⟨σ', hrest, hwords, hbefore⟩ :=
      ih (start + 1) (by omega) (fun i => hentry i.succ) σ₁
    refine ⟨σ', ?_, fun i => ?_, fun j hj => ?_⟩
    · unfold fillTable
      rw [run_bind, hentry 0 σ]
      exact hrest
    · refine Fin.cases ?_ (fun j => ?_) i
      · -- the rest of the loop leaves the first entry alone
        rw [Fin.val_zero, Nat.add_zero, hbefore start (Nat.lt_succ_self start)]
        exact load_store_same (n := 4) (by decide) _ _ _
      · have hj : start + (j.succ : Nat) = start + 1 + j := by rw [Fin.val_succ]; omega
        rw [hj]
        exact hwords j
    · rw [hbefore j (Nat.lt_succ_of_lt hj)]
      exact load_store_offset (n := 4) (k := 4) (by omega) (by omega) (Or.inl (by omega))

/-- **The loop of `TranspileProto` writes the words of `transpileCode`**, in order. -/
theorem fillTable_transpileCode {encodeKey : Word} {code words : List Word}
    (hcode : transpileCode encodeKey code = some words) (hfit : 4 * code.length < 2 ^ 32)
    (table : Addr) (σ : TState A) :
    ∃ σ', fillTable table 0 code.length (instructionEntry encodeKey code) σ = .ok ⟨⟩ σ'
      ∧ ∀ n w, words[n]? = some w →
          load32 σ'.host.mem (table + BitVec.ofNat 32 (4 * n)) = w := by
  have hlen : words.length = code.length := length_transpileCodeFrom hcode
  have hentry : ∀ (i : Fin code.length) (σ : TState A),
      instructionEntry encodeKey code i σ = .ok (words.get (i.cast hlen.symm)) σ := by
    intro i σ
    have hword := getElem?_transpileCodeFrom hcode i
    rw [List.getElem?_eq_getElem i.isLt, List.getElem?_eq_getElem (by omega), Nat.zero_add,
      Option.bind_some] at hword
    unfold instructionEntry
    rw [Fin.getElem_fin, ← hword]
    rfl
  obtain ⟨σ', hrun, hwords, -⟩ := fillTable_known table code.length 0 (by omega) hentry σ
  refine ⟨σ', hrun, fun n w hn => ?_⟩
  obtain ⟨hlt, rfl⟩ := List.getElem?_eq_some_iff.mp hn
  have hload := hwords ⟨n, by omega⟩
  rwa [Nat.zero_add] at hload

/-- **The instruction translation loses nothing.** The opcodes are renumbered
injectively. A word that names one of the 38 opcodes and whose unused operands are zero
never reaches the 'Missing' default: what is stored for it at index `n` is decoded by
the one decoder to the word itself, so to every operand of it. In whatever code vector
it stands, as long as the others name opcodes too, the loop runs to its end, and it is
that word that lies in place `n` of the table. -/
theorem transpile_lossless (n : Nat) (vInstr decodeKey encodeKey : Word) (vOpcode : OpCode)
    (hop : OpCode.ofWord (GET_OPCODE vInstr) = some vOpcode)
    (hzero : UnusedZero vOpcode vInstr) (hkey : decodeKey * encodeKey = 1#32) :
    Function.Injective rbxOpcode
      ∧ ∃ stored, storedWord encodeKey vInstr (BitVec.ofNat 32 n) = some stored
        ∧ decodeInstr decodeKey (BitVec.ofNat 32 n) stored = some vInstr
        ∧ ∀ code : List Word, (∀ v ∈ code, (OpCode.ofWord (GET_OPCODE v)).isSome) →
            4 * code.length < 2 ^ 32 → code[n]? = some vInstr →
            ∀ (A : Type) (table : Addr) (σ : TState A), ∃ σ',
              fillTable table 0 code.length (instructionEntry encodeKey code) σ = .ok ⟨⟩ σ'
                ∧ load32 σ'.host.mem (table + BitVec.ofNat 32 (4 * n)) = stored := by
  obtain ⟨stored, hstored, hdecode⟩ :=
    decodeInstr_storedWord (BitVec.ofNat 32 n) hop hzero hkey
  refine ⟨rbxOpcode_injective, stored, hstored, hdecode, ?_⟩
  intro code hops hfit hn A table σ
  obtain ⟨words, hcode, -⟩ := exists_transpileCode encodeKey hops
  obtain ⟨σ', hrun, hwords⟩ := fillTable_transpileCode hcode hfit table σ
  refine ⟨σ', hrun, hwords n stored ?_⟩
  have hword := getElem?_transpileCodeFrom hcode n
  rw [hn, Nat.zero_add, Option.bind_some, hstored] at hword
  exact hword

/-- Seven words `LOADNIL 0 0`, then `CALL 1 2 3`. -/
def callAtSeven : List Word :=
  List.replicate 7 (CREATE_ABC OpCode.OP_LOADNIL.toWord 0 0 0)
    ++ [CREATE_ABC OpCode.OP_CALL.toWord 1 2 3]

theorem callAtSeven_named : ∀ v ∈ callAtSeven, (OpCode.ofWord (GET_OPCODE v)).isSome := by
  intro v hv
  rcases List.mem_append.mp hv with hv | hv
  · rw [List.eq_of_mem_replicate hv]
    decide
  · rw [List.mem_singleton.mp hv]
    decide

/-- The call at index 7, under the key 3 and its inverse, in a table at `0x100`. -/
theorem transpile_lossless_call :
    ∃ (stored : Word) (σ' : TState Unit),
      fillTable 0x100 0 8 (instructionEntry 0xAAAAAAAB#32 callAtSeven)
          ⟨⟨fun _ => 0xCC, ()⟩, none⟩ = .ok ⟨⟩ σ'
        ∧ load32 σ'.host.mem (0x100 + BitVec.ofNat 32 (4 * 7)) = stored
        ∧ decodeInstr 3#32 (BitVec.ofNat 32 7) stored
            = some (CREATE_ABC OpCode.OP_CALL.toWord 1 2 3) := by
  obtain ⟨-, stored, -, hdecode, hcode⟩ := transpile_lossless 7
    (CREATE_ABC OpCode.OP_CALL.toWord 1 2 3) 3#32 0xAAAAAAAB#32 .OP_CALL (by decide)
    (fun _ => ⟨fun h => absurd h (by decide), fun h => absurd h (by decide)⟩) (by decide)
  obtain ⟨σ', hrun, hload⟩ := hcode callAtSeven callAtSeven_named (by decide) rfl Unit 0x100
    ⟨⟨fun _ => 0xCC, ()⟩, none⟩
  exact ⟨stored, σ', hrun, hload, hdecode⟩

/-! ## The constant table -/

/-- What the loop leaves in one slot, and how it passes the string cache on.
`stale` is the memory the loop found. -/
def SlotRep (H : HostApi A) (stale : Mem 32) (slot : Addr) (cache cache' : Cache)
    (pConst : Constant) (s : HostState A) : Prop :=
  load32 s.mem (slot + 8) = pConst.rbxType ∧
    match pConst with
    | .nil => load32 s.mem slot = 0 ∧ cache' = cache
    | .boolean b =>
      load32 s.mem slot = load32 (store8 stale slot (if b = 0 then 0 else 1)) slot
        ∧ cache' = cache
    | .number num => load64 s.mem slot = num ^^^ H.xorConst ∧ cache' = cache
    | .string ts =>
      cache' ts.hash = some (load32 s.mem slot)
        ∧ (cache' = cache ∨ cache ts.hash = none
            ∧ cache' = cache.insert ts.hash (load32 s.mem slot)
            ∧ H.isStr s (load32 s.mem slot) ts.bytes)

/-- The slots from index `start` on. -/
def SlotsRep (H : HostApi A) (stale : Mem 32) (constantTable : Addr) :
    Nat → List Constant → Cache → Cache → HostState A → Prop
  | _, [], cache, cache', _ => cache' = cache
  | start, pConst :: k, cache, cache', s =>
    ∃ cache₁, SlotRep H stale (constantTable + BitVec.ofNat 32 (16 * start)) cache cache₁ pConst s
      ∧ SlotsRep H stale constantTable (start + 1) k cache₁ cache' s

theorem tag_subset_slot (slot : Addr) : block (slot + 8) 4 ⊆ block slot 16 :=
  block_offset_subset (i := 8) (by decide) (by decide)

theorem payload_disjoint_tag {n : Nat} (hn : n ≤ 8) (slot : Addr) :
    Disjoint (block slot n) (block (slot + 8) 4) :=
  disjoint_block_add (j := 8) (by decide) hn

/-- The slot after a payload of `n` bytes and a tag were written into it. -/
def slotImage {n : Nat} (stale : Mem 32) (slot : Addr) (v : BitVec (8 * n)) (tag : Word) : Mem 32 :=
  store32 (store n stale slot v) (slot + 8) tag

theorem segment_payloadTag {α : Type} {n : Nat} (hn : n ≤ 8) {slot : Addr} (v : BitVec (8 * n))
    (tag : Word) {stale : Mem 32} {rest : TranspileM A α} {ψ : Post A α}
    (hrest : Segment H r E (fun s => AgreeOn (block slot 16) (slotImage stale slot v tag) s.mem)
      (block slot 16) rest ψ) :
    Segment H r E (fun s => AgreeOn (block slot 16) stale s.mem) (block slot 16)
      (do
        write n slot v
        write32 (slot + 8) tag
        rest) ψ :=
  Segment.andThen (Segment.write (block_mono (by omega)) v stale)
    (fun _ => Segment.andThen (Segment.write (n := 4) (tag_subset_slot slot) tag _) (fun _ => hrest))

/-- The tag and the payload as they are read back. -/
theorem load_slotImage {n k : Nat} (hk : k ≤ 8) {slot : Addr} {v : BitVec (8 * n)} {tag : Word}
    {stale m : Mem 32} (h : AgreeOn (block slot 16) (slotImage stale slot v tag) m) :
    load32 m (slot + 8) = tag ∧ load k m slot = load k (store n stale slot v) slot := by
  constructor
  · have htag : load 4 m (slot + 8) = load 4 (slotImage stale slot v tag) (slot + 8) :=
      h.load_eq (tag_subset_slot slot)
    exact htag.trans (load_store_same (by decide) _ _ _)
  · have hpayload : load k m slot = load k (slotImage stale slot v tag) slot :=
      h.load_eq (block_mono (by omega))
    exact hpayload.trans (load_store_disjoint (payload_disjoint_tag hk slot))

/-- A slot whose payload is read at the width it was written with. -/
theorem load_slotImage_same {n : Nat} (hn : n ≤ 8) {slot : Addr} {v : BitVec (8 * n)} {tag : Word}
    {stale m : Mem 32} (h : AgreeOn (block slot 16) (slotImage stale slot v tag) m) :
    load32 m (slot + 8) = tag ∧ load n m slot = v := by
  obtain ⟨htag, hpayload⟩ := load_slotImage hn h
  exact ⟨htag, hpayload.trans (load_store_same (by omega) _ _ _)⟩

/-- Reading the payload word back and entering it into the cache. -/
theorem segment_readBack (image : Mem 32) (slot : Addr) (insert : Word → Cache) :
    Segment H r E (fun s => AgreeOn (block slot 16) image s.mem) (block slot 16)
      (do
        let stored ← read32 slot
        pure (insert stored))
      (fun _ cache' s => cache' = insert (load32 image slot)
        ∧ AgreeOn (block slot 16) image s.mem) := by
  refine Segment.andThen (Segment.read32 (block_mono (by omega)) image) (fun stored => ?_)
  have hlocal : LocalTo (A := A) (block slot 16) (fun s =>
      stored = load32 image slot ∧ AgreeOn (block slot 16) image s.mem) :=
    fun s s' hagree h => ⟨h.1, h.2.trans hagree⟩
  refine (Segment.keep hlocal).imp ?_
  rintro e _ s ⟨rfl, rfl, h⟩
  exact ⟨rfl, h⟩

theorem segment_constantSlot (hH : H.Lawful) (hE : E .raised) (slot : Addr) (pConst : Constant)
    (cache : Cache) (stale : Mem 32) :
    Segment H r E (fun s => AgreeOn (block slot 16) stale s.mem) (block slot 16)
      (constantSlot H r slot pConst cache)
      (fun _ cache' s => SlotRep H stale slot cache cache' pConst s) := by
  unfold constantSlot
  cases pConst with
  | nil =>
    refine segment_payloadTag (n := 4) (by omega) _ _
      ((Segment.keep (localTo_agreeOn _)).imp ?_)
    rintro e _ s ⟨rfl, h⟩
    obtain ⟨htag, hpayload⟩ := load_slotImage_same (by omega) h
    exact ⟨htag, hpayload, rfl⟩
  | boolean b =>
    refine segment_payloadTag (n := 1) (by omega) _ _
      ((Segment.keep (localTo_agreeOn _)).imp ?_)
    rintro e _ s ⟨rfl, h⟩
    -- the word read back is three bytes wider than what was written
    obtain ⟨htag, hpayload⟩ := load_slotImage (k := 4) (by omega) h
    exact ⟨htag, hpayload, rfl⟩
  | number num =>
    refine segment_payloadTag (n := 8) (by omega) _ _
      ((Segment.keep (localTo_agreeOn _)).imp ?_)
    rintro e _ s ⟨rfl, h⟩
    obtain ⟨htag, hpayload⟩ := load_slotImage_same (by omega) h
    exact ⟨htag, hpayload, rfl⟩
  | string ts =>
    dsimp only
    cases hfound : cache ts.hash with
    | some found =>
      refine segment_payloadTag (n := 4) (by omega) _ _
        ((Segment.keep (localTo_agreeOn _)).imp ?_)
      rintro e _ s ⟨rfl, h⟩
      obtain ⟨htag, hpayload⟩ := load_slotImage_same (by omega) h
      have hload : load32 s.mem slot = found := hpayload
      exact ⟨htag, hfound.trans (congrArg some hload.symm), Or.inl rfl⟩
    | none =>
      -- a new string: allocated, stored, and entered into the cache by reading the slot back
      refine Segment.imp ((Segment.mono ?_ (Segment.bind hH (Segment.snewlstr hH hE r ts.bytes)
        (fun str => segment_payloadTag (n := 4) (by omega) str _ (segment_readBack _ slot _))
        (Set.empty_disjoint _) (localTo_agreeOn stale))).strengthen
        (fun _ h => ⟨trivial, h⟩)) ?_
      · rw [Set.empty_union]
      · rintro e _ s ⟨str, hstr, rfl, h⟩
        obtain ⟨htag, hload⟩ := load_slotImage_same (n := 4) (by omega) h
        obtain ⟨-, himage⟩ := load_slotImage_same (n := 4) (by omega)
          (AgreeOn.refl (block slot 16) (slotImage (n := 4) stale slot str RBX_TYPE_STRING))
        have hload : load32 s.mem slot = str := hload
        have himage : load32 (slotImage (n := 4) stale slot str RBX_TYPE_STRING) slot = str := himage
        rw [himage]
        refine ⟨htag, ?_, Or.inr ⟨hfound, ?_, ?_⟩⟩
        · simp [Cache.insert, hload]
        · rw [hload]
        · rwa [hload]

theorem segment_constantLoop (hH : H.Lawful) (hE : E .raised) (constantTable : Addr)
    (stale : Mem 32) :
    ∀ (k : List Constant) (start : Nat) (cache : Cache), 16 * (start + k.length) ≤ 2 ^ 32 →
      Segment H r E
        (fun s => AgreeOn (block (constantTable + BitVec.ofNat 32 (16 * start)) (16 * k.length))
          stale s.mem)
        (block (constantTable + BitVec.ofNat 32 (16 * start)) (16 * k.length))
        (constantLoop H r constantTable start k cache)
        (fun _ cache' s => SlotsRep H stale constantTable start k cache cache' s) := by
  intro k
  induction k with
  | nil =>
    intro start cache _
    exact Segment.ret (fun _ _ => rfl)
  | cons pConst k ih =>
    intro start cache hfit
    rw [List.length_cons] at hfit ⊢
    -- the slots lie side by side, so a later one leaves this one alone
    have hslot : Disjoint (block (constantTable + BitVec.ofNat 32 (16 * start)) 16)
        (block (constantTable + BitVec.ofNat 32 (16 * (start + 1))) (16 * k.length)) :=
      disjoint_block_offset (by omega) (by omega) (Or.inl (by omega))
    have hnext : constantTable + BitVec.ofNat 32 (16 * (start + 1))
        = constantTable + BitVec.ofNat 32 (16 * start) + BitVec.ofNat 32 16 := by
      rw [BitVec.add_assoc, ← BitVec.ofNat_add, Nat.mul_succ]
    have hhead : block (constantTable + BitVec.ofNat 32 (16 * start)) 16
        ⊆ block (constantTable + BitVec.ofNat 32 (16 * start)) (16 * (k.length + 1)) :=
      block_mono (by omega)
    have htail : block (constantTable + BitVec.ofNat 32 (16 * (start + 1))) (16 * k.length)
        ⊆ block (constantTable + BitVec.ofNat 32 (16 * start)) (16 * (k.length + 1)) := by
      rw [hnext]
      exact block_offset_subset (by omega) (by omega)
    unfold constantLoop
    exact ((Segment.mono (Set.union_subset hhead htail)
      (Segment.bind hH (segment_constantSlot hH hE _ pConst cache stale)
        (fun cache₁ => ih (start + 1) cache₁ (by omega)) hslot
        (localTo_agreeOn stale))).strengthen
      (fun _ h => ⟨h.mono hhead, h.mono htail⟩))

/-! ## The string cache along the table -/

section

variable {stale : Mem 32} {slot constantTable : Addr} {cache cache' : Cache} {s : HostState A}

/-- A slot keeps what the cache had. -/
theorem SlotRep.mono {pConst : Constant} (h : SlotRep H stale slot cache cache' pConst s)
    {key : Word} {a : Addr} (ha : cache key = some a) : cache' key = some a := by
  cases pConst with
  | nil => rw [h.2.2]; exact ha
  | boolean b => rw [h.2.2]; exact ha
  | number num => rw [h.2.2]; exact ha
  | string ts =>
    rcases h.2.2 with hsame | ⟨hnone, hnew, -⟩
    · rw [hsame]
      exact ha
    · have hne : key ≠ ts.hash := by
        rintro rfl
        rw [hnone] at ha
        exact absurd ha (by simp)
      rw [hnew, Cache.insert, if_neg hne]
      exact ha

/-- A slot adds to the cache only its own string. -/
theorem SlotRep.origin {pConst : Constant} (h : SlotRep H stale slot cache cache' pConst s)
    {key : Word} {a : Addr} (ha : cache' key = some a) :
    cache key = some a
      ∨ ∃ ts, pConst = .string ts ∧ ts.hash = key ∧ H.isStr s a ts.bytes := by
  cases pConst with
  | nil => rw [h.2.2] at ha; exact Or.inl ha
  | boolean b => rw [h.2.2] at ha; exact Or.inl ha
  | number num => rw [h.2.2] at ha; exact Or.inl ha
  | string ts =>
    rcases h.2.2 with hsame | ⟨-, hnew, hstr⟩
    · rw [hsame] at ha
      exact Or.inl ha
    · rw [hnew, Cache.insert] at ha
      by_cases hkey : key = ts.hash
      · rw [if_pos hkey] at ha
        obtain rfl := Option.some.inj ha
        exact Or.inr ⟨ts, rfl, hkey.symm, hstr⟩
      · rw [if_neg hkey] at ha
        exact Or.inl ha

theorem SlotsRep.mono :
    ∀ {k : List Constant} {start : Nat} {cache cache' : Cache},
      SlotsRep H stale constantTable start k cache cache' s →
      ∀ {key : Word} {a : Addr}, cache key = some a → cache' key = some a := by
  intro k
  induction k with
  | nil =>
    rintro start cache cache' rfl key a ha
    exact ha
  | cons pConst k ih =>
    rintro start cache cache' ⟨cache₁, hslot, hrest⟩ key a ha
    exact ih hrest (hslot.mono ha)

/-- What is in the cache at the end was there at the start, or is a string of the
table under its own hash. -/
theorem SlotsRep.origin :
    ∀ {k : List Constant} {start : Nat} {cache cache' : Cache},
      SlotsRep H stale constantTable start k cache cache' s →
      ∀ {key : Word} {a : Addr}, cache' key = some a →
        cache key = some a ∨ ∃ ts, .string ts ∈ k ∧ ts.hash = key ∧ H.isStr s a ts.bytes := by
  intro k
  induction k with
  | nil =>
    rintro start cache cache' rfl key a ha
    exact Or.inl ha
  | cons pConst k ih =>
    rintro start cache cache' ⟨cache₁, hslot, hrest⟩ key a ha
    rcases ih hrest ha with ha₁ | ⟨ts, hts, hhash, hstr⟩
    · rcases hslot.origin ha₁ with ha₀ | ⟨ts, rfl, hhash, hstr⟩
      · exact Or.inl ha₀
      · exact Or.inr ⟨ts, List.mem_cons_self, hhash, hstr⟩
    · exact Or.inr ⟨ts, List.mem_cons_of_mem _ hts, hhash, hstr⟩

/-- Every slot of the constant table, out of the chain of caches. -/
theorem SlotsRep.get :
    ∀ {k : List Constant} {start : Nat} {cache cache' : Cache},
      SlotsRep H stale constantTable start k cache cache' s →
      ∀ (i : Nat) (hi : i < k.length), ∃ c c',
        SlotRep H stale (constantTable + BitVec.ofNat 32 (16 * (start + i))) c c' k[i] s
          ∧ ∀ key a, c' key = some a → cache' key = some a := by
  intro k
  induction k with
  | nil => intro start cache cache' _ i hi; exact absurd hi (Nat.not_lt_zero i)
  | cons pConst k ih =>
    rintro start cache cache' ⟨cache₁, hslot, hrest⟩ i hi
    cases i with
    | zero => exact ⟨cache, cache₁, hslot, fun key a ha => hrest.mono ha⟩
    | succ i =>
      obtain ⟨c, c', h, hlast⟩ := ih hrest i (Nat.lt_of_succ_lt_succ hi)
      have hsum : start + 1 + i = start + (i + 1) := by omega
      rw [hsum] at h
      exact ⟨c, c', h, hlast⟩

/-- A string slot holds whatever the final cache has under the hash. -/
theorem SlotsRep.string {k : List Constant} (h : SlotsRep H stale constantTable 0 k cache cache' s)
    {i : Nat} (hi : i < k.length) {ts : TString} (hts : k[i] = .string ts) :
    load32 s.mem (constantTable + BitVec.ofNat 32 (16 * i) + 8) = RBX_TYPE_STRING
      ∧ cache' ts.hash = some (load32 s.mem (constantTable + BitVec.ofNat 32 (16 * i))) := by
  obtain ⟨c, c', hslot, hlast⟩ := h.get i hi
  rw [Nat.zero_add, hts] at hslot
  exact ⟨hslot.1, hlast _ _ hslot.2.1⟩

end

end NostalgiaConv.Tables
