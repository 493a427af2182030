/-
The raw word after `OP_SETLIST`.

A table constructor stores its list items in blocks of fifty. The block number
is operand `C` of `SETLIST` while it fits; from block 512 on `luaK_setlist`
writes `C = 0` and puts the number, as a plain word, into the next slot of the
code vector, where `luaV_execute` reads it with `*pc++`. The code loop of
`TranspileProto` does not know about that slot: it takes the number for an
instruction. Every number the compiler can write there is below `2 ^ 26`, so its
opcode field is zero and it is translated as a `MOVE`, whose opcode changes and
whose `C` operand is dropped. This file proves what that loses.
-/
import NostalgiaConv.Instr

set_option autoImplicit false

namespace NostalgiaConv.SetList

open NostalgiaConv.BitField NostalgiaConv.Cipher NostalgiaConv.Opcodes NostalgiaConv.Instr
open OpCode OpMode

/-! ## The code generator -/

def LUA_MULTRET : Int := -1

/-- `MAX_INT`: `INT_MAX - 2`. -/
def MAX_INT : Nat := 2147483645

/-- The block number `c` of `luaK_setlist`. -/
def blockNumber (nelems : Nat) : Nat := (nelems - 1) / LFIELDS_PER_FLUSH + 1

/-- `luaK_setlist`, as what it appends to the code vector. -/
def luaK_setlist (code : List Word) (base : Word) (nelems : Nat) (tostore : Int) : List Word :=
  let c := blockNumber nelems
  let b : Word := if tostore = LUA_MULTRET then 0#32 else BitVec.ofInt 32 tostore
  if c ≤ MAXARG_C then
    code ++ [CREATE_ABC OP_SETLIST.toWord base b (BitVec.ofNat 32 c)]
  else
    code ++ [CREATE_ABC OP_SETLIST.toWord base b 0#32, BitVec.ofNat 32 c]

/-- What the host has for the count when it executes the `SETLIST` before entry
`pc` of the instruction table: the entry, unkeyed. -/
def hostBlockNumber (decodeKey : Word) (table : List Word) (pc : Nat) : Option Word :=
  (table[pc]?).map (· * decodeKey)

/-! ## The count word reads as a `MOVE` -/

/-- `listfield` stops at `MAX_INT` items before it counts one more. -/
theorem blockNumber_lt {nelems : Nat} (h : nelems ≤ MAX_INT + 1) :
    blockNumber nelems < 42949674 := by
  unfold blockNumber LFIELDS_PER_FLUSH
  unfold MAX_INT at h
  omega

theorem ofWord_blockWord {c : Nat} (hc : c < 42949674) :
    OpCode.ofWord (GET_OPCODE (BitVec.ofNat 32 c)) = some OP_MOVE := by
  have hzero : GET_OPCODE (BitVec.ofNat 32 c) = 0#32 := by
    apply BitVec.eq_of_toNat_eq
    unfold GET_OPCODE
    rw [toNat_getField]
    simp only [BitVec.toNat_ofNat, POS_OP, SIZE_OP]
    omega
  rw [hzero]
  rfl

/-- The translation of a `MOVE` reads its `A` and `B` only. -/
theorem transpileInstr_move_congr {v v' : Word} (n : Word)
    (hv : OpCode.ofWord (GET_OPCODE v) = some OP_MOVE)
    (hv' : OpCode.ofWord (GET_OPCODE v') = some OP_MOVE)
    (ha : GETARG_A v = GETARG_A v') (hb : GETARG_B v = GETARG_B v') :
    transpileInstr v n = transpileInstr v' n := by
  have hplace : ∀ u t : Word, placeOperands OP_MOVE u t
      = SETARG_B (SETARG_C (SETARG_B (SETARG_A t (GETARG_A u)) (GETARG_C u)) (GETARG_B u)) 1#32 :=
    fun _ _ => rfl
  rw [transpileInstr_eq hv, transpileInstr_eq hv', hplace, hplace, ha, hb]
  -- the `C` of the source lands in `B`, which the marker then overwrites
  have hdrop : ∀ t c c' b : Word,
      SETARG_B (SETARG_C (SETARG_B t c) b) 1#32 = SETARG_B (SETARG_C (SETARG_B t c') b) 1#32 := by
    intro t c c' b
    apply eq_of_ABC <;> simp
  rw [hdrop]

/-- The two block numbers that differ in the lowest bit share `A` and `B`. -/
theorem transpileInstr_blockWord_congr {c c' : Nat} (n : Word) (hc : c < 42949674)
    (hc' : c' < 42949674) (h512 : c / 512 = c' / 512) :
    transpileInstr (BitVec.ofNat 32 c) n = transpileInstr (BitVec.ofNat 32 c') n := by
  refine transpileInstr_move_congr n (ofWord_blockWord hc) (ofWord_blockWord hc') ?_ ?_
  · apply BitVec.eq_of_toNat_eq
    unfold GETARG_A
    rw [toNat_getField, toNat_getField]
    simp only [BitVec.toNat_ofNat, POS_A, SIZE_A]
    omega
  · apply BitVec.eq_of_toNat_eq
    unfold GETARG_B
    rw [toNat_getField, toNat_getField]
    simp only [BitVec.toNat_ofNat, POS_B, SIZE_B]
    omega

/-- The word stored for a count is not the count under the key: its opcode
field says `RBX_OP_MOVE`, the count's says nothing. -/
theorem storedWord_blockWord_ne {c : Nat} (n : Word) (hc : c < 42949674)
    {decodeKey encodeKey : Word} (hkey : decodeKey * encodeKey = 1#32) :
    ∃ stored, storedWord encodeKey (BitVec.ofNat 32 c) n = some stored
      ∧ stored * decodeKey ≠ BitVec.ofNat 32 c := by
  have hmove := ofWord_blockWord hc
  refine ⟨_, by rw [storedWord, transpileInstr_eq hmove]; rfl, ?_⟩
  intro h
  rw [mul_key_cancel hkey] at h
  have hop : GET_OPCODE (placeOperands OP_MOVE (BitVec.ofNat 32 c)
      (SET_OPCODE 0#32 (rbxOpcode OP_MOVE))) = GET_OPCODE (BitVec.ofNat 32 c) :=
    congrArg GET_OPCODE h
  rw [GET_OPCODE_placeOperands, GET_OPCODE_SET_OPCODE, getField_rbxOpcode] at hop
  rw [← hop] at hmove
  exact absurd hmove (by decide)

/-! ## What the code vector loses -/

theorem transpileCodeFrom_append (encodeKey : Word) (pre post : List Word) :
    ∀ start, transpileCodeFrom encodeKey start (pre ++ post)
      = (transpileCodeFrom encodeKey start pre).bind (fun t =>
          (transpileCodeFrom encodeKey (start + pre.length) post).map (t ++ ·)) := by
  induction pre with
  | nil => intro start; simp [transpileCodeFrom]
  | cons v pre ih =>
    intro start
    simp only [List.cons_append, transpileCodeFrom]
    cases storedWord encodeKey v (BitVec.ofNat 32 start) with
    | none => rfl
    | some stored =>
      have hlen : start + (v :: pre).length = start + 1 + pre.length := by
        rw [List.length_cons]; omega
      simp only [ih (start + 1), hlen]
      cases transpileCodeFrom encodeKey (start + 1) pre with
      | none => rfl
      | some t => simp [Function.comp_def]

/-- From block 512 on the code generator writes two words. -/
theorem luaK_setlist_of_lt {nelems : Nat} (h : MAXARG_C < blockNumber nelems)
    (code : List Word) (base : Word) (tostore : Int) :
    luaK_setlist code base nelems tostore
      = code ++ [CREATE_ABC OP_SETLIST.toWord base
          (if tostore = LUA_MULTRET then 0#32 else BitVec.ofInt 32 tostore) 0#32,
        BitVec.ofNat 32 (blockNumber nelems)] := by
  unfold luaK_setlist
  rw [if_neg (Nat.not_le.mpr h)]

/-- Another item count whose block number differs in the lowest bit only. -/
theorem exists_sibling_block {nelems : Nat} (hmax : nelems ≤ MAX_INT + 1)
    (h : MAXARG_C < blockNumber nelems) :
    ∃ nelems', nelems' ≤ MAX_INT + 1 ∧ MAXARG_C < blockNumber nelems'
      ∧ blockNumber nelems' ≠ blockNumber nelems
      ∧ blockNumber nelems' / 512 = blockNumber nelems / 512 := by
  have hlt := blockNumber_lt hmax
  have hMAXC : MAXARG_C = 511 := rfl
  have hblock : ∀ c, blockNumber (c * 50 + 1) = c + 1 := by
    intro c
    unfold blockNumber LFIELDS_PER_FLUSH
    omega
  obtain ⟨c, hc⟩ : ∃ c, blockNumber nelems = c + 1 := ⟨_, rfl⟩
  -- one block up from an even number, one down from an odd one
  by_cases heven : (c + 1) % 2 = 0
  · refine ⟨(c + 1) * 50 + 1, ?_, ?_, ?_, ?_⟩ <;> simp only [hblock, MAX_INT] <;> omega
  · refine ⟨(c - 1) * 50 + 1, ?_, ?_, ?_, ?_⟩ <;> simp only [hblock, MAX_INT] <;> omega

/-- **Every count word is lost.** Whatever stands before and after it, a
`SETLIST` of block 512 or higher leaves a table, as long as the words around the
count name opcodes, and the host does not read the block number from it; another
block number gives the same table. -/
theorem setlist_count_lost (pre post : List Word) (base : Word) (nelems : Nat) (tostore : Int)
    (decodeKey encodeKey : Word) (hkey : decodeKey * encodeKey = 1#32)
    (hmax : nelems ≤ MAX_INT + 1) (hbig : MAXARG_C < blockNumber nelems) :
    let code := luaK_setlist pre base nelems tostore ++ post
    let n := pre.length + 1
    code[n]? = some (BitVec.ofNat 32 (blockNumber nelems))
      ∧ ((∀ v ∈ code.eraseIdx n, (OpCode.ofWord (GET_OPCODE v)).isSome) →
          ∃ table, transpileCode encodeKey code = some table)
      ∧ (∀ table, transpileCode encodeKey code = some table →
          hostBlockNumber decodeKey table n ≠ some (BitVec.ofNat 32 (blockNumber nelems)))
      ∧ ∃ nelems', nelems' ≤ MAX_INT + 1 ∧ MAXARG_C < blockNumber nelems'
          ∧ luaK_setlist pre base nelems' tostore ++ post
            = code.set n (BitVec.ofNat 32 (blockNumber nelems'))
          ∧ BitVec.ofNat 32 (blockNumber nelems') ≠ BitVec.ofNat 32 (blockNumber nelems)
          ∧ transpileCode encodeKey (luaK_setlist pre base nelems' tostore ++ post)
            = transpileCode encodeKey code := by
  intro code n
  have hlt := blockNumber_lt hmax
  have hn : code[n]? = some (BitVec.ofNat 32 (blockNumber nelems)) := by
    simp only [code, n, luaK_setlist_of_lt hbig]
    simp
  refine ⟨hn, fun hops => ?_, ?_, ?_⟩
  · have hnamed : ∀ v ∈ code, (OpCode.ofWord (GET_OPCODE v)).isSome := by
      intro v hv
      obtain ⟨m, hm⟩ := List.mem_iff_getElem?.mp hv
      by_cases hmn : m = n
      · -- the count word passes for a `MOVE`, so it does not stop the loop
        rw [hmn, hn] at hm
        obtain rfl := Option.some.inj hm
        rw [ofWord_blockWord hlt]
        rfl
      · exact hops v (List.mem_eraseIdx_iff_getElem?.mpr ⟨m, hmn, hm⟩)
    obtain ⟨table, htable, -⟩ := exists_transpileCode encodeKey hnamed
    exact ⟨table, htable⟩
  · intro table htable hread
    obtain ⟨stored, hstored, hne⟩ :=
      storedWord_blockWord_ne (BitVec.ofNat 32 n) hlt hkey
    -- the entry is the translation of the count word, taken for an instruction
    have hentry := getElem?_transpileCodeFrom htable n
    rw [hn, Nat.zero_add, Option.bind_some, hstored] at hentry
    rw [hostBlockNumber, hentry] at hread
    exact hne (Option.some.inj hread)
  · obtain ⟨nelems', hmax', hbig', hne, h512⟩ := exists_sibling_block hmax hbig
    have hlt' := blockNumber_lt hmax'
    refine ⟨nelems', hmax', hbig', ?_, ?_, ?_⟩
    · simp only [code, n, luaK_setlist_of_lt hbig, luaK_setlist_of_lt hbig']
      simp [List.append_assoc]
    · intro h
      have := congrArg BitVec.toNat h
      simp only [BitVec.toNat_ofNat] at this
      omega
    -- the two vectors differ in the count word, whose translations are the same
    · simp only [code, luaK_setlist_of_lt hbig, luaK_setlist_of_lt hbig', transpileCode,
        List.append_assoc, transpileCodeFrom_append, transpileCodeFrom, List.cons_append,
        List.nil_append, storedWord]
      rw [transpileInstr_blockWord_congr _ hlt' hlt h512]

/-- The same at a constructor of 25551 items, the first that needs block 512: the
table is there, the host misreads its count, and so it is for another block. -/
theorem setlist_count_lost_block512 :
    let code := luaK_setlist [] 0#32 25551 1 ++ [CREATE_ABC OP_RETURN.toWord 0 1 0]
    ∃ table, transpileCode 0xAAAAAAAB#32 code = some table
      ∧ hostBlockNumber 3#32 table 1 ≠ some (BitVec.ofNat 32 (blockNumber 25551))
      ∧ ∃ nelems', blockNumber nelems' ≠ blockNumber 25551
          ∧ transpileCode 0xAAAAAAAB#32
              (luaK_setlist [] 0#32 nelems' 1 ++ [CREATE_ABC OP_RETURN.toWord 0 1 0])
            = some table := by
  obtain ⟨-, htable, hlost, nelems', -, -, -, hne, hsame⟩ :=
    setlist_count_lost [] [CREATE_ABC OP_RETURN.toWord 0 1 0] 0#32 25551 1 3#32 0xAAAAAAAB#32
      (by decide) (by decide) (by decide)
  have hops : ∀ v ∈ [CREATE_ABC OP_SETLIST.toWord 0 1 0, CREATE_ABC OP_RETURN.toWord 0 1 0],
      (OpCode.ofWord (GET_OPCODE v)).isSome := by
    simp only [List.forall_mem_cons]
    exact ⟨by decide, by decide, nofun⟩
  obtain ⟨table, htable⟩ := htable hops
  refine ⟨table, htable, hlost table htable, nelems', fun h => hne (by rw [h]), ?_⟩
  rw [hsame, htable]

/-- Blocks 512 and 513, in two code vectors that differ in the count word only:
one instruction table, and a host that reads neither number from it. -/
theorem setlist_blocks_512_513 :
    let c512 := luaK_setlist [] 0#32 25551 1 ++ [CREATE_ABC OP_RETURN.toWord 0 1 0]
    let c513 := luaK_setlist [] 0#32 25601 1 ++ [CREATE_ABC OP_RETURN.toWord 0 1 0]
    c513 = c512.set 1 513#32 ∧ c512[1]? = some 512#32
      ∧ (transpileCode 0xAAAAAAAB#32 c512).isSome
      ∧ transpileCode 0xAAAAAAAB#32 c512 = transpileCode 0xAAAAAAAB#32 c513
      ∧ (transpileCode 0xAAAAAAAB#32 c512).bind (hostBlockNumber 3#32 · 1) ≠ some 512#32 := by
  decide +kernel

end NostalgiaConv.SetList
