/-
The jumps of `lua/lcode.c` that wait for their destination.

Until it is known where they lead, jumps are kept in lists that run through their own
operands: each jumps to the next, and the last to itself, which is the offset
`NO_JUMP`. `luaK_patchlist` walks over a list and gives all its jumps one destination;
`luaK_patchtohere` puts them on hold in `jpc` until the next instruction is coded, and
if that is a jump itself they join its list. The file proves what patching a list and
joining two make of the code.

A list is named by the position of its first jump. Memory and line information are
left out.
-/
import NostalgiaConv.Chains
import NostalgiaConv.Instr

set_option autoImplicit false

namespace NostalgiaConv.JumpLists

open NostalgiaConv.BitField NostalgiaConv.Cipher NostalgiaConv.Opcodes NostalgiaConv.Chains
open NostalgiaConv.Instr
open OpCode OpMode

/-! ## The code generator -/

def NO_JUMP : Int := -1
def NO_REG : Word := 255

inductive CodeError where
  | syntaxerror (msg : String)
  deriving DecidableEq

/-- What the jumps need of a `FuncState`; `pc` is the length of the code. -/
structure FuncState where
  code : List Word
  lasttarget : Int
  jpc : Int

def FuncState.pc (fs : FuncState) : Int := fs.code.length

def wordAt (code : List Word) (pc : Nat) : Word := code.getD pc 0

def testTMode (o : Word) : Bool :=
  match OpCode.ofWord o with
  | some op => (luaP_opmodes op).testT
  | none => false

def fixjump (code : List Word) (pc : Nat) (dest : Int) : Except CodeError (List Word) :=
  let offset := dest - (pc + 1)
  if MAXARG_sBx < offset.natAbs then .error (.syntaxerror "control structure too long")
  else .ok (code.set pc (SETARG_sBx (wordAt code pc) offset))

def luaK_getlabel (fs : FuncState) : FuncState := { fs with lasttarget := fs.pc }

/-- A jump to itself is the end of a list. -/
def getjump (code : List Word) (pc : Nat) : Int :=
  let offset := GETARG_sBx (wordAt code pc)
  if offset = NO_JUMP then NO_JUMP else pc + 1 + offset

/-- Where the instruction is that decides on the jump at `pc`. -/
def getjumpcontrol (code : List Word) (pc : Nat) : Nat :=
  if 1 ≤ pc ∧ testTMode (GET_OPCODE (wordAt code (pc - 1))) = true then pc - 1 else pc

def patchtestreg (code : List Word) (node : Nat) (reg : Word) : Bool × List Word :=
  let pi := getjumpcontrol code node
  let i := wordAt code pi
  if GET_OPCODE i ≠ OP_TESTSET.toWord then (false, code) -- cannot patch other instructions
  else if reg ≠ NO_REG ∧ reg ≠ GETARG_B i then (true, code.set pi (SETARG_A i reg))
  else -- no register to put value or register already has the value
    (true, code.set pi (CREATE_ABC OP_TEST.toWord (GETARG_B i) 0 (GETARG_C i)))

/-- One round of `patchlistaux`. -/
def patchnode (code : List Word) (node : Nat) (vtarget : Int) (reg : Word) (dtarget : Int) :
    Except CodeError (List Word) :=
  let (patched, code) := patchtestreg code node reg
  fixjump code node (if patched then vtarget else dtarget)

def patchlistaux : Nat → List Word → Int → Int → Word → Int → Except CodeError (List Word)
  | 0, code, _, _, _, _ => .ok code
  | fuel + 1, code, list, vtarget, reg, dtarget =>
    if list = NO_JUMP then .ok code
    else do
      let next := getjump code list.toNat
      let code ← patchnode code list.toNat vtarget reg dtarget
      patchlistaux fuel code next vtarget reg dtarget

def dischargejpc (fs : FuncState) : Except CodeError FuncState := do
  let code ← patchlistaux fs.code.length fs.code fs.jpc fs.pc NO_REG fs.pc
  pure { fs with code, jpc := NO_JUMP }

/-- `luaK_code`: the instruction's position, too. -/
def luaK_code (fs : FuncState) (i : Word) : Except CodeError (FuncState × Int) := do
  let fs ← dischargejpc fs
  pure ({ fs with code := fs.code ++ [i] }, fs.pc)

def luaK_codeAsBx (fs : FuncState) (o : OpCode) (a : Word) (sbx : Int) :
    Except CodeError (FuncState × Int) :=
  luaK_code fs (CREATE_ABx o.toWord a (BitVec.ofInt 32 (sbx + MAXARG_sBx)))

/-- `while ((next = getjump(fs, list)) != NO_JUMP) list = next;` -/
def lastjump (code : List Word) : Nat → Nat → Nat
  | 0, list => list
  | fuel + 1, list =>
    let next := getjump code list
    if next = NO_JUMP then list else lastjump code fuel next.toNat

/-- `luaK_concat`: the list `*l1` afterwards, too. -/
def luaK_concat (code : List Word) (l1 l2 : Int) : Except CodeError (Int × List Word) :=
  if l2 = NO_JUMP then .ok (l1, code)
  else if l1 = NO_JUMP then .ok (l2, code)
  else do
    let code ← fixjump code (lastjump code code.length l1.toNat) l2
    pure (l1, code)

def luaK_jump (fs : FuncState) : Except CodeError (FuncState × Int) := do
  let jpc := fs.jpc -- save list of jumps to here
  let (fs, j) ← luaK_codeAsBx { fs with jpc := NO_JUMP } OP_JMP 0 NO_JUMP
  let (j, code) ← luaK_concat fs.code j jpc -- keep them on hold
  pure ({ fs with code }, j)

def luaK_patchtohere (fs : FuncState) (list : Int) : Except CodeError FuncState := do
  let fs := luaK_getlabel fs
  let (jpc, code) ← luaK_concat fs.code fs.jpc list
  pure { fs with code, jpc }

def luaK_patchlist (fs : FuncState) (list target : Int) : Except CodeError FuncState :=
  if target = fs.pc then luaK_patchtohere fs list
  else do
    let code ← patchlistaux fs.code.length fs.code list target NO_REG target
    pure { fs with code }

/-! ## Words -/

/-- The offset that was stored is read back. -/
theorem GETARG_sBx_SETARG_sBx {i : Word} {b : Int} (hb : b.natAbs ≤ MAXARG_sBx) :
    GETARG_sBx (SETARG_sBx i b) = b := by
  have hmax : (MAXARG_sBx : Int) = 131071 := by decide
  have hlt : ((BitVec.ofInt 32 (b + MAXARG_sBx)).toNat : Int) = b + MAXARG_sBx := by
    rw [BitVec.toNat_ofInt, Int.toNat_of_nonneg (Int.emod_nonneg _ (by decide))]
    exact Int.emod_eq_of_lt (by omega) (by omega)
  have hfield : (BitVec.ofInt 32 (b + MAXARG_sBx)).toNat < 2 ^ SIZE_Bx := by
    have : (2 : Nat) ^ SIZE_Bx = 262144 := by decide
    omega
  rw [GETARG_sBx, SETARG_sBx, GETARG_Bx_SETARG_Bx, getField_eq_self hfield, hlt]
  omega

theorem GET_OPCODE_SETARG_sBx (i : Word) (b : Int) : GET_OPCODE (SETARG_sBx i b) = GET_OPCODE i :=
  GET_OPCODE_SETARG_Bx i _

theorem getLsbD_of_toNat_lt {v : Word} {n i : Nat} (hv : v.toNat < 2 ^ n) (hi : n ≤ i) :
    v.getLsbD i = false := by
  rw [← BitVec.testBit_toNat]
  exact Nat.testBit_lt_two_pow (Nat.lt_of_lt_of_le hv (Nat.pow_le_pow_right (by omega) hi))

theorem GET_OPCODE_CREATE_ABx {o : OpCode} {a bc : Word} (ha : a.toNat < 2 ^ SIZE_A)
    (hbc : bc.toNat < 2 ^ SIZE_Bx) : GET_OPCODE (CREATE_ABx o.toWord a bc) = o.toWord := by
  have ho : o.toWord.toNat < 2 ^ SIZE_OP := by cases o <;> decide
  apply BitVec.eq_of_getLsbD_eq
  intro i hi
  rw [GET_OPCODE, getLsbD_getField hi, CREATE_ABx]
  by_cases hop : i < SIZE_OP
  · have h6 : i < 6 := hop
    simp only [BitVec.getLsbD_or, BitVec.getLsbD_shiftLeft, POS_OP, POS_A, POS_Bx, POS_C]
    rw [getLsbD_of_toNat_lt ha (by simp only [SIZE_A]; omega),
      getLsbD_of_toNat_lt hbc (by simp only [SIZE_Bx, SIZE_B, SIZE_C]; omega),
      Nat.add_sub_cancel_left]
    have h32 : 26 + i < 32 := by omega
    simp [hop, h32]
  · rw [getLsbD_of_toNat_lt ho (Nat.not_lt.mp hop)]
    simp [hop]

theorem GETARG_Bx_CREATE_ABx {o a bc : Word} (hbc : bc.toNat < 2 ^ SIZE_Bx) :
    GETARG_Bx (CREATE_ABx o a bc) = bc := by
  apply BitVec.eq_of_getLsbD_eq
  intro i hi
  rw [GETARG_Bx, getLsbD_getField hi, CREATE_ABx]
  by_cases hb : i < SIZE_Bx
  · have h18 : i < 18 := hb
    have h26 : i < 26 := by omega
    simp [BitVec.getLsbD_or, BitVec.getLsbD_shiftLeft, POS_OP, POS_A, POS_Bx, POS_C, h18, h26, hb]
  · rw [getLsbD_of_toNat_lt hbc (Nat.not_lt.mp hb)]
    simp [hb]

theorem wordAt_set {code : List Word} {n m : Nat} (hn : n < code.length) (w : Word) :
    wordAt (code.set n w) m = if m = n then w else wordAt code m := by
  rw [wordAt, wordAt, List.getD_eq_getElem?_getD, List.getD_eq_getElem?_getD, List.getElem?_set]
  by_cases hm : m = n
  · rw [if_pos hm, if_pos hm.symm, if_pos (hm ▸ hn), Option.getD_some]
  · rw [if_neg hm, if_neg (Ne.symm hm)]

theorem wordAt_append {code : List Word} {m : Nat} (hm : m < code.length) (w : List Word) :
    wordAt (code ++ w) m = wordAt code m := by
  rw [wordAt, wordAt, List.getD_eq_getElem?_getD, List.getD_eq_getElem?_getD,
    List.getElem?_append_left hm]

theorem wordAt_concat (code : List Word) (w : Word) : wordAt (code ++ [w]) code.length = w := by
  rw [wordAt, List.getD_eq_getElem?_getD, List.getElem?_append_right (Nat.le_refl _),
    Nat.sub_self]
  rfl

/-! ## Jumps -/

/-- The instructions whose operand is an offset. -/
def isJump (i : Word) : Prop := ∃ op, GET_OPCODE i = op.toWord ∧ getOpMode op = iAsBx

/-- Where the jump at `n` leads. -/
def dest (code : List Word) (n : Nat) : Int := n + 1 + GETARG_sBx (wordAt code n)

theorem toWord_injective {o o' : OpCode} (h : o.toWord = o'.toWord) : o = o' := by
  have := OpCode.ofWord_toWord o
  rw [h, OpCode.ofWord_toWord] at this
  exact (Option.some.inj this).symm

theorem testTMode_toWord (op : OpCode) : testTMode op.toWord = (luaP_opmodes op).testT := by
  rw [testTMode, OpCode.ofWord_toWord]

theorem isJump.not_test {i : Word} (h : isJump i) : testTMode (GET_OPCODE i) = false := by
  obtain ⟨op, hop, hmode⟩ := h
  rw [hop, testTMode_toWord]
  cases op <;> first | rfl | exact absurd hmode (by decide)

theorem isJump.ne_testset {i : Word} (h : isJump i) : GET_OPCODE i ≠ OP_TESTSET.toWord := by
  intro heq
  have hnot := h.not_test
  rw [heq] at hnot
  exact absurd hnot (by decide)

theorem isJump.of_opcode {i j : Word} (h : isJump i) (heq : GET_OPCODE j = GET_OPCODE i) :
    isJump j := by
  obtain ⟨op, hop, hmode⟩ := h
  exact ⟨op, heq.trans hop, hmode⟩

/-! ## Lists of jumps -/

/-- The jump after the one at `n`. -/
def nextJump (code : List Word) (n : Nat) : Option Nat :=
  if 0 ≤ getjump code n then some (getjump code n).toNat else none

/-- The name of a list. -/
def listOf : List Nat → Int
  | [] => NO_JUMP
  | n :: _ => n

/-- A jump in a list: the next one is a position, or the end. -/
structure Node (code : List Word) (n : Nat) : Prop where
  lt : n < code.length
  jump : isJump (wordAt code n)
  next : NO_JUMP ≤ getjump code n

/-- The list that starts at `listOf l` runs through the positions `l`. -/
structure JumpList (code : List Word) (l : List Nat) : Prop where
  node : ∀ n ∈ l, Node code n
  segment : Segment (nextJump code) l.head? l none

variable {code code' : List Word} {l : List Nat} {n : Nat}

theorem JumpList.nil : JumpList code [] := ⟨List.forall_mem_nil _, rfl⟩

theorem Node.nextJump_eq_none (h : Node code n) : nextJump code n = none ↔ getjump code n = NO_JUMP := by
  have := h.next
  unfold nextJump NO_JUMP at *
  split_ifs with hpos
  · simp only [false_iff]
    omega
  · simp only [true_iff]
    omega

/-- What `getjump` gives in a list is the list of the rest. -/
theorem JumpList.tail (h : JumpList code (n :: l)) :
    getjump code n = listOf l ∧ JumpList code l := by
  have hnode := h.node n List.mem_cons_self
  have hsegment : Segment (nextJump code) (nextJump code n) l none := h.segment.2
  cases l with
  | nil => exact ⟨hnode.nextJump_eq_none.mp hsegment, JumpList.nil⟩
  | cons m l =>
    have hm : nextJump code n = some m := hsegment.1
    refine ⟨?_, fun k hk => h.node k (List.mem_cons_of_mem n hk), rfl, hsegment.2⟩
    unfold nextJump at hm
    split_ifs at hm with hpos
    · rw [listOf, ← Option.some.inj hm]
      exact (Int.toNat_of_nonneg hpos).symm

theorem JumpList.length_le (h : JumpList code l) : l.length ≤ code.length := by
  have hsub : l ⊆ List.range code.length := fun n hn => List.mem_range.mpr (h.node n hn).lt
  have := h.segment.nodup.length_le_of_subset hsub
  rwa [List.length_range] at this

/-- A change that keeps the words of a list keeps the list. -/
theorem JumpList.congr (h : JumpList code l) (hlen : code'.length = code.length)
    (hword : ∀ n ∈ l, wordAt code' n = wordAt code n) : JumpList code' l := by
  have hget : ∀ n ∈ l, getjump code' n = getjump code n := fun n hn => by
    rw [getjump, getjump, hword n hn]
  refine ⟨fun n hn => ⟨?_, ?_, ?_⟩, h.segment.congr fun n hn => ?_⟩
  · rw [hlen]
    exact (h.node n hn).lt
  · rw [hword n hn]
    exact (h.node n hn).jump
  · rw [hget n hn]
    exact (h.node n hn).next
  · rw [nextJump, nextJump, hget n hn]

/-- More code behind it does, too. -/
theorem JumpList.append (h : JumpList code l) (w : Word) : JumpList (code ++ [w]) l := by
  have hword : ∀ n ∈ l, wordAt (code ++ [w]) n = wordAt code n := fun n hn =>
    wordAt_append (h.node n hn).lt _
  have hget : ∀ n ∈ l, getjump (code ++ [w]) n = getjump code n := fun n hn => by
    rw [getjump, getjump, hword n hn]
  refine ⟨fun n hn => ⟨?_, ?_, ?_⟩, h.segment.congr fun n hn => ?_⟩
  · rw [List.length_append]
    exact Nat.lt_add_right _ (h.node n hn).lt
  · rw [hword n hn]
    exact (h.node n hn).jump
  · rw [hget n hn]
    exact (h.node n hn).next
  · rw [nextJump, nextJump, hget n hn]

/-- A list of one jump behind the code. -/
theorem JumpList.last {w : Word} (hw : JumpLists.isJump w) (hend : GETARG_sBx w = NO_JUMP) :
    JumpList (code ++ [w]) [code.length] := by
  have hword := wordAt_concat code w
  have hget : getjump (code ++ [w]) code.length = NO_JUMP := by
    unfold getjump
    rw [hword, if_pos hend]
  refine ⟨?_, rfl, ?_⟩
  · rw [List.forall_mem_singleton]
    refine ⟨?_, by rwa [hword], Int.le_of_eq hget.symm⟩
    rw [List.length_append]
    exact Nat.lt_succ_self _
  · rw [nextJump, hget]
    rfl

/-! ## Patching one jump -/

/-- The jump at `n` is decided by a `TESTSET`. -/
def byTestset (code : List Word) (n : Nat) : Prop :=
  1 ≤ n ∧ GET_OPCODE (wordAt code (n - 1)) = OP_TESTSET.toWord

instance (code : List Word) (n : Nat) : Decidable (byTestset code n) :=
  inferInstanceAs (Decidable (_ ∧ _))

/-- What becomes of such a `TESTSET`. -/
def patchedTest (i reg : Word) : Word :=
  if reg ≠ NO_REG ∧ reg ≠ GETARG_B i then SETARG_A i reg
  else CREATE_ABC OP_TEST.toWord (GETARG_B i) 0 (GETARG_C i)

theorem not_jump_of_opcode {i : Word} (op : OpCode) (hop : GET_OPCODE i = op.toWord)
    (hmode : getOpMode op ≠ iAsBx) : ¬ isJump i := by
  rintro ⟨op', hop', hmode'⟩
  obtain rfl := toWord_injective (hop.symm.trans hop')
  exact hmode hmode'

/-- `A` has a bit less than `B`: should it spill over, it does so into the lowest bit of
the opcode. -/
theorem getLsbD_opcode_test (i : Word) {j : Nat} (hpos : 0 < j) (hj : j < SIZE_OP) :
    (GET_OPCODE (CREATE_ABC OP_TEST.toWord (GETARG_B i) 0 (GETARG_C i))).getLsbD j
      = OP_TEST.toWord.getLsbD j := by
  have h6 : j < 6 := hj
  have hb : (GETARG_B i).toNat < 2 ^ SIZE_B := by
    rw [GETARG_B, toNat_getField]
    exact Nat.mod_lt _ (by decide)
  have hc : (GETARG_C i).toNat < 2 ^ SIZE_C := by
    rw [GETARG_C, toNat_getField]
    exact Nat.mod_lt _ (by decide)
  have h32 : 26 + j < 32 := by omega
  rw [GET_OPCODE, getLsbD_getField (by omega), CREATE_ABC]
  simp only [BitVec.getLsbD_or, BitVec.getLsbD_shiftLeft, POS_OP, POS_A, POS_B, POS_C]
  rw [getLsbD_of_toNat_lt hb (by simp only [SIZE_B]; omega),
    getLsbD_of_toNat_lt hc (by simp only [SIZE_C]; omega), Nat.add_sub_cancel_left]
  simp [hj, h32]

theorem patchedTest_not_jump {i : Word} (hset : GET_OPCODE i = OP_TESTSET.toWord) (reg : Word) :
    ¬ isJump (patchedTest i reg) := by
  rw [patchedTest]
  split_ifs with hreg
  · exact not_jump_of_opcode OP_TESTSET (by rw [GET_OPCODE_SETARG_A, hset]) (by decide)
  · rintro ⟨op, hop, hmode⟩
    have h2 := getLsbD_opcode_test i (j := 2) (by decide) (by decide)
    have h3 := getLsbD_opcode_test i (j := 3) (by decide) (by decide)
    rw [hop] at h2 h3
    cases op <;>
      first
        | exact absurd hmode (by decide)
        | exact absurd h2 (by decide)
        | exact absurd h3 (by decide)

theorem patchtestreg_eq (hjump : isJump (wordAt code n)) (reg : Word) :
    patchtestreg code n reg
      = if byTestset code n then (true, code.set (n - 1) (patchedTest (wordAt code (n - 1)) reg))
        else (false, code) := by
  have hself : GET_OPCODE (wordAt code n) ≠ OP_TESTSET.toWord := hjump.ne_testset
  unfold patchtestreg getjumpcontrol
  by_cases htest : 1 ≤ n ∧ testTMode (GET_OPCODE (wordAt code (n - 1))) = true
  · rw [if_pos htest]
    by_cases hset : GET_OPCODE (wordAt code (n - 1)) = OP_TESTSET.toWord
    · have hby : byTestset code n := ⟨htest.1, hset⟩
      rw [if_neg (not_not.mpr hset), if_pos hby, patchedTest]
      by_cases hreg : reg ≠ NO_REG ∧ reg ≠ GETARG_B (wordAt code (n - 1))
      · rw [if_pos hreg, if_pos hreg]
      · rw [if_neg hreg, if_neg hreg]
    · have hby : ¬ byTestset code n := fun h => hset h.2
      rw [if_pos hset, if_neg hby]
  · have hby : ¬ byTestset code n := fun h => htest ⟨h.1, by rw [h.2]; rfl⟩
    rw [if_neg htest, if_pos hself, if_neg hby]

/-- What patching the jumps `l` makes of the code: each leads to the value's target or
to the default one, the `TESTSET`s before them get the register, and nothing else
changes. -/
structure Patched (code code' : List Word) (l : List Nat) (vtarget : Int) (reg : Word)
    (dtarget : Int) : Prop where
  length : code'.length = code.length
  dest : ∀ n ∈ l, dest code' n = if byTestset code n then vtarget else dtarget
  opcode : ∀ n ∈ l, GET_OPCODE (wordAt code' n) = GET_OPCODE (wordAt code n)
  word : ∀ m ∉ l, wordAt code' m
    = if m + 1 ∈ l ∧ GET_OPCODE (wordAt code m) = OP_TESTSET.toWord then
        patchedTest (wordAt code m) reg else wordAt code m

theorem fixjump_ok {d : Int} (h : fixjump code n d = .ok code') (hn : n < code.length) :
    code'.length = code.length ∧ dest code' n = d
      ∧ GET_OPCODE (wordAt code' n) = GET_OPCODE (wordAt code n)
      ∧ ∀ m ≠ n, wordAt code' m = wordAt code m := by
  unfold fixjump at h
  dsimp only at h
  split_ifs at h with hfar
  · obtain rfl := Except.ok.inj h
    refine ⟨List.length_set, ?_, ?_, fun m hm => ?_⟩
    · rw [dest, wordAt_set hn, if_pos rfl, GETARG_sBx_SETARG_sBx (Nat.not_lt.mp hfar)]
      omega
    · rw [wordAt_set hn, if_pos rfl, GET_OPCODE_SETARG_sBx]
    · rw [wordAt_set hn, if_neg hm]

theorem patchnode_patched {vtarget dtarget : Int} {reg : Word} (hn : n < code.length)
    (hjump : isJump (wordAt code n)) (h : patchnode code n vtarget reg dtarget = .ok code') :
    Patched code code' [n] vtarget reg dtarget := by
  unfold patchnode at h
  rw [patchtestreg_eq hjump] at h
  by_cases hset : byTestset code n
  · -- the test in front of the jump gets the register, and the jump the value's target
    rw [if_pos hset] at h
    have hlen : (code.set (n - 1) (patchedTest (wordAt code (n - 1)) reg)).length = code.length :=
      List.length_set
    have hn1 : n - 1 < code.length := by omega
    have hne : n ≠ n - 1 := by
      have := hset.1
      omega
    obtain ⟨hlen', hdest, hop, hword⟩ := fixjump_ok h (by rw [hlen]; exact hn)
    rw [wordAt_set hn1, if_neg hne] at hop
    refine ⟨hlen'.trans hlen, ?_, ?_, fun m hm => ?_⟩
    · rw [List.forall_mem_singleton, if_pos hset]
      exact hdest
    · rw [List.forall_mem_singleton]
      exact hop
    · have hmn : m ≠ n := fun heq => hm (List.mem_singleton.mpr heq)
      rw [hword m hmn, wordAt_set hn1]
      by_cases hm1 : m = n - 1
      · rw [if_pos hm1, if_pos ⟨List.mem_singleton.mpr (by omega), hm1 ▸ hset.2⟩, hm1]
      · rw [if_neg hm1, if_neg fun hcond => hm1 ?_]
        have := List.mem_singleton.mp hcond.1
        omega
  · -- no such test, so the default target
    rw [if_neg hset] at h
    obtain ⟨hlen, hdest, hop, hword⟩ := fixjump_ok h hn
    refine ⟨hlen, ?_, ?_, fun m hm => ?_⟩
    · rw [List.forall_mem_singleton, if_neg hset]
      exact hdest
    · rw [List.forall_mem_singleton]
      exact hop
    · have hmn : m ≠ n := fun heq => hm (List.mem_singleton.mpr heq)
      rw [hword m hmn, if_neg fun hcond => hset ?_]
      have hm1 := List.mem_singleton.mp hcond.1
      have hnm : n - 1 = m := by omega
      exact ⟨by omega, hnm ▸ hcond.2⟩

/-! ## Patching a list -/

section

variable {vtarget dtarget : Int} {reg : Word} {c : List Word}

/-- Which jumps a `TESTSET` decides on is not changed by patching others. -/
theorem Patched.byTestset_iff (h : Patched code code' l vtarget reg dtarget) {m : Nat}
    (hm : m ∉ l) : byTestset code' m ↔ byTestset code m := by
  have hop : 1 ≤ m → GET_OPCODE (wordAt code' (m - 1)) = GET_OPCODE (wordAt code (m - 1)) := by
    intro hpos
    by_cases hprev : m - 1 ∈ l
    · exact h.opcode _ hprev
    · have hsucc : m - 1 + 1 = m := by omega
      rw [h.word _ hprev, hsucc, if_neg fun hcond => hm hcond.1]
  unfold byTestset
  exact and_congr_right fun hpos => by rw [hop hpos]

/-- Another jump is left alone. -/
theorem Patched.wordAt_eq (h : Patched code code' l vtarget reg dtarget) {m : Nat} (hm : m ∉ l)
    (hjump : isJump (wordAt code m)) : wordAt code' m = wordAt code m := by
  rw [h.word m hm, if_neg fun hcond => hjump.ne_testset hcond.2]

theorem Patched.isJump (h : Patched code code' l vtarget reg dtarget) {m : Nat}
    (hjump : isJump (wordAt code m)) : JumpLists.isJump (wordAt code' m) := by
  by_cases hm : m ∈ l
  · exact hjump.of_opcode (h.opcode m hm)
  · rwa [h.wordAt_eq hm hjump]

/-- One jump, then the others. -/
theorem Patched.cons (hn : Patched code c [n] vtarget reg dtarget)
    (hl : Patched c code' l vtarget reg dtarget) (hnl : n ∉ l)
    (hjump : ∀ m ∈ n :: l, JumpLists.isJump (wordAt code m)) :
    Patched code code' (n :: l) vtarget reg dtarget := by
  have hne : ∀ m ∈ l, m ∉ [n] := fun m hm heq => hnl (List.mem_singleton.mp heq ▸ hm)
  have hjumpn := hn.isJump (hjump n List.mem_cons_self)
  refine ⟨hl.length.trans hn.length, fun m hm => ?_, fun m hm => ?_, fun m hm => ?_⟩
  · rcases List.mem_cons.mp hm with rfl | hml
    · have hkeep : JumpLists.dest code' m = JumpLists.dest c m := by
        rw [JumpLists.dest, JumpLists.dest, hl.wordAt_eq hnl hjumpn]
      rw [hkeep]
      exact hn.dest m (List.mem_singleton_self m)
    · rw [hl.dest m hml]
      exact if_congr (hn.byTestset_iff (hne m hml)) rfl rfl
  · rcases List.mem_cons.mp hm with rfl | hml
    · rw [hl.wordAt_eq hnl hjumpn]
      exact hn.opcode m (List.mem_singleton_self m)
    · rw [hl.opcode m hml, hn.wordAt_eq (hne m hml) (hjump m hm)]
  · obtain ⟨hmn, hml⟩ := not_or.mp fun h => hm (List.mem_cons.mpr h)
    rw [hl.word m hml, hn.word m fun h => hmn (List.mem_singleton.mp h)]
    by_cases hsucc : m + 1 = n
    · -- the test before this jump is patched in this round and in no other
      rw [if_neg fun hcond => hnl (hsucc ▸ hcond.1)]
      refine if_congr (and_congr_left fun _ => ?_) rfl rfl
      rw [hsucc]
      exact iff_of_true (List.mem_singleton_self n) List.mem_cons_self
    · have hmem : m + 1 ∈ l ↔ m + 1 ∈ n :: l :=
        (List.mem_cons.trans (or_iff_right hsucc)).symm
      have hskip : ¬ (m + 1 ∈ [n] ∧ GET_OPCODE (wordAt code m) = OP_TESTSET.toWord) :=
        fun hcond => hsucc (List.mem_singleton.mp hcond.1)
      simp only [if_neg hskip]
      exact if_congr (and_congr_left fun _ => hmem) rfl rfl

theorem JumpList.isJump (h : JumpList code l) : ∀ n ∈ l, JumpLists.isJump (wordAt code n) :=
  fun n hn => (h.node n hn).jump

theorem listOf_nil : listOf [] = NO_JUMP := rfl

theorem listOf_cons (n : Nat) (l : List Nat) : listOf (n :: l) = n := rfl

theorem listOf_cons_ne (n : Nat) (l : List Nat) : listOf (n :: l) ≠ NO_JUMP := by
  show (n : Int) ≠ -1
  omega

/-- **`patchlistaux` patches exactly the jumps of its list.** -/
theorem patchlistaux_patched : ∀ {l : List Nat} {fuel : Nat} {code : List Word},
    JumpList code l → l.length ≤ fuel →
    patchlistaux fuel code (listOf l) vtarget reg dtarget = .ok code' →
    Patched code code' l vtarget reg dtarget := by
  intro l
  induction l with
  | nil =>
    intro fuel code _ _ h
    have hcode : code = code' := by
      cases fuel with
      | zero => exact Except.ok.inj h
      | succ fuel =>
        rw [listOf, patchlistaux, if_pos rfl] at h
        exact Except.ok.inj h
    subst hcode
    refine ⟨rfl, List.forall_mem_nil _, List.forall_mem_nil _, fun m _ => ?_⟩
    rw [if_neg fun hcond => List.not_mem_nil hcond.1]
  | cons n l ih =>
    intro fuel code hlist hfuel h
    cases fuel with
    | zero => exact absurd hfuel (Nat.not_succ_le_zero _)
    | succ fuel =>
      have hnode := hlist.node n List.mem_cons_self
      have hnl : n ∉ l := (List.nodup_cons.mp hlist.segment.nodup).1
      obtain ⟨hnext, htail⟩ := hlist.tail
      rw [patchlistaux, if_neg (listOf_cons_ne n l)] at h
      have hnat : (listOf (n :: l)).toNat = n := Int.toNat_natCast n
      rw [hnat, hnext] at h
      cases hpatch : patchnode code n vtarget reg dtarget with
      | error e =>
        rw [hpatch] at h
        exact nomatch h
      | ok c =>
        rw [hpatch] at h
        have hn := patchnode_patched hnode.lt hnode.jump hpatch
        -- the jumps that are left are not changed by this one
        have hkeep : JumpList c l := htail.congr hn.length fun m hm =>
          hn.wordAt_eq (fun heq => hnl (List.mem_singleton.mp heq ▸ hm)) (htail.isJump m hm)
        exact hn.cons (ih hkeep (Nat.le_of_succ_le_succ hfuel) h) hnl hlist.isJump

end

/-! ## Joining lists -/

/-- The last jump of a list. -/
theorem lastjump_eq : ∀ {fuel : Nat} {l : List Nat} {n : Nat}, JumpList code (n :: l) →
    l.length ≤ fuel → ∃ l', n :: l = l' ++ [lastjump code fuel n] := by
  intro fuel
  induction fuel with
  | zero =>
    intro l n _ hfuel
    obtain rfl : l = [] := List.length_eq_zero_iff.mp (Nat.le_zero.mp hfuel)
    exact ⟨[], rfl⟩
  | succ fuel ih =>
    intro l n hlist hfuel
    obtain ⟨hnext, htail⟩ := hlist.tail
    rw [lastjump, hnext]
    cases l with
    | nil => exact ⟨[], by rw [listOf, if_pos rfl]; rfl⟩
    | cons m l =>
      rw [if_neg (listOf_cons_ne m l)]
      obtain ⟨l', hl'⟩ := ih htail (Nat.le_of_succ_le_succ hfuel)
      have hnat : (listOf (m :: l)).toNat = m := Int.toNat_natCast m
      exact ⟨n :: l', by rw [hnat, List.cons_append, ← hl']⟩

/-- The last jump of the one list made to lead to the first of the other. -/
theorem JumpList.concat {l₁ l₂ : List Nat} {a m : Nat} (h₁ : JumpList code (l₁ ++ [a]))
    (h₂ : JumpList code (m :: l₂)) (hdisjoint : List.Disjoint (l₁ ++ [a]) (m :: l₂))
    (hfixed : code'.length = code.length ∧ dest code' a = listOf (m :: l₂)
      ∧ GET_OPCODE (wordAt code' a) = GET_OPCODE (wordAt code a)
      ∧ ∀ k ≠ a, wordAt code' k = wordAt code k) :
    JumpList code' (l₁ ++ [a] ++ m :: l₂) := by
  obtain ⟨hlen, hdest, hop, hword⟩ := hfixed
  have ha : a ∈ l₁ ++ [a] := List.mem_append_right l₁ (List.mem_singleton_self a)
  have hne : ∀ k ∈ m :: l₂, k ≠ a := fun k hk heq => hdisjoint ha (heq ▸ hk)
  have hgeta : getjump code' a = m := by
    have hm := hne m List.mem_cons_self
    rw [dest, listOf_cons] at hdest
    unfold getjump NO_JUMP
    dsimp only
    rw [if_neg (by omega)]
    exact hdest
  have hget : ∀ k ≠ a, getjump code' k = getjump code k := fun k hk => by
    rw [getjump, getjump, hword k hk]
  -- of the links only that of `a` is new
  have hnext : nextJump code' = Function.update (nextJump code) a (some m) := by
    funext k
    by_cases hk : k = a
    · rw [hk, Function.update_self, nextJump, hgeta, if_pos (Int.natCast_nonneg m),
        Int.toNat_natCast]
    · rw [Function.update_of_ne hk, nextJump, nextJump, hget k hk]
  refine ⟨fun k hk => ?_, ?_⟩
  · have hnode : Node code k := by
      rcases List.mem_append.mp hk with hk | hk
      · exact h₁.node k hk
      · exact h₂.node k hk
    refine ⟨hlen ▸ hnode.lt, ?_, ?_⟩
    · by_cases hka : k = a
      · rw [hka] at hnode ⊢
        exact hnode.jump.of_opcode hop
      · rw [hword k hka]
        exact hnode.jump
    · by_cases hka : k = a
      · rw [hka, hgeta]
        unfold NO_JUMP
        omega
      · rw [hget k hka]
        exact hnode.next
  · have hhead : (l₁ ++ [a] ++ m :: l₂).head? = (l₁ ++ [a]).head? := by
      rw [List.head?_append_of_ne_nil _ (List.append_ne_nil_of_right_ne_nil l₁ (by simp))]
    rw [hnext, hhead]
    exact h₁.segment.concat h₂.segment hne

/-- The first list goes on with the second, and no other word changes but the operand of
one of its jumps. -/
structure Joined (code code' : List Word) (l₁ l₂ : List Nat) : Prop where
  list : JumpList code' (l₁ ++ l₂)
  length : code'.length = code.length
  opcode : ∀ m, GET_OPCODE (wordAt code' m) = GET_OPCODE (wordAt code m)
  word : ∀ m ∉ l₁, wordAt code' m = wordAt code m

theorem Joined.same {l₁ l₂ : List Nat} (h : JumpList code (l₁ ++ l₂)) : Joined code code l₁ l₂ :=
  ⟨h, rfl, fun _ => rfl, fun _ _ => rfl⟩

/-- **`luaK_concat` appends.** -/
theorem luaK_concat_joined {l₁ l₂ : List Nat} {list : Int} (h₁ : JumpList code l₁)
    (h₂ : JumpList code l₂) (hdisjoint : List.Disjoint l₁ l₂)
    (h : luaK_concat code (listOf l₁) (listOf l₂) = .ok (list, code')) :
    list = listOf (l₁ ++ l₂) ∧ Joined code code' l₁ l₂ := by
  cases l₂ with
  | nil =>
    rw [luaK_concat, if_pos listOf_nil] at h
    obtain ⟨rfl, rfl⟩ := Prod.mk.inj (Except.ok.inj h)
    rw [List.append_nil]
    exact ⟨rfl, Joined.same (by rwa [List.append_nil])⟩
  | cons m l₂ =>
    rw [luaK_concat, if_neg (listOf_cons_ne m l₂)] at h
    cases l₁ with
    | nil =>
      rw [if_pos listOf_nil] at h
      obtain ⟨rfl, rfl⟩ := Prod.mk.inj (Except.ok.inj h)
      exact ⟨rfl, Joined.same h₂⟩
    | cons n l₁ =>
      rw [if_neg (listOf_cons_ne n l₁)] at h
      have hnat : (listOf (n :: l₁)).toNat = n := Int.toNat_natCast n
      have hlen : l₁.length ≤ code.length := Nat.le_of_succ_le h₁.length_le
      -- the walk to the end of the first list finds its last jump
      obtain ⟨l', hl'⟩ := lastjump_eq h₁ hlen
      rw [hnat] at h
      generalize lastjump code code.length n = a at h hl'
      have ha : a ∈ n :: l₁ := hl' ▸ List.mem_append_right l' (List.mem_singleton_self a)
      cases hfix : fixjump code a (listOf (m :: l₂)) with
      | error e =>
        rw [hfix] at h
        exact nomatch h
      | ok c =>
        rw [hfix] at h
        obtain ⟨rfl, rfl⟩ := Prod.mk.inj (Except.ok.inj h)
        have hfixed := fixjump_ok hfix (h₁.node a ha).lt
        refine ⟨rfl, ?_, hfixed.1, fun k => ?_, fun k hk => ?_⟩
        · rw [hl'] at h₁ hdisjoint ⊢
          exact h₁.concat h₂ hdisjoint hfixed
        · by_cases hka : k = a
          · rw [hka]
            exact hfixed.2.2.1
          · rw [hfixed.2.2.2 k hka]
        · exact hfixed.2.2.2 k fun hka => hk (hka ▸ ha)

/-! ## What the calls do -/

section

variable {fs fs' : FuncState} {i : Word} {j : Int}

theorem luaK_code_ok (h : luaK_code fs i = .ok (fs', j)) :
    ∃ c, patchlistaux fs.code.length fs.code fs.jpc fs.pc NO_REG fs.pc = .ok c
      ∧ fs' = { fs with code := c ++ [i], jpc := NO_JUMP } ∧ j = c.length := by
  unfold luaK_code dischargejpc at h
  cases hpatch : patchlistaux fs.code.length fs.code fs.jpc fs.pc NO_REG fs.pc with
  | error e =>
    rw [hpatch] at h
    exact nomatch h
  | ok c =>
    rw [hpatch] at h
    obtain ⟨rfl, rfl⟩ := Prod.mk.inj (Except.ok.inj h)
    exact ⟨c, rfl, rfl, rfl⟩

/-- The words that start a list. -/
theorem jump_word {a : Word} (o : OpCode) (ha : a.toNat < 2 ^ SIZE_A) :
    GET_OPCODE (CREATE_ABx o.toWord a (BitVec.ofInt 32 (NO_JUMP + MAXARG_sBx))) = o.toWord
      ∧ GETARG_sBx (CREATE_ABx o.toWord a (BitVec.ofInt 32 (NO_JUMP + MAXARG_sBx))) = NO_JUMP := by
  have hbx : (BitVec.ofInt 32 (NO_JUMP + MAXARG_sBx)).toNat < 2 ^ SIZE_Bx := by decide
  refine ⟨GET_OPCODE_CREATE_ABx ha hbx, ?_⟩
  rw [GETARG_sBx, GETARG_Bx_CREATE_ABx hbx]
  decide

theorem patchlistaux_NO_JUMP (fuel : Nat) (code : List Word) (vtarget : Int) (reg : Word)
    (dtarget : Int) : patchlistaux fuel code NO_JUMP vtarget reg dtarget = .ok code := by
  cases fuel with
  | zero => rfl
  | succ fuel => rw [patchlistaux, if_pos rfl]

/-- `luaK_jump` codes a jump and appends what was on hold. -/
theorem luaK_jump_ok (h : luaK_jump fs = .ok (fs', j)) :
    ∃ c, luaK_concat
        (fs.code ++ [CREATE_ABx OP_JMP.toWord 0 (BitVec.ofInt 32 (NO_JUMP + MAXARG_sBx))])
        fs.code.length fs.jpc = .ok (j, c)
      ∧ fs' = { fs with code := c, jpc := NO_JUMP } := by
  unfold luaK_jump luaK_codeAsBx at h
  dsimp only at h
  cases hcode : luaK_code { fs with jpc := NO_JUMP }
      (CREATE_ABx OP_JMP.toWord 0 (BitVec.ofInt 32 (NO_JUMP + MAXARG_sBx))) with
  | error e =>
    rw [hcode] at h
    exact nomatch h
  | ok r =>
    obtain ⟨fs₁, j₁⟩ := r
    obtain ⟨c, hpatch, rfl, rfl⟩ := luaK_code_ok hcode
    rw [patchlistaux_NO_JUMP] at hpatch
    obtain rfl := Except.ok.inj hpatch
    rw [hcode] at h
    dsimp only [bind, Except.bind] at h
    split at h
    · exact nomatch h
    · next r hr =>
      obtain ⟨rfl, rfl⟩ := Prod.mk.inj (Except.ok.inj h)
      exact ⟨_, hr, rfl⟩

/-- `luaK_patchtohere`, in the order of what it does. -/
theorem luaK_patchtohere_ok {list : Int}
    (h : luaK_patchtohere fs list = .ok fs') : ∃ jpc c, luaK_concat fs.code fs.jpc list = .ok (jpc, c)
      ∧ fs' = { code := c, lasttarget := fs.pc, jpc } := by
  unfold luaK_patchtohere luaK_getlabel at h
  dsimp only at h
  cases hconcat : luaK_concat fs.code fs.jpc list with
  | error e =>
    rw [hconcat] at h
    exact nomatch h
  | ok r =>
    rw [hconcat] at h
    exact ⟨r.1, r.2, rfl, (Except.ok.inj h).symm⟩

end

end NostalgiaConv.JumpLists
