/-
`lua/lundump.c`, and which of the two producers `luaL_loadbuffer` takes.

A chunk that starts with the signature byte is read as a precompiled one, byte by
byte, and every proto that is read goes through the code checker. Other text goes to
the compiler, which is a parameter. `size_t` and `int` have four bytes, the first one
lowest; the state of a read is the rest of the input.
-/
import NostalgiaConv.CodeCheck
import NostalgiaConv.Hoare
import NostalgiaConv.SetList
import NostalgiaConv.Transpile

set_option autoImplicit false

namespace NostalgiaConv.Undump

open NostalgiaConv.Cipher NostalgiaConv.Host NostalgiaConv.Value NostalgiaConv.CodeCheck
open NostalgiaConv.Transpile NostalgiaConv.Relational NostalgiaConv.Hoare
open NostalgiaConv.Interpreter NostalgiaConv.Opcodes NostalgiaConv.SetList
open OpCode

/-- `error(S, why)`, and `luaM_toobig`. -/
inductive LoadError where
  | syntaxError (why : String)
  | runerror (msg : String)
  deriving DecidableEq

abbrev LoadM := EStateM LoadError (List Byte)

/-! ## Reading -/

def LoadBlock (size : Nat) : LoadM (List Byte) := fun z =>
  if size ≤ z.length then .ok (z.take size) (z.drop size)
  else .error (.syntaxError "unexpected end") []

/-- A number of the machine: the first byte is the lowest. -/
def leNat : List Byte → Nat
  | [] => 0
  | b :: bytes => b.toNat + 256 * leNat bytes

def LoadChar : LoadM Byte := do
  let bytes ← LoadBlock 1
  pure (BitVec.ofNat 8 (leNat bytes))

def LoadWord : LoadM Word := do
  let bytes ← LoadBlock 4
  pure (BitVec.ofNat 32 (leNat bytes))

def LoadInt : LoadM Nat := do
  let x ← LoadWord
  if x.toInt < 0 then throw (.syntaxError "bad integer") else pure x.toNat

def LoadNumber : LoadM (BitVec 64) := do
  let bytes ← LoadBlock 8
  pure (BitVec.ofNat 64 (leNat bytes))

def MAX_SIZET : Nat := 2 ^ 32 - 3

/-- `sizeof(TString)` -/
def sizeofTString : Nat := 16

def luaM_toobig : LoadError := .runerror "memory allocation error: block too big"

/-- The check of `luaZ_openspace`, whose buffer is never so large already; `n + 1` is
computed as a `size_t`. -/
def luaZ_openspace (n : Word) : LoadM PUnit := when (MAX_SIZET < (n + 1).toNat) (throw luaM_toobig)

/-- With the check of `newlstr`, which every string in the table has passed. -/
def newlstr (str : List Byte) : LoadM (Option TString) := do
  when (MAX_SIZET - sizeofTString < str.length + 1) (throw luaM_toobig)
  pure (some (luaS_newlstr str))

/-- A string of size zero is a null pointer. -/
def LoadString : LoadM (Option TString) := do
  let size ← LoadWord
  if size = 0 then pure none
  else do
    luaZ_openspace size
    let s ← LoadBlock size.toNat
    newlstr s.dropLast -- remove trailing '\0'

/-- The check of `luaM_newvector`, for `n` elements of `e` bytes. -/
def luaM_newvector (n e : Nat) : LoadM PUnit := when (MAX_SIZET / e < n + 1) (throw luaM_toobig)

/-- The first `n` words of a block. -/
def wordsOf : Nat → List Byte → List Word
  | 0, _ => []
  | n + 1, bytes => BitVec.ofNat 32 (leNat (bytes.take 4)) :: wordsOf n (bytes.drop 4)

/-- A vector of words, read in one block. -/
def LoadVector : LoadM (List Word) := do
  let n ← LoadInt
  luaM_newvector n 4
  let bytes ← LoadBlock (n * 4)
  pure (wordsOf n bytes)

/-- A vector of pointers or records, read one by one. -/
def LoadEach {α : Type} (e : Nat) (x : LoadM α) : LoadM (List α) := do
  let n ← LoadInt
  luaM_newvector n e
  times x n

def LoadCode : LoadM (List Word) := LoadVector

def LUA_TNIL : Byte := 0
def LUA_TBOOLEAN : Byte := 1
def LUA_TNUMBER : Byte := 3
def LUA_TSTRING : Byte := 4

def LoadConstant : LoadM LConstant := do
  let t ← LoadChar
  if t = LUA_TNIL then pure .nil
  else if t = LUA_TBOOLEAN then do
    let b ← LoadChar
    pure (.boolean (if b ≠ 0 then 1 else 0))
  else if t = LUA_TNUMBER then do
    let n ← LoadNumber
    pure (.number n)
  else if t = LUA_TSTRING then do
    let ts ← LoadString
    pure (.string ts)
  else throw (.syntaxError "bad constant")

/-- The constants, and the children. -/
def LoadConstants (loadFunction : LoadM LProto) : LoadM (List LConstant × List LProto) := do
  let k ← LoadEach 16 LoadConstant
  let p ← LoadEach 4 loadFunction
  pure (k, p)

/-- A local variable: its name, `startpc` and `endpc`, which are not used later. -/
def LoadLocVar : LoadM PUnit := do
  let _ ← LoadString
  let _ ← LoadInt
  let _ ← LoadInt

/-- The line numbers and the names of upvalues, with the local variables between. -/
def LoadDebug : LoadM (List Word × List (Option TString)) := do
  let lineinfo ← LoadVector
  let _ ← LoadEach 12 LoadLocVar
  let upvalues ← LoadEach 4 LoadString
  pure (lineinfo, upvalues)

/-- The first argument is how many C calls there may still be. -/
def LoadFunction : Nat → TString → LoadM LProto
  | 0, _ => throw (.syntaxError "code too deep")
  | depth + 1, p => do
    let source ← LoadString
    let source := source.getD p
    let _ ← LoadInt -- linedefined
    let _ ← LoadInt -- lastlinedefined
    let nups ← LoadChar
    let numparams ← LoadChar
    let is_vararg ← LoadChar
    let maxstacksize ← LoadChar
    let code ← LoadCode
    let (k, children) ← LoadConstants (LoadFunction depth source)
    let (lineinfo, upvalues) ← LoadDebug
    let f : LProto := .mk
      { source, nups, numparams, is_vararg, maxstacksize, code, k, lineinfo, upvalues }
      children.length (fun i => children.get i)
    if luaG_checkcode f then pure f else throw (.syntaxError "bad code")

/-- `luaU_header`: the signature, version 5.1, the official format, a one as its first
byte in memory, the sizes of `int`, `size_t`, `Instruction` and `lua_Number`, and that
numbers are not integral. -/
def luaU_header : List Byte := [0x1B, 0x4C, 0x75, 0x61, 0x51, 0, 1, 4, 4, 4, 8, 0]

def LUAC_HEADERSIZE : Nat := 12

def LoadHeader : LoadM PUnit := do
  let s ← LoadBlock LUAC_HEADERSIZE
  when (luaU_header ≠ s) (throw (.syntaxError "bad header"))

def LUAI_MAXCCALLS : Nat := 200

/-- `luaU_undump`, in a state with `nCcalls` C calls. -/
def luaU_undump (nCcalls : Nat) : LoadM LProto := do
  LoadHeader
  LoadFunction (LUAI_MAXCCALLS - nCcalls) (luaS_newlstr [0x3D, 0x3F]) -- "=?"

/-- A null pointer stands for nothing else. -/
theorem loadString_none_iff {z z' : List Byte} :
    LoadString z = .ok none z' ↔ LoadWord z = .ok 0 z' := by
  unfold LoadString
  constructor
  · intro h
    obtain ⟨size, z₁, hword, h⟩ := bind_eq_ok.mp h
    by_cases hsize : size = 0
    · rw [if_pos hsize] at h
      obtain ⟨-, rfl⟩ := EStateM.Result.ok.inj h
      rw [hword, hsize]
    · rw [if_neg hsize] at h
      obtain ⟨-, z₂, -, h⟩ := bind_eq_ok.mp h
      obtain ⟨s, z₃, -, h⟩ := bind_eq_ok.mp h
      obtain ⟨-, z₄, -, h⟩ := bind_eq_ok.mp h
      obtain ⟨hnone, -⟩ := EStateM.Result.ok.inj h
      exact nomatch hnone
  · intro hword
    exact (bind_of_ok hword).trans rfl

/-! ## What was read was checked -/

/-- A part that only reads says nothing of what follows. -/
theorem triple_read {α β : Type} {x : LoadM β} {f : β → LoadM α} {Q : α → List Byte → Prop}
    (hf : ∀ b, Triple (fun _ => True) (f b) Q) : Triple (fun _ => True) (x >>= f) Q :=
  Triple.bind (R := fun _ _ => True) (fun _ _ _ _ _ => trivial) hf

theorem loadEach_all {α : Type} {x : LoadM α} {Q : α → Prop} (e : Nat)
    (h : Triple (fun _ => True) x (fun a _ => Q a)) :
    Triple (fun _ => True) (LoadEach e x) (fun as _ => ∀ a ∈ as, Q a) := by
  refine triple_read fun n => triple_read fun _ => ?_
  refine (Triple.times (h.conseq (fun _ hs => hs) fun a s ha => ⟨ha, trivial⟩) n).conseq
    (fun _ hs => hs) fun as s has => has.1

theorem loadConstants_children {loadFunction : LoadM LProto} {Q : LProto → Prop}
    (h : Triple (fun _ => True) loadFunction (fun f _ => Q f)) :
    Triple (fun _ => True) (LoadConstants loadFunction) (fun r _ => ∀ f ∈ r.2, Q f) := by
  refine triple_read fun k => Triple.bind (loadEach_all 4 h) fun p => ?_
  exact Triple.pure fun _ hp => hp

/-- Every proto of the tree was accepted, the children before their parent. -/
theorem loadFunction_checked (depth : Nat) : ∀ p : TString,
    Triple (fun _ => True) (LoadFunction depth p)
      (fun f _ => f.All (fun n => luaG_checkcode n = true)) := by
  induction depth with
  | zero => exact fun p => Triple.throw _
  | succ depth ih =>
    intro p
    refine triple_read fun source => triple_read fun _ => triple_read fun _ => ?_
    refine triple_read fun nups => triple_read fun numparams => triple_read fun is_vararg => ?_
    refine triple_read fun maxstacksize => triple_read fun code => ?_
    refine Triple.bind (loadConstants_children (ih _)) fun r => ?_
    obtain ⟨k, children⟩ := r
    intro z f z' hchildren hrun
    obtain ⟨⟨lineinfo, upvalues⟩, z₁, -, hlast⟩ := bind_eq_ok.mp hrun
    dsimp only at hlast
    split_ifs at hlast with hcheck
    · obtain ⟨rfl, -⟩ := EStateM.Result.ok.inj hlast
      exact ⟨hcheck, fun i => hchildren _ (List.get_mem _ _)⟩
    · exact nomatch hlast

theorem luaU_undump_checked {nCcalls : Nat} {z z' : List Byte} {f : LProto}
    (h : luaU_undump nCcalls z = .ok f z') : f.All (fun n => luaG_checkcode n = true) :=
  triple_read (fun _ => loadFunction_checked _ _) z f z' trivial h

/-! ## The two producers -/

/-- What the compiler makes has no null strings. -/
def ofConstant : Constant → LConstant
  | .nil => .nil
  | .boolean b => .boolean b
  | .number n => .number n
  | .string ts => .string (some ts)

def ofHead (h : ProtoHead) : LHead where
  source := h.source
  nups := h.nups
  numparams := h.numparams
  is_vararg := h.is_vararg
  maxstacksize := h.maxstacksize
  code := h.code
  k := h.k.map ofConstant
  lineinfo := h.lineinfo
  upvalues := h.upvalues.map some

def ofProto : Proto → LProto
  | .mk _ head sizep _ p => .mk (ofHead head) sizep (fun i => ofProto (p i))

/-- What `lcode.c` puts into the code vector of a proto with `nups` upvalues. -/
inductive EmittedWord (nups : Nat) : Word → Prop where
  | instruction {v : Word} (op : OpCode) (hop : GET_OPCODE v = op.toWord)
      (upvalue : op = OP_GETUPVAL ∨ op = OP_SETUPVAL → argB v < nups) : EmittedWord nups v
  | count {nelems : Nat} (hmax : nelems ≤ MAX_INT + 1) :
      EmittedWord nups (BitVec.ofNat 32 (blockNumber nelems))

/-- The code generator behind `luaY_parser`: the words come from `luaK_codeABC`,
`luaK_codeABx` and `luaK_setlist`, the upvalues from `indexupvalue`, and
`luaY_parser` asserts that the main proto has none. -/
structure ParserEmits (luaYParser : List Byte → Except LoadError Proto) : Prop where
  code : ∀ script p, luaYParser script = .ok p →
    (ofProto p).All fun n => ∀ v ∈ n.head.code, EmittedWord n.head.nups.toNat v
  nups : ∀ script p, luaYParser script = .ok p → (ofProto p).head.nups = 0

theorem EmittedWord.isSome {nups : Nat} {v : Word} (h : EmittedWord nups v) :
    (OpCode.ofWord (GET_OPCODE v)).isSome := by
  cases h with
  | instruction op hop _ => rw [hop, OpCode.ofWord_toWord, Option.isSome_some]
  | count hmax => rw [ofWord_blockWord (blockNumber_lt hmax), Option.isSome_some]

/-- An upvalue that is read or written is one of the proto's. -/
theorem EmittedWord.upvalue_lt {nups : Nat} {v : Word} (h : EmittedWord nups v) {op : OpCode}
    (hop : OpCode.ofWord (GET_OPCODE v) = some op) (hupval : op = OP_GETUPVAL ∨ op = OP_SETUPVAL) :
    argB v < nups := by
  cases h with
  | instruction op' hop' upvalue =>
    rw [hop', OpCode.ofWord_toWord] at hop
    obtain rfl := Option.some.inj hop
    exact upvalue hupval
  | count hmax =>
    -- a count reads as a `MOVE`
    rw [ofWord_blockWord (blockNumber_lt hmax)] at hop
    obtain rfl := Option.some.inj hop
    exact absurd hupval (by decide)

/-- `LUA_SIGNATURE[0]` -/
def LUA_SIGNATURE : Byte := 0x1B

/-- `luaL_loadbuffer`: the proto of the closure that `f_parser` pushes. -/
def luaL_loadbuffer (luaYParser : List Byte → Except LoadError Proto) (nCcalls : Nat)
    (script : List Byte) : Except LoadError LProto :=
  if script.head? = some LUA_SIGNATURE then
    match luaU_undump nCcalls script with
    | .ok f _ => .ok f
    | .error e _ => .error e
  else
    match luaYParser script with
    | .ok p => .ok (ofProto p)
    | .error e => .error e

/-- A loaded proto is a checked one, or comes from the compiler. -/
theorem luaL_loadbuffer_ok {luaYParser : List Byte → Except LoadError Proto} {nCcalls : Nat}
    {script : List Byte} {f : LProto} (h : luaL_loadbuffer luaYParser nCcalls script = .ok f) :
    (script.head? = some LUA_SIGNATURE ∧ f.All (fun n => luaG_checkcode n = true))
      ∨ (script.head? ≠ some LUA_SIGNATURE
        ∧ ∃ p, luaYParser script = .ok p ∧ f = ofProto p) := by
  unfold luaL_loadbuffer at h
  by_cases hsig : script.head? = some LUA_SIGNATURE
  · rw [if_pos hsig] at h
    cases hrun : luaU_undump nCcalls script with
    | ok f' z =>
      rw [hrun] at h
      obtain rfl := Except.ok.inj h
      exact Or.inl ⟨hsig, luaU_undump_checked hrun⟩
    | error e z =>
      rw [hrun] at h
      exact nomatch h
  · rw [if_neg hsig] at h
    cases hparse : luaYParser script with
    | ok p =>
      rw [hparse] at h
      exact Or.inr ⟨hsig, p, rfl, (Except.ok.inj h).symm⟩
    | error e =>
      rw [hparse] at h
      exact nomatch h

/-! ## Chunks without debug information -/

/-- A word as it is stored. -/
def wordBytes (x : Word) : List Byte :=
  [x.setWidth 8, (x >>> 8).setWidth 8, (x >>> 16).setWidth 8, (x >>> 24).setWidth 8]

/-- A main function named `@`, without parameters and children; `k` is its constants as
they are stored. -/
def plainChunk (nups : Byte) (code : List Word) (sizek : Word) (k : List Byte) : List Byte :=
  let source := wordBytes 2 ++ [0x40, 0]
  let zero := wordBytes 0
  luaU_header ++ source ++ zero ++ zero ++ [nups, 0, VARARG_ISVARARG, 2]
    ++ wordBytes (BitVec.ofNat 32 code.length) ++ code.flatMap wordBytes
    ++ wordBytes sizek ++ k ++ zero ++ zero ++ zero ++ zero

end NostalgiaConv.Undump
