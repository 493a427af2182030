/-
Precompiled chunks with every field: `lua/ldump.c`, and the reader of `lua/lundump.c`
over any source of bytes.

`luaU_dump` hands blocks of bytes to a writer; the functions here give the blocks of
each part in the order in which they are handed over. The reader is the one of
`Undump`, with the fields that the translation does not use, and with the block
reader as a parameter: on a list it is `Undump.LoadFunction` less these fields.
-/
import NostalgiaConv.Streams
import NostalgiaConv.Undump
import Mathlib.Data.List.FinRange

set_option autoImplicit false

namespace NostalgiaConv.Chunk

open NostalgiaConv.Cipher NostalgiaConv.Host NostalgiaConv.Value NostalgiaConv.CodeCheck
open NostalgiaConv.Relational NostalgiaConv.Hoare NostalgiaConv.Streams
open NostalgiaConv.Opcodes OpCode
open NostalgiaConv.Undump (LoadError leNat wordsOf MAX_SIZET sizeofTString luaM_toobig LUA_TNIL
  LUA_TBOOLEAN LUA_TNUMBER LUA_TSTRING luaU_header LUAC_HEADERSIZE LUAI_MAXCCALLS)

/-! ## Protos -/

structure LocVar where
  varname : Option TString
  startpc : Nat
  endpc : Nat

/-- All fields of a `Proto` that a chunk has, less its children. -/
structure ChunkHead extends LHead where
  linedefined : Nat
  lastlinedefined : Nat
  locvars : List LocVar

inductive ChunkProto where
  | mk (head : ChunkHead) (sizep : Nat) (p : Fin sizep → ChunkProto)

def ChunkProto.head : ChunkProto → ChunkHead
  | .mk head _ _ => head

def ChunkProto.sizep : ChunkProto → Nat
  | .mk _ sizep _ => sizep

/-- The proto as the checker and the translation see it. -/
def ChunkProto.toLProto : ChunkProto → LProto
  | .mk head sizep p => .mk head.toLHead sizep fun i => (p i).toLProto

/-- `P` holds of every proto of the tree. -/
def ChunkProto.All (P : ChunkProto → Prop) : ChunkProto → Prop
  | .mk head sizep p => P (.mk head sizep p) ∧ ∀ i, (p i).All P

/-- The tree has at most so many levels. -/
def ChunkProto.Levels : Nat → ChunkProto → Prop
  | 0, _ => False
  | n + 1, .mk _ _ p => ∀ i, (p i).Levels n

/-! ## The reader -/

section

variable {σ : Type}

abbrev LoadOn (σ : Type) := EStateM LoadError σ

variable (block : Nat → LoadOn σ (List Byte))

def LoadChar : LoadOn σ Byte := do
  let bytes ← block 1
  pure (BitVec.ofNat 8 (leNat bytes))

def LoadWord : LoadOn σ Word := do
  let bytes ← block 4
  pure (BitVec.ofNat 32 (leNat bytes))

def LoadInt : LoadOn σ Nat := do
  let x ← LoadWord block
  if x.toInt < 0 then throw (.syntaxError "bad integer") else pure x.toNat

def LoadNumber : LoadOn σ (BitVec 64) := do
  let bytes ← block 8
  pure (BitVec.ofNat 64 (leNat bytes))

def luaZ_openspace (n : Word) : LoadOn σ PUnit :=
  when (MAX_SIZET < (n + 1).toNat) (throw luaM_toobig)

def newlstr (str : List Byte) : LoadOn σ (Option TString) := do
  when (MAX_SIZET - sizeofTString < str.length + 1) (throw luaM_toobig)
  pure (some (luaS_newlstr str))

def LoadString : LoadOn σ (Option TString) := do
  let size ← LoadWord block
  if size = 0 then pure none
  else do
    luaZ_openspace size
    let s ← block size.toNat
    newlstr s.dropLast -- remove trailing '\0'

def luaM_newvector (n e : Nat) : LoadOn σ PUnit := when (MAX_SIZET / e < n + 1) (throw luaM_toobig)

def LoadVector : LoadOn σ (List Word) := do
  let n ← LoadInt block
  luaM_newvector n 4
  let bytes ← block (n * 4)
  pure (wordsOf n bytes)

def LoadEach {α : Type} (e : Nat) (x : LoadOn σ α) : LoadOn σ (List α) := do
  let n ← LoadInt block
  luaM_newvector n e
  times x n

def LoadConstant : LoadOn σ LConstant := do
  let t ← LoadChar block
  if t = LUA_TNIL then pure .nil
  else if t = LUA_TBOOLEAN then do
    let b ← LoadChar block
    pure (.boolean (if b ≠ 0 then 1 else 0))
  else if t = LUA_TNUMBER then do
    let n ← LoadNumber block
    pure (.number n)
  else if t = LUA_TSTRING then do
    let ts ← LoadString block
    pure (.string ts)
  else throw (.syntaxError "bad constant")

def LoadConstants (loadFunction : LoadOn σ ChunkProto) :
    LoadOn σ (List LConstant × List ChunkProto) := do
  let k ← LoadEach block 16 (LoadConstant block)
  let p ← LoadEach block 4 loadFunction
  pure (k, p)

def LoadLocVar : LoadOn σ LocVar := do
  let varname ← LoadString block
  let startpc ← LoadInt block
  let endpc ← LoadInt block
  pure { varname, startpc, endpc }

def LoadDebug : LoadOn σ (List Word × List LocVar × List (Option TString)) := do
  let lineinfo ← LoadVector block
  let locvars ← LoadEach block 12 (LoadLocVar block)
  let upvalues ← LoadEach block 4 (LoadString block)
  pure (lineinfo, locvars, upvalues)

/-- The first argument is how many C calls there may still be. -/
def LoadFunction : Nat → TString → LoadOn σ ChunkProto
  | 0, _ => throw (.syntaxError "code too deep")
  | depth + 1, p => do
    let source ← LoadString block
    let source := source.getD p
    let linedefined ← LoadInt block
    let lastlinedefined ← LoadInt block
    let nups ← LoadChar block
    let numparams ← LoadChar block
    let is_vararg ← LoadChar block
    let maxstacksize ← LoadChar block
    let code ← LoadVector block
    let (k, children) ← LoadConstants block (LoadFunction depth source)
    let (lineinfo, locvars, upvalues) ← LoadDebug block
    let f : ChunkProto := .mk
      { source, nups, numparams, is_vararg, maxstacksize, code, k, lineinfo, upvalues,
        linedefined, lastlinedefined, locvars }
      children.length (fun i => children.get i)
    if luaG_checkcode f.toLProto then pure f else throw (.syntaxError "bad code")

def LoadHeader : LoadOn σ PUnit := do
  let s ← block LUAC_HEADERSIZE
  when (luaU_header ≠ s) (throw (.syntaxError "bad header"))

/-- `luaU_undump`, in a state with `nCcalls` C calls. -/
def luaU_undump (nCcalls : Nat) : LoadOn σ ChunkProto := do
  LoadHeader block
  LoadFunction block (LUAI_MAXCCALLS - nCcalls) (luaS_newlstr [0x3D, 0x3F]) -- "=?"

end

/-! ## The writer -/

/-- What is handed to `DumpBlock`, in order. -/
abbrev Blocks := List (List Byte)

/-- A number of the machine in `n` bytes: the first byte is the lowest. -/
def leBytes : Nat → Nat → List Byte
  | 0, _ => []
  | n + 1, x => BitVec.ofNat 8 x :: leBytes n (x / 256)

def DumpChar (y : Byte) : Blocks := [[y]]

def DumpInt (x : Nat) : Blocks := [leBytes 4 x]

def DumpNumber (x : BitVec 64) : Blocks := [leBytes 8 x.toNat]

def DumpVector (b : List Word) : Blocks :=
  DumpInt b.length ++ [b.flatMap fun x => leBytes 4 x.toNat]

/-- The trailing zero is written too. -/
def DumpString : Option TString → Blocks
  | none => [leBytes 4 0]
  | some s => [leBytes 4 (s.bytes.length + 1), s.bytes ++ [0]]

def DumpConstant : LConstant → Blocks
  | .nil => DumpChar LUA_TNIL
  | .boolean b => DumpChar LUA_TBOOLEAN ++ DumpChar (b.setWidth 8)
  | .number n => DumpChar LUA_TNUMBER ++ DumpNumber n
  | .string ts => DumpChar LUA_TSTRING ++ DumpString ts

def DumpConstants (k : List LConstant) (children : List Blocks) : Blocks :=
  DumpInt k.length ++ k.flatMap DumpConstant ++ (DumpInt children.length ++ children.flatten)

def DumpLocVar (v : LocVar) : Blocks :=
  DumpString v.varname ++ (DumpInt v.startpc ++ DumpInt v.endpc)

/-- With `strip` each of the three parts is empty. -/
def DumpDebug (strip : Bool) (f : ChunkHead) : Blocks :=
  let lineinfo := if strip then [] else f.lineinfo
  let locvars := if strip then [] else f.locvars
  let upvalues := if strip then [] else f.upvalues
  DumpVector lineinfo ++ (DumpInt locvars.length ++ locvars.flatMap DumpLocVar
    ++ (DumpInt upvalues.length ++ upvalues.flatMap DumpString))

/-- `p` is the source of the enclosing function, which is not written again. -/
def DumpFunction (strip : Bool) : Option TString → ChunkProto → Blocks
  | p, .mk f _ children =>
    DumpString (if some f.source = p ∨ strip then none else some f.source)
      ++ (DumpInt f.linedefined ++ (DumpInt f.lastlinedefined ++ (DumpChar f.nups
      ++ (DumpChar f.numparams ++ (DumpChar f.is_vararg ++ (DumpChar f.maxstacksize
      ++ (DumpVector f.code
      ++ (DumpConstants f.k (List.ofFn fun i => DumpFunction strip (some f.source) (children i))
      ++ DumpDebug strip f))))))))

def DumpHeader : Blocks := [luaU_header]

structure DumpState (D : Type) where
  data : D
  status : Int

section

variable {D : Type} (writer : D → List Byte → Int × D)

/-- `DumpBlock`: once the writer has failed it is not called again. -/
def DumpBlock (s : DumpState D) (b : List Byte) : DumpState D :=
  if s.status = 0 then
    let (status, data) := writer s.data b
    { data, status }
  else s

def luaU_dump (data : D) (strip : Bool) (f : ChunkProto) : DumpState D :=
  (DumpHeader ++ DumpFunction strip none f).foldl (DumpBlock writer) { data, status := 0 }

end

/-! ## What a proto in memory is -/

/-- A vector that `luaM_newvector` has let through. -/
def Fits (n e : Nat) : Prop := n + 1 ≤ MAX_SIZET / e

instance (n e : Nat) : Decidable (Fits n e) := inferInstanceAs (Decidable (n + 1 ≤ _))

/-- What `newlstr` asks of every string. -/
def ShortString (ts : TString) : Prop := ts.bytes.length + 1 ≤ MAX_SIZET - sizeofTString

/-- A boolean is zero or one, as `setbvalue` is given it. -/
def StoredConstant : LConstant → Prop
  | .boolean b => b = 0 ∨ b = 1
  | .string ts => ∀ s ∈ ts, ShortString s
  | _ => True

structure StoredLocVar (v : LocVar) : Prop where
  varname : ∀ s ∈ v.varname, ShortString s
  startpc : v.startpc < 2 ^ 31
  endpc : v.endpc < 2 ^ 31

/-- The fields of a proto are in the ranges of their types, and the code is one that
the checker accepts. -/
structure Stored (f : ChunkProto) : Prop where
  source : ShortString f.head.source
  linedefined : f.head.linedefined < 2 ^ 31
  lastlinedefined : f.head.lastlinedefined < 2 ^ 31
  code : Fits f.head.code.length 4
  k : Fits f.head.k.length 16
  constants : ∀ c ∈ f.head.k, StoredConstant c
  sizep : Fits f.sizep 4
  lineinfo : Fits f.head.lineinfo.length 4
  locvars : Fits f.head.locvars.length 12
  locals : ∀ v ∈ f.head.locvars, StoredLocVar v
  upvalues : Fits f.head.upvalues.length 4
  names : ∀ u ∈ f.head.upvalues, ∀ s ∈ u, ShortString s
  checked : luaG_checkcode f.toLProto = true

/-- What comes back: a stripped function has lost its debug information, and has the
source of the function around it. -/
def ChunkProto.reloaded (strip : Bool) : TString → ChunkProto → ChunkProto
  | p, .mk f sizep children =>
    let f' := if strip then { f with source := p, lineinfo := [], locvars := [], upvalues := [] }
      else f
    .mk f' sizep fun i => (children i).reloaded strip f'.source

/-- Without `strip` that is the function itself. -/
theorem ChunkProto.reloaded_false (f : ChunkProto) : ∀ p, f.reloaded false p = f := by
  induction f with
  | mk head sizep children ih =>
    intro p
    rw [ChunkProto.reloaded]
    congr 1
    funext i
    exact ih i _

/-! ## Stripped code is accepted -/

/-- A proto's fields without the debug information, under another source. -/
def strip (source : TString) (pt : LHead) : LHead :=
  { pt with source, lineinfo := [], upvalues := [] }

section

variable (source : TString) (pt : LHead) (pnups : List Nat)

theorem setlistsBefore_strip (dest : Nat) :
    setlistsBefore (strip source pt) dest = setlistsBefore pt dest := by
  induction dest with
  | zero => rfl
  | succ dest ih =>
    rw [setlistsBefore, setlistsBefore, ih]
    rfl

theorem checkDest_strip (dest : Int) : checkDest (strip source pt) dest = checkDest pt dest := by
  rw [checkDest, checkDest, setlistsBefore_strip]
  rfl

theorem checkOperands_strip (op : Opcodes.OpCode) (i : Word) (pc : Nat) :
    checkOperands (strip source pt) op i pc = checkOperands pt op i pc := by
  simp only [checkOperands, checkDest_strip]
  rfl

theorem checkInstr_strip (pc : Nat) :
    checkInstr (strip source pt) pnups pc = checkInstr pt pnups pc := by
  simp only [checkInstr, checkOperands_strip]
  rfl

/-- The walk over the code does not look at the debug information. -/
theorem symbexecLoop_strip {lastpc : Nat} {reg : Int} : ∀ fuel pc last,
    symbexecLoop (strip source pt) pnups lastpc reg fuel pc last
      = symbexecLoop pt pnups lastpc reg fuel pc last := by
  intro fuel
  induction fuel with
  | zero => exact fun _ _ => rfl
  | succ fuel ih =>
    intro pc last
    rw [symbexecLoop, symbexecLoop, checkInstr_strip, ih]
    rfl

variable {pt}

theorem precheck_strip (h : precheck pt = true) : precheck (strip source pt) = true := by
  simp only [precheck, Bool.and_eq_true] at h ⊢
  refine ⟨⟨⟨⟨⟨h.1.1.1.1.1, h.1.1.1.1.2⟩, ?_⟩, ?_⟩, h.1.2⟩, h.2⟩
  · exact decide_eq_true (Nat.zero_le _)
  · simp [strip]

end

theorem checkcode_strip {head : LHead} {sizep : Nat} {p p' : Fin sizep → LProto} (source : TString)
    (hnups : ∀ i, (p' i).head.nups = (p i).head.nups)
    (h : luaG_checkcode (.mk head sizep p) = true) :
    luaG_checkcode (.mk (strip source head) sizep p') = true := by
  have hchild : (LProto.mk (strip source head) sizep p').childNups
      = (LProto.mk head sizep p).childNups := by
    simp only [LProto.childNups, hnups]
  have hpre : precheck head = true := (checkcode_ran h).1
  have hsym : ∀ pnups, symbexec (strip source head) pnups head.code.length NO_REG
      = symbexec head pnups head.code.length NO_REG := by
    intro pnups
    rw [symbexec, symbexec, if_pos hpre, if_pos (precheck_strip source hpre), symbexecLoop_strip]
    rfl
  rw [luaG_checkcode, hchild]
  exact (congrArg (fun r => decide (Option.getD r 0 ≠ 0)) (hsym _)).trans h

theorem ChunkProto.reloaded_nups (strip : Bool) (p : TString) (f : ChunkProto) :
    (f.reloaded strip p).toLProto.head.nups = f.toLProto.head.nups := by
  cases f
  cases strip <;> rfl

theorem ChunkProto.reloaded_checked (strip : Bool) (p : TString) {f : ChunkProto}
    (h : luaG_checkcode f.toLProto = true) :
    luaG_checkcode (f.reloaded strip p).toLProto = true := by
  cases strip with
  | false => rwa [ChunkProto.reloaded_false]
  | true =>
    cases f with
    | mk head sizep children =>
      exact checkcode_strip p (fun i => ChunkProto.reloaded_nups true p (children i)) h

/-! ## Each part reads back -/

/-- A string is determined by its bytes. -/
theorem luaS_newlstr_bytes (ts : TString) : luaS_newlstr ts.bytes = ts := by
  obtain ⟨bytes, hash, rfl⟩ := ts
  rfl

theorem length_leBytes (n x : Nat) : (leBytes n x).length = n := by
  induction n generalizing x with
  | zero => rfl
  | succ n ih => rw [leBytes, List.length_cons, ih]

theorem leNat_leBytes {n x : Nat} (hx : x < 256 ^ n) : leNat (leBytes n x) = x := by
  induction n generalizing x with
  | zero =>
    rw [pow_zero, Nat.lt_one_iff] at hx
    rw [hx]
    rfl
  | succ n ih =>
    have hdiv : x / 256 < 256 ^ n := by
      apply Nat.div_lt_of_lt_mul
      rwa [← pow_succ']
    rw [leBytes, leNat, ih hdiv, BitVec.toNat_ofNat]
    exact Nat.mod_add_div x 256

theorem wordsOf_flatMap (code : List Word) :
    wordsOf code.length (code.flatMap fun x => leBytes 4 x.toNat) = code := by
  induction code with
  | nil => rfl
  | cons x code ih =>
    have hlen : (leBytes 4 x.toNat).length = 4 := length_leBytes 4 _
    rw [List.flatMap_cons, List.length_cons, wordsOf, List.take_left' hlen, List.drop_left' hlen, ih,
      leNat_leBytes (n := 4) x.isLt, BitVec.ofNat_toNat, BitVec.setWidth_eq]

theorem length_flatMap_leBytes (code : List Word) :
    (code.flatMap fun x => leBytes 4 x.toNat).length = code.length * 4 := by
  induction code with
  | nil => rfl
  | cons x code ih =>
    rw [List.flatMap_cons, List.length_append, ih, length_leBytes, List.length_cons]
    omega

section

variable {σ : Type} {S : Stream LoadError σ Byte}

theorem reads_char (y : Byte) : Reads S (LoadChar S.block) (DumpChar y).flatten y := by
  rw [DumpChar, List.flatten_singleton]
  refine Reads.map (Reads.block rfl) ?_
  rw [leNat, leNat, Nat.mul_zero, Nat.add_zero, BitVec.ofNat_toNat, BitVec.setWidth_eq]

theorem reads_word {x : Nat} (hx : x < 2 ^ 32) :
    Reads S (LoadWord S.block) (leBytes 4 x) (BitVec.ofNat 32 x) := by
  refine Reads.map (Reads.block (length_leBytes 4 x)) ?_
  rw [leNat_leBytes (n := 4) hx]

theorem reads_int {x : Nat} (hx : x < 2 ^ 31) :
    Reads S (LoadInt S.block) (DumpInt x).flatten x := by
  rw [DumpInt, List.flatten_singleton]
  refine Reads.map (reads_word (by omega)) ?_
  have hlt : x < 2 ^ 32 := by omega
  have hpos : ¬ (BitVec.ofNat 32 x).toInt < 0 := by
    rw [BitVec.toInt_eq_toNat_of_lt] <;> rw [BitVec.toNat_ofNat, Nat.mod_eq_of_lt hlt]
    · omega
    · omega
  rw [if_neg hpos, BitVec.toNat_ofNat, Nat.mod_eq_of_lt hlt]

theorem reads_number (x : BitVec 64) :
    Reads S (LoadNumber S.block) (DumpNumber x).flatten x := by
  rw [DumpNumber, List.flatten_singleton]
  refine Reads.map (Reads.block (length_leBytes 8 _)) ?_
  rw [leNat_leBytes (n := 8) x.isLt, BitVec.ofNat_toNat, BitVec.setWidth_eq]

theorem newlstr_of_short {s : TString} (h : ShortString s) :
    newlstr s.bytes = (pure (some s) : LoadOn σ (Option TString)) := by
  have hcheck : ¬ MAX_SIZET - sizeofTString < s.bytes.length + 1 := Nat.not_lt.mpr h
  unfold newlstr when
  rw [if_neg hcheck, luaS_newlstr_bytes]
  rfl

theorem reads_string {o : Option TString} (ho : ∀ s ∈ o, ShortString s) :
    Reads S (LoadString S.block) (DumpString o).flatten o := by
  cases o with
  | none =>
    rw [DumpString, List.flatten_singleton]
    exact Reads.map (reads_word (by omega)) rfl
  | some s =>
    have hle : s.bytes.length + 1 ≤ MAX_SIZET - sizeofTString := ho s rfl
    have hlt : s.bytes.length + 2 ≤ MAX_SIZET := by
      unfold sizeofTString at hle
      omega
    have hlt32 : s.bytes.length + 2 < 2 ^ 32 := hlt.trans_lt (by decide)
    have hnat : (BitVec.ofNat 32 (s.bytes.length + 1)).toNat = s.bytes.length + 1 := by
      rw [BitVec.toNat_ofNat, Nat.mod_eq_of_lt (by omega)]
    have hne : BitVec.ofNat 32 (s.bytes.length + 1) ≠ 0 := by
      intro h
      rw [h] at hnat
      exact absurd hnat (Nat.succ_ne_zero _).symm
    rw [DumpString, List.flatten_cons, List.flatten_singleton]
    refine Reads.bind (reads_word (by omega)) ?_
    rw [if_neg hne, hnat]
    have hnext : (BitVec.ofNat 32 (s.bytes.length + 1) + 1).toNat = s.bytes.length + 2 := by
      rw [BitVec.toNat_add, hnat]
      exact Nat.mod_eq_of_lt hlt32
    refine Reads.skip (Reads.when (by rw [hnext]; exact Nat.not_lt.mpr hlt)) ?_
    refine Reads.map (Reads.block List.length_append) ?_
    rw [List.dropLast_concat, newlstr_of_short (ho s rfl)]

theorem reads_newvector {n e : Nat} (h : Fits n e) :
    Reads S (luaM_newvector (σ := σ) n e) [] ⟨⟩ :=
  Reads.when (Nat.not_lt.mpr h)

theorem Fits.lt {n e : Nat} (h : Fits n e) (he : 4 ≤ e) : n < 2 ^ 31 := by
  have hle : MAX_SIZET / e ≤ MAX_SIZET / 4 := Nat.div_le_div_left he (by omega)
  have hmax : MAX_SIZET / 4 < 2 ^ 31 := by decide
  have := Nat.le_trans h hle
  omega

theorem reads_vector {code : List Word} (h : Fits code.length 4) :
    Reads S (LoadVector S.block) (DumpVector code).flatten code := by
  rw [DumpVector, List.flatten_append, List.flatten_singleton]
  refine Reads.bind (reads_int (h.lt (Nat.le_refl 4))) (Reads.skip (reads_newvector h) ?_)
  refine Reads.map (Reads.block (length_flatMap_leBytes code)) ?_
  rw [wordsOf_flatMap]

/-- A count, and so many items. -/
theorem reads_each {α γ : Type} {x : LoadOn σ α} {enc : γ → Blocks} {g : γ → α} {as : List γ}
    {e : Nat} (he : 4 ≤ e) (hfits : Fits as.length e)
    (h : ∀ a ∈ as, Reads S x (enc a).flatten (g a)) :
    Reads S (LoadEach S.block e x) (DumpInt as.length ++ as.flatMap enc).flatten (as.map g) := by
  have hflat : (as.flatMap enc).flatten = as.flatMap fun a => (enc a).flatten := by
    rw [List.flatMap, List.flatMap, List.flatten_flatten, List.map_map]
    rfl
  rw [List.flatten_append, hflat]
  exact Reads.bind (reads_int (hfits.lt he)) (Reads.skip (reads_newvector hfits) (Reads.times h))

theorem reads_constant {c : LConstant} (hc : StoredConstant c) :
    Reads S (LoadConstant S.block) (DumpConstant c).flatten c := by
  cases c with
  | nil => exact Reads.map (reads_char LUA_TNIL) rfl
  | boolean b =>
    rw [DumpConstant, List.flatten_append]
    refine Reads.bind (reads_char LUA_TBOOLEAN) (Reads.map (reads_char _) ?_)
    rcases hc with rfl | rfl <;> rfl
  | number n =>
    rw [DumpConstant, List.flatten_append]
    exact Reads.bind (reads_char LUA_TNUMBER) (Reads.map (reads_number n) rfl)
  | string ts =>
    rw [DumpConstant, List.flatten_append]
    exact Reads.bind (reads_char LUA_TSTRING) (Reads.map (reads_string hc) rfl)

theorem reads_locVar {v : LocVar} (hv : StoredLocVar v) :
    Reads S (LoadLocVar S.block) (DumpLocVar v).flatten v := by
  rw [DumpLocVar, List.flatten_append, List.flatten_append]
  refine Reads.bind (reads_string hv.varname) (Reads.bind (reads_int hv.startpc) ?_)
  exact Reads.map (reads_int hv.endpc) rfl

/-- What holds of a part of the debug information and of the empty list holds of what
is written. -/
theorem of_strip {α : Type} {P : List α → Prop} {l : List α} (strip : Bool) (hnil : P [])
    (hl : P l) : P (if strip then [] else l) := by
  cases strip
  · exact hl
  · exact hnil

theorem reads_debug (strip : Bool) {f : ChunkProto} (hf : Stored f) :
    Reads S (LoadDebug S.block) (DumpDebug strip f.head).flatten
      (if strip then [] else f.head.lineinfo, if strip then [] else f.head.locvars,
        if strip then [] else f.head.upvalues) := by
  have hfour : Fits 0 4 := Nat.le_of_ble_eq_true rfl
  have htwelve : Fits 0 12 := Nat.le_of_ble_eq_true rfl
  have hlines := of_strip (P := fun l => Fits l.length 4) strip hfour hf.lineinfo
  have hlocvars := of_strip (P := fun l => Fits l.length 12 ∧ ∀ v ∈ l, StoredLocVar v) strip
    ⟨htwelve, List.forall_mem_nil _⟩ ⟨hf.locvars, hf.locals⟩
  have hnames := of_strip (P := fun l => Fits l.length 4 ∧ ∀ u ∈ l, ∀ s ∈ u, ShortString s) strip
    ⟨hfour, List.forall_mem_nil _⟩ ⟨hf.upvalues, hf.names⟩
  rw [DumpDebug, List.flatten_append, List.flatten_append]
  refine Reads.bind (reads_vector hlines) ?_
  refine Reads.bind (reads_each (g := id) (by omega) hlocvars.1
    fun v hv => reads_locVar (hlocvars.2 v hv)) ?_
  refine Reads.map (reads_each (g := id) (by omega) hnames.1
    fun u hu => reads_string (hnames.2 u hu)) ?_
  rw [List.map_id, List.map_id]

/-- The constants, and children that each read back. -/
theorem reads_constants {loadFunction : LoadOn σ ChunkProto} {k : List LConstant} {sizep : Nat}
    {blocks : Fin sizep → Blocks} {r : Fin sizep → ChunkProto} (hk : Fits k.length 16)
    (hconst : ∀ c ∈ k, StoredConstant c) (hsizep : Fits sizep 4)
    (hchild : ∀ i, Reads S loadFunction (blocks i).flatten (r i)) :
    Reads S (LoadConstants S.block loadFunction) (DumpConstants k (List.ofFn blocks)).flatten
      (k, List.ofFn r) := by
  have hlen : (List.finRange sizep).length = sizep := List.length_finRange
  have hblocks : DumpInt (List.ofFn blocks).length ++ (List.ofFn blocks).flatten
      = DumpInt (List.finRange sizep).length ++ (List.finRange sizep).flatMap blocks := by
    rw [List.length_ofFn, hlen, List.ofFn_eq_map]
    rfl
  rw [DumpConstants, List.flatten_append, hblocks]
  refine Reads.bind (reads_each (g := id) (by omega) hk fun c hc => reads_constant (hconst c hc)) ?_
  refine Reads.map (reads_each (by omega) (by rwa [hlen]) fun i _ => hchild i) ?_
  rw [List.map_id, List.ofFn_eq_map]

/-- A vector that was read as a list. -/
theorem mk_get {α β : Type} (mk : (n : Nat) → (Fin n → α) → β) {n : Nat} {p : Fin n → α}
    {l : List α} (hl : l = List.ofFn p) : mk l.length (fun i => l.get i) = mk n p := by
  have hlen : l.length = n := by rw [hl, List.length_ofFn]
  subst hlen
  congr 1
  funext i
  rw [List.get_eq_getElem, List.getElem_of_eq hl, List.getElem_ofFn]

/-- What `DumpFunction` writes, `LoadFunction` reads. The enclosing function's source is
left out by the one and filled in by the other, so the two have to agree on it unless
all sources are stripped. -/
theorem reads_function (strip : Bool) : ∀ (depth : Nat) (f : ChunkProto) (p : Option TString)
    (q : TString), f.Levels depth → f.All Stored → (strip = true ∨ ∀ s ∈ p, s = q) →
    Reads S (LoadFunction S.block depth q) (DumpFunction strip p f).flatten
      (f.reloaded strip q) := by
  intro depth
  induction depth with
  | zero => exact fun f p q hlevels => absurd hlevels id
  | succ depth ih =>
    intro f p q hlevels hall hp
    cases f with
    | mk head sizep children =>
      have hf : Stored (.mk head sizep children) := hall.1
      have hsource : ∀ s ∈ (if some head.source = p ∨ strip then none else some head.source),
          ShortString s := by
        intro s hs
        split_ifs at hs
        · exact nomatch hs
        · obtain rfl := Option.mem_some_iff.mp hs
          exact hf.source
      -- a source left out is the enclosing one, which the reader puts back
      have hloaded : (if some head.source = p ∨ strip then none else some head.source).getD q
          = if strip then q else head.source := by
        cases strip with
        | true => rw [if_pos (Or.inr rfl), if_pos rfl, Option.getD_none]
        | false =>
          rw [if_neg Bool.false_ne_true]
          by_cases hs : some head.source = p
          · have hq := hp.resolve_left Bool.false_ne_true head.source hs.symm
            rw [if_pos (Or.inl hs), Option.getD_none, hq]
          · rw [if_neg (not_or.mpr ⟨hs, Bool.false_ne_true⟩), Option.getD_some]
      simp only [DumpFunction, List.flatten_append]
      refine Reads.bind (reads_string hsource) ?_
      rw [hloaded]
      refine Reads.bind (reads_int hf.linedefined) (Reads.bind (reads_int hf.lastlinedefined) ?_)
      refine Reads.bind (reads_char _) (Reads.bind (reads_char _) ?_)
      refine Reads.bind (reads_char _) (Reads.bind (reads_char _) ?_)
      refine Reads.bind (reads_vector hf.code) ?_
      refine Reads.bind (reads_constants hf.k hf.constants hf.sizep fun i =>
        ih (children i) (some head.source) _ (hlevels i) (hall.2 i) ?_) ?_
      · cases strip with
        | true => exact Or.inl rfl
        | false => exact Or.inr fun s hs => (Option.mem_some_iff.mp hs).symm
      · refine Reads.map (reads_debug strip hf) ?_
        dsimp only
        rw [mk_get (ChunkProto.mk _) rfl]
        have hchecked := ChunkProto.reloaded_checked strip q hf.checked
        cases strip with
        | true => exact if_pos hchecked
        | false => exact if_pos hchecked

theorem reads_header : Reads S (LoadHeader S.block) DumpHeader.flatten ⟨⟩ := by
  rw [DumpHeader, List.flatten_singleton]
  exact Reads.map (Reads.block rfl) (if_neg fun h => h rfl)

end

/-! ## What the writer has got -/

section

variable {D : Type} {writer : D → List Byte → Int × D} {contents : D → List Byte}

/-- A writer that returns zero has appended the block to what it holds. -/
def Appends (writer : D → List Byte → Int × D) (contents : D → List Byte) : Prop :=
  ∀ d b, (writer d b).1 = 0 → contents (writer d b).2 = contents d ++ b

theorem dumpBlock_failed {s : DumpState D} (hs : s.status ≠ 0) (blocks : Blocks) :
    blocks.foldl (DumpBlock writer) s = s := by
  induction blocks with
  | nil => rfl
  | cons b blocks ih => rw [List.foldl_cons, DumpBlock, if_neg hs, ih]

/-- No failure means that every block was written. -/
theorem dumpBlocks_contents (hw : Appends writer contents) (blocks : Blocks) :
    ∀ s : DumpState D, s.status = 0 → (blocks.foldl (DumpBlock writer) s).status = 0 →
      contents (blocks.foldl (DumpBlock writer) s).data = contents s.data ++ blocks.flatten := by
  induction blocks with
  | nil => exact fun s _ _ => (List.append_nil _).symm
  | cons b blocks ih =>
    intro s hs hlast
    rw [List.foldl_cons, DumpBlock, if_pos hs] at hlast ⊢
    by_cases hb : (writer s.data b).1 = 0
    · rw [ih _ hb hlast, hw _ _ hb, List.flatten_cons, List.append_assoc]
    · rw [dumpBlock_failed hb] at hlast
      exact absurd hlast hb

/-- **A dumped function loads back.** Where `luaU_dump` returned zero, its writer has
got a chunk that `luaU_undump` reads off any source, in whatever pieces it comes and
whatever follows it, and the function that is loaded is the one that was dumped; with
`strip` it is that function without its debug information. -/
theorem luaU_undump_luaU_dump (hw : Appends writer contents) {data : D} {strip : Bool}
    {f : ChunkProto} {nCcalls : Nat} (hf : f.All Stored)
    (hlevels : f.Levels (LUAI_MAXCCALLS - nCcalls))
    (hdump : (luaU_dump writer data strip f).status = 0) :
    ∃ chunk, contents (luaU_dump writer data strip f).data = contents data ++ chunk
      ∧ ∀ {σ : Type} (S : Stream LoadError σ Byte), Reads S (luaU_undump S.block nCcalls) chunk
        (if strip then f.reloaded true (luaS_newlstr [0x3D, 0x3F]) else f) := by
  refine ⟨_, dumpBlocks_contents hw _ _ rfl hdump, fun S => ?_⟩
  have hread := reads_function strip _ f none (luaS_newlstr [0x3D, 0x3F]) hlevels hf (S := S)
    (Or.inr fun s hs => nomatch hs)
  rw [List.flatten_append]
  refine Reads.bind reads_header ?_
  cases strip with
  | true => exact hread
  | false => rwa [ChunkProto.reloaded_false] at hread

/-- `return f` with a closure in it, a local variable and a constant of each type. -/
def nestedProto : ChunkProto :=
  let source := luaS_newlstr [0x40, 0x61]
  let ret := CREATE_ABC OP_RETURN.toWord 0 1 0
  .mk
    { source, nups := 0, numparams := 0, is_vararg := 2, maxstacksize := 2, linedefined := 0
      lastlinedefined := 0, lineinfo := [1, 1]
      code := [CREATE_ABx OP_CLOSURE.toWord 0 0, ret]
      k := [.nil, .boolean 1, .number 0x3FF0000000000000, .string (some (luaS_newlstr [0x78]))]
      upvalues := [], locvars := [{ varname := some (luaS_newlstr [0x66]), startpc := 1, endpc := 2 }] }
    1 fun _ => .mk
      { source, nups := 0, numparams := 0, is_vararg := 0, maxstacksize := 2, linedefined := 1
        lastlinedefined := 1, lineinfo := [1], code := [ret], k := [], upvalues := [], locvars := [] }
      0 Fin.elim0

theorem nestedProto_stored : nestedProto.All Stored := by
  have hstring : ∀ s : TString, s.bytes.length ≤ 2 → ShortString s := by
    intro s hs
    unfold ShortString MAX_SIZET sizeofTString
    omega
  refine ⟨?_, fun _ => ⟨?_, fun i => i.elim0⟩⟩
  · constructor
    case source => exact hstring _ (by decide)
    case constants =>
      simp [ChunkProto.head, StoredConstant, ShortString, luaS_newlstr, MAX_SIZET, sizeofTString]
    case locals =>
      simp only [ChunkProto.head, List.mem_singleton, forall_eq]
      exact ⟨fun s hs => Option.mem_some_iff.mp hs ▸ hstring _ (by decide), by decide, by decide⟩
    case names => exact List.forall_mem_nil _
    all_goals decide
  · constructor
    case source => exact hstring _ (by decide)
    case constants => exact List.forall_mem_nil _
    case locals => exact List.forall_mem_nil _
    case names => exact List.forall_mem_nil _
    all_goals decide

/-- The writer of `luaL_Buffer`, and a chunk with both protos. -/
theorem luaU_undump_nested : (∃ chunk,
    (luaU_dump (fun d b => (0, d ++ b)) [] true nestedProto).data = [] ++ chunk
      ∧ ∀ {σ : Type} (S : Stream LoadError σ Byte), Reads S (luaU_undump S.block 0) chunk
        (nestedProto.reloaded true (luaS_newlstr [0x3D, 0x3F]))) := by
  have happends : Appends (fun d b => (0, d ++ b)) (id : List Byte → List Byte) :=
    fun _ _ _ => rfl
  exact luaU_undump_luaU_dump happends nestedProto_stored (fun _ i => i.elim0) (by decide)

end

/-! ## The reader of `Undump` -/

section

variable {σ : Type} {S : Stream LoadError σ Byte}

variable {α β α' β' : Type} {g : α → β} {g' : α' → β'}

/-- On a source and on the list of what it holds, two readers end together, and the
second returns the `g` of what the first returns. -/
def Views (S : Stream LoadError σ Byte) (g : α → β) (x : LoadOn σ α) (y : Undump.LoadM β) : Prop :=
  Rel sameError S.Holds x y fun a b s z => b = g a ∧ S.Holds s z

theorem Views.pure {a : α} {b : β} (h : b = g a) : Views S g (Pure.pure a) (Pure.pure b) :=
  Rel.pure fun _ _ hs => ⟨h, hs⟩

theorem Views.throw (e : LoadError) : Views S g (MonadExcept.throw e) (MonadExcept.throw e) :=
  Rel.throw rfl

theorem Views.bind {x : LoadOn σ α} {y : Undump.LoadM β} {f : α → LoadOn σ α'}
    {f' : β → Undump.LoadM β'} (hx : Views S g x y) (hf : ∀ a, Views S g' (f a) (f' (g a))) :
    Views S g' (x >>= f) (y >>= f') := by
  refine Rel.bind hx fun a b => Rel.assume fun hab => ?_
  rw [hab]
  exact hf a

theorem Views.ite {c : Prop} [Decidable c] {x x' : LoadOn σ α} {y y' : Undump.LoadM β}
    (hx : Views S g x y) (hx' : Views S g x' y') :
    Views S g (if c then x else x') (if c then y else y') := by
  by_cases hc : c
  · rw [if_pos hc, if_pos hc]
    exact hx
  · rw [if_neg hc, if_neg hc]
    exact hx'

theorem views_block (hshort : S.short = .syntaxError "unexpected end") (n : Nat) :
    Views S id (S.block n) (Undump.LoadBlock n) := by
  intro s z hs
  rw [Undump.LoadBlock]
  by_cases hn : n ≤ z.length
  · obtain ⟨s', hs', hrest⟩ := S.block_ok hs hn
    rw [hs', if_pos hn]
    exact ⟨rfl, hrest⟩
  · obtain ⟨s', hs'⟩ := S.block_short hs (Nat.lt_of_not_le hn)
    rw [hs', if_neg hn]
    exact Or.inr (Or.inr hshort)

theorem views_check {e : LoadError} (c : Prop) [Decidable c] :
    Views S id (when c (MonadExcept.throw e)) (when c (MonadExcept.throw e)) :=
  Views.ite (Views.throw e) (Views.pure rfl)

section

variable (hshort : S.short = .syntaxError "unexpected end")

include hshort

theorem views_char : Views S id (LoadChar S.block) Undump.LoadChar :=
  Views.bind (views_block hshort 1) fun _ => Views.pure rfl

theorem views_word : Views S id (LoadWord S.block) Undump.LoadWord :=
  Views.bind (views_block hshort 4) fun _ => Views.pure rfl

theorem views_int : Views S id (LoadInt S.block) Undump.LoadInt :=
  Views.bind (views_word hshort) fun _ => Views.ite (Views.throw _) (Views.pure rfl)

theorem views_number : Views S id (LoadNumber S.block) Undump.LoadNumber :=
  Views.bind (views_block hshort 8) fun _ => Views.pure rfl

theorem views_string : Views S id (LoadString S.block) Undump.LoadString :=
  Views.bind (views_word hshort) fun size => Views.ite (Views.pure rfl)
    (Views.bind (views_check _) fun _ => Views.bind (views_block hshort size.toNat) fun _ =>
      Views.bind (views_check _) fun _ => Views.pure rfl)


theorem views_vector : Views S id (LoadVector S.block) Undump.LoadVector :=
  Views.bind (views_int hshort) fun n => Views.bind (views_check _) fun _ =>
    Views.bind (views_block hshort (n * 4)) fun _ => Views.pure rfl

theorem views_each {x : LoadOn σ α} {y : Undump.LoadM β} (e : Nat) (h : Views S g x y) :
    Views S (List.map g) (LoadEach S.block e x) (Undump.LoadEach e y) :=
  Views.bind (views_int hshort) fun n => Views.bind (views_check _) fun _ => Rel.times h n

theorem views_constant : Views S id (LoadConstant S.block) Undump.LoadConstant := by
  refine Views.bind (views_char hshort) fun t => Views.ite (Views.pure rfl) ?_
  refine Views.ite (Views.bind (views_char hshort) fun _ => Views.pure rfl) ?_
  refine Views.ite (Views.bind (views_number hshort) fun _ => Views.pure rfl) ?_
  exact Views.ite (Views.bind (views_string hshort) fun _ => Views.pure rfl) (Views.throw _)

theorem views_constants {x : LoadOn σ ChunkProto} {y : Undump.LoadM LProto}
    (h : Views S ChunkProto.toLProto x y) :
    Views S (fun r => (r.1, r.2.map ChunkProto.toLProto)) (LoadConstants S.block x)
      (Undump.LoadConstants y) := by
  refine Views.bind (views_each hshort 16 (views_constant hshort)) fun k => ?_
  refine Views.bind (views_each hshort 4 h) fun p => Views.pure ?_
  rw [List.map_id]

/-- The local variables are read, and dropped. -/
theorem views_locVar : Views S (fun _ => ⟨⟩) (LoadLocVar S.block) Undump.LoadLocVar :=
  Views.bind (views_string hshort) fun _ => Views.bind (views_int hshort) fun _ =>
    Views.bind (views_int hshort) fun _ => Views.pure rfl

theorem views_debug :
    Views S (fun r => (r.1, r.2.2)) (LoadDebug S.block) Undump.LoadDebug := by
  refine Views.bind (views_vector hshort) fun lineinfo => ?_
  refine Views.bind (views_each hshort 12 (views_locVar hshort)) fun locvars => ?_
  refine Views.bind (views_each hshort 4 (views_string hshort)) fun upvalues => Views.pure ?_
  rw [List.map_id]
  rfl

theorem views_function : ∀ (depth : Nat) (p : TString),
    Views S ChunkProto.toLProto (LoadFunction S.block depth p) (Undump.LoadFunction depth p) := by
  intro depth
  induction depth with
  | zero => exact fun p => Views.throw _
  | succ depth ih =>
    intro p
    refine Views.bind (views_string hshort) fun source => ?_
    refine Views.bind (views_int hshort) fun _ => Views.bind (views_int hshort) fun _ => ?_
    refine Views.bind (views_char hshort) fun nups => ?_
    refine Views.bind (views_char hshort) fun numparams => ?_
    refine Views.bind (views_char hshort) fun is_vararg => ?_
    refine Views.bind (views_char hshort) fun maxstacksize => ?_
    refine Views.bind (views_vector hshort) fun code => ?_
    refine Views.bind (views_constants hshort (ih _)) fun r => ?_
    refine Views.bind (views_debug hshort) fun d => ?_
    dsimp only
    have hmap : r.2.map ChunkProto.toLProto = List.ofFn fun i => (r.2.get i).toLProto := by
      conv_lhs => rw [← List.ofFn_get r.2]
      exact List.map_ofFn ..
    rw [mk_get (LProto.mk _) hmap]
    exact Views.ite (Views.pure rfl) (Views.throw _)

theorem views_undump (nCcalls : Nat) :
    Views S ChunkProto.toLProto (luaU_undump S.block nCcalls) (Undump.luaU_undump nCcalls) := by
  refine Views.bind (g := id) ?_ fun _ => views_function hshort _ _
  refine Views.bind (views_block hshort _) fun _ => ?_
  exact Views.ite (Views.throw _) (Views.pure rfl)

end

end

end NostalgiaConv.Chunk
