/-
`TranspileProto` and the key search of `conversion.cpp`.

The program runs in the host's memory and may stop at any host call. Beside the
host's state it has one variable of its own that outlives a call: the
function-local static `encodeKey`, initialised by whichever call reaches it
first. `TranspileProto` is cut at its blank lines: the proto object and its
scalar fields, then one table after another, each a block from `rbx_malloc` whose
self-relative address and length go into the proto and whose entries are written
by a loop.
-/
import NostalgiaConv.Instr
import NostalgiaConv.Value

set_option autoImplicit false

namespace NostalgiaConv.Transpile

open NostalgiaConv.ByteMem NostalgiaConv.Cipher NostalgiaConv.Instr NostalgiaConv.Host
open NostalgiaConv.Value

/-! ## Protos -/

/-- The fields of a `Proto` that the transpiler reads, children apart. The vectors
lie in the memory of a 32-bit process, so their sizes in bytes do not wrap. -/
structure ProtoHead where
  source : TString
  k : List Constant
  code : List Word
  lineinfo : List Word
  upvalues : List TString
  nups : Byte
  numparams : Byte
  is_vararg : Byte
  maxstacksize : Byte
  k_fits : 16 * k.length < 2 ^ 32
  code_fits : 4 * code.length < 2 ^ 32
  lineinfo_fits : 4 * lineinfo.length < 2 ^ 32
  upvalues_fits : 4 * upvalues.length < 2 ^ 32

/-- A proto with its own address and its children. -/
inductive Proto where
  | mk (self : Addr) (head : ProtoHead) (sizep : Nat) (p_fits : 4 * sizep < 2 ^ 32)
    (p : Fin sizep → Proto)

/-! ## The program's state -/

/-- Why a run stops before its end: a host function raised, or an opcode field
past the end of `luaP_opmodes` was looked up. -/
inductive Fault where
  | raised
  | pastTable
  deriving DecidableEq

structure TState (A : Type) where
  host : HostState A
  encodeKey : Option Word

abbrev TranspileM (A : Type) := EStateM Fault (TState A)

section

variable {A : Type}

def callHost {α : Type} (x : HostM A α) : TranspileM A α := fun σ =>
  match x σ.host with
  | .ok a s => .ok a { σ with host := s }
  | .error .raised s => .error .raised { σ with host := s }

def write (n : Nat) (a : Addr) (v : BitVec (8 * n)) : TranspileM A PUnit :=
  modify (fun σ => { σ with host := { σ.host with mem := store n σ.host.mem a v } })

def write8 (a : Addr) (v : Byte) : TranspileM A PUnit := write 1 a v
def write32 (a : Addr) (v : Word) : TranspileM A PUnit := write 4 a v
def write64 (a : Addr) (v : BitVec 64) : TranspileM A PUnit := write 8 a v

def read32 (a : Addr) : TranspileM A Word := fun σ => .ok (load32 σ.host.mem a) σ

end

/-! ## The keys -/

/-- `for (i = 0; i < 0xFFFFFFFF; i++)`; the first argument bounds the iterations. -/
def crackLoop (decodeKey : Word) : Nat → Word → Word
  | 0, _ => 0#32
  | fuel + 1, i =>
    if i < 0xFFFFFFFF#32 then
      if i * decodeKey = 1#32 then i else crackLoop decodeKey fuel (i + 1#32)
    else 0#32

def CrackEncodeKey (decodeKey : Word) : Word := crackLoop decodeKey (2 ^ 32) 0#32

/-- The decode key, found through the state's self-relative pointer to its
global object. -/
def decodeKeyOf (m : Mem 32) (rbxState : Addr) : Word :=
  let pDecodeKey := load32 m (rbxState + 8) + 0x24
  rbxState + pDecodeKey + load32 m (rbxState + pDecodeKey)

section

variable {A : Type}

/-- `static std::uintptr_t encodeKey = CrackEncodeKey(decodeKey);` with the decode
key of the state. -/
def staticEncodeKey (rbxState : Addr) : TranspileM A Word := fun σ =>
  match σ.encodeKey with
  | some encodeKey => .ok encodeKey σ
  | none =>
    let encodeKey := CrackEncodeKey (decodeKeyOf σ.host.mem rbxState)
    .ok encodeKey { σ with encodeKey := some encodeKey }

end

/-! ## `TranspileProto` -/

/-- An `unordered_map` with 32-bit keys. -/
abbrev Cache := Word → Option Addr

def Cache.empty : Cache := fun _ => none

def Cache.insert (cache : Cache) (key : Word) (value : Addr) : Cache :=
  fun key' => if key' = key then some value else cache key'

section

variable {A : Type} (H : HostApi A) (rbxState : Addr)

/-- The proto object, its chunk name and its four byte fields. -/
def newProto (vProto : ProtoHead) : TranspileM A Addr := do
  let proto ← callHost (H.rbx_fnewproto rbxState)
  let chunkName ← callHost (H.rbx_snewlstr rbxState vProto.source.bytes)
  write32 (proto + 0xC) (chunkName - (proto + 0xC))
  write8 (proto + 0x48) vProto.maxstacksize
  write8 (proto + 0x4B) vProto.is_vararg
  write8 (proto + 0x4A) vProto.nups
  write8 (proto + 0x49) vProto.numparams
  pure proto

/-- The body of the constant loop: one slot, by the constant's type. -/
def constantSlot (currConst : Addr) (pConst : Constant) (stringCache : Cache) :
    TranspileM A Cache :=
  match pConst with
  | .nil => do
    write32 currConst 0
    write32 (currConst + 8) RBX_TYPE_NIL
    pure stringCache
  | .boolean b => do
    write8 currConst (if b = 0 then 0 else 1) -- the cast to `bool*`: one byte
    write32 (currConst + 8) RBX_TYPE_BOOLEAN
    pure stringCache
  | .number num => do
    write64 currConst (num ^^^ H.xorConst)
    write32 (currConst + 8) RBX_TYPE_NUMBER
    pure stringCache
  | .string ts =>
    match stringCache ts.hash with
    | some found => do
      write32 currConst found
      write32 (currConst + 8) RBX_TYPE_STRING
      pure stringCache
    | none => do
      let str ← callHost (H.rbx_snewlstr rbxState ts.bytes)
      write32 currConst str
      write32 (currConst + 8) RBX_TYPE_STRING
      let stored ← read32 currConst
      pure (stringCache.insert ts.hash stored)

/-- The constant loop from index `currIndex` on. -/
def constantLoop (constantTable : Addr) : Nat → List Constant → Cache → TranspileM A Cache
  | _, [], stringCache => pure stringCache
  | currIndex, pConst :: k, stringCache => do
    let stringCache ← constantSlot H rbxState
      (constantTable + BitVec.ofNat 32 (16 * currIndex)) pConst stringCache
    constantLoop constantTable (currIndex + 1) k stringCache

/-- A loop that computes the entries of a table of words and writes each in its
place, from entry `start` on. -/
def fillTable (table : Addr) (start : Nat) : (n : Nat) → (Fin n → TranspileM A Word) →
    TranspileM A PUnit
  | 0, _ => pure ⟨⟩
  | n + 1, entry => do
    let value ← entry 0
    write32 (table + BitVec.ofNat 32 (4 * start)) value
    fillTable table (start + 1) n (fun i => entry i.succ)

/-- A table that is made only when it has entries: the children, the line
numbers, the upvalue names. -/
def optionalTable (proto pointerField countField : Addr) (n : Nat)
    (entry : Fin n → TranspileM A Word) : TranspileM A PUnit :=
  if n = 0 then pure ⟨⟩
  else do
    let table ← callHost (H.rbx_malloc rbxState 0 0 (BitVec.ofNat 32 (4 * n)))
    write32 (proto + pointerField) (table - (proto + pointerField))
    write32 (proto + countField) (BitVec.ofNat 32 n)
    fillTable table 0 n entry

/-- One entry of the instruction table. -/
def instructionEntry (encodeKey : Word) (code : List Word) (i : Fin code.length) :
    TranspileM A Word :=
  match storedWord encodeKey code[i] (BitVec.ofNat 32 i) with
  | some stored => pure stored
  | none => throw .pastTable

/-- The keys, and the instruction table. -/
def instructionTable (proto : Addr) (vProto : ProtoHead) : TranspileM A PUnit := do
  let encodeKey ← staticEncodeKey rbxState
  let table ← callHost (H.rbx_malloc rbxState 0 0 (BitVec.ofNat 32 (4 * vProto.code.length)))
  write32 (proto + 0x34) (BitVec.ofNat 32 vProto.code.length)
  write32 (proto + 0x18) (table - (proto + 0x18))
  fillTable table 0 vProto.code.length (instructionEntry encodeKey vProto.code)

def lineinfoTable (proto : Addr) (vProto : ProtoHead) : TranspileM A PUnit :=
  optionalTable H rbxState proto 0x24 0x40 vProto.lineinfo.length
    (fun i => pure (vProto.lineinfo[i] ^^^ (BitVec.ofNat 32 i <<< 8)))

def upvalueTable (proto : Addr) (vProto : ProtoHead) : TranspileM A PUnit :=
  optionalTable H rbxState proto 0x28 0x14 vProto.upvalues.length
    (fun i => callHost (H.rbx_snewlstr rbxState vProto.upvalues[i].bytes))

/-- The block for the constants. -/
def newConstantTable (vProto : ProtoHead) : TranspileM A Addr :=
  callHost (H.rbx_malloc rbxState 0 0 (BitVec.ofNat 32 (16 * vProto.k.length)))

/-- Everything after the block for the constants was allocated; `child` translates
the `i`-th child with the string cache as it then is. -/
def transpileTables (proto constantTable : Addr) (vProto : ProtoHead) (stringCache : Cache)
    (sizep : Nat) (child : Cache → Fin sizep → TranspileM A Word) : TranspileM A PUnit := do
  write32 (proto + 0x1C) (BitVec.ofNat 32 vProto.k.length)
  write32 (proto + 0x20) (constantTable - (proto + 0x20))
  let stringCache ← constantLoop H rbxState constantTable 0 vProto.k stringCache
  instructionTable H rbxState proto vProto
  optionalTable H rbxState proto 0x8 0x2C sizep (child stringCache)
  lineinfoTable H rbxState proto vProto
  upvalueTable H rbxState proto vProto

/-- A proto that is not in the cache. -/
def transpileNode (vProto : ProtoHead) (stringCache : Cache) (sizep : Nat)
    (child : Cache → Fin sizep → TranspileM A Word) : TranspileM A Addr := do
  let proto ← newProto H rbxState vProto
  let constantTable ← newConstantTable H rbxState vProto
  transpileTables H rbxState proto constantTable vProto stringCache sizep child
  pure proto

/-- `TranspileProto`. Both caches are passed by value: what a call adds to them
reaches its own children and nobody else, and its last statement, which enters
the finished proto into its copy of `protoCache`, has no effect. -/
def transpileProto : Proto → Cache → Cache → TranspileM A Addr
  | .mk self vProto sizep _ p, protoCache, stringCache =>
    match protoCache self with
    | some found => pure found
    | none => transpileNode H rbxState vProto stringCache sizep
        (fun stringCache i => transpileProto (p i) protoCache stringCache)

end

end NostalgiaConv.Transpile
