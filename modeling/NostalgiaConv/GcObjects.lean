/-
`lua/lobject.h`, `lua/lstate.h`, `lua/lgc.h`: the objects of a Lua state, what they refer
to, and the bits that the collector keeps of each.

A pointer to an object is its type and an address; what an object contains is a function
of its address, and the lists that link objects through their headers are lists. The
strings with the collector's phase and its current white are the string table of
`lua/lstring.c`, and the entries of a table those of `lua/ltable.c`. Left out is what the
collector does not look at: code, debug positions, the hooks of a thread, the sizes of
vectors, the counters that pace the collector.
-/
import NostalgiaConv.StringTable
import NostalgiaConv.TableRuns
import NostalgiaConv.Tracing

set_option autoImplicit false

namespace NostalgiaConv.Collector

open NostalgiaConv.StringTable NostalgiaConv.HashTable

/-! ## Values -/

/-- A `GCObject *`, with the type of the object. -/
inductive GCObject where
  | string (ts : Nat)
  | userdata (u : Nat)
  | upval (uv : Nat)
  | function (cl : Nat)
  | table (h : Nat)
  | thread (th : Nat)
  | proto (p : Nat)
  deriving DecidableEq

/-- Keys of tables, with the object that a key points to (`gcvalue`, where `iscollectable`)
and the key that points to an object (`sethvalue` and the like). -/
class Collectable (K : Type) extends Keys K where
  object : K → Option GCObject
  setobject : GCObject → K

/-- The objects that a key can point to. -/
def GCObject.iskey : GCObject → Bool
  | .upval _ | .proto _ => false
  | _ => true

class LawfulCollectable (K : Type) [Collectable K] : Prop extends LawfulKeys K where
  object_iskey : ∀ (k : K) (o : GCObject), Collectable.object k = some o → o.iskey = true

/-- The object of a key, at its address. -/
def Key.gcobject : Key → Option GCObject
  | .string ts => some (.string ts.toNat)
  | .object .table p => some (.table p.toNat)
  | .object .function p => some (.function p.toNat)
  | .object .userdata p => some (.userdata p.toNat)
  | .object .thread p => some (.thread p.toNat)
  | _ => none

def Key.ofObject : GCObject → Key
  | .string ts => .string (BitVec.ofNat 32 ts)
  | .table h => .object .table (BitVec.ofNat 32 h)
  | .function cl => .object .function (BitVec.ofNat 32 cl)
  | .userdata u => .object .userdata (BitVec.ofNat 32 u)
  | .thread th => .object .thread (BitVec.ofNat 32 th)
  -- not the object of any key
  | .upval _ | .proto _ => .boolean false

instance [StringHash] : Collectable Key where
  object := Key.gcobject
  setobject := Key.ofObject

instance [StringHash] : LawfulCollectable Key where
  object_iskey k o h := by
    cases k with
    | object tt p => cases tt <;> exact Option.some.inj h ▸ rfl
    | string ts => exact Option.some.inj h ▸ rfl
    | _ => exact absurd h.symm (Option.some_ne_none o)

/-- A value that is not nil: a key, or one of the two that are none. Prototypes are put on
the stack by the parser. -/
inductive Value (K : Type) where
  | key (k : K)
  | nan
  | proto (p : Nat)

/-- `nil` is `none`. -/
abbrev TValue (K : Type) : Type := Option (Value K)

section

variable {K : Type} [Collectable K]

def Value.object : Value K → Option GCObject
  | .key k => Collectable.object k
  | .nan => none
  | .proto p => some (.proto p)

/-- The object that a value points to, if it is collectable. -/
def gcobject (o : TValue K) : Option GCObject := o.bind Value.object

def setobject (o : GCObject) : TValue K := some (.key (Collectable.setobject o))

end

/-! ## Objects -/

structure Udata where
  metatable : Option Nat
  env : Nat
  /-- The bit `FINALIZEDBIT`. -/
  finalized : Bool

/-- An upvalue is open while `v` points into the stack of a thread. -/
inductive UpVal (K : Type) where
  | opened (th level : Nat)
  | closed (value : TValue K)

inductive Closure (K : Type) where
  | C (env : Nat) (upvalue : List (TValue K))
  | L (env p : Nat) (upvals : List Nat)

structure Table (K : Type) where
  metatable : Option Nat
  entries : HashTable.Table K (Value K)
  /-- The bits `KEYWEAKBIT` and `VALUEWEAKBIT`. -/
  weakkey : Bool
  weakvalue : Bool

structure CallInfo where
  isLua : Bool
  top : Nat

/-- The stack is a function of the position; `ci` has the innermost call first. -/
structure Thread (K : Type) where
  gt : TValue K
  stack : Nat → TValue K
  top : Nat
  ci : List CallInfo

structure Proto (K : Type) where
  source : Option Nat
  k : List (TValue K)
  upvalues : List (Option Nat)
  p : List (Option Nat)
  locvars : List (Option Nat)

/-- The tag methods that the collector looks for. -/
inductive TMS where
  | TM_GC | TM_MODE
  deriving DecidableEq

/-- The `global_State`. `there` and `marks` are about the objects that are not strings;
`rootgc` has all of them but the open upvalues, which are in the lists of their threads and
in `uvhead`, and but the userdata in `tmudata`; `L` is the running thread. -/
structure GlobalState (K : Type) extends Strings where
  there : GCObject → Bool
  marks : GCObject → Marked
  udata : Nat → Udata
  upval : Nat → UpVal K
  closure : Nat → Closure K
  table : Nat → Table K
  thread : Nat → Thread K
  proto : Nat → Proto K
  rootgc : List GCObject
  gray : List GCObject
  grayagain : List GCObject
  weak : List GCObject
  /-- The userdata to be finalized, the next one first. -/
  tmudata : List Nat
  uvhead : List Nat
  mainthread : Nat
  registry : TValue K
  mt : List (Option Nat)
  tmname : TMS → Nat
  L : Nat

variable {K : Type}

/-! ## Colours -/

def iswhite (m : Marked) : Bool := m.white0 || m.white1
def isblack (m : Marked) : Bool := m.black
def isgray (m : Marked) : Bool := !isblack m && !iswhite m

def white2gray (m : Marked) : Marked := { m with white0 := false, white1 := false }
def gray2black (m : Marked) : Marked := { m with black := true }
def black2gray (m : Marked) : Marked := { m with black := false }

/-- `gch.marked`. -/
def GlobalState.gch (g : GlobalState K) : GCObject → Marked
  | .string ts => g.marked ts
  | o => g.marks o

/-- Change the bits of an object. -/
def paint (f : Marked → Marked) (g : GlobalState K) (o : GCObject) : GlobalState K :=
  match o with
  | .string ts => { g with marked := Function.update g.marked ts (f (g.marked ts)) }
  | o => { g with marks := Function.update g.marks o (f (g.marks o)) }

/-- The white that dies with a mark phase is the other one afterwards. -/
def GlobalState.isdead (g : GlobalState K) (o : GCObject) : Bool := (g.gch o).white (!g.currentwhite)

/-- Memory holds the object. -/
def GlobalState.allocated (g : GlobalState K) : GCObject → Prop
  | .string ts => (g.tsv ts).isSome = true
  | o => g.there o = true

/-! ## References -/

section

variable [Collectable K]

def objects (vs : List (TValue K)) : List GCObject := vs.filterMap gcobject

def Thread.lim (t : Thread K) : Nat := t.ci.foldl (fun lim ci => max lim ci.top) t.top

/-- The part of the stack that may be read: below the top, and below the top of a Lua
function, to which the top may be set without a write. -/
def Thread.used (t : Thread K) : Nat :=
  (t.ci.filter (·.isLua)).foldl (fun lim ci => max lim ci.top) t.top

/-- `*uv->v`. -/
def GlobalState.uvvalue (g : GlobalState K) (uv : Nat) : TValue K :=
  match g.upval uv with
  | .opened th level => (g.thread th).stack level
  | .closed value => value

def UpVal.isopen : UpVal K → Bool
  | .opened _ _ => true
  | .closed _ => false

def nodes (t : HashTable.Table K (Value K)) : List (Node K (Value K)) :=
  (List.range t.sizenode).map t.node

/-- An entry refers to its key and its value. -/
def entryRefs (n : Node K (Value K)) : List GCObject :=
  if n.val.isSome then objects [n.key.map .key, n.val] else []

def Table.refs (t : Table K) : List GCObject :=
  t.metatable.toList.map .table ++ objects t.entries.array ++ (nodes t.entries).flatMap entryRefs

/-- What a program gets at from an object. -/
def GlobalState.refs (g : GlobalState K) : GCObject → List GCObject
  | .string _ => []
  | .userdata u => (g.udata u).metatable.toList.map .table ++ [.table (g.udata u).env]
  | .upval uv => objects [g.uvvalue uv]
  | .function cl =>
    match g.closure cl with
    | .C env upvalue => .table env :: objects upvalue
    | .L env p upvals => .table env :: .proto p :: upvals.map .upval
  | .table h => (g.table h).refs
  | .thread th =>
    let t := g.thread th
    objects (t.gt :: (List.range t.used).map t.stack)
  | .proto p =>
    let f := g.proto p
    f.source.toList.map .string ++ objects f.k ++ (f.upvalues.filterMap id).map .string
      ++ (f.p.filterMap id).map .proto ++ (f.locvars.filterMap id).map .string

/-- What the program starts from; the userdata to be finalized are passed to their
finalizers. -/
def GlobalState.roots (g : GlobalState K) : List GCObject :=
  .thread g.mainthread :: .thread g.L :: objects [g.registry]
    ++ (g.mt.filterMap id).map .table ++ g.tmudata.map .userdata

end

end NostalgiaConv.Collector
