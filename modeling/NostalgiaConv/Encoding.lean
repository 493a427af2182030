/-
When a host state stands for a Lua state.

A register of the host encodes a register of Lua when, read by its tag, it is the
same nil or boolean, the same number under `xorConst`, a string with the same
bytes, or the object that corresponds to Lua's. Which objects correspond, and when
the two worlds behind the operations do, is for the operations to say:
`Correspondence`. `Simulates` collects what is asked of them.
-/
import NostalgiaConv.Clvm
import NostalgiaConv.Lvm

set_option autoImplicit false

namespace NostalgiaConv.Encoding

open NostalgiaConv.ByteMem NostalgiaConv.Cipher NostalgiaConv.Host NostalgiaConv.Value
open NostalgiaConv.Relational NostalgiaConv.Interpreter NostalgiaConv.Lvm NostalgiaConv.Clvm

/-- The host's tag for a type of objects. -/
def rbxType : ObjectType → Word
  | .lightuserdata => RBX_TYPE_LIGHTUSERDATA
  | .thread => RBX_TYPE_THREAD
  | .function => RBX_TYPE_FUNCTION
  | .table => RBX_TYPE_TABLE
  | .userdata => RBX_TYPE_USERDATA

/-- The host's tag for a value. -/
def rbxTag : LuaValue → Word
  | .nil => RBX_TYPE_NIL
  | .boolean _ => RBX_TYPE_BOOLEAN
  | .number _ => RBX_TYPE_NUMBER
  | .string _ => RBX_TYPE_STRING
  | .object type _ => rbxType type

/-! ## Encoded values and related states -/

/-- How the heaps behind the two machines' operations correspond, and which
objects do. -/
structure Correspondence (W A : Type) where
  worlds : W → HostState A → Prop
  object : W → HostState A → ObjectType → Nat → Addr → Prop

section

variable {W A : Type} (C : Correspondence W A) (H : HostApi A)

def Encodes (w : W) (h : HostState A) : LuaValue → TValue → Prop
  | .nil, v => v.view = .nil
  | .boolean b, v => v.view = .boolean b
  | .number n, v => v.view = .number (numberXor H n)
  | .string ts, v => ∃ a, v.view = .string a ∧ H.isStr h a ts.bytes
  | .object type ref, v => ∃ a, v.view = .object (rbxType type) a ∧ C.object w h type ref a

/-- The worlds correspond, every register is encoded, the two tops are at the same
offsets, and the closure's environment is the thread's globals. -/
structure StateRel (L : LuaState W) (RS : RbxState A) : Prop where
  worlds : C.worlds L.world RS.host
  regs : ∀ n, Encodes C H L.world RS.host (L.stack (L.base + n)) (RS.stack (RS.base + n))
  top : (L.top : Int) - L.base = RS.top - RS.base
  ciTop : (L.ciTop : Int) - L.base = RS.ciTop - RS.base
  env : Encodes C H L.world RS.host (.object .table L.env) RS.l_gt

/-- Two operations either both raise or both return. -/
def opEnds : Ends LuaError HostError := ⟨fun _ _ => True, fun _ => False, fun _ => False⟩

/-- What the simulation asks of the host and of Lua's operations: a new string
leaves what corresponds alone, the characters of a host string lie behind its
header and end with a zero, and each operation acts on encoded values as Lua's
acts on plain ones. -/
structure Simulates (U : LuaApi W) (V : RbxApi A) : Prop where
  lawful : V.api.Lawful
  svalue : ∀ {s a bytes}, V.api.isStr s a bytes → svalue s.mem a = untilZero bytes
  worlds : ∀ {w h h' rs bytes a}, V.api.rbx_snewlstr rs bytes h = .ok a h' → C.worlds w h →
    C.worlds w h'
  object : ∀ {w h h' rs bytes a type ref b}, V.api.rbx_snewlstr rs bytes h = .ok a h' →
    C.object w h type ref b → C.object w h' type ref b
  gettable : ∀ {L RS t t' key key'} n, StateRel C V.api L RS →
    Encodes C V.api L.world RS.host t t' → Encodes C V.api L.world RS.host key key' →
    opEnds.Related (fun _ _ => StateRel C V.api)
      (U.luaV_gettable t key (L.base + n) L) (V.rbxV_gettable t' key' (RS.base + n) RS)
  settable : ∀ {L RS t t' key key' val val'}, StateRel C V.api L RS →
    Encodes C V.api L.world RS.host t t' → Encodes C V.api L.world RS.host key key' →
    Encodes C V.api L.world RS.host val val' →
    opEnds.Related (fun _ _ => StateRel C V.api)
      (U.luaV_settable t key val L) (V.rbxV_settable t' key' val' RS)
  precall : ∀ {L RS} n nresults, StateRel C V.api L RS →
    opEnds.Related (fun r r' L RS => r = r' ∧ StateRel C V.api L RS)
      (U.luaD_precall (L.base + n) nresults L) (V.rbxV_precall (RS.base + n) nresults RS)
  call : ∀ {L RS} n nresults, StateRel C V.api L RS →
    opEnds.Related (fun _ _ => StateRel C V.api)
      (U.luaD_call (L.base + n) nresults L) (V.rbxD_call (RS.base + n) nresults RS)

end

/-! ## Facts about encoded values -/

section

variable {W A : Type} {C : Correspondence W A} {H : HostApi A} {w : W} {h h' : HostState A}
  {a : LuaValue} {v : TValue}

theorem Encodes.tag (he : Encodes C H w h a v) : v.tt = rbxTag a := by
  cases a with
  | nil => exact view_eq_nil.mp he
  | boolean b => exact (view_eq_boolean.mp he).1
  | number n => exact (view_eq_number.mp he).1
  | string ts =>
    obtain ⟨p, hview, -⟩ := he
    exact (view_eq_string.mp hview).1
  | object type ref =>
    obtain ⟨p, hview, -⟩ := he
    exact tt_of_view_object hview

theorem rbxTag_eq_nil : rbxTag a = RBX_TYPE_NIL ↔ a = .nil := by
  cases a with
  | nil => exact iff_of_true rfl rfl
  | boolean b | number n | string ts => exact iff_of_false (by simp only [rbxTag]; decide) nofun
  | object type ref => cases type <;> exact iff_of_false (by simp only [rbxTag]; decide) nofun

theorem rbxTag_eq_number : rbxTag a = RBX_TYPE_NUMBER ↔ ∃ n, a = .number n := by
  cases a with
  | number n => exact iff_of_true rfl ⟨n, rfl⟩
  | nil | boolean b | string ts => exact iff_of_false (by simp only [rbxTag]; decide) nofun
  | object type ref => cases type <;> exact iff_of_false (by simp only [rbxTag]; decide) nofun

theorem rbxTag_eq_string : rbxTag a = RBX_TYPE_STRING ↔ ∃ ts, a = .string ts := by
  cases a with
  | string ts => exact iff_of_true rfl ⟨ts, rfl⟩
  | nil | boolean b | number n => exact iff_of_false (by simp only [rbxTag]; decide) nofun
  | object type ref => cases type <;> exact iff_of_false (by simp only [rbxTag]; decide) nofun

theorem rbxTag_eq_table : rbxTag a = RBX_TYPE_TABLE ↔ ∃ ref, a = .object .table ref := by
  cases a with
  | object type ref =>
    cases type with
    | table => exact iff_of_true rfl ⟨ref, rfl⟩
    | _ => exact iff_of_false (by simp only [rbxTag]; decide) nofun
  | _ => exact iff_of_false (by simp only [rbxTag]; decide) nofun

/-- `l_isfalse`, by the host's tags. -/
theorem Encodes.isFalse (he : Encodes C H w h a v) : l_isfalse a = true ↔
    v.tt = RBX_TYPE_NIL ∨ (v.tt = RBX_TYPE_BOOLEAN ∧ v.word = 0) := by
  rw [← view_eq_nil, ← view_eq_boolean]
  cases a with
  | nil => exact ⟨fun _ => Or.inl he, fun _ => rfl⟩
  | boolean b =>
    have hview : v.view = .boolean b := he
    rw [hview]
    simp [l_isfalse]
  | number n =>
    have hview : v.view = .number (numberXor H n) := he
    rw [hview]
    simp [l_isfalse]
  | string ts | object type ref =>
    obtain ⟨p, hview, -⟩ := he
    rw [hview]
    simp [l_isfalse]

theorem encodes_boolean (value : BitVec 64) (b : Word) :
    Encodes C H w h (.boolean b) ⟨setWord value b, RBX_TYPE_BOOLEAN⟩ :=
  view_eq_boolean.mpr ⟨rfl, word_setWord value b _⟩

theorem encodes_number (n : lua_Number) :
    Encodes C H w h (.number n) ⟨numberXor H n, RBX_TYPE_NUMBER⟩ :=
  view_eq_number.mpr ⟨rfl, rfl⟩

theorem numberXor_numberXor (n : lua_Number) : numberXor H (numberXor H n) = n := by
  unfold numberXor
  rw [BitVec.xor_assoc, BitVec.xor_self, BitVec.xor_zero]

/-- A number comes out as it went in. -/
theorem Encodes.number {n : lua_Number} (he : Encodes C H w h (.number n) v) :
    v.tt = RBX_TYPE_NUMBER ∧ numberXor H v.value = n := by
  obtain ⟨htt, hvalue⟩ := view_eq_number.mp he
  rw [hvalue, numberXor_numberXor]
  exact ⟨htt, rfl⟩

end

end NostalgiaConv.Encoding
