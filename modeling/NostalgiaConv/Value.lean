/-
Lua constants, and the host's tagged values.

`Constant` is what a `TValue` of a proto's constant vector can be, with strings
hashed as `luaS_newlstr` hashes them. `TValue` is the host's own record: eight
bytes of payload, of which the tag says how many count, so that two records that
differ in the rest are the same value; `TValue.view` is that reading. The last
section is `transpileConstant` of the VM, one constant at a time.
-/
import NostalgiaConv.Host

set_option autoImplicit false

namespace NostalgiaConv.Value

open NostalgiaConv.ByteMem NostalgiaConv.Cipher NostalgiaConv.Host

/-! ## The string hash -/

/-- `for (l1=l; l1>=step; l1-=step)`; the first argument bounds the iterations. -/
def hashLoop (str : List Byte) (step : Nat) : Nat → Nat → Word → Word
  | 0, _, h => h
  | fuel + 1, l1, h =>
    if step ≤ l1 then
      hashLoop str step fuel (l1 - step)
        (h ^^^ ((h <<< 5) + (h >>> 2) + (str.getD (l1 - 1) 0).setWidth 32))
    else h

/-- The hash `luaS_newlstr` stores in a string: all characters of a short string,
every `step`-th from the end of a long one. -/
def luaS_hash (str : List Byte) : Word :=
  hashLoop str (str.length / 2 ^ 5 + 1) str.length str.length (BitVec.ofNat 32 str.length)

/-- A Lua string: its bytes, and the hash stored beside them. -/
structure TString where
  bytes : List Byte
  hash : Word
  hash_eq : hash = luaS_hash bytes
  deriving DecidableEq

def luaS_newlstr (str : List Byte) : TString := ⟨str, luaS_hash str, rfl⟩

/-- The characters of a literal. -/
def chars (s : String) : List Byte := s.toList.map (fun c => BitVec.ofNat 8 c.toNat)

/-- A step of at least one reaches the end within the length: more iterations
change nothing. -/
theorem hashLoop_fuel (str : List Byte) {step : Nat} (hstep : 0 < step) :
    ∀ fuel l1 h n, l1 ≤ fuel → hashLoop str step (fuel + n) l1 h = hashLoop str step fuel l1 h := by
  intro fuel
  induction fuel with
  | zero =>
    intro l1 h n hl1
    cases n with
    | zero => rfl
    | succ n =>
      have hlt : ¬ step ≤ l1 := by omega
      simp [hashLoop, hlt]
  | succ fuel ih =>
    intro l1 h n hl1
    have hsum : fuel + 1 + n = fuel + n + 1 := by omega
    rw [hsum, hashLoop, hashLoop]
    by_cases hle : step ≤ l1
    · rw [if_pos hle, if_pos hle]
      exact ih _ _ n (by omega)
    · rw [if_neg hle, if_neg hle]

/-- The loop reads the characters at distance a multiple of `step` from where it
starts, and no others. -/
theorem hashLoop_congr {str str' : List Byte} {step : Nat} :
    ∀ fuel l1 h, (∀ j, step ≤ l1 - j * step → str.getD (l1 - j * step - 1) 0
        = str'.getD (l1 - j * step - 1) 0) →
      hashLoop str step fuel l1 h = hashLoop str' step fuel l1 h := by
  intro fuel
  induction fuel with
  | zero => intros; rfl
  | succ fuel ih =>
    intro l1 h hread
    rw [hashLoop, hashLoop]
    by_cases hle : step ≤ l1
    · have h0 := hread 0 (by omega)
      rw [Nat.zero_mul, Nat.sub_zero] at h0
      rw [if_pos hle, if_pos hle, h0]
      refine ih _ _ (fun j hj => ?_)
      have hj' : l1 - step - j * step = l1 - (j + 1) * step := by
        rw [Nat.succ_mul, Nat.sub_sub, Nat.add_comm step]
      rw [hj'] at hj ⊢
      exact hread (j + 1) hj
    · rw [if_neg hle, if_neg hle]

/-- **Long strings collide.** From 32 bytes on the last character but one is
skipped, so every such string shares its hash with the strings that differ from
it there. -/
theorem luaS_hash_set {str : List Byte} (hlen : 32 ≤ str.length) (b : Byte) :
    luaS_hash (str.set (str.length - 2) b) = luaS_hash str := by
  unfold luaS_hash
  rw [List.length_set]
  refine hashLoop_congr _ _ _ (fun j hj => ?_)
  have hstep : 2 ≤ str.length / 2 ^ 5 + 1 := by omega
  have hne : str.length - 2 ≠ str.length - j * (str.length / 2 ^ 5 + 1) - 1 := by
    cases j with
    | zero => omega
    | succ j =>
      have : str.length / 2 ^ 5 + 1 ≤ (j + 1) * (str.length / 2 ^ 5 + 1) :=
        Nat.le_mul_of_pos_left _ (by omega)
      omega
  rw [List.getD_eq_getElem?_getD, List.getD_eq_getElem?_getD, List.getElem?_set_ne hne]

/-! ## Constants of a proto -/

/-- An entry of `Proto.k`: the compiler puts no other types there. A number is
its 64-bit pattern. -/
inductive Constant where
  | nil
  | boolean (b : Word)
  | number (n : BitVec 64)
  | string (ts : TString)
  deriving DecidableEq

/-! ## Host values -/

def RBX_TYPE_NIL : Word := 0
def RBX_TYPE_LIGHTUSERDATA : Word := 1
def RBX_TYPE_NUMBER : Word := 2
def RBX_TYPE_BOOLEAN : Word := 3
def RBX_TYPE_STRING : Word := 4
def RBX_TYPE_THREAD : Word := 5
def RBX_TYPE_FUNCTION : Word := 6
def RBX_TYPE_TABLE : Word := 7
def RBX_TYPE_USERDATA : Word := 8

/-- The host's tag for a constant. -/
def Constant.rbxType : Constant → Word
  | .nil => RBX_TYPE_NIL
  | .boolean _ => RBX_TYPE_BOOLEAN
  | .number _ => RBX_TYPE_NUMBER
  | .string _ => RBX_TYPE_STRING

/-- A tagged value: the union `Value` as its eight bytes, and the tag. -/
structure TValue where
  value : BitVec 64
  tt : Word
  deriving DecidableEq

/-- The union member `b`, and `p` and `gc` in a 32-bit process. -/
def TValue.word (v : TValue) : Word := v.value.setWidth 32

/-- The eight bytes after a store to a 32-bit member. -/
def setWord (value : BitVec 64) (b : Word) : BitVec 64 :=
  (value &&& ~~~(0xFFFFFFFF#64)) ||| b.setWidth 64

/-- What a value is to a reader that goes by the tag. -/
inductive RbxValue where
  | nil
  | boolean (b : Word)
  | number (n : BitVec 64)
  | string (ts : Addr)
  | object (tt : Word) (p : Addr)
  deriving DecidableEq

def TValue.view (v : TValue) : RbxValue :=
  if v.tt = RBX_TYPE_NIL then .nil
  else if v.tt = RBX_TYPE_BOOLEAN then .boolean v.word
  else if v.tt = RBX_TYPE_NUMBER then .number v.value
  else if v.tt = RBX_TYPE_STRING then .string v.word
  else .object v.tt v.word

section

variable {v : TValue}

theorem view_eq_nil : v.view = .nil ↔ v.tt = RBX_TYPE_NIL := by
  unfold TValue.view
  by_cases hnil : v.tt = RBX_TYPE_NIL
  · simp only [hnil, if_true]
  · rw [if_neg hnil]
    refine ⟨fun h => ?_, fun h => absurd h hnil⟩
    split_ifs at h

theorem view_eq_boolean {b : Word} :
    v.view = .boolean b ↔ v.tt = RBX_TYPE_BOOLEAN ∧ v.word = b := by
  unfold TValue.view
  constructor
  · intro h
    split_ifs at h with h1 h2
    exact ⟨h2, RbxValue.boolean.inj h⟩
  · rintro ⟨htt, rfl⟩
    rw [htt]
    rfl

theorem view_eq_number {n : BitVec 64} :
    v.view = .number n ↔ v.tt = RBX_TYPE_NUMBER ∧ v.value = n := by
  unfold TValue.view
  constructor
  · intro h
    split_ifs at h with h1 h2 h3
    exact ⟨h3, RbxValue.number.inj h⟩
  · rintro ⟨htt, rfl⟩
    rw [htt]
    rfl

theorem view_eq_string {a : Addr} :
    v.view = .string a ↔ v.tt = RBX_TYPE_STRING ∧ v.word = a := by
  unfold TValue.view
  constructor
  · intro h
    split_ifs at h with h1 h2 h3 h4
    exact ⟨h4, RbxValue.string.inj h⟩
  · rintro ⟨htt, rfl⟩
    rw [htt]
    rfl

theorem tt_of_view_object {tt : Word} {a : Addr} (h : v.view = .object tt a) : v.tt = tt := by
  unfold TValue.view at h
  split_ifs at h
  exact (RbxValue.object.inj h).1

end

/-- The 16-byte slot at `a`: the payload, the tag at `+8`, four unused bytes. -/
def loadTValue (m : Mem 32) (a : Addr) : TValue := ⟨load64 m a, load32 m (a + 8)⟩

/-- The 32-bit members of a slot are its first word. -/
theorem word_loadTValue (m : Mem 32) (a : Addr) : (loadTValue m a).word = load32 m a := by
  apply BitVec.eq_of_getLsbD_eq
  intro i hi
  have h64 : (load 8 m a).getLsbD i = _ := getLsbD_load m a (by omega)
  have h32 : (load 4 m a).getLsbD i = _ := getLsbD_load m a (by omega)
  show ((load 8 m a).setWidth 32).getLsbD i = (load 4 m a).getLsbD i
  rw [BitVec.getLsbD_setWidth, h64, h32]
  simp [hi]

@[simp] theorem word_setWord (value : BitVec 64) (b : Word) (tt : Word) :
    (TValue.mk (setWord value b) tt).word = b := by
  apply BitVec.eq_of_getLsbD_eq
  intro i hi
  have hmask : ∀ j : Fin 32, (0xFFFFFFFF#64).getLsbD j = true := by decide
  have hi64 : i < 64 := by omega
  simp only [TValue.word, setWord, BitVec.getLsbD_setWidth, BitVec.getLsbD_or, BitVec.getLsbD_and,
    BitVec.getLsbD_not, hmask ⟨i, hi⟩, hi, hi64, decide_true, Bool.true_and, Bool.not_true,
    Bool.and_false, Bool.false_or]

/-! ## `transpileConstant` -/

section

variable {A : Type} (H : HostApi A)

/-- The exclusive or with `xorConst`, on the 64-bit pattern. -/
def numberXor (num : BitVec 64) : BitVec 64 := num ^^^ H.xorConst

/-- One constant as a host value. The record starts zeroed. -/
def transpileConstant (rbxState : Addr) (pConst : Constant) : HostM A TValue :=
  match pConst with
  | .nil => pure ⟨0, RBX_TYPE_NIL⟩
  | .boolean b => pure ⟨setWord 0 b, RBX_TYPE_BOOLEAN⟩
  | .number n => pure ⟨numberXor H n, RBX_TYPE_NUMBER⟩
  | .string ts => do
    let p ← H.rbx_snewlstr rbxState ts.bytes
    pure ⟨setWord 0 p, RBX_TYPE_STRING⟩

end

end NostalgiaConv.Value
