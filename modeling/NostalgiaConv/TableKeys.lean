/-
`lua/ltable.c`, `lua/lobject.c`: the keys of a table.

A number is a double by its bits. `arrayindex` takes it for an index of the array part if
it is the double of an `int`; the conversion is the one of the processor, which rounds to
the nearest even number, and the test is that converting back gives an equal number. The
file proves that these keys are what the table asks for, and that the searches for integers
and for strings find what the general one does.
-/
import NostalgiaConv.TableMap

set_option autoImplicit false

namespace NostalgiaConv.HashTable

open NostalgiaConv.Chains

/-! ## Numbers -/

/-- The bits of a double. -/
abbrev lua_Number : Type := BitVec 64

/-- The bits of an exponent. -/
def exponent (n : lua_Number) : Nat := n.toNat / 2 ^ 52 % 2 ^ 11

def fraction (n : lua_Number) : Nat := n.toNat % 2 ^ 52

def negative (n : lua_Number) : Bool := 2 ^ 63 ≤ n.toNat

def isnan (n : lua_Number) : Bool := exponent n == 2047 && fraction n != 0

def iszero (n : lua_Number) : Bool := exponent n == 0 && fraction n == 0

/-- Comparison of doubles: the zeros are equal, and what is not a number differs from
itself. -/
def luai_numeq (a b : lua_Number) : Bool := !isnan a && !isnan b && (a == b || iszero a && iszero b)

/-- `m / 2 ^ s`, rounded to the nearest number, and half to the even one. -/
def roundEven (m s : Nat) : Nat :=
  let q := m / 2 ^ s
  let r := m % 2 ^ s
  if 2 ^ s < 2 * r ∨ 2 * r = 2 ^ s ∧ q % 2 = 1 then q + 1 else q

/-- `fistp`: the integer nearest to the number; the smallest one if none of 32 bits is. -/
def lua_number2int (n : lua_Number) : Int :=
  let e := exponent n
  let size : Nat :=
    if e = 0 then 0
    else if e < 1075 then roundEven (2 ^ 52 + fraction n) (1075 - e)
    else (2 ^ 52 + fraction n) * 2 ^ (e - 1075)
  let i : Int := if negative n then -size else size
  if e ≠ 2047 ∧ -2 ^ 31 ≤ i ∧ i < 2 ^ 31 then i else -2 ^ 31

/-- The double of an integer that it can represent. -/
def cast_num (i : Int) : lua_Number :=
  if i = 0 then 0
  else
    let m := i.natAbs
    let e := m.log2
    let sign := if i < 0 then 2 ^ 63 else 0
    BitVec.ofNat 64 (sign + (e + 1023) * 2 ^ 52 + (m * 2 ^ (52 - e) - 2 ^ 52))

/-- The parts of the double of an integer. -/
theorem parts_cast_num {i : Int} (hi : i ≠ 0) (hsize : i.natAbs < 2 ^ 32) :
    exponent (cast_num i) = i.natAbs.log2 + 1023
      ∧ 2 ^ 52 + fraction (cast_num i) = i.natAbs * 2 ^ (52 - i.natAbs.log2)
      ∧ negative (cast_num i) = decide (i < 0) := by
  have hm : i.natAbs ≠ 0 := Int.natAbs_ne_zero.mpr hi
  have hlog : i.natAbs.log2 < 32 := (Nat.log2_lt hm).mpr hsize
  have hlow := Nat.log2_self_le hm
  have hhigh : i.natAbs < 2 ^ (i.natAbs.log2 + 1) := Nat.lt_log2_self
  have hmin : 2 ^ 52 ≤ i.natAbs * 2 ^ (52 - i.natAbs.log2) := by
    calc 2 ^ 52 = 2 ^ i.natAbs.log2 * 2 ^ (52 - i.natAbs.log2) := by
          rw [← Nat.pow_add, Nat.add_sub_cancel' (by omega)]
      _ ≤ _ := Nat.mul_le_mul_right _ hlow
  have hmax : i.natAbs * 2 ^ (52 - i.natAbs.log2) < 2 ^ 53 := by
    calc i.natAbs * 2 ^ (52 - i.natAbs.log2)
        < 2 ^ (i.natAbs.log2 + 1) * 2 ^ (52 - i.natAbs.log2) :=
          Nat.mul_lt_mul_of_pos_right hhigh (Nat.two_pow_pos _)
      _ = 2 ^ 53 := by rw [← Nat.pow_add, show i.natAbs.log2 + 1 + (52 - i.natAbs.log2) = 53 by omega]
  simp only [cast_num, if_neg hi, exponent, fraction, negative, BitVec.toNat_ofNat]
  generalize i.natAbs * 2 ^ (52 - i.natAbs.log2) = m at hmin hmax ⊢
  generalize i.natAbs.log2 = e at hlog ⊢
  refine ⟨?_, ?_, ?_⟩
  · split_ifs <;> omega
  · split_ifs <;> omega
  · rw [decide_eq_decide]
    split_ifs <;> omega

theorem isnan_cast_num {i : Int} (hsize : i.natAbs < 2 ^ 32) : isnan (cast_num i) = false := by
  by_cases hi : i = 0
  · rw [hi]
    decide
  · have hlog : i.natAbs.log2 < 32 := (Nat.log2_lt (Int.natAbs_ne_zero.mpr hi)).mpr hsize
    have hne : (exponent (cast_num i) == 2047) = false := by
      rw [(parts_cast_num hi hsize).1, beq_eq_false_iff_ne]
      omega
    rw [isnan, hne, Bool.false_and]

theorem roundEven_mul (m s : Nat) : roundEven (m * 2 ^ s) s = m := by
  have hpow := Nat.two_pow_pos s
  rw [roundEven]
  simp only [Nat.mul_div_cancel _ hpow, Nat.mul_mod_left]
  rw [if_neg]
  omega

/-- An integer is converted back. -/
theorem lua_number2int_cast_num {i : Int} (hlow : -2 ^ 31 ≤ i) (hhigh : i < 2 ^ 31) :
    lua_number2int (cast_num i) = i := by
  by_cases hi : i = 0
  · rw [hi]
    decide
  · have hsize : i.natAbs < 2 ^ 32 := by omega
    have hlog : i.natAbs.log2 < 32 := (Nat.log2_lt (Int.natAbs_ne_zero.mpr hi)).mpr hsize
    obtain ⟨hexp, hfrac, hneg⟩ := parts_cast_num hi hsize
    have hround : roundEven (2 ^ 52 + fraction (cast_num i)) (1075 - (i.natAbs.log2 + 1023))
        = i.natAbs := by
      rw [hfrac, show 1075 - (i.natAbs.log2 + 1023) = 52 - i.natAbs.log2 by omega, roundEven_mul]
    have hnormal : ¬ i.natAbs.log2 + 1023 = 0 := Nat.succ_ne_zero _
    have hinexact : i.natAbs.log2 + 1023 < 1075 := by omega
    simp only [lua_number2int, hexp, hneg, hround, decide_eq_true_eq, if_neg hnormal, if_pos hinexact]
    split_ifs <;> omega

theorem luai_numeq_self {n : lua_Number} (h : isnan n = false) : luai_numeq n n = true := by
  simp [luai_numeq, h]

theorem luai_numeq_symm (a b : lua_Number) : luai_numeq a b = luai_numeq b a := by
  rw [luai_numeq, luai_numeq, BEq.comm (a := a), Bool.and_comm (iszero a), Bool.and_comm (!isnan a)]

theorem luai_numeq_iff {a b : lua_Number} :
    luai_numeq a b = true ↔ isnan a = false ∧ isnan b = false
      ∧ (a = b ∨ iszero a = true ∧ iszero b = true) := by
  simp [luai_numeq, and_assoc]

theorem luai_numeq_trans {a b c : lua_Number} (hab : luai_numeq a b = true) (hbc : luai_numeq b c = true) :
    luai_numeq a c = true := by
  obtain ⟨ha, -, hab⟩ := luai_numeq_iff.mp hab
  obtain ⟨-, hc, hbc⟩ := luai_numeq_iff.mp hbc
  refine luai_numeq_iff.mpr ⟨ha, hc, ?_⟩
  rcases hab with rfl | ⟨hza, hzb⟩
  · exact hbc
  · rcases hbc with rfl | ⟨-, hzc⟩
    · exact .inr ⟨hza, hzb⟩
    · exact .inr ⟨hza, hzc⟩

theorem luai_numeq_congr {a b : lua_Number} (h : luai_numeq a b = true) (m : lua_Number) :
    luai_numeq m a = luai_numeq m b := by
  rw [Bool.eq_iff_iff]
  exact ⟨fun hm => luai_numeq_trans hm h, fun hm => luai_numeq_trans hm (luai_numeq_symm a b ▸ h)⟩

theorem iszero_zero : iszero 0 = true := by decide

/-- A number equal to zero is a zero. -/
theorem luai_numeq_zero (n : lua_Number) : luai_numeq n 0 = iszero n := by
  rw [luai_numeq, iszero_zero, Bool.and_true, show isnan 0 = false by decide]
  by_cases hz : iszero n = true
  · have hn : isnan n = false := by
      simp only [iszero, Bool.and_eq_true, beq_iff_eq] at hz
      simp [isnan, hz]
    simp [hz, hn]
  · have hne : (n == (0 : lua_Number)) = false := by
      rw [beq_eq_false_iff_ne]
      rintro rfl
      exact hz iszero_zero
    rw [hne, Bool.false_or, Bool.eq_false_iff.mpr hz, Bool.and_false]

theorem lua_number2int_of_iszero {n : lua_Number} (h : iszero n = true) : lua_number2int n = 0 := by
  simp only [iszero, Bool.and_eq_true, beq_iff_eq] at h
  simp [lua_number2int, h]

theorem lua_number2int_congr {a b : lua_Number} (h : luai_numeq a b = true) :
    lua_number2int a = lua_number2int b := by
  obtain ⟨-, -, rfl | ⟨ha, hb⟩⟩ := luai_numeq_iff.mp h
  · rfl
  · rw [lua_number2int_of_iszero ha, lua_number2int_of_iszero hb]

/-! ## Keys -/

/-- The field `hash` of the string at an address. -/
class StringHash where
  hash : BitVec 32 → BitVec 32

inductive GcTag where
  | table | function | userdata | thread
  deriving DecidableEq

/-- The values that can be a key: not nil, and a number that is one. Strings and other
objects are their addresses. -/
inductive Key where
  | number (n : lua_Number) (h : isnan n = false)
  | boolean (b : Bool)
  | lightuserdata (p : BitVec 32)
  | string (ts : BitVec 32)
  | object (tt : GcTag) (p : BitVec 32)

def luaO_rawequalObj : Key → Key → Bool
  | .number a _, .number b _ => luai_numeq a b
  | .boolean a, .boolean b => a == b
  | .lightuserdata a, .lightuserdata b => a == b
  | .string a, .string b => a == b
  | .object s a, .object t b => s == t && a == b
  | _, _ => false

/-- The macro `hashpow2`, for `2 ^ l` nodes. -/
def hashpow2 (l n : Nat) : Nat := n &&& (2 ^ l - 1)

def hashmod (l n : Nat) : Nat := n % ((2 ^ l - 1) ||| 1)

/-- The two halves of a number are added. -/
def hashnum (l : Nat) (n : lua_Number) : Nat :=
  if luai_numeq n 0 then 0 else hashmod l ((n.toNat % 2 ^ 32 + n.toNat / 2 ^ 32) % 2 ^ 32)

namespace Key

def mainposition [StringHash] (l : Nat) : Key → Nat
  | .number n _ => hashnum l n
  | .string ts => hashpow2 l (StringHash.hash ts).toNat
  | .boolean b => hashpow2 l b.toNat
  | .lightuserdata p => hashmod l p.toNat
  | .object _ p => hashmod l p.toNat

def arrayindex : Key → Int
  | .number n _ =>
    let k := lua_number2int n
    if luai_numeq (cast_num k) n then k else -1
  | _ => -1

/-- An `int` as a key. -/
def ofInt (i : Int) : Key :=
  if h : isnan (cast_num i) = false then .number (cast_num i) h else .boolean false

def gcvalue : Key → Option Nat
  | .string ts => some ts.toNat
  | .object _ p => some p.toNat
  | _ => none

end Key

instance [StringHash] : Keys Key where
  beq := luaO_rawequalObj
  arrayindex := Key.arrayindex
  numkey i := Key.ofInt i
  mainposition := Key.mainposition
  gcvalue := Key.gcvalue

theorem hashpow2_lt (l n : Nat) : hashpow2 l n < 2 ^ l := by
  have hpow := Nat.two_pow_pos l
  have hle : hashpow2 l n ≤ 2 ^ l - 1 := Nat.and_le_right
  omega

theorem hashmod_lt (l n : Nat) : hashmod l n < 2 ^ l := by
  cases l with
  | zero => simp [hashmod, Nat.mod_one]
  | succ l =>
    have hodd : (2 ^ (l + 1) - 1) ||| 1 = 2 ^ (l + 1) - 1 := by
      refine Nat.eq_of_testBit_eq fun i => ?_
      rw [Bool.eq_iff_iff, Nat.testBit_or, Bool.or_eq_true, Nat.testBit_two_pow_sub_one,
        Nat.testBit_one_eq_true_iff_self_eq_zero, decide_eq_true_iff]
      omega
    have hpow := Nat.two_pow_pos l
    rw [hashmod, hodd]
    refine (Nat.mod_lt n ?_).trans_le (Nat.sub_le _ _)
    rw [Nat.pow_succ]
    omega

theorem hashnum_lt (l : Nat) (n : lua_Number) : hashnum l n < 2 ^ l := by
  rw [hashnum]
  split_ifs
  · exact Nat.two_pow_pos l
  · exact hashmod_lt l _

theorem hashnum_congr (l : Nat) {a b : lua_Number} (h : luai_numeq a b = true) : hashnum l a = hashnum l b := by
  obtain ⟨-, -, rfl | ⟨ha, hb⟩⟩ := luai_numeq_iff.mp h
  · rfl
  · rw [hashnum, hashnum, luai_numeq_zero, luai_numeq_zero, if_pos ha, if_pos hb]

theorem ofInt_eq {i : Int} (h : i.natAbs < 2 ^ 32) : Key.ofInt i = .number (cast_num i) (isnan_cast_num h) :=
  dif_pos (isnan_cast_num h)

theorem lua_number2int_bounds (n : lua_Number) : -2 ^ 31 ≤ lua_number2int n ∧ lua_number2int n < 2 ^ 31 := by
  simp only [lua_number2int]
  generalize (if negative n = true then _ else _ : Int) = i
  split_ifs with hrange
  · exact hrange.2
  · decide

theorem arrayindex_number {n : lua_Number} (h : isnan n = false)
    (hpos : 0 < (Key.number n h).arrayindex) :
    (Key.number n h).arrayindex = lua_number2int n ∧ luai_numeq (cast_num (lua_number2int n)) n = true := by
  rw [Key.arrayindex] at hpos ⊢
  split_ifs at hpos ⊢ with heq
  · exact ⟨rfl, heq⟩
  · exact absurd hpos (by decide)

theorem beq_def [StringHash] (a b : Key) : (a == b) = luaO_rawequalObj a b := rfl

instance [StringHash] : LawfulKeys Key where
  rfl {a} := by
    rw [beq_def]
    cases a <;> simp_all [luaO_rawequalObj, luai_numeq_self]
  symm {a b} h := by
    rw [beq_def] at h ⊢
    cases a <;> cases b <;> simp_all [luaO_rawequalObj, luai_numeq_symm]
  trans {a b c} hab hbc := by
    rw [beq_def] at hab hbc ⊢
    cases a <;> cases b <;> simp [luaO_rawequalObj] at hab <;> cases c <;>
      simp_all [luaO_rawequalObj]
    exact luai_numeq_trans hab hbc
  mainposition_lt l k := by
    cases k
    case number n h => exact hashnum_lt l n
    case boolean b => exact hashpow2_lt l _
    case lightuserdata p => exact hashmod_lt l _
    case string ts => exact hashpow2_lt l _
    case object tt p => exact hashmod_lt l _
  mainposition_congr {a b} l h := by
    rw [beq_def] at h
    cases a <;> cases b <;> simp [luaO_rawequalObj] at h
    case number n hn n' hn' => exact hashnum_congr l h
    all_goals simp [mainposition, h]
  arrayindex_congr {a b} h := by
    rw [beq_def] at h
    cases a <;> cases b <;> simp [luaO_rawequalObj] at h
    case number a ha b hb =>
      show Key.arrayindex _ = Key.arrayindex _
      simp only [Key.arrayindex, lua_number2int_congr h, luai_numeq_congr h]
    all_goals rfl
  gcvalue_congr {a b} h := by
    rw [beq_def] at h
    cases a <;> cases b <;> simp [luaO_rawequalObj] at h <;> simp [gcvalue, Key.gcvalue, h]
  arrayindex_numkey {i} hi := by
    show Key.arrayindex (Key.ofInt i) = i
    have hsize : (i : Int).natAbs < 2 ^ 32 := by omega
    simp only [ofInt_eq hsize, Key.arrayindex]
    rw [lua_number2int_cast_num (by omega) (by omega), if_pos (luai_numeq_self (isnan_cast_num hsize))]
  numkey_arrayindex {k} h := by
    cases k with
    | number n hn =>
      obtain ⟨hindex, heq⟩ := arrayindex_number hn h
      have hbounds := lua_number2int_bounds n
      have hpos : 0 < Key.arrayindex (Key.number n hn) := h
      show luaO_rawequalObj (Key.ofInt ((Key.arrayindex (Key.number n hn)).toNat : Int)) _ = true
      rw [Int.toNat_of_nonneg (Int.le_of_lt hpos), hindex, ofInt_eq (by omega)]
      exact heq
    | _ => exact absurd h (Int.not_lt.mpr (show (-1 : Int) ≤ 0 by decide))
  gcvalue_number {k} h := by
    cases k with
    | string ts => exact absurd h (Int.not_lt.mpr (show (-1 : Int) ≤ 0 by decide))
    | object tt p => exact absurd h (Int.not_lt.mpr (show (-1 : Int) ≤ 0 by decide))
    | _ => rfl

/-! ## Searches for one type of key -/

/-- The index of the array part, computed without a sign. -/
theorem unsigned_index {key : Int} (hlow : -2 ^ 31 ≤ key) (hhigh : key < 2 ^ 31) {len : Nat}
    (hlen : len ≤ MAXASIZE) :
    (BitVec.ofInt 32 (key - 1)).toNat < len ↔ 0 < key ∧ key ≤ len := by
  have hsize : MAXASIZE < 2 ^ 31 := by decide
  rw [BitVec.toNat_ofInt]
  omega

theorem unsigned_index_eq {key : Int} (hpos : 0 < key) (hhigh : key < 2 ^ 31) :
    (BitVec.ofInt 32 (key - 1)).toNat = key.toNat - 1 := by
  rw [BitVec.toNat_ofInt]
  omega

section

variable {V : Type} [StringHash]

def Node.isnumber (n : Node Key V) (nk : lua_Number) : Bool :=
  !n.dead && match n.key with
    | some (.number m _) => luai_numeq m nk
    | _ => false

def Node.isstring (n : Node Key V) (key : BitVec 32) : Bool :=
  !n.dead && match n.key with
    | some (.string ts) => ts == key
    | _ => false

def luaH_getnum (t : Table Key V) (key : Int) : Option Loc :=
  if (BitVec.ofInt 32 (key - 1)).toNat < t.array.length then
    some (.array (BitVec.ofInt 32 (key - 1)).toNat)
  else
    let nk := cast_num key
    (walk t.gnext (fun i => (t.node i).isnumber nk) t.sizenode (some (hashnum t.lsizenode nk))).map .node

def luaH_getstr (t : Table Key V) (key : BitVec 32) : Option Loc :=
  (walk t.gnext (fun i => (t.node i).isstring key) t.sizenode
    (some (hashpow2 t.lsizenode (StringHash.hash key).toNat))).map .node

/-- `luaH_get`, by the type of the key. -/
def luaH_getkey (t : Table Key V) : Key → Option Loc
  | .string ts => luaH_getstr t ts
  | .number n h =>
    let k := lua_number2int n
    if luai_numeq (cast_num k) n then luaH_getnum t k else (t.search (.number n h)).map .node
  | key => (t.search key).map .node

theorem luaH_getstr_eq (t : Table Key V) (key : BitVec 32) : luaH_getstr t key = luaH_get t (.string key) := by
  have hholds : (fun i => (t.node i).isstring key) = fun i => (t.node i).holds (.string key) := by
    funext i
    rw [Node.isstring, Node.holds]
    congr 1
    cases (t.node i).key with
    | none => rfl
    | some k => cases k <;> rfl
  rw [luaH_getstr, hholds]
  rfl

/-- The search for an integer finds what the search for a number equal to it finds. -/
theorem luaH_getnum_eq {t : Table Key V} (hlen : t.array.length ≤ MAXASIZE) {n : lua_Number}
    (h : isnan n = false) (heq : luai_numeq (cast_num (lua_number2int n)) n = true) :
    luaH_getnum t (lua_number2int n) = luaH_get t (.number n h) := by
  have hindex : arrayindex (Key.number n h) = lua_number2int n := if_pos heq
  obtain ⟨hlow, hhigh⟩ := lua_number2int_bounds n
  have hiff := unsigned_index hlow hhigh hlen
  rw [luaH_getnum, luaH_get, Table.inarray, hindex]
  by_cases hin : 0 < lua_number2int n ∧ lua_number2int n ≤ t.array.length
  · rw [if_pos hin, if_pos (hiff.mpr hin), unsigned_index_eq hin.1 hhigh]
  · have hholds : (fun i => (t.node i).isnumber (cast_num (lua_number2int n)))
        = fun i => (t.node i).holds (.number n h) := by
      funext i
      rw [Node.isnumber, Node.holds]
      congr 1
      cases (t.node i).key with
      | none => rfl
      | some k => cases k <;> first | exact luai_numeq_congr heq _ | rfl
    rw [if_neg hin, if_neg (hiff.not.mpr hin)]
    dsimp only
    rw [hholds, hashnum_congr _ heq]
    rfl

/-- **The search by type is the search for the key.** -/
theorem luaH_getkey_eq {t : Table Key V} (hlen : t.array.length ≤ MAXASIZE) (key : Key) :
    luaH_getkey t key = luaH_get t key := by
  cases key with
  | number n h =>
    rw [luaH_getkey]
    split_ifs with heq
    · exact luaH_getnum_eq hlen h heq
    · have hindex : arrayindex (Key.number n h) = -1 := if_neg heq
      rw [luaH_get, Table.inarray, hindex]
      rfl
  | string ts => exact luaH_getstr_eq t ts
  | _ => rfl

def luaH_setnum (depth : Nat) (t : Table Key V) (key : Int) : Except Failure (Loc × Table Key V) :=
  match luaH_getnum t key with
  | some loc => .ok (loc, t)
  | none => newkey (grow (luaH_set depth) (Key.ofInt key)) t (Key.ofInt key)

def luaH_setstr (depth : Nat) (t : Table Key V) (key : BitVec 32) : Except Failure (Loc × Table Key V) :=
  match luaH_getstr t key with
  | some loc => .ok (loc, t)
  | none => newkey (grow (luaH_set depth) (.string key)) t (.string key)

theorem luaH_getnum_ofInt {t : Table Key V} (hlen : t.array.length ≤ MAXASIZE) {key : Int}
    (hlow : -2 ^ 31 ≤ key) (hhigh : key < 2 ^ 31) : luaH_getnum t key = luaH_get t (Key.ofInt key) := by
  have hsize : key.natAbs < 2 ^ 32 := by omega
  have hback := lua_number2int_cast_num hlow hhigh
  have heq := luaH_getnum_eq hlen (isnan_cast_num hsize)
    (hback.symm ▸ luai_numeq_self (isnan_cast_num hsize))
  rwa [hback, ← ofInt_eq hsize] at heq

/-- An integer is set as the number it is. -/
theorem luaH_setnum_eq {t : Table Key V} (hlen : t.array.length ≤ MAXASIZE) (depth : Nat) {key : Int}
    (hlow : -2 ^ 31 ≤ key) (hhigh : key < 2 ^ 31) :
    luaH_setnum depth t key = luaH_set (depth + 1) t (Key.ofInt key) := by
  have hget := luaH_getnum_ofInt hlen hlow hhigh
  unfold luaH_setnum luaH_set
  cases hplace : luaH_get t (Key.ofInt key) <;> simp only [hget, hplace]

theorem luaH_setstr_eq (t : Table Key V) (depth : Nat) (key : BitVec 32) :
    luaH_setstr depth t key = luaH_set (depth + 1) t (.string key) := by
  have hget := luaH_getstr_eq t key
  unfold luaH_setstr luaH_set
  cases hplace : luaH_get t (.string key) <;> simp only [hget, hplace]

end

end NostalgiaConv.HashTable
