/-
A pair of machines with tables and functions, for the comparisons to be tried on.

All tables of a machine are one list of entries, the newest first; a string is looked up
by its characters, which on the host's side lie in the bump heap. There are no
metamethods. A function is one of C that returns its first argument, and anything else
that is called raises.
-/
import NostalgiaConv.BumpHost
import NostalgiaConv.HostOver
import NostalgiaConv.Simulation
import Mathlib.Data.List.Forall2

set_option autoImplicit false

namespace NostalgiaConv.TableHost

open NostalgiaConv.ByteMem NostalgiaConv.Cipher NostalgiaConv.Host NostalgiaConv.HostOver
open NostalgiaConv.Value NostalgiaConv.BumpHost NostalgiaConv.Relational NostalgiaConv.Interpreter
open NostalgiaConv.Lvm NostalgiaConv.Clvm NostalgiaConv.Encoding NostalgiaConv.Simulation

/-! ## Keys -/

/-- What a value is to a table. -/
inductive Key where
  | nil
  | boolean (b : Word)
  | number (n : lua_Number)
  | string (bytes : List Byte)
  | object (tt : Word) (ref : Nat)
  deriving DecidableEq

def luaKey : LuaValue → Key
  | .nil => .nil
  | .boolean b => .boolean b
  | .number n => .number n
  | .string ts => .string ts.bytes
  | .object type ref => .object (rbxType type) ref

/-- The characters of a host string, counted by the length in its header. -/
def stringBytes (m : Mem 32) (a : Addr) : List Byte :=
  (List.range (load32 m (a + 12)).toNat).map (fun i => m (a + 16 + BitVec.ofNat 32 i))

def rbxKey (xorConst : BitVec 64) (m : Mem 32) (v : TValue) : Key :=
  match v.view with
  | .nil => .nil
  | .boolean b => .boolean b
  | .number n => .number (n ^^^ xorConst)
  | .string a => .string (stringBytes m a)
  | .object tt a => .object tt a.toNat

/-- The entries of all tables: table, key and value. -/
abbrev Entries (V : Type) := List ((Key × Key) × V)

/-- Where two lists have entries under the same keys, a lookup finds entries in the same
place. -/
theorem lookup_forall₂ {V V' : Type} {R : V → V' → Prop} {l : Entries V} {l' : Entries V'}
    (h : List.Forall₂ (fun e e' => e.1 = e'.1 ∧ R e.2 e'.2) l l') (k : Key × Key) :
    (l.lookup k = none ∧ l'.lookup k = none)
      ∨ ∃ v v', l.lookup k = some v ∧ l'.lookup k = some v' ∧ R v v' := by
  induction h with
  | nil => exact Or.inl ⟨rfl, rfl⟩
  | @cons e e' l l' he _ ih =>
    obtain ⟨key, v⟩ := e
    obtain ⟨key', v'⟩ := e'
    obtain ⟨rfl, hv⟩ : key = key' ∧ R v v' := he
    rw [List.lookup_cons, List.lookup_cons]
    by_cases hk : k = key
    · rw [beq_iff_eq.mpr hk]
      exact Or.inr ⟨v, v', rfl, rfl, hv⟩
    · rw [beq_eq_false_iff_ne.mpr hk]
      exact ih

/-! ## Calls -/

/-- How many values a call leaves, of a function that returns one. -/
def resultCount (nresults : Int) : Nat := if 0 ≤ nresults then nresults.toNat else 1

/-- The stack after a call of the function that returns its first argument: from `func` on
that one, or nil where there was none, and nils up to the number that was asked for. -/
def returned {V : Type} (setnil : V → V) (func : Nat) (nresults : Int) (top : Nat)
    (stack : Nat → V) : Nat → V := fun n =>
  if n = func ∧ n < func + resultCount nresults ∧ func + 1 < top then stack (func + 1)
  else if func ≤ n ∧ n < func + resultCount nresults then setnil (stack n)
  else stack n

/-- The same by distances from a base. -/
theorem returned_add {V : Type} (setnil : V → V) (base n : Nat) (nresults : Int) (top : Nat)
    (stack : Nat → V) (m : Nat) : returned setnil (base + n) nresults top stack (base + m)
      = if m = n ∧ m < n + resultCount nresults ∧ base + (n + 1) < top then stack (base + (n + 1))
        else if n ≤ m ∧ m < n + resultCount nresults then setnil (stack (base + m))
        else stack (base + m) := by
  unfold returned
  exact if_congr (by omega) rfl (if_congr (by omega) rfl rfl)

/-! ## The two machines -/

def setnil (v : TValue) : TValue := { v with tt := RBX_TYPE_NIL }

section

variable {W A : Type}

def luaReturn (L : LuaState W) (func : Nat) (nresults : Int) : LuaState W :=
  { L with stack := returned (fun _ => .nil) func nresults L.top L.stack,
           top := func + resultCount nresults }

/-- A call of a function, which ends with `r`. -/
def luaCall {α : Type} (r : α) (func : Nat) (nresults : Int) : LuaOp W α := fun L =>
  match L.stack func with
  | .object .function _ => .ok r (luaReturn L func nresults)
  | _ => .error .raised L

def rbxReturn (RS : RbxState A) (func : Nat) (nresults : Int) : RbxState A :=
  { RS with stack := returned setnil func nresults RS.top RS.stack,
            top := func + resultCount nresults }

def rbxCall {α : Type} (r : α) (func : Nat) (nresults : Int) : RbxOp A α := fun RS =>
  if (RS.stack func).tt = RBX_TYPE_FUNCTION then .ok r (rbxReturn RS func nresults)
  else .error .raised RS

end

def luaTables : LuaApi (Entries LuaValue) where
  luaV_gettable t key val := fun L =>
    match t with
    | .object .table _ =>
      .ok ⟨⟩ (L.setStack val ((L.world.lookup (luaKey t, luaKey key)).getD .nil))
    | _ => .error .raised L
  luaV_settable t key val := fun L =>
    match t with
    | .object .table _ =>
      if luaKey key = .nil then .error .raised L
      else .ok ⟨⟩ { L with world := ((luaKey t, luaKey key), val) :: L.world }
    | _ => .error .raised L
  luaD_precall := luaCall PCRC
  luaD_call := luaCall ⟨⟩

/-- The bump heap, and the entries beside it. -/
abbrev Heap := Bump × Entries TValue

/-- A value is stored with all of its bytes; where there is none, the payload of the slot
stays. -/
def rbxTables (xorConst : BitVec 64) : RbxApi Heap where
  api := extended beside (bumpHost xorConst)
  rbxV_gettable t key val := fun RS =>
    if t.tt = RBX_TYPE_TABLE then
      .ok ⟨⟩ (RS.setStack val ((RS.host.heap.2.lookup
        (rbxKey xorConst RS.host.mem t, rbxKey xorConst RS.host.mem key)).getD
          (setnil (RS.stack val))))
    else .error .raised RS
  rbxV_settable t key val := fun RS =>
    if t.tt = RBX_TYPE_TABLE then
      if rbxKey xorConst RS.host.mem key = .nil then .error .raised RS
      else .ok ⟨⟩ { RS with host := { RS.host with heap := (RS.host.heap.1,
        ((rbxKey xorConst RS.host.mem t, rbxKey xorConst RS.host.mem key), val)
          :: RS.host.heap.2) } }
    else .error .raised RS
  rbxV_precall := rbxCall PCRC
  rbxD_call := rbxCall ⟨⟩

theorem rbxCall_ok {A α : Type} {r a : α} {func : Nat} {nresults : Int} {RS RS' : RbxState A}
    (h : rbxCall r func nresults RS = .ok a RS') : a = r ∧ RS' = rbxReturn RS func nresults := by
  unfold rbxCall at h
  by_cases hfunction : (RS.stack func).tt = RBX_TYPE_FUNCTION
  · rw [if_pos hfunction] at h
    obtain ⟨rfl, rfl⟩ := EStateM.Result.ok.inj h
    exact ⟨rfl, rfl⟩
  · rw [if_neg hfunction] at h
    exact nomatch h

theorem rbxTables_lawful (xorConst : BitVec 64) : (rbxTables xorConst).api.Lawful :=
  extended_lawful lifts_beside (bumpHost_lawful xorConst)

/-! ## Strings in memory -/

/-- The characters from `a` on, read as a C string. -/
theorem cstring_eq (m : Mem 32) : ∀ (bytes : List Byte) (n : Nat) (a : Addr), bytes.length < n →
    (∀ i ≤ bytes.length, m (a + BitVec.ofNat 32 i) = bytes.getD i 0) →
    cstring m n a = untilZero bytes := by
  intro bytes
  induction bytes with
  | nil =>
    intro n a hn hm
    obtain ⟨n, rfl⟩ : ∃ k, n = k + 1 := ⟨n - 1, by simp only [List.length_nil] at hn; omega⟩
    have h0 : m a = 0 := by simpa using hm 0 le_rfl
    rw [cstring, if_pos h0]
    rfl
  | cons b bytes ih =>
    intro n a hn hm
    obtain ⟨n, rfl⟩ : ∃ k, n = k + 1 := ⟨n - 1, by simp only [List.length_cons] at hn; omega⟩
    have hb : m a = b := by simpa using hm 0 (Nat.zero_le _)
    rw [cstring, hb, untilZero, List.takeWhile_cons]
    by_cases hzero : b = 0
    · subst hzero
      rfl
    · rw [if_neg hzero, if_pos (by simpa using hzero)]
      congr 1
      -- character `i` behind this one is character `i + 1` from here
      refine ih n (a + 1) (by simpa using hn) (fun i hi => ?_)
      have hsum : a + 1 + BitVec.ofNat 32 i = a + BitVec.ofNat 32 (i + 1) := by
        rw [Nat.add_comm, BitVec.ofNat_add, ← BitVec.add_assoc]
        rfl
      rw [hsum, hm (i + 1) (by simpa using hi)]
      rfl

section

variable {s : State} {a : Addr} {bytes : List Byte}

theorem svalue_eq (h : isStr s a bytes) : svalue s.mem a = untilZero bytes := by
  obtain ⟨hsize, -, -, hbytes⟩ := h
  refine cstring_eq s.mem bytes _ _ ?_ hbytes
  have hsizestring : sizestring bytes = 16 + (bytes.length + 1) := rfl
  omega

theorem stringBytes_eq (h : isStr s a bytes) : stringBytes s.mem a = bytes := by
  obtain ⟨hsize, -, hlength, hbytes⟩ := h
  have hsizestring : sizestring bytes = 16 + (bytes.length + 1) := rfl
  have hcount : (load32 s.mem (a + 12)).toNat = bytes.length := by
    rw [hlength, BitVec.toNat_ofNat]
    exact Nat.mod_eq_of_lt (by omega)
  unfold stringBytes
  rw [hcount]
  refine List.ext_getElem (by simp) (fun i hi hi' => ?_)
  rw [List.getElem_map, List.getElem_range, hbytes i hi'.le, List.getD_eq_getElem?_getD,
    List.getElem?_eq_getElem hi']
  rfl

end

theorem rbxTag_eq_function {a : LuaValue} :
    rbxTag a = RBX_TYPE_FUNCTION ↔ ∃ ref, a = .object .function ref := by
  constructor
  · intro htag
    cases a with
    | object type ref =>
      cases type with
      | function => exact ⟨ref, rfl⟩
      | _ => exact absurd htag (by simp only [rbxTag]; decide)
    | _ => exact absurd htag (by simp only [rbxTag]; decide)
  · rintro ⟨ref, rfl⟩
    rfl

/-! ## Which host states stand for which Lua states -/

/-- An object is the same number on both sides. -/
def sameRef : Correspondence (Entries LuaValue) Heap where
  worlds _ _ := True
  object _ _ _ ref a := ref = a.toNat

variable (xorConst : BitVec 64)

/-- A stored value stands for the one that is stored under the same key of the same
table. -/
def sameNumber : Correspondence (Entries LuaValue) Heap where
  worlds w h := List.Forall₂
    (fun e e' => e.1 = e'.1 ∧ Encodes sameRef (rbxTables xorConst).api w h e.2 e'.2) w h.heap.2
  object _ _ _ ref a := ref = a.toNat

section

variable {xorConst} {w w' : Entries LuaValue} {h h' : HostState Heap} {a : LuaValue} {v : TValue}

theorem encodes_sameNumber : Encodes (sameNumber xorConst) (rbxTables xorConst).api w h a v
    ↔ Encodes sameRef (rbxTables xorConst).api w h a v := by
  cases a <;> exact Iff.rfl

/-- What is stored in tables is no part of a value. -/
theorem encodes_plain (hplain : plain h' = plain h)
    (he : Encodes sameRef (rbxTables xorConst).api w h a v) :
    Encodes sameRef (rbxTables xorConst).api w' h' a v := by
  cases a with
  | string ts =>
    obtain ⟨p, hview, hstr⟩ := he
    refine ⟨p, hview, ?_⟩
    show isStr (plain h') p ts.bytes
    rw [hplain]
    exact hstr
  | _ => exact he

theorem encodes_snewlstr {rs : Addr} {bytes : List Byte} {p : Addr}
    (hnew : (rbxTables xorConst).api.rbx_snewlstr rs bytes h = .ok p h')
    (he : Encodes sameRef (rbxTables xorConst).api w h a v) :
    Encodes sameRef (rbxTables xorConst).api w h' a v := by
  cases a with
  | string ts =>
    obtain ⟨q, hview, hstr⟩ := he
    have hlawful := rbxTables_lawful xorConst
    have hframe := (hlawful.snewlstr_ok hnew).1
    exact ⟨q, hview, hframe.isStr hlawful (Set.empty_disjoint _) hstr⟩
  | _ => exact he

/-- A value and what stands for it are the same key. -/
theorem rbxKey_eq (he : Encodes (sameNumber xorConst) (rbxTables xorConst).api w h a v) :
    rbxKey xorConst h.mem v = luaKey a := by
  unfold rbxKey
  cases a with
  | nil =>
    have hview : v.view = .nil := he
    rw [hview]
    rfl
  | boolean b =>
    have hview : v.view = .boolean b := he
    rw [hview]
    rfl
  | number n =>
    have hview : v.view = .number (n ^^^ xorConst) := he
    rw [hview]
    show Key.number (n ^^^ xorConst ^^^ xorConst) = .number n
    rw [BitVec.xor_assoc, BitVec.xor_self, BitVec.xor_zero]
  | string ts =>
    obtain ⟨p, hview, hstr⟩ := he
    rw [hview]
    exact congrArg Key.string (stringBytes_eq (s := plain h) hstr)
  | object type ref =>
    obtain ⟨p, hview, hobj⟩ := he
    rw [hview]
    exact congrArg (Key.object (rbxType type)) (Eq.symm hobj)

end

/-! ## The operations act alike -/

section

variable {xorConst} {L : LuaState (Entries LuaValue)} {RS : RbxState Heap}

theorem gettable_simulates {t key : LuaValue} {t' key' : TValue} (n : Nat)
    (hstate : StateRel (sameNumber xorConst) (rbxTables xorConst).api L RS)
    (ht : Encodes (sameNumber xorConst) (rbxTables xorConst).api L.world RS.host t t')
    (hkey : Encodes (sameNumber xorConst) (rbxTables xorConst).api L.world RS.host key key') :
    opEnds.Related (fun _ _ => StateRel (sameNumber xorConst) (rbxTables xorConst).api)
      (luaTables.luaV_gettable t key (L.base + n) L)
      ((rbxTables xorConst).rbxV_gettable t' key' (RS.base + n) RS) := by
  have htag : t'.tt = rbxTag t := ht.tag
  show opEnds.Related _ _ (if t'.tt = RBX_TYPE_TABLE then _ else _)
  by_cases htable : t'.tt = RBX_TYPE_TABLE
  · rw [if_pos htable]
    obtain ⟨ref, rfl⟩ := rbxTag_eq_table.mp (htag.symm.trans htable)
    rw [rbxKey_eq ht, rbxKey_eq hkey]
    refine stateRel_setStack hstate n ?_
    rcases lookup_forall₂ hstate.worlds (luaKey (.object .table ref), luaKey key) with
      ⟨hl, hr⟩ | ⟨v, v', hl, hr, hv⟩
    · rw [hl, hr]
      exact view_eq_nil.mpr rfl
    · rw [hl, hr]
      exact encodes_sameNumber.mpr hv
  · rw [if_neg htable]
    have hne : ∀ ref, t ≠ .object .table ref := by
      rintro ref rfl
      exact htable htag
    unfold luaTables
    simp only
    exact Or.inr (Or.inr trivial)

theorem settable_simulates {t key val : LuaValue} {t' key' val' : TValue}
    (hstate : StateRel (sameNumber xorConst) (rbxTables xorConst).api L RS)
    (ht : Encodes (sameNumber xorConst) (rbxTables xorConst).api L.world RS.host t t')
    (hkey : Encodes (sameNumber xorConst) (rbxTables xorConst).api L.world RS.host key key')
    (hval : Encodes (sameNumber xorConst) (rbxTables xorConst).api L.world RS.host val val') :
    opEnds.Related (fun _ _ => StateRel (sameNumber xorConst) (rbxTables xorConst).api)
      (luaTables.luaV_settable t key val L)
      ((rbxTables xorConst).rbxV_settable t' key' val' RS) := by
  have htag : t'.tt = rbxTag t := ht.tag
  show opEnds.Related _ _ (if t'.tt = RBX_TYPE_TABLE then _ else _)
  by_cases htable : t'.tt = RBX_TYPE_TABLE
  · rw [if_pos htable]
    obtain ⟨ref, rfl⟩ := rbxTag_eq_table.mp (htag.symm.trans htable)
    rw [rbxKey_eq ht, rbxKey_eq hkey]
    show opEnds.Related _ (if luaKey key = .nil then _ else _) _
    by_cases hnil : luaKey key = .nil
    · rw [if_pos hnil, if_pos hnil]
      exact Or.inr (Or.inr trivial)
    · rw [if_neg hnil, if_neg hnil]
      have hkept : ∀ {w a v} (h' : HostState Heap), plain h' = plain RS.host →
          Encodes (sameNumber xorConst) (rbxTables xorConst).api L.world RS.host a v →
          Encodes (sameNumber xorConst) (rbxTables xorConst).api w h' a v :=
        fun h' hp he => encodes_sameNumber.mpr (encodes_plain hp (encodes_sameNumber.mp he))
      have hstored := encodes_sameNumber.mp hval
      refine ⟨.cons ⟨rfl, encodes_plain (h := RS.host) (w := L.world) rfl hstored⟩ ?_,
        fun n => hkept _ rfl (hstate.regs n), hstate.top, hstate.ciTop, hkept _ rfl hstate.env⟩
      exact hstate.worlds.imp
        (fun _ _ he => ⟨he.1, encodes_plain (h := RS.host) (w := L.world) rfl he.2⟩)
  · rw [if_neg htable]
    have hne : ∀ ref, t ≠ .object .table ref := by
      rintro ref rfl
      exact htable htag
    unfold luaTables
    simp only
    exact Or.inr (Or.inr trivial)

theorem return_simulates (n : Nat) (nresults : Int)
    (hstate : StateRel (sameNumber xorConst) (rbxTables xorConst).api L RS) :
    StateRel (sameNumber xorConst) (rbxTables xorConst).api (luaReturn L (L.base + n) nresults)
      (rbxReturn RS (RS.base + n) nresults) := by
  refine ⟨hstate.worlds, fun m => ?_, ?_, hstate.ciTop, hstate.env⟩
  · show Encodes (sameNumber xorConst) (rbxTables xorConst).api L.world RS.host
      (returned (fun _ => .nil) (L.base + n) nresults L.top L.stack (L.base + m))
      (returned setnil (RS.base + n) nresults RS.top RS.stack (RS.base + m))
    -- there is an argument on one side when there is one on the other
    have hargument : (m = n ∧ m < n + resultCount nresults ∧ L.base + (n + 1) < L.top)
        ↔ m = n ∧ m < n + resultCount nresults ∧ RS.base + (n + 1) < RS.top := by
      have htop := hstate.top
      omega
    rw [returned_add, returned_add, if_congr hargument rfl rfl]
    by_cases hfirst : m = n ∧ m < n + resultCount nresults ∧ RS.base + (n + 1) < RS.top
    · rw [if_pos hfirst, if_pos hfirst]
      exact hstate.regs (n + 1)
    · rw [if_neg hfirst, if_neg hfirst]
      by_cases hnil : n ≤ m ∧ m < n + resultCount nresults
      · rw [if_pos hnil, if_pos hnil]
        exact view_eq_nil.mpr rfl
      · rw [if_neg hnil, if_neg hnil]
        exact hstate.regs m
  · show ((L.base + n + resultCount nresults : Nat) : Int) - L.base
      = ((RS.base + n + resultCount nresults : Nat) : Int) - RS.base
    omega

theorem call_simulates {α : Type} (r : α) (n : Nat) (nresults : Int)
    (hstate : StateRel (sameNumber xorConst) (rbxTables xorConst).api L RS) :
    opEnds.Related
      (fun a b L RS => a = b ∧ StateRel (sameNumber xorConst) (rbxTables xorConst).api L RS)
      (luaCall r (L.base + n) nresults L) (rbxCall r (RS.base + n) nresults RS) := by
  have htag := (hstate.regs n).tag
  unfold luaCall rbxCall
  by_cases hfunction : (RS.stack (RS.base + n)).tt = RBX_TYPE_FUNCTION
  · obtain ⟨ref, hfunc⟩ := rbxTag_eq_function.mp (htag.symm.trans hfunction)
    rw [if_pos hfunction, hfunc]
    exact ⟨rfl, return_simulates n nresults hstate⟩
  · rw [if_neg hfunction]
    have hne : ∀ ref, L.stack (L.base + n) ≠ .object .function ref := by
      intro ref hfunc
      rw [hfunc] at htag
      exact hfunction htag
    simp only
    exact Or.inr (Or.inr trivial)

end

/-- **The two machines act alike.** -/
theorem tables_simulate :
    Simulates (sameNumber xorConst) luaTables (rbxTables xorConst) where
  lawful := rbxTables_lawful xorConst
  svalue h := svalue_eq (s := plain _) h
  worlds {w h h' rs bytes a} hnew hw := by
    have hentries : h'.heap.2 = h.heap.2 := (beside_ok hnew).2
    show List.Forall₂ _ w h'.heap.2
    rw [hentries]
    exact hw.imp (fun _ _ he => ⟨he.1, encodes_snewlstr hnew he.2⟩)
  object _ h := h
  gettable n hstate ht hkey := gettable_simulates n hstate ht hkey
  settable hstate ht hkey hval := settable_simulates hstate ht hkey hval
  precall n nresults hstate := call_simulates PCRC n nresults hstate
  call n nresults hstate :=
    (call_simulates PUnit.unit n nresults hstate).imp (fun _ _ _ _ h => h.2)

/-! ## Doubles and a process -/

/-- The doubles of the machine that runs this. -/
def machineDoubles : Doubles where
  numadd a b := (Float.ofBits (UInt64.ofBitVec a) + Float.ofBits (UInt64.ofBitVec b)).toBits.toBitVec
  numsub a b := (Float.ofBits (UInt64.ofBitVec a) - Float.ofBits (UInt64.ofBitVec b)).toBits.toBitVec
  numlt a b := Float.ofBits (UInt64.ofBitVec a) < Float.ofBits (UInt64.ofBitVec b)
  numle a b := Float.ofBits (UInt64.ofBitVec a) ≤ Float.ofBits (UInt64.ofBitVec b)
  str2d _ := none

/-- The double of a whole number below `2 ^ 53`: sign, exponent and mantissa. -/
def ofInteger (z : Int) : lua_Number :=
  let exponent := z.natAbs.log2
  if z = 0 then 0
  else BitVec.ofNat 64 ((if z < 0 then 2 ^ 63 else 0) + (exponent + 1023) * 2 ^ 52
    + (z.natAbs * 2 ^ (52 - exponent) - 2 ^ 52))

def toInteger (n : lua_Number) : Int :=
  let magnitude : Nat := (2 ^ 52 + n.toNat % 2 ^ 52) / 2 ^ (1075 - n.toNat / 2 ^ 52 % 2 ^ 11)
  if n.toNat % 2 ^ 63 = 0 then 0
  else if n.toNat < 2 ^ 63 then magnitude else - (magnitude : Int)

/-- Doubles that are whole numbers, on which the arithmetic is exact. -/
def integerDoubles : Doubles where
  numadd a b := ofInteger (toInteger a + toInteger b)
  numsub a b := ofInteger (toInteger a - toInteger b)
  numlt a b := toInteger a < toInteger b
  numle a b := toInteger a ≤ toInteger b
  str2d _ := none

example : integerDoubles.numsub 0x3FF0000000000000 0x4008000000000000 = 0xC000000000000000 := by
  decide +kernel

/-- The process with these entries in its tables. -/
def tableProcess (entries : Entries TValue) : HostState Heap :=
  ⟨(processAt 1 0xCC).mem, ((processAt 1 0xCC).heap, entries)⟩

end NostalgiaConv.TableHost
