/-
Which stack slots an instruction reads and writes, and that it reads no others.

Two host states are compared that agree on a set `D` of slots and may differ
elsewhere. A value counts by what its tag says of it: a store of a boolean or a nil
leaves the rest of the payload as it was. An instruction that reads only slots of
`D` does the same in both, and afterwards they agree on what it wrote as well.
-/
import NostalgiaConv.Clvm
import NostalgiaConv.Encoding
import NostalgiaConv.Hoare
import Mathlib.Data.Set.Insert

set_option autoImplicit false

namespace NostalgiaConv.RegisterUse

open NostalgiaConv.ByteMem NostalgiaConv.Cipher NostalgiaConv.Host NostalgiaConv.Value
open NostalgiaConv.Opcodes NostalgiaConv.Relational NostalgiaConv.Hoare NostalgiaConv.Interpreter
open NostalgiaConv.Clvm NostalgiaConv.Encoding

variable {A : Type}

/-! ## Reads and writes -/

/-- The slots from `a` up to `b`. -/
def slots (a b : Nat) : Set Nat := {n | a ≤ n ∧ n < b}

/-- The register that an `RK` operand names. -/
def rkReads (base : Nat) (x : Word) : Set Nat := {n | ISK x = false ∧ n = base + x.toNat}

/-- The slots that instruction `i` reads. -/
def reads (i : Word) (t : CluaVm A) : Set Nat :=
  let base := t.robloxBase
  let ra := base + argA i
  match OpCode.ofWord (GET_OPCODE i) with
  | some .OP_MOVE | some .OP_NOT => {base + argB i}
  | some .OP_SETGLOBAL => {ra}
  | some .OP_GETTABLE => {base + argB i} ∪ rkReads base (GETARG_C i)
  | some .OP_SETTABLE => {ra} ∪ rkReads base (GETARG_B i) ∪ rkReads base (GETARG_C i)
  | some .OP_SELF => {base + argB i} ∪ (rkReads base (GETARG_C i) \ {ra + 1})
  | some .OP_CALL => {ra} ∪ slots ra (if argB i ≠ 0 then ra + argB i else t.RS.top)
  | some .OP_FORPREP | some .OP_FORLOOP | some .OP_TFORLOOP => slots ra (ra + 3)
  | _ => ∅

/-- The values that a call leaves from `func` on. -/
def results (func : Nat) (nresults : Int) (top : Nat) : Set Nat :=
  slots func (if 0 ≤ nresults then func + nresults.toNat else top)

variable (N : Doubles) (V : RbxApi A)

/-- `OP_FORLOOP` jumps back. -/
def loopTaken (ra : Nat) (t : CluaVm A) : Bool :=
  let step := numberXor V.api (t.RS.stack (ra + 2)).value
  let init := numberXor V.api (t.RS.stack ra).value
  N.forCondition (N.numadd init step) (numberXor V.api (t.RS.stack (ra + 1)).value) step

/-- The slots that instruction `i` writes, between the states before and after it. A
call that enters a Lua function, and so moves the base, has not returned yet. -/
def writes (i : Word) (t t' : CluaVm A) : Set Nat :=
  let base := t.robloxBase
  let ra := base + argA i
  match OpCode.ofWord (GET_OPCODE i) with
  | some .OP_MOVE | some .OP_LOADK | some .OP_LOADBOOL | some .OP_NOT
  | some .OP_GETGLOBAL | some .OP_GETTABLE => {ra}
  | some .OP_LOADNIL => {n | n ≤ base + argB i ∧ (ra ≤ n ∨ n = base + argB i)}
  | some .OP_SELF => {ra, ra + 1}
  | some .OP_CALL => {n | t'.robloxBase = base ∧ n ∈ results ra (argC i - 1) t'.RS.top}
  | some .OP_FORLOOP => {n | loopTaken N V ra t = true ∧ (n = ra ∨ n = ra + 3)}
  | some .OP_TFORLOOP => slots (ra + 3) (ra + 6) ∪ slots (ra + 3) (ra + 3 + argC i)
  | _ => ∅

/-! ## Agreement -/

/-- Which host states count as the same, and which values in them. A state or a value
that is well formed counts as the same as itself. -/
structure Likeness (A : Type) where
  states : HostState A → HostState A → Prop
  values : HostState A → HostState A → TValue → TValue → Prop

section

variable (K : Likeness A)

/-- The two threads agree on the slots of `D`, and in all else. -/
structure SameOn (D : Set Nat) (RS RS' : RbxState A) : Prop where
  host : K.states RS.host RS'.host
  stack : ∀ n ∈ D, K.values RS.host RS'.host (RS.stack n) (RS'.stack n)
  base : RS.base = RS'.base
  top : RS.top = RS'.top
  ciTop : RS.ciTop = RS'.ciTop
  l_gt : K.values RS.host RS'.host RS.l_gt RS'.l_gt
  savedpc : RS.savedpc = RS'.savedpc

/-- Two host operations end alike. -/
def rbxEnds : Ends HostError HostError := ⟨Eq, fun _ => False, fun _ => False⟩

/-- From `h` and `h'` to `s` and `s'` no values have come to differ. -/
def Likeness.Kept (h h' s s' : HostState A) : Prop :=
  ∀ v v', K.values h h' v v' → K.values s s' v v'

/-- What is asked of the host: values that count as the same are equal by their tags, and
for nil, booleans and numbers that is all; an operation on the same operands does the
same, and of the stack at or above `frame` it reads only its operands. Bytes that no tag
speaks of, in registers or wherever a register has been stored, may differ. -/
structure Local (frame : Nat) : Prop where
  view : ∀ {h h' v v'}, K.values h h' v v' → v.view = v'.view
  plain : ∀ {h h' v v'}, K.states h h' → v.view = v'.view →
    v.tt = RBX_TYPE_NIL ∨ v.tt = RBX_TYPE_BOOLEAN ∨ v.tt = RBX_TYPE_NUMBER → K.values h h' v v'
  svalue : ∀ {h h' v v'}, K.states h h' → K.values h h' v v' → v.tt = RBX_TYPE_STRING →
    svalue h.mem v.word = svalue h'.mem v'.word
  snewlstr : ∀ {h h'} RS bytes, K.states h h' → rbxEnds.Related (fun a a' s s' => K.states s s'
      ∧ K.values s s' ⟨setWord 0 a, RBX_TYPE_STRING⟩ ⟨setWord 0 a', RBX_TYPE_STRING⟩
      ∧ K.Kept h h' s s')
    (V.api.rbx_snewlstr RS bytes h) (V.api.rbx_snewlstr RS bytes h')
  gettable : ∀ {D RS RS' t t' key key'} val, SameOn K D RS RS' → slots 0 frame ⊆ D →
    K.values RS.host RS'.host t t' → K.values RS.host RS'.host key key' →
    rbxEnds.Related (fun _ _ => SameOn K (insert val D))
      (V.rbxV_gettable t key val RS) (V.rbxV_gettable t' key' val RS')
  settable : ∀ {D RS RS' t t' key key' val val'}, SameOn K D RS RS' → slots 0 frame ⊆ D →
    K.values RS.host RS'.host t t' → K.values RS.host RS'.host key key' →
    K.values RS.host RS'.host val val' → rbxEnds.Related (fun _ _ => SameOn K D)
      (V.rbxV_settable t key val RS) (V.rbxV_settable t' key' val' RS')
  precall : ∀ {D RS RS'} func nresults, SameOn K D RS RS' → slots 0 frame ⊆ D → func ∈ D →
    slots func RS.top ⊆ D → rbxEnds.Related (fun r r' S S' => r = r'
        ∧ (r = PCRC → S.base = RS.base ∧ SameOn K (D ∪ results func nresults S.top) S S')
        ∧ (r = PCRLUA → S.base ≠ RS.base ∧ SameOn K D S S'))
      (V.rbxV_precall func nresults RS) (V.rbxV_precall func nresults RS')
  call : ∀ {D RS RS'} func nresults, SameOn K D RS RS' → slots 0 frame ⊆ D → func ∈ D →
    slots func RS.top ⊆ D → rbxEnds.Related (fun _ _ S S' => S.base = RS.base
        ∧ SameOn K (D ∪ results func nresults S.top) S S')
      (V.rbxD_call func nresults RS) (V.rbxD_call func nresults RS')

/-- The two machines agree on the slots of `D`, and in all else; the local base is
the thread's. -/
structure Agree (D : Set Nat) (t t' : CluaVm A) : Prop where
  pc : t.pc = t'.pc
  robloxBase : t.robloxBase = t'.robloxBase
  savedpc : t.savedpc = t'.savedpc
  state : SameOn K D t.RS t'.RS
  fresh : t.robloxBase = t.RS.base

/-- The same right after an operation, when the local bases may be stale. -/
structure Called (D : Set Nat) (t t' : CluaVm A) : Prop where
  pc : t.pc = t'.pc
  savedpc : t.savedpc = t'.savedpc
  state : SameOn K D t.RS t'.RS

/-- Agreement, with a fact about the host states at hand: that values read before are the
same. -/
def Holding (F : HostState A → HostState A → Prop) (D : Set Nat) (t t' : CluaVm A) : Prop :=
  F t.RS.host t'.RS.host ∧ Agree K D t t'

/-- Both machines stop alike. -/
def stopEnds : Ends Stop Stop := ⟨Eq, fun _ => False, fun _ => False⟩

end

variable {K : Likeness A} {F : HostState A → HostState A → Prop} {D D' : Set Nat}

theorem SameOn.mono {RS RS' : RbxState A} (hD : D ⊆ D') (h : SameOn K D' RS RS') :
    SameOn K D RS RS' :=
  ⟨h.host, fun n hn => h.stack n (hD hn), h.base, h.top, h.ciTop, h.l_gt, h.savedpc⟩

theorem Agree.mono {t t' : CluaVm A} (hD : D ⊆ D') (h : Agree K D' t t') : Agree K D t t' :=
  ⟨h.pc, h.robloxBase, h.savedpc, h.state.mono hD, h.fresh⟩

/-- The tag is part of what a value is. -/
theorem tt_eq_of_view_eq {v v' : TValue} (h : v.view = v'.view) : v.tt = v'.tt := by
  cases hview : v'.view with
  | nil => rw [view_eq_nil.mp (h.trans hview), view_eq_nil.mp hview]
  | boolean b => rw [(view_eq_boolean.mp (h.trans hview)).1, (view_eq_boolean.mp hview).1]
  | number n => rw [(view_eq_number.mp (h.trans hview)).1, (view_eq_number.mp hview).1]
  | string a => rw [(view_eq_string.mp (h.trans hview)).1, (view_eq_string.mp hview).1]
  | object tt a => rw [tt_of_view_object (h.trans hview), tt_of_view_object hview]

/-! ## Registers -/

theorem SameOn.setStack {RS RS' : RbxState A} (h : SameOn K D RS RS') (n : Nat) {v v' : TValue}
    (hv : K.values RS.host RS'.host v v') :
    SameOn K (insert n D) (RS.setStack n v) (RS'.setStack n v') := by
  refine ⟨h.host, fun m hm => ?_, h.base, h.top, h.ciTop, h.l_gt, h.savedpc⟩
  show K.values RS.host RS'.host (Function.update RS.stack n v m) (Function.update RS'.stack n v' m)
  by_cases hmn : m = n
  · subst hmn
    rw [Function.update_self, Function.update_self]
    exact hv
  · rw [Function.update_of_ne hmn, Function.update_of_ne hmn]
    exact h.stack m (hm.resolve_left hmn)

/-- A program that starts with nothing at hand. -/
theorem rel_of_holding {α β : Type} {x : CluaM A α} {y : CluaM A β}
    {Q : α → β → CluaVm A → CluaVm A → Prop}
    (h : Rel stopEnds (Holding K (fun _ _ => True) D) x y Q) : Rel stopEnds (Agree K D) x y Q :=
  h.conseq (fun _ _ h => ⟨trivial, h⟩) (fun _ _ _ _ h => h)

theorem agree_slot {n : Nat} (hn : n ∈ D) : Rel stopEnds (Holding K F D) (slot n) (slot n)
    (fun v v' => Holding K (fun h h' => F h h' ∧ K.values h h' v v') D) :=
  Rel.look (fun _ _ h => ⟨⟨h.1, h.2.state.stack n hn⟩, h.2⟩)

theorem agree_setSlot (n : Nat) {v v' : TValue}
    (hv : ∀ h h', K.states h h' → F h h' → K.values h h' v v') :
    Rel stopEnds (Holding K F D) (setSlot n v) (setSlot n v')
      (fun _ _ => Agree K (insert n D)) :=
  Rel.update (fun _ _ h => ⟨h.2.pc, h.2.robloxBase, h.2.savedpc,
    h.2.state.setStack n (hv _ _ h.2.state.host h.1), h.2.fresh⟩)

/-- A store to a slot that agrees already. -/
theorem agree_setSlot_mem {n : Nat} (hn : n ∈ D) {v v' : TValue}
    (hv : ∀ h h', K.states h h' → F h h' → K.values h h' v v') :
    Rel stopEnds (Holding K F D) (setSlot n v) (setSlot n v') (fun _ _ => Agree K D) := by
  have hset := agree_setSlot (D := D) n hv
  rwa [Set.insert_eq_of_mem hn] at hset

theorem agree_jump (d : Int) : Rel stopEnds (Agree K D) (jump d) (jump d)
    (fun _ _ => Agree K D) := by
  refine Rel.update (fun s s' h => ⟨?_, h.robloxBase, h.savedpc, h.state, h.fresh⟩)
  show s.pc + d = s'.pc + d
  rw [h.pc]

theorem agree_savePc : Rel stopEnds (Agree K D) savePc savePc (fun _ _ => Agree K D) :=
  Rel.update (fun _ _ h => ⟨h.pc, h.robloxBase, h.pc, h.state, h.fresh⟩)

theorem agree_saveEncryptedPc (cl : Closure) : Rel stopEnds (Agree K D) (saveEncryptedPc cl)
    (saveEncryptedPc cl) (fun _ _ => Agree K D) := by
  refine Rel.update (fun s s' h => ⟨h.pc, h.robloxBase, h.savedpc,
    ⟨h.state.host, h.state.stack, h.state.base, h.state.top, h.state.ciTop, h.state.l_gt, ?_⟩,
    h.fresh⟩)
  show encryptedPc cl s.pc = encryptedPc cl s'.pc
  rw [h.pc]

theorem agree_setTop (n : Nat) : Rel stopEnds (Agree K D) (setTop n) (setTop n)
    (fun _ _ s s' => s.RS.top = n ∧ Agree K D s s') :=
  Rel.update (fun _ _ h => ⟨rfl, h.pc, h.robloxBase, h.savedpc,
    ⟨h.state.host, h.state.stack, h.state.base, rfl, h.state.ciTop, h.state.l_gt,
      h.state.savedpc⟩, h.fresh⟩)

theorem SameOn.topToCi {RS RS' : RbxState A} (h : SameOn K D RS RS') :
    SameOn K D { RS with top := RS.ciTop } { RS' with top := RS'.ciTop } :=
  ⟨h.host, h.stack, h.base, h.ciTop, h.ciTop, h.l_gt, h.savedpc⟩

theorem called_topToCi : Rel stopEnds (Called K D) topToCi topToCi
    (fun _ _ => Called K D) :=
  Rel.update (fun _ _ h => ⟨h.pc, h.savedpc, h.state.topToCi⟩)

theorem called_restoreBase : Rel stopEnds (Called K D) restoreBase restoreBase
    (fun _ _ => Agree K D) :=
  Rel.update (fun _ _ h => ⟨h.pc, h.state.base, h.savedpc, h.state, rfl⟩)

/-! ## Constants and operands -/

variable (K) in
/-- A fact that stays where no values come to differ. -/
def Stays (F : HostState A → HostState A → Prop) : Prop :=
  ∀ h h' s s', K.Kept h h' s s' → F h h' → F s s'

theorem stays_true : Stays K (fun _ _ => True) := fun _ _ _ _ _ _ => trivial

theorem stays_values (hF : Stays K F) (v v' : TValue) :
    Stays K (fun h h' => F h h' ∧ K.values h h' v v') :=
  fun h h' s s' hkept hFv => ⟨hF h h' s s' hkept hFv.1, hkept v v' hFv.2⟩

theorem SameOn.kept {RS RS' : RbxState A} {s s' : HostState A} (h : SameOn K D RS RS')
    (hstates : K.states s s') (hkept : K.Kept RS.host RS'.host s s') :
    SameOn K D { RS with host := s } { RS' with host := s' } :=
  ⟨hstates, fun n hn => hkept _ _ (h.stack n hn), h.base, h.top, h.ciTop, hkept _ _ h.l_gt,
    h.savedpc⟩

section

variable {N V} {frame : Nat}

theorem agree_setBoolean (hV : Local V K frame) (n : Nat) (b : Word) :
    Rel stopEnds (Agree K D) (setBoolean n b) (setBoolean n b)
      (fun _ _ => Agree K (insert n D)) := by
  intro s s' h
  have hview : ∀ value : BitVec 64,
      TValue.view ⟨setWord value b, RBX_TYPE_BOOLEAN⟩ = .boolean b :=
    fun value => view_eq_boolean.mpr ⟨rfl, word_setWord value b _⟩
  exact agree_setSlot (F := fun _ _ => True) n (fun _ _ hstates _ => hV.plain hstates
    ((hview _).trans (hview _).symm) (Or.inr (Or.inl rfl))) s s' ⟨trivial, h⟩

/-- A number that was computed alike. -/
theorem alike_number (hV : Local V K frame) (x : lua_Number) (h h' : HostState A)
    (hstates : K.states h h') (_ : F h h') : K.values h h' ⟨numberXor V.api x, RBX_TYPE_NUMBER⟩
      ⟨numberXor V.api x, RBX_TYPE_NUMBER⟩ :=
  hV.plain hstates rfl (Or.inr (Or.inr rfl))

theorem related_transpileConstant (hV : Local V K frame) {h h' : HostState A} (RS : Addr)
    (c : Constant) (hstates : K.states h h') :
    rbxEnds.Related (fun v v' s s' => K.states s s' ∧ K.values s s' v v' ∧ K.Kept h h' s s')
      (transpileConstant V.api RS c h) (transpileConstant V.api RS c h') := by
  have hkept : K.Kept h h' h h' := fun _ _ hv => hv
  cases c with
  | nil => exact ⟨hstates, hV.plain hstates rfl (Or.inl rfl), hkept⟩
  | boolean b => exact ⟨hstates, hV.plain hstates rfl (Or.inr (Or.inl rfl)), hkept⟩
  | number x => exact ⟨hstates, hV.plain hstates rfl (Or.inr (Or.inr rfl)), hkept⟩
  | string ts =>
    refine Ends.Related.bind (hV.snewlstr RS ts.bytes hstates) ?_
    rintro a a' s s' hnew -
    exact hnew

theorem agree_constant (hV : Local V K frame) (cl : Closure) (n : Nat) (hF : Stays K F) :
    Rel stopEnds (Holding K F D) (constant V cl n) (constant V cl n)
      (fun v v' => Holding K (fun h h' => F h h' ∧ K.values h h' v v') D) := by
  unfold constant constantAt
  cases cl.p.k[n]? with
  | none => exact Rel.throw rfl
  | some c =>
    intro s s' h
    have hconst := related_transpileConstant hV cl.RS c h.2.state.host
    have hcall : Rel stopEnds (fun t t' => t = s ∧ t' = s')
        (callOn (fun t : CluaVm A => t.RS.host) (fun h t => { t with RS := { t.RS with host := h } })
          .memory (transpileConstant V.api cl.RS c))
        (callOn (fun t : CluaVm A => t.RS.host) (fun h t => { t with RS := { t.RS with host := h } })
          .memory (transpileConstant V.api cl.RS c)) _ :=
      rel_callOn rfl (fun _ => not_false) (fun _ => not_false) (Y := rbxEnds)
        (by rintro _ _ ⟨rfl, rfl⟩; exact hconst)
    refine (hcall s s' ⟨rfl, rfl⟩).imp ?_
    rintro v v' _ _ ⟨_, _, h₁, h₁', ⟨rfl, rfl⟩, rfl, rfl, hstates, hv, hkept⟩
    exact ⟨⟨hF _ _ _ _ hkept h.1, hv⟩, h.2.pc, h.2.robloxBase, h.2.savedpc,
      h.2.state.kept hstates hkept, h.2.fresh⟩

theorem agree_rk (hV : Local V K frame) (cl : Closure) {base : Nat} {x : Word}
    (hx : rkReads base x ⊆ D) (hF : Stays K F) :
    Rel stopEnds (Holding K F D) (rk V cl base x) (rk V cl base x)
      (fun v v' => Holding K (fun h h' => F h h' ∧ K.values h h' v v') D) := by
  unfold rk
  by_cases hk : ISK x = true
  · rw [if_pos hk]
    exact agree_constant hV cl _ hF
  · rw [if_neg hk]
    exact agree_slot (hx ⟨Bool.eq_false_iff.mpr hk, rfl⟩)

/-! ## Handlers without calls -/

variable (cl : Closure) (base : Nat) (i : Word)

theorem agree_move (hB : base + argB i ∈ D) : Rel stopEnds (Agree K D) (op_move base i)
    (op_move base i) (fun _ _ => Agree K (insert (base + argA i) D)) :=
  rel_of_holding (Rel.bind (agree_slot hB) (fun _ _ => agree_setSlot _ (fun _ _ _ h => h.2)))

theorem agree_loadk (hV : Local V K frame) : Rel stopEnds (Agree K D) (op_loadk V cl base i)
    (op_loadk V cl base i) (fun _ _ => Agree K (insert (base + argA i) D)) :=
  rel_of_holding (Rel.bind (agree_constant hV cl _ stays_true)
    (fun _ _ => agree_setSlot _ (fun _ _ _ h => h.2)))

theorem agree_loadbool (hV : Local V K frame) : Rel stopEnds (Agree K D) (op_loadbool base i)
    (op_loadbool base i) (fun _ _ => Agree K (insert (base + argA i) D)) :=
  Rel.bind (agree_setBoolean hV _ _) (fun _ _ => Rel.when (agree_jump 1))

theorem agree_loadnil (hV : Local V K frame) : Rel stopEnds (Agree K D) (op_loadnil base i)
    (op_loadnil base i) (fun _ _ =>
      Agree K (D ∪ {n | n ≤ base + argB i ∧ (base + argA i ≤ n ∨ n = base + argB i)})) := by
  refine Rel.update (fun s s' h => ⟨h.pc, h.robloxBase, h.savedpc, ⟨h.state.host, fun n hn => ?_,
    h.state.base, h.state.top, h.state.ciTop, h.state.l_gt, h.state.savedpc⟩, h.fresh⟩)
  show K.values s.RS.host s'.RS.host (setNils _ _ _ s.RS.stack n) (setNils _ _ _ s'.RS.stack n)
  rw [setNils_apply, setNils_apply]
  by_cases hnil : n ≤ base + argB i ∧ (base + argA i ≤ n ∨ n = base + argB i)
  · rw [if_pos hnil, if_pos hnil]
    exact hV.plain h.state.host ((view_eq_nil.mpr rfl).trans (view_eq_nil.mpr rfl).symm) (Or.inl rfl)
  · rw [if_neg hnil, if_neg hnil]
    exact h.state.stack n (hn.resolve_right hnil)

theorem agree_not (hV : Local V K frame) (hB : base + argB i ∈ D) :
    Rel stopEnds (Agree K D) (op_not base i) (op_not base i)
      (fun _ _ => Agree K (insert (base + argA i) D)) := by
  refine rel_of_holding (Rel.bind (agree_slot hB) (fun v v' => ?_))
  intro s s' h
  have hview := hV.view h.1.2
  have hres : (v.tt = RBX_TYPE_NIL ∨ (v.tt = RBX_TYPE_BOOLEAN ∧ v.word = 0))
      ↔ (v'.tt = RBX_TYPE_NIL ∨ (v'.tt = RBX_TYPE_BOOLEAN ∧ v'.word = 0)) := by
    rw [← view_eq_nil, ← view_eq_boolean, ← view_eq_nil, ← view_eq_boolean, hview]
  simp only [if_congr hres rfl rfl]
  exact agree_setBoolean hV _ _ s s' h.2

/-- The default branch stops both machines. -/
theorem agree_unknownOpcode {P : CluaVm A → CluaVm A → Prop}
    {Q : PUnit → PUnit → CluaVm A → CluaVm A → Prop} :
    Rel stopEnds P (unknownOpcode i) (unknownOpcode i) Q := by
  unfold unknownOpcode
  by_cases hknown : (GET_OPCODE i).toNat ≤ NUM_OPCODES
  · rw [if_pos hknown]
    exact Rel.throw rfl
  · rw [if_neg hknown]
    exact Rel.throw rfl

/-! ## Handlers with a call -/

/-- A host operation, in the two states that it is called in. The locals of
`cluaV_execute` are left alone. -/
theorem rel_callRbx {α : Type} {x y : RbxOp A α} {P : CluaVm A → CluaVm A → Prop}
    {Q : CluaVm A → α → α → RbxState A → RbxState A → Prop}
    (hop : ∀ s s', P s s' → rbxEnds.Related (Q s) (x s.RS) (y s'.RS)) :
    Rel stopEnds P (callRbx x) (callRbx y) (fun a b t t' => ∃ s s', P s s'
      ∧ (t.pc = s.pc ∧ t.savedpc = s.savedpc) ∧ (t'.pc = s'.pc ∧ t'.savedpc = s'.savedpc)
      ∧ Q s a b t.RS t'.RS) := by
  intro s s' h
  have hcall : Rel stopEnds (fun t t' => t = s ∧ t' = s') (callRbx x) (callRbx y) _ :=
    rel_callOn rfl (fun _ => not_false) (fun _ => not_false) (Y := rbxEnds) (Q := Q s)
      (by rintro _ _ ⟨rfl, rfl⟩; exact hop _ _ h)
  refine (hcall s s' ⟨rfl, rfl⟩).imp ?_
  rintro a b t t' ⟨_, _, RS, RS', ⟨rfl, rfl⟩, rfl, rfl, hQ⟩
  exact ⟨_, _, h, ⟨rfl, rfl⟩, ⟨rfl, rfl⟩, hQ⟩

theorem Agree.called {s s' t t' : CluaVm A} (h : Agree K D s s')
    (hkept : t.pc = s.pc ∧ t.savedpc = s.savedpc) (hkept' : t'.pc = s'.pc ∧ t'.savedpc = s'.savedpc)
    {E : Set Nat} (hRS : SameOn K E t.RS t'.RS) : Called K E t t' := by
  refine ⟨?_, ?_, hRS⟩
  · rw [hkept.1, hkept'.1, h.pc]
  · rw [hkept.2, hkept'.2, h.savedpc]

/-- A host call whose operation agrees on `D'` afterwards. -/
theorem agree_hostCall {x y : RbxOp A PUnit}
    (hop : ∀ RS RS', F RS.host RS'.host → SameOn K D RS RS' →
      rbxEnds.Related (fun _ _ => SameOn K D') (x RS) (y RS')) :
    Rel stopEnds (Holding K F D) (hostCall cl x) (hostCall cl y) (fun _ _ => Agree K D') := by
  intro s s' h
  have hsaved := agree_saveEncryptedPc cl s s' h.2
  have hcall : Rel stopEnds (Holding K F D) (callRbx x) (callRbx y)
      (fun _ _ => Called K D') := by
    refine (rel_callRbx (fun _ _ h => hop _ _ h.1 h.2.state)).conseq (fun _ _ h => h) ?_
    rintro _ _ t t' ⟨s, s', hst, hkept, hkept', hQ⟩
    exact hst.2.called hkept hkept' hQ
  -- the saved program counters leave the heap alone
  exact Rel.bind hcall (fun _ _ => called_restoreBase)
    { s with RS := { s.RS with savedpc := encryptedPc cl s.pc }, savedpc := s.pc }
    { s' with RS := { s'.RS with savedpc := encryptedPc cl s'.pc }, savedpc := s'.pc }
    ⟨h.1, agree_savePc _ _ hsaved⟩

theorem agree_l_gt : Rel stopEnds (Holding K F D) (look (fun s => s.RS.l_gt))
    (look (fun s => s.RS.l_gt))
    (fun g g' => Holding K (fun h h' => F h h' ∧ K.values h h' g g') D) :=
  Rel.look (fun _ _ h => ⟨⟨h.1, h.2.state.l_gt⟩, h.2⟩)

theorem agree_getglobal (hV : Local V K frame) (hD : slots 0 frame ⊆ D) :
    Rel stopEnds (Agree K D) (op_getglobal V cl base i) (op_getglobal V cl base i)
      (fun _ _ => Agree K (insert (base + argA i) D)) := by
  refine rel_of_holding (Rel.bind (agree_constant hV cl _ stays_true) (fun _ _ => ?_))
  refine Rel.bind agree_l_gt (fun _ _ => agree_hostCall cl ?_)
  rintro RS RS' ⟨⟨-, hk⟩, hg⟩ h
  exact hV.gettable _ h hD hg hk

theorem agree_setglobal (hV : Local V K frame) (hD : slots 0 frame ⊆ D)
    (hA : base + argA i ∈ D) : Rel stopEnds (Agree K D) (op_setglobal V cl base i)
      (op_setglobal V cl base i) (fun _ _ => Agree K D) := by
  refine rel_of_holding (Rel.bind (agree_constant hV cl _ stays_true) (fun _ _ => ?_))
  refine Rel.bind agree_l_gt (fun _ _ => Rel.bind (agree_slot hA) (fun _ _ => agree_hostCall cl ?_))
  rintro RS RS' ⟨⟨⟨-, hk⟩, hg⟩, ha⟩ h
  exact hV.settable h hD hg hk ha

theorem agree_gettable (hV : Local V K frame) (hD : slots 0 frame ⊆ D)
    (hB : base + argB i ∈ D) (hC : rkReads base (GETARG_C i) ⊆ D) :
    Rel stopEnds (Agree K D) (op_gettable V cl base i) (op_gettable V cl base i)
      (fun _ _ => Agree K (insert (base + argA i) D)) := by
  refine rel_of_holding (Rel.bind (agree_rk hV cl hC stays_true) (fun _ _ => ?_))
  refine Rel.bind (agree_slot hB) (fun _ _ => agree_hostCall cl ?_)
  rintro RS RS' ⟨⟨-, hc⟩, hb⟩ h
  exact hV.gettable _ h hD hb hc

theorem agree_settable (hV : Local V K frame) (hD : slots 0 frame ⊆ D)
    (hA : base + argA i ∈ D) (hB : rkReads base (GETARG_B i) ⊆ D)
    (hC : rkReads base (GETARG_C i) ⊆ D) : Rel stopEnds (Agree K D)
      (op_settable V cl base i) (op_settable V cl base i) (fun _ _ => Agree K D) := by
  refine rel_of_holding (Rel.bind (agree_rk hV cl hB stays_true) (fun b b' => ?_))
  -- the second operand may be a new string, and the first is still the same
  refine Rel.bind (agree_rk hV cl hC (stays_values stays_true b b')) (fun _ _ => ?_)
  refine Rel.bind (agree_slot hA) (fun _ _ => agree_hostCall cl ?_)
  rintro RS RS' ⟨⟨⟨-, hb⟩, hc⟩, ha⟩ h
  exact hV.settable h hD ha hb hc

theorem agree_self (hV : Local V K frame) (hD : slots 0 frame ⊆ D) (hB : base + argB i ∈ D)
    (hC : rkReads base (GETARG_C i) \ {base + argA i + 1} ⊆ D) :
    Rel stopEnds (Agree K D) (op_self V cl base i) (op_self V cl base i)
      (fun _ _ => Agree K (insert (base + argA i) (insert (base + argA i + 1) D))) := by
  refine rel_of_holding (Rel.bind (agree_slot hB) (fun _ _ => ?_))
  refine Rel.bind (agree_setSlot _ (fun _ _ _ h => h.2)) (fun _ _ => rel_of_holding ?_)
  -- from here on `ra + 1` may be read
  have hC' : rkReads base (GETARG_C i) ⊆ insert (base + argA i + 1) D := by
    intro n hn
    by_cases hself : n = base + argA i + 1
    · exact Or.inl hself
    · exact Or.inr (hC ⟨hn, hself⟩)
  refine Rel.bind (agree_rk hV cl hC' stays_true) (fun _ _ => ?_)
  refine Rel.bind (agree_slot (Set.mem_insert_of_mem _ hB)) (fun _ _ => agree_hostCall cl ?_)
  rintro RS RS' ⟨⟨-, hc⟩, hb⟩ h
  exact hV.gettable _ h (hD.trans (Set.subset_insert _ _)) hb hc

/-! ## Numbers -/

variable (K) in
/-- Agreement, with numbers in the slots of `M`. -/
def AgreeNum (M D : Set Nat) (s s' : CluaVm A) : Prop :=
  Agree K D s s' ∧ ∀ m ∈ M, (s.RS.stack m).tt = RBX_TYPE_NUMBER

variable {M : Set Nat}

theorem agreeNum_decoded (hV : Local V K frame) {n : Nat} (hn : n ∈ D) (hM : n ∈ M) :
    Rel stopEnds (AgreeNum K M D) (decoded V n) (decoded V n)
      (fun x y s s' => x = y ∧ AgreeNum K M D s s') := by
  refine Rel.look (fun s s' h => ⟨?_, h⟩)
  have hview := hV.view (h.1.state.stack n hn)
  -- under the tag of a number the whole payload counts
  have hnum := view_eq_number.mpr ⟨h.2 n hM, rfl⟩
  rw [(view_eq_number.mp (hview.symm.trans hnum)).2]

theorem agreeNum_setNumber (hV : Local V K frame) {n : Nat} (hn : n ∈ D) (x : lua_Number) :
    Rel stopEnds (AgreeNum K M D) (setSlot n ⟨numberXor V.api x, RBX_TYPE_NUMBER⟩)
      (setSlot n ⟨numberXor V.api x, RBX_TYPE_NUMBER⟩)
      (fun _ _ => AgreeNum K (insert n M) D) := by
  intro s s' h
  refine ⟨agree_setSlot_mem (F := fun _ _ => True) hn (alike_number hV x) s s' ⟨trivial, h.1⟩,
    fun m hm => ?_⟩
  show (Function.update s.RS.stack n _ m).tt = RBX_TYPE_NUMBER
  by_cases hmn : m = n
  · subst hmn
    rw [Function.update_self]
  · rw [Function.update_of_ne hmn]
    exact h.2 m (hm.resolve_left hmn)

/-- Both machines convert, and what was converted is a number. -/
theorem agreeNum_convertNumber (hV : Local V K frame) {n : Nat} (hn : n ∈ D) :
    Rel stopEnds (AgreeNum K M D) (convertNumber N V n) (convertNumber N V n)
      (fun b b' s s' => b = b' ∧ AgreeNum K (if b then insert n M else M) D s s') := by
  intro s s' h
  have halike := h.1.state.stack n hn
  have hview := hV.view halike
  have htt := tt_eq_of_view_eq hview
  by_cases hnum : (s.RS.stack n).tt = RBX_TYPE_NUMBER
  · rw [convertNumber_number hnum, convertNumber_number (htt ▸ hnum)]
    refine ⟨rfl, h.1, fun m hm => ?_⟩
    rcases hm with rfl | hm
    · exact hnum
    · exact h.2 m hm
  · by_cases hstr : (s.RS.stack n).tt = RBX_TYPE_STRING
    · have hread : svalue s'.RS.host.mem (s'.RS.stack n).word
          = svalue s.RS.host.mem (s.RS.stack n).word :=
        (hV.svalue h.1.state.host halike hstr).symm
      cases hx : N.str2d (svalue s.RS.host.mem (s.RS.stack n).word) with
      | some x =>
        rw [convertNumber_string hstr hx, convertNumber_string (htt ▸ hstr) (hread ▸ hx)]
        exact Rel.bind (agreeNum_setNumber hV hn x) (fun _ _ => Rel.pure (fun _ _ h => ⟨rfl, h⟩)) s s' h
      | none =>
        rw [convertNumber_unread hstr hx, convertNumber_unread (htt ▸ hstr) (hread ▸ hx)]
        exact ⟨rfl, h⟩
    · rw [convertNumber_other hnum hstr, convertNumber_other (htt ▸ hnum) (htt ▸ hstr)]
      exact ⟨rfl, h⟩

/-- An operand that is no number stops both machines. -/
theorem agree_check {P : CluaVm A → CluaVm A → Prop} {Q : PUnit → PUnit → CluaVm A → CluaVm A → Prop}
    {x : CluaM A PUnit} (msg : String) (b : Bool) (h : b = true → Rel stopEnds P x x Q) :
    Rel stopEnds P (if !b then throw (.raised (.runerror msg)) else x)
      (if !b then throw (.raised (.runerror msg)) else x) Q := by
  cases b with
  | true => exact h rfl
  | false => exact Rel.throw rfl

theorem agree_forprep (hV : Local V K frame) (hA : slots (base + argA i) (base + argA i + 3) ⊆ D) :
    Rel stopEnds (Agree K D) (op_forprep N V cl base i) (op_forprep N V cl base i)
      (fun _ _ => Agree K D) := by
  have h0 : base + argA i ∈ D := hA ⟨by omega, by omega⟩
  have h1 : base + argA i + 1 ∈ D := hA ⟨by omega, by omega⟩
  have h2 : base + argA i + 2 ∈ D := hA ⟨by omega, by omega⟩
  refine Rel.bind (agree_saveEncryptedPc cl) (fun _ _ => Rel.bind agree_savePc (fun _ _ => ?_))
  refine Rel.conseq (P := AgreeNum K ∅ D) ?_ (fun _ _ h => ⟨h, fun m hm => hm.elim⟩)
    (fun _ _ _ _ h => h)
  refine Rel.bind_same (agreeNum_convertNumber hV h0) (fun b => agree_check _ b ?_)
  rintro rfl
  refine Rel.bind_same (agreeNum_convertNumber hV h1) (fun b => agree_check _ b ?_)
  rintro rfl
  refine Rel.bind_same (agreeNum_convertNumber hV h2) (fun b => agree_check _ b ?_)
  rintro rfl
  refine Rel.bind_same (agreeNum_decoded hV h0 (by simp)) (fun init => ?_)
  refine Rel.bind_same (agreeNum_decoded hV h2 (by simp)) (fun pstep => ?_)
  refine Rel.bind (agreeNum_setNumber hV h0 _) (fun _ _ => ?_)
  exact (agree_jump _).conseq (fun _ _ h => h.1) (fun _ _ _ _ h => h)

/-- The same with the value named, in a state held fixed. -/
theorem agreeNum_decoded_at (hV : Local V K frame) (t : CluaVm A) {n : Nat} (hn : n ∈ D) (hM : n ∈ M) :
    Rel stopEnds (fun s s' => s = t ∧ AgreeNum K M D s s') (decoded V n) (decoded V n)
      (fun x y s s' => x = y ∧ x = numberXor V.api (t.RS.stack n).value
        ∧ s = t ∧ AgreeNum K M D s s') := by
  rintro s s' ⟨rfl, h⟩
  exact ⟨(agreeNum_decoded hV hn hM s s' h).1, rfl, rfl, h⟩

theorem agree_forloop (hV : Local V K frame) (t : CluaVm A)
    (hA : slots (base + argA i) (base + argA i + 3) ⊆ D) :
    Rel stopEnds
      (fun s s' => s = t ∧ AgreeNum K (slots (base + argA i) (base + argA i + 3)) D s s')
      (op_forloop N V base i) (op_forloop N V base i)
      (fun _ _ => Agree K (D ∪ {n | loopTaken N V (base + argA i) t = true
        ∧ (n = base + argA i ∨ n = base + argA i + 3)})) := by
  have h0 : base + argA i ∈ slots (base + argA i) (base + argA i + 3) := ⟨by omega, by omega⟩
  have h1 : base + argA i + 1 ∈ slots (base + argA i) (base + argA i + 3) := ⟨by omega, by omega⟩
  have h2 : base + argA i + 2 ∈ slots (base + argA i) (base + argA i + 3) := ⟨by omega, by omega⟩
  refine Rel.bind_same (agreeNum_decoded_at hV t (hA h2) h2) (fun step => Rel.assume ?_)
  rintro rfl
  refine Rel.bind_same (agreeNum_decoded_at hV t (hA h0) h0) (fun init => Rel.assume ?_)
  rintro rfl
  refine Rel.bind_same (agreeNum_decoded_at hV t (hA h1) h1) (fun limit => Rel.assume ?_)
  rintro rfl
  show Rel stopEnds _ (Relational.when (loopTaken N V (base + argA i) t = true) _)
    (Relational.when (loopTaken N V (base + argA i) t = true) _) _
  unfold Relational.when
  by_cases hjump : loopTaken N V (base + argA i) t = true
  · rw [if_pos hjump]
    refine Rel.conseq (P := Agree K D) ?_ (fun _ _ h => h.2.1) (fun _ _ _ _ h => h)
    -- both store the same pattern
    refine Rel.bind (agree_jump (GETARG_sBx i)) (fun _ _ => rel_of_holding ?_)
    refine Rel.bind (agree_setSlot _ (alike_number hV _)) (fun _ _ => rel_of_holding ?_)
    refine (agree_setSlot _ (alike_number hV _)).conseq (fun _ _ h => h) (fun _ _ _ _ h => h.mono ?_)
    rintro n (hn | ⟨-, rfl | rfl⟩)
    · exact Or.inr (Or.inr hn)
    · exact Or.inr (Or.inl rfl)
    · exact Or.inl rfl
  · rw [if_neg hjump]
    refine Rel.pure (fun s s' h => h.2.1.mono ?_)
    rintro n (hn | ⟨htrue, -⟩)
    · exact hn
    · exact absurd htrue hjump

/-! ## Calls of functions -/

variable (K) in
/-- Right before a call: all that the callee reads agrees. -/
def Arguments (base ra : Nat) (D : Set Nat) (s s' : CluaVm A) : Prop :=
  s.RS.base = base ∧ slots ra s.RS.top ⊆ D ∧ Agree K D s s'

theorem agree_arguments {ra b : Nat} :
    Rel stopEnds (fun s s' => s.robloxBase = base
        ∧ slots ra (if b ≠ 0 then ra + b else s.RS.top) ⊆ D ∧ Agree K D s s')
      (Relational.when (b ≠ 0) (setTop (ra + b))) (Relational.when (b ≠ 0) (setTop (ra + b)))
      (fun _ _ => Arguments K base ra D) := by
  rintro s s' ⟨rfl, hargs, h⟩
  unfold Relational.when
  by_cases hb : b ≠ 0
  · rw [if_pos hb] at hargs ⊢
    exact ⟨h.fresh.symm, hargs, (agree_setTop (ra + b) s s' h).2⟩
  · rw [if_neg hb] at hargs ⊢
    exact ⟨h.fresh.symm, hargs, h⟩

theorem agree_arguments_saved {ra : Nat} : Rel stopEnds (Arguments K base ra D)
    (saveEncryptedPc cl) (saveEncryptedPc cl) (fun _ _ => Arguments K base ra D) :=
  fun s s' h => ⟨h.1, h.2.1, agree_saveEncryptedPc cl s s' h.2.2⟩

variable (K) in
/-- Right after a call that has returned. -/
def Returned (base ra : Nat) (nresults : Int) (D : Set Nat) (s s' : CluaVm A) : Prop :=
  s.RS.base = base ∧ Called K (D ∪ results ra nresults s.RS.top) s s'

/-- The top is only moved when the number of results does not depend on it. -/
theorem returned_topToCi {ra : Nat} {nresults : Int} :
    Rel stopEnds (Returned K base ra nresults D) (Relational.when (0 ≤ nresults) topToCi)
      (Relational.when (0 ≤ nresults) topToCi) (fun _ _ => Returned K base ra nresults D) := by
  rintro s s' ⟨hbase, h⟩
  unfold Relational.when
  by_cases hn : 0 ≤ nresults
  · rw [if_pos hn]
    refine ⟨hbase, ?_⟩
    have hres : results ra nresults s.RS.ciTop = results ra nresults s.RS.top := by
      unfold results
      rw [if_pos hn, if_pos hn]
    show Called K (D ∪ results ra nresults s.RS.ciTop) _ _
    rw [hres]
    exact called_topToCi s s' h
  · rw [if_neg hn]
    exact ⟨hbase, h⟩

theorem agree_callop (hV : Local V K frame) (hD : slots 0 frame ⊆ D)
    (hA : base + argA i ∈ D) :
    Rel stopEnds (fun s s' => s.robloxBase = base
        ∧ slots (base + argA i) (if argB i ≠ 0 then base + argA i + argB i else s.RS.top) ⊆ D
        ∧ Agree K D s s')
      (op_call V cl base i) (op_call V cl base i)
      (fun _ _ s s' => Agree K (D ∪ {n | s.robloxBase = base
        ∧ n ∈ results (base + argA i) (argC i - 1) s.RS.top}) s s') := by
  refine Rel.bind (agree_arguments base) (fun _ _ => ?_)
  refine Rel.bind (agree_arguments_saved cl base) (fun _ _ => ?_)
  have hsave : Rel stopEnds (Arguments K base (base + argA i) D) savePc savePc
      (fun _ _ => Arguments K base (base + argA i) D) :=
    fun s s' h => ⟨h.1, h.2.1, agree_savePc s s' h.2.2⟩
  refine Rel.bind hsave (fun _ _ => ?_)
  have hcall : Rel stopEnds (Arguments K base (base + argA i) D)
      (callRbx (V.rbxV_precall (base + argA i) (argC i - 1)))
      (callRbx (V.rbxV_precall (base + argA i) (argC i - 1))) (fun r r' s s' => r = r'
        ∧ (r = PCRC → Returned K base (base + argA i) (argC i - 1) D s s')
        ∧ (r = PCRLUA → s.RS.base ≠ base ∧ Called K D s s')) := by
    refine (rel_callRbx (fun _ _ h => hV.precall _ _ h.2.2.state hD hA h.2.1)).conseq
      (fun _ _ h => h) ?_
    rintro r r' t t' ⟨s, s', ⟨hbase, -, hst⟩, hkept, hkept', hr, hret, hlua⟩
    have hcalled : ∀ {E}, SameOn K E t.RS t'.RS → Called K E t t' := hst.called hkept hkept'
    refine ⟨hr, fun h => ?_, fun h => ?_⟩
    · exact ⟨(hret h).1.trans hbase, hcalled (hret h).2⟩
    · exact ⟨fun heq => (hlua h).1 (heq.trans hbase.symm), hcalled (hlua h).2⟩
  refine Rel.bind_same hcall (fun r => ?_)
  by_cases hlua : r = PCRLUA
  · rw [if_pos hlua]
    -- a Lua function was entered: nothing has been returned yet, and the base has moved
    refine Rel.update (fun s s' h => ?_)
    obtain ⟨hbase, hst⟩ := h.2 hlua
    refine Agree.mono ?_ ⟨hst.savedpc, hst.state.base, hst.savedpc, hst.state, rfl⟩
    rintro n (hn | ⟨heq, -⟩)
    · exact hn
    · exact absurd heq hbase
  · rw [if_neg hlua]
    by_cases hc : r = PCRC
    · rw [if_pos hc]
      -- a C function has left its results
      refine Rel.conseq (P := Returned K base (base + argA i) (argC i - 1) D) ?_
        (fun _ _ h => h.1 hc) (fun _ _ _ _ h => h)
      refine Rel.bind (returned_topToCi base) (fun _ _ => ?_)
      intro s s' h
      exact Agree.mono (Set.union_subset_union_right D (fun n hn => hn.2))
        (called_restoreBase s s' h.2)
    · rw [if_neg hc]
      exact Rel.throw rfl

/-! ## The generic loop -/

variable (K) in
/-- Agreement, with the frame's base known. -/
def AgreeAt (base : Nat) (D : Set Nat) (s s' : CluaVm A) : Prop :=
  s.RS.base = base ∧ Agree K D s s'

theorem agreeAt_slot {n : Nat} (hn : n ∈ D) : Rel stopEnds (AgreeAt K base D) (slot n) (slot n)
    (fun v v' s s' => s.RS.base = base
      ∧ Holding K (fun h h' => K.values h h' v v') D s s') :=
  Rel.look (fun _ _ h => ⟨h.1, h.2.state.stack n hn, h.2⟩)

theorem agreeAt_setSlot (n : Nat) {v v' : TValue} :
    Rel stopEnds (fun s s' => s.RS.base = base ∧ Holding K (fun h h' => K.values h h' v v') D s s')
      (setSlot n v) (setSlot n v') (fun _ _ => AgreeAt K base (insert n D)) :=
  fun s s' h => ⟨h.1, agree_setSlot n (fun _ _ _ hv => hv) s s' h.2⟩

theorem arguments_setTop {ra n : Nat} (hargs : slots ra n ⊆ D) :
    Rel stopEnds (AgreeAt K base D) (setTop n) (setTop n)
      (fun _ _ => Arguments K base ra D) :=
  fun s s' h => ⟨h.1, hargs, (agree_setTop n s s' h.2).2⟩

/-- The number of results is an operand, so that they do not depend on the top. -/
theorem returned_restoreBase {ra C : Nat} :
    Rel stopEnds (Returned K base ra C D) restoreBase restoreBase
      (fun _ _ => AgreeAt K base (D ∪ slots ra (ra + C))) := by
  rintro s s' ⟨hbase, h⟩
  have hres : results ra C s.RS.top = slots ra (ra + C) := by
    unfold results
    rw [if_pos (Int.natCast_nonneg C), Int.toNat_natCast]
  rw [hres] at h
  exact ⟨hbase, called_restoreBase s s' h⟩

theorem agreeAt_topToCi : Rel stopEnds (AgreeAt K base D) topToCi topToCi
    (fun _ _ => AgreeAt K base D) :=
  Rel.update (fun _ _ h => ⟨h.1, h.2.pc, h.2.robloxBase, h.2.savedpc, h.2.state.topToCi, h.2.fresh⟩)

theorem agreeAt_base : Rel stopEnds (AgreeAt K base D) (look (fun s => s.robloxBase))
    (look (fun s => s.robloxBase)) (fun b b' s s' => b = b' ∧ b = base ∧ Agree K D s s') :=
  Rel.look (fun _ _ h => ⟨h.2.robloxBase, h.2.fresh.trans h.1, h.2⟩)

theorem agree_pc : Rel stopEnds (Agree K D) (look (fun s => s.pc)) (look (fun s => s.pc))
    (fun pc pc' s s' => pc = pc' ∧ Agree K D s s') :=
  Rel.look (fun _ _ h => ⟨h.pc, h⟩)

theorem agree_instrAt (pc : Int) : Rel stopEnds (Agree K D) (instrAt cl.p pc) (instrAt cl.p pc)
    (fun i i' s s' => i = i' ∧ Agree K D s s') := by
  unfold instrAt
  cases codeAt cl.p pc with
  | some i => exact Rel.pure (fun _ _ h => ⟨rfl, h⟩)
  | none => exact Rel.throw rfl

/-- What follows the call: the loop goes on while the first result is no nil. -/
theorem agree_tforloop_rest (hV : Local V K frame) {cb : Nat} (hcb : cb ∈ D) (hra : cb - 1 ∈ D) :
    let rest : CluaM A PUnit := do
      let v ← slot cb
      if v.tt ≠ RBX_TYPE_NIL then do
        setSlot (cb - 1) v
        let pc ← look (fun s => s.pc)
        let next ← instrAt cl.p pc
        jump (GETARG_sBx next)
        jump 1
      else jump 1
    Rel stopEnds (Agree K D) rest rest (fun _ _ => Agree K D) := by
  refine rel_of_holding (Rel.bind (agree_slot hcb) (fun v v' => ?_))
  intro s s' h
  rw [tt_eq_of_view_eq (hV.view h.1.2)]
  by_cases hnil : v'.tt ≠ RBX_TYPE_NIL
  · rw [if_pos hnil, if_pos hnil]
    have hstore := agree_setSlot_mem (K := K) (F := fun h h' => True ∧ K.values h h' v v') hra
      (fun _ _ _ hv => hv.2)
    refine Rel.bind hstore (fun _ _ => Rel.bind_same agree_pc (fun pc => ?_)) s s' h
    refine Rel.bind_same (agree_instrAt cl pc) (fun next => ?_)
    exact Rel.bind (agree_jump _) (fun _ _ => agree_jump 1)
  · rw [if_neg hnil, if_neg hnil]
    exact agree_jump 1 s s' h.2

theorem agree_tforloop (hV : Local V K frame) (hD : slots 0 frame ⊆ D)
    (hA : slots (base + argA i) (base + argA i + 3) ⊆ D) :
    Rel stopEnds (AgreeAt K base D) (op_tforloop V cl base i) (op_tforloop V cl base i)
      (fun _ _ => Agree K (D ∪ (slots (base + argA i + 3) (base + argA i + 6)
        ∪ slots (base + argA i + 3) (base + argA i + 3 + argC i)))) := by
  let cb := base + argA i + 3
  let D₁ : Set Nat := insert cb (insert (cb + 1) (insert (cb + 2) D))
  have h0 : base + argA i ∈ D := hA ⟨by omega, by omega⟩
  have h1 : base + argA i + 1 ∈ D := hA ⟨by omega, by omega⟩
  have h2 : base + argA i + 2 ∈ D := hA ⟨by omega, by omega⟩
  have hsub : D ⊆ D₁ := fun n hn => Or.inr (Or.inr (Or.inr hn))
  have hargs : slots cb (cb + 3) ⊆ D₁ := by
    rintro n ⟨hle, hlt⟩
    have hn : n = cb ∨ n = cb + 1 ∨ n = cb + 2 := by omega
    rcases hn with rfl | rfl | rfl
    · exact Or.inl rfl
    · exact Or.inr (Or.inl rfl)
    · exact Or.inr (Or.inr (Or.inl rfl))
  -- the three copies
  refine Rel.bind (agreeAt_slot base h2) (fun _ _ => ?_)
  refine Rel.bind (agreeAt_setSlot base (cb + 2)) (fun _ _ => ?_)
  refine Rel.bind (agreeAt_slot base (Or.inr h1)) (fun _ _ => ?_)
  refine Rel.bind (agreeAt_setSlot base (cb + 1)) (fun _ _ => ?_)
  refine Rel.bind (agreeAt_slot base (Or.inr (Or.inr h0))) (fun _ _ => ?_)
  refine Rel.bind (agreeAt_setSlot base cb) (fun _ _ => ?_)
  -- the call
  refine Rel.bind (arguments_setTop base hargs) (fun _ _ => ?_)
  refine Rel.bind (agree_arguments_saved cl base) (fun _ _ => ?_)
  have hcall : Rel stopEnds (Arguments K base cb D₁) (callRbx (V.rbxD_call cb (argC i)))
      (callRbx (V.rbxD_call cb (argC i))) (fun _ _ => Returned K base cb (argC i) D₁) := by
    refine (rel_callRbx (fun _ _ h => hV.call _ _ h.2.2.state (hD.trans hsub) (Or.inl rfl)
      h.2.1)).conseq (fun _ _ h => h) ?_
    rintro _ _ t t' ⟨s, s', ⟨hbase, -, hst⟩, hkept, hkept', hret, hsame⟩
    exact ⟨hret.trans hbase, hst.called hkept hkept' hsame⟩
  -- what comes back is the control variable and the values of the loop
  refine Rel.bind hcall (fun _ _ => Rel.bind (returned_restoreBase base) (fun _ _ => ?_))
  refine Rel.bind (agreeAt_topToCi base) (fun _ _ => Rel.bind_same (agreeAt_base base) ?_)
  refine fun b => Rel.assume ?_
  rintro rfl
  refine (agree_tforloop_rest cl hV (Or.inl (Or.inl rfl)) (Or.inl (hsub h2))).conseq
    (fun _ _ h => h) (fun _ _ _ _ h => h.mono ?_)
  rintro n (hn | hn | hn)
  · exact Or.inl (hsub hn)
  · exact Or.inl (hargs hn)
  · exact Or.inr hn

end

/-! ## One step -/

/-- The instruction at hand reads slots of `D` only. `OP_FORLOOP` takes the payload
whatever the tag, so it has to find numbers. -/
def ReadsOnly (cl : Closure) (D : Set Nat) (t : CluaVm A) : Prop :=
  ∀ i, codeAt cl.p t.pc = some i → reads i t ⊆ D
    ∧ (OpCode.ofWord (GET_OPCODE i) = some .OP_FORLOOP →
      ∀ n ∈ reads i t, (t.RS.stack n).tt = RBX_TYPE_NUMBER)

/-- `D`, and what the instruction at hand writes. -/
def written (cl : Closure) (D : Set Nat) (t t' : CluaVm A) : Set Nat :=
  match codeAt cl.p t.pc with
  | some i => D ∪ writes N V i t t'
  | none => D

section

variable {N V} {frame : Nat} {t t' : CluaVm A}

/-- The program counter moves on before an instruction is executed. -/
theorem agree_fetched (h : Agree K D t t') :
    Agree K D { t with pc := t.pc + 1 } { t' with pc := t'.pc + 1 } :=
  agree_jump 1 t t' h

theorem agree_grown {E W : Set Nat} {r r' : EStateM.Result Stop (CluaVm A) PUnit}
    (h : stopEnds.Related (fun _ _ => Agree K E) r r') (hE : D ∪ W ⊆ E) :
    stopEnds.Related (fun _ _ => Agree K (D ∪ W)) r r' :=
  h.imp (fun _ _ _ _ hs => hs.mono hE)

theorem agree_execute (hV : Local V K frame) (cl : Closure) (i : Word) (h : Agree K D t t')
    (hD : slots 0 frame ⊆ D) (hi : codeAt cl.p t.pc = some i) (hreads : ReadsOnly cl D t) :
    stopEnds.Related (fun _ _ s s' => Agree K (D ∪ writes N V i t s) s s')
      (cluaV_executeStep N V cl t) (cluaV_executeStep N V cl t') := by
  obtain ⟨hread, hnum⟩ := hreads i hi
  have hst := agree_fetched h
  -- the fetch is the same in both
  let u : CluaVm A := { t with pc := t.pc + 1 }
  let u' : CluaVm A := { t' with pc := t'.pc + 1 }
  have hi' : codeAt cl.p t'.pc = some i := h.pc ▸ hi
  show stopEnds.Related _ ((instrAt cl.p t.pc >>= _) t) ((instrAt cl.p t'.pc >>= _) t')
  rw [instrAt_some hi, instrAt_some hi']
  refine Ends.Related.bind (R := fun _ _ s s' => s = u ∧ s' = u') ⟨rfl, rfl⟩ ?_
  rintro _ _ s s' ⟨hs, hs'⟩ -
  rw [hs, hs']
  refine Ends.Related.bind (R := fun b b' s s' => b = t.robloxBase ∧ b' = t.robloxBase
    ∧ s = u ∧ s' = u') ⟨rfl, h.robloxBase.symm, rfl, rfl⟩ ?_
  rintro b b' s s' ⟨hb, hb', hs, hs'⟩ -
  rw [hb, hb', hs, hs']
  unfold reads at hread hnum
  unfold writes
  cases hop : OpCode.ofWord (GET_OPCODE i) with
  | none => exact agree_unknownOpcode i u u' hst
  | some o =>
    rw [hop] at hread hnum
    have hone : ∀ ra : Nat, D ∪ {ra} ⊆ insert ra D := fun ra => Set.union_singleton.subset
    have hnone : D ∪ ∅ ⊆ D := (Set.union_empty D).subset
    have hC : ∀ S : Set Nat, S ∪ rkReads t.robloxBase (GETARG_C i) ⊆ D →
        rkReads t.robloxBase (GETARG_C i) ⊆ D := fun S hS => Set.subset_union_right.trans hS
    cases o with
    | OP_MOVE => exact agree_grown (agree_move _ i (hread rfl) u u' hst) (hone _)
    | OP_NOT => exact agree_grown (agree_not _ i hV (hread rfl) u u' hst) (hone _)
    | OP_LOADK => exact agree_grown (agree_loadk cl _ i hV u u' hst) (hone _)
    | OP_LOADBOOL => exact agree_grown (agree_loadbool _ i hV u u' hst) (hone _)
    | OP_LOADNIL => exact agree_grown (agree_loadnil _ i hV u u' hst) subset_rfl
    | OP_GETGLOBAL => exact agree_grown (agree_getglobal cl _ i hV hD u u' hst) (hone _)
    | OP_SETGLOBAL => exact agree_grown (agree_setglobal cl _ i hV hD (hread rfl) u u' hst) hnone
    | OP_GETTABLE =>
      exact agree_grown (agree_gettable cl _ i hV hD (hread (Or.inl rfl)) (hC _ hread) u u' hst) (hone _)
    | OP_SETTABLE =>
      exact agree_grown (agree_settable cl _ i hV hD (hread (Or.inl (Or.inl rfl)))
        (fun n hn => hread (Or.inl (Or.inr hn))) (hC _ hread) u u' hst) hnone
    | OP_SELF =>
      refine agree_grown (agree_self cl _ i hV hD (hread (Or.inl rfl))
        (fun n hn => hread (Or.inr hn)) u u' hst) ?_
      rintro n (hn | rfl | rfl)
      · exact Or.inr (Or.inr hn)
      · exact Or.inl rfl
      · exact Or.inr (Or.inl rfl)
    | OP_JMP => exact agree_grown (agree_jump (GETARG_sBx i) u u' hst) hnone
    | OP_FORPREP => exact agree_grown (agree_forprep cl _ i hV hread u u' hst) hnone
    | OP_FORLOOP =>
      exact agree_forloop _ i hV u hread u u' ⟨rfl, hst, hnum rfl⟩
    | OP_TFORLOOP =>
      exact agree_grown (agree_tforloop cl _ i hV hD hread u u' ⟨h.fresh.symm, hst⟩) subset_rfl
    | OP_CALL =>
      exact agree_callop cl _ i hV hD (hread (Or.inl rfl)) u u'
        ⟨rfl, fun n hn => hread (Or.inr hn), hst⟩
    | OP_RETURN => exact Or.inr (Or.inr rfl)
    | _ => exact agree_unknownOpcode i u u' hst

/-! ## Runs -/

theorem agree_executeStep (hV : Local V K frame) (cl : Closure) (h : Agree K D t t')
    (hD : slots 0 frame ⊆ D) (hreads : ReadsOnly cl D t) :
    stopEnds.Related (fun _ _ s s' => Agree K (written N V cl D t s) s s')
      (cluaV_executeStep N V cl t) (cluaV_executeStep N V cl t') := by
  cases hi : codeAt cl.p t.pc with
  | some i =>
    unfold written
    simp only [hi]
    exact agree_execute hV cl i h hD hi hreads
  | none =>
    -- both run off the code
    have hi' : codeAt cl.p t'.pc = none := h.pc ▸ hi
    show stopEnds.Related _ ((instrAt cl.p t.pc >>= _) t) ((instrAt cl.p t'.pc >>= _) t')
    rw [instrAt_none hi, instrAt_none hi']
    exact Or.inr (Or.inr rfl)

theorem subset_written (cl : Closure) (D : Set Nat) (t s : CluaVm A) :
    D ⊆ written N V cl D t s := by
  unfold written
  cases codeAt cl.p t.pc with
  | some i => exact Set.subset_union_left
  | none => exact subset_rfl

/-- While every instruction reads only what the two machines agree on, they run
alike, and agree on all that was written. -/
theorem agree_run (hV : Local V K frame) (cl : Closure) (n : Nat) (h : Agree K D t t')
    (hD : slots 0 frame ⊆ D)
    (hreads : Along (cluaV_executeStep N V cl) (written N V cl) (ReadsOnly cl) n D t) :
    stopEnds.Related
      (fun _ _ => Agree K (track (cluaV_executeStep N V cl) (written N V cl) n D t))
      (cluaV_execute N V cl n t) (cluaV_execute N V cl n t') := by
  have hrun := rel_iter_track (X := stopEnds) (x := cluaV_executeStep N V cl)
    (y := cluaV_executeStep N V cl) (I := fun D s s' => slots 0 frame ⊆ D ∧ Agree K D s s')
    (fun D s s' hI hok => (agree_executeStep hV cl hI.2 hI.1 hok).imp
      (fun _ _ r _ hr => ⟨hI.1.trans (subset_written cl D s r), hr⟩))
    n D t t' ⟨hD, h⟩ hreads
  exact hrun.imp (fun _ _ _ _ hI => hI.2)

/-- What an instruction of a run has written stays in the record. -/
theorem mem_track {cl : Closure} {n k m : Nat} {start u : CluaVm A} {i : Word} (hkm : k < m)
    (hrun : cluaV_execute N V cl m start = .ok ⟨⟩ u) (ht : cluaV_execute N V cl k start = .ok ⟨⟩ t)
    (hi : codeAt cl.p t.pc = some i) (hwrites : ∀ t', n ∈ writes N V i t t') :
    n ∈ track (cluaV_executeStep N V cl) (written N V cl) m D start := by
  induction m generalizing u with
  | zero => exact absurd hkm (Nat.not_lt_zero k)
  | succ m ih =>
    obtain ⟨t', ht', hstep⟩ := iter_succ_eq_ok.mp hrun
    rw [track_succ ht' hstep]
    rcases Nat.lt_succ_iff_lt_or_eq.mp hkm with hlt | rfl
    · exact subset_written cl _ t' u (ih hlt ht')
    · -- the round in which it is written
      obtain ⟨-, rfl⟩ := EStateM.Result.ok.inj (ht.symm.trans ht')
      unfold written
      rw [hi]
      exact Or.inr (hwrites u)

end

end NostalgiaConv.RegisterUse
