/-
`cluaV_execute` simulates `luaV_execute`.

The two main loops are compared round by round: `InStep` relates their states
between two instructions, each handler of one is compared with the handler of the
other under the same name, and the run follows by induction. What the comparison
leaves out is what `loopEnds` says: Lua runs that read outside the proto or leave
the fifteen opcodes, and host runs whose memory runs out at a string constant.
-/
import NostalgiaConv.Encoding

set_option autoImplicit false

namespace NostalgiaConv.Simulation

open NostalgiaConv.ByteMem NostalgiaConv.Cipher NostalgiaConv.Host NostalgiaConv.Value
open NostalgiaConv.Opcodes NostalgiaConv.Relational NostalgiaConv.Interpreter
open NostalgiaConv.Lvm NostalgiaConv.Clvm NostalgiaConv.Encoding

/-- Both loops end alike: same return, same error. -/
def loopEnds : Ends Stop Stop where
  same e d := e = d
  left e := e = .undefined ∨ e = .outside
  right d := d = .raised .memory

variable {W A : Type} {C : Correspondence W A} {U : LuaApi W} {V : RbxApi A}

variable (C V) in
/-- Between two instructions: same `pc`, both local bases fresh, states related. -/
structure InStep (s : LuaVm W) (t : CluaVm A) : Prop where
  pc : s.pc = t.pc
  base : s.base = s.L.base
  robloxBase : t.robloxBase = t.RS.base
  state : StateRel C V.api s.L t.RS

variable (C V) in
/-- The same during an instruction that started with these bases, with a fact `F`
about encoded values at hand. -/
def At (lb rb : Nat) (F : W → HostState A → Prop) (s : LuaVm W) (t : CluaVm A) : Prop :=
  InStep C V s t ∧ s.L.base = lb ∧ t.RS.base = rb ∧ F s.L.world t.RS.host

variable (C V) in
/-- One value encodes another. -/
def Enc (a : LuaValue) (v : TValue) (w : W) (h : HostState A) : Prop := Encodes C V.api w h a v

variable {lb rb : Nat} {F : W → HostState A → Prop}

/-! ## Registers -/

theorem stateRel_setStack {L : LuaState W} {RS : RbxState A} {a : LuaValue} {v : TValue}
    (h : StateRel C V.api L RS) (n : Nat) (hv : Encodes C V.api L.world RS.host a v) :
    StateRel C V.api (L.setStack (L.base + n) a) (RS.setStack (RS.base + n) v) := by
  refine ⟨h.worlds, fun m => ?_, h.top, h.ciTop, h.env⟩
  show Encodes C V.api L.world RS.host (Function.update L.stack (L.base + n) a (L.base + m))
    (Function.update RS.stack (RS.base + n) v (RS.base + m))
  by_cases hmn : m = n
  · subst hmn
    rw [Function.update_self, Function.update_self]
    exact hv
  · rw [Function.update_of_ne (by omega), Function.update_of_ne (by omega)]
    exact h.regs m

theorem rel_slot (n : Nat) : Rel loopEnds (At C V lb rb F) (Lvm.slot (lb + n)) (Clvm.slot (rb + n))
    (fun a v => At C V lb rb (fun w h => F w h ∧ Enc C V a v w h)) := by
  refine Rel.look (fun s t hst => ?_)
  obtain ⟨hin, rfl, rfl, hF⟩ := hst
  exact ⟨hin, rfl, rfl, hF, hin.state.regs n⟩

theorem rel_setSlot {a : LuaValue} {v : TValue} (n : Nat) (hv : ∀ w h, F w h → Enc C V a v w h) :
    Rel loopEnds (At C V lb rb F) (Lvm.setSlot (lb + n) a) (Clvm.setSlot (rb + n) v)
      (fun _ _ => At C V lb rb F) := by
  refine Rel.update (fun s t hst => ?_)
  obtain ⟨hin, rfl, rfl, hF⟩ := hst
  exact ⟨⟨hin.pc, hin.base, hin.robloxBase, stateRel_setStack hin.state n (hv _ _ hF)⟩,
    rfl, rfl, hF⟩

/-- `setBoolean` keeps the other half of the payload. -/
theorem rel_setBoolean (n : Nat) (b : Word) :
    Rel loopEnds (At C V lb rb F) (Lvm.setSlot (lb + n) (.boolean b)) (Clvm.setBoolean (rb + n) b)
      (fun _ _ => At C V lb rb F) := by
  intro s t hst
  exact rel_setSlot n (fun _ _ _ => encodes_boolean _ b) s t hst

/-- A number computed alike on both sides. -/
theorem rel_setNumber (n : Nat) (x : lua_Number) :
    Rel loopEnds (At C V lb rb F) (Lvm.setSlot (lb + n) (.number x))
      (Clvm.setSlot (rb + n) ⟨numberXor V.api x, RBX_TYPE_NUMBER⟩) (fun _ _ => At C V lb rb F) :=
  rel_setSlot n (fun _ _ _ => encodes_number x)

theorem rel_jump (d : Int) : Rel loopEnds (At C V lb rb F) (Lvm.jump d) (Clvm.jump d)
    (fun _ _ => At C V lb rb F) := by
  refine Rel.update (fun s t hst => ?_)
  obtain ⟨hin, hbases⟩ := hst
  refine ⟨⟨?_, hin.base, hin.robloxBase, hin.state⟩, hbases⟩
  show s.pc + d = t.pc + d
  rw [hin.pc]

theorem rel_setTop (n : Nat) : Rel loopEnds (At C V lb rb F) (Lvm.setTop (lb + n))
    (Clvm.setTop (rb + n)) (fun _ _ => At C V lb rb F) := by
  refine Rel.update (fun s t hst => ?_)
  obtain ⟨hin, rfl, rfl, hF⟩ := hst
  refine ⟨⟨hin.pc, hin.base, hin.robloxBase,
    ⟨hin.state.worlds, hin.state.regs, ?_, hin.state.ciTop, hin.state.env⟩⟩, rfl, rfl, hF⟩
  show ((s.L.base + n : Nat) : Int) - s.L.base = ((t.RS.base + n : Nat) : Int) - t.RS.base
  omega

/-- `L->top = L->ci->top`, right after a call and before or after the bases are
loaded. -/
theorem stateRel_topToCi {L : LuaState W} {RS : RbxState A} (h : StateRel C V.api L RS) :
    StateRel C V.api { L with top := L.ciTop } { RS with top := RS.ciTop } :=
  ⟨h.worlds, h.regs, h.ciTop, h.ciTop, h.env⟩

theorem stateRel_savedpc {L : LuaState W} {RS : RbxState A} (h : StateRel C V.api L RS) (pc : Int)
    (word : Word) : StateRel C V.api { L with savedpc := pc } { RS with savedpc := word } :=
  ⟨h.worlds, h.regs, h.top, h.ciTop, h.env⟩

/-- The environment of the closure, and the globals of the thread. -/
theorem rel_env : Rel loopEnds (At C V lb rb F) (look (fun s : LuaVm W => s.L.env))
    (look (fun t : CluaVm A => t.RS.l_gt))
    (fun env g => At C V lb rb (fun w h => F w h ∧ Enc C V (.object .table env) g w h)) := by
  refine Rel.look (fun s t hst => ?_)
  obtain ⟨hin, hlb, hrb, hF⟩ := hst
  exact ⟨hin, hlb, hrb, hF, hin.state.env⟩

theorem rel_pc : Rel loopEnds (At C V lb rb F) (look (fun s : LuaVm W => s.pc))
    (look (fun t : CluaVm A => t.pc)) (fun pc pc' s t => pc = pc' ∧ At C V lb rb F s t) :=
  Rel.look (fun _ _ h => ⟨h.1.pc, h⟩)

theorem rel_instrAt {P : LuaVm W → CluaVm A → Prop} (p : Transpile.ProtoHead) (pc : Int) :
    Rel loopEnds P (instrAt p pc) (instrAt p pc) (fun i j s t => i = j ∧ P s t) := by
  unfold instrAt
  cases codeAt p pc with
  | some i => exact Rel.pure (fun _ _ hst => ⟨rfl, hst⟩)
  | none => exact Rel.throw_left (Or.inl rfl) _

/-- The bases with which an instruction starts or goes on after a call. -/
theorem rel_bases {P : LuaVm W → CluaVm A → Prop} (hP : ∀ s t, P s t → InStep C V s t) :
    Rel loopEnds P (look (fun s => s.base)) (look (fun t => t.robloxBase))
      (fun lb rb => At C V lb rb (fun _ _ => True)) := by
  refine Rel.look (fun s t hst => ?_)
  have hin := hP s t hst
  exact ⟨hin, hin.base.symm, hin.robloxBase.symm, trivial⟩

/-! ## Constants -/

variable (V) in
/-- The heap after a constant was made: as it was, or with one string more. -/
def Made (h h' : HostState A) : Prop :=
  h' = h ∨ ∃ rs bytes a, V.api.rbx_snewlstr rs bytes h = .ok a h'

/-- What corresponded before corresponds after it. -/
theorem encodes_made (hsim : Simulates C U V) {w : W} {h h' : HostState A} {a : LuaValue}
    {v : TValue} (hm : Made V h h') (he : Encodes C V.api w h a v) :
    Encodes C V.api w h' a v := by
  rcases hm with rfl | ⟨rs, bytes, p, hnew⟩
  · exact he
  cases a with
  | nil | boolean b | number n => exact he
  | string ts =>
    obtain ⟨q, hview, hstr⟩ := he
    have hframe := (hsim.lawful.snewlstr_ok hnew).1
    exact ⟨q, hview, hframe.isStr hsim.lawful (Set.empty_disjoint _) hstr⟩
  | object type ref =>
    obtain ⟨q, hview, hobj⟩ := he
    exact ⟨q, hview, hsim.object hnew hobj⟩

theorem transpileConstant_encodes (hsim : Simulates C U V) {RS : Addr} {c : Constant} (w : W)
    {h h' : HostState A} {v : TValue} (hres : transpileConstant V.api RS c h = .ok v h') :
    Made V h h' ∧ Encodes C V.api w h' (.ofConstant c) v := by
  cases c with
  | nil =>
    obtain ⟨rfl, rfl⟩ := EStateM.Result.ok.inj hres
    exact ⟨Or.inl rfl, rfl⟩
  | boolean b =>
    obtain ⟨rfl, rfl⟩ := EStateM.Result.ok.inj hres
    exact ⟨Or.inl rfl, encodes_boolean 0 b⟩
  | number n =>
    obtain ⟨rfl, rfl⟩ := EStateM.Result.ok.inj hres
    exact ⟨Or.inl rfl, encodes_number n⟩
  | string ts =>
    cases hstr : V.api.rbx_snewlstr RS ts.bytes h with
    | ok p h₁ =>
      have hdef : transpileConstant V.api RS (.string ts) h
          = .ok ⟨setWord 0 p, RBX_TYPE_STRING⟩ h₁ := by
        simp only [transpileConstant, bind, EStateM.bind, hstr]
        rfl
      rw [hdef] at hres
      obtain ⟨rfl, rfl⟩ := EStateM.Result.ok.inj hres
      have hbytes := (hsim.lawful.snewlstr_ok hstr).2
      exact ⟨Or.inr ⟨RS, ts.bytes, p, hstr⟩, p,
        view_eq_string.mpr ⟨rfl, word_setWord 0 p _⟩, hbytes⟩
    | error e h₁ =>
      have hdef : transpileConstant V.api RS (.string ts) h = .error e h₁ := by
        simp only [transpileConstant, bind, EStateM.bind, hstr]
      rw [hdef] at hres
      cases hres

theorem worlds_made (hsim : Simulates C U V) {w : W} {h h' : HostState A} (hm : Made V h h')
    (hw : C.worlds w h) : C.worlds w h' := by
  rcases hm with rfl | ⟨rs, bytes, a, hnew⟩
  · exact hw
  · exact hsim.worlds hnew hw

theorem stateRel_made (hsim : Simulates C U V) {L : LuaState W} {RS : RbxState A}
    {h' : HostState A} (hm : Made V RS.host h') (h : StateRel C V.api L RS) :
    StateRel C V.api L { RS with host := h' } :=
  ⟨worlds_made hsim hm h.worlds, fun n => encodes_made hsim hm (h.regs n), h.top, h.ciTop,
    encodes_made hsim hm h.env⟩

variable (V) in
/-- A fact that a new constant leaves alone. -/
def Kept (F : W → HostState A → Prop) : Prop :=
  ∀ w h h', Made V h h' → F w h → F w h'

theorem kept_true : Kept V (fun (_ : W) _ => True) := fun _ _ _ _ _ => trivial

theorem kept_enc (hsim : Simulates C U V) (hF : Kept V F) (a : LuaValue) (v : TValue) :
    Kept V (fun w h => F w h ∧ Enc C V a v w h) :=
  fun w h h' hm hFv => ⟨hF w h h' hm hFv.1, encodes_made hsim hm hFv.2⟩

theorem rel_constant (hsim : Simulates C U V) (cl : Closure) (n : Nat) (hF : Kept V F) :
    Rel loopEnds (At C V lb rb F) (constantAt cl.p n) (Clvm.constant V cl n)
      (fun c v => At C V lb rb (fun w h => F w h ∧ Enc C V (.ofConstant c) v w h)) := by
  rintro s t ⟨hin, hlb, hrb, hFst⟩
  unfold Clvm.constant constantAt
  cases cl.p.k[n]? with
  | none => exact Or.inl (Or.inl rfl)
  | some c =>
    show loopEnds.Related _ (.ok c s)
      (callOn (fun t : CluaVm A => t.RS.host) (fun h t => { t with RS := { t.RS with host := h } })
        .memory (transpileConstant V.api cl.RS c) t)
    unfold callOn
    cases hres : transpileConstant V.api cl.RS c t.RS.host with
    | ok v h' =>
      obtain ⟨hmade, hv⟩ := transpileConstant_encodes hsim s.L.world hres
      exact ⟨⟨hin.pc, hin.base, hin.robloxBase, stateRel_made hsim hmade hin.state⟩, hlb, hrb,
        hF _ _ _ hmade hFst, hv⟩
    | error e h' => rfl

theorem rel_rk (hsim : Simulates C U V) (cl : Closure) (x : Word) (hF : Kept V F) :
    Rel loopEnds (At C V lb rb F) (Lvm.rk cl.p lb x) (Clvm.rk V cl rb x)
      (fun a v => At C V lb rb (fun w h => F w h ∧ Enc C V a v w h)) := by
  unfold Lvm.rk Clvm.rk
  by_cases hk : ISK x = true
  · rw [if_pos hk, if_pos hk, ← bind_pure (Clvm.constant V cl (INDEXK x))]
    exact Rel.bind (rel_constant hsim cl _ hF) (fun _ _ => Rel.pure (fun _ _ h => h))
  · rw [if_neg hk, if_neg hk]
    exact rel_slot x.toNat

/-! ## Calls -/

/-- An operation leaves the locals alone. -/
theorem rel_call {α : Type} {P : LuaVm W → CluaVm A → Prop} {x : LuaOp W α} {y : RbxOp A α}
    {Q : α → α → LuaState W → RbxState A → Prop} (hpc : ∀ s t, P s t → s.pc = t.pc)
    (hop : ∀ s t, P s t → opEnds.Related Q (x s.L) (y t.RS)) :
    Rel loopEnds P (callLua x) (callRbx y) (fun a b s t => s.pc = t.pc ∧ Q a b s.L t.RS) := by
  refine (rel_callOn (Y := opEnds) rfl (fun _ => not_false) (fun _ => not_false) hop).conseq
    (fun _ _ h => h) ?_
  rintro a b s t ⟨s₀, t₀, L, RS, hst, rfl, rfl, hQ⟩
  exact ⟨hpc s₀ t₀ hst, hQ⟩

variable (C V) in
/-- Right after an operation, when the local bases may be stale. -/
def Called (s : LuaVm W) (t : CluaVm A) : Prop := s.pc = t.pc ∧ StateRel C V.api s.L t.RS

theorem rel_reloadBase : Rel loopEnds (Called C V) Lvm.reloadBase Clvm.restoreBase
    (fun _ _ => InStep C V) :=
  Rel.update (fun _ _ h => ⟨h.1, rfl, rfl, h.2⟩)

theorem rel_topToCi : Rel loopEnds (Called C V) Lvm.topToCi Clvm.topToCi (fun _ _ => Called C V) :=
  Rel.update (fun _ _ h => ⟨h.1, stateRel_topToCi h.2⟩)

theorem rel_topToCi_inStep : Rel loopEnds (InStep C V) Lvm.topToCi Clvm.topToCi
    (fun _ _ => InStep C V) :=
  Rel.update (fun _ _ h => ⟨h.pc, h.base, h.robloxBase, stateRel_topToCi h.state⟩)

/-- A call: the program counters are saved, the operations act alike, and both
bases are loaded again. -/
theorem rel_protect {cl : Closure} {x : LuaOp W PUnit} {y : RbxOp A PUnit}
    (hop : ∀ L RS, StateRel C V.api L RS → L.base = lb → RS.base = rb → F L.world RS.host →
      opEnds.Related (fun _ _ => StateRel C V.api) (x L) (y RS)) :
    Rel loopEnds (At C V lb rb F) (protect x) (hostCall cl y) (fun _ _ => InStep C V) := by
  rintro s t ⟨hin, hlb, hrb, hF⟩
  -- the saved program counters are no part of the relation, so the call starts in step
  have hcall := rel_call (fun s t (h : s.pc = t.pc ∧
      opEnds.Related (fun _ _ => StateRel C V.api) (x s.L) (y t.RS)) => h.1) (fun _ _ h => h.2)
  exact Rel.bind hcall (fun _ _ => rel_reloadBase)
    { s with L := { s.L with savedpc := s.pc } }
    { t with RS := { t.RS with savedpc := encryptedPc cl t.pc }, savedpc := t.pc }
    ⟨hin.pc, hop _ _ (stateRel_savedpc hin.state _ _) hlb hrb hF⟩

theorem rel_savePc : Rel loopEnds (At C V lb rb F) Lvm.savePc Clvm.savePc
    (fun _ _ => At C V lb rb F) := by
  refine Rel.update (fun s t hst => ?_)
  obtain ⟨hin, hbases⟩ := hst
  exact ⟨⟨hin.pc, hin.base, hin.robloxBase, stateRel_savedpc hin.state _ t.RS.savedpc⟩, hbases⟩

/-- The saved program counters are not part of the relation. -/
theorem at_savedpc {s : LuaVm W} {t : CluaVm A} (pc : Int) (h : At C V lb rb F s t) :
    At C V lb rb F { s with L := { s.L with savedpc := pc } } t := by
  obtain ⟨hin, hbases⟩ := h
  exact ⟨⟨hin.pc, hin.base, hin.robloxBase, stateRel_savedpc hin.state pc t.RS.savedpc⟩, hbases⟩

theorem at_saveEncryptedPc {s : LuaVm W} {t : CluaVm A} (word : Word) (h : At C V lb rb F s t) :
    At C V lb rb F s { t with RS := { t.RS with savedpc := word } } := by
  obtain ⟨hin, hbases⟩ := h
  exact ⟨⟨hin.pc, hin.base, hin.robloxBase, stateRel_savedpc hin.state s.L.savedpc word⟩, hbases⟩

/-! ## Numbers and branches -/

/-- `nvalue` asserts on Lua's side what the host takes for granted. -/
theorem rel_nvalue (n : Nat) : Rel loopEnds (At C V lb rb F) (nvalue (lb + n)) (decoded V (rb + n))
    (fun x y s t => x = y ∧ At C V lb rb F s t) := by
  intro s t hst
  obtain ⟨hin, rfl, rfl, hF⟩ := hst
  have henc := hin.state.regs n
  cases hreg : s.L.stack (s.L.base + n) with
  | number x =>
    rw [hreg] at henc
    rw [nvalue_number hreg]
    exact ⟨henc.number.2.symm, hin, rfl, rfl, hF⟩
  | _ =>
    rw [nvalue_other (by rw [hreg]; exact nofun)]
    exact Or.inl rfl

/-- **`convertNumber` is `tonumber`**: a number stays, a string that reads as one
becomes it, anything else is refused. -/
theorem rel_tonumber (hsim : Simulates C U V) (N : Doubles) (n : Nat) :
    Rel loopEnds (At C V lb rb F) (tonumber N (lb + n)) (convertNumber N V (rb + n))
      (fun b b' s t => b = b' ∧ At C V lb rb F s t) := by
  intro s t hat
  obtain ⟨hin, rfl, rfl, -⟩ := id hat
  have henc := hin.state.regs n
  cases hreg : s.L.stack (s.L.base + n) with
  | number x =>
    rw [hreg] at henc
    rw [tonumber_number N hreg, convertNumber_number henc.tag]
    exact ⟨rfl, hat⟩
  | string ts =>
    rw [hreg] at henc
    obtain ⟨p, hview, hstr⟩ := id henc
    -- both read the characters before the first zero
    have hread : svalue t.RS.host.mem (t.RS.stack (t.RS.base + n)).word = untilZero ts.bytes := by
      rw [(view_eq_string.mp hview).2]
      exact hsim.svalue hstr
    cases hnum : N.str2d (untilZero ts.bytes) with
    | some x =>
      rw [tonumber_string N hreg hnum, convertNumber_string henc.tag (hread ▸ hnum)]
      exact Rel.bind (rel_setNumber n x) (fun _ _ => Rel.pure (fun _ _ h => ⟨rfl, h⟩)) s t hat
    | none =>
      rw [tonumber_unread N hreg hnum, convertNumber_unread henc.tag (hread ▸ hnum)]
      exact ⟨rfl, hat⟩
  | nil | boolean b | object type ref =>
    rw [hreg] at henc
    have hnum : (t.RS.stack (t.RS.base + n)).tt ≠ RBX_TYPE_NUMBER := fun h =>
      nomatch rbxTag_eq_number.mp (henc.tag.symm.trans h)
    have hstr : (t.RS.stack (t.RS.base + n)).tt ≠ RBX_TYPE_STRING := fun h =>
      nomatch rbxTag_eq_string.mp (henc.tag.symm.trans h)
    rw [tonumber_other N (by rw [hreg]; exact nofun) (by rw [hreg]; exact nofun),
      convertNumber_other hnum hstr]
    exact ⟨rfl, hat⟩

/-- An operand that is no number raises the same message on both sides. -/
theorem rel_check {P : LuaVm W → CluaVm A → Prop} {x : LuaM W PUnit} {y : CluaM A PUnit}
    {Q : PUnit → PUnit → LuaVm W → CluaVm A → Prop} (msg : String) (b : Bool)
    (h : Rel loopEnds P x y Q) : Rel loopEnds P
      (if !b then throw (.raised (.runerror msg)) else x)
      (if !b then throw (.raised (.runerror msg)) else y) Q := by
  cases b with
  | true => exact h
  | false => exact Rel.throw rfl

/-! ## The handlers -/

/-- A handler of Lua's and the handler of the host under the same name. -/
def HandlerRel (C : Correspondence W A) (V : RbxApi A) (lb rb : Nat) (x : LuaM W PUnit)
    (y : CluaM A PUnit) : Prop :=
  Rel loopEnds (At C V lb rb (fun _ _ => True)) x y (fun _ _ => InStep C V)

section

variable {cl : Closure} (lb rb) (i : Word)

theorem rel_move : HandlerRel C V lb rb (Lvm.op_move lb i) (Clvm.op_move rb i) := by
  refine Rel.bind (rel_slot (argB i)) (fun a v => ?_)
  exact (rel_setSlot (argA i) (fun _ _ h => h.2)).conseq (fun _ _ h => h) (fun _ _ _ _ h => h.1)

theorem rel_loadk (hsim : Simulates C U V) :
    HandlerRel C V lb rb (Lvm.op_loadk cl.p lb i) (Clvm.op_loadk V cl rb i) := by
  refine Rel.bind (rel_constant hsim cl (argBx i) kept_true) (fun c v => ?_)
  exact (rel_setSlot (argA i) (fun _ _ h => h.2)).conseq (fun _ _ h => h) (fun _ _ _ _ h => h.1)

theorem rel_loadnil :
    HandlerRel C V lb rb (Lvm.op_loadnil lb i) (Clvm.op_loadnil rb i) := by
  refine Rel.update (fun s t hst => ?_)
  obtain ⟨hin, rfl, rfl, -⟩ := hst
  refine ⟨hin.pc, hin.base, hin.robloxBase,
    ⟨hin.state.worlds, fun n => ?_, hin.state.top, hin.state.ciTop, hin.state.env⟩⟩
  show Encodes C V.api s.L.world t.RS.host (setNils _ _ _ s.L.stack (s.L.base + n))
    (setNils _ _ _ t.RS.stack (t.RS.base + n))
  rw [setNils_apply, setNils_apply]
  by_cases hn : n ≤ argB i ∧ (argA i ≤ n ∨ n = argB i)
  · rw [if_pos (by omega), if_pos (by omega)]
    exact view_eq_nil.mpr rfl
  · rw [if_neg (by omega), if_neg (by omega)]
    exact hin.state.regs n

theorem rel_loadbool :
    HandlerRel C V lb rb (Lvm.op_loadbool lb i) (Clvm.op_loadbool rb i) := by
  refine Rel.bind (rel_setBoolean (argA i) _) (fun _ _ => ?_)
  exact (Rel.when (rel_jump 1)).conseq (fun _ _ h => h) (fun _ _ _ _ h => h.1)

theorem rel_not : HandlerRel C V lb rb (Lvm.op_not lb i) (Clvm.op_not rb i) := by
  refine Rel.bind (rel_slot (argB i)) (fun a v => ?_)
  intro s t hst
  obtain ⟨hin, hlb, hrb, -, henc⟩ := hst
  rw [if_congr henc.isFalse rfl rfl]
  exact (rel_setBoolean (F := fun _ _ => True) (argA i) _ s t ⟨hin, hlb, hrb, trivial⟩).imp
    (fun _ _ _ _ h => h.1)

theorem rel_jmp : HandlerRel C V lb rb (Lvm.op_jmp i) (Clvm.op_jmp i) :=
  (rel_jump _).conseq (fun _ _ h => h) (fun _ _ _ _ h => h.1)

theorem rel_getglobal (hsim : Simulates C U V) :
    HandlerRel C V lb rb (Lvm.op_getglobal U cl.p lb i) (Clvm.op_getglobal V cl rb i) := by
  refine Rel.bind (rel_constant hsim cl (argBx i) kept_true) (fun c v => ?_)
  refine Rel.bind rel_env (fun env g => rel_protect ?_)
  rintro L RS hstate rfl rfl ⟨⟨-, hv⟩, hg⟩
  exact hsim.gettable (argA i) hstate hg hv

theorem rel_setglobal (hsim : Simulates C U V) :
    HandlerRel C V lb rb (Lvm.op_setglobal U cl.p lb i) (Clvm.op_setglobal V cl rb i) := by
  refine Rel.bind (rel_constant hsim cl (argBx i) kept_true) (fun c v => ?_)
  refine Rel.bind rel_env (fun env g => ?_)
  refine Rel.bind (rel_slot (argA i)) (fun a ra => rel_protect ?_)
  rintro L RS hstate rfl rfl ⟨⟨⟨-, hv⟩, hg⟩, ha⟩
  exact hsim.settable hstate hg hv ha

theorem rel_gettable (hsim : Simulates C U V) :
    HandlerRel C V lb rb (Lvm.op_gettable U cl.p lb i) (Clvm.op_gettable V cl rb i) := by
  refine Rel.bind (rel_rk hsim cl (GETARG_C i) kept_true) (fun c value => ?_)
  refine Rel.bind (rel_slot (argB i)) (fun b v => rel_protect ?_)
  rintro L RS hstate rfl rfl ⟨⟨-, hc⟩, hb⟩
  exact hsim.gettable (argA i) hstate hb hc

theorem rel_settable (hsim : Simulates C U V) :
    HandlerRel C V lb rb (Lvm.op_settable U cl.p lb i) (Clvm.op_settable V cl rb i) := by
  refine Rel.bind (rel_rk hsim cl (GETARG_B i) kept_true) (fun b bValue => ?_)
  refine Rel.bind (rel_rk hsim cl (GETARG_C i) (kept_enc hsim kept_true _ _)) (fun c cValue => ?_)
  refine Rel.bind (rel_slot (argA i)) (fun a ra => rel_protect ?_)
  rintro L RS hstate rfl rfl ⟨⟨⟨-, hb⟩, hc⟩, ha⟩
  exact hsim.settable hstate ha hb hc

theorem rel_self (hsim : Simulates C U V) :
    HandlerRel C V lb rb (Lvm.op_self U cl.p lb i) (Clvm.op_self V cl rb i) := by
  refine Rel.bind (rel_slot (argB i)) (fun b v => ?_)
  refine Rel.bind (rel_setSlot (argA i + 1) (fun _ _ h => h.2)) (fun _ _ => ?_)
  -- the key and the object are read after `ra + 1` was written
  refine Rel.bind (rel_rk hsim cl (GETARG_C i) (kept_enc hsim kept_true _ _)) (fun c value => ?_)
  refine Rel.bind (rel_slot (argB i)) (fun b v => rel_protect ?_)
  rintro L RS hstate rfl rfl ⟨⟨-, hc⟩, hb⟩
  exact hsim.gettable (argA i) hstate hb hc

/-! ## The loop handlers -/

theorem rel_forprep (hsim : Simulates C U V) (N : Doubles) :
    HandlerRel C V lb rb (Lvm.op_forprep N lb i) (Clvm.op_forprep N V cl rb i) := by
  refine Rel.update_right (fun _ _ h => at_saveEncryptedPc _ h) (Rel.bind rel_savePc (fun _ _ => ?_))
  refine Rel.bind_same (rel_tonumber hsim N (argA i)) (fun b => rel_check _ b ?_)
  refine Rel.bind_same (rel_tonumber hsim N (argA i + 1)) (fun b => rel_check _ b ?_)
  refine Rel.bind_same (rel_tonumber hsim N (argA i + 2)) (fun b => rel_check _ b ?_)
  refine Rel.bind_same (rel_nvalue (argA i)) (fun init => ?_)
  refine Rel.bind_same (rel_nvalue (argA i + 2)) (fun pstep => ?_)
  refine Rel.bind (rel_setNumber (argA i) _) (fun _ _ => ?_)
  exact (rel_jump _).conseq (fun _ _ h => h) (fun _ _ _ _ h => h.1)

theorem rel_forloop (N : Doubles) :
    HandlerRel C V lb rb (Lvm.op_forloop N lb i) (Clvm.op_forloop N V rb i) := by
  refine Rel.bind_same (rel_nvalue (argA i + 2)) (fun step => ?_)
  refine Rel.bind_same (rel_nvalue (argA i)) (fun init => ?_)
  refine Rel.bind_same (rel_nvalue (argA i + 1)) (fun limit => ?_)
  refine (Rel.when ?_).conseq (fun _ _ h => h) (fun _ _ _ _ h => h.1)
  refine Rel.bind (rel_jump _) (fun _ _ => ?_)
  refine Rel.bind (rel_setNumber (argA i) _) (fun _ _ => ?_)
  exact rel_setNumber (argA i + 3) _

/-- The control variable is not nil: it is saved, and the loop goes on where the
jump behind the instruction says. -/
theorem rel_tforloop_jump (a : LuaValue) (v : TValue) :
    Rel loopEnds (At C V lb rb (fun w h => F w h ∧ Enc C V a v w h))
      (do
        Lvm.setSlot (lb + argA i + 3 - 1) a
        let pc ← look (fun s => s.pc)
        let next ← instrAt cl.p pc
        Lvm.jump (GETARG_sBx next)
        Lvm.jump 1)
      (do
        Clvm.setSlot (rb + argA i + 3 - 1) v
        let pc ← look (fun t => t.pc)
        let next ← instrAt cl.p pc
        Clvm.jump (GETARG_sBx next)
        Clvm.jump 1)
      (fun _ _ => InStep C V) := by
  refine Rel.bind (rel_setSlot (argA i + 2) (fun _ _ h => h.2)) (fun _ _ => ?_)
  refine Rel.bind_same rel_pc (fun pc => ?_)
  refine Rel.bind_same (rel_instrAt cl.p pc) (fun next => ?_)
  refine Rel.bind (rel_jump _) (fun _ _ => ?_)
  exact (rel_jump 1).conseq (fun _ _ h => h) (fun _ _ _ _ h => h.1)

theorem rel_tforloop (hsim : Simulates C U V) :
    HandlerRel C V lb rb (Lvm.op_tforloop U cl.p lb i) (Clvm.op_tforloop V cl rb i) := by
  unfold Lvm.op_tforloop Clvm.op_tforloop
  simp only [protect, bind_assoc]
  refine Rel.bind (rel_slot (argA i + 2)) (fun _ _ => ?_)
  refine Rel.bind (rel_setSlot (argA i + 3 + 2) (fun _ _ h => h.2)) (fun _ _ => ?_)
  refine Rel.bind (rel_slot (argA i + 1)) (fun _ _ => ?_)
  refine Rel.bind (rel_setSlot (argA i + 3 + 1) (fun _ _ h => h.2)) (fun _ _ => ?_)
  refine Rel.bind (rel_slot (argA i)) (fun _ _ => ?_)
  refine Rel.bind (rel_setSlot (argA i + 3) (fun _ _ h => h.2)) (fun _ _ => ?_)
  refine Rel.bind (rel_setTop (argA i + 3 + 3)) (fun _ _ => ?_)
  -- Lua saves its program counter here, the host thread's alone is saved there
  refine Rel.update_left (fun _ _ h => at_savedpc _ h) ?_
  refine Rel.update_right (fun _ _ h => at_saveEncryptedPc _ h) ?_
  have hcall : ∀ F, Rel loopEnds (At C V lb rb F) (callLua (U.luaD_call (lb + argA i + 3) (argC i)))
      (callRbx (V.rbxD_call (rb + argA i + 3) (argC i))) (fun _ _ => Called C V) := by
    refine fun F => rel_call (fun _ _ h => h.1.pc) ?_
    rintro s t ⟨hin, rfl, rfl, -⟩
    exact hsim.call (argA i + 3) (argC i) hin.state
  refine Rel.bind (hcall _) (fun _ _ => ?_)
  refine Rel.bind rel_reloadBase (fun _ _ => ?_)
  refine Rel.bind rel_topToCi_inStep (fun _ _ => ?_)
  refine Rel.bind (rel_bases (fun _ _ h => h)) (fun lb rb => ?_)
  refine Rel.bind (rel_slot (argA i + 3)) (fun a v => ?_)
  intro s t hst
  have htag : v.tt = rbxTag a := hst.2.2.2.2.tag
  cases a with
  | nil =>
    have hnil : v.tt = RBX_TYPE_NIL := htag
    rw [if_neg (not_not.mpr hnil)]
    exact (rel_jump 1 s t hst).imp (fun _ _ _ _ h => h.1)
  | _ =>
    have hne : v.tt ≠ RBX_TYPE_NIL := fun h => nomatch rbxTag_eq_nil.mp (htag.symm.trans h)
    rw [if_pos hne]
    exact rel_tforloop_jump lb rb i _ v s t hst

theorem rel_callop (hsim : Simulates C U V) :
    HandlerRel C V lb rb (Lvm.op_call U lb i) (Clvm.op_call V cl rb i) := by
  have htop : Rel loopEnds (At C V lb rb (fun _ _ => True)) (Lvm.setTop (lb + argA i + argB i))
      (Clvm.setTop (rb + argA i + argB i)) (fun _ _ => At C V lb rb (fun _ _ => True)) := by
    rw [Nat.add_assoc, Nat.add_assoc]
    exact rel_setTop (argA i + argB i)
  refine Rel.bind (Rel.when htop) (fun _ _ => ?_)
  refine Rel.update_right (fun _ _ h => at_saveEncryptedPc _ h) (Rel.bind rel_savePc (fun _ _ => ?_))
  have hcall : Rel loopEnds (At C V lb rb (fun _ _ => True))
      (callLua (U.luaD_precall (lb + argA i) (argC i - 1)))
      (callRbx (V.rbxV_precall (rb + argA i) (argC i - 1)))
      (fun r r' s t => r = r' ∧ Called C V s t) := by
    refine (rel_call (Q := fun r r' L RS => r = r' ∧ StateRel C V.api L RS)
      (fun _ _ h => h.1.pc) ?_).conseq (fun _ _ h => h) (fun _ _ _ _ h => ⟨h.2.1, h.1, h.2.2⟩)
    rintro s t ⟨hin, rfl, rfl, -⟩
    exact hsim.precall (argA i) (argC i - 1) hin.state
  refine Rel.bind_same hcall (fun r => ?_)
  by_cases hlua : r = PCRLUA
  · rw [if_pos hlua]
    exact Rel.throw_left (Or.inr rfl) _
  · rw [if_neg hlua, if_neg hlua]
    by_cases hc : r = PCRC
    · rw [if_pos hc, if_pos hc]
      exact Rel.bind (Rel.when rel_topToCi) (fun _ _ => rel_reloadBase)
    · rw [if_neg hc, if_neg hc]
      exact Rel.throw rfl

end

/-! ## The loop -/

/-- **One round.** The two main loops stay in step. -/
theorem rel_executeStep (hsim : Simulates C U V) (N : Doubles) (cl : Closure) :
    Rel loopEnds (InStep C V) (luaV_executeStep N U cl.p) (cluaV_executeStep N V cl)
      (fun _ _ => InStep C V) := by
  intro s t hst
  refine Rel.bind_same (rel_pc (F := fun _ _ => True)) (fun pc => ?_) s t ⟨hst, rfl, rfl, trivial⟩
  refine Rel.bind_same (rel_instrAt cl.p pc) (fun i => ?_)
  refine Rel.bind (rel_jump 1) (fun _ _ => ?_)
  refine Rel.bind (rel_bases (fun _ _ h => h.1)) (fun lb rb => ?_)
  cases OpCode.ofWord (GET_OPCODE i) with
  | none => exact Rel.throw_left (Or.inr rfl) _
  | some o =>
    cases o with
    | OP_MOVE => exact rel_move lb rb i
    | OP_LOADK => exact rel_loadk lb rb i hsim
    | OP_LOADBOOL => exact rel_loadbool lb rb i
    | OP_LOADNIL => exact rel_loadnil lb rb i
    | OP_GETGLOBAL => exact rel_getglobal lb rb i hsim
    | OP_GETTABLE => exact rel_gettable lb rb i hsim
    | OP_SETGLOBAL => exact rel_setglobal lb rb i hsim
    | OP_SETTABLE => exact rel_settable lb rb i hsim
    | OP_SELF => exact rel_self lb rb i hsim
    | OP_NOT => exact rel_not lb rb i
    | OP_JMP => exact rel_jmp lb rb i
    | OP_CALL => exact rel_callop lb rb i hsim
    | OP_FORLOOP => exact rel_forloop lb rb i N
    | OP_FORPREP => exact rel_forprep lb rb i hsim N
    | OP_TFORLOOP => exact rel_tforloop lb rb i hsim
    | _ => exact Rel.throw_left (Or.inr rfl) _

end NostalgiaConv.Simulation
