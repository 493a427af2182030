/-
The frame of a launched script, and the host stack under it.

`CallVMClosure` calls the script's function on the private state, and there
`cluaD_precall` sets up a frame of nils. The registers of `cluaV_execute` are not in
that frame: they are on the host stack, from the base of `CallVMClosure`'s own frame
on, and nobody clears them. The compiler counts on a clean frame; at the start of a
function `luaK_nil` emits nothing, so a `local` without a value is whatever the last
user of the host stack left there.

A run that reads no register before it has written it does not see the difference,
and that is proved for all of them.
-/
import NostalgiaConv.Hoare
import NostalgiaConv.Lockstep
import NostalgiaConv.RegisterUse

set_option autoImplicit false

namespace NostalgiaConv.StaleStack

open NostalgiaConv.ByteMem NostalgiaConv.Cipher NostalgiaConv.Host NostalgiaConv.Value
open NostalgiaConv.Opcodes NostalgiaConv.Transpile NostalgiaConv.BumpHost NostalgiaConv.Relational
open NostalgiaConv.Hoare
open NostalgiaConv.Interpreter NostalgiaConv.Lvm NostalgiaConv.Clvm NostalgiaConv.RegisterUse
open NostalgiaConv.HostOver NostalgiaConv.TableHost NostalgiaConv.Lockstep

/-! ## The code generator -/

/-- What `luaK_nil` looks at; `pc` is the length of the code. -/
structure FuncState where
  code : List Word
  lasttarget : Int
  nactvar : Nat

/-- `luaK_nil`, for the `n` registers from `reg` on. -/
def luaK_nil (fs : FuncState) (reg n : Nat) : FuncState :=
  let emitted := { fs with code := fs.code ++ [CREATE_ABC OpCode.OP_LOADNIL.toWord
    (BitVec.ofNat 32 reg) (BitVec.ofNat 32 (reg + n - 1)) 0] }
  if fs.lasttarget < fs.code.length then
    match fs.code.getLast? with
    | none => if fs.nactvar ≤ reg then fs else emitted -- positions are already clean
    | some previous =>
      if GET_OPCODE previous = OpCode.OP_LOADNIL.toWord ∧ argA previous ≤ reg
          ∧ reg ≤ argB previous + 1 then
        if argB previous < reg + n - 1 then
          { fs with code := fs.code.dropLast ++ [SETARG_B previous (BitVec.ofNat 32 (reg + n - 1))] }
        else fs
      else emitted
  else emitted

/-- A function that starts with locals without values starts without an instruction
for them. -/
theorem luaK_nil_start {fs : FuncState} {reg : Nat} (n : Nat) (hcode : fs.code = [])
    (htarget : fs.lasttarget < 0) (hreg : fs.nactvar ≤ reg) : luaK_nil fs reg n = fs := by
  unfold luaK_nil
  rw [hcode, if_pos (by simpa using htarget)]
  exact if_pos hreg

/-! ## The private frame -/

section

variable {W A : Type}

/-- `setnilvalue` on the `n` slots from `st` on. -/
def nilFrom : Nat → Nat → (Nat → LuaValue) → Nat → LuaValue
  | 0, _, stack => stack
  | n + 1, st, stack => nilFrom n (st + 1) (Function.update stack st .nil)

/-- The loop of `cadjust_varargs` that moves the fixed parameters. -/
def moveFixed : Nat → Nat → Nat → (Nat → LuaValue) → Nat → LuaValue
  | 0, _, _, stack => stack
  | n + 1, fixed, top, stack => moveFixed n (fixed + 1) (top + 1)
      (Function.update (Function.update stack top (stack fixed)) fixed .nil)

/-- The state afterwards, and the base. -/
def cadjust_varargs (p : ProtoHead) (actual : Nat) (L : LuaState W) : LuaState W × Nat :=
  let nfixargs := p.numparams.toNat
  let missing := nfixargs - actual
  let stack := nilFrom missing L.top L.stack
  let top := L.top + missing
  let fixed := top - (actual + missing)
  ({ L with stack := moveFixed nfixargs fixed top stack, top := top + nfixargs }, top)

/-- `cluaD_precall` on a Lua function. -/
def cluaD_precall (p : ProtoHead) (func : Nat) (L : LuaState W) : LuaState W :=
  let (L, base) :=
    if p.is_vararg = 0 then
      let base := func + 1
      ({ L with top := if base + p.numparams.toNat < L.top then base + p.numparams.toNat
          else L.top }, base)
    else cadjust_varargs p (L.top - func - 1) L
  let ciTop := base + p.maxstacksize.toNat
  { L with stack := nilFrom (ciTop - L.top) L.top L.stack, base := base, top := ciTop,
           ciTop := ciTop, savedpc := 0 }

/-- `CallVMClosure` up to the first instruction: the private state, and the state that
`cluaV_execute` starts in. `func` is the script's function, from the registry. -/
def callVMClosure (cl : Closure) (func : LuaValue) (L : LuaState W) (RS : RbxState A) :
    LuaState W × CluaVm A :=
  let L := { L with stack := Function.update L.stack L.top func, top := L.top + 1 }
  let L := cluaD_precall cl.p (L.top - 1) L
  (L, ⟨L.savedpc, RS.base, RS, L.savedpc⟩)

theorem nilFrom_apply (n st : Nat) (stack : Nat → LuaValue) (m : Nat) :
    nilFrom n st stack m = if st ≤ m ∧ m < st + n then .nil else stack m := by
  induction n generalizing st stack with
  | zero =>
    rw [nilFrom, if_neg (by omega)]
  | succ n ih =>
    rw [nilFrom, ih]
    by_cases hst : m = st
    · subst hst
      rw [if_neg (by omega), Function.update_self, if_pos (by omega)]
    · rw [Function.update_of_ne hst]
      refine if_congr ?_ rfl rfl
      omega

/-- Below `top` the loop writes nils only. -/
theorem moveFixed_below (n fixed top : Nat) (stack : Nat → LuaValue) {m : Nat} (hm : m < top)
    (hnil : stack m = .nil) : moveFixed n fixed top stack m = .nil := by
  induction n generalizing fixed top stack with
  | zero => exact hnil
  | succ n ih =>
    rw [moveFixed]
    refine ih _ _ _ (Nat.lt_succ_of_lt hm) ?_
    by_cases hfixed : m = fixed
    · subst hfixed
      rw [Function.update_self]
    · rw [Function.update_of_ne hfixed, Function.update_of_ne hm.ne]
      exact hnil

/-- Parameters that were not passed are nil where they are moved to. -/
theorem moveFixed_nil (n fixed top : Nat) (stack : Nat → LuaValue) (hle : fixed + n ≤ top)
    (hnil : ∀ m, fixed ≤ m → m < fixed + n → stack m = .nil) {m : Nat} (hm : top ≤ m)
    (hlt : m < top + n) : moveFixed n fixed top stack m = .nil := by
  induction n generalizing fixed top stack with
  | zero => omega
  | succ n ih =>
    rw [moveFixed]
    by_cases htop : m = top
    · subst htop
      refine moveFixed_below _ _ _ _ (Nat.lt_succ_self m) ?_
      rw [Function.update_of_ne (by omega), Function.update_self]
      exact hnil fixed le_rfl (by omega)
    · refine ih _ _ _ (by omega) (fun k hk hkn => ?_) (by omega) (by omega)
      rw [Function.update_of_ne (by omega), Function.update_of_ne (by omega)]
      exact hnil k (by omega) (by omega)

/-- Without arguments all of the frame is nil, whatever parameters there are. -/
theorem cluaD_precall_clean (p : ProtoHead) (func : Nat) (L : LuaState W)
    (htop : L.top = func + 1) {n : Nat} (hn : n < p.maxstacksize.toNat) :
    (cluaD_precall p func L).stack ((cluaD_precall p func L).base + n) = .nil := by
  unfold cluaD_precall
  by_cases hvararg : p.is_vararg = 0
  · simp only [if_pos hvararg, htop, if_neg (Nat.not_lt.mpr (Nat.le_add_right _ _))]
    rw [nilFrom_apply, if_pos (by omega)]
  · simp only [if_neg hvararg, cadjust_varargs, htop, Nat.add_sub_cancel_left, Nat.sub_self,
      Nat.sub_zero, Nat.zero_add, Nat.add_sub_cancel]
    rw [nilFrom_apply]
    by_cases hpast : func + 1 + p.numparams.toNat + p.numparams.toNat
        ≤ func + 1 + p.numparams.toNat + n
    · rw [if_pos (by omega)]
    · -- a parameter: it was nil where it lay, and is moved
      rw [if_neg (by omega)]
      refine moveFixed_nil _ _ _ _ le_rfl (fun m hle hlt => ?_) (by omega) (by omega)
      rw [nilFrom_apply, if_pos ⟨hle, hlt⟩]

/-- The frame is clean on the private state, and the host thread is as it was. -/
theorem callVMClosure_frames (cl : Closure) (func : LuaValue) (L : LuaState W) (RS : RbxState A) :
    let (L', t) := callVMClosure cl func L RS
    (∀ n < cl.p.maxstacksize.toNat, L'.stack (L'.base + n) = .nil) ∧ t.RS = RS :=
  ⟨fun _ hn => cluaD_precall_clean cl.p _ _ (Nat.sub_add_cancel (Nat.le_add_left 1 _)).symm hn, rfl⟩

/-! ## Runs over stale slots -/

/-- The start of the run, over a host stack `stack`. -/
abbrev launched (cl : Closure) (func : LuaValue) (L : LuaState W) (RS : RbxState A)
    (stack : Nat → TValue) : CluaVm A :=
  (callVMClosure cl func L { RS with stack := stack }).2

variable {N : Doubles} {V : RbxApi A} {K : Likeness A}

theorem launched_agree (cl : Closure) (func : LuaValue) (L : LuaState W) (RS : RbxState A)
    {stack stack' : Nat → TValue}
    (hvalid : SameOn K (slots 0 RS.base) { RS with stack := stack } { RS with stack := stack })
    (hstale : ∀ m < RS.base, stack m = stack' m) :
    Agree K (slots 0 RS.base) (launched cl func L RS stack) (launched cl func L RS stack') where
  pc := rfl
  robloxBase := rfl
  savedpc := rfl
  state := by
    refine ⟨hvalid.host, fun m hm => ?_, rfl, rfl, rfl, hvalid.l_gt, rfl⟩
    show K.values RS.host RS.host (stack m) (stack' m)
    rw [← hstale m hm.2]
    exact hvalid.stack m hm
  fresh := rfl

/-- **A run that writes its registers before it reads them does not depend on what was
left on the host stack.** Two launches of a script differ in the slots from the frame's
base on; `D` starts as the slots below it and grows by what each instruction writes.
While every instruction of the first run reads slots of `D` only, the second executes the
same instructions, with equal values in all of them, and ends the same way. The host
thread is well formed before the launch, as far as the frame's base. -/
theorem stale_slots_unobserved (N : Doubles) (cl : Closure) (func : LuaValue) (L : LuaState W)
    (RS : RbxState A) (hV : Local V K RS.base) (stack stack' : Nat → TValue)
    (hvalid : SameOn K (slots 0 RS.base) { RS with stack := stack } { RS with stack := stack })
    (hstale : ∀ m < RS.base, stack m = stack' m) (n : Nat)
    (hclean : Along (cluaV_executeStep N V cl) (written N V cl) (ReadsOnly cl) n
      (slots 0 RS.base) (launched cl func L RS stack)) :
    stopEnds.Related
      (fun _ _ t t' => t.pc = t'.pc ∧ t.robloxBase = t'.robloxBase
        ∧ ∀ m ∈ track (cluaV_executeStep N V cl) (written N V cl) n (slots 0 RS.base)
            (launched cl func L RS stack), (t.RS.stack m).view = (t'.RS.stack m).view)
      (cluaV_execute N V cl n (launched cl func L RS stack))
      (cluaV_execute N V cl n (launched cl func L RS stack')) :=
  (agree_run hV cl n (launched_agree cl func L RS hvalid hstale) subset_rfl hclean).imp
    (fun _ _ _ _ h => ⟨h.pc, h.robloxBase, fun m hm => hV.view (h.state.stack m hm)⟩)

end

/-! ## A host with tables -/

/-- Memories and heaps are equal, and so are the stored values, by their tags. -/
def sameEntries : Likeness Heap where
  states h h' := plain h = plain h'
    ∧ List.Forall₂ (fun e e' => e.1 = e'.1 ∧ e.2.view = e'.2.view) h.heap.2 h'.heap.2
  values _ _ v v' := v.view = v'.view

section

variable {xorConst : BitVec 64} {D : Set Nat} {RS RS' : RbxState Heap}

theorem rbxKey_congr {m m' : Mem 32} {v v' : TValue} (hm : m = m') (h : v.view = v'.view) :
    rbxKey xorConst m v = rbxKey xorConst m' v' := by
  unfold rbxKey
  rw [hm, h]

theorem mem_eq (h : SameOn sameEntries D RS RS') : RS.host.mem = RS'.host.mem :=
  congrArg (fun s : HostState Bump => s.mem) h.host.1

/-- A new string is the same in both, and what is stored stays. -/
theorem sameEntries_beside {h h' : HostState Heap} (x : HostM Bump Addr)
    (hstates : sameEntries.states h h') :
    rbxEnds.Related (fun a a' s s' => a = a' ∧ sameEntries.states s s') (beside x h)
      (beside x h') := by
  obtain ⟨hplain, hentries⟩ := hstates
  unfold beside
  rw [hplain]
  cases x (plain h') with
  | ok a t => exact ⟨rfl, rfl, hentries⟩
  | error e t => exact Or.inr (Or.inr rfl)

theorem gettable_local {t t' key key' : TValue} (val : Nat) (h : SameOn sameEntries D RS RS')
    (ht : t.view = t'.view) (hkey : key.view = key'.view) :
    rbxEnds.Related (fun _ _ => SameOn sameEntries (insert val D))
      ((rbxTables xorConst).rbxV_gettable t key val RS)
      ((rbxTables xorConst).rbxV_gettable t' key' val RS') := by
  show rbxEnds.Related _ (if t.tt = RBX_TYPE_TABLE then _ else _)
    (if t'.tt = RBX_TYPE_TABLE then _ else _)
  rw [tt_eq_of_view_eq ht, rbxKey_congr (mem_eq h) ht, rbxKey_congr (mem_eq h) hkey]
  by_cases htable : t'.tt = RBX_TYPE_TABLE
  · rw [if_pos htable, if_pos htable]
    refine h.setStack val ?_
    rcases lookup_forall₂ (R := fun v v' : TValue => v.view = v'.view) h.host.2
      (rbxKey xorConst RS'.host.mem t', rbxKey xorConst RS'.host.mem key') with
      ⟨hl, hr⟩ | ⟨v, v', hl, hr, hv⟩
    · rw [hl, hr]
      exact (view_eq_nil.mpr rfl).trans (view_eq_nil.mpr rfl).symm
    · rw [hl, hr]
      exact hv
  · rw [if_neg htable, if_neg htable]
    exact Or.inr (Or.inr rfl)

/-- A value is stored with the bytes that its tag does not speak of, and these may differ. -/
theorem settable_local {t t' key key' val val' : TValue} (h : SameOn sameEntries D RS RS')
    (ht : t.view = t'.view) (hkey : key.view = key'.view) (hval : val.view = val'.view) :
    rbxEnds.Related (fun _ _ => SameOn sameEntries D)
      ((rbxTables xorConst).rbxV_settable t key val RS)
      ((rbxTables xorConst).rbxV_settable t' key' val' RS') := by
  show rbxEnds.Related _ (if t.tt = RBX_TYPE_TABLE then _ else _)
    (if t'.tt = RBX_TYPE_TABLE then _ else _)
  rw [tt_eq_of_view_eq ht, rbxKey_congr (mem_eq h) ht, rbxKey_congr (mem_eq h) hkey]
  by_cases htable : t'.tt = RBX_TYPE_TABLE
  · rw [if_pos htable, if_pos htable]
    by_cases hnil : rbxKey xorConst RS'.host.mem key' = .nil
    · rw [if_pos hnil, if_pos hnil]
      exact Or.inr (Or.inr rfl)
    · rw [if_neg hnil, if_neg hnil]
      refine ⟨⟨?_, .cons ⟨rfl, hval⟩ h.host.2⟩, h.stack, h.base, h.top, h.ciTop, h.l_gt, h.savedpc⟩
      exact h.host.1
  · rw [if_neg htable, if_neg htable]
    exact Or.inr (Or.inr rfl)

theorem return_local {func : Nat} (nresults : Int) (h : SameOn sameEntries D RS RS')
    (hargs : slots func RS.top ⊆ D) :
    SameOn sameEntries (D ∪ results func nresults (rbxReturn RS func nresults).top)
      (rbxReturn RS func nresults) (rbxReturn RS' func nresults) := by
  refine ⟨h.host, fun n hn => ?_, h.base, rfl, h.ciTop, h.l_gt, h.savedpc⟩
  show (returned setnil func nresults RS.top RS.stack n).view
    = (returned setnil func nresults RS'.top RS'.stack n).view
  rw [← h.top]
  unfold returned
  by_cases hfirst : n = func ∧ n < func + resultCount nresults ∧ func + 1 < RS.top
  · rw [if_pos hfirst, if_pos hfirst]
    exact h.stack _ (hargs ⟨Nat.le_succ func, hfirst.2.2⟩)
  · rw [if_neg hfirst, if_neg hfirst]
    by_cases hnil : func ≤ n ∧ n < func + resultCount nresults
    · rw [if_pos hnil, if_pos hnil]
      exact (view_eq_nil.mpr rfl).trans (view_eq_nil.mpr rfl).symm
    · rw [if_neg hnil, if_neg hnil]
      refine h.stack n (hn.resolve_right (fun hresult => hnil ⟨hresult.1, ?_⟩))
      -- the results end where the top is set
      have hlt := hresult.2
      unfold resultCount
      by_cases hcount : 0 ≤ nresults
      · rwa [if_pos hcount] at hlt ⊢
      · rw [if_neg hcount] at hlt ⊢
        have htop : (rbxReturn RS func nresults).top = func + resultCount nresults := rfl
        rw [htop] at hlt
        unfold resultCount at hlt
        rwa [if_neg hcount] at hlt

theorem call_local {α : Type} (r : α) {func : Nat} (nresults : Int)
    (h : SameOn sameEntries D RS RS') (hfunc : func ∈ D) (hargs : slots func RS.top ⊆ D) :
    rbxEnds.Related (fun a b S S' => a = r ∧ a = b ∧ S.base = RS.base
        ∧ SameOn sameEntries (D ∪ results func nresults S.top) S S')
      (rbxCall r func nresults RS) (rbxCall r func nresults RS') := by
  unfold rbxCall
  rw [tt_eq_of_view_eq (h.stack func hfunc)]
  by_cases hfunction : (RS'.stack func).tt = RBX_TYPE_FUNCTION
  · rw [if_pos hfunction, if_pos hfunction]
    exact ⟨rfl, rfl, rfl, return_local nresults h hargs⟩
  · rw [if_neg hfunction, if_neg hfunction]
    exact Or.inr (Or.inr rfl)

end

theorem rbxTables_local (xorConst : BitVec 64) (frame : Nat) :
    Local (rbxTables xorConst) sameEntries frame where
  view h := h
  plain _ h _ := h
  svalue {h h' v v'} hstates hv hstring := by
    have hword : v'.word = v.word :=
      (view_eq_string.mp ((show v.view = v'.view from hv).symm.trans
        (view_eq_string.mpr ⟨hstring, rfl⟩))).2
    rw [hword]
    exact congrArg (fun s : HostState Bump => svalue s.mem v.word) hstates.1
  snewlstr RS bytes hstates := by
    refine (sameEntries_beside _ hstates).imp ?_
    rintro a _ s s' ⟨rfl, hstates'⟩
    exact ⟨hstates', rfl, fun _ _ hv => hv⟩
  gettable val h _ ht hkey := gettable_local val h ht hkey
  settable h _ ht hkey hval := settable_local h ht hkey hval
  precall func nresults h _ hfunc hargs :=
    (call_local PCRC nresults h hfunc hargs).imp (fun _ _ _ _ hret =>
      ⟨hret.2.1, fun _ => hret.2.2, fun hlua => absurd (hret.1.symm.trans hlua) (by decide)⟩)
  call func nresults h _ hfunc hargs :=
    (call_local PUnit.unit nresults h hfunc hargs).imp (fun _ _ _ _ hret => hret.2.2)

/-! ## Two scripts -/

def script (code : List Word) (hcode : 4 * code.length < 2 ^ 32) : Closure where
  p := leafHead [] code noConstants_fit hcode
  code := 0x2000
  RS := 0

/-- `local a = true; local b = a` -/
def assigned : Closure := script [CREATE_ABC OpCode.OP_LOADBOOL.toWord 0 1 0,
  CREATE_ABC OpCode.OP_MOVE.toWord 1 0 0, CREATE_ABC OpCode.OP_RETURN.toWord 0 1 0] (by decide)

/-- `local a; local b = a` -/
def unassigned : Closure := script [CREATE_ABC OpCode.OP_MOVE.toWord 1 0 0,
  CREATE_ABC OpCode.OP_RETURN.toWord 0 1 0] (by decide)

/-- `local a = true; x = a; local b = f(x)` -/
def passed : Closure where
  p := leafHead [.string (luaS_newlstr (chars "x")), .string (luaS_newlstr (chars "f"))]
    [CREATE_ABC OpCode.OP_LOADBOOL.toWord 0 1 0, CREATE_ABx OpCode.OP_SETGLOBAL.toWord 0 0,
      CREATE_ABx OpCode.OP_GETGLOBAL.toWord 1 1, CREATE_ABx OpCode.OP_GETGLOBAL.toWord 2 0,
      CREATE_ABC OpCode.OP_CALL.toWord 1 2 2, CREATE_ABC OpCode.OP_RETURN.toWord 0 1 0]
    (by decide) (by decide)
  code := 0x2000
  RS := 0

/-- The private state before the call. -/
def private₀ : LuaState Unit := ⟨(), fun _ => .nil, 1, 1, 20, 0, 5⟩

/-- A stack of nils. -/
def cleared : Nat → TValue := fun _ => ⟨0, RBX_TYPE_NIL⟩

/-- The host thread, with `CallVMClosure`'s frame at slot 4; the global `f` is a function. -/
def thread : RbxState Heap :=
  ⟨tableProcess [(globalKey "f", ⟨7, RBX_TYPE_FUNCTION⟩)], cleared, 4, 4, 24, ⟨5, RBX_TYPE_TABLE⟩, 0⟩

/-- The same with a boolean left in slot 4, and something in the unused half of it. -/
def leftover : Nat → TValue := Function.update cleared 4 ⟨0x700000001, RBX_TYPE_BOOLEAN⟩

theorem cleared_eq_leftover : ∀ m < thread.base, cleared m = leftover m := by
  intro m hm
  exact (Function.update_of_ne (Nat.ne_of_lt hm) _ _).symm

theorem thread_valid : SameOn sameEntries (slots 0 thread.base) { thread with stack := cleared }
    { thread with stack := cleared } :=
  ⟨⟨rfl, .cons ⟨rfl, rfl⟩ .nil⟩, fun _ _ => rfl, rfl, rfl, rfl, rfl, rfl⟩

/-- The launch of a script over `stack`. -/
abbrev launchOver (cl : Closure) (stack : Nat → TValue) : CluaVm Heap :=
  launched cl (.object .function 7) private₀ thread stack

/-- Where a run has got to: its program counter, its base, and the top. -/
def control : EStateM.Result Stop (CluaVm Heap) PUnit → Option (Int × Nat × Nat)
  | .ok _ t => some (t.pc, t.robloxBase, t.RS.top)
  | .error _ _ => none

theorem control_of_ok {r : EStateM.Result Stop (CluaVm Heap) PUnit} {t : CluaVm Heap} {pc : Int}
    {base top : Nat} (hr : r = .ok ⟨⟩ t) (h : control r = some (pc, base, top)) :
    t.pc = pc ∧ t.robloxBase = base ∧ t.RS.top = top := by
  rw [hr] at h
  obtain ⟨hpc, hrest⟩ := Prod.mk.inj (Option.some.inj h)
  exact ⟨hpc, Prod.mk.inj hrest⟩

/-- It goes through its code from the first instruction to the last, in its own frame. -/
theorem passed_control {k : Nat} (hk : k < 5) {t : CluaVm Heap}
    (ht : cluaV_execute machineDoubles (rbxTables 0) passed k (launchOver passed cleared)
      = .ok ⟨⟩ t) : t.pc = k ∧ t.robloxBase = 4 ∧ t.RS.top = 4 := by
  have hcontrol : ∀ k < 5, control (cluaV_execute machineDoubles (rbxTables 0) passed k
      (launchOver passed cleared)) = some ((k : Int), 4, 4) := by decide +kernel
  exact control_of_ok ht (hcontrol k hk)

/-- Its code, by opcode and the operands `A` and `B`. -/
def passedCode : List (OpCode × Nat × Nat) :=
  [(.OP_LOADBOOL, 0, 1), (.OP_SETGLOBAL, 0, 0), (.OP_GETGLOBAL, 1, 0), (.OP_GETGLOBAL, 2, 0),
    (.OP_CALL, 1, 2)]

theorem passed_code {k : Nat} {o : OpCode} {a b : Nat} (h : passedCode[k]? = some (o, a, b)) :
    ∃ i, codeAt passed.p k = some i ∧ OpCode.ofWord (GET_OPCODE i) = some o ∧ argA i = a
      ∧ argB i = b := by
  have hcode : ∀ k < 5, (codeAt passed.p (k : Nat)).map
      (fun i => (OpCode.ofWord (GET_OPCODE i), argA i, argB i))
      = passedCode[k]?.map (fun e => (some e.1, e.2)) := by
    decide +kernel
  have hk : k < 5 := (List.getElem?_eq_some_iff.mp h).1
  have hmap := hcode k hk
  rw [h] at hmap
  obtain ⟨i, hi, heq⟩ := Option.map_eq_some_iff.mp hmap
  obtain ⟨hop, hargs⟩ := Prod.mk.inj heq
  obtain ⟨hA, hB⟩ := Prod.mk.inj hargs
  exact ⟨i, hi, hop, hA, hB⟩

/-- What a round before this one has written. -/
theorem passed_wrote {j k : Nat} (hjk : j < k) {t : CluaVm Heap}
    (ht : cluaV_execute machineDoubles (rbxTables 0) passed k (launchOver passed cleared)
      = .ok ⟨⟩ t) {o : OpCode} {a b : Nat} (hj : passedCode[j]? = some (o, a, b))
    (ho : o = .OP_LOADBOOL ∨ o = .OP_GETGLOBAL) :
    4 + a ∈ track (cluaV_executeStep machineDoubles (rbxTables 0) passed)
      (written machineDoubles (rbxTables 0) passed) k (slots 0 thread.base)
      (launchOver passed cleared) := by
  obtain ⟨u, hu⟩ := iter_ok_of_le hjk.le ht
  obtain ⟨hpc, hbase, -⟩ := passed_control (List.getElem?_eq_some_iff.mp hj).1 hu
  obtain ⟨i, hi, hop, rfl, -⟩ := passed_code hj
  refine mem_track hjk ht hu (hpc ▸ hi) (fun u' => ?_)
  unfold writes
  rw [hop, ← hbase]
  rcases ho with rfl | rfl <;> rfl

/-- What it reads it has written: slot 4 in round 0, slots 5 and 6 in rounds 2 and 3. -/
theorem passed_clean {n : Nat} (hn : n = 5) :
    Along (cluaV_executeStep machineDoubles (rbxTables 0) passed)
      (written machineDoubles (rbxTables 0) passed) (ReadsOnly passed) n (slots 0 thread.base)
      (launchOver passed cleared) := by
  refine along_iff.mpr (fun k hkn t ht i hi => ?_)
  have hk : k < 5 := hn ▸ hkn
  obtain ⟨hpc, hbase, htop⟩ := passed_control hk ht
  have hwrote := fun j (hjk : j < k) o a b (hj : passedCode[j]? = some (o, a, b)) =>
    passed_wrote hjk ht hj
  -- the record is a set like any other from here on
  generalize track _ _ k _ _ = D at hwrote ⊢
  rw [hpc] at hi
  obtain ⟨⟨o, a, b⟩, hcode⟩ : ∃ e, passedCode[k]? = some e := ⟨_, List.getElem?_eq_getElem hk⟩
  obtain ⟨i', hi', hop, hA, hB⟩ := passed_code hcode
  obtain rfl := Option.some.inj (hi.symm.trans hi')
  unfold reads
  rw [hop, hA, hB, hbase]
  have hk' : k = 0 ∨ k = 1 ∨ k = 2 ∨ k = 3 ∨ k = 4 := by omega
  rcases hk' with rfl | rfl | rfl | rfl | rfl <;> obtain ⟨rfl, rfl, rfl⟩ := Option.some.inj hcode
  · exact ⟨fun n hn => hn.elim, nofun⟩
  · refine ⟨fun n hn => ?_, nofun⟩
    rw [show n = 4 + 0 from hn]
    exact hwrote 0 (by decide) _ _ _ rfl (Or.inl rfl)
  · exact ⟨fun n hn => hn.elim, nofun⟩
  · exact ⟨fun n hn => hn.elim, nofun⟩
  · refine ⟨fun n hn => ?_, nofun⟩
    have hn' : n = 4 + 1 ∨ n = 4 + 2 := by
      rcases hn with hfunc | ⟨hle, hlt⟩
      · exact Or.inl hfunc
      · rw [if_pos (by decide)] at hlt
        omega
    rcases hn' with rfl | rfl
    · exact hwrote 2 (by decide) _ _ _ rfl (Or.inr rfl)
    · exact hwrote 3 (by decide) _ _ _ rfl (Or.inr rfl)

/-- What the globals are after a run, to the last byte. -/
def globals : EStateM.Result Stop (CluaVm Heap) PUnit → List TValue
  | .ok _ t | .error _ t => t.RS.host.heap.2.map Prod.snd

/-- The value of `f(x)` is the same over both stacks, although what was stored under `x` is
not the same to the last byte. -/
theorem stale_slots_unobserved_passed : ∃ t t',
    cluaV_execute machineDoubles (rbxTables 0) passed 5 (launchOver passed cleared) = .ok ⟨⟩ t
      ∧ cluaV_execute machineDoubles (rbxTables 0) passed 5 (launchOver passed leftover) = .ok ⟨⟩ t'
      ∧ t.pc = t'.pc ∧ (t.RS.stack 5).view = (t'.RS.stack 5).view
      ∧ t.RS.host.heap.2.map Prod.snd ≠ t'.RS.host.heap.2.map Prod.snd := by
  obtain ⟨n, hn⟩ : ∃ n, n = 5 := ⟨5, rfl⟩
  have hended : ∀ stack ∈ [cleared, leftover], ended (cluaV_execute machineDoubles (rbxTables 0)
      passed n (launchOver passed stack)) = true := by
    rw [hn, List.forall_mem_cons, List.forall_mem_singleton]
    constructor <;> decide +kernel
  have hglobals : globals (cluaV_execute machineDoubles (rbxTables 0) passed n
      (launchOver passed cleared)) ≠ globals (cluaV_execute machineDoubles (rbxTables 0) passed n
      (launchOver passed leftover)) := by
    rw [hn]
    decide +kernel
  obtain ⟨_, t, ht⟩ := exists_of_ended (hended cleared List.mem_cons_self)
  obtain ⟨_, t', ht'⟩ := exists_of_ended (hended leftover (List.mem_cons_of_mem _ List.mem_cons_self))
  have h := stale_slots_unobserved machineDoubles passed (.object .function 7) private₀ thread
    (rbxTables_local 0 thread.base) cleared leftover thread_valid cleared_eq_leftover n
    (passed_clean hn)
  have hresult := passed_wrote (show 2 < n by omega) ht (rfl : passedCode[2]? = _) (Or.inr rfl)
  rw [ht, ht'] at h hglobals
  exact ⟨t, t', hn ▸ ht, hn ▸ ht', h.1, h.2.2 5 hresult, hglobals⟩

/-- **The register of a `local` without a value is not cleared.** The compiler emits
nothing for `local a`; the first instruction reads its register, slot 4, and copies
what was left there. -/
theorem unassigned_leftover :
    (luaK_nil ⟨[], -1, 0⟩ 0 1).code = [] ∧ (∀ m < thread.base, cleared m = leftover m)
      ∧ (∃ i, codeAt unassigned.p 0 = some i ∧ reads i (launchOver unassigned leftover) = {4})
      ∧ (leftover 4).view = .boolean 1
      ∧ ∃ t t',
        cluaV_execute machineDoubles (rbxTables 0) unassigned 1 (launchOver unassigned cleared)
          = .ok ⟨⟩ t
        ∧ cluaV_execute machineDoubles (rbxTables 0) unassigned 1 (launchOver unassigned leftover)
          = .ok ⟨⟩ t'
        ∧ (t.RS.stack 5).view = .nil ∧ (t'.RS.stack 5).view = .boolean 1 :=
  ⟨rfl, cleared_eq_leftover, ⟨_, rfl, rfl⟩, rfl, _, _, rfl, rfl, rfl, rfl⟩

end NostalgiaConv.StaleStack
