/-
The launches of scripts over the one private Lua state, `gL`.

`vm::LaunchVM` makes a thread of `gL` for a script and stores three things in the
registry that all threads share: the thread, the compiled function and a pointer to
a `SharedVMState_t`. The index of the last is the upvalue of the closure it pushes
on the host, and of the closures that one pushes in turn. References are never given
back, so as long as scripts compile every index keeps its meaning. When one does not
compile, `LaunchVM` calls `lua_close` on the thread, and `lua_close` closes the state.
-/
import NostalgiaConv.Host
import NostalgiaConv.Transition
import Mathlib.Data.List.Nodup
import Mathlib.Data.Nat.Find

set_option autoImplicit false

namespace NostalgiaConv.Launches

open NostalgiaConv.Host NostalgiaConv.Transition

/-! ## The registry -/

/-- A value of the private state; a thread and a `new` object are known by their number. -/
inductive Value (Func : Type) where
  | number (n : Int)
  | thread (L : Nat)
  | function (f : Func)
  | lightuserdata (p : Nat)
  deriving DecidableEq

variable {Func Script : Type}

/-- The registry at integer keys. -/
structure RegTable (Func : Type) where
  get : Int → Option (Value Func)
  finite : ∃ bound : Nat, ∀ n : Int, bound < n → get n = none

namespace RegTable

def empty : RegTable Func := ⟨fun _ => none, 0, fun _ _ => rfl⟩

/-- `lua_rawseti` -/
def set (t : RegTable Func) (n : Int) (v : Option (Value Func)) : RegTable Func where
  get := Function.update t.get n v
  finite := by
    obtain ⟨bound, h⟩ := t.finite
    refine ⟨max bound n.toNat, fun m hm => ?_⟩
    rw [Function.update_of_ne (by omega)]
    exact h m (by omega)

end RegTable

/-- What `luaH_getn` returns: an entry, or zero, with no entry after it. -/
structure Border (t : RegTable Func) (n : Nat) : Prop where
  here : n = 0 ∨ t.get n ≠ none
  next : t.get (n + 1) = none

def FREELIST_REF : Int := 0

/-- `lua_tointeger`; a value that is no number counts as zero. -/
def lua_tointeger : Option (Value Func) → Int
  | some (.number n) => n
  | _ => 0

/-- `luaL_ref` on the registry, for a value that is not nil: the reference, and the
table. -/
def luaL_ref (getn : RegTable Func → Nat) (v : Value Func) (t : RegTable Func) :
    Int × RegTable Func :=
  let ref := lua_tointeger (t.get FREELIST_REF)
  if ref ≠ 0 then
    let t := t.set FREELIST_REF (t.get ref)
    (ref, t.set ref (some v))
  else
    let ref := (getn t : Int) + 1
    (ref, t.set ref (some v))

section

variable {getn : RegTable Func → Nat} {t : RegTable Func}

/-- Without a free list a reference is one that had no value. -/
theorem luaL_ref_new (hgetn : ∀ t, Border t (getn t)) (h0 : t.get FREELIST_REF = none)
    (v : Value Func) :
    0 < (luaL_ref getn v t).1 ∧ t.get (luaL_ref getn v t).1 = none
      ∧ (luaL_ref getn v t).2 = t.set (luaL_ref getn v t).1 (some v) := by
  have hfree : ¬ lua_tointeger (t.get FREELIST_REF) ≠ 0 := by
    rw [h0]
    exact fun h => h rfl
  unfold luaL_ref
  simp only [if_neg hfree]
  exact ⟨by omega, (hgetn t).next, trivial⟩

end

/-! ## Launches -/

structure SharedVMState where
  RS : Addr
  L : Nat
  funcIndex : Int
  deriving DecidableEq

/-- The functions that are registered with the host with an index for an upvalue. -/
inductive HostFunction where
  | LaunchVMClosure
  | CallVMClosure
  | ResumeVMClosure
  | ResumeVMClosureInternal
  deriving DecidableEq

/-- A closure on the host; `launch` is the number of the launch it goes back to, which is
not in the program. -/
structure HostClosure where
  fn : HostFunction
  index : Int
  launch : Nat

/-- What a launch has done. -/
structure Launch (Func : Type) where
  RS : Addr
  L : Nat
  func : Func
  funcIndex : Int
  index : Int

/-- `gL` and what hangs on it. `launches` is not in the program: it is the history. -/
structure Shared (Func : Type) where
  isOpen : Bool
  registry : RegTable Func
  threads : Nat
  states : List SharedVMState
  closures : List HostClosure
  launches : List (Launch Func)

/-- `luaL_newstate` -/
def luaL_newstate : Shared Func := ⟨true, .empty, 0, [], [], []⟩

/-- What is used of the private Lua: the length of a table, and the compiler, which may
refuse a script. -/
structure Lua (Script Func : Type) where
  luaH_getn : RegTable Func → Nat
  luaL_loadbuffer : Script → Option Func

inductive Action (Script : Type) where
  | launch (RS : Addr) (script : Script)
  | invoke (closure : Nat) (yields : Bool)

section

variable (M : Lua Script Func)

/-- `luaL_ref(L, LUA_REGISTRYINDEX)`, on any thread. -/
def Shared.ref (v : Value Func) (s : Shared Func) : Shared Func :=
  { s with registry := (luaL_ref M.luaH_getn v s.registry).2 }

/-- `lua_close`, on any thread: only the main thread can be closed. -/
def lua_close (s : Shared Func) : Shared Func := { s with isOpen := false }

/-- The index, and the state afterwards. -/
def CreateSharedVMState (RS : Addr) (L : Nat) (funcIndex : Int) (s : Shared Func) :
    Int × Shared Func :=
  let newVMState := s.states.length
  let s := { s with states := s.states ++ [SharedVMState.mk RS L funcIndex] }
  let v := Value.lightuserdata newVMState
  ((luaL_ref M.luaH_getn v s.registry).1, s.ref M v)

/-- `none` where the program works on a state that is closed. -/
def LaunchVM (RS : Addr) (script : Script) (s : Shared Func) : Option (Shared Func) :=
  if s.isOpen then
    let L := s.threads
    let s := { s with threads := s.threads + 1 }.ref M (.thread L)
    match M.luaL_loadbuffer script with
    | some f =>
      let funcIndex := (luaL_ref M.luaH_getn (.function f) s.registry).1
      let created := CreateSharedVMState M RS L funcIndex (s.ref M (.function f))
      let s := created.2
      some { s with
        closures := s.closures ++ [⟨.LaunchVMClosure, created.1, s.launches.length⟩]
        launches := s.launches ++ [⟨RS, L, f, funcIndex, created.1⟩] }
    | none => some (lua_close s)
  else none

/-- `lua_rawgeti(gL, LUA_REGISTRYINDEX, index)` and what it points to. -/
def information (s : Shared Func) (index : Int) : Option SharedVMState :=
  if s.isOpen then
    match s.registry.get index with
    | some (.lightuserdata p) => s.states[p]?
    | _ => none
  else none

/-- `lua_rawgeti(information->L, LUA_REGISTRYINDEX, information->funcIndex)`, a function. -/
def functionAt (s : Shared Func) (funcIndex : Int) : Option Func :=
  if s.isOpen then
    match s.registry.get funcIndex with
    | some (.function f) => some f
    | _ => none
  else none

/-- `rbx_pushcclosure`, with the index of `c`. -/
def Shared.pushcclosure (fn : HostFunction) (c : HostClosure) (s : Shared Func) : Shared Func :=
  { s with closures := s.closures ++ [{ c with fn := fn }] }

/-- The resume handler, if the call yields. -/
def Shared.handler (yields : Bool) (c : HostClosure) (s : Shared Func) : Shared Func :=
  if yields then s.pushcclosure .ResumeVMClosure c else s

/-- What a closure does with `gL`, and the closures it pushes; `none` where it finds no
state, or no function. -/
def invoke (c : HostClosure) (yields : Bool) (s : Shared Func) : Option (Shared Func) :=
  match c.fn with
  | .LaunchVMClosure =>
    (information s c.index).map (fun _ => (s.pushcclosure .CallVMClosure c).handler yields c)
  | .CallVMClosure =>
    (information s c.index).bind (fun info => (functionAt s info.funcIndex).map (fun _ => s))
  | .ResumeVMClosure => some ((s.pushcclosure .ResumeVMClosureInternal c).handler yields c)
  | .ResumeVMClosureInternal => (information s c.index).map (fun _ => s)

/-- A closure is invoked by its position; an action on none does nothing. -/
def step (s : Shared Func) : Action Script → Option (Shared Func)
  | .launch RS script => LaunchVM M RS script s
  | .invoke closure yields =>
    match s.closures[closure]? with
    | some c => invoke c yields s
    | none => some s

end

/-! ## What stays usable -/

/-- The index of a launch leads to its state, and that to its function. -/
structure Resolves (s : Shared Func) (l : Launch Func) : Prop where
  state : information s l.index = some ⟨l.RS, l.L, l.funcIndex⟩
  function : functionAt s l.funcIndex = some l.func

/-- `gL` is open, all launches resolve, every closure has the index of its launch, and
no two launches share one. -/
structure Usable (s : Shared Func) : Prop where
  isOpen : s.isOpen = true
  launches : ∀ l ∈ s.launches, Resolves s l
  closures : ∀ c ∈ s.closures, ∃ l, s.launches[c.launch]? = some l ∧ c.index = l.index
  distinct : (s.launches.map Launch.index).Nodup

/-- Between two actions; there is no free list. -/
structure Good (s : Shared Func) : Prop where
  usable : Usable s
  freelist : s.registry.get FREELIST_REF = none

/-- All that is in the registry, and all states, are as they were. -/
structure Kept (s s' : Shared Func) : Prop where
  isOpen : s'.isOpen = s.isOpen
  registry : ∀ n v, s.registry.get n = some v → s'.registry.get n = some v
  states : ∀ (p : Nat) state, s.states[p]? = some state → s'.states[p]? = some state

section

variable {M : Lua Script Func} {s s' s'' : Shared Func}

theorem Kept.trans (h : Kept s s') (h' : Kept s' s'') : Kept s s'' :=
  ⟨h'.isOpen.trans h.isOpen, fun n v hn => h'.registry n v (h.registry n v hn),
    fun p state hp => h'.states p state (h.states p state hp)⟩

theorem information_eq_some {index : Int} {state : SharedVMState} :
    information s index = some state ↔ s.isOpen = true
      ∧ ∃ p, s.registry.get index = some (.lightuserdata p) ∧ s.states[p]? = some state := by
  unfold information
  by_cases hopen : s.isOpen = true
  · rw [if_pos hopen]
    cases hv : s.registry.get index with
    | none => exact ⟨nofun, nofun⟩
    | some v =>
      cases v with
      | lightuserdata p =>
        refine ⟨fun h => ⟨hopen, p, rfl, h⟩, ?_⟩
        rintro ⟨-, p', hp', h⟩
        rw [(Value.lightuserdata.inj (Option.some.inj hp'))]
        exact h
      | _ => exact ⟨nofun, nofun⟩
  · rw [if_neg hopen]
    exact ⟨nofun, fun h => absurd h.1 hopen⟩

theorem functionAt_eq_some {index : Int} {f : Func} :
    functionAt s index = some f ↔ s.isOpen = true ∧ s.registry.get index = some (.function f) := by
  unfold functionAt
  by_cases hopen : s.isOpen = true
  · rw [if_pos hopen]
    cases hv : s.registry.get index with
    | none => exact ⟨nofun, nofun⟩
    | some v =>
      cases v with
      | function f' =>
        refine ⟨fun h => ⟨hopen, by rw [Option.some.inj h]⟩, fun h => ?_⟩
        rw [Value.function.inj (Option.some.inj h.2)]
      | _ => exact ⟨nofun, nofun⟩
  · rw [if_neg hopen]
    exact ⟨nofun, fun h => absurd h.1 hopen⟩

theorem Kept.resolves {l : Launch Func} (h : Kept s s') (hl : Resolves s l) : Resolves s' l := by
  obtain ⟨hopen, p, hp, hstate⟩ := information_eq_some.mp hl.state
  obtain ⟨-, hfunction⟩ := functionAt_eq_some.mp hl.function
  have hopen' : s'.isOpen = true := h.isOpen.trans hopen
  exact ⟨information_eq_some.mpr ⟨hopen', p, h.registry _ _ hp, h.states _ _ hstate⟩,
    functionAt_eq_some.mpr ⟨hopen', h.registry _ _ hfunction⟩⟩

/-- **A reference.** It is stored where nothing was. -/
theorem ref_spec (hgetn : ∀ t, Border t (M.luaH_getn t)) (h0 : s.registry.get FREELIST_REF = none)
    (v : Value Func) :
    Kept s (s.ref M v) ∧ (s.ref M v).registry.get FREELIST_REF = none
      ∧ s.registry.get (luaL_ref M.luaH_getn v s.registry).1 = none
      ∧ (s.ref M v).registry.get (luaL_ref M.luaH_getn v s.registry).1 = some v := by
  obtain ⟨hpos, hnone, hset⟩ := luaL_ref_new hgetn h0 v
  have hget : (s.ref M v).registry.get = Function.update s.registry.get
      (luaL_ref M.luaH_getn v s.registry).1 (some v) := by
    show (luaL_ref M.luaH_getn v s.registry).2.get = _
    rw [hset]
    rfl
  refine ⟨⟨rfl, fun n w hn => ?_, fun _ _ h => h⟩, ?_, hnone, ?_⟩
  · rw [hget]
    by_cases hn' : n = (luaL_ref M.luaH_getn v s.registry).1
    · subst hn'
      rw [hnone] at hn
      exact nomatch hn
    · rw [Function.update_of_ne hn']
      exact hn
  · rw [hget, Function.update_of_ne (by unfold FREELIST_REF; omega)]
    exact h0
  · rw [hget, Function.update_self]

theorem getElem?_append_of_some {α : Type} {l l' : List α} {n : Nat} {a : α}
    (h : l[n]? = some a) : (l ++ l')[n]? = some a := by
  obtain ⟨hlt, -⟩ := List.getElem?_eq_some_iff.mp h
  rw [List.getElem?_append_left hlt]
  exact h

/-- A new state, at an index that had no value. -/
theorem createSharedVMState_spec (hgetn : ∀ t, Border t (M.luaH_getn t))
    (h0 : s.registry.get FREELIST_REF = none) (RS : Addr) (L : Nat) (funcIndex : Int) :
    Kept s (CreateSharedVMState M RS L funcIndex s).2
      ∧ (CreateSharedVMState M RS L funcIndex s).2.registry.get FREELIST_REF = none
      ∧ s.registry.get (CreateSharedVMState M RS L funcIndex s).1 = none
      ∧ (s.isOpen = true → information (CreateSharedVMState M RS L funcIndex s).2
          (CreateSharedVMState M RS L funcIndex s).1 = some ⟨RS, L, funcIndex⟩) := by
  let t : Shared Func := { s with states := s.states ++ [SharedVMState.mk RS L funcIndex] }
  have hstates : Kept s t :=
    ⟨rfl, fun _ _ h => h, fun p state hp => getElem?_append_of_some hp⟩
  obtain ⟨hkept, hfreelist, hnone, hsome⟩ := ref_spec (s := t) hgetn h0
    (.lightuserdata s.states.length)
  refine ⟨hstates.trans hkept, hfreelist, hnone, fun hopen => ?_⟩
  refine information_eq_some.mpr ⟨hopen, s.states.length, hsome, ?_⟩
  exact List.getElem?_concat_length

/-- A launch is added at an index that no other has. -/
theorem Good.add_launch (hI : Good s) (hkept : Kept s s') (hfreelist : s'.registry.get FREELIST_REF = none)
    (hlaunches : s'.launches = s.launches) (hclosures : s'.closures = s.closures)
    {l : Launch Func} (hl : Resolves s' l) (hnew : s.registry.get l.index = none) :
    Good { s' with
      closures := s'.closures ++ [⟨.LaunchVMClosure, l.index, s'.launches.length⟩]
      launches := s'.launches ++ [l] } := by
  have hU := hI.usable
  have hresolves : ∀ l' ∈ s.launches ++ [l], Resolves s' l' := by
    intro l' hl'
    rcases List.mem_append.mp hl' with hold | hsingle
    · exact hkept.resolves (hU.launches l' hold)
    · rw [List.mem_singleton.mp hsingle]
      exact hl
  rw [hlaunches, hclosures]
  refine ⟨⟨hkept.isOpen.trans hU.isOpen, ?_, ?_, ?_⟩, hfreelist⟩
  · intro l' hl'
    exact ⟨(hresolves l' hl').state, (hresolves l' hl').function⟩
  · intro c hc
    rcases List.mem_append.mp hc with hold | hsingle
    · obtain ⟨l', hl', hindex⟩ := hU.closures c hold
      exact ⟨l', getElem?_append_of_some hl', hindex⟩
    · rw [List.mem_singleton.mp hsingle]
      exact ⟨l, List.getElem?_concat_length, rfl⟩
  · show ((s.launches ++ [l]).map Launch.index).Nodup
    rw [List.map_append, List.nodup_append]
    refine ⟨hU.distinct, List.nodup_singleton _, ?_⟩
    intro index hindex index' hindex' heq
    obtain ⟨l', hl', rfl⟩ := List.mem_map.mp hindex
    rw [List.map_singleton, List.mem_singleton] at hindex'
    -- an index that is in use has a value
    obtain ⟨-, p, hp, -⟩ := information_eq_some.mp (hU.launches l' hl').state
    rw [heq, hindex', hnew] at hp
    exact nomatch hp

/-- **A launch that compiles.** -/
theorem launchVM_some (hgetn : ∀ t, Border t (M.luaH_getn t)) (hI : Good s) (RS : Addr)
    {script : Script} {f : Func} (hload : M.luaL_loadbuffer script = some f) :
    ∃ s' l, LaunchVM M RS script s = some s' ∧ Good s' ∧ s'.launches = s.launches ++ [l]
      ∧ s'.closures = s.closures ++ [⟨.LaunchVMClosure, l.index, s.launches.length⟩]
      ∧ l.RS = RS ∧ l.func = f := by
  -- three references: the thread, the function, the state
  let s₁ := { s with threads := s.threads + 1 }.ref M (.thread s.threads)
  let fi := (luaL_ref M.luaH_getn (.function f) s₁.registry).1
  let s₂ := s₁.ref M (.function f)
  let created := CreateSharedVMState M RS s.threads fi s₂
  obtain ⟨hkept₁, hfree₁, -, -⟩ := ref_spec (s := { s with threads := s.threads + 1 }) hgetn
    hI.freelist (.thread s.threads)
  obtain ⟨hkept₂, hfree₂, -, hfunction⟩ := ref_spec (s := s₁) hgetn hfree₁ (.function f)
  obtain ⟨hkept₃, hfree₃, hnew, hstate⟩ := createSharedVMState_spec (s := s₂) hgetn hfree₂ RS
    s.threads fi
  have hkept₀ : Kept s { s with threads := s.threads + 1 } := ⟨rfl, fun _ _ h => h, fun _ _ h => h⟩
  have hkept₂ : Kept s s₂ := (hkept₀.trans hkept₁).trans hkept₂
  have hopen : s₂.isOpen = true := hkept₂.isOpen.trans hI.usable.isOpen
  have hfunction' : functionAt created.2 fi = some f :=
    functionAt_eq_some.mpr ⟨hkept₃.isOpen.trans hopen, hkept₃.registry _ _ hfunction⟩
  let l : Launch Func := ⟨RS, s.threads, f, fi, created.1⟩
  -- nothing is ever taken out, so an index that is new now was new at the start
  have hnone : s.registry.get created.1 = none := by
    by_contra hsome
    obtain ⟨v, hv⟩ := Option.ne_none_iff_exists'.mp hsome
    rw [hkept₂.registry _ _ hv] at hnew
    exact nomatch hnew
  refine ⟨_, l, ?_, hI.add_launch (hkept₂.trans hkept₃) hfree₃ rfl rfl (l := l)
    ⟨hstate hopen, hfunction'⟩ hnone, rfl, rfl, rfl, rfl⟩
  unfold LaunchVM
  rw [if_pos hI.usable.isOpen, hload]

/-- A launch that does not compile closes the state, if it was not closed before. -/
theorem launchVM_none {RS : Addr} {script : Script} (hload : M.luaL_loadbuffer script = none)
    (h : LaunchVM M RS script s = some s') : s'.isOpen = false := by
  unfold LaunchVM at h
  by_cases hopen : s.isOpen = true
  · rw [if_pos hopen, hload] at h
    obtain rfl := Option.some.inj h
    rfl
  · rw [if_neg hopen] at h
    exact nomatch h

/-- The closures of a launch that does not compile are those before it. -/
theorem launchVM_close (hopen : s.isOpen = true) (RS : Addr) {script : Script}
    (hload : M.luaL_loadbuffer script = none) :
    ∃ s', LaunchVM M RS script s = some s' ∧ s'.isOpen = false ∧ s'.closures = s.closures := by
  unfold LaunchVM
  rw [if_pos hopen, hload]
  exact ⟨_, rfl, rfl, rfl⟩

/-- Pushing a closure with the index of one that is there. -/
theorem Good.pushcclosure (hI : Good s) {c : HostClosure}
    (hc : ∃ l, s.launches[c.launch]? = some l ∧ c.index = l.index) (fn : HostFunction) :
    Good (s.pushcclosure fn c) := by
  refine ⟨⟨hI.usable.isOpen, fun l hl => ?_, fun c' hc' => ?_, hI.usable.distinct⟩, hI.freelist⟩
  · exact ⟨(hI.usable.launches l hl).state, (hI.usable.launches l hl).function⟩
  · rcases List.mem_append.mp hc' with hold | hsingle
    · exact hI.usable.closures c' hold
    · rw [List.mem_singleton.mp hsingle]
      exact hc

theorem Good.handler (hI : Good s) {c : HostClosure}
    (hc : ∃ l, s.launches[c.launch]? = some l ∧ c.index = l.index) (yields : Bool) :
    Good (s.handler yields c) := by
  unfold Shared.handler
  by_cases hy : yields = true
  · rw [if_pos hy]
    exact hI.pushcclosure hc _
  · rw [if_neg hy]
    exact hI

theorem handler_launches (yields : Bool) (c : HostClosure) (s : Shared Func) :
    (s.handler yields c).launches = s.launches := by
  unfold Shared.handler
  by_cases hy : yields = true
  · rw [if_pos hy]
    rfl
  · rw [if_neg hy]

theorem handler_isOpen (yields : Bool) (c : HostClosure) (s : Shared Func) :
    (s.handler yields c).isOpen = s.isOpen := by
  unfold Shared.handler
  by_cases hy : yields = true
  · rw [if_pos hy]
    rfl
  · rw [if_neg hy]

/-- **An invocation.** The closure finds its state and its function. -/
theorem invoke_spec (hI : Good s) {c : HostClosure} (hmem : c ∈ s.closures) (yields : Bool) :
    ∃ s', invoke c yields s = some s' ∧ Good s' ∧ s'.launches = s.launches := by
  obtain ⟨l, hl, hindex⟩ := hI.usable.closures c hmem
  have hc : ∃ l, s.launches[c.launch]? = some l ∧ c.index = l.index := ⟨l, hl, hindex⟩
  have hresolves := hI.usable.launches l (List.mem_of_getElem? hl)
  have hinfo : information s c.index = some ⟨l.RS, l.L, l.funcIndex⟩ := by
    rw [hindex]
    exact hresolves.state
  unfold invoke
  cases c.fn with
  | LaunchVMClosure =>
    rw [hinfo]
    exact ⟨_, rfl, (hI.pushcclosure hc .CallVMClosure).handler hc yields, handler_launches _ _ _⟩
  | CallVMClosure =>
    rw [hinfo]
    simp only [Option.bind_some, hresolves.function]
    exact ⟨s, rfl, hI, rfl⟩
  | ResumeVMClosure =>
    exact ⟨_, rfl, (hI.pushcclosure hc .ResumeVMClosureInternal).handler hc yields,
      handler_launches _ _ _⟩
  | ResumeVMClosureInternal =>
    rw [hinfo]
    exact ⟨s, rfl, hI, rfl⟩

/-- A closed state is not opened again. -/
theorem step_closed (hclosed : s.isOpen = false) {a : Action Script}
    (h : step M s a = some s') : s'.isOpen = false := by
  have hopen : ¬ s.isOpen = true := by
    rw [hclosed]
    exact Bool.false_ne_true
  have hinfo : ∀ index, information s index = none := fun index => if_neg hopen
  cases a with
  | launch RS script =>
    unfold step LaunchVM at h
    simp only at h
    rw [if_neg hopen] at h
    exact nomatch h
  | invoke closure yields =>
    unfold step at h
    simp only at h
    cases hc : s.closures[closure]? with
    | none =>
      rw [hc] at h
      obtain rfl := Option.some.inj h
      exact hclosed
    | some c =>
      rw [hc] at h
      unfold invoke at h
      cases hfn : c.fn with
      | ResumeVMClosure =>
        simp only [hfn] at h
        obtain rfl := Option.some.inj h
        exact (handler_isOpen _ _ _).trans hclosed
      | _ =>
        simp only [hfn, hinfo] at h
        exact nomatch h

end

/-! ## Histories -/

section

variable (M : Lua Script Func)

/-- What an action launches. -/
def launchOf : Action Script → Option (Addr × Func)
  | .launch RS script => (M.luaL_loadbuffer script).map (fun f => (RS, f))
  | .invoke _ _ => none

/-- Every script that is launched compiles. -/
def Compiles (as : List (Action Script)) : Prop :=
  ∀ RS script, .launch RS script ∈ as → ∃ f, M.luaL_loadbuffer script = some f

/-- The history of `s` is that of `as`. -/
def Launched (as : List (Action Script)) (s : Shared Func) : Prop :=
  s.launches.map (fun l => (l.RS, l.func)) = as.filterMap (launchOf M)

variable {M} {s s' : Shared Func}

theorem good_newstate : Good (luaL_newstate : Shared Func) :=
  ⟨⟨rfl, fun _ h => (nomatch h), fun _ h => (nomatch h), List.nodup_nil⟩, rfl⟩

/-- **One action.** -/
theorem step_good (hgetn : ∀ t, Border t (M.luaH_getn t)) (hI : Good s) {a : Action Script}
    (ha : ∀ RS script, a = .launch RS script → ∃ f, M.luaL_loadbuffer script = some f) :
    ∃ s', step M s a = some s' ∧ Good s' ∧ s'.launches.map (fun l => (l.RS, l.func))
      = s.launches.map (fun l => (l.RS, l.func)) ++ (launchOf M a).toList := by
  cases a with
  | launch RS script =>
    obtain ⟨f, hload⟩ := ha RS script rfl
    obtain ⟨s', l, hrun, hgood, hlaunches, -, rfl, rfl⟩ := launchVM_some hgetn hI RS hload
    refine ⟨s', hrun, hgood, ?_⟩
    rw [hlaunches, List.map_append, launchOf, hload]
    rfl
  | invoke closure yields =>
    cases hc : s.closures[closure]? with
    | none =>
      refine ⟨s, ?_, hI, (List.append_nil _).symm⟩
      simp only [step, hc]
    | some c =>
      obtain ⟨s', hrun, hgood, hlaunches⟩ := invoke_spec hI (List.mem_of_getElem? hc) yields
      refine ⟨s', ?_, hgood, ?_⟩
      · simp only [step, hc]
        exact hrun
      · rw [hlaunches]
        exact (List.append_nil _).symm

theorem run_good (hgetn : ∀ t, Border t (M.luaH_getn t)) (as : List (Action Script)) :
    ∀ s : Shared Func, Good s → Compiles M as → ∃ s', runActions (step M) s as = some s' ∧ Good s'
      ∧ s'.launches.map (fun l => (l.RS, l.func))
        = s.launches.map (fun l => (l.RS, l.func)) ++ as.filterMap (launchOf M) := by
  induction as with
  | nil =>
    intro s hI _
    exact ⟨s, rfl, hI, (List.append_nil _).symm⟩
  | cons a as ih =>
    intro s hI hcompiles
    obtain ⟨s₁, hstep, hI₁, hlaunches₁⟩ := step_good hgetn hI (a := a)
      (fun RS script ha => hcompiles RS script (ha ▸ List.mem_cons_self))
    obtain ⟨s', hrun, hI', hlaunches'⟩ := ih s₁ hI₁
      (fun RS script ha => hcompiles RS script (List.mem_cons_of_mem _ ha))
    refine ⟨s', ?_, hI', ?_⟩
    · rw [runActions, hstep]
      exact hrun
    · rw [hlaunches', hlaunches₁, List.append_assoc]
      congr 1
      cases hl : launchOf M a with
      | none => rw [List.filterMap_cons_none hl]; rfl
      | some l => rw [List.filterMap_cons_some hl]; rfl

theorem run_closed (as : List (Action Script)) :
    ∀ s : Shared Func, s.isOpen = false → runActions (step M) s as = some s' →
      s'.isOpen = false := by
  induction as with
  | nil =>
    intro s hclosed hrun
    obtain rfl := Option.some.inj hrun
    exact hclosed
  | cons a as ih =>
    intro s hclosed hrun
    obtain ⟨s₁, hstep, hrest⟩ := Option.bind_eq_some_iff.mp hrun
    exact ih s₁ (step_closed hclosed hstep) hrest

/-- A script that does not compile leaves `gL` closed, wherever it is launched. -/
theorem run_failed {RS : Addr} {script : Script} (hload : M.luaL_loadbuffer script = none)
    (as : List (Action Script)) :
    ∀ s : Shared Func, .launch RS script ∈ as → runActions (step M) s as = some s' →
      s'.isOpen = false := by
  induction as with
  | nil =>
    intro s hmem _
    exact nomatch hmem
  | cons a as ih =>
    intro s hmem hrun
    obtain ⟨s₁, hstep, hrest⟩ := Option.bind_eq_some_iff.mp hrun
    rcases List.mem_cons.mp hmem with rfl | htail
    -- the failed launch itself, and everything after it
    · exact run_closed as s₁ (launchVM_none hload hstep) hrest
    · exact ih s₁ htail hrest

/-- **Launches over whole histories.** A sequence of launches and invocations leaves `gL`
open and every launch usable, each under an index of its own, if and only if every
script in it compiles. -/
theorem launches_usable_iff (hgetn : ∀ t, Border t (M.luaH_getn t)) (as : List (Action Script)) :
    (∃ s, runActions (step M) luaL_newstate as = some s ∧ Usable s ∧ Launched M as s)
      ↔ Compiles M as := by
  constructor
  · rintro ⟨s, hrun, husable, -⟩ RS script hmem
    cases hload : M.luaL_loadbuffer script with
    | some f => exact ⟨f, rfl⟩
    | none =>
      have hclosed := run_failed hload as _ hmem hrun
      rw [husable.isOpen] at hclosed
      exact nomatch hclosed
  · intro hcompiles
    obtain ⟨s, hrun, hgood, hlaunches⟩ := run_good hgetn as _ good_newstate hcompiles
    exact ⟨s, hrun, hgood.usable, hlaunches⟩

end

/-! ## Two launches -/

theorem exists_next_none (t : RegTable Func) : ∃ n : Nat, t.get (n + 1) = none := by
  obtain ⟨bound, h⟩ := t.finite
  exact ⟨bound, h _ (by omega)⟩

instance (o : Option (Value Func)) : Decidable (o = none) :=
  decidable_of_iff (o.isNone = true) Option.isNone_iff_eq_none

/-- The first border. -/
def leastBorder (t : RegTable Func) : Nat := Nat.find (exists_next_none t)

theorem leastBorder_border (t : RegTable Func) : Border t (leastBorder t) := by
  refine ⟨?_, Nat.find_spec (exists_next_none t)⟩
  cases hn : leastBorder t with
  | zero => exact Or.inl rfl
  | succ n =>
    have hmin := Nat.find_min (exists_next_none t) (m := n) (by unfold leastBorder at hn; omega)
    exact Or.inr (by exact_mod_cast hmin)

/-- A compiler that refuses `x =`; a function is its source. -/
def compiler : Lua String String where
  luaH_getn := leastBorder
  luaL_loadbuffer script := if script = "x =" then none else some script

/-- Two scripts and both of their closures. -/
def twoLaunches : List (Action String) :=
  [.launch 0x1000 "f()", .launch 0x2000 "g()", .invoke 0 true, .invoke 1 false]

theorem compiles_twoLaunches : Compiles compiler twoLaunches := by
  intro RS script hmem
  simp only [twoLaunches, List.mem_cons, List.not_mem_nil, or_false, reduceCtorEq] at hmem
  rcases hmem with h | h <;>
    · obtain ⟨rfl, rfl⟩ := Action.launch.inj h
      exact ⟨_, rfl⟩

theorem launches_usable_twoLaunches :
    ∃ s, runActions (step compiler) luaL_newstate twoLaunches = some s ∧ Usable s
      ∧ Launched compiler twoLaunches s :=
  (launches_usable_iff leastBorder_border twoLaunches).mpr compiles_twoLaunches

/-- **A launch that fails takes the others with it.** After `f()` was launched, `x =` does
not compile; the closure of `f()` then works on a state that is closed. -/
theorem failed_launch_closes : ∃ s c,
    runActions (step compiler) luaL_newstate [.launch 0x1000 "f()", .launch 0x2000 "x ="] = some s
      ∧ c ∈ s.closures ∧ c.fn = .LaunchVMClosure ∧ s.isOpen = false
      ∧ invoke c false s = none := by
  have hcompiles : compiler.luaL_loadbuffer "f()" = some "f()" := rfl
  have hrefused : compiler.luaL_loadbuffer "x =" = none := rfl
  obtain ⟨s₁, l, hrun₁, hgood₁, -, hclosures, -, -⟩ :=
    launchVM_some leastBorder_border good_newstate 0x1000 hcompiles
  obtain ⟨s₂, hrun₂, hclosed, hclosures₂⟩ := launchVM_close hgood₁.usable.isOpen 0x2000 hrefused
  let c : HostClosure := ⟨.LaunchVMClosure, l.index, 0⟩
  refine ⟨s₂, c, ?_, ?_, rfl, hclosed, ?_⟩
  · rw [runActions, step, hrun₁]
    show (LaunchVM compiler 0x2000 "x =" s₁).bind _ = _
    rw [hrun₂]
    rfl
  · rw [hclosures₂, hclosures]
    exact List.mem_append_right _ (List.mem_singleton_self _)
  · have hopen : ¬ s₂.isOpen = true := by
      rw [hclosed]
      exact Bool.false_ne_true
    show (information s₂ l.index).map _ = none
    rw [information, if_neg hopen]
    rfl

end NostalgiaConv.Launches
