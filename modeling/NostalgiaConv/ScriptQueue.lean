/-
The script queue of `entry.cpp`.

Any number of threads call `ExecuteFunction`, which appends one script under
`scriptListMtx`; the host's render thread calls `RenderSteppedFunc` at every
frame, which drains the queue under the same mutex. The drain is a range-`for`
over the vector, whose end is taken once at the start, with a `pop_back` of the
same vector in its body: the element read in round `it` is element `it`, of a
vector that has lost its last element in every round before. The model takes one
step for every statement that touches the shared state.
-/
import NostalgiaConv.Host
import NostalgiaConv.Transition

set_option autoImplicit false

namespace NostalgiaConv.ScriptQueue

open NostalgiaConv.Host NostalgiaConv.Transition

/-! ## The state -/

/-- What a `const char*` denotes. A `std::string` made from it holds its bytes, and
`c_str()` of that gives them back. -/
structure Script where
  bytes : List Byte
  noZero : 0 ∉ bytes

/-- Where a thread is in `ExecuteFunction`. -/
inductive ExecutePc where
  | idle
  | entered (script : Script) -- at the lock guard
  | locked (script : Script) -- at `push_back`
  | pushed -- at the end of the scope

/-- Where the render thread is in `RenderSteppedFunc`. -/
inductive RenderPc where
  | idle
  | entered -- at the lock guard
  | loop (it last : Nat) -- at `it != end`
  | body (it last : Nat) (script : Script) -- at `pop_back`
  | launch (it last : Nat) (script : Script) -- at the launch
  | clear -- at `scriptList.clear()`
  | drained -- at the end of the scope
  | fault -- an element past the end was read

/-- Who holds the mutex: the render thread, or a thread in `ExecuteFunction`. -/
inductive Owner (T : Type) where
  | render
  | execute (t : T)

/-- The globals, the threads, and two records of the run: the scripts appended so
far and the scripts handed to `vm::LaunchVM` so far. -/
structure State (T : Type) where
  vState : Bool
  scriptList : List Script
  scriptListMtx : Option (Owner T)
  execute : T → ExecutePc
  render : RenderPc
  appended : List Script
  launched : List Script

variable {T : Type} [DecidableEq T]

def initial (T : Type) : State T where
  vState := true
  scriptList := []
  scriptListMtx := none
  execute := fun _ => .idle
  render := .idle
  appended := []
  launched := []

inductive Action (T : Type) where
  | execute (t : T) (script : Script) -- enter `ExecuteFunction(script)`
  | continue (t : T) -- one statement of it
  | tick -- enter `RenderSteppedFunc`
  | render -- one statement of it

/-! ## The steps -/

def State.setExecute (s : State T) (t : T) (pc : ExecutePc) : State T :=
  { s with execute := fun u => if u = t then pc else s.execute u }

/-- One statement of `ExecuteFunction` on thread `t`. -/
def executeStep (s : State T) (t : T) : Option (State T) :=
  match s.execute t with
  | .idle => none
  | .entered script =>
    match s.scriptListMtx with
    | some _ => none
    | none => some { s.setExecute t (.locked script) with scriptListMtx := some (.execute t) }
  | .locked script =>
    some { s.setExecute t .pushed with
      scriptList := s.scriptList ++ [script]
      appended := s.appended ++ [script] }
  | .pushed => some { s.setExecute t .idle with scriptListMtx := none }

/-- One statement of `RenderSteppedFunc`. -/
def renderStep (s : State T) : Option (State T) :=
  match s.render with
  | .idle => none
  | .entered =>
    match s.scriptListMtx with
    | some _ => none
    | none => some { s with
        scriptListMtx := some .render
        render := .loop 0 s.scriptList.length } -- `begin` and `end` are taken here
  | .loop it last =>
    if it = last then some { s with render := .clear }
    else match s.scriptList[it]? with
      | some script => some { s with render := .body it last script }
      | none => some { s with render := .fault }
  | .body it last script =>
    some { s with scriptList := s.scriptList.dropLast, render := .launch it last script }
  | .launch it last script =>
    some { s with launched := s.launched ++ [script], render := .loop (it + 1) last }
  | .clear => some { s with scriptList := [], render := .drained }
  | .drained => some { s with scriptListMtx := none, render := .idle }
  | .fault => none

def step (s : State T) : Action T → Option (State T)
  | .execute t script =>
    match s.execute t with
    | .idle => some (s.setExecute t (.entered script))
    | _ => none
  | .continue t => executeStep s t
  | .tick =>
    match s.render with
    | .idle => some (if s.vState then { s with render := .entered } else s)
    | _ => none
  | .render => renderStep s

/-- The drain starts with at most one script in the queue. -/
def AtMostOne (s : State T) (a : Action T) : Prop :=
  a = .render → s.render = .entered → s.scriptList.length ≤ 1

/-! ## Mutual exclusion -/

/-- Inside the scope of the lock guard. -/
def RenderPc.inside : RenderPc → Prop
  | .idle | .entered => False
  | _ => True

def ExecutePc.inside : ExecutePc → Prop
  | .idle | .entered _ => False
  | _ => True

/-- Whoever is inside holds the mutex. -/
structure Excl (s : State T) : Prop where
  render : s.render.inside → s.scriptListMtx = some .render
  execute : ∀ t, (s.execute t).inside → s.scriptListMtx = some (.execute t)

omit [DecidableEq T] in
theorem Excl.not_both {s : State T} (h : Excl s) {t : T} (ht : (s.execute t).inside) :
    ¬ s.render.inside := by
  intro hr
  have hmtx := h.render hr
  rw [h.execute t ht] at hmtx
  cases hmtx

/-- A thread that moves within the scope, or outside it, changes nothing for the
others. -/
theorem Excl.setExecute {s s' : State T} (h : Excl s) {t : T} {pc : ExecutePc}
    (hpc : pc.inside → (s.execute t).inside) (hexec : s'.execute = (s.setExecute t pc).execute)
    (hmtx : s'.scriptListMtx = s.scriptListMtx) (hrender : s'.render = s.render) : Excl s' := by
  refine ⟨fun hr => ?_, fun u hu => ?_⟩
  · rw [hmtx]
    rw [hrender] at hr
    exact h.render hr
  · rw [hexec] at hu
    rw [hmtx]
    -- only `t` has moved
    by_cases hut : u = t
    · subst hut
      rw [State.setExecute] at hu
      simp only [if_true] at hu
      exact h.execute u (hpc hu)
    · simp only [State.setExecute, if_neg hut] at hu
      exact h.execute u hu

theorem executeStep_excl {s s' : State T} {t : T} (h : Excl s) (hstep : executeStep s t = some s') :
    Excl s' := by
  unfold executeStep at hstep
  split at hstep
  · cases hstep
  · -- at the lock guard: whoever was inside would hold the mutex
    rename_i script hpc
    split at hstep
    · cases hstep
    · rename_i hfree
      obtain rfl := Option.some.inj hstep
      refine ⟨fun hr => ?_, fun u hu => ?_⟩
      · rw [h.render hr] at hfree
        cases hfree
      · by_cases hut : u = t
        · rw [hut]
        · simp only [State.setExecute, if_neg hut] at hu
          rw [h.execute u hu] at hfree
          cases hfree
  · rename_i script hpc
    obtain rfl := Option.some.inj hstep
    have hin : (s.execute t).inside := by
      rw [hpc]
      trivial
    exact h.setExecute (fun _ => hin) rfl rfl rfl
  · -- at the end of the scope: nobody else is inside
    rename_i hpc
    obtain rfl := Option.some.inj hstep
    have hin : (s.execute t).inside := by
      rw [hpc]
      trivial
    refine ⟨fun hr => absurd hr (h.not_both hin), fun u hu => ?_⟩
    by_cases hut : u = t
    · simp only [State.setExecute, if_pos hut] at hu
      exact hu.elim
    · simp only [State.setExecute, if_neg hut] at hu
      have hmtx := h.execute u hu
      rw [h.execute t hin] at hmtx
      obtain rfl := Owner.execute.inj (Option.some.inj hmtx)
      exact absurd rfl hut

omit [DecidableEq T] in
/-- A statement of the render thread inside the scope. -/
theorem Excl.inside {s s' : State T} (h : Excl s) (hin : s.render.inside)
    (hexec : s'.execute = s.execute) (hmtx : s'.scriptListMtx = s.scriptListMtx) : Excl s' := by
  refine ⟨fun _ => ?_, fun u hu => ?_⟩
  · rw [hmtx]
    exact h.render hin
  · rw [hexec] at hu
    exact absurd hin (h.not_both hu)

omit [DecidableEq T] in
theorem renderStep_excl {s s' : State T} (h : Excl s) (hstep : renderStep s = some s') :
    Excl s' := by
  unfold renderStep at hstep
  cases hpc : s.render with
  | idle | fault =>
    rw [hpc] at hstep
    cases hstep
  | entered =>
    -- the lock guard: the mutex was free, so no thread was inside
    simp only [hpc] at hstep
    split at hstep
    · cases hstep
    · rename_i hfree
      obtain rfl := Option.some.inj hstep
      refine ⟨fun _ => rfl, fun u hu => ?_⟩
      rw [h.execute u hu] at hfree
      cases hfree
  | drained =>
    have hin : s.render.inside := by
      rw [hpc]
      trivial
    simp only [hpc] at hstep
    obtain rfl := Option.some.inj hstep
    -- the guard's end: the mutex is free again, and nobody else was inside
    exact ⟨fun hr => hr.elim, fun u hu => absurd hin (h.not_both hu)⟩
  | loop it last =>
    have hin : s.render.inside := by
      rw [hpc]
      trivial
    simp only [hpc] at hstep
    by_cases hend : it = last
    · rw [if_pos hend] at hstep
      obtain rfl := Option.some.inj hstep
      exact h.inside hin rfl rfl
    · rw [if_neg hend] at hstep
      split at hstep <;> obtain rfl := Option.some.inj hstep <;> exact h.inside hin rfl rfl
  | body it last script | launch it last script | clear =>
    have hin : s.render.inside := by
      rw [hpc]
      trivial
    simp only [hpc] at hstep
    obtain rfl := Option.some.inj hstep
    exact h.inside hin rfl rfl

/-! ## Where the scripts are -/

/-- Appended is launched, then in the render thread's hands, then queued. The
drain, while it runs, has at most one round. -/
def Accounted (s : State T) : Prop :=
  match s.render with
  | .idle | .entered => s.appended = s.launched ++ s.scriptList
  | .loop it last =>
    (it = 0 ∧ last = s.scriptList.length ∧ last ≤ 1 ∧ s.appended = s.launched ++ s.scriptList)
      ∨ (it = last ∧ s.scriptList = [] ∧ s.appended = s.launched)
  | .body it last script =>
    it = 0 ∧ last = 1 ∧ s.scriptList = [script] ∧ s.appended = s.launched ++ [script]
  | .launch it last script =>
    it = 0 ∧ last = 1 ∧ s.scriptList = [] ∧ s.appended = s.launched ++ [script]
  | .clear | .drained => s.scriptList = [] ∧ s.appended = s.launched
  | .fault => False

omit [DecidableEq T] in
/-- Outside the scope of the render thread's lock guard. -/
theorem accounted_outside {s : State T} (hout : ¬ s.render.inside) :
    Accounted s ↔ s.appended = s.launched ++ s.scriptList := by
  unfold Accounted
  cases hpc : s.render with
  | idle | entered => rfl
  | _ =>
    rw [hpc] at hout
    exact absurd trivial hout

theorem executeStep_accounted {s s' : State T} {t : T} (hexcl : Excl s) (h : Accounted s)
    (hstep : executeStep s t = some s') : Accounted s' := by
  unfold executeStep at hstep
  split at hstep
  · cases hstep
  · split at hstep
    · cases hstep
    · obtain rfl := Option.some.inj hstep
      exact h
  · -- the script goes to the end of the queue, and the render thread is outside
    rename_i script hpc
    obtain rfl := Option.some.inj hstep
    have hout : ¬ s.render.inside := hexcl.not_both (by rw [hpc]; trivial)
    rw [accounted_outside hout] at h
    refine (accounted_outside (by exact hout)).mpr ?_
    show s.appended ++ [script] = s.launched ++ (s.scriptList ++ [script])
    rw [h, List.append_assoc]
  · obtain rfl := Option.some.inj hstep
    exact h

omit [DecidableEq T] in
theorem renderStep_accounted {s s' : State T} (h : Accounted s)
    (hone : s.render = .entered → s.scriptList.length ≤ 1) (hstep : renderStep s = some s') :
    Accounted s' := by
  unfold renderStep at hstep
  unfold Accounted at h
  cases hpc : s.render with
  | idle | fault =>
    rw [hpc] at hstep
    cases hstep
  | entered =>
    simp only [hpc] at hstep h
    split at hstep
    · cases hstep
    · obtain rfl := Option.some.inj hstep
      -- `begin()` and `end()` are taken here, over at most one script
      exact Or.inl ⟨rfl, rfl, hone hpc, h⟩
  | loop it last =>
    simp only [hpc] at hstep h
    by_cases hend : it = last
    · rw [if_pos hend] at hstep
      obtain rfl := Option.some.inj hstep
      rcases h with ⟨hit, hlast, -, happ⟩ | ⟨-, hnil, happ⟩
      -- no round at all: the queue was empty
      · have hnil : s.scriptList = [] := List.eq_nil_of_length_eq_zero (by omega)
        rw [hnil, List.append_nil] at happ
        exact ⟨hnil, happ⟩
      · exact ⟨hnil, happ⟩
    · rw [if_neg hend] at hstep
      rcases h with ⟨rfl, rfl, hle, happ⟩ | ⟨hit, -, -⟩
      · -- the only round: the queue is one script
        have hlen : s.scriptList.length = 1 := by omega
        obtain ⟨script, hsingle⟩ := List.length_eq_one_iff.mp hlen
        have hread : s.scriptList[0]? = some script := by rw [hsingle]; rfl
        rw [hread] at hstep
        rw [hsingle] at happ
        obtain rfl := Option.some.inj hstep
        exact ⟨rfl, hlen, hsingle, happ⟩
      · exact absurd hit hend
  | body it last script =>
    simp only [hpc] at hstep h
    obtain ⟨hit, hlast, hsingle, happ⟩ := h
    obtain rfl := Option.some.inj hstep
    -- `pop_back` takes the script that the round has copied
    refine ⟨hit, hlast, ?_, happ⟩
    show s.scriptList.dropLast = []
    rw [hsingle]
    rfl
  | launch it last script =>
    simp only [hpc] at hstep h
    obtain ⟨rfl, rfl, hnil, happ⟩ := h
    obtain rfl := Option.some.inj hstep
    exact Or.inr ⟨rfl, hnil, happ⟩
  | clear =>
    simp only [hpc] at hstep h
    obtain rfl := Option.some.inj hstep
    exact ⟨rfl, h.2⟩
  | drained =>
    simp only [hpc] at hstep h
    obtain ⟨hnil, happ⟩ := h
    obtain rfl := Option.some.inj hstep
    show s.appended = s.launched ++ s.scriptList
    rw [hnil, List.append_nil, happ]

/-! ## Runs -/

theorem step_invariant {s s' : State T} {a : Action T} (hexcl : Excl s) (h : Accounted s)
    (hone : AtMostOne s a) (hstep : step s a = some s') : Excl s' ∧ Accounted s' := by
  cases a with
  | execute t script =>
    simp only [step] at hstep
    split at hstep
    · obtain rfl := Option.some.inj hstep
      exact ⟨hexcl.setExecute False.elim rfl rfl rfl, h⟩
    · cases hstep
  | «continue» t => exact ⟨executeStep_excl hexcl hstep, executeStep_accounted hexcl h hstep⟩
  | tick =>
    simp only [step] at hstep
    split at hstep
    · rename_i hpc
      obtain rfl := Option.some.inj hstep
      split
      · refine ⟨⟨fun hr => hr.elim, fun u hu => hexcl.execute u hu⟩, ?_⟩
        have hout : ¬ s.render.inside := by
          rw [hpc]
          exact not_false
        rw [accounted_outside hout] at h
        exact h
      · exact ⟨hexcl, h⟩
    · cases hstep
  | render => exact ⟨renderStep_excl hexcl hstep, renderStep_accounted h (hone rfl) hstep⟩

theorem reachable_accounted {s : State T} (h : Reachable step AtMostOne (initial T) s) :
    Excl s ∧ Accounted s := by
  refine h.invariant (I := fun s => Excl s ∧ Accounted s) ?_ ?_
  · exact ⟨⟨fun hr => hr.elim, fun _ hu => hu.elim⟩, rfl⟩
  · intro s a s' hinv hone hstep
    exact step_invariant hinv.1 hinv.2 hone hstep

omit [DecidableEq T] in
/-- What the invariant says of what was launched. -/
theorem Accounted.launched {s : State T} (h : Accounted s) :
    s.render ≠ .fault ∧ s.launched <+: s.appended
      ∧ (s.render = .drained → s.launched = s.appended) := by
  unfold Accounted at h
  cases hpc : s.render with
  | idle | entered =>
    simp only [hpc] at h
    exact ⟨nofun, ⟨_, h.symm⟩, nofun⟩
  | loop it last =>
    simp only [hpc] at h
    rcases h with ⟨-, -, -, happ⟩ | ⟨-, -, happ⟩
    · exact ⟨nofun, ⟨_, happ.symm⟩, nofun⟩
    · exact ⟨nofun, ⟨[], by rw [List.append_nil, happ]⟩, nofun⟩
  | body it last script | launch it last script =>
    simp only [hpc] at h
    exact ⟨nofun, ⟨_, h.2.2.2.symm⟩, nofun⟩
  | clear | drained =>
    simp only [hpc] at h
    exact ⟨nofun, ⟨[], by rw [List.append_nil, h.2]⟩, fun _ => h.2.symm⟩
  | fault =>
    simp only [hpc] at h

/-! ## Two scripts in one drain -/

/-- A round that finds an element: the vector loses its last one. -/
theorem render_round {s : State T} {it last : Nat} {script : Script}
    (hpc : s.render = .loop it last) (hend : it ≠ last) (hread : s.scriptList[it]? = some script) :
    runActions step s [.render, .render, .render] = some { s with
      scriptList := s.scriptList.dropLast
      launched := s.launched ++ [script]
      render := .loop (it + 1) last } := by
  simp [runActions, step, renderStep, hpc, hend, hread]

/-- The index goes up while the length goes down, and the two started `last`
apart: as long as there is a round to go with an element left behind, they meet
before the end. -/
theorem render_faults : ∀ (n : Nat) (s : State T) (it last : Nat), s.render = .loop it last →
    s.scriptList.length = n + 1 → it + n + 1 = last → (it = 0 → 0 < n) →
    ∃ k s', runActions step s (List.replicate k .render) = some s' ∧ s'.render = .fault := by
  intro n
  induction n with
  | zero =>
    intro s it last hpc hlen hsum hfirst
    -- one element left and a round to go, whose index is past it
    have hit : it ≠ 0 := fun h => absurd (hfirst h) (Nat.lt_irrefl 0)
    have hend : it ≠ last := by omega
    have hread : s.scriptList[it]? = none := List.getElem?_eq_none (by omega)
    refine ⟨1, { s with render := .fault }, ?_, rfl⟩
    simp [runActions, step, renderStep, hpc, hend, hread]
  | succ n ih =>
    intro s it last hpc hlen hsum hfirst
    have hend : it ≠ last := by omega
    cases hread : s.scriptList[it]? with
    | none =>
      refine ⟨1, { s with render := .fault }, ?_, rfl⟩
      simp [runActions, step, renderStep, hpc, hend, hread]
    -- the round goes through, and leaves the same situation with one element fewer
    | some script =>
      obtain ⟨k, s', hrun, hfault⟩ := ih
        { s with
          scriptList := s.scriptList.dropLast
          launched := s.launched ++ [script]
          render := .loop (it + 1) last }
        (it + 1) last rfl (by simp [hlen]) (by omega) (by omega)
      refine ⟨3 + k, s', ?_, hfault⟩
      rw [← List.replicate_append_replicate, runActions_append]
      show (runActions step s [.render, .render, .render]).bind _ = _
      rw [render_round hpc hend hread]
      exact hrun

/-! ## The drain -/

/-- **Each script once, in order**, in every run of any number of threads in which
each drain starts with at most one script: no element past the end is read, what
was launched is a prefix of what was appended, and all of it at the end of a
tick. From any state in which a drain starts with more, the render thread alone
reads past the end. -/
theorem drain_in_order_iff :
    (∀ s : State T, Reachable step AtMostOne (initial T) s →
      s.render ≠ .fault ∧ s.launched <+: s.appended
        ∧ (s.render = .drained → s.launched = s.appended))
      ∧ ∀ s : State T, s.render = .entered → s.scriptListMtx = none → 2 ≤ s.scriptList.length →
        ∃ k s', runActions step s (List.replicate k .render) = some s' ∧ s'.render = .fault := by
  refine ⟨fun s hs => (reachable_accounted hs).2.launched, ?_⟩
  intro s hpc hfree hlen
  obtain ⟨k, s', hrun, hfault⟩ := render_faults (s.scriptList.length - 1)
    { s with scriptListMtx := some .render, render := .loop 0 s.scriptList.length }
    0 s.scriptList.length rfl (by show s.scriptList.length = _; omega) (by omega) (by omega)
  refine ⟨k + 1, s', ?_, hfault⟩
  rw [List.replicate_succ, runActions, step, renderStep, hpc, hfree]
  exact hrun

/-- `f()` and `g()`. -/
def callF : Script := ⟨[0x66, 0x28, 0x29], by decide⟩
def callG : Script := ⟨[0x67, 0x28, 0x29], by decide⟩

/-- A tick that finds one script launches it. -/
theorem tick_reachable {s : State T} {script : Script}
    (hs : Reachable step AtMostOne (initial T) s) (hstate : s.vState = true)
    (hfree : s.scriptListMtx = none) (hidle : s.render = .idle) (hone : s.scriptList = [script]) :
    Reachable step AtMostOne (initial T) { s with
      scriptList := [], scriptListMtx := some .render, render := .drained
      launched := s.launched ++ [script] } := by
  obtain ⟨vState, scriptList, scriptListMtx, execute, render, appended, launched⟩ := s
  subst hstate hfree hidle hone
  replace hs := hs.step (a := .tick) nofun rfl
  replace hs := hs.step (a := .render) (fun _ _ => le_rfl) rfl
  replace hs := hs.step (a := .render) (fun _ => nofun) rfl
  replace hs := hs.step (a := .render) (fun _ => nofun) rfl
  replace hs := hs.step (a := .render) (fun _ => nofun) rfl
  replace hs := hs.step (a := .render) (fun _ => nofun) rfl
  exact hs.step (a := .render) (fun _ => nofun) rfl

/-- Two threads and two drains: the second thread comes to the lock guard while the first
is inside, and gets in after the first drain. -/
theorem drain_in_order_iff_threads : ∃ s : State Bool,
    s.render = .drained ∧ s.launched = [callF, callG] ∧ s.launched = s.appended := by
  have hs : Reachable step AtMostOne (initial Bool) (initial Bool) := .start
  replace hs := hs.step (a := .execute true callF) nofun rfl
  replace hs := hs.step (a := .continue true) nofun rfl
  replace hs := hs.step (a := .execute false callG) nofun rfl
  replace hs := hs.step (a := .continue true) nofun rfl
  replace hs := hs.step (a := .continue true) nofun rfl
  replace hs := tick_reachable hs rfl rfl rfl rfl
  replace hs := hs.step (a := .render) (fun _ => nofun) rfl
  replace hs := hs.step (a := .continue false) nofun rfl
  replace hs := hs.step (a := .continue false) nofun rfl
  replace hs := hs.step (a := .continue false) nofun rfl
  replace hs := tick_reachable hs rfl rfl rfl rfl
  exact ⟨_, rfl, rfl, (drain_in_order_iff.1 _ hs).2.2 rfl⟩

/-- Two scripts before one tick: the second round reads past the end. -/
theorem drain_two_scripts : ¬ ∀ s : State Unit,
    Reachable step (fun _ _ => True) (initial Unit) s →
      s.render ≠ .fault ∧ s.launched <+: s.appended
        ∧ (s.render = .drained → s.launched = s.appended) := by
  intro hclaim
  have hstart : Reachable step (fun _ _ => True) (initial Unit) (initial Unit) := .start
  have hrun := hstart.run (fun _ _ => trivial)
      [.execute () callF, .continue (), .continue (), .continue (),
        .execute () callG, .continue (), .continue (), .continue (),
        .tick, .render, .render, .render, .render, .render] rfl
  exact (hclaim _ hrun).1 rfl

end NostalgiaConv.ScriptQueue
