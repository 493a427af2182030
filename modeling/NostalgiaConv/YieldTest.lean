/-
How `LaunchVMClosure` and `ResumeVMClosure` tell a yield from an error.

A host function that yields below a C function fails, and the two functions look at
the text of the error: `rbx_tostring`, then `strcmp`. A script can fail with any value.
One that is neither a string nor a number has no text, and `strcmp` gets a null pointer;
a string with the characters of the host's message is taken for a yield. For every
other value the test is right.
-/
import NostalgiaConv.Hoare
import NostalgiaConv.Threads

set_option autoImplicit false

namespace NostalgiaConv.YieldTest

open NostalgiaConv.Cipher NostalgiaConv.Host NostalgiaConv.Value NostalgiaConv.Relational
open NostalgiaConv.Hoare NostalgiaConv.Interpreter NostalgiaConv.Launches NostalgiaConv.Threads

/-- The functions that run a script under protection. -/
inductive Runner where
  | launch (information : SharedVMState)
  | resume (RS : Addr)

section

variable {A : Type} (E : ThreadApi A) (index : Int)

namespace Runner

def invoke (s : HostThreads A) : Runner → EStateM.Result Leave (Invocation A) Nat
  | launch information => LaunchVMClosure E index information ⟨s, []⟩
  | resume RS => ResumeVMClosure E RS index ⟨s, []⟩

/-- The thread of the protected call. -/
def thread (s : HostThreads A) : Runner → Addr
  | launch information => information.RS
  | resume RS => resumeThread E RS s

/-- The state it is made in. -/
def state (s : HostThreads A) : Runner → HostThreads A
  | launch information => launchState E index information s
  | resume RS => resumeState E RS index s

/-- How the script's run ends, and the state it leaves. -/
def run (r : Runner) (s : HostThreads A) : Outcome × HostThreads A :=
  E.rbx_pcall (r.thread E s) (r.state E index s)

end Runner

/-- The resume handler was installed. -/
def Installed (c : Invocation A) : Prop := ∃ p ∈ c.pushed, p.fn = some .ResumeVMClosure

/-- The invocation returns, and has installed the handler if and only if the run was
interrupted by a yield. -/
def Recognised (r : Runner) (s : HostThreads A) : Prop :=
  ∃ n c, r.invoke E index s = .ok n c ∧ (Installed c ↔ (r.run E index s).1 = .yielded)

/-- The value that a run failed with has a text, and not the one of a yield. -/
def ToldApart (r : Runner) (s : HostThreads A) : Prop :=
  ∀ v s', r.run E index s = (.failed v, s') → HasText v
    ∧ ∀ text, (E.rbx_tostring (r.thread E s) s').1 = some text → untilZero text ≠ yieldMessage

end

section

variable {A : Type} {E : ThreadApi A} {index : Int} {r : Runner} {s s' : HostThreads A}

/-- Both functions make their call after some pushes, none of them of the handler, and do
nothing after it but return. -/
theorem Runner.invoke_eq (E : ThreadApi A) (index : Int) (r : Runner) (s : HostThreads A) :
    ∃ pushes otherwise n, r.invoke E index s
        = (protectedRun E (r.thread E s) index otherwise >>= fun _ => pure n)
          ⟨r.state E index s, pushes⟩
      ∧ (∀ p ∈ pushes, p.fn ≠ some .ResumeVMClosure)
      ∧ (∀ c, ∃ c', otherwise c = .ok ⟨⟩ c' ∧ (Installed c' → Installed c)) := by
  cases r with
  | launch information =>
    obtain ⟨pushes, hrun, hpushes⟩ := launchVMClosure_run E index information s
    exact ⟨pushes, pure ⟨⟩, 0, hrun, hpushes, fun c => ⟨c, rfl, fun h => h⟩⟩
  | resume RS =>
    refine ⟨resumePushes E RS index s, pushnumber E RS 1, 1, resumeVMClosure_run E RS index s,
      resumePushes_fn E RS index s, fun c => ⟨_, rfl, ?_⟩⟩
    rintro ⟨p, hp, hfn⟩
    rcases List.mem_append.mp hp with hp | hp
    · exact ⟨p, hp, hfn⟩
    · rw [List.mem_singleton.mp hp] at hfn
      exact nomatch hfn

theorem not_installed {pushes : List Push} (h : ∀ p ∈ pushes, p.fn ≠ some .ResumeVMClosure)
    (s : HostThreads A) : ¬ Installed ⟨s, pushes⟩ := by
  rintro ⟨p, hp, hfn⟩
  exact h p hp hfn

theorem installed_installed (RS : Addr) (c : Invocation A) :
    Installed (installed E RS index c) :=
  ⟨_, List.mem_append_right _ (List.mem_singleton_self _), rfl⟩

theorem untilZero_yieldMessage : untilZero yieldMessage = yieldMessage := by decide +kernel

/-- A run that finished installs nothing. -/
theorem invoke_finished (hrun : r.run E index s = (.finished, s')) :
    ∃ n c, r.invoke E index s = .ok n c ∧ ¬ Installed c := by
  obtain ⟨pushes, otherwise, n, hinvoke, hpushes, hother⟩ := r.invoke_eq E index s
  obtain ⟨c', hc', hkept⟩ := hother ⟨s', pushes⟩
  have hprotected : protectedRun E (r.thread E s) index otherwise ⟨r.state E index s, pushes⟩
      = .ok ⟨⟩ c' := (protectedRun_finished hrun).trans hc'
  rw [hinvoke]
  exact ⟨n, c', bind_of_ok hprotected, fun h => not_installed hpushes s' (hkept h)⟩

/-- One that failed with a value without a text is the end of the process. -/
theorem invoke_null (hE : AsInLua E) {o : Outcome} (hrun : r.run E index s = (o, s'))
    (ho : o.status ≠ 0) (htext : (E.rbx_tostring (r.thread E s) s').1 = none) :
    ∃ c, r.invoke E index s = .error .nullString c := by
  obtain ⟨pushes, otherwise, n, hinvoke, -, -⟩ := r.invoke_eq E index s
  have herror : protectedRun E (r.thread E s) index otherwise ⟨r.state E index s, pushes⟩
      = afterError E (r.thread E s) index ⟨s', pushes⟩ := protectedRun_error hrun ho
  have hnull : afterError E (r.thread E s) index ⟨s', pushes⟩ = _ := afterError_null hE htext
  rw [hinvoke]
  exact ⟨_, bind_eq_error.mpr (Or.inl (herror.trans hnull))⟩

/-- Otherwise the text decides. -/
theorem invoke_text (hE : AsInLua E) {o : Outcome} (hrun : r.run E index s = (o, s'))
    (ho : o.status ≠ 0) {text : List Byte}
    (htext : (E.rbx_tostring (r.thread E s) s').1 = some text) :
    ∃ n c, r.invoke E index s = .ok n c ∧ (Installed c ↔ untilZero text = yieldMessage) := by
  obtain ⟨pushes, otherwise, n, hinvoke, hpushes, -⟩ := r.invoke_eq E index s
  have herror : protectedRun E (r.thread E s) index otherwise ⟨r.state E index s, pushes⟩
      = afterError E (r.thread E s) index ⟨s', pushes⟩ := protectedRun_error hrun ho
  rw [hinvoke]
  by_cases heq : untilZero text = yieldMessage
  · have hyield : afterError E (r.thread E s) index ⟨s', pushes⟩ = _ :=
      afterError_yield hE htext heq
    exact ⟨n, _, bind_of_ok (herror.trans hyield), iff_of_true (installed_installed _ _) heq⟩
  · have hother : afterError E (r.thread E s) index ⟨s', pushes⟩ = _ :=
      afterError_other hE htext heq
    exact ⟨n, _, bind_of_ok (herror.trans hother), iff_of_false (not_installed hpushes _) heq⟩

/-- With a value that the run failed with, the invocation is right if there is a text, and it
is not the message. -/
theorem recognised_failed_iff (hE : AsInLua E) {v : TValue}
    (hrun : r.run E index s = (.failed v, s')) :
    Recognised E index r s ↔ HasText v ∧ ∀ text,
      (E.rbx_tostring (r.thread E s) s').1 = some text → untilZero text ≠ yieldMessage := by
  have hstatus := failed_status v
  have hyielded : ¬ (r.run E index s).1 = .yielded := by
    rw [hrun]
    exact nofun
  have hnull := hE.tostring_null (r.thread E s) s'
  have hlast : (s'.thread (r.thread E s)).last = v := hE.pcall_failed hrun
  rw [hlast] at hnull
  cases htext : (E.rbx_tostring (r.thread E s) s').1 with
  | none =>
    -- `strcmp` gets a null pointer
    obtain ⟨c, hinvoke⟩ := invoke_null hE hrun hstatus htext
    refine iff_of_false ?_ (fun h => hnull.mp htext h.1)
    rintro ⟨n, c', hok, -⟩
    rw [hinvoke] at hok
    exact nomatch hok
  | some text =>
    obtain ⟨n, c, hinvoke, hiff⟩ := invoke_text hE hrun hstatus htext
    have hHas : HasText v := by
      by_contra hno
      rw [hnull.mpr hno] at htext
      exact nomatch htext
    constructor
    · rintro ⟨n', c', hok, hright⟩
      obtain ⟨-, rfl⟩ := EStateM.Result.ok.inj (hinvoke.symm.trans hok)
      refine ⟨hHas, fun text' htext' heq => ?_⟩
      obtain rfl := Option.some.inj htext'
      exact hyielded (hright.mp (hiff.mpr heq))
    · -- no handler, and the run has not yielded
      intro h
      have hne := h.2 text rfl
      exact ⟨n, c, hinvoke, iff_of_false (fun hin => hne (hiff.mp hin)) hyielded⟩

theorem toldApart_of_ne {o : Outcome} (hrun : r.run E index s = (o, s'))
    (ho : ∀ v, o ≠ .failed v) : ToldApart E index r s := by
  intro v s₁ h
  rw [hrun] at h
  exact absurd (congrArg Prod.fst h) (ho v)

/-- **The yield test.** For every outcome of the script's run, and both functions: the
invocation returns, with the resume handler installed if and only if the run has yielded,
exactly when a value that the run failed with is a string or a number, and its characters up
to the first zero are not those of the message for a yield. -/
theorem recognised_iff (hE : AsInLua E) (index : Int) (r : Runner) (s : HostThreads A) :
    Recognised E index r s ↔ ToldApart E index r s := by
  obtain ⟨o, s', hrun⟩ : ∃ o s', r.run E index s = (o, s') := ⟨_, _, rfl⟩
  have hout : (r.run E index s).1 = o := congrArg Prod.fst hrun
  cases o with
  | finished =>
    obtain ⟨n, c, hinvoke, hnot⟩ := invoke_finished hrun
    refine iff_of_true ⟨n, c, hinvoke, iff_of_false hnot ?_⟩ (toldApart_of_ne hrun nofun)
    rw [hout]
    exact nofun
  | yielded =>
    obtain ⟨n, c, hinvoke, hiff⟩ := invoke_text hE hrun (by decide) (hE.pcall_yielded hrun)
    refine iff_of_true ⟨n, c, hinvoke, ?_⟩ (toldApart_of_ne hrun nofun)
    exact iff_of_true (hiff.mpr untilZero_yieldMessage) hout
  | failed v =>
    rw [recognised_failed_iff hE hrun]
    constructor
    · rintro h v' s₁ hrun'
      obtain ⟨hv, rfl⟩ := Prod.mk.inj (hrun.symm.trans hrun')
      obtain rfl := Outcome.failed.inj hv
      exact h
    · intro h
      exact h v s' hrun

end

/-! ## Two scripts -/

/-- A launched script, on a thread of the host. -/
def launched : Runner := .launch ⟨0x1000, 0, 1⟩

/-- The host, when every run fails with `v`; strings other than the host's are empty. -/
def failing (v : TValue) : ThreadApi Unit := luaThreads (fun _ => []) (fun _ _ => .failed v)

theorem failing_asInLua (v : TValue) : AsInLua (failing v) := luaThreads_asInLua _ _

theorem failing_run (v : TValue) :
    launched.run (failing v) 7 idle = (.failed v, (launched.run (failing v) 7 idle).2) := rfl

/-- `error("", 0)` -/
theorem recognised_string : Recognised (failing ⟨1, RBX_TYPE_STRING⟩) 7 launched idle := by
  refine (recognised_iff (failing_asInLua _) 7 launched idle).mpr ?_
  intro v s' hrun
  obtain rfl := Outcome.failed.inj (congrArg Prod.fst ((failing_run _).symm.trans hrun))
  have hlast : (s'.thread 0x1000).last = ⟨1, RBX_TYPE_STRING⟩ :=
    (failing_asInLua _).pcall_failed hrun
  refine ⟨Or.inl rfl, fun text htext => ?_⟩
  have hluaText : luaText (fun _ => []) (s'.thread 0x1000).last = some text := htext
  rw [hlast] at hluaText
  obtain rfl := Option.some.inj hluaText
  decide +kernel

/-- **`error(nil)` is fatal, and a script can pass for one that yields.** With `error(nil)` the
invocation hands a null pointer to `strcmp`; with `error` of the host's own message it
installs the resume handler for a run that is over. -/
theorem error_values_misread :
    (∃ c, launched.invoke (failing ⟨0, RBX_TYPE_NIL⟩) 7 idle = .error .nullString c)
      ∧ ¬ Recognised (failing ⟨0, RBX_TYPE_NIL⟩) 7 launched idle
      ∧ (∃ n c, launched.invoke (failing ⟨0, RBX_TYPE_STRING⟩) 7 idle = .ok n c ∧ Installed c)
      ∧ ¬ Recognised (failing ⟨0, RBX_TYPE_STRING⟩) 7 launched idle := by
  obtain ⟨c, hcrash⟩ := invoke_null (failing_asInLua ⟨0, RBX_TYPE_NIL⟩) (failing_run _)
    (failed_status _) rfl
  have htext : ((failing ⟨0, RBX_TYPE_STRING⟩).rbx_tostring
      (launched.thread (failing ⟨0, RBX_TYPE_STRING⟩) idle)
      (launched.run (failing ⟨0, RBX_TYPE_STRING⟩) 7 idle).2).1 = some yieldMessage := rfl
  obtain ⟨n, c', hok, hinstalled⟩ := invoke_text (failing_asInLua ⟨0, RBX_TYPE_STRING⟩)
    (failing_run _) (failed_status _) htext
  have hin := hinstalled.mpr untilZero_yieldMessage
  refine ⟨⟨c, hcrash⟩, ?_, ⟨n, c', hok, hin⟩, ?_⟩
  · rintro ⟨n, c', hreturned, -⟩
    rw [hcrash] at hreturned
    exact nomatch hreturned
  · rintro ⟨n', c'', hreturned, hright⟩
    obtain ⟨-, rfl⟩ := EStateM.Result.ok.inj (hok.symm.trans hreturned)
    exact nomatch hright.mp hin

end NostalgiaConv.YieldTest
