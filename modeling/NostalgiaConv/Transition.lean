/-
Systems that take labelled steps.

A system is a partial function from a state and an action to the next state.
`Reachable` collects the states of all runs from an initial state whose steps all
meet a condition, and `Reachable.invariant` is the rule to show something of all
of them; `runActions` plays a given list of actions.
-/
import Mathlib.Tactic.Common

set_option autoImplicit false

namespace NostalgiaConv.Transition

variable {S L : Type} {step : S → L → Option S} {ok : S → L → Prop} {start : S}

/-- The states of all runs from `start` in which every step meets `ok`. -/
inductive Reachable (step : S → L → Option S) (ok : S → L → Prop) (start : S) : S → Prop where
  | start : Reachable step ok start start
  | step {s s' : S} {a : L} (hs : Reachable step ok start s) (hok : ok s a)
      (hstep : step s a = some s') : Reachable step ok start s'

/-- What holds at the start and is kept by every step holds throughout. -/
theorem Reachable.invariant {I : S → Prop} (hstart : I start)
    (hkeep : ∀ s a s', I s → ok s a → step s a = some s' → I s') {s : S}
    (h : Reachable step ok start s) : I s := by
  induction h with
  | start => exact hstart
  | step hs hok hstep ih => exact hkeep _ _ _ ih hok hstep

/-- Play a list of actions. -/
def runActions (step : S → L → Option S) : S → List L → Option S
  | s, [] => some s
  | s, a :: as => (step s a).bind (fun s' => runActions step s' as)

theorem runActions_append (s : S) (as bs : List L) :
    runActions step s (as ++ bs) = (runActions step s as).bind (fun s' => runActions step s' bs) := by
  induction as generalizing s with
  | nil => rfl
  | cons a as ih =>
    rw [List.cons_append, runActions, runActions, Option.bind_assoc]
    congr 1
    funext s'
    exact ih s'

/-- Where every step is allowed, what a list of actions leads to is reachable. -/
theorem Reachable.run (hok : ∀ s a, ok s a) (as : List L) {s s' : S}
    (h : Reachable step ok start s) (hrun : runActions step s as = some s') :
    Reachable step ok start s' := by
  induction as generalizing s with
  | nil =>
    obtain rfl := Option.some.inj hrun
    exact h
  | cons a as ih =>
    obtain ⟨s₁, hstep, hrun⟩ := Option.bind_eq_some_iff.mp hrun
    exact ih (.step h (hok s a) hstep) hrun

end NostalgiaConv.Transition
