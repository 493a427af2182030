/-
Tracing: finding what can be reached by following references.

A tracer marks objects and keeps a list of those whose references it has not followed yet.
What is left of the search is described by `Traced`: a marked object that is not pending
refers to marked objects only. When nothing is pending, the marked objects are closed under
references, and everything that can be reached from marked roots is marked. Nothing here is
about a particular heap.
-/
import Mathlib.Data.List.Basic

set_option autoImplicit false

namespace NostalgiaConv.Tracing

variable {α : Type} {refs refs' : α → List α} {root marked marked' pending pending' : α → Prop} {a : α}

/-! ## What can be reached -/

/-- The objects that following references from the roots leads to. -/
inductive Reaches (refs : α → List α) (root : α → Prop) : α → Prop where
  | root {a : α} (h : root a) : Reaches refs root a
  | ref {a b : α} (h : Reaches refs root a) (hb : b ∈ refs a) : Reaches refs root b

/-- What holds of the roots and is passed on by references holds of all that is reached. -/
theorem Reaches.of_closed {P : α → Prop} (hroot : ∀ a, root a → P a)
    (hclosed : ∀ a, P a → ∀ b ∈ refs a, P b) (h : Reaches refs root a) : P a := by
  induction h with
  | root h => exact hroot _ h
  | ref _ hb ih => exact hclosed _ ih _ hb

/-! ## The invariant of a tracer -/

/-- A marked object that is not pending refers to marked ones. -/
def Traced (refs : α → List α) (marked pending : α → Prop) : Prop :=
  ∀ a, marked a → ¬ pending a → ∀ b ∈ refs a, marked b

/-- The rule for every step: whatever is marked and not pending afterwards was so before,
with references of which the new ones are marked; or it has been followed now. -/
theorem Traced.step (h : Traced refs marked pending) (hmono : ∀ a, marked a → marked' a)
    (hstep : ∀ a, marked' a → ¬ pending' a →
      (marked a ∧ ¬ pending a ∧ ∀ b ∈ refs' a, b ∈ refs a ∨ marked' b) ∨ ∀ b ∈ refs' a, marked' b) :
    Traced refs' marked' pending' := by
  intro a ha hp b hb
  rcases hstep a ha hp with ⟨hold, hnot, hrefs⟩ | hdone
  · rcases hrefs b hb with hin | hnew
    · exact hmono b (h a hold hnot b hin)
    · exact hnew
  · exact hdone b hb

/-- **The end of tracing**: nothing is pending, and what is reached from marked roots is
marked. -/
theorem Traced.complete (h : Traced refs marked pending) (hp : ∀ a, marked a → ¬ pending a)
    (hroot : ∀ a, root a → marked a) (ha : Reaches refs root a) : marked a :=
  ha.of_closed hroot fun a ha => h a ha (hp a ha)

/-! ## Loops -/

/-- What holds of every round of a loop holds of the loop, with what each round achieves and
later ones leave. -/
theorem foldl_rel {σ β : Type} {R : σ → σ → Prop} {Q : β → σ → Prop} {f : σ → β → σ}
    (hrefl : ∀ s, R s s) (htrans : ∀ {s s' s''}, R s s' → R s' s'' → R s s'')
    (hQ : ∀ b s s', R s s' → Q b s → Q b s') :
    ∀ (l : List β) (s : σ), (∀ s' b, b ∈ l → R s s' → R s' (f s' b) ∧ Q b (f s' b)) →
      R s (l.foldl f s) ∧ ∀ b ∈ l, Q b (l.foldl f s) := by
  intro l
  induction l with
  | nil => exact fun s _ => ⟨hrefl s, fun b hb => absurd hb List.not_mem_nil⟩
  | cons b l ih =>
    intro s hf
    have hstep := hf s b List.mem_cons_self (hrefl s)
    have hrest := ih (f s b) fun s' b' hb' hs' => hf s' b' (List.mem_cons_of_mem b hb') (htrans hstep.1 hs')
    refine ⟨htrans hstep.1 hrest.1, fun b' hb' => ?_⟩
    rcases List.mem_cons.mp hb' with rfl | hb'
    · exact hQ b' _ _ hrest.1 hstep.2
    · exact hrest.2 b' hb'

end NostalgiaConv.Tracing
