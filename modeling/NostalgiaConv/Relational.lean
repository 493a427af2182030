/-
Two stateful programs side by side.

`Rel X P x y Q` compares a program `x` with a program `y`: started in states that
`P` relates, they end together, and if both return then `Q` relates what they
return and leave. `X` says which of their stops count as the same end, and which
stops of one side end the comparison whatever the other does. The rules follow
the programs' structure; `rel_iter` is the one for a loop whose relation changes
from round to round.
-/
import Mathlib.Tactic.Common

set_option autoImplicit false

namespace NostalgiaConv.Relational

variable {ε δ σ τ α β α' β' γ : Type}

/-- When a stop of the first program and a stop of the second are the same end,
and the stops of either after which nothing is compared. -/
structure Ends (ε δ : Type) where
  same : ε → δ → Prop
  left : ε → Prop
  right : δ → Prop

def Ends.Related (X : Ends ε δ) (Q : α → β → σ → τ → Prop) :
    EStateM.Result ε σ α → EStateM.Result δ τ β → Prop
  | .ok a s, .ok b t => Q a b s t
  | .ok _ _, .error d _ => X.right d
  | .error e _, .ok _ _ => X.left e
  | .error e _, .error d _ => X.left e ∨ X.right d ∨ X.same e d

def Rel (X : Ends ε δ) (P : σ → τ → Prop) (x : EStateM ε σ α) (y : EStateM δ τ β)
    (Q : α → β → σ → τ → Prop) : Prop :=
  ∀ s t, P s t → X.Related Q (x s) (y t)

variable {X : Ends ε δ} {P P' : σ → τ → Prop} {Q Q' : α → β → σ → τ → Prop}

theorem Ends.Related.imp {r : EStateM.Result ε σ α} {r' : EStateM.Result δ τ β}
    (h : X.Related Q r r') (himp : ∀ a b s t, Q a b s t → Q' a b s t) : X.Related Q' r r' := by
  cases r <;> cases r' <;> first | exact h | exact himp _ _ _ _ h

/-- What the second program did when the first returned. -/
theorem Ends.Related.of_ok {a : α} {s : σ} {r : EStateM.Result δ τ β}
    (h : X.Related Q (.ok a s) r) :
    (∃ b t, r = .ok b t ∧ Q a b s t) ∨ ∃ d t, r = .error d t ∧ X.right d := by
  cases r with
  | ok b t => exact Or.inl ⟨b, t, rfl, h⟩
  | error d t => exact Or.inr ⟨d, t, rfl, h⟩

/-- What the second program did when the first stopped. -/
theorem Ends.Related.of_error {e : ε} {s : σ} {r : EStateM.Result δ τ β}
    (h : X.Related Q (.error e s) r) :
    X.left e ∨ ∃ d t, r = .error d t ∧ (X.right d ∨ X.same e d) := by
  cases r with
  | ok b t => exact Or.inl h
  | error d t =>
    rcases h with hleft | hd
    · exact Or.inl hleft
    · exact Or.inr ⟨d, t, rfl, hd⟩

theorem Rel.conseq {x : EStateM ε σ α} {y : EStateM δ τ β} (h : Rel X P x y Q)
    (hpre : ∀ s t, P' s t → P s t) (hpost : ∀ a b s t, Q a b s t → Q' a b s t) :
    Rel X P' x y Q' :=
  fun s t hst => (h s t (hpre s t hst)).imp hpost

/-- A fact of the precondition that does not speak of the states. -/
theorem Rel.assume {φ : Prop} {x : EStateM ε σ α} {y : EStateM δ τ β} (h : φ → Rel X P x y Q) :
    Rel X (fun s t => φ ∧ P s t) x y Q :=
  fun s t hst => h hst.1 s t hst.2

theorem Rel.pure {a : α} {b : β} (h : ∀ s t, P s t → Q a b s t) :
    Rel X P (Pure.pure a) (Pure.pure b) Q := h

/-- One run of a sequence. What the first part did is known where the second
starts. -/
theorem Ends.Related.bind {R : α' → β' → σ → τ → Prop} {x : EStateM ε σ α'} {y : EStateM δ τ β'}
    {f : α' → EStateM ε σ α} {g : β' → EStateM δ τ β} {s : σ} {t : τ}
    (hx : X.Related R (x s) (y t))
    (hf : ∀ a b s' t', R a b s' t' → x s = .ok a s' → X.Related Q (f a s') (g b t')) :
    X.Related Q ((x >>= f) s) ((y >>= g) t) := by
  show X.Related Q (EStateM.bind x f s) (EStateM.bind y g t)
  unfold EStateM.bind
  cases hxs : x s with
  | ok a s' =>
    rw [hxs] at hx
    cases hyt : y t with
    | ok b t' =>
      rw [hyt] at hx
      exact hf a b s' t' hx hxs
    | error d t' =>
      -- the second program has ended, however the first goes on
      rw [hyt] at hx
      simp only
      cases f a s' with
      | ok _ _ => exact hx
      | error _ _ => exact Or.inr (Or.inl hx)
  | error e s' =>
    rw [hxs] at hx
    cases hyt : y t with
    | ok b t' =>
      rw [hyt] at hx
      simp only
      cases g b t' with
      | ok _ _ => exact hx
      | error _ _ => exact Or.inl hx
    | error d t' =>
      rw [hyt] at hx
      exact hx

/-- One program on its own: its first part is known to return. -/
theorem bind_of_ok {x : EStateM ε σ α'} {f : α' → EStateM ε σ α} {a : α'} {s s' : σ}
    (h : x s = .ok a s') : (x >>= f) s = f a s' := by
  show EStateM.bind x f s = f a s'
  unfold EStateM.bind
  rw [h]

theorem Rel.bind {R : α' → β' → σ → τ → Prop} {x : EStateM ε σ α'} {y : EStateM δ τ β'}
    {f : α' → EStateM ε σ α} {g : β' → EStateM δ τ β} (hx : Rel X P x y R)
    (hf : ∀ a b, Rel X (R a b) (f a) (g b) Q) : Rel X P (x >>= f) (y >>= g) Q :=
  fun s t hst => (hx s t hst).bind (fun a b s' t' hR _ => hf a b s' t' hR)

/-- A sequence whose first parts return the same value. -/
theorem Rel.bind_same {R : α' → σ → τ → Prop} {x : EStateM ε σ α'} {y : EStateM δ τ α'}
    {f : α' → EStateM ε σ α} {g : α' → EStateM δ τ β}
    (hx : Rel X P x y (fun a b s t => a = b ∧ R a s t)) (hf : ∀ a, Rel X (R a) (f a) (g a) Q) :
    Rel X P (x >>= f) (y >>= g) Q := by
  refine Rel.bind hx (fun a b s t hst => ?_)
  obtain ⟨rfl, hR⟩ := hst
  exact hf a s t hR

theorem Rel.throw {e : ε} {d : δ} (h : X.same e d) :
    Rel X P (MonadExcept.throw e : EStateM ε σ α) (MonadExcept.throw d : EStateM δ τ β) Q :=
  fun _ _ _ => Or.inr (Or.inr h)

/-- The first program stops and the comparison with it. -/
theorem Rel.throw_left {e : ε} (h : X.left e) (y : EStateM δ τ β) :
    Rel X P (MonadExcept.throw e : EStateM ε σ α) y Q := by
  intro s t _
  show X.Related Q (.error e s) (y t)
  cases y t with
  | ok _ _ => exact h
  | error _ _ => exact Or.inl h

/-! ## Reading and writing the state -/

def look (f : σ → α) : EStateM ε σ α := fun s => .ok (f s) s

def update (f : σ → σ) : EStateM ε σ PUnit := fun s => .ok ⟨⟩ (f s)

theorem look_bind {f : σ → α'} {g : α' → EStateM ε σ α} {s : σ} :
    (look f >>= g) s = g (f s) s := bind_of_ok rfl

theorem update_bind {f : σ → σ} {g : PUnit → EStateM ε σ α} {s : σ} :
    (update f >>= g) s = g ⟨⟩ (f s) := bind_of_ok rfl

theorem Rel.look {f : σ → α} {g : τ → β} (h : ∀ s t, P s t → Q (f s) (g t) s t) :
    Rel X P (look f) (look g) Q := h

theorem Rel.update {f : σ → σ} {g : τ → τ} {Q : PUnit → PUnit → σ → τ → Prop}
    (h : ∀ s t, P s t → Q ⟨⟩ ⟨⟩ (f s) (g t)) : Rel X P (update f) (update g) Q := h

def when (c : Prop) [Decidable c] (x : EStateM ε σ PUnit) : EStateM ε σ PUnit :=
  if c then x else pure ⟨⟩

theorem Rel.when {c : Prop} [Decidable c] {x : EStateM ε σ PUnit} {y : EStateM δ τ PUnit}
    (h : Rel X P x y (fun _ _ => P)) :
    Rel X P (Relational.when c x) (Relational.when c y) (fun _ _ => P) := by
  unfold Relational.when
  by_cases hc : c
  · rw [if_pos hc, if_pos hc]
    exact h
  · rw [if_neg hc, if_neg hc]
    exact Rel.pure (fun _ _ hst => hst)

/-- A change of the first program's state alone. -/
theorem Rel.update_left {f : σ → σ} {x : PUnit → EStateM ε σ α} {y : EStateM δ τ β}
    (h : ∀ s t, P s t → P' (f s) t) (hx : Rel X P' (x ⟨⟩) y Q) :
    Rel X P (Relational.update f >>= x) y Q :=
  fun s t hst => hx (f s) t (h s t hst)

/-- A change of the second program's state alone. -/
theorem Rel.update_right {f : τ → τ} {x : EStateM ε σ α} {y : PUnit → EStateM δ τ β}
    (h : ∀ s t, P s t → P' s (f t)) (hy : Rel X P' x (y ⟨⟩) Q) :
    Rel X P x (Relational.update f >>= y) Q :=
  fun s t hst => hy s (f t) (h s t hst)

/-! ## Loops -/

/-- `n` rounds of `x`. -/
def iter (x : EStateM ε σ PUnit) : Nat → EStateM ε σ PUnit
  | 0 => pure ⟨⟩
  | n + 1 => do x; iter x n

/-- A loop whose rounds all keep one relation. -/
theorem Rel.iter {x : EStateM ε σ PUnit} {y : EStateM δ τ PUnit}
    (h : Rel X P x y (fun _ _ => P)) : ∀ n, Rel X P (iter x n) (iter y n) (fun _ _ => P)
  | 0 => Rel.pure (fun _ _ hst => hst)
  | n + 1 => Rel.bind h (fun _ _ => Rel.iter h n)

/-- A record kept beside the loop: from one round's states to the next. -/
def track (x : EStateM ε σ PUnit) (next : γ → σ → σ → γ) : Nat → γ → σ → γ
  | 0, g, _ => g
  | n + 1, g, s =>
    match x s with
    | .ok _ s' => track x next n (next g s s') s'
    | .error _ _ => g

/-- Every round starts with a record and a state that meet `ok`. -/
def Along (x : EStateM ε σ PUnit) (next : γ → σ → σ → γ) (ok : γ → σ → Prop) :
    Nat → γ → σ → Prop
  | 0, _, _ => True
  | n + 1, g, s => ok g s ∧ ∀ s', x s = .ok ⟨⟩ s' → Along x next ok n (next g s s') s'

/-- A loop whose relation goes with the record. -/
theorem rel_iter_track {x : EStateM ε σ PUnit} {y : EStateM δ τ PUnit} {next : γ → σ → σ → γ}
    {ok : γ → σ → Prop} {I : γ → σ → τ → Prop}
    (hstep : ∀ g s t, I g s t → ok g s →
      X.Related (fun _ _ s' t' => I (next g s s') s' t') (x s) (y t)) :
    ∀ n g s t, I g s t → Along x next ok n g s →
      X.Related (fun _ _ s' t' => I (track x next n g s) s' t') (iter x n s) (iter y n t) := by
  intro n
  induction n with
  | zero => intro g s t hI _; exact hI
  | succ n ih =>
    intro g s t hI hok
    refine Ends.Related.bind (hstep g s t hI hok.1) (fun a b s' t' hI' hxs => ?_)
    have htrack : track x next (n + 1) g s = track x next n (next g s s') s' := by
      rw [track, hxs]
    rw [htrack]
    exact ih _ _ _ hI' (hok.2 s' hxs)

end NostalgiaConv.Relational
