/-
What one stateful program does when it returns.

`Triple P x Q` is partial correctness: started where `P` holds, `x` either stops
with an error or returns with `Q`. The rules follow the program's structure, as
those of `Relational` do for two programs; `Triple.iter` is the one for a loop,
and `track_invariant` the one for a loop with a record kept beside it.
-/
import NostalgiaConv.Relational

set_option autoImplicit false

namespace NostalgiaConv.Hoare

open NostalgiaConv.Relational

variable {ε σ α β γ : Type} {P P' : σ → Prop} {Q Q' : α → σ → Prop}

def Triple (P : σ → Prop) (x : EStateM ε σ α) (Q : α → σ → Prop) : Prop :=
  ∀ s a s', P s → x s = .ok a s' → Q a s'

/-- A sequence that returned went through its first part. -/
theorem bind_eq_ok {x : EStateM ε σ β} {f : β → EStateM ε σ α} {s s' : σ} {a : α} :
    (x >>= f) s = .ok a s' ↔ ∃ b t, x s = .ok b t ∧ f b t = .ok a s' := by
  show EStateM.bind x f s = .ok a s' ↔ _
  unfold EStateM.bind
  cases x s with
  | ok b t =>
    refine ⟨fun h => ⟨b, t, rfl, h⟩, ?_⟩
    rintro ⟨b', t', heq, h⟩
    obtain ⟨rfl, rfl⟩ := EStateM.Result.ok.inj heq
    exact h
  | error e t => exact ⟨nofun, nofun⟩

/-- A sequence that stopped did so in one of its parts. -/
theorem bind_eq_error {x : EStateM ε σ β} {f : β → EStateM ε σ α} {s s' : σ} {e : ε} :
    (x >>= f) s = .error e s' ↔
      x s = .error e s' ∨ ∃ b t, x s = .ok b t ∧ f b t = .error e s' := by
  show EStateM.bind x f s = .error e s' ↔ _
  unfold EStateM.bind
  cases x s with
  | ok b t =>
    refine ⟨fun h => Or.inr ⟨b, t, rfl, h⟩, ?_⟩
    rintro (h | ⟨b', t', heq, h⟩)
    · exact nomatch h
    · obtain ⟨rfl, rfl⟩ := EStateM.Result.ok.inj heq
      exact h
  | error e' t =>
    show EStateM.Result.error e' t = .error e s' ↔ _
    constructor
    · intro h
      obtain ⟨rfl, rfl⟩ := EStateM.Result.error.inj h
      exact Or.inl rfl
    · rintro (h | ⟨b', t', heq, -⟩)
      · obtain ⟨rfl, rfl⟩ := EStateM.Result.error.inj h
        rfl
      · exact nomatch heq

theorem Triple.conseq {x : EStateM ε σ α} (h : Triple P x Q) (hpre : ∀ s, P' s → P s)
    (hpost : ∀ a s, Q a s → Q' a s) : Triple P' x Q' :=
  fun s a s' hs hx => hpost a s' (h s a s' (hpre s hs) hx)

theorem Triple.pure {a : α} (h : ∀ s, P s → Q a s) : Triple (ε := ε) P (Pure.pure a) Q := by
  intro s b s' hs hx
  obtain ⟨rfl, rfl⟩ := EStateM.Result.ok.inj hx
  exact h _ hs

theorem Triple.throw (e : ε) : Triple P (MonadExcept.throw e : EStateM ε σ α) Q :=
  fun _ _ _ _ hx => nomatch hx

theorem Triple.bind {R : β → σ → Prop} {x : EStateM ε σ β} {f : β → EStateM ε σ α}
    (hx : Triple P x R) (hf : ∀ b, Triple (R b) (f b) Q) : Triple P (x >>= f) Q := by
  intro s a s' hs h
  obtain ⟨b, t, hb, ht⟩ := bind_eq_ok.mp h
  exact hf b t a s' (hx s b t hs hb) ht

theorem Triple.look {f : σ → α} (h : ∀ s, P s → Q (f s) s) :
    Triple (ε := ε) P (Relational.look f) Q := by
  intro s a s' hs hx
  obtain ⟨rfl, rfl⟩ := EStateM.Result.ok.inj hx
  exact h _ hs

theorem Triple.update {f : σ → σ} {Q : PUnit → σ → Prop} (h : ∀ s, P s → Q ⟨⟩ (f s)) :
    Triple (ε := ε) P (Relational.update f) Q := by
  intro s a s' hs hx
  obtain ⟨rfl, rfl⟩ := EStateM.Result.ok.inj hx
  exact h _ hs

theorem Triple.ite {c : Prop} [Decidable c] {x y : EStateM ε σ α} (hx : c → Triple P x Q)
    (hy : ¬ c → Triple P y Q) : Triple P (if c then x else y) Q := by
  by_cases hc : c
  · rw [if_pos hc]
    exact hx hc
  · rw [if_neg hc]
    exact hy hc

theorem Triple.when {c : Prop} [Decidable c] {x : EStateM ε σ PUnit} {Q : PUnit → σ → Prop}
    (hx : c → Triple P x Q) (hskip : ¬ c → ∀ s, P s → Q ⟨⟩ s) :
    Triple P (Relational.when c x) Q :=
  Triple.ite hx (fun hc => Triple.pure (hskip hc))

/-! ## Stops that a program does not make -/

def Never (e : ε) (x : EStateM ε σ α) : Prop := ∀ s s', x s ≠ .error e s'

theorem Never.pure (e : ε) (a : α) : Never (σ := σ) e (Pure.pure a) := fun _ _ => nofun

theorem Never.look (e : ε) (f : σ → α) : Never e (Relational.look f) := fun _ _ => nofun

theorem Never.update (e : ε) (f : σ → σ) : Never e (Relational.update f) := fun _ _ => nofun

theorem Never.throw {e e' : ε} (h : e' ≠ e) :
    Never e (MonadExcept.throw e' : EStateM ε σ α) :=
  fun _ _ heq => h (EStateM.Result.error.inj heq).1

theorem Never.bind {e : ε} {x : EStateM ε σ β} {f : β → EStateM ε σ α} (hx : Never e x)
    (hf : ∀ b, Never e (f b)) : Never e (x >>= f) := by
  intro s s' h
  rcases bind_eq_error.mp h with h | ⟨b, t, -, h⟩
  · exact hx s s' h
  · exact hf b t s' h

theorem Never.ite {e : ε} {c : Prop} [Decidable c] {x y : EStateM ε σ α} (hx : Never e x)
    (hy : Never e y) : Never e (if c then x else y) := by
  by_cases hc : c
  · rw [if_pos hc]
    exact hx
  · rw [if_neg hc]
    exact hy

theorem Never.when {e : ε} {c : Prop} [Decidable c] {x : EStateM ε σ PUnit} (hx : Never e x) :
    Never e (Relational.when c x) :=
  Never.ite hx (Never.pure e _)

/-- A sequence that stops so does it in its first part. -/
theorem Never.of_bind {e : ε} {x : EStateM ε σ β} {f : β → EStateM ε σ α} {s s' : σ}
    (hf : ∀ b, Never e (f b)) (h : (x >>= f) s = .error e s') : x s = .error e s' := by
  rcases bind_eq_error.mp h with h | ⟨b, t, -, h⟩
  · exact h
  · exact absurd h (hf b t s')

/-! ## Loops -/

/-- A loop whose rounds all keep `P`. -/
theorem Triple.iter {x : EStateM ε σ PUnit} (h : Triple P x (fun _ => P)) :
    ∀ n, Triple P (Relational.iter x n) (fun _ => P)
  | 0 => Triple.pure (fun _ hs => hs)
  | n + 1 => Triple.bind h (fun _ => Triple.iter h n)

/-- The rounds before one that was got to. -/
theorem iter_ok_of_le {x : EStateM ε σ PUnit} {m n : Nat} (hle : m ≤ n) {s s' : σ}
    (h : Relational.iter x n s = .ok ⟨⟩ s') : ∃ t, Relational.iter x m s = .ok ⟨⟩ t := by
  induction n generalizing m s with
  | zero => exact ⟨s', Nat.le_zero.mp hle ▸ h⟩
  | succ n ih =>
    cases m with
    | zero => exact ⟨s, rfl⟩
    | succ m =>
      obtain ⟨⟨⟩, t, ht, hrest⟩ := bind_eq_ok.mp h
      obtain ⟨t', ht'⟩ := ih (Nat.le_of_succ_le_succ hle) hrest
      exact ⟨t', (bind_of_ok ht).trans ht'⟩

/-- The last round of a loop that returned. -/
theorem iter_succ_eq_ok {x : EStateM ε σ PUnit} {n : Nat} {s s' : σ} :
    Relational.iter x (n + 1) s = .ok ⟨⟩ s'
      ↔ ∃ t, Relational.iter x n s = .ok ⟨⟩ t ∧ x t = .ok ⟨⟩ s' := by
  induction n generalizing s with
  | zero =>
    refine ⟨fun h => ?_, ?_⟩
    · obtain ⟨⟨⟩, t, ht, hlast⟩ := bind_eq_ok.mp h
      obtain ⟨-, rfl⟩ := EStateM.Result.ok.inj hlast
      exact ⟨s, rfl, ht⟩
    · rintro ⟨t, ht, hstep⟩
      obtain ⟨-, rfl⟩ := EStateM.Result.ok.inj ht
      exact bind_of_ok hstep
  | succ n ih =>
    refine ⟨fun h => ?_, ?_⟩
    · obtain ⟨⟨⟩, t, ht, hrest⟩ := bind_eq_ok.mp h
      obtain ⟨u, hu, hstep⟩ := ih.mp hrest
      exact ⟨u, (bind_of_ok ht).trans hu, hstep⟩
    · rintro ⟨u, hu, hstep⟩
      obtain ⟨⟨⟩, t, ht, hrest⟩ := bind_eq_ok.mp hu
      exact (bind_of_ok ht).trans (ih.mpr ⟨u, hrest, hstep⟩)

/-- A loop that has stopped does not go on. -/
theorem iter_error_of_le {x : EStateM ε σ PUnit} {m n : Nat} (hle : m ≤ n) {s s' : σ} {e : ε}
    (h : Relational.iter x m s = .error e s') : Relational.iter x n s = .error e s' := by
  induction m generalizing n s with
  | zero => exact nomatch h
  | succ m ih =>
    obtain ⟨n, rfl⟩ : ∃ k, n = k + 1 := ⟨n - 1, by omega⟩
    refine bind_eq_error.mpr ?_
    rcases bind_eq_error.mp h with hstep | ⟨⟨⟩, t, ht, hrest⟩
    · exact Or.inl hstep
    · exact Or.inr ⟨⟨⟩, t, ht, ih (Nat.le_of_succ_le_succ hle) hrest⟩

/-- A loop that stops does so in a round, which those before it have led to. -/
theorem iter_eq_error {x : EStateM ε σ PUnit} {n : Nat} {s s' : σ} {e : ε}
    (h : Relational.iter x n s = .error e s') :
    ∃ m < n, ∃ t, Relational.iter x m s = .ok ⟨⟩ t ∧ x t = .error e s' := by
  induction n generalizing s with
  | zero => exact nomatch h
  | succ n ih =>
    rcases bind_eq_error.mp h with hstep | ⟨⟨⟩, t, ht, hrest⟩
    · exact ⟨0, Nat.succ_pos n, s, rfl, hstep⟩
    · obtain ⟨m, hm, t', ht', herror⟩ := ih hrest
      exact ⟨m + 1, Nat.succ_lt_succ hm, t', (bind_of_ok ht).trans ht', herror⟩

/-- `n` values of `x`, one after the other. -/
def times (x : EStateM ε σ α) : Nat → EStateM ε σ (List α)
  | 0 => Pure.pure []
  | n + 1 => do
    let a ← x
    let as ← times x n
    Pure.pure (a :: as)

/-- What holds of each value holds of all. -/
theorem Triple.times {x : EStateM ε σ α} {Q : α → Prop} (h : Triple P x (fun a s => Q a ∧ P s)) :
    ∀ n, Triple P (times x n) (fun as s => (∀ a ∈ as, Q a) ∧ P s)
  | 0 => Triple.pure (fun _ hs => ⟨List.forall_mem_nil _, hs⟩)
  | n + 1 => by
    intro s as s' hs hrun
    obtain ⟨a, t, ha, hrun⟩ := bind_eq_ok.mp hrun
    obtain ⟨as', t', has, hlast⟩ := bind_eq_ok.mp hrun
    obtain ⟨rfl, rfl⟩ := EStateM.Result.ok.inj hlast
    obtain ⟨hQ, ht⟩ := h s a t hs ha
    obtain ⟨hQs, ht'⟩ := Triple.times h n t as' t' ht has
    exact ⟨List.forall_mem_cons.mpr ⟨hQ, hQs⟩, ht'⟩

/-- The first round of a record. -/
theorem track_of_ok {x : EStateM ε σ PUnit} {next : γ → σ → σ → γ} {g : γ} {s s' : σ}
    (h : x s = .ok ⟨⟩ s') (n : Nat) : track x next (n + 1) g s = track x next n (next g s s') s' := by
  rw [track, h]

/-- The last one. -/
theorem track_succ {x : EStateM ε σ PUnit} {next : γ → σ → σ → γ} {n : Nat} {g : γ} {s t t' : σ}
    (h : Relational.iter x n s = .ok ⟨⟩ t) (hstep : x t = .ok ⟨⟩ t') :
    track x next (n + 1) g s = next (track x next n g s) t t' := by
  induction n generalizing g s with
  | zero =>
    obtain ⟨-, rfl⟩ := EStateM.Result.ok.inj h
    exact track_of_ok hstep 0
  | succ n ih =>
    obtain ⟨⟨⟩, s₁, hfirst, hrest⟩ := bind_eq_ok.mp h
    rw [track_of_ok hfirst, track_of_ok hfirst]
    exact ih hrest

/-- `Along`, one round at a time. -/
theorem along_iff {x : EStateM ε σ PUnit} {next : γ → σ → σ → γ} {ok : γ → σ → Prop} {n : Nat}
    {g : γ} {s : σ} : Along x next ok n g s ↔
      ∀ k < n, ∀ t, Relational.iter x k s = .ok ⟨⟩ t → ok (track x next k g s) t := by
  induction n generalizing g s with
  | zero => exact ⟨fun _ k hk => absurd hk (Nat.not_lt_zero k), fun _ => trivial⟩
  | succ n ih =>
    constructor
    · rintro ⟨hfirst, hrest⟩ k hk t ht
      cases k with
      | zero =>
        obtain ⟨-, rfl⟩ := EStateM.Result.ok.inj ht
        exact hfirst
      | succ k =>
        obtain ⟨⟨⟩, s₁, hs₁, ht⟩ := bind_eq_ok.mp ht
        rw [track_of_ok hs₁]
        exact ih.mp (hrest s₁ hs₁) k (Nat.lt_of_succ_lt_succ hk) t ht
    · intro h
      refine ⟨h 0 (Nat.succ_pos n) s rfl, fun s₁ hs₁ => ih.mpr (fun k hk t ht => ?_)⟩
      rw [← track_of_ok hs₁]
      exact h (k + 1) (Nat.succ_lt_succ hk) t ((bind_of_ok hs₁).trans ht)

/-- The record kept beside a loop goes with the state. -/
theorem track_invariant {x : EStateM ε σ PUnit} {next : γ → σ → σ → γ} {I : γ → σ → Prop}
    (hstep : ∀ g s s', I g s → x s = .ok ⟨⟩ s' → I (next g s s') s') :
    ∀ n g s s', I g s → Relational.iter x n s = .ok ⟨⟩ s' → I (track x next n g s) s' := by
  intro n
  induction n with
  | zero =>
    intro g s s' hI hrun
    obtain ⟨-, rfl⟩ := EStateM.Result.ok.inj hrun
    exact hI
  | succ n ih =>
    intro g s s' hI hrun
    obtain ⟨⟨⟩, t, ht, hrest⟩ := bind_eq_ok.mp hrun
    rw [track, ht]
    exact ih _ _ _ (hstep g s t hI ht) hrest

end NostalgiaConv.Hoare
