/-
Reading values off a stream.

A stream is anything whose next symbols can be taken in blocks: a list, or a reader
that hands out its input in pieces. `Reads` says that a program takes exactly these
symbols and returns this value, whatever comes after them; its rules follow the
program's structure, so that a reader is matched with the writer of its format part
by part. Nothing here is about a particular format.
-/
import NostalgiaConv.Hoare

set_option autoImplicit false

namespace NostalgiaConv.Streams

open NostalgiaConv.Relational NostalgiaConv.Hoare

/-! ## Streams -/

/-- `block n` takes the next `n` symbols, or ends with `short` when there are fewer. -/
structure Stream (ε σ β : Type) where
  block : Nat → EStateM ε σ (List β)
  Holds : σ → List β → Prop
  short : ε
  block_ok : ∀ {n : Nat} {s : σ} {z : List β}, Holds s z → n ≤ z.length →
    ∃ s', block n s = .ok (z.take n) s' ∧ Holds s' (z.drop n)
  block_short : ∀ {n : Nat} {s : σ} {z : List β}, Holds s z → z.length < n →
    ∃ s', block n s = .error short s'

/-- Errors are the same when they are equal, and no error ends a comparison early. -/
def sameError {ε : Type} : Ends ε ε where
  same := Eq
  left _ := False
  right _ := False

variable {ε σ τ β α α' γ : Type}

/-- Loops that return lists, compared round by round. -/
theorem Rel.times {X : Ends ε ε} {P : σ → τ → Prop} {x : EStateM ε σ α} {y : EStateM ε τ α'}
    {g : α → α'} (h : Rel X P x y (fun a b s t => b = g a ∧ P s t)) :
    ∀ n, Rel X P (times x n) (times y n) (fun as bs s t => bs = as.map g ∧ P s t)
  | 0 => Rel.pure fun _ _ hst => ⟨rfl, hst⟩
  | n + 1 => by
    refine Rel.bind h fun a b => Rel.assume fun hab => ?_
    refine Rel.bind (Rel.times h n) fun as bs => Rel.assume fun habs => ?_
    refine Rel.pure fun _ _ hst => ⟨?_, hst⟩
    rw [hab, habs, List.map_cons]

/-! ## What a program reads -/

/-- `x` takes `bytes` off any input that starts with them, and returns `a`. -/
def Reads (S : Stream ε σ β) (x : EStateM ε σ α) (bytes : List β) (a : α) : Prop :=
  ∀ s rest, S.Holds s (bytes ++ rest) → ∃ s', x s = .ok a s' ∧ S.Holds s' rest

variable {S : Stream ε σ β}

theorem Reads.pure (a : α) : Reads S (Pure.pure a) [] a :=
  fun s _ hs => ⟨s, rfl, hs⟩

theorem Reads.bind {x : EStateM ε σ α'} {f : α' → EStateM ε σ α} {bytes rest : List β} {b : α'}
    {a : α} (hx : Reads S x bytes b) (hf : Reads S (f b) rest a) :
    Reads S (x >>= f) (bytes ++ rest) a := by
  intro s z hs
  rw [List.append_assoc] at hs
  obtain ⟨t, ht, hrest⟩ := hx s _ hs
  obtain ⟨u, hu, hz⟩ := hf t z hrest
  exact ⟨u, (bind_of_ok ht).trans hu, hz⟩

/-- A last step that reads nothing. -/
theorem Reads.map {x : EStateM ε σ α'} {f : α' → EStateM ε σ α} {bytes : List β} {b : α'} {a : α}
    (hx : Reads S x bytes b) (hf : f b = Pure.pure a) : Reads S (x >>= f) bytes a := by
  have h : Reads S (f b) [] a := hf ▸ Reads.pure a
  have := Reads.bind hx h
  rwa [List.append_nil] at this

/-- A first step that reads nothing. -/
theorem Reads.skip {x : EStateM ε σ α'} {f : α' → EStateM ε σ α} {bytes : List β} {b : α'} {a : α}
    (hx : Reads S x [] b) (hf : Reads S (f b) bytes a) : Reads S (x >>= f) bytes a :=
  Reads.bind hx hf

/-- A check that does not fail reads nothing. -/
theorem Reads.when {c : Prop} [Decidable c] {x : EStateM ε σ PUnit} (hc : ¬ c) :
    Reads S (Relational.when c x) [] ⟨⟩ := by
  rw [Relational.when, if_neg hc]
  exact Reads.pure _

theorem Reads.block {n : Nat} {bytes : List β} (hn : bytes.length = n) :
    Reads S (S.block n) bytes bytes := by
  intro s rest hs
  have hle : n ≤ (bytes ++ rest).length := by
    rw [List.length_append, hn]
    exact Nat.le_add_right _ _
  obtain ⟨s', hs', hrest⟩ := S.block_ok hs hle
  rw [List.take_left' hn] at hs'
  rw [List.drop_left' hn] at hrest
  exact ⟨s', hs', hrest⟩

/-- One value after the other. -/
theorem Reads.times {x : EStateM ε σ α} {enc : γ → List β} {g : γ → α} :
    ∀ {as : List γ}, (∀ a ∈ as, Reads S x (enc a) (g a)) →
      Reads S (times x as.length) (as.flatMap enc) (as.map g)
  | [], _ => Reads.pure []
  | a :: as, h => by
    rw [List.flatMap_cons, List.map_cons]
    refine Reads.bind (h a List.mem_cons_self) (Reads.map (Reads.times fun b hb => ?_) rfl)
    exact h b (List.mem_cons_of_mem a hb)

/-- What a reader accepts starts one way only: two values that are read off the same
input are equal, and so is what is left. -/
theorem Reads.unique {x : EStateM ε (List β) α} {S : Stream ε (List β) β}
    (hlist : ∀ z, S.Holds z z) (heq : ∀ s z, S.Holds s z → s = z) {bytes bytes' rest rest' : List β}
    {a a' : α} (h : Reads S x bytes a) (h' : Reads S x bytes' a')
    (hz : bytes ++ rest = bytes' ++ rest') : a = a' ∧ rest = rest' := by
  obtain ⟨s, hs, hrest⟩ := h _ rest (hlist _)
  obtain ⟨s', hs', hrest'⟩ := h' _ rest' (hlist _)
  rw [hz, hs'] at hs
  obtain ⟨rfl, rfl⟩ := EStateM.Result.ok.inj hs
  exact ⟨rfl, (heq _ _ hrest).symm.trans (heq _ _ hrest')⟩

end NostalgiaConv.Streams
