/-
Linked lists in a store of cells.

`next` gives the cell after a cell, if there is one. `Segment next s l t` says that from
`s` one passes through the cells of `l`, in order, and arrives at `t`; a list that ends
is a segment to `none`. The rules are those of list segments: they split and join, they
depend on their own cells only, and a change of the last cell relinks them. A walk that
looks for a cell finds the first one of the list. Nothing here is about a particular
kind of cell.
-/
import Mathlib.Logic.Function.Basic
import Mathlib.Data.List.Nodup
import Mathlib.Tactic.Common

set_option autoImplicit false

namespace NostalgiaConv.Chains

variable {α : Type}

/-! ## Segments -/

def Segment (next : α → Option α) : Option α → List α → Option α → Prop
  | s, [], t => s = t
  | s, a :: l, t => s = some a ∧ Segment next (next a) l t

variable {next next' : α → Option α} {s t m : Option α} {l l₁ l₂ : List α} {a : α}

@[simp] theorem segment_nil : Segment next s [] t ↔ s = t := Iff.rfl

@[simp] theorem segment_cons :
    Segment next s (a :: l) t ↔ s = some a ∧ Segment next (next a) l t := Iff.rfl

/-- Segments split, and join where one ends and the other starts. -/
theorem segment_append :
    Segment next s (l₁ ++ l₂) t ↔ ∃ m, Segment next s l₁ m ∧ Segment next m l₂ t := by
  induction l₁ generalizing s with
  | nil => simp
  | cons a l₁ ih => simp [ih, and_assoc]

theorem segment_concat :
    Segment next s (l ++ [a]) t ↔ Segment next s l (some a) ∧ next a = t := by
  simp [segment_append]

/-- A segment depends on its own cells only. -/
theorem Segment.congr (h : Segment next s l t) (hnext : ∀ a ∈ l, next' a = next a) :
    Segment next' s l t := by
  induction l generalizing s with
  | nil => exact h
  | cons a l ih =>
    refine ⟨h.1, ?_⟩
    rw [hnext a List.mem_cons_self]
    exact ih h.2 fun b hb => hnext b (List.mem_cons_of_mem a hb)

/-- There is one list of cells from a start to the end. -/
theorem Segment.unique (h₁ : Segment next s l₁ none) (h₂ : Segment next s l₂ none) : l₁ = l₂ := by
  induction l₁ generalizing s l₂ with
  | nil =>
    obtain rfl : s = none := h₁
    cases l₂ with
    | nil => rfl
    | cons b l₂ => exact nomatch h₂.1
  | cons a l₁ ih =>
    obtain ⟨rfl, h₁⟩ := h₁
    cases l₂ with
    | nil => exact nomatch (segment_nil.mp h₂)
    | cons b l₂ =>
      obtain ⟨hab, h₂⟩ := h₂
      obtain rfl := Option.some.inj hab
      rw [ih h₁ h₂]

/-- No cell comes twice before the end. -/
theorem Segment.nodup (h : Segment next s l none) : l.Nodup := by
  induction l generalizing s with
  | nil => exact List.nodup_nil
  | cons a l ih =>
    refine List.nodup_cons.mpr ⟨fun ha => ?_, ih h.2⟩
    -- a list through `a` again would be a proper part of itself
    obtain ⟨l₁, l₂, rfl⟩ := List.append_of_mem ha
    obtain ⟨m, -, hm⟩ := segment_append.mp h.2
    have hback : Segment next (some a) (a :: l₂) none := ⟨rfl, hm.2⟩
    have hfront : Segment next (some a) (a :: (l₁ ++ a :: l₂)) none := ⟨rfl, h.2⟩
    have hlen := congrArg List.length (Segment.unique hfront hback)
    simp only [List.length_cons, List.length_append] at hlen
    omega

/-- The cells under other names. -/
theorem Segment.map {σ : α → α} (h : Segment next s l t)
    (hnext : ∀ a ∈ l, next' (σ a) = (next a).map σ) :
    Segment next' (s.map σ) (l.map σ) (t.map σ) := by
  induction l generalizing s with
  | nil => exact congrArg (Option.map σ) h
  | cons a l ih =>
    obtain ⟨rfl, h⟩ := h
    refine ⟨rfl, ?_⟩
    rw [hnext a List.mem_cons_self]
    exact ih h fun b hb => hnext b (List.mem_cons_of_mem a hb)

/-- One more cell, right after `a`. -/
theorem Segment.insertAfter {n : α} (h : Segment next s l t) (hnodup : l.Nodup)
    (ha : next' a = some n) (hn : next' n = next a) (hother : ∀ b ∈ l, b ≠ a → next' b = next b) :
    ∃ l', Segment next' s l' t ∧ (∀ b ∈ l', b ∈ l ∨ b = n) ∧ (a ∉ l → l' = l) := by
  by_cases hmem : a ∈ l
  · obtain ⟨l₁, l₂, rfl⟩ := List.append_of_mem hmem
    obtain ⟨m, h₁, rfl, h₂⟩ := segment_append.mp h
    have hapart := List.nodup_append.mp hnodup
    have h₁' : Segment next' s l₁ (some a) := h₁.congr fun b hb =>
      hother b (List.mem_append_left _ hb) (hapart.2.2 b hb a List.mem_cons_self)
    have h₂' : Segment next' (next a) l₂ t := h₂.congr fun b hb =>
      hother b (by simp [hb]) fun hba => (List.nodup_cons.mp hapart.2.1).1 (hba ▸ hb)
    refine ⟨l₁ ++ a :: n :: l₂, segment_append.mpr ⟨_, h₁', rfl, ha, hn ▸ h₂'⟩, fun b hb => ?_,
      fun hout => absurd hmem hout⟩
    simp only [List.mem_append, List.mem_cons] at hb ⊢
    tauto
  · exact ⟨l, h.congr fun b hb => hother b hb fun hba => hmem (hba ▸ hb), fun b => .inl, fun _ => rfl⟩

section

variable [DecidableEq α]

/-- A change of a cell that the segment does not pass. -/
theorem Segment.update_of_notMem (h : Segment next s l t) (ha : a ∉ l) (b : Option α) :
    Segment (Function.update next a b) s l t :=
  h.congr fun c hc => Function.update_of_ne (fun heq => ha (by rwa [heq] at hc)) _ _

/-- The last cell relinked. -/
theorem Segment.relink (h : Segment next s (l ++ [a]) t) (ha : a ∉ l) (b : Option α) :
    Segment (Function.update next a b) s (l ++ [a]) b := by
  rw [segment_concat] at h ⊢
  exact ⟨h.1.update_of_notMem ha b, Function.update_self _ _ _⟩

/-- **Two lists with no cell in common are joined** by linking the last cell of the one
to the first of the other. -/
theorem Segment.concat (h₁ : Segment next s (l₁ ++ [a]) none) (h₂ : Segment next t l₂ none)
    (hdisjoint : ∀ b ∈ l₂, b ≠ a) :
    Segment (Function.update next a t) s (l₁ ++ [a] ++ l₂) none := by
  have ha : a ∉ l₁ := fun ha => by
    have hnodup := h₁.nodup
    rw [List.nodup_append] at hnodup
    exact hnodup.2.2 a ha a (List.mem_singleton_self a) rfl
  refine segment_append.mpr ⟨t, h₁.relink ha t, h₂.update_of_notMem (fun hmem => ?_) t⟩
  exact hdisjoint a hmem rfl

/-- A cell put in front. -/
theorem Segment.push (h : Segment next s l t) (ha : a ∉ l) :
    Segment (Function.update next a s) (some a) (a :: l) t := by
  refine ⟨rfl, ?_⟩
  rw [Function.update_self]
  exact h.update_of_notMem ha s

end

/-! ## Walks -/

/-- Look for a cell; the first argument bounds the steps. -/
def walk (next : α → Option α) (p : α → Bool) : Nat → Option α → Option α
  | 0, _ => none
  | _ + 1, none => none
  | fuel + 1, some a => if p a then some a else walk next p fuel (next a)

/-- A walk along a list finds what is first in it. -/
theorem walk_eq_find? {p : α → Bool} {fuel : Nat} (h : Segment next s l none)
    (hfuel : l.length ≤ fuel) : walk next p fuel s = l.find? p := by
  induction l generalizing s fuel with
  | nil =>
    obtain rfl : s = none := h
    cases fuel <;> rfl
  | cons a l ih =>
    obtain ⟨rfl, h⟩ := h
    cases fuel with
    | zero => exact absurd hfuel (Nat.not_succ_le_zero _)
    | succ fuel =>
      rw [walk, List.find?_cons]
      cases p a with
      | true => exact if_pos rfl
      | false =>
        rw [if_neg Bool.false_ne_true]
        exact ih h (Nat.le_of_succ_le_succ hfuel)

/-- A walk stops at a cell looked for, if none before it is one. -/
theorem walk_eq_some {p : α → Bool} {fuel : Nat} (h : Segment next s l (some a))
    (ha : p a = true) (hbefore : ∀ b ∈ l, p b = false) (hfuel : l.length < fuel) :
    walk next p fuel s = some a := by
  induction l generalizing s fuel with
  | nil =>
    obtain rfl : s = some a := h
    cases fuel with
    | zero => exact absurd hfuel (Nat.not_lt_zero _)
    | succ fuel => exact if_pos ha
  | cons b l ih =>
    obtain ⟨rfl, h⟩ := h
    cases fuel with
    | zero => exact absurd hfuel (Nat.not_lt_zero _)
    | succ fuel =>
      rw [walk, if_neg (by simp [hbefore b List.mem_cons_self])]
      exact ih h (fun c hc => hbefore c (List.mem_cons_of_mem b hc)) (Nat.lt_of_succ_lt_succ hfuel)

/-- What a walk finds, and that there is none before it. -/
theorem of_walk_eq_some {p : α → Bool} {fuel : Nat} (h : walk next p fuel s = some a) :
    ∃ l, Segment next s l (some a) ∧ p a = true ∧ ∀ b ∈ l, p b = false := by
  induction fuel generalizing s with
  | zero => exact absurd h (Option.some_ne_none a).symm
  | succ fuel ih =>
    cases s with
    | none => exact absurd h (Option.some_ne_none a).symm
    | some b =>
      rw [walk] at h
      split at h
      · next hb =>
        obtain rfl := Option.some.inj h
        exact ⟨[], rfl, hb, fun c hc => absurd hc List.not_mem_nil⟩
      · next hb =>
        obtain ⟨l, hl, ha, hbefore⟩ := ih h
        refine ⟨b :: l, ⟨rfl, hl⟩, ha, fun c hc => ?_⟩
        rcases List.mem_cons.mp hc with rfl | hc
        · simpa using hb
        · exact hbefore c hc

/-- The cells of a list, read off. -/
def cells (next : α → Option α) : Nat → Option α → List α
  | 0, _ => []
  | _ + 1, none => []
  | fuel + 1, some a => a :: cells next fuel (next a)

theorem cells_eq {fuel : Nat} (h : Segment next s l none) (hfuel : l.length ≤ fuel) :
    cells next fuel s = l := by
  induction l generalizing s fuel with
  | nil =>
    obtain rfl : s = none := h
    cases fuel <;> rfl
  | cons a l ih =>
    obtain ⟨rfl, h⟩ := h
    cases fuel with
    | zero => exact absurd hfuel (Nat.not_succ_le_zero _)
    | succ fuel => rw [cells, ih h (Nat.le_of_succ_le_succ hfuel)]

end NostalgiaConv.Chains
