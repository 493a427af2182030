/-
What the two interpreters of this development share: Lua's own `luaV_execute`, and
the `cluaV_execute` that was written after it for the host's stack.

Both run the code of one proto. A stack is indexed by slot, a program counter by
instruction, so a pointer into either is a number; reading the code or the
constants outside their vectors is undefined. The arithmetic of doubles, their
comparison and `luaO_str2d` are parameters, on 64-bit patterns.
-/
import NostalgiaConv.Opcodes
import NostalgiaConv.Relational
import NostalgiaConv.Transpile

set_option autoImplicit false

namespace NostalgiaConv.Interpreter

open NostalgiaConv.Cipher NostalgiaConv.Host NostalgiaConv.Opcodes NostalgiaConv.Value
open NostalgiaConv.Transpile NostalgiaConv.Relational

/-! ## How a run ends -/

inductive VmError where
  | runerror (msg : String) -- `luaG_runerror`, `rbxG_runerror`
  | callee -- raised inside an operation that was called
  | memory -- raised by the allocation of a string
  deriving DecidableEq

inductive Stop where
  | returned
  | raised (e : VmError)
  | undefined -- the C program has no behaviour here
  | outside -- an opcode that is not modelled, or a call of a Lua function
  deriving DecidableEq

/-! ## Numbers -/

/-- A double, as its 64-bit pattern. -/
abbrev lua_Number := BitVec 64

/-- `luai_numadd` and so on; `luaO_str2d` gets the characters before the first
zero. -/
structure Doubles where
  numadd : lua_Number → lua_Number → lua_Number
  numsub : lua_Number → lua_Number → lua_Number
  numlt : lua_Number → lua_Number → Bool
  numle : lua_Number → lua_Number → Bool
  str2d : List Byte → Option lua_Number

/-- The loop condition of `OP_FORLOOP`. -/
def Doubles.forCondition (N : Doubles) (idx limit step : lua_Number) : Bool :=
  if N.numlt 0 step then N.numle idx limit else N.numle limit idx

/-- The characters before the first zero. -/
def untilZero (bytes : List Byte) : List Byte := bytes.takeWhile (· ≠ 0)

/-! ## Code and constants -/

section

variable {σ : Type}

/-- The instruction at `pc`, if there is one. -/
def codeAt (p : ProtoHead) (pc : Int) : Option Word :=
  if 0 ≤ pc then p.code[pc.toNat]? else none

/-- `*pc` -/
def instrAt (p : ProtoHead) (pc : Int) : EStateM Stop σ Word :=
  match codeAt p pc with
  | some i => pure i
  | none => throw .undefined

theorem instrAt_some {p : ProtoHead} {pc : Int} {i : Word} (h : codeAt p pc = some i) {β : Type}
    (f : Word → EStateM Stop σ β) (s : σ) : (instrAt p pc >>= f) s = f i s := by
  unfold instrAt
  rw [h]
  rfl

theorem instrAt_none {p : ProtoHead} {pc : Int} (h : codeAt p pc = none) {β : Type}
    (f : Word → EStateM Stop σ β) (s : σ) : (instrAt p pc >>= f) s = .error .undefined s := by
  unfold instrAt
  rw [h]
  rfl

/-- `k[n]` -/
def constantAt (p : ProtoHead) (n : Nat) : EStateM Stop σ Constant :=
  match p.k[n]? with
  | some c => pure c
  | none => throw .undefined

/-- Call an operation on a part of the state; what it raises ends the run. -/
def callOn {ρ ε α : Type} (part : σ → ρ) (put : ρ → σ → σ) (e : VmError) (x : EStateM ε ρ α) :
    EStateM Stop σ α := fun s =>
  match x (part s) with
  | .ok a r => .ok a (put r s)
  | .error _ r => .error (.raised e) (put r s)

/-- Calls of operations that end alike end alike, and change their parts only. -/
theorem rel_callOn {σ' ρ ρ' ε ε' α β : Type} {X : Ends Stop Stop} {Y : Ends ε ε'}
    {P : σ → σ' → Prop} {Q : α → β → ρ → ρ' → Prop} {part : σ → ρ} {put : ρ → σ → σ}
    {part' : σ' → ρ'} {put' : ρ' → σ' → σ'} {e : VmError} {x : EStateM ε ρ α} {y : EStateM ε' ρ' β}
    (hX : X.same (.raised e) (.raised e)) (hleft : ∀ d, ¬ Y.left d) (hright : ∀ d, ¬ Y.right d)
    (hop : ∀ s t, P s t → Y.Related Q (x (part s)) (y (part' t))) :
    Rel X P (callOn part put e x) (callOn part' put' e y) (fun a b s t =>
      ∃ s₀ t₀ r r', P s₀ t₀ ∧ s = put r s₀ ∧ t = put' r' t₀ ∧ Q a b r r') := by
  intro s t hst
  have h := hop s t hst
  unfold callOn
  cases hx : x (part s) with
  | ok a r =>
    rw [hx] at h
    cases hy : y (part' t) with
    | ok b r' =>
      rw [hy] at h
      -- both return
      exact ⟨s, t, r, r', hst, rfl, rfl, h⟩
    | error d r' =>
      rw [hy] at h
      exact absurd h (hright d)
  | error d r =>
    rw [hx] at h
    cases hy : y (part' t) with
    | ok b r' =>
      rw [hy] at h
      exact absurd h (hleft d)
    | error d' r' => exact Or.inr (Or.inr hX)

end

/-- `do setnil(rb--) while (rb >= ra)`, where `setnil` is what one round does to
a slot. -/
def setNils {V : Type} (setnil : V → V) (ra : Nat) : Nat → (Nat → V) → Nat → V
  | 0, stack => Function.update stack 0 (setnil (stack 0))
  | rb + 1, stack =>
    let stack := Function.update stack (rb + 1) (setnil (stack (rb + 1)))
    if ra ≤ rb then setNils setnil ra rb stack else stack

/-- The loop reaches from `rb` down to `ra`, and `rb` in any case. -/
theorem setNils_apply {V : Type} (setnil : V → V) (ra rb : Nat) (stack : Nat → V) (n : Nat) :
    setNils setnil ra rb stack n
      = if n ≤ rb ∧ (ra ≤ n ∨ n = rb) then setnil (stack n) else stack n := by
  induction rb generalizing stack with
  | zero =>
    rw [setNils]
    by_cases hn : n = 0
    · subst hn
      rw [Function.update_self, if_pos (by omega)]
    · rw [Function.update_of_ne hn, if_neg (by omega)]
  | succ rb ih =>
    rw [setNils]
    by_cases hn : n = rb + 1
    · subst hn
      rw [if_pos (by omega : rb + 1 ≤ rb + 1 ∧ (ra ≤ rb + 1 ∨ rb + 1 = rb + 1))]
      by_cases hle : ra ≤ rb
      · rw [if_pos hle, ih, if_neg (by omega), Function.update_self]
      · rw [if_neg hle, Function.update_self]
    · by_cases hle : ra ≤ rb
      · rw [if_pos hle, ih, Function.update_of_ne hn]
        refine if_congr ?_ rfl rfl
        omega
      · rw [if_neg hle, Function.update_of_ne hn, if_neg (by omega)]

/-- The operands of an instruction, as distances. -/
def argA (i : Word) : Nat := (GETARG_A i).toNat
def argB (i : Word) : Nat := (GETARG_B i).toNat
def argC (i : Word) : Nat := (GETARG_C i).toNat
def argBx (i : Word) : Nat := (GETARG_Bx i).toNat

/-- What `luaD_precall` and the host's own return. -/
def PCRLUA : Int := 0
def PCRC : Int := 1

end NostalgiaConv.Interpreter
