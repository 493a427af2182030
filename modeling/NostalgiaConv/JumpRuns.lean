/-
Runs of the code generator of `lua/lcode.c`, as far as jumps go.

The parser codes instructions, collects jumps in lists and has the lists patched, in any
order. A run keeps a record of where each jump was sent; the file proves that at its end
every jump leads there, although jumps on hold in `jpc` may have been taken along by a
jump that was coded at the place they were to lead to.
-/
import NostalgiaConv.JumpLists
import NostalgiaConv.Transition

set_option autoImplicit false

namespace NostalgiaConv.JumpRuns

open NostalgiaConv.BitField NostalgiaConv.Cipher NostalgiaConv.Opcodes NostalgiaConv.Chains
open NostalgiaConv.Instr NostalgiaConv.Transition NostalgiaConv.JumpLists
open OpCode OpMode

variable {code code' : List Word} {l : List Nat} {n : Nat}

/-! ## The lists of a run -/

/-- What the parser keeps lists in. The true and false lists of an expression are value
lists, whose jumps may have to deliver a value; those of a statement are plain. -/
inductive Slot where
  | value (k : Nat)
  | plain (k : Nat)
  deriving DecidableEq

/-- A slot, or the jumps on hold in `jpc`. -/
abbrev Holder := Option Slot

/-- Two jumps in one list, or that lead to one place. -/
def Together (code : List Word) (lists : Holder → List Nat) (n m : Nat) : Prop :=
  (∀ s, n ∈ lists s ↔ m ∈ lists s) ∧ ((∀ s, n ∉ lists s) → dest code n = dest code m)

/-- The jump at `n` was sent to `t`: it waits for the code there, or leads there, or goes
with the jump that stands there. -/
def Settled (code : List Word) (lists : Holder → List Nat) (here : Int) (n : Nat) (t : Int) :
    Prop :=
  (n ∈ lists none ∧ t = here) ∨ ((∀ s, n ∉ lists s) ∧ dest code n = t)
    ∨ ∃ m : Nat, t = m ∧ m < code.length ∧ GET_OPCODE (wordAt code m) = OP_JMP.toWord
      ∧ Together code lists n m

/-- The lists have no jump in common, every jump is in one or was sent somewhere, and
all that were sent are on their way; `here` is what the jumps on hold wait for. -/
structure Lists (code : List Word) (lists : Holder → List Nat) (asked : List (Nat × Int))
    (here : Int) : Prop where
  list : ∀ s, JumpList code (lists s)
  apart : ∀ s s', s ≠ s' → List.Disjoint (lists s) (lists s')
  jumps : ∀ n t, (n, t) ∈ asked → n < code.length ∧ isJump (wordAt code n)
  settled : ∀ n t, (n, t) ∈ asked → Settled code lists here n t
  onhold : ∀ n ∈ lists none, (n, here) ∈ asked
  fresh : ∀ k, ∀ n ∈ lists (some (.value k)), ∀ t, (n, t) ∉ asked
  all : ∀ n < code.length, isJump (wordAt code n) →
    (∃ s, n ∈ lists s) ∨ ∃ t, (n, t) ∈ asked

section

variable {lists : Holder → List Nat} {asked asked' : List (Nat × Int)} {here : Int} {s s' : Holder}

theorem Lists.start : Lists [] (fun _ => []) [] 0 where
  list _ := JumpList.nil
  apart _ _ _ := List.disjoint_nil_left _
  jumps _ _ h := nomatch h
  settled _ _ h := nomatch h
  onhold _ h := nomatch h
  fresh _ _ h := nomatch h
  all _ h := nomatch h

/-- What was asked counts as a set. -/
theorem Lists.asked_congr (h : Lists code lists asked here)
    (hasked : ∀ n t, (n, t) ∈ asked' ↔ (n, t) ∈ asked) : Lists code lists asked' here where
  list := h.list
  apart := h.apart
  jumps n t hn := h.jumps n t ((hasked n t).mp hn)
  settled n t hn := h.settled n t ((hasked n t).mp hn)
  onhold n hn := (hasked n here).mpr (h.onhold n hn)
  fresh k n hn t ht := h.fresh k n hn t ((hasked n t).mp ht)
  all n hn hjump := (h.all n hn hjump).imp_right fun ⟨t, ht⟩ => ⟨t, (hasked n t).mpr ht⟩

/-- Where the jumps of a list are sent when it is patched. -/
def sent (code : List Word) (l : List Nat) (vtarget dtarget : Int) : List (Nat × Int) :=
  l.map fun n => (n, if byTestset code n then vtarget else dtarget)

theorem mem_sent {vtarget dtarget t : Int} : (n, t) ∈ sent code l vtarget dtarget
    ↔ n ∈ l ∧ t = if byTestset code n then vtarget else dtarget := by
  simp only [sent, List.mem_map, Prod.mk.injEq]
  constructor
  · rintro ⟨m, hm, rfl, rfl⟩
    exact ⟨hm, rfl⟩
  · rintro ⟨hn, rfl⟩
    exact ⟨n, hn, rfl, rfl⟩

theorem mem_update_nil {k : Nat} : k ∈ Function.update lists s [] s' ↔ s' ≠ s ∧ k ∈ lists s' := by
  by_cases hs : s' = s
  · rw [hs, Function.update_self]
    simp
  · rw [Function.update_of_ne hs]
    simp [hs]

/-- A patched list is empty, and its jumps lead where they were sent. -/
theorem Lists.close {vtarget dtarget : Int} {reg : Word} (h : Lists code lists asked here)
    (hpatched : Patched code code' (lists s) vtarget reg dtarget)
    (hhere : s = none → vtarget = here ∧ dtarget = here)
    (hvalue : vtarget = dtarget ∨ ∃ k, s = some (.value k)) :
    Lists code' (Function.update lists s []) (asked ++ sent code (lists s) vtarget dtarget)
      here := by
  have hjump : ∀ {n}, n < code.length → isJump (wordAt code n) →
      n < code'.length ∧ isJump (wordAt code' n) := fun hn hj =>
    ⟨hpatched.length ▸ hn, hpatched.isJump hj⟩
  have hkeep : ∀ {n}, n ∉ lists s → isJump (wordAt code n) → dest code' n = dest code n := by
    intro n hn hj
    rw [dest, dest, hpatched.wordAt_eq hn hj]
  have hout : ∀ {n}, n ∈ lists s → ∀ s', n ∉ Function.update lists s [] s' := by
    intro n hn s' hmem
    obtain ⟨hne, hmem⟩ := mem_update_nil.mp hmem
    exact h.apart s' s hne hmem hn
  refine ⟨fun s' => ?_, fun s₁ s₂ hne => ?_, fun n t ht => ?_, fun n t ht => ?_, fun n hn => ?_,
    fun k n hn t ht => ?_, fun n hn hj => ?_⟩
  · -- the list itself is empty; the others have kept their words
    by_cases hs : s' = s
    · rw [hs, Function.update_self]
      exact JumpList.nil
    · rw [Function.update_of_ne hs]
      exact (h.list s').congr hpatched.length fun n hn =>
        hpatched.wordAt_eq (fun hns => h.apart s' s hs hn hns) ((h.list s').isJump n hn)
  · intro n hn₁ hn₂
    exact h.apart s₁ s₂ hne (mem_update_nil.mp hn₁).2 (mem_update_nil.mp hn₂).2
  · rcases List.mem_append.mp ht with ht | ht
    · exact hjump (h.jumps n t ht).1 (h.jumps n t ht).2
    · have hnode := (h.list s).node n (mem_sent.mp ht).1
      exact hjump hnode.lt hnode.jump
  · rcases List.mem_append.mp ht with hold | hnew
    · obtain ⟨-, hj⟩ := h.jumps n t hold
      rcases h.settled n t hold with ⟨hn, rfl⟩ | ⟨hn, rfl⟩ | ⟨m, rfl, hm, hop, hiff, hdest⟩
      · -- on hold
        by_cases hs : none = s
        · subst hs
          obtain ⟨rfl, rfl⟩ := hhere rfl
          refine .inr (.inl ⟨hout hn, ?_⟩)
          rw [hpatched.dest n hn, ite_self]
        · exact .inl ⟨mem_update_nil.mpr ⟨hs, hn⟩, rfl⟩
      · -- closed before
        exact .inr (.inl ⟨fun s' hmem => hn s' (mem_update_nil.mp hmem).2, hkeep (hn s) hj⟩)
      · -- together with the jump that stands there
        have hjm : isJump (wordAt code m) := ⟨OP_JMP, hop, rfl⟩
        refine .inr (.inr ⟨m, rfl, hpatched.length ▸ hm, ?_, fun s' => ?_, fun hnone => ?_⟩)
        · by_cases hms : m ∈ lists s
          · rw [hpatched.opcode m hms, hop]
          · rw [hpatched.wordAt_eq hms hjm, hop]
        · rw [mem_update_nil, mem_update_nil, hiff]
        · by_cases hns : n ∈ lists s
          · rcases hvalue with rfl | ⟨k, rfl⟩
            · rw [hpatched.dest n hns, hpatched.dest m ((hiff s).mp hns), ite_self, ite_self]
            · exact absurd hold (h.fresh k n hns _)
          · rw [hkeep hns hj, hkeep (fun hms => hns ((hiff s).mpr hms)) hjm]
            refine hdest fun s' hmem => ?_
            by_cases hs : s' = s
            · exact hns (hs ▸ hmem)
            · exact hnone s' (mem_update_nil.mpr ⟨hs, hmem⟩)
    · -- sent just now
      obtain ⟨hn, rfl⟩ := mem_sent.mp hnew
      exact .inr (.inl ⟨hout hn, hpatched.dest n hn⟩)
  · exact List.mem_append_left _ (h.onhold n (mem_update_nil.mp hn).2)
  · obtain ⟨hne, hn⟩ := mem_update_nil.mp hn
    rcases List.mem_append.mp ht with ht | ht
    · exact h.fresh k n hn t ht
    · exact h.apart _ s hne hn (mem_sent.mp ht).1
  · -- patching makes no jump: what is one now was one before
    have hj' : isJump (wordAt code n) := by
      by_cases hns : n ∈ lists s
      · exact (h.list s).isJump n hns
      · rw [hpatched.word n hns] at hj
        split_ifs at hj with hcond
        · exact absurd hj (patchedTest_not_jump hcond.2 reg)
        · exact hj
    rcases h.all n (hpatched.length ▸ hn) hj' with ⟨s', hs'⟩ | ⟨t, ht⟩
    · by_cases hs : s' = s
      · exact .inr ⟨_, List.mem_append_right _ (mem_sent.mpr ⟨hs ▸ hs', rfl⟩)⟩
      · exact .inl ⟨s', mem_update_nil.mpr ⟨hs, hs'⟩⟩
    · exact .inr ⟨t, List.mem_append_left _ ht⟩

theorem dest_append {n : Nat} (hn : n < code.length) (w : Word) :
    dest (code ++ [w]) n = dest code n := by
  rw [dest, dest, wordAt_append hn]

/-- What was sent is still so with more code behind it, if nothing waits for that. -/
theorem Settled.append {here' t : Int} {lists' : Holder → List Nat} (w : Word)
    (h : Settled code lists here n t) (hn : n < code.length)
    (hempty : lists none = [] ∨ here' = here)
    (hmem : ∀ {s m}, m < code.length → (m ∈ lists' s ↔ m ∈ lists s)) :
    Settled (code ++ [w]) lists' here' n t := by
  rcases h with ⟨hhold, rfl⟩ | ⟨hout, rfl⟩ | ⟨m, rfl, hm, hop, hiff, hdest⟩
  · rcases hempty with hempty | rfl
    · rw [hempty] at hhold
      exact nomatch hhold
    · exact .inl ⟨(hmem hn).mpr hhold, rfl⟩
  · exact .inr (.inl ⟨fun s hs => hout s ((hmem hn).mp hs), dest_append hn w⟩)
  · refine .inr (.inr ⟨m, rfl, ?_, ?_, fun s => ?_, fun hnone => ?_⟩)
    · rw [List.length_append]
      exact Nat.lt_add_right _ hm
    · rw [wordAt_append hm, hop]
    · rw [hmem hn, hmem hm, hiff]
    · rw [dest_append hn, dest_append hm, hdest fun s hs => hnone s ((hmem hn).mpr hs)]

/-- Code that is no jump. -/
theorem Lists.grow {here' : Int} {w : Word} (h : Lists code lists asked here)
    (hempty : lists none = []) (hw : ¬ isJump w) : Lists (code ++ [w]) lists asked here' := by
  refine ⟨fun s => (h.list s).append w, h.apart, fun n t ht => ?_, fun n t ht => ?_, ?_, h.fresh,
    fun n hn hj => ?_⟩
  · obtain ⟨hn, hj⟩ := h.jumps n t ht
    rw [wordAt_append hn, List.length_append]
    exact ⟨Nat.lt_add_right _ hn, hj⟩
  · exact (h.settled n t ht).append w (h.jumps n t ht).1 (.inl hempty) fun _ => Iff.rfl
  · rw [hempty]
    exact List.forall_mem_nil _
  · rw [List.length_append, List.length_singleton] at hn
    rcases Nat.lt_succ_iff_lt_or_eq.mp hn with hn | rfl
    · rw [wordAt_append hn] at hj
      exact h.all n hn hj
    · rw [wordAt_concat] at hj
      exact absurd hj hw

/-- Coding a jump starts a list. -/
theorem Lists.jump {here' : Int} {w : Word} {k : Slot} (h : Lists code lists asked here)
    (hslot : lists (some k) = []) (hhere : lists none = [] ∨ here' = here) (hw : isJump w)
    (hend : GETARG_sBx w = NO_JUMP) :
    Lists (code ++ [w]) (Function.update lists (some k) [code.length]) asked here' := by
  have hnew : ∀ {s}, code.length ∉ lists s := fun hmem =>
    absurd ((h.list _).node _ hmem).lt (Nat.lt_irrefl _)
  have hmem : ∀ {s n}, n < code.length →
      (n ∈ Function.update lists (some k) [code.length] s ↔ n ∈ lists s) := by
    intro s n hn
    by_cases hs : s = some k
    · rw [hs, Function.update_self, hslot, List.mem_singleton]
      exact iff_of_false (Nat.ne_of_lt hn) List.not_mem_nil
    · rw [Function.update_of_ne hs]
  have hother : ∀ {s}, s ≠ some k → Function.update lists (some k) [code.length] s = lists s :=
    fun hs => Function.update_of_ne hs _ _
  have hnone := hother (s := none) nofun
  have hlt : ∀ {m}, m < code.length → m < (code ++ [w]).length := fun hm => by
    rw [List.length_append]
    exact Nat.lt_add_right _ hm
  refine ⟨fun s => ?_, fun s s' hne => ?_, fun n t ht => ?_, fun n t ht => ?_, fun n hn => ?_,
    fun j n hn t ht => ?_, fun n hn hj => ?_⟩
  · by_cases hs : s = some k
    · rw [hs, Function.update_self]
      exact JumpList.last hw hend
    · rw [hother hs]
      exact (h.list s).append w
  · by_cases hs : s = some k
    · rw [hs, Function.update_self, hother fun hs' => hne (hs.trans hs'.symm)]
      exact List.singleton_disjoint.mpr hnew
    · by_cases hs' : s' = some k
      · rw [hother hs, hs', Function.update_self]
        exact List.disjoint_singleton.mpr hnew
      · rw [hother hs, hother hs']
        exact h.apart s s' hne
  · obtain ⟨hn, hj⟩ := h.jumps n t ht
    rw [wordAt_append hn]
    exact ⟨hlt hn, hj⟩
  · exact (h.settled n t ht).append w (h.jumps n t ht).1 hhere hmem
  · -- the new jump is not on hold
    rw [hnone] at hn
    rcases hhere with hempty | rfl
    · rw [hempty] at hn
      exact nomatch hn
    · exact h.onhold n hn
  · have hlt' := (h.jumps n t ht).1
    exact h.fresh j n ((hmem hlt').mp hn) t ht
  · rw [List.length_append, List.length_singleton] at hn
    -- a jump from before, or the new one
    rcases Nat.lt_succ_iff_lt_or_eq.mp hn with hn | rfl
    · rw [wordAt_append hn] at hj
      exact (h.all n hn hj).imp_left fun ⟨s, hs⟩ => ⟨s, (hmem hn).mpr hs⟩
    · refine .inl ⟨some k, ?_⟩
      rw [Function.update_self]
      exact List.mem_singleton_self _

/-- One list appended to another. -/
def merged (lists : Holder → List Nat) (s s' : Holder) : Holder → List Nat :=
  Function.update (Function.update lists s (lists s ++ lists s')) s' []

theorem mem_merged {r : Holder} (hne : s ≠ s') : n ∈ merged lists s s' r
    ↔ (r = s ∧ (n ∈ lists s ∨ n ∈ lists s')) ∨ (r ≠ s ∧ r ≠ s' ∧ n ∈ lists r) := by
  rw [merged, mem_update_nil]
  by_cases hr : r = s
  · rw [hr, Function.update_self, List.mem_append]
    simp [hne]
  · rw [Function.update_of_ne hr]
    simp [hr]

/-- **Jumps that go together stay so** when lists are joined: those on hold join the list
of a jump that stands where they are to lead, or get company. -/
theorem Lists.merge (h : Lists code lists asked here) (hne : s ≠ s')
    (hjoined : Joined code code' (lists s) (lists s'))
    (hasked : ∀ n t, (n, t) ∈ asked' ↔ (n, t) ∈ asked ∨ (s = none ∧ n ∈ lists s' ∧ t = here))
    (hvalue : ∀ k, s = some (.value k) → ∀ n ∈ lists s', ∀ t, (n, t) ∉ asked)
    (hhold : s' = none → lists none = []
      ∨ ∃ m : Nat, here = m ∧ m ∈ lists s ∧ GET_OPCODE (wordAt code m) = OP_JMP.toWord) :
    Lists code' (merged lists s s') asked' here := by
  have hjump : ∀ {n}, isJump (wordAt code n) → isJump (wordAt code' n) := fun hj =>
    hj.of_opcode (hjoined.opcode _)
  have hkeep : ∀ {n}, (∀ r, n ∉ merged lists s s' r) → dest code' n = dest code n := by
    intro n hn
    have hns : n ∉ lists s := fun hmem => hn s ((mem_merged hne).mpr (.inl ⟨rfl, .inl hmem⟩))
    rw [dest, dest, hjoined.word n hns]
  have hout : ∀ {n}, (∀ r, n ∉ merged lists s s' r) ↔ ∀ r, n ∉ lists r := by
    intro n
    simp only [mem_merged hne]
    constructor
    · intro hn r hr
      by_cases hrs : r = s
      · exact hn s (.inl ⟨rfl, .inl (hrs ▸ hr)⟩)
      · by_cases hrs' : r = s'
        · exact hn s (.inl ⟨rfl, .inr (hrs' ▸ hr)⟩)
        · exact hn r (.inr ⟨hrs, hrs', hr⟩)
    · rintro hn r (⟨-, hr | hr⟩ | ⟨-, -, hr⟩)
      · exact hn s hr
      · exact hn s' hr
      · exact hn r hr
  refine ⟨fun r => ?_, fun r r' hr n hn hn' => ?_, fun n t ht => ?_, fun n t ht => ?_,
    fun n hn => ?_, fun k n hn t ht => ?_, fun n hn hj => ?_⟩
  · by_cases hr' : r = s'
    · rw [merged, hr', Function.update_self]
      exact JumpList.nil
    · rw [merged, Function.update_of_ne hr']
      by_cases hr : r = s
      · rw [hr, Function.update_self]
        exact hjoined.list
      · rw [Function.update_of_ne hr]
        exact (h.list r).congr hjoined.length fun n hn =>
          hjoined.word n fun hns => h.apart r s hr hn hns
  · rcases (mem_merged hne).mp hn with ⟨rfl, h₁⟩ | ⟨-, hrs', h₁⟩
    · rcases (mem_merged hne).mp hn' with ⟨rfl, -⟩ | ⟨-, hrs', h₂⟩
      · exact hr rfl
      · rcases h₁ with h₁ | h₁
        · exact h.apart _ _ hr h₁ h₂
        · exact h.apart _ _ hrs' h₂ h₁
    · rcases (mem_merged hne).mp hn' with ⟨rfl, h₂ | h₂⟩ | ⟨-, -, h₂⟩
      · exact h.apart _ _ hr h₁ h₂
      · exact h.apart _ _ hrs' h₁ h₂
      · exact h.apart _ _ hr h₁ h₂
  · rw [hjoined.length]
    rcases (hasked n t).mp ht with ht | ⟨-, hn, -⟩
    · exact ⟨(h.jumps n t ht).1, hjump (h.jumps n t ht).2⟩
    · have hnode := (h.list s').node n hn
      exact ⟨hnode.lt, hjump hnode.jump⟩
  · rcases (hasked n t).mp ht with ht | ⟨rfl, hn, rfl⟩
    · rcases h.settled n t ht with ⟨hn, rfl⟩ | ⟨hn, rfl⟩ | ⟨m, rfl, hm, hop, hiff, hdest⟩
      · -- on hold
        by_cases hs' : none = s'
        · subst hs'
          -- they join the list of the jump that stands at `here`, and go with it from now on
          rcases hhold rfl with hempty | ⟨m, rfl, hm, hop⟩
          · rw [hempty] at hn
            exact absurd hn List.not_mem_nil
          · refine .inr (.inr ⟨m, rfl, hjoined.length ▸ ((h.list s).node m hm).lt, ?_,
              fun r => ?_, fun hnone => ?_⟩)
            · rw [hjoined.opcode, hop]
            · by_cases hr : r = s
              · exact iff_of_true ((mem_merged hne).mpr (.inl ⟨hr, .inr hn⟩))
                  ((mem_merged hne).mpr (.inl ⟨hr, .inl hm⟩))
              · refine iff_of_false (fun hmem => ?_) fun hmem => ?_
                · rcases (mem_merged hne).mp hmem with ⟨hrs, -⟩ | ⟨-, hrn, hmem⟩
                  · exact hr hrs
                  · exact h.apart r none hrn hmem hn
                · rcases (mem_merged hne).mp hmem with ⟨hrs, -⟩ | ⟨-, -, hmem⟩
                  · exact hr hrs
                  · exact h.apart r s hr hmem hm
            · exact absurd ((mem_merged hne).mpr (.inl ⟨rfl, .inr hn⟩)) (hnone s)
        · refine .inl ⟨(mem_merged hne).mpr ?_, rfl⟩
          by_cases hs : none = s
          · exact .inl ⟨hs, .inl (hs ▸ hn)⟩
          · exact .inr ⟨hs, hs', hn⟩
      · -- closed before
        exact .inr (.inl ⟨hout.mpr hn, hkeep (hout.mpr hn)⟩)
      · -- together with the jump that stands there
        refine .inr (.inr ⟨m, rfl, hjoined.length ▸ hm, ?_, fun r => ?_, fun hnone => ?_⟩)
        · rw [hjoined.opcode, hop]
        · rw [mem_merged hne, mem_merged hne, hiff, hiff, hiff]
        · have hnout := hout.mp hnone
          have hmout : ∀ r, m ∉ lists r := fun r hr => hnout r ((hiff r).mpr hr)
          rw [hkeep hnone, hkeep (hout.mpr hmout), hdest hnout]
    · -- put on hold just now
      exact .inl ⟨(mem_merged hne).mpr (.inl ⟨rfl, .inr hn⟩), rfl⟩
  · rcases (mem_merged hne).mp hn with ⟨rfl, hn | hn⟩ | ⟨-, -, hn⟩
    · exact (hasked n here).mpr (.inl (h.onhold n hn))
    · exact (hasked n here).mpr (.inr ⟨rfl, hn, rfl⟩)
    · exact (hasked n here).mpr (.inl (h.onhold n hn))
  · rcases (mem_merged hne).mp hn with ⟨hs, hn⟩ | ⟨hs, hs', hn⟩
    · rcases (hasked n t).mp ht with ht | ⟨rfl, -⟩
      · rcases hn with hn | hn
        · exact h.fresh k n (hs ▸ hn) t ht
        · exact hvalue k hs.symm n hn t ht
      · exact absurd hs (Option.some_ne_none _)
    · rcases (hasked n t).mp ht with ht | ⟨-, hn', -⟩
      · exact h.fresh k n hn t ht
      · exact h.apart _ s' hs' hn hn'
  · rw [hjoined.length] at hn
    rcases h.all n hn (hj.of_opcode (hjoined.opcode n).symm) with ⟨r, hr⟩ | ⟨t, ht⟩
    · by_contra hnone
      refine (hout.mp fun r' hr' => hnone (.inl ⟨r', hr'⟩)) r hr
    · exact .inr ⟨t, (hasked n t).mpr (.inl ht)⟩

theorem Lists.joined {list : Int} (h : Lists code lists asked here) (hne : s ≠ s')
    (hconcat : luaK_concat code (listOf (lists s)) (listOf (lists s')) = .ok (list, code')) :
    list = listOf (lists s ++ lists s') ∧ Joined code code' (lists s) (lists s') :=
  luaK_concat_joined (h.list s) (h.list s') (h.apart s s' hne) hconcat

/-- What the jumps on hold wait for does not matter where there are none. -/
theorem Lists.elsewhere {here' : Int} (h : Lists code lists asked here)
    (hempty : lists none = []) : Lists code lists asked here' := by
  refine ⟨h.list, h.apart, h.jumps, fun n t ht => ?_, ?_, h.fresh, h.all⟩
  · refine (h.settled n t ht).imp_left fun hhold => ?_
    rw [hempty] at hhold
    exact nomatch hhold.1
  · rw [hempty]
    exact List.forall_mem_nil _

/-- The jumps on hold lead to the next instruction. -/
theorem Lists.discharge {reg : Word} (h : Lists code lists asked here)
    (hpatched : Patched code code' (lists none) here reg here) :
    Lists code' (Function.update lists none []) asked here := by
  refine (h.close hpatched (fun _ => ⟨rfl, rfl⟩) (.inl rfl)).asked_congr fun n t => ?_
  rw [List.mem_append, mem_sent, ite_self]
  refine ⟨.inl, fun ht => ht.elim id ?_⟩
  rintro ⟨hn, rfl⟩
  exact h.onhold n hn

/-- A word that is no jump made another one. -/
theorem Lists.amend {w : Word} {m : Nat} (h : Lists code lists asked here) (hm : m < code.length)
    (hold : ¬ isJump (wordAt code m)) (hnew : ¬ isJump w) :
    Lists (code.set m w) lists asked here := by
  -- the word at `m` is no jump, so every jump keeps its own
  have hword : ∀ {n}, isJump (wordAt code n) → wordAt (code.set m w) n = wordAt code n := by
    intro n hj
    have hne : n ≠ m := fun heq => hold (heq ▸ hj)
    rw [wordAt_set hm, if_neg hne]
  have hdest : ∀ {n}, isJump (wordAt code n) → dest (code.set m w) n = dest code n := fun hj => by
    rw [dest, dest, hword hj]
  refine ⟨fun s => ?_, h.apart, fun n t ht => ?_, fun n t ht => ?_, h.onhold, h.fresh,
    fun n hn hj => ?_⟩
  · exact (h.list s).congr List.length_set fun n hn => hword ((h.list s).isJump n hn)
  · obtain ⟨hn, hj⟩ := h.jumps n t ht
    rw [List.length_set, hword hj]
    exact ⟨hn, hj⟩
  · obtain ⟨-, hj⟩ := h.jumps n t ht
    rcases h.settled n t ht with hhold | ⟨hout, rfl⟩ | ⟨k, rfl, hk, hop, hiff, htogether⟩
    · exact .inl hhold
    · exact .inr (.inl ⟨hout, hdest hj⟩)
    · have hjk : isJump (wordAt code k) := ⟨OP_JMP, hop, rfl⟩
      refine .inr (.inr ⟨k, rfl, ?_, ?_, hiff, fun hnone => ?_⟩)
      · rwa [List.length_set]
      · rw [hword hjk, hop]
      · rw [hdest hj, hdest hjk, htogether hnone]
  · rw [List.length_set] at hn
    rw [wordAt_set hm] at hj
    split_ifs at hj with hnm
    · exact absurd hj hnew
    · exact h.all n hn hj

end

/-! ## Runs of the code generator -/

/-- The code generator, the lists the parser holds, and where jumps have been sent. -/
structure Gen where
  fs : FuncState
  held : Slot → Int
  asked : List (Nat × Int)

/-- As `open_func` leaves it. -/
def Gen.start : Gen := ⟨⟨[], -1, NO_JUMP⟩, fun _ => NO_JUMP, []⟩

def Gen.name (g : Gen) : Holder → Int
  | none => g.fs.jpc
  | some s => g.held s

/-- The jumps of a list, for the record. -/
def jumpsOf (code : List Word) (list : Int) : List Nat :=
  cells (nextJump code) code.length (if list = NO_JUMP then none else some list.toNat)

inductive Action where
  /-- Any instruction but a jump. -/
  | code (i : Word)
  | getlabel
  | jump (s : Slot)
  /-- `FORPREP` and `FORLOOP`. -/
  | codeAsBx (s : Slot) (o : OpCode) (a : Word)
  | concat (s s' : Slot)
  | patchtohere (s : Slot)
  | patchlist (s : Slot) (target : Int)
  /-- The end of `exp2reg`. -/
  | patchvalue (k : Nat) (vtarget : Int) (reg : Word) (dtarget : Int)
  /-- An operand of an instruction set after it was coded. -/
  | amend (pc : Nat) (i : Word)

def step (g : Gen) : Action → Option Gen
  | .code i => do
    let (fs, _) ← (luaK_code g.fs i).toOption
    some { g with fs }
  | .getlabel => some { g with fs := luaK_getlabel g.fs }
  | .jump s => do
    let (fs, j) ← (luaK_jump g.fs).toOption
    some { g with fs, held := Function.update g.held s j }
  | .codeAsBx s o a => do
    let (fs, j) ← (luaK_codeAsBx g.fs o a NO_JUMP).toOption
    some { g with fs, held := Function.update g.held s j }
  | .concat s s' => do
    let (list, code) ← (luaK_concat g.fs.code (g.held s) (g.held s')).toOption
    some { g with
      fs := { g.fs with code }
      held := Function.update (Function.update g.held s list) s' NO_JUMP }
  | .patchtohere s => do
    let fs ← (luaK_patchtohere g.fs (g.held s)).toOption
    some
      { fs
        held := Function.update g.held s NO_JUMP
        asked := g.asked ++ sent g.fs.code (jumpsOf g.fs.code (g.held s)) g.fs.pc g.fs.pc }
  | .patchlist s target => do
    let fs ← (luaK_patchlist g.fs (g.held s) target).toOption
    some
      { fs
        held := Function.update g.held s NO_JUMP
        asked := g.asked ++ sent g.fs.code (jumpsOf g.fs.code (g.held s)) target target }
  | .patchvalue k vtarget reg dtarget => do
    let list := g.held (.value k)
    let code ← (patchlistaux g.fs.code.length g.fs.code list vtarget reg dtarget).toOption
    some
      { fs := { g.fs with code }
        held := Function.update g.held (.value k) NO_JUMP
        asked := g.asked ++ sent g.fs.code (jumpsOf g.fs.code list) vtarget dtarget }
  | .amend pc i => some { g with fs := { g.fs with code := g.fs.code.set pc i } }

/-- How the parser goes about its lists: it loses none, jumps into a value list come
right after their test, when nothing is on hold, and a statement's list never becomes
part of a value's. -/
def Allowed (g : Gen) : Action → Prop
  | .code i => ¬ isJump i
  | .jump s => g.held s = NO_JUMP ∧ ∀ k, s = .value k → g.fs.jpc = NO_JUMP
  | .codeAsBx s o a => g.held s = NO_JUMP ∧ getOpMode o = iAsBx ∧ a.toNat < 2 ^ SIZE_A
  | .concat s s' => s ≠ s' ∧ ∀ k, s = .value k → ∃ k', s' = .value k'
  | .amend pc i => pc < g.fs.code.length ∧ ¬ isJump (wordAt g.fs.code pc) ∧ ¬ isJump i
  | _ => True

/-- The lists are what their names say, and while jumps are on hold the next instruction
is known to be a target. -/
def Gen.Ok (g : Gen) : Prop :=
  ∃ lists : Holder → List Nat, (∀ s, g.name s = listOf (lists s))
    ∧ Lists g.fs.code lists g.asked g.fs.pc
    ∧ (g.fs.jpc ≠ NO_JUMP → g.fs.lasttarget = g.fs.pc)

theorem Gen.Ok.start : Gen.start.Ok :=
  ⟨fun _ => [], fun s => by cases s <;> rfl, Lists.start, fun h => absurd rfl h⟩

theorem toOption_ok {α : Type} {x : Except CodeError α} {a : α} (h : x.toOption = some a) :
    x = .ok a := by
  cases x with
  | error e => exact nomatch h
  | ok b => exact congrArg Except.ok (Option.some.inj h)

theorem jumpsOf_listOf (h : JumpList code l) : jumpsOf code (listOf l) = l := by
  unfold jumpsOf
  cases l with
  | nil => exact cells_eq h.segment h.length_le
  | cons n l =>
    rw [if_neg (listOf_cons_ne n l), listOf_cons, Int.toNat_natCast]
    exact cells_eq h.segment h.length_le

section

variable {g : Gen} {fs' : FuncState} {lists : Holder → List Nat} {i : Word} {j : Int}

/-- What `luaK_code` does to the lists before its own word. -/
theorem Lists.coded (hlists : Lists g.fs.code lists g.asked g.fs.pc)
    (hname : g.fs.jpc = listOf (lists none)) (h : luaK_code g.fs i = .ok (fs', j)) :
    ∃ c, c.length = g.fs.code.length ∧ j = c.length
      ∧ fs' = { g.fs with code := c ++ [i], jpc := NO_JUMP }
      ∧ Lists c (Function.update lists none []) g.asked g.fs.pc := by
  obtain ⟨c, hpatch, hfs, hj⟩ := luaK_code_ok h
  rw [hname] at hpatch
  have hlist := hlists.list none
  have hpatched := patchlistaux_patched hlist hlist.length_le hpatch
  exact ⟨c, hpatched.length, hj, hfs, hlists.discharge hpatched⟩

/-- A name after a slot got another list. -/
theorem name_update {g' : Gen} {lists' : Holder → List Nat} {s : Slot} {l : List Nat}
    (hname : ∀ r, g.name r = listOf (lists r))
    (hheld : g'.held = Function.update g.held s (listOf l))
    (hjpc : g'.fs.jpc = listOf (lists' none)) (hs : lists' (some s) = l)
    (hother : ∀ r, r ≠ s → lists' (some r) = lists (some r)) :
    ∀ r, g'.name r = listOf (lists' r) := by
  intro r
  cases r with
  | none => exact hjpc
  | some r =>
    rw [Gen.name, hheld]
    by_cases hr : r = s
    · rw [hr, Function.update_self, hs]
    · rw [Function.update_of_ne hr, hother r hr]
      exact hname (some r)

theorem name_eq {g' : Gen} (hname : ∀ r, g.name r = listOf (lists r)) (hheld : g'.held = g.held)
    (hjpc : g'.fs.jpc = g.fs.jpc) : ∀ r, g'.name r = listOf (lists r) := by
  intro r
  cases r with
  | none => exact hjpc.trans (hname none)
  | some r =>
    rw [Gen.name, hheld]
    exact hname (some r)

theorem update_some_of_ne {r s : Slot} (hr : r ≠ s) (l : List Nat) :
    Function.update lists (some s) l (some r) = lists (some r) :=
  Function.update_of_ne (fun h => hr (Option.some.inj h)) _ _

theorem step_code (hok : g.Ok) (hi : ¬ isJump i) {g' : Gen} (h : step g (.code i) = some g') :
    g'.Ok := by
  obtain ⟨lists, hname, hlists, -⟩ := hok
  obtain ⟨⟨fs', j⟩, hcode, hg⟩ := Option.bind_eq_some_iff.mp h
  obtain rfl := Option.some.inj hg
  obtain ⟨c, hlen, rfl, rfl, hc⟩ := hlists.coded (hname none) (toOption_ok hcode)
  refine ⟨Function.update lists none [], fun s => ?_, hc.grow (Function.update_self _ _ _) hi,
    fun hne => absurd rfl hne⟩
  cases s with
  | none => rfl
  | some s => exact hname (some s)

theorem listOf_eq_NO_JUMP {l : List Nat} (h : listOf l = NO_JUMP) : l = [] := by
  cases l with
  | nil => rfl
  | cons n l => exact absurd h (listOf_cons_ne n l)

theorem step_codeAsBx (hok : g.Ok) {s : Slot} {o : OpCode} {a : Word}
    (hslot : g.held s = NO_JUMP) (ho : getOpMode o = iAsBx) (ha : a.toNat < 2 ^ SIZE_A)
    {g' : Gen} (h : step g (.codeAsBx s o a) = some g') : g'.Ok := by
  obtain ⟨lists, hname, hlists, -⟩ := hok
  obtain ⟨⟨fs', j⟩, hcode, hg⟩ := Option.bind_eq_some_iff.mp h
  obtain rfl := Option.some.inj hg
  obtain ⟨c, hlen, rfl, rfl, hc⟩ := hlists.coded (hname none) (toOption_ok hcode)
  obtain ⟨hop, hend⟩ := jump_word o ha
  have hempty : Function.update lists none [] (some s) = [] := by
    rw [Function.update_of_ne (Option.some_ne_none s)]
    exact listOf_eq_NO_JUMP ((hname (some s)).symm.trans hslot)
  refine ⟨_, name_update hname rfl rfl (Function.update_self _ _ _) fun r hr => ?_,
    hc.jump hempty (.inl (Function.update_self _ _ _)) ⟨o, hop, ho⟩ hend, fun hne => absurd rfl hne⟩
  rw [update_some_of_ne hr, Function.update_of_ne (Option.some_ne_none r)]

theorem step_jump (hok : g.Ok) {s : Slot} (hslot : g.held s = NO_JUMP)
    (hvalue : ∀ k, s = .value k → g.fs.jpc = NO_JUMP) {g' : Gen}
    (h : step g (.jump s) = some g') : g'.Ok := by
  obtain ⟨lists, hname, hlists, -⟩ := hok
  obtain ⟨⟨fs', j⟩, hcode, hg⟩ := Option.bind_eq_some_iff.mp h
  obtain rfl := Option.some.inj hg
  obtain ⟨c, hconcat, rfl⟩ := luaK_jump_ok (toOption_ok hcode)
  have hjpc : g.fs.jpc = listOf (lists none) := hname none
  have hempty : lists (some s) = [] := listOf_eq_NO_JUMP ((hname (some s)).symm.trans hslot)
  obtain ⟨hop, hend⟩ := jump_word (a := 0) OP_JMP (by decide)
  have hcoded := hlists.jump hempty (.inr rfl) ⟨OP_JMP, hop, rfl⟩ hend
  have hword := wordAt_concat g.fs.code
    (CREATE_ABx OP_JMP.toWord 0 (BitVec.ofInt 32 (NO_JUMP + MAXARG_sBx)))
  generalize CREATE_ABx OP_JMP.toWord 0 (BitVec.ofInt 32 (NO_JUMP + MAXARG_sBx)) = w at *
  have hfirst : Function.update lists (some s) [g.fs.code.length] (some s) = [g.fs.code.length] :=
    Function.update_self _ _ _
  have hrest : Function.update lists (some s) [g.fs.code.length] none = lists none :=
    Function.update_of_ne (Option.some_ne_none s).symm _ _
  -- the jumps on hold come behind the new one in its list
  obtain ⟨rfl, hjoined⟩ := hcoded.joined (Option.some_ne_none s)
    (by rwa [hfirst, hrest, ← hjpc])
  have hasked : ∀ n t, (n, t) ∈ g.asked ↔ (n, t) ∈ g.asked ∨ (some s = none
      ∧ n ∈ Function.update lists (some s) [g.fs.code.length] none ∧ t = g.fs.pc) := fun n t =>
    ⟨.inl, fun ht => ht.elim id fun h => absurd h.1 (Option.some_ne_none s)⟩
  have hmerged := hcoded.merge (Option.some_ne_none s) hjoined hasked (fun k hk n hn => ?_)
    fun _ => .inr ⟨g.fs.code.length, rfl, ?_, ?_⟩
  · have hlast : merged (Function.update lists (some s) [g.fs.code.length]) (some s) none none = [] :=
      Function.update_self _ _ _
    refine ⟨_, name_update hname rfl (hlast ▸ rfl) ?_ fun r hr => ?_, hmerged.elsewhere hlast,
      fun hne => absurd rfl hne⟩
    · rw [merged, Function.update_of_ne (Option.some_ne_none s), Function.update_self]
    · rw [merged, Function.update_of_ne (Option.some_ne_none r), update_some_of_ne hr,
        update_some_of_ne hr]
  · -- a value's list gets none of them
    rw [hrest, listOf_eq_NO_JUMP (hjpc.symm.trans (hvalue k (Option.some.inj hk)))] at hn
    exact nomatch hn
  · rw [hfirst]
    exact List.mem_singleton_self _
  · rw [hword]
    exact hop

theorem step_concat (hok : g.Ok) {s s' : Slot} (hne : s ≠ s')
    (hvalue : ∀ k, s = .value k → ∃ k', s' = .value k') {g' : Gen}
    (h : step g (.concat s s') = some g') : g'.Ok := by
  obtain ⟨lists, hname, hlists, hlabel⟩ := hok
  obtain ⟨⟨list, c⟩, hconcat, hg⟩ := Option.bind_eq_some_iff.mp h
  obtain rfl := Option.some.inj hg
  have hsome : some s ≠ some s' := fun h => hne (Option.some.inj h)
  have hheld : ∀ s, g.held s = listOf (lists (some s)) := fun s => hname (some s)
  rw [hheld s, hheld s'] at hconcat
  obtain ⟨rfl, hjoined⟩ := hlists.joined hsome (toOption_ok hconcat)
  have hasked : ∀ n t, (n, t) ∈ g.asked ↔ (n, t) ∈ g.asked
      ∨ (some s = none ∧ n ∈ lists (some s') ∧ t = g.fs.pc) := fun n t =>
    ⟨.inl, fun ht => ht.elim id fun h => absurd h.1 (Option.some_ne_none s)⟩
  have hmerged := hlists.merge hsome hjoined hasked
    (fun k hk n hn => ?_) fun h => absurd h (Option.some_ne_none s')
  · have hpc : (c.length : Int) = g.fs.pc := congrArg Nat.cast hjoined.length
    refine ⟨merged lists (some s) (some s'), fun r => ?_, ?_, fun hjpc => ?_⟩
    · rw [merged]
      -- the list `s` goes on with `s'`, which is empty then
      cases r with
      | none =>
        rw [Function.update_of_ne (Option.some_ne_none s').symm,
          Function.update_of_ne (Option.some_ne_none s).symm]
        exact hname none
      | some r =>
        show Function.update (Function.update g.held s _) s' _ r = _
        by_cases hr' : r = s'
        · rw [hr', Function.update_self, Function.update_self]
          rfl
        · rw [Function.update_of_ne hr', update_some_of_ne hr']
          by_cases hr : r = s
          · rw [hr, Function.update_self, Function.update_self]
          · rw [Function.update_of_ne hr, update_some_of_ne hr]
            exact hheld r
    · rw [FuncState.pc, hpc]
      exact hmerged
    · rw [FuncState.pc, hpc]
      exact hlabel hjpc
  · obtain ⟨k', rfl⟩ := hvalue k (Option.some.inj hk)
    exact hlists.fresh k' n hn

theorem Gen.Ok.patchtohere (hok : g.Ok) {s : Slot}
    (h : luaK_patchtohere g.fs (g.held s) = .ok fs') :
    Gen.Ok
      { fs := fs'
        held := Function.update g.held s NO_JUMP
        asked := g.asked ++ sent g.fs.code (jumpsOf g.fs.code (g.held s)) g.fs.pc g.fs.pc } := by
  obtain ⟨lists, hname, hlists, -⟩ := hok
  obtain ⟨jpc, c, hconcat, rfl⟩ := luaK_patchtohere_ok h
  have hheld : g.held s = listOf (lists (some s)) := hname (some s)
  have hjpc : g.fs.jpc = listOf (lists none) := hname none
  rw [hheld, jumpsOf_listOf (hlists.list (some s))]
  rw [hheld, hjpc] at hconcat
  obtain ⟨rfl, hjoined⟩ := hlists.joined (Option.some_ne_none s).symm hconcat
  have hasked : ∀ n t, (n, t) ∈ g.asked ++ sent g.fs.code (lists (some s)) g.fs.pc g.fs.pc
      ↔ (n, t) ∈ g.asked ∨ ((none : Holder) = none ∧ n ∈ lists (some s) ∧ t = g.fs.pc) := by
    intro n t
    rw [List.mem_append, mem_sent, ite_self]
    simp
  have hmerged := hlists.merge (Option.some_ne_none s).symm hjoined hasked
    (fun k hk => absurd hk (Option.some_ne_none _).symm)
    fun h => absurd h (Option.some_ne_none s)
  have hpc : (c.length : Int) = g.fs.pc := congrArg Nat.cast hjoined.length
  refine ⟨merged lists none (some s), name_update hname rfl ?_ (Function.update_self _ _ _) ?_, ?_,
    fun _ => ?_⟩
  · rw [merged, Function.update_of_ne (Option.some_ne_none s).symm, Function.update_self]
  · intro r hr
    rw [merged, update_some_of_ne hr, Function.update_of_ne (Option.some_ne_none r)]
  · show Lists c _ _ (c.length : Int)
    rw [hpc]
    exact hmerged
  · exact hpc.symm

/-- The list in slot `s` given to `patchlistaux`. -/
theorem Gen.Ok.patchlistaux (hok : g.Ok) {s : Slot} {vtarget dtarget : Int} {reg : Word}
    {c : List Word} (hvalue : vtarget = dtarget ∨ ∃ k, s = .value k)
    (h : patchlistaux g.fs.code.length g.fs.code (g.held s) vtarget reg dtarget = .ok c) :
    Gen.Ok
      { fs := { g.fs with code := c }
        held := Function.update g.held s NO_JUMP
        asked := g.asked ++ sent g.fs.code (jumpsOf g.fs.code (g.held s)) vtarget dtarget } := by
  obtain ⟨lists, hname, hlists, hlabel⟩ := hok
  have hheld : g.held s = listOf (lists (some s)) := hname (some s)
  have hlist := hlists.list (some s)
  rw [hheld, jumpsOf_listOf hlist]
  rw [hheld] at h
  have hpatched := patchlistaux_patched hlist hlist.length_le h
  have hclosed := hlists.close hpatched (fun h => absurd h (Option.some_ne_none s))
    (hvalue.imp_right fun ⟨k, hk⟩ => ⟨k, congrArg some hk⟩)
  have hpc : (c.length : Int) = g.fs.pc := congrArg Nat.cast hpatched.length
  refine ⟨Function.update lists (some s) [], name_update hname rfl ?_ (Function.update_self _ _ _)
    fun r hr => update_some_of_ne hr _, ?_, fun hjpc => ?_⟩
  · rw [Function.update_of_ne (Option.some_ne_none s).symm]
    exact hname none
  · rw [FuncState.pc, hpc]
    exact hclosed
  · rw [FuncState.pc, hpc]
    exact hlabel hjpc

theorem step_patchtohere (hok : g.Ok) {s : Slot} {g' : Gen}
    (h : step g (.patchtohere s) = some g') : g'.Ok := by
  obtain ⟨fs', hpatch, hg⟩ := Option.bind_eq_some_iff.mp h
  obtain rfl := Option.some.inj hg
  exact hok.patchtohere (toOption_ok hpatch)

theorem step_patchlist (hok : g.Ok) {s : Slot} {target : Int} {g' : Gen}
    (h : step g (.patchlist s target) = some g') : g'.Ok := by
  obtain ⟨fs', hpatch, hg⟩ := Option.bind_eq_some_iff.mp h
  obtain rfl := Option.some.inj hg
  have hpatch := toOption_ok hpatch
  unfold luaK_patchlist at hpatch
  by_cases hhere : target = g.fs.pc
  · rw [if_pos hhere] at hpatch
    rw [hhere]
    exact hok.patchtohere hpatch
  · rw [if_neg hhere] at hpatch
    cases hc : JumpLists.patchlistaux g.fs.code.length g.fs.code (g.held s) target NO_REG target with
    | error e =>
      rw [hc] at hpatch
      exact nomatch hpatch
    | ok c =>
      rw [hc] at hpatch
      obtain rfl := Except.ok.inj hpatch
      exact hok.patchlistaux (.inl rfl) hc

theorem step_patchvalue (hok : g.Ok) {k : Nat} {vtarget dtarget : Int} {reg : Word} {g' : Gen}
    (h : step g (.patchvalue k vtarget reg dtarget) = some g') : g'.Ok := by
  obtain ⟨c, hpatch, hg⟩ := Option.bind_eq_some_iff.mp h
  obtain rfl := Option.some.inj hg
  exact hok.patchlistaux (.inr ⟨k, rfl⟩) (toOption_ok hpatch)

theorem step_amend (hok : g.Ok) {pc : Nat} {w : Word} (hpc : pc < g.fs.code.length)
    (hold : ¬ isJump (wordAt g.fs.code pc)) (hnew : ¬ isJump w) {g' : Gen}
    (h : step g (.amend pc w) = some g') : g'.Ok := by
  obtain rfl := Option.some.inj h
  obtain ⟨lists, hname, hlists, hlabel⟩ := hok
  have hlen : ((g.fs.code.set pc w).length : Int) = g.fs.pc := congrArg Nat.cast List.length_set
  refine ⟨lists, name_eq hname rfl rfl, ?_, fun hjpc => ?_⟩
  · rw [FuncState.pc, hlen]
    exact hlists.amend hpc hold hnew
  · rw [FuncState.pc, hlen]
    exact hlabel hjpc

theorem step_ok {a : Action} (hok : g.Ok) (hallowed : Allowed g a) {g' : Gen}
    (h : step g a = some g') : g'.Ok := by
  cases a with
  | code i => exact step_code hok hallowed h
  | getlabel =>
    obtain rfl := Option.some.inj h
    obtain ⟨lists, hname, hlists, -⟩ := hok
    exact ⟨lists, name_eq hname rfl rfl, hlists, fun _ => rfl⟩
  | jump s => exact step_jump hok hallowed.1 hallowed.2 h
  | codeAsBx s o a => exact step_codeAsBx hok hallowed.1 hallowed.2.1 hallowed.2.2 h
  | concat s s' => exact step_concat hok hallowed.1 hallowed.2 h
  | patchtohere s => exact step_patchtohere hok h
  | patchlist s target => exact step_patchlist hok h
  | patchvalue k vtarget reg dtarget => exact step_patchvalue hok h
  | amend pc w => exact step_amend hok hallowed.1 hallowed.2.1 hallowed.2.2 h

/-- **Every jump arrives.** Once no list is left, each jump of the code was sent
somewhere, and wherever one was sent, it leads there, or where the jump leads that
stands there. -/
theorem jumps_arrive (h : Reachable step Allowed Gen.start g) (hdone : ∀ s, g.name s = NO_JUMP) :
    (∀ n < g.fs.code.length, isJump (wordAt g.fs.code n) → ∃ t, (n, t) ∈ g.asked)
      ∧ ∀ n t, (n, t) ∈ g.asked → dest g.fs.code n = t
        ∨ ∃ m : Nat, t = m ∧ GET_OPCODE (wordAt g.fs.code m) = OP_JMP.toWord
          ∧ dest g.fs.code n = dest g.fs.code m := by
  obtain ⟨lists, hname, hlists, -⟩ :=
    h.invariant Gen.Ok.start fun _ _ _ hok hallowed hstep => step_ok hok hallowed hstep
  have hempty : ∀ {n s}, n ∉ lists s := fun hn => by
    rw [listOf_eq_NO_JUMP ((hname _).symm.trans (hdone _))] at hn
    exact nomatch hn
  refine ⟨fun n hn hj => ?_, fun n t ht => ?_⟩
  · rcases hlists.all n hn hj with ⟨s, hs⟩ | ht
    · exact absurd hs hempty
    · exact ht
  · rcases hlists.settled n t ht with ⟨hn, -⟩ | ⟨-, hdest⟩ | ⟨m, rfl, -, hop, -, hdest⟩
    · exact absurd hn hempty
    · exact .inl hdest
    · exact .inr ⟨m, rfl, hop, hdest fun _ => hempty⟩

end

/-- Steps that are all allowed, played one after the other. -/
def AllowedAll : Gen → List Action → Prop
  | _, [] => True
  | g, a :: as => Allowed g a ∧ ∀ g', step g a = some g' → AllowedAll g' as

theorem reachable_of_play {g g' : Gen} {as : List Action} (h : Reachable step Allowed Gen.start g)
    (hall : AllowedAll g as) (hrun : runActions step g as = some g') :
    Reachable step Allowed Gen.start g' := by
  induction as generalizing g with
  | nil =>
    obtain rfl := Option.some.inj hrun
    exact h
  | cons a as ih =>
    obtain ⟨g₁, hstep, hrun⟩ := Option.bind_eq_some_iff.mp hrun
    exact ih (.step h hall.1 hstep) (hall.2 g₁ hstep) hrun

/-- A loop with a test in it: what the test skips is jumped over to the end, where the
jump back stands. -/
def loopTest : Word := CREATE_ABC OP_TEST.toWord 0 0 0
def loopBody : Word := CREATE_ABC OP_MOVE.toWord 1 0 0
def loopActions : List Action :=
  [.code loopTest, .jump (.plain 0), .code loopBody, .patchtohere (.plain 0), .jump (.plain 1),
    .patchlist (.plain 1) 0]

theorem not_jump_test : ¬ isJump loopTest :=
  not_jump_of_opcode OP_TEST (by decide) (by decide)
theorem not_jump_body : ¬ isJump loopBody :=
  not_jump_of_opcode OP_MOVE (by decide) (by decide)

theorem allowed_loop : AllowedAll Gen.start loopActions := by
  refine ⟨not_jump_test, fun g h => ?_⟩
  obtain rfl := Option.some.inj h
  refine ⟨⟨rfl, nofun⟩, fun g h => ?_⟩
  obtain rfl := Option.some.inj h
  refine ⟨not_jump_body, fun g h => ?_⟩
  obtain rfl := Option.some.inj h
  refine ⟨trivial, fun g h => ?_⟩
  obtain rfl := Option.some.inj h
  refine ⟨⟨rfl, nofun⟩, fun g h => ?_⟩
  obtain rfl := Option.some.inj h
  exact ⟨trivial, fun g h => trivial⟩

theorem jumps_arrive_loop : ∃ g, runActions step Gen.start loopActions = some g
    ∧ g.asked = [(1, 3), (3, 0), (1, 0)]
    ∧ (dest g.fs.code 1 = 3 ∨ ∃ m : Nat, (3 : Int) = m
      ∧ GET_OPCODE (wordAt g.fs.code m) = OP_JMP.toWord ∧ dest g.fs.code 1 = dest g.fs.code m) := by
  refine ⟨_, rfl, by decide, ?_⟩
  refine (jumps_arrive (reachable_of_play .start allowed_loop rfl) fun s => ?_).2 1 3 (by decide)
  match s with
  | none => decide
  | some (.value k) => rfl
  | some (.plain 0) => rfl
  | some (.plain 1) => rfl
  | some (.plain (k + 2)) => rfl

end NostalgiaConv.JumpRuns
