/-
`lua/lstring.c`: the table of all strings, and what the collector of `lua/lgc.c` does to
it.

`luaS_newlstr` gives the string with the given bytes that is in the table, or makes it.
The table is an array of chains through the strings; it grows when it is crowded, shrinks
at the end of a sweep, and is swept chain by chain while the program goes on. The file
proves that at any time there is one string for given bytes, which is why Lua compares
strings by their addresses, and that a string somebody may still use is not swept away.

The fields of the strings are functions of their addresses; the collector's other lists
are present as its decision when they are done. Running out of memory is left out.
-/
import NostalgiaConv.Chains
import NostalgiaConv.Transition
import NostalgiaConv.Value

set_option autoImplicit false

namespace NostalgiaConv.StringTable

open NostalgiaConv.Host NostalgiaConv.Cipher NostalgiaConv.Chains
open NostalgiaConv.Transition NostalgiaConv.Value

/-! ## The table -/

/-- The bits of `marked` that a string has. -/
structure Marked where
  white0 : Bool
  white1 : Bool
  black : Bool
  fixed : Bool
  deriving DecidableEq

inductive GcState where
  | GCSpause | GCSpropagate | GCSsweepstring | GCSsweep | GCSfinalize
  deriving DecidableEq

open GcState

/-- The string table of the `global_State` with the collector's colours; `tsv`, `next`
and `marked` are the strings, `size` is the length of `hash`. -/
structure Strings where
  tsv : Nat → Option TString
  next : Nat → Option Nat
  marked : Nat → Marked
  hash : List (Option Nat)
  nuse : Nat
  /-- Which white is the current one. -/
  currentwhite : Bool
  gcstate : GcState
  sweepstrgc : Nat

def MINSTRTABSIZE : Nat := 32
def MAX_INT : Nat := 2 ^ 31 - 3

def lmod (s : Word) (size : Nat) : Nat := (s &&& BitVec.ofNat 32 (size - 1)).toNat

def Strings.hashOf (g : Strings) (a : Nat) : Word := ((g.tsv a).map TString.hash).getD 0

def Marked.white (m : Marked) (white : Bool) : Bool := if white then m.white1 else m.white0

/-- `luaC_white`. -/
def luaC_white (g : Strings) : Marked := ⟨!g.currentwhite, g.currentwhite, false, false⟩

def isdead (g : Strings) (a : Nat) : Bool := (g.marked a).white (!g.currentwhite)

def changewhite (m : Marked) : Marked := { m with white0 := !m.white0, white1 := !m.white1 }

def makewhite (g : Strings) (m : Marked) : Marked :=
  { m with black := false, white0 := !g.currentwhite, white1 := g.currentwhite }

/-! ## Resizing -/

/-- A chain of the old table moved over, string by string; the first argument bounds the
rounds. -/
def rehash (hashOf : Nat → Word) (newsize : Nat) : Nat → Option Nat →
    (Nat → Option Nat) × List (Option Nat) → (Nat → Option Nat) × List (Option Nat)
  | 0, _, s => s
  | _ + 1, none, s => s
  | fuel + 1, some p, (next, newhash) =>
    let h1 := lmod (hashOf p) newsize -- new position
    rehash hashOf newsize fuel (next p)
      (Function.update next p (newhash.getD h1 none), newhash.set h1 (some p))

def luaS_resize (g : Strings) (newsize : Nat) : Strings :=
  if g.gcstate = GCSsweepstring then g -- cannot resize during GC traverse
  else
    let (next, hash) := g.hash.foldl (fun s p => rehash g.hashOf newsize g.nuse p s)
      (g.next, List.replicate newsize none)
    { g with next, hash }

/-! ## Strings -/

/-- The new string, in front of its chain. -/
def chainstr (g : Strings) (ts : TString) (a : Nat) : Strings :=
  let h := lmod ts.hash g.hash.length
  { g with
    tsv := Function.update g.tsv a (some ts)
    marked := Function.update g.marked a (luaC_white g)
    next := Function.update g.next a (g.hash.getD h none)
    hash := g.hash.set h (some a)
    nuse := g.nuse + 1 }

/-- `newlstr`, with the address that the allocator gives. -/
def newlstr (g : Strings) (ts : TString) (a : Nat) : Strings :=
  let g := chainstr g ts a
  if g.hash.length < g.nuse ∧ g.hash.length ≤ MAX_INT / 2 then
    luaS_resize g (g.hash.length * 2) -- too crowded
  else g

def resurrect (g : Strings) (o : Nat) : Strings :=
  { g with marked := Function.update g.marked o (changewhite (g.marked o)) }

/-- The string and the table afterwards. -/
def luaS_newlstr (g : Strings) (str : List Byte) (a : Nat) : Nat × Strings :=
  let ts := Value.luaS_newlstr str
  let same (o : Nat) : Bool := decide ((g.tsv o).map TString.bytes = some str)
  match walk g.next same g.nuse (g.hash.getD (lmod ts.hash g.hash.length) none) with
  | some o =>
    -- string may be dead
    (o, if isdead g o then resurrect g o else g)
  | none => (a, newlstr g ts a)

/-! ## The collector -/

/-- `sweeplist` keeps a string: it is fixed, or not of the white that died. -/
def alive (g : Strings) (a : Nat) : Bool :=
  (g.marked a).fixed || !(g.marked a).white (!g.currentwhite)

/-- A string made white for the next cycle. -/
def whiten (g : Strings) (a : Nat) : Strings :=
  { g with marked := Function.update g.marked a (makewhite g (g.marked a)) }

def freeobj (g : Strings) (a : Nat) : Strings :=
  { g with tsv := Function.update g.tsv a none, nuse := g.nuse - 1 }

/-- `sweepwholelist` on a chain: what its link holds afterwards, and the table. The first
argument bounds the rounds. -/
def sweeplist : Nat → Option Nat → Strings → Option Nat × Strings
  | 0, p, g => (p, g)
  | _ + 1, none, g => (none, g)
  | fuel + 1, some curr, g =>
    if alive g curr then -- not dead?
      let (p, g) := sweeplist fuel (g.next curr) (whiten g curr)
      (some curr, { g with next := Function.update g.next curr p })
    else sweeplist fuel (g.next curr) (freeobj g curr)

def checkSizes (g : Strings) : Strings :=
  if g.nuse < g.hash.length / 4 ∧ MINSTRTABSIZE * 2 < g.hash.length then
    luaS_resize g (g.hash.length / 2)
  else g

/-- The end of `atomic`. -/
def atomic (g : Strings) : Strings :=
  { g with currentwhite := !g.currentwhite, sweepstrgc := 0, gcstate := GCSsweepstring }

/-- One chain swept, in `GCSsweepstring`. -/
def sweepstring (g : Strings) : Strings :=
  let (p, g') := sweeplist g.nuse (g.hash.getD g.sweepstrgc none) g
  { g' with hash := g'.hash.set g.sweepstrgc p, sweepstrgc := g.sweepstrgc + 1 }

/-- `singlestep`; `more` says whether the list of the phase, which is not a list of
strings, has anything left. -/
def singlestep (g : Strings) (more : Bool) : Strings :=
  match g.gcstate with
  | GCSpause => { g with gcstate := GCSpropagate }
  | GCSpropagate => if more then g else atomic g
  | GCSsweepstring =>
    let g := sweepstring g
    if g.hash.length ≤ g.sweepstrgc then { g with gcstate := GCSsweep } else g -- end sweep-string
  | GCSsweep => if more then g else { checkSizes g with gcstate := GCSfinalize }
  | GCSfinalize => if more then g else { g with gcstate := GCSpause }

/-- `luaC_fullgc` before its own sweep, in the midst of a mark phase: all is made white. -/
def resetsweep (g : Strings) : Strings :=
  if g.gcstate = GCSpause ∨ g.gcstate = GCSpropagate then
    { g with sweepstrgc := 0, gcstate := GCSsweepstring }
  else g

/-- `stringmark`. -/
def stringmark (g : Strings) (a : Nat) : Strings :=
  { g with
    marked := Function.update g.marked a { g.marked a with white0 := false, white1 := false } }

def luaS_fix (g : Strings) (a : Nat) : Strings :=
  { g with marked := Function.update g.marked a { g.marked a with fixed := true } }

/-! ## Runs -/

inductive Action where
  | newlstr (str : List Byte) (a : Nat)
  | singlestep (more : Bool)
  | resetsweep
  | stringmark (a : Nat)
  | fix (a : Nat)

def step (g : Strings) : Action → Option Strings
  | .newlstr str a => some (luaS_newlstr g str a).2
  | .singlestep more => some (singlestep g more)
  | .resetsweep => some (resetsweep g)
  | .stringmark a => some (stringmark g a)
  | .fix a => some (luaS_fix g a)

/-- The allocator gives fresh memory, and only a mark phase marks. -/
def Allowed (g : Strings) : Action → Prop
  | .newlstr _ a => g.tsv a = none
  | .stringmark _ => g.gcstate = GCSpause ∨ g.gcstate = GCSpropagate
  | _ => True

/-- The table that `f_luaopen` makes. -/
def start : Strings where
  tsv _ := none
  next _ := none
  marked _ := ⟨false, false, false, false⟩
  hash := List.replicate MINSTRTABSIZE none
  nuse := 0
  currentwhite := false
  gcstate := GCSpause
  sweepstrgc := 0

/-! ## Moving chains -/

theorem lmod_lt (s : Word) {size : Nat} (hsize : 0 < size) : lmod s size < size := by
  have hle : lmod s size ≤ (BitVec.ofNat 32 (size - 1)).toNat := by
    rw [lmod, BitVec.toNat_and]
    exact Nat.and_le_right
  have hmod : (BitVec.ofNat 32 (size - 1)).toNat ≤ size - 1 := by
    rw [BitVec.toNat_ofNat]
    exact Nat.mod_le _ _
  omega

theorem getD_set {hash : List (Option Nat)} {i j : Nat} (hi : i < hash.length) (p : Option Nat) :
    (hash.set i p).getD j none = if j = i then p else hash.getD j none := by
  rw [List.getD_eq_getElem?_getD, List.getD_eq_getElem?_getD, List.getElem?_set]
  by_cases hj : j = i
  · rw [if_pos hj, if_pos hj.symm, if_pos (hj ▸ hi), Option.getD_some]
  · rw [if_neg hj, if_neg (Ne.symm hj)]

/-- Every chain of the array is a list of strings. -/
def Chained (next : Nat → Option Nat) (hash : List (Option Nat)) (lists : Nat → List Nat) :
    Prop :=
  ∀ i < hash.length, Segment next (hash.getD i none) (lists i) none

section

variable {next : Nat → Option Nat} {hash : List (Option Nat)} {lists : Nat → List Nat}
  {hashOf : Nat → Word} {newsize a i : Nat} {l : List Nat} {p : Option Nat}

/-- A string put in front of one of the chains, which none of them had. -/
theorem Chained.push (h : Chained next hash lists) (hi : i < hash.length)
    (ha : ∀ j < hash.length, a ∉ lists j) :
    Chained (Function.update next a (hash.getD i none)) (hash.set i (some a))
      (Function.update lists i (a :: lists i)) := by
  intro j hj
  rw [List.length_set] at hj
  rw [getD_set hi]
  by_cases hji : j = i
  · rw [if_pos hji, hji, Function.update_self]
    exact (h i hi).push (ha i hi)
  · rw [if_neg hji, Function.update_of_ne hji]
    exact (h j hj).update_of_notMem (ha j hj) _

/-- **A chain moved over**: its strings go to the chains of their new positions, and no
other is touched. -/
theorem rehash_chained (hashOf : Nat → Word) (hsize : 0 < newsize) :
    ∀ {l : List Nat} {fuel : Nat} {p : Option Nat}
    {next : Nat → Option Nat} {hash : List (Option Nat)} {lists : Nat → List Nat},
    l.length ≤ fuel → Segment next p l none → hash.length = newsize → Chained next hash lists →
    (∀ i < newsize, ∀ a ∈ l, a ∉ lists i) →
    ∃ lists', Chained (rehash hashOf newsize fuel p (next, hash)).1
        (rehash hashOf newsize fuel p (next, hash)).2 lists'
      ∧ (rehash hashOf newsize fuel p (next, hash)).2.length = newsize
      ∧ (∀ i < newsize, ∀ a, a ∈ lists' i ↔ a ∈ lists i ∨ (a ∈ l ∧ lmod (hashOf a) newsize = i))
      ∧ ∀ a ∉ l, (rehash hashOf newsize fuel p (next, hash)).1 a = next a := by
  intro l
  induction l with
  | nil =>
    intro fuel p next hash lists _ hsegment hlen hchained _
    obtain rfl : p = none := hsegment
    have hdone : rehash hashOf newsize fuel none (next, hash) = (next, hash) := by
      cases fuel <;> rfl
    rw [hdone]
    exact ⟨lists, hchained, hlen, fun i _ a => by simp, fun a _ => rfl⟩
  | cons a l ih =>
    intro fuel p next hash lists hfuel hsegment hlen hchained hout
    have hal : a ∉ l := (List.nodup_cons.mp hsegment.nodup).1
    obtain ⟨rfl, hrest⟩ := hsegment
    cases fuel with
    | zero => exact absurd hfuel (Nat.not_succ_le_zero _)
    | succ fuel =>
      -- `a` goes in front of the chain at its new position; the rest of its old chain follows
      have hnew := lmod_lt (hashOf a) hsize
      have hout' : ∀ j < newsize, ∀ b ∈ l, b ∉ Function.update lists
          (lmod (hashOf a) newsize) (a :: lists (lmod (hashOf a) newsize)) j := by
        intro j hj b hb
        by_cases hja : j = lmod (hashOf a) newsize
        · rw [hja, Function.update_self]
          intro hmem
          rcases List.mem_cons.mp hmem with rfl | hmem
          · exact hal hb
          · exact hout _ hnew b (List.mem_cons_of_mem a hb) hmem
        · rw [Function.update_of_ne hja]
          exact hout j hj b (List.mem_cons_of_mem a hb)
      rw [rehash]
      obtain ⟨lists', hchained', hlen', hmem, hother⟩ := ih (Nat.le_of_succ_le_succ hfuel)
        (hrest.update_of_notMem hal (hash.getD (lmod (hashOf a) newsize) none))
        (List.length_set.trans hlen)
        (hchained.push (hlen ▸ hnew) fun j hj => hout j (hlen ▸ hj) a List.mem_cons_self) hout'
      refine ⟨lists', hchained', hlen', fun i hi b => ?_, fun b hb => ?_⟩
      · rw [hmem i hi b, List.mem_cons]
        by_cases hia : i = lmod (hashOf a) newsize
        · rw [hia, Function.update_self, List.mem_cons]
          constructor
          · rintro ((rfl | hb) | ⟨hb, hpos⟩)
            · exact .inr ⟨.inl rfl, rfl⟩
            · exact .inl hb
            · exact .inr ⟨.inr hb, hpos⟩
          · rintro (hb | ⟨rfl | hb, hpos⟩)
            · exact .inl (.inr hb)
            · exact .inl (.inl rfl)
            · exact .inr ⟨hb, hpos⟩
        · rw [Function.update_of_ne hia]
          constructor
          · rintro (hb | ⟨hb, hpos⟩)
            · exact .inl hb
            · exact .inr ⟨.inr hb, hpos⟩
          · rintro (hb | ⟨rfl | hb, hpos⟩)
            · exact .inl hb
            · exact absurd hpos.symm hia
            · exact .inr ⟨hb, hpos⟩
      · obtain ⟨hba, hbl⟩ := not_or.mp fun h => hb (List.mem_cons.mpr h)
        rw [hother b hbl, Function.update_of_ne hba]

/-- All chains moved over, one after the other. -/
theorem foldl_rehash_chained (hashOf : Nat → Word) {fuel : Nat} (hsize : 0 < newsize) :
    ∀ {old : List (Option Nat)}
    {olds : Nat → List Nat} {next : Nat → Option Nat} {hash : List (Option Nat)}
    {lists : Nat → List Nat},
    Chained next old olds → (∀ i < old.length, (olds i).length ≤ fuel) →
    (∀ i < old.length, ∀ j < old.length, i ≠ j → List.Disjoint (olds i) (olds j)) →
    hash.length = newsize → Chained next hash lists →
    (∀ i < old.length, ∀ a ∈ olds i, ∀ j < newsize, a ∉ lists j) →
    ∃ lists', Chained (old.foldl (fun s p => rehash hashOf newsize fuel p s) (next, hash)).1
        (old.foldl (fun s p => rehash hashOf newsize fuel p s) (next, hash)).2 lists'
      ∧ (old.foldl (fun s p => rehash hashOf newsize fuel p s) (next, hash)).2.length = newsize
      ∧ ∀ j < newsize, ∀ a, a ∈ lists' j
        ↔ a ∈ lists j ∨ ∃ i < old.length, a ∈ olds i ∧ lmod (hashOf a) newsize = j := by
  intro old
  induction old with
  | nil =>
    intro olds next hash lists _ _ _ hlen hchained _
    exact ⟨lists, hchained, hlen, fun j _ a => by simp⟩
  | cons p old ih =>
    intro olds next hash lists holds hfuel hdisjoint hlen hchained hout
    have hlt : ∀ {i}, i < old.length → i + 1 < (p :: old).length := Nat.succ_lt_succ
    have hp : Segment next p (olds 0) none := holds 0 (Nat.succ_pos _)
    obtain ⟨lists₁, hchained₁, hlen₁, hmem₁, hother₁⟩ :=
      rehash_chained hashOf hsize (hfuel 0 (Nat.succ_pos _)) hp hlen hchained
        fun j hj a ha => hout 0 (Nat.succ_pos _) a ha j hj
    -- moving the first chain leaves the links of the later ones alone
    have hapart : ∀ {i a}, i < old.length → a ∈ olds (i + 1) → a ∉ olds 0 := fun hi ha ha' =>
      hdisjoint 0 (Nat.succ_pos _) _ (hlt hi) (Nat.succ_ne_zero _).symm ha' ha
    have hrest : Chained (rehash hashOf newsize fuel p (next, hash)).1 old fun i => olds (i + 1) :=
      fun i hi => (holds (i + 1) (hlt hi)).congr fun a ha => hother₁ a (hapart hi ha)
    have hout₁ : ∀ i < old.length, ∀ a ∈ olds (i + 1), ∀ j < newsize, a ∉ lists₁ j := by
      intro i hi a ha j hj hmem
      rcases (hmem₁ j hj a).mp hmem with hmem | ⟨hmem, -⟩
      · exact hout (i + 1) (hlt hi) a ha j hj hmem
      · exact hapart hi ha hmem
    obtain ⟨lists', hchained', hlen', hmem'⟩ := ih hrest (fun i hi => hfuel (i + 1) (hlt hi))
      (fun i hi j hj hij => hdisjoint (i + 1) (hlt hi) (j + 1) (hlt hj) fun h => hij (Nat.succ.inj h))
      hlen₁ hchained₁ hout₁
    refine ⟨lists', hchained', hlen', fun j hj a => ?_⟩
    rw [hmem' j hj a, hmem₁ j hj a]
    constructor
    · rintro ((ha | ⟨ha, hpos⟩) | ⟨i, hi, ha, hpos⟩)
      · exact .inl ha
      · exact .inr ⟨0, Nat.succ_pos _, ha, hpos⟩
      · exact .inr ⟨i + 1, hlt hi, ha, hpos⟩
    · rintro (ha | ⟨i, hi, ha, hpos⟩)
      · exact .inl (.inl ha)
      · cases i with
        | zero => exact .inl (.inr ⟨ha, hpos⟩)
        | succ i => exact .inr ⟨i, Nat.lt_of_succ_lt_succ hi, ha, hpos⟩

end

/-! ## The invariant -/

/-- The chains hold the strings, each at its position. -/
def Placed (tsv : Nat → Option TString) (size : Nat) (lists : Nat → List Nat) : Prop :=
  ∀ i < size, ∀ a, a ∈ lists i ↔ ∃ ts, tsv a = some ts ∧ lmod ts.hash size = i

/-- The table is sound: its size is a power of two, the chains hold all strings, no two
strings have the same bytes, and `nuse` counts them. -/
structure Interned (g : Strings) : Prop where
  size : ∃ k, 5 ≤ k ∧ g.hash.length = 2 ^ k
  chains : ∃ lists, Chained g.next g.hash lists ∧ Placed g.tsv g.hash.length lists
  unique : ∀ a b s t, g.tsv a = some s → g.tsv b = some t → s.bytes = t.bytes → a = b
  count : ∃ all : List Nat, all.Nodup ∧ (∀ a, a ∈ all ↔ ∃ ts, g.tsv a = some ts)
    ∧ g.nuse = all.length

section

variable {g : Strings} {lists : Nat → List Nat} {a : Nat} {ts : TString}

theorem hashOf_eq (h : g.tsv a = some ts) : g.hashOf a = ts.hash := by
  rw [Strings.hashOf, h]
  rfl

theorem Interned.size_pos (h : Interned g) : 0 < g.hash.length := by
  obtain ⟨k, -, hk⟩ := h.size
  rw [hk]
  exact Nat.two_pow_pos k

theorem Placed.disjoint {tsv : Nat → Option TString} {size i j : Nat} (h : Placed tsv size lists)
    (hi : i < size) (hj : j < size) (hij : i ≠ j) : List.Disjoint (lists i) (lists j) := by
  intro a hai haj
  obtain ⟨s, hs, hposs⟩ := (h i hi a).mp hai
  obtain ⟨t, ht, hpost⟩ := (h j hj a).mp haj
  obtain rfl := Option.some.inj (hs.symm.trans ht)
  exact hij (hposs.symm.trans hpost)

/-- No chain is longer than the count. -/
theorem Interned.length_le (h : Interned g) (hchained : Chained g.next g.hash lists)
    (hplaced : Placed g.tsv g.hash.length lists) {i : Nat} (hi : i < g.hash.length) :
    (lists i).length ≤ g.nuse := by
  obtain ⟨all, -, hall, hnuse⟩ := h.count
  have hsub : lists i ⊆ all := fun a ha => by
    obtain ⟨ts, hts, -⟩ := (hplaced i hi a).mp ha
    exact (hall a).mpr ⟨ts, hts⟩
  rw [hnuse]
  exact (hchained i hi).nodup.length_le_of_subset hsub

/-! ## Resizing -/

/-- What resizing leaves. -/
structure Resized (g g' : Strings) : Prop where
  tsv : g'.tsv = g.tsv
  marked : g'.marked = g.marked
  currentwhite : g'.currentwhite = g.currentwhite
  gcstate : g'.gcstate = g.gcstate
  sweepstrgc : g'.sweepstrgc = g.sweepstrgc
  length : g.gcstate = GCSsweepstring → g'.hash.length = g.hash.length

theorem Resized.refl (g : Strings) : Resized g g := ⟨rfl, rfl, rfl, rfl, rfl, fun _ => rfl⟩

theorem getD_replicate_none (n i : Nat) :
    (List.replicate n (none : Option Nat)).getD i none = none := by
  rw [List.getD_eq_getElem?_getD, List.getElem?_replicate]
  split_ifs <;> rfl

theorem chained_replicate (next : Nat → Option Nat) (n : Nat) :
    Chained next (List.replicate n none) fun _ => [] := fun i _ => getD_replicate_none n i

/-- **Resizing keeps the strings**, each in the chain of its new position. -/
theorem Interned.resize (h : Interned g) {k : Nat} (hk : 5 ≤ k) :
    Interned (luaS_resize g (2 ^ k)) ∧ Resized g (luaS_resize g (2 ^ k)) := by
  by_cases hsweep : g.gcstate = GCSsweepstring
  · rw [luaS_resize, if_pos hsweep]
    exact ⟨h, Resized.refl g⟩
  · obtain ⟨lists, hchained, hplaced⟩ := h.chains
    have hpos : 0 < 2 ^ k := Nat.two_pow_pos k
    obtain ⟨lists', hchained', hlen', hmem'⟩ := foldl_rehash_chained g.hashOf hpos hchained
      (fun i hi => h.length_le hchained hplaced hi) (fun i hi j hj hij => hplaced.disjoint hi hj hij)
      List.length_replicate (chained_replicate g.next (2 ^ k)) fun _ _ _ _ _ _ => List.not_mem_nil
    rw [luaS_resize, if_neg hsweep]
    refine ⟨⟨⟨k, hk, hlen'⟩, ⟨lists', hchained', fun i hi a => ?_⟩, h.unique, h.count⟩,
      ⟨rfl, rfl, rfl, rfl, rfl, fun h => absurd h hsweep⟩⟩
    dsimp only at hi ⊢
    rw [hlen'] at hi ⊢
    rw [hmem' i hi a]
    constructor
    · rintro (ha | ⟨j, hj, ha, hposition⟩)
      · exact absurd ha List.not_mem_nil
      · obtain ⟨ts, hts, -⟩ := (hplaced j hj a).mp ha
        exact ⟨ts, hts, hashOf_eq hts ▸ hposition⟩
    · rintro ⟨ts, hts, hposition⟩
      have hj := lmod_lt ts.hash h.size_pos
      exact .inr ⟨_, hj, (hplaced _ hj a).mpr ⟨ts, hts, rfl⟩, (hashOf_eq hts).symm ▸ hposition⟩

theorem Interned.checkSizes (h : Interned g) :
    Interned (checkSizes g) ∧ Resized g (checkSizes g) := by
  unfold StringTable.checkSizes
  split_ifs with hsmall
  · obtain ⟨k, hk, hsize⟩ := h.size
    obtain ⟨k, rfl⟩ : ∃ j, k = j + 1 := ⟨k - 1, by omega⟩
    have hhalf : g.hash.length / 2 = 2 ^ k := by
      rw [hsize, Nat.pow_succ, Nat.mul_div_cancel _ (by decide)]
    have hlarge : 2 ^ 6 < 2 ^ (k + 1) := hsize ▸ hsmall.2
    have hk6 := (Nat.pow_lt_pow_iff_right (by decide : 1 < 2)).mp hlarge
    rw [hhalf]
    exact h.resize (by omega)
  · exact ⟨h, Resized.refl g⟩

/-! ## Strings -/

theorem bytes_inj {s t : TString} (h : s.bytes = t.bytes) : s = t := by
  obtain ⟨b, hash, hhash⟩ := s
  obtain ⟨b', hash', hhash'⟩ := t
  obtain rfl : b = b' := h
  obtain rfl := hhash.trans hhash'.symm
  rfl

/-- What a lookup finds. -/
theorem Interned.lookup (h : Interned g) (str : List Byte) :
    let found := walk g.next (fun o => decide ((g.tsv o).map TString.bytes = some str)) g.nuse
      (g.hash.getD (lmod (Value.luaS_newlstr str).hash g.hash.length) none)
    (∀ o, found = some o → g.tsv o = some (Value.luaS_newlstr str))
      ∧ (found = none → ∀ b t, g.tsv b = some t → t.bytes ≠ str) := by
  obtain ⟨lists, hchained, hplaced⟩ := h.chains
  have hi := lmod_lt (Value.luaS_newlstr str).hash h.size_pos
  dsimp only
  rw [walk_eq_find? (hchained _ hi) (h.length_le hchained hplaced hi)]
  constructor
  · intro o hfound
    have hfirst := List.find?_some hfound
    have hsame : (g.tsv o).map TString.bytes = some str := of_decide_eq_true hfirst
    cases hts : g.tsv o with
    | none =>
      rw [hts] at hsame
      exact nomatch hsame
    | some t =>
      rw [hts] at hsame
      exact congrArg some (bytes_inj (Option.some.inj hsame))
  · rintro hnone b t ht rfl
    have heq : Value.luaS_newlstr t.bytes = t := bytes_inj rfl
    have hb : b ∈ lists (lmod (Value.luaS_newlstr t.bytes).hash g.hash.length) :=
      (hplaced _ hi b).mpr ⟨t, ht, by rw [heq]⟩
    refine absurd (List.find?_eq_none.mp hnone b hb) (not_not.mpr (decide_eq_true ?_))
    rw [ht, Option.map_some]

/-- A new string in front of its chain. -/
theorem Interned.chainstr (h : Interned g) {str : List Byte} (ha : g.tsv a = none)
    (hnew : ∀ b t, g.tsv b = some t → t.bytes ≠ str) :
    Interned (chainstr g (Value.luaS_newlstr str) a) := by
  obtain ⟨lists, hchained, hplaced⟩ := h.chains
  have hi := lmod_lt (Value.luaS_newlstr str).hash h.size_pos
  have hnot : ∀ j < g.hash.length, a ∉ lists j := fun j hj hmem => by
    obtain ⟨t, ht, -⟩ := (hplaced j hj a).mp hmem
    exact nomatch ha.symm.trans ht
  refine ⟨?_, ?_, ?_, ?_⟩
  · obtain ⟨k, hk, hsize⟩ := h.size
    exact ⟨k, hk, List.length_set.trans hsize⟩
  · -- the chains: `a` is in front of its own
    refine ⟨_, hchained.push hi hnot, fun j hj b => ?_⟩
    have hlen : (StringTable.chainstr g (Value.luaS_newlstr str) a).hash.length = g.hash.length :=
      List.length_set
    rw [hlen] at hj ⊢
    show b ∈ Function.update lists _ _ j ↔ ∃ ts, Function.update g.tsv a _ b = some ts ∧ _
    by_cases hb : b = a
    · subst hb
      simp only [Function.update_self, Option.some.injEq]
      constructor
      · intro hmem
        refine ⟨_, rfl, ?_⟩
        by_contra hne
        rw [Function.update_of_ne (Ne.symm hne)] at hmem
        exact hnot j hj hmem
      · rintro ⟨ts, rfl, rfl⟩
        rw [Function.update_self]
        exact List.mem_cons_self
    · rw [Function.update_of_ne hb, ← hplaced j hj b]
      by_cases hij : j = lmod (Value.luaS_newlstr str).hash g.hash.length
      · rw [hij, Function.update_self, List.mem_cons, or_iff_right hb]
      · rw [Function.update_of_ne hij]
  · -- no other string has its bytes
    intro b c s t hs ht hbytes
    change Function.update g.tsv a _ b = some s at hs
    change Function.update g.tsv a _ c = some t at ht
    by_cases hb : b = a
    · by_cases hc : c = a
      · rw [hb, hc]
      · rw [hb, Function.update_self] at hs
        rw [Function.update_of_ne hc] at ht
        refine absurd ?_ (hnew c t ht)
        rw [← hbytes, ← Option.some.inj hs]
        rfl
    · rw [Function.update_of_ne hb] at hs
      by_cases hc : c = a
      · rw [hc, Function.update_self] at ht
        refine absurd ?_ (hnew b s hs)
        rw [hbytes, ← Option.some.inj ht]
        rfl
      · rw [Function.update_of_ne hc] at ht
        exact h.unique b c s t hs ht hbytes
  · -- one string more
    obtain ⟨all, hnodup, hall, hnuse⟩ := h.count
    have haall : a ∉ all := fun hmem => by
      obtain ⟨t, ht⟩ := (hall a).mp hmem
      exact nomatch ha.symm.trans ht
    refine ⟨a :: all, List.nodup_cons.mpr ⟨haall, hnodup⟩, fun b => ?_, congrArg (· + 1) hnuse⟩
    show b ∈ a :: all ↔ ∃ ts, Function.update g.tsv a _ b = some ts
    by_cases hb : b = a
    · rw [hb, Function.update_self]
      exact iff_of_true List.mem_cons_self ⟨_, rfl⟩
    · rw [Function.update_of_ne hb, List.mem_cons, or_iff_right hb]
      exact hall b

theorem Interned.newlstr (h : Interned g) {str : List Byte} (ha : g.tsv a = none)
    (hnew : ∀ b t, g.tsv b = some t → t.bytes ≠ str) :
    Interned (newlstr g (Value.luaS_newlstr str) a)
      ∧ Resized (StringTable.chainstr g (Value.luaS_newlstr str) a)
        (StringTable.newlstr g (Value.luaS_newlstr str) a) := by
  have hchain := h.chainstr ha hnew
  unfold StringTable.newlstr
  dsimp only
  split_ifs with hcrowded
  · obtain ⟨k, hk, hsize⟩ := hchain.size
    rw [hsize, ← Nat.pow_succ]
    exact hchain.resize (Nat.le_succ_of_le hk)
  · exact ⟨hchain, Resized.refl _⟩

/-- A colour changed: the table does not depend on them. -/
theorem Interned.recolour (h : Interned g) (marked : Nat → Marked) :
    Interned { g with marked } := ⟨h.size, h.chains, h.unique, h.count⟩

/-- What `luaS_newlstr` does to the table: it is still sound, it has all the strings it
had, and there is one at the address with the bytes, which is new if none had them. -/
structure Made (g : Strings) (str : List Byte) (a r : Nat) (g' : Strings) : Prop where
  interned : Interned g'
  string : g'.tsv r = some (Value.luaS_newlstr str)
  kept : ∀ b t, g.tsv b = some t → g'.tsv b = some t
  only : ∀ b t, g'.tsv b = some t → b = r ∨ g.tsv b = some t
  fresh : r = a ∨ g.tsv r = some (Value.luaS_newlstr str)

/-- Found, or not there and made. -/
theorem Interned.luaS_newlstr_cases (h : Interned g) (str : List Byte) (a : Nat) :
    (∃ o, g.tsv o = some (Value.luaS_newlstr str)
        ∧ luaS_newlstr g str a = (o, if isdead g o then resurrect g o else g))
      ∨ (∀ b t, g.tsv b = some t → t.bytes ≠ str)
        ∧ luaS_newlstr g str a = (a, StringTable.newlstr g (Value.luaS_newlstr str) a) := by
  obtain ⟨hfound, hnone⟩ := h.lookup str
  unfold StringTable.luaS_newlstr
  dsimp only at hfound hnone ⊢
  split
  · next o ho => exact .inl ⟨o, hfound o ho, rfl⟩
  · next hno => exact .inr ⟨hnone hno, rfl⟩

theorem Interned.made (h : Interned g) (str : List Byte) (ha : g.tsv a = none) :
    Made g str a (luaS_newlstr g str a).1 (luaS_newlstr g str a).2 := by
  rcases h.luaS_newlstr_cases str a with ⟨o, hts, heq⟩ | ⟨hnew, heq⟩
  · rw [heq]
    dsimp only
    split_ifs
    · exact ⟨h.recolour _, hts, fun _ _ => id, fun _ _ => .inr, .inr hts⟩
    · exact ⟨h, hts, fun _ _ => id, fun _ _ => .inr, .inr hts⟩
  · rw [heq]
    obtain ⟨hinterned, hresized⟩ := h.newlstr ha hnew
    have htsv : (StringTable.newlstr g (Value.luaS_newlstr str) a).tsv
        = Function.update g.tsv a (some (Value.luaS_newlstr str)) := hresized.tsv
    refine ⟨hinterned, ?_, fun b t ht => ?_, fun b t ht => ?_, .inl rfl⟩
    · rw [htsv, Function.update_self]
    · rwa [htsv, Function.update_of_ne]
      rintro rfl
      exact nomatch ha.symm.trans ht
    · by_cases hb : b = a
      · exact .inl hb
      · rw [htsv, Function.update_of_ne hb] at ht
        exact .inr ht

/-! ## Sweeping -/

/-- What sweeping the chain `l` leaves: those alive are made white, the others are gone. -/
structure Swept (g g' : Strings) (l : List Nat) (p : Option Nat) : Prop where
  segment : Segment g'.next p (l.filter (alive g)) none
  tsv : ∀ a, g'.tsv a = if a ∈ l ∧ alive g a = false then none else g.tsv a
  marked : ∀ a, g'.marked a
    = if a ∈ l ∧ alive g a = true then makewhite g (g.marked a) else g.marked a
  next : ∀ a ∉ l, g'.next a = g.next a
  nuse : g'.nuse = g.nuse - (l.filter fun a => !alive g a).length
  same : g'.hash = g.hash ∧ g'.currentwhite = g.currentwhite ∧ g'.gcstate = g.gcstate
    ∧ g'.sweepstrgc = g.sweepstrgc

theorem alive_congr {g' : Strings} (hmarked : g'.marked a = g.marked a)
    (hwhite : g'.currentwhite = g.currentwhite) : alive g' a = alive g a := by
  rw [alive, alive, hmarked, hwhite]

theorem filter_alive_congr {g' : Strings} {l : List Nat}
    (hmarked : ∀ a ∈ l, g'.marked a = g.marked a) (hwhite : g'.currentwhite = g.currentwhite) :
    l.filter (alive g') = l.filter (alive g)
      ∧ (l.filter fun a => !alive g' a) = l.filter fun a => !alive g a := by
  have halive : ∀ a ∈ l, alive g' a = alive g a := fun a ha => alive_congr (hmarked a ha) hwhite
  exact ⟨List.filter_congr halive, List.filter_congr fun a ha => congrArg (!·) (halive a ha)⟩

/-- **A chain swept**: by induction on it, a string kept goes back in front of what is kept
of the rest. -/
theorem sweeplist_swept : ∀ {l : List Nat} {fuel : Nat} {p : Option Nat} {g : Strings},
    l.length ≤ fuel → Segment g.next p l none →
    Swept g (sweeplist fuel p g).2 l (sweeplist fuel p g).1 := by
  intro l
  induction l with
  | nil =>
    intro fuel p g _ hsegment
    obtain rfl : p = none := hsegment
    have hdone : sweeplist fuel none g = (none, g) := by cases fuel <;> rfl
    rw [hdone]
    exact ⟨rfl, fun a => by simp, fun a => by simp, fun _ _ => rfl, rfl, rfl, rfl, rfl, rfl⟩
  | cons a l ih =>
    intro fuel p g hfuel hsegment
    have hal : a ∉ l := (List.nodup_cons.mp hsegment.nodup).1
    obtain ⟨rfl, hrest⟩ := hsegment
    cases fuel with
    | zero => exact absurd hfuel (Nat.not_succ_le_zero _)
    | succ fuel =>
      have hfuel := Nat.le_of_succ_le_succ hfuel
      have hmem : ∀ {b}, b ≠ a → (b ∈ a :: l ↔ b ∈ l) := fun hb =>
        List.mem_cons.trans (or_iff_right hb)
      rw [sweeplist]
      have hne : ∀ {b}, b ∈ l → b ≠ a := fun hb heq => hal (heq ▸ hb)
      by_cases halive : alive g a = true
      · -- kept, and made white
        rw [if_pos halive]
        have hother : ∀ {b}, b ≠ a → (whiten g a).marked b = g.marked b := fun hb =>
          Function.update_of_ne hb _ _
        have hwhite : (whiten g a).currentwhite = g.currentwhite := rfl
        obtain ⟨hfilter, hdead⟩ := filter_alive_congr (fun b hb => hother (hne hb)) hwhite
        obtain ⟨hsegment, htsv, hmarks, hnext, hnuse, hsame⟩ :=
          ih (p := g.next a) (g := whiten g a) hfuel hrest
        rw [hfilter] at hsegment
        rw [hdead] at hnuse
        have hfiltered : a ∉ l.filter (alive g) := fun h => hal (List.mem_of_mem_filter h)
        refine ⟨?_, fun b => ?_, fun b => ?_, fun b hb => ?_, ?_, hsame⟩
        · rw [List.filter_cons_of_pos halive]
          exact hsegment.push hfiltered
        · refine (htsv b).trans ?_
          by_cases hb : b = a
          · rw [hb, if_neg fun h => hal h.1, if_neg fun h => Bool.false_ne_true (h.2.symm.trans halive)]
            rfl
          · rw [alive_congr (hother hb) hwhite]
            exact if_congr (and_congr_left fun _ => (hmem hb).symm) rfl rfl
        · refine (hmarks b).trans ?_
          by_cases hb : b = a
          · rw [hb, if_neg fun h => hal h.1, if_pos ⟨List.mem_cons_self, halive⟩]
            exact Function.update_self _ _ _
          · rw [alive_congr (hother hb) hwhite, hother hb]
            exact if_congr (and_congr_left fun _ => (hmem hb).symm) rfl rfl
        · obtain ⟨hba, hbl⟩ := not_or.mp fun h => hb (List.mem_cons.mpr h)
          show Function.update _ a _ b = _
          rw [Function.update_of_ne hba]
          exact hnext b hbl
        · rw [List.filter_cons_of_neg (by rw [halive]; decide)]
          exact hnuse
      · -- freed
        rw [if_neg halive]
        obtain ⟨hsegment, htsv, hmarks, hnext, hnuse, hsame⟩ :=
          ih (p := g.next a) (g := freeobj g a) hfuel hrest
        have hdead : alive g a = false := Bool.not_eq_true _ ▸ halive
        refine ⟨?_, fun b => ?_, fun b => ?_, fun b hb => ?_, ?_, hsame⟩
        · rw [List.filter_cons_of_neg halive]
          exact hsegment
        · refine (htsv b).trans ?_
          by_cases hb : b = a
          · rw [hb, if_neg fun h => hal h.1, if_pos ⟨List.mem_cons_self, hdead⟩]
            exact Function.update_self _ _ _
          · have hkept : (freeobj g a).tsv b = g.tsv b := Function.update_of_ne hb _ _
            rw [hkept]
            exact if_congr (and_congr_left fun _ => (hmem hb).symm) rfl rfl
        · refine (hmarks b).trans ?_
          by_cases hb : b = a
          · rw [hb, if_neg fun h => hal h.1, if_neg fun h => halive h.2]
            rfl
          · exact if_congr (and_congr_left fun _ => (hmem hb).symm) rfl rfl
        · exact hnext b fun hbl => hb (List.mem_cons_of_mem a hbl)
        · rw [List.filter_cons_of_pos (by rw [hdead]; rfl), List.length_cons, hnuse]
          exact Nat.sub_sub g.nuse 1 _ |>.trans (by rw [Nat.add_comm]; rfl)

theorem length_filter_notMem {all dead : List Nat} (hall : all.Nodup) (hdead : dead.Nodup)
    (hsub : dead ⊆ all) :
    (all.filter fun a => decide (a ∉ dead)).length = all.length - dead.length := by
  have hsplit := List.length_eq_length_filter_add (l := all) fun a => decide (a ∈ dead)
  have hperm : (all.filter fun a => decide (a ∈ dead)).Perm dead := by
    refine (List.perm_ext_iff_of_nodup (hall.filter _) hdead).mpr fun a => ?_
    rw [List.mem_filter, decide_eq_true_iff]
    exact and_iff_right_of_imp fun ha => hsub ha
  simp only [decide_not]
  have := hperm.length_eq
  omega

/-- What a step of the sweep does to the table. -/
structure Stepped (g g' : Strings) : Prop where
  tsv : ∀ a ts, g'.tsv a = some ts ↔ g.tsv a = some ts
    ∧ (lmod ts.hash g.hash.length = g.sweepstrgc → alive g a = true)
  marked : ∀ a ts, g'.tsv a = some ts → g'.marked a
    = if lmod ts.hash g.hash.length = g.sweepstrgc then makewhite g (g.marked a) else g.marked a
  currentwhite : g'.currentwhite = g.currentwhite
  gcstate : g'.gcstate = g.gcstate
  sweepstrgc : g'.sweepstrgc = g.sweepstrgc + 1
  length : g'.hash.length = g.hash.length

/-- **A chain swept keeps the table sound**; exactly the dead strings of the chain are gone. -/
theorem Interned.sweepstring (h : Interned g) (hi : g.sweepstrgc < g.hash.length) :
    Interned (sweepstring g) ∧ Stepped g (sweepstring g) := by
  obtain ⟨lists, hchained, hplaced⟩ := h.chains
  have hlen := h.length_le hchained hplaced hi
  have hswept := sweeplist_swept hlen (hchained _ hi)
  unfold StringTable.sweepstring
  dsimp only
  generalize sweeplist g.nuse (g.hash.getD g.sweepstrgc none) g = s at hswept
  obtain ⟨p, g'⟩ := s
  obtain ⟨hsegment, htsv, hmarked, hnext, hnuse, hhash, hwhite, hgcstate, -⟩ := hswept
  have hmem : ∀ {a ts}, g.tsv a = some ts →
      (a ∈ lists g.sweepstrgc ↔ lmod ts.hash g.hash.length = g.sweepstrgc) := by
    intro a ts hts
    rw [hplaced _ hi a]
    refine ⟨?_, fun hpos => ⟨ts, hts, hpos⟩⟩
    rintro ⟨t, ht, hpos⟩
    rwa [Option.some.inj (hts.symm.trans ht)]
  -- gone are the dead strings at this position, and they are in this chain
  have htsv' : ∀ a ts, g'.tsv a = some ts ↔ g.tsv a = some ts
      ∧ (lmod ts.hash g.hash.length = g.sweepstrgc → alive g a = true) := by
    intro a ts
    rw [htsv a]
    split_ifs with hdead
    · refine iff_of_false nofun fun hkept => ?_
      have halive := hkept.2 ((hmem hkept.1).mp hdead.1)
      exact Bool.false_ne_true (hdead.2.symm.trans halive)
    · refine ⟨fun hts => ⟨hts, fun hpos => ?_⟩, fun hkept => hkept.1⟩
      by_contra hnot
      exact hdead ⟨(hmem hts).mpr hpos, Bool.not_eq_true _ ▸ hnot⟩
  refine ⟨⟨?_, ?_, ?_, ?_⟩, ⟨htsv', ?_, hwhite, hgcstate, rfl, ?_⟩⟩
  · obtain ⟨k, hk, hsize⟩ := h.size
    exact ⟨k, hk, by rw [List.length_set, hhash, hsize]⟩
  · -- the chain is cut down to what is alive
    refine ⟨Function.update lists g.sweepstrgc ((lists g.sweepstrgc).filter (alive g)), ?_, ?_⟩
    · intro j hj
      dsimp only at hj ⊢
      rw [List.length_set, hhash] at hj
      rw [hhash, getD_set hi]
      by_cases hij : j = g.sweepstrgc
      · rw [if_pos hij, hij, Function.update_self]
        exact hsegment
      · rw [if_neg hij, Function.update_of_ne hij]
        exact (hchained j hj).congr fun a ha => hnext a fun hmem =>
          hplaced.disjoint hj hi hij ha hmem
    · intro j hj a
      dsimp only at hj ⊢
      rw [List.length_set, hhash] at hj ⊢
      by_cases hij : j = g.sweepstrgc
      · rw [hij, Function.update_self, List.mem_filter]
        constructor
        · rintro ⟨ha, halive⟩
          obtain ⟨ts, hts, hpos⟩ := (hplaced _ hi a).mp ha
          exact ⟨ts, (htsv' a ts).mpr ⟨hts, fun _ => halive⟩, hpos⟩
        · rintro ⟨ts, hts, hpos⟩
          obtain ⟨hts, halive⟩ := (htsv' a ts).mp hts
          exact ⟨(hmem hts).mpr hpos, halive hpos⟩
      · rw [Function.update_of_ne hij, hplaced j hj a]
        refine exists_congr fun ts => ?_
        rw [htsv' a ts]
        constructor
        · rintro ⟨hts, hpos⟩
          exact ⟨⟨hts, fun h => absurd (hpos.symm.trans h) hij⟩, hpos⟩
        · rintro ⟨⟨hts, -⟩, hpos⟩
          exact ⟨hts, hpos⟩
  · intro a b s t hs ht
    exact h.unique a b s t ((htsv' a s).mp hs).1 ((htsv' b t).mp ht).1
  · -- the count goes down by as many as were freed
    obtain ⟨all, hnodup, hall, hcount⟩ := h.count
    have hdead : ((lists g.sweepstrgc).filter fun a => !alive g a) ⊆ all := fun a ha => by
      obtain ⟨ts, hts, -⟩ := (hplaced _ hi a).mp (List.mem_of_mem_filter ha)
      exact (hall a).mpr ⟨ts, hts⟩
    refine ⟨all.filter fun a => decide (a ∉ (lists g.sweepstrgc).filter fun a => !alive g a),
      hnodup.filter _, fun a => ?_, ?_⟩
    · rw [List.mem_filter, hall a, decide_eq_true_iff, List.mem_filter, Bool.not_eq_true',
        htsv a]
      split_ifs with hgone
      · exact iff_of_false (fun hkept => hkept.2 hgone) nofun
      · exact and_iff_left hgone
    · dsimp only
      rw [hnuse, hcount]
      exact (length_filter_notMem hnodup ((hchained _ hi).nodup.filter _) hdead).symm
  · intro a ts hts
    have hkept := (htsv' a ts).mp hts
    rw [hmarked a]
    refine if_congr ⟨fun hcond => (hmem hkept.1).mp hcond.1, fun hpos => ?_⟩ rfl rfl
    exact ⟨(hmem hkept.1).mpr hpos, hkept.2 hpos⟩
  · rw [List.length_set, hhash]

/-! ## Colours -/

/-- No string has both whites, and one of the dead white is in a chain that is still to be
swept. -/
structure Coloured (g : Strings) : Prop where
  one : ∀ a ts, g.tsv a = some ts → ¬ ((g.marked a).white0 = true ∧ (g.marked a).white1 = true)
  dead : ∀ a ts, g.tsv a = some ts → isdead g a = true →
    g.gcstate = GCSsweepstring ∧ g.sweepstrgc ≤ lmod ts.hash g.hash.length
  bound : g.gcstate = GCSsweepstring → g.sweepstrgc < g.hash.length

/-- What holds of the table in every run. -/
structure Sound (g : Strings) : Prop extends Interned g, Coloured g

/-- A string that is there and not dead. -/
def Live (g : Strings) (a : Nat) (ts : TString) : Prop := g.tsv a = some ts ∧ isdead g a = false

theorem Coloured.resized {g' : Strings} (h : Coloured g) (hr : Resized g g') : Coloured g' := by
  have hdead : ∀ a, isdead g' a = isdead g a := fun a => by
    rw [isdead, isdead, hr.marked, hr.currentwhite]
  refine ⟨fun a ts hts => ?_, fun a ts hts hd => ?_, fun hs => ?_⟩
  · rw [hr.marked]
    exact h.one a ts (hr.tsv ▸ hts)
  · obtain ⟨hs, hle⟩ := h.dead a ts (hr.tsv ▸ hts) (hdead a ▸ hd)
    rw [hr.gcstate, hr.sweepstrgc, hr.length hs]
    exact ⟨hs, hle⟩
  · rw [hr.gcstate] at hs
    rw [hr.sweepstrgc, hr.length hs]
    exact h.bound hs

theorem Live.resized {g' : Strings} (h : Live g a ts) (hr : Resized g g') : Live g' a ts := by
  refine ⟨hr.tsv ▸ h.1, ?_⟩
  rw [isdead, hr.marked, hr.currentwhite]
  exact h.2

theorem white_luaC_white (g : Strings) : (luaC_white g).white (!g.currentwhite) = false := by
  rw [luaC_white, Marked.white]
  cases g.currentwhite <;> rfl

/-- A dead string is of the one white that is not the current one: changed, it is of the
current one. -/
theorem white_changewhite {m : Marked} {white : Bool} (hwhite : m.white white = true) :
    (changewhite m).white white = false := by
  rw [changewhite, Marked.white]
  rw [Marked.white] at hwhite
  cases white <;> simp_all

theorem not_both_changewhite {m : Marked} {white : Bool} (hwhite : m.white white = true)
    (hone : ¬ (m.white0 = true ∧ m.white1 = true)) :
    ¬ ((changewhite m).white0 = true ∧ (changewhite m).white1 = true) := by
  rw [changewhite]
  rw [Marked.white] at hwhite
  cases white <;> simp_all

theorem Coloured.chainstr (h : Coloured g) (ts : TString) (a : Nat) :
    Coloured (chainstr g ts a) := by
  have hlen : (StringTable.chainstr g ts a).hash.length = g.hash.length := List.length_set
  refine ⟨fun b t ht => ?_, fun b t ht hd => ?_, fun hs => hlen.symm ▸ h.bound hs⟩
  · change Function.update g.tsv a _ b = some t at ht
    show ¬ ((Function.update g.marked a _ b).white0 = true ∧ (Function.update g.marked a _ b).white1 = true)
    by_cases hb : b = a
    · rw [hb, Function.update_self, luaC_white]
      cases g.currentwhite <;> decide
    · rw [Function.update_of_ne hb] at ht ⊢
      exact h.one b t ht
  · change Function.update g.tsv a _ b = some t at ht
    change (Function.update g.marked a _ b).white (!g.currentwhite) = true at hd
    by_cases hb : b = a
    · rw [hb, Function.update_self, white_luaC_white] at hd
      exact absurd hd Bool.false_ne_true
    · rw [Function.update_of_ne hb] at ht hd
      rw [hlen]
      exact h.dead b t ht hd

theorem Live.chainstr {b : Nat} {t : TString} (h : Live g b t) (hne : b ≠ a) (ts : TString) :
    Live (chainstr g ts a) b t := by
  refine ⟨(Function.update_of_ne hne _ _).trans h.1, ?_⟩
  show (Function.update g.marked a _ b).white (!g.currentwhite) = false
  rw [Function.update_of_ne hne]
  exact h.2

theorem live_chainstr (g : Strings) (ts : TString) (a : Nat) : Live (chainstr g ts a) a ts := by
  refine ⟨Function.update_self _ _ _, ?_⟩
  show (Function.update g.marked a _ a).white (!g.currentwhite) = false
  rw [Function.update_self, white_luaC_white]

theorem Coloured.resurrect (h : Coloured g) {ts : TString} (hts : g.tsv a = some ts)
    (hdead : isdead g a = true) : Coloured (resurrect g a) := by
  refine ⟨fun b t ht => ?_, fun b t ht hd => ?_, h.bound⟩
  · show ¬ ((Function.update g.marked a _ b).white0 = true ∧ (Function.update g.marked a _ b).white1 = true)
    by_cases hb : b = a
    · rw [hb, Function.update_self]
      exact not_both_changewhite hdead (h.one a ts hts)
    · rw [Function.update_of_ne hb]
      exact h.one b t ht
  · change (Function.update g.marked a _ b).white (!g.currentwhite) = true at hd
    by_cases hb : b = a
    · rw [hb, Function.update_self, white_changewhite hdead] at hd
      exact absurd hd Bool.false_ne_true
    · rw [Function.update_of_ne hb] at hd
      exact h.dead b t ht hd

/-- **What `luaS_newlstr` gives is not dead**, and it lets nothing die. -/
theorem Sound.luaS_newlstr (h : Sound g) (str : List Byte) (ha : g.tsv a = none) :
    Sound (luaS_newlstr g str a).2
      ∧ Live (luaS_newlstr g str a).2 (luaS_newlstr g str a).1 (Value.luaS_newlstr str)
      ∧ ∀ b t, Live g b t → Live (luaS_newlstr g str a).2 b t := by
  have hmade := (h.toInterned.made str ha).interned
  rcases h.toInterned.luaS_newlstr_cases str a with ⟨o, hts, heq⟩ | ⟨hnew, heq⟩
  · rw [heq] at hmade ⊢
    dsimp only at hmade ⊢
    split_ifs at hmade ⊢ with hdead
    · refine ⟨⟨hmade, h.toColoured.resurrect hts hdead⟩, ⟨hts, ?_⟩, fun b t hb => ⟨hb.1, ?_⟩⟩
      · show (Function.update g.marked o _ o).white (!g.currentwhite) = false
        rw [Function.update_self, white_changewhite hdead]
      · have hne : b ≠ o := by
          rintro rfl
          exact Bool.false_ne_true (hb.2.symm.trans hdead)
        show (Function.update g.marked o _ b).white (!g.currentwhite) = false
        rw [Function.update_of_ne hne]
        exact hb.2
    · exact ⟨h, ⟨hts, Bool.not_eq_true _ ▸ hdead⟩, fun _ _ => id⟩
  · rw [heq] at hmade ⊢
    have hresized := (h.toInterned.newlstr ha hnew).2
    refine ⟨⟨hmade, (h.toColoured.chainstr _ a).resized hresized⟩,
      (live_chainstr g _ a).resized hresized, fun b t hb => (hb.chainstr ?_ _).resized hresized⟩
    rintro rfl
    exact nomatch ha.symm.trans hb.1

/-! ## The phases of the collector -/

theorem Coloured.none_dead (h : Coloured g) (hs : g.gcstate ≠ GCSsweepstring) :
    ∀ a ts, g.tsv a = some ts → isdead g a = false := by
  intro a ts hts
  by_contra hdead
  exact hs (h.dead a ts hts (Bool.not_eq_false _ ▸ hdead)).1

/-- Another phase, in which nothing is dead. -/
theorem Sound.phase (h : Sound g) (hnone : ∀ a ts, g.tsv a = some ts → isdead g a = false)
    {s : GcState} (hs : s ≠ GCSsweepstring) : Sound { g with gcstate := s } where
  size := h.size
  chains := h.chains
  unique := h.unique
  count := h.count
  one := h.one
  dead a ts hts hdead := absurd (hnone a ts hts) (ne_true_of_eq_false · hdead)
  bound hs' := absurd hs' hs

/-- A sweep of the strings begins, whichever of them are dead. -/
theorem Sound.sweep (h : Sound g) (currentwhite : Bool) :
    Sound { g with currentwhite, sweepstrgc := 0, gcstate := GCSsweepstring } where
  size := h.size
  chains := h.chains
  unique := h.unique
  count := h.count
  one := h.one
  dead _ _ _ _ := ⟨rfl, Nat.zero_le _⟩
  bound _ := h.toInterned.size_pos

theorem white_makewhite (g : Strings) (m : Marked) :
    (makewhite g m).white (!g.currentwhite) = false := by
  rw [makewhite, Marked.white]
  cases g.currentwhite <;> rfl

/-- **A chain swept**: what is left of it is of the current white. -/
theorem Coloured.sweepstring {g' : Strings} (h : Coloured g) (hs : g.gcstate = GCSsweepstring)
    (hstepped : Stepped g g') :
    (∀ a ts, g'.tsv a = some ts →
      ¬ ((g'.marked a).white0 = true ∧ (g'.marked a).white1 = true))
    ∧ ∀ a ts, g'.tsv a = some ts → isdead g' a = true →
      g'.gcstate = GCSsweepstring ∧ g'.sweepstrgc ≤ lmod ts.hash g'.hash.length := by
  constructor
  · intro a ts hts
    rw [hstepped.marked a ts hts]
    split_ifs
    · rw [makewhite]
      cases g.currentwhite <;> simp
    · exact h.one a ts ((hstepped.tsv a ts).mp hts).1
  · intro a ts hts hdead
    rw [isdead, hstepped.marked a ts hts, hstepped.currentwhite] at hdead
    split_ifs at hdead with hpos
    · rw [white_makewhite] at hdead
      exact absurd hdead Bool.false_ne_true
    · obtain ⟨-, hle⟩ := h.dead a ts ((hstepped.tsv a ts).mp hts).1 hdead
      rw [hstepped.gcstate, hstepped.sweepstrgc, hstepped.length]
      exact ⟨hs, Nat.succ_le_of_lt (Nat.lt_of_le_of_ne hle (Ne.symm hpos))⟩

theorem Live.stepped {g' : Strings} (h : Live g a ts) (hstepped : Stepped g g') : Live g' a ts := by
  have halive : alive g a = true := by
    have hdead : (g.marked a).white (!g.currentwhite) = false := h.2
    rw [alive, hdead]
    exact Bool.or_true _
  have hts := (hstepped.tsv a ts).mpr ⟨h.1, fun _ => halive⟩
  refine ⟨hts, ?_⟩
  rw [isdead, hstepped.marked a ts hts, hstepped.currentwhite]
  split_ifs
  · exact white_makewhite g _
  · exact h.2

/-- The string survives the end of the mark phase: it was marked. -/
def Survives (g : Strings) (a : Nat) : Prop := (g.marked a).white g.currentwhite = false

theorem Sound.singlestep (h : Sound g) (more : Bool) : Sound (singlestep g more)
    ∧ ∀ a ts, Live g a ts → (g.gcstate = GCSpropagate → more = false → Survives g a) →
      Live (singlestep g more) a ts := by
  unfold StringTable.singlestep
  cases hs : g.gcstate with
  | GCSpause =>
    have hnone := h.toColoured.none_dead (by rw [hs]; decide)
    exact ⟨h.phase hnone (by decide), fun a ts hlive _ => hlive⟩
  | GCSpropagate =>
    cases more with
    | true => exact ⟨h, fun a ts hlive _ => hlive⟩
    | false =>
      refine ⟨h.sweep _, fun a ts hlive hsurvives => ⟨hlive.1, ?_⟩⟩
      show (g.marked a).white (!!g.currentwhite) = false
      rw [Bool.not_not]
      exact hsurvives rfl rfl
  | GCSsweepstring =>
    have hbound := h.bound hs
    -- one chain a step; after the last no dead string is left
    obtain ⟨hinterned, hstepped⟩ := h.toInterned.sweepstring hbound
    obtain ⟨hone, hdead⟩ := h.toColoured.sweepstring hs hstepped
    dsimp only
    split_ifs with hend
    · refine ⟨⟨⟨hinterned.size, hinterned.chains, hinterned.unique, hinterned.count⟩,
        ⟨hone, fun a ts hts hd => ?_, fun h => nomatch h⟩⟩,
        fun a ts hlive _ => (hlive.stepped hstepped :)⟩
      have hpos := lmod_lt ts.hash hinterned.size_pos
      have hle := (hdead a ts hts hd).2
      exact absurd hpos (Nat.not_lt.mpr (Nat.le_trans hend hle))
    · exact ⟨⟨hinterned, ⟨hone, hdead, fun _ => Nat.not_le.mp hend⟩⟩,
        fun a ts hlive _ => hlive.stepped hstepped⟩
  | GCSsweep =>
    cases more with
    | true => exact ⟨h, fun a ts hlive _ => hlive⟩
    | false =>
      -- the end of the sweep, where the table may shrink
      obtain ⟨hinterned, hresized⟩ := h.toInterned.checkSizes
      have hcoloured := h.toColoured.resized hresized
      have hnone := hcoloured.none_dead (by rw [hresized.gcstate, hs]; decide)
      exact ⟨Sound.phase ⟨hinterned, hcoloured⟩ hnone (by decide),
        fun a ts hlive _ => (hlive.resized hresized :)⟩
  | GCSfinalize =>
    cases more with
    | true => exact ⟨h, fun a ts hlive _ => hlive⟩
    | false =>
      have hnone := h.toColoured.none_dead (by rw [hs]; decide)
      exact ⟨h.phase hnone (by decide), fun a ts hlive _ => hlive⟩

theorem Sound.resetsweep (h : Sound g) : Sound (resetsweep g)
    ∧ ∀ a ts, Live g a ts → Live (resetsweep g) a ts := by
  unfold StringTable.resetsweep
  split_ifs
  · exact ⟨h.sweep _, fun a ts hlive => hlive⟩
  · exact ⟨h, fun a ts hlive => hlive⟩

/-- Marks that give no string a white keep everything sound. -/
theorem Sound.mark (h : Sound g) (a : Nat) {m : Marked}
    (h0 : m.white0 = true → (g.marked a).white0 = true)
    (h1 : m.white1 = true → (g.marked a).white1 = true) :
    Sound { g with marked := Function.update g.marked a m }
      ∧ ∀ b ts, Live g b ts → Live { g with marked := Function.update g.marked a m } b ts := by
  have hless : ∀ b white, (Function.update g.marked a m b).white white = true →
      (g.marked b).white white = true := by
    intro b white
    by_cases hb : b = a
    · rw [hb, Function.update_self, Marked.white, Marked.white]
      cases white with
      | true => exact h1
      | false => exact h0
    · rw [Function.update_of_ne hb]
      exact id
  refine ⟨⟨h.toInterned.recolour _, ⟨fun b ts hts hboth => ?_, fun b ts hts hdead => ?_, h.bound⟩⟩,
    fun b ts hlive => ⟨hlive.1, ?_⟩⟩
  · exact h.one b ts hts ⟨hless b false hboth.1, hless b true hboth.2⟩
  · exact h.dead b ts hts (hless b _ hdead)
  · by_contra hdead
    have := hless b _ (Bool.not_eq_false _ ▸ hdead)
    exact Bool.false_ne_true (hlive.2.symm.trans this)

/-! ## Every run -/

/-- The mark phase marks the string before it ends. -/
def Marks (a : Nat) (g : Strings) : Action → Prop
  | .singlestep more => g.gcstate = GCSpropagate → more = false → Survives g a
  | _ => True

theorem step_sound (h : Sound g) {act : Action} (hok : Allowed g act) {g' : Strings}
    (hstep : step g act = some g') :
    Sound g' ∧ ∀ a ts, Live g a ts → Marks a g act → Live g' a ts := by
  cases act with
  | newlstr str b =>
    obtain rfl := Option.some.inj hstep
    obtain ⟨hsound, -, hlive⟩ := h.luaS_newlstr str hok
    exact ⟨hsound, fun a ts ha _ => hlive a ts ha⟩
  | singlestep more =>
    obtain rfl := Option.some.inj hstep
    exact h.singlestep more
  | resetsweep =>
    obtain rfl := Option.some.inj hstep
    exact ⟨h.resetsweep.1, fun a ts ha _ => h.resetsweep.2 a ts ha⟩
  | stringmark b =>
    obtain rfl := Option.some.inj hstep
    have hmark := h.mark b (m := { g.marked b with white0 := false, white1 := false }) nofun nofun
    exact ⟨hmark.1, fun a ts ha _ => hmark.2 a ts ha⟩
  | fix b =>
    obtain rfl := Option.some.inj hstep
    have hmark := h.mark b (m := { g.marked b with fixed := true }) id id
    exact ⟨hmark.1, fun a ts ha _ => hmark.2 a ts ha⟩

theorem Sound.start : Sound start where
  size := ⟨5, Nat.le_refl 5, rfl⟩
  chains := ⟨fun _ => [], chained_replicate _ _, fun i _ a => by simp [StringTable.start]⟩
  unique _ _ _ _ h := nomatch h
  count := ⟨[], List.nodup_nil, fun a => by simp [StringTable.start], rfl⟩
  one _ _ h := nomatch h
  dead _ _ h := nomatch h
  bound h := nomatch h

theorem reachable_sound (h : Reachable step Allowed start g) : Sound g :=
  h.invariant Sound.start fun _ _ _ hs hok hstep => (step_sound hs hok hstep).1

/-- **One string for given bytes**: at any time, `luaS_newlstr` gives a string with the
bytes, not dead, and all strings with these bytes are this one; no other is lost. -/
theorem luaS_newlstr_interned (h : Reachable step Allowed start g) (str : List Byte)
    (ha : g.tsv a = none) :
    Live (luaS_newlstr g str a).2 (luaS_newlstr g str a).1 (Value.luaS_newlstr str)
      ∧ (∀ b t, (luaS_newlstr g str a).2.tsv b = some t →
        (t.bytes = str ↔ b = (luaS_newlstr g str a).1))
      ∧ ∀ b t, g.tsv b = some t → (luaS_newlstr g str a).2.tsv b = some t := by
  have hs := reachable_sound h
  have hmade := hs.toInterned.made str ha
  refine ⟨(hs.luaS_newlstr str ha).2.1, fun b t ht => ⟨fun hbytes => ?_, ?_⟩, hmade.kept⟩
  · exact hmade.interned.unique b _ t _ ht hmade.string hbytes
  · rintro rfl
    rw [Option.some.inj (ht.symm.trans hmade.string)]
    rfl

/-- **A string in use stays**: while every mark phase marks it, it is swept neither away
nor out of its chain, and `luaS_newlstr` gives this very string for its bytes. -/
theorem kept_while_marked {g' : Strings} (h : Reachable step Allowed start g) (hlive : Live g a ts)
    (hrun : Reachable step (fun g act => Allowed g act ∧ Marks a g act) g g') :
    Live g' a ts ∧ ∀ b, g'.tsv b = none → (luaS_newlstr g' ts.bytes b).1 = a := by
  have hkept : Sound g' ∧ Live g' a ts := by
    refine hrun.invariant (I := fun s => Sound s ∧ Live s a ts) ⟨reachable_sound h, hlive⟩
      fun s act s' hs hok hstep => ?_
    have hnext := step_sound hs.1 hok.1 hstep
    exact ⟨hnext.1, hnext.2 a ts hs.2 hok.2⟩
  refine ⟨hkept.2, fun b hb => ?_⟩
  have hmade := hkept.1.toInterned.made ts.bytes hb
  have hthere := hmade.kept a ts hkept.2.1
  exact hmade.interned.unique _ a _ ts hmade.string hthere rfl

end

/-! A string asked for again when it is dead, and one kept through a collection that began
after it was made. -/

def oneString : Strings := (luaS_newlstr start [0x61] 1).2

theorem oneString_reachable : Reachable step Allowed start oneString :=
  .step (a := .newlstr [0x61] 1) .start rfl rfl

/-- A mark phase has not marked it, and its chain is not swept yet. -/
def unmarked : Strings := singlestep (singlestep oneString true) false

theorem unmarked_reachable : Reachable step Allowed start unmarked :=
  .step (a := .singlestep false) (.step (a := .singlestep true) oneString_reachable trivial rfl)
    trivial rfl

theorem luaS_newlstr_resurrects : isdead unmarked 1 = true
    ∧ (luaS_newlstr unmarked [0x61] 2).1 = 1
    ∧ Live (luaS_newlstr unmarked [0x61] 2).2 (luaS_newlstr unmarked [0x61] 2).1
      (Value.luaS_newlstr [0x61]) :=
  ⟨by decide, by decide, (luaS_newlstr_interned unmarked_reachable [0x61] (a := 2) (by decide)).1⟩

/-- In the mark phase, with another string behind it. -/
def inMarkPhase : Strings := (luaS_newlstr (stringmark (singlestep oneString true) 1) [0x62] 2).2

theorem inMarkPhase_reachable :
    Reachable step (fun g act => Allowed g act ∧ Marks 1 g act) oneString inMarkPhase := by
  have hpause : Reachable step (fun g act => Allowed g act ∧ Marks 1 g act) oneString
      (singlestep oneString true) :=
    .step (a := .singlestep true) .start ⟨trivial, fun h => absurd h (by decide)⟩ rfl
  have hmark : Reachable step (fun g act => Allowed g act ∧ Marks 1 g act) oneString
      (stringmark (singlestep oneString true) 1) :=
    .step (a := .stringmark 1) hpause ⟨Or.inr rfl, trivial⟩ rfl
  exact .step (a := .newlstr [0x62] 2) hmark ⟨rfl, trivial⟩ rfl

theorem kept_while_marked_once : Live (singlestep (singlestep inMarkPhase false) false) 1
      (Value.luaS_newlstr [0x61])
    ∧ ∀ b, (singlestep (singlestep inMarkPhase false) false).tsv b = none →
      (luaS_newlstr (singlestep (singlestep inMarkPhase false) false) [0x61] b).1 = 1 := by
  have hatomic : Reachable step (fun g act => Allowed g act ∧ Marks 1 g act) oneString
      (singlestep inMarkPhase false) :=
    .step (a := .singlestep false) inMarkPhase_reachable ⟨trivial, fun _ _ => rfl⟩ rfl
  exact kept_while_marked oneString_reachable ⟨rfl, rfl⟩
    (.step (a := .singlestep false) hatomic ⟨trivial, fun h => absurd h (by decide)⟩ rfl)

end NostalgiaConv.StringTable
