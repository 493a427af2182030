/-
A linear scan of machine words for the first that passes a test.

The loop is the C one: `for (i = start; guard; i++) if (test) return i;`, where
`i++` wraps around. A guard that is true of every word makes it a loop that no
bound ends, so the scan has a number of rounds as its first argument and says
when they are used up. `scan_found` is the rule for a scan with one solution
ahead of it, `scan_not_found` for one with none. Nothing here is about a
particular test.
-/
import Mathlib.Tactic.Common

set_option autoImplicit false

namespace NostalgiaConv.LinearScan

variable {w : Nat}

/-- How a scan stands after its rounds. -/
inductive Scan (w : Nat) where
  | found (i : BitVec w)
  | ended -- the guard was false
  | running
  deriving DecidableEq

/-- `return i` in the loop and `return 0` behind it; a loop that runs on returns
nothing. -/
def Scan.value : Scan w → Option (BitVec w)
  | .found i => some i
  | .ended => some 0
  | .running => none

variable (guard test : BitVec w → Prop) [DecidablePred guard] [DecidablePred test]

def scan : Nat → BitVec w → Scan w
  | 0, _ => .running
  | fuel + 1, i =>
    if guard i then
      if test i then .found i else scan fuel (i + 1)
    else .ended

variable {guard test}

/-- Below another word, `i++` does not wrap. -/
theorem toNat_succ_of_lt {i k : BitVec w} (h : i.toNat < k.toNat) :
    (i + 1).toNat = i.toNat + 1 := by
  have hk : k.toNat < 2 ^ w := k.isLt
  have hone : (1 : BitVec w).toNat = 1 % 2 ^ w := BitVec.toNat_ofNat 1 w
  rw [BitVec.toNat_add, hone, Nat.add_mod_mod]
  exact Nat.mod_eq_of_lt (by omega)

/-- **A scan ends at its first solution**, when the guard lets it get there and it
has the rounds. -/
theorem scan_found (k : BitVec w) (hk : test k) : ∀ fuel i, i.toNat ≤ k.toNat →
    k.toNat < i.toNat + fuel →
    (∀ j : BitVec w, i.toNat ≤ j.toNat → j.toNat ≤ k.toNat → guard j) →
    (∀ j : BitVec w, i.toNat ≤ j.toNat → j.toNat < k.toNat → ¬ test j) →
    scan guard test fuel i = .found k := by
  intro fuel
  induction fuel with
  | zero => intro i hle hfuel; omega
  | succ fuel ih =>
    intro i hle hfuel hguard htest
    rw [scan, if_pos (hguard i (Nat.le_refl _) hle)]
    rcases Nat.lt_or_ge i.toNat k.toNat with hlt | hge
    · have hsucc := toNat_succ_of_lt hlt
      rw [if_neg (htest i (Nat.le_refl _) hlt)]
      exact ih (i + 1) (by omega) (by omega) (fun j hj => hguard j (by omega))
        (fun j hj => htest j (by omega))
    · have hik : i = k := BitVec.eq_of_toNat_eq (by omega)
      rw [if_pos (hik ▸ hk), hik]

/-- A scan whose guard lets no solution through finds none. -/
theorem scan_not_found (hnone : ∀ j, guard j → ¬ test j) :
    ∀ fuel i k, scan guard test fuel i ≠ .found k := by
  intro fuel
  induction fuel with
  | zero => intro i k; exact nofun
  | succ fuel ih =>
    intro i k
    rw [scan]
    by_cases hguard : guard i
    · rw [if_pos hguard, if_neg (hnone i hguard)]
      exact ih (i + 1) k
    · rw [if_neg hguard]
      exact nofun

end NostalgiaConv.LinearScan
