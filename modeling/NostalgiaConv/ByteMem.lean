/-
A byte-addressed little-endian memory over an address space of `w` bits.

A block is a run of `n` addresses; it may wrap around the end of the address
space, since all address arithmetic is modular, and membership is one comparison
of an offset. Loads and stores take a width in bytes. The lemmas come in three
groups: a load reads back what a store of the same width wrote, a store outside a
block leaves it alone, and two pieces of one block at different offsets are
disjoint.
-/
import Mathlib.Algebra.Group.Nat.Defs
import Mathlib.Data.Set.BooleanAlgebra
import Mathlib.Data.Set.Disjoint
import Mathlib.Order.CompletePartialOrder

set_option autoImplicit false

namespace NostalgiaConv.ByteMem

variable {w : Nat}

/-- One byte at every address. -/
abbrev Mem (w : Nat) := BitVec w → BitVec 8

/-- The `n` addresses from `a` on. -/
def block (a : BitVec w) (n : Nat) : Set (BitVec w) := {x | (x - a).toNat < n}

/-- The `n` bytes at `a`, the lowest first. -/
def load (n : Nat) (m : Mem w) (a : BitVec w) : BitVec (8 * n) :=
  (BitVec.ofBoolListLE (List.ofFn (fun i : Fin (8 * n) =>
    (m (a + BitVec.ofNat w (i / 8))).getLsbD (i % 8)))).cast List.length_ofFn

/-- Write the `n` bytes of `v` at `a`. -/
def store (n : Nat) (m : Mem w) (a : BitVec w) (v : BitVec (8 * n)) : Mem w :=
  fun x => if (x - a).toNat < n then v.extractLsb' (8 * (x - a).toNat) 8 else m x

/-! ## Blocks -/

theorem mem_block {a x : BitVec w} {n : Nat} : x ∈ block a n ↔ (x - a).toNat < n := Iff.rfl

theorem add_sub_self_left (a x : BitVec w) : a + x - a = x := by
  rw [BitVec.add_comm, BitVec.add_sub_cancel]

/-- A self-relative pointer leads back to its target. -/
theorem add_sub_self_right (a x : BitVec w) : a + (x - a) = x := by
  rw [BitVec.add_comm, BitVec.sub_add_cancel]

theorem block_mono {a : BitVec w} {m n : Nat} (h : m ≤ n) : block a m ⊆ block a n :=
  fun _ hx => Nat.lt_of_lt_of_le hx h

/-- An address by its offset in a block. -/
theorem add_ofNat_mem_block {a : BitVec w} {i n : Nat} (hi : i < n) :
    a + BitVec.ofNat w i ∈ block a n := by
  rw [mem_block, add_sub_self_left, BitVec.toNat_ofNat]
  exact Nat.lt_of_le_of_lt (Nat.mod_le i (2 ^ w)) hi

/-- A piece of a block, seen from the start of the block. -/
theorem mem_block_offset {a x : BitVec w} {i n : Nat} (hin : i + n ≤ 2 ^ w)
    (hx : x ∈ block (a + BitVec.ofNat w i) n) :
    i ≤ (x - a).toNat ∧ (x - a).toNat < i + n := by
  rw [mem_block] at hx
  have hxa : x - a = BitVec.ofNat w i + (x - (a + BitVec.ofNat w i)) := by
    rw [← BitVec.sub_sub, add_sub_self_right]
  have hi : (BitVec.ofNat w i).toNat = i := by
    rw [BitVec.toNat_ofNat]
    refine Nat.mod_eq_of_lt ?_
    omega
  rw [hxa, BitVec.toNat_add, hi, Nat.mod_eq_of_lt (by omega)]
  omega

theorem block_offset_subset {a : BitVec w} {i n N : Nat} (hin : i + n ≤ N) (hN : N ≤ 2 ^ w) :
    block (a + BitVec.ofNat w i) n ⊆ block a N := by
  intro x hx
  have := mem_block_offset (Nat.le_trans hin hN) hx
  rw [mem_block]
  omega

/-- Pieces of one block that do not overlap are disjoint. -/
theorem disjoint_block_offset {a : BitVec w} {i j m n : Nat} (hi : i + m ≤ 2 ^ w)
    (hj : j + n ≤ 2 ^ w) (h : i + m ≤ j ∨ j + n ≤ i) :
    Disjoint (block (a + BitVec.ofNat w i) m) (block (a + BitVec.ofNat w j) n) := by
  rw [Set.disjoint_left]
  intro x hxi hxj
  have hi := mem_block_offset hi hxi
  have hj := mem_block_offset hj hxj
  omega

/-- A piece further on in a block is disjoint from the start of it. -/
theorem disjoint_block_add {a : BitVec w} {j m n : Nat} (hj : j + n ≤ 2 ^ w) (h : m ≤ j) :
    Disjoint (block a m) (block (a + BitVec.ofNat w j) n) := by
  have := disjoint_block_offset (a := a) (i := 0) (m := m) (by omega) hj (Or.inl (by omega))
  rwa [BitVec.add_zero] at this

/-! ## Loads and stores -/

theorem getLsbD_load {n : Nat} (m : Mem w) (a : BitVec w) {i : Nat} (hi : i < 8 * n) :
    (load n m a).getLsbD i = (m (a + BitVec.ofNat w (i / 8))).getLsbD (i % 8) := by
  unfold load
  rw [BitVec.getLsbD_cast, BitVec.getLsbD_ofBoolListLE]
  simp [hi]

theorem store_of_notMem {n : Nat} {m : Mem w} {a x : BitVec w} {v : BitVec (8 * n)}
    (hx : x ∉ block a n) : store n m a v x = m x := if_neg hx

/-- A load depends on its own block only. -/
theorem load_congr {n : Nat} {m m' : Mem w} {a : BitVec w}
    (h : ∀ x ∈ block a n, m x = m' x) : load n m a = load n m' a := by
  apply BitVec.eq_of_getLsbD_eq
  intro i hi
  have hdiv : i / 8 < n := by omega
  rw [getLsbD_load m a hi, getLsbD_load m' a hi, h _ (add_ofNat_mem_block hdiv)]

/-- A load where something was stored: the bits stored are new, those above them
are what was there. -/
theorem getLsbD_load_store {n k : Nat} (hk : k ≤ 2 ^ w) (m : Mem w) (a : BitVec w)
    (v : BitVec (8 * n)) {i : Nat} (hi : i < 8 * k) :
    (load k (store n m a v) a).getLsbD i
      = if i < 8 * n then v.getLsbD i else (load k m a).getLsbD i := by
  have hoff : (BitVec.ofNat w (i / 8)).toNat = i / 8 := by
    rw [BitVec.toNat_ofNat]
    refine Nat.mod_eq_of_lt ?_
    omega
  have hbit : 8 * (i / 8) + i % 8 = i := Nat.div_add_mod i 8
  have h8 : i % 8 < 8 := Nat.mod_lt i (by omega)
  rw [getLsbD_load _ a hi]
  unfold store
  simp only [add_sub_self_left, hoff]
  by_cases hin : i < 8 * n
  · have hdiv : i / 8 < n := by omega
    simp only [if_pos hdiv, if_pos hin, BitVec.getLsbD_extractLsb', h8, decide_true,
      Bool.true_and, hbit]
  · have hdiv : ¬ i / 8 < n := by omega
    rw [if_neg hdiv, if_neg hin, getLsbD_load m a hi]

/-- A load of the width just stored reads the value back. -/
theorem load_store_same {n : Nat} (hn : n ≤ 2 ^ w) (m : Mem w) (a : BitVec w)
    (v : BitVec (8 * n)) : load n (store n m a v) a = v := by
  apply BitVec.eq_of_getLsbD_eq
  intro i hi
  rw [getLsbD_load_store hn m a v hi, if_pos hi]

/-- A load elsewhere does not see a store. -/
theorem load_store_disjoint {n k : Nat} {m : Mem w} {a b : BitVec w} {v : BitVec (8 * k)}
    (h : Disjoint (block a n) (block b k)) : load n (store k m b v) a = load n m a :=
  load_congr (fun _ hx => store_of_notMem (Set.disjoint_left.mp h hx))

/-- The two cases for fields of one record, with their offsets as numbers. -/
theorem load_store_offset {n k i j : Nat} {m : Mem w} {a : BitVec w} {v : BitVec (8 * k)}
    (hi : i + n ≤ 2 ^ w) (hj : j + k ≤ 2 ^ w) (h : i + n ≤ j ∨ j + k ≤ i) :
    load n (store k m (a + BitVec.ofNat w j) v) (a + BitVec.ofNat w i)
      = load n m (a + BitVec.ofNat w i) :=
  load_store_disjoint (disjoint_block_offset hi hj h)

/-! ## Agreement on a set of addresses -/

/-- The memories `m` and `m'` hold the same bytes on `S`. -/
def AgreeOn (S : Set (BitVec w)) (m m' : Mem w) : Prop := ∀ x ∈ S, m' x = m x

theorem AgreeOn.refl (S : Set (BitVec w)) (m : Mem w) : AgreeOn S m m := fun _ _ => rfl

theorem AgreeOn.trans {S : Set (BitVec w)} {m₁ m₂ m₃ : Mem w} (h : AgreeOn S m₁ m₂)
    (h' : AgreeOn S m₂ m₃) : AgreeOn S m₁ m₃ :=
  fun x hx => (h' x hx).trans (h x hx)

theorem AgreeOn.mono {S T : Set (BitVec w)} {m m' : Mem w} (hTS : T ⊆ S) (h : AgreeOn S m m') :
    AgreeOn T m m' :=
  fun x hx => h x (hTS hx)

/-- The same store on both sides keeps the agreement. -/
theorem AgreeOn.store_both {S : Set (BitVec w)} {m m' : Mem w} (h : AgreeOn S m m') (n : Nat)
    (a : BitVec w) (v : BitVec (8 * n)) : AgreeOn S (store n m a v) (store n m' a v) := by
  intro x hx
  unfold store
  rw [h x hx]

theorem AgreeOn.load_eq {S : Set (BitVec w)} {m m' : Mem w} (h : AgreeOn S m m') {n : Nat}
    {a : BitVec w} (ha : block a n ⊆ S) : load n m' a = load n m a :=
  load_congr (fun x hx => h x (ha hx))

end NostalgiaConv.ByteMem
