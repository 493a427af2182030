/-
`lua/ltable.c`: the hash part of a table, and the insertion of a key.

A table has an array part for the keys 1..n and a vector of nodes for the others. The
nodes are chained from the main position of their keys; a new key whose main position is
taken by a key that does not belong there moves that key to a free node. `newkey` keeps
these chains in order, and what the table holds; when no node is free it asks for a larger
table, which is the subject of the next file.

Keys are a type with what the table asks of them. The colours of the collector are left
out, and so are the cached absences of metamethods (`flags`). A failed allocation is not
modelled either.
-/
import Mathlib.Data.Finset.Card
import Mathlib.Order.Interval.Finset.Nat
import NostalgiaConv.Chains

set_option autoImplicit false

namespace NostalgiaConv.HashTable

open NostalgiaConv.Chains

/-! ## Keys -/

/-- What a table asks of a key: `luaO_rawequalObj` as `==`, its place in the array part
(negative or zero if it has none), its main position in a vector of `2 ^ lsizenode` nodes,
and the object it refers to if it can be collected. -/
class Keys (K : Type) extends BEq K where
  arrayindex : K → Int
  numkey : Nat → K
  mainposition : Nat → K → Nat
  gcvalue : K → Option Nat

export Keys (arrayindex numkey mainposition gcvalue)

class LawfulKeys (K : Type) [Keys K] : Prop extends EquivBEq K where
  mainposition_lt : ∀ (l : Nat) (k : K), mainposition l k < 2 ^ l
  mainposition_congr : ∀ {k k' : K} (l : Nat), k == k' → mainposition l k = mainposition l k'
  arrayindex_congr : ∀ {k k' : K}, k == k' → arrayindex k = arrayindex k'
  gcvalue_congr : ∀ {k k' : K}, k == k' → gcvalue k = gcvalue k'
  arrayindex_numkey : ∀ {i : Nat}, i < 2 ^ 31 → arrayindex (numkey i : K) = i
  numkey_arrayindex : ∀ {k : K}, 0 < arrayindex k → numkey (arrayindex k).toNat == k
  gcvalue_number : ∀ {k : K}, 0 < arrayindex k → gcvalue k = none

/-! ## The table -/

def MAXBITS : Nat := 26
def MAXASIZE : Nat := 2 ^ MAXBITS

structure Node (K V : Type) where
  val : Option V
  key : Option K
  /-- The tag of the key is `LUA_TDEADKEY`. -/
  dead : Bool
  next : Option Nat

/-- `nil` everywhere. -/
def Node.empty {K V : Type} : Node K V := ⟨none, none, false, none⟩

/-- The nodes are a function of their positions, of which there are `2 ^ lsizenode`. -/
structure Table (K V : Type) where
  array : List (Option V)
  lsizenode : Nat
  node : Nat → Node K V
  /-- `node == dummynode`. -/
  dummy : Bool
  lastfree : Nat

inductive Loc where
  | array (i : Nat)
  | node (i : Nat)
  deriving DecidableEq

/-- Why an assignment fails: the error `table overflow`, a walk off the end of a chain, or
a nesting of rehashes deeper than was allowed for. -/
inductive Failure where
  | overflow | fault | deep
  deriving DecidableEq

section

variable {K V : Type} [Keys K]

def Table.sizenode (t : Table K V) : Nat := 2 ^ t.lsizenode

def Table.gnext (t : Table K V) (i : Nat) : Option Nat := (t.node i).next

def Table.mainposition (t : Table K V) (k : K) : Nat := Keys.mainposition t.lsizenode k

/-- The place of a key in the array part. -/
def Table.inarray (t : Table K V) (k : K) : Option Nat :=
  if 0 < arrayindex k ∧ arrayindex k ≤ t.array.length then some ((arrayindex k).toNat - 1)
  else none

def Node.holds (n : Node K V) (k : K) : Bool := !n.dead && n.key.any (· == k)

/-- The chain of a key, searched for its node. -/
def Table.search (t : Table K V) (k : K) : Option Nat :=
  walk t.gnext (fun i => (t.node i).holds k) t.sizenode (some (t.mainposition k))

def luaH_get (t : Table K V) (k : K) : Option Loc :=
  match t.inarray k with
  | some i => some (.array i)
  | none => (t.search k).map .node

def Table.val (t : Table K V) : Loc → Option V
  | .array i => (t.array.getD i none)
  | .node i => (t.node i).val

/-- `setobj2t`: write through the pointer that `luaH_set` gives. -/
def Table.setobj (t : Table K V) (v : Option V) : Loc → Table K V
  | .array i => { t with array := t.array.set i v }
  | .node i => { t with node := Function.update t.node i { t.node i with val := v } }

/-- The value of a key, as a program reads it. -/
def Table.lookup (t : Table K V) (k : K) : Option V := (luaH_get t k).bind t.val

/-- `getfreepos`: the last free node below `lastfree`, and `lastfree` after that. -/
def getfreepos (node : Nat → Node K V) : Nat → Option Nat × Nat
  | 0 => (none, 0)
  | lastfree + 1 =>
    if (node lastfree).key.isNone then (some lastfree, lastfree) else getfreepos node lastfree

/-! The three ways in which `newkey` makes room for a key at `mp`. -/

/-- The colliding node goes to the free node `n`, and its chain with it. -/
def relocate (t : Table K V) (mp n previous : Nat) : Table K V :=
  let node := Function.update t.node previous { t.node previous with next := some n }
  let node := Function.update node n (node mp)
  { t with node := Function.update node mp { node mp with next := none, val := none } }

/-- The free node `n` comes into the chain after `mp`. -/
def chainAfter (t : Table K V) (mp n : Nat) : Table K V :=
  let node := Function.update t.node n { t.node n with next := (t.node mp).next }
  { t with node := Function.update node mp { node mp with next := some n } }

def putkey (t : Table K V) (mp : Nat) (k : K) : Table K V :=
  { t with node := Function.update t.node mp { t.node mp with key := some k, dead := false } }

/-- The main position `mp` is taken, and `n` is free. -/
def collide (t : Table K V) (mp n : Nat) (k : K) : Except Failure (Loc × Table K V) :=
  match (t.node mp).key with
  | none => .error .fault
  | some other =>
    let othern := t.mainposition other
    if othern ≠ mp then
      -- the colliding node is out of its main position
      match walk t.gnext (fun i => t.gnext i == some mp) t.sizenode (some othern) with
      | none => .error .fault
      | some previous => .ok (.node mp, putkey (relocate t mp n previous) mp k)
    else
      .ok (.node n, putkey (chainAfter t mp n) n k)

/-- Insert a new key; `grow` is what happens when no node is free. -/
def newkey (grow : Table K V → Except Failure (Loc × Table K V)) (t : Table K V) (k : K) :
    Except Failure (Loc × Table K V) :=
  let mp := t.mainposition k
  if (t.node mp).val.isSome || t.dummy then
    match getfreepos t.node t.lastfree with
    | (none, lastfree) => grow { t with lastfree := lastfree }
    | (some n, lastfree) => collide { t with lastfree := lastfree } mp n k
  else
    .ok (.node mp, putkey t mp k)

end

/-! ## Chains in order -/

section

variable {K V : Type} [Keys K]

/-- What a node is to a search, apart from its link. -/
def Node.entry (n : Node K V) : Option K × Bool × Option V := (n.key, n.dead, n.val)

/-- The test of `findindex`, which knows a key that is dead by its object. -/
def Node.known (n : Node K V) (k : K) : Bool :=
  n.holds k || (n.dead && (gcvalue k).isSome && n.key.any fun k' => gcvalue k' == gcvalue k)

/-- The chains: a free node is empty and in none, links go to nodes with keys, one link to
each, and come to an end; where a key has its main position there is a key that belongs
there; and from there the chain of a key that is not dead leads to its node, with no
other node before it that `findindex` could take for it. -/
structure Linked (t : Table K V) : Prop where
  free : ∀ i < t.sizenode, (t.node i).key = none → t.gnext i = none ∧ (t.node i).val = none
  link : ∀ i < t.sizenode, ∀ j, t.gnext i = some j → j < t.sizenode ∧ (t.node j).key ≠ none
  inj : ∀ i < t.sizenode, ∀ i' < t.sizenode, ∀ j, t.gnext i = some j → t.gnext i' = some j → i = i'
  ends : ∀ i < t.sizenode, (t.node i).key ≠ none → ∃ l, Segment t.gnext (some i) l none
  main : ∀ i < t.sizenode, ∀ k, (t.node i).key = some k →
    ∃ k', (t.node (t.mainposition k)).key = some k' ∧ t.mainposition k' = t.mainposition k
  reach : ∀ i < t.sizenode, ∀ k, (t.node i).key = some k → (t.node i).dead = false →
    ∃ l, Segment t.gnext (some (t.mainposition k)) l (some i) ∧ ∀ j ∈ l, (t.node j).known k = false

/-- The invariant of a table. -/
structure Wf (t : Table K V) : Prop extends Linked t where
  array : t.array.length ≤ MAXASIZE
  nodes : t.lsizenode ≤ MAXBITS
  lastfree : t.lastfree ≤ t.sizenode
  keyed : t.dummy = false → ∀ i < t.sizenode, t.lastfree ≤ i → (t.node i).key ≠ none
  dummy : t.dummy = true → t.lastfree = 0 ∧ ∀ i < t.sizenode, (t.node i).key = none
  live : ∀ i < t.sizenode, (t.node i).val ≠ none → (t.node i).dead = false
  outside : ∀ i < t.sizenode, ∀ k, (t.node i).key = some k → t.inarray k = none
  apart : ∀ i < t.sizenode, ∀ j < t.sizenode, ∀ k k', (t.node i).key = some k →
    (t.node j).key = some k' → (t.node i).dead = false → (t.node j).dead = false →
    (gcvalue k).isSome = true → gcvalue k = gcvalue k' → k == k'

variable {t t' : Table K V} {i j mp n p : Nat} {k k' : K} {v : V}

theorem Node.known_congr {a b : Node K V} (h : a.entry = b.entry) (k : K) : a.known k = b.known k := by
  simp only [Node.entry, Prod.mk.injEq] at h
  simp only [Node.known, Node.holds, h]

theorem Node.holds_iff {a : Node K V} :
    a.holds k = true ↔ a.dead = false ∧ ∃ k', a.key = some k' ∧ (k' == k) = true := by
  cases hkey : a.key <;> simp [Node.holds, hkey]

omit [Keys K] in
/-- A table of as many nodes. -/
theorem sizenode_congr (h : t'.lsizenode = t.lsizenode) : t'.sizenode = t.sizenode := by
  rw [Table.sizenode, h, Table.sizenode]

theorem mainposition_of_lsizenode (h : t'.lsizenode = t.lsizenode) (k : K) :
    t'.mainposition k = t.mainposition k := by
  rw [Table.mainposition, h, Table.mainposition]

variable [LawfulKeys K]

theorem mainposition_lt (t : Table K V) (k : K) : t.mainposition k < t.sizenode :=
  LawfulKeys.mainposition_lt t.lsizenode k

theorem mainposition_congr (t : Table K V) (h : k == k') : t.mainposition k = t.mainposition k' :=
  LawfulKeys.mainposition_congr t.lsizenode h

theorem inarray_congr (t : Table K V) (h : k == k') : t.inarray k = t.inarray k' := by
  rw [Table.inarray, Table.inarray, LawfulKeys.arrayindex_congr h]

omit [LawfulKeys K] in
/-- The nodes of a chain that starts at a key. -/
theorem Linked.chain (h : Linked t) : ∀ {l : List Nat} {i : Nat} {s : Option Nat},
    Segment t.gnext (some i) l s → i < t.sizenode → (t.node i).key ≠ none →
    ∀ j ∈ l, j < t.sizenode ∧ (t.node j).key ≠ none := by
  intro l
  induction l with
  | nil => simp
  | cons a l ih =>
    intro i s hl hi hkey j hj
    obtain ⟨ha, hl⟩ := hl
    obtain rfl := Option.some.inj ha
    rcases List.mem_cons.mp hj with rfl | hj
    · exact ⟨hi, hkey⟩
    · cases hnext : t.gnext i with
      | none =>
        rw [hnext] at hl
        cases l with
        | nil => exact absurd hj List.not_mem_nil
        | cons b l => exact absurd hl.1 (Option.some_ne_none b).symm
      | some b =>
        rw [hnext] at hl
        obtain ⟨hb, hbkey⟩ := h.link i hi b hnext
        exact ih hl hb hbkey j hj

omit [LawfulKeys K] in
/-- No node comes twice on the way to a node. -/
theorem Linked.nodup (h : Linked t) {l : List Nat} {s : Option Nat}
    (hl : Segment t.gnext s l (some i)) (hi : i < t.sizenode) (hkey : (t.node i).key ≠ none) :
    (l ++ [i]).Nodup ∧ l.Nodup := by
  obtain ⟨l', hl'⟩ := h.ends i hi hkey
  have hall := (segment_append.mpr ⟨some i, hl, hl'⟩).nodup
  cases l' with
  | nil => exact absurd hl' (Option.some_ne_none i)
  | cons b l' =>
    obtain rfl := Option.some.inj hl'.1
    rw [List.append_cons] at hall
    exact ⟨hall.of_append_left, hall.of_append_left.of_append_left⟩

omit [Keys K] [LawfulKeys K] in
theorem length_le_of_lt {l : List Nat} {m : Nat} (hnodup : l.Nodup) (hlt : ∀ j ∈ l, j < m) :
    l.length ≤ m := by
  have hsub : l ⊆ List.range m := fun j hj => List.mem_range.mpr (hlt j hj)
  have hlen := (List.subperm_of_subset hnodup hsub).length_le
  rwa [List.length_range] at hlen

omit [LawfulKeys K] in
theorem Linked.main_keyed (h : Linked t) (hi : i < t.sizenode) (hkey : (t.node i).key = some k) :
    (t.node (t.mainposition k)).key ≠ none := by
  obtain ⟨k', hk', -⟩ := h.main i hi k hkey
  simp [hk']

omit [LawfulKeys K] in
theorem Node.known_false {a : Node K V} (h : a.known k = false) : a.holds k = false := by
  simp only [Node.known, Bool.or_eq_false_iff] at h
  exact h.1

/-- A search finds the node of a key. -/
theorem Linked.search (h : Linked t) (hi : i < t.sizenode) (hholds : (t.node i).holds k = true) :
    t.search k = some i := by
  obtain ⟨hdead, k', hkey, heq⟩ := Node.holds_iff.mp hholds
  obtain ⟨l, hl, hbefore⟩ := h.reach i hi k' hkey hdead
  have hnodup := (h.nodup hl hi (by simp [hkey])).1
  have hlt : ∀ j ∈ l ++ [i], j < t.sizenode := by
    intro j hj
    rcases List.mem_append.mp hj with hj | hj
    · exact (h.chain hl (mainposition_lt t k') (h.main_keyed hi hkey) j hj).1
    · rwa [List.mem_singleton.mp hj]
  have hlen := length_le_of_lt hnodup hlt
  rw [List.length_append, List.length_singleton] at hlen
  rw [mainposition_congr t heq] at hl
  refine walk_eq_some hl hholds (fun j hj => ?_) hlen
  have hnot := Node.known_false (hbefore j hj)
  simp only [Node.holds, Bool.and_eq_false_iff, Bool.not_eq_eq_eq_not] at hnot ⊢
  refine hnot.imp id fun hany => ?_
  cases hj' : (t.node j).key with
  | none => rfl
  | some k₁ =>
    rw [hj'] at hany
    simpa [BEq.congr_right heq] using hany

theorem Linked.of_search (h : Linked t) (hi : t.search k = some i) :
    i < t.sizenode ∧ (t.node i).holds k = true := by
  obtain ⟨l, hl, hholds, -⟩ := of_walk_eq_some hi
  refine ⟨?_, hholds⟩
  cases l with
  | nil =>
    rw [← Option.some.inj hl]
    exact mainposition_lt t k
  | cons a l =>
    by_cases hkey : (t.node (t.mainposition k)).key = none
    · -- a free node has no next one
      obtain ⟨ha, hl⟩ := hl
      rw [← Option.some.inj ha, (h.free _ (mainposition_lt t k) hkey).1] at hl
      cases l with
      | nil => exact absurd hl.symm (Option.some_ne_none i)
      | cons b l => exact absurd hl.1.symm (Option.some_ne_none b)
    · have hall : Segment t.gnext (some (t.mainposition k)) (a :: l ++ [i]) (t.gnext i) :=
        segment_concat.mpr ⟨hl, rfl⟩
      exact (h.chain hall (mainposition_lt t k) hkey i (by simp)).1

/-- Nothing else is taken for a key that no node holds. -/
theorem Linked.absent (h : Linked t) (hnone : t.search k = none) (hi : i < t.sizenode)
    (hkey : (t.node i).key = some k') (hdead : (t.node i).dead = false) : (k' == k) = false := by
  by_contra heq
  have hholds := Node.holds_iff.mpr ⟨hdead, k', hkey, by simpa using heq⟩
  rw [h.search hi hholds] at hnone
  exact Option.some_ne_none i hnone

/-! ## Room for a key -/

omit [Keys K] [LawfulKeys K] in
theorem getfreepos_spec (node : Nat → Node K V) (lastfree : Nat) :
    (getfreepos node lastfree = (none, 0) ∧ ∀ i < lastfree, (node i).key ≠ none)
    ∨ ∃ n < lastfree, getfreepos node lastfree = (some n, n) ∧ (node n).key = none
      ∧ ∀ i, n < i → i < lastfree → (node i).key ≠ none := by
  induction lastfree with
  | zero => exact .inl ⟨rfl, fun i hi => absurd hi (Nat.not_lt_zero i)⟩
  | succ m ih =>
    rw [getfreepos]
    split_ifs with hfree
    · refine .inr ⟨m, Nat.lt_succ_self m, rfl, by simpa using hfree, fun i hi hi' => ?_⟩
      omega
    · have hm : (node m).key ≠ none := by simpa using hfree
      rcases ih with ⟨heq, hkeys⟩ | ⟨n, hn, heq, hkey, hkeys⟩
      · refine .inl ⟨heq, fun i hi => ?_⟩
        rcases Nat.lt_succ_iff_lt_or_eq.mp hi with hi | rfl
        · exact hkeys i hi
        · exact hm
      · refine .inr ⟨n, Nat.lt_succ_of_lt hn, heq, hkey, fun i hi hi' => ?_⟩
        rcases Nat.lt_succ_iff_lt_or_eq.mp hi' with hi' | rfl
        · exact hkeys i hi hi'
        · exact hm

/-- What putting a key at node `p` leaves of the rest: every other node is an old one, every
value is still there, and at most one node has a key that had none. -/
structure Inserted (t t' : Table K V) (p : Nat) (k : K) : Prop extends Linked t' where
  array : t'.array = t.array
  lsizenode : t'.lsizenode = t.lsizenode
  dummy : t'.dummy = t.dummy
  lt : p < t.sizenode
  new : (t'.node p).entry = (some k, false, none)
  old : ∀ i < t.sizenode, i ≠ p → ∃ j < t.sizenode, (t'.node i).entry = (t.node j).entry
  kept : ∀ j < t.sizenode, (t.node j).val ≠ none →
    ∃ i < t.sizenode, i ≠ p ∧ (t'.node i).entry = (t.node j).entry
  grown : ∃ q, ∀ i < t.sizenode, (t'.node i).key ≠ none ↔ i = q ∨ (t.node i).key ≠ none

omit [LawfulKeys K] in
theorem Node.known_of_entry {a : Node K V} (ha : a.entry = (some k, false, none)) :
    a.known k' = (k == k') := by
  simp only [Node.entry, Prod.mk.injEq] at ha
  simp [Node.known, Node.holds, ha]

/-- The main position is free, or held by a key without a value. -/
theorem Linked.putkey (h : Linked t) (hval : (t.node (t.mainposition k)).val = none)
    (hnone : t.search k = none) :
    Inserted t (putkey t (t.mainposition k) k) (t.mainposition k) k := by
  have hmp := mainposition_lt t k
  have hself : ((HashTable.putkey t (t.mainposition k) k).node (t.mainposition k)).entry
      = (some k, false, none) := by
    simp [HashTable.putkey, Node.entry, hval]
  have hother : ∀ i ≠ t.mainposition k, (HashTable.putkey t (t.mainposition k) k).node i = t.node i :=
    fun i hi => Function.update_of_ne hi _ _
  have hgnext : (HashTable.putkey t (t.mainposition k) k).gnext = t.gnext := by
    funext i
    by_cases hi : i = t.mainposition k
    · simp [Table.gnext, HashTable.putkey, hi]
    · rw [Table.gnext, hother i hi, Table.gnext]
  have hkey : ((HashTable.putkey t (t.mainposition k) k).node (t.mainposition k)).key = some k :=
    congrArg Prod.fst hself
  refine ⟨⟨fun i hi hfree => ?_, fun i hi j hj => ?_, ?_, fun i hi hkeyed => ?_, fun i hi k' hk' => ?_,
    fun i hi k' hk' hdead => ?_⟩, rfl, rfl, rfl, hmp, hself, fun i hi hne => ⟨i, hi, ?_⟩,
    fun j hj hj' => ⟨j, hj, fun heq => hj' (heq ▸ hval), ?_⟩, t.mainposition k, fun i hi => ?_⟩
  · by_cases hne : i = t.mainposition k
    · rw [hne, hkey] at hfree
      exact absurd hfree (Option.some_ne_none k)
    · rw [hother i hne] at hfree ⊢
      rw [hgnext]
      exact h.free i hi hfree
  · rw [hgnext] at hj
    obtain ⟨hlt, hj⟩ := h.link i hi j hj
    refine ⟨hlt, ?_⟩
    by_cases hne : j = t.mainposition k
    · simp [hne, hkey]
    · rwa [hother j hne]
  · rw [hgnext]
    exact h.inj
  · rw [hgnext]
    by_cases hold : (t.node i).key = none
    · exact ⟨[i], rfl, (h.free i hi hold).1⟩
    · exact h.ends i hi hold
  · -- the chain of `k` begins with `k` itself
    by_cases hne : i = t.mainposition k
    · rw [hne, hkey] at hk'
      obtain rfl := Option.some.inj hk'
      exact ⟨k, hkey, rfl⟩
    · rw [hother i hne] at hk'
      by_cases hmain : t.mainposition k' = t.mainposition k
      · exact ⟨k, hmain ▸ hkey, hmain.symm⟩
      · obtain ⟨k₁, hk₁, heq⟩ := h.main i hi k' hk'
        exact ⟨k₁, by rw [← hk₁]; exact congrArg Node.key (hother _ hmain), heq⟩
  · rw [hgnext]
    by_cases hne : i = t.mainposition k
    · rw [hne, hkey] at hk'
      obtain rfl := Option.some.inj hk'
      exact ⟨[], congrArg some hne.symm, fun j hj => absurd hj List.not_mem_nil⟩
    · rw [hother i hne] at hk' hdead
      -- the other keys are reached as before: `k` is none of them
      obtain ⟨l, hl, hbefore⟩ := h.reach i hi k' hk' hdead
      refine ⟨l, hl, fun j hj => ?_⟩
      by_cases hj' : j = t.mainposition k
      · rw [hj', Node.known_of_entry hself, BEq.comm]
        exact h.absent hnone hi hk' hdead
      · rw [hother j hj']
        exact hbefore j hj
  · rw [hother i hne]
  · rw [hother j fun heq => hj' (heq ▸ hval)]
  · -- one node has a key that had none
    by_cases hne : i = t.mainposition k
    · simp [hne, hkey]
    · rw [hother i hne]
      simp [hne]

/-! ### After the colliding key -/

/-- A table with `k` in the free node `n`, which comes after `mp`, where a key stands that
belongs there. -/
structure Spliced (t t' : Table K V) (mp n : Nat) (k : K) : Prop where
  array : t'.array = t.array
  lsizenode : t'.lsizenode = t.lsizenode
  dummy : t'.dummy = t.dummy
  lt : n < t.sizenode
  nokey : (t.node n).key = none
  atmain : mp = t.mainposition k
  other : ∃ k', (t.node mp).key = some k' ∧ t.mainposition k' = mp
  live : (t.node mp).dead = false
  self : (t'.node n).entry = (some k, false, none)
  entry : ∀ i ≠ n, (t'.node i).entry = (t.node i).entry
  next_n : t'.gnext n = t.gnext mp
  next_mp : t'.gnext mp = some n
  next : ∀ i, i ≠ n → i ≠ mp → t'.gnext i = t.gnext i

omit [LawfulKeys K] in
theorem spliced_chainAfter (hn : n < t.sizenode) (hfree : (t.node n).key = none)
    (hval : (t.node n).val = none) (hp : mp = t.mainposition k) (hother : (t.node mp).key = some k')
    (hmain : t.mainposition k' = mp) (hdead : (t.node mp).dead = false) :
    Spliced t (HashTable.putkey (chainAfter t mp n) n k) mp n k := by
  have hne : n ≠ mp := by
    rintro rfl
    exact Option.some_ne_none k' (hother.symm.trans hfree)
  refine ⟨rfl, rfl, rfl, hn, hfree, hp, ⟨k', hother, hmain⟩, hdead, ?_, fun i hi => ?_, ?_, ?_,
    fun i hi himp => ?_⟩
  · simp [HashTable.putkey, chainAfter, Node.entry, hne, hval]
  · by_cases himp : i = mp <;>
      simp [HashTable.putkey, chainAfter, Node.entry, hi, himp, hne.symm]
  · simp [HashTable.putkey, chainAfter, Table.gnext, hne]
  · simp [HashTable.putkey, chainAfter, Table.gnext, hne.symm]
  · simp [HashTable.putkey, chainAfter, Table.gnext, hi, himp]

namespace Spliced

omit [LawfulKeys K]

variable (hs : Spliced t t' mp n k) (h : Linked t)

include hs

theorem sizenode : t'.sizenode = t.sizenode := sizenode_congr hs.lsizenode

theorem mainposition (k : K) : t'.mainposition k = t.mainposition k :=
  mainposition_of_lsizenode hs.lsizenode k

theorem key (hi : i ≠ n) : (t'.node i).key = (t.node i).key := congrArg Prod.fst (hs.entry i hi)

theorem key_n : (t'.node n).key = some k := congrArg Prod.fst hs.self

theorem mp_keyed : (t.node mp).key ≠ none := by
  obtain ⟨k', hk', -⟩ := hs.other
  simp [hk']

theorem ne : n ≠ mp := by
  rintro rfl
  exact hs.mp_keyed hs.nokey

theorem ne_of_key (hi : (t.node i).key ≠ none) : i ≠ n := by
  rintro rfl
  exact hi hs.nokey

include h

theorem link_ne (hi : i < t.sizenode) (hj : t.gnext i = some j) : j ≠ n :=
  hs.ne_of_key (h.link i hi j hj).2

theorem free (hi : i < t.sizenode) (hkey : (t'.node i).key = none) :
    t'.gnext i = none ∧ (t'.node i).val = none := by
  have hin : i ≠ n := by
    rintro rfl
    exact Option.some_ne_none k (hs.key_n.symm.trans hkey)
  rw [hs.key hin] at hkey
  have himp : i ≠ mp := by
    rintro rfl
    exact hs.mp_keyed hkey
  rw [hs.next i hin himp]
  have hval : (t'.node i).val = (t.node i).val := congrArg (·.2.2) (hs.entry i hin)
  rw [hval]
  exact h.free i hi hkey

/-- The links: that of `mp` is to `n`, and `n` has the old one of `mp`. -/
theorem of_next (hmp : mp < t.sizenode) (hi : i < t.sizenode) (hj : t'.gnext i = some j) :
    i = mp ∧ j = n
      ∨ i ≠ mp ∧ j ≠ n ∧ ∃ i' < t.sizenode, t.gnext i' = some j ∧ i' = if i = n then mp else i := by
  by_cases himp : i = mp
  · rw [himp, hs.next_mp] at hj
    exact .inl ⟨himp, (Option.some.inj hj).symm⟩
  · refine .inr ⟨himp, ?_⟩
    split_ifs with hin
    · rw [hin, hs.next_n] at hj
      exact ⟨hs.link_ne h hmp hj, mp, hmp, hj, rfl⟩
    · rw [hs.next i hin himp] at hj
      exact ⟨hs.link_ne h hi hj, i, hi, hj, rfl⟩

theorem link (hmp : mp < t.sizenode) (hi : i < t.sizenode) (hj : t'.gnext i = some j) :
    j < t.sizenode ∧ (t'.node j).key ≠ none := by
  rcases hs.of_next h hmp hi hj with ⟨-, rfl⟩ | ⟨-, hjn, i', hi', hlink, -⟩
  · simp [hs.lt, hs.key_n]
  · rw [hs.key hjn]
    exact h.link i' hi' j hlink

theorem inj (hmp : mp < t.sizenode) (hi : i < t.sizenode) {i' : Nat} (hi' : i' < t.sizenode)
    (hj : t'.gnext i = some j) (hj' : t'.gnext i' = some j) : i = i' := by
  rcases hs.of_next h hmp hi hj with ⟨rfl, rfl⟩ | ⟨himp, hjn, a, ha, hlink, hold⟩
  · rcases hs.of_next h hmp hi' hj' with ⟨rfl, -⟩ | ⟨-, hjn, -⟩
    · rfl
    · exact absurd rfl hjn
  · rcases hs.of_next h hmp hi' hj' with ⟨-, rfl⟩ | ⟨himp', -, a', ha', hlink', hold'⟩
    · exact absurd rfl hjn
    · have heq := h.inj a ha a' ha' j hlink hlink'
      split_ifs at hold hold' <;> simp_all

/-- A chain of the old table, with `n` after `mp`. -/
theorem chain {l : List Nat} {s : Option Nat} (hi : i < t.sizenode) (hkey : (t.node i).key ≠ none)
    (hl : Segment t.gnext (some i) l s) (hnodup : l.Nodup) :
    ∃ l', Segment t'.gnext (some i) l' s ∧ ∀ j ∈ l', j ∈ l ∨ j = n := by
  obtain ⟨l', hl', hmem, -⟩ := hl.insertAfter hnodup hs.next_mp hs.next_n fun j hj hjmp =>
    hs.next j (hs.ne_of_key (h.chain hl hi hkey j hj).2) hjmp
  exact ⟨l', hl', hmem⟩

theorem ends (hmp : mp < t.sizenode) (hi : i < t.sizenode) (hkey : (t'.node i).key ≠ none) :
    ∃ l, Segment t'.gnext (some i) l none := by
  by_cases hin : i = n
  · obtain ⟨l, hl⟩ := h.ends mp hmp hs.mp_keyed
    cases l with
    | nil => exact absurd hl (Option.some_ne_none mp)
    | cons a l =>
      obtain rfl := Option.some.inj hl.1
      have hnodup := (List.nodup_cons.mp hl.nodup).1
      refine ⟨n :: l, congrArg some hin, hs.next_n ▸ hl.2.congr fun j hj => hs.next j ?_ ?_⟩
      · exact hs.ne_of_key (h.chain hl hmp hs.mp_keyed j (List.mem_cons_of_mem _ hj)).2
      · exact fun heq => hnodup (heq ▸ hj)
  · rw [hs.key hin] at hkey
    obtain ⟨l, hl⟩ := h.ends i hi hkey
    obtain ⟨l', hl', -⟩ := hs.chain h hi hkey hl hl.nodup
    exact ⟨l', hl'⟩

theorem main (hi : i < t.sizenode) (hkey : (t'.node i).key = some k') :
    ∃ k₁, (t'.node (t.mainposition k')).key = some k₁ ∧ t.mainposition k₁ = t.mainposition k' := by
  by_cases hin : i = n
  · rw [hin, hs.key_n] at hkey
    obtain rfl := Option.some.inj hkey
    obtain ⟨k₁, hk₁, hmain⟩ := hs.other
    exact ⟨k₁, by rw [← hs.atmain, hs.key hs.ne.symm, hk₁], hmain.trans hs.atmain⟩
  · rw [hs.key hin] at hkey
    rw [hs.key (hs.ne_of_key (h.main_keyed hi hkey))]
    exact h.main i hi k' hkey

omit h

variable [LawfulKeys K]

include h

theorem reach (hnone : t.search k = none) (hi : i < t.sizenode) (hkey : (t'.node i).key = some k')
    (hdead : (t'.node i).dead = false) :
    ∃ l, Segment t'.gnext (some (t.mainposition k')) l (some i)
      ∧ ∀ j ∈ l, (t'.node j).known k' = false := by
  have hmp : mp < t.sizenode := hs.atmain ▸ mainposition_lt t k
  by_cases hin : i = n
  · rw [hin, hs.key_n] at hkey
    obtain rfl := Option.some.inj hkey
    obtain ⟨k₁, hk₁, -⟩ := hs.other
    refine ⟨[mp], ⟨congrArg some hs.atmain.symm, by rw [hs.next_mp, hin]; rfl⟩, fun j hj => ?_⟩
    rw [List.mem_singleton.mp hj, Node.known_congr (hs.entry mp hs.ne.symm)]
    simp [Node.known, Node.holds, hs.live, hk₁, h.absent hnone hmp hk₁ hs.live]
  · rw [hs.key hin] at hkey
    have hlive : (t.node i).dead = false := by
      rw [← hdead]
      exact (congrArg (·.2.1) (hs.entry i hin)).symm
    obtain ⟨l, hl, hbefore⟩ := h.reach i hi k' hkey hlive
    obtain ⟨l', hl', hmem⟩ := hs.chain h (mainposition_lt t k') (h.main_keyed hi hkey) hl
      (h.nodup hl hi (by simp [hkey])).2
    refine ⟨l', hl', fun j hj => ?_⟩
    by_cases hjn : j = n
    · rw [hjn, Node.known_of_entry hs.self, BEq.comm]
      exact h.absent hnone hi hkey hlive
    · rw [Node.known_congr (hs.entry j hjn)]
      exact hbefore j ((hmem j hj).resolve_right hjn)

theorem linked (hnone : t.search k = none) : Linked t' := by
  have hmp : mp < t.sizenode := hs.atmain ▸ mainposition_lt t k
  refine ⟨?_, ?_, ?_, ?_, ?_, ?_⟩ <;> simp only [hs.sizenode, hs.mainposition]
  · exact fun i hi hkey => hs.free h hi hkey
  · exact fun i hi j hj => hs.link h hmp hi hj
  · exact fun i hi i' hi' j hj hj' => hs.inj h hmp hi hi' hj hj'
  · exact fun i hi hkey => hs.ends h hmp hi hkey
  · exact fun i hi k' hkey => hs.main h hi hkey
  · exact fun i hi k' hkey hdead => hs.reach h hnone hi hkey hdead

theorem inserted (hnone : t.search k = none) : Inserted t t' n k := by
  have hold : ∀ j < t.sizenode, (t.node j).val ≠ none → j ≠ n := by
    rintro j - hval rfl
    exact hval (h.free j hs.lt hs.nokey).2
  refine ⟨hs.linked h hnone, hs.array, hs.lsizenode, hs.dummy, hs.lt, hs.self,
    fun i hi hin => ⟨i, hi, hs.entry i hin⟩,
    fun j hj hval => ⟨j, hj, hold j hj hval, hs.entry j (hold j hj hval)⟩, n, fun i hi => ?_⟩
  by_cases hin : i = n
  · simp [hin, hs.key_n]
  · simp [hs.key hin, hin]

end Spliced

/-! ### In place of a key that does not belong there -/

/-- A table with `k` at its main position `mp`; what stood there, and belongs elsewhere, is
in the free node `n`, with `n` in its chain. -/
structure Relocated (t t' : Table K V) (mp n previous : Nat) (k : K) : Prop where
  array : t'.array = t.array
  lsizenode : t'.lsizenode = t.lsizenode
  dummy : t'.dummy = t.dummy
  lt : n < t.sizenode
  nokey : (t.node n).key = none
  atmain : mp = t.mainposition k
  other : ∃ k', (t.node mp).key = some k' ∧ t.mainposition k' ≠ mp
  previous_lt : previous < t.sizenode
  link_mp : t.gnext previous = some mp
  self : (t'.node mp).entry = (some k, false, none)
  entry_n : (t'.node n).entry = (t.node mp).entry
  entry : ∀ i, i ≠ mp → i ≠ n → (t'.node i).entry = (t.node i).entry
  next_mp : t'.gnext mp = none
  next_n : t'.gnext n = t.gnext mp
  next_previous : t'.gnext previous = some n
  next : ∀ i, i ≠ mp → i ≠ n → i ≠ previous → t'.gnext i = t.gnext i

omit [LawfulKeys K] in
theorem Linked.next_ne (h : Linked t) (hi : i < t.sizenode) (hj : t.gnext i = some j) : i ≠ j := by
  rintro rfl
  have hkey : (t.node i).key ≠ none := fun hkey =>
    Option.some_ne_none i (hj.symm.trans (h.free i hi hkey).1)
  have hloop : Segment t.gnext (some i) [i] (some i) := ⟨rfl, hj⟩
  have hnodup := (h.nodup hloop hi hkey).1
  simp at hnodup

omit [LawfulKeys K] in
theorem Linked.relocated (h : Linked t) {previous : Nat} (hn : n < t.sizenode)
    (hfree : (t.node n).key = none) (hp : mp = t.mainposition k)
    (hother : (t.node mp).key = some k') (hmain : t.mainposition k' ≠ mp)
    (hprevious : previous < t.sizenode) (hlink : t.gnext previous = some mp) :
    Relocated t (HashTable.putkey (relocate t mp n previous) mp k) mp n previous k := by
  have hne : n ≠ mp := by
    rintro rfl
    exact Option.some_ne_none k' (hother.symm.trans hfree)
  have hpm : previous ≠ mp := h.next_ne hprevious hlink
  have hpn : previous ≠ n := by
    rintro rfl
    exact Option.some_ne_none mp (hlink.symm.trans (h.free previous hprevious hfree).1)
  refine ⟨rfl, rfl, rfl, hn, hfree, hp, ⟨k', hother, hmain⟩, hprevious, hlink, ?_, ?_,
    fun i him hin => ?_, ?_, ?_, ?_, fun i him hin hip => ?_⟩
  · simp [HashTable.putkey, relocate, Node.entry]
  · simp [HashTable.putkey, relocate, Node.entry, hne, hpm.symm]
  · by_cases hip : i = previous <;>
      simp [HashTable.putkey, relocate, Node.entry, him, hin, hip, hpm, hpn]
  · simp [HashTable.putkey, relocate, Table.gnext]
  · simp [HashTable.putkey, relocate, Table.gnext, hne, hpm.symm]
  · simp [HashTable.putkey, relocate, Table.gnext, hpm, hpn]
  · simp [HashTable.putkey, relocate, Table.gnext, him, hin, hip]

namespace Relocated

omit [LawfulKeys K]

variable {previous : Nat} (hs : Relocated t t' mp n previous k) (h : Linked t)

/-- Where the nodes of the old table are now. -/
def moved (mp n i : Nat) : Nat := if i = mp then n else i

omit [Keys K] in
theorem moved_of_ne (hi : i ≠ mp) : moved mp n i = i := if_neg hi

omit [Keys K] in
theorem moved_inj (hi : i ≠ n) (hj : j ≠ n) (heq : moved mp n i = moved mp n j) : i = j := by
  rw [moved, moved] at heq
  split_ifs at heq <;> simp_all

include hs

theorem sizenode : t'.sizenode = t.sizenode := sizenode_congr hs.lsizenode

theorem mainposition (k : K) : t'.mainposition k = t.mainposition k :=
  mainposition_of_lsizenode hs.lsizenode k

theorem key_mp : (t'.node mp).key = some k := congrArg Prod.fst hs.self

theorem key_n : (t'.node n).key = (t.node mp).key := congrArg Prod.fst hs.entry_n

theorem mp_keyed : (t.node mp).key ≠ none := by
  obtain ⟨k', hk', -⟩ := hs.other
  simp [hk']

theorem ne : n ≠ mp := by
  rintro rfl
  exact hs.mp_keyed hs.nokey

theorem ne_of_key (hi : (t.node i).key ≠ none) : i ≠ n := by
  rintro rfl
  exact hi hs.nokey

/-- Old nodes are found where they went. -/
theorem entry_moved (hi : i ≠ n) : (t'.node (moved mp n i)).entry = (t.node i).entry := by
  rw [moved]
  split_ifs with him
  · rw [hs.entry_n, him]
  · exact hs.entry i him hi

theorem key_moved (hi : i ≠ n) : (t'.node (moved mp n i)).key = (t.node i).key :=
  congrArg Prod.fst (hs.entry_moved hi)

theorem moved_lt (hi : i < t.sizenode) : moved mp n i < t.sizenode := by
  rw [moved]
  split_ifs
  · exact hs.lt
  · exact hi

theorem moved_ne (i : Nat) : moved mp n i ≠ mp := by
  rw [moved]
  split_ifs with him
  · exact hs.ne
  · exact him

/-- Every node but `mp` is an old one. -/
theorem exists_moved (hmp : mp < t.sizenode) (hi : i < t.sizenode) (him : i ≠ mp) :
    ∃ j < t.sizenode, j ≠ n ∧ moved mp n j = i := by
  by_cases hin : i = n
  · exact ⟨mp, hmp, hs.ne.symm, by rw [moved, if_pos rfl, hin]⟩
  · exact ⟨i, hi, hin, moved_of_ne him⟩

include h

/-- And so are its links. -/
theorem next_moved (hmp : mp < t.sizenode) (hi : i < t.sizenode) (hin : i ≠ n) :
    t'.gnext (moved mp n i) = (t.gnext i).map (moved mp n) := by
  have hsame : ∀ j, t.gnext i = some j → j ≠ mp → (t.gnext i).map (moved mp n) = t.gnext i := by
    intro j hj hjm
    rw [hj, Option.map_some, moved_of_ne hjm]
  by_cases him : i = mp
  · rw [him, moved, if_pos rfl, hs.next_n]
    cases hj : t.gnext mp with
    | none => rfl
    | some j => rw [Option.map_some, moved_of_ne (h.next_ne hmp hj).symm]
  · rw [moved_of_ne him]
    by_cases hip : i = previous
    · rw [hip, hs.next_previous, hs.link_mp, Option.map_some, moved, if_pos rfl]
    · rw [hs.next i him hin hip]
      cases hj : t.gnext i with
      | none => rfl
      | some j =>
        have hjm : j ≠ mp := by
          rintro rfl
          exact hip (h.inj i hi previous hs.previous_lt j hj hs.link_mp)
        rw [Option.map_some, moved_of_ne hjm]

/-- A chain of the old table, with `n` in place of `mp`. -/
theorem chain (hmp : mp < t.sizenode) {l : List Nat} {s : Option Nat} (hi : i < t.sizenode)
    (hkey : (t.node i).key ≠ none) (hl : Segment t.gnext (some i) l s) :
    Segment t'.gnext (some (moved mp n i)) (l.map (moved mp n)) (s.map (moved mp n)) := by
  refine hl.map fun j hj => ?_
  obtain ⟨hlt, hjkey⟩ := h.chain hl hi hkey j hj
  exact hs.next_moved h hmp hlt (hs.ne_of_key hjkey)

theorem free (hmp : mp < t.sizenode) (hi : i < t.sizenode) (hkey : (t'.node i).key = none) :
    t'.gnext i = none ∧ (t'.node i).val = none := by
  have him : i ≠ mp := by
    rintro rfl
    exact Option.some_ne_none k (hs.key_mp.symm.trans hkey)
  obtain ⟨j, hj, hjn, rfl⟩ := hs.exists_moved hmp hi him
  rw [hs.key_moved hjn] at hkey
  obtain ⟨hlink, hval⟩ := h.free j hj hkey
  refine ⟨by rw [hs.next_moved h hmp hj hjn, hlink]; rfl, ?_⟩
  rw [← hval]
  exact congrArg (·.2.2) (hs.entry_moved hjn)

theorem of_next (hmp : mp < t.sizenode) (hi : i < t.sizenode) (hj : t'.gnext i = some j) :
    ∃ i' < t.sizenode, ∃ j', i' ≠ n ∧ moved mp n i' = i ∧ t.gnext i' = some j' ∧ j' ≠ n
      ∧ moved mp n j' = j := by
  have him : i ≠ mp := by
    rintro rfl
    exact Option.some_ne_none j (hj.symm.trans hs.next_mp)
  obtain ⟨i', hi', hin, rfl⟩ := hs.exists_moved hmp hi him
  rw [hs.next_moved h hmp hi' hin, Option.map_eq_some_iff] at hj
  obtain ⟨j', hj', rfl⟩ := hj
  exact ⟨i', hi', j', hin, rfl, hj', hs.ne_of_key (h.link i' hi' j' hj').2, rfl⟩

theorem link (hmp : mp < t.sizenode) (hi : i < t.sizenode) (hj : t'.gnext i = some j) :
    j < t.sizenode ∧ (t'.node j).key ≠ none := by
  obtain ⟨i', hi', j', -, -, hlink, hjn, rfl⟩ := hs.of_next h hmp hi hj
  obtain ⟨hlt, hkey⟩ := h.link i' hi' j' hlink
  exact ⟨hs.moved_lt hlt, by rwa [hs.key_moved hjn]⟩

theorem inj (hmp : mp < t.sizenode) (hi : i < t.sizenode) {i' : Nat} (hi' : i' < t.sizenode)
    (hj : t'.gnext i = some j) (hj' : t'.gnext i' = some j) : i = i' := by
  obtain ⟨a, ha, b, -, rfl, hlink, hbn, hb⟩ := hs.of_next h hmp hi hj
  obtain ⟨a', ha', b', -, rfl, hlink', hbn', hb'⟩ := hs.of_next h hmp hi' hj'
  obtain rfl := moved_inj hbn hbn' (hb.trans hb'.symm)
  rw [h.inj a ha a' ha' b hlink hlink']

theorem ends (hmp : mp < t.sizenode) (hi : i < t.sizenode) (hkey : (t'.node i).key ≠ none) :
    ∃ l, Segment t'.gnext (some i) l none := by
  by_cases him : i = mp
  · exact ⟨[mp], congrArg some him, hs.next_mp⟩
  · obtain ⟨j, hj, hjn, rfl⟩ := hs.exists_moved hmp hi him
    rw [hs.key_moved hjn] at hkey
    obtain ⟨l, hl⟩ := h.ends j hj hkey
    exact ⟨_, hs.chain h hmp hj hkey hl⟩

/-- No old key belongs to `mp`. -/
theorem main_ne (hi : i < t.sizenode) (hkey : (t.node i).key = some k') : t.mainposition k' ≠ mp := by
  obtain ⟨k₁, hk₁, hmain⟩ := h.main i hi k' hkey
  obtain ⟨k₂, hk₂, hne⟩ := hs.other
  rintro rfl
  rw [Option.some.inj (hk₂.symm.trans hk₁)] at hne
  exact hne hmain

theorem main (hmp : mp < t.sizenode) (hi : i < t.sizenode) (hkey : (t'.node i).key = some k') :
    ∃ k₁, (t'.node (t.mainposition k')).key = some k₁ ∧ t.mainposition k₁ = t.mainposition k' := by
  by_cases him : i = mp
  · rw [him, hs.key_mp] at hkey
    obtain rfl := Option.some.inj hkey
    exact ⟨k, by rw [← hs.atmain, hs.key_mp], rfl⟩
  · obtain ⟨j, hj, hjn, rfl⟩ := hs.exists_moved hmp hi him
    rw [hs.key_moved hjn] at hkey
    obtain ⟨k₁, hk₁, hmain⟩ := h.main j hj k' hkey
    refine ⟨k₁, ?_, hmain⟩
    rw [← moved_of_ne (hs.main_ne h hj hkey), hs.key_moved, hk₁]
    exact hs.ne_of_key (by simp [hk₁])

omit h

variable [LawfulKeys K]

include h

theorem reach (hi : i < t.sizenode) (hkey : (t'.node i).key = some k')
    (hdead : (t'.node i).dead = false) :
    ∃ l, Segment t'.gnext (some (t.mainposition k')) l (some i)
      ∧ ∀ j ∈ l, (t'.node j).known k' = false := by
  have hmp : mp < t.sizenode := hs.atmain ▸ mainposition_lt t k
  by_cases him : i = mp
  · rw [him, hs.key_mp] at hkey
    obtain rfl := Option.some.inj hkey
    exact ⟨[], by rw [him, ← hs.atmain]; rfl, fun j hj => absurd hj List.not_mem_nil⟩
  · obtain ⟨a, ha, han, rfl⟩ := hs.exists_moved hmp hi him
    rw [hs.key_moved han] at hkey
    have hlive : (t.node a).dead = false := by
      rw [← hdead]
      exact (congrArg (·.2.1) (hs.entry_moved han)).symm
    obtain ⟨l, hl, hbefore⟩ := h.reach a ha k' hkey hlive
    have hstart := h.main_keyed ha hkey
    have hchain := hs.chain h hmp (mainposition_lt t k') hstart hl
    rw [moved_of_ne (hs.main_ne h ha hkey)] at hchain
    refine ⟨l.map (moved mp n), hchain, fun j hj => ?_⟩
    obtain ⟨b, hb, rfl⟩ := List.mem_map.mp hj
    have hbkey := (h.chain hl (mainposition_lt t k') hstart b hb).2
    rw [Node.known_congr (hs.entry_moved (hs.ne_of_key hbkey))]
    exact hbefore b hb

theorem linked : Linked t' := by
  have hmp : mp < t.sizenode := hs.atmain ▸ mainposition_lt t k
  refine ⟨?_, ?_, ?_, ?_, ?_, ?_⟩ <;> simp only [hs.sizenode, hs.mainposition]
  · exact fun i hi hkey => hs.free h hmp hi hkey
  · exact fun i hi j hj => hs.link h hmp hi hj
  · exact fun i hi i' hi' j hj hj' => hs.inj h hmp hi hi' hj hj'
  · exact fun i hi hkey => hs.ends h hmp hi hkey
  · exact fun i hi k' hkey => hs.main h hmp hi hkey
  · exact fun i hi k' hkey hdead => hs.reach h hi hkey hdead

theorem inserted : Inserted t t' mp k := by
  have hmp : mp < t.sizenode := hs.atmain ▸ mainposition_lt t k
  refine ⟨hs.linked h, hs.array, hs.lsizenode, hs.dummy, hmp, hs.self, fun i hi him => ?_,
    fun j hj hval => ?_, n, fun i hi => ?_⟩
  · obtain ⟨j, hj, hjn, rfl⟩ := hs.exists_moved hmp hi him
    exact ⟨j, hj, hs.entry_moved hjn⟩
  · have hjn : j ≠ n := by
      rintro rfl
      exact hval (h.free j hj hs.nokey).2
    exact ⟨moved mp n j, hs.moved_lt hj, hs.moved_ne j, hs.entry_moved hjn⟩
  · by_cases him : i = mp
    · simp [him, hs.key_mp, hs.mp_keyed]
    · by_cases hin : i = n
      · simp [hin, hs.key_n, hs.mp_keyed]
      · have hkey : (t'.node i).key = (t.node i).key := congrArg Prod.fst (hs.entry i him hin)
        simp [hkey, hin]

end Relocated

/-! ### The invariant -/

/-- The object of a new key is not that of another key: a key whose object has been freed
is dead. -/
def Fresh (t : Table K V) (k : K) : Prop :=
  ∀ i < t.sizenode, ∀ k', (t.node i).key = some k' → (t.node i).dead = false →
    (gcvalue k).isSome = true → gcvalue k = gcvalue k' → k' == k

/-- The nodes that have a key. -/
def used (t : Table K V) : Nat := {i ∈ Finset.range t.sizenode | (t.node i).key ≠ none}.card

def Table.capacity (t : Table K V) : Nat := if t.dummy then 0 else t.sizenode

/-- What the nodes hold. -/
def Entry (t : Table K V) (k : K) (v : V) : Prop :=
  ∃ i < t.sizenode, (t.node i).key = some k ∧ (t.node i).val = some v

namespace Inserted

omit [LawfulKeys K]

variable (hs : Inserted t t' p k)

include hs

theorem sizenode : t'.sizenode = t.sizenode := sizenode_congr hs.lsizenode

theorem used_le : used t' ≤ used t + 1 := by
  obtain ⟨q, hq⟩ := hs.grown
  have hsub : {i ∈ Finset.range t'.sizenode | (t'.node i).key ≠ none}
      ⊆ insert q {i ∈ Finset.range t.sizenode | (t.node i).key ≠ none} := by
    intro i hi
    rw [hs.sizenode, Finset.mem_filter, Finset.mem_range] at hi
    rw [Finset.mem_insert, Finset.mem_filter, Finset.mem_range]
    exact ((hq i hi.1).mp hi.2).imp id fun hkey => ⟨hi.1, hkey⟩
  exact (Finset.card_le_card hsub).trans (Finset.card_insert_le _ _)

theorem entry_iff (k' : K) (v : V) : Entry t' k' v ↔ Entry t k' v := by
  rw [Entry, Entry, hs.sizenode]
  constructor
  · rintro ⟨i, hi, hkey, hval⟩
    have hip : i ≠ p := by
      rintro rfl
      have hnone : (t'.node i).val = none := congrArg (·.2.2) hs.new
      exact Option.some_ne_none v (hval.symm.trans hnone)
    obtain ⟨j, hj, heq⟩ := hs.old i hi hip
    exact ⟨j, hj, (congrArg (·.1) heq).symm.trans hkey, (congrArg (·.2.2) heq).symm.trans hval⟩
  · rintro ⟨j, hj, hkey, hval⟩
    obtain ⟨i, hi, -, heq⟩ := hs.kept j hj (by simp [hval])
    exact ⟨i, hi, (congrArg (·.1) heq).trans hkey, (congrArg (·.2.2) heq).trans hval⟩

/-- A key is the new one or that of an old node. -/
theorem of_key (hi : i < t.sizenode) (hkey : (t'.node i).key = some k') :
    k' = k ∨ ∃ j < t.sizenode, (t.node j).key = some k' ∧ (t'.node i).dead = (t.node j).dead := by
  by_cases hip : i = p
  · have hnew : (t'.node i).key = some k := by
      rw [hip]
      exact congrArg Prod.fst hs.new
    exact .inl (Option.some.inj (hkey.symm.trans hnew))
  · obtain ⟨j, hj, heq⟩ := hs.old i hi hip
    exact .inr ⟨j, hj, (congrArg (·.1) heq).symm.trans hkey, congrArg (·.2.1) heq⟩

end Inserted

omit [LawfulKeys K] in
theorem inarray_of_array (h : t'.array = t.array) (k : K) : t'.inarray k = t.inarray k := by
  rw [Table.inarray, h, Table.inarray]

/-- A key put into a table keeps the invariant. -/
theorem Wf.inserted (h : Wf t) (hs : Inserted t t' p k) (hdummy : t.dummy = false)
    (hlastfree : t'.lastfree ≤ t.lastfree)
    (hkeyed : ∀ i < t.sizenode, t'.lastfree ≤ i → (t'.node i).key ≠ none)
    (houtside : t.inarray k = none) (hfresh : Fresh t k) : Wf t' where
  toLinked := hs.toLinked
  array := hs.array ▸ h.array
  nodes := hs.lsizenode ▸ h.nodes
  lastfree := hs.sizenode.symm ▸ hlastfree.trans h.lastfree
  keyed := fun _ => hs.sizenode.symm ▸ hkeyed
  dummy := fun hd => absurd (hs.dummy ▸ hd) (by simp [hdummy])
  live := by
    intro i hi hval
    rw [hs.sizenode] at hi
    have hip : i ≠ p := by
      rintro rfl
      exact hval (congrArg (·.2.2) hs.new)
    obtain ⟨j, hj, heq⟩ := hs.old i hi hip
    have hdead : (t'.node i).dead = (t.node j).dead := congrArg (·.2.1) heq
    have hval' : (t'.node i).val = (t.node j).val := congrArg (·.2.2) heq
    rw [hdead]
    exact h.live j hj (hval' ▸ hval)
  outside := by
    intro i hi k' hkey
    rw [hs.sizenode] at hi
    rw [inarray_of_array hs.array]
    rcases hs.of_key hi hkey with rfl | ⟨j, hj, hkey', -⟩
    · exact houtside
    · exact h.outside j hj k' hkey'
  apart := by
    intro i hi j hj k₁ k₂ hk₁ hk₂ hd₁ hd₂ hsome heq
    rw [hs.sizenode] at hi hj
    rcases hs.of_key hi hk₁ with rfl | ⟨a, ha, hka, hda⟩
    · rcases hs.of_key hj hk₂ with rfl | ⟨b, hb, hkb, hdb⟩
      · exact BEq.refl _
      · exact BEq.symm (hfresh b hb k₂ hkb (hdb ▸ hd₂) hsome heq)
    · rcases hs.of_key hj hk₂ with rfl | ⟨b, hb, hkb, hdb⟩
      · exact hfresh a ha k₁ hka (hda ▸ hd₁) (heq ▸ hsome) heq.symm
      · exact h.apart a ha b hb k₁ k₂ hka hkb (hda ▸ hd₁) (hdb ▸ hd₂) hsome heq

omit [LawfulKeys K] in
theorem Linked.withLastfree (h : Linked t) (m : Nat) : Linked { t with lastfree := m } :=
  ⟨h.free, h.link, h.inj, h.ends, h.main, h.reach⟩

omit [LawfulKeys K] in
theorem Inserted.ofLastfree {m : Nat} (h : Inserted { t with lastfree := m } t' p k) :
    Inserted t t' p k :=
  ⟨h.toLinked, h.array, h.lsizenode, h.dummy, h.lt, h.new, h.old, h.kept, h.grown⟩

omit [LawfulKeys K] in
theorem luaH_get_eq_none : luaH_get t k = none ↔ t.inarray k = none ∧ t.search k = none := by
  rw [luaH_get]
  cases t.inarray k <;> simp

omit [LawfulKeys K] in
theorem Wf.used_of_full (h : Wf t) (hfull : ∀ i < t.lastfree, (t.node i).key ≠ none) :
    used t = t.capacity := by
  rw [used, Table.capacity]
  cases hdummy : t.dummy with
  | true =>
    rw [if_pos rfl, Finset.card_eq_zero, Finset.filter_eq_empty_iff]
    intro i hi hkey
    exact hkey ((h.dummy hdummy).2 i (Finset.mem_range.mp hi))
  | false =>
    rw [if_neg Bool.false_ne_true, Finset.filter_true_of_mem, Finset.card_range]
    intro i hi
    rcases Nat.lt_or_ge i t.lastfree with hlt | hge
    · exact hfull i hlt
    · exact h.keyed hdummy i (Finset.mem_range.mp hi) hge

/-- The walk to the node before a key finds it. -/
theorem Linked.previous (h : Linked t) (hmp : mp < t.sizenode) (hkey : (t.node mp).key = some k)
    (hdead : (t.node mp).dead = false) (hne : t.mainposition k ≠ mp) :
    ∃ previous < t.sizenode, t.gnext previous = some mp
      ∧ walk t.gnext (fun i => t.gnext i == some mp) t.sizenode (some (t.mainposition k))
        = some previous := by
  obtain ⟨l, hl, -⟩ := h.reach mp hmp k hkey hdead
  obtain ⟨hall, hnodup⟩ := h.nodup hl hmp (by simp [hkey])
  -- the chain to `mp` is not empty; its last node is the one before `mp`
  have hnil : l ≠ [] := by
    rintro rfl
    exact hne (Option.some.inj hl)
  obtain ⟨l, previous, rfl⟩ := (List.eq_nil_or_concat' l).resolve_left hnil
  obtain ⟨hl, hlink⟩ := segment_concat.mp hl
  have hlt : ∀ j ∈ l ++ [previous], j < t.sizenode := fun j hj =>
    (h.chain (segment_concat.mpr ⟨hl, hlink⟩) (mainposition_lt t k) (h.main_keyed hmp hkey) j hj).1
  have hprevious := hlt previous (by simp)
  refine ⟨previous, hprevious, hlink, walk_eq_some hl (by simp [hlink]) (fun j hj => ?_) ?_⟩
  · have hj' : t.gnext j ≠ some mp := fun hj' => by
      have heq := h.inj j (hlt j (List.mem_append_left _ hj)) previous hprevious mp hj' hlink
      exact (List.nodup_append.mp hnodup).2.2 j hj previous (by simp) heq
    simpa using hj'
  · have hlen := length_le_of_lt hnodup hlt
    rwa [List.length_append, List.length_singleton] at hlen

omit [LawfulKeys K] in
theorem Inserted.key_ne (hs : Inserted t t' p k) (hi : i < t.sizenode) (hkey : (t.node i).key ≠ none) :
    (t'.node i).key ≠ none := by
  obtain ⟨q, hq⟩ := hs.grown
  exact (hq i hi).mpr (.inr hkey)

theorem Linked.collide (h : Linked t) (hn : n < t.sizenode) (hfree : (t.node n).key = none)
    (hval : (t.node (t.mainposition k)).val ≠ none)
    (hlive : (t.node (t.mainposition k)).dead = false) (hnone : t.search k = none) :
    ∃ p t', collide t (t.mainposition k) n k = .ok (.node p, t') ∧ Inserted t t' p k
      ∧ t'.lastfree = t.lastfree ∧ (t'.node n).key ≠ none := by
  have hmp := mainposition_lt t k
  obtain ⟨other, hother⟩ := Option.ne_none_iff_exists'.mp fun hkey => hval (h.free _ hmp hkey).2
  unfold HashTable.collide
  simp only [hother]
  by_cases hmain : t.mainposition other = t.mainposition k
  · have hs := spliced_chainAfter hn hfree (h.free n hn hfree).2 rfl hother hmain hlive
    refine ⟨n, _, if_neg (not_not_intro hmain), hs.inserted h hnone, rfl, ?_⟩
    simp [hs.key_n]
  · obtain ⟨previous, hprevious, hlink, hwalk⟩ := h.previous hmp hother hlive hmain
    have hs := h.relocated hn hfree rfl hother hmain hprevious hlink
    refine ⟨t.mainposition k, _, ?_, hs.inserted h, rfl, ?_⟩
    · rw [if_pos hmain, hwalk]
    · simp [hs.key_n, hother]

/-- **The insertion of a new key**: it gets a node with the value nil, every entry stays,
and the table stays in order; or else no node is free, and the table has to grow. -/
theorem Wf.newkey (h : Wf t) (hget : luaH_get t k = none) (hfresh : Fresh t k)
    (grow : Table K V → Except Failure (Loc × Table K V)) :
    (∃ p t', newkey grow t k = .ok (.node p, t') ∧ Inserted t t' p k ∧ Wf t')
      ∨ newkey grow t k = grow { t with lastfree := 0 } ∧ used t = t.capacity
        ∧ Wf { t with lastfree := 0 } := by
  obtain ⟨houtside, hnone⟩ := luaH_get_eq_none.mp hget
  have hmp := mainposition_lt t k
  unfold HashTable.newkey
  by_cases htaken : ((t.node (t.mainposition k)).val.isSome || t.dummy) = true
  · -- the main position is taken
    rw [if_pos htaken]
    rcases getfreepos_spec t.node t.lastfree with ⟨heq, hfull⟩ | ⟨n, hn, heq, hfree, hkeys⟩
    · refine .inr ⟨by rw [heq], h.used_of_full hfull, h.toLinked.withLastfree 0, h.array, h.nodes,
        Nat.zero_le _, fun hdummy i hi _ => ?_, fun hdummy => ⟨rfl, (h.dummy hdummy).2⟩, h.live,
        h.outside, h.apart⟩
      rcases Nat.lt_or_ge i t.lastfree with hlt | hge
      · exact hfull i hlt
      · exact h.keyed hdummy i hi hge
    · left
      have hdummy : t.dummy = false := by
        by_contra hdummy
        have hzero := (h.dummy (by simpa using hdummy)).1
        omega
      have hval : (t.node (t.mainposition k)).val ≠ none := by
        rwa [hdummy, Bool.or_false, Option.isSome_iff_ne_none] at htaken
      obtain ⟨p, t', hcollide, hs, hlastfree, hkeyn⟩ := (h.toLinked.withLastfree n).collide
        (Nat.lt_of_lt_of_le hn h.lastfree) hfree hval (h.live _ hmp hval) hnone
      have hs := hs.ofLastfree
      refine ⟨p, t', by rw [heq]; exact hcollide, hs,
        h.inserted hs hdummy (hlastfree ▸ Nat.le_of_lt hn) (fun i hi hge => ?_) houtside hfresh⟩
      rw [hlastfree] at hge
      rcases Nat.eq_or_lt_of_le hge with rfl | hlt
      · exact hkeyn
      · refine hs.key_ne hi ?_
        rcases Nat.lt_or_ge i t.lastfree with hi' | hi'
        · exact hkeys i hlt hi'
        · exact h.keyed hdummy i hi hi'
  · -- it is free
    rw [if_neg htaken]
    left
    rw [Bool.or_eq_true, not_or, Option.isSome_iff_ne_none, not_not, Bool.not_eq_true] at htaken
    have hs := h.toLinked.putkey htaken.1 hnone
    exact ⟨_, _, rfl, hs, h.inserted hs htaken.2 (Nat.le_refl _)
      (fun i hi hge => hs.key_ne hi (h.keyed htaken.2 i hi hge)) houtside hfresh⟩

end

end NostalgiaConv.HashTable
