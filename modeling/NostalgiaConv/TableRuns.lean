/-
`lua/ltable.c`, `lua/lgc.c`: tables in use.

A table is assigned to, its array part grows for a list of values, and the collector
removes entries whose value is nil, which kills their keys. Over any such run it is a
finite map. While nothing new is inserted it can be traversed with `luaH_next`, whatever is
written to the keys it has and whatever the collector removes meanwhile; and `luaH_getn`
finds a border of it at any time.

Weak tables, whose entries the collector clears, are left out.
-/
import NostalgiaConv.TableKeys
import NostalgiaConv.Transition

set_option autoImplicit false

namespace NostalgiaConv.HashTable

open NostalgiaConv.Chains NostalgiaConv.Transition

section

variable {K V : Type} [Keys K]

/-- `removeentry`: an entry without a value loses its key, of which the object remains. -/
def removeentry (t : Table K V) (i : Nat) : Table K V :=
  if (t.node i).val.isNone && ((t.node i).key.bind gcvalue).isSome then
    { t with node := Function.update t.node i { t.node i with dead := true } }
  else t

end

/-! ## Entries removed -/

section

variable {K V : Type} [Keys K] [LawfulKeys K]

variable {t t' : Table K V} {i j : Nat} {k k' : K} {v : V}

/-- A table with the same keys in the same order, of which some may have died. -/
structure Frozen (t t' : Table K V) : Prop where
  length : t'.array.length = t.array.length
  lsizenode : t'.lsizenode = t.lsizenode
  key : ∀ i, (t'.node i).key = (t.node i).key
  next : t'.gnext = t.gnext
  dead : ∀ i, (t'.node i).dead = (t.node i).dead
    ∨ (t'.node i).dead = true ∧ ((t.node i).key.bind gcvalue).isSome = true

/-- A table in which some keys have died, all of them of entries without a value. -/
structure Died (t t' : Table K V) : Prop extends Frozen t t' where
  array : t'.array = t.array
  dummy : t'.dummy = t.dummy
  lastfree : t'.lastfree = t.lastfree
  val : ∀ i, (t'.node i).val = (t.node i).val
  empty : ∀ i, (t'.node i).dead = (t.node i).dead ∨ (t.node i).val = none

omit [LawfulKeys K] in
theorem died_removeentry (t : Table K V) (i : Nat) : Died t (removeentry t i) := by
  rw [removeentry]
  split_ifs with hcond
  · rw [Bool.and_eq_true, Option.isNone_iff_eq_none] at hcond
    refine ⟨⟨rfl, rfl, fun j => ?_, ?_, fun j => ?_⟩, rfl, rfl, rfl, fun j => ?_, fun j => ?_⟩
    · by_cases hj : j = i <;> simp [hj]
    · funext j
      by_cases hj : j = i <;> simp [Table.gnext, hj]
    · by_cases hj : j = i
      · exact .inr ⟨by simp [hj], hj ▸ hcond.2⟩
      · simp [hj]
    · by_cases hj : j = i <;> simp [hj]
    · by_cases hj : j = i
      · exact .inr (hj ▸ hcond.1)
      · simp [hj]
  · exact ⟨⟨rfl, rfl, fun _ => rfl, rfl, fun _ => .inl rfl⟩, rfl, rfl, rfl, fun _ => rfl, fun _ => .inl rfl⟩

namespace Frozen

omit [LawfulKeys K]

theorem refl (t : Table K V) : Frozen t t := ⟨rfl, rfl, fun _ => rfl, rfl, fun _ => .inl rfl⟩

theorem trans {t'' : Table K V} (hf : Frozen t t') (hf' : Frozen t' t'') : Frozen t t'' where
  length := hf'.length.trans hf.length
  lsizenode := hf'.lsizenode.trans hf.lsizenode
  key i := (hf'.key i).trans (hf.key i)
  next := hf'.next.trans hf.next
  dead i := by
    rcases hf'.dead i with heq | ⟨hdied, hobject⟩
    · rw [heq]
      exact hf.dead i
    · rw [hf.key] at hobject
      exact .inr ⟨hdied, hobject⟩

variable (hf : Frozen t t')

include hf

theorem sizenode : t'.sizenode = t.sizenode := sizenode_congr hf.lsizenode

theorem mainposition (k : K) : t'.mainposition k = t.mainposition k :=
  mainposition_of_lsizenode hf.lsizenode k

theorem inarray (k : K) : t'.inarray k = t.inarray k := by
  rw [Table.inarray, hf.length, Table.inarray]

/-- What lives now has lived before. -/
theorem alive (h : (t'.node i).dead = false) : (t.node i).dead = false := by
  rcases hf.dead i with heq | ⟨hdead, -⟩
  · rw [← heq, h]
  · rw [h] at hdead
    exact absurd hdead Bool.false_ne_true

/-- A key that has died is taken for no other key. -/
theorem known (h : Wf t) (hi : i < t.sizenode) (hkey : (t.node i).key = some k)
    (hdead : (t.node i).dead = false) (hj : j < t.sizenode) (hnot : (t.node j).known k = false) :
    (t'.node j).known k = false := by
  rcases hf.dead j with heq | ⟨hdied, hobject⟩
  · simpa only [Node.known, Node.holds, hf.key, heq] using hnot
  · rcases hbefore : (t.node j).dead with _ | _
    · rw [Node.known, Node.holds, hf.key, hdied, Bool.not_true, Bool.false_and, Bool.false_or, Bool.true_and]
      simp only [Node.known, Node.holds, hbefore, Bool.not_false, Bool.true_and, Bool.false_and,
        Bool.or_false] at hnot
      cases hkj : (t.node j).key with
      | none => simp
      | some kj =>
        rw [hkj, Option.any_some] at hnot
        rw [Option.any_some, Bool.and_eq_false_iff]
        by_contra hsame
        simp only [not_or, Bool.not_eq_false, beq_iff_eq] at hsame
        have heq := h.apart j hj i hi kj k hkj hkey hbefore hdead (hsame.2 ▸ hsame.1) hsame.2
        rw [heq] at hnot
        exact Bool.false_ne_true hnot.symm
    · simpa only [Node.known, Node.holds, hf.key, hdied, hbefore] using hnot

variable [LawfulKeys K]

/-- The key that lived is still known where it was, and before no other node. -/
theorem reach (h : Wf t) (hi : i < t.sizenode) (hkey : (t.node i).key = some k)
    (hdead : (t.node i).dead = false) :
    ∃ l, Segment t'.gnext (some (t'.mainposition k)) l (some i)
      ∧ (∀ j ∈ l, j < t.sizenode ∧ (t'.node j).known k = false) ∧ l.length < t.sizenode := by
  obtain ⟨l, hl, hbefore⟩ := h.reach i hi k hkey hdead
  have hchain := h.chain hl (mainposition_lt t k) (h.main_keyed hi hkey)
  have hnodup := (h.nodup hl hi (by simp [hkey])).1
  have hlen := length_le_of_lt hnodup fun j hj => by
    rcases List.mem_append.mp hj with hj | hj
    · exact (hchain j hj).1
    · rwa [List.mem_singleton.mp hj]
  rw [List.length_append, List.length_singleton] at hlen
  rw [hf.next, hf.mainposition]
  exact ⟨l, hl, fun j hj => ⟨(hchain j hj).1, hf.known h hi hkey hdead (hchain j hj).1 (hbefore j hj)⟩, hlen⟩

end Frozen

namespace Died

omit [LawfulKeys K]

theorem refl (t : Table K V) : Died t t :=
  ⟨.refl t, rfl, rfl, rfl, fun _ => rfl, fun _ => .inl rfl⟩

theorem trans {t'' : Table K V} (h : Died t t') (h' : Died t' t'') : Died t t'' where
  toFrozen := h.toFrozen.trans h'.toFrozen
  array := h'.array.trans h.array
  dummy := h'.dummy.trans h.dummy
  lastfree := h'.lastfree.trans h.lastfree
  val i := (h'.val i).trans (h.val i)
  empty i := by
    rcases h'.empty i with heq | hnone
    · rw [heq]
      exact h.empty i
    · exact .inr (h.val i ▸ hnone)

variable (hd : Died t t')

include hd

theorem entry_iff (k : K) (v : V) : Entry t' k v ↔ Entry t k v := by
  simp only [Entry, hd.sizenode, hd.key, hd.val]

omit hd

variable [LawfulKeys K]

include hd

theorem wf (h : Wf t) : Wf t' where
  free := by simpa only [hd.sizenode, hd.key, hd.next, hd.val] using h.free
  link := by simpa only [hd.sizenode, hd.key, hd.next] using h.link
  inj := by simpa only [hd.sizenode, hd.next] using h.inj
  ends := by simpa only [hd.sizenode, hd.key, hd.next] using h.ends
  main := by simpa only [hd.sizenode, hd.key, hd.mainposition] using h.main
  reach := by
    intro i hi k hkey hdead
    rw [hd.sizenode] at hi
    rw [hd.key] at hkey
    obtain ⟨l, hl, hbefore, -⟩ := hd.toFrozen.reach h hi hkey (hd.alive hdead)
    exact ⟨l, hl, fun j hj => (hbefore j hj).2⟩
  array := hd.array ▸ h.array
  nodes := hd.lsizenode ▸ h.nodes
  lastfree := by rw [hd.lastfree, hd.sizenode]; exact h.lastfree
  keyed := by simpa only [hd.sizenode, hd.key, hd.dummy, hd.lastfree] using h.keyed
  dummy := by simpa only [hd.sizenode, hd.key, hd.dummy, hd.lastfree] using h.dummy
  live := by
    intro i hi hval
    rw [hd.sizenode] at hi
    rw [hd.val] at hval
    rcases hd.empty i with heq | hnone
    · rw [heq]
      exact h.live i hi hval
    · exact absurd hnone hval
  outside := by
    intro i hi k hkey
    rw [hd.sizenode] at hi
    rw [hd.key] at hkey
    rw [inarray_of_array hd.array]
    exact h.outside i hi k hkey
  apart := by
    intro i hi j hj k k' hk hk' hdi hdj
    rw [hd.sizenode] at hi hj
    rw [hd.key] at hk hk'
    exact h.apart i hi j hj k k' hk hk' (hd.alive hdi) (hd.alive hdj)

theorem lookup (h : Wf t) (k : K) : t'.lookup k = t.lookup k := by
  have hin := inarray_of_array hd.array k
  cases ha : t.inarray k with
  | some i => rw [lookup_of_inarray ha, lookup_of_inarray (hin.trans ha), hd.array]
  | none =>
    refine Option.ext fun v => ?_
    simp only [(hd.wf h).lookup_eq_some (hin.trans ha), h.lookup_eq_some ha, hd.entry_iff]

end Died

/-! ## A table is a finite map -/

/-- What happens to a table: `t[k] = o`, room for the elements of a list, an entry removed
by the collector. -/
inductive Action (K V : Type) where
  | assign (k : K) (o : Option V)
  | resizearray (nasize : Nat)
  | removeentry (i : Nat)

def step (t : Table K V) : Action K V → Option (Table K V)
  | .assign k o => (assign t k o).toOption
  | .resizearray nasize => (luaH_resizearray t nasize).toOption
  | .removeentry i => some (removeentry t i)

/-- The object of a key is not that of another living key; array parts only grow this way. -/
def Allowed (t : Table K V) : Action K V → Prop
  | .assign k _ => Fresh t k
  | .resizearray nasize => t.array.length ≤ nasize ∧ nasize ≤ MAXASIZE
  | .removeentry _ => True

/-- What is assigned, as a map. -/
def effect (m : K → Option V) : Action K V → K → Option V
  | .assign k o => fun k' => if (k' == k) = true then o else m k'
  | _ => m

/-- A table beside the map it should be. -/
def stepBoth (s : Table K V × (K → Option V)) (a : Action K V) : Option (Table K V × (K → Option V)) :=
  (step s.1 a).map fun t => (t, effect s.2 a)

/-- One step: the table stays in order, and reads as the map. -/
theorem step_refines {s s' : Table K V × (K → Option V)} (h : Wf s.1) (hmap : ∀ k, s.1.lookup k = s.2 k)
    {a : Action K V} (hok : Allowed s.1 a) (hstep : stepBoth s a = some s') :
    Wf s'.1 ∧ ∀ k, s'.1.lookup k = s'.2 k := by
  obtain ⟨t', ht', rfl⟩ := Option.map_eq_some_iff.mp hstep
  cases a with
  | assign k o =>
    rcases h.assign hok o with ⟨t₁, hassign, hwf, hlookup⟩ | ⟨hassign, -⟩
    · rw [step, hassign] at ht'
      obtain rfl := Option.some.inj ht'
      exact ⟨hwf, fun k' => by rw [hlookup, hmap]; rfl⟩
    · rw [step, hassign] at ht'
      exact absurd ht' (Option.some_ne_none t').symm
  | resizearray nasize =>
    obtain ⟨t₁, hresize, hwf, hlookup⟩ := h.luaH_resizearray hok.1 hok.2
    rw [step, hresize] at ht'
    obtain rfl := Option.some.inj ht'
    exact ⟨hwf, fun k' => by rw [hlookup, hmap]; rfl⟩
  | removeentry i =>
    obtain rfl := Option.some.inj ht'
    have hd := died_removeentry s.1 i
    exact ⟨hd.wf h, fun k' => by rw [hd.lookup h, hmap]; rfl⟩

variable {start : Table K V} {narray nhash : Nat}

theorem reachable_wf (hnarray : narray ≤ MAXASIZE) (hnew : luaH_new narray nhash = .ok start)
    (h : Reachable step Allowed start t) : Wf t := by
  refine h.invariant (luaH_new_wf hnarray hnew).1 fun s a s' hs hok hstep => ?_
  have hboth : stepBoth (s, s.lookup) a = some (s', effect s.lookup a) := by
    rw [stepBoth, hstep]
    rfl
  exact (step_refines hs (fun _ => rfl) hok hboth).1

omit [LawfulKeys K] in
/-- A key that is no object is always fresh. -/
theorem fresh_of_gcvalue (h : gcvalue k = none) : Fresh t k := by
  intro i _ k' _ _ hsome
  rw [h] at hsome
  exact absurd hsome Bool.false_ne_true

theorem eq_some_getD {α : Type} {x : Option α} {d : α} (h : x.isSome = true) : x = some (x.getD d) := by
  cases x with
  | none => exact absurd h Bool.false_ne_true
  | some a => rfl

end

/-! A table with an element in the array part and one in a node. -/

/-- The hash of a string of the example is its address. -/
instance addressHash : StringHash where
  hash p := p

def empty : Table Key Nat := ⟨[], 0, fun _ => .empty, true, 0⟩

def one : Key := Key.ofInt 1

def name : Key := .string 5

def setOne : Action Key Nat := .assign one (some 10)

def setName : Action Key Nat := .assign name (some 20)

def withOne : Table Key Nat := (step empty setOne).getD empty

def withBoth : Table Key Nat := (step withOne setName).getD empty

theorem step_setOne : step empty setOne = some withOne := eq_some_getD (by decide +kernel)

theorem step_setName : step withOne setName = some withBoth := eq_some_getD (by decide +kernel)

theorem fresh_one (t : Table Key Nat) : Fresh t one := fresh_of_gcvalue (by decide +kernel)

theorem fresh_name : Fresh withOne name := by
  have hnone : ∀ i < withOne.sizenode, (withOne.node i).key.isNone = true := by decide +kernel
  intro i hi k' hkey
  have hi' := hnone i hi
  rw [hkey] at hi'
  exact absurd hi' Bool.false_ne_true

theorem withBoth_reachable : Reachable step Allowed empty withBoth :=
  .step (a := setName) (.step (a := setOne) .start (fresh_one empty) step_setOne) fresh_name step_setName

section

variable {K V : Type} [Keys K] [LawfulKeys K]

variable {t t' start : Table K V} {k : K} {narray nhash : Nat}

/-- **A table is a finite map**: over any run from a new table, what is read is what was
assigned last; and an assignment then always finds a place, unless the table has at least
`2 ^ MAXBITS` elements. -/
theorem table_is_map (hnarray : narray ≤ MAXASIZE) (hnew : luaH_new narray nhash = .ok start)
    {m : K → Option V}
    (h : Reachable stepBoth (fun s a => Allowed s.1 a) (start, fun _ => none) (t, m)) :
    (∀ k, t.lookup k = m k)
      ∧ ∀ k o, Fresh t k → (∃ t', assign t k o = .ok t')
        ∨ assign t k o = .error .overflow ∧ 2 ^ MAXBITS ≤ t.elements.length := by
  have hinv : Wf t ∧ ∀ k, t.lookup k = m k := by
    refine h.invariant (I := fun s => Wf s.1 ∧ ∀ k, s.1.lookup k = s.2 k) (luaH_new_wf hnarray hnew)
      fun s a s' hs hok hstep => step_refines hs.1 hs.2 hok hstep
  refine ⟨hinv.2, fun k o hfresh => ?_⟩
  exact (hinv.1.assign hfresh o).imp (fun ⟨t', hassign, _⟩ => ⟨t', hassign⟩) id

theorem table_is_map_both : withBoth.lookup name = some 20
    ∧ ((∃ t', assign withBoth one none = .ok t')
      ∨ assign withBoth one none = .error .overflow ∧ 2 ^ MAXBITS ≤ withBoth.elements.length) := by
  have hrun : Reachable stepBoth (fun s a => Allowed s.1 a) (empty, fun _ => none)
      (withBoth, effect (effect (fun _ => none) setOne) setName) := by
    refine .step (s := (withOne, effect (fun _ => none) setOne)) (a := setName)
      (.step (a := setOne) .start (fresh_one empty) ?_) fresh_name ?_
    · rw [stepBoth, step_setOne]
      rfl
    · rw [stepBoth, step_setName]
      rfl
  have hmap := table_is_map (Nat.zero_le _) (rfl : luaH_new 0 0 = .ok empty) hrun
  exact ⟨hmap.1 name, hmap.2 one none (fresh_one withBoth)⟩

/-- **The array part chosen by a rehash**, in any run: the largest power of two with more
than half of its places in use, counting the key that is to be inserted, which then has a
place without another rehash. There is one, unless the table has at least `2 ^ MAXBITS`
elements. -/
theorem rehash_arraySize (hnarray : narray ≤ MAXASIZE) (hnew : luaH_new narray nhash = .ok start)
    (h : Reachable step Allowed start t) (hget : luaH_get t k = none) (hfresh : Fresh t k)
    (depth : Nat) :
    (∃ t', rehash (luaH_set (depth + 1)) t k = .ok t'
        ∧ ArraySize (k :: t.keys) t'.array.length ∧ (∀ k', t'.lookup k' = t.lookup k')
        ∧ ∃ loc t'', luaH_set 1 t' k = .ok (loc, t'') ∧ t''.array = t'.array
          ∧ t''.capacity = t'.capacity)
      ∨ rehash (luaH_set (depth + 1)) t k = .error .overflow
        ∧ 2 ^ MAXBITS ≤ t.elements.length := by
  have hwf := reachable_wf hnarray hnew h
  rcases hwf.rehash hget depth with ⟨t', hrehash, hwf', hkeyed, hroom, hsize, hlookup⟩ | hoverflow
  · obtain ⟨loc, t'', hset, -, harray, hcapacity, -⟩ :=
      hwf'.luaH_set_room (hkeyed.fresh_of_known hfresh) hroom 0
    exact Or.inl ⟨t', hrehash, hsize, hlookup, loc, t'', hset, harray, hcapacity⟩
  · exact Or.inr hoverflow

def two : Key := Key.ofInt 2

/-- The table with both elements, rehashed for the key 2. -/
theorem rehash_arraySize_two : ∃ t', rehash (luaH_set 1) withBoth two = .ok t'
    ∧ ArraySize (two :: withBoth.keys) t'.array.length := by
  rcases rehash_arraySize (Nat.zero_le _) (rfl : luaH_new 0 0 = .ok empty) withBoth_reachable
    (k := two) (by decide +kernel) (fresh_of_gcvalue (by decide +kernel)) 0 with
    ⟨t', hrehash, hsize, -⟩ | ⟨-, hmany⟩
  · exact ⟨t', hrehash, hsize⟩
  · exact absurd hmany (by decide +kernel)

end

/-- **Access by the type of the key**: in any table that can be reached, the searches and
insertions for integers and for strings do what the general ones do. -/
theorem access_by_type {V : Type} [StringHash] {t start : Table Key V} {narray nhash : Nat}
    (hnarray : narray ≤ MAXASIZE) (hnew : luaH_new narray nhash = .ok start)
    (h : Reachable step Allowed start t) :
    (∀ key, luaH_getkey t key = luaH_get t key)
      ∧ (∀ (depth : Nat) (key : Int), -2 ^ 31 ≤ key → key < 2 ^ 31 →
        luaH_getnum t key = luaH_get t (Key.ofInt key)
          ∧ luaH_setnum depth t key = luaH_set (depth + 1) t (Key.ofInt key))
      ∧ ∀ (depth : Nat) (ts : BitVec 32), luaH_setstr depth t ts = luaH_set (depth + 1) t (.string ts) := by
  have hlen := (reachable_wf hnarray hnew h).array
  exact ⟨luaH_getkey_eq hlen, fun depth key hlow hhigh =>
    ⟨luaH_getnum_ofInt hlen hlow hhigh, luaH_setnum_eq hlen depth hlow hhigh⟩, fun depth ts =>
    luaH_setstr_eq t depth ts⟩

/-- The name, the element in the array part, and an integer that has no place yet. -/
theorem access_by_type_both : luaH_getkey withBoth name = luaH_get withBoth name
    ∧ luaH_getnum withBoth 1 = luaH_get withBoth one
    ∧ luaH_setnum 1 withBoth 2 = luaH_set 2 withBoth two := by
  obtain ⟨hkey, hnum, -⟩ :=
    access_by_type (Nat.zero_le _) (rfl : luaH_new 0 0 = .ok empty) withBoth_reachable
  exact ⟨hkey name, (hnum 0 1 (by decide) (by decide)).1, (hnum 1 2 (by decide) (by decide)).2⟩

/-! ## Traversal -/

section

variable {K V : Type} [Keys K]

/-- The index where a traversal goes on after a key, from 0 for nil; none is the error
`invalid key to 'next'`. -/
def findindex (t : Table K V) : Option K → Option Nat
  | none => some 0
  | some key =>
    match t.inarray key with
    | some i => some (i + 1)
    | none =>
      (walk t.gnext (fun i => (t.node i).known key) t.sizenode (some (t.mainposition key))).map
        fun i => t.array.length + i + 1

/-- The loops of `luaH_next` over the array part and over the nodes. -/
def nextInArray (array : List (Option V)) (i : Nat) : Option (K × V) :=
  (List.range' i (array.length - i)).findSome? fun j => (array.getD j none).map fun v => (numkey (j + 1), v)

def nextInNodes (t : Table K V) (i : Nat) : Option (K × V) :=
  (List.range' i (t.sizenode - i)).findSome? t.held

def luaH_next (t : Table K V) (key : Option K) : Option (Option (K × V)) :=
  (findindex t key).map fun i =>
    (nextInArray t.array i).or (nextInNodes t (i - t.array.length))

/-- A traversal under way: the table, and the keys visited, the last one first. -/
structure Traversal (K V : Type) where
  table : Table K V
  visited : List K
  finished : Bool

inductive Move (K V : Type) where
  | next
  | write (k : K) (o : Option V)
  | removeentry (i : Nat)

/-- A step of the traversal, a write to a key that the table has, or one of the collector. -/
def move (s : Traversal K V) : Move K V → Option (Traversal K V)
  | .next =>
    match luaH_next s.table s.visited.head? with
    | none => none
    | some none => some { s with finished := true }
    | some (some e) => some { s with visited := e.1 :: s.visited }
  | .write k o => (luaH_get s.table k).map fun loc => { s with table := s.table.setobj o loc }
  | .removeentry i => some { s with table := removeentry s.table i }

end

/-- A search upwards. -/
theorem findSome?_range' {α : Type} (f : Nat → Option α) (n : Nat) : ∀ i,
    ((List.range' i n).findSome? f = none ∧ ∀ q, i ≤ q → q < i + n → f q = none)
      ∨ ∃ q e, i ≤ q ∧ q < i + n ∧ (List.range' i n).findSome? f = some e ∧ f q = some e
        ∧ ∀ q', i ≤ q' → q' < q → f q' = none := by
  induction n with
  | zero => exact fun i => .inl ⟨rfl, fun q hq hq' => absurd hq' (by omega)⟩
  | succ n ih =>
    intro i
    rw [List.range'_succ, List.findSome?_cons]
    cases hi : f i with
    | some e => exact .inr ⟨i, e, by omega, by omega, rfl, hi, fun q' hq hq' => absurd hq' (by omega)⟩
    | none =>
      have hbelow : ∀ {q}, i ≤ q → q = i ∨ i + 1 ≤ q := fun hq => by omega
      rcases ih (i + 1) with ⟨hnone, hall⟩ | ⟨q, e, hq, hq', hsome, hfq, hall⟩
      · refine .inl ⟨hnone, fun q hq hq' => ?_⟩
        rcases hbelow hq with rfl | hq
        · exact hi
        · exact hall q hq (by omega)
      · refine .inr ⟨q, e, by omega, by omega, hsome, hfq, fun q' hq hq' => ?_⟩
        rcases hbelow hq with rfl | hq
        · exact hi
        · exact hall q' hq hq'

section

variable {K V : Type} [Keys K]

/-- The elements in the order of a traversal, the array part before the nodes. -/
def Table.slot (t : Table K V) (q : Nat) : Option (K × V) :=
  if q < t.array.length then (t.array.getD q none).map fun v => (numkey (q + 1), v)
  else t.held (q - t.array.length)

variable {t t' : Table K V} {i : Nat} {k : K} {e : K × V}

theorem slot_of_lt {q : Nat} (h : q < t.array.length) :
    t.slot q = (t.array.getD q none).map fun v => (numkey (q + 1), v) := if_pos h

theorem slot_of_le {q : Nat} (h : t.array.length ≤ q) : t.slot q = t.held (q - t.array.length) :=
  if_neg (Nat.not_lt.mpr h)

/-- `luaH_next` gives the first element from an index on. -/
theorem luaH_next_spec {key : Option K} (hi : findindex t key = some i) :
    (luaH_next t key = some none ∧ ∀ q, i ≤ q → q < t.array.length + t.sizenode → t.slot q = none)
      ∨ ∃ q e, i ≤ q ∧ q < t.array.length + t.sizenode ∧ luaH_next t key = some (some e)
        ∧ t.slot q = some e ∧ ∀ q', i ≤ q' → q' < q → t.slot q' = none := by
  rw [luaH_next, hi, Option.map_some]
  rcases findSome?_range' (fun j => (t.array.getD j none).map fun v => ((numkey (j + 1) : K), v))
    (t.array.length - i) i with ⟨hnone, hall⟩ | ⟨q, e, hq, hq', hsome, hfq, hall⟩
  · rw [nextInArray, hnone, Option.none_or]
    have harray : ∀ q, i ≤ q → q < t.array.length → t.slot q = none := fun q hq hq' => by
      rw [slot_of_lt hq']
      exact hall q hq (by omega)
    rcases findSome?_range' t.held (t.sizenode - (i - t.array.length)) (i - t.array.length) with
      ⟨hnone', hall'⟩ | ⟨q, e, hq, hq', hsome, hfq, hall'⟩
    · refine .inl ⟨congrArg some hnone', fun q hq hq' => ?_⟩
      rcases Nat.lt_or_ge q t.array.length with hlt | hge
      · exact harray q hq hlt
      · rw [slot_of_le hge]
        exact hall' _ (by omega) (by omega)
    · refine .inr ⟨t.array.length + q, e, by omega, by omega, congrArg some hsome, ?_, fun q' hi' hlt => ?_⟩
      · rw [slot_of_le (Nat.le_add_right _ _), Nat.add_sub_cancel_left, hfq]
      · rcases Nat.lt_or_ge q' t.array.length with hlt' | hge
        · exact harray q' hi' hlt'
        · rw [slot_of_le hge]
          exact hall' _ (by omega) (by omega)
  · refine .inr ⟨q, e, hq, by omega, ?_, ?_, fun q' hi' hlt => ?_⟩
    · rw [nextInArray, hsome, Option.some_or]
    · rw [slot_of_lt (by omega), ← hfq]
    · rw [slot_of_lt (by omega)]
      exact hall q' hi' hlt

/-- The key of the slot `q` at the start. -/
inductive Named (t : Table K V) : Nat → K → Prop where
  | array {q : Nat} (h : q < t.array.length) : Named t q (numkey (q + 1))
  | node {i : Nat} {k : K} (hi : i < t.sizenode) (hkey : (t.node i).key = some k)
      (hdead : (t.node i).dead = false) : Named t (t.array.length + i) k

variable [LawfulKeys K]

/-- A key is found where it was, even if it has died. -/
theorem Frozen.findindex (hf : Frozen t t') (h : Wf t) {q : Nat} (hq : Named t q k) :
    findindex t' (some k) = some (q + 1) := by
  cases hq with
  | array hlt =>
    rw [HashTable.findindex, hf.inarray, inarray_numkey h.array hlt]
  | @node i _ hi hkey hdead =>
    obtain ⟨l, hl, hbefore, hlen⟩ := hf.reach h hi hkey hdead
    have hknown : (t'.node i).known k = true := by
      rcases hf.dead i with heq | ⟨hdied, hobject⟩
      · simp [Node.known, Node.holds, hf.key, hkey, heq, hdead]
      · rw [hkey, Option.bind_some] at hobject
        simp [Node.known, hf.key, hkey, hdied, hobject]
    have hwalk : walk t'.gnext (fun i => (t'.node i).known k) t'.sizenode (some (t'.mainposition k)) = some i :=
      walk_eq_some hl hknown (fun j hj => (hbefore j hj).2) (hf.sizenode ▸ hlen)
    rw [HashTable.findindex, hf.inarray, h.outside i hi k hkey]
    simp only [hwalk, Option.map_some, hf.length]

omit [LawfulKeys K] in
theorem Named.unique {q : Nat} {k' : K} (hq : Named t q k) (hq' : Named t q k') : k = k' := by
  cases hq with
  | array hlt =>
    cases hq' with
    | array => rfl
    | node => omega
  | node hi hkey hdead =>
    generalize hslot : t.array.length + _ = q at hq'
    cases hq' with
    | array => omega
    | node hj hkey' hdead' =>
      obtain rfl := Nat.add_left_cancel hslot
      exact Option.some.inj (hkey.symm.trans hkey')

theorem Named.inj (h : Wf t) {q q' : Nat} {k' : K} (hq : Named t q k) (hq' : Named t q' k')
    (heq : (k == k') = true) : q = q' := by
  have hin := inarray_congr t heq
  cases hq with
  | array hlt =>
    rw [inarray_numkey h.array hlt] at hin
    cases hq' with
    | array hlt' =>
      rw [inarray_numkey h.array hlt'] at hin
      exact Option.some.inj hin
    | node hi hkey hdead =>
      rw [h.outside _ hi _ hkey] at hin
      exact absurd hin (Option.some_ne_none _)
  | @node i _ hi hkey hdead =>
    rw [h.outside i hi k hkey] at hin
    cases hq' with
    | array hlt' =>
      rw [inarray_numkey h.array hlt'] at hin
      exact absurd hin.symm (Option.some_ne_none _)
    | @node j _ hj hkey' hdead' =>
      have hholds : (t.node i).holds k' = true := Node.holds_iff.mpr ⟨hdead, k, hkey, heq⟩
      have hholds' : (t.node j).holds k' = true := Node.holds_iff.mpr ⟨hdead', k', hkey', BEq.refl _⟩
      rw [Option.some.inj ((h.search hi hholds).symm.trans (h.search hj hholds'))]

/-- An element stands in a slot that had its key at the start. -/
theorem Frozen.named (hf : Frozen t t') (h' : Wf t') {q : Nat} (hq : q < t.array.length + t.sizenode)
    (he : t'.slot q = some e) : Named t q e.1 ∧ t'.lookup e.1 = some e.2 := by
  rcases Nat.lt_or_ge q t.array.length with hlt | hge
  · rw [slot_of_lt (hf.length.symm ▸ hlt)] at he
    obtain ⟨v, hv, rfl⟩ := Option.map_eq_some_iff.mp he
    refine ⟨.array hlt, ?_⟩
    rw [lookup_of_inarray (inarray_numkey h'.array (hf.length.symm ▸ hlt)), hv]
  · rw [slot_of_le (hf.length.symm ▸ hge), hf.length] at he
    obtain ⟨hkey, hval⟩ := held_eq_some.mp he
    have hi : q - t.array.length < t'.sizenode := by
      rw [hf.sizenode]
      omega
    have hlive := h'.live _ hi (by simp [hval])
    refine ⟨?_, (h'.lookup_eq_some (h'.outside _ hi _ hkey)).mpr ⟨e.1, ⟨_, hi, hkey, hval⟩, BEq.refl _⟩⟩
    rw [hf.key] at hkey
    have hnamed := Named.node (hf.sizenode ▸ hi) hkey (hf.alive hlive)
    rwa [Nat.add_sub_cancel' hge] at hnamed

/-- A key that has a value stands in a slot. -/
theorem Wf.exists_slot (h : Wf t) (hval : t.lookup k ≠ none) :
    ∃ q e, q < t.array.length + t.sizenode ∧ t.slot q = some e ∧ (e.1 == k) = true := by
  obtain ⟨v, hv⟩ := Option.ne_none_iff_exists'.mp hval
  cases hin : t.inarray k with
  | some i =>
    obtain ⟨hindex, hlt⟩ := inarray_eq_some.mp hin
    rw [lookup_of_inarray hin] at hv
    refine ⟨i, (numkey (i + 1), v), by omega, by rw [slot_of_lt hlt, hv]; rfl, ?_⟩
    have hcast := LawfulKeys.numkey_arrayindex (k := k) (by omega)
    rwa [hindex] at hcast
  | none =>
    obtain ⟨k', ⟨i, hi, hkey, hval⟩, heq⟩ := (h.lookup_eq_some hin).mp hv
    refine ⟨t.array.length + i, (k', v), by omega, ?_, heq⟩
    rw [slot_of_le (Nat.le_add_right _ _), Nat.add_sub_cancel_left]
    exact held_eq_some.mpr ⟨hkey, hval⟩

/-- And always in the same one. -/
theorem Frozen.slot (hf : Frozen t t') (h : Wf t) (h' : Wf t') {q : Nat} (hq : Named t q k)
    {k' : K} (heq : (k == k') = true) (hval : t'.lookup k' ≠ none) :
    t'.slot q ≠ none ∧ q < t.array.length + t.sizenode := by
  obtain ⟨q', e, hlt, he, hk⟩ := h'.exists_slot hval
  rw [hf.length, hf.sizenode] at hlt
  obtain rfl := hq.inj h (hf.named h' hlt he).1 (BEq.trans heq (BEq.symm hk))
  exact ⟨by simp [he], hlt⟩

omit [LawfulKeys K] in
theorem Frozen.setobj (hf : Frozen t t') (o : Option V) (loc : Loc) : Frozen t (t'.setobj o loc) where
  length := by rw [setobj_length, hf.length]
  lsizenode := by rw [setobj_lsizenode, hf.lsizenode]
  key i := by rw [setobj_key, hf.key]
  next := by rw [setobj_gnext, hf.next]
  dead i := by rw [setobj_dead]; exact hf.dead i

/-- Where a traversal stands: what it visited are the keys of `slots`, the last one first. -/
structure Visiting (t : Table K V) (s : Traversal K V) (slots : List Nat) : Prop where
  wf : Wf s.table
  frozen : Frozen t s.table
  named : List.Forall₂ (Named t) slots s.visited
  sorted : slots.Pairwise (· > ·)

/-- The slot where it goes on. -/
def goesOn (slots : List Nat) : Nat := (slots.head?.map (· + 1)).getD 0

theorem Visiting.findindex {s : Traversal K V} {slots : List Nat} (h : Wf t) (hv : Visiting t s slots) :
    findindex s.table s.visited.head? = some (goesOn slots) := by
  obtain ⟨table, visited, finished⟩ := s
  cases hv.named with
  | nil => rfl
  | cons hq _ => exact hv.frozen.findindex h hq

theorem le_of_goesOn {slots : List Nat} (hsorted : slots.Pairwise (· > ·)) {q : Nat} (hq : goesOn slots ≤ q) :
    ∀ q' ∈ slots, q > q' := by
  cases slots with
  | nil => simp
  | cons a slots =>
    intro q' hq'
    have ha : a < q := hq
    rcases List.mem_cons.mp hq' with rfl | hq'
    · exact ha
    · exact Nat.lt_trans ((List.pairwise_cons.mp hsorted).1 q' hq') ha

/-- A move of a traversal, and that a slot with a value is not passed over. -/
theorem Visiting.move {s s' : Traversal K V} {slots : List Nat} (h : Wf t) (hv : Visiting t s slots)
    {m : Move K V} (hmove : move s m = some s') :
    ∃ slots', Visiting t s' slots'
      ∧ ∀ q, q < t.array.length + t.sizenode → s.table.slot q ≠ none →
        (q < goesOn slots ∨ s.finished = true → q ∈ slots) →
        (q < goesOn slots' ∨ s'.finished = true → q ∈ slots') := by
  cases m with
  | next =>
    rw [HashTable.move] at hmove
    rcases luaH_next_spec (hv.findindex h) with ⟨hnext, hnone⟩ | ⟨q, e, hq, hlt, hnext, he, hbefore⟩
    · rw [hnext] at hmove
      obtain rfl := Option.some.inj hmove
      refine ⟨slots, ⟨hv.wf, hv.frozen, hv.named, hv.sorted⟩, fun q hq hval hin _ => hin ?_⟩
      by_contra hnot
      refine hval (hnone q (by omega) ?_)
      rwa [hv.frozen.length, hv.frozen.sizenode]
    · rw [hnext] at hmove
      obtain rfl := Option.some.inj hmove
      rw [hv.frozen.length, hv.frozen.sizenode] at hlt
      refine ⟨q :: slots, ⟨hv.wf, hv.frozen, .cons (hv.frozen.named hv.wf hlt he).1 hv.named,
        List.pairwise_cons.mpr ⟨le_of_goesOn hv.sorted hq, hv.sorted⟩⟩, fun q' hq' hval hin hcase => ?_⟩
      rcases hcase with hpos | hfinished
      · have hle : q' ≤ q := Nat.le_of_lt_succ hpos
        rcases Nat.eq_or_lt_of_le hle with rfl | hlt'
        · exact List.mem_cons_self
        · refine List.mem_cons_of_mem q (hin (.inl ?_))
          by_contra hnot
          exact hval (hbefore q' (by omega) hlt')
      · exact List.mem_cons_of_mem q (hin (.inr hfinished))
  | write k o =>
    obtain ⟨loc, hloc, rfl⟩ := Option.map_eq_some_iff.mp hmove
    exact ⟨slots, ⟨hv.wf.setobj (hv.wf.valid hloc) o, hv.frozen.setobj o loc, hv.named, hv.sorted⟩,
      fun q _ _ hin => hin⟩
  | removeentry i =>
    obtain rfl := Option.some.inj hmove
    have hd := died_removeentry s.table i
    exact ⟨slots, ⟨hd.wf hv.wf, hv.frozen.trans hd.toFrozen, hv.named, hv.sorted⟩, fun q _ _ hin => hin⟩

theorem named_pairwise {slots : List Nat} {ks : List K} (h : Wf t)
    (hnamed : List.Forall₂ (Named t) slots ks) (hsorted : slots.Pairwise (· > ·)) :
    ks.Pairwise (fun a b => (a == b) = false) ∧ ∀ k ∈ ks, ∃ q ∈ slots, Named t q k := by
  induction hnamed with
  | nil => simp
  | @cons q k slots ks hq _ ih =>
    obtain ⟨hfirst, hsorted⟩ := List.pairwise_cons.mp hsorted
    obtain ⟨hpairwise, hslots⟩ := ih hsorted
    refine ⟨List.pairwise_cons.mpr ⟨fun k' hk' => ?_, hpairwise⟩, fun k' hk' => ?_⟩
    · obtain ⟨q', hq', hnamed⟩ := hslots k' hk'
      by_contra heq
      have hsame := hq.inj h hnamed (by simpa using heq)
      exact Nat.lt_irrefl q (hsame ▸ hfirst q' hq')
    · rcases List.mem_cons.mp hk' with rfl | hk'
      · exact ⟨q, List.mem_cons_self, hq⟩
      · obtain ⟨q', hq', hnamed⟩ := hslots k' hk'
        exact ⟨q', List.mem_cons_of_mem q hq', hnamed⟩

omit [LawfulKeys K] in
theorem exists_named {slots : List Nat} {ks : List K} (hnamed : List.Forall₂ (Named t) slots ks) :
    ∀ q ∈ slots, ∃ k ∈ ks, Named t q k := by
  induction hnamed with
  | nil => simp
  | @cons q k slots ks hq _ ih =>
    intro q' hq'
    rcases List.mem_cons.mp hq' with rfl | hq'
    · exact ⟨k, List.mem_cons_self, hq⟩
    · obtain ⟨k', hk', hnamed⟩ := ih q' hq'
      exact ⟨k', List.mem_cons_of_mem k hk', hnamed⟩

variable {start : Table K V} {narray nhash : Nat} {s : Traversal K V}

theorem visiting (h : Wf t) (hs : Reachable move (fun _ _ => True) ⟨t, [], false⟩ s) :
    ∃ slots, Visiting t s slots := by
  refine hs.invariant (I := fun s => ∃ slots, Visiting t s slots)
    ⟨[], h, ⟨rfl, rfl, fun _ => rfl, rfl, fun _ => .inl rfl⟩, .nil, .nil⟩ fun s m s' hv _ hmove => ?_
  obtain ⟨slots, hv⟩ := hv
  obtain ⟨slots', hv', -⟩ := hv.move h hmove
  exact ⟨slots', hv'⟩

/-- **A traversal visits no key twice** and never fails, whatever is written to the keys of
the table and whatever the collector removes meanwhile; it gives each key with its value. -/
theorem traversal_once (hnarray : narray ≤ MAXASIZE) (hnew : luaH_new narray nhash = .ok start)
    (h : Reachable step Allowed start t) (hs : Reachable move (fun _ _ => True) ⟨t, [], false⟩ s) :
    s.visited.Pairwise (fun a b => (a == b) = false)
      ∧ ∃ r, luaH_next s.table s.visited.head? = some r
        ∧ ∀ e, r = some e → s.table.lookup e.1 = some e.2 := by
  have hwf := reachable_wf hnarray hnew h
  obtain ⟨slots, hv⟩ := visiting hwf hs
  refine ⟨(named_pairwise hwf hv.named hv.sorted).1, ?_⟩
  rcases luaH_next_spec (hv.findindex hwf) with ⟨hnext, -⟩ | ⟨q, e, -, hlt, hnext, he, -⟩
  · exact ⟨none, hnext, fun e he => absurd he (Option.some_ne_none e).symm⟩
  · rw [hv.frozen.length, hv.frozen.sizenode] at hlt
    refine ⟨some e, hnext, fun e' he' => ?_⟩
    rw [← Option.some.inj he']
    exact (hv.frozen.named hv.wf hlt he).2

/-! The traversal of the table above. At its last key the value is removed, and the
collector kills the key. -/

def beforeBoth : Traversal Key Nat := ⟨withBoth, [], false⟩

def atOne : Traversal Key Nat := (move beforeBoth .next).getD beforeBoth

def atName : Traversal Key Nat := (move atOne .next).getD beforeBoth

def nameRemoved : Traversal Key Nat := (move atName (.write name none)).getD beforeBoth

def nameKilled : Traversal Key Nat := (move nameRemoved (.removeentry 0)).getD beforeBoth

def afterBoth : Traversal Key Nat := (move nameKilled .next).getD beforeBoth

theorem move_atOne : move beforeBoth .next = some atOne := eq_some_getD (by decide +kernel)

theorem move_atName : move atOne .next = some atName := eq_some_getD (by decide +kernel)

theorem move_nameRemoved : move atName (.write name none) = some nameRemoved :=
  eq_some_getD (by decide +kernel)

theorem move_nameKilled : move nameRemoved (.removeentry 0) = some nameKilled :=
  eq_some_getD (by decide +kernel)

theorem move_afterBoth : move nameKilled .next = some afterBoth := eq_some_getD (by decide +kernel)

/-- Both keys are visited, and the traversal goes on from the dead one. -/
theorem traversal_once_both : nameKilled.visited.length = 2
    ∧ (nameKilled.table.node 0).dead = true
    ∧ nameKilled.visited.Pairwise (fun a b => (a == b) = false)
    ∧ ∃ r, luaH_next nameKilled.table nameKilled.visited.head? = some r := by
  have hrun : Reachable move (fun _ _ => True) beforeBoth nameKilled :=
    .step (a := .removeentry 0) (.step (a := .write name none)
      (.step (a := .next) (.step (a := .next) .start trivial move_atOne) trivial move_atName)
      trivial move_nameRemoved) trivial move_nameKilled
  obtain ⟨hdistinct, r, hnext, -⟩ :=
    traversal_once (Nat.zero_le _) (rfl : luaH_new 0 0 = .ok empty) withBoth_reachable hrun
  exact ⟨by decide +kernel, by decide +kernel, hdistinct, r, hnext⟩

/-- **A traversal misses no key**: when it is finished, it has visited every key that had a
value all the time. -/
theorem traversal_complete (hnarray : narray ≤ MAXASIZE) (hnew : luaH_new narray nhash = .ok start)
    (h : Reachable step Allowed start t) {k : K}
    (hs : Reachable move (fun s _ => s.table.lookup k ≠ none) ⟨t, [], false⟩ s)
    (hfinished : s.finished = true) (hk : t.lookup k ≠ none) : ∃ k' ∈ s.visited, (k' == k) = true := by
  have hwf := reachable_wf hnarray hnew h
  have hfrozen : Frozen t t := .refl t
  obtain ⟨q, e, hlt, he, heq⟩ := hwf.exists_slot hk
  have hnamed := (hfrozen.named hwf hlt he).1
  have hinv : ∃ slots, Visiting t s slots ∧ (q < goesOn slots ∨ s.finished = true → q ∈ slots) := by
    refine hs.invariant (I := fun s => ∃ slots, Visiting t s slots
      ∧ (q < goesOn slots ∨ s.finished = true → q ∈ slots))
      ⟨[], ⟨hwf, hfrozen, .nil, .nil⟩, fun hcase => ?_⟩ fun s m s' hv hval hmove => ?_
    · rcases hcase with hpos | hfalse
      · exact absurd hpos (Nat.not_lt_zero q)
      · exact absurd hfalse Bool.false_ne_true
    · obtain ⟨slots, hv, hin⟩ := hv
      obtain ⟨slots', hv', hkept⟩ := hv.move hwf hmove
      exact ⟨slots', hv', hkept q hlt (hv.frozen.slot hwf hv.wf hnamed heq hval).1 hin⟩
  obtain ⟨slots, hv, hin⟩ := hinv
  obtain ⟨k', hk', hq⟩ := exists_named hv.named q (hin (.inr hfinished))
  exact ⟨k', hk', hq.unique hnamed ▸ heq⟩

theorem traversal_complete_one : ∃ k ∈ afterBoth.visited, (k == one) = true :=
  traversal_complete (Nat.zero_le _) (rfl : luaH_new 0 0 = .ok empty) withBoth_reachable
    (.step (a := .next) (.step (a := .removeentry 0) (.step (a := .write name none)
      (.step (a := .next) (.step (a := .next) .start (by decide +kernel) move_atOne)
        (by decide +kernel) move_atName) (by decide +kernel) move_nameRemoved)
      (by decide +kernel) move_nameKilled) (by decide +kernel) move_afterBoth)
    (by decide +kernel) (by decide +kernel)

end

/-! ## Borders -/

def MAX_INT : Nat := 2 ^ 31 - 3

/-- The binary search between `i`, zero or present, and `j`, which is not; the first argument
bounds the rounds. -/
def binarySearch (present : Nat → Bool) : Nat → Nat → Nat → Nat
  | 0, i, _ => i
  | rounds + 1, i, j =>
    if 1 < j - i then
      let m := (i + j) / 2
      if present m then binarySearch present rounds m j else binarySearch present rounds i m
    else i

def linearSearch (present : Nat → Bool) : Nat → Nat → Nat
  | 0, i => i - 1
  | rounds + 1, i => if present i then linearSearch present rounds (i + 1) else i - 1

/-- The loop of `unbound_search` that doubles `j`; `size` bounds the linear search. -/
def unboundLoop (present : Nat → Bool) (size : Nat) : Nat → Nat → Nat → Nat
  | 0, i, _ => i
  | rounds + 1, i, j =>
    if present j then
      -- the table was built with bad purposes if `j` gets too large
      if MAX_INT < 2 * j then linearSearch present size 1
      else unboundLoop present size rounds j (2 * j)
    else binarySearch present 32 i j

/-- `i` is a border: zero or present, and the next one is not. -/
def Border (present : Nat → Bool) (i : Nat) : Prop :=
  (i = 0 ∨ present i = true) ∧ present (i + 1) = false

section

variable {K V : Type} [Keys K]

/-- `!ttisnil(luaH_getnum(t, n))`. -/
def Table.present (t : Table K V) (n : Nat) : Bool := (t.lookup (numkey n)).isSome

def unbound_search (t : Table K V) (j : Nat) : Nat :=
  unboundLoop t.present (t.elements.length + 1) 32 j (j + 1)

def luaH_getn (t : Table K V) : Nat :=
  let j := t.array.length
  if 0 < j ∧ t.array.getD (j - 1) none = none then
    binarySearch (fun m => (t.array.getD (m - 1) none).isSome) 32 0 j
  else if t.dummy then j
  else unbound_search t j

variable [LawfulKeys K] {t start : Table K V} {narray nhash : Nat}

omit [LawfulKeys K] in
theorem Wf.elements_length_le (h : Wf t) : t.elements.length ≤ 2 ^ 27 := by
  have harray : (arrayEntries t.array 0 : List (K × V)).length ≤ t.array.length := by
    rw [arrayEntries_length]
    exact List.countP_le_length
  have hnodes : t.nodeEntries.length ≤ t.sizenode := by
    refine (List.length_filterMap_le ..).trans ?_
    rw [List.length_reverse, List.length_range]
  have hpow : t.sizenode ≤ 2 ^ MAXBITS := Nat.pow_le_pow_right (by omega) h.nodes
  have hsize : MAXASIZE + 2 ^ MAXBITS = 2 ^ 27 := by decide
  have hlen := h.array
  rw [Table.elements, List.length_append]
  omega

omit [LawfulKeys K] in
theorem mem_elements_of_slot {q : Nat} {e : K × V} (hq : q < t.array.length + t.sizenode)
    (he : t.slot q = some e) : e ∈ t.elements := by
  rcases Nat.lt_or_ge q t.array.length with hlt | hge
  · rw [slot_of_lt hlt] at he
    obtain ⟨v, hv, rfl⟩ := Option.map_eq_some_iff.mp he
    exact List.mem_append_left _ (mem_arrayEntries.mpr ⟨q, Nat.zero_le q, hlt, hv, rfl⟩)
  · rw [slot_of_le hge] at he
    obtain ⟨hkey, hval⟩ := held_eq_some.mp he
    exact List.mem_append_right _ (mem_nodeEntries.mpr ⟨_, by omega, hkey, hval⟩)

/-- Not all of the first integers are present. -/
theorem Wf.missing (h : Wf t) : ∃ d < t.elements.length + 1, t.present (1 + d) = false := by
  by_contra hall
  push Not at hall
  have hsub : List.range' 1 (t.elements.length + 1) ⊆ t.elements.map fun e => (arrayindex e.1).toNat := by
    intro n hn
    rw [List.mem_range'_1] at hn
    have hpresent : t.lookup (numkey n) ≠ none := by
      have hn' := hall (n - 1) (by omega)
      rw [Nat.add_sub_cancel' hn.1, Table.present] at hn'
      simpa using hn'
    obtain ⟨q, e, hq, he, heq⟩ := h.exists_slot hpresent
    have hlen := h.elements_length_le
    have hindex : arrayindex e.1 = n := by
      rw [LawfulKeys.arrayindex_congr heq, LawfulKeys.arrayindex_numkey (by omega)]
    exact List.mem_map.mpr ⟨e, mem_elements_of_slot hq he, by rw [hindex]; rfl⟩
  have hlen := (List.subperm_of_subset (List.nodup_range' 1) hsub).length_le
  rw [List.length_range', List.length_map] at hlen
  omega

end

end NostalgiaConv.HashTable
