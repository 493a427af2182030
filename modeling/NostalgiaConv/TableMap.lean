/-
`lua/ltable.c`: a table as a finite map.

`luaH_set` finds the place of a key or inserts it; when no node is free the table is
rehashed: the integer keys are counted by powers of two, the array part gets the largest
size that is more than half in use, the nodes get room for the rest, and everything is
inserted again. The file proves that this never needs to rehash within a rehash, that a
table behaves as a finite map over any run of assignments, and that an assignment fails
only when there would be more than `2 ^ MAXBITS` nodes.
-/
import Mathlib.Algebra.BigOperators.Group.Finset.Piecewise
import Mathlib.Algebra.BigOperators.Intervals
import Mathlib.Algebra.Order.BigOperators.Group.Finset
import NostalgiaConv.HashTable

set_option autoImplicit false

namespace NostalgiaConv.HashTable

open NostalgiaConv.Chains

/-! ## Rehashing -/

/-- The table `log_2` of `luaO_log2`: how many bits a number has. -/
def log_2 (x : Nat) : Nat := if x = 0 then 0 else x.log2 + 1

/-- The loop of `luaO_log2`, eight bits a round. -/
def log2Loop : Nat → Int → Nat → Int
  | 0, l, x => l + log_2 x
  | rounds + 1, l, x => if 256 ≤ x then log2Loop rounds (l + 8) (x / 256) else l + log_2 x

def luaO_log2 (x : Nat) : Int := log2Loop 4 (-1) x

def ceillog2 (x : Nat) : Nat := (luaO_log2 (x - 1) + 1).toNat

section

variable {K V : Type} [Keys K]

/-- Count a key in its slice `(2 ^ (lg - 1), 2 ^ lg]` if it is one for the array part. -/
def countint (k : K) (nums : Nat → Nat) : Nat × (Nat → Nat) :=
  if 0 < arrayindex k ∧ arrayindex k ≤ MAXASIZE then
    let lg := ceillog2 (arrayindex k).toNat
    (1, Function.update nums lg (nums lg + 1))
  else (0, nums)

/-- The loop of `numusearray` over the slices; the first argument bounds it as `MAXBITS`
does. -/
def numusearrayLoop (array : List (Option V)) :
    Nat → Nat → Nat → Nat → (Nat → Nat) → Nat × (Nat → Nat)
  | 0, _, _, ause, nums => (ause, nums)
  | slices + 1, lg, i, ause, nums =>
    let ttlg := 2 ^ lg
    let lim := min ttlg array.length
    if array.length < ttlg ∧ lim < i then (ause, nums)
    else
      let lc := ((array.drop (i - 1)).take (lim + 1 - i)).countP Option.isSome
      numusearrayLoop array slices (lg + 1) (i + (lim + 1 - i)) (ause + lc)
        (Function.update nums lg (nums lg + lc))

def numusearray (t : Table K V) (nums : Nat → Nat) : Nat × (Nat → Nat) :=
  numusearrayLoop t.array (MAXBITS + 1) 0 1 0 nums

/-- What node `i` holds. -/
def Table.held (t : Table K V) (i : Nat) : Option (K × V) :=
  (t.node i).val.bind fun v => (t.node i).key.map fun k => (k, v)

/-- The entries of the nodes, from the last to the first. -/
def Table.nodeEntries (t : Table K V) : List (K × V) :=
  (List.range t.sizenode).reverse.filterMap t.held

/-- The loop of `numusehash`: how many entries, how many of them for the array part. -/
def numusehash (t : Table K V) (nums : Nat → Nat) : Nat × Nat × (Nat → Nat) :=
  t.nodeEntries.foldl (fun s e =>
    let c := countint e.1 s.2.2
    (s.1 + 1, s.2.1 + c.1, c.2)) (0, 0, nums)

/-- The loop of `computesizes`: `a` elements so far, of which `na` go to an array part of
size `n`. -/
def computesizesLoop (nums : Nat → Nat) (narray : Nat) :
    Nat → Nat → Nat → Nat → Nat → Nat × Nat
  | 0, _, _, na, n => (na, n)
  | rounds + 1, i, a, na, n =>
    if 2 ^ i / 2 < narray then
      let a := a + nums i
      let better := 0 < nums i ∧ 2 ^ i / 2 < a
      let na := if better then a else na
      let n := if better then 2 ^ i else n
      if a = narray then (na, n) else computesizesLoop nums narray rounds (i + 1) a na n
    else (na, n)

def computesizes (nums : Nat → Nat) (narray : Nat) : Nat × Nat :=
  computesizesLoop nums narray (MAXBITS + 1) 0 0 0 0

def setarrayvector (t : Table K V) (size : Nat) : Table K V :=
  { t with array := t.array ++ List.replicate (size - t.array.length) none }

def setnodevector (t : Table K V) (size : Nat) : Except Failure (Table K V) :=
  if size = 0 then
    .ok { t with lsizenode := 0, node := fun _ => .empty, dummy := true, lastfree := 0 }
  else if MAXBITS < ceillog2 size then .error .overflow
  else
    .ok { t with lsizenode := ceillog2 size, node := fun _ => .empty, dummy := false,
                 lastfree := 2 ^ ceillog2 size }

/-- The elements of the array part from `start` on, with their keys. -/
def arrayEntries (array : List (Option V)) (start : Nat) : List (K × V) :=
  (List.range' start (array.length - start)).filterMap fun i =>
    (array.getD i none).map fun v => (numkey (i + 1), v)

/-- Elements inserted again, by `set`. -/
def reinsert (set : Table K V → K → Except Failure (Loc × Table K V)) (t : Table K V)
    (es : List (K × V)) : Except Failure (Table K V) :=
  es.foldlM (fun t e => (set t e.1).map fun r => r.2.setobj (some e.2) r.1) t

def resize (set : Table K V → K → Except Failure (Loc × Table K V)) (t : Table K V)
    (nasize nhsize : Nat) : Except Failure (Table K V) := do
  let old := t
  let t := if old.array.length < nasize then setarrayvector t nasize else t
  let t ← setnodevector t nhsize
  let t ←
    if nasize < old.array.length then
      -- the vanishing slice
      reinsert set { t with array := t.array.take nasize } (arrayEntries old.array nasize)
    else .ok t
  reinsert set t old.nodeEntries

def rehash (set : Table K V → K → Except Failure (Loc × Table K V)) (t : Table K V) (ek : K) :
    Except Failure (Table K V) :=
  let a := numusearray t fun _ => 0
  let h := numusehash t a.2
  let e := countint ek h.2.2
  let totaluse := a.1 + h.1 + 1
  let sizes := computesizes e.2 (a.1 + h.2.1 + e.1)
  resize set t sizes.2 (totaluse - sizes.1)

/-- What `newkey` does without a free node: grow the table, insert the key again. -/
def grow (set : Table K V → K → Except Failure (Loc × Table K V)) (k : K) (t : Table K V) :
    Except Failure (Loc × Table K V) :=
  (rehash set t k).bind fun t => set t k

/-- `luaH_set`; the first argument bounds the nesting of its calls. -/
def luaH_set : Nat → Table K V → K → Except Failure (Loc × Table K V)
  | 0, _, _ => .error .deep
  | depth + 1, t, k =>
    match luaH_get t k with
    | some loc => .ok (loc, t)
    | none => newkey (grow (luaH_set depth) k) t k

def luaH_resizearray (t : Table K V) (nasize : Nat) : Except Failure (Table K V) :=
  resize (luaH_set 2) t nasize t.capacity

def luaH_new (narray nhash : Nat) : Except Failure (Table K V) :=
  setnodevector (setarrayvector ⟨[], 0, fun _ => .empty, true, 0⟩ narray) nhash

/-- `t[k] = o`. -/
def assign (t : Table K V) (k : K) (o : Option V) : Except Failure (Table K V) :=
  (luaH_set 2 t k).map fun r => r.2.setobj o r.1

end

section

variable {K V : Type} [Keys K] [LawfulKeys K]

variable {t t' : Table K V} {i j : Nat} {k k' : K} {v : V}

/-! ## Reading and writing -/

omit [LawfulKeys K] in
theorem inarray_eq_some : t.inarray k = some i ↔ arrayindex k = i + 1 ∧ i < t.array.length := by
  rw [Table.inarray]
  split_ifs with hin
  · simp only [Option.some.injEq]
    omega
  · simp only [false_iff]
    omega

theorem luaH_get_congr (t : Table K V) (heq : (k == k') = true) : luaH_get t k = luaH_get t k' := by
  have hholds : (fun i => (t.node i).holds k) = fun i => (t.node i).holds k' := by
    funext i
    rw [Node.holds, Node.holds]
    congr 2
    funext k₁
    exact BEq.congr_right heq
  rw [luaH_get, luaH_get, inarray_congr t heq, Table.search, Table.search, hholds,
    mainposition_congr t heq]

/-- A place is that of one key. -/
theorem Linked.luaH_get_inj (h : Linked t) {loc : Loc} (hk : luaH_get t k = some loc)
    (hk' : luaH_get t k' = some loc) : (k' == k) = true := by
  rw [luaH_get] at hk hk'
  cases ha : t.inarray k with
  | some i =>
    rw [ha] at hk
    obtain rfl := Option.some.inj hk
    cases ha' : t.inarray k' with
    | none => simp [ha'] at hk'
    | some i' =>
      obtain rfl : i' = i := by simpa [ha'] using hk'
      have hindex := (inarray_eq_some.mp ha).1
      have hindex' := (inarray_eq_some.mp ha').1
      have hcast := LawfulKeys.numkey_arrayindex (k := k) (by omega)
      have hcast' := LawfulKeys.numkey_arrayindex (k := k') (by omega)
      rw [hindex, ← hindex'] at hcast
      exact BEq.trans (BEq.symm hcast') hcast
  | none =>
    cases ha' : t.inarray k' with
    | some i' =>
      rw [ha'] at hk'
      rw [← Option.some.inj hk'] at hk
      simp [ha] at hk
    | none =>
      obtain ⟨i, hi, rfl⟩ : ∃ i, t.search k = some i ∧ Loc.node i = loc := by simpa [ha] using hk
      have hi' : t.search k' = some i := by simpa [ha'] using hk'
      obtain ⟨-, k₁, hk₁, heq⟩ := Node.holds_iff.mp (h.of_search hi).2
      obtain ⟨-, k₂, hk₂, heq'⟩ := Node.holds_iff.mp (h.of_search hi').2
      rw [Option.some.inj (hk₁.symm.trans hk₂)] at heq
      exact BEq.trans (BEq.symm heq') heq

/-- A place that can be written. -/
def Valid (t : Table K V) : Loc → Prop
  | .array i => i < t.array.length
  | .node i => i < t.sizenode ∧ (t.node i).key ≠ none ∧ (t.node i).dead = false

theorem Linked.valid (h : Linked t) {loc : Loc} (hk : luaH_get t k = some loc) : Valid t loc := by
  rw [luaH_get] at hk
  cases ha : t.inarray k with
  | some i =>
    rw [ha] at hk
    rw [← Option.some.inj hk]
    exact (inarray_eq_some.mp ha).2
  | none =>
    obtain ⟨i, hi, rfl⟩ : ∃ i, t.search k = some i ∧ Loc.node i = loc := by simpa [ha] using hk
    obtain ⟨hlt, hholds⟩ := h.of_search hi
    obtain ⟨hdead, k', hkey, -⟩ := Node.holds_iff.mp hholds
    exact ⟨hlt, by simp [hkey], hdead⟩

section

omit [Keys K] [LawfulKeys K]

variable (t) (o : Option V) (loc : Loc)

theorem setobj_key (i : Nat) : ((t.setobj o loc).node i).key = (t.node i).key := by
  cases loc with
  | array j => rfl
  | node j => by_cases hij : i = j <;> simp [Table.setobj, hij]

theorem setobj_dead (i : Nat) : ((t.setobj o loc).node i).dead = (t.node i).dead := by
  cases loc with
  | array j => rfl
  | node j => by_cases hij : i = j <;> simp [Table.setobj, hij]

theorem setobj_gnext : (t.setobj o loc).gnext = t.gnext := by
  funext i
  cases loc with
  | array j => rfl
  | node j => by_cases hij : i = j <;> simp [Table.setobj, Table.gnext, hij]

theorem setobj_lsizenode : (t.setobj o loc).lsizenode = t.lsizenode := by cases loc <;> rfl

theorem setobj_sizenode : (t.setobj o loc).sizenode = t.sizenode := by cases loc <;> rfl

theorem setobj_length : (t.setobj o loc).array.length = t.array.length := by
  cases loc with
  | array j => exact List.length_set
  | node j => rfl

theorem setobj_dummy : (t.setobj o loc).dummy = t.dummy := by cases loc <;> rfl

theorem setobj_lastfree : (t.setobj o loc).lastfree = t.lastfree := by cases loc <;> rfl

variable {t loc}

theorem val_setobj (h : Valid t loc) (loc' : Loc) :
    (t.setobj o loc).val loc' = if loc' = loc then o else t.val loc' := by
  cases loc with
  | array i =>
    cases loc' with
    | array j =>
      have hi : i < t.array.length := h
      by_cases hij : j = i
      · simp [Table.setobj, Table.val, hij, hi]
      · simp [Table.setobj, Table.val, hij, List.getD_eq_getElem?_getD, List.getElem?_set_ne (Ne.symm hij)]
    | node j => simp [Table.setobj, Table.val]
  | node i =>
    cases loc' with
    | array j => simp [Table.setobj, Table.val]
    | node j => by_cases hij : j = i <;> simp [Table.setobj, Table.val, hij]

end

section

omit [LawfulKeys K]

variable (t) (o : Option V) (loc : Loc)

theorem setobj_mainposition (k : K) : (t.setobj o loc).mainposition k = t.mainposition k := by
  rw [Table.mainposition, setobj_lsizenode, Table.mainposition]

theorem setobj_inarray (k : K) : (t.setobj o loc).inarray k = t.inarray k := by
  rw [Table.inarray, setobj_length, Table.inarray]

theorem setobj_known (i : Nat) (k : K) : ((t.setobj o loc).node i).known k = (t.node i).known k := by
  simp only [Node.known, Node.holds, setobj_key, setobj_dead]

/-- A write moves no key. -/
theorem luaH_get_setobj (k : K) : luaH_get (t.setobj o loc) k = luaH_get t k := by
  simp only [luaH_get, setobj_inarray, Table.search, setobj_gnext, Node.holds, setobj_key, setobj_dead,
    setobj_sizenode, setobj_mainposition]

end

/-- **What is written is read**, under every spelling of the key, and nothing else changes. -/
theorem Linked.lookup_setobj (h : Linked t) {loc : Loc} (hk : luaH_get t k = some loc)
    (o : Option V) (k' : K) :
    (t.setobj o loc).lookup k' = if (k' == k) = true then o else t.lookup k' := by
  rw [Table.lookup, luaH_get_setobj, Table.lookup]
  by_cases heq : (k' == k) = true
  · rw [luaH_get_congr t heq, hk, if_pos heq, Option.bind_some, val_setobj o (h.valid hk), if_pos rfl]
  · rw [if_neg heq]
    cases hk' : luaH_get t k' with
    | none => rfl
    | some loc' =>
      have hne : loc' ≠ loc := by
        rintro rfl
        exact heq (h.luaH_get_inj hk hk')
      rw [Option.bind_some, Option.bind_some, val_setobj o (h.valid hk), if_neg hne]

omit [LawfulKeys K] in
theorem Wf.setobj (h : Wf t) {loc : Loc} (hvalid : Valid t loc) (o : Option V) : Wf (t.setobj o loc) where
  free := by
    intro i hi hkey
    rw [setobj_sizenode] at hi
    rw [setobj_key] at hkey
    rw [setobj_gnext]
    obtain ⟨hlink, hval⟩ := h.free i hi hkey
    refine ⟨hlink, ?_⟩
    have hne : Loc.node i ≠ loc := by
      rintro rfl
      exact hvalid.2.1 hkey
    have hval' := val_setobj o hvalid (.node i)
    rw [if_neg hne] at hval'
    exact hval'.trans hval
  link := by simpa only [setobj_sizenode, setobj_gnext, setobj_key] using h.link
  inj := by simpa only [setobj_sizenode, setobj_gnext] using h.inj
  ends := by simpa only [setobj_sizenode, setobj_gnext, setobj_key] using h.ends
  main := by simpa only [setobj_sizenode, setobj_key, setobj_mainposition] using h.main
  reach := by
    simpa only [setobj_sizenode, setobj_gnext, setobj_key, setobj_dead, setobj_mainposition,
      setobj_known] using h.reach
  array := by simpa only [setobj_length] using h.array
  nodes := by simpa only [setobj_lsizenode] using h.nodes
  lastfree := by simpa only [setobj_sizenode, setobj_lastfree] using h.lastfree
  keyed := by simpa only [setobj_sizenode, setobj_lastfree, setobj_key, setobj_dummy] using h.keyed
  dummy := by simpa only [setobj_sizenode, setobj_lastfree, setobj_key, setobj_dummy] using h.dummy
  live := by
    intro i hi hval
    rw [setobj_sizenode] at hi
    rw [setobj_dead]
    have hval' := val_setobj o hvalid (.node i)
    by_cases hloc : Loc.node i = loc
    · subst hloc
      exact hvalid.2.2
    · rw [if_neg hloc] at hval'
      exact h.live i hi fun hnone => hval (hval'.trans hnone)
  outside := by simpa only [setobj_sizenode, setobj_key, setobj_inarray] using h.outside
  apart := by simpa only [setobj_sizenode, setobj_key, setobj_dead] using h.apart

end

/-! ## Counting -/

theorem log_2_le (x m : Nat) : log_2 x ≤ m ↔ x < 2 ^ m := by
  rw [log_2]
  split_ifs with hx
  · exact ⟨fun _ => hx ▸ Nat.two_pow_pos m, fun _ => Nat.zero_le m⟩
  · rw [← Nat.lt_iff_add_one_le, Nat.log2_lt hx]

theorem log2Loop_le (rounds : Nat) : ∀ (l : Int) (x m : Nat),
    log2Loop rounds l x ≤ l + m ↔ x < 2 ^ m := by
  have hlast : ∀ (l : Int) (x m : Nat), l + (log_2 x : Int) ≤ l + m ↔ x < 2 ^ m := by
    intro l x m
    rw [← log_2_le]
    omega
  induction rounds with
  | zero => exact hlast
  | succ rounds ih =>
    intro l x m
    rw [log2Loop]
    split_ifs with hx
    · rcases Nat.lt_or_ge m 8 with hm | hm
      · -- a number with more than eight bits
        have hpow : 2 ^ m < 2 ^ 8 := Nat.pow_lt_pow_right (by omega) hm
        have hno := (ih (l + 8) (x / 256) 0).not.mpr (by omega)
        constructor <;> intro h <;> omega
      · obtain ⟨d, rfl⟩ := Nat.exists_eq_add_of_le hm
        have hstep := ih (l + 8) (x / 256) d
        rw [Nat.div_lt_iff_lt_mul (by omega), Nat.mul_comm] at hstep
        rw [Nat.pow_add]
        push_cast at hstep ⊢
        rw [← hstep]
        constructor <;> intro h <;> omega
    · exact hlast l x m

theorem ceillog2_le {x : Nat} (hx : 0 < x) (m : Nat) : ceillog2 x ≤ m ↔ x ≤ 2 ^ m := by
  have h := log2Loop_le 4 (-1) (x - 1) m
  rw [ceillog2, luaO_log2, Int.toNat_le]
  omega

/-- The elements in the slices up to `(2 ^ (m - 1), 2 ^ m]`. -/
def upto (nums : Nat → Nat) (m : Nat) : Nat := ∑ j ∈ Finset.range (m + 1), nums j

theorem upto_succ (nums : Nat → Nat) (m : Nat) : upto nums (m + 1) = upto nums m + nums (m + 1) :=
  Finset.sum_range_succ _ _

theorem upto_congr {nums nums' : Nat → Nat} {m : Nat} (h : ∀ j ≤ m, nums' j = nums j) :
    upto nums' m = upto nums m :=
  Finset.sum_congr rfl fun j hj => h j (Nat.le_of_lt_succ (Finset.mem_range.mp hj))

theorem upto_update (nums : Nat → Nat) (lg c m : Nat) :
    upto (Function.update nums lg (nums lg + c)) m = upto nums m + if lg ≤ m then c else 0 := by
  rw [upto, upto]
  split_ifs with hle
  · have hmem : lg ∈ Finset.range (m + 1) := Finset.mem_range.mpr (Nat.lt_succ_of_le hle)
    rw [Finset.sum_update_of_mem hmem, ← Finset.add_sum_erase _ _ hmem, Finset.sdiff_singleton_eq_erase]
    omega
  · refine Finset.sum_congr rfl fun j hj => Function.update_of_ne (fun heq => hle ?_) _ _
    exact heq ▸ Nat.le_of_lt_succ (Finset.mem_range.mp hj)

/-- The elements among the first `n` of the array part. -/
def inuse {V : Type} (array : List (Option V)) (n : Nat) : Nat := (array.take n).countP Option.isSome

theorem inuse_add {V : Type} (array : List (Option V)) (d c : Nat) :
    inuse array d + ((array.drop d).take c).countP Option.isSome = inuse array (d + c) := by
  rw [inuse, inuse, List.take_add, List.countP_append]

theorem inuse_of_le {V : Type} {array : List (Option V)} {n : Nat} (hn : array.length ≤ n) :
    inuse array n = inuse array array.length := by
  rw [inuse, inuse, List.take_of_length_le hn, List.take_length]

theorem inuse_min {V : Type} (array : List (Option V)) (n : Nat) :
    inuse array (min n array.length) = inuse array n := by
  rcases Nat.le_total n array.length with h | h
  · rw [Nat.min_eq_left h]
  · rw [Nat.min_eq_right h, inuse_of_le h]

/-- The counts of `numusearray`, slice by slice, from where the slice `lg` begins. -/
theorem numusearrayLoop_spec {V : Type} (array : List (Option V)) (slices : Nat) :
    ∀ (lg ause : Nat) (nums : Nat → Nat), array.length ≤ 2 ^ (lg + slices) / 2 →
      (numusearrayLoop array slices lg (min (2 ^ lg / 2) array.length + 1) ause nums).1
          + inuse array (2 ^ lg / 2) = ause + inuse array array.length
      ∧ (∀ m < lg,
        (numusearrayLoop array slices lg (min (2 ^ lg / 2) array.length + 1) ause nums).2 m = nums m)
      ∧ ∀ m, lg ≤ m → m < lg + slices →
        upto (numusearrayLoop array slices lg (min (2 ^ lg / 2) array.length + 1) ause nums).2 m
          + inuse array (2 ^ lg / 2) = upto nums m + inuse array (2 ^ m) := by
  induction slices with
  | zero =>
    intro lg ause nums hlen
    refine ⟨?_, fun m hm => rfl, fun m hm hm' => absurd hm' (by omega)⟩
    rw [inuse_of_le (n := 2 ^ lg / 2) hlen]
    rfl
  | succ slices ih =>
    intro lg ause nums hlen
    have hhalf : 2 ^ (lg + 1) / 2 = 2 ^ lg := by rw [Nat.pow_succ, Nat.mul_div_cancel _ (by omega)]
    rw [numusearrayLoop]
    dsimp only
    split_ifs with hbreak
    · -- no more elements to count
      have hle : array.length ≤ 2 ^ lg / 2 := by omega
      refine ⟨by rw [inuse_of_le hle], fun m hm => rfl, fun m hm hm' => ?_⟩
      have hpow : 2 ^ lg ≤ 2 ^ m := Nat.pow_le_pow_right (by omega) hm
      rw [inuse_of_le hle, inuse_of_le (n := 2 ^ m) (by omega)]
    · have hge : 2 ^ lg / 2 ≤ array.length := by omega
      have hlim : 2 ^ lg / 2 ≤ min (2 ^ lg) array.length :=
        Nat.le_min.mpr ⟨Nat.div_le_self _ _, hge⟩
      have hcount : min (2 ^ lg) array.length + 1 - (2 ^ lg / 2 + 1)
          = min (2 ^ lg) array.length - 2 ^ lg / 2 := Nat.add_sub_add_right _ _ _
      have hnext : 2 ^ lg / 2 + 1 + (min (2 ^ lg) array.length - 2 ^ lg / 2)
          = min (2 ^ (lg + 1) / 2) array.length + 1 := by
        rw [hhalf, Nat.add_right_comm, Nat.add_sub_cancel' hlim]
      -- this slice has as many as the two counts differ by
      have hadd := inuse_add array (2 ^ lg / 2) (min (2 ^ lg) array.length - 2 ^ lg / 2)
      rw [Nat.add_sub_cancel' hlim, inuse_min] at hadd
      rw [Nat.min_eq_left hge, hcount, hnext, Nat.add_sub_cancel]
      generalize List.countP _ _ = lc at hadd ⊢
      obtain ⟨hause, hbelow, habove⟩ := ih (lg + 1) (ause + lc) (Function.update nums lg (nums lg + lc))
        (by rwa [Nat.add_right_comm, Nat.add_assoc])
      rw [hhalf] at hause habove hbelow ⊢
      refine ⟨by omega, fun m hm => ?_, fun m hm hm' => ?_⟩
      · rw [hbelow m (by omega), Function.update_of_ne (by omega)]
      · rcases Nat.eq_or_lt_of_le hm with rfl | hlt
        · have hsame := upto_congr (m := lg) fun j hj => hbelow j (Nat.lt_succ_of_le hj)
          rw [hsame, upto_update, if_pos (Nat.le_refl _)]
          omega
        · have hm := habove m hlt (by omega)
          rw [upto_update, if_pos (Nat.le_of_lt hlt)] at hm
          omega

theorem numusearray_spec {K V : Type} {t : Table K V} (h : t.array.length ≤ MAXASIZE) :
    (numusearray t fun _ => 0).1 = inuse t.array t.array.length
      ∧ ∀ m ≤ MAXBITS, upto (numusearray t fun _ => 0).2 m = inuse t.array (2 ^ m) := by
  have hsize : 2 ^ (0 + (MAXBITS + 1)) / 2 = MAXASIZE := by decide
  have hspec := numusearrayLoop_spec t.array (MAXBITS + 1) 0 0 (fun _ => 0) (hsize ▸ h)
  have hzero : min (2 ^ 0 / 2) t.array.length + 1 = 1 := by simp
  have hnone : inuse t.array (2 ^ 0 / 2) = 0 := by simp [inuse]
  rw [hzero, hnone] at hspec
  rw [numusearray]
  refine ⟨by simpa using hspec.1, fun m hm => ?_⟩
  have hm := hspec.2.2 m (Nat.zero_le _) (by omega)
  simpa [upto] using hm

section

variable {K V : Type} [Keys K]

/-- A key for an array part of size `n`. -/
def low (n : Nat) (k : K) : Bool := decide (0 < arrayindex k ∧ arrayindex k ≤ n)

theorem countint_spec (k : K) (nums : Nat → Nat) :
    (countint k nums).1 = (if low MAXASIZE k then 1 else 0)
      ∧ ∀ m ≤ MAXBITS, upto (countint k nums).2 m = upto nums m + if low (2 ^ m) k then 1 else 0 := by
  rw [countint]
  split_ifs with hin hlow hlow
  · refine ⟨rfl, fun m hm => ?_⟩
    have hceil := ceillog2_le (x := (arrayindex k).toNat) (by omega) m
    have hiff : ceillog2 (arrayindex k).toNat ≤ m ↔ low (2 ^ m) k = true := by
      rw [hceil, low, decide_eq_true_iff]
      generalize 2 ^ m = n
      omega
    rw [upto_update]
    simp only [hiff]
  · exact absurd (decide_eq_true hin) hlow
  · exact absurd (of_decide_eq_true hlow) hin
  · refine ⟨rfl, fun m hm => ?_⟩
    have hno : ¬ low (2 ^ m) k = true := by
      rw [low, decide_eq_true_iff] at hlow ⊢
      have hpow : 2 ^ m ≤ MAXASIZE := Nat.pow_le_pow_right (by omega) hm
      omega
    rw [if_neg hno]
    rfl

theorem numusehash_spec (t : Table K V) (nums : Nat → Nat) :
    (numusehash t nums).1 = t.nodeEntries.length
      ∧ (numusehash t nums).2.1 = t.nodeEntries.countP (fun e => low MAXASIZE e.1)
      ∧ ∀ m ≤ MAXBITS, upto (numusehash t nums).2.2 m
        = upto nums m + t.nodeEntries.countP (fun e => low (2 ^ m) e.1) := by
  have hfold : ∀ (es : List (K × V)) (a b : Nat) (nums : Nat → Nat),
      let s := es.foldl (fun s e => let c := countint e.1 s.2.2; (s.1 + 1, s.2.1 + c.1, c.2)) (a, b, nums)
      s.1 = a + es.length ∧ s.2.1 = b + es.countP (fun e => low MAXASIZE e.1)
        ∧ ∀ m ≤ MAXBITS, upto s.2.2 m = upto nums m + es.countP (fun e => low (2 ^ m) e.1) := by
    intro es
    induction es with
    | nil => intro a b nums; exact ⟨rfl, rfl, fun m hm => rfl⟩
    | cons e es ih =>
      intro a b nums
      obtain ⟨hone, hupto⟩ := countint_spec e.1 nums
      obtain ⟨hall, hause, hrest⟩ := ih (a + 1) (b + (countint e.1 nums).1) (countint e.1 nums).2
      refine ⟨?_, ?_, fun m hm => ?_⟩
      · rw [List.foldl_cons, hall, List.length_cons]
        omega
      · rw [List.foldl_cons, hause, hone, List.countP_cons]
        omega
      · rw [List.foldl_cons, hrest m hm, hupto m hm, List.countP_cons]
        omega
  have hspec := hfold t.nodeEntries 0 0 nums
  simp only [Nat.zero_add] at hspec
  exact hspec

end

/-! ### The size of the array part -/

/-- `n` is the largest power of two up to `2 ^ (i - 1)` with more than half of the keys
1..n present, and `na` of them are. -/
structure Chosen (nums : Nat → Nat) (i na n : Nat) : Prop where
  size : n = 0 ∧ na = 0 ∨ ∃ m ≤ MAXBITS, n = 2 ^ m ∧ na = upto nums m ∧ 2 ^ m / 2 < na
  best : ∀ m < i, 2 ^ m / 2 < upto nums m → 2 ^ m ≤ n

theorem upto_mono (nums : Nat → Nat) {m m' : Nat} (h : m ≤ m') : upto nums m ≤ upto nums m' :=
  Finset.sum_le_sum_of_subset (Finset.range_mono (Nat.succ_le_succ h))

theorem half_le {i m : Nat} (h : i < m) : 2 ^ i ≤ 2 ^ m / 2 := by
  have hpow : 2 ^ (i + 1) ≤ 2 ^ m := Nat.pow_le_pow_right (by omega) h
  rw [Nat.pow_succ] at hpow
  omega

variable {nums : Nat → Nat} {narray : Nat}

theorem Chosen.next {i na n : Nat} (h : Chosen nums i na n) (hi : i ≤ MAXBITS)
    (hslots : ∀ m ≤ MAXBITS, upto nums m ≤ 2 ^ m) :
    Chosen nums (i + 1) (if 0 < nums i ∧ 2 ^ i / 2 < upto nums i then upto nums i else na)
      (if 0 < nums i ∧ 2 ^ i / 2 < upto nums i then 2 ^ i else n) := by
  split_ifs with hbetter
  · refine ⟨.inr ⟨i, hi, rfl, rfl, hbetter.2⟩, fun m hm _ => ?_⟩
    exact Nat.pow_le_pow_right (by omega) (Nat.le_of_lt_succ hm)
  · refine ⟨h.size, fun m hm hhalf => ?_⟩
    rcases Nat.lt_succ_iff_lt_or_eq.mp hm with hm | rfl
    · exact h.best m hm hhalf
    · -- a slice with nothing in it: half of it cannot be more than all below
      exfalso
      have hempty : nums m = 0 := by omega
      cases m with
      | zero => simp [upto, hempty] at hhalf
      | succ m =>
        rw [upto_succ, hempty] at hhalf
        have hle := hslots m (by omega)
        have hle' := half_le (Nat.lt_succ_self m)
        omega

theorem computesizesLoop_spec (hall : upto nums MAXBITS = narray)
    (hslots : ∀ m ≤ MAXBITS, upto nums m ≤ 2 ^ m) (rounds : Nat) :
    ∀ (i a na n : Nat), i + rounds = MAXBITS + 1 → a = ∑ j ∈ Finset.range i, nums j →
      Chosen nums i na n →
      Chosen nums (MAXBITS + 1) (computesizesLoop nums narray rounds i a na n).1
        (computesizesLoop nums narray rounds i a na n).2 := by
  induction rounds with
  | zero =>
    rintro i a na n hi - h
    rw [← hi]
    exact h
  | succ rounds ih =>
    intro i a na n hi ha h
    have ha' : a + nums i = upto nums i := by rw [ha, upto, Finset.sum_range_succ]
    have hle : ∀ m ≤ MAXBITS, upto nums m ≤ narray := fun m hm => hall ▸ upto_mono nums hm
    rw [computesizesLoop]
    dsimp only
    rw [ha']
    have hnext := h.next (by omega) hslots
    generalize (if 0 < nums i ∧ 2 ^ i / 2 < upto nums i then upto nums i else na) = na' at hnext ⊢
    generalize (if 0 < nums i ∧ 2 ^ i / 2 < upto nums i then 2 ^ i else n) = n' at hnext ⊢
    split_ifs with hcond hcounted
    · -- all elements already counted
      refine ⟨hnext.size, fun m hm hhalf => ?_⟩
      rcases Nat.lt_or_ge m (i + 1) with hlt | hge
      · exact hnext.best m hlt hhalf
      · have h₁ := hle m (by omega)
        have h₂ := hslots i (by omega)
        have h₃ := half_le (Nat.lt_of_succ_le hge)
        omega
    · exact ih (i + 1) _ _ _ (by omega) rfl hnext
    · -- no size from here on can be more than half full
      refine ⟨h.size, fun m hm hhalf => ?_⟩
      rcases Nat.lt_or_ge m i with hlt | hge
      · exact h.best m hlt hhalf
      · have h₁ := hle m (by omega)
        have hpow : 2 ^ i ≤ 2 ^ m := Nat.pow_le_pow_right (by omega) hge
        omega

theorem computesizes_spec (hall : upto nums MAXBITS = narray)
    (hslots : ∀ m ≤ MAXBITS, upto nums m ≤ 2 ^ m) :
    Chosen nums (MAXBITS + 1) (computesizes nums narray).1 (computesizes nums narray).2 :=
  computesizesLoop_spec hall hslots (MAXBITS + 1) 0 0 0 0 (by omega) rfl
    ⟨.inl ⟨rfl, rfl⟩, fun m hm => absurd hm (Nat.not_lt_zero m)⟩

/-! ## Elements inserted again -/

section

variable {K V : Type} [Keys K] [LawfulKeys K]

variable {t t' : Table K V} {i j p : Nat} {k k' : K} {v : V} {loc : Loc} {P : K → Prop}

omit [LawfulKeys K] in
theorem inarray_eq_none : t.inarray k = none ↔ low t.array.length k = false := by
  rw [Table.inarray, low]
  split_ifs with hin <;> simp [hin]

omit [LawfulKeys K] in
theorem lookup_of_inarray (h : t.inarray k = some i) : t.lookup k = t.array.getD i none := by
  rw [Table.lookup, luaH_get, h]
  rfl

omit [LawfulKeys K] in
theorem lookup_of_outside (h : t.inarray k = none) :
    t.lookup k = (t.search k).bind fun i => (t.node i).val := by
  rw [Table.lookup, luaH_get, h]
  cases t.search k <;> rfl

/-- Outside of the array part, what is read is what the nodes hold. -/
theorem Wf.lookup_eq_some (h : Wf t) (hout : t.inarray k = none) :
    t.lookup k = some v ↔ ∃ k', Entry t k' v ∧ (k' == k) = true := by
  rw [lookup_of_outside hout, Option.bind_eq_some_iff]
  constructor
  · rintro ⟨i, hi, hval⟩
    obtain ⟨hlt, hholds⟩ := h.of_search hi
    obtain ⟨-, k', hkey, heq⟩ := Node.holds_iff.mp hholds
    exact ⟨k', ⟨i, hlt, hkey, hval⟩, heq⟩
  · rintro ⟨k', ⟨i, hlt, hkey, hval⟩, heq⟩
    have hlive := h.live i hlt (by simp [hval])
    exact ⟨i, h.search hlt (Node.holds_iff.mpr ⟨hlive, k', hkey, heq⟩), hval⟩

theorem Inserted.lookup (hs : Inserted t t' p k) (h : Wf t) (h' : Wf t') (k' : K) :
    t'.lookup k' = t.lookup k' := by
  have hin := inarray_of_array hs.array k'
  cases ha : t.inarray k' with
  | some i => rw [lookup_of_inarray ha, lookup_of_inarray (hin.trans ha), hs.array]
  | none =>
    refine Option.ext fun v => ?_
    simp only [h'.lookup_eq_some (hin.trans ha), h.lookup_eq_some ha, hs.entry_iff]

/-- What `luaH_set` returns: the place of the key in a table that reads as before. -/
structure Placed (t : Table K V) (k : K) (loc : Loc) (t' : Table K V) : Prop where
  wf : Wf t'
  place : luaH_get t' k = some loc
  lookup : ∀ k', t'.lookup k' = t.lookup k'

/-- All keys that are not dead meet `P`. -/
def Keyed (P : K → Prop) (t : Table K V) : Prop :=
  ∀ i < t.sizenode, ∀ k, (t.node i).key = some k → (t.node i).dead = false → P k

theorem Inserted.place (hs : Inserted t t' p k) (hout : t.inarray k = none) :
    luaH_get t' k = some (.node p) := by
  have hnew := hs.new
  simp only [Node.entry, Prod.mk.injEq] at hnew
  have hholds : (t'.node p).holds k = true :=
    Node.holds_iff.mpr ⟨hnew.2.1, k, hnew.1, BEq.refl k⟩
  rw [luaH_get, (inarray_of_array hs.array k).trans hout, hs.search (hs.sizenode.symm ▸ hs.lt) hholds]
  rfl

omit [LawfulKeys K] in
theorem Inserted.keyed (hs : Inserted t t' p k) (hk : P k) (h : Keyed P t) : Keyed P t' := by
  intro i hi k' hkey hdead
  rw [hs.sizenode] at hi
  rcases hs.of_key hi hkey with rfl | ⟨j, hj, hkey', hdead'⟩
  · exact hk
  · exact h j hj k' hkey' (hdead' ▸ hdead)

omit [LawfulKeys K] in
theorem Inserted.capacity (hs : Inserted t t' p k) : t'.capacity = t.capacity := by
  rw [Table.capacity, hs.dummy, hs.sizenode, Table.capacity]

/-- Where there is room, a key is placed without a rehash. -/
theorem Wf.luaH_set_room (h : Wf t) (hfresh : Fresh t k)
    (hroom : low t.array.length k = false → used t < t.capacity) (depth : Nat) :
    ∃ loc t', luaH_set (depth + 1) t k = .ok (loc, t') ∧ Placed t k loc t' ∧ t'.array = t.array
      ∧ t'.capacity = t.capacity ∧ used t' ≤ used t + (if !low t.array.length k then 1 else 0)
      ∧ ∀ P : K → Prop, P k → Keyed P t → Keyed P t' := by
  rw [HashTable.luaH_set]
  cases hget : luaH_get t k with
  | some loc =>
    exact ⟨loc, t, rfl, ⟨h, hget, fun _ => rfl⟩, rfl, rfl, Nat.le_add_right _ _, fun _ _ => id⟩
  | none =>
    have hout := (luaH_get_eq_none.mp hget).1
    have hlow := inarray_eq_none.mp hout
    rcases h.newkey hget hfresh _ with ⟨p, t', heq, hs, hwf⟩ | ⟨-, hfull, -⟩
    · refine ⟨.node p, t', heq, ⟨hwf, hs.place hout, hs.lookup h hwf⟩, hs.array, hs.capacity, ?_,
        fun P hk hP => hs.keyed hk hP⟩
      simpa [hlow] using hs.used_le
    · exact absurd (hroom hlow) (by omega)

omit [Keys K] [LawfulKeys K] in
theorem used_setobj (t : Table K V) (o : Option V) (loc : Loc) : used (t.setobj o loc) = used t := by
  simp only [used, setobj_sizenode, setobj_key]

omit [Keys K] [LawfulKeys K] in
theorem capacity_setobj (t : Table K V) (o : Option V) (loc : Loc) :
    (t.setobj o loc).capacity = t.capacity := by
  rw [Table.capacity, setobj_dummy, setobj_sizenode, Table.capacity]

omit [Keys K] [LawfulKeys K] in
theorem Keyed.setobj (h : Keyed P t) (o : Option V) (loc : Loc) : Keyed P (t.setobj o loc) := by
  simpa only [Keyed, setobj_sizenode, setobj_key, setobj_dead] using h

/-- Different keys have different objects. -/
def Apart (P : K → Prop) : Prop :=
  ∀ k k', P k → P k' → (gcvalue k).isSome = true → gcvalue k = gcvalue k' → (k == k') = true

omit [LawfulKeys K] in
theorem Keyed.fresh (h : Keyed P t) (hP : Apart P) (hk : P k) : Fresh t k := by
  intro i hi k' hkey hdead hsome heq
  exact hP k' k (h i hi k' hkey hdead) hk (heq ▸ hsome) heq.symm

/-- The elements that go to the nodes if the array part has size `n`. -/
def toNodes (n : Nat) (es : List (K × V)) : Nat := es.countP fun e => !low n e.1

/-- **Elements inserted where there is room**: they are read afterwards, and so is what was
read before. -/
theorem Wf.reinsert (hP : Apart P) (depth : Nat) : ∀ {es : List (K × V)} {t : Table K V}, Wf t →
    Keyed P t → (∀ e ∈ es, P e.1) → es.Pairwise (fun a b => (a.1 == b.1) = false) →
    used t + toNodes t.array.length es ≤ t.capacity →
    ∃ t', reinsert (luaH_set (depth + 1)) t es = .ok t' ∧ Wf t' ∧ Keyed P t'
      ∧ t'.array.length = t.array.length ∧ t'.capacity = t.capacity
      ∧ used t' ≤ used t + toNodes t.array.length es
      ∧ ∀ k, t'.lookup k = ((es.find? (fun e => e.1 == k)).map Prod.snd).or (t.lookup k) := by
  intro es
  induction es with
  | nil =>
    intro t h hkeyed _ _ _
    exact ⟨t, rfl, h, hkeyed, rfl, rfl, Nat.le_add_right _ _, fun k => rfl⟩
  | cons e es ih =>
    intro t h hkeyed hes hpairwise hroom
    have hcount : toNodes t.array.length (e :: es)
        = toNodes t.array.length es + if !low t.array.length e.1 then 1 else 0 := List.countP_cons
    rw [hcount] at hroom ⊢
    have he := hes e List.mem_cons_self
    obtain ⟨loc, t₁, hset, hplaced, harray, hcapacity, hused, hkeys⟩ :=
      h.luaH_set_room (hkeyed.fresh hP he) (fun hlow => by simp [hlow] at hroom; omega) depth
    obtain ⟨hfirst, hrest⟩ := List.pairwise_cons.mp hpairwise
    -- the rest goes into the table with `e`
    have hwf := hplaced.wf.setobj (hplaced.wf.valid hplaced.place) (some e.2)
    have hlength : (t₁.setobj (some e.2) loc).array.length = t.array.length := by
      rw [setobj_length, harray]
    have hroom₁ : used (t₁.setobj (some e.2) loc) + toNodes (t₁.setobj (some e.2) loc).array.length es
        ≤ (t₁.setobj (some e.2) loc).capacity := by
      rw [hlength, used_setobj, capacity_setobj, hcapacity]
      omega
    obtain ⟨t', hreinsert, hwf', hkeyed', hlength', hcapacity', hused', hlookup⟩ :=
      ih hwf ((hkeys P he hkeyed).setobj _ _) (fun e' he' => hes e' (List.mem_cons_of_mem e he')) hrest hroom₁
    refine ⟨t', ?_, hwf', hkeyed', hlength'.trans hlength, ?_, ?_, fun k => ?_⟩
    · rw [HashTable.reinsert, List.foldlM_cons, hset]
      exact hreinsert
    · rw [hcapacity', capacity_setobj, hcapacity]
    · rw [hlength, used_setobj] at hused'
      omega
    · rw [hlookup, hplaced.wf.lookup_setobj hplaced.place, hplaced.lookup, List.find?_cons]
      by_cases hk : (e.1 == k) = true
      · have hnone : es.find? (fun e' => e'.1 == k) = none := by
          rw [List.find?_eq_none]
          intro e' he' hk'
          have hne := hfirst e' he'
          rw [BEq.congr_right hk', hk] at hne
          exact Bool.false_ne_true hne.symm
        rw [hnone, hk, if_pos (BEq.symm hk)]
        rfl
      · rw [if_neg fun hk' => hk (BEq.symm hk')]
        simp only [hk]

/-! ## Resizing -/

omit [Keys K] [LawfulKeys K] in
theorem held_eq_some {e : K × V} :
    t.held i = some e ↔ (t.node i).key = some e.1 ∧ (t.node i).val = some e.2 := by
  rw [Table.held]
  cases (t.node i).val <;> cases (t.node i).key <;> simp [Prod.ext_iff, and_comm]

omit [Keys K] [LawfulKeys K] in
theorem mem_nodeEntries {e : K × V} : e ∈ t.nodeEntries ↔ Entry t e.1 e.2 := by
  simp [Table.nodeEntries, Entry, held_eq_some]

omit [LawfulKeys K] in
theorem mem_arrayEntries {array : List (Option V)} {start : Nat} {e : K × V} :
    e ∈ arrayEntries array start ↔
      ∃ i, start ≤ i ∧ i < array.length ∧ array.getD i none = some e.2 ∧ e.1 = numkey (i + 1) := by
  simp only [arrayEntries, List.mem_filterMap, List.mem_range'_1, Option.map_eq_some_iff, Prod.ext_iff]
  constructor
  · rintro ⟨i, hi, v, hv, hk, rfl⟩
    exact ⟨i, hi.1, by omega, hv, hk.symm⟩
  · rintro ⟨i, hi, hlt, hv, hk⟩
    exact ⟨i, by omega, e.2, hv, hk.symm, rfl⟩

/-- The key of an element of the array part has its place there. -/
theorem inarray_numkey (h : t.array.length ≤ MAXASIZE) (hi : i < t.array.length) :
    t.inarray (numkey (i + 1) : K) = some i := by
  have hsize : MAXASIZE < 2 ^ 31 := by decide
  rw [inarray_eq_some, LawfulKeys.arrayindex_numkey (by omega)]
  exact ⟨by push_cast; rfl, hi⟩

/-- Different elements of a table have different keys. -/
theorem Wf.entries_pairwise (h : Wf t) (start : Nat) :
    (arrayEntries t.array start ++ t.nodeEntries).Pairwise
      fun (a b : K × V) => (a.1 == b.1) = false := by
  refine List.pairwise_append.mpr ⟨?_, ?_, fun a ha b hb => ?_⟩
  · rw [arrayEntries, List.pairwise_filterMap]
    refine (List.nodup_range' 1).pairwise_of_forall_ne fun i hi j hj hne a ha b hb => ?_
    simp only [List.mem_range'_1] at hi hj
    obtain ⟨-, -, rfl⟩ := Option.map_eq_some_iff.mp ha
    obtain ⟨-, -, rfl⟩ := Option.map_eq_some_iff.mp hb
    by_contra heq
    have hsame := inarray_congr t
      (show ((numkey (i + 1) : K) == numkey (j + 1)) = true by simpa using heq)
    rw [inarray_numkey h.array (by omega), inarray_numkey h.array (by omega)] at hsame
    exact hne (Option.some.inj hsame)
  · rw [Table.nodeEntries, List.pairwise_filterMap]
    refine (List.nodup_reverse.mpr List.nodup_range).pairwise_of_forall_ne
      fun i hi j hj hne a ha b hb => ?_
    rw [List.mem_reverse, List.mem_range] at hi hj
    obtain ⟨hka, hva⟩ := held_eq_some.mp ha
    obtain ⟨hkb, hvb⟩ := held_eq_some.mp hb
    by_contra heq
    have hholds : (t.node i).holds b.1 = true := Node.holds_iff.mpr
      ⟨h.live i hi (by simp [hva]), a.1, hka, by simpa using heq⟩
    have hholds' : (t.node j).holds b.1 = true := Node.holds_iff.mpr
      ⟨h.live j hj (by simp [hvb]), b.1, hkb, BEq.refl _⟩
    exact hne (Option.some.inj ((h.search hi hholds).symm.trans (h.search hj hholds')))
  · obtain ⟨i, -, hi, -, hk⟩ := mem_arrayEntries.mp ha
    obtain ⟨j, hj, hkey, -⟩ := mem_nodeEntries.mp hb
    by_contra heq
    have hsame := inarray_congr t (show (a.1 == b.1) = true by simpa using heq)
    rw [hk, inarray_numkey h.array hi, h.outside j hj b.1 hkey] at hsame
    exact Option.some_ne_none i hsame

theorem find_eq_some {es : List (K × V)} (hpairwise : es.Pairwise fun a b => (a.1 == b.1) = false) :
    (es.find? (fun e => e.1 == k)).map Prod.snd = some v ↔ ∃ e ∈ es, (e.1 == k) = true ∧ e.2 = v := by
  constructor
  · intro hfind
    obtain ⟨e, he, rfl⟩ := Option.map_eq_some_iff.mp hfind
    exact ⟨e, List.mem_of_find?_eq_some he, List.find?_some (p := fun e : K × V => e.1 == k) he, rfl⟩
  · rintro ⟨e, he, hk, rfl⟩
    induction es with
    | nil => exact absurd he List.not_mem_nil
    | cons a es ih =>
      obtain ⟨hfirst, hrest⟩ := List.pairwise_cons.mp hpairwise
      rw [List.find?_cons]
      rcases List.mem_cons.mp he with rfl | he
      · rw [hk]
        rfl
      · have hne := hfirst e he
        rw [BEq.congr_right hk] at hne
        rw [hne]
        exact ih hrest he

/-- The array part in its new size. -/
def resized (array : List (Option V)) (size : Nat) : List (Option V) :=
  (array ++ List.replicate (size - array.length) none).take size

omit [Keys K] [LawfulKeys K] in
theorem resized_length (array : List (Option V)) (size : Nat) : (resized array size).length = size := by
  simp only [resized, List.length_take, List.length_append, List.length_replicate]
  omega

omit [Keys K] [LawfulKeys K] in
theorem resized_getD (array : List (Option V)) {size : Nat} (hi : i < size) :
    (resized array size).getD i none = array.getD i none := by
  rw [resized, List.getD_eq_getElem?_getD, List.getElem?_take_of_lt hi, List.getD_eq_getElem?_getD]
  rcases Nat.lt_or_ge i array.length with hlt | hge
  · rw [List.getElem?_append_left hlt]
  · rw [List.getElem?_append_right hge, List.getElem?_eq_none hge]
    cases hr : (List.replicate (size - array.length) (none : Option V))[i - array.length]? with
    | none => rfl
    | some o =>
      rw [(List.mem_replicate.mp (List.mem_of_getElem? hr)).2]
      rfl

omit [LawfulKeys K] in
theorem arrayEntries_of_le {array : List (Option V)} {start : Nat} (h : array.length ≤ start) :
    (arrayEntries array start : List (K × V)) = [] := by
  rw [arrayEntries, Nat.sub_eq_zero_of_le h]
  rfl

omit [Keys K] [LawfulKeys K] in
/-- The array part does not matter for the nodes. -/
theorem setnodevector_array (t : Table K V) (array : List (Option V)) (nhsize : Nat) :
    setnodevector { t with array := array } nhsize
      = (setnodevector t nhsize).map fun t' => { t' with array := array } := by
  simp only [setnodevector]
  split_ifs <;> rfl

omit [LawfulKeys K] in
/-- What `resize` does, in one piece. -/
theorem resize_eq (set : Table K V → K → Except Failure (Loc × Table K V)) (t : Table K V)
    (nasize nhsize : Nat) :
    resize set t nasize nhsize
      = (setnodevector { t with array := resized t.array nasize } nhsize).bind fun t' =>
        reinsert set t' (arrayEntries t.array nasize ++ t.nodeEntries) := by
  rw [resize, resized]
  rcases Nat.lt_or_ge nasize t.array.length with hlt | hge
  · simp only [if_neg (Nat.lt_asymm hlt), if_pos hlt, Nat.sub_eq_zero_of_le (Nat.le_of_lt hlt),
      List.replicate_zero, List.append_nil, setnodevector_array]
    cases hnodes : setnodevector t nhsize with
    | error e => rfl
    | ok t' =>
      have harray : t'.array = t.array := by
        rw [setnodevector] at hnodes
        split_ifs at hnodes <;> simp only [Except.ok.injEq] at hnodes <;> rw [← hnodes]
      show (reinsert set { t' with array := t'.array.take nasize } _ >>= fun t => reinsert set t _) = _
      rw [harray]
      exact (List.foldlM_append ..).symm
  · simp only [if_neg (Nat.not_lt.mpr hge), arrayEntries_of_le hge, List.nil_append]
    have htake : (t.array ++ List.replicate (nasize - t.array.length) none).take nasize
        = t.array ++ List.replicate (nasize - t.array.length) none := by
      refine List.take_of_length_le ?_
      simp only [List.length_append, List.length_replicate]
      omega
    rw [htake]
    split_ifs with hlt
    · rfl
    · rw [Nat.sub_eq_zero_of_le (Nat.not_lt.mp hlt), List.replicate_zero, List.append_nil]
      rfl

omit [LawfulKeys K] in
/-- A new vector of nodes: nothing in it, and room for what was asked for. -/
theorem setnodevector_spec (harray : t.array.length ≤ MAXASIZE) (nhsize : Nat) :
    (∃ t', setnodevector t nhsize = .ok t' ∧ Wf t' ∧ t'.array = t.array ∧ used t' = 0
        ∧ nhsize ≤ t'.capacity ∧ ∀ i, (t'.node i) = .empty)
      ∨ setnodevector t nhsize = .error .overflow ∧ 2 ^ MAXBITS < nhsize := by
  have hwf : ∀ (l lastfree : Nat) (dummy : Bool), l ≤ MAXBITS →
      (dummy = true → lastfree = 0) → (dummy = false → lastfree = 2 ^ l) →
      Wf (⟨t.array, l, fun _ => .empty, dummy, lastfree⟩ : Table K V) := by
    intro l lastfree dummy hl hdummy hnodes
    have hnone : ∀ k : K, (Node.empty : Node K V).key ≠ some k := fun k => (Option.some_ne_none k).symm
    refine ⟨⟨fun i hi hkey => ⟨rfl, rfl⟩, fun i hi j hj => ?_, fun i hi i' hi' j hj => ?_,
      fun i hi hkey => absurd rfl hkey, fun i hi k hkey => absurd hkey (hnone k),
      fun i hi k hkey => absurd hkey (hnone k)⟩, harray, hl, ?_, fun hd i hi hle => ?_,
      fun hd => ⟨hdummy hd, fun i hi => rfl⟩, fun i hi hval => absurd rfl hval,
      fun i hi k hkey => absurd hkey (hnone k), fun i hi j hj k k' hkey => absurd hkey (hnone k)⟩
    · exact absurd hj (Option.some_ne_none j).symm
    · exact absurd hj (Option.some_ne_none j).symm
    · cases dummy with
      | true => exact (hdummy rfl).symm ▸ Nat.zero_le _
      | false => exact Nat.le_of_eq (hnodes rfl)
    · exact absurd hi (Nat.not_lt.mpr ((hnodes hd).symm ▸ hle))
  have hused : ∀ (l lastfree : Nat) (dummy : Bool),
      used (⟨t.array, l, fun _ => .empty, dummy, lastfree⟩ : Table K V) = 0 := by
    intro l lastfree dummy
    rw [used, Finset.card_eq_zero, Finset.filter_eq_empty_iff]
    exact fun i _ hkey => hkey rfl
  rw [setnodevector]
  split_ifs with hzero hover
  · exact .inl ⟨_, rfl, hwf 0 0 true (Nat.zero_le _) (fun _ => rfl) (by simp), rfl, hused _ _ _,
      Nat.le_of_eq hzero, fun i => rfl⟩
  · refine .inr ⟨rfl, ?_⟩
    have hceil := (ceillog2_le (Nat.pos_of_ne_zero hzero) MAXBITS).not.mp (Nat.not_le.mpr hover)
    exact Nat.not_le.mp hceil
  · refine .inl ⟨_, rfl, hwf _ _ false (Nat.not_lt.mp hover) (by simp) (fun _ => rfl), rfl, hused _ _ _, ?_,
      fun i => rfl⟩
    exact (ceillog2_le (Nat.pos_of_ne_zero hzero) _).mp (Nat.le_refl _)

/-- The keys of a table, and those that are no object. -/
def Known (t : Table K V) (k : K) : Prop :=
  (∃ i < t.sizenode, (t.node i).key = some k ∧ (t.node i).dead = false) ∨ gcvalue k = none

omit [LawfulKeys K] in
theorem Wf.known_apart (h : Wf t) : Apart (Known t) := by
  intro k k' hk hk' hsome heq
  rcases hk with ⟨i, hi, hkey, hdead⟩ | hnone
  · rcases hk' with ⟨j, hj, hkey', hdead'⟩ | hnone
    · exact h.apart i hi j hj k k' hkey hkey' hdead hdead' hsome heq
    · rw [heq, hnone] at hsome
      exact absurd hsome Bool.false_ne_true
  · rw [hnone] at hsome
    exact absurd hsome Bool.false_ne_true

theorem Wf.known_entries (h : Wf t) (start : Nat) :
    ∀ e ∈ (arrayEntries t.array start ++ t.nodeEntries : List (K × V)), Known t e.1 := by
  intro e he
  rcases List.mem_append.mp he with he | he
  · obtain ⟨i, -, hi, -, hk⟩ := mem_arrayEntries.mp he
    refine .inr (LawfulKeys.gcvalue_number ?_)
    have hindex := (inarray_eq_some.mp (inarray_numkey (K := K) h.array hi)).1
    rw [hk]
    omega
  · obtain ⟨i, hi, hkey, hval⟩ := mem_nodeEntries.mp he
    exact .inl ⟨i, hi, hkey, h.live i hi (by simp [hval])⟩

/-- What is read after the elements from `start` on, and those of the nodes, were inserted
into an empty table with the array part resized to `start`: what was read before. -/
theorem Wf.lookup_resized (h : Wf t) {t₀ : Table K V} {nasize : Nat} (h₀ : Wf t₀)
    (harray : t₀.array = resized t.array nasize) (hempty : ∀ i, t₀.node i = .empty) (k : K) :
    (((arrayEntries t.array nasize ++ t.nodeEntries).find? (fun e : K × V => e.1 == k)).map
      Prod.snd).or (t₀.lookup k) = t.lookup k := by
  have hpairwise := h.entries_pairwise nasize
  have hsize : t₀.array.length = nasize := by rw [harray, resized_length]
  have houtside₀ : t₀.inarray k = none → t₀.lookup k = none := by
    intro hout
    refine Option.eq_none_iff_forall_ne_some.mpr fun v hv => ?_
    obtain ⟨k', ⟨i, -, hkey, -⟩, -⟩ := (h₀.lookup_eq_some hout).mp hv
    rw [hempty] at hkey
    exact Option.some_ne_none k' hkey.symm
  -- an element found among those inserted
  have hfound : ∀ v, ((arrayEntries t.array nasize ++ t.nodeEntries).find?
      (fun e : K × V => e.1 == k)).map Prod.snd = some v
      ↔ (∃ i, t.inarray k = some i ∧ nasize ≤ i ∧ t.array.getD i none = some v)
        ∨ t.inarray k = none ∧ t.lookup k = some v := by
    intro v
    rw [find_eq_some hpairwise]
    constructor
    · rintro ⟨e, he, hk, rfl⟩
      rcases List.mem_append.mp he with he | he
      · obtain ⟨i, hi, hlt, hval, hcast⟩ := mem_arrayEntries.mp he
        rw [hcast] at hk
        exact .inl ⟨i, (inarray_congr t hk).symm.trans (inarray_numkey h.array hlt), hi, hval⟩
      · have hentry := mem_nodeEntries.mp he
        obtain ⟨j, hj, hkey, -⟩ := id hentry
        have hout := (inarray_congr t hk).symm.trans (h.outside j hj e.1 hkey)
        exact .inr ⟨hout, (h.lookup_eq_some hout).mpr ⟨e.1, hentry, hk⟩⟩
    · rintro (⟨i, hin, hi, hval⟩ | ⟨hout, hval⟩)
      · obtain ⟨hindex, hlt⟩ := inarray_eq_some.mp hin
        refine ⟨(numkey (i + 1), v), List.mem_append_left _ (mem_arrayEntries.mpr
          ⟨i, hi, hlt, hval, rfl⟩), ?_, rfl⟩
        have hcast := LawfulKeys.numkey_arrayindex (k := k) (by omega)
        rw [hindex] at hcast
        exact hcast
      · obtain ⟨k', hentry, hk⟩ := (h.lookup_eq_some hout).mp hval
        exact ⟨(k', v), List.mem_append_right _ (mem_nodeEntries.mpr hentry), hk, rfl⟩
  generalize ((arrayEntries t.array nasize ++ t.nodeEntries).find?
    (fun e : K × V => e.1 == k)).map Prod.snd = found at hfound ⊢
  cases hin : t.inarray k with
  | some i =>
    simp only [hin, Option.some.injEq, exists_eq_left', reduceCtorEq, false_and, or_false] at hfound
    rw [lookup_of_inarray hin]
    have hindex := (inarray_eq_some.mp hin).1
    rcases Nat.lt_or_ge i nasize with hi | hi
    · have hnone : found = none := Option.eq_none_iff_forall_ne_some.mpr fun v hv => by
        have hle := ((hfound v).mp hv).1
        omega
      rw [hnone, Option.none_or, lookup_of_inarray (inarray_eq_some.mpr ⟨hindex, hsize.symm ▸ hi⟩),
        harray, resized_getD _ hi]
    · have hout : t₀.inarray k = none := by
        rw [Table.inarray, if_neg]
        omega
      rw [houtside₀ hout, Option.or_none]
      refine Option.ext fun v => ?_
      rw [hfound v]
      exact and_iff_right hi
  | none =>
    simp only [hin, reduceCtorEq, false_and, exists_false, false_or, true_and] at hfound
    have hnone : t₀.lookup k = none := by
      cases hin₀ : t₀.inarray k with
      | none => exact houtside₀ hin₀
      | some i =>
        obtain ⟨hindex, hlt⟩ := inarray_eq_some.mp hin₀
        rw [hsize] at hlt
        have hge : t.array.length ≤ i := by
          by_contra hlt'
          rw [inarray_eq_some.mpr ⟨hindex, by omega⟩] at hin
          exact Option.some_ne_none i hin
        rw [lookup_of_inarray hin₀, harray, resized_getD _ hlt, List.getD_eq_getElem?_getD,
          List.getElem?_eq_none hge]
        rfl
    rw [hnone, Option.or_none]
    exact Option.ext fun v => hfound v

/-- **A table resized** reads as before, if the nodes it asks for have room for the elements
that go there. -/
theorem Wf.resize (h : Wf t) {nasize nhsize : Nat} (hnasize : nasize ≤ MAXASIZE)
    (hroom : toNodes nasize (arrayEntries t.array nasize ++ t.nodeEntries : List (K × V)) ≤ nhsize)
    (depth : Nat) :
    (∃ t', resize (luaH_set (depth + 1)) t nasize nhsize = .ok t' ∧ Wf t' ∧ Keyed (Known t) t'
        ∧ t'.array.length = nasize ∧ nhsize ≤ t'.capacity
        ∧ used t' ≤ toNodes nasize (arrayEntries t.array nasize ++ t.nodeEntries : List (K × V))
        ∧ ∀ k, t'.lookup k = t.lookup k)
      ∨ resize (luaH_set (depth + 1)) t nasize nhsize = .error .overflow ∧ 2 ^ MAXBITS < nhsize := by
  rw [resize_eq]
  rcases setnodevector_spec (t := { t with array := resized t.array nasize })
    (by rw [resized_length]; exact hnasize) nhsize with
    ⟨t₀, hset, h₀, harray, hused, hcapacity, hempty⟩ | ⟨hset, hover⟩
  · left
    have hsize : t₀.array.length = nasize := by rw [harray, resized_length]
    have hkeyed : Keyed (Known t) t₀ := by
      intro i hi k hkey
      rw [hempty] at hkey
      exact absurd hkey (Option.some_ne_none k).symm
    obtain ⟨t', hreinsert, hwf, hkeyed', hlength, hcapacity', hused', hlookup⟩ :=
      Wf.reinsert h.known_apart depth h₀ hkeyed (h.known_entries nasize) (h.entries_pairwise nasize)
        (by rw [hused, hsize]; omega)
    refine ⟨t', by rw [hset]; exact hreinsert, hwf, hkeyed', hlength.trans hsize, hcapacity'.symm ▸ hcapacity,
      ?_, fun k => ?_⟩
    · rw [hused, hsize] at hused'
      omega
    · rw [hlookup, h.lookup_resized h₀ harray hempty]
  · exact .inr ⟨by rw [hset]; rfl, hover⟩

/-! ## The sizes chosen -/

/-- The elements of a table. -/
def Table.elements (t : Table K V) : List (K × V) := arrayEntries t.array 0 ++ t.nodeEntries

/-- Their keys. -/
def Table.keys (t : Table K V) : List K := t.elements.map Prod.fst

omit [LawfulKeys K] in
theorem arrayEntries_length (array : List (Option V)) (start : Nat) :
    (arrayEntries array start : List (K × V)).length = (array.drop start).countP Option.isSome := by
  have hdrop : array.drop start
      = (List.range' start (array.length - start)).map fun i => array.getD i none := by
    refine List.ext_getElem (by simp) fun i hi hi' => ?_
    rw [List.length_drop] at hi
    simp [List.getElem?_eq_getElem (show start + i < array.length by omega)]
  rw [hdrop, List.countP_map, arrayEntries, List.length_filterMap_eq_countP]
  congr 1
  funext i
  simp

omit [LawfulKeys K] in
/-- The elements of the array part, cut in two. -/
theorem arrayEntries_split (array : List (Option V)) (n : Nat) :
    (arrayEntries array 0 : List (K × V)) = arrayEntries (array.take n) 0 ++ arrayEntries array n := by
  rcases Nat.le_total array.length n with hle | hle
  · rw [List.take_of_length_le hle, arrayEntries_of_le hle, List.append_nil]
  · have hrange : List.range' 0 (array.length - 0)
        = List.range' 0 ((array.take n).length - 0) ++ List.range' n (array.length - n) := by
      rw [List.length_take, Nat.min_eq_left hle, Nat.sub_zero, Nat.sub_zero]
      have happend := List.range'_append_1 (s := 0) (m := n) (n := array.length - n)
      rw [Nat.zero_add] at happend
      rw [happend, Nat.add_sub_cancel' hle]
    rw [arrayEntries, hrange, List.filterMap_append, arrayEntries, arrayEntries]
    congr 1
    refine List.filterMap_congr fun i hi => ?_
    simp only [List.mem_range'_1, List.length_take] at hi
    rw [List.getD_eq_getElem?_getD, List.getD_eq_getElem?_getD, List.getElem?_take_of_lt (by omega)]

theorem low_arrayEntries {array : List (Option V)} (harray : array.length ≤ MAXASIZE) {start n : Nat}
    {e : K × V} (he : e ∈ arrayEntries array start) :
    ∃ i, start ≤ i ∧ i < array.length ∧ low n e.1 = decide (i < n) := by
  obtain ⟨i, hi, hlt, -, hk⟩ := mem_arrayEntries.mp he
  have hsize : MAXASIZE < 2 ^ 31 := by decide
  refine ⟨i, hi, hlt, ?_⟩
  rw [hk, low, LawfulKeys.arrayindex_numkey (by omega), decide_eq_decide]
  omega

/-- Where the elements of the array part are counted. -/
theorem countP_arrayEntries {array : List (Option V)} (harray : array.length ≤ MAXASIZE) (n : Nat) :
    (arrayEntries array 0 : List (K × V)).countP (fun e : K × V => low n e.1) = inuse array n
      ∧ toNodes n (arrayEntries array 0 : List (K × V))
        = toNodes n (arrayEntries array n : List (K × V)) := by
  have hbelow : ∀ e ∈ (arrayEntries (array.take n) 0 : List (K × V)), low n e.1 = true := by
    intro e he
    obtain ⟨i, -, hi, hlow⟩ := low_arrayEntries (n := n) (by rw [List.length_take]; omega) he
    rw [List.length_take] at hi
    rw [hlow, decide_eq_true_iff]
    omega
  have habove : ∀ e ∈ (arrayEntries array n : List (K × V)), ¬ low n e.1 = true := by
    intro e he
    obtain ⟨i, hi, -, hlow⟩ := low_arrayEntries (n := n) harray he
    rw [hlow, decide_eq_true_iff]
    omega
  rw [toNodes, toNodes, arrayEntries_split array n, List.countP_append, List.countP_append]
  constructor
  · rw [List.countP_eq_length.mpr hbelow, List.countP_eq_zero.mpr habove, arrayEntries_length]
    rfl
  · rw [List.countP_eq_zero.mpr fun e he => by simp [hbelow e he], Nat.zero_add]

/-- Of different keys, at most `n` are for an array part of size `n`. -/
theorem countP_low_le {ks : List K} (hpairwise : ks.Pairwise fun a b => (a == b) = false) (n : Nat) :
    ks.countP (low n) ≤ n := by
  rw [List.countP_eq_length_filter, ← List.length_map (f := fun k => (arrayindex k).toNat - 1)]
  refine length_le_of_lt ?_ fun j hj => ?_
  · rw [List.Nodup, List.pairwise_map]
    refine (hpairwise.filter _).imp_of_mem fun {a b} ha hb hne heq => ?_
    have hla := of_decide_eq_true (List.mem_filter.mp ha).2
    have hlb := of_decide_eq_true (List.mem_filter.mp hb).2
    have hindex : arrayindex a = arrayindex b := by omega
    have hcast := LawfulKeys.numkey_arrayindex (k := a) (by omega)
    rw [hindex] at hcast
    rw [BEq.trans (BEq.symm hcast) (LawfulKeys.numkey_arrayindex (by omega))] at hne
    exact Bool.false_ne_true hne.symm
  · obtain ⟨k, hk, rfl⟩ := List.mem_map.mp hj
    have hlow := of_decide_eq_true (List.mem_filter.mp hk).2
    omega

theorem Wf.keys_pairwise (h : Wf t) (hget : luaH_get t k = none) :
    (k :: t.keys).Pairwise fun a b => (a == b) = false := by
  obtain ⟨hout, hnone⟩ := luaH_get_eq_none.mp hget
  refine List.pairwise_cons.mpr ⟨fun k' hk' => ?_, List.pairwise_map.mpr (h.entries_pairwise 0)⟩
  obtain ⟨e, he, rfl⟩ := List.mem_map.mp hk'
  rcases List.mem_append.mp he with he | he
  · obtain ⟨i, -, hi, -, hk⟩ := mem_arrayEntries.mp he
    by_contra heq
    rw [inarray_congr t (show (k == e.1) = true by simpa using heq), hk, inarray_numkey h.array hi] at hout
    exact Option.some_ne_none i hout
  · obtain ⟨i, hi, hkey, hval⟩ := mem_nodeEntries.mp he
    rw [BEq.comm]
    exact h.absent hnone hi hkey (h.live i hi (by simp [hval]))

/-- `n` is the largest power of two, up to `MAXASIZE`, with more than half of 1..n among the
keys; zero if there is none. -/
structure ArraySize (ks : List K) (n : Nat) : Prop where
  half : n = 0 ∨ ∃ m ≤ MAXBITS, n = 2 ^ m ∧ 2 ^ m / 2 < ks.countP (low (2 ^ m))
  largest : ∀ m ≤ MAXBITS, 2 ^ m / 2 < ks.countP (low (2 ^ m)) → 2 ^ m ≤ n

omit [Keys K] [LawfulKeys K] in
theorem countP_keys (p : K → Bool) (t : Table K V) [Keys K] :
    t.keys.countP p = t.elements.countP fun e => p e.1 := by
  rw [Table.keys, List.countP_map]
  rfl

/-- The counts of `rehash`: how many elements there are with the new key, how many for the
array part, slice by slice. -/
structure Counted (t : Table K V) (ek : K) (totaluse narray : Nat) (nums : Nat → Nat) : Prop where
  total : totaluse = (ek :: t.keys).length
  all : upto nums MAXBITS = narray
  slices : ∀ m ≤ MAXBITS, upto nums m = (ek :: t.keys).countP (low (2 ^ m))

theorem Wf.counted (h : Wf t) (ek : K) :
    let a := numusearray t fun _ => 0
    let u := numusehash t a.2
    let e := countint ek u.2.2
    Counted t ek (a.1 + u.1 + 1) (a.1 + u.2.1 + e.1) e.2 := by
  obtain ⟨ha, hupto⟩ := numusearray_spec h.array
  obtain ⟨hlen, hu, huptou⟩ := numusehash_spec t (numusearray t fun _ => 0).2
  obtain ⟨he, huptoe⟩ := countint_spec ek (numusehash t (numusearray t fun _ => 0).2).2.2
  have hslices : ∀ m ≤ MAXBITS, upto (countint ek (numusehash t (numusearray t fun _ => 0).2).2.2).2 m
      = (ek :: t.keys).countP (low (2 ^ m)) := by
    intro m hm
    rw [huptoe m hm, huptou m hm, hupto m hm, List.countP_cons, countP_keys, Table.elements,
      List.countP_append, (countP_arrayEntries h.array (2 ^ m)).1]
  have htotal : inuse t.array t.array.length + t.nodeEntries.length = t.elements.length := by
    rw [Table.elements, List.length_append, arrayEntries_length, List.drop_zero, inuse, List.take_length]
  refine ⟨?_, ?_, hslices⟩
  · rw [ha, hlen, htotal, List.length_cons, Table.keys, List.length_map]
  · rw [hslices MAXBITS (Nat.le_refl _), ha, hu, he, List.countP_cons, countP_keys, Table.elements,
      List.countP_append]
    have harray := (countP_arrayEntries (K := K) h.array MAXASIZE).1
    rw [← MAXASIZE, harray, inuse_of_le h.array]

omit [LawfulKeys K] in
theorem not_low_zero (k : K) : low 0 k = false := by
  rw [low, decide_eq_false_iff_not]
  omega

/-- **A rehash** reads as before and has room for the new key; its array part has the
largest size that is more than half in use. It fails only when there are too many elements. -/
theorem Wf.rehash (h : Wf t) (hget : luaH_get t k = none) (depth : Nat) :
    (∃ t', rehash (luaH_set (depth + 1)) t k = .ok t' ∧ Wf t' ∧ Keyed (Known t) t'
        ∧ (low t'.array.length k = false → used t' < t'.capacity)
        ∧ ArraySize (k :: t.keys) t'.array.length ∧ ∀ k', t'.lookup k' = t.lookup k')
      ∨ rehash (luaH_set (depth + 1)) t k = .error .overflow ∧ 2 ^ MAXBITS ≤ t.elements.length := by
  have hcounted := h.counted k
  rw [HashTable.rehash]
  dsimp only at hcounted ⊢
  generalize (countint k _).2 = nums at hcounted ⊢
  generalize _ + (countint k _).1 = narray at hcounted ⊢
  generalize (numusearray t fun _ => 0).1 + _ + 1 = totaluse at hcounted ⊢
  have hpairwise := h.keys_pairwise hget
  have hchosen := computesizes_spec hcounted.all fun m hm => by
    rw [hcounted.slices m hm]
    exact countP_low_le hpairwise _
  generalize (computesizes nums narray).1 = na at hchosen ⊢
  generalize (computesizes nums narray).2 = n at hchosen ⊢
  have hna : na = (k :: t.keys).countP (low n) := by
    rcases hchosen.size with ⟨rfl, rfl⟩ | ⟨m, hm, rfl, rfl, -⟩
    · rw [eq_comm, List.countP_eq_zero]
      intro k' _
      simp [not_low_zero]
    · exact hcounted.slices m hm
  have hn : n ≤ MAXASIZE := by
    rcases hchosen.size with ⟨rfl, -⟩ | ⟨m, hm, rfl, -⟩
    · exact Nat.zero_le _
    · exact Nat.pow_le_pow_right (by omega) hm
  have hsize : ArraySize (k :: t.keys) n := by
    constructor
    · refine hchosen.size.imp And.left fun ⟨m, hm, hmn, hmna, hhalf⟩ => ⟨m, hm, hmn, ?_⟩
      rwa [← hcounted.slices m hm, ← hmna]
    · intro m hm hhalf
      refine hchosen.best m (Nat.lt_succ_of_le hm) ?_
      rwa [hcounted.slices m hm]
  -- what does not go to the array part, and the new key
  have hnodes : totaluse - na
      = toNodes n (arrayEntries t.array n ++ t.nodeEntries : List (K × V)) + if !low n k then 1 else 0 := by
    have hsplit : toNodes n (arrayEntries t.array n ++ t.nodeEntries : List (K × V))
        = t.keys.countP fun k => !low n k := by
      rw [countP_keys, Table.elements, toNodes, List.countP_append, List.countP_append]
      exact congrArg (· + _) (countP_arrayEntries h.array n).2.symm
    have hall := List.length_eq_countP_add_countP (low n) (l := k :: t.keys)
    rw [hsplit, hcounted.total, hna, hall, Nat.add_sub_cancel_left, List.countP_cons]
    simp
  rcases h.resize hn (hnodes ▸ Nat.le_add_right _ _) depth with
    ⟨t', hresize, hwf, hkeyed, hlength, hcapacity, hused, hlookup⟩ | ⟨hresize, hover⟩
  · refine .inl ⟨t', hresize, hwf, hkeyed, fun hlow => ?_, hlength.symm ▸ hsize, hlookup⟩
    rw [hlength] at hlow
    simp only [hlow, Bool.not_false, if_true] at hnodes
    omega
  · refine .inr ⟨hresize, ?_⟩
    have htotal := hcounted.total
    rw [List.length_cons, Table.keys, List.length_map] at htotal
    omega

/-! ## Assignments -/

omit [LawfulKeys K] in
theorem Keyed.fresh_of_known (h : Keyed (Known t) t') (hfresh : Fresh t k) : Fresh t' k := by
  intro i hi k' hkey hdead hsome heq
  rcases h i hi k' hkey hdead with ⟨j, hj, hkey', hdead'⟩ | hnone
  · exact hfresh j hj k' hkey' hdead' hsome heq
  · rw [heq, hnone] at hsome
    exact absurd hsome Bool.false_ne_true

/-- **`luaH_set`** finds the place of any key, in a table that reads as before, with at most
one rehash; or there are too many elements. -/
theorem Wf.luaH_set (h : Wf t) (hfresh : Fresh t k) (depth : Nat) :
    (∃ loc t', luaH_set (depth + 2) t k = .ok (loc, t') ∧ Placed t k loc t')
      ∨ luaH_set (depth + 2) t k = .error .overflow ∧ 2 ^ MAXBITS ≤ t.elements.length := by
  rw [HashTable.luaH_set]
  cases hget : luaH_get t k with
  | some loc => exact .inl ⟨loc, t, rfl, h, hget, fun _ => rfl⟩
  | none =>
    have hout := (luaH_get_eq_none.mp hget).1
    rcases h.newkey hget hfresh _ with ⟨p, t', heq, hs, hwf⟩ | ⟨heq, -, hwf⟩
    · exact .inl ⟨.node p, t', heq, hwf, hs.place hout, hs.lookup h hwf⟩
    · simp only [heq, grow]
      rcases hwf.rehash (k := k) hget depth with
        ⟨t₁, hrehash, hwf₁, hkeyed, hroom, -, hlookup⟩ | ⟨hrehash, hmany⟩
      · have hfresh₁ : Fresh t₁ k := hkeyed.fresh_of_known hfresh
        obtain ⟨loc, t', hset, hplaced, -⟩ := hwf₁.luaH_set_room hfresh₁ hroom depth
        refine .inl ⟨loc, t', ?_, hplaced.wf, hplaced.place, fun k' => ?_⟩
        · rw [hrehash]
          exact hset
        · exact (hplaced.lookup k').trans (hlookup k')
      · exact .inr ⟨by rw [hrehash]; rfl, hmany⟩

theorem Wf.assign (h : Wf t) (hfresh : Fresh t k) (o : Option V) :
    (∃ t', assign t k o = .ok t' ∧ Wf t'
        ∧ ∀ k', t'.lookup k' = if (k' == k) = true then o else t.lookup k')
      ∨ assign t k o = .error .overflow ∧ 2 ^ MAXBITS ≤ t.elements.length := by
  rw [HashTable.assign]
  rcases h.luaH_set hfresh 0 with ⟨loc, t', hset, hplaced⟩ | ⟨hset, hmany⟩
  · refine .inl ⟨t'.setobj o loc, by rw [hset]; rfl,
      hplaced.wf.setobj (hplaced.wf.valid hplaced.place) o, fun k' => ?_⟩
    rw [hplaced.wf.lookup_setobj hplaced.place, hplaced.lookup]
  · exact .inr ⟨by rw [hset]; rfl, hmany⟩

theorem luaH_new_wf {narray nhash : Nat} (hnarray : narray ≤ MAXASIZE)
    (hnew : luaH_new narray nhash = .ok t) : Wf t ∧ ∀ k, t.lookup k = none := by
  rcases setnodevector_spec
    (t := setarrayvector (⟨[], 0, fun _ => Node.empty, true, 0⟩ : Table K V) narray)
    (by simpa [setarrayvector] using hnarray) nhash with
    ⟨t', hset, hwf, harray, -, -, hempty⟩ | ⟨hset, -⟩
  · obtain rfl : t' = t := Except.ok.inj (hset.symm.trans hnew)
    refine ⟨hwf, fun k => ?_⟩
    cases hin : t'.inarray k with
    | some i =>
      have hi := (inarray_eq_some.mp hin).2
      rw [lookup_of_inarray hin, harray]
      rw [harray] at hi
      simp only [setarrayvector, List.nil_append, List.length_replicate] at hi ⊢
      rw [List.getD_eq_getElem?_getD, List.getElem?_replicate]
      split_ifs
      rfl
    | none =>
      refine Option.eq_none_iff_forall_ne_some.mpr fun v hv => ?_
      obtain ⟨k', ⟨i, -, hkey, -⟩, -⟩ := (hwf.lookup_eq_some hin).mp hv
      rw [hempty] at hkey
      exact Option.some_ne_none k' hkey.symm
  · exact absurd (hset.symm.trans hnew) (by simp)

omit [LawfulKeys K] in
theorem Wf.nodeEntries_length_le (h : Wf t) : t.nodeEntries.length ≤ t.capacity := by
  rw [Table.capacity]
  split_ifs with hdummy
  · have hnone : t.nodeEntries = [] := List.eq_nil_iff_forall_not_mem.mpr fun e he => by
      obtain ⟨i, hi, hkey, -⟩ := mem_nodeEntries.mp he
      exact Option.some_ne_none e.1 (hkey.symm.trans ((h.dummy hdummy).2 i hi))
    rw [hnone]
    exact Nat.le_refl _
  · refine (List.length_filterMap_le ..).trans ?_
    rw [List.length_reverse, List.length_range]

/-- An array part that grows takes elements from the nodes, and cannot fail. -/
theorem Wf.luaH_resizearray (h : Wf t) {nasize : Nat} (hgrow : t.array.length ≤ nasize)
    (hnasize : nasize ≤ MAXASIZE) :
    ∃ t', luaH_resizearray t nasize = .ok t' ∧ Wf t' ∧ ∀ k, t'.lookup k = t.lookup k := by
  have hroom : toNodes nasize (arrayEntries t.array nasize ++ t.nodeEntries : List (K × V)) ≤ t.capacity := by
    rw [arrayEntries_of_le hgrow, List.nil_append]
    exact List.countP_le_length.trans h.nodeEntries_length_le
  rcases h.resize hnasize hroom 1 with ⟨t', hresize, hwf, -, -, -, -, hlookup⟩ | ⟨-, hover⟩
  · exact ⟨t', hresize, hwf, hlookup⟩
  · have hpow : t.sizenode ≤ 2 ^ MAXBITS := Nat.pow_le_pow_right (by omega) h.nodes
    have hle : t.capacity ≤ t.sizenode := by
      rw [Table.capacity]
      split_ifs
      · exact Nat.zero_le _
      · exact Nat.le_refl _
    omega

end

end NostalgiaConv.HashTable
