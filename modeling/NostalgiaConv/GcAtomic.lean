/-
`lua/lgc.c`: the end of the mark phase.

`atomic` marks what may have been missed, follows the weak tables and the threads once more,
moves dead userdata with finalizers to `tmudata` and marks them, and takes the entries with
dead keys or values out of weak tables. Then it makes the other white the current one, so
that what is still white is dead. The file proves that nothing that the program can get at
is dead then, and that all that only weak references lead to is.
-/
import Mathlib.Data.List.GetD
import NostalgiaConv.GcTrace

set_option autoImplicit false

namespace NostalgiaConv.Collector

open NostalgiaConv.StringTable NostalgiaConv.HashTable NostalgiaConv.Tracing

section

variable {K : Type} [Collectable K]

/-! ## Userdata with finalizers -/

def remarkupvals (g : GlobalState K) : GlobalState K :=
  g.uvhead.foldl (fun g uv => if isgray (g.gch (.upval uv)) then markvalue g (g.uvvalue uv) else g) g

/-- One userdata of `luaC_separateudata`. -/
def separate (all : Bool) (g : GlobalState K) : GCObject → GlobalState K
  | .userdata u =>
    if !(iswhite (g.gch (.userdata u)) || all) || (g.udata u).finalized then g -- don't bother with them
    else
      let g := { g with udata := Function.update g.udata u { g.udata u with finalized := true } }
      if (fasttm g (g.udata u).metatable .TM_GC).isNone then g -- don't need finalization
      else { g with rootgc := g.rootgc.erase (.userdata u), tmudata := g.tmudata ++ [u] }
  | _ => g

/-- Move `dead' udata that need finalization to list `tmudata'. The userdata are behind the
main thread in `rootgc`. -/
def luaC_separateudata (g : GlobalState K) (all : Bool) : GlobalState K :=
  (g.rootgc.dropWhile (· ≠ .thread g.mainthread)).tail.foldl (separate all) g

def marktmu (g : GlobalState K) : GlobalState K :=
  g.tmudata.foldl (fun g u =>
    -- may be marked, if left from previous GC
    reallymarkobject (paint (makewhite g.toStrings) g (.userdata u)) (.userdata u)) g

/-! ## Weak tables -/

/-- Whether a key or value can be cleared from a weak table. -/
def iscleared (g : GlobalState K) (o : TValue K) (iskey : Bool) : Bool × GlobalState K :=
  match gcobject o with
  | none => (false, g)
  | some (.string ts) => (false, stringmark g ts) -- strings are `values', so are never weak
  | some (.userdata u) => (iswhite (g.gch (.userdata u)) || !iskey && (g.udata u).finalized, g)
  | some o => (iswhite (g.gch o), g)

def clearvalue (h : Nat) (g : GlobalState K) (i : Nat) : GlobalState K :=
  let t := (g.table h).entries
  let (cleared, g) := iscleared g (t.array.getD i none) false
  if cleared then setentries g h { t with array := t.array.set i none } else g

def clearnode (h : Nat) (g : GlobalState K) (i : Nat) : GlobalState K :=
  let t := (g.table h).entries
  let n := t.node i
  if n.val.isNone then g
  else
    let (cleared, g) := iscleared g (n.key.map .key) true
    let (cleared, g) := if cleared then (true, g) else iscleared g n.val false
    if cleared then
      setentries g h (removeentry { t with node := Function.update t.node i { n with val := none } } i)
    else g

/-- One table of `cleartable`. -/
def clearentries (g : GlobalState K) : GCObject → GlobalState K
  | .table h =>
    let t := g.table h
    let g := if t.weakvalue then (List.range t.entries.array.length).reverse.foldl (clearvalue h) g else g
    (List.range t.entries.sizenode).reverse.foldl (clearnode h) g
  | _ => g

def cleartable (g : GlobalState K) (l : List GCObject) : GlobalState K := l.foldl clearentries g

/-! ## The end of the mark phase -/

/-- The first part of `atomic`. -/
def remark (g : GlobalState K) : GlobalState K :=
  -- remark occasional upvalues of (maybe) dead threads
  let g := propagateall (remarkupvals g)
  -- remark weak tables
  let g := { g with gray := g.weak, weak := [] }
  let g := propagateall (markmt (markobject g (.thread g.L)))
  -- remark gray again
  propagateall { g with gray := g.grayagain, grayagain := [] }

/-- The last part of `atomic`. -/
def flipwhite (g : GlobalState K) : GlobalState K :=
  { g with currentwhite := !g.currentwhite, sweepstrgc := 0, gcstate := .GCSsweepstring }

def atomic (g : GlobalState K) : GlobalState K :=
  let g := luaC_separateudata (remark g) false
  let g := propagateall (marktmu g)
  flipwhite (cleartable g g.weak)

variable {g g' g'' : GlobalState K} {o : GCObject} {P : GCObject → Prop}

/-! ## Entries cleared -/

/-- Entries have been taken out of tables, and strings marked. -/
structure Weakened (g g' : GlobalState K) : Prop where
  bare : g'.bare = g.bare
  thread : g'.thread = g.thread
  metatable : ∀ h, (g'.table h).metatable = (g.table h).metatable
  bits : ∀ h, (g'.table h).bits = (g.table h).bits
  array : ∀ h i, (g'.table h).entries.array.getD i none = (g.table h).entries.array.getD i none
    ∨ (g'.table h).entries.array.getD i none = none
  lsizenode : ∀ h, (g'.table h).entries.lsizenode = (g.table h).entries.lsizenode
  key : ∀ h i, ((g'.table h).entries.node i).key = ((g.table h).entries.node i).key
  val : ∀ h i, ((g'.table h).entries.node i).val = ((g.table h).entries.node i).val
    ∨ ((g'.table h).entries.node i).val = none
  seen : ∀ o, iswhite (g.gch o) = false → iswhite (g'.gch o) = false
  other : ∀ o, (∀ ts, o ≠ .string ts) → g'.gch o = g.gch o

namespace Weakened

omit [Collectable K] in
theorem refl (g : GlobalState K) : Weakened g g :=
  ⟨rfl, rfl, fun _ => rfl, fun _ => rfl, fun _ _ => .inl rfl, fun _ => rfl, fun _ _ => rfl,
    fun _ _ => .inl rfl, fun _ h => h, fun _ _ => rfl⟩

omit [Collectable K] in
theorem trans (h : Weakened g g') (h' : Weakened g' g'') : Weakened g g'' where
  bare := h'.bare.trans h.bare
  thread := h'.thread.trans h.thread
  metatable n := (h'.metatable n).trans (h.metatable n)
  bits n := (h'.bits n).trans (h.bits n)
  array n i := by
    rcases h'.array n i with heq | hnone
    · rw [heq]
      exact h.array n i
    · exact .inr hnone
  lsizenode n := (h'.lsizenode n).trans (h.lsizenode n)
  key n i := (h'.key n i).trans (h.key n i)
  val n i := by
    rcases h'.val n i with heq | hnone
    · rw [heq]
      exact h.val n i
    · exact .inr hnone
  seen o ho := h'.seen o (h.seen o ho)
  other o ho := (h'.other o ho).trans (h.other o ho)

variable (h : Weakened g g')

include h

omit [Collectable K] in
theorem sizenode (n : Nat) : (g'.table n).entries.sizenode = (g.table n).entries.sizenode :=
  sizenode_congr (h.lsizenode n)

theorem entryRefs (n i : Nat) : entryRefs ((g'.table n).entries.node i)
    ⊆ entryRefs ((g.table n).entries.node i) := by
  intro r hr
  rw [mem_entryRefs, h.key] at hr
  rcases h.val n i with heq | hnone
  · rw [heq] at hr
    exact mem_entryRefs.mpr hr
  · rw [hnone] at hr
    exact Bool.noConfusion hr.1

end Weakened

theorem mem_objects_getD {vs : List (TValue K)} : o ∈ objects vs ↔ ∃ i, gcobject (vs.getD i none) = some o := by
  rw [mem_objects]
  constructor
  · rintro ⟨v, hv, hobj⟩
    obtain ⟨i, hi, rfl⟩ := List.getElem_of_mem hv
    exact ⟨i, by rwa [List.getD_eq_getElem _ _ hi]⟩
  · rintro ⟨i, hobj⟩
    by_cases hi : i < vs.length
    · rw [List.getD_eq_getElem _ _ hi] at hobj
      exact ⟨_, List.getElem_mem hi, hobj⟩
    · rw [List.getD_eq_default _ _ (Nat.le_of_not_lt hi)] at hobj
      exact absurd hobj.symm (Option.some_ne_none o)

namespace Weakened

variable (h : Weakened g g')

include h

theorem objects (n : Nat) : objects (g'.table n).entries.array ⊆ objects (g.table n).entries.array := by
  intro r hr
  obtain ⟨i, hi⟩ := mem_objects_getD.mp hr
  rcases h.array n i with heq | hnone
  · exact mem_objects_getD.mpr ⟨i, heq ▸ hi⟩
  · rw [hnone] at hi
    exact absurd hi.symm (Option.some_ne_none r)

/-- Clearing adds no references. -/
theorem refs (o : GCObject) : g'.refs o ⊆ g.refs o := by
  have hudata : g'.udata = g.udata := (congrArg GlobalState.udata h.bare :)
  have hupval : g'.upval = g.upval := (congrArg GlobalState.upval h.bare :)
  have hclosure : g'.closure = g.closure := (congrArg GlobalState.closure h.bare :)
  have hproto : g'.proto = g.proto := (congrArg GlobalState.proto h.bare :)
  cases o with
  | table n =>
    intro r hr
    rcases List.mem_append.mp hr with hr | hr
    · rcases List.mem_append.mp hr with hr | hr
      · rw [h.metatable] at hr
        exact List.mem_append_left _ (List.mem_append_left _ hr)
      · exact List.mem_append_left _ (List.mem_append_right _ (h.objects n hr))
    · obtain ⟨b, hb, hr⟩ := List.mem_flatMap.mp hr
      obtain ⟨i, hi, rfl⟩ := List.mem_map.mp hb
      rw [h.sizenode] at hi
      exact List.mem_append_right _ (List.mem_flatMap.mpr
        ⟨_, List.mem_map.mpr ⟨i, hi, rfl⟩, h.entryRefs n i hr⟩)
  | _ =>
    simp only [GlobalState.refs, GlobalState.uvvalue, hudata, hupval, hclosure, hproto, h.thread]
    exact List.Subset.refl _

end Weakened

/-- A value that is not cleared is marked. -/
theorem iscleared_weakened (g : GlobalState K) (v : TValue K) (iskey : Bool) :
    Weakened g (iscleared g v iskey).2 ∧ (iscleared g v iskey).2.table = g.table
      ∧ ((iscleared g v iskey).1 = false → ∀ o, gcobject v = some o →
        iswhite ((iscleared g v iskey).2.gch o) = false) := by
  rw [iscleared]
  cases hv : gcobject v with
  | none => exact ⟨.refl g, rfl, fun _ o ho => absurd ho.symm (Option.some_ne_none o)⟩
  | some o =>
    have hsame : ∀ o', some o = some o' → o' = o := fun o' h => (Option.some.inj h).symm
    cases o with
    | string ts =>
      -- strings are values: they are marked, and never cleared
      simp only
      have hmarked : iswhite ((stringmark g ts).gch (.string ts)) = false := by
        rw [stringmark, gch_paint_self]
        rfl
      refine ⟨⟨rfl, rfl, fun _ => rfl, fun _ => rfl, fun _ _ => .inl rfl, fun _ => rfl, fun _ _ => rfl,
        fun _ _ => .inl rfl, fun o ho => ?_, fun o ho => ?_⟩, rfl, fun _ o ho => hsame o ho ▸ hmarked⟩
      · by_cases heq : o = .string ts
        · exact heq ▸ hmarked
        · rwa [stringmark, gch_paint_of_ne _ _ heq]
      · exact gch_paint_of_ne _ _ (ho ts)
    | userdata u =>
      -- one that is being finalized is cleared as a value even if it is marked
      refine ⟨.refl g, rfl, fun hcleared o ho => ?_⟩
      rw [hsame o ho]
      exact (Bool.or_eq_false_iff.mp hcleared).1
    | _ =>
      refine ⟨.refl g, rfl, fun hcleared o ho => ?_⟩
      rw [hsame o ho]
      exact hcleared

omit [Collectable K] in
/-- Entries of one table replaced. -/
theorem weakened_setentries {h : Nat} {t : HashTable.Table K (Value K)}
    (harray : ∀ i, t.array.getD i none = (g.table h).entries.array.getD i none ∨ t.array.getD i none = none)
    (hsize : t.lsizenode = (g.table h).entries.lsizenode)
    (hkey : ∀ i, (t.node i).key = ((g.table h).entries.node i).key)
    (hval : ∀ i, (t.node i).val = ((g.table h).entries.node i).val ∨ (t.node i).val = none) :
    Weakened g (setentries g h t) := by
  have hself : (setentries g h t).table h = { g.table h with entries := t } := Function.update_self ..
  have hne : ∀ n, n ≠ h → (setentries g h t).table n = g.table n := fun n hn => Function.update_of_ne hn ..
  refine ⟨rfl, rfl, fun n => ?_, fun n => ?_, fun n => ?_, fun n => ?_, fun n => ?_, fun n => ?_,
    fun o ho => by cases o <;> exact ho, fun o _ => by cases o <;> rfl⟩
  -- each field, in this table and in the others
  all_goals by_cases hn : n = h
  · rw [hn, hself]
  · rw [hne n hn]
  · rw [hn, hself]
    rfl
  · rw [hne n hn]
  · rw [hn, hself]
    exact harray
  · rw [hne n hn]
    exact fun _ => .inl rfl
  · rw [hn, hself]
    exact hsize
  · rw [hne n hn]
  · rw [hn, hself]
    exact hkey
  · rw [hne n hn]
    exact fun _ => rfl
  · rw [hn, hself]
    exact hval
  · rw [hne n hn]
    exact fun _ => .inl rfl

theorem clearvalue_weakened (h i : Nat) (g : GlobalState K) :
    Weakened g (clearvalue h g i)
      ∧ ∀ o, gcobject (((clearvalue h g i).table h).entries.array.getD i none) = some o →
        iswhite ((clearvalue h g i).gch o) = false := by
  rw [clearvalue]
  obtain ⟨hw, htable, hdone⟩ := iscleared_weakened g ((g.table h).entries.array.getD i none) false
  rcases hc : iscleared g ((g.table h).entries.array.getD i none) false with ⟨cleared, g₁⟩
  simp only [hc] at hw htable hdone ⊢
  cases cleared with
  | true =>
    rw [if_pos rfl]
    have hset : ∀ j, ((g.table h).entries.array.set i none).getD j none
          = (g.table h).entries.array.getD j none
        ∨ ((g.table h).entries.array.set i none).getD j none = none := by
      intro j
      simp only [List.getD_eq_getElem?_getD, List.getElem?_set]
      split_ifs
      · exact .inr rfl
      · exact .inr rfl
      · exact .inl rfl
    refine ⟨hw.trans (weakened_setentries ?_ ?_ ?_ ?_), fun o ho => ?_⟩
    · rw [htable]
      exact hset
    · rw [htable]
    · rw [htable]
      exact fun _ => rfl
    · rw [htable]
      exact fun _ => .inl rfl
    · rw [setentries] at ho
      simp only [Function.update_self, List.getD_eq_getElem?_getD, List.getElem?_set, if_pos] at ho
      split_ifs at ho <;> exact absurd ho.symm (Option.some_ne_none o)
  | false =>
    refine ⟨hw, fun o ho => hdone rfl o ?_⟩
    simpa only [Bool.false_eq_true, if_false, htable] using ho

theorem clearnode_weakened (h i : Nat) (g : GlobalState K) :
    Weakened g (clearnode h g i)
      ∧ ∀ o ∈ entryRefs (((clearnode h g i).table h).entries.node i),
        iswhite ((clearnode h g i).gch o) = false := by
  rw [clearnode]
  by_cases hval : ((g.table h).entries.node i).val.isNone = true
  · simp only [hval, if_true]
    refine ⟨.refl g, fun o ho => ?_⟩
    rw [mem_entryRefs, Option.isNone_iff_eq_none.mp hval] at ho
    exact Bool.noConfusion ho.1
  · simp only [hval, Bool.false_eq_true, if_false]
    set n := (g.table h).entries.node i with hn
    obtain ⟨hw, htable, hkey⟩ := iscleared_weakened g (n.key.map .key) true
    rcases hc : iscleared g (n.key.map .key) true with ⟨cleared, g₁⟩
    simp only [hc] at hw htable hkey ⊢
    -- the value is looked at only if the key is to stay
    have hsecond : Weakened g₁ (if cleared then (true, g₁) else iscleared g₁ n.val false).2
        ∧ (if cleared then (true, g₁) else iscleared g₁ n.val false).2.table = g₁.table
        ∧ ((if cleared then (true, g₁) else iscleared g₁ n.val false).1 = false → cleared = false
          ∧ ∀ o, gcobject n.val = some o →
            iswhite ((if cleared then (true, g₁) else iscleared g₁ n.val false).2.gch o) = false) := by
      cases cleared with
      | true => exact ⟨.refl g₁, rfl, fun h => Bool.noConfusion h⟩
      | false =>
        obtain ⟨hw, htable, hdone⟩ := iscleared_weakened g₁ n.val false
        exact ⟨hw, htable, fun h => ⟨rfl, hdone h⟩⟩
    rcases hc' : (if cleared then (true, g₁) else iscleared g₁ n.val false) with ⟨cleared', g₂⟩
    simp only [hc'] at hsecond ⊢
    obtain ⟨hw', htable', hvalue⟩ := hsecond
    have htables : g₂.table = g.table := htable'.trans htable
    cases cleared' with
    | true =>
      rw [if_pos rfl]
      set t := (g.table h).entries with ht
      have hd := died_removeentry { t with node := Function.update t.node i { n with val := none } } i
      have hnone : ((removeentry { t with node := Function.update t.node i { n with val := none } } i).node
          i).val = none := by
        rw [hd.val]
        simp only [Function.update_self]
      refine ⟨(hw.trans hw').trans (weakened_setentries ?_ ?_ ?_ ?_), fun o ho => ?_⟩
      · rw [htables, hd.array]
        exact fun _ => .inl rfl
      · rw [htables, hd.lsizenode]
      · intro j
        rw [htables, hd.key]
        by_cases hj : j = i
        · simp only [hj, Function.update_self, hn]
          rfl
        · simp only [Function.update_of_ne hj, ← ht]
      · intro j
        rw [htables, hd.val]
        by_cases hj : j = i
        · exact .inr (by simp only [hj, Function.update_self])
        · exact .inl (by simp only [Function.update_of_ne hj, ← ht])
      · rw [setentries] at ho
        simp only [Function.update_self] at ho
        rw [mem_entryRefs, hnone] at ho
        exact Bool.noConfusion ho.1
    | false =>
      simp only [Bool.false_eq_true, if_false]
      refine ⟨hw.trans hw', fun o ho => ?_⟩
      rw [htables, mem_entryRefs] at ho
      obtain ⟨hkept, hmarked⟩ := hvalue rfl
      rcases ho.2 with ho | ho
      · exact hw'.seen o (hkey hkept o ho)
      · exact hmarked o ho

/-- A weak table after `cleartable`: of what it has left nothing is white. -/
def TableCleared (o : GCObject) (g : GlobalState K) : Prop :=
  ∀ h, o = .table h →
    ((g.table h).weakvalue = true → ∀ r ∈ objects (g.table h).entries.array, iswhite (g.gch r) = false)
      ∧ ∀ i < (g.table h).entries.sizenode, ∀ r ∈ entryRefs ((g.table h).entries.node i),
        iswhite (g.gch r) = false

omit [Collectable K] in
theorem Weakened.weakvalue (h : Weakened g g') (n : Nat) :
    (g'.table n).weakvalue = (g.table n).weakvalue := congrArg Prod.snd (h.bits n)

theorem TableCleared.weakened (hc : TableCleared o g) (hw : Weakened g g') : TableCleared o g' := by
  intro h ho
  obtain ⟨harray, hnodes⟩ := hc h ho
  refine ⟨fun hv r hr => hw.seen r (harray (hw.weakvalue h ▸ hv) r (hw.objects h hr)), fun i hi r hr => ?_⟩
  rw [hw.sizenode] at hi
  exact hw.seen r (hnodes i hi r (hw.entryRefs h i hr))

theorem clearentries_weakened (g : GlobalState K) (o : GCObject) :
    Weakened g (clearentries g o) ∧ TableCleared o (clearentries g o) := by
  cases o with
  | table h =>
    rw [clearentries]
    have hvalues := foldl_rel (f := clearvalue h) (R := Weakened)
      (Q := fun i g => ∀ r, gcobject ((g.table h).entries.array.getD i none) = some r →
        iswhite (g.gch r) = false)
      Weakened.refl Weakened.trans (fun i s s' hw hq r hr => by
        rcases hw.array h i with heq | hnone
        · exact hw.seen r (hq r (heq ▸ hr))
        · rw [hnone] at hr
          exact absurd hr.symm (Option.some_ne_none r))
      (List.range (g.table h).entries.array.length).reverse g fun s i _ _ => clearvalue_weakened h i s
    -- the array, if the values are weak
    have hfirst : ∃ g₁, (if (g.table h).weakvalue then
          (List.range (g.table h).entries.array.length).reverse.foldl (clearvalue h) g else g) = g₁
        ∧ Weakened g g₁ ∧ ((g.table h).weakvalue = true → ∀ r ∈ objects (g₁.table h).entries.array,
          iswhite (g₁.gch r) = false) := by
      split_ifs with hv
      · refine ⟨_, rfl, hvalues.1, fun _ r hr => ?_⟩
        obtain ⟨i, hi⟩ := mem_objects_getD.mp hr
        refine hvalues.2 i (List.mem_reverse.mpr (List.mem_range.mpr ?_)) r hi
        -- a value is left only where there was one
        by_contra hout
        rcases hvalues.1.array h i with heq | hnone
        · rw [heq, List.getD_eq_default _ _ (Nat.le_of_not_lt hout)] at hi
          exact absurd hi.symm (Option.some_ne_none r)
        · rw [hnone] at hi
          exact absurd hi.symm (Option.some_ne_none r)
      · exact ⟨g, rfl, .refl g, fun hv' => absurd hv' hv⟩
    obtain ⟨g₁, heq, hw, harray⟩ := hfirst
    simp only [heq]
    have hnodes := foldl_rel (f := clearnode h) (R := Weakened)
      (Q := fun i g => ∀ r ∈ entryRefs ((g.table h).entries.node i), iswhite (g.gch r) = false)
      Weakened.refl Weakened.trans (fun i s s' hw hq r hr => hw.seen r (hq r (hw.entryRefs h i hr)))
      (List.range (g.table h).entries.sizenode).reverse g₁ fun s i _ _ => clearnode_weakened h i s
    refine ⟨hw.trans hnodes.1, fun n hn => ?_⟩
    obtain rfl := GCObject.table.inj hn
    refine ⟨fun hv r hr => ?_, fun i hi => hnodes.2 i (List.mem_reverse.mpr (List.mem_range.mpr ?_))⟩
    · rw [(hw.trans hnodes.1).weakvalue] at hv
      exact hnodes.1.seen r (harray hv r (hnodes.1.objects h hr))
    · rwa [(hw.trans hnodes.1).sizenode] at hi
  | _ => exact ⟨.refl g, fun h hn => GCObject.noConfusion hn⟩

/-- **`cleartable`**: entries of the tables in the list are gone where they had white keys or
values. -/
theorem cleartable_weakened (g : GlobalState K) (l : List GCObject) :
    Weakened g (cleartable g l) ∧ ∀ o ∈ l, TableCleared o (cleartable g l) :=
  foldl_rel (R := Weakened) (Q := TableCleared) Weakened.refl Weakened.trans
    (fun _ _ _ hw hc => hc.weakened hw) l g fun s o _ _ => clearentries_weakened s o

/-- **What is left refers to nothing white**, if the mark phase was complete before. -/
theorem cleartable_closed (ht : MarkPhase P g) (hgray : g.gray = []) (hP : P o)
    (hs : iswhite ((cleartable g g.weak).gch o) = false) :
    ∀ r ∈ (cleartable g g.weak).refs o, iswhite ((cleartable g g.weak).gch r) = false := by
  obtain ⟨hw, hcleared⟩ := cleartable_weakened g g.weak
  set g' := cleartable g g.weak with hg'
  intro r hr
  -- clearing marks no object but strings
  have hmarked (hne : ∀ ts, o ≠ .string ts) : iswhite (g.gch o) = false := by
    rw [← hw.other o hne]
    exact hs
  have hstrong (hne : ∀ ts, o ≠ .string ts) (hr : r ∈ g.strongRefs o) : iswhite (g'.gch r) = false :=
    hw.seen r (ht.traced o ⟨hP, hmarked hne⟩ (hgray ▸ List.not_mem_nil) r hr).2
  cases o with
  | string ts => exact absurd hr List.not_mem_nil
  | table h =>
    have hstrong := hstrong fun _ => GCObject.noConfusion
    rw [mem_strongRefs_table] at hstrong
    by_cases hin : .table h ∈ g.weak
    · -- its bits say which values are weak, and those are cleared
      obtain ⟨n, heq, -, -, hbits⟩ := ht.weak _ hin
      obtain rfl := GCObject.table.inj heq
      obtain ⟨harray, hnodes⟩ := hcleared _ hin h rfl
      rcases List.mem_append.mp hr with hr | hr
      · rcases List.mem_append.mp hr with hr | hr
        · obtain ⟨m, hm, rfl⟩ := List.mem_map.mp hr
          rw [hw.metatable] at hm
          exact hstrong (.inl ⟨m, Option.mem_toList.mp hm, rfl⟩)
        · cases hv : (g'.table h).weakvalue with
          | true => exact harray hv r hr
          | false =>
            rw [hw.weakvalue] at hv
            exact hstrong (.inr (.inl ⟨by rw [← hbits]; exact hv, hw.objects h hr⟩))
      · obtain ⟨b, hb, hr⟩ := List.mem_flatMap.mp hr
        obtain ⟨i, hi, rfl⟩ := List.mem_map.mp hb
        exact hnodes i (List.mem_range.mp hi) r hr
    · -- a table that is not in the list is not weak
      have hmode : ((weakmode g h).1 || (weakmode g h).2) = false := by
        by_contra hmode
        rw [Bool.not_eq_false] at hmode
        rcases ht.found h hP (hmarked fun _ => GCObject.noConfusion) hmode with hin' | hin'
        · rw [hgray] at hin'
          exact absurd hin' List.not_mem_nil
        · exact hin hin'
      obtain ⟨hk, hv⟩ := Bool.or_eq_false_iff.mp hmode
      have hr := hw.refs _ hr
      rcases List.mem_append.mp hr with hr | hr
      · rcases List.mem_append.mp hr with hr | hr
        · obtain ⟨m, hm, rfl⟩ := List.mem_map.mp hr
          exact hstrong (.inl ⟨m, Option.mem_toList.mp hm, rfl⟩)
        · exact hstrong (.inr (.inl ⟨hv, hr⟩))
      · obtain ⟨b, hb, hr⟩ := List.mem_flatMap.mp hr
        obtain ⟨i, hi, rfl⟩ := List.mem_map.mp hb
        refine hstrong (.inr (.inr ⟨i, List.mem_range.mp hi, mem_strongEntry.mpr ?_⟩))
        rw [mem_entryRefs] at hr
        exact ⟨hr.1, hr.2.imp (⟨hk, ·⟩) (⟨hv, ·⟩)⟩
  | userdata u => exact hstrong (fun _ => GCObject.noConfusion) (hw.refs _ hr)
  | upval uv => exact hstrong (fun _ => GCObject.noConfusion) (hw.refs _ hr)
  | function cl => exact hstrong (fun _ => GCObject.noConfusion) (hw.refs _ hr)
  | thread th => exact hstrong (fun _ => GCObject.noConfusion) (hw.refs _ hr)
  | proto p => exact hstrong (fun _ => GCObject.noConfusion) (hw.refs _ hr)

/-! ## Userdata separated -/

/-- What `luaC_separateudata` changes, where userdata with `P` are moved. -/
structure Separated (P : GCObject → Prop) (g g' : GlobalState K) : Prop where
  same : ∃ udata rootgc tmudata, g' = { g with udata, rootgc, tmudata }
  metatable : ∀ u, (g'.udata u).metatable = (g.udata u).metatable
  env : ∀ u, (g'.udata u).env = (g.udata u).env
  finalized : ∀ u, (g'.udata u).finalized = false → (g.udata u).finalized = false
  sublist : g'.rootgc.Sublist g.rootgc
  listed : ∀ o ∈ g.rootgc, o.listed = true → o ∈ g'.rootgc
  tmudata : ∀ u ∈ g'.tmudata, u ∈ g.tmudata ∨ P (.userdata u)

namespace Separated

omit [Collectable K] in
theorem refl (P : GCObject → Prop) (g : GlobalState K) : Separated P g g :=
  ⟨⟨_, _, _, rfl⟩, fun _ => rfl, fun _ => rfl, fun _ h => h, .refl _, fun _ h _ => h, fun _ h => .inl h⟩

omit [Collectable K] in
theorem trans (h : Separated P g g') (h' : Separated P g' g'') : Separated P g g'' where
  same := by
    obtain ⟨_, _, _, rfl⟩ := h.same
    obtain ⟨_, _, _, rfl⟩ := h'.same
    exact ⟨_, _, _, rfl⟩
  metatable u := (h'.metatable u).trans (h.metatable u)
  env u := (h'.env u).trans (h.env u)
  finalized u hu := h.finalized u (h'.finalized u hu)
  sublist := h'.sublist.trans h.sublist
  listed o ho hlist := h'.listed o (h.listed o ho hlist) hlist
  tmudata u hu := (h'.tmudata u hu).elim (h.tmudata u) .inr

variable (h : Separated P g g')

include h

theorem refs (o : GCObject) : g'.refs o = g.refs o := by
  obtain ⟨udata, rootgc, tmudata, rfl⟩ := h.same
  have hmetatable : ∀ u, (udata u).metatable = (g.udata u).metatable := h.metatable
  have henv : ∀ u, (udata u).env = (g.udata u).env := h.env
  cases o with
  | userdata u => simp only [GlobalState.refs, hmetatable, henv]
  | _ => rfl

theorem strongRefs (o : GCObject) : g'.strongRefs o = g.strongRefs o := by
  have hrefs := h.refs o
  obtain ⟨udata, rootgc, tmudata, rfl⟩ := h.same
  cases o <;> first | rfl | exact hrefs

theorem markPhase (ht : MarkPhase P g) : MarkPhase P g' := by
  have hstrong := h.strongRefs
  obtain ⟨udata, rootgc, tmudata, rfl⟩ := h.same
  exact ⟨⟨fun o ho r hr => ht.closed.refs o ho r (hstrong o ▸ hr), ht.closed.wf⟩,
    fun a ha hp b hb => ht.traced a ha hp b (hstrong a ▸ hb), ht.gray, ht.grayagain, ht.weak, ht.found⟩

theorem fasttm (mt : Option Nat) (e : TMS) : fasttm g' mt e = fasttm g mt e := by
  obtain ⟨udata, rootgc, tmudata, rfl⟩ := h.same
  rfl

omit [Collectable K] in
theorem heap (hheap : Heap P g) : Heap P g' :=
  ⟨h.sublist.nodup hheap.nodup, fun o ho hlist => h.listed o (hheap.linked o ho hlist) hlist⟩

end Separated

/-- A userdata that has not been finalized, with a finalizer. -/
def Finalizable (g : GlobalState K) (u : Nat) : Prop :=
  (g.udata u).finalized = false ∧ (fasttm g (g.udata u).metatable .TM_GC).isSome = true

theorem Separated.finalizable (h : Separated P g g') {u : Nat} (hu : Finalizable g' u) : Finalizable g u :=
  ⟨h.finalized u hu.1, by rw [← h.fasttm, ← h.metatable]; exact hu.2⟩

theorem separate_separated (all : Bool) (hP : ∀ u, o = .userdata u → Finalizable g u → P o) :
    Separated P g (separate all g o) := by
  cases o with
  | userdata u =>
    rw [separate]
    set g₁ : GlobalState K := { g with
      udata := Function.update g.udata u { g.udata u with finalized := true } } with hg₁
    have hudata : ∀ u', (g₁.udata u').metatable = (g.udata u').metatable
        ∧ (g₁.udata u').env = (g.udata u').env
        ∧ ((g₁.udata u').finalized = false → (g.udata u').finalized = false) := by
      intro u'
      by_cases hu : u' = u
      · rw [hu, hg₁]
        simp only [Function.update_self, true_and]
        exact fun hfalse => Bool.noConfusion hfalse
      · rw [hg₁]
        simp only [Function.update_of_ne hu, true_and]
        exact id
    simp only
    -- marked or finalized; without a finalizer; moved to `tmudata`
    split_ifs with hskip hnone
    · exact .refl P g
    · exact ⟨⟨_, _, _, rfl⟩, fun u' => (hudata u').1, fun u' => (hudata u').2.1, fun u' => (hudata u').2.2,
        .refl _, fun _ h _ => h, fun _ h => .inl h⟩
    · refine ⟨⟨_, _, _, rfl⟩, fun u' => (hudata u').1, fun u' => (hudata u').2.1, fun u' => (hudata u').2.2,
        List.erase_sublist, fun o ho hlist => ?_, fun u' hu' => ?_⟩
      · exact (List.mem_erase_of_ne fun heq => by rw [heq] at hlist; exact Bool.noConfusion hlist).mpr ho
      · rcases List.mem_append.mp hu' with hu' | hu'
        · exact .inl hu'
        · rw [List.mem_singleton.mp hu']
          rw [(hudata u).1] at hnone
          rw [Bool.or_eq_true, not_or, Bool.not_eq_true] at hskip
          have hsome : (fasttm g (g.udata u).metatable .TM_GC).isSome = true := by
            have hnone : ¬ (fasttm g (g.udata u).metatable .TM_GC).isNone = true := hnone
            cases hf : fasttm g (g.udata u).metatable .TM_GC with
            | none => exact absurd (by rw [hf]; rfl) hnone
            | some v => rfl
          exact .inr (hP u rfl ⟨by simpa using hskip.2, hsome⟩)
  | _ => exact .refl P g

theorem luaC_separateudata_separated (all : Bool)
    (hP : ∀ u, .userdata u ∈ g.rootgc → Finalizable g u → P (.userdata u)) :
    Separated P g (luaC_separateudata g all) :=
  (foldl_rel (R := Separated P) (Q := fun _ _ => True) (.refl P) Separated.trans (fun _ _ _ _ _ => trivial) _ g
    fun g' o ho hsep => by
      refine ⟨separate_separated all fun u hu hfinal => ?_, trivial⟩
      rw [hu] at ho ⊢
      exact hP u ((List.dropWhile_sublist _).subset (List.mem_of_mem_tail ho)) (hsep.finalizable hfinal)).1

/-! ## The parts of `atomic` -/

variable [LawfulCollectable K]

/-- The invariant of the mark phase with that of `rootgc`. -/
structure Phase (P : GCObject → Prop) (g : GlobalState K) : Prop where
  mark : MarkPhase P g
  heap : Heap P g

theorem Phase.marks (h : Phase P g) (hm : Marks P g g') : Phase P g' ∧ Lasts P g g' :=
  ⟨⟨hm.markPhase h.mark, h.heap.of_rootgc hm.tidied.rootgc⟩, hm.tidied, hm.seen, hm.white, hm.only⟩

theorem Phase.propagateall (h : Phase P g) :
    Phase P (propagateall g) ∧ (propagateall g).gray = [] ∧ Lasts P g (propagateall g) := by
  obtain ⟨ht, hgray, hlasts⟩ := propagateall_done h.heap h.mark
  exact ⟨⟨ht, h.heap.of_rootgc hlasts.tidied.rootgc⟩, hgray, hlasts⟩

omit [LawfulCollectable K] in
/-- The list `gray` is empty, and filled again from the others. -/
theorem Phase.relist (h : Phase P g) (hnil : g.gray = []) (gray grayagain weak : List GCObject)
    (hgray : ∀ o ∈ gray, o ∈ g.grayagain ∨ o ∈ g.weak) (hagain : grayagain ⊆ g.grayagain)
    (hweak : weak ⊆ g.weak) (hkept : ∀ o ∈ g.weak, o ∈ gray ∨ o ∈ weak) :
    Phase P { g with gray, grayagain, weak } ∧ Lasts P g { g with gray, grayagain, weak } := by
  have ht := h.mark
  refine ⟨⟨⟨⟨ht.closed.refs, ht.closed.wf⟩, fun a ha _ => ht.traced a ha (hnil ▸ List.not_mem_nil),
    fun o ho => ?_, fun o ho => ht.grayagain o (hagain ho), fun o ho => ht.weak o (hweak ho),
    fun n hn hs hmode => ?_⟩, h.heap.nodup, h.heap.linked⟩,
    ⟨rfl, fun _ => rfl, fun _ => .refl _, fun _ => .refl _⟩, fun o ho => ho, fun _ _ _ => rfl,
    fun o hn => absurd hn (not_newly_self g o)⟩
  · rcases hgray o ho with ho | ho
    · exact ht.grayagain o ho
    · obtain ⟨n, rfl, hP, hs, -⟩ := ht.weak o ho
      exact ⟨hP, rfl, hs⟩
  · -- a weak table that has been marked is in the list `weak`
    refine hkept _ ((ht.found n hn hs hmode).resolve_left ?_)
    rw [hnil]
    exact List.not_mem_nil

theorem remarkupvals_marks (hclosed : ClosedIn P g)
    (hP : ∀ uv ∈ g.uvhead, iswhite (g.gch (.upval uv)) = false → P (.upval uv)) :
    Marks P g (remarkupvals g) :=
  (foldl_rel (R := Marks P) (Q := fun _ _ => True) (.refl _ P) MarksBut.trans (fun _ _ _ _ _ => trivial)
    g.uvhead g fun g' uv huv hm => by
      refine ⟨?_, trivial⟩
      split_ifs with hgray
      · -- it has been marked, before or now
        have hs : iswhite (g'.gch (.upval uv)) = false := by
          simp only [isgray, Bool.and_eq_true, Bool.not_eq_true'] at hgray
          exact hgray.2
        have hPuv : P (.upval uv) := by
          cases hw : iswhite (g.gch (.upval uv)) with
          | true => exact hm.only _ ⟨hw, hs⟩
          | false => exact hP uv huv hw
        have hclosed' := hclosed.tidied hm.tidied
        exact (markvalue_marks hclosed' fun o ho => hclosed'.refs _ hPuv o
          (mem_objects.mpr ⟨_, List.mem_singleton_self _, ho⟩)).1
      · exact .refl _ P g').1

/-- The mark phase goes on, with the running thread and the metatables of types marked. -/
theorem remark_phase (h : Phase P g)
    (huv : ∀ uv ∈ g.uvhead, iswhite (g.gch (.upval uv)) = false → P (.upval uv)) (hL : P (.thread g.L))
    (hmt : ∀ m, some m ∈ g.mt → P (.table m)) :
    Phase P (remark g) ∧ (remark g).gray = [] ∧ Lasts P g (remark g)
      ∧ iswhite ((remark g).gch (.thread g.L)) = false
      ∧ ∀ m, some m ∈ g.mt → iswhite ((remark g).gch (.table m)) = false := by
  -- each part keeps the invariant, so that nothing is lost between them
  obtain ⟨hp₁, hl₁⟩ := h.marks (remarkupvals_marks h.mark.closed huv)
  obtain ⟨hp₂, hgray₂, hl₂⟩ := hp₁.propagateall
  obtain ⟨hp₃, hl₃⟩ := hp₂.relist hgray₂ (propagateall (remarkupvals g)).weak _ [] (fun _ ho => .inr ho)
    (List.Subset.refl _) (List.nil_subset _) fun _ ho => .inl ho
  have hl := (hl₁.trans hl₂).trans hl₃
  rw [remark]
  set g₃ : GlobalState K := { propagateall (remarkupvals g) with
    gray := (propagateall (remarkupvals g)).weak, weak := [] } with hg₃
  have hL₃ := hl.tidied.L
  have hmt₃ := hl.tidied.mt
  obtain ⟨hthread, hseenL⟩ := markobject_marks hp₃.mark.closed (hL₃.symm ▸ hL)
  have hmt₄ := hthread.tidied.mt.trans hmt₃
  obtain ⟨htypes, hseenmt⟩ := markmt_marks (P := P) (g := markobject g₃ (.thread g₃.L)) fun m hm =>
    hmt m (hmt₄ ▸ hm)
  obtain ⟨hp₅, hl₅⟩ := hp₃.marks (hthread.trans htypes)
  obtain ⟨hp₆, hgray₆, hl₆⟩ := hp₅.propagateall
  obtain ⟨hp₇, hl₇⟩ := hp₆.relist hgray₆ _ [] _ (fun _ ho => .inl ho) (List.nil_subset _)
    (List.Subset.refl _) fun _ ho => .inr ho
  obtain ⟨hp₈, hgray₈, hl₈⟩ := hp₇.propagateall
  have hrest := (hl₆.trans hl₇).trans hl₈
  refine ⟨hp₈, hgray₈, (hl.trans hl₅).trans hrest, hrest.seen _ ?_, fun m hm => hrest.seen _ ?_⟩
  · rw [← hL₃]
    exact htypes.seen _ hseenL
  · exact hseenmt m (hmt₄.symm ▸ hm)

theorem marktmu_marks (hclosed : ClosedIn P g) (hP : ∀ u ∈ g.tmudata, P (.userdata u)) :
    Marks P g (marktmu g) ∧ ∀ u ∈ g.tmudata, iswhite ((marktmu g).gch (.userdata u)) = false :=
  foldl_marks (Q := fun u g => iswhite (g.gch (.userdata u)) = false) (fun u g g' hm hs => hm.seen _ hs)
    g.tmudata g fun g' u hu ht => by
      -- white again at first, whatever it was, and black in the end
      simp only [reallymarkobject, reallymarkvalue, paint_paint]
      exact markudata_marks (f := gray2black ∘ white2gray ∘ makewhite g'.toStrings) (fun _ => rfl)
        (hclosed.tidied ht) (hP u hu)

/-! ## Nothing accessible is dead -/

omit [Collectable K] [LawfulCollectable K] in
theorem white_eq_false {m : Marked} (h : iswhite m = false) (white : Bool) : m.white white = false := by
  obtain ⟨h₀, h₁⟩ := Bool.or_eq_false_iff.mp h
  cases white
  · exact h₀
  · exact h₁

/-- What no part of a collection changes. -/
structure Unmoved (g g' : GlobalState K) : Prop where
  there : g'.there = g.there
  tsv : g'.tsv = g.tsv
  mainthread : g'.mainthread = g.mainthread
  L : g'.L = g.L
  registry : g'.registry = g.registry
  mt : g'.mt = g.mt
  currentwhite : g'.currentwhite = g.currentwhite

namespace Unmoved

omit [Collectable K] [LawfulCollectable K] in
theorem of_bare (h : g'.bare = g.bare) : Unmoved g g' :=
  ⟨(congrArg GlobalState.there h :), (congrArg (fun g => g.tsv) h :), (congrArg GlobalState.mainthread h :),
    (congrArg GlobalState.L h :), (congrArg GlobalState.registry h :), (congrArg GlobalState.mt h :),
    (congrArg (fun g => g.currentwhite) h :)⟩

omit [Collectable K] [LawfulCollectable K] in
theorem of_separated (h : Separated P g g') : Unmoved g g' := by
  obtain ⟨udata, rootgc, tmudata, rfl⟩ := h.same
  exact ⟨rfl, rfl, rfl, rfl, rfl, rfl, rfl⟩

omit [Collectable K] [LawfulCollectable K] in
theorem trans (h : Unmoved g g') (h' : Unmoved g' g'') : Unmoved g g'' :=
  ⟨h'.there.trans h.there, h'.tsv.trans h.tsv, h'.mainthread.trans h.mainthread, h'.L.trans h.L,
    h'.registry.trans h.registry, h'.mt.trans h.mt, h'.currentwhite.trans h.currentwhite⟩

variable (h : Unmoved g g')

include h

omit [Collectable K] [LawfulCollectable K] in
theorem allocated (o : GCObject) : g'.allocated o ↔ g.allocated o := by
  cases o <;> simp only [GlobalState.allocated, h.there, h.tsv]

omit [LawfulCollectable K] in
theorem markroots : g'.markroots = g.markroots := by
  rw [GlobalState.markroots, GlobalState.markroots, h.mainthread, h.registry, h.mt]

end Unmoved

omit [LawfulCollectable K] in
theorem roots_cases (ho : o ∈ g.roots) :
    o ∈ g.markroots ∨ o = .thread g.L ∨ ∃ u ∈ g.tmudata, .userdata u = o := by
  rcases List.mem_append.mp ho with ho | ho
  · rcases List.mem_append.mp ho with ho | ho
    · rcases List.mem_cons.mp ho with rfl | ho
      · exact .inl List.mem_cons_self
      · rcases List.mem_cons.mp ho with rfl | ho
        · exact .inr (.inl rfl)
        · exact .inl (List.mem_append_left _ (List.mem_cons_of_mem _ ho))
    · exact .inl (List.mem_append_right _ ho)
  · exact .inr (.inr (List.mem_map.mp ho))

/-- The state in which `atomic` clears the weak tables. -/
theorem preserve_phase (hp : Phase P g)
    (hfinal : ∀ u, .userdata u ∈ g.rootgc → Finalizable g u → P (.userdata u))
    (htmu : ∀ u ∈ g.tmudata, P (.userdata u)) :
    ∃ g', propagateall (marktmu (luaC_separateudata g false)) = g' ∧ Phase P g' ∧ g'.gray = []
      ∧ (∀ o, g'.refs o ⊆ g.refs o) ∧ (∀ o, iswhite (g.gch o) = false → iswhite (g'.gch o) = false)
      ∧ (∀ o, iswhite (g'.gch o) = true → ∀ w, (g'.gch o).white w = (g.gch o).white w)
      ∧ (∀ o, Newly g g' o → P o)
      ∧ (∀ u ∈ g'.tmudata, P (.userdata u) ∧ iswhite (g'.gch (.userdata u)) = false) ∧ Unmoved g g' := by
  have hsep := luaC_separateudata_separated false hfinal
  set g₁ := luaC_separateudata g false
  have hp₁ : Phase P g₁ := ⟨hsep.markPhase hp.mark, hsep.heap hp.heap⟩
  have htmu₁ : ∀ u ∈ g₁.tmudata, P (.userdata u) := fun u hu => (hsep.tmudata u hu).elim (htmu u) id
  have hgch : ∀ o, g₁.gch o = g.gch o := fun o => by
    obtain ⟨_, _, _, heq⟩ := hsep.same
    rw [heq]
    cases o <;> rfl
  -- the userdata set aside are marked, and then all that they lead to
  obtain ⟨hmarks, hseen⟩ := marktmu_marks hp₁.mark.closed htmu₁
  obtain ⟨hp₂, hl₂⟩ := hp₁.marks hmarks
  obtain ⟨hp₃, hgray₃, hl₃⟩ := hp₂.propagateall
  have hl := hl₂.trans hl₃
  have htmudata := hl.tidied.tmudata
  refine ⟨_, rfl, hp₃, hgray₃, fun o => ?_, fun o ho => hl.seen o ?_, fun o hw w => ?_, fun o hn => ?_,
    fun u hu => ?_, (Unmoved.of_separated hsep).trans (.of_bare hl.tidied.bare)⟩
  · rw [← hsep.refs]
    exact hl.tidied.refs o
  · rwa [hgch]
  · rw [hl.white o hw, hgch]
  · rw [Newly, ← hgch] at hn
    exact hl.only o hn
  · rw [htmudata] at hu
    exact ⟨htmu₁ u hu, hl₃.seen _ (hseen u hu)⟩

/-- What `atomic` starts from: the mark phase, with nothing left to be followed, and `P` for
all it comes upon. -/
structure Ready (P : GCObject → Prop) (g : GlobalState K) : Prop where
  phase : Phase P g
  markroots : ∀ o ∈ g.markroots, P o ∧ iswhite (g.gch o) = false
  L : P (.thread g.L)
  uvhead : ∀ uv ∈ g.uvhead, iswhite (g.gch (.upval uv)) = false → P (.upval uv)
  wf : ∀ u m, .userdata u ∈ g.rootgc → (g.udata u).metatable = some m → Wf (g.table m).entries
  finalizable : ∀ u, .userdata u ∈ g.rootgc → Finalizable g u → P (.userdata u)
  tmudata : ∀ u ∈ g.tmudata, P (.userdata u)

/-- What `atomic` has done before it flips the current white. -/
structure Finished (P : GCObject → Prop) (g g' : GlobalState K) : Prop where
  unmoved : Unmoved g g'
  refs : ∀ o, g'.refs o ⊆ g.refs o
  roots : ∀ o ∈ g'.roots, P o ∧ iswhite (g'.gch o) = false
  closed : ∀ o, P o → iswhite (g'.gch o) = false → ∀ r ∈ g'.refs o, iswhite (g'.gch r) = false
  left : ∀ o, (∀ ts, o ≠ .string ts) → ¬ P o → iswhite (g.gch o) = true →
    ∀ w, (g'.gch o).white w = (g.gch o).white w

/-- **What `atomic` does.** -/
theorem atomic_finished (h : Ready P g) : ∃ g', atomic g = flipwhite g' ∧ Finished P g g' := by
  -- what was written since it was marked is followed again
  obtain ⟨hp₁, -, hl₁, hseenL, -⟩ := remark_phase h.phase h.uvhead h.L fun m hm =>
    (h.markroots _ (List.mem_append_right _ (List.mem_map.mpr ⟨m, List.mem_filterMap.mpr ⟨_, hm, rfl⟩, rfl⟩))).1
  rw [atomic]
  generalize remark g = g₁ at hp₁ hl₁ hseenL ⊢
  have hfinal : ∀ u, .userdata u ∈ g₁.rootgc → Finalizable g₁ u → P (.userdata u) := by
    intro u hu hfinal
    rw [hl₁.tidied.rootgc] at hu
    rw [Finalizable, hl₁.tidied.udata, hl₁.tidied.fasttm fun m hm => h.wf u m hu hm] at hfinal
    exact h.finalizable u hu hfinal
  -- userdata with finalizers are kept, with what they lead to
  obtain ⟨g₂, heq, hp₂, hgray₂, hrefs₂, hseen₂, hwhite₂, honly₂, htmu₂, hun₂⟩ :=
    preserve_phase hp₁ hfinal fun u hu => h.tmudata u (hl₁.tidied.tmudata ▸ hu)
  simp only [heq]
  -- only now the weak tables lose what has stayed white
  obtain ⟨hw, -⟩ := cleartable_weakened g₂ g₂.weak
  have hclosed := fun o => cleartable_closed (o := o) hp₂.mark hgray₂
  have htmu₃ : (cleartable g₂ g₂.weak).tmudata = g₂.tmudata := (congrArg GlobalState.tmudata hw.bare :)
  generalize cleartable g₂ g₂.weak = g₃ at hw htmu₃ hclosed ⊢
  have hun := ((Unmoved.of_bare hl₁.tidied.bare).trans hun₂).trans (.of_bare hw.bare)
  refine ⟨g₃, rfl, hun, fun o r hr => hl₁.tidied.refs o (hrefs₂ o (hw.refs o hr)), fun r hr => ?_, hclosed,
    fun o hne hP hwhite w => ?_⟩
  · rcases roots_cases hr with hr | rfl | ⟨u, hu, rfl⟩
    · rw [hun.markroots] at hr
      obtain ⟨hP, hs⟩ := h.markroots r hr
      exact ⟨hP, hw.seen r (hseen₂ r (hl₁.seen r hs))⟩
    · rw [hun.L]
      exact ⟨h.L, hw.seen _ (hseen₂ _ hseenL)⟩
    · rw [htmu₃] at hu
      exact ⟨(htmu₂ u hu).1, hw.seen _ (htmu₂ u hu).2⟩
  · -- without `P` it is not marked in any part
    have hwhite₁ : iswhite (g₁.gch o) = true :=
      eq_true_of_ne_false fun hs => hP (hl₁.only o ⟨hwhite, hs⟩)
    have hwhite₂' : iswhite (g₂.gch o) = true :=
      eq_true_of_ne_false fun hs => hP (honly₂ o ⟨hwhite₁, hs⟩)
    rw [hw.other o hne, hwhite₂ o hwhite₂', hl₁.white o hwhite₁]

/-- The mark phase leaves what `atomic` starts from. -/
theorem AllWhite.ready (h : AllWhite g) (hP : ∀ o, P o → g.allocated o) (hclosed : ClosedIn P g)
    (hroots : ∀ o ∈ g.roots, P o)
    (hfinal : ∀ u, .userdata u ∈ g.rootgc → Finalizable g u → P (.userdata u)) :
    ∃ g', propagateall (markroot g) = g' ∧ Ready P g' ∧ Tidied g g'
      ∧ (∀ o, g.allocated o → iswhite (g'.gch o) = false → P o)
      ∧ ∀ o, iswhite (g'.gch o) = true → ∀ w, (g'.gch o).white w = (g.gch o).white w := by
  have hmarkroots : ∀ o ∈ g.markroots, P o := fun o ho => hroots o (markroots_subset ho)
  obtain ⟨ht, -, htidied, hseen, honly, hwhite⟩ := markroot_phase h hP hmarkroots hclosed
  generalize propagateall (markroot g) = g₁ at ht htidied hseen honly hwhite ⊢
  have hun := Unmoved.of_bare htidied.bare
  have hwf : ∀ u m, .userdata u ∈ g.rootgc → (g.udata u).metatable = some m → Wf (g.table m).entries :=
    fun u m hu hm => h.wf m (h.closed _ (h.rootgc _ hu) _ (by simp [GlobalState.refs, hm]))
  refine ⟨g₁, rfl, ?_, htidied, honly, hwhite⟩
  exact
    { phase := ⟨ht, htidied.rootgc ▸ h.nodup, fun o ho hlist => htidied.rootgc ▸ h.linked o (hP o ho) hlist⟩
      markroots := fun o ho => ⟨hmarkroots o (hun.markroots ▸ ho), hseen o (hun.markroots ▸ ho)⟩
      L := hun.L ▸ hroots _ (by simp [GlobalState.roots])
      uvhead := fun uv huv hs => honly _ (h.uvhead uv (htidied.uvhead ▸ huv)) hs
      wf := fun u m hu hm => by
        rw [htidied.rootgc] at hu
        rw [htidied.udata] at hm
        exact (htidied.entries m).wf (hwf u m hu hm)
      finalizable := fun u hu hfin => by
        rw [htidied.rootgc] at hu
        rw [Finalizable, htidied.udata, htidied.fasttm fun m hm => hwf u m hu hm] at hfin
        exact hfinal u hu hfin
      tmudata := fun u hu => by
        rw [htidied.tmudata] at hu
        exact hroots _ (List.mem_append_right _ (List.mem_map.mpr ⟨u, hu, rfl⟩)) }

/-- **After a collection has marked, nothing is dead that the program can get at**: not
through weak tables either, of which the entries that died are gone, and not from the
userdata that wait to be finalized. -/
theorem atomic_accessible (h : AllWhite g) :
    ∀ o, Reaches (atomic (propagateall (markroot g))).refs (· ∈ (atomic (propagateall (markroot g))).roots) o →
      (atomic (propagateall (markroot g))).allocated o
        ∧ (atomic (propagateall (markroot g))).isdead o = false := by
  obtain ⟨g₁, heq₁, hready, htidied, -⟩ := h.ready (P := g.allocated) (fun _ ho => ho) h.closedIn h.roots
    fun u hu _ => h.rootgc _ hu
  obtain ⟨g₂, heq₂, hfin⟩ := atomic_finished hready
  rw [heq₁, heq₂]
  intro o ho
  -- the roots are marked, and what is marked refers to what is marked
  have ho : Reaches g₂.refs (· ∈ g₂.roots) o := ho
  have hmarked : g.allocated o ∧ iswhite (g₂.gch o) = false :=
    ho.of_closed (P := fun o => g.allocated o ∧ iswhite (g₂.gch o) = false) hfin.roots
      fun a ha r hr => ⟨h.closed a ha.1 r (htidied.refs a (hfin.refs a hr)), hfin.closed a ha.1 ha.2 r hr⟩
  refine ⟨?_, white_eq_false ?_ _⟩
  · have hback := (((Unmoved.of_bare htidied.bare).trans hfin.unmoved).allocated o).mpr hmarked.1
    cases o <;> exact hback
  · cases o <;> exact hmarked.2

/-- What a collection keeps by itself: the roots, and userdata with finalizers. -/
def GlobalState.Held (g : GlobalState K) (o : GCObject) : Prop :=
  o ∈ g.roots ∨ o ∈ g.rootgc ∧ ∃ u, o = .userdata u ∧ Finalizable g u

/-- **Garbage is dead then**: all but strings that strong references do not lead to from
the roots or from userdata with finalizers. -/
theorem atomic_garbage (h : AllWhite g) :
    ∀ o, g.allocated o → (∀ ts, o ≠ .string ts) → ¬ Reaches g.strongRefs g.Held o →
      (atomic (propagateall (markroot g))).isdead o = true := by
  intro o ho hne hgarbage
  have hallocated : ∀ o, Reaches g.strongRefs g.Held o → g.allocated o := fun o hreach =>
    hreach.of_closed (fun a ha => ha.elim (h.roots a) fun ha => h.rootgc a ha.1) h.closedIn.refs
  obtain ⟨g₁, heq₁, hready, htidied, honly, hwhite⟩ := h.ready (P := Reaches g.strongRefs g.Held) hallocated
    ⟨fun o ho r hr => .ref ho hr, fun n hn => h.wf n (hallocated _ hn)⟩ (fun o ho => .root (.inl ho))
    fun u hu hfinal => .root (.inr ⟨hu, u, rfl, hfinal⟩)
  obtain ⟨g₂, heq₂, hfin⟩ := atomic_finished hready
  have hwhite₁ : iswhite (g₁.gch o) = true := eq_true_of_ne_false fun hs => hgarbage (honly o ho hs)
  have hsame : (g₂.gch o).white g.currentwhite = true := by
    rw [hfin.left o hne hgarbage hwhite₁, hwhite o hwhite₁]
    exact h.white o ho
  have hcurrent : g₂.currentwhite = g.currentwhite :=
    ((Unmoved.of_bare htidied.bare).trans hfin.unmoved).currentwhite
  rw [heq₁, heq₂, GlobalState.isdead]
  have hflip : (flipwhite g₂).currentwhite = !g₂.currentwhite := rfl
  rw [hflip, Bool.not_not, hcurrent]
  cases o <;> exact hsame

end

/-- The userdata of the sample waits for its finalizer, and the captured table lives on. -/
theorem atomic_accessible_sampleHeap :
    (atomic (propagateall (markroot sampleHeap))).tmudata = [0]
      ∧ (atomic (propagateall (markroot sampleHeap))).isdead (.userdata 0) = false
      ∧ (atomic (propagateall (markroot sampleHeap))).isdead (.table 1) = false := by
  have huserdata : GCObject.userdata 0 ∈ (atomic (propagateall (markroot sampleHeap))).roots := by
    decide +kernel
  refine ⟨by decide +kernel, (atomic_accessible allWhite_sampleHeap _ (.root huserdata)).2, ?_⟩
  have hthread : Reaches (atomic (propagateall (markroot sampleHeap))).refs
      (· ∈ (atomic (propagateall (markroot sampleHeap))).roots) (.thread 0) :=
    .root (by decide +kernel)
  have hfunction := hthread.ref (b := .function 0) (by decide +kernel)
  have hupval := hfunction.ref (b := .upval 0) (by decide +kernel)
  exact (atomic_accessible allWhite_sampleHeap _ (hupval.ref (b := .table 1) (by decide +kernel))).2

theorem held_sampleHeap {o : GCObject} (h : sampleHeap.Held o) : o = .thread 0 ∨ o = .userdata 0 := by
  rcases h with h | ⟨h, u, rfl, -⟩
  · exact Or.inl (by simpa [GlobalState.roots, sampleHeap, objects, gcobject] using h)
  · exact Or.inr (by simpa [sampleHeap, sampleRootgc] using h)

/-- The value that only a weak table had is dead, and gone from the table. -/
theorem atomic_garbage_sampleHeap :
    ¬ Reaches sampleHeap.strongRefs sampleHeap.Held (.table 4)
      ∧ (atomic (propagateall (markroot sampleHeap))).isdead (.table 4) = true
      ∧ ((sampleHeap.table 1).entries.lookup (Key.ofInt 1)).isSome = true
      ∧ ((atomic (propagateall (markroot sampleHeap))).table 1).entries.lookup (Key.ofInt 1) = none := by
  have hgarbage := unreached_sampleHeap fun _ => held_sampleHeap
  refine ⟨hgarbage, ?_, by decide +kernel, ?_⟩
  · exact atomic_garbage allWhite_sampleHeap _ rfl (fun _ => GCObject.noConfusion) hgarbage
  · exact Option.isNone_iff_eq_none.mp (by decide +kernel)

end NostalgiaConv.Collector
