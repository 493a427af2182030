/-
`lua/lgc.c`: the mark phase, one object at a time.

`reallymarkobject` takes the white from an object; a table, a function, a thread or a
prototype goes to the list `gray` until `propagatemark` follows what it refers to. Strings,
userdata and upvalues are done at once.
-/
import NostalgiaConv.GcObjects

set_option autoImplicit false

namespace NostalgiaConv.Collector

open NostalgiaConv.StringTable NostalgiaConv.HashTable

section

variable {K : Type} [Collectable K]

/-! ## Marking -/

def linkgray (g : GlobalState K) (o : GCObject) : GlobalState K := { g with gray := o :: g.gray }

/-- `markobject` of a `Table *`. -/
def marktable (g : GlobalState K) (h : Nat) : GlobalState K :=
  if iswhite (g.gch (.table h)) then linkgray (paint white2gray g (.table h)) (.table h) else g

/-- `markobject` of a `Table *` that may be `NULL`. -/
def markmetatable (g : GlobalState K) (mt : Option Nat) : GlobalState K := mt.elim g (marktable g)

/-- `reallymarkobject`, of what a value can point to. -/
def reallymarkvalue (g : GlobalState K) : GCObject → GlobalState K
  | .string ts => paint white2gray g (.string ts)
  | .userdata u =>
    -- udata are never gray
    let g := paint gray2black (paint white2gray g (.userdata u)) (.userdata u)
    marktable (markmetatable g (g.udata u).metatable) (g.udata u).env
  | o => linkgray (paint white2gray g o) o

def markvalue (g : GlobalState K) (v : TValue K) : GlobalState K :=
  match gcobject v with
  | some o => if iswhite (g.gch o) then reallymarkvalue g o else g
  | none => g

def reallymarkobject (g : GlobalState K) : GCObject → GlobalState K
  | .upval uv =>
    let g := markvalue (paint white2gray g (.upval uv)) (g.uvvalue uv)
    -- open upvalues are never black
    if (g.upval uv).isopen then g else paint gray2black g (.upval uv)
  | o => reallymarkvalue g o

def markobject (g : GlobalState K) (o : GCObject) : GlobalState K :=
  if iswhite (g.gch o) then reallymarkobject g o else g

def stringmark (g : GlobalState K) (ts : Nat) : GlobalState K := paint white2gray g (.string ts)

/-! ## Traversing -/

def fasttm (g : GlobalState K) (mt : Option Nat) (e : TMS) : TValue K :=
  mt.bind fun h => (g.table h).entries.lookup (Collectable.setobject (.string (g.tmname e)))

/-- `strchr(svalue(mode), c) != NULL`. -/
def strchr (g : GlobalState K) (ts : Nat) (c : Host.Byte) : Bool :=
  (((g.tsv ts).map (·.bytes)).getD []).takeWhile (· != 0) |>.contains c

/-- Whether the keys and whether the values of a table are weak. -/
def weakmode (g : GlobalState K) (h : Nat) : Bool × Bool :=
  match gcobject (fasttm g (g.table h).metatable .TM_MODE) with
  | some (.string ts) => (strchr g ts 0x6B, strchr g ts 0x76)
  | _ => (false, false)

def setentries (g : GlobalState K) (h : Nat) (t : HashTable.Table K (Value K)) : GlobalState K :=
  { g with table := Function.update g.table h { g.table h with entries := t } }

def setweak (g : GlobalState K) (h : Nat) (weakkey weakvalue : Bool) : GlobalState K :=
  { g with
    table := Function.update g.table h { g.table h with weakkey, weakvalue }
    weak := .table h :: g.weak }

def traversenode (h : Nat) (weakkey weakvalue : Bool) (g : GlobalState K) (i : Nat) :
    GlobalState K :=
  let n := (g.table h).entries.node i
  if n.val.isNone then setentries g h (removeentry (g.table h).entries i) -- remove empty entries
  else
    let g := if weakkey then g else markvalue g (n.key.map .key)
    if weakvalue then g else markvalue g n.val

/-- Whether the table is weak, and the state. -/
def traversetable (g : GlobalState K) (h : Nat) : Bool × GlobalState K :=
  let t := (g.table h).entries
  let g := markmetatable g (g.table h).metatable
  let (weakkey, weakvalue) := weakmode g h
  let g := if weakkey || weakvalue then setweak g h weakkey weakvalue else g
  if weakkey && weakvalue then (true, g)
  else
    let g := if weakvalue then g else t.array.reverse.foldl markvalue g
    let g := (List.range t.sizenode).reverse.foldl (traversenode h weakkey weakvalue) g
    (weakkey || weakvalue, g)

def traverseproto (g : GlobalState K) (p : Nat) : GlobalState K :=
  let f := g.proto p
  let g := f.source.elim g (stringmark g)
  let g := f.k.foldl markvalue g
  let g := (f.upvalues.filterMap id).foldl stringmark g
  let g := (f.p.filterMap id).foldl (fun g p => markobject g (.proto p)) g
  (f.locvars.filterMap id).foldl stringmark g

def traverseclosure (g : GlobalState K) (cl : Nat) : GlobalState K :=
  match g.closure cl with
  | .C env upvalue => upvalue.foldl markvalue (marktable g env)
  | .L env p upvals =>
    upvals.foldl (fun g uv => markobject g (.upval uv)) (markobject (marktable g env) (.proto p))

/-- The part of a stack above its top is cleared, up to where a call may reach. -/
def clearstack (t : Thread K) : Thread K :=
  { t with stack := fun i => if t.top ≤ i ∧ i ≤ t.lim then none else t.stack i }

def traversestack (g : GlobalState K) (th : Nat) : GlobalState K :=
  let t := g.thread th
  let g := markvalue g t.gt
  let g := ((List.range t.top).map t.stack).foldl markvalue g
  { g with thread := Function.update g.thread th (clearstack (g.thread th)) }

/-- Traverse one gray object, turning it to black. -/
def propagatemark (g : GlobalState K) : GlobalState K :=
  match g.gray with
  | [] => g
  | o :: gray =>
    let g := paint gray2black { g with gray := gray } o
    match o with
    | .table h =>
      let (weak, g) := traversetable g h
      if weak then paint black2gray g o else g -- keep it gray
    | .function cl => traverseclosure g cl
    | .thread th => traversestack (paint black2gray { g with grayagain := o :: g.grayagain } o) th
    | .proto p => traverseproto g p
    | _ => g

def propagateloop : Nat → GlobalState K → GlobalState K
  | 0, g => g
  | fuel + 1, g =>
    match g.gray with
    | [] => g
    | _ :: _ => propagateloop fuel (propagatemark g)

/-- The objects that may still come to the list, and those in it. -/
def work (g : GlobalState K) : Nat :=
  g.rootgc.countP (fun o => iswhite (g.gch o)) + g.gray.length

/-- `propagateall`. -/
def propagateall (g : GlobalState K) : GlobalState K := propagateloop (work g) g

end

/-! ## Colours -/

section

variable {K : Type} {g g' : GlobalState K} {o o' : GCObject} {f : Marked → Marked}

theorem gch_paint (f : Marked → Marked) (g : GlobalState K) (o o' : GCObject) :
    (paint f g o).gch o' = if o' = o then f (g.gch o) else g.gch o' := by
  by_cases h : o' = o
  · subst h
    cases o' <;> simp [paint, GlobalState.gch]
  · rw [if_neg h]
    cases o <;> cases o' <;> first | rfl | skip
    all_goals
      simp only [paint, GlobalState.gch]
      rw [Function.update_of_ne]
      simpa using h

@[simp] theorem gch_paint_self (f : Marked → Marked) (g : GlobalState K) (o : GCObject) :
    (paint f g o).gch o = f (g.gch o) := by rw [gch_paint, if_pos rfl]

theorem gch_paint_of_ne (f : Marked → Marked) (g : GlobalState K) (h : o' ≠ o) :
    (paint f g o).gch o' = g.gch o' := by rw [gch_paint, if_neg h]

@[simp] theorem gray_paint (f : Marked → Marked) (g : GlobalState K) (o : GCObject) :
    (paint f g o).gray = g.gray := by cases o <;> rfl

@[simp] theorem table_paint (f : Marked → Marked) (g : GlobalState K) (o : GCObject) :
    (paint f g o).table = g.table := by cases o <;> rfl

@[simp] theorem thread_paint (f : Marked → Marked) (g : GlobalState K) (o : GCObject) :
    (paint f g o).thread = g.thread := by cases o <;> rfl

end

/-! ## What marking changes -/

/-- The state without what a mark phase changes. -/
def GlobalState.bare {K : Type} (g : GlobalState K) : GlobalState K :=
  let m : Marked := ⟨false, false, false, false⟩
  { g with
    marked := fun _ => m
    marks := fun _ => m
    gcstate := .GCSpause
    gray := []
    grayagain := []
    weak := []
    table := fun _ => ⟨none, ⟨[], 0, fun _ => Node.empty, true, 0⟩, false, false⟩
    thread := fun _ => ⟨none, fun _ => none, 0, []⟩ }

section

variable {K : Type}

/-- A thread whose stack has been cleared above the top. -/
structure Cleared (t t' : Thread K) : Prop where
  gt : t'.gt = t.gt
  top : t'.top = t.top
  ci : t'.ci = t.ci
  stack : ∀ i, t'.stack i = t.stack i ∨ t.top ≤ i ∧ t'.stack i = none

theorem Cleared.refl (t : Thread K) : Cleared t t := ⟨rfl, rfl, rfl, fun _ => .inl rfl⟩

theorem Cleared.trans {t t' t'' : Thread K} (h : Cleared t t') (h' : Cleared t' t'') : Cleared t t'' where
  gt := h'.gt.trans h.gt
  top := h'.top.trans h.top
  ci := h'.ci.trans h.ci
  stack i := by
    rcases h'.stack i with heq | ⟨htop, hnil⟩
    · rw [heq]
      exact h.stack i
    · exact .inr ⟨h.top ▸ htop, hnil⟩

theorem Cleared.used {t t' : Thread K} (h : Cleared t t') : t'.used = t.used := by
  rw [Thread.used, Thread.used, h.ci, h.top]

end

section

variable {K : Type} [Collectable K]

/-- What marking does to the contents of objects: keys of empty entries die, and stacks are
cleared above their tops. -/
structure Tidied (g g' : GlobalState K) : Prop where
  bare : g'.bare = g.bare
  metatable : ∀ h, (g'.table h).metatable = (g.table h).metatable
  entries : ∀ h, Died (g.table h).entries (g'.table h).entries
  thread : ∀ th, Cleared (g.thread th) (g'.thread th)

/-- An object marked on the way from one state to the other. -/
def Newly (g g' : GlobalState K) (o : GCObject) : Prop :=
  iswhite (g.gch o) = true ∧ iswhite (g'.gch o) = false

/-- The objects that wait in a list to be traversed. -/
def GCObject.listed : GCObject → Bool
  | .function _ | .table _ | .thread _ | .proto _ => true
  | _ => false

def Table.bits (t : Table K) : Bool × Bool := (t.weakkey, t.weakvalue)

/-- **What marking does**: objects for which `P` holds lose their white, and they are in the
list `gray`, or what they refer to is not white. The objects of `E` are still in the
making; those of `ws` are tables found to be weak. -/
structure MarksBut (E P : GCObject → Prop) (ws : List GCObject) (g g' : GlobalState K) : Prop where
  tidied : Tidied g g'
  seen : ∀ o, iswhite (g.gch o) = false → iswhite (g'.gch o) = false
  white : ∀ o, iswhite (g'.gch o) = true → ∀ w, (g'.gch o).white w = (g.gch o).white w
  gray : ∃ l, g'.gray = l ++ g.gray ∧ l.Nodup ∧ ∀ o, o ∈ l ↔ Newly g g' o ∧ o.listed = true
  grayagain : g'.grayagain = g.grayagain
  weak : g'.weak = ws ++ g.weak
  bits : ∀ h, .table h ∉ ws → (g'.table h).bits = (g.table h).bits
  only : ∀ o, Newly g g' o → P o
  followed : ∀ o, Newly g g' o → o.listed = false → ¬ E o → ∀ r ∈ g'.refs o, iswhite (g'.gch r) = false

abbrev Marks : (GCObject → Prop) → GlobalState K → GlobalState K → Prop := fun P =>
  MarksBut (fun _ => False) P []

variable {g g' g'' : GlobalState K} {o : GCObject} {P : GCObject → Prop}
  {ws ws' : List GCObject}

theorem Tidied.refl (g : GlobalState K) : Tidied g g :=
  ⟨rfl, fun _ => rfl, fun _ => .refl _, fun _ => .refl _⟩

theorem Tidied.trans (h : Tidied g g') (h' : Tidied g' g'') : Tidied g g'' where
  bare := h'.bare.trans h.bare
  metatable n := (h'.metatable n).trans (h.metatable n)
  entries n := (h.entries n).trans (h'.entries n)
  thread n := (h.thread n).trans (h'.thread n)

/-! ## References while marking -/

theorem mem_objects {vs : List (TValue K)} : o ∈ objects vs ↔ ∃ v ∈ vs, gcobject v = some o :=
  List.mem_filterMap

/-- Of an entry what is not weak. -/
def strongEntry (weakkey weakvalue : Bool) (n : Node K (Value K)) : List GCObject :=
  if n.val.isSome then
    (if weakkey then [] else objects [n.key.map .key]) ++ if weakvalue then [] else objects [n.val]
  else []

/-- Of a table what is not weak. -/
def Table.strongRefs (t : Table K) (weakkey weakvalue : Bool) : List GCObject :=
  t.metatable.toList.map .table ++ (if weakvalue then [] else objects t.entries.array)
    ++ (nodes t.entries).flatMap (strongEntry weakkey weakvalue)

/-- The references that keep an object: of a table those that its metatable leaves strong. -/
def GlobalState.strongRefs (g : GlobalState K) : GCObject → List GCObject
  | .table h => (g.table h).strongRefs (weakmode g h).1 (weakmode g h).2
  | o => g.refs o

theorem mem_strongEntry {weakkey weakvalue : Bool} {n : Node K (Value K)} :
    o ∈ strongEntry weakkey weakvalue n ↔ n.val.isSome = true
      ∧ (weakkey = false ∧ gcobject (n.key.map Value.key) = some o
        ∨ weakvalue = false ∧ gcobject n.val = some o) := by
  rw [strongEntry]
  split_ifs <;> simp_all [mem_objects]

theorem mem_entryRefs {n : Node K (Value K)} : o ∈ entryRefs n ↔ n.val.isSome = true
    ∧ (gcobject (n.key.map Value.key) = some o ∨ gcobject n.val = some o) := by
  rw [entryRefs]
  split_ifs with hval
  · simp [mem_objects, hval]
  · simp [hval]

theorem mem_strongRefs {t : Table K} {weakkey weakvalue : Bool} :
    o ∈ t.strongRefs weakkey weakvalue ↔ (∃ m, t.metatable = some m ∧ .table m = o)
      ∨ (weakvalue = false ∧ o ∈ objects t.entries.array)
      ∨ ∃ i < t.entries.sizenode, o ∈ strongEntry weakkey weakvalue (t.entries.node i) := by
  have harray : o ∈ (if weakvalue then [] else objects t.entries.array)
      ↔ weakvalue = false ∧ o ∈ objects t.entries.array := by
    cases weakvalue <;> simp
  rw [Table.strongRefs, List.append_assoc, List.mem_append, List.mem_append, harray]
  simp only [List.mem_map, Option.mem_toList, nodes, List.mem_flatMap, List.mem_range,
    exists_exists_and_eq_and]

theorem mem_strongRefs_table {h : Nat} : o ∈ g.strongRefs (.table h)
    ↔ (∃ m, (g.table h).metatable = some m ∧ .table m = o)
      ∨ ((weakmode g h).2 = false ∧ o ∈ objects (g.table h).entries.array)
      ∨ ∃ i < (g.table h).entries.sizenode,
        o ∈ strongEntry (weakmode g h).1 (weakmode g h).2 ((g.table h).entries.node i) :=
  mem_strongRefs

namespace Tidied

variable (h : Tidied g g')

include h

theorem udata : g'.udata = g.udata := (congrArg GlobalState.udata h.bare :)
theorem upval : g'.upval = g.upval := (congrArg GlobalState.upval h.bare :)
theorem closure : g'.closure = g.closure := (congrArg GlobalState.closure h.bare :)
theorem proto : g'.proto = g.proto := (congrArg GlobalState.proto h.bare :)
theorem rootgc : g'.rootgc = g.rootgc := (congrArg GlobalState.rootgc h.bare :)
theorem tsv : g'.tsv = g.tsv := (congrArg (fun g => g.tsv) h.bare :)
theorem mainthread : g'.mainthread = g.mainthread := (congrArg GlobalState.mainthread h.bare :)
theorem L : g'.L = g.L := (congrArg GlobalState.L h.bare :)
theorem registry : g'.registry = g.registry := (congrArg GlobalState.registry h.bare :)
theorem mt : g'.mt = g.mt := (congrArg GlobalState.mt h.bare :)
theorem tmudata : g'.tmudata = g.tmudata := (congrArg GlobalState.tmudata h.bare :)
theorem uvhead : g'.uvhead = g.uvhead := (congrArg GlobalState.uvhead h.bare :)
theorem tmname : g'.tmname = g.tmname := (congrArg GlobalState.tmname h.bare :)

theorem uvvalue (uv : Nat) : g'.uvvalue uv = g.uvvalue uv ∨ g'.uvvalue uv = none := by
  rw [GlobalState.uvvalue, GlobalState.uvvalue, h.upval]
  cases g.upval uv with
  | closed v => exact .inl rfl
  | opened th level => exact ((h.thread th).stack level).imp_right And.right

theorem tableStrongRefs (n : Nat) (weakkey weakvalue : Bool) :
    (g'.table n).strongRefs weakkey weakvalue = (g.table n).strongRefs weakkey weakvalue := by
  have hd := h.entries n
  simp only [Table.strongRefs, h.metatable, hd.array, nodes, List.flatMap_map, hd.sizenode, strongEntry,
    hd.key, hd.val]

theorem tableRefs (n : Nat) : (g'.table n).refs = (g.table n).refs := by
  have hd := h.entries n
  simp only [Table.refs, h.metatable, hd.array, nodes, List.flatMap_map, hd.sizenode, entryRefs,
    hd.key, hd.val]

/-- Marking adds no references. -/
theorem refs (o : GCObject) : g'.refs o ⊆ g.refs o := by
  cases o with
  | string ts => exact List.Subset.refl _
  | userdata u => rw [GlobalState.refs, GlobalState.refs, h.udata]; exact List.Subset.refl _
  | upval uv =>
    rw [GlobalState.refs, GlobalState.refs]
    rcases h.uvvalue uv with heq | hnil
    · rw [heq]
      exact List.Subset.refl _
    · rw [hnil]
      exact List.nil_subset _
  | function cl => simp only [GlobalState.refs, h.closure]; exact List.Subset.refl _
  | table n => simp only [GlobalState.refs, h.tableRefs]; exact List.Subset.refl _
  | thread th =>
    intro r hr
    simp only [GlobalState.refs, (h.thread th).used, (h.thread th).gt] at hr ⊢
    obtain ⟨v, hv, hobj⟩ := mem_objects.mp hr
    refine mem_objects.mpr ⟨v, ?_, hobj⟩
    rcases List.mem_cons.mp hv with rfl | hv
    · exact List.mem_cons_self
    · obtain ⟨i, hi, rfl⟩ := List.mem_map.mp hv
      rcases (h.thread th).stack i with heq | ⟨-, hnil⟩
      · exact List.mem_cons_of_mem _ (List.mem_map.mpr ⟨i, hi, heq.symm⟩)
      · rw [hnil] at hobj
        exact absurd hobj (by simp [gcobject])
  | proto p => rw [GlobalState.refs, GlobalState.refs, h.proto]; exact List.Subset.refl _

end Tidied

/-! ## Marking composed -/

omit [Collectable K] in
theorem not_newly_self (g : GlobalState K) (o : GCObject) : ¬ Newly g g o := by
  rintro ⟨hwhite, hnot⟩
  rw [hwhite] at hnot
  exact Bool.noConfusion hnot

namespace MarksBut

variable {E : GCObject → Prop}

theorem refl (E P : GCObject → Prop) (g : GlobalState K) : MarksBut E P [] g g where
  tidied := .refl g
  seen _ h := h
  white _ _ _ := rfl
  gray := ⟨[], rfl, List.nodup_nil, fun o => by simp [not_newly_self]⟩
  grayagain := rfl
  weak := rfl
  bits _ _ := rfl
  only o h := absurd h (not_newly_self g o)
  followed o h := absurd h (not_newly_self g o)

omit [Collectable K] in
/-- An object marked on the way was marked in one of the two parts of it. -/
theorem newly_cases (hn : Newly g g'' o) : Newly g g' o ∨ Newly g' g'' o := by
  cases hw : iswhite (g'.gch o) with
  | true => exact .inr ⟨hw, hn.2⟩
  | false => exact .inl ⟨hn.1, hw⟩

theorem newly_left (h' : MarksBut E P ws' g' g'') (hn : Newly g g' o) : Newly g g'' o :=
  ⟨hn.1, h'.seen o hn.2⟩

/-- What is white was so. -/
theorem unseen (h : MarksBut E P ws g g') (hw : iswhite (g'.gch o) = true) : iswhite (g.gch o) = true :=
  eq_true_of_ne_false fun hold => Bool.noConfusion ((h.seen o hold).symm.trans hw)

theorem newly_right (h : MarksBut E P ws g g') (hn : Newly g' g'' o) : Newly g g'' o :=
  ⟨h.unseen hn.1, hn.2⟩

/-- **One marking after the other.** -/
theorem trans (h : MarksBut E P ws g g') (h' : MarksBut E P ws' g' g'') :
    MarksBut E P (ws' ++ ws) g g'' where
  tidied := h.tidied.trans h'.tidied
  seen o ho := h'.seen o (h.seen o ho)
  white o hw w := (h'.white o hw w).trans (h.white o (h'.unseen hw) w)
  gray := by
    obtain ⟨l, hl, hnodup, hmem⟩ := h.gray
    obtain ⟨l', hl', hnodup', hmem'⟩ := h'.gray
    refine ⟨l' ++ l, by rw [hl', hl, List.append_assoc], List.nodup_append'.mpr ⟨hnodup', hnodup, ?_⟩,
      fun o => ?_⟩
    · intro o ho' ho
      have hseen := ((hmem o).mp ho).1.2
      rw [((hmem' o).mp ho').1.1] at hseen
      exact Bool.noConfusion hseen
    · rw [List.mem_append, hmem, hmem']
      constructor
      · rintro (⟨hn, hlist⟩ | ⟨hn, hlist⟩)
        · exact ⟨h.newly_right hn, hlist⟩
        · exact ⟨h'.newly_left hn, hlist⟩
      · rintro ⟨hn, hlist⟩
        rcases newly_cases hn with hn | hn
        · exact .inr ⟨hn, hlist⟩
        · exact .inl ⟨hn, hlist⟩
  grayagain := h'.grayagain.trans h.grayagain
  weak := by rw [h'.weak, h.weak, List.append_assoc]
  bits n hn := by
    rw [List.mem_append, not_or] at hn
    rw [h'.bits n hn.1, h.bits n hn.2]
  only o hn := by
    rcases newly_cases hn with hn | hn
    · exact h.only o hn
    · exact h'.only o hn
  followed o hn hlist hE r hr := by
    rcases newly_cases hn with hn | hn
    · exact h'.seen r (h.followed o hn hlist hE r (h'.tidied.refs o hr))
    · exact h'.followed o hn hlist hE r hr

/-- More objects may be in the making. -/
theorem mono (h : Marks P g g') (E : GCObject → Prop) : MarksBut E P [] g g' :=
  { h with followed := fun o hn hlist _ => h.followed o hn hlist id }

end MarksBut

/-! ## One object marked -/

theorem tidied_paint (f : Marked → Marked) (g : GlobalState K) (o : GCObject) :
    Tidied g (paint f g o) where
  bare := by cases o <;> rfl
  metatable h := by rw [table_paint]
  entries h := by rw [table_paint]; exact .refl _
  thread h := by rw [thread_paint]; exact .refl _

/-- An object that waits in no list, about to be marked. -/
theorem marksBut_paint {f : Marked → Marked} (hf : ∀ m, iswhite (f m) = false)
    (hlist : o.listed = false) (hP : P o) : MarksBut (· = o) P [] g (paint f g o) where
  tidied := tidied_paint f g o
  seen o' ho' := by
    rw [gch_paint]
    split_ifs
    · exact hf _
    · exact ho'
  white o' hw w := by
    rw [gch_paint] at hw ⊢
    split_ifs at hw ⊢
    · exact absurd ((hf _).symm.trans hw) Bool.noConfusion
    · rfl
  gray := by
    refine ⟨[], gray_paint f g o, List.nodup_nil, fun o' => ⟨fun h => absurd h List.not_mem_nil, ?_⟩⟩
    rintro ⟨⟨hw', hs'⟩, hlist'⟩
    rw [gch_paint] at hs'
    split_ifs at hs' with h
    · rw [h, hlist] at hlist'
      exact Bool.noConfusion hlist'
    · rw [hw'] at hs'
      exact Bool.noConfusion hs'
  grayagain := by cases o <;> rfl
  weak := by cases o <;> rfl
  bits n _ := by rw [table_paint]
  only o' hn := by
    by_cases h : o' = o
    · exact h ▸ hP
    · rw [Newly, gch_paint_of_ne f g h] at hn
      exact absurd hn (not_newly_self g o')
  followed o' hn _ hE := by
    rw [Newly, gch_paint_of_ne f g hE] at hn
    exact absurd hn (not_newly_self g o')

/-- The object in the making is done. -/
theorem MarksBut.finish (h : MarksBut (· = o) P [] g g')
    (hrefs : ∀ r ∈ g'.refs o, iswhite (g'.gch r) = false) : Marks P g g' :=
  { h with
    followed := fun o' hn hlist _ => by
      by_cases ho : o' = o
      · rw [ho]
        exact hrefs
      · exact h.followed o' hn hlist ho }

/-- The last thing done to it is to make it black. -/
theorem MarksBut.blacken (h : MarksBut (· = o) P [] g g')
    (hrefs : ∀ r ∈ g'.refs o, iswhite (g'.gch r) = false) : Marks P g (paint gray2black g' o) := by
  have hgch : ∀ o', iswhite ((paint gray2black g' o).gch o') = iswhite (g'.gch o') := fun o' => by
    rw [gch_paint]
    split_ifs with ho
    · rw [ho]
      rfl
    · rfl
  have hnewly : ∀ o', Newly g (paint gray2black g' o) o' ↔ Newly g g' o' := fun o' => by
    rw [Newly, Newly, hgch]
  have hdone := h.finish hrefs
  refine ⟨h.tidied.trans (tidied_paint _ g' o), fun o' ho' => ?_, fun o' hw w => ?_, ?_, ?_, ?_,
    fun n hn => ?_, fun o' hn' => h.only o' ((hnewly o').mp hn'), fun o' hn' hlist _ r hr => ?_⟩
  · rw [hgch]
    exact h.seen o' ho'
  · rw [hgch] at hw
    rw [← h.white o' hw w, gch_paint]
    split_ifs with ho
    · rw [ho]
      rfl
    · rfl
  · simpa only [gray_paint, hnewly] using h.gray
  · rw [← h.grayagain]
    cases o <;> rfl
  · rw [← h.weak]
    cases o <;> rfl
  · rw [table_paint, h.bits n hn]
  · rw [hgch]
    exact hdone.followed o' ((hnewly o').mp hn') hlist id r ((tidied_paint _ g' o).refs o' hr)

theorem iswhite_white2gray (m : Marked) : iswhite (white2gray m) = false := rfl

omit [Collectable K] in
@[simp] theorem gch_linkgray (g : GlobalState K) (o o' : GCObject) : (linkgray g o).gch o' = g.gch o' := by
  cases o' <;> rfl

/-- An object that is put in the list `gray`. -/
theorem marks_linkgray (hw : iswhite (g.gch o) = true) (hlist : o.listed = true) (hP : P o) :
    Marks P g (linkgray (paint white2gray g o) o) := by
  have hnewly : ∀ o', Newly g (linkgray (paint white2gray g o) o) o' ↔ o' = o := fun o' => by
    rw [Newly, gch_linkgray, gch_paint]
    constructor
    · rintro ⟨hw', hs'⟩
      by_contra ho
      rw [if_neg ho, hw'] at hs'
      exact Bool.noConfusion hs'
    · rintro rfl
      exact ⟨hw, by rw [if_pos rfl]; rfl⟩
  refine ⟨?_, fun o' ho' => ?_, fun o' hw' w => ?_, ⟨[o], ?_, List.nodup_singleton o, fun o' => ?_⟩,
    by cases o <;> rfl,
    by cases o <;> rfl, fun n _ => by rw [linkgray, table_paint], fun o' hn => (hnewly o').mp hn ▸ hP,
    fun o' hn hno => ?_⟩
  · exact (tidied_paint white2gray g o).trans ⟨rfl, fun _ => rfl, fun _ => .refl _, fun _ => .refl _⟩
  · rw [gch_linkgray, gch_paint]
    split_ifs
    · rfl
    · exact ho'
  · rw [gch_linkgray, gch_paint] at hw' ⊢
    split_ifs at hw' ⊢
    · exact Bool.noConfusion hw'
    · rfl
  · rw [linkgray, gray_paint, List.singleton_append]
  · rw [List.mem_singleton, hnewly]
    constructor
    · rintro rfl
      exact ⟨rfl, hlist⟩
    · exact And.left
  · rw [(hnewly o').mp hn, hlist] at hno
    exact Bool.noConfusion hno

/-! ## The functions that mark -/

/-- `P` holds of all that an object for which it holds keeps, and its tables are well
formed. -/
structure ClosedIn (P : GCObject → Prop) (g : GlobalState K) : Prop where
  refs : ∀ o, P o → ∀ r ∈ g.strongRefs o, P r
  wf : ∀ h, P (.table h) → Wf (g.table h).entries

theorem marktable_marks {h : Nat} (hP : P (.table h)) :
    Marks P g (marktable g h) ∧ iswhite ((marktable g h).gch (.table h)) = false := by
  rw [marktable]
  split_ifs with hw
  · exact ⟨marks_linkgray hw rfl hP, by rw [gch_linkgray, gch_paint_self]; rfl⟩
  · exact ⟨.refl _ P g, by simpa using hw⟩

theorem markmetatable_marks (mt : Option Nat) (hP : ∀ h, mt = some h → P (.table h)) :
    Marks P g (markmetatable g mt)
      ∧ ∀ h, mt = some h → iswhite ((markmetatable g mt).gch (.table h)) = false := by
  cases mt with
  | none => exact ⟨.refl _ P g, fun h hh => absurd hh.symm (Option.some_ne_none h)⟩
  | some h =>
    have hmark := marktable_marks (g := g) (hP h rfl)
    refine ⟨hmark.1, fun h' hh' => ?_⟩
    obtain rfl := Option.some.inj hh'
    exact hmark.2

omit [Collectable K] in
theorem paint_paint (f f' : Marked → Marked) (g : GlobalState K) (o : GCObject) :
    paint f' (paint f g o) o = paint (f' ∘ f) g o := by
  cases o <;> simp [paint]

/-- A userdata marked, whatever its colour was. -/
theorem markudata_marks {f : Marked → Marked} (hf : ∀ m, iswhite (f m) = false) {u : Nat}
    (hclosed : ClosedIn P g) (hP : P (.userdata u)) :
    let g₁ := paint f g (.userdata u)
    let g₂ := marktable (markmetatable g₁ (g₁.udata u).metatable) (g₁.udata u).env
    Marks P g g₂ ∧ iswhite (g₂.gch (.userdata u)) = false := by
  intro g₁ g₂
  have hpaint : MarksBut (· = .userdata u) P [] g g₁ := marksBut_paint hf rfl hP
  have hmt := markmetatable_marks (g := g₁) (g₁.udata u).metatable fun h hh =>
    hclosed.refs _ hP _ (by
      rw [hpaint.tidied.udata] at hh
      simp [GlobalState.strongRefs, GlobalState.refs, hh])
  have henv := marktable_marks (g := markmetatable g₁ (g₁.udata u).metatable)
    (hclosed.refs _ hP (.table (g₁.udata u).env) (by
      rw [hpaint.tidied.udata]
      simp [GlobalState.strongRefs, GlobalState.refs]))
  have hall := (hpaint.trans (hmt.1.mono _)).trans (henv.1.mono _)
  refine ⟨hall.finish fun r hr => ?_, (hmt.1.trans henv.1).seen _ (by rw [gch_paint_self]; exact hf _)⟩
  have hr := (hmt.1.trans henv.1).tidied.refs _ hr
  simp only [GlobalState.refs, List.mem_append, List.mem_map, Option.mem_toList, List.mem_singleton] at hr
  rcases hr with ⟨h, hh, rfl⟩ | rfl
  · exact henv.1.seen _ (hmt.2 h hh)
  · exact henv.2

theorem reallymarkvalue_marks (hclosed : ClosedIn P g) (hw : iswhite (g.gch o) = true) (hP : P o)
    (hkind : ∀ uv, o ≠ .upval uv) :
    Marks P g (reallymarkvalue g o) ∧ iswhite ((reallymarkvalue g o).gch o) = false := by
  have hlink (hlist : o.listed = true) : Marks P g (linkgray (paint white2gray g o) o)
      ∧ iswhite ((linkgray (paint white2gray g o) o).gch o) = false :=
    ⟨marks_linkgray hw hlist hP, by rw [gch_linkgray, gch_paint_self]; rfl⟩
  cases o with
  | string ts =>
    have hseen : iswhite ((paint white2gray g (.string ts)).gch (.string ts)) = false := by
      rw [gch_paint_self]
      rfl
    exact ⟨(marksBut_paint iswhite_white2gray rfl hP).finish fun r hr => absurd hr List.not_mem_nil, hseen⟩
  | userdata u =>
    rw [reallymarkvalue, paint_paint]
    exact markudata_marks (f := gray2black ∘ white2gray) iswhite_white2gray hclosed hP
  | upval uv => exact absurd rfl (hkind uv)
  | function cl => exact hlink rfl
  | table h => exact hlink rfl
  | thread th => exact hlink rfl
  | proto p => exact hlink rfl

variable [LawfulCollectable K]

/-- Tag methods stay as they are. -/
theorem Tidied.fasttm {mt : Option Nat} (ht : Tidied g g') (hwf : ∀ m, mt = some m → Wf (g.table m).entries)
    (e : TMS) : fasttm g' mt e = fasttm g mt e := by
  cases mt with
  | none => rfl
  | some m =>
    simp only [Collector.fasttm, Option.bind_some, ht.tmname]
    exact (ht.entries m).lookup (hwf m rfl) _

/-- A table stays weak, or not, as it is. -/
theorem Tidied.weakmode {h : Nat} (ht : Tidied g g')
    (hwf : ∀ m, (g.table h).metatable = some m → Wf (g.table m).entries) :
    weakmode g' h = weakmode g h := by
  simp only [Collector.weakmode, strchr, ht.metatable, ht.fasttm hwf, ht.tsv]

namespace ClosedIn

variable (hclosed : ClosedIn P g) (ht : Tidied g g')

include hclosed

omit [LawfulCollectable K] in
theorem metatable_wf {h m : Nat} (hP : P (.table h)) (hm : (g.table h).metatable = some m) :
    Wf (g.table m).entries :=
  hclosed.wf m (hclosed.refs _ hP _ (mem_strongRefs_table.mpr (.inl ⟨m, hm, rfl⟩)))

include ht

theorem weakmode {h : Nat} (hP : P (.table h)) : weakmode g' h = weakmode g h :=
  ht.weakmode fun _ hm => hclosed.metatable_wf hP hm

/-- Marking adds no references that keep objects. -/
theorem strongRefs (hP : P o) : g'.strongRefs o ⊆ g.strongRefs o := by
  cases o with
  | table h =>
    simp only [GlobalState.strongRefs, hclosed.weakmode ht hP, ht.tableStrongRefs]
    exact List.Subset.refl _
  | string ts => exact ht.refs (.string ts)
  | userdata u => exact ht.refs (.userdata u)
  | upval uv => exact ht.refs (.upval uv)
  | function cl => exact ht.refs (.function cl)
  | thread th => exact ht.refs (.thread th)
  | proto p => exact ht.refs (.proto p)

theorem tidied : ClosedIn P g' where
  refs o ho r hr := hclosed.refs o ho r (hclosed.strongRefs ht ho hr)
  wf h hP := (ht.entries h).wf (hclosed.wf h hP)

end ClosedIn

theorem gcobject_ne_upval {v : TValue K} (hv : gcobject v = some o) (uv : Nat) : o ≠ .upval uv := by
  rintro rfl
  obtain ⟨v, rfl, hv⟩ := Option.bind_eq_some_iff.mp hv
  cases v with
  | key k => exact Bool.noConfusion (LawfulCollectable.object_iskey k _ hv)
  | nan => exact absurd hv.symm (Option.some_ne_none _)
  | proto p => exact GCObject.noConfusion (Option.some.inj hv)

theorem markvalue_marks {v : TValue K} (hclosed : ClosedIn P g) (hP : ∀ o, gcobject v = some o → P o) :
    Marks P g (markvalue g v)
      ∧ ∀ o, gcobject v = some o → iswhite ((markvalue g v).gch o) = false := by
  rw [markvalue]
  cases hv : gcobject v with
  | none => exact ⟨.refl _ P g, fun o ho => absurd ho.symm (Option.some_ne_none o)⟩
  | some o =>
    have hsome : ∀ o', some o = some o' → o' = o := fun o' h => (Option.some.inj h).symm
    simp only
    split_ifs with hw
    · have hmark := reallymarkvalue_marks hclosed hw (hP o hv) (gcobject_ne_upval hv)
      exact ⟨hmark.1, fun o' ho' => hsome o' ho' ▸ hmark.2⟩
    · exact ⟨.refl _ P g, fun o' ho' => by rw [hsome o' ho']; simpa using hw⟩

theorem reallymarkobject_marks (hclosed : ClosedIn P g) (hw : iswhite (g.gch o) = true) (hP : P o) :
    Marks P g (reallymarkobject g o) ∧ iswhite ((reallymarkobject g o).gch o) = false := by
  cases o with
  | upval uv =>
    rw [reallymarkobject]
    set g₁ := paint white2gray g (.upval uv) with hg₁
    have hpaint : MarksBut (· = .upval uv) P [] g g₁ := marksBut_paint iswhite_white2gray rfl hP
    have hval := markvalue_marks (v := g.uvvalue uv) (hclosed.tidied hpaint.tidied) fun o ho =>
      hclosed.refs _ hP o (mem_objects.mpr ⟨_, List.mem_singleton_self _, ho⟩)
    set g₂ := markvalue g₁ (g.uvvalue uv)
    have hall := hpaint.trans (hval.1.mono _)
    have hseen : iswhite (g₂.gch (.upval uv)) = false :=
      hval.1.seen _ (by rw [hg₁, gch_paint_self]; rfl)
    have hrefs : ∀ r ∈ g₂.refs (.upval uv), iswhite (g₂.gch r) = false := fun r hr => by
      obtain ⟨v, hv, hobj⟩ := mem_objects.mp (hall.tidied.refs _ hr)
      rw [List.mem_singleton.mp hv] at hobj
      exact hval.2 r hobj
    split_ifs
    · exact ⟨hall.finish hrefs, hseen⟩
    · exact ⟨hall.blacken hrefs, by rw [gch_paint_self]; exact hseen⟩
  | string ts => exact reallymarkvalue_marks hclosed hw hP fun _ => GCObject.noConfusion
  | userdata u => exact reallymarkvalue_marks hclosed hw hP fun _ => GCObject.noConfusion
  | function cl => exact reallymarkvalue_marks hclosed hw hP fun _ => GCObject.noConfusion
  | table h => exact reallymarkvalue_marks hclosed hw hP fun _ => GCObject.noConfusion
  | thread th => exact reallymarkvalue_marks hclosed hw hP fun _ => GCObject.noConfusion
  | proto p => exact reallymarkvalue_marks hclosed hw hP fun _ => GCObject.noConfusion

theorem markobject_marks (hclosed : ClosedIn P g) (hP : P o) :
    Marks P g (markobject g o) ∧ iswhite ((markobject g o).gch o) = false := by
  rw [markobject]
  split_ifs with hw
  · exact reallymarkobject_marks hclosed hw hP
  · exact ⟨.refl _ P g, by simpa using hw⟩

omit [LawfulCollectable K] in
theorem stringmark_eq (g : GlobalState K) (ts : Nat) : stringmark g ts = markobject g (.string ts) := by
  rw [stringmark, markobject]
  split_ifs with hw
  · rfl
  · have hm : white2gray (g.marked ts) = g.marked ts := by
      simp only [iswhite, GlobalState.gch, Bool.or_eq_true, not_or, Bool.not_eq_true] at hw
      rcases hbits : g.marked ts with ⟨white0, white1, black, fixed⟩
      rw [hbits] at hw
      obtain ⟨rfl, rfl⟩ : white0 = false ∧ white1 = false := hw
      rfl
    simp only [paint, hm, Function.update_eq_self]

/-! ## Lists of objects marked -/

omit [LawfulCollectable K] in
/-- A loop of markings, of which each round achieves something that lasts. -/
theorem foldl_marks {β : Type} {f : GlobalState K → β → GlobalState K} {Q : β → GlobalState K → Prop}
    (hQ : ∀ b g g', Marks P g g' → Q b g → Q b g') (l : List β) (g : GlobalState K)
    (hf : ∀ g' b, b ∈ l → Tidied g g' → Marks P g' (f g' b) ∧ Q b (f g' b)) :
    Marks P g (l.foldl f g) ∧ ∀ b ∈ l, Q b (l.foldl f g) :=
  Tracing.foldl_rel (.refl _ P) MarksBut.trans hQ l g fun g' b hb hm => hf g' b hb hm.tidied

theorem foldl_markvalue (vs : List (TValue K)) (hclosed : ClosedIn P g) (hP : ∀ o ∈ objects vs, P o) :
    Marks P g (vs.foldl markvalue g)
      ∧ ∀ o ∈ objects vs, iswhite ((vs.foldl markvalue g).gch o) = false := by
  have hfold := foldl_marks (f := markvalue)
    (Q := fun v g => ∀ o, gcobject v = some o → iswhite (g.gch o) = false)
    (fun v g g' h hv o ho => h.seen o (hv o ho)) vs g fun g' v hv ht =>
      markvalue_marks (hclosed.tidied ht) fun o ho => hP o (mem_objects.mpr ⟨v, hv, ho⟩)
  refine ⟨hfold.1, fun o ho => ?_⟩
  obtain ⟨v, hv, hobj⟩ := mem_objects.mp ho
  exact hfold.2 v hv o hobj

theorem foldl_markobject {β : Type} {f : GlobalState K → β → GlobalState K} (of : β → GCObject)
    (hf : ∀ g b, f g b = markobject g (of b)) (l : List β) (hclosed : ClosedIn P g)
    (hP : ∀ b ∈ l, P (of b)) :
    Marks P g (l.foldl f g) ∧ ∀ b ∈ l, iswhite ((l.foldl f g).gch (of b)) = false :=
  foldl_marks (Q := fun b g => iswhite (g.gch (of b)) = false) (fun b g g' h hb => h.seen _ hb) l g
    fun g' b hb ht => by
      rw [hf]
      exact markobject_marks (hclosed.tidied ht) (hP b hb)

/-! ## Objects traversed -/

theorem traverseclosure_marks {cl : Nat} (hclosed : ClosedIn P g) (hP : ∀ r ∈ g.refs (.function cl), P r) :
    Marks P g (traverseclosure g cl)
      ∧ ∀ r ∈ g.refs (.function cl), iswhite ((traverseclosure g cl).gch r) = false := by
  rw [traverseclosure]
  simp only [GlobalState.refs] at hP ⊢
  cases hcl : g.closure cl with
  | C env upvalue =>
    simp only [hcl, List.mem_cons, forall_eq_or_imp] at hP ⊢
    have henv := marktable_marks (g := g) hP.1
    have hups := foldl_markvalue _ (hclosed.tidied henv.1.tidied) hP.2
    exact ⟨henv.1.trans hups.1, hups.1.seen _ henv.2, hups.2⟩
  | L env p upvals =>
    simp only [hcl, List.mem_cons, forall_eq_or_imp, List.forall_mem_map] at hP ⊢
    have henv := marktable_marks (g := g) hP.1
    have hp := markobject_marks (hclosed.tidied henv.1.tidied) hP.2.1
    have hups := foldl_markobject GCObject.upval (fun _ _ => rfl) upvals
      ((hclosed.tidied henv.1.tidied).tidied hp.1.tidied) hP.2.2
    exact ⟨(henv.1.trans hp.1).trans hups.1, hups.1.seen _ (hp.1.seen _ henv.2), hups.1.seen _ hp.2, hups.2⟩

theorem traverseproto_marks {p : Nat} (hclosed : ClosedIn P g) (hP : ∀ r ∈ g.refs (.proto p), P r) :
    Marks P g (traverseproto g p)
      ∧ ∀ r ∈ g.refs (.proto p), iswhite ((traverseproto g p).gch r) = false := by
  have hsource : (g.proto p).source.elim g (stringmark g) = (g.proto p).source.toList.foldl stringmark g := by
    cases (g.proto p).source <;> rfl
  simp only [traverseproto, hsource]
  simp only [GlobalState.refs, List.forall_mem_append, List.forall_mem_map] at hP ⊢
  obtain ⟨⟨⟨⟨hP₁, hP₂⟩, hP₃⟩, hP₄⟩, hP₅⟩ := hP
  have h₁ := foldl_markobject GCObject.string stringmark_eq _ hclosed hP₁
  have hc₁ := hclosed.tidied h₁.1.tidied
  have h₂ := foldl_markvalue _ hc₁ hP₂
  have hc₂ := hc₁.tidied h₂.1.tidied
  have h₃ := foldl_markobject GCObject.string stringmark_eq _ hc₂ hP₃
  have hc₃ := hc₂.tidied h₃.1.tidied
  have h₄ := foldl_markobject GCObject.proto (fun _ _ => rfl) _ hc₃ hP₄
  have h₅ := foldl_markobject GCObject.string stringmark_eq _ (hc₃.tidied h₄.1.tidied) hP₅
  have h₄₅ := h₄.1.trans h₅.1
  have h₃₅ := h₃.1.trans h₄₅
  have h₂₅ := h₂.1.trans h₃₅
  exact ⟨h₁.1.trans h₂₅, ⟨⟨⟨fun o ho => h₂₅.seen _ (h₁.2 o ho), fun o ho => h₃₅.seen _ (h₂.2 o ho)⟩,
    fun o ho => h₄₅.seen _ (h₃.2 o ho)⟩, fun o ho => h₅.1.seen _ (h₄.2 o ho)⟩, h₅.2⟩

omit [Collectable K] [LawfulCollectable K] in
theorem foldl_max_le {cs : List CallInfo} {m n : Nat} (hmn : m ≤ n) :
    (cs.filter (·.isLua)).foldl (fun lim ci => max lim ci.top) m
      ≤ cs.foldl (fun lim ci => max lim ci.top) n := by
  induction cs generalizing m n with
  | nil => exact hmn
  | cons ci cs ih =>
    rw [List.foldl_cons]
    cases hlua : ci.isLua with
    | true =>
      rw [List.filter_cons_of_pos (by simpa using hlua), List.foldl_cons]
      exact ih (by omega)
    | false =>
      rw [List.filter_cons_of_neg (by simp [hlua])]
      exact ih (by omega)

omit [Collectable K] [LawfulCollectable K] in
theorem used_le_lim (t : Thread K) : t.used ≤ t.lim := foldl_max_le (Nat.le_refl t.top)

omit [LawfulCollectable K] in
/-- A step that tidies and marks nothing. -/
theorem Tidied.marks (h : Tidied g g') (hgch : ∀ o, g'.gch o = g.gch o) (hgray : g'.gray = g.gray)
    (hgrayagain : g'.grayagain = g.grayagain) (hweak : g'.weak = ws ++ g.weak)
    (hbits : ∀ n, .table n ∉ ws → (g'.table n).bits = (g.table n).bits) :
    MarksBut (fun _ => False) P ws g g' := by
  have hnewly : ∀ o, ¬ Newly g g' o := fun o => by
    rw [Newly, hgch]
    exact not_newly_self g o
  exact ⟨h, fun o ho => by rw [hgch, ho], fun o _ w => by rw [hgch],
    ⟨[], hgray, List.nodup_nil, fun o => by simp [hnewly]⟩,
    hgrayagain, hweak, hbits, fun o hn => absurd hn (hnewly o), fun o hn => absurd hn (hnewly o)⟩

omit [Collectable K] [LawfulCollectable K] in
theorem cleared_clearstack (t : Thread K) : Cleared t (clearstack t) where
  gt := rfl
  top := rfl
  ci := rfl
  stack i := by
    by_cases hi : t.top ≤ i ∧ i ≤ t.lim
    · exact .inr ⟨hi.1, if_pos hi⟩
    · exact .inl (if_neg hi)

omit [Collectable K] [LawfulCollectable K] in
theorem le_foldl_max (cs : List CallInfo) (m : Nat) : m ≤ cs.foldl (fun lim ci => max lim ci.top) m := by
  induction cs generalizing m with
  | nil => exact Nat.le_refl m
  | cons ci cs ih => exact (Nat.le_max_left m ci.top).trans (ih _)

omit [Collectable K] [LawfulCollectable K] in
theorem top_le_used (t : Thread K) : t.top ≤ t.used := le_foldl_max _ t.top

omit [LawfulCollectable K] in
theorem mem_refs_thread {th : Nat} : o ∈ g.refs (.thread th) ↔ gcobject (g.thread th).gt = some o
    ∨ ∃ i < (g.thread th).used, gcobject ((g.thread th).stack i) = some o := by
  simp only [GlobalState.refs, mem_objects, List.mem_cons, List.mem_map, List.mem_range,
    exists_eq_or_imp, exists_exists_and_eq_and]

theorem traversestack_marks {th : Nat} (hclosed : ClosedIn P g) (hP : ∀ r ∈ g.refs (.thread th), P r) :
    Marks P g (traversestack g th)
      ∧ ∀ r ∈ (traversestack g th).refs (.thread th), iswhite ((traversestack g th).gch r) = false := by
  -- the globals, then the slots below the top
  have hgt := markvalue_marks (v := (g.thread th).gt) hclosed fun o ho =>
    hP o (mem_refs_thread.mpr (.inl ho))
  set g₁ := markvalue g (g.thread th).gt
  have hslots := foldl_markvalue (g := g₁) ((List.range (g.thread th).top).map (g.thread th).stack)
    (hclosed.tidied hgt.1.tidied) fun o ho => by
      obtain ⟨v, hv, hobj⟩ := mem_objects.mp ho
      obtain ⟨i, hi, rfl⟩ := List.mem_map.mp hv
      exact hP o (mem_refs_thread.mpr
        (.inr ⟨i, (List.mem_range.mp hi).trans_le (top_le_used _), hobj⟩))
  set g₂ := ((List.range (g.thread th).top).map (g.thread th).stack).foldl markvalue g₁ with hg₂
  have hmarks := hgt.1.trans hslots.1
  have hthread := hmarks.tidied.thread th
  have htidied : Tidied g₂ (traversestack g th) := by
    refine ⟨rfl, fun _ => rfl, fun _ => .refl _, fun n => ?_⟩
    by_cases hn : n = th
    · rw [hn, traversestack]
      simp only [Function.update_self]
      exact cleared_clearstack _
    · rw [traversestack]
      simp only [Function.update_of_ne hn]
      exact .refl _
  have hgch : ∀ o, (traversestack g th).gch o = g₂.gch o := fun o => by cases o <;> rfl
  have hclear : Marks P g₂ (traversestack g th) := htidied.marks hgch rfl rfl rfl fun _ _ => rfl
  refine ⟨hmarks.trans hclear, fun r hr => ?_⟩
  rw [hgch]
  have hself : (traversestack g th).thread th = clearstack (g₂.thread th) := Function.update_self ..
  rw [mem_refs_thread, hself] at hr
  rcases hr with hr | ⟨i, hi, hr⟩
  · exact hslots.1.seen r (hgt.2 r (by rw [← hthread.gt]; exact hr))
  · have hused : (clearstack (g₂.thread th)).used = (g₂.thread th).used := (cleared_clearstack _).used
    by_cases htop : (g₂.thread th).top ≤ i
    · -- the slots above the top are nil now
      have hnil : (clearstack (g₂.thread th)).stack i = none :=
        if_pos ⟨htop, (hused ▸ hi).le.trans (used_le_lim _)⟩
      rw [hnil] at hr
      exact absurd hr.symm (Option.some_ne_none r)
    · have hstack : (clearstack (g₂.thread th)).stack i = (g₂.thread th).stack i :=
        if_neg fun h => htop h.1
      rw [hstack] at hr
      rcases hthread.stack i with heq | ⟨hge, -⟩
      · rw [hthread.top] at htop
        exact hslots.2 r (mem_objects.mpr ⟨_, List.mem_map.mpr ⟨i, List.mem_range.mpr (by omega), rfl⟩,
          heq ▸ hr⟩)
      · rw [← hthread.top] at hge
        exact absurd hge htop

omit [LawfulCollectable K] in
/-- One table replaced by a tidier one. -/
theorem tidied_table {h : Nat} {t : Table K} (hbare : g'.bare = g.bare)
    (htable : g'.table = Function.update g.table h t) (hthread : g'.thread = g.thread)
    (hmt : t.metatable = (g.table h).metatable) (hd : Died (g.table h).entries t.entries) :
    Tidied g g' where
  bare := hbare
  metatable n := by
    by_cases hn : n = h
    · rw [htable, hn, Function.update_self, hmt]
    · rw [htable, Function.update_of_ne hn]
  entries n := by
    by_cases hn : n = h
    · rw [htable, hn, Function.update_self]
      exact hd
    · rw [htable, Function.update_of_ne hn]
      exact .refl _
  thread n := by rw [hthread]; exact .refl _

/-- What a round of the loop over the nodes achieves. -/
def NodeDone (h : Nat) (weakkey weakvalue : Bool) (i : Nat) (g : GlobalState K) : Prop :=
  ∀ o ∈ strongEntry weakkey weakvalue ((g.table h).entries.node i), iswhite (g.gch o) = false

omit [LawfulCollectable K] in
theorem NodeDone.marks {h i : Nat} {weakkey weakvalue : Bool} (hd : NodeDone h weakkey weakvalue i g)
    (hm : Marks P g g') : NodeDone h weakkey weakvalue i g' := by
  intro o ho
  have hdied := hm.tidied.entries h
  rw [mem_strongEntry, hdied.key, hdied.val, ← mem_strongEntry] at ho
  exact hm.seen o (hd o ho)

/-- One round of the loop over the nodes: an entry is followed, or its key dies. -/
theorem traversenode_marks {h i : Nat} {weakkey weakvalue : Bool} (hclosed : ClosedIn P g)
    (hP : ∀ o ∈ strongEntry weakkey weakvalue ((g.table h).entries.node i), P o) :
    Marks P g (traversenode h weakkey weakvalue g i)
      ∧ NodeDone h weakkey weakvalue i (traversenode h weakkey weakvalue g i) := by
  rw [traversenode]
  by_cases hval : ((g.table h).entries.node i).val.isNone = true
  · rw [if_pos hval]
    have hnone := Option.isNone_iff_eq_none.mp hval
    have hd := died_removeentry (g.table h).entries i
    have htidied : Tidied g (setentries g h (removeentry (g.table h).entries i)) :=
      tidied_table rfl rfl rfl rfl hd
    refine ⟨htidied.marks (fun o => by cases o <;> rfl) rfl rfl rfl fun n _ => ?_, fun o ho => ?_⟩
    · by_cases hn : n = h
      · simp only [hn, setentries, Function.update_self, Table.bits]
      · simp only [setentries, Function.update_of_ne hn]
    rw [setentries] at ho
    simp only [Function.update_self] at ho
    rw [mem_strongEntry, hd.val, hnone] at ho
    exact Bool.noConfusion ho.1
  · rw [if_neg hval]
    have hsome : ((g.table h).entries.node i).val.isSome = true := by
      cases hv : ((g.table h).entries.node i).val <;> simp_all
    set n := (g.table h).entries.node i with hn
    -- the key, unless it is weak
    have hkey : Marks P g (if weakkey then g else markvalue g (n.key.map .key))
        ∧ (weakkey = false → ∀ o, gcobject (n.key.map Value.key) = some o →
          iswhite ((if weakkey then g else markvalue g (n.key.map .key)).gch o) = false) := by
      cases weakkey with
      | true => exact ⟨.refl _ P g, Bool.noConfusion⟩
      | false =>
        have hmark := markvalue_marks (v := n.key.map Value.key) hclosed fun o ho =>
          hP o (mem_strongEntry.mpr ⟨hsome, .inl ⟨rfl, ho⟩⟩)
        exact ⟨hmark.1, fun _ => hmark.2⟩
    set g₁ := if weakkey then g else markvalue g (n.key.map .key) with hg₁
    have hvalue : Marks P g₁ (if weakvalue then g₁ else markvalue g₁ n.val)
        ∧ (weakvalue = false → ∀ o, gcobject n.val = some o →
          iswhite ((if weakvalue then g₁ else markvalue g₁ n.val).gch o) = false) := by
      cases weakvalue with
      | true => exact ⟨.refl _ P g₁, Bool.noConfusion⟩
      | false =>
        have hmark := markvalue_marks (v := n.val) (hclosed.tidied hkey.1.tidied) fun o ho =>
          hP o (mem_strongEntry.mpr ⟨hsome, .inr ⟨rfl, ho⟩⟩)
        exact ⟨hmark.1, fun _ => hmark.2⟩
    have hall := hkey.1.trans hvalue.1
    have hdied := hall.tidied.entries h
    refine ⟨hall, fun o ho => ?_⟩
    rw [mem_strongEntry, hdied.key, hdied.val] at ho
    rcases ho.2 with ⟨hk, ho⟩ | ⟨hv, ho⟩
    · exact hvalue.1.seen o (hkey.2 hk o ho)
    · exact hvalue.2 hv o ho

theorem foldl_traversenode {h : Nat} (weakkey weakvalue : Bool) (hclosed : ClosedIn P g)
    (hP : ∀ r ∈ (g.table h).strongRefs weakkey weakvalue, P r) (l : List Nat)
    (hl : ∀ i ∈ l, i < (g.table h).entries.sizenode) :
    Marks P g (l.foldl (traversenode h weakkey weakvalue) g)
      ∧ ∀ i ∈ l, NodeDone h weakkey weakvalue i (l.foldl (traversenode h weakkey weakvalue) g) := by
  refine foldl_marks (Q := NodeDone h weakkey weakvalue) (fun i g g' hm hd => hd.marks hm) l g
    fun g' i hi ht => traversenode_marks (hclosed.tidied ht) fun o ho => hP o ?_
  rw [← ht.tableStrongRefs]
  refine mem_strongRefs.mpr (.inr (.inr ⟨i, ?_, ho⟩))
  rw [(ht.entries h).sizenode]
  exact hl i hi

/-- The two loops of `traversetable`. -/
theorem traverseentries_marks {h n : Nat} (weakkey weakvalue : Bool) {array : List (TValue K)}
    (hclosed : ClosedIn P g) (hP : ∀ r ∈ (g.table h).strongRefs weakkey weakvalue, P r)
    (harray : array = (g.table h).entries.array) (hn : n = (g.table h).entries.sizenode) :
    Marks P g ((List.range n).reverse.foldl (traversenode h weakkey weakvalue)
        (if weakvalue then g else array.reverse.foldl markvalue g))
      ∧ (weakvalue = false → ∀ o ∈ objects array,
        iswhite (((List.range n).reverse.foldl (traversenode h weakkey weakvalue)
          (if weakvalue then g else array.reverse.foldl markvalue g)).gch o) = false)
      ∧ ∀ i < n, NodeDone h weakkey weakvalue i ((List.range n).reverse.foldl
        (traversenode h weakkey weakvalue) (if weakvalue then g else array.reverse.foldl markvalue g)) := by
  have hrev : ∀ o, o ∈ objects array.reverse ↔ o ∈ objects array := fun o => by
    simp only [mem_objects, List.mem_reverse]
  have hfirst : Marks P g (if weakvalue then g else array.reverse.foldl markvalue g)
      ∧ (weakvalue = false → ∀ o ∈ objects array,
        iswhite ((if weakvalue then g else array.reverse.foldl markvalue g).gch o) = false) := by
    cases weakvalue with
    | true => exact ⟨.refl _ P g, Bool.noConfusion⟩
    | false =>
      have hmark := foldl_markvalue array.reverse hclosed fun o ho =>
        hP o (mem_strongRefs.mpr (.inr (.inl ⟨rfl, harray ▸ (hrev o).mp ho⟩)))
      exact ⟨hmark.1, fun _ o ho => hmark.2 o ((hrev o).mpr ho)⟩
  set g₁ := if weakvalue then g else array.reverse.foldl markvalue g with hg₁
  have htidied := hfirst.1.tidied
  have hnodes := foldl_traversenode weakkey weakvalue (hclosed.tidied htidied)
    (fun r hr => hP r (htidied.tableStrongRefs h weakkey weakvalue ▸ hr)) (List.range n).reverse
    fun i hi => by
      rw [(htidied.entries h).sizenode, ← hn]
      exact List.mem_range.mp (List.mem_reverse.mp hi)
  exact ⟨hfirst.1.trans hnodes.1, fun hv o ho => hnodes.1.seen o (hfirst.2 hv o ho), fun i hi =>
    hnodes.2 i (List.mem_reverse.mpr (List.mem_range.mpr hi))⟩

omit [LawfulCollectable K] in
theorem setweak_marks (g : GlobalState K) (h : Nat) (weakkey weakvalue : Bool) :
    MarksBut (fun _ => False) P [.table h] g (setweak g h weakkey weakvalue) := by
  have htidied : Tidied g (setweak g h weakkey weakvalue) := tidied_table rfl rfl rfl rfl (.refl _)
  refine htidied.marks (fun o => by cases o <;> rfl) rfl rfl rfl fun m hm => ?_
  have hne : m ≠ h := fun heq => hm (by rw [heq]; exact List.mem_singleton_self _)
  simp only [setweak, Function.update_of_ne hne]

/-- The tables that a traversal finds weak. -/
def weakfound (g : GlobalState K) : GCObject → List GCObject
  | .table h => if (weakmode g h).1 || (weakmode g h).2 then [.table h] else []
  | _ => []

/-- **A table traversed**: what it keeps is marked, and of a weak table nothing else. -/
theorem traversetable_marks {h : Nat} (hclosed : ClosedIn P g) (hP : P (.table h)) :
    MarksBut (fun _ => False) P (weakfound g (.table h)) g (traversetable g h).2
      ∧ (.table h ∈ weakfound g (.table h) → ((traversetable g h).2.table h).bits = weakmode g h)
      ∧ ∀ r ∈ (traversetable g h).2.strongRefs (.table h), iswhite ((traversetable g h).2.gch r) = false := by
  have hmt := markmetatable_marks (g := g) (g.table h).metatable fun m hm =>
    hclosed.refs _ hP _ (mem_strongRefs_table.mpr (.inl ⟨m, hm, rfl⟩))
  rw [traversetable, weakfound]
  set g₁ := markmetatable g (g.table h).metatable with hg₁
  have hmode := hclosed.weakmode hmt.1.tidied hP
  rw [← hmode]
  rcases hbits : weakmode g₁ h with ⟨weakkey, weakvalue⟩
  simp only
  set ws : List GCObject := if weakkey || weakvalue then [.table h] else [] with hws
  set g₂ := if weakkey || weakvalue then setweak g₁ h weakkey weakvalue else g₁ with hg₂
  have hweak : MarksBut (fun _ => False) P ws g₁ g₂ := by
    rw [hg₂, hws]
    split_ifs
    · exact setweak_marks g₁ h weakkey weakvalue
    · exact .refl _ P g₁
  have hset : .table h ∈ ws → (g₂.table h).bits = (weakkey, weakvalue) := by
    rw [hg₂, hws]
    split_ifs
    · exact fun _ => by simp only [setweak, Function.update_self, Table.bits]
    · exact fun hin => absurd hin List.not_mem_nil
  have hfirst : MarksBut (fun _ => False) P ws g g₂ := by
    simpa only [List.append_nil] using hmt.1.trans hweak
  -- the rest is the same for all that the loops may have done
  have hlast (g₃ : GlobalState K) (hm : Marks P g₂ g₃)
      (harray : weakvalue = false → ∀ o ∈ objects (g.table h).entries.array, iswhite (g₃.gch o) = false)
      (hnodes : ∀ i < (g.table h).entries.sizenode, NodeDone h weakkey weakvalue i g₃) :
      MarksBut (fun _ => False) P ws g g₃
        ∧ (.table h ∈ ws → (g₃.table h).bits = (weakkey, weakvalue))
        ∧ ∀ r ∈ g₃.strongRefs (.table h), iswhite (g₃.gch r) = false := by
    have hall := hfirst.trans hm
    refine ⟨hall, fun hin => (hm.bits h List.not_mem_nil).trans (hset hin), fun r hr => ?_⟩
    rw [mem_strongRefs_table, hclosed.weakmode hall.tidied hP, ← hmode, hbits] at hr
    rcases hr with ⟨m, hmm, rfl⟩ | ⟨hv, hr⟩ | ⟨i, hi, hr⟩
    · rw [hall.tidied.metatable] at hmm
      exact hm.seen _ (hweak.seen _ (hmt.2 m hmm))
    · rw [(hall.tidied.entries h).array] at hr
      exact harray hv r hr
    · rw [(hall.tidied.entries h).sizenode] at hi
      exact hnodes i hi r hr
  by_cases hboth : (weakkey && weakvalue) = true
  · -- weak keys and values: nothing of the entries is followed
    rw [if_pos hboth]
    rw [Bool.and_eq_true] at hboth
    refine hlast g₂ (.refl _ P g₂) (fun hv => ?_) fun i _ o ho => ?_
    · exact absurd (hboth.2.symm.trans hv) Bool.noConfusion
    · rw [mem_strongEntry, hboth.1, hboth.2] at ho
      exact ho.2.elim (fun h => Bool.noConfusion h.1) fun h => Bool.noConfusion h.1
  · rw [if_neg hboth]
    have hbody := traverseentries_marks (h := h) weakkey weakvalue (hclosed.tidied hfirst.tidied)
      (fun r hr => hclosed.refs _ hP r (by
        rw [GlobalState.strongRefs, ← hmode, hbits, ← hfirst.tidied.tableStrongRefs]
        exact hr)) (hfirst.tidied.entries h).array.symm (hfirst.tidied.entries h).sizenode.symm
    exact hlast _ hbody.1 hbody.2.1 hbody.2.2

end

end NostalgiaConv.Collector
