/-
`lua/lgc.c`: the mark phase as a whole.

`propagatemark` takes an object from the list `gray` and follows what it refers to, which
may put others there; `propagateall` repeats that until the list is empty. The file proves
that it ends, and that after `markroot` it has marked exactly the objects that can be
reached from the roots, where the entries of weak tables lead nowhere.
-/
import NostalgiaConv.GcMark

set_option autoImplicit false

namespace NostalgiaConv.Collector

open NostalgiaConv.StringTable NostalgiaConv.HashTable NostalgiaConv.Tracing

section

variable {K : Type} [Collectable K] {g g₁ g₂ g' : GlobalState K} {o : GCObject} {rest ws : List GCObject}
  {P : GCObject → Prop}

/-! ## One object propagated -/

/-- Colours other than white may change, and the lists `gray` and `grayagain`. -/
structure Shaded (g g' : GlobalState K) : Prop where
  tidied : Tidied g g'
  whites : ∀ o w, (g'.gch o).white w = (g.gch o).white w
  weak : g'.weak = g.weak
  bits : ∀ h, (g'.table h).bits = (g.table h).bits

/-- **What `propagatemark` does** with the object `o`, when `rest` is behind it in the list. -/
structure Propagated (P : GCObject → Prop) (o : GCObject) (rest : List GCObject)
    (g g' : GlobalState K) : Prop where
  tidied : Tidied g g'
  seen : ∀ o', iswhite (g.gch o') = false → iswhite (g'.gch o') = false
  white : ∀ o', iswhite (g'.gch o') = true → ∀ w, (g'.gch o').white w = (g.gch o').white w
  gray : ∃ l, g'.gray = l ++ rest ∧ l.Nodup ∧ ∀ o', o' ∈ l ↔ Newly g g' o' ∧ o'.listed = true
  grayagain : ∀ o' ∈ g'.grayagain, o' ∈ g.grayagain ∨ o' = o
  weak : g'.weak = weakfound g o ++ g.weak
  bits : ∀ h, .table h ∉ weakfound g o → (g'.table h).bits = (g.table h).bits
  found : ∀ h, .table h ∈ weakfound g o → (g'.table h).bits = weakmode g h
  only : ∀ o', Newly g g' o' → P o'
  followed : ∀ o', Newly g g' o' → o'.listed = false → ∀ r ∈ g'.refs o', iswhite (g'.gch r) = false
  done : ∀ r ∈ g'.strongRefs o, iswhite (g'.gch r) = false

theorem Shaded.refl (g : GlobalState K) : Shaded g g := ⟨.refl g, fun _ _ => rfl, rfl, fun _ => rfl⟩

theorem Shaded.trans (h : Shaded g g₁) (h' : Shaded g₁ g') : Shaded g g' :=
  ⟨h.tidied.trans h'.tidied, fun o w => (h'.whites o w).trans (h.whites o w), h'.weak.trans h.weak,
    fun n => (h'.bits n).trans (h.bits n)⟩

theorem Shaded.white (h : Shaded g g') (o : GCObject) : iswhite (g'.gch o) = iswhite (g.gch o) :=
  congrArg₂ or (h.whites o false) (h.whites o true)

theorem shaded_paint {f : Marked → Marked} (hf : ∀ m w, (f m).white w = m.white w) (g : GlobalState K)
    (o : GCObject) : Shaded g (paint f g o) where
  tidied := tidied_paint f g o
  whites o' w := by
    rw [gch_paint]
    split_ifs with h
    · rw [h, hf]
    · rfl
  weak := by cases o <;> rfl
  bits h := by rw [table_paint]

omit [Collectable K] in
theorem white_gray2black (m : Marked) (w : Bool) : (gray2black m).white w = m.white w := rfl

omit [Collectable K] in
theorem white_black2gray (m : Marked) (w : Bool) : (black2gray m).white w = m.white w := rfl

/-- The lists are linked anew. -/
theorem shaded_lists (g : GlobalState K) (gray grayagain : List GCObject) :
    Shaded g { g with gray, grayagain } where
  tidied := ⟨rfl, fun _ => rfl, fun _ => .refl _, fun _ => .refl _⟩
  whites o w := by cases o <;> rfl
  weak := rfl
  bits _ := rfl

theorem mem_weakfound {h : Nat} : .table h ∈ weakfound g o
    ↔ o = .table h ∧ ((weakmode g h).1 || (weakmode g h).2) = true := by
  cases o with
  | table h' =>
    rw [weakfound]
    split_ifs with hmode
    · rw [List.mem_singleton]
      exact ⟨fun heq => ⟨heq.symm, by rwa [GCObject.table.inj heq]⟩, fun heq => heq.1.symm⟩
    · refine ⟨fun hin => absurd hin List.not_mem_nil, fun heq => ?_⟩
      rw [← GCObject.table.inj heq.1] at heq
      exact absurd heq.2 hmode
  | _ => exact ⟨fun hin => absurd hin List.not_mem_nil, fun heq => GCObject.noConfusion heq.1⟩

variable [LawfulCollectable K]

/-- A table is found weak before as after. -/
theorem weakfound_congr (hclosed : ClosedIn P g) (ht : Tidied g g') (hP : P o) :
    weakfound g' o = weakfound g o := by
  cases o with
  | table h => rw [weakfound, weakfound, hclosed.weakmode ht hP]
  | _ => rfl

/-- A marking between two changes of shade. -/
theorem MarksBut.propagated (h : MarksBut (fun _ => False) P (weakfound g₁ o) g₁ g₂) (h₁ : Shaded g g₁)
    (h₂ : Shaded g₂ g') (hgray₁ : g₁.gray = rest) (hgray₂ : g'.gray = g₂.gray)
    (hgrayagain : ∀ o' ∈ g'.grayagain, o' ∈ g.grayagain ∨ o' = o) (hclosed : ClosedIn P g) (hP : P o)
    (hfound : ∀ h, .table h ∈ weakfound g₁ o → (g₂.table h).bits = weakmode g₁ h)
    (hdone : ∀ r ∈ g₂.strongRefs o, iswhite (g₂.gch r) = false) : Propagated P o rest g g' := by
  have hnewly : ∀ o', Newly g g' o' ↔ Newly g₁ g₂ o' := fun o' => by
    rw [Newly, Newly, h₁.white, h₂.white]
  have hclosed₂ := hclosed.tidied (h₁.tidied.trans h.tidied)
  have hweak := weakfound_congr hclosed h₁.tidied hP
  refine ⟨(h₁.tidied.trans h.tidied).trans h₂.tidied, fun o' ho' => ?_, fun o' hw w => ?_, ?_, hgrayagain, ?_,
    fun n hn => ?_, fun n hn => ?_, fun o' hn => h.only o' ((hnewly o').mp hn), fun o' hn hlist r hr => ?_,
    fun r hr => ?_⟩
  · rw [h₂.white]
    exact h.seen o' ((h₁.white o').trans ho')
  · rw [h₂.white] at hw
    rw [h₂.whites, h.white o' hw, h₁.whites]
  · simpa only [hgray₂, ← hgray₁, hnewly] using h.gray
  · rw [h₂.weak, h.weak, h₁.weak, hweak]
  · rw [h₂.bits, h.bits n (by rwa [hweak]), h₁.bits]
  · rw [h₂.bits, hfound n (by rwa [hweak]), hclosed.weakmode h₁.tidied]
    rwa [← (mem_weakfound.mp hn).1]
  · rw [h₂.white]
    exact h.followed o' ((hnewly o').mp hn) hlist id r (h₂.tidied.refs o' hr)
  · rw [h₂.white]
    exact hdone r (hclosed₂.strongRefs h₂.tidied hP hr)

theorem propagatemark_propagated (hclosed : ClosedIn P g) (hgray : g.gray = o :: rest) (hP : P o)
    (hlist : o.listed = true) : Propagated P o rest g (propagatemark g) := by
  rw [propagatemark, hgray]
  simp only
  set g₁ := paint gray2black { g with gray := rest } o with hg₁
  have h₁ : Shaded g g₁ := (shaded_lists g rest g.grayagain).trans (shaded_paint white_gray2black _ o)
  have hgray₁ : g₁.gray = rest := by rw [hg₁, gray_paint]
  have hagain₁ : g₁.grayagain = g.grayagain := by rw [hg₁]; cases o <;> rfl
  have hclosed₁ : ClosedIn P g₁ := hclosed.tidied h₁.tidied
  cases o with
  | string ts => exact Bool.noConfusion hlist
  | userdata u => exact Bool.noConfusion hlist
  | upval uv => exact Bool.noConfusion hlist
  | function cl =>
    obtain ⟨hm, hdone⟩ := traverseclosure_marks hclosed₁ (hclosed₁.refs _ hP)
    exact hm.propagated h₁ (.refl _) hgray₁ rfl (fun o' ho' => .inl (by rwa [hm.grayagain, hagain₁] at ho'))
      hclosed hP (fun _ hin => absurd hin List.not_mem_nil)
      fun r hr => hdone r (hm.tidied.refs (.function cl) hr)
  | proto p =>
    obtain ⟨hm, hdone⟩ := traverseproto_marks hclosed₁ (hclosed₁.refs _ hP)
    exact hm.propagated h₁ (.refl _) hgray₁ rfl (fun o' ho' => .inl (by rwa [hm.grayagain, hagain₁] at ho'))
      hclosed hP (fun _ hin => absurd hin List.not_mem_nil)
      fun r hr => hdone r (hm.tidied.refs (.proto p) hr)
  | thread th =>
    -- a thread is never black, and goes to the list `grayagain`
    set g₂ := paint black2gray { g₁ with grayagain := .thread th :: g₁.grayagain } (.thread th) with hg₂
    have h₂ : Shaded g₁ g₂ :=
      (shaded_lists g₁ g₁.gray _).trans (shaded_paint white_black2gray _ (.thread th))
    have hclosed₂ : ClosedIn P g₂ := hclosed₁.tidied h₂.tidied
    obtain ⟨hm, hdone⟩ := traversestack_marks hclosed₂ (hclosed₂.refs _ hP)
    refine hm.propagated (h₁.trans h₂) (.refl _) ?_ rfl (fun o' ho' => ?_) hclosed hP
      (fun _ hin => absurd hin List.not_mem_nil) hdone
    · rw [hg₂, gray_paint, hgray₁]
    · have hagain₂ : g₂.grayagain = .thread th :: g.grayagain := by rw [← hagain₁]; rfl
      rw [hm.grayagain, hagain₂] at ho'
      exact (List.mem_cons.mp ho').symm
  | table h =>
    obtain ⟨hm, hfound, hdone⟩ := traversetable_marks hclosed₁ hP
    have hbits : ∀ n, .table n ∈ weakfound g₁ (.table h) →
        ((traversetable g₁ h).2.table n).bits = weakmode g₁ n := fun n hn => by
      obtain rfl := GCObject.table.inj (mem_weakfound.mp hn).1
      exact hfound hn
    have hagain : ∀ o' ∈ (traversetable g₁ h).2.grayagain, o' ∈ g.grayagain ∨ o' = .table h := fun o' ho' =>
      .inl (by rwa [hm.grayagain, hagain₁] at ho')
    rcases htrav : traversetable g₁ h with ⟨weak, g₂⟩
    simp only [htrav] at hm hbits hagain hdone ⊢
    split_ifs
    · -- kept gray
      exact hm.propagated h₁ (shaded_paint white_black2gray _ _) hgray₁ (gray_paint _ _ _) hagain hclosed hP
        hbits hdone
    · exact hm.propagated h₁ (.refl _) hgray₁ rfl hagain hclosed hP hbits hdone

/-! ## The loop -/

/-- The mark phase on its way: what is marked keeps what is marked only, apart from what is
in the list `gray`; the weak tables that have been marked are in that list or in `weak`. -/
structure MarkPhase (P : GCObject → Prop) (g : GlobalState K) : Prop where
  closed : ClosedIn P g
  traced : Traced g.strongRefs (fun o => P o ∧ iswhite (g.gch o) = false) (· ∈ g.gray)
  gray : ∀ o ∈ g.gray, P o ∧ o.listed = true ∧ iswhite (g.gch o) = false
  grayagain : ∀ o ∈ g.grayagain, P o ∧ o.listed = true ∧ iswhite (g.gch o) = false
  weak : ∀ o ∈ g.weak, ∃ h, o = .table h ∧ P o ∧ iswhite (g.gch o) = false ∧ (g.table h).bits = weakmode g h
  found : ∀ h, P (.table h) → iswhite (g.gch (.table h)) = false →
    ((weakmode g h).1 || (weakmode g h).2) = true → .table h ∈ g.gray ∨ .table h ∈ g.weak

omit [LawfulCollectable K] in
theorem strongRefs_of_listed (h : o.listed = false) : g.strongRefs o = g.refs o := by
  cases o <;> first | rfl | exact Bool.noConfusion h

/-- Objects marked, with those that are to be followed in front of the list `gray`. -/
theorem MarkPhase.step {l ws : List GCObject} (ht : MarkPhase P g) (htidied : Tidied g g')
    (hseen : ∀ o, iswhite (g.gch o) = false → iswhite (g'.gch o) = false)
    (hl : g'.gray = l ++ rest) (hmem : ∀ o, o ∈ l ↔ Newly g g' o ∧ o.listed = true)
    (honly : ∀ o, Newly g g' o → P o)
    (hfollowed : ∀ o, Newly g g' o → o.listed = false → ∀ r ∈ g'.refs o, iswhite (g'.gch r) = false)
    (hrest : ∀ o ∈ rest, o ∈ g.gray)
    (hdone : ∀ o ∈ g.gray, o ∉ rest → ∀ r ∈ g'.strongRefs o, iswhite (g'.gch r) = false)
    (hagain : ∀ o ∈ g'.grayagain, o ∈ g.grayagain ∨ o ∈ g.gray) (hweak : g'.weak = ws ++ g.weak)
    (hbits : ∀ h, .table h ∉ ws → (g'.table h).bits = (g.table h).bits)
    (hws : ∀ o ∈ ws, o ∈ g.gray ∧ ∃ h, o = .table h ∧ (g'.table h).bits = weakmode g h)
    (hfound : ∀ h, .table h ∈ g.gray → .table h ∉ rest → ((weakmode g h).1 || (weakmode g h).2) = true →
      .table h ∈ ws) : MarkPhase P g' := by
  have hclosed := ht.closed.tidied htidied
  have hlater : ∀ o, P o ∧ o.listed = true ∧ iswhite (g.gch o) = false →
      P o ∧ o.listed = true ∧ iswhite (g'.gch o) = false :=
    fun o ho => ⟨ho.1, ho.2.1, hseen o ho.2.2⟩
  refine ⟨hclosed, ht.traced.step (fun a ha => ⟨ha.1, hseen a ha.2⟩) fun a ha hp => ?_, fun a ha => ?_,
    fun a ha => ?_, fun a ha => ?_, fun h hP hs hmode => ?_⟩
  · rw [hl, List.mem_append, not_or] at hp
    have hrefs (h : ∀ r ∈ g'.strongRefs a, iswhite (g'.gch r) = false) :
        ∀ r ∈ g'.strongRefs a, P r ∧ iswhite (g'.gch r) = false :=
      fun r hr => ⟨hclosed.refs a ha.1 r hr, h r hr⟩
    by_cases hw : iswhite (g.gch a) = false
    · by_cases hin : a ∈ g.gray
      · -- taken from the list, and followed
        exact .inr (hrefs (hdone a hin hp.2))
      · exact .inl ⟨⟨ha.1, hw⟩, hin, fun b hb => .inl (ht.closed.strongRefs htidied ha.1 hb)⟩
    · -- marked now: it is in the list, or what it refers to is marked as well
      have hn : Newly g g' a := ⟨by simpa using hw, ha.2⟩
      cases hlist : a.listed with
      | true => exact absurd ((hmem a).mpr ⟨hn, hlist⟩) hp.1
      | false =>
        refine .inr (hrefs ?_)
        rw [strongRefs_of_listed hlist]
        exact hfollowed a hn hlist
  · rw [hl] at ha
    rcases List.mem_append.mp ha with ha | ha
    · obtain ⟨hn, hlist⟩ := (hmem a).mp ha
      exact ⟨honly a hn, hlist, hn.2⟩
    · exact hlater a (ht.gray a (hrest a ha))
  · rcases hagain a ha with ha | ha
    · exact hlater a (ht.grayagain a ha)
    · exact hlater a (ht.gray a ha)
  · rw [hweak] at ha
    have hnew : a ∈ ws → ∃ h, a = .table h ∧ P a ∧ iswhite (g'.gch a) = false
        ∧ (g'.table h).bits = weakmode g' h := fun ha => by
      obtain ⟨hin, h, rfl, hb⟩ := hws a ha
      obtain ⟨hP, -, hs⟩ := hlater _ (ht.gray _ hin)
      exact ⟨h, rfl, hP, hs, hb.trans (ht.closed.weakmode htidied hP).symm⟩
    rcases List.mem_append.mp ha with ha | ha
    · exact hnew ha
    · obtain ⟨h, rfl, hP, hs, hb⟩ := ht.weak a ha
      by_cases hin : .table h ∈ ws
      · exact hnew hin
      · refine ⟨h, rfl, hP, hseen _ hs, ?_⟩
        rw [hbits h hin, hb, ht.closed.weakmode htidied hP]
  · -- a weak table is still in the list, or was followed and is in `weak`
    rw [ht.closed.weakmode htidied hP] at hmode
    rw [hl, hweak, List.mem_append, List.mem_append]
    cases hw : iswhite (g.gch (.table h)) with
    | true => exact .inl (.inl ((hmem _).mpr ⟨⟨hw, hs⟩, rfl⟩))
    | false =>
      rcases ht.found h hP hw hmode with hin | hin
      · by_cases hrest' : .table h ∈ rest
        · exact .inl (.inr hrest')
        · exact .inr (.inl (hfound h hin hrest' hmode))
      · exact .inr (.inr hin)

/-- **One object propagated keeps the invariant of the mark phase.** -/
theorem Propagated.markPhase (h : Propagated P o rest g g') (ht : MarkPhase P g)
    (hgray : g.gray = o :: rest) : MarkPhase P g' := by
  obtain ⟨l, hl, -, hmem⟩ := h.gray
  have ho : o ∈ g.gray := by rw [hgray]; exact List.mem_cons_self
  have hhead : ∀ a ∈ g.gray, a ∉ rest → a = o := fun a ha hnot => by
    rw [hgray] at ha
    exact (List.mem_cons.mp ha).resolve_right hnot
  refine ht.step h.tidied h.seen hl hmem h.only h.followed (fun a ha => ?_) (fun a ha hnot => ?_)
    (fun a ha => ?_) h.weak h.bits (fun a ha => ?_) fun n hn hnot hmode => ?_
  · rw [hgray]
    exact List.mem_cons_of_mem o ha
  · rw [hhead a ha hnot]
    exact h.done
  · rcases h.grayagain a ha with ha | rfl
    · exact .inl ha
    · exact .inr ho
  · cases o with
    | table n =>
      have heq : a = .table n := by
        rw [weakfound] at ha
        split_ifs at ha
        · exact List.mem_singleton.mp ha
        · exact absurd ha List.not_mem_nil
      exact ⟨heq ▸ ho, n, heq, h.found n (heq ▸ ha)⟩
    | _ => exact absurd ha List.not_mem_nil
  · exact mem_weakfound.mpr ⟨(hhead _ hn hnot).symm, hmode⟩

theorem MarksBut.markPhase (h : Marks P g g') (ht : MarkPhase P g) : MarkPhase P g' := by
  obtain ⟨l, hl, -, hmem⟩ := h.gray
  exact ht.step h.tidied h.seen hl hmem h.only (fun o hn hlist => h.followed o hn hlist id)
    (fun _ ho => ho) (fun _ ho hnot => absurd ho hnot) (fun _ ho => .inl (h.grayagain ▸ ho)) h.weak h.bits
    (fun _ ho => absurd ho List.not_mem_nil) fun _ ho hnot _ => absurd ho hnot

/-- Where `P` holds there is an object in memory, which is in `rootgc` if it can be in the
list `gray`. -/
structure Heap (P : GCObject → Prop) (g : GlobalState K) : Prop where
  nodup : g.rootgc.Nodup
  linked : ∀ o, P o → o.listed = true → o ∈ g.rootgc

omit [Collectable K] [LawfulCollectable K] in
/-- Objects marked are no longer counted as white. -/
theorem countP_newly {l : List GCObject} (hnodup : g.rootgc.Nodup) (hl : l.Nodup)
    (hseen : ∀ o, iswhite (g.gch o) = false → iswhite (g'.gch o) = false)
    (hnew : ∀ o ∈ l, o ∈ g.rootgc ∧ Newly g g' o) :
    g.rootgc.countP (fun o => iswhite (g'.gch o)) + l.length
      ≤ g.rootgc.countP (fun o => iswhite (g.gch o)) := by
  have hdisjoint : ((g.rootgc.filter fun o => iswhite (g'.gch o)) ++ l).Nodup := by
    refine List.nodup_append'.mpr ⟨hnodup.filter _, hl, fun o ho ho' => ?_⟩
    have hw := (List.mem_filter.mp ho).2
    rw [(hnew o ho').2.2] at hw
    exact Bool.noConfusion hw
  have hsub : (g.rootgc.filter fun o => iswhite (g'.gch o)) ++ l
      ⊆ g.rootgc.filter fun o => iswhite (g.gch o) := by
    intro o ho
    rcases List.mem_append.mp ho with ho | ho
    · obtain ⟨hin, hw⟩ := List.mem_filter.mp ho
      refine List.mem_filter.mpr ⟨hin, ?_⟩
      cases hold : iswhite (g.gch o) with
      | true => rfl
      | false =>
        rw [hseen o hold] at hw
        exact Bool.noConfusion hw
    · exact List.mem_filter.mpr ⟨(hnew o ho).1, (hnew o ho).2.1⟩
  have hlen := (List.subperm_of_subset hdisjoint hsub).length_le
  rwa [List.length_append, ← List.countP_eq_length_filter, ← List.countP_eq_length_filter] at hlen

/-- **Every object propagated leaves less work.** -/
theorem work_propagatemark (hheap : Heap P g) (ht : MarkPhase P g) (hgray : g.gray = o :: rest) :
    work (propagatemark g) + 1 ≤ work g := by
  obtain ⟨hPo, hlist, -⟩ := ht.gray o (by rw [hgray]; exact List.mem_cons_self)
  have h := propagatemark_propagated ht.closed hgray hPo hlist
  obtain ⟨l, hl, hnodup, hmem⟩ := h.gray
  have hcount := countP_newly hheap.nodup hnodup h.seen fun a ha => by
    obtain ⟨hn, hlist⟩ := (hmem a).mp ha
    exact ⟨hheap.linked a (h.only a hn) hlist, hn⟩
  rw [work, work, h.tidied.rootgc, hl, hgray, List.length_append, List.length_cons]
  omega

/-- What lasts through a part of the mark phase: what is marked stays marked, and only
objects with `P` are marked. -/
structure Lasts (P : GCObject → Prop) (g g' : GlobalState K) : Prop where
  tidied : Tidied g g'
  seen : ∀ o, iswhite (g.gch o) = false → iswhite (g'.gch o) = false
  white : ∀ o, iswhite (g'.gch o) = true → ∀ w, (g'.gch o).white w = (g.gch o).white w
  only : ∀ o, Newly g g' o → P o

omit [LawfulCollectable K] in
theorem Lasts.refl (P : GCObject → Prop) (g : GlobalState K) : Lasts P g g :=
  ⟨.refl g, fun _ h => h, fun _ _ _ => rfl, fun o h => absurd h (not_newly_self g o)⟩

omit [LawfulCollectable K] in
theorem Lasts.trans {g'' : GlobalState K} (h : Lasts P g g') (h' : Lasts P g' g'') : Lasts P g g'' where
  tidied := h.tidied.trans h'.tidied
  seen o ho := h'.seen o (h.seen o ho)
  white o hw w := by
    have hmid : iswhite (g'.gch o) = true :=
      eq_true_of_ne_false fun hs => Bool.noConfusion ((h'.seen o hs).symm.trans hw)
    exact (h'.white o hw w).trans (h.white o hmid w)
  only o hn := by
    cases hw : iswhite (g'.gch o) with
    | true => exact h'.only o ⟨hw, hn.2⟩
    | false => exact h.only o ⟨hn.1, hw⟩

omit [Collectable K] [LawfulCollectable K] in
theorem Heap.of_rootgc (h : Heap P g) (heq : g'.rootgc = g.rootgc) : Heap P g' :=
  ⟨heq ▸ h.nodup, fun o ho hlist => heq ▸ h.linked o ho hlist⟩

theorem propagateloop_done (fuel : Nat) (hheap : Heap P g) (ht : MarkPhase P g) (hwork : work g ≤ fuel) :
    MarkPhase P (propagateloop fuel g) ∧ (propagateloop fuel g).gray = []
      ∧ Lasts P g (propagateloop fuel g) := by
  induction fuel generalizing g with
  | zero =>
    -- no work left: no object either
    refine ⟨ht, List.length_eq_zero_iff.mp ?_, .refl P g⟩
    rw [work] at hwork
    exact Nat.le_zero.mp ((Nat.le_add_left _ _).trans hwork)
  | succ fuel ih =>
    rw [propagateloop]
    cases hgray : g.gray with
    | nil => exact ⟨ht, hgray, .refl P g⟩
    | cons o rest =>
      obtain ⟨hPo, hlist, -⟩ := ht.gray o (by rw [hgray]; exact List.mem_cons_self)
      have h := propagatemark_propagated ht.closed hgray hPo hlist
      have hless := work_propagatemark hheap ht hgray
      obtain ⟨ht', hdone, hlasts⟩ := ih (hheap.of_rootgc h.tidied.rootgc) (h.markPhase ht hgray) (by omega)
      exact ⟨ht', hdone, Lasts.trans ⟨h.tidied, h.seen, h.white, h.only⟩ hlasts⟩

/-- **`propagateall` ends, with nothing left in the list `gray`.** -/
theorem propagateall_done (hheap : Heap P g) (ht : MarkPhase P g) :
    MarkPhase P (propagateall g) ∧ (propagateall g).gray = [] ∧ Lasts P g (propagateall g) :=
  propagateloop_done (work g) hheap ht (Nat.le_refl _)

/-! ## From the roots -/

def markmt (g : GlobalState K) : GlobalState K := g.mt.foldl markmetatable g

/-- `markroot`: mark the root set. -/
def markroot (g : GlobalState K) : GlobalState K :=
  let g := { g with gray := [], grayagain := [], weak := [] }
  let g := markobject g (.thread g.mainthread)
  -- make global table be traversed before main stack
  let g := markvalue g (g.thread g.mainthread).gt
  let g := markvalue g g.registry
  { markmt g with gcstate := .GCSpropagate }

/-- What `markroot` marks. -/
def GlobalState.markroots (g : GlobalState K) : List GCObject :=
  .thread g.mainthread :: objects [g.registry] ++ (g.mt.filterMap id).map .table

/-- A heap between two collections: all is white, and what is in memory refers to what is. -/
structure AllWhite (g : GlobalState K) : Prop where
  white : ∀ o, g.allocated o → (g.gch o).white g.currentwhite = true
  closed : ∀ o, g.allocated o → ∀ r ∈ g.refs o, g.allocated r
  wf : ∀ h, g.allocated (.table h) → Wf (g.table h).entries
  roots : ∀ o ∈ g.roots, g.allocated o
  uvhead : ∀ uv ∈ g.uvhead, g.allocated (.upval uv)
  nodup : g.rootgc.Nodup
  rootgc : ∀ o ∈ g.rootgc, g.allocated o
  linked : ∀ o, g.allocated o → o.listed = true → o ∈ g.rootgc

omit [LawfulCollectable K] in
theorem markmt_marks (hP : ∀ m, some m ∈ g.mt → P (.table m)) :
    Marks P g (markmt g) ∧ ∀ m, some m ∈ g.mt → iswhite ((markmt g).gch (.table m)) = false := by
  have hfold := foldl_marks (P := P) (f := markmetatable)
    (Q := fun mt g => ∀ m, mt = some m → iswhite (g.gch (.table m)) = false)
    (fun mt g g' hm hq m hmt => hm.seen _ (hq m hmt)) g.mt g
    fun g' mt hmt _ => markmetatable_marks mt fun m hm => hP m (hm ▸ hmt)
  exact ⟨hfold.1, fun m hm => hfold.2 _ hm m rfl⟩

/-- **`markroot` marks the roots**, from empty lists. -/
theorem markroot_marks (hP : ∀ o ∈ g.markroots, P o) (hclosed : ClosedIn P g) :
    ∃ g', markroot g = { g' with gcstate := .GCSpropagate }
      ∧ Marks P { g with gray := [], grayagain := [], weak := [] } g'
      ∧ ∀ o ∈ g.markroots, iswhite (g'.gch o) = false := by
  set g₀ : GlobalState K := { g with gray := [], grayagain := [], weak := [] } with hg₀
  have hclosed₀ : ClosedIn P g₀ := ⟨hclosed.refs, hclosed.wf⟩
  have hmain : P (.thread g.mainthread) := hP _ List.mem_cons_self
  have hregistry : ∀ o, gcobject g.registry = some o → P o := fun o ho =>
    hP o (List.mem_append_left _ (List.mem_cons_of_mem _ (mem_objects.mpr ⟨_, List.mem_cons_self, ho⟩)))
  have hmts : ∀ m, some m ∈ g.mt → P (.table m) := fun m hm =>
    hP _ (List.mem_append_right _ (List.mem_map.mpr ⟨m, List.mem_filterMap.mpr ⟨_, hm, rfl⟩, rfl⟩))
  -- in the order of the source: main thread, its globals, registry, metatables of the types
  obtain ⟨h₁, hseen₁⟩ := markobject_marks hclosed₀ hmain
  set g₁ := markobject g₀ (.thread g.mainthread) with hg₁
  have hclosed₁ := hclosed₀.tidied h₁.tidied
  have hgt : ∀ o, gcobject (g₁.thread g.mainthread).gt = some o → P o := fun o ho =>
    hclosed₁.refs _ hmain o (mem_refs_thread.mpr (.inl ho))
  obtain ⟨h₂, -⟩ := markvalue_marks hclosed₁ hgt
  set g₂ := markvalue g₁ (g₁.thread g.mainthread).gt with hg₂
  have hclosed₂ := hclosed₁.tidied h₂.tidied
  obtain ⟨h₃, hseen₃⟩ := markvalue_marks hclosed₂ hregistry
  set g₃ := markvalue g₂ g.registry with hg₃
  have hmt : g₃.mt = g.mt := ((h₁.trans h₂).trans h₃).tidied.mt
  obtain ⟨h₄, hseen₄⟩ := markmt_marks (P := P) (g := g₃) fun m hm => hmts m (hmt ▸ hm)
  refine ⟨markmt g₃, ?_, ((h₁.trans h₂).trans h₃).trans h₄, fun o ho => ?_⟩
  · have hthread : g₁.mainthread = g.mainthread := h₁.tidied.mainthread
    have hreg : g₂.registry = g.registry := (h₁.trans h₂).tidied.registry
    rw [hg₃, ← hreg, hg₂, ← hthread]
    rfl
  · rcases List.mem_append.mp ho with ho | ho
    · rcases List.mem_cons.mp ho with rfl | ho
      · exact h₄.seen _ (h₃.seen _ (h₂.seen _ hseen₁))
      · obtain ⟨v, hv, ho⟩ := mem_objects.mp ho
        obtain rfl := List.mem_singleton.mp hv
        exact h₄.seen o (hseen₃ o ho)
    · obtain ⟨m, hm, rfl⟩ := List.mem_map.mp ho
      obtain ⟨mt, hmem, rfl⟩ := List.mem_filterMap.mp hm
      exact hseen₄ m (hmt ▸ hmem)

omit [LawfulCollectable K] in
theorem MarkPhase.setstate (h : MarkPhase P g) (s : GcState) :
    MarkPhase P { g with gcstate := s } :=
  ⟨⟨h.closed.refs, h.closed.wf⟩, h.traced, h.gray, h.grayagain, h.weak, h.found⟩

omit [LawfulCollectable K] in
/-- What is weak is left out. -/
theorem strongRefs_subset (o : GCObject) : g.strongRefs o ⊆ g.refs o := by
  cases o with
  | table h =>
    intro r hr
    rcases mem_strongRefs_table.mp hr with ⟨m, hm, rfl⟩ | ⟨-, hr⟩ | ⟨i, hi, hr⟩
    · exact List.mem_append_left _ (List.mem_append_left _
        (List.mem_map.mpr ⟨m, Option.mem_toList.mpr hm, rfl⟩))
    · exact List.mem_append_left _ (List.mem_append_right _ hr)
    · obtain ⟨hval, hr⟩ := mem_strongEntry.mp hr
      refine List.mem_append_right _ (List.mem_flatMap.mpr ⟨_, ?_, mem_entryRefs.mpr ⟨hval, ?_⟩⟩)
      · exact List.mem_map.mpr ⟨i, List.mem_range.mpr hi, rfl⟩
      · exact hr.imp And.right And.right
  | _ => exact List.Subset.refl _

omit [LawfulCollectable K] in
theorem AllWhite.still_white (h : AllWhite g) (ho : g.allocated o) : iswhite (g.gch o) = true := by
  have hw := h.white o ho
  cases hcurrent : g.currentwhite with
  | true => exact Bool.or_eq_true_iff.mpr (.inr (by rwa [hcurrent] at hw))
  | false => exact Bool.or_eq_true_iff.mpr (.inl (by rwa [hcurrent] at hw))

omit [LawfulCollectable K] in
theorem AllWhite.closedIn (h : AllWhite g) : ClosedIn g.allocated g :=
  ⟨fun o ho r hr => h.closed o ho r (strongRefs_subset o hr), h.wf⟩

omit [LawfulCollectable K] in
/-- Before anything is marked. -/
theorem AllWhite.markPhase (h : AllWhite g) (hclosed : ClosedIn P g) (hP : ∀ o, P o → g.allocated o) :
    MarkPhase P { g with gray := [], grayagain := [], weak := [] } := by
  have hnone : ∀ o, P o → iswhite (g.gch o) ≠ false := fun o ho hs =>
    Bool.noConfusion ((h.still_white (hP o ho)).symm.trans hs)
  refine ⟨⟨hclosed.refs, hclosed.wf⟩, fun o ho => ?_, fun o ho => absurd ho List.not_mem_nil,
    fun o ho => absurd ho List.not_mem_nil, fun o ho => absurd ho List.not_mem_nil,
    fun n hn hs => absurd hs (hnone _ hn)⟩
  have hw := h.still_white (hP o ho.1)
  exact absurd (hw.symm.trans ho.2) Bool.noConfusion

omit [LawfulCollectable K] in
theorem markroots_subset : g.markroots ⊆ g.roots := by
  intro o ho
  refine List.mem_append_left _ ?_
  rcases List.mem_append.mp ho with ho | ho
  · rcases List.mem_cons.mp ho with rfl | ho
    · exact List.mem_append_left _ List.mem_cons_self
    · exact List.mem_append_left _ (List.mem_cons_of_mem _ (List.mem_cons_of_mem _ ho))
  · exact List.mem_append_right _ ho

/-- After the mark phase: the invariant, the roots marked, nothing else but `P` marked. -/
theorem markroot_phase (h : AllWhite g) (hP : ∀ o, P o → g.allocated o) (hroot : ∀ o ∈ g.markroots, P o)
    (hclosed : ClosedIn P g) :
    MarkPhase P (propagateall (markroot g)) ∧ (propagateall (markroot g)).gray = []
      ∧ Tidied g (propagateall (markroot g))
      ∧ (∀ o ∈ g.markroots, iswhite ((propagateall (markroot g)).gch o) = false)
      ∧ (∀ o, g.allocated o → iswhite ((propagateall (markroot g)).gch o) = false → P o)
      ∧ ∀ o, iswhite ((propagateall (markroot g)).gch o) = true →
        ∀ w, ((propagateall (markroot g)).gch o).white w = (g.gch o).white w := by
  obtain ⟨g₁, heq, hm, hseen⟩ := markroot_marks hroot hclosed
  have hbefore : Tidied g { g with gray := [], grayagain := [], weak := [] } :=
    ⟨rfl, fun _ => rfl, fun _ => .refl _, fun _ => .refl _⟩
  have hafter : Tidied g₁ (markroot g) := by
    rw [heq]
    exact ⟨rfl, fun _ => rfl, fun _ => .refl _, fun _ => .refl _⟩
  have htidied := (hbefore.trans hm.tidied).trans hafter
  have ht : MarkPhase P (markroot g) := by
    rw [heq]
    exact (hm.markPhase (h.markPhase hclosed hP)).setstate _
  have hheap : Heap P (markroot g) :=
    ⟨htidied.rootgc ▸ h.nodup, fun o ho hlist => htidied.rootgc ▸ h.linked o (hP o ho) hlist⟩
  obtain ⟨ht', hgray, hlasts⟩ := propagateall_done hheap ht
  refine ⟨ht', hgray, htidied.trans hlasts.tidied, fun o ho => hlasts.seen o ?_, fun o ho hs => ?_,
    fun o hw w => ?_⟩
  · rw [heq]
    exact hseen o ho
  · -- white before, so marked by `markroot` or by the loop after it
    have hw := h.still_white ho
    cases hw₁ : iswhite ((markroot g).gch o) with
    | true => exact hlasts.only o ⟨hw₁, hs⟩
    | false =>
      rw [heq] at hw₁
      refine hm.only o ⟨?_, hw₁⟩
      cases o <;> exact hw
  · have hw₁ : iswhite ((markroot g).gch o) = true :=
      eq_true_of_ne_false fun hs => Bool.noConfusion ((hlasts.seen o hs).symm.trans hw)
    rw [hlasts.white o hw w]
    rw [heq] at hw₁ ⊢
    have hsame := hm.white o hw₁ w
    cases o <;> exact hsame

/-- **The mark phase marks what is kept from the roots**, and nothing else: where weak
references and cleared slots of stacks lead nowhere. -/
theorem propagateall_markroot (h : AllWhite g) :
    (propagateall (markroot g)).gray = []
      ∧ (∀ o, Reaches (propagateall (markroot g)).strongRefs (· ∈ g.markroots) o →
          g.allocated o ∧ iswhite ((propagateall (markroot g)).gch o) = false)
      ∧ ∀ o, g.allocated o → iswhite ((propagateall (markroot g)).gch o) = false →
          Reaches g.strongRefs (· ∈ g.markroots) o := by
  have hallocated : ∀ o, Reaches g.strongRefs (· ∈ g.markroots) o → g.allocated o := fun o ho =>
    ho.of_closed (fun a ha => h.roots a (markroots_subset ha)) h.closedIn.refs
  obtain ⟨ht, hgray, -, hroots, honly, -⟩ := markroot_phase (P := Reaches g.strongRefs (· ∈ g.markroots)) h
    hallocated (fun o ho => .root ho) ⟨fun o ho r hr => .ref ho hr, fun n hn => h.wf n (hallocated _ hn)⟩
  refine ⟨hgray, fun o ho => ?_, honly⟩
  have hmarked := ht.traced.complete (fun a _ => hgray ▸ List.not_mem_nil)
    (fun a ha => ⟨.root ha, hroots a ha⟩) ho
  exact ⟨hallocated o hmarked.1, hmarked.2⟩

end

/-! A closure on the stack of the main thread, which has captured a table with weak values,
and the slot it is in itself. The one value of that table, and a userdata with a finalizer,
are found nowhere else. -/

def emptyEntries : HashTable.Table Key (Value Key) := ⟨[], 0, fun _ => .empty, true, 0⟩

def oneEntry (k : Key) (v : Value Key) : HashTable.Table Key (Value Key) :=
  (assign emptyEntries k (some v)).toOption.getD emptyEntries

theorem emptyEntries_wf : Wf emptyEntries :=
  (luaH_new_wf (Nat.zero_le _) (rfl : luaH_new 0 0 = .ok emptyEntries)).1

theorem oneEntry_wf (k : Key) (v : Value Key) : Wf (oneEntry k v) := by
  have hfresh : Fresh emptyEntries k := fun i _ k' hkey => nomatch hkey
  unfold oneEntry
  rcases emptyEntries_wf.assign hfresh (some v) with ⟨t, hassign, hwf, -⟩ | ⟨hassign, -⟩
  · rw [hassign]
    exact hwf
  · rw [hassign]
    exact emptyEntries_wf

/-- `"__gc"`, `"__mode"` and `"v"`. -/
def sampleStrings : List (List Host.Byte) :=
  [[0x5F, 0x5F, 0x67, 0x63], [0x5F, 0x5F, 0x6D, 0x6F, 0x64, 0x65], [0x76]]

def sampleRootgc : List GCObject :=
  [.thread 0, .function 0, .proto 0, .upval 0, .userdata 0, .table 0, .table 1, .table 2, .table 3, .table 4]

def sampleObjects : List GCObject := sampleRootgc ++ [.upval 1, .string 0, .string 1, .string 2]

def sampleTable : Nat → Table Key
  | 1 => ⟨some 2, oneEntry (Key.ofInt 1) (.key (.object .table 4)), false, false⟩ -- weak values
  | 2 => ⟨none, oneEntry (.string 1) (.key (.string 2)), false, false⟩
  | 3 => ⟨none, oneEntry (.string 0) (.key (.object .function 0)), false, false⟩
  | _ => ⟨none, emptyEntries, false, false⟩

def sampleHeap : GlobalState Key where
  tsv := fun ts =>
    if .string ts ∈ sampleObjects then some (Value.luaS_newlstr (sampleStrings.getD ts [])) else none
  next := fun _ => none
  marked := fun _ => ⟨true, false, false, false⟩
  hash := []
  nuse := 3
  currentwhite := false
  gcstate := .GCSpause
  sweepstrgc := 0
  there := fun o => decide (o ∈ sampleObjects)
  marks := fun _ => ⟨true, false, false, false⟩
  udata := fun _ => ⟨some 3, 0, false⟩
  upval := fun uv => if uv = 0 then .closed (setobject (.table 1)) else .opened 0 0
  closure := fun _ => .L 0 0 [0, 1]
  table := sampleTable
  thread := fun _ => ⟨setobject (.table 0), fun n => if n = 0 then setobject (.function 0) else none, 1, []⟩
  proto := fun _ => ⟨none, [setobject (.string 2)], [], [], []⟩
  rootgc := sampleRootgc
  gray := []
  grayagain := []
  weak := []
  tmudata := []
  uvhead := [1]
  mainthread := 0
  registry := none
  mt := []
  tmname := fun e => if e = .TM_GC then 0 else 1
  L := 0

theorem sampleTable_wf (h : Nat) : Wf (sampleTable h).entries := by
  unfold sampleTable
  split
  · exact oneEntry_wf (Key.ofInt 1) (.key (.object .table 4))
  · exact oneEntry_wf (.string 1) (.key (.string 2))
  · exact oneEntry_wf (.string 0) (.key (.object .function 0))
  · exact emptyEntries_wf

theorem allocated_sampleHeap {o : GCObject} : sampleHeap.allocated o ↔ o ∈ sampleObjects := by
  cases o with
  | string ts =>
    show (ite _ _ _ : Option _).isSome = true ↔ _
    by_cases h : GCObject.string ts ∈ sampleObjects
    · rw [if_pos h]
      exact iff_of_true rfl h
    · rw [if_neg h]
      exact iff_of_false Bool.false_ne_true h
  | _ a => exact decide_eq_true_iff

theorem allWhite_sampleHeap : AllWhite sampleHeap where
  white o _ := by cases o <;> rfl
  closed o ho r hr := by
    have hall : ∀ o ∈ sampleObjects, ∀ r ∈ sampleHeap.refs o, r ∈ sampleObjects := by decide +kernel
    exact allocated_sampleHeap.mpr (hall o (allocated_sampleHeap.mp ho) r hr)
  wf h _ := sampleTable_wf h
  roots o ho := by
    obtain rfl : o = .thread 0 := by simpa [GlobalState.roots, sampleHeap, objects, gcobject] using ho
    rfl
  uvhead uv huv := by
    obtain rfl := List.mem_singleton.mp huv
    rfl
  nodup := by decide
  rootgc o ho := allocated_sampleHeap.mpr (List.mem_append_left _ ho)
  linked o ho hlist := by
    have hall : ∀ o ∈ sampleObjects, o.listed = true → o ∈ sampleRootgc := by decide
    exact hall o (allocated_sampleHeap.mp ho) hlist

/-- Strong references do not lead to the weak value from any other object. -/
theorem unreached_sampleHeap {root : GCObject → Prop}
    (hroot : ∀ o, root o → o = .thread 0 ∨ o = .userdata 0) :
    ¬ Reaches sampleHeap.strongRefs root (.table 4) := by
  intro h
  have hclosed : ∀ o ∈ sampleObjects.erase (.table 4), ∀ r ∈ sampleHeap.strongRefs o,
      r ∈ sampleObjects.erase (.table 4) := by decide +kernel
  have hstart : ∀ o, root o → o ∈ sampleObjects.erase (.table 4) := by
    intro o ho
    rcases hroot o ho with rfl | rfl
    · decide
    · decide
  exact absurd (h.of_closed (P := (· ∈ sampleObjects.erase (.table 4))) hstart hclosed) (by decide)

theorem markroots_sampleHeap {o : GCObject} (ho : o ∈ sampleHeap.markroots) : o = .thread 0 := by
  simpa [GlobalState.markroots, sampleHeap, objects, gcobject] using ho

/-- The captured table is marked, and what it has as a value is not. -/
theorem propagateall_markroot_sampleHeap :
    AllWhite sampleHeap ∧ (propagateall (markroot sampleHeap)).gray = []
      ∧ iswhite ((propagateall (markroot sampleHeap)).gch (.table 1)) = false
      ∧ iswhite ((propagateall (markroot sampleHeap)).gch (.table 4)) = true := by
  obtain ⟨hgray, hcomplete, hsound⟩ := propagateall_markroot allWhite_sampleHeap
  refine ⟨allWhite_sampleHeap, hgray, (hcomplete _ ?_).2, ?_⟩
  · -- from the thread by its closure and the closed upvalue
    have hthread : Reaches (propagateall (markroot sampleHeap)).strongRefs (· ∈ sampleHeap.markroots)
      (.thread 0) := .root List.mem_cons_self
    have hfunction := hthread.ref (b := .function 0) (by decide +kernel)
    exact (hfunction.ref (b := .upval 0) (by decide +kernel)).ref (by decide +kernel)
  · cases hw : iswhite ((propagateall (markroot sampleHeap)).gch (.table 4)) with
    | true => rfl
    | false =>
      exact absurd (hsound (.table 4) rfl hw)
        (unreached_sampleHeap fun o ho => Or.inl (markroots_sampleHeap ho))

end NostalgiaConv.Collector
