/-
A host that keeps something beside its heap.

`extended lift H` has the operations of `H`, each passed through `lift`, and all that the
laws speak of is what `H` says of its own part of the heap. Where a lifted operation
does to that part what the operation does, or raises and leaves it alone, the laws
carry over.
-/
import NostalgiaConv.Host

set_option autoImplicit false

namespace NostalgiaConv.HostOver

open NostalgiaConv.ByteMem NostalgiaConv.Cipher NostalgiaConv.Host

variable {A B : Type}

/-- The state without what is kept beside the heap. -/
def plain (s : HostState (A × B)) : HostState A := ⟨s.mem, s.heap.1⟩

def extended (lift : HostM A Addr → HostM (A × B) Addr) (H : HostApi A) : HostApi (A × B) where
  rbx_fnewproto rs := lift (H.rbx_fnewproto rs)
  rbx_malloc rs x y n := lift (H.rbx_malloc rs x y n)
  rbx_snewlstr rs bytes := lift (H.rbx_snewlstr rs bytes)
  xorConst := H.xorConst
  live h := H.live h.1
  strings h := H.strings h.1
  isStr s a bytes := H.isStr (plain s) a bytes

/-- What a lifted operation does to the heap. -/
structure Lifts (lift : HostM A Addr → HostM (A × B) Addr) : Prop where
  ok {x s a s'} (h : lift x s = .ok a s') : x (plain s) = .ok a (plain s')
  error {x s e s'} (h : lift x s = .error e s') :
    plain s' = plain s ∨ x (plain s) = .error e (plain s')

variable {lift : HostM A Addr → HostM (A × B) Addr} {H : HostApi A}
  {s s' : HostState (A × B)}

theorem frame_extended {W : Set Addr} :
    Frame (extended lift H) W s s' ↔ Frame H W (plain s) (plain s') :=
  ⟨fun h => ⟨h.live, h.mem, h.strings, h.noGrab⟩, fun h => ⟨h.live, h.mem, h.strings, h.noGrab⟩⟩

theorem alloc_extended {a : Addr} {n : Nat} (h : Alloc H (plain s) (plain s') a n) :
    Alloc (extended lift H) s s' a n :=
  ⟨frame_extended.mpr h.frame, h.fresh, ⟨h.owned.live, h.owned.noString⟩⟩

/-- A lifted operation that raises is a frame, if the operation is. -/
theorem Lifts.frame_error (hl : Lifts lift) {x : HostM A Addr} {e : HostError}
    (h : lift x s = .error e s')
    (hx : ∀ {t t' : HostState A}, x t = .error e t' → Frame H ∅ t t') :
    Frame (extended lift H) ∅ s s' := by
  refine frame_extended.mpr ?_
  rcases hl.error h with hplain | herror
  · rw [hplain]
    exact Frame.refl _ _ _
  · exact hx herror

/-- **The laws carry over.** -/
theorem extended_lawful (hl : Lifts lift) (hH : H.Lawful) : (extended lift H).Lawful where
  strings_live h := hH.strings_live h.1
  isStr_stable h hsub hagree := hH.isStr_stable h hsub hagree
  isStr_unique h h' := hH.isStr_unique h h'
  fnewproto rs s := by
    cases hrun : (extended lift H).rbx_fnewproto rs s with
    | ok a s' =>
      obtain ⟨halloc, hzero⟩ := hH.fnewproto_ok (hl.ok hrun)
      exact ⟨alloc_extended halloc, hzero⟩
    | error e s' => exact hl.frame_error hrun hH.fnewproto_error
  malloc rs n s := by
    cases hrun : (extended lift H).rbx_malloc rs 0 0 n s with
    | ok a s' => exact alloc_extended (hH.malloc_ok (hl.ok hrun))
    | error e s' => exact hl.frame_error hrun hH.malloc_error
  snewlstr rs bytes s := by
    cases hrun : (extended lift H).rbx_snewlstr rs bytes s with
    | ok a s' =>
      obtain ⟨hframe, hstr⟩ := hH.snewlstr_ok (hl.ok hrun)
      exact ⟨frame_extended.mpr hframe, hstr⟩
    | error e s' => exact hl.frame_error hrun hH.snewlstr_error

/-! ## Something that the operations leave alone -/

/-- An operation beside something that it does not see. -/
def beside (x : HostM A Addr) : HostM (A × B) Addr := fun s =>
  match x (plain s) with
  | .ok a s' => .ok a ⟨s'.mem, s'.heap, s.heap.2⟩
  | .error e s' => .error e ⟨s'.mem, s'.heap, s.heap.2⟩

theorem beside_ok {x : HostM A Addr} {a : Addr} (h : beside x s = .ok a s') :
    x (plain s) = .ok a (plain s') ∧ s'.heap.2 = s.heap.2 := by
  unfold beside at h
  cases hx : x (plain s) with
  | ok b t =>
    rw [hx] at h
    obtain ⟨rfl, rfl⟩ := EStateM.Result.ok.inj h
    exact ⟨rfl, rfl⟩
  | error e t =>
    rw [hx] at h
    exact nomatch h

theorem beside_error {x : HostM A Addr} {e : HostError} (h : beside x s = .error e s') :
    x (plain s) = .error e (plain s') ∧ s'.heap.2 = s.heap.2 := by
  unfold beside at h
  cases hx : x (plain s) with
  | ok b t =>
    rw [hx] at h
    exact nomatch h
  | error e' t =>
    rw [hx] at h
    obtain ⟨rfl, rfl⟩ := EStateM.Result.error.inj h
    exact ⟨rfl, rfl⟩

theorem lifts_beside : Lifts (beside (A := A) (B := B)) :=
  ⟨fun h => (beside_ok h).1, fun h => Or.inr (beside_error h).1⟩

end NostalgiaConv.HostOver
