/-
`lua/lzio.c`: input that a reader hands out in pieces, and the choice of the producer
in `f_parser` of `lua/ldo.c`.

The buffer of a `Zio` is the list of its unread bytes. What a reader has still to give
is what it returns up to its first null pointer or empty piece. `Zio.stream` shows
that `luaZ_read` takes these bytes in order, wherever the pieces end, so that what is
proved of lists of bytes is true of a reader's input.
-/
import NostalgiaConv.Chunk

set_option autoImplicit false

namespace NostalgiaConv.ChunkInput

open NostalgiaConv.ByteMem NostalgiaConv.Cipher NostalgiaConv.Host NostalgiaConv.CodeCheck
open NostalgiaConv.Relational NostalgiaConv.Hoare
open NostalgiaConv.Streams NostalgiaConv.Chunk
open NostalgiaConv.Undump (LoadError LUA_SIGNATURE)

/-! ## The buffered stream -/

/-- `p` and `n` are the list `buff`; a null pointer with a size counts as no piece. -/
structure Zio (R : Type) where
  buff : List Byte
  data : R

section

variable {R : Type} (reader : R → Option (List Byte) × R)

/-- The first byte of the next piece, taken off it; `none` is `EOZ`. -/
def luaZ_fill (z : Zio R) : Option Byte × Zio R :=
  match reader z.data with
  | (some (b :: buff), data) => (some b, { buff, data })
  | (some [], data) => (none, { z with data })
  | (none, data) => (none, { z with data })

/-- The byte that `luaZ_fill` removed is put back. -/
def luaZ_lookahead (z : Zio R) : Option Byte × Zio R :=
  match z.buff with
  | b :: _ => (some b, z)
  | [] =>
    match luaZ_fill reader z with
    | (some b, z) => (some b, { z with buff := b :: z.buff })
    | (none, z) => (none, z)

def luaZ_init (data : R) : Zio R := { buff := [], data }

/-- The bytes, how many are missing, and the stream after them. Every round copies at
least one byte; the first argument bounds the rounds. -/
def luaZ_read : Nat → Nat → Zio R → List Byte × Nat × Zio R
  | 0, n, z => ([], n, z)
  | fuel + 1, n, z =>
    if n = 0 then ([], 0, z)
    else
      match luaZ_lookahead reader z with
      | (none, z) => ([], n, z)
      | (some _, z) =>
        let m := if n ≤ z.buff.length then n else z.buff.length
        let (b, missing, z') := luaZ_read fuel (n - m) { z with buff := z.buff.drop m }
        (z.buff.take m ++ b, missing, z')

def LoadBlock (size : Nat) : LoadOn (Zio R) (List Byte) := fun z =>
  match luaZ_read reader size size z with
  | (b, 0, z) => .ok b z
  | (_, _ + 1, z) => .error (.syntaxError "unexpected end") z

/-! ## What is still unread -/

/-- What the reader gives from a state on. -/
inductive Feeds : R → List Byte → Prop where
  | ended {r : R} (h : (reader r).1 = none ∨ (reader r).1 = some []) : Feeds r []
  | piece {r : R} {b : Byte} {buff z : List Byte} (h : (reader r).1 = some (b :: buff))
      (hrest : Feeds (reader r).2 z) : Feeds r (b :: buff ++ z)

def Zio.Holds (z : Zio R) (bytes : List Byte) : Prop :=
  ∃ rest, Feeds reader z.data rest ∧ bytes = z.buff ++ rest

variable {reader} {z : Zio R} {bytes : List Byte}

/-- The next byte is seen and not taken; there is none at the end only. -/
theorem luaZ_lookahead_spec (h : z.Holds reader bytes) :
    (luaZ_lookahead reader z).1 = bytes.head?
      ∧ (bytes ≠ [] → (luaZ_lookahead reader z).2.Holds reader bytes
        ∧ (luaZ_lookahead reader z).2.buff ≠ []) := by
  obtain ⟨rest, hrest, rfl⟩ := h
  obtain ⟨buff, data⟩ := z
  cases buff with
  | cons b buff => exact ⟨rfl, fun _ => ⟨⟨rest, hrest, rfl⟩, List.cons_ne_nil b buff⟩⟩
  | nil =>
    rw [luaZ_lookahead, luaZ_fill, List.nil_append]
    dsimp only at hrest ⊢
    cases hrest with
    | ended h =>
      refine ⟨?_, fun hne => absurd rfl hne⟩
      cases hr : reader data with
      | mk piece data' =>
        rw [hr] at h
        rcases h with h | h
        · dsimp only at h
          subst h
          rfl
        · dsimp only at h
          subst h
          rfl
    | piece h hrest =>
      cases hr : reader data with
      | mk piece data' =>
        rw [hr] at h hrest
        dsimp only at h
        subst h
        exact ⟨rfl, fun _ => ⟨⟨_, hrest, rfl⟩, List.cons_ne_nil _ _⟩⟩

/-- **`luaZ_read` takes the next bytes**, as many as there are, across the ends of the
pieces. -/
theorem luaZ_read_spec : ∀ (fuel n : Nat) (z : Zio R) (bytes : List Byte), n ≤ fuel →
    z.Holds reader bytes → (luaZ_read reader fuel n z).1 = bytes.take n
      ∧ (luaZ_read reader fuel n z).2.1 = n - bytes.length
      ∧ (n ≤ bytes.length → (luaZ_read reader fuel n z).2.2.Holds reader (bytes.drop n)) := by
  intro fuel
  induction fuel with
  | zero =>
    intro n z bytes hn hz
    obtain rfl : n = 0 := Nat.le_zero.mp hn
    rw [luaZ_read, List.take_zero, List.drop_zero, Nat.zero_sub]
    exact ⟨rfl, rfl, fun _ => hz⟩
  | succ fuel ih =>
    intro n z bytes hn hz
    rw [luaZ_read]
    by_cases hzero : n = 0
    · subst hzero
      rw [if_pos rfl, List.take_zero, List.drop_zero, Nat.zero_sub]
      exact ⟨rfl, rfl, fun _ => hz⟩
    · rw [if_neg hzero]
      obtain ⟨hhead, hmore⟩ := luaZ_lookahead_spec hz
      cases hlook : luaZ_lookahead reader z with
      | mk c z' =>
        rw [hlook] at hhead hmore
        dsimp only at hhead hmore
        cases c with
        | none =>
          obtain rfl := List.head?_eq_none_iff.mp hhead.symm
          dsimp only
          rw [List.take_nil, List.length_nil, Nat.sub_zero]
          refine ⟨rfl, rfl, fun hle => absurd (Nat.le_zero.mp hle) hzero⟩
        | some c =>
          have hne : bytes ≠ [] := by
            rintro rfl
            exact nomatch hhead
          obtain ⟨⟨rest, hrest, rfl⟩, hbuff⟩ := hmore hne
          have hpos : 0 < z'.buff.length := List.length_pos_iff.mpr hbuff
          -- `m` bytes are copied from the buffer
          set m := if n ≤ z'.buff.length then n else z'.buff.length with hm
          have hmle : m ≤ n ∧ 0 < m ∧ m ≤ z'.buff.length := by
            rw [hm]
            split_ifs <;> omega
          have hholds : ({ z' with buff := z'.buff.drop m } : Zio R).Holds reader
              ((z'.buff ++ rest).drop m) :=
            ⟨rest, hrest, List.drop_append_of_le_length hmle.2.2⟩
          obtain ⟨htake, hmissing, hrest'⟩ := ih (n - m) _ _ (by omega) hholds
          dsimp only
          rw [htake, hmissing]
          refine ⟨?_, ?_, fun hle => ?_⟩
          · have hfront : (z'.buff ++ rest).take m = z'.buff.take m :=
              List.take_append_of_le_length hmle.2.2
            rw [← hfront, ← List.take_add]
            congr 1
            omega
          · have hdrop : ((z'.buff ++ rest).drop m).length = (z'.buff ++ rest).length - m :=
              List.length_drop
            have hlen : (z'.buff ++ rest).length = z'.buff.length + rest.length :=
              List.length_append
            omega
          · have hdrop := hrest' (by rw [List.length_drop]; omega)
            rw [List.drop_drop] at hdrop
            rwa [show m + (n - m) = n by omega] at hdrop

/-- A buffered stream is a source of blocks. -/
def Zio.stream (reader : R → Option (List Byte) × R) : Stream LoadError (Zio R) Byte where
  block := LoadBlock reader
  Holds := Zio.Holds reader
  short := .syntaxError "unexpected end"
  block_ok := by
    intro n z bytes hz hn
    obtain ⟨htake, hmissing, hrest⟩ := luaZ_read_spec n n z bytes (Nat.le_refl n) hz
    rw [Nat.sub_eq_zero_of_le hn] at hmissing
    refine ⟨_, ?_, hrest hn⟩
    rw [LoadBlock, ← htake]
    generalize luaZ_read reader n n z = r at hmissing
    obtain ⟨b, missing, z'⟩ := r
    obtain rfl : missing = 0 := hmissing
    rfl
  block_short := by
    intro n z bytes hz hn
    obtain ⟨-, hmissing, -⟩ := luaZ_read_spec n n z bytes (Nat.le_refl n) hz
    refine ⟨(luaZ_read reader n n z).2.2, ?_⟩
    rw [LoadBlock]
    generalize luaZ_read reader n n z = r at hmissing
    obtain ⟨b, missing, z'⟩ := r
    cases missing with
    | zero =>
      dsimp only at hmissing
      omega
    | succ missing => rfl

/-! ## The producer -/

/-- What was loaded, or why not. -/
def outcome {ε σ α β : Type} (g : α → β) : EStateM.Result ε σ α → Except ε β
  | .ok a _ => .ok (g a)
  | .error e _ => .error e

variable (reader)

/-- `f_parser`: the proto of the closure that is pushed. The compiler reads the stream
itself. -/
def fparser (luaYparser : LoadOn (Zio R) LProto) (nCcalls : Nat) (z : Zio R) :
    Except LoadError LProto :=
  let (c, z) := luaZ_lookahead reader z
  if c = some LUA_SIGNATURE then
    outcome ChunkProto.toLProto (luaU_undump (LoadBlock reader) nCcalls z)
  else outcome id (luaYparser z)

variable {reader}

/-- Reading a chunk from pieces is reading it from the list of its bytes. -/
theorem outcome_undump (nCcalls : Nat) (hz : z.Holds reader bytes) :
    outcome ChunkProto.toLProto (luaU_undump (LoadBlock reader) nCcalls z)
      = outcome id (Undump.luaU_undump nCcalls bytes) := by
  have h := views_undump (S := Zio.stream reader) rfl nCcalls z bytes hz
  change sameError.Related _ (luaU_undump (LoadBlock reader) nCcalls z) _ at h
  cases hload : luaU_undump (LoadBlock reader) nCcalls z with
  | ok f z' =>
    rw [hload] at h
    obtain ⟨b, t, hb, rfl, -⟩ | ⟨d, t, -, hright⟩ := h.of_ok
    · rw [hb]
      rfl
    · exact absurd hright id
  | error e z' =>
    rw [hload] at h
    obtain hleft | ⟨d, t, hd, hright | rfl⟩ := h.of_error
    · exact absurd hleft id
    · exact absurd hright id
    · rw [hd]
      rfl

/-- **How the input is cut does not matter to what is loaded.** A reader that gives
`script` in any pieces, and stays at its end, has the producer chosen by the first byte,
which the producer gets again, and the same proto or error comes of it as of the bytes
in one list. Of the compiler it is assumed that it, too, depends on the bytes alone. -/
theorem fparser_eq_loadbuffer {luaYparser : LoadOn (Zio R) LProto}
    {luaYParser : List Byte → Except LoadError Transpile.Proto}
    (hcompile : ∀ (z : Zio R) bytes, z.Holds reader bytes →
      outcome id (luaYparser z) = (luaYParser bytes).map Undump.ofProto)
    (nCcalls : Nat) {script : List Byte} (hz : z.Holds reader script)
    (hend : script = [] → (luaZ_lookahead reader z).2.Holds reader []) :
    fparser reader luaYparser nCcalls z
      = Undump.luaL_loadbuffer luaYParser nCcalls script := by
  obtain ⟨hhead, hmore⟩ := luaZ_lookahead_spec hz
  have hholds : (luaZ_lookahead reader z).2.Holds reader script := by
    by_cases hnil : script = []
    · exact hnil ▸ hend hnil
    · exact (hmore hnil).1
  unfold fparser
  dsimp only
  rw [hhead, Undump.luaL_loadbuffer]
  by_cases hsig : script.head? = some LUA_SIGNATURE
  · rw [if_pos hsig, if_pos hsig, outcome_undump nCcalls hholds]
    cases Undump.luaU_undump nCcalls script <;> rfl
  · rw [if_neg hsig, if_neg hsig, hcompile _ _ hholds]
    cases luaYParser script <;> rfl

end

/-! ## Two readers -/

/-- `getS`: the whole buffer at once, then nothing more. -/
def getS (ls : List Byte) : Option (List Byte) × List Byte :=
  if ls.length = 0 then (none, ls) else (some ls, [])

theorem holds_getS (script : List Byte) : (luaZ_init script).Holds getS script := by
  refine ⟨script, ?_, rfl⟩
  cases script with
  | nil => exact .ended (Or.inl rfl)
  | cons b buff =>
    have h : Feeds getS (b :: buff) (b :: buff ++ []) := .piece rfl (.ended (Or.inl rfl))
    rwa [List.append_nil] at h

/-- A reader that has its pieces in a list, as `getF` has those of a file. -/
def getPieces : List (List Byte) → Option (List Byte) × List (List Byte)
  | [] => (none, [])
  | piece :: pieces => (some piece, pieces)

theorem holds_getPieces {pieces : List (List Byte)} (h : ∀ piece ∈ pieces, piece ≠ []) :
    (luaZ_init pieces).Holds getPieces pieces.flatten := by
  refine ⟨pieces.flatten, ?_, rfl⟩
  induction pieces with
  | nil => exact .ended (Or.inl rfl)
  | cons piece pieces ih =>
    obtain ⟨hpiece, hpieces⟩ := List.forall_mem_cons.mp h
    obtain ⟨b, buff, rfl⟩ := List.exists_cons_of_ne_nil hpiece
    exact .piece rfl (ih hpieces)

/-- `nestedProto` as it is dumped. -/
def nestedChunk : List Byte := (luaU_dump (fun d b => (0, d ++ b)) [] false nestedProto).data

/-- Cut inside the header, and inside the size of a string. -/
def nestedPieces : List (List Byte) :=
  [nestedChunk.take 7, (nestedChunk.drop 7).take 54, nestedChunk.drop 61]

/-- In three pieces, and in one: both times the chunk is loaded, to its end. -/
theorem fparser_nestedPieces :
    fparser getPieces (throw (.syntaxError "text")) 0 (luaZ_init nestedPieces)
        = Undump.luaL_loadbuffer (fun _ => .error (.syntaxError "text")) 0 nestedChunk
      ∧ fparser getS (throw (.syntaxError "text")) 0 (luaZ_init nestedChunk)
        = Undump.luaL_loadbuffer (fun _ => .error (.syntaxError "text")) 0 nestedChunk
      ∧ (Undump.luaL_loadbuffer (fun _ => .error (.syntaxError "text")) 0 nestedChunk).isOk = true := by
  have hnil : nestedChunk ≠ [] := by decide
  have hcut : nestedPieces.flatten = nestedChunk := by decide +kernel
  have hpieces : ∀ piece ∈ nestedPieces, piece ≠ [] := by decide +kernel
  refine ⟨?_, ?_, by decide +kernel⟩
  · exact fparser_eq_loadbuffer (fun _ _ _ => rfl) 0 (hcut ▸ holds_getPieces hpieces)
      (fun h => absurd h hnil)
  · exact fparser_eq_loadbuffer (fun _ _ _ => rfl) 0 (holds_getS _) (fun h => absurd h hnil)

end NostalgiaConv.ChunkInput
