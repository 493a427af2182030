/-
The tables that `TranspileProto` reads, for the protos that `luaL_loadbuffer` returns.

Each code word indexes `luaP_opmodes` with its top six bits, and `luaP_opnames` as
well where they name no opcode; each string is read through its pointer. The code
checker vouches for the instructions of a precompiled chunk, but not for the counts
behind `SETLIST`, and the undumper makes a null pointer of a string of size zero.
-/
import NostalgiaConv.HostTree
import NostalgiaConv.SetList
import NostalgiaConv.Undump

set_option autoImplicit false

namespace NostalgiaConv.TableAccess

open NostalgiaConv.Cipher NostalgiaConv.Host NostalgiaConv.Opcodes NostalgiaConv.Value
open NostalgiaConv.Instr NostalgiaConv.Transpile NostalgiaConv.ProtoTree NostalgiaConv.SetList
open NostalgiaConv.CodeCheck NostalgiaConv.Undump NostalgiaConv.BumpHost
open OpCode

/-! ## The accesses -/

inductive Access where
  | opmodes (index : Nat)
  | opnames (index : Nat)
  | string (ts : Option TString)
  deriving DecidableEq

/-- `luaP_opnames` has one entry more, the null at its end. -/
def Access.Defined : Access → Prop
  | .opmodes index => index < NUM_OPCODES
  | .opnames index => index ≤ NUM_OPCODES
  | .string ts => ts ≠ none

/-- The accesses for one code word; the default branch of the first switch makes two. -/
def wordAccesses (vInstr : Word) : List Access :=
  let vOpcode := (GET_OPCODE vInstr).toNat
  match OpCode.ofWord (GET_OPCODE vInstr) with
  | some _ => [.opmodes vOpcode]
  | none => [.opnames vOpcode, .opmodes vOpcode, .opmodes vOpcode]

def constantAccesses : LConstant → List Access
  | .string ts => [.string ts]
  | _ => []

/-- The accesses for one proto, in the order of the source. -/
def nodeAccesses (vProto : LHead) : List Access :=
  [.string (some vProto.source)] ++ vProto.k.flatMap constantAccesses
    ++ vProto.code.flatMap wordAccesses ++ vProto.upvalues.map .string

/-- Every access of `TranspileProto` on the tree is defined. -/
def AccessesDefined (f : LProto) : Prop :=
  f.All (fun n => ∀ a ∈ nodeAccesses n.head, a.Defined)

/-! ## When they are defined -/

/-- Every word names an opcode. -/
def WordsNamed (h : LHead) : Prop := ∀ v ∈ h.code, (OpCode.ofWord (GET_OPCODE v)).isSome

/-- The counts do, where they are taken for instructions. -/
def CountsNamed (h : LHead) : Prop :=
  ∀ n < h.code.length, isCount h n = true → (OpCode.ofWord (GET_OPCODE (codeWord h n))).isSome

/-- No constant and no name of an upvalue is a null string. -/
def StringsPresent (h : LHead) : Prop :=
  (∀ c ∈ h.k, c ≠ .string none) ∧ ∀ name ∈ h.upvalues, name ≠ none

theorem wordAccesses_defined_iff (v : Word) :
    (∀ a ∈ wordAccesses v, a.Defined) ↔ (OpCode.ofWord (GET_OPCODE v)).isSome := by
  have hlt := OpCode.ofWord_isSome_iff (GET_OPCODE v)
  unfold wordAccesses
  cases hop : OpCode.ofWord (GET_OPCODE v) with
  | some op =>
    rw [hop] at hlt
    simp only [List.forall_mem_singleton, Access.Defined]
    exact hlt.symm
  | none =>
    rw [hop] at hlt
    simp only [List.forall_mem_cons, Access.Defined, List.not_mem_nil, false_imp_iff,
      implies_true, and_true, and_self, hlt]
    exact and_iff_right_of_imp Nat.le_of_lt

/-- One word of the instruction table is defined exactly when its accesses are. -/
theorem transpileInstr_isSome_iff (v n : Word) :
    (transpileInstr v n).isSome ↔ ∀ a ∈ wordAccesses v, a.Defined := by
  rw [wordAccesses_defined_iff, transpileInstr]
  cases OpCode.ofWord (GET_OPCODE v) with
  | none => exact Iff.rfl
  | some op => exact Iff.rfl

theorem nodeAccesses_defined_iff (h : LHead) :
    (∀ a ∈ nodeAccesses h, a.Defined) ↔ WordsNamed h ∧ StringsPresent h := by
  have hk : (∀ a ∈ h.k.flatMap constantAccesses, a.Defined) ↔ ∀ c ∈ h.k, c ≠ .string none := by
    simp only [List.mem_flatMap, forall_exists_index, and_imp]
    constructor
    · rintro hdef c hc rfl
      exact hdef _ _ hc (List.mem_singleton.mpr rfl) rfl
    · intro hne a c hc ha
      cases c with
      | string ts =>
        obtain rfl := List.mem_singleton.mp ha
        rintro rfl
        exact hne _ hc rfl
      | _ => exact nomatch ha
  have hcode : (∀ a ∈ h.code.flatMap wordAccesses, a.Defined) ↔ WordsNamed h := by
    simp only [List.mem_flatMap, forall_exists_index, and_imp, WordsNamed,
      ← wordAccesses_defined_iff]
    exact ⟨fun hdef v hv a ha => hdef a v hv ha, fun hdef a v hv ha => hdef v hv a ha⟩
  have hnames : (∀ a ∈ h.upvalues.map Access.string, a.Defined)
      ↔ ∀ name ∈ h.upvalues, name ≠ none := List.forall_mem_map
  rw [nodeAccesses, List.forall_mem_append, List.forall_mem_append, List.forall_mem_append,
    List.forall_mem_singleton, hk, hcode, hnames, StringsPresent]
  have hsource : (Access.string (some h.source)).Defined := Option.some_ne_none _
  tauto

/-- A count is one of the words. -/
theorem countsNamed_of_wordsNamed {h : LHead} (hwords : WordsNamed h) : CountsNamed h := by
  intro n hlt _
  exact hwords _ (by rw [codeWord_of_lt hlt]; exact List.getElem_mem hlt)

/-- In a vector that the checker has accepted the instructions are named. -/
theorem wordsNamed_iff_of_checked {f : LProto} (h : luaG_checkcode f = true) :
    WordsNamed f.head ↔ CountsNamed f.head := by
  refine ⟨countsNamed_of_wordsNamed, fun hcounts v hv => ?_⟩
  obtain ⟨n, hlt, rfl⟩ := List.mem_iff_getElem.mp hv
  rw [← codeWord_of_lt hlt]
  cases hn : isCount f.head n with
  | true => exact hcounts n hlt hn
  | false =>
    obtain ⟨op, hop, -⟩ := checkcode_instruction h hlt hn
    rw [hop]
    rfl

/-- So the accesses hang on its counts, and on its strings. -/
theorem accessesDefined_iff_of_checked {f : LProto}
    (h : f.All (fun n => luaG_checkcode n = true)) :
    AccessesDefined f
      ↔ f.All (fun n => CountsNamed n.head) ∧ f.All (fun n => StringsPresent n.head) := by
  rw [← LProto.all_and]
  constructor
  · intro hdef
    refine (LProto.all_and.mpr ⟨h, hdef⟩).imp ?_
    rintro n ⟨hcheck, hn⟩
    obtain ⟨hwords, hstrings⟩ := (nodeAccesses_defined_iff n.head).mp hn
    exact ⟨(wordsNamed_iff_of_checked hcheck).mp hwords, hstrings⟩
  · intro hall
    refine (LProto.all_and.mpr ⟨h, hall⟩).imp ?_
    rintro n ⟨hcheck, hcounts, hstrings⟩
    exact (nodeAccesses_defined_iff n.head).mpr
      ⟨(wordsNamed_iff_of_checked hcheck).mpr hcounts, hstrings⟩

/-! ## Protos of the compiler -/

/-- No null strings, by the types. -/
theorem stringsPresent_ofHead (h : ProtoHead) : StringsPresent (ofHead h) := by
  constructor
  · intro c hc
    obtain ⟨c', -, rfl⟩ := List.mem_map.mp hc
    cases c' <;> exact fun heq => nomatch heq
  · intro name hname
    obtain ⟨ts, -, rfl⟩ := List.mem_map.mp hname
    exact Option.some_ne_none ts

/-- On such a tree the accesses are defined exactly when the transpiler looks up no
opcode past its table. -/
theorem accessesDefined_ofProto (p : Proto) : AccessesDefined (ofProto p) ↔ OpcodesOk p := by
  induction p with
  | mk self head sizep p_fits p ih =>
    refine and_congr ?_ (forall_congr' ih)
    refine (nodeAccesses_defined_iff (ofHead head)).trans ?_
    exact and_iff_left (stringsPresent_ofHead head)

/-- The children's strings are there as well. -/
theorem stringsPresent_ofProto (p : Proto) :
    (ofProto p).All (fun n => StringsPresent n.head) := by
  induction p with
  | mk self head sizep p_fits p ih => exact ⟨stringsPresent_ofHead head, ih⟩

/-- What the compiler emits is defined throughout. -/
theorem accessesDefined_of_emitted {luaYParser : List Byte → Except LoadError Proto}
    (hparser : ParserEmits luaYParser) {script : List Byte} {p : Proto}
    (h : luaYParser script = .ok p) : AccessesDefined (ofProto p) := by
  refine (LProto.all_and.mpr ⟨hparser.code script p h, stringsPresent_ofProto p⟩).imp ?_
  rintro n ⟨hemitted, hstrings⟩
  exact (nodeAccesses_defined_iff n.head).mpr ⟨fun v hv => (hemitted v hv).isSome, hstrings⟩

/-! ## What `luaL_loadbuffer` returns -/

/-- **The counts and the strings decide.** Whatever `luaL_loadbuffer` returns, the
accesses on it are defined exactly when every count that the checker stepped over
passes for an instruction and no string was stored with size zero; a script in source
form is always such. -/
theorem loaded_accessesDefined_iff {luaYParser : List Byte → Except LoadError Proto}
    (hparser : ParserEmits luaYParser) {nCcalls : Nat} {script : List Byte} {f : LProto}
    (h : luaL_loadbuffer luaYParser nCcalls script = .ok f) :
    (AccessesDefined f
        ↔ f.All (fun n => CountsNamed n.head) ∧ f.All (fun n => StringsPresent n.head))
      ∧ (script.head? ≠ some LUA_SIGNATURE → AccessesDefined f) := by
  rcases luaL_loadbuffer_ok h with ⟨hsig, hchecked⟩ | ⟨-, p, hparse, rfl⟩
  · exact ⟨accessesDefined_iff_of_checked hchecked, fun hne => absurd hsig hne⟩
  · have hdef := accessesDefined_of_emitted hparser hparse
    refine ⟨⟨fun _ => ⟨?_, stringsPresent_ofProto p⟩, fun _ => hdef⟩, fun _ => hdef⟩
    refine hdef.imp fun n hn => countsNamed_of_wordsNamed ?_
    exact ((nodeAccesses_defined_iff n.head).mp hn).1

/-! ## Two chunks -/

theorem oneLine_fits : 4 * ([1] : List Word).length < 2 ^ 32 := by decide

/-- The main function of the empty script, which only returns. -/
def emptyMain : Proto :=
  leafProto 0x1000
    { leafHead [] returnCode noConstants_fit returnCode_fits with
      source := luaS_newlstr
        [0x4E, 0x6F, 0x73, 0x74, 0x61, 0x6C, 0x67, 0x69, 0x61, 0x43, 0x6F, 0x6E, 0x76]
      lineinfo := [1]
      lineinfo_fits := oneLine_fits }

/-- A parser that knows no other script. -/
def emptyParser : List Byte → Except LoadError Proto
  | [] => .ok emptyMain
  | _ => .error (.syntaxError "'=' expected near '<eof>'")

theorem emptyParser_eq_ok {script : List Byte} {p : Proto} (h : emptyParser script = .ok p) :
    script = [] ∧ p = emptyMain := by
  cases script with
  | nil => exact ⟨rfl, (Except.ok.inj h).symm⟩
  | cons b script => exact nomatch h

theorem emptyParser_emits : ParserEmits emptyParser where
  code script p h := by
    obtain ⟨-, rfl⟩ := emptyParser_eq_ok h
    refine ⟨fun v hv => ?_, fun i => i.elim0⟩
    obtain rfl := List.mem_singleton.mp hv
    exact .instruction OP_RETURN (by decide) (by decide)
  nups script p h := by
    obtain ⟨-, rfl⟩ := emptyParser_eq_ok h
    rfl

/-- A `SETLIST` with `C = 0`, its count, and a `RETURN`. -/
def countChunk (count : Word) : List Byte :=
  plainChunk 0 [CREATE_ABC OP_SETLIST.toWord 0 1 0, count, CREATE_ABC OP_RETURN.toWord 0 1 0] 0 []

/-- A string constant of size zero, and a `RETURN`. -/
def nullStringChunk : List Byte :=
  plainChunk 0 [CREATE_ABC OP_RETURN.toWord 0 1 0] 1 (LUA_TSTRING :: wordBytes 0)

/-- The count of block 512 is taken for a `MOVE`. -/
theorem loaded_accessesDefined_block512 :
    ∃ f, luaL_loadbuffer emptyParser 0 (countChunk 512) = .ok f ∧ AccessesDefined f := by
  have hload : luaL_loadbuffer emptyParser 0 (countChunk 512) = .ok _ := rfl
  refine ⟨_, hload, (loaded_accessesDefined_iff emptyParser_emits hload).1.mpr
    ⟨⟨?_, fun i => i.elim0⟩, ⟨?_, fun i => i.elim0⟩⟩⟩
  · unfold CountsNamed
    decide
  · unfold StringsPresent
    decide

/-- **Accepted chunks that are read out of bounds.** A count with all bits set in its
opcode field leads past both tables, and a string constant can be null. -/
theorem accepted_chunks_undefined :
    (∃ f, luaL_loadbuffer emptyParser 0 (countChunk 0xFC000000) = .ok f
        ∧ .opnames 63 ∈ nodeAccesses f.head ∧ .opmodes 63 ∈ nodeAccesses f.head
        ∧ ¬ AccessesDefined f)
      ∧ ∃ f, luaL_loadbuffer emptyParser 0 nullStringChunk = .ok f
        ∧ .string none ∈ nodeAccesses f.head ∧ ¬ AccessesDefined f := by
  refine ⟨⟨_, rfl, ?_⟩, ⟨_, rfl, ?_⟩⟩
  · refine ⟨by decide, by decide, fun hdef => ?_⟩
    exact absurd (hdef.here (.opnames 63) (by decide)) (Nat.not_le.mpr (by decide))
  · exact ⟨by decide, fun hdef => hdef.here (.string none) (by decide) rfl⟩

end NostalgiaConv.TableAccess
