import MoeToolchain.ProcMacro.LexemesSound
import MoeToolchain.ProcMacro.Outcomes
import MoeToolchain.Scripts.Declarations
import MoeToolchain.Scripts.Headers

/-!
# From the text of a header to the generated file

The program with `debug.js` on a header as it is written in a file: in any layout, with
any comments and white space between the tokens. `header_generates` takes the lexer, the
parser, the script and `main` together.

`program_links_iff` is about the generated file as a translation unit: its functions are
defined once, and what they call is declared.
-/

namespace MoeToolchain
set_option autoImplicit false
open Lib

section Header

variable {header : Header} {builtins : Builtins}

theorem finds_blocks (last : Filler) (blocks : List (Filler × HeaderBlock)) :
    Finds (blocks.flatMap (fun b => b.1.tokens ++ b.2.tokens) ++ last.tokens) (blocks.map fun b => b.2.value) := by
  induction blocks with
  | nil =>
    rw [List.flatMap_nil, List.nil_append, ← List.append_nil last.tokens]
    exact finds_filler _ last.plain .nil
  | cons b blocks ih =>
    rw [List.flatMap_cons, List.append_assoc, List.append_assoc]
    exact finds_filler _ b.1.plain (finds_block b.2.fits ih)

/-- Each block derives its trait by one invocation. -/
def Header.DerivesOnce (header : Header) : Prop := ∀ b ∈ header.blocks, b.2.more = []

theorem length_codes_block (b : HeaderBlock) :
    (codes ((debugJs builtins).structOutcomes b.value ()).1).length = b.invocations.length := by
  rw [codes_debugJs, List.length_filterMap_eq_countP]
  have all : ∀ handler ∈ b.value.handlers, (handlerCode builtins b.value handler).isSome = true := by
    intro handler mem
    rw [b.handlers handler mem, b.handlerCode]
    rfl
  rw [List.countP_eq_length.mpr all, DeriveBlock.value, List.length_map]

theorem debugJs_read (b : HeaderBlock) : .converted none ∉ ((debugJs builtins).structOutcomes b.value ()).1 := by
  rw [structOutcomes_debugJs, List.mem_map]
  rintro ⟨handler, mem, returned⟩
  rw [b.handlers handler mem, outcome_debugJs, globalFunction?_script builtins (scriptFunction?_trait b.kind)] at returned
  cases returned

/-- A property of the outcomes of each block. -/
theorem forall_blocks {p : List Outcome → Prop} (blocks : List (Filler × HeaderBlock)) :
    (∀ os ∈ (debugJs builtins).fileOutcomes (blocks.map fun b => b.2.value) (), p os) ↔
      ∀ b ∈ blocks, p ((debugJs builtins).structOutcomes b.2.value ()).1 := by
  induction blocks with
  | nil => simp [Js.fileOutcomes]
  | cons b blocks ih =>
    rw [List.map_cons, Js.fileOutcomes, List.forall_mem_cons, List.forall_mem_cons, ← ih]

/-- Every invocation returns code. -/
theorem Header.twice_iff (header : Header) :
    (∃ os ∈ (debugJs builtins).fileOutcomes header.structs (), 1 < (codes os).length) ↔ ¬ header.DerivesOnce := by
  have few : (∀ os ∈ (debugJs builtins).fileOutcomes header.structs (), (codes os).length ≤ 1) ↔ header.DerivesOnce := by
    rw [Header.structs, forall_blocks]
    refine forall₂_congr fun b _ => ?_
    rw [length_codes_block, DeriveBlock.invocations, List.length_cons, ← List.length_eq_zero_iff]
    omega
  rw [← few]
  simp only [not_forall, not_le, exists_prop]

end Header

/-- The program on a text and the text of `debug.js`, where every file can be opened and written. -/
def debugWorld (strtod : Nat → BitVec 64 × Nat) (builtins : Builtins) (argv : List Bytes) (script text : Bytes) :
    World Unit (List JsToken) where
  argv := argv
  js := debugJs builtins
  engine := ()
  clears := true
  writes _ := .whole
  input := some text
  script := some script
  lexer := Stb.tokensOf strtod

/-- The program turns every spelling of a header into a file with its name in the first
line and the code of its blocks behind it, if no block derives its trait twice. Otherwise it
stops at the leak check. -/
theorem header_generates (strtod : Nat → BitVec 64 × Nat) (builtins : Builtins) (header : Header) (ls : List Stb.Lexeme)
    (argv : List Bytes) (inputFile script output : Bytes) (spelt : Stb.Spelt strtod 0 ls)
    (same : ls.filterMap Stb.Lexeme.token? = header.tokens) (nonempty : Stb.spellAll ls ≠ []) (script_ : script ≠ [])
    (argument : (debugWorld strtod builtins argv script (Stb.spellAll ls)).inputFile? = some inputFile) :
    (header.DerivesOnce → ending (main .assertions (debugWorld strtod builtins argv script (Stb.spellAll ls))
        ((debugWorld strtod builtins argv script (Stb.spellAll ls)).start output)) =
      .ok (0, includeLine (cString (baseName inputFile)) ++ programText header.program)) ∧
    (¬ header.DerivesOnce → ending (main .assertions (debugWorld strtod builtins argv script (Stb.spellAll ls))
        ((debugWorld strtod builtins argv script (Stb.spellAll ls)).start output)) = .error .assertFailed) := by
  have opened : (debugWorld strtod builtins argv script (Stb.spellAll ls)).Opened inputFile (Stb.spellAll ls) script :=
    ⟨argument, rfl, rfl, nonempty, rfl, script_⟩
  have reads : FileReads .assertions ((debugWorld strtod builtins argv script (Stb.spellAll ls)).lexer (Stb.spellAll ls))
      header.structs .whole := by
    have tokens : (debugWorld strtod builtins argv script (Stb.spellAll ls)).lexer (Stb.spellAll ls) = header.tokens :=
      (Stb.tokensOf_spelled ls spelt).1.trans same
    rw [tokens]
    exact (finds_blocks header.last header.blocks).fileReads
  have read : AllRead ((debugWorld strtod builtins argv script (Stb.spellAll ls)).outcomesOf script
      header.structs) := (forall_blocks header.blocks).mpr fun b _ => debugJs_read b.2
  constructor
  · intro once
    rw [← @Header.written builtins header 1]
    exact (main_ends_iff ..).mpr (.done opened reads read fun _ twice => header.twice_iff.mp twice once)
  · intro twice
    exact (main_ends_iff ..).mpr (.leaked opened reads read rfl (header.twice_iff.mpr twice))

/-- A word or a character with a space behind it. -/
def spaced : Token → List Stb.Lexeme
  | .id name => [.id name, .blank 32]
  | .char c => [.char c, .blank 32]
  | _ => []

/-- The blocks of `A` and `B` with spaces between the tokens. -/
def spacedAB : List Stb.Lexeme := forwardPointer.tokens.flatMap spaced

/-- The theorem at this file. -/
theorem header_generates_spacedAB :
    let w := debugWorld (fun p => (0, p + 1)) (fun _ => none) [bytesOf "moe", bytesOf "a.h", bytesOf "a.c", bytesOf "debug.js"] (bytesOf "-")
      (Stb.spellAll spacedAB)
    ending (main .assertions w (w.start [])) =
      .ok (0, includeLine (cString (baseName (bytesOf "a.h"))) ++ programText forwardPointer.program) := by
  have once : forwardPointer.DerivesOnce := by
    unfold Header.DerivesOnce
    decide
  exact (header_generates (fun p => (0, p + 1)) (fun _ => none) forwardPointer spacedAB _ (bytesOf "a.h") (bytesOf "-") []
    (by decide +kernel) (by decide) (by decide) (by decide) rfl).1 once

/-! ## The functions of the generated file -/

section Functions

/-- The functions that a block defines. -/
def DeriveBlock.functionNames (b : DeriveBlock) : List Bytes :=
  b.structNames.flatMap (fun name => [helperName name, implName name debugTrait]) ++
    b.enumNames.map fun name => implName name debugEnumTrait

theorem functions_names (b : DeriveBlock) : b.functions.map CFunction.name = b.functionNames := by
  unfold DeriveBlock.functions DeriveBlock.functionNames DeriveBlock.structNames DeriveBlock.enumNames
  cases b.kind <;> rfl

/-- The functions of a block have different names. -/
theorem functionNames_nodup (b : DeriveBlock) : b.functionNames.Nodup := by
  unfold DeriveBlock.functionNames DeriveBlock.structNames DeriveBlock.enumNames
  cases b.kind with
  | derives =>
    simp only [List.flatMap_cons, List.flatMap_nil, List.append_nil, List.map_nil, List.nodup_cons, List.mem_singleton,
      List.not_mem_nil, not_false_iff, List.nodup_nil, and_true]
    exact helperName_ne_implName _ _ _
  | derivesEnum => simp

theorem mem_functionNames {b : DeriveBlock} {f : Bytes} : f ∈ b.functionNames ↔
    (∃ name ∈ b.structNames, f = helperName name ∨ f = implName name debugTrait) ∨
      ∃ name ∈ b.enumNames, implName name debugEnumTrait = f := by
  unfold DeriveBlock.functionNames
  rw [List.mem_append, List.mem_flatMap, List.mem_map]
  simp

/-- Two blocks share a function exactly if they are for the same struct or the same enum. -/
theorem functionNames_disjoint {a b : DeriveBlock} : List.Disjoint a.functionNames b.functionNames ↔
    List.Disjoint a.structNames b.structNames ∧ List.Disjoint a.enumNames b.enumNames := by
  constructor
  · intro apart
    refine ⟨fun name here there => ?_, fun name here there => ?_⟩
    · exact apart (mem_functionNames.mpr (.inl ⟨name, here, .inl rfl⟩)) (mem_functionNames.mpr (.inl ⟨name, there, .inl rfl⟩))
    · exact apart (mem_functionNames.mpr (.inr ⟨name, here, rfl⟩)) (mem_functionNames.mpr (.inr ⟨name, there, rfl⟩))
  · rintro ⟨structs, enums⟩ f here there
    rw [mem_functionNames] at here there
    obtain ⟨name, first, rfl | rfl⟩ | ⟨name, first, rfl⟩ := here
    · obtain ⟨name', second, same | same⟩ | ⟨name', second, same⟩ := there
      · exact structs first (helperName_inj same ▸ second)
      · exact helperName_ne_implName _ _ _ same
      · exact helperName_ne_implName _ _ _ same.symm
    · obtain ⟨name', second, same | same⟩ | ⟨name', second, same⟩ := there
      · exact helperName_ne_implName _ _ _ same.symm
      · exact structs first (implName_inj same ▸ second)
      · exact implName_ne _ _ same.symm
    · obtain ⟨name', second, same | same⟩ | ⟨name', second, same⟩ := there
      · exact helperName_ne_implName _ _ _ same.symm
      · exact implName_ne _ _ same.symm
      · exact enums first (implName_inj same ▸ second)

/-- The names of the blocks are different exactly if no two blocks share one. -/
theorem nodup_names {f : DeriveBlock → List Bytes} (short : ∀ b, (f b).Nodup) (blocks : List (Filler × HeaderBlock)) :
    (blocks.flatMap fun b => f b.2.toDeriveBlock).Nodup ↔
      blocks.Pairwise fun a b => List.Disjoint (f a.2.toDeriveBlock) (f b.2.toDeriveBlock) := by
  rw [List.nodup_flatMap]
  exact and_iff_right fun b _ => short b.2.toDeriveBlock

theorem structNames_nodup (b : DeriveBlock) : b.structNames.Nodup := by
  unfold DeriveBlock.structNames
  cases b.kind <;> simp

theorem enumNames_nodup (b : DeriveBlock) : b.enumNames.Nodup := by
  unfold DeriveBlock.enumNames
  cases b.kind <;> simp

/-- The generated file defines no function twice and calls only functions that are declared
before, exactly if no two blocks are for one struct or for one enum, and each field is of a
struct of an earlier block or the same. -/
theorem program_links_iff (header : Header) :
    (header.program.map CFunction.name).Nodup ∧ Declared (declaredIn header.tokens) header.program ↔
      (header.blocks.flatMap fun b => b.2.structNames).Nodup ∧ (header.blocks.flatMap fun b => b.2.enumNames).Nodup ∧
        header.Ordered := by
  have names : header.program.map CFunction.name = header.blocks.flatMap fun b => b.2.functionNames := by
    rw [Header.program, List.map_flatMap]
    exact congrArg (fun f => header.blocks.flatMap f) (funext fun b => functions_names b.2.toDeriveBlock)
  rw [declared_iff_ordered, names, ← and_assoc, nodup_names functionNames_nodup, nodup_names structNames_nodup,
    nodup_names enumNames_nodup, ← List.pairwise_and_iff]
  exact and_congr_left' ⟨fun all => all.imp functionNames_disjoint.mp, fun all => all.imp functionNames_disjoint.mpr⟩

end Functions

end MoeToolchain
