import MoeToolchain.ProcMacro.FileStructs
import MoeToolchain.ProcMacro.Main
import MoeToolchain.Scripts.Signatures

/-!
# Calls in the generated file

The printers that `debug.js` generates call each other. The macros of the header declare
the `_impl` functions, and nothing declares a helper before its definition, so a file is
in order only if its structs are.

Main result:

* `calls_declared_iff`: for every file that the program gets through, whatever else the
  file and its derives name.
-/

namespace MoeToolchain
set_option autoImplicit false
open Lib

/-! ## What the header declares -/

/-- The name and the trait of a derive that begins here. -/
def deriveAt : List Token → Option (Bytes × Bytes)
  | .id word :: .char c :: .id name :: .char d :: .id trait :: .char e :: _ =>
    if (word = Macro.derives.word ∨ word = Macro.derivesEnum.word) ∧ c = lparen ∧ d = comma ∧ (e = comma ∨ e = rparen) then
      some (name.text, trait.text)
    else none
  | _ => none

/-- The derives of a file as the preprocessor comes to them, read by the parser or not. -/
def derivesIn (ts : List Token) : List (Bytes × Bytes) := ts.tails.filterMap deriveAt

/-- The functions that including the header declares. -/
def declaredIn (ts : List Token) : List Bytes := (derivesIn ts).map fun d => implName d.1 d.2

/-! ## What is appended for a struct -/

def CallResult.code? : CallResult → Option Bytes
  | exception => none
  | string text => some text
  | other text => text

/-- The tokens as the script gets them. -/
def DerivedStruct.jsTokens (v : DerivedStruct) : List JsToken := v.metadata.map fromTokenToJsTokenObject

/-- The code that a handler returns for the struct. -/
def handlerCode (builtins : Builtins) (v : DerivedStruct) (handler : Bytes) : Option Bytes :=
  (globalFunction? builtins handler).bind fun f => (f v.structName v.jsTokens).code?

/-- The last handler that returns code: this code is the one that is kept. -/
def keptHandler? (builtins : Builtins) (v : DerivedStruct) : Option Bytes :=
  v.handlers.reverse.find? fun handler => (handlerCode builtins v handler).isSome

/-- Functions of the script's own making, or the text that another function returned. -/
inductive Appended
  | functions (fs : List CFunction)
  | other (text : Bytes)
deriving DecidableEq, Repr

def Appended.text : Appended → Bytes
  | functions fs => programText fs
  | other text => text

def Appended.defines : Appended → List CFunction
  | functions fs => fs
  | other _ => []

def appendedFor (builtins : Builtins) (v : DerivedStruct) : Appended :=
  match keptHandler? builtins v with
  | none => .other []
  | some handler =>
    match scriptFunction? handler with
    | some f => .functions (f v.structName v.jsTokens)
    | none => .other (cString ((handlerCode builtins v handler).getD []))

section Appended

variable {builtins : Builtins} {v : DerivedStruct} {handler : Bytes}

theorem appendedFor_none (kept : keptHandler? builtins v = none) : appendedFor builtins v = .other [] := by
  rw [appendedFor, kept]

theorem appendedFor_script {f : Bytes → List JsToken → List CFunction} (kept : keptHandler? builtins v = some handler)
    (script : scriptFunction? handler = some f) : appendedFor builtins v = .functions (f v.structName v.jsTokens) := by
  simp only [appendedFor, kept, script]

theorem appendedFor_other (kept : keptHandler? builtins v = some handler) (script : scriptFunction? handler = none) :
    appendedFor builtins v = .other (cString ((handlerCode builtins v handler).getD [])) := by
  simp only [appendedFor, kept, script]

end Appended

/-- The functions that the script defines in the file, in order. -/
def generatedFor (builtins : Builtins) (vs : List DerivedStruct) : List CFunction :=
  vs.flatMap fun v => (appendedFor builtins v).defines

/-- Every struct that is the type of a field of a printed struct is that struct, or an earlier one that
is printed; `structs` are the ones printed before. -/
def PrintedInOrder (builtins : Builtins) : List Bytes → List DerivedStruct → Prop
  | _, [] => True
  | structs, v :: vs =>
    if keptHandler? builtins v = some debugTrait then
      (∀ f ∈ scanFields v.jsTokens, ∀ tag, f.type = .struct tag → tag ∈ v.structName :: structs) ∧
        PrintedInOrder builtins (v.structName :: structs) vs
    else PrintedInOrder builtins structs vs

/-- The enums that are types of fields derive `debug_enum` in the header. -/
def EnumsDerived (builtins : Builtins) (ts : List Token) (vs : List DerivedStruct) : Prop :=
  ∀ v ∈ vs, keptHandler? builtins v = some debugTrait → ∀ f ∈ scanFields v.jsTokens, ∀ tag,
    f.type = .enum tag → (tag, debugEnumTrait) ∈ derivesIn ts

/-! ## Calls -/

section Calls

variable {known structs enums : List Bytes}

/-- The functions that are known are the helpers of `structs`, the printers of `enums` and others. -/
structure Knows (known structs enums : List Bytes) : Prop where
  helper : ∀ tag, helperName tag ∈ known ↔ tag ∈ structs
  printer : ∀ tag ∈ enums, implName tag debugEnumTrait ∈ known

theorem Knows.callee {type : FieldType} (knows : Knows known structs enums)
    (enum : ∀ tag, type = .enum tag → tag ∈ enums) :
    (∀ callee ∈ type.callee?.toList, callee ∈ known) ↔ ∀ tag, type = .struct tag → tag ∈ structs := by
  cases type with
  | struct tag => simpa [FieldType.callee?] using knows.helper tag
  | enum tag => simpa [FieldType.callee?] using knows.printer tag (enum tag rfl)
  | _ => simp [FieldType.callee?]

theorem Knows.helper_cons (knows : Knows known structs enums) (name : Bytes) :
    Knows (helperName name :: known) (name :: structs) enums where
  helper := fun tag => by
    rw [List.mem_cons, List.mem_cons, knows.helper]
    constructor
    · rintro (same | mem)
      · exact .inl (helperName_inj same)
      · exact .inr mem
    · rintro (rfl | mem)
      · exact .inl rfl
      · exact .inr mem
  printer := fun tag mem => List.mem_cons_of_mem _ (knows.printer tag mem)

theorem Knows.impl_cons (knows : Knows known structs enums) (name trait : Bytes) :
    Knows (implName name trait :: known) structs enums where
  helper := fun tag => by
    rw [List.mem_cons, knows.helper]
    exact ⟨fun mem => mem.resolve_left (helperName_ne_implName _ _ _), .inr⟩
  printer := fun tag mem => List.mem_cons_of_mem _ (knows.printer tag mem)

/-- The functions of a struct add its own helper, and call those of its fields. -/
theorem declared_debug {name : Bytes} {tokens : List JsToken} {fs : List CFunction}
    (knows : Knows known structs enums)
    (enum : ∀ f ∈ scanFields tokens, ∀ tag, f.type = .enum tag → tag ∈ enums) :
    ∃ known', Knows known' (name :: structs) enums ∧
      (Declared known (debug name tokens ++ fs) ↔
        (∀ f ∈ scanFields tokens, ∀ tag, f.type = .struct tag → tag ∈ name :: structs) ∧ Declared known' fs) := by
  have inside := knows.helper_cons name
  refine ⟨_, inside.impl_cons name debugTrait, ?_⟩
  have helper : (∀ callee ∈ (debugHelper name (scanFields tokens)).callees, callee ∈ helperName name :: known) ↔
      ∀ f ∈ scanFields tokens, ∀ tag, f.type = .struct tag → tag ∈ name :: structs := by
    rw [debugHelper_callees, List.forall_mem_flatMap]
    exact forall₂_congr fun f mem => inside.callee (enum f mem)
  have impl : ∀ callee ∈ (debugImpl name).callees, callee ∈ implName name debugTrait :: helperName name :: known := by
    rw [debugImpl_callees, List.forall_mem_singleton]
    simp
  rw [← helper]
  constructor
  · rintro ⟨first, -, rest⟩
    exact ⟨first, rest⟩
  · rintro ⟨first, rest⟩
    exact ⟨first, impl, rest⟩

theorem declared_debugEnum {name : Bytes} {tokens : List JsToken} {fs : List CFunction} :
    Declared known (debugEnum name tokens ++ fs) ↔ Declared (implName name debugEnumTrait :: known) fs := by
  constructor
  · rintro ⟨-, rest⟩
    exact rest
  · intro rest
    refine ⟨?_, rest⟩
    rw [debugEnum_callees name tokens _ (List.mem_singleton_self _)]
    simp

/-- The function of the script that is not `debug` is `debug_enum`. -/
theorem scriptFunction?_other {handler : Bytes} {f : Bytes → List JsToken → List CFunction}
    (script : scriptFunction? handler = some f) (other : handler ≠ debugTrait) : f = debugEnum := by
  unfold scriptFunction? at script
  rw [if_neg other] at script
  split_ifs at script
  exact (Option.some.inj script).symm

/-- The functions of the structs call what is declared exactly if they are printed in order. The
induction is on the structs, with those that are known before as the invariant. -/
theorem declared_generated {builtins : Builtins} (vs : List DerivedStruct) : ∀ {known structs : List Bytes},
    Knows known structs enums →
    (∀ v ∈ vs, keptHandler? builtins v = some debugTrait → ∀ f ∈ scanFields v.jsTokens, ∀ tag,
      f.type = .enum tag → tag ∈ enums) →
    (Declared known (generatedFor builtins vs) ↔ PrintedInOrder builtins structs vs) := by
  induction vs with
  | nil => exact fun _ _ => Iff.rfl
  | cons v vs ih =>
    intro known structs knows enum
    rw [List.forall_mem_cons] at enum
    rw [generatedFor, List.flatMap_cons, ← generatedFor, PrintedInOrder]
    cases kept : keptHandler? builtins v with
    | none =>
      rw [appendedFor_none kept, if_neg (by simp)]
      exact ih knows enum.2
    | some handler =>
      by_cases isDebug : handler = debugTrait
      · subst isDebug
        obtain ⟨known', knows', step⟩ := @declared_debug _ _ _ v.structName _ (generatedFor builtins vs) knows (enum.1 kept)
        rw [appendedFor_script kept rfl, if_pos rfl, ← ih knows' enum.2]
        exact step
      · rw [if_neg (by simpa using isDebug)]
        cases script : scriptFunction? handler with
        | none =>
          rw [appendedFor_other kept script]
          exact ih knows enum.2
        | some f =>
          obtain rfl := scriptFunction?_other script isDebug
          rw [appendedFor_script kept script, ← ih (knows.impl_cons v.structName debugEnumTrait) enum.2]
          exact declared_debugEnum

/-- The macros declare no helper, and the printers of the enums that derive `debug_enum`. -/
theorem knows_declaredIn (ts : List Token) :
    Knows (declaredIn ts) [] (((derivesIn ts).filter fun d => d.2 = debugEnumTrait).map Prod.fst) where
  helper := fun tag => by
    refine ⟨fun declared => ?_, fun mem => by cases mem⟩
    obtain ⟨d, -, same⟩ := List.mem_map.mp declared
    exact absurd same.symm (helperName_ne_implName _ _ _)
  printer := fun tag mem => by
    obtain ⟨⟨name, trait⟩, derived, rfl⟩ := List.mem_map.mp mem
    obtain ⟨here, isTrait⟩ := List.mem_filter.mp derived
    obtain rfl : trait = debugEnumTrait := of_decide_eq_true isTrait
    exact List.mem_map.mpr ⟨_, here, rfl⟩

theorem declared_iff_printedInOrder {builtins : Builtins} {ts : List Token} {vs : List DerivedStruct}
    (enum : EnumsDerived builtins ts vs) :
    Declared (declaredIn ts) (generatedFor builtins vs) ↔ PrintedInOrder builtins [] vs := by
  refine declared_generated vs (knows_declaredIn ts) fun v mem kept f here tag isEnum => ?_
  exact List.mem_map.mpr ⟨_, List.mem_filter.mpr ⟨enum v mem kept f here tag isEnum, by simp⟩, rfl⟩

end Calls

/-! ## The text of the file -/

section Text

variable {builtins : Builtins} {v : DerivedStruct}

theorem words_noNul (values : List TokenValue) :
    ∀ text, Words (values.map fromTokenToJsTokenObject) text → NoNul text := by
  rintro text ⟨tok, mem, identifier⟩
  obtain ⟨v, -, rfl⟩ := List.mem_map.mp mem
  cases v with
  | identifier name =>
    obtain rfl : cString name = text := Option.some.inj identifier
    exact no_nul_cString name
  | _ => cases identifier

/-- The code of the script has no NUL. -/
theorem script_noNul {handler : Bytes} {f : Bytes → List JsToken → List CFunction}
    (script : scriptFunction? handler = some f) (clean : NoNul v.structName) :
    NoNul (programText (f v.structName v.jsTokens)) := by
  have words : ∀ text, Words v.jsTokens text → NoNul text := words_noNul v.metadata
  have each : ∀ g ∈ f v.structName v.jsTokens, g.Clean := by
    by_cases isDebug : handler = debugTrait
    · subst isDebug
      cases script
      exact debug_clean clean words
    · rw [scriptFunction?_other script isDebug]
      exact debugEnum_clean clean words
  exact noNul_flatMap fun g mem => (each g mem).text

theorem outcomes_debugJs (tokens : List JsToken) (name : Bytes) (handlers : List Bytes) :
    ((debugJs builtins).outcomes tokens name handlers ()).1 =
      handlers.map fun handler => ((debugJs builtins).outcome tokens name handler ()).1 := by
  induction handlers with
  | nil => rfl
  | cons handler handlers ih =>
    rw [List.map_cons, ← ih]
    rfl

theorem structOutcomes_debugJs (v : DerivedStruct) : ((debugJs builtins).structOutcomes v ()).1 =
    v.handlers.map fun handler => ((debugJs builtins).outcome v.jsTokens v.structName handler ()).1 :=
  outcomes_debugJs _ _ _

theorem outcome_code (v : DerivedStruct) (handler : Bytes) :
    ((debugJs builtins).outcome v.jsTokens v.structName handler ()).1.code? = handlerCode builtins v handler := by
  rw [outcome_debugJs, handlerCode]
  cases globalFunction? builtins handler with
  | none => rfl
  | some f => cases returned : f v.structName v.jsTokens <;> simp [returned, CallResult.outcome, CallResult.code?, Outcome.code?]

theorem codes_debugJs (v : DerivedStruct) :
    codes ((debugJs builtins).structOutcomes v ()).1 = v.handlers.filterMap (handlerCode builtins v) := by
  rw [structOutcomes_debugJs, codes, List.filterMap_map]
  exact List.filterMap_congr fun handler _ => outcome_code v handler

theorem findSome?_eq_bind {α β : Type} (f : α → Option β) (as : List α) :
    as.findSome? f = (as.find? fun a => (f a).isSome).bind f := by
  induction as with
  | nil => rfl
  | cons a as ih => cases here : f a <;> simp [here, ih]

/-- The code that is kept is that of the last handler with code. -/
theorem last_code (v : DerivedStruct) : (codes ((debugJs builtins).structOutcomes v ()).1).getLast? =
    (keptHandler? builtins v).bind (handlerCode builtins v) := by
  rw [codes_debugJs, List.getLast?_filterMap, findSome?_eq_bind]
  rfl

theorem written_appendedFor (n : Nat) (clean : NoNul v.structName) :
    written (fun _ => .whole) n (codes ((debugJs builtins).structOutcomes v ()).1) = (appendedFor builtins v).text := by
  rw [written, last_code]
  cases kept : keptHandler? builtins v with
  | none =>
    rw [appendedFor_none kept]
    rfl
  | some handler =>
    obtain ⟨code, returns⟩ := Option.isSome_iff_exists.mp
      (List.find?_some (p := fun handler => (handlerCode builtins v handler).isSome) kept)
    rw [Option.bind_some, returns]
    cases script : scriptFunction? handler with
    | none =>
      rw [appendedFor_other kept script, returns]
      rfl
    | some f =>
      have made : programText (f v.structName v.jsTokens) = code := by
        rw [handlerCode, globalFunction?_script builtins script] at returns
        exact Option.some.inj returns
      rw [appendedFor_script kept script, Appended.text, ← made]
      exact cString_of_no_nul (script_noNul script clean)

theorem writtenText_appendedFor (vs : List DerivedStruct) : ∀ n, (∀ v ∈ vs, NoNul v.structName) →
    writtenText (fun _ => .whole) n ((debugJs builtins).fileOutcomes vs ()) =
      vs.flatMap fun v => (appendedFor builtins v).text := by
  induction vs with
  | nil => exact fun n clean => rfl
  | cons v vs ih =>
    intro n clean
    rw [List.forall_mem_cons] at clean
    rw [List.flatMap_cons]
    exact congrArg₂ _ (written_appendedFor n clean.1) (ih _ clean.2)

theorem Finds.asRead {ts : List Token} {vs : List DerivedStruct} (finds : Finds ts vs) :
    ∀ v ∈ vs, Values.asRead v = v := by
  induction finds with
  | nil => simp
  | cons here _ ih =>
    intro v mem
    rcases List.mem_append.mp mem with first | later
    · have same := here.asRead
      rw [Option.mem_toList.mp first] at same
      exact Option.some.inj same
    · exact ih v later

/-- The names of the structs that the parser finds have no NUL. -/
theorem parseFile_noNul {build : Build} {lex : StbLexer} {mem : Mem} {st : St} {calls : List Call}
    (run : parseFile build lex mem = .ok ((), st, calls)) : ∀ v ∈ calls.filterMap Call.result, NoNul v.structName := by
  have reads := (parseFile_reads_iff build lex mem (calls.filterMap Call.result)).mp ⟨st, calls, run, rfl⟩
  cases build with
  | ndebug =>
    rw [reads.1]
    simp
  | assertions =>
    obtain ⟨_, _, -, finds, -⟩ := reads
    intro v mem
    rw [← finds.asRead v mem]
    exact no_nul_cString _

end Text

/-! ## Whole runs -/

/-- In a run with `debug.js` that gets to the leak check and whose appends succeed, the file is its first line
and what is appended for each struct. The calls of the functions in it are declared before exactly
if the structs are printed in order. -/
theorem calls_declared_iff (builtins : Builtins) (build : Build) (w : World Unit (List JsToken)) (output : Bytes)
    (c : St × Host Unit) (js : w.js = debugJs builtins) (appends : ∀ n, w.writes n = .whole)
    (run : mainToCheck build w (w.start output) = .ok (.check, c)) :
    ∃ inputFile text script calls, Checked build w c inputFile text script calls ∧
      c.2.output = includeLine (cString (baseName inputFile)) ++
        (calls.filterMap Call.result).flatMap (fun v => (appendedFor builtins v).text) ∧
      (EnumsDerived builtins (w.lexer text) (calls.filterMap Call.result) →
        (Declared (declaredIn (w.lexer text)) (generatedFor builtins (calls.filterMap Call.result)) ↔
          PrintedInOrder builtins [] (calls.filterMap Call.result))) := by
  obtain ⟨inputFile, text, script, calls, checked, -⟩ := mainToCheck_ok run
  obtain ⟨st, parsed⟩ := checked.found
  have whole : w.writes = fun _ => .whole := funext appends
  refine ⟨inputFile, text, script, calls, checked, ?_, declared_iff_printedInOrder⟩
  rw [checked.output, World.firstLine, whole, World.outcomes, js, writtenText_appendedFor _ 1 (parseFile_noNul parsed)]
  rfl

/-! ## A pointer to a later struct -/

/-- The program with `debug.js` on a file with these tokens. -/
def debugFile (tokens : List Token) : World Unit (List JsToken) where
  argv := [bytesOf "moe", bytesOf "a.h", bytesOf "a.c", bytesOf "debug.js"]
  js := debugJs fun _ => none
  engine := ()
  clears := true
  writes _ := .whole
  input := some (bytesOf "-")
  script := some (bytesOf "-")
  lexer _ := tokens

def debugH : Invocation := ⟨debugWord, [], true⟩

/-- `MOE_PROC_MACRO_DERIVES(A, debug); struct A { struct B *b; };` -/
def pointsToB : DeriveBlock where
  kind := .derives
  name := typeA
  first := debugH
  more := []
  body := [.id structWord, .id typeB, .char 42, .id wordB, .char semicolon]
  closed := by decide
  typeName := none

/-- `MOE_PROC_MACRO_DERIVES(B, debug); struct B { };` -/
def emptyB : DeriveBlock := { blockB with first := debugH }

/-- What is found in a file whose tokens the parser comes through. -/
theorem found_of_values {build : Build} {tokens : List Token} {calls : List Call} {vs : List DerivedStruct}
    (found : ∃ st, parseFile build (.start tokens) Mem.empty = .ok ((), st, calls))
    (values : (Values.parseFile build (.start tokens)).toOption.map (fun r => r.2.2.filterMap Call.result) = some vs) :
    calls.filterMap Call.result = vs := by
  obtain ⟨st, parse⟩ := found
  rw [parseFile_values parse] at values
  exact Option.some.inj values

theorem forwardPointer_found : (Values.parseFile .assertions (.start (pointsToB.tokens ++ emptyB.tokens))).toOption.map
    (fun r => r.2.2.filterMap Call.result) = some [pointsToB.value, emptyB.value] := by decide +kernel

theorem forwardPointer_run : ∃ c, mainToCheck .assertions (debugFile (pointsToB.tokens ++ emptyB.tokens))
    ((debugFile (pointsToB.tokens ++ emptyB.tokens)).start []) = .ok (.check, c) := by
  obtain ⟨c, run, -⟩ := exists_of_exit (x := mainToCheck .assertions (debugFile (pointsToB.tokens ++ emptyB.tokens)))
    (s := (debugFile (pointsToB.tokens ++ emptyB.tokens)).start []) (p := fun _ => True) (by decide +kernel)
  exact ⟨c, run⟩

theorem forwardPointer_enums :
    EnumsDerived (fun _ => none) (pointsToB.tokens ++ emptyB.tokens) [pointsToB.value, emptyB.value] := by
  have struct : ∀ v ∈ [pointsToB.value, emptyB.value], ∀ f ∈ scanFields v.jsTokens, f.type = .struct (bytesOf "B") := by decide
  intro v mem _ f here tag isEnum
  rw [struct v mem f here] at isEnum
  cases isEnum

/-- The theorem at the file of `A` and `B`. -/
theorem calls_declared_iff_forwardPointer :
    ∃ c inputFile text script calls,
      Checked .assertions (debugFile (pointsToB.tokens ++ emptyB.tokens)) c inputFile text script calls ∧
      c.2.output = includeLine (cString (baseName inputFile)) ++
        (calls.filterMap Call.result).flatMap (fun v => (appendedFor (fun _ => none) v).text) ∧
      (Declared (declaredIn (pointsToB.tokens ++ emptyB.tokens)) (generatedFor (fun _ => none) (calls.filterMap Call.result)) ↔
        PrintedInOrder (fun _ => none) [] (calls.filterMap Call.result)) := by
  obtain ⟨c, run⟩ := forwardPointer_run
  obtain ⟨inputFile, text, script, calls, checked, file, iff_⟩ :=
    calls_declared_iff (fun _ => none) .assertions (debugFile (pointsToB.tokens ++ emptyB.tokens)) [] c rfl (fun _ => rfl) run
  refine ⟨c, inputFile, text, script, calls, checked, file, iff_ ?_⟩
  rw [found_of_values checked.found forwardPointer_found]
  exact forwardPointer_enums

/-- The helper of `A` calls that of `B`, which is defined after it. -/
theorem forwardPointer_undeclared :
    ∃ c inputFile text script calls,
      mainToCheck .assertions (debugFile (pointsToB.tokens ++ emptyB.tokens))
        ((debugFile (pointsToB.tokens ++ emptyB.tokens)).start []) = .ok (.check, c) ∧
      Checked .assertions (debugFile (pointsToB.tokens ++ emptyB.tokens)) c inputFile text script calls ∧
      ¬ Declared (declaredIn (pointsToB.tokens ++ emptyB.tokens)) (generatedFor (fun _ => none) (calls.filterMap Call.result)) := by
  obtain ⟨c, run⟩ := forwardPointer_run
  obtain ⟨inputFile, text, script, calls, checked, -⟩ := mainToCheck_ok run
  refine ⟨c, inputFile, text, script, calls, run, checked, ?_⟩
  rw [found_of_values checked.found forwardPointer_found, declared_iff_printedInOrder forwardPointer_enums, PrintedInOrder,
    if_pos (by decide)]
  rintro ⟨fields, -⟩
  exact absurd (fields ⟨.struct (bytesOf "B"), bytesOf "b", 1⟩ (by decide) (bytesOf "B") rfl) (by decide)

end MoeToolchain
