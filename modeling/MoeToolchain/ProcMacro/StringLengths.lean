import MoeToolchain.ProcMacro.Main
import MoeToolchain.ProcMacro.Ndebug
import MoeToolchain.ProcMacro.Ownership

/-!
# The lengths of the strings

Length 0 is the mark for `strlen(data)` in `moe_string_alloc`, so the call for an empty
file, or for the result of a handler that has no string, takes the length of `NULL`.
`no_length_of_null_iff` is about which runs of `main` get there.
-/

namespace MoeToolchain
set_option autoImplicit false
open Lib

/-! ## One call -/

section Call

variable {data : Option Bytes} {length : Nat} {m m' : Mem} {a : Addr}

/-- The length that a call asks for. -/
def askedLength (data : Option Bytes) (length : Nat) : Nat :=
  if length = 0 then strlen (data.getD []) else length

theorem length_of_content {c : Bytes} (content : stringContent data length = some c) :
    c.length = askedLength data length := by
  have run := chosenLength_run (m := Mem.empty) content
  unfold askedLength
  by_cases zero : length = 0
  · cases data with
    | none =>
      rw [stringContent, if_pos zero] at content
      cases content
    | some b =>
      rw [stringContent, if_pos zero] at content
      cases content
      rw [if_pos zero]
      rfl
  · unfold chosenLength at run
    rw [if_neg zero] at run ⊢
    cases run
    rfl

/-- A call without content ends in one of two faults. -/
theorem moeStringAlloc_fault (nothing : stringContent data length = none) :
    moeStringAlloc data length m = .error (if data = none then .nullPointer else .outOfBounds) := by
  cases data with
  | none =>
    by_cases zero : length = 0
    · subst zero
      rfl
    · rw [stringContent, if_neg zero] at nothing
      cases nothing
  | some b =>
    rw [if_neg (Option.some_ne_none b)]
    exact moeStringAlloc_short nothing m

theorem moeStringAlloc_null :
    moeStringAlloc data length m = .error .nullPointer ↔ data = none ∧ length = 0 := by
  constructor
  · intro run
    cases content : stringContent data length with
    | none =>
      rw [moeStringAlloc_fault content] at run
      cases data with
      | none =>
        rw [stringContent, ite_eq_left_iff] at content
        exact ⟨rfl, not_not.mp fun other => Option.some_ne_none _ (content other)⟩
      | some b => cases run
    | some c =>
      obtain ⟨l, m', run', -⟩ := moeStringAlloc_owns (owns_refl m) content
      rw [run'] at run
      cases run
  · rintro ⟨rfl, rfl⟩
    rfl

/-- The string that a call returns is as long as it asked for. -/
theorem moeStringAlloc_length (run : moeStringAlloc data length m = .ok (a, m')) :
    ∃ s, loadAs Block.asString (some a) m' = .ok (s, m') ∧ s.length = askedLength data length ∧
      s.capacity = s.length + 1 := by
  cases content : stringContent data length with
  | none =>
    rw [moeStringAlloc_fault content] at run
    cases run
  | some c =>
    obtain ⟨l, m1, run', owned⟩ := moeStringAlloc_owns (owns_refl m) content
    rw [run'] at run
    cases run
    have handle : (l.handle, Block.string ⟨l.internal, c.length, c.length + 1⟩) ∈ strBlocks l c + 0 := by
      simp [strBlocks]
    exact ⟨_, loadAs_owns Block.asString owned handle rfl, length_of_content content, rfl⟩

end Call

/-! ## The handlers -/

section Handlers

variable {σ ι : Type} {js : Js σ ι} {writes : Nat → Append} {array : ι} {structName : Bytes}

/-- Generation stops at the first result that has no string, and at nothing else. -/
theorem generateItems_fault (names : List Bytes) : ∀ {output : Option Bytes} {w : Values.Run σ} {e : Fault},
    names.foldlM (Values.generateItem js array structName) output w = .error e ↔
      e = .nullPointer ∧ .converted none ∈ (js.outcomes array structName names w.1.js).1 := by
  induction names with
  | nil =>
    intro output w e
    simp [Js.outcomes]
  | cons name names ih =>
    intro output w e
    obtain ⟨host, leaked⟩ := w
    have outcome : Values.onHost (onJs (js.outcome array structName name)) (host, leaked) =
        .ok ((js.outcome array structName name host.js).1,
          ({ host with js := (js.outcome array structName name host.js).2 }, leaked)) := rfl
    rw [List.foldlM_cons, Values.generateItem, bind_assoc, Exec.bind_ok outcome]
    simp only [Js.outcomes]
    generalize js.outcome array structName name host.js = first
    obtain ⟨first, js'⟩ := first
    cases first with
    | notFunction =>
      refine Iff.trans (ih (w := ({ host with js := js' }, leaked))) (and_congr_right' ?_)
      simp
    | exception =>
      refine Iff.trans (ih (w := ({ host with js := js' }, leaked))) (and_congr_right' ?_)
      simp
    | returned code =>
      refine Iff.trans (ih (w := ({ host with js := js' }, leaked + output.toList.length)))
        (and_congr_right' ?_)
      simp
    | converted text =>
      cases text with
      | none =>
        refine ⟨fun run => ?_, fun both => ?_⟩
        · cases run
          exact ⟨rfl, by simp⟩
        · rw [both.1]
          rfl
      | some code =>
        refine Iff.trans (ih (w := ({ host with js := js' }, leaked + output.toList.length)))
          (and_congr_right' ?_)
        simp

theorem generate_fault {v : DerivedStruct} {w : Values.Run σ} {e : Fault} :
    Values.generate js writes v w = .error e ↔
      e = .nullPointer ∧ .converted none ∈ (js.structOutcomes v w.1.js).1 := by
  obtain ⟨host, leaked⟩ := w
  let array := js.newArray (v.metadata.map fromTokenToJsTokenObject) host.js
  have values : Values.onHost (onJs (js.newArray (v.metadata.map fromTokenToJsTokenObject))) (host, leaked) =
      .ok (array.1, ({ host with js := array.2 }, leaked)) := rfl
  rw [Values.generate, Exec.bind_ok values]
  refine Iff.trans ?_ (@generateItems_fault _ _ js array.1 v.structName v.handlers none
    ({ host with js := array.2 }, leaked) _)
  cases code : Values.generateCode js array.1 v.structName v.handlers ({ host with js := array.2 }, leaked) with
  | error e' =>
    rw [Exec.bind_error code]
    unfold Values.generateCode at code
    rw [code]
    simp only [Except.error.injEq]
  | ok r =>
    obtain ⟨output, host', leaked'⟩ := r
    rw [Exec.bind_ok code]
    unfold Values.generateCode at code
    rw [code]
    refine ⟨fun run => ?_, fun run => by cases run⟩
    cases output with
    | none => cases run
    | some content =>
      obtain ⟨ret, append⟩ := @appendToOutput_run _ writes (cString content) host'
      have written : Values.onHost (appendToOutput writes (cString content)) (host', leaked') =
          .ok (ret, (host'.append writes (cString content), leaked')) := Exec.zoom_ok append
      rw [Values.writeGenerated, Exec.bind_ok written] at run
      cases run

end Handlers

/-! ## The structs that are found -/

/-- The structs that the loop finds, up to its end or to where the parser stops. -/
def foundStructs (build : Build) : Nat → StbLexer → List DerivedStruct
  | 0, _ => []
  | fuel + 1, lex =>
    match lex.rest with
    | [] => []
    | t :: rest =>
      if t.isError then []
      else
        match Values.parseDerivedStruct build (lex.fetched t rest) with
        | .error _ => []
        | .ok (none, lex') => foundStructs build fuel lex'
        | .ok (some v, lex') => Values.asRead v :: foundStructs build fuel lex'

section Loop

variable {σ ι : Type} {js : Js σ ι} {writes : Nat → Append} {build : Build}

/-- In neither build does the parser itself touch a `NULL` or an unwritten byte. -/
theorem parser_fault {lex : StbLexer} {t : Token} {rest : List Token} {e : Fault}
    (run : Values.parseDerivedStruct build (lex.fetched t rest) = .error e) : e = .assertFailed := by
  cases build with
  | assertions => exact (parseDerivedStruct_assertionOnly lex t rest).of_error run
  | ndebug =>
    rw [parseDerivedStruct_ndebug] at run
    cases run

/-- How a run stops: at a length of `NULL` if not all is `measured`, and otherwise in the parser or without an input. -/
inductive StopFault (measured : Prop) : Fault → Prop
  | null : ¬ measured → StopFault measured .nullPointer
  | assertion : measured → StopFault measured .assertFailed
  | parameter : measured → StopFault measured .nullParameter
  | fuel : measured → StopFault measured .outOfFuel

theorem StopFault.nullFault {measured : Prop} (holds : measured) : StopFault measured build.nullFault := by
  cases build with
  | assertions => exact .assertion holds
  | ndebug => exact .parameter holds

/-- The result of a run that ends without a fault only if all is `measured`. -/
def StopsAs {α : Type} (measured : Prop) (r : Except Fault α) : Prop :=
  match r with
  | .error e => StopFault measured e
  | .ok _ => measured

theorem StopsAs.of_error {α : Type} {measured : Prop} {r : Except Fault α} {e : Fault} (run : r = .error e)
    (stops : StopFault measured e) : StopsAs measured r := by
  subst run
  exact stops

theorem StopsAs.of_ok {α : Type} {measured : Prop} {r : Except Fault α} {a : α} (run : r = .ok a)
    (holds : measured) : StopsAs measured r := by
  subst run
  exact holds

theorem StopsAs.congr {α β : Type} {p q : Prop} {x : Except Fault α} {y : Except Fault β} (stops : StopsAs p x)
    (same : p ↔ q) (error : ∀ e, x = .error e → y = .error e) (ok : ∀ a, x = .ok a → ∃ b, y = .ok b) :
    StopsAs q y := by
  rw [propext same] at stops
  cases run : x with
  | error e =>
    rw [run] at stops
    exact .of_error (error e run) stops
  | ok a =>
    rw [run] at stops
    exact .of_ok (ok a run).choose_spec stops

/-- Every value that the handlers of these structs returned has a string. -/
def AllRead (oss : List (List Outcome)) : Prop := ∀ os ∈ oss, .converted none ∉ os

theorem tokenLoop_stops (fuel : Nat) : ∀ (lex : StbLexer) (w : Values.Run σ),
    StopsAs (AllRead (js.fileOutcomes (foundStructs build fuel lex) w.1.js))
      (Values.tokenLoop build (Values.forFound (Values.generate js writes)) fuel (lex, w)) := by
  have nothing : AllRead [] := by simp [AllRead]
  induction fuel with
  | zero =>
    intro lex w
    exact StopFault.fuel nothing
  | succ fuel ih =>
    intro lex w
    cases next : lex.rest with
    | nil =>
      rw [tokenLoop_end next, foundStructs, next]
      exact nothing
    | cons t r =>
      cases lexed : t.isError with
      | true =>
        rw [tokenLoop_parseError next lexed]
        simp only [foundStructs, next, lexed]
        exact nothing
      | false =>
        cases call : Values.parseDerivedStruct build (lex.fetched t r) with
        | error e =>
          obtain rfl := parser_fault call
          have found : foundStructs build (fuel + 1) lex = [] := by
            simp only [foundStructs, next, lexed, call]
            rfl
          rw [tokenLoop_fault next lexed call, found]
          exact StopFault.assertion nothing
        | ok p =>
          obtain ⟨v, lex1⟩ := p
          rw [tokenLoop_turn next lexed call]
          cases v with
          | none =>
            have found : foundStructs build (fuel + 1) lex = foundStructs build fuel lex1 := by
              simp only [foundStructs, next, lexed, call]
              rfl
            rw [found]
            exact ih lex1 w
          | some v =>
            have found : foundStructs build (fuel + 1) lex =
                Values.asRead v :: foundStructs build fuel lex1 := by
              simp only [foundStructs, next, lexed, call]
              rfl
            rw [found, Js.fileOutcomes, Values.forFound, AllRead, List.forall_mem_cons]
            cases here : Values.generate js writes (Values.asRead v) w with
            | error e =>
              obtain ⟨rfl, unread⟩ := generate_fault.mp here
              exact .of_error (Exec.bind_error (Values.onRest_error here)) (.null fun read => read.1 unread)
            | ok q =>
              obtain ⟨_, w1⟩ := q
              have read : .converted none ∉ (js.structOutcomes (Values.asRead v) w.1.js).1 := by
                intro unread
                rw [generate_fault.mpr ⟨rfl, unread⟩] at here
                cases here
              rw [Exec.bind_ok (Values.onRest_ok here), and_iff_right read, ← (generate_ok here).1]
              exact ih lex1 w1

end Loop

/-! ## Runs of `main` -/

section Runs

variable {σ ι : Type} {m₀ mem : Mem} {f : Footprint} {build : Build} {w : World σ ι} {lex : StbLexer}
  {host : Host σ} {text : Bytes}

/-- The structs that a run finds in its input. -/
def World.found (build : Build) (w : World σ ι) (text : Bytes) : List DerivedStruct :=
  foundStructs build ((w.lexer text).length + 1) (.start (w.lexer text))

/-- Neither file is empty, and every value that a handler returns has a string. -/
structure World.Measured (build : Build) (w : World σ ι) : Prop where
  input : w.input ≠ some []
  script : w.script ≠ some []
  results : ∀ text script, w.input = some text → w.script = some script →
    AllRead (w.js.fileOutcomes (w.found build text) (w.js.eval script w.engine).2)

theorem mainWithScripts_stops {l : StringAt} {a : Addr}
    (owned : Owns m₀ mem (strBlocks l text + ({(a, .jsRuntime)} + f))) :
    StopsAs (AllRead (w.js.fileOutcomes (w.found build text) host.js))
      (mainWithScripts build w (some l.handle) a (⟨lex, mem⟩, host)) := by
  have ends := @mainWithScripts_run _ _ _ _ _ build w lex host _ _ _ owned
  have loop : StopsAs (AllRead (w.js.fileOutcomes (w.found build text) host.js)) (w.loop build text host) :=
    tokenLoop_stops _ _ (host, 0)
  refine loop.congr Iff.rfl (fun e values => ?_) (fun r values => ?_)
  · rw [values] at ends
    exact ends
  · rw [values] at ends
    obtain ⟨mem', lost, run, -⟩ := ends
    exact ⟨_, run⟩

theorem readFile_none : readFile none mem = .ok (none, mem) := rfl

theorem readFile_empty : readFile (some []) mem = .error .nullPointer := rfl

theorem mainWithInput_stops {p : Ptr} {measured : Prop} (owned : Owns m₀ mem f)
    (none_ : w.script = none → measured) (empty : w.script = some [] → ¬ measured)
    (rest : ∀ script a mem', w.script = some script → script ≠ [] → Owns m₀ mem' ({(a, .jsRuntime)} + f) →
      StopsAs measured (mainWithScripts build w p a (⟨lex, mem'⟩, { host with js := (w.js.eval script host.js).2 }))) :
    StopsAs measured (mainWithInput build w p (⟨lex, mem⟩, host)) := by
  cases script : w.script with
  | none =>
    obtain ⟨mem', failed⟩ := @mainWithInput_unread _ _ mem build w lex host p script
    exact .of_ok failed (none_ script)
  | some text =>
    by_cases nothing : text = []
    · subst nothing
      exact .of_error (mainWithInput_empty script) (.null (empty script))
    · obtain ⟨a, mem', owned', same⟩ := @mainWithInput_read _ _ _ _ _ build w lex host _ p owned script nothing
      rw [same]
      exact rest text a mem' script nothing owned'

theorem mainWithOutput_stops (inputFile output : Bytes) :
    StopsAs (w.Measured build) (mainWithOutput build w inputFile (w.start output)) := by
  obtain ⟨mem1, start, owned1⟩ := @startOutput_run _ _ _ _ _ w (.start []) ⟨w.engine, output, 0⟩
    (owns_refl Mem.empty) inputFile
  cases input : w.input with
  | none =>
    have absent : ∀ script, w.script = some script → script ≠ [] → w.Measured build := fun script here nonempty =>
      ⟨by simp [input], by simp [here, nonempty], by simp [input]⟩
    have read : readFile w.input mem1 = .ok (none, mem1) := by
      rw [input]
      exact readFile_none
    rw [mainWithOutput, World.start, Exec.bind_ok start, Exec.bind_ok (onMem_ok read)]
    refine mainWithInput_stops owned1 ?_ (fun empty measured => measured.script empty) ?_
    · intro none_
      exact ⟨by simp [input], by simp [none_], by simp [input]⟩
    · intro script a mem2 here nonempty owned2
      exact StopsAs.of_error (mainWithScripts_none owned2) (.nullFault (absent script here nonempty))
  | some text =>
    by_cases empty : text = []
    · subst empty
      have read : readFile w.input mem1 = .error .nullPointer := by
        rw [input]
        exact readFile_empty
      refine StopsAs.of_error ?_ (.null fun measured => measured.input input)
      rw [mainWithOutput, World.start, Exec.bind_ok start, Exec.bind_error (onMem_error read)]
    · obtain ⟨l, mem2, read, owned2⟩ := readFile_owns owned1 empty
      rw [← input] at read
      rw [mainWithOutput, World.start, Exec.bind_ok start, Exec.bind_ok (onMem_ok read)]
      refine mainWithInput_stops owned2 ?_ (fun empty measured => measured.script empty) ?_
      · intro none_
        exact ⟨by simp [input, empty], by simp [none_], by simp [none_]⟩
      · intro script a mem3 here nonempty owned3
        rw [add_left_comm] at owned3
        refine (mainWithScripts_stops owned3).congr ⟨?_, fun measured => measured.results text script input here⟩
          (fun _ run => run) (fun r run => ⟨r, run⟩)
        intro read
        refine ⟨by simp [input, empty], by simp [here, nonempty], ?_⟩
        intro text' script' input' here'
        rw [input] at input'
        rw [here] at here'
        cases input'
        cases here'
        exact read

/-- A run that reads its files stops at `NULL`, at an assertion, or not at all. -/
theorem main_stops {inputFile : Bytes} (output : Bytes) (argument : w.inputFile? = some inputFile)
    (clears : w.clears = true) : StopsAs (w.Measured build) (main build w (w.start output)) := by
  have whole := @mainWithOutput_stops _ _ build w inputFile output
  have same : mainToCheck build w = mainWithOutput build w inputFile := by
    rw [mainToCheck, argument]
    simp only [clears, if_true]
  rw [← same] at whole
  cases run : mainToCheck build w (w.start output) with
  | error e =>
    rw [run] at whole
    exact StopsAs.of_error (Exec.bind_error run) whole
  | ok r =>
    obtain ⟨exit, ⟨lex, mem⟩, host⟩ := r
    rw [run] at whole
    rw [main, Exec.bind_ok run]
    cases exit with
    | failure => exact whole
    | check =>
      simp only
      cases check : moeCheckMemoryLeak build mem with
      | error e =>
        rw [Exec.bind_error (onMem_error check)]
        cases build with
        | assertions =>
          rw [moeCheckMemoryLeak, moeAssert, bind_assoc, Exec.bind_ok (Exec.get_apply _), pure_bind] at check
          split at check
          · cases check
          · cases check
            exact .assertion whole
        | ndebug => cases check
      | ok r =>
        rw [Exec.bind_ok (onMem_ok check)]
        exact whole

end Runs

/-- A call of `moe_string_alloc` takes the length of `NULL` exactly for `NULL` and 0, and
a string that it returns has the length that was asked for. A run of `main` makes no such
call exactly if it ends before it reads a file, or neither file is empty and each value
that a handler returns has a string. -/
theorem no_length_of_null_iff {σ ι : Type} (build : Build) (w : World σ ι) (output : Bytes) :
    (∀ data length m, moeStringAlloc data length m = .error .nullPointer ↔ data = none ∧ length = 0) ∧
    (∀ data length m a m', moeStringAlloc data length m = .ok (a, m') →
      ∃ s, loadAs Block.asString (some a) m' = .ok (s, m') ∧ s.length = askedLength data length ∧
        s.capacity = s.length + 1) ∧
    (main build w (w.start output) ≠ .error .nullPointer ↔
      (w.inputFile? ≠ none → w.clears = true → w.Measured build)) := by
  refine ⟨fun _ _ _ => moeStringAlloc_null, fun _ _ _ _ _ run => moeStringAlloc_length run, ?_⟩
  by_cases reads : w.inputFile? ≠ none ∧ w.clears = true
  · obtain ⟨inputFile, argument⟩ := Option.ne_none_iff_exists'.mp reads.1
    have stops := @main_stops _ _ build w _ output argument reads.2
    constructor
    · intro other _ _
      cases run : main build w (w.start output) with
      | error e =>
        rw [run] at stops
        cases (stops : StopFault _ e) with
        | null _ => exact absurd run other
        | assertion measured => exact measured
        | parameter measured => exact measured
        | fuel measured => exact measured
      | ok r =>
        rw [run] at stops
        exact stops
    · intro measured run
      rw [run] at stops
      cases (stops : StopFault _ _) with
      | null unmeasured => exact unmeasured (measured reads.1 reads.2)
  · refine ⟨fun _ argument clears => absurd ⟨argument, clears⟩ reads, fun _ run => ?_⟩
    cases argument : w.inputFile? with
    | none =>
      rw [main, mainToCheck, argument] at run
      cases run
    | some inputFile =>
      have closed : ¬ w.clears = true := fun clears => reads ⟨by simp [argument], clears⟩
      rw [main, mainToCheck, argument] at run
      simp only [closed] at run
      cases run

/-- An empty input file. -/
theorem emptyInput_length_of_null :
    main .assertions { worldOf [] with input := some [] } (({ worldOf [] with input := some [] } : World Unit Unit).start []) =
      .error .nullPointer := by
  decide +kernel

end MoeToolchain
