import MoeToolchain.ProcMacro.Configurations
import MoeToolchain.ProcMacro.FileStructs

/-!
# The outcomes of the program

`World.Ends` says, without the program, how a run ends: with an exit code and what is in
the output file then, or with a fault. It knows of the file only what its tokens spell
(`FileReads`), and of the script only what the handlers return.

`main_ends_iff`: `main` ends so, in both builds, if the scripts return. Of the faults of the
memory it has only the access through `NULL`.
-/

namespace MoeToolchain
set_option autoImplicit false
open Lib

section Generate

variable {σ ι : Type} {js : Js σ ι} {writes : Nat → Append}

/-- The code of all structs is generated, unless a value that is returned has no string. -/
theorem generateFile_end (vs : List DerivedStruct) : ∀ {w : Values.Run σ},
    (AllRead (js.fileOutcomes vs w.1.js) ∧ ∃ w', forM vs (Values.generate js writes) w = .ok ((), w')) ∨
      (¬ AllRead (js.fileOutcomes vs w.1.js) ∧ forM vs (Values.generate js writes) w = .error .nullPointer) := by
  induction vs with
  | nil =>
    intro w
    exact .inl ⟨by simp [AllRead, Js.fileOutcomes], w, rfl⟩
  | cons v vs ih =>
    intro w
    rw [List.forM_cons, Js.fileOutcomes, AllRead, List.forall_mem_cons]
    cases here : Values.generate js writes v w with
    | error e =>
      obtain ⟨rfl, unread⟩ := generate_fault.mp here
      exact .inr ⟨fun read => read.1 unread, Exec.bind_error here⟩
    | ok p =>
      obtain ⟨_, w1⟩ := p
      have read : .converted none ∉ (js.structOutcomes v w.1.js).1 := by
        intro unread
        rw [generate_fault.mpr ⟨rfl, unread⟩] at here
        cases here
      rw [Exec.bind_ok here, and_iff_right read, ← (generate_ok here).1]
      exact ih

/-- Strings are lost exactly for a struct with two codes. -/
theorem lost_ne_zero_iff {oss : List (List Outcome)} :
    (oss.map fun os => (codes os).length - 1).sum ≠ 0 ↔ ∃ os ∈ oss, 1 < (codes os).length := by
  rw [Ne, List.sum_eq_zero_iff_forall_eq_nat]
  simp only [List.mem_map, forall_exists_index, and_imp, forall_apply_eq_imp_iff₂, Nat.sub_eq_zero_iff_le, not_forall,
    not_le, exists_prop]

end Generate

section Runs

variable {σ ι : Type} {build : Build} {w : World σ ι} {inputFile text script output : Bytes}
  {r : Except Fault (Int × Bytes)}

/-! ## How a run ends -/

/-- A run that gets to its loop: it has its arguments, and text in both files. -/
structure World.Opened (w : World σ ι) (inputFile text script : Bytes) : Prop where
  argument : w.inputFile? = some inputFile
  clears : w.clears = true
  input : w.input = some text
  text : text ≠ []
  scriptRead : w.script = some script
  script : script ≠ []

/-- The outcomes of the handlers for these structs. -/
def World.outcomesOf (w : World σ ι) (script : Bytes) (vs : List DerivedStruct) : List (List Outcome) :=
  w.js.fileOutcomes vs (w.js.eval script w.engine).2

/-- The ends of a run on some output file: the exit code with the output file then, or a fault. -/
inductive World.Ends (build : Build) (w : World σ ι) (output : Bytes) : Except Fault (Int × Bytes) → Prop
  | refused (refuses : w.inputFile? = none ∨ w.clears = false) : Ends build w output (.ok (1, output))
  | emptyFile (argument : w.inputFile? ≠ none) (clears : w.clears = true)
      (empty : w.input = some [] ∨ w.script = some []) : Ends build w output (.error .nullPointer)
  -- the first line is written before the script is looked for
  | noScript {inputFile : Bytes} (argument : w.inputFile? = some inputFile) (clears : w.clears = true)
      (input : w.input ≠ some []) (script : w.script = none) : Ends build w output (.ok (1, w.firstLine inputFile))
  | noInput {script : Bytes} (argument : w.inputFile? ≠ none) (clears : w.clears = true) (input : w.input = none)
      (scriptRead : w.script = some script) (script_ : script ≠ []) : Ends build w output (.error build.nullFault)
  | unread {inputFile text script : Bytes} {vs : List DerivedStruct} {reading : Reading}
      (opened : w.Opened inputFile text script) (reads : FileReads build (w.lexer text) vs reading)
      (unread : ¬ AllRead (w.outcomesOf script vs)) : Ends build w output (.error .nullPointer)
  | stuck {inputFile text script : Bytes} {vs : List DerivedStruct} (opened : w.Opened inputFile text script)
      (reads : FileReads build (w.lexer text) vs .stuck) (read : AllRead (w.outcomesOf script vs)) :
      Ends build w output (.error .assertFailed)
  -- the leak check
  | leaked {inputFile text script : Bytes} {vs : List DerivedStruct} (opened : w.Opened inputFile text script)
      (reads : FileReads build (w.lexer text) vs .whole) (read : AllRead (w.outcomesOf script vs))
      (checks : build = .assertions) (twice : ∃ os ∈ w.outcomesOf script vs, 1 < (codes os).length) :
      Ends build w output (.error .assertFailed)
  | done {inputFile text script : Bytes} {vs : List DerivedStruct} (opened : w.Opened inputFile text script)
      (reads : FileReads build (w.lexer text) vs .whole) (read : AllRead (w.outcomesOf script vs))
      (passes : build = .assertions → ¬ ∃ os ∈ w.outcomesOf script vs, 1 < (codes os).length) :
      Ends build w output (.ok (0, w.firstLine inputFile ++ writtenText w.writes 1 (w.outcomesOf script vs)))

/-- What is left of a run: the exit code and the output file, or the fault. -/
def ending (r : Except Fault (Int × (St × Host σ))) : Except Fault (Int × Bytes) := r.map fun p => (p.1, p.2.2.output)

theorem ending_seen (r : Except Fault (Int × (St × Host σ))) : ending r = (seen r).map fun p => (p.1, p.2.2.output) := by
  cases r <;> rfl

/-- An empty file stops the run. -/
theorem main_emptyFile (argument : w.inputFile? = some inputFile) (clears : w.clears = true)
    (empty : w.input = some [] ∨ w.script = some []) : main build w (w.start output) = .error .nullPointer := by
  have unmeasured : ¬ w.Measured build := fun measured => empty.elim measured.input measured.script
  have stops := @main_stops _ _ build w _ output argument clears
  cases run : main build w (w.start output) with
  | error e =>
    rw [run] at stops
    cases (stops : StopFault _ e) with
    | null _ => rfl
    | assertion measured => exact absurd measured unmeasured
    | parameter measured => exact absurd measured unmeasured
    | fuel measured => exact absurd measured unmeasured
  | ok r =>
    rw [run] at stops
    exact absurd stops unmeasured

/-- Any other run is one on values. -/
theorem main_ending (argument : w.inputFile? = some inputFile) (clears : w.clears = true) (input : w.input ≠ some [])
    (script : w.script ≠ some []) : ending (main build w (w.start output)) =
      (w.valueRun build inputFile).map fun p => (p.1, p.2.2.output) := by
  have whole : main build w = mainWithOutput build w inputFile >>= checkExit build := by
    rw [main_checkExit, mainToCheck, argument]
    simp only [clears, if_true]
  rw [ending_seen, whole, (mainWithOutput_end output input script).seen]

/-- The loop of a run that gets there, by the reading of its file. -/
theorem World.Opened.ending (opened : w.Opened inputFile text script) :
    ending (main build w (w.start output)) = (checkedEnd build
      (w.loop build text ⟨(w.js.eval script w.engine).2, w.firstLine inputFile, 1⟩)).map fun p => (p.1, p.2.2.output) := by
  have input : w.input ≠ some [] := by simpa [opened.input] using opened.text
  have script_ : w.script ≠ some [] := by simpa [opened.scriptRead] using opened.script
  rw [main_ending opened.argument opened.clears input script_, World.valueRun, opened.scriptRead, opened.input]

/-! ## The loop -/

section Loop

variable {vs : List DerivedStruct} {reading : Reading} {host : Host σ}

theorem World.loop_result (reads : FileReads build (w.lexer text) vs reading) (host : Host σ) :
    reading.Result (forM vs (Values.generate w.js w.writes) (host, 0)) (w.loop build text host) :=
  @FileReads.result _ build (.start (w.lexer text)) vs reading reads _ _

theorem World.loop_unread (reads : FileReads build (w.lexer text) vs reading)
    (unread : ¬ AllRead (w.js.fileOutcomes vs host.js)) : w.loop build text host = .error .nullPointer := by
  have result := World.loop_result reads host
  obtain ⟨read, -⟩ | ⟨-, run⟩ := @generateFile_end _ _ w.js w.writes vs (host, 0)
  · exact absurd read unread
  · rw [run] at result
    exact result

theorem World.loop_stuck (reads : FileReads build (w.lexer text) vs .stuck)
    (read : AllRead (w.js.fileOutcomes vs host.js)) : w.loop build text host = .error .assertFailed := by
  have result := World.loop_result reads host
  obtain ⟨-, w', run⟩ | ⟨unread, -⟩ := @generateFile_end _ _ w.js w.writes vs (host, 0)
  · rw [run] at result
    exact result
  · exact absurd read unread

theorem World.loop_whole (reads : FileReads build (w.lexer text) vs .whole)
    (read : AllRead (w.js.fileOutcomes vs host.js)) : ∃ lex host', w.loop build text host =
      .ok ((), lex, (host', ((w.js.fileOutcomes vs host.js).map fun os => (codes os).length - 1).sum)) ∧
      host'.output = host.output ++ writtenText w.writes host.appends (w.js.fileOutcomes vs host.js) := by
  have result := World.loop_result reads host
  obtain ⟨-, ⟨host', leaked⟩, run⟩ | ⟨unread, -⟩ := @generateFile_end _ _ w.js w.writes vs (host, 0)
  · obtain ⟨written, -, lost⟩ := generateFile_ok vs run
    rw [run] at result
    obtain ⟨lex, loop⟩ := result
    rw [zero_add] at lost
    exact ⟨lex, host', lost ▸ loop, written⟩
  · exact absurd read unread

end Loop

/-! ## The theorem -/

/-- The program ends in each of these ways where they apply. -/
theorem World.Ends.run (ends : w.Ends build output r) : ending (main build w (w.start output)) = r := by
  cases ends with
  | refused refuses =>
    rw [main_refused refuses]
    rfl
  | emptyFile argument clears empty =>
    obtain ⟨inputFile, argument⟩ := Option.ne_none_iff_exists'.mp argument
    rw [main_emptyFile argument clears empty]
    rfl
  | noScript argument clears input script =>
    rw [main_ending argument clears input (by simp [script]), World.valueRun, script]
    rfl
  | noInput argument clears input scriptRead script_ =>
    obtain ⟨inputFile, argument⟩ := Option.ne_none_iff_exists'.mp argument
    rw [main_ending argument clears (by simp [input]) (by simpa [scriptRead] using script_), World.valueRun, scriptRead, input]
    rfl
  | unread opened reads unread =>
    rw [opened.ending, @World.loop_unread _ _ _ _ _ _ _ ⟨_, _, _⟩ reads unread]
    rfl
  | stuck opened reads read =>
    rw [opened.ending, @World.loop_stuck _ _ _ _ _ _ ⟨_, _, _⟩ reads read]
    rfl
  | leaked opened reads read checks twice =>
    obtain ⟨lex, host, loop, -⟩ := @World.loop_whole _ _ _ _ _ _ ⟨_, w.firstLine _, 1⟩ reads read
    rw [opened.ending, loop, checkedEnd, if_pos ⟨checks, lost_ne_zero_iff.mpr twice⟩]
    rfl
  | done opened reads read passes =>
    obtain ⟨lex, host, loop, written⟩ := @World.loop_whole _ _ _ _ _ _ ⟨_, w.firstLine _, 1⟩ reads read
    rw [opened.ending, loop, checkedEnd, if_neg fun both => passes both.1 (lost_ne_zero_iff.mp both.2)]
    exact congrArg (fun text => Except.ok (0, text)) written

/-- One of them always applies. -/
theorem World.ends_exists (build : Build) (w : World σ ι) (output : Bytes) : ∃ r, w.Ends build output r := by
  cases argument : w.inputFile? with
  | none => exact ⟨_, .refused (.inl argument)⟩
  | some inputFile =>
    have argument_ : w.inputFile? ≠ none := by simp [argument]
    cases clears : w.clears with
    | false => exact ⟨_, .refused (.inr clears)⟩
    | true =>
      by_cases empty : w.input = some [] ∨ w.script = some []
      · exact ⟨_, .emptyFile argument_ clears empty⟩
      · obtain ⟨input_, script_⟩ := not_or.mp empty
        cases scriptRead : w.script with
        | none => exact ⟨_, .noScript argument clears input_ scriptRead⟩
        | some script =>
          rw [scriptRead] at script_
          have script_ : script ≠ [] := fun empty => script_ (congrArg some empty)
          cases input : w.input with
          | none => exact ⟨_, .noInput argument_ clears input scriptRead script_⟩
          | some text =>
            rw [input] at input_
            have opened : w.Opened inputFile text script :=
              ⟨argument, clears, input, fun empty => input_ (congrArg some empty), scriptRead, script_⟩
            obtain ⟨vs, reading, reads⟩ := fileReads_exists build (w.lexer text)
            by_cases read : AllRead (w.outcomesOf script vs)
            · cases reading with
              | stuck => exact ⟨_, .stuck opened reads read⟩
              | whole =>
                by_cases passes : build = .assertions → ¬ ∃ os ∈ w.outcomesOf script vs, 1 < (codes os).length
                · exact ⟨_, .done opened reads read passes⟩
                · obtain ⟨checks, twice⟩ := Classical.not_imp.mp passes
                  exact ⟨_, .leaked opened reads read checks (not_not.mp twice)⟩
            · exact ⟨_, .unread opened reads read⟩

/-- In both builds and on any files, `main` ends as `World.Ends` says, and in no other way. -/
theorem main_ends_iff (build : Build) (w : World σ ι) (output : Bytes) (r : Except Fault (Int × Bytes)) :
    ending (main build w (w.start output)) = r ↔ w.Ends build output r := by
  constructor
  · intro run
    obtain ⟨r', ends⟩ := w.ends_exists build output
    obtain rfl := ends.run.symm.trans run
    exact ends
  · exact World.Ends.run

end Runs

end MoeToolchain
