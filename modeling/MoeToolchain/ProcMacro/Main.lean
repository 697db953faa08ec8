import MoeToolchain.ProcMacro.Files
import MoeToolchain.ProcMacro.Generate

/-!
# `main`

`mainToCheck` is `main` up to the leak check at its end; `World` is everything outside
the program: the files, the script engine, and the tokens that the lexer makes of a text.

Main results, for every run that gets to the leak check:

* `generated_text_iff`: when the output file has the code of every handler.
* `leak_check_iff`: when the counters are equal.
-/

namespace MoeToolchain
set_option autoImplicit false
open Lib

/-- What a run of the program meets outside of it. A file that cannot be opened is `none`. -/
structure World (σ ι : Type) where
  argv : List Bytes
  js : Js σ ι
  /-- The engine after `JS_NewContext`. -/
  engine : σ
  /-- Whether the output file can be opened to clear it, and what the `n`-th attempt to append comes to. -/
  clears : Bool
  writes : Nat → Append
  input : Option Bytes
  script : Option Bytes
  lexer : Bytes → List Token

/-- Where `main` gets to: an `EXIT_FAILURE`, or the leak check. -/
inductive Exit
  | failure
  | check
deriving DecidableEq, Repr

section Source

variable {σ ι : Type}

/-- `read_file`; the size of a file fits an `int`. -/
def readFile (contents : Option Bytes) : C Mem Ptr :=
  match contents with
  | none => pure none
  | some text => do
    let str ← moeStringAlloc none text.length
    let buffer ← moeStringGet (some str)
    let data ← loadAs Block.asChars (some buffer)
    -- fread
    storeBlock buffer (.chars (text ++ data.drop text.length))
    pure (some str)

/-- The part of a path after the last `c`. -/
def afterLast (c : UInt8) (path : Bytes) : Bytes := (path.reverse.takeWhile (· != c)).reverse

def baseName (path : Bytes) : Bytes :=
  let path := cString path
  if 47 ∈ path then afterLast 47 path
  else if 92 ∈ path then afterLast 92 path
  else path

def extractBaseFilename (path : Bytes) : C Mem Addr := moeStringAlloc (some (baseName path)) 0

/-- `#include "header"` and a newline. -/
def includeLine (header : Bytes) : Bytes := bytesOf "#include \"" ++ header ++ bytesOf "\"\n"

def appendIncludeDirective (writes : Nat → Append) (header : Bytes) : C (Host σ) Unit := fun host =>
  .ok ((), host.append writes (includeLine header))

/-- `clear_file`, when the file can be opened. -/
def clearFile : C (Host σ) Unit := fun host => .ok ((), { host with output := [] })

/-- The output file with its first line. -/
def startOutput (w : World σ ι) (inputFile : Bytes) : C (St × Host σ) Unit := do
  onRest clearFile
  let inputBase ← onSt (onMem (extractBaseFilename inputFile))
  let _ ← onSt (onMem (moeStringRead (some inputBase)))
  let header ← onSt (onMem (moeStringRead (some inputBase)))
  onRest (appendIncludeDirective w.writes header)
  onSt (onMem (moeStringFree (some inputBase)))

/-- 1 if the script cannot be read. -/
def loadProcMacroScripts (w : World σ ι) : C (St × Host σ) Int := do
  let script ← onSt (onMem (readFile w.script))
  match script with
  | none => pure 1
  | some str => do
    let _ ← onSt (onMem (moeStringRead (some str)))
    let text ← onSt (onMem (readString str))
    -- an exception is printed, and that is all
    let _ ← onRest (onJs (w.js.eval text))
    onSt (onMem (moeStringFree (some str)))
    pure 0

/-- `stb_c_lexer_init` on the whole text. -/
def initLexer (build : Build) (w : World σ ι) (inputStr : Ptr) (stringStore : Addr) : C (St × Host σ) Unit := do
  let str ← onSt (onMem (moeAssertNonNull build inputStr))
  let text ← onSt (onMem (readString str))
  let _ ← onSt (onMem (moeStringGet (some stringStore)))
  onSt (onLex (set (StbLexer.start (w.lexer text))))

/-- From the lexer to the end of the token loop. -/
def processTokens (build : Build) (w : World σ ι) (inputStr : Ptr) : C (St × Host σ) Unit := do
  let stringStore ← onSt (onMem (moeStringAlloc none 1024))
  initLexer build w inputStr stringStore
  let lex ← onSt (onLex get)
  tokenLoop build (generate w.js w.writes) (lex.rest.length + 1)
  onSt (onMem (moeStringFree (some stringStore)))

/-- The rest of `main` once the scripts are loaded. -/
def mainWithScripts (build : Build) (w : World σ ι) (inputStr : Ptr) (jsRuntime : Addr) :
    C (St × Host σ) Exit := do
  processTokens build w inputStr
  onSt (onMem (moeFree (some jsRuntime)))
  onSt (onMem (moeStringFree inputStr))
  pure .check

/-- The rest of `main` once the input is read. -/
def mainWithInput (build : Build) (w : World σ ι) (inputStr : Ptr) : C (St × Host σ) Exit := do
  let jsRuntime ← onSt (onMem (moeMalloc .jsRuntime))
  let failed ← loadProcMacroScripts w
  if failed ≠ 0 then pure .failure
  else mainWithScripts build w inputStr jsRuntime

/-- The rest of `main` once the output file is cleared. -/
def mainWithOutput (build : Build) (w : World σ ι) (inputFile : Bytes) : C (St × Host σ) Exit := do
  startOutput w inputFile
  let inputStr ← onSt (onMem (readFile w.input))
  mainWithInput build w inputStr

/-- `argv[1]`, unless `argc < 4`. -/
def World.inputFile? (w : World σ ι) : Option Bytes :=
  match w.argv with
  | _ :: inputFile :: _ :: _ :: _ => some inputFile
  | _ => none

/-- `main` up to the leak check. -/
def mainToCheck (build : Build) (w : World σ ι) : C (St × Host σ) Exit :=
  match w.inputFile? with
  | none => pure .failure
  | some inputFile => if w.clears then mainWithOutput build w inputFile else pure .failure

/-- The exit code of the program. -/
def main (build : Build) (w : World σ ι) : C (St × Host σ) Int := do
  let exit ← mainToCheck build w
  match exit with
  | .failure => pure 1
  | .check => do
    onSt (onMem (moeCheckMemoryLeak build))
    pure 0

/-- Before the first statement, with some output file. -/
def World.start (w : World σ ι) (output : Bytes) : St × Host σ :=
  (⟨.start [], Mem.empty⟩, ⟨w.engine, output, 0⟩)

end Source

/-! ## What `main` owns -/

section Runs

variable {σ ι : Type} {m₀ mem : Mem} {f g : Footprint} {build : Build} {w : World σ ι} {lex : StbLexer}
  {host : Host σ} {text : Bytes}

theorem readFile_owns (owned : Owns m₀ mem f) (nonempty : text ≠ []) :
    ∃ l mem', readFile (some text) mem = .ok (some l.handle, mem') ∧ Owns m₀ mem' (strBlocks l text + f) := by
  have content : stringContent none text.length = some (List.replicate text.length 0) := by
    rw [stringContent, if_neg (by simpa using nonempty)]
  obtain ⟨l, mem1, alloc, owned1⟩ := moeStringAlloc_owns owned content
  have get := moeStringGet_owns owned1 rfl
  have data : (l.data, Block.chars (List.replicate text.length 0 ++ [0])) ∈
      strBlocks l (List.replicate text.length 0) + f := by simp [strBlocks]
  obtain ⟨mem2, store, owned2⟩ := storeBlock_owns owned1
    (by rw [strBlocks]; abel : _ = {(l.data, Block.chars (List.replicate text.length 0 ++ [0]))} +
      ({(l.handle, .string ⟨l.internal, (List.replicate text.length (0 : UInt8)).length,
          (List.replicate text.length (0 : UInt8)).length + 1⟩)} +
        ({(l.internal, .stringInternal ⟨l.data, 1⟩)} + f))) (.chars (text ++ [0]))
  refine ⟨l, mem2, ?_, ?_⟩
  · rw [readFile, Exec.bind_ok alloc, Exec.bind_ok get, Exec.bind_ok (loadAs_owns Block.asChars owned1 data rfl)]
    have rest : (List.replicate text.length (0 : UInt8) ++ [0]).drop text.length = [0] := by
      rw [List.drop_append_of_le_length (by simp)]
      simp
    rw [rest, Exec.bind_ok store]
    rfl
  · convert owned2 using 1
    rw [strBlocks, List.length_replicate]
    abel

/-- Clearing the output file and writing its first line takes no memory. -/
theorem startOutput_run (owned : Owns m₀ mem f) (inputFile : Bytes) :
    ∃ mem', startOutput w inputFile (⟨lex, mem⟩, host) = .ok ((), (⟨lex, mem'⟩,
        { host with
          output := (w.writes host.appends).kept (includeLine (cString (baseName inputFile)))
          appends := host.appends + 1 })) ∧ Owns m₀ mem' f := by
  obtain ⟨l, mem1, alloc, owned1⟩ := moeStringAlloc_owns owned (stringContent_cString (baseName inputFile))
  have read := moeStringRead_owns owned1 rfl
  rw [cString_of_no_nul (no_nul_cString _)] at read
  obtain ⟨mem2, free, owned2⟩ := moeStringFree_owns owned1 rfl
  refine ⟨mem2, ?_, owned2⟩
  have clear : (onRest clearFile : C (St × Host σ) Unit) (⟨lex, mem⟩, host) =
      .ok ((), (⟨lex, mem⟩, { host with output := [] })) := rfl
  have append : (onRest (appendIncludeDirective w.writes (cString (baseName inputFile))) : C (St × Host σ) Unit)
      (⟨lex, mem1⟩, { host with output := [] }) = .ok ((), (⟨lex, mem1⟩,
        { host with
          output := (w.writes host.appends).kept (includeLine (cString (baseName inputFile)))
          appends := host.appends + 1 })) := rfl
  rw [startOutput, Exec.bind_ok clear, extractBaseFilename, Exec.bind_ok (onMem_ok alloc), Exec.bind_ok (onMem_ok read),
    Exec.bind_ok (onMem_ok read), Exec.bind_ok append, onMem_ok free]

theorem loadProcMacroScripts_run (owned : Owns m₀ mem f) (script : w.script = some text) (nonempty : text ≠ []) :
    ∃ mem', loadProcMacroScripts w (⟨lex, mem⟩, host) =
        .ok (0, (⟨lex, mem'⟩, { host with js := (w.js.eval text host.js).2 })) ∧ Owns m₀ mem' f := by
  obtain ⟨l, mem1, open_, owned1⟩ := readFile_owns owned nonempty
  have print := moeStringRead_owns owned1 rfl
  have read := readString_owns owned1 rfl
  obtain ⟨mem2, free, owned2⟩ := moeStringFree_owns owned1 rfl
  have eval : (onRest (onJs (w.js.eval text)) : C (St × Host σ) Bool) (⟨lex, mem1⟩, host) =
      .ok ((w.js.eval text host.js).1, (⟨lex, mem1⟩, { host with js := (w.js.eval text host.js).2 })) := rfl
  refine ⟨mem2, ?_, owned2⟩
  rw [loadProcMacroScripts, script, Exec.bind_ok (onMem_ok open_)]
  simp only
  rw [Exec.bind_ok (onMem_ok print), Exec.bind_ok (onMem_ok read), Exec.bind_ok eval,
    Exec.bind_ok (onMem_ok free)]
  rfl

/-- The token loop of `main` on values. -/
def World.loop (w : World σ ι) (build : Build) (text : Bytes) (host : Host σ) :
    Except Fault (Unit × StbLexer × Values.Run σ) :=
  Values.tokenLoop build (Values.forFound (Values.generate w.js w.writes)) ((w.lexer text).length + 1)
    (.start (w.lexer text), (host, 0))

/-- `r` is how `loop` ended, with the value `a`, the blocks `f` and the strings that were lost. -/
def LoopEnd {α : Type} (m₀ : Mem) (f : Footprint) (a : α) (loop : Except Fault (Unit × StbLexer × Values.Run σ))
    (r : Except Fault (α × (St × Host σ))) : Prop :=
  match loop with
  | .error e => r = .error e
  | .ok (_, lex', host', leaked) => ∃ mem' lost, r = .ok (a, (⟨lex', mem'⟩, host')) ∧
      Owns m₀ mem' (f + lost) ∧ Multiset.card lost = 3 * leaked

theorem LoopEnd.of_ok {α : Type} {a a' : α} {c : St × Host σ}
    {loop : Except Fault (Unit × StbLexer × Values.Run σ)} (ends : LoopEnd m₀ f a loop (.ok (a', c))) :
    ∃ leaked lost, loop = .ok ((), c.1.lex, (c.2, leaked)) ∧ Owns m₀ c.1.mem (f + lost) ∧
      Multiset.card lost = 3 * leaked := by
  cases loop with
  | error e => cases ends
  | ok r =>
    obtain ⟨_, lex', host', leaked⟩ := r
    obtain ⟨mem', lost, same, owned, card⟩ := ends
    cases same
    exact ⟨leaked, lost, rfl, owned, card⟩

/-- The token loop does on the memory what it does on values, whatever the string store holds. -/
theorem tokenLoop_run {store : StringAt} {b : Bytes} (owned : Owns m₀ mem (strBlocks store b + f)) :
    LoopEnd m₀ f () (w.loop build text host)
      ((tokenLoop build (generate w.js w.writes) ((w.lexer text).length + 1) >>= fun _ =>
        onSt (onMem (moeStringFree (some store.handle)))) (⟨.start (w.lexer text), mem⟩, host)) := by
  let base := strBlocks store b + f
  have refines := @tokenLoop_refines _ _ m₀ (LostBlocks base) build _ _
    (@generate_refines _ _ w.js w.writes _ _) ((w.lexer text).length + 1)
    (⟨.start (w.lexer text), mem⟩, host) (.start (w.lexer text), (host, 0))
    ⟨rfl, base, ⟨rfl, 0, (add_zero _).symm, rfl⟩, owned⟩
  cases values : w.loop build text host with
  | error e =>
    unfold World.loop at values
    rw [values] at refines
    exact Exec.bind_error refines
  | ok r =>
    unfold World.loop at values
    rw [values] at refines
    obtain ⟨_, ⟨⟨lex2, mem2⟩, host2⟩, loop, same, f2, ⟨host', lost, split, card⟩, owned2⟩ := refines
    obtain ⟨_, lex', host3, leaked⟩ := r
    simp only at same host' owned2
    subst same host'
    have blocks : f2 = strBlocks store b + (f + lost) := by
      rw [split]
      simp only [base]
      abel
    obtain ⟨mem3, free, owned3⟩ := moeStringFree_owns owned2 blocks
    refine ⟨mem3, lost, ?_, owned3, card⟩
    rw [Exec.bind_ok loop, onMem_ok free]

theorem initLexer_run {l store : StringAt} {b : Bytes}
    (owned : Owns m₀ mem (strBlocks store b + (strBlocks l text + f))) :
    initLexer build w (some l.handle) store.handle (⟨lex, mem⟩, host) =
      .ok ((), (⟨.start (w.lexer text), mem⟩, host)) := by
  have input := @onMem_ok _ _ _ lex _ _ host _ (readString_owns owned (add_left_comm _ _ _))
  have buffer := @onMem_ok _ _ _ lex _ _ host _ (moeStringGet_owns owned rfl)
  have str : onSt (onMem (pure l.handle : C Mem Addr)) ((⟨lex, mem⟩, host) : St × Host σ) =
      .ok (l.handle, (⟨lex, mem⟩, host)) := rfl
  rw [initLexer, moeAssertNonNull_some, Exec.bind_ok str, Exec.bind_ok input, Exec.bind_ok buffer]
  rfl

theorem processTokens_run {l : StringAt} (owned : Owns m₀ mem (strBlocks l text + f)) :
    LoopEnd m₀ (strBlocks l text + f) () (w.loop build text host)
      (processTokens build w (some l.handle) (⟨lex, mem⟩, host)) := by
  obtain ⟨store, mem1, alloc, owned1⟩ := moeStringAlloc_owns owned
    (rfl : stringContent none 1024 = some (List.replicate 1024 0))
  rw [processTokens, Exec.bind_ok (onMem_ok alloc), Exec.bind_ok (initLexer_run owned1),
    Exec.bind_ok (onLex_ok (Exec.get_apply (StbLexer.start (w.lexer text)))),
    show (StbLexer.start (w.lexer text)).rest = w.lexer text from rfl]
  exact tokenLoop_run owned1

/-- The runtime and the input are freed behind the loop. -/
theorem LoopEnd.frees {l : StringAt} {a : Addr} {loop : Except Fault (Unit × StbLexer × Values.Run σ)}
    {x : C (St × Host σ) Unit} {s : St × Host σ}
    (ends : LoopEnd m₀ (strBlocks l text + ({(a, .jsRuntime)} + f)) () loop (x s)) :
    LoopEnd m₀ f .check loop ((do
      x
      onSt (onMem (moeFree (some a)))
      onSt (onMem (moeStringFree (some l.handle)))
      pure .check : C (St × Host σ) Exit) s) := by
  cases loop with
  | error e => exact Exec.bind_error ends
  | ok r =>
    obtain ⟨_, lex', host', leaked⟩ := r
    obtain ⟨mem1, lost, tokens, owned1, card⟩ := ends
    obtain ⟨mem2, free, owned2⟩ := moeFree_owns owned1
      (by abel : _ = {(a, Block.jsRuntime)} + (strBlocks l text + (f + lost)))
    obtain ⟨mem3, free', owned3⟩ := moeStringFree_owns owned2 rfl
    refine ⟨mem3, lost, ?_, owned3, card⟩
    rw [Exec.bind_ok tokens, Exec.bind_ok (onMem_ok free), Exec.bind_ok (onMem_ok free')]
    rfl

theorem mainWithScripts_run {l : StringAt} {a : Addr}
    (owned : Owns m₀ mem (strBlocks l text + ({(a, .jsRuntime)} + f))) :
    LoopEnd m₀ f .check (w.loop build text host)
      (mainWithScripts build w (some l.handle) a (⟨lex, mem⟩, host)) :=
  (processTokens_run owned).frees

theorem mainWithInput_unread {p : Ptr} (script : w.script = none) :
    ∃ mem', mainWithInput build w p (⟨lex, mem⟩, host) = .ok (.failure, (⟨lex, mem'⟩, host)) := by
  have failed : ∀ mem1, loadProcMacroScripts w (⟨lex, mem1⟩, host) = .ok (1, (⟨lex, mem1⟩, host)) := by
    intro mem1
    rw [loadProcMacroScripts, script]
    rfl
  obtain ⟨a, mem1, alloc⟩ : ∃ a mem1, moeMalloc .jsRuntime mem = .ok (a, mem1) := ⟨_, _, rfl⟩
  refine ⟨mem1, ?_⟩
  rw [mainWithInput, Exec.bind_ok (onMem_ok alloc), Exec.bind_ok (failed mem1)]
  rfl

theorem mainWithInput_empty {p : Ptr} (script : w.script = some []) :
    mainWithInput build w p (⟨lex, mem⟩, host) = .error .nullPointer := by
  have failed : ∀ mem1, loadProcMacroScripts w (⟨lex, mem1⟩, host) = .error .nullPointer := by
    intro mem1
    rw [loadProcMacroScripts, script]
    rfl
  obtain ⟨a, mem1, alloc⟩ : ∃ a mem1, moeMalloc .jsRuntime mem = .ok (a, mem1) := ⟨_, _, rfl⟩
  rw [mainWithInput, Exec.bind_ok (onMem_ok alloc), Exec.bind_error (failed mem1)]

theorem mainWithInput_read {p : Ptr} (owned : Owns m₀ mem f) (script : w.script = some text) (nonempty : text ≠ []) :
    ∃ a mem', Owns m₀ mem' ({(a, .jsRuntime)} + f) ∧ mainWithInput build w p (⟨lex, mem⟩, host) =
      mainWithScripts build w p a (⟨lex, mem'⟩, { host with js := (w.js.eval text host.js).2 }) := by
  obtain ⟨a, mem1, alloc, owned1⟩ := moeMalloc_owns owned .jsRuntime
  obtain ⟨mem2, load, owned2⟩ := @loadProcMacroScripts_run _ _ _ _ _ w lex host _ owned1 script nonempty
  refine ⟨a, mem2, owned2, ?_⟩
  rw [mainWithInput, Exec.bind_ok (onMem_ok alloc), Exec.bind_ok load]
  rfl

/-- A run that gets to the leak check has read the script. -/
theorem mainWithInput_ok {p : Ptr} {c : St × Host σ} (owned : Owns m₀ mem f)
    (run : mainWithInput build w p (⟨lex, mem⟩, host) = .ok (.check, c)) :
    ∃ a script mem', w.script = some script ∧ Owns m₀ mem' ({(a, .jsRuntime)} + f) ∧
      mainWithScripts build w p a (⟨lex, mem'⟩, { host with js := (w.js.eval script host.js).2 }) =
        .ok (.check, c) := by
  cases script : w.script with
  | none =>
    obtain ⟨mem', failed⟩ := @mainWithInput_unread _ _ mem build w lex host p script
    rw [failed] at run
    cases run
  | some text =>
    by_cases empty : text = []
    · subst empty
      rw [mainWithInput_empty script] at run
      cases run
    · obtain ⟨a, mem', owned', same⟩ := @mainWithInput_read _ _ _ _ _ build w lex host _ p owned script empty
      rw [same] at run
      exact ⟨a, text, mem', rfl, owned', run⟩

/-- Without an input the lexer cannot be started. -/
theorem mainWithScripts_none {a : Addr} (owned : Owns m₀ mem f) :
    mainWithScripts build w none a (⟨lex, mem⟩, host) = .error build.nullFault := by
  obtain ⟨store, mem1, alloc, -⟩ := moeStringAlloc_owns owned
    (rfl : stringContent none 1024 = some (List.replicate 1024 0))
  have fails : processTokens build w none (⟨lex, mem⟩, host) = .error build.nullFault := by
    rw [processTokens, Exec.bind_ok (onMem_ok alloc)]
    rfl
  rw [mainWithScripts, Exec.bind_error fails]

theorem mainWithScripts_ok {l : StringAt} {a : Addr} {c : St × Host σ}
    (owned : Owns m₀ mem (strBlocks l text + ({(a, .jsRuntime)} + f)))
    (run : mainWithScripts build w (some l.handle) a (⟨lex, mem⟩, host) = .ok (.check, c)) :
    ∃ leaked lost, w.loop build text host = .ok ((), c.1.lex, (c.2, leaked)) ∧
      Owns m₀ c.1.mem (f + lost) ∧ Multiset.card lost = 3 * leaked := by
  have ends := @mainWithScripts_run _ _ _ _ _ build w lex host _ _ _ owned
  rw [run] at ends
  exact ends.of_ok

/-- The first line of the output file. -/
def World.firstLine (w : World σ ι) (inputFile : Bytes) : Bytes :=
  (w.writes 0).kept (includeLine (cString (baseName inputFile)))

/-- A run that gets to the leak check has read both files, and owns the lost strings only. -/
theorem mainWithOutput_ok {inputFile output : Bytes} {c : St × Host σ}
    (run : mainWithOutput build w inputFile (w.start output) = .ok (.check, c)) :
    ∃ text script leaked lost, w.input = some text ∧ w.script = some script ∧
      w.loop build text ⟨(w.js.eval script w.engine).2, w.firstLine inputFile, 1⟩ =
        .ok ((), c.1.lex, (c.2, leaked)) ∧
      Owns Mem.empty c.1.mem lost ∧ Multiset.card lost = 3 * leaked := by
  obtain ⟨mem1, start, owned1⟩ := @startOutput_run _ _ _ _ _ w (.start []) ⟨w.engine, output, 0⟩
    (owns_refl Mem.empty) inputFile
  rw [mainWithOutput, World.start, Exec.bind_ok start] at run
  cases input : w.input with
  | none =>
    have read : readFile w.input mem1 = .ok (none, mem1) := by
      rw [input]
      rfl
    rw [Exec.bind_ok (onMem_ok read)] at run
    obtain ⟨a, script, mem2, -, owned2, run⟩ := mainWithInput_ok owned1 run
    rw [mainWithScripts_none owned2] at run
    cases run
  | some text =>
    by_cases empty : text = []
    · subst empty
      have read : readFile w.input mem1 = .error .nullPointer := by
        rw [input]
        rfl
      rw [Exec.bind_error (onMem_error read)] at run
      cases run
    · obtain ⟨l, mem2, read, owned2⟩ := readFile_owns owned1 empty
      rw [← input] at read
      rw [Exec.bind_ok (onMem_ok read)] at run
      obtain ⟨a, script, mem3, script_, owned3, run⟩ := mainWithInput_ok owned2 run
      rw [add_left_comm] at owned3
      obtain ⟨leaked, lost, loop, owned4, card⟩ := mainWithScripts_ok owned3 run
      rw [zero_add] at owned4
      exact ⟨text, script, leaked, lost, rfl, script_, loop, owned4, card⟩

/-- The outcomes of the handlers for each struct that was found. -/
def World.outcomes (w : World σ ι) (script : Bytes) (calls : List Call) : List (List Outcome) :=
  w.js.fileOutcomes (calls.filterMap Call.result) (w.js.eval script w.engine).2

/-- What a run of `main` has done when it gets to the leak check. -/
structure Checked (build : Build) (w : World σ ι) (c : St × Host σ) (inputFile text script : Bytes)
    (calls : List Call) : Prop where
  argument : w.inputFile? = some inputFile
  inputRead : w.input = some text
  scriptRead : w.script = some script
  found : ∃ st, parseFile build (.start (w.lexer text)) Mem.empty = .ok ((), st, calls)
  output : c.2.output = w.firstLine inputFile ++ writtenText w.writes 1 (w.outcomes script calls)
  balance : c.1.mem.stats.totalAllocated = c.1.mem.stats.totalFreed +
    3 * ((w.outcomes script calls).map fun os => (codes os).length - 1).sum

/-- Where the lexer is then, and how often the output file was opened to append. -/
structure Ended (build : Build) (w : World σ ι) (c : St × Host σ) (text script : Bytes) (calls : List Call) :
    Prop where
  lexer : Values.parseFile build (.start (w.lexer text)) = .ok ((), c.1.lex, calls)
  appends : c.2.appends = 1 + ((w.outcomes script calls).map fun os => attempts (codes os)).sum

theorem mainToCheck_ok {output : Bytes} {c : St × Host σ}
    (run : mainToCheck build w (w.start output) = .ok (.check, c)) :
    ∃ inputFile text script calls,
      Checked build w c inputFile text script calls ∧ Ended build w c text script calls := by
  rw [mainToCheck] at run
  cases argument : w.inputFile? with
  | none =>
    rw [argument] at run
    cases run
  | some inputFile =>
    rw [argument] at run
    simp only at run
    split at run
    · obtain ⟨text, script, leaked, lost, input, script_, loop, owned, card⟩ := mainWithOutput_ok run
      obtain ⟨calls, record, steps⟩ := tokenLoop_found _ [] loop
      obtain ⟨mem, found, -⟩ := parseFile_spec record Mem.empty
      obtain ⟨output, appends, count⟩ := generateFile_ok _ steps
      have balance := owned.balance
      simp only [Nat.zero_add] at count
      rw [card, count] at balance
      simp only [Mem.empty, Nat.zero_add, Nat.add_zero] at balance
      exact ⟨inputFile, text, script, calls,
        ⟨argument, input, script_, ⟨_, found⟩, output, balance⟩, ⟨record, appends⟩⟩
    · cases run

theorem Checked.equal_iff {c : St × Host σ} {inputFile text script : Bytes} {calls : List Call}
    (checked : Checked build w c inputFile text script calls) :
    c.1.mem.stats.totalAllocated = c.1.mem.stats.totalFreed ↔
      ∀ os ∈ w.outcomes script calls, (codes os).length ≤ 1 := by
  have none_ : ((w.outcomes script calls).map fun os => (codes os).length - 1).sum = 0 ↔
      ∀ os ∈ w.outcomes script calls, (codes os).length ≤ 1 := by
    rw [List.sum_eq_zero_iff_forall_eq_nat]
    simp only [List.mem_map, forall_exists_index, and_imp, forall_apply_eq_imp_iff₂, Nat.sub_eq_zero_iff_le]
  rw [← none_]
  have balance := checked.balance
  omega

end Runs

/-! ## The output file and the leak check -/

section Results

variable {σ ι : Type}

/-- In a run that gets to the leak check, the output file has the code of all handlers
exactly when for each struct only the last code has any bytes, and all of it is appended. -/
theorem generated_text_iff (build : Build) (w : World σ ι) (output : Bytes) (c : St × Host σ)
    (run : mainToCheck build w (w.start output) = .ok (.check, c)) :
    ∃ inputFile text script calls, Checked build w c inputFile text script calls ∧
      (c.2.output = w.firstLine inputFile ++ wholeText (w.outcomes script calls) ↔
        KeepsAll w.writes 1 (w.outcomes script calls)) := by
  obtain ⟨inputFile, text, script, calls, checked, -⟩ := mainToCheck_ok run
  refine ⟨inputFile, text, script, calls, checked, ?_⟩
  rw [checked.output, List.append_cancel_left_eq]
  exact (writtenText_iff _ 1).2

/-- In a run that gets to the leak check, the counters are equal exactly when for each
struct at most one handler returned code. -/
theorem leak_check_iff (build : Build) (w : World σ ι) (output : Bytes) (c : St × Host σ)
    (run : mainToCheck build w (w.start output) = .ok (.check, c)) :
    ∃ inputFile text script calls, Checked build w c inputFile text script calls ∧
      (c.1.mem.stats.totalAllocated = c.1.mem.stats.totalFreed ↔
        ∀ os ∈ w.outcomes script calls, (codes os).length ≤ 1) := by
  obtain ⟨inputFile, text, script, calls, checked, -⟩ := mainToCheck_ok run
  exact ⟨inputFile, text, script, calls, checked, checked.equal_iff⟩

end Results

/-! ## Two handlers on one struct -/

/-- A script with one function for every name, which returns `x`. -/
def answerX : Js Unit Unit where
  eval _ s := (false, s)
  newArray _ s := ((), s)
  isFunction _ s := (true, s)
  call _ _ _ s := (.string (bytesOf "x"), s)

/-- The program on a file with these tokens. -/
def worldOf (tokens : List Token) : World Unit Unit where
  argv := [bytesOf "moe", bytesOf "a.h", bytesOf "a.c", bytesOf "s.js"]
  js := answerX
  engine := ()
  clears := true
  writes _ := .whole
  input := some (bytesOf "-")
  script := some (bytesOf "-")
  lexer _ := tokens

/-- `MOE_PROC_MACRO_DERIVES(B, h); MOE_PROC_MACRO_DERIVES(B, h); struct B { };` -/
def twiceB : DeriveBlock := { blockB with more := [handlerH] }

theorem exists_of_exit {σ : Type} {x : C σ Exit} {s : σ} {p : σ → Prop} [DecidablePred p]
    (ends : (x s).toOption.any (fun r => r.1 == .check && p r.2) = true) :
    ∃ c, x s = .ok (.check, c) ∧ p c := by
  cases run : x s with
  | error e =>
    rw [run] at ends
    cases ends
  | ok r =>
    obtain ⟨exit, c⟩ := r
    rw [run] at ends
    obtain ⟨check, holds⟩ := Bool.and_eq_true_iff.mp ends
    obtain rfl : exit = .check := eq_of_beq check
    exact ⟨c, rfl, of_decide_eq_true holds⟩

/-- The theorem at a file with the block of `B`. -/
theorem generated_text_iff_blockB :
    ∃ c inputFile text script calls,
      mainToCheck .assertions (worldOf blockB.tokens) ((worldOf blockB.tokens).start []) = .ok (.check, c) ∧
      Checked .assertions (worldOf blockB.tokens) c inputFile text script calls ∧
      (c.2.output = (worldOf blockB.tokens).firstLine inputFile ++
          wholeText ((worldOf blockB.tokens).outcomes script calls) ↔
        KeepsAll (worldOf blockB.tokens).writes 1 ((worldOf blockB.tokens).outcomes script calls)) := by
  obtain ⟨c, run, -⟩ := exists_of_exit (x := mainToCheck .assertions (worldOf blockB.tokens))
    (s := (worldOf blockB.tokens).start []) (p := fun _ => True) (by decide +kernel)
  obtain ⟨inputFile, text, script, calls, checked, iff_⟩ :=
    generated_text_iff .assertions (worldOf blockB.tokens) [] c run
  exact ⟨c, inputFile, text, script, calls, run, checked, iff_⟩

/-- The two handlers of `B` both return `x`, and one `x` gets into the file. -/
theorem twiceB_loses_text :
    ∃ c inputFile text script calls,
      mainToCheck .assertions (worldOf twiceB.tokens) ((worldOf twiceB.tokens).start []) = .ok (.check, c) ∧
      Checked .assertions (worldOf twiceB.tokens) c inputFile text script calls ∧
      wholeText ((worldOf twiceB.tokens).outcomes script calls) = bytesOf "xx" ∧
      c.2.output = (worldOf twiceB.tokens).firstLine inputFile ++ bytesOf "x" := by
  obtain ⟨c, run, output⟩ := exists_of_exit (x := mainToCheck .assertions (worldOf twiceB.tokens))
    (s := (worldOf twiceB.tokens).start [])
    (p := fun c => c.2.output = (worldOf twiceB.tokens).firstLine (bytesOf "a.h") ++ bytesOf "x") (by decide +kernel)
  obtain ⟨inputFile, text, script, calls, checked, -⟩ := mainToCheck_ok run
  have argument := checked.argument
  cases argument
  have found : (Values.parseFile .assertions (.start twiceB.tokens)).toOption.map
      (fun r => r.2.2.filterMap Call.result) = some [twiceB.value] := by decide +kernel
  obtain ⟨st, parse⟩ := checked.found
  have structs : calls.filterMap Call.result = [twiceB.value] := by
    rw [show (worldOf twiceB.tokens).lexer text = twiceB.tokens from rfl] at parse
    rw [parseFile_values parse] at found
    exact Option.some.inj found
  refine ⟨c, _, text, script, calls, run, checked, ?_, output⟩
  rw [World.outcomes, structs]
  show wholeText (answerX.fileOutcomes [twiceB.value] ()) = bytesOf "xx"
  decide

/-- The theorem at a file with the block of `B`. -/
theorem leak_check_iff_blockB :
    ∃ c inputFile text script calls,
      mainToCheck .assertions (worldOf blockB.tokens) ((worldOf blockB.tokens).start []) = .ok (.check, c) ∧
      Checked .assertions (worldOf blockB.tokens) c inputFile text script calls ∧
      (c.1.mem.stats.totalAllocated = c.1.mem.stats.totalFreed ↔
        ∀ os ∈ (worldOf blockB.tokens).outcomes script calls, (codes os).length ≤ 1) := by
  obtain ⟨c, run, -⟩ := exists_of_exit (x := mainToCheck .assertions (worldOf blockB.tokens))
    (s := (worldOf blockB.tokens).start []) (p := fun _ => True) (by decide +kernel)
  obtain ⟨inputFile, text, script, calls, checked, iff_⟩ :=
    leak_check_iff .assertions (worldOf blockB.tokens) [] c run
  exact ⟨c, inputFile, text, script, calls, run, checked, iff_⟩

/-- With two handlers for `B` a string is never freed, and the check fails. -/
theorem twiceB_leaks :
    (∃ c, mainToCheck .assertions (worldOf twiceB.tokens) ((worldOf twiceB.tokens).start []) = .ok (.check, c) ∧
      c.1.mem.stats.totalAllocated = c.1.mem.stats.totalFreed + 3) ∧
    main .assertions (worldOf twiceB.tokens) ((worldOf twiceB.tokens).start []) = .error .assertFailed := by
  obtain ⟨c, run, leak⟩ := exists_of_exit (x := mainToCheck .assertions (worldOf twiceB.tokens))
    (s := (worldOf twiceB.tokens).start [])
    (p := fun c => c.1.mem.stats.totalAllocated = c.1.mem.stats.totalFreed + 3) (by decide +kernel)
  refine ⟨⟨c, run, leak⟩, ?_⟩
  rw [main, Exec.bind_ok run]
  have failed : moeCheckMemoryLeak .assertions c.1.mem = .error .assertFailed := by
    have unequal : ¬ c.1.mem.stats.totalAllocated = c.1.mem.stats.totalFreed := by omega
    rw [moeCheckMemoryLeak, moeAssert, bind_assoc, Exec.bind_ok (Exec.get_apply _), pure_bind]
    simp [unequal]
  have stops : onSt (onMem (moeCheckMemoryLeak .assertions)) c = .error .assertFailed := by
    obtain ⟨⟨lex, mem⟩, host⟩ := c
    exact onMem_error failed
  simp only
  rw [Exec.bind_error stops]

end MoeToolchain
