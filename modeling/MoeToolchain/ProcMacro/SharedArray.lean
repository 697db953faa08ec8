import MoeToolchain.ProcMacro.Main

/-!
# One array for all handlers of a struct

`main` builds the array of a struct once and passes it to each of its handlers. `Handlers`
are handlers without a state of their own, and `ByReference` is an engine that passes the
array itself, so that what a handler does to it is there for the next one.

* `generateItems_next`: what the loop over the derive items comes to call.
* `handler_outcomes`: what a handler comes to, in any two runs.
-/

namespace MoeToolchain
set_option autoImplicit false
open Lib

/-! ## The calls of a run -/

section Calls

variable {σ ι : Type} {js : Js σ ι} {array : ι} {structName h : Bytes} {st : σ} {before after : List Bytes}

/-- A handler is called in the engine that those before it leave behind. -/
theorem outcomes_at : (js.outcomes array structName (before ++ h :: after) st).1[before.length]? =
    some (js.outcome array structName h (js.outcomes array structName before st).2).1 := by
  induction before generalizing st with
  | nil => rfl
  | cons name before ih =>
    simp only [List.cons_append, List.length_cons, Js.outcomes, List.getElem?_cons_succ]
    exact ih

/-- Where the loop over the derive items has come to the item `i`, the call that it makes
next has the outcome at `i`. -/
theorem generateItems_next {m₀ mem : Mem} {f : Footprint} {s : StructAt} {v : DerivedStruct} {lex : StbLexer}
    {host : Host σ} {p : Ptr} {c : St × Host σ} {i : Nat} (owned : StructOwned m₀ f s v.handlers.length v mem)
    (here : i < v.handlers.length)
    (run : (List.range i).foldlM
      (fun output i => generateItem js array (some s.name.handle) ⟨s.items, i⟩ output) none (⟨lex, mem⟩, host) =
        .ok (p, c)) :
    (js.outcomes array (cString v.structName) (v.handlers.map cString) host.js).1[i]? =
      some (js.outcome array (cString v.structName) (cString v.handlers[i]) c.2.js).1 := by
  have refines := @generateItems_refines _ _ js m₀ f s v.handlers.length v lex array i (Nat.le_of_lt here)
    (⟨lex, mem⟩, host) (host, 0) ⟨rfl, rfl, 0, 0, ⟨rfl, rfl⟩, rfl, by simpa using owned⟩
  rw [run] at refines
  have engine : c.2.js =
      (js.outcomes array (cString v.structName) ((v.handlers.take i).map cString) host.js).2 := by
    cases values : ((v.handlers.take i).map cString).foldlM (Values.generateItem js array (cString v.structName)) none
        (host, 0) with
    | error e =>
      rw [values] at refines
      cases refines
    | ok r =>
      obtain ⟨text, w⟩ := r
      rw [values] at refines
      obtain ⟨q, c', same, -, host', -⟩ := refines
      cases same
      rw [host', (generateItems_ok _ values).1]
  have split : v.handlers.map cString = (v.handlers.take i).map cString ++
      cString v.handlers[i] :: (v.handlers.drop (i + 1)).map cString := by
    rw [← List.map_cons, ← List.map_append, List.getElem_cons_drop, List.take_append_drop]
  have length : ((v.handlers.take i).map cString).length = i := by simp [Nat.le_of_lt here]
  have at_ := @outcomes_at _ _ js array (cString v.structName) (cString v.handlers[i]) host.js
    ((v.handlers.take i).map cString) ((v.handlers.drop (i + 1)).map cString)
  rw [length] at at_
  rw [split, at_, engine]

/-- The states of the engine between two structs of a run: the script is evaluated, and some
structs have been dealt with. -/
inductive World.Between (w : World σ ι) : σ → Prop
  | evaluated {script : Bytes} (read : w.script = some script) : w.Between (w.js.eval script w.engine).2
  | struct {s : σ} (v : DerivedStruct) (before : w.Between s) : w.Between (w.js.structOutcomes v s).2

/-- A run on `w` comes to a struct that reads as `v`, and `o` is the outcome of its handler `i`. -/
def World.Calls (w : World σ ι) (v : DerivedStruct) (i : Nat) (o : Outcome) : Prop :=
  ∃ s, w.Between s ∧ (w.js.structOutcomes v s).1[i]? = some o

theorem fileOutcomes_calls {w : World σ ι} {vs : List DerivedStruct} {k i : Nat} {v : DerivedStruct} {os : List Outcome}
    {o : Outcome} {s : σ} (between : w.Between s) (struct : vs[k]? = some v)
    (outcomes : (w.js.fileOutcomes vs s)[k]? = some os) (outcome : os[i]? = some o) : w.Calls v i o := by
  induction vs generalizing k s with
  | nil => cases struct
  | cons u vs ih =>
    cases k with
    | zero =>
      cases struct
      cases outcomes
      exact ⟨s, between, outcome⟩
    | succ k => exact ih (between.struct u) struct outcomes

/-- All outcomes of a run that gets to the leak check are of such calls. -/
theorem Checked.calls {build : Build} {w : World σ ι} {c : St × Host σ} {inputFile text script : Bytes}
    {calls : List Call} {k i : Nat} {v : DerivedStruct} {os : List Outcome} {o : Outcome}
    (checked : Checked build w c inputFile text script calls) (struct : (calls.filterMap Call.result)[k]? = some v)
    (outcomes : (w.outcomes script calls)[k]? = some os) (outcome : os[i]? = some o) : w.Calls v i o :=
  fileOutcomes_calls (.evaluated checked.scriptRead) struct outcomes outcome

end Calls

/-! ## Handlers and the array -/

/-- What each handler, given the name of the struct and the contents `α` of its array,
returns and leaves in the array. It has no other state. -/
structure Handlers (α : Type) where
  newArray : List JsToken → α
  handler : Bytes → Option (Bytes → α → CallResult × α)

namespace Handlers

variable {α : Type} (hs : Handlers α)

def outcome (structName name : Bytes) (a : α) : Outcome × α :=
  match hs.handler name with
  | none => (.notFunction, a)
  | some f =>
    match f structName a with
    | (.exception, a') => (.exception, a')
    | (.string code, a') => (.returned code, a')
    | (.other text, a') => (.converted text, a')

/-- The array that the handlers `names` leave behind. -/
def left (structName : Bytes) (names : List Bytes) (a : α) : α :=
  names.foldl (fun a name => (hs.outcome structName name a).2) a

/-- The array of a struct behind the handlers `before`. -/
def arrayBehind (v : DerivedStruct) (before : List Bytes) : α :=
  hs.left v.structName before (hs.newArray (v.metadata.map fromTokenToJsTokenObject))

/-- The handler modifies no array. -/
def Reads (name : Bytes) : Prop := ∀ structName a, (hs.outcome structName name a).2 = a

theorem left_reads {names : List Bytes} (reads : ∀ name ∈ names, hs.Reads name) (structName : Bytes) (a : α) :
    hs.left structName names a = a := by
  induction names with
  | nil => rfl
  | cons name names ih =>
    have here : (hs.outcome structName name a).2 = a := reads name (by simp) structName a
    rw [left, List.foldl_cons, here]
    exact ih fun name mem => reads name (List.mem_cons_of_mem _ mem)

end Handlers

/-- The engine has these handlers in the states `loaded`, and passes arrays by reference:
the `contents` of an array after a call are what the handler left in it. -/
structure ByReference {σ ι α : Type} (js : Js σ ι) (hs : Handlers α) (loaded : σ → Prop) (contents : σ → ι → α) :
    Prop where
  newArray : ∀ {s} tokens, loaded s → loaded (js.newArray tokens s).2 ∧
    contents (js.newArray tokens s).2 (js.newArray tokens s).1 = hs.newArray tokens
  isFunction : ∀ {s} name, loaded s → (js.isFunction name s).1 = (hs.handler name).isSome ∧
    loaded (js.isFunction name s).2 ∧ ∀ a, contents (js.isFunction name s).2 a = contents s a
  call : ∀ {s name f} structName a, loaded s → hs.handler name = some f →
    (js.call name structName a s).1 = (f structName (contents s a)).1 ∧ loaded (js.call name structName a s).2 ∧
      contents (js.call name structName a s).2 a = (f structName (contents s a)).2

section Runs

variable {σ ι σ' ι' α : Type} {js : Js σ ι} {hs : Handlers α} {loaded : σ → Prop} {contents : σ → ι → α}
  {loaded' : σ' → Prop} {contents' : σ' → ι' → α} {w : World σ ι} {w' : World σ' ι'} {array : ι} {st : σ}
  {structName h : Bytes} {v v' : DerivedStruct} {before before' after after' : List Bytes} {o o' : Outcome}

/-- One call. -/
theorem ByReference.outcome (engine : ByReference js hs loaded contents) (start : loaded st) (array : ι)
    (structName name : Bytes) :
    (js.outcome array structName name st).1 = (hs.outcome structName name (contents st array)).1 ∧
      loaded (js.outcome array structName name st).2 ∧
      contents (js.outcome array structName name st).2 array =
        (hs.outcome structName name (contents st array)).2 := by
  obtain ⟨found, loaded₁, same⟩ := engine.isFunction name start
  unfold Js.outcome Handlers.outcome
  generalize js.isFunction name st = r at *
  cases handler : hs.handler name with
  | none =>
    rw [handler] at found
    simp only [found, Option.isSome_none, Bool.false_eq_true, if_false]
    exact ⟨trivial, loaded₁, same array⟩
  | some f =>
    obtain ⟨returns, loaded₂, leaves⟩ := engine.call structName array loaded₁ handler
    rw [same] at returns leaves
    rw [handler] at found
    simp only [found, Option.isSome_some, if_true]
    generalize js.call name structName array r.2 = ret at *
    obtain ⟨ret, s₂⟩ := ret
    generalize f structName (contents st array) = left at *
    obtain ⟨_, a'⟩ := left
    cases returns
    cases ret with
    | exception => exact ⟨rfl, loaded₂, leaves⟩
    | string code => exact ⟨rfl, loaded₂, leaves⟩
    | other text => exact ⟨rfl, loaded₂, leaves⟩

/-- The calls on one array. -/
theorem ByReference.outcomes (engine : ByReference js hs loaded contents) (array : ι) (structName : Bytes)
    (names : List Bytes) : ∀ {st : σ}, loaded st → loaded (js.outcomes array structName names st).2 ∧
      contents (js.outcomes array structName names st).2 array = hs.left structName names (contents st array) := by
  induction names with
  | nil => exact fun start => ⟨start, rfl⟩
  | cons name names ih =>
    intro st start
    obtain ⟨-, loaded₁, left⟩ := engine.outcome start array structName name
    obtain ⟨loaded₂, rest⟩ := ih loaded₁
    refine ⟨loaded₂, ?_⟩
    simp only [Js.outcomes, Handlers.left, List.foldl_cons]
    rw [rest, left]
    rfl

theorem ByReference.between (engine : ByReference w.js hs loaded contents)
    (start : ∀ script, w.script = some script → loaded (w.js.eval script w.engine).2) (between : w.Between st) :
    loaded st := by
  induction between with
  | evaluated read => exact start _ read
  | struct v before ih => exact (engine.outcomes _ _ _ (engine.newArray _ ih).1).1

/-- The outcome of a handler is read off the array that the handlers before it leave. -/
theorem ByReference.calls (engine : ByReference w.js hs loaded contents)
    (start : ∀ script, w.script = some script → loaded (w.js.eval script w.engine).2)
    (list : v.handlers = before ++ h :: after) (call : w.Calls v before.length o) :
    o = (hs.outcome v.structName h (hs.arrayBehind v before)).1 := by
  obtain ⟨s, between, at_⟩ := call
  obtain ⟨loaded₀, fresh⟩ := engine.newArray (v.metadata.map fromTokenToJsTokenObject) (engine.between start between)
  rw [Js.structOutcomes, list, outcomes_at] at at_
  obtain ⟨loaded₁, left⟩ := engine.outcomes (w.js.newArray (v.metadata.map fromTokenToJsTokenObject) s).1
    v.structName before loaded₀
  cases at_
  rw [(engine.outcome loaded₁ _ _ h).1, left, fresh]
  rfl

/-- **What a handler comes to** is determined by the struct and by the array that the
handlers before it leave behind: it is the same in two runs if they leave the same array,
and so if none of them modifies it. -/
theorem handler_outcomes (engine : ByReference w.js hs loaded contents)
    (engine' : ByReference w'.js hs loaded' contents')
    (start : ∀ script, w.script = some script → loaded (w.js.eval script w.engine).2)
    (start' : ∀ script, w'.script = some script → loaded' (w'.js.eval script w'.engine).2)
    (name : v'.structName = v.structName) (tokens : v'.metadata = v.metadata)
    (list : v.handlers = before ++ h :: after) (list' : v'.handlers = before' ++ h :: after')
    (call : w.Calls v before.length o) (call' : w'.Calls v' before'.length o') :
    o = (hs.outcome v.structName h (hs.arrayBehind v before)).1 ∧
      (hs.arrayBehind v before = hs.arrayBehind v' before' → o = o') ∧
      ((∀ g ∈ before ++ before', hs.Reads g) → o = o') := by
  have here := engine.calls start list call
  have there := engine'.calls start' list' call'
  have agree : hs.arrayBehind v before = hs.arrayBehind v' before' → o = o' := by
    intro same
    rw [here, there, same, name]
  refine ⟨here, agree, fun reads => agree ?_⟩
  rw [Handlers.arrayBehind, Handlers.arrayBehind, tokens,
    hs.left_reads fun g mem => reads g (List.mem_append_left _ mem),
    hs.left_reads fun g mem => reads g (List.mem_append_right _ mem)]

end Runs

/-! ## A handler that empties the array -/

/-- An engine for any handlers: the number of arrays that were made, and their contents. -/
def sharing {α : Type} (hs : Handlers α) : Js (Nat × (Nat → α)) Nat where
  eval _ s := (false, s)
  newArray tokens s := (s.1, (s.1 + 1, Function.update s.2 s.1 (hs.newArray tokens)))
  isFunction name s := ((hs.handler name).isSome, s)
  call name structName a s :=
    match hs.handler name with
    | none => (.exception, s)
    | some f => ((f structName (s.2 a)).1, (s.1, Function.update s.2 a (f structName (s.2 a)).2))

theorem sharing_byReference {α : Type} (hs : Handlers α) :
    ByReference (sharing hs) hs (fun _ => True) (fun s a => s.2 a) where
  newArray _ _ := ⟨trivial, by simp [sharing]⟩
  isFunction _ _ := ⟨rfl, trivial, fun _ => rfl⟩
  call structName a _ found := by simp [sharing, found]

/-- `h` returns whether there are tokens, `look` returns `x`, and `clear` takes the tokens away. -/
def clearing : Handlers (List JsToken) where
  newArray tokens := tokens
  handler name :=
    if name = bytesOf "h" then some fun _ a => (.string (if a = [] then bytesOf "no" else bytesOf "yes"), a)
    else if name = bytesOf "look" then some fun _ a => (.string (bytesOf "x"), a)
    else if name = bytesOf "clear" then some fun _ _ => (.string [], [])
    else none

/-- The program on a file with these tokens. -/
def clearingWorld (tokens : List Token) : World (Nat × (Nat → List JsToken)) Nat where
  argv := [bytesOf "moe", bytesOf "a.h", bytesOf "a.c", bytesOf "s.js"]
  js := sharing clearing
  engine := (0, fun _ => [])
  clears := true
  writes _ := .whole
  input := some (bytesOf "-")
  script := some (bytesOf "-")
  lexer _ := tokens

/-- `MOE_PROC_MACRO_DERIVES(B, h); struct B { 1 };` -/
def onlyH : DeriveBlock := { blockB with body := [.intlit 1], closed := by decide }

/-- The same with `MOE_PROC_MACRO_DERIVES(B, look);` before it. -/
def lookH : DeriveBlock :=
  { onlyH with first := ⟨⟨bytesOf "look", by decide, by decide⟩, [], true⟩, more := [handlerH] }

/-- The same with `MOE_PROC_MACRO_DERIVES(B, clear);` before it. -/
def clearH : DeriveBlock :=
  { onlyH with first := ⟨⟨bytesOf "clear", by decide, by decide⟩, [], true⟩, more := [handlerH] }

/-- `h` comes to the same alone and behind `look`, which modifies nothing. -/
theorem handler_outcomes_lookH :
    ∃ o o', (clearingWorld onlyH.tokens).Calls onlyH.value 0 o ∧ (clearingWorld lookH.tokens).Calls lookH.value 1 o' ∧
      o = o' := by
  have call : (clearingWorld onlyH.tokens).Calls onlyH.value ([] : List Bytes).length _ := ⟨_, .evaluated rfl, rfl⟩
  have call' : (clearingWorld lookH.tokens).Calls lookH.value [bytesOf "look"].length _ := ⟨_, .evaluated rfl, rfl⟩
  have reads : ∀ g ∈ [] ++ [bytesOf "look"], clearing.Reads g := by
    intro g mem structName a
    rw [List.mem_singleton.mp mem]
    rfl
  have engine : ∀ tokens, ByReference (clearingWorld tokens).js clearing (fun _ => True) (fun s a => s.2 a) :=
    fun _ => sharing_byReference clearing
  have name : lookH.value.structName = onlyH.value.structName := rfl
  have tokens : lookH.value.metadata = onlyH.value.metadata := rfl
  have list : onlyH.value.handlers = [] ++ bytesOf "h" :: [] := rfl
  have list' : lookH.value.handlers = [bytesOf "look"] ++ bytesOf "h" :: [] := rfl
  have agree := handler_outcomes (engine onlyH.tokens) (engine lookH.tokens) (fun _ _ => trivial) (fun _ _ => trivial)
    name tokens list list' call call'
  exact ⟨_, _, call, call', agree.2.2 reads⟩

/-- Behind `clear` it finds no tokens, and the output file shows it. -/
theorem clear_changes_outcome :
    ByReference (clearingWorld onlyH.tokens).js clearing (fun _ => True) (fun s a => s.2 a) ∧
    onlyH.value.structName = clearH.value.structName ∧ onlyH.value.metadata = clearH.value.metadata ∧
    onlyH.value.handlers = [bytesOf "h"] ∧ clearH.value.handlers = [bytesOf "clear", bytesOf "h"] ∧
    (clearingWorld onlyH.tokens).Calls onlyH.value 0 (.returned (bytesOf "yes")) ∧
    (clearingWorld clearH.tokens).Calls clearH.value 1 (.returned (bytesOf "no")) ∧
    ∃ c c', mainToCheck .assertions (clearingWorld onlyH.tokens) ((clearingWorld onlyH.tokens).start []) =
        .ok (.check, c) ∧
      mainToCheck .assertions (clearingWorld clearH.tokens) ((clearingWorld clearH.tokens).start []) = .ok (.check, c') ∧
      c.2.output = includeLine (bytesOf "a.h") ++ bytesOf "yes" ∧
      c'.2.output = includeLine (bytesOf "a.h") ++ bytesOf "no" := by
  obtain ⟨c, run, output⟩ := exists_of_exit (x := mainToCheck .assertions (clearingWorld onlyH.tokens))
    (s := (clearingWorld onlyH.tokens).start [])
    (p := fun c => c.2.output = includeLine (bytesOf "a.h") ++ bytesOf "yes") (by decide +kernel)
  obtain ⟨c', run', output'⟩ := exists_of_exit (x := mainToCheck .assertions (clearingWorld clearH.tokens))
    (s := (clearingWorld clearH.tokens).start [])
    (p := fun c => c.2.output = includeLine (bytesOf "a.h") ++ bytesOf "no") (by decide +kernel)
  exact ⟨sharing_byReference clearing, rfl, rfl, rfl, rfl, ⟨_, .evaluated rfl, by decide +kernel⟩,
    ⟨_, .evaluated rfl, by decide +kernel⟩, c, c', run, run', output, output'⟩

end MoeToolchain
