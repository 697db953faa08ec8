import MoeToolchain.ProcMacro.JsReferences
import MoeToolchain.ProcMacro.Outcomes

/-!
# Runs with references to JavaScript values

The functions of `Refs` do what those without references do, and keep the references that
they were called with. The steps are a call of QuickJS (`refs_step`), which only one side
makes, and a call of the program (`call_step`), which both make.

`main_references`: a run uses no reference that was given back, and at its end all of them
have been, but for the runtime where there is no script.
-/

namespace MoeToolchain
set_option autoImplicit false
open Lib

/-! ## With and without references -/

section Programs

open References Refs

variable {σ ι α β γ δ : Type} {f g : Multiset (Addr × JsCell)}

/-- The same state, next to the references `f`. -/
def Holding (f : Multiset (Addr × JsCell)) (s : St × JsHost σ) (t : St × Host σ) : Prop :=
  (s.1, s.2.1) = t ∧ Heap.empty.Holds s.2.2 f

/-- The same result, next to the references `f`. -/
def Returning (f : Multiset (Addr × JsCell)) (a b : α) (s : St × JsHost σ) (t : St × Host σ) : Prop :=
  a = b ∧ Holding f s t

section Steps

variable {post : γ → δ → St × JsHost σ → St × Host σ → Prop}

/-- What is done with references only. -/
theorem refs_step {x : C JsHeap α} {mid : α → Multiset (Addr × JsCell) → Prop} {k : α → C (St × JsHost σ) γ}
    {y : C (St × Host σ) δ} (turns : Turns f x mid) (rest : ∀ a g, mid a g → Refines (Holding g) (k a) y post) :
    Refines (Holding f) (onRefs x >>= k) y post := by
  intro s t at_
  obtain ⟨st, host, refs⟩ := s
  obtain ⟨rfl, held⟩ := at_
  obtain ⟨a, refs', g, run, here, held'⟩ := turns refs held
  have run' : (onRefs x : C (St × JsHost σ) α) (st, host, refs) = .ok (a, (st, host, refs')) := by
    simp only [onRefs, onRest, Exec.zoom, run]
  rw [Exec.bind_ok run']
  exact rest a g here (st, host, refs') (st, host) ⟨rfl, held'⟩

/-- What is done without references. -/
theorem program_refines (x : C (St × Host σ) α) : Refines (Holding f) (onProgram x) x (Returning f) := by
  intro s t at_
  obtain ⟨st, host, refs⟩ := s
  obtain ⟨rfl, held⟩ := at_
  cases run : x (st, host) with
  | error e => simp only [onProgram, Exec.zoom, run]
  | ok p =>
    obtain ⟨a, st', host'⟩ := p
    exact ⟨a, (st', host', refs), by simp only [onProgram, Exec.zoom, run], rfl, rfl, held⟩

/-- A part that returns the same is followed by the rest. -/
theorem call_step {x : C (St × JsHost σ) α} {y : C (St × Host σ) α} {k : α → C (St × JsHost σ) γ}
    {k' : α → C (St × Host σ) δ} (same : Refines (Holding f) x y (Returning g))
    (rest : ∀ a, Refines (Holding g) (k a) (k' a) post) : Refines (Holding f) (x >>= k) (y >>= k') post := by
  refine Refines.bind same fun a b => ?_
  refine Refines.assume (fun s t at_ => at_.1) ?_
  rintro rfl
  exact Refines.conseq (rest a) (fun s t at_ => at_.2) fun _ _ _ _ post => post

/-- References are given back behind the last part. -/
theorem call_last {x : C (St × JsHost σ) α} {y : C (St × Host σ) α} {k : α → C (St × JsHost σ) α}
    {r : Multiset (Addr × JsCell)} (same : Refines (Holding f) x y (Returning g))
    (rest : ∀ a, Refines (Holding g) (k a) (pure a) (Returning r)) : Refines (Holding f) (x >>= k) y (Returning r) := by
  rw [← bind_pure y]
  exact call_step same rest

theorem refs_last {x : C JsHeap Unit} {a : α} {r : Multiset (Addr × JsCell)} (turns : Turns f x fun _ left => left = r) :
    Refines (Holding f) (onRefs x >>= fun _ => pure a) (pure a : C (St × Host σ) α) (Returning r) := by
  refine refs_step turns ?_
  rintro _ _ rfl
  exact Refines.pure fun s t at_ => ⟨rfl, at_⟩

theorem refs_end {x : C JsHeap Unit} {r : Multiset (Addr × JsCell)} (turns : Turns f x fun _ left => left = r) :
    Refines (Holding f) (onRefs x) (pure () : C (St × Host σ) Unit) (Returning r) := by
  rw [← bind_pure (onRefs x)]
  refine refs_step turns ?_
  rintro _ _ rfl
  exact Refines.pure fun s t at_ => ⟨rfl, at_⟩

theorem onSt_eq (x : C St α) : (onSt x : C (St × JsHost σ) α) = onProgram (onSt x) := by
  funext s
  unfold onProgram onSt Exec.zoom
  cases x s.1 <;> rfl

theorem onHost_eq (x : C (Host σ) α) : onHost x = onProgram (onRest x) := by
  funext s
  unfold onHost onProgram onRest Exec.zoom
  cases x s.2.1 <;> rfl

theorem st_refines (x : C St α) : Refines (Holding f) (onSt x : C (St × JsHost σ) α) (onSt x) (Returning f) := by
  rw [onSt_eq]
  exact program_refines _

theorem host_refines (x : C (Host σ) α) : Refines (Holding f) (onHost x) (onRest x) (Returning f) := by
  rw [onHost_eq]
  exact program_refines _

end Steps

theorem onSt_bind {ω : Type} (x : C Mem α) (k : α → C Mem β) :
    (onSt (onMem (x >>= k)) : C (St × ω) β) = onSt (onMem x) >>= fun a => onSt (onMem (k a)) := by
  funext s
  rw [Exec.bind_apply]
  unfold onSt onMem Exec.zoom
  simp only [Exec.bind_apply]
  cases x s.1.mem with
  | error e => rfl
  | ok p => rfl

theorem onSt_pure {ω : Type} (a : α) : (onSt (onMem (pure a)) : C (St × ω) α) = pure a := rfl

/-! ### A handler -/

section Handlers

variable {js : Js σ ι} {describe : σ → Option Bytes} {jsRuntime : JsRuntime} {jsTokenArray callfunc argv0 : Addr}
  {array : ι} {tokens : List JsToken} {name self : Bytes}

theorem jsIsFunction_refines (name : Bytes) (held : (callfunc, .property name) ∈ f) : Refines (Holding f) (jsIsFunction js callfunc)
    (onRest (onJs (js.isFunction name))) (Returning f) := by
  refine refs_step (.read held) ?_
  rintro _ _ ⟨rfl, rfl⟩
  exact host_refines _

/-- What `JS_Call` returned, and the reference to it. -/
def CallReference (ret : Ptr) (result : CallResult) (own : Multiset (Addr × JsCell)) : Prop :=
  match result with
  | .exception => ret = none ∧ own = 0
  | .string text => ∃ v, ret = some v ∧ own = {(v, .value (some text))}
  | .other text => ∃ v, ret = some v ∧ own = {(v, .value text)}

theorem jsCall_refines (function : (callfunc, .property name) ∈ f) (this : (jsRuntime.globalObj, .globalObject) ∈ f)
    (arg : (argv0, .primitive (.string self)) ∈ f) (there : (jsTokenArray, .array tokens) ∈ f) :
    Refines (Holding f) (jsCall js callfunc jsRuntime.globalObj argv0 jsTokenArray array)
      (onRest (onJs (js.call name self array)))
      (fun ret result s t => ∃ own, CallReference ret result own ∧ Holding (own + f) s t) := by
  refine refs_step (.read function) ?_
  rintro _ _ ⟨rfl, rfl⟩
  refine refs_step (.read this) ?_
  rintro _ _ ⟨rfl, rfl⟩
  refine refs_step (.read arg) ?_
  rintro _ _ ⟨rfl, rfl⟩
  refine refs_step (.read there) ?_
  rintro _ _ ⟨rfl, rfl⟩
  rw [← bind_pure (onRest (onJs (js.call name self array)))]
  refine call_step (host_refines _) ?_
  rintro (_ | text | text)
  · exact Refines.pure fun s t at_ => ⟨0, ⟨rfl, rfl⟩, by rwa [zero_add]⟩
  · refine refs_step (.create _) ?_
    rintro v _ rfl
    exact Refines.pure fun s t at_ => ⟨_, ⟨v, rfl, rfl⟩, at_⟩
  · refine refs_step (.create _) ?_
    rintro v _ rfl
    exact Refines.pure fun s t at_ => ⟨_, ⟨v, rfl, rfl⟩, at_⟩

/-- An exception and its message are freed again. -/
theorem takeException_refines (print : C Mem α) : Refines (Holding f) (takeException describe print)
    (onSt (onMem print)) (fun _ _ => Holding f) := by
  have look : Refines (Holding f) (onHost get : C (St × JsHost σ) (Host σ)) (onRest get) (Returning f) := host_refines _
  have unread : (onSt (onMem print) : C (St × Host σ) α) = onRest get >>= fun _ => onSt (onMem print) >>= pure := by
    rw [bind_pure]
    rfl
  rw [unread]
  refine call_step look fun host => ?_
  refine refs_step (.create _) ?_
  rintro exception _ rfl
  refine refs_step (jsToCString_turns (describe host.js) (by simp)) ?_
  rintro message _ ⟨own, is, rfl⟩
  refine call_step (st_refines _) fun _ => ?_
  refine refs_step (jsText_turns is rfl) ?_
  rintro _ _ ⟨rfl, rfl⟩
  refine refs_step (jsFreeText_turns is rfl) ?_
  rintro _ _ rfl
  rw [← bind_pure (onRefs (jsFree (some exception)))]
  refine refs_step (jsFree_turns rfl) ?_
  rintro _ _ rfl
  exact Refines.pure fun s t at_ => at_

/-- The string of a value, and the references to both given back. -/
theorem takeValue_refines {slot : ItemSlot} {output : Ptr} (v : Addr) (text : Option Bytes) :
    Refines (Holding ({(v, .value text)} + f)) (Refs.takeResult describe slot output (some v))
      (onSt (onMem (readHandlerName slot >>= fun _ => moeStringAlloc text 0 >>= fun str => pure (some str))))
      (Returning f) := by
  rw [Refs.takeResult, onSt_bind]
  refine refs_step (jsToCString_turns text (by simp)) ?_
  rintro str _ ⟨own, is, rfl⟩
  refine call_step (st_refines _) fun _ => ?_
  refine refs_step (jsText_turns is rfl) ?_
  rintro _ _ ⟨rfl, rfl⟩
  rw [onSt_bind]
  refine call_step (st_refines _) fun str => ?_
  refine refs_step (jsFreeText_turns is rfl) ?_
  rintro _ _ rfl
  exact refs_last (jsFree_turns rfl)

theorem takeResult_refines {slot : ItemSlot} {output ret : Ptr} {result : CallResult} {own : Multiset (Addr × JsCell)}
    (is : CallReference ret result own) : Refines (Holding (own + f)) (Refs.takeResult describe slot output ret)
      (onSt (onMem (takeResult slot output result))) (Returning f) := by
  cases result with
  | exception =>
    obtain ⟨rfl, rfl⟩ := is
    rw [zero_add, takeResult, onSt_bind]
    exact Refines.bind (takeException_refines _) fun _ _ => Refines.pure fun s t at_ => ⟨rfl, at_⟩
  | string text =>
    obtain ⟨v, rfl, rfl⟩ := is
    exact takeValue_refines v (some text)
  | other text =>
    obtain ⟨v, rfl, rfl⟩ := is
    exact takeValue_refines v text

/-- A turn of the loop over the derive items gives back what it takes. -/
theorem generateItem_references {structName output : Ptr} {slot : ItemSlot}
    (this : (jsRuntime.globalObj, .globalObject) ∈ f) (there : (jsTokenArray, .array tokens) ∈ f) :
    Refines (Holding f) (Refs.generateItem js describe jsRuntime jsTokenArray array structName slot output)
      (generateItem js array structName slot output) (Returning f) := by
  refine call_step (st_refines _) fun _ => ?_
  refine call_step (st_refines _) fun _ => ?_
  refine call_step (st_refines _) fun name => ?_
  refine refs_step (jsGetPropertyStr_turns name this) ?_
  rintro callfunc _ rfl
  refine call_step (jsIsFunction_refines name (by simp)) fun isFunction => ?_
  refine Refines.ite (fun _ => ?_) fun _ => ?_
  · refine call_step (st_refines _) fun self => ?_
    refine refs_step (.create _) ?_
    rintro argv0 _ rfl
    have call := @jsCall_refines σ ι ({(argv0, .primitive (.string self))} + ({(callfunc, .property name)} + f)) js
      jsRuntime jsTokenArray callfunc argv0 array tokens name self (by simp) (by simp [this]) (by simp) (by simp [there])
    refine Refines.bind call fun ret result => ?_
    refine Refines.choose fun own => ?_
    refine Refines.assume (fun s t at_ => at_.1) fun is => ?_
    refine Refines.conseq ?_ (fun s t at_ => at_.2) fun _ _ _ _ post => post
    refine refs_step (jsFree_turns (add_left_comm _ _ _)) ?_
    rintro _ _ rfl
    exact call_last (takeResult_refines is) fun output => refs_last (jsFree_turns rfl)
  · exact call_step (st_refines _) fun _ => refs_last (jsFree_turns rfl)

theorem generateCode_references {derivedStruct : Addr} (tokens : List JsToken) (this : (jsRuntime.globalObj, .globalObject) ∈ f)
    (there : (jsTokenArray, .array tokens) ∈ f) : Refines (Holding f)
      (Refs.generateCodeForDerivedStruct js describe jsRuntime jsTokenArray array derivedStruct)
      (generateCodeForDerivedStruct js array derivedStruct) (Returning f) := by
  refine call_step (st_refines _) fun d => ?_
  have step : ∀ i j, i = j → ∀ output output', Refines (Returning f output output')
      (Refs.generateItem js describe jsRuntime jsTokenArray array d.structName ⟨d.deriveItems, i⟩ output)
      (generateItem js array d.structName ⟨d.deriveItems, j⟩ output') (Returning f) := by
    rintro i _ rfl output output'
    refine Refines.assume (fun s t at_ => at_.1) ?_
    rintro rfl
    exact Refines.conseq (generateItem_references this there) (fun s t at_ => at_.2) fun _ _ _ _ post => post
  have loop := Refines.foldlM (List.forall₂_same.mpr fun _ _ => rfl : List.Forall₂ Eq (List.range d.deriveItemNum) _)
    step none none
  exact Refines.conseq loop (fun s t at_ => ⟨rfl, at_⟩) fun _ _ _ _ post => post

/-- The engine gets the tokens as the elements of the array. -/
theorem fromTokenStreamToJsArray_references (derivedStruct : Addr) : Refines (Holding f)
    (Refs.fromTokenStreamToJsArray js derivedStruct) (fromTokenStreamToJsArray js derivedStruct)
    (fun r array s t => r.2 = array ∧ ∃ tokens, Holding ({(r.1, .array tokens)} + f) s t) := by
  refine refs_step (.create _) ?_
  rintro arr _ rfl
  refine call_step (st_refines _) fun tokens => ?_
  refine refs_step (addTokens_turns tokens []) ?_
  rintro _ _ rfl
  refine refs_step (jsElements_turns ([] ++ tokens.map fromTokenToJsTokenObject) (by simp)) ?_
  rintro _ _ ⟨rfl, rfl⟩
  rw [← bind_pure (onRest (onJs (js.newArray (tokens.map fromTokenToJsTokenObject))))]
  refine call_step (host_refines _) fun array => ?_
  exact Refines.pure fun s t at_ => ⟨rfl, _, at_⟩

theorem generateStruct_references {writes : Nat → Append} {derivedStruct : Addr}
    (this : (jsRuntime.globalObj, .globalObject) ∈ f) : Refines (Holding f)
      (Refs.generateStruct js describe jsRuntime writes derivedStruct) (generateStruct js writes derivedStruct)
      (Returning f) := by
  refine call_step (st_refines _) fun d => ?_
  refine call_step (st_refines _) fun _ => ?_
  refine call_step (st_refines _) fun _ => ?_
  refine Refines.bind (fromTokenStreamToJsArray_references derivedStruct) ?_
  rintro ⟨jsTokenArray, array⟩ array'
  refine Refines.assume (fun s t at_ => at_.1) ?_
  rintro rfl
  refine Refines.conseq ?_ (fun s t at_ => at_.2) fun _ _ _ _ post => post
  refine Refines.choose fun tokens => ?_
  refine call_step (generateCode_references tokens (by simp [this]) (by simp)) fun generated => ?_
  refine call_last (program_refines _) fun _ => ?_
  exact refs_end (jsFree_turns rfl)

theorem generate_references {writes : Nat → Append} (this : (jsRuntime.globalObj, .globalObject) ∈ f) (lex : StbLexer)
    (p : Ptr) : Refines (Holding f) (Refs.generate js describe jsRuntime writes lex p) (generate js writes lex p)
      (Returning f) := by
  cases p with
  | none => exact Refines.pure fun s t at_ => ⟨rfl, at_⟩
  | some derivedStruct => exact generateStruct_references this

end Handlers

/-! ### The run -/

theorem tokenLoop_references {build : Build} {use : StbLexer → Ptr → C (St × JsHost σ) Unit}
    {use' : StbLexer → Ptr → C (St × Host σ) Unit}
    (step : ∀ lex p, Refines (Holding f) (use lex p) (use' lex p) (Returning f)) (fuel : Nat) :
    Refines (Holding f) (tokenLoop build use fuel) (tokenLoop build use' fuel) (Returning f) := by
  induction fuel with
  | zero => exact Refines.fault Fault.outOfFuel
  | succ fuel ih =>
    refine call_step (st_refines _) fun more => ?_
    refine Refines.ite (fun _ => ?_) fun _ => Refines.pure fun s t at_ => ⟨rfl, at_⟩
    refine call_step (st_refines _) fun lex => ?_
    refine Refines.ite (fun _ => Refines.pure fun s t at_ => ⟨rfl, at_⟩) fun _ => ?_
    refine call_step (st_refines _) fun p => ?_
    refine call_step (step lex p) fun _ => ?_
    exact call_step (st_refines _) fun _ => ih

section Run

variable {describe : σ → Option Bytes} {build : Build} {w : World σ ι}

theorem loadProcMacroScripts_references {text : Bytes} (script : w.script = some text) :
    Refines (Holding f) (Refs.loadProcMacroScripts describe w) (loadProcMacroScripts w)
      (fun a b s t => a = 0 ∧ b = 0 ∧ Holding f s t) := by
  unfold Refs.loadProcMacroScripts loadProcMacroScripts
  rw [script, readFile]
  simp only [onSt_bind, onSt_pure, bind_assoc, pure_bind]
  refine call_step (st_refines _) fun str => ?_
  refine call_step (st_refines _) fun buffer => ?_
  refine call_step (st_refines _) fun data => ?_
  refine call_step (st_refines _) fun _ => ?_
  refine call_step (st_refines _) fun _ => ?_
  refine call_step (st_refines _) fun text => ?_
  refine call_step (host_refines _) fun threw => ?_
  cases threw with
  | true =>
    simp only [if_true]
    refine call_step (st_refines _) fun _ => ?_
    have unprinted : (pure 0 : C (St × Host σ) Int) = onSt (onMem (pure ())) >>= fun _ => pure 0 := rfl
    rw [unprinted]
    refine Refines.bind (takeException_refines _) fun _ _ => ?_
    exact Refines.pure fun s t at_ => ⟨rfl, rfl, at_⟩
  | false =>
    simp only [Bool.false_eq_true, if_false]
    refine refs_step (.create _) ?_
    rintro v _ rfl
    refine call_step (st_refines _) fun _ => ?_
    refine refs_step (jsFree_turns rfl) ?_
    rintro _ _ rfl
    exact Refines.pure fun s t at_ => ⟨rfl, rfl, at_⟩

theorem processTokens_references {jsRuntime : JsRuntime} {inputStr : Ptr}
    (this : (jsRuntime.globalObj, .globalObject) ∈ f) : Refines (Holding f)
      (Refs.processTokens describe build w jsRuntime inputStr) (processTokens build w inputStr) (Returning f) := by
  refine call_step (st_refines _) fun stringStore => ?_
  refine call_step (program_refines _) fun _ => ?_
  refine call_step (st_refines _) fun lex => ?_
  refine call_step (tokenLoop_references (generate_references this) _) fun _ => ?_
  exact st_refines _

theorem mainWithScripts_references {jsRuntime : JsRuntime} {inputStr : Ptr} {block : Addr} :
    Refines (Holding jsRuntime.references) (Refs.mainWithScripts describe build w inputStr block jsRuntime)
      (mainWithScripts build w inputStr block) (Returning 0) := by
  refine call_step (processTokens_references (by simp [JsRuntime.references])) fun _ => ?_
  refine refs_step (moeJsRuntimeFree_turns build jsRuntime) ?_
  rintro _ _ rfl
  refine call_step (st_refines _) fun _ => ?_
  exact call_step (st_refines _) fun _ => Refines.pure fun s t at_ => ⟨rfl, at_⟩

/-- The number of references that a run leaves. -/
def World.leftReferences (w : World σ ι) : Nat :=
  if w.inputFile? ≠ none ∧ w.clears = true ∧ w.script = none then 3 else 0

/-- The same result, with that many references left. -/
def Leaving (n : Nat) (a b : α) (s : St × JsHost σ) (t : St × Host σ) : Prop :=
  a = b ∧ ∃ f, Multiset.card f = n ∧ Holding f s t

theorem mainWithInput_references (inputStr : Ptr) : Refines (Holding 0) (Refs.mainWithInput describe build w inputStr)
    (mainWithInput build w inputStr) (Leaving (if w.script = none then 3 else 0)) := by
  refine call_step (st_refines _) fun block => ?_
  refine refs_step moeJsRuntimeAlloc_turns ?_
  rintro jsRuntime _ rfl
  cases script : w.script with
  | none =>
    unfold Refs.loadProcMacroScripts loadProcMacroScripts
    rw [script]
    exact Refines.pure fun s t at_ => ⟨rfl, _, by simp [JsRuntime.references], at_⟩
  | some text =>
    refine Refines.bind (loadProcMacroScripts_references script) fun failed failed' => ?_
    refine Refines.assume (fun s t at_ => at_.1) ?_
    rintro rfl
    refine Refines.assume (fun s t at_ => at_.2.1) ?_
    rintro rfl
    refine Refines.conseq mainWithScripts_references (fun s t at_ => at_.2.2) fun a b s t ended => ?_
    exact ⟨ended.1, 0, by simp, ended.2⟩

theorem mainToCheck_references : Refines (Holding 0) (Refs.mainToCheck describe build w) (mainToCheck build w)
    (Leaving w.leftReferences) := by
  unfold Refs.mainToCheck mainToCheck World.leftReferences
  have refused : Refines (Holding 0) (pure .failure : C (St × JsHost σ) Exit) (pure .failure : C (St × Host σ) Exit)
      (Leaving 0) := Refines.pure fun s t at_ => ⟨rfl, 0, rfl, at_⟩
  cases argument : w.inputFile? with
  | none => simpa using refused
  | some inputFile =>
    cases clears : w.clears with
    | false => simpa using refused
    | true =>
      simp only [if_true, ne_eq, reduceCtorEq, not_false_eq_true, true_and]
      refine call_step (program_refines _) fun _ => ?_
      exact call_step (st_refines _) fun inputStr => mainWithInput_references inputStr

theorem main_refines : Refines (Holding 0) (Refs.main describe build w) (main build w) (Leaving w.leftReferences) := by
  refine Refines.bind mainToCheck_references fun exit exit' => ?_
  refine Refines.assume (fun s t at_ => at_.1) ?_
  rintro rfl
  refine Refines.conseq ?_ (fun s t at_ => at_.2) fun _ _ _ _ post => post
  refine Refines.choose fun f => ?_
  refine Refines.assume (fun s t at_ => at_.1) fun left => ?_
  refine Refines.conseq ?_ (fun s t at_ => at_.2) fun _ _ _ _ post => post
  cases exit with
  | failure => exact Refines.pure fun s t at_ => ⟨rfl, f, left, at_⟩
  | check => exact call_step (st_refines _) fun _ => Refines.pure fun s t at_ => ⟨rfl, f, left, at_⟩

/-- A run that stops has met `NULL` or a failed assertion. -/
theorem World.Ends.fault {output : Bytes} {e : Fault} (ends : w.Ends build output (.error e)) :
    e = .nullPointer ∨ e = build.nullFault ∨ e = .assertFailed := by
  generalize result : (.error e : Except Fault (Int × Bytes)) = r at ends
  cases ends with
  | emptyFile => exact .inl (Except.error.inj result)
  | unread => exact .inl (Except.error.inj result)
  | noInput => exact .inr (.inl (Except.error.inj result))
  | stuck => exact .inr (.inr (Except.error.inj result))
  | leaked => exact .inr (.inr (Except.error.inj result))
  | _ => cases result

/-- Before the first statement, without references. -/
def World.startRefs (w : World σ ι) (output : Bytes) : St × JsHost σ :=
  ((w.start output).1, (w.start output).2, Heap.empty)

/-- The same end as a run without references, with so many references left. -/
def LeavesAs (n : Nat) (r : Except Fault (α × (St × JsHost σ))) : Except Fault (α × (St × Host σ)) → Prop
  | .error e => r = .error e
  | .ok (a, st, host) => ∃ refs, r = .ok (a, st, host, refs) ∧ refs.live = n

theorem leavesAs_of_refines {n : Nat} {x : C (St × JsHost σ) α} {y : C (St × Host σ) α}
    (refines : Refines (Holding 0) x y (Leaving n)) (output : Bytes) :
    LeavesAs n (x (w.startRefs output)) (y (w.start output)) := by
  have mirrored := refines (w.startRefs output) (w.start output) ⟨rfl, Heap.holds_refl _⟩
  cases run : y (w.start output) with
  | error e =>
    rw [run] at mirrored
    exact mirrored
  | ok r =>
    obtain ⟨a, st, host⟩ := r
    rw [run] at mirrored
    obtain ⟨_, ⟨st', host', refs⟩, run', rfl, f, left, same, held⟩ := mirrored
    obtain ⟨rfl, rfl⟩ := Prod.mk.inj same
    refine ⟨refs, run', ?_⟩
    rw [held.card_live, left]
    exact Nat.zero_add _

/-- With its references to JavaScript values, `main` does the same, up to the leak check and
as a whole. It uses no reference that was given back, and gives back all of them, but for the
runtime where there is no script: a run that comes to the leak check has freed the runtime
with no object left. -/
theorem main_references (describe : σ → Option Bytes) (build : Build) (w : World σ ι) (output : Bytes) :
    LeavesAs w.leftReferences (Refs.mainToCheck describe build w (w.startRefs output))
        (mainToCheck build w (w.start output)) ∧
      LeavesAs w.leftReferences (Refs.main describe build w (w.startRefs output)) (main build w (w.start output)) ∧
      ∀ e, main build w (w.start output) = .error e → e = .nullPointer ∨ e = build.nullFault ∨ e = .assertFailed := by
  refine ⟨leavesAs_of_refines mainToCheck_references output, leavesAs_of_refines main_refines output, ?_⟩
  intro e run
  refine World.Ends.fault ((main_ends_iff build w output (.error e)).mp ?_)
  rw [run]
  rfl

end Run

end Programs

end MoeToolchain
