import MoeToolchain.Lib.References
import MoeToolchain.ProcMacro.Main

/-!
# References to JavaScript values

The program with its calls of QuickJS. A value that a call returns is a reference, which
the program gives back once: it frees it, or makes it a property of an object. `Refs` has
the functions around these calls, in the order of the source, next to a heap with what
each reference stands for.

The specifications are triples: `moeJsRuntimeFree_turns` says that `JS_FreeRuntime` finds
no object left, `fromTokenToJsTokenObject_turns` and `addTokens_turns` that the array for a
script has the objects of `fromTokenToJsTokenObject` as its elements.
-/

namespace MoeToolchain
set_option autoImplicit false
open Lib

/-! ## The interface of QuickJS -/

/-- What a reference stands for; a `value` may have no text, as its conversion may throw. -/
inductive JsCell
  | runtime
  | context
  | globalObject
  | property (name : Bytes)
  | primitive (v : JsValue)
  | tokenObject (type value : Option JsValue)
  | array (tokens : List JsToken)
  | value (text : Option Bytes)
  | cString (text : Bytes)
deriving DecidableEq, Repr

/-- Strings and numbers are no objects, and the runtime holds the others. -/
def JsCell.isObject : JsCell → Bool
  | runtime | primitive _ | cString _ => false
  | _ => true

inductive TokenProperty
  | type
  | value
deriving DecidableEq, Repr

abbrev JsHeap := Heap JsCell

/-- The host with the references to its engine. -/
abbrev JsHost (σ : Type) := Host σ × JsHeap

/-- `moe_js_runtime_t` -/
structure JsRuntime where
  rt : Addr
  ctx : Addr
  globalObj : Addr
deriving DecidableEq, Repr

/-- The references to a runtime. -/
def JsRuntime.references (jsRuntime : JsRuntime) : Multiset (Addr × JsCell) :=
  {(jsRuntime.globalObj, .globalObject)} + ({(jsRuntime.ctx, .context)} + {(jsRuntime.rt, .runtime)})

namespace Refs

section Interface

variable {σ ι α : Type}

def onHost (x : C (Host σ) α) : C (St × JsHost σ) α := onRest (Exec.zoom Prod.fst (fun host w => (host, w.2)) x)

def onRefs (x : C JsHeap α) : C (St × JsHost σ) α := onRest (Exec.zoom Prod.snd (fun refs w => (w.1, refs)) x)

/-- Run the program without references. -/
def onProgram (x : C (St × Host σ) α) : C (St × JsHost σ) α :=
  Exec.zoom (fun s => (s.1, s.2.1)) (fun t s => (t.1, t.2, s.2.2)) x

/-- A new reference: `JS_NewObject`, `JS_NewString` and the like. -/
def jsNew (c : JsCell) : C JsHeap Addr := References.create c

def jsRead (v : Addr) : C JsHeap JsCell := References.read .danglingPointer v

def jsWrite (v : Addr) (c : JsCell) : C JsHeap Unit := References.write .danglingPointer v c

/-- `JS_FreeValue` and `JS_FreeCString`; an exception is no reference, and `NULL` neither. -/
def jsFree (v : Ptr) : C JsHeap Unit :=
  match v with
  | none => pure ()
  | some a => References.release .danglingPointer a

example : (do let v ← jsNew .context; jsFree (some v); jsFree (some v) : C JsHeap Unit) Heap.empty =
    .error .danglingPointer := by
  decide

/-- `JS_SetPropertyStr` of a token object, which takes the value. -/
def jsSetPropertyStr (obj : Addr) (prop : TokenProperty) (v : Addr) : C JsHeap Unit := do
  let object ← jsRead obj
  let c ← jsRead v
  match object, c, prop with
  | .tokenObject _ value, .primitive p, .type => jsWrite obj (.tokenObject (some p) value)
  | .tokenObject type _, .primitive p, .value => jsWrite obj (.tokenObject type (some p))
  | _, _, _ => Exec.fault .uninitialized
  jsFree (some v)

/-- `JS_SetPropertyUint32` behind the last element, which takes the value. -/
def jsSetPropertyUint32 (arr : Addr) (index : Nat) (v : Addr) : C JsHeap Unit := do
  let array ← jsRead arr
  let c ← jsRead v
  match array, c with
  | .array tokens, .tokenObject (some (.string type)) (some value) =>
    if index = tokens.length then jsWrite arr (.array (tokens ++ [⟨type, value⟩])) else Exec.fault .outOfBounds
  | _, _ => Exec.fault .uninitialized
  jsFree (some v)

def jsElements (arr : Addr) : C JsHeap (List JsToken) := do
  let array ← jsRead arr
  match array with
  | .array tokens => pure tokens
  | _ => Exec.fault .uninitialized

def jsGetPropertyStr (obj : Addr) (name : Bytes) : C JsHeap Addr := do
  let _ ← jsRead obj
  jsNew (.property name)

/-- `JS_ToCString` -/
def jsToCString (v : Addr) : C JsHeap Ptr := do
  let c ← jsRead v
  match c with
  | .value none => pure none
  | .value (some text) => do
    let str ← jsNew (.cString text)
    pure (some str)
  | _ => Exec.fault .uninitialized

/-- The text at a `const char*`. -/
def jsText (str : Ptr) : C JsHeap (Option Bytes) :=
  match str with
  | none => pure none
  | some a => do
    let c ← jsRead a
    match c with
    | .cString text => pure (some text)
    | _ => Exec.fault .uninitialized

/-- `JS_FreeRuntime`, with its assertion that no object is left. -/
def jsFreeRuntime (build : Build) (rt : Addr) : C JsHeap Unit := do
  moeAssert build do
    let refs ← get
    pure (refs.cells.all fun c => !c.elim false JsCell.isObject)
  jsFree (some rt)

variable (js : Js σ ι)

def jsIsFunction (callfunc : Addr) : C (St × JsHost σ) Bool := do
  let c ← onRefs (jsRead callfunc)
  match c with
  | .property name => onHost (onJs (js.isFunction name))
  | _ => Exec.fault .uninitialized

/-- `JS_Call`; `array` is `argv1` for the engine. An exception is no reference. -/
def jsCall (callfunc thisObj argv0 argv1 : Addr) (array : ι) : C (St × JsHost σ) Ptr := do
  let function ← onRefs (jsRead callfunc)
  let _ ← onRefs (jsRead thisObj)
  let arg ← onRefs (jsRead argv0)
  let _ ← onRefs (jsRead argv1)
  match function, arg with
  | .property name, .primitive (.string structName) => do
    let ret ← onHost (onJs (js.call name structName array))
    match ret with
    | .exception => pure none
    | .string text => do
      let v ← onRefs (jsNew (.value (some text)))
      pure (some v)
    | .other text => do
      let v ← onRefs (jsNew (.value text))
      pure (some v)
  | _, _ => Exec.fault .uninitialized

end Interface

/-! ## The program with its references -/

section Source

variable {σ ι : Type}

def moeJsRuntimeAlloc : C JsHeap JsRuntime := do
  let rt ← jsNew .runtime
  let ctx ← jsNew .context
  let globalObj ← jsNew .globalObject
  pure ⟨rt, ctx, globalObj⟩

def moeJsRuntimeFree (build : Build) (jsRuntime : JsRuntime) : C JsHeap Unit := do
  jsFree (some jsRuntime.globalObj)
  -- JS_FreeContext
  jsFree (some jsRuntime.ctx)
  jsFreeRuntime build jsRuntime.rt

def tokenType : TokenValue → MoeTokenType
  | .identifier _ => .identifier
  | .stringLiteral _ => .stringLiteral
  | .punctuation _ => .punctuation
  | .intLiteral _ => .intLiteral
  | .floatLiteral _ => .floatLiteral

/-- The property `value` of a token object. -/
def newTokenValue : TokenValue → C JsHeap Addr
  | .identifier text => jsNew (.primitive (.string (cString text)))
  | .stringLiteral text => jsNew (.primitive (.string (cString text)))
  | .punctuation v => jsNew (.primitive (.string (cString [UInt8.ofBitVec (BitVec.ofInt 8 v)])))
  | .intLiteral v => jsNew (.primitive (.int32 v))
  | .floatLiteral v => jsNew (.primitive (.float64 v))

def fromTokenToJsTokenObject (token : TokenValue) : C JsHeap Addr := do
  let jsToken ← jsNew (.tokenObject none none)
  let type ← jsNew (.primitive (.string (moeTokenTypeToString (tokenType token))))
  jsSetPropertyStr jsToken .type type
  let value ← newTokenValue token
  jsSetPropertyStr jsToken .value value
  pure jsToken

/-- The loop that fills the array. -/
def addTokens (arr : Addr) : Nat → List TokenValue → C JsHeap Unit
  | _, [] => pure ()
  | index, token :: tokens => do
    let jsToken ← fromTokenToJsTokenObject token
    jsSetPropertyUint32 arr index jsToken
    addTokens arr (index + 1) tokens

variable (js : Js σ ι)

/-- The array, and what the engine makes of its elements. -/
def fromTokenStreamToJsArray (derivedStruct : Addr) : C (St × JsHost σ) (Addr × ι) := do
  let arr ← onRefs (jsNew (.array []))
  let tokens ← onSt (onMem (readTokens derivedStruct))
  onRefs (addTokens arr 0 tokens)
  let elements ← onRefs (jsElements arr)
  let array ← onHost (onJs (js.newArray elements))
  pure (arr, array)

-- what `JS_ToCString` makes of an exception
variable (describe : σ → Option Bytes)

/-- `JS_GetException` and its message, up to where both are freed. -/
def takeException {α : Type} (print : C Mem α) : C (St × JsHost σ) Unit := do
  let host ← onHost get
  let exception ← onRefs (jsNew (.value (describe host.js)))
  let errorMessage ← onRefs (jsToCString exception)
  let _ ← onSt (onMem print)
  let _ ← onRefs (jsText errorMessage)
  onRefs (jsFree errorMessage)
  onRefs (jsFree (some exception))

def takeResult (slot : ItemSlot) (output ret : Ptr) : C (St × JsHost σ) Ptr :=
  match ret with
  | none => do
    takeException describe (readHandlerName slot)
    pure output
  | some v => do
    let generatedCode ← onRefs (jsToCString v)
    let _ ← onSt (onMem (readHandlerName slot))
    let text ← onRefs (jsText generatedCode)
    let str ← onSt (onMem (moeStringAlloc text 0))
    onRefs (jsFree generatedCode)
    onRefs (jsFree (some v))
    pure (some str)

variable (jsRuntime : JsRuntime)

def generateItem (jsTokenArray : Addr) (array : ι) (structName : Ptr) (slot : ItemSlot) (output : Ptr) :
    C (St × JsHost σ) Ptr := do
  let _ ← onSt (onMem (readHandlerName slot))
  onSt (onMem (printArgs slot))
  let name ← onSt (onMem (readHandlerName slot))
  let callfunc ← onRefs (jsGetPropertyStr jsRuntime.globalObj name)
  let isFunction ← jsIsFunction js callfunc
  if isFunction then do
    let self ← onSt (onMem (moeStringRead structName))
    let argv0 ← onRefs (jsNew (.primitive (.string self)))
    let ret ← jsCall js callfunc jsRuntime.globalObj argv0 jsTokenArray array
    onRefs (jsFree (some argv0))
    let output ← takeResult describe slot output ret
    onRefs (jsFree (some callfunc))
    pure output
  else do
    let _ ← onSt (onMem (readHandlerName slot))
    onRefs (jsFree (some callfunc))
    pure output

def generateCodeForDerivedStruct (jsTokenArray : Addr) (array : ι) (derivedStruct : Addr) : C (St × JsHost σ) Ptr := do
  let d ← onSt (onMem (loadAs Block.asDerivedStruct (some derivedStruct)))
  (List.range d.deriveItemNum).foldlM
    (fun output i => generateItem js describe jsRuntime jsTokenArray array d.structName ⟨d.deriveItems, i⟩ output) none

variable (writes : Nat → Append)

def generateStruct (derivedStruct : Addr) : C (St × JsHost σ) Unit := do
  let d ← onSt (onMem (loadAs Block.asDerivedStruct (some derivedStruct)))
  let _ ← onSt (onMem (moeStringRead d.structName))
  let _ ← onSt (onMem (readTokens derivedStruct))
  let (jsTokenArray, array) ← fromTokenStreamToJsArray js derivedStruct
  let generated ← generateCodeForDerivedStruct js describe jsRuntime jsTokenArray array derivedStruct
  onProgram (writeGenerated writes generated)
  onRefs (jsFree (some jsTokenArray))

def generate (_lex : StbLexer) (p : Ptr) : C (St × JsHost σ) Unit :=
  match p with
  | none => pure ()
  | some derivedStruct => generateStruct js describe jsRuntime writes derivedStruct

end Source

section Source

variable {σ ι : Type} (describe : σ → Option Bytes) (build : Build) (w : World σ ι)

def loadProcMacroScripts : C (St × JsHost σ) Int := do
  let script ← onSt (onMem (readFile w.script))
  match script with
  | none => pure 1
  | some str => do
    let _ ← onSt (onMem (moeStringRead (some str)))
    let text ← onSt (onMem (readString str))
    let threw ← onHost (onJs (w.js.eval text))
    let ret ← if threw then pure none else do
      let v ← onRefs (jsNew (.value none))
      pure (some v)
    onSt (onMem (moeStringFree (some str)))
    if threw then takeException describe (pure ()) else pure ()
    onRefs (jsFree ret)
    pure 0

def processTokens (jsRuntime : JsRuntime) (inputStr : Ptr) : C (St × JsHost σ) Unit := do
  let stringStore ← onSt (onMem (moeStringAlloc none 1024))
  onProgram (initLexer build w inputStr stringStore)
  let lex ← onSt (onLex get)
  tokenLoop build (generate w.js describe jsRuntime w.writes) (lex.rest.length + 1)
  onSt (onMem (moeStringFree (some stringStore)))

def mainWithScripts (inputStr : Ptr) (block : Addr) (jsRuntime : JsRuntime) : C (St × JsHost σ) Exit := do
  processTokens describe build w jsRuntime inputStr
  onRefs (moeJsRuntimeFree build jsRuntime)
  onSt (onMem (moeFree (some block)))
  onSt (onMem (moeStringFree inputStr))
  pure .check

def mainWithInput (inputStr : Ptr) : C (St × JsHost σ) Exit := do
  let block ← onSt (onMem (moeMalloc .jsRuntime))
  let jsRuntime ← onRefs moeJsRuntimeAlloc
  let failed ← loadProcMacroScripts describe w
  if failed ≠ 0 then pure .failure
  else mainWithScripts describe build w inputStr block jsRuntime

def mainWithOutput (inputFile : Bytes) : C (St × JsHost σ) Exit := do
  onProgram (startOutput w inputFile)
  let inputStr ← onSt (onMem (readFile w.input))
  mainWithInput describe build w inputStr

def mainToCheck : C (St × JsHost σ) Exit :=
  match w.inputFile? with
  | none => pure .failure
  | some inputFile => if w.clears then mainWithOutput describe build w inputFile else pure .failure

def main : C (St × JsHost σ) Int := do
  let exit ← mainToCheck describe build w
  match exit with
  | .failure => pure 1
  | .check => do
    onSt (onMem (moeCheckMemoryLeak build))
    pure 0

end Source

/-! ## What the calls do with references -/

section Interface

open References

variable {f r : Multiset (Addr × JsCell)} {a b : Addr} {c : JsCell}

/-- All references but the one at `a` are as they were, and it is gone. -/
theorem jsFree_turns (split : f = {(a, c)} + r) : Turns f (jsFree (some a)) fun _ g => g = r := .release split

/-- A C string, or `NULL`. -/
def CText (str : Ptr) (text : Option Bytes) (f : Multiset (Addr × JsCell)) : Prop :=
  match text with
  | none => str = none ∧ f = 0
  | some text => ∃ a, str = some a ∧ f = {(a, .cString text)}

theorem jsToCString_turns (text : Option Bytes) (held : (a, .value text) ∈ f) :
    Turns f (jsToCString a) fun str g => ∃ own, CText str text own ∧ g = own + f := by
  refine .bind (.read held) ?_
  rintro _ _ ⟨rfl, rfl⟩
  cases text with
  | none => exact .pure ⟨0, ⟨rfl, rfl⟩, (zero_add _).symm⟩
  | some text =>
    refine .bind (.create _) ?_
    rintro str _ rfl
    exact .pure ⟨_, ⟨str, rfl, rfl⟩, rfl⟩

theorem jsText_turns {str : Ptr} {text : Option Bytes} {own : Multiset (Addr × JsCell)} (is : CText str text own)
    (split : f = own + r) : Turns f (jsText str) fun v g => v = text ∧ g = f := by
  cases text with
  | none =>
    obtain ⟨rfl, rfl⟩ := is
    exact .pure ⟨rfl, rfl⟩
  | some text =>
    obtain ⟨a, rfl, rfl⟩ := is
    refine .bind (.read (b := .cString text) (by simp [split])) ?_
    rintro _ _ ⟨rfl, rfl⟩
    exact .pure ⟨rfl, rfl⟩

theorem jsFreeText_turns {str : Ptr} {text : Option Bytes} {own : Multiset (Addr × JsCell)} (is : CText str text own)
    (split : f = own + r) : Turns f (jsFree str) fun _ g => g = r := by
  cases text with
  | none =>
    obtain ⟨rfl, rfl⟩ := is
    exact .pure (by rw [split, zero_add])
  | some text =>
    obtain ⟨a, rfl, rfl⟩ := is
    exact jsFree_turns split

theorem jsGetPropertyStr_turns (name : Bytes) (held : (a, c) ∈ f) :
    Turns f (jsGetPropertyStr a name) fun b g => g = {(b, .property name)} + f := by
  refine .bind (.read held) ?_
  rintro _ _ ⟨rfl, rfl⟩
  exact .create _

theorem jsElements_turns (tokens : List JsToken) (held : (a, .array tokens) ∈ f) :
    Turns f (jsElements a) fun elements g => elements = tokens ∧ g = f := by
  refine .bind (.read held) ?_
  rintro _ _ ⟨rfl, rfl⟩
  exact .pure ⟨rfl, rfl⟩

theorem jsSetPropertyStr_turns {type value : Option JsValue} (prop : TokenProperty) (v : JsValue)
    (split : f = {(b, .primitive v)} + ({(a, .tokenObject type value)} + r)) :
    Turns f (jsSetPropertyStr a prop b) fun _ g => g = {(a, match prop with
      | .type => .tokenObject (some v) value
      | .value => .tokenObject type (some v))} + r := by
  have swapped : f = {(a, .tokenObject type value)} + ({(b, .primitive v)} + r) := by
    rw [split]
    abel
  refine .bind (.read (b := .tokenObject type value) (by simp [split])) ?_
  rintro _ _ ⟨rfl, rfl⟩
  refine .bind (.read (b := .primitive v) (by simp [split])) ?_
  rintro _ _ ⟨rfl, rfl⟩
  cases prop with
  | type =>
    refine .bind (.write swapped _) ?_
    rintro _ _ rfl
    exact jsFree_turns (by abel)
  | value =>
    refine .bind (.write swapped _) ?_
    rintro _ _ rfl
    exact jsFree_turns (by abel)

/-- A token object has the properties of the token, and nothing else is left. -/
theorem fromTokenToJsTokenObject_turns (token : TokenValue) : Turns f (fromTokenToJsTokenObject token) fun a g =>
    g = {(a, .tokenObject (some (.string (MoeToolchain.fromTokenToJsTokenObject token).type))
      (some (MoeToolchain.fromTokenToJsTokenObject token).value))} + f := by
  refine .bind (.create _) ?_
  rintro jsToken _ rfl
  refine .bind (.create _) ?_
  rintro type _ rfl
  refine .bind (jsSetPropertyStr_turns .type _ rfl) ?_
  rintro _ _ rfl
  refine .bind (q := fun a g => g = {(a, .primitive (MoeToolchain.fromTokenToJsTokenObject token).value)} +
    ({(jsToken, .tokenObject (some (.string (moeTokenTypeToString (tokenType token)))) none)} + f)) ?_ ?_
  · cases token <;> exact .create _
  rintro value _ rfl
  refine .bind (jsSetPropertyStr_turns .value _ rfl) ?_
  rintro _ _ rfl
  refine .pure ?_
  cases token <;> rfl

theorem addTokens_turns (tokens : List TokenValue) : ∀ (added : List JsToken),
    Turns ({(a, .array added)} + r) (addTokens a added.length tokens) fun _ g =>
      g = {(a, .array (added ++ tokens.map MoeToolchain.fromTokenToJsTokenObject))} + r := by
  induction tokens with
  | nil =>
    intro added
    exact .pure (by simp)
  | cons token tokens ih =>
    intro added
    refine .bind (fromTokenToJsTokenObject_turns token) ?_
    rintro jsToken _ rfl
    refine .bind (q := fun _ g => g =
      {(a, .array (added ++ [MoeToolchain.fromTokenToJsTokenObject token]))} + r) ?_ ?_
    · refine .bind (.read (b := .array added) (by simp)) ?_
      rintro _ _ ⟨rfl, rfl⟩
      refine .bind (.read (b := .tokenObject _ _) (Multiset.mem_add.mpr (.inl (Multiset.mem_singleton_self _)))) ?_
      rintro _ _ ⟨rfl, rfl⟩
      simp only [if_true]
      refine .bind (.write (add_left_comm _ _ _) _) ?_
      rintro _ _ rfl
      exact jsFree_turns (add_left_comm _ _ _)
    · rintro _ _ rfl
      have rest := ih (added ++ [MoeToolchain.fromTokenToJsTokenObject token])
      rw [List.length_append, List.length_singleton, List.append_assoc] at rest
      exact rest

theorem moeJsRuntimeAlloc_turns : Turns 0 moeJsRuntimeAlloc fun jsRuntime g => g = jsRuntime.references := by
  refine .bind (.create _) ?_
  rintro rt _ rfl
  refine .bind (.create _) ?_
  rintro ctx _ rfl
  refine .bind (.create _) ?_
  rintro globalObj _ rfl
  exact .pure (by simp only [JsRuntime.references, add_zero])

/-- Freeing the runtime finds no object left, and leaves nothing. -/
theorem moeJsRuntimeFree_turns (build : Build) (jsRuntime : JsRuntime) :
    Turns jsRuntime.references (moeJsRuntimeFree build jsRuntime) fun _ g => g = 0 := by
  refine .bind (jsFree_turns rfl) ?_
  rintro _ _ rfl
  refine .bind (jsFree_turns rfl) ?_
  rintro _ _ rfl
  refine .bind (q := fun _ g => g = {(jsRuntime.rt, .runtime)}) ?_ ?_
  · cases build with
    | ndebug => exact .pure rfl
    | assertions =>
      refine .bind (q := fun none_ g => none_ = true ∧ g = {(jsRuntime.rt, .runtime)}) ?_ ?_
      · refine .get fun refs held => .pure ⟨?_, rfl⟩
        rw [List.all_eq_true]
        rintro (_ | c) here
        · rfl
        · obtain ⟨v, mem⟩ := Turns.mem_of_cell held here
          obtain ⟨-, rfl⟩ := Prod.mk.inj (Multiset.mem_singleton.mp mem)
          rfl
      · rintro _ _ ⟨rfl, rfl⟩
        exact .pure rfl
  rintro _ _ rfl
  exact jsFree_turns (add_zero _).symm

end Interface

end Refs

end MoeToolchain
