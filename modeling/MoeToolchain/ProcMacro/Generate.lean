import MoeToolchain.ProcMacro.TokenLoop

/-!
# Code generation

`generateCodeForDerivedStruct` and the part of `main` that calls it and writes what it
returns, next to the state outside the program's own memory: the QuickJS runtime and
the output file. The script engine is a parameter (`Js`), with any answers.

`generate_refines` says that this part does on the memory what `Values.generate` does on
the value of the struct, and counts the strings that no one frees: all but the last one
that `generateCodeForDerivedStruct` allocates.
-/

namespace MoeToolchain
set_option autoImplicit false
open Lib

/-! ## Token objects -/

/-- `moe_token_type_to_string`. -/
def moeTokenTypeToString : MoeTokenType → Bytes
  | .unknown => bytesOf "moe_token_type_unknown"
  | .identifier => bytesOf "moe_token_type_identifier"
  | .punctuation => bytesOf "moe_token_type_punctuation"
  | .stringLiteral => bytesOf "moe_token_type_string_literal"
  | .intLiteral => bytesOf "moe_token_type_int_literal"
  | .floatLiteral => bytesOf "moe_token_type_float_literal"

/-- The argument of `JS_NewString`, `JS_NewInt32` or `JS_NewFloat64`. -/
inductive JsValue
  | string (text : Bytes)
  | int32 (value : Int)
  | float64 (value : BitVec 32)
deriving DecidableEq, Repr

/-- The properties of a token object. -/
structure JsToken where
  type : Bytes
  value : JsValue
deriving DecidableEq, Repr

/-- A text is the bytes that `JS_NewString` is given; of bytes that are not UTF-8 the engine makes others. -/
def fromTokenToJsTokenObject : TokenValue → JsToken
  | .identifier text => ⟨moeTokenTypeToString .identifier, .string (cString text)⟩
  | .stringLiteral text => ⟨moeTokenTypeToString .stringLiteral, .string (cString text)⟩
  | .punctuation v => ⟨moeTokenTypeToString .punctuation, .string (cString [UInt8.ofBitVec (BitVec.ofInt 8 v)])⟩
  | .intLiteral v => ⟨moeTokenTypeToString .intLiteral, .int32 v⟩
  | .floatLiteral v => ⟨moeTokenTypeToString .floatLiteral, .float64 v⟩

/-! ## The script engine -/

/-- What `JS_Call` returns: a string, or a value of another kind with the string that
`JS_ToCString` makes of it, `NULL` when the conversion throws. -/
inductive CallResult
  | exception
  | string (text : Bytes)
  | other (text : Option Bytes)
deriving DecidableEq, Repr

/-- What an attempt to append comes to: no `fopen`, an `fputs` or `fclose` that fails behind
the first bytes, or the whole content in the file. -/
inductive Append
  | closed
  | cut (n : Nat)
  | whole
deriving DecidableEq, Repr

/-- What gets into the file. -/
def Append.kept (content : Bytes) : Append → Bytes
  | closed => []
  | cut n => content.take n
  | whole => content

/-- QuickJS: `σ` is the state of a runtime and `ι` its array objects. A script or a handler
that does not return is not described. -/
structure Js (σ ι : Type) where
  /-- `JS_Eval` of a script: whether it threw. -/
  eval : Bytes → σ → Bool × σ
  newArray : List JsToken → σ → ι × σ
  /-- `JS_IsFunction` of a property of the global object. -/
  isFunction : Bytes → σ → Bool × σ
  /-- `JS_Call` of that property on a struct's name and an array. -/
  call : Bytes → Bytes → ι → σ → CallResult × σ

/-- The script engine, the output file, and how often it was opened to append. -/
structure Host (σ : Type) where
  js : σ
  output : Bytes
  appends : Nat
deriving DecidableEq, Repr

section Source

variable {σ ι : Type} (js : Js σ ι) (writes : Nat → Append)

/-- Run on the script engine. -/
def onJs {α : Type} (x : σ → α × σ) : C (Host σ) α := fun host =>
  .ok ((x host.js).1, { host with js := (x host.js).2 })

/-- `append_to_output`; `writes n` is what the `n`-th attempt to append comes to. The results
of `fputs` and `fclose` are not looked at. -/
def appendToOutput (content : Bytes) : C (Host σ) Int := fun host =>
  match writes host.appends with
  | .closed => .ok (1, { host with appends := host.appends + 1 })
  | write => .ok (0, { host with output := host.output ++ write.kept content, appends := host.appends + 1 })

/-- The printing loop over an item's arguments. -/
def printArgs (slot : ItemSlot) : C Mem Unit := do
  let item ← readItem slot
  forM (List.range item.argNum) fun j => do
    let args ← loadAs Block.asDeriveArgs item.args
    let arg ← elementAt args j
    let _ ← moeStringRead arg.argType
    let _ ← moeStringRead arg.argName
    pure ()

/-- What becomes of `output` after a call. -/
def takeResult (slot : ItemSlot) (output : Ptr) (ret : CallResult) : C Mem Ptr := do
  let _ ← readHandlerName slot
  match ret with
  | .exception => pure output
  | .string text => do
    let str ← moeStringAlloc (some text) 0
    pure (some str)
  | .other text => do
    let str ← moeStringAlloc text 0
    pure (some str)

/-- One turn of the loop over the derive items. -/
def generateItem (array : ι) (structName : Ptr) (slot : ItemSlot) (output : Ptr) : C (St × Host σ) Ptr := do
  let _ ← onSt (onMem (readHandlerName slot))
  onSt (onMem (printArgs slot))
  let name ← onSt (onMem (readHandlerName slot))
  let isFunction ← onRest (onJs (js.isFunction name))
  if isFunction then do
    let self ← onSt (onMem (moeStringRead structName))
    let ret ← onRest (onJs (js.call name self array))
    onSt (onMem (takeResult slot output ret))
  else do
    let _ ← onSt (onMem (readHandlerName slot))
    pure output

def generateCodeForDerivedStruct (array : ι) (derivedStruct : Addr) : C (St × Host σ) Ptr := do
  let d ← onSt (onMem (loadAs Block.asDerivedStruct (some derivedStruct)))
  (List.range d.deriveItemNum).foldlM
    (fun output i => generateItem js array d.structName ⟨d.deriveItems, i⟩ output) none

/-- The tokens of a struct as the list iterator comes to them. -/
def readTokens (derivedStruct : Addr) : C Mem (List TokenValue) := do
  let m ← get
  collectTokens (m.heap.next + 1) (moeListIteratorInit (some derivedStruct))

def fromTokenStreamToJsArray (derivedStruct : Addr) : C (St × Host σ) ι := do
  let tokens ← onSt (onMem (readTokens derivedStruct))
  onRest (onJs (js.newArray (tokens.map fromTokenToJsTokenObject)))

/-- `if (generated != NULL) ..` -/
def writeGenerated (generated : Ptr) : C (St × Host σ) Unit :=
  match generated with
  | none => pure ()
  | some str => do
    let content ← onSt (onMem (moeStringRead (some str)))
    let _ ← onRest (appendToOutput writes content)
    onSt (onMem (moeStringFree (some str)))

/-- What `main` does with a struct that it found, up to the free. -/
def generateStruct (derivedStruct : Addr) : C (St × Host σ) Unit := do
  let d ← onSt (onMem (loadAs Block.asDerivedStruct (some derivedStruct)))
  let _ ← onSt (onMem (moeStringRead d.structName))
  -- moe_derive_struct_metadata_print
  let _ ← onSt (onMem (readTokens derivedStruct))
  let array ← fromTokenStreamToJsArray js derivedStruct
  let generated ← generateCodeForDerivedStruct js array derivedStruct
  writeGenerated writes generated

/-- `if (derived_struct != NULL) ..` -/
def generate (_lex : StbLexer) (p : Ptr) : C (St × Host σ) Unit :=
  match p with
  | none => pure ()
  | some derivedStruct => generateStruct js writes derivedStruct

end Source

/-! ## Generation on values -/

/-- What becomes of one derive item. -/
inductive Outcome
  | notFunction
  | exception
  | returned (code : Bytes)
  | converted (text : Option Bytes)
deriving DecidableEq, Repr

/-- The outcome of a handler, and the engine after it. -/
def Js.outcome {σ ι : Type} (js : Js σ ι) (array : ι) (structName name : Bytes) (s : σ) : Outcome × σ :=
  let found := js.isFunction name s
  if found.1 then
    let ret := js.call name structName array found.2
    match ret.1 with
    | .exception => (.exception, ret.2)
    | .string code => (.returned code, ret.2)
    | .other text => (.converted text, ret.2)
  else (.notFunction, found.2)

namespace Values

section Generate

variable {σ ι : Type} (js : Js σ ι) (writes : Nat → Append)

/-- The host, and the number of strings that were allocated and are not freed. -/
abbrev Run (σ : Type) := Host σ × Nat

def onHost {α : Type} (x : C (Host σ) α) : C (Run σ) α := Exec.zoom Prod.fst (fun host w => (host, w.2)) x

/-- A later result takes the place of an earlier one, which is lost. -/
def takeCode (output : Option Bytes) (code : Bytes) : C (Run σ) (Option Bytes) := do
  modify fun w => (w.1, w.2 + output.toList.length)
  pure (some (cString code))

def takeOutcome (output : Option Bytes) : Outcome → C (Run σ) (Option Bytes)
  | .notFunction => pure output
  | .exception => pure output
  | .returned code => takeCode output code
  | .converted none => Exec.fault .nullPointer
  | .converted (some text) => takeCode output text

def generateItem (array : ι) (structName : Bytes) (output : Option Bytes) (name : Bytes) :
    C (Run σ) (Option Bytes) := do
  let outcome ← onHost (onJs (js.outcome array structName name))
  takeOutcome output outcome

def generateCode (array : ι) (structName : Bytes) (names : List Bytes) : C (Run σ) (Option Bytes) :=
  names.foldlM (generateItem js array structName) none

def writeGenerated (generated : Option Bytes) : C (Run σ) Unit :=
  match generated with
  | none => pure ()
  | some content => do
    let _ ← onHost (appendToOutput writes (cString content))
    pure ()

/-- The part of `main`, on a struct as it is read. -/
def generate (v : DerivedStruct) : C (Run σ) Unit := do
  let array ← onHost (onJs (js.newArray (v.metadata.map fromTokenToJsTokenObject)))
  let generated ← generateCode js array v.structName v.handlers
  writeGenerated writes generated

end Generate

/-- What is done with each struct that is found, as it is read. -/
def forFound {ω : Type} (step : DerivedStruct → C ω Unit) (_lex : StbLexer) (v : Option DerivedStruct) :
    C (StbLexer × ω) Unit :=
  match v with
  | none => pure ()
  | some v => onRest (step (asRead v))

end Values

/-! ## The simulation -/

section Simulation

variable {σ ι : Type} {js : Js σ ι} {writes : Nat → Append} {m₀ : Mem} {base f : Footprint} {s : StructAt}
  {num i : Nat} {v : DerivedStruct} {lex : StbLexer} {m : Mem}

/-- The pointer `p` is a string with the text `text`, in the blocks `f`. -/
def Output (p : Ptr) (text : Option Bytes) (f : Footprint) : Prop :=
  match text with
  | none => p = none ∧ f = 0
  | some b => ∃ l : StringAt, p = some l.handle ∧ f = strBlocks l b

/-- The output file after an attempt to append to it. -/
def Host.append (writes : Nat → Append) (content : Bytes) (host : Host σ) : Host σ :=
  { host with
    output := host.output ++ (writes host.appends).kept content
    appends := host.appends + 1 }

theorem appendToOutput_run (content : Bytes) (host : Host σ) :
    ∃ ret, appendToOutput writes content host = .ok (ret, host.append writes content) := by
  unfold appendToOutput Host.append
  cases writes host.appends with
  | closed => exact ⟨1, by simp [Append.kept]⟩
  | cut n => exact ⟨0, rfl⟩
  | whole => exact ⟨0, rfl⟩

theorem Output.card {p : Ptr} {text : Option Bytes} (output : Output p text f) :
    Multiset.card f = 3 * text.toList.length := by
  cases text with
  | none =>
    obtain ⟨-, rfl⟩ := output
    rfl
  | some b =>
    obtain ⟨l, -, rfl⟩ := output
    simp

/-- The struct `v` is there, the string at `p` and the blocks that were lost. -/
def GenRel (m₀ : Mem) (base : Footprint) (s : StructAt) (num : Nat) (v : DerivedStruct) (lex : StbLexer)
    (p : Ptr) (text : Option Bytes) (c : St × Host σ) (w : Values.Run σ) : Prop :=
  c.1.lex = lex ∧ c.2 = w.1 ∧ ∃ out lost, Output p text out ∧ Multiset.card lost = 3 * w.2 ∧
    StructOwned m₀ (out + (base + lost)) s num v c.1.mem

theorem printArgs_owns (owned : StructOwned m₀ f s num v m) (here : i < v.handlers.length) :
    printArgs ⟨s.items, i⟩ m = .ok ((), m) := by
  obtain ⟨item, read, none_, -⟩ := owned.readItem here
  rw [printArgs, Exec.bind_ok read, none_]
  rfl

/-- A turn of the loop, up to what it does with the result of a call. -/
theorem generateItem_run {mem : Mem} {host : Host σ} {array : ι} {output : Ptr}
    (owned : StructOwned m₀ f s num v mem) (here : i < v.handlers.length) :
    let r := js.outcome array (cString v.structName) (cString v.handlers[i]) host.js
    generateItem js array (some s.name.handle) ⟨s.items, i⟩ output (⟨lex, mem⟩, host) =
      match r.1 with
      | .returned code => onSt (onMem do
          let str ← moeStringAlloc (some code) 0
          pure (some str)) (⟨lex, mem⟩, { host with js := r.2 })
      | .converted text => onSt (onMem do
          let str ← moeStringAlloc text 0
          pure (some str)) (⟨lex, mem⟩, { host with js := r.2 })
      | _ => .ok (output, (⟨lex, mem⟩, { host with js := r.2 })) := by
  have handler := owned.readHandler here
  have args := printArgs_owns owned here
  have js_run : ∀ {α : Type} (x : σ → α × σ) (host : Host σ),
      (onRest (onJs x) : C (St × Host σ) α) (⟨lex, mem⟩, host) =
        .ok ((x host.js).1, (⟨lex, mem⟩, { host with js := (x host.js).2 })) := fun x host => rfl
  rw [generateItem, Exec.bind_ok (onMem_ok handler), Exec.bind_ok (onMem_ok args),
    Exec.bind_ok (onMem_ok handler), Exec.bind_ok (js_run _ _)]
  unfold Js.outcome
  generalize js.isFunction (cString v.handlers[i]) host.js = found
  obtain ⟨isFunction, js1⟩ := found
  cases isFunction with
  | false =>
    simp only [Bool.false_eq_true, if_false]
    rw [Exec.bind_ok (onMem_ok handler)]
    rfl
  | true =>
    simp only [if_true]
    rw [Exec.bind_ok (onMem_ok owned.readName), Exec.bind_ok (js_run _ _)]
    simp only
    generalize js.call (cString v.handlers[i]) (cString v.structName) array js1 = ret
    obtain ⟨ret, js2⟩ := ret
    cases ret with
    | exception =>
      have take : takeResult ⟨s.items, i⟩ output .exception mem = .ok (output, mem) := by
        rw [takeResult, Exec.bind_ok handler]
        rfl
      rw [onMem_ok take]
    | string code =>
      have take : takeResult ⟨s.items, i⟩ output (.string code) mem = (do
          let str ← moeStringAlloc (some code) 0
          pure (some str) : C Mem Ptr) mem := by
        rw [takeResult, Exec.bind_ok handler]
      simp only [onSt, onMem, Exec.zoom, take]
    | other text =>
      have take : takeResult ⟨s.items, i⟩ output (.other text) mem = (do
          let str ← moeStringAlloc text 0
          pure (some str) : C Mem Ptr) mem := by
        rw [takeResult, Exec.bind_ok handler]
      simp only [onSt, onMem, Exec.zoom, take]

/-- A turn of the loop does on the memory what it does on values. -/
theorem generateItem_refines {array : ι} (here : i < v.handlers.length) (p : Ptr) (text : Option Bytes) :
    Refines (GenRel m₀ base s num v lex p text)
      (generateItem js array (some s.name.handle) ⟨s.items, i⟩ p)
      (Values.generateItem js array (cString v.structName) text (cString v.handlers[i]))
      (GenRel m₀ base s num v lex) := by
  intro c w at_
  obtain ⟨⟨lex', mem⟩, host⟩ := c
  obtain ⟨_, leaked⟩ := w
  obtain ⟨rfl, rfl, out, lost, output, card, owned⟩ := at_
  have run := @generateItem_run _ _ js _ _ _ _ _ _ lex' _ host array p owned here
  have outcome : Values.onHost (onJs (js.outcome array (cString v.structName) (cString v.handlers[i])))
      (host, leaked) = .ok ((js.outcome array (cString v.structName) (cString v.handlers[i]) host.js).1,
        ({ host with js := (js.outcome array (cString v.structName) (cString v.handlers[i]) host.js).2 }, leaked)) := rfl
  rw [Values.generateItem, Exec.bind_ok outcome]
  simp only at run
  rw [run]
  generalize js.outcome array (cString v.structName) (cString v.handlers[i]) host.js = r
  obtain ⟨r, js'⟩ := r
  have takes : ∀ code : Bytes, ∃ p' c', onSt (onMem (do
        let str ← moeStringAlloc (some code) 0
        pure (some str) : C Mem Ptr)) ((⟨lex', mem⟩, { host with js := js' }) : St × Host σ) = .ok (p', c') ∧
      GenRel m₀ base s num v lex' p' (some (cString code)) c' ({ host with js := js' }, leaked + text.toList.length) := by
    intro code
    obtain ⟨l, mem', alloc, owned'⟩ := owned.alloc (stringContent_cString code)
    refine ⟨some l.handle, (⟨lex', mem'⟩, { host with js := js' }), ?_, rfl, rfl,
      strBlocks l (cString code), out + lost, ⟨l, rfl, rfl⟩, ?_, ?_⟩
    · exact onMem_ok (by rw [Exec.bind_ok alloc]; rfl)
    · simp only [Multiset.card_add, output.card, card]
      omega
    · convert owned' using 1
      abel
  cases r with
  | notFunction => exact ⟨p, _, rfl, rfl, rfl, out, lost, output, card, owned⟩
  | exception => exact ⟨p, _, rfl, rfl, rfl, out, lost, output, card, owned⟩
  | returned code => exact takes code
  | converted text' =>
    cases text' with
    | none => rfl
    | some code => exact takes code

/-- The first `n` turns of the loop. -/
theorem generateItems_refines {array : ι} {n : Nat} (fits : n ≤ v.handlers.length) :
    Refines (GenRel m₀ base s num v lex none none)
      ((List.range n).foldlM
        (fun output i => generateItem js array (some s.name.handle) ⟨s.items, i⟩ output) none)
      (((v.handlers.take n).map cString).foldlM (Values.generateItem js array (cString v.structName)) none)
      (GenRel m₀ base s num v lex) := by
  have related : List.Forall₂ (fun i name => ∃ here : i < v.handlers.length, name = cString v.handlers[i])
      (List.range n) ((v.handlers.take n).map cString) := by
    rw [List.forall₂_iff_get]
    refine ⟨by simp [fits], ?_⟩
    intro i inside inside'
    have bound : i < n := by simpa using inside
    exact ⟨by simpa using bound.trans_le fits, by simp⟩
  refine Refines.foldlM related ?_ none none
  rintro i name ⟨here, rfl⟩ p text
  exact generateItem_refines here p text

theorem generateCode_refines {array : ι} :
    Refines (GenRel m₀ base s v.handlers.length v lex none none)
      (generateCodeForDerivedStruct js array s.addr)
      (Values.generateCode js array (cString v.structName) (v.handlers.map cString))
      (GenRel m₀ base s v.handlers.length v lex) := by
  intro c w at_
  obtain ⟨⟨_, mem⟩, host⟩ := c
  obtain ⟨n, load⟩ := at_.2.2.choose_spec.choose_spec.2.2.load
  rw [generateCodeForDerivedStruct, Exec.bind_ok (onMem_ok load)]
  have all := @generateItems_refines _ _ js m₀ base s v.handlers.length v lex array v.handlers.length (Nat.le_refl _)
  rw [List.take_length] at all
  exact all _ w at_

/-- The text is appended, and its string is freed. -/
theorem writeGenerated_refines (p : Ptr) (text : Option Bytes) :
    Refines (GenRel m₀ base s num v lex p text) (writeGenerated writes p)
      (Values.writeGenerated writes text)
      (fun _ _ => GenRel (σ := σ) m₀ base s num v lex none none) := by
  intro c w at_
  obtain ⟨⟨lex', mem⟩, host⟩ := c
  obtain ⟨_, leaked⟩ := w
  obtain ⟨rfl, rfl, out, lost, output, card, owned⟩ := at_
  cases text with
  | none =>
    obtain ⟨rfl, rfl⟩ := output
    exact ⟨(), _, rfl, rfl, rfl, 0, lost, ⟨rfl, rfl⟩, card, owned⟩
  | some content =>
    obtain ⟨l, rfl, rfl⟩ := output
    obtain ⟨mem', free, owned'⟩ := owned.free
    obtain ⟨ret, append⟩ := @appendToOutput_run _ writes (cString content) host
    have values : Values.onHost (appendToOutput writes (cString content)) (host, leaked) =
        .ok (ret, (host.append writes (cString content), leaked)) := Exec.zoom_ok append
    have source : onRest (appendToOutput writes (cString content)) (⟨lex', mem⟩, host) =
        .ok (ret, ((⟨lex', mem⟩, host.append writes (cString content)) : St × Host σ)) := Exec.zoom_ok append
    rw [Values.writeGenerated, Exec.bind_ok values]
    refine ⟨(), (⟨lex', mem'⟩, host.append writes (cString content)), ?_, rfl, rfl, 0, lost, ⟨rfl, rfl⟩,
      card, by rwa [zero_add]⟩
    rw [writeGenerated, Exec.bind_ok (onMem_ok owned.readString), Exec.bind_ok source, onMem_ok free]

/-- The whole part of `main`, from a struct that was found. -/
theorem generateStruct_refines :
    Refines (GenRel m₀ base s v.handlers.length v lex none none) (generateStruct js writes s.addr)
      (Values.generate js writes (Values.asRead v))
      (fun _ _ => GenRel (σ := σ) m₀ base s v.handlers.length v lex none none) := by
  intro c w at_
  obtain ⟨⟨lex', mem⟩, host⟩ := c
  obtain ⟨_, leaked⟩ := w
  obtain ⟨rfl, rfl, out, lost, output, card, owned⟩ := at_
  obtain ⟨n, load⟩ := owned.load
  have tokens : readTokens s.addr mem = .ok (v.metadata, mem) := owned.readTokens
  let array := js.newArray (v.metadata.map fromTokenToJsTokenObject) host.js
  have source : fromTokenStreamToJsArray js s.addr (⟨lex', mem⟩, host) =
      .ok (array.1, (⟨lex', mem⟩, { host with js := array.2 })) := by
    rw [fromTokenStreamToJsArray, Exec.bind_ok (onMem_ok tokens)]
    rfl
  have values : Values.onHost (onJs (js.newArray (v.metadata.map fromTokenToJsTokenObject))) (host, leaked) =
      .ok (array.1, ({ host with js := array.2 }, leaked)) := rfl
  rw [generateStruct, Values.generate, Exec.bind_ok (onMem_ok load), Exec.bind_ok (onMem_ok owned.readName),
    Exec.bind_ok (onMem_ok tokens), Exec.bind_ok source, Values.asRead, Exec.bind_ok values]
  have rest := Refines.bind (@generateCode_refines _ _ js m₀ base s v lex' array.1)
    (fun p text => @writeGenerated_refines _ writes m₀ base s v.handlers.length v lex' p text)
  exact rest _ _ ⟨rfl, rfl, out, lost, output, card, owned⟩

/-- The blocks of `main`, and the strings that were lost. -/
def LostBlocks (base : Footprint) (host : Host σ) (w : Values.Run σ) (f : Footprint) : Prop :=
  host = w.1 ∧ ∃ lost, f = base + lost ∧ Multiset.card lost = 3 * w.2

theorem generate_refines (lex : StbLexer) (p : Ptr) (v : Option DerivedStruct) :
    Refines (FoundRel m₀ (LostBlocks base) p v) (generate js writes lex p)
      (Values.forFound (Values.generate js writes) lex v)
      (fun _ _ => FoundRel m₀ (LostBlocks base) p v) := by
  cases v with
  | none =>
    intro c w at_
    have nothing : p = none := at_.2.choose_spec.2.1
    subst nothing
    exact ⟨(), c, rfl, at_⟩
  | some v =>
    intro c w at_
    obtain ⟨⟨lex', mem⟩, host⟩ := c
    obtain ⟨_, host', leaked⟩ := w
    obtain ⟨rfl, f, ⟨rfl, lost, rfl, card⟩, s, rfl, owned⟩ := at_
    have refines := @generateStruct_refines _ _ js writes _ _ _ _ _ (⟨lex', mem⟩, host) (host, leaked)
      ⟨rfl, rfl, 0, lost, ⟨rfl, rfl⟩, card, by rwa [zero_add]⟩
    cases run : Values.generate js writes (Values.asRead v) (host, leaked) with
    | error e =>
      rw [run] at refines
      rw [Values.forFound, Values.onRest_error run]
      exact refines
    | ok r =>
      obtain ⟨_, w'⟩ := r
      rw [run] at refines
      obtain ⟨_, c', run', same, host'', out, lost', ⟨-, rfl⟩, card', owned'⟩ := refines
      rw [Values.forFound, Values.onRest_ok run]
      rw [zero_add] at owned'
      exact ⟨(), c', run', same, _, ⟨host'', lost', rfl, card'⟩, s, rfl, owned'⟩

end Simulation

/-! ## The structs of a file -/

/-- The loop does one step for each struct that is found, in order. -/
theorem tokenLoop_found {ω : Type} {build : Build} {step : DerivedStruct → C ω Unit} (fuel : Nat) :
    ∀ {lex lex' : StbLexer} {w w' : ω} (before : List Call),
    Values.tokenLoop build (Values.forFound step) fuel (lex, w) = .ok ((), lex', w') →
    ∃ calls, Values.tokenLoop build Values.recordCall fuel (lex, before) = .ok ((), lex', before ++ calls) ∧
      forM (calls.filterMap Call.result) step w = .ok ((), w') := by
  induction fuel with
  | zero =>
    intro lex lex' w w' before run
    cases run
  | succ fuel ih =>
    intro lex lex' w w' before run
    cases next : lex.rest with
    | nil =>
      rw [tokenLoop_end next] at run ⊢
      cases run
      exact ⟨[], by simp, rfl⟩
    | cons t r =>
      cases lexed : t.isError with
      | true =>
        rw [tokenLoop_parseError next lexed] at run ⊢
        cases run
        exact ⟨[], by simp, rfl⟩
      | false =>
        cases call : Values.parseDerivedStruct build (lex.fetched t r) with
        | error e =>
          rw [tokenLoop_fault next lexed call] at run
          cases run
        | ok p =>
          obtain ⟨v, lex1⟩ := p
          rw [tokenLoop_turn next lexed call] at run
          rw [tokenLoop_call next lexed call]
          cases v with
          | none =>
            obtain ⟨calls, loop, steps⟩ := ih (before ++ [⟨lex.fetched t r, none, lex1⟩]) run
            exact ⟨⟨lex.fetched t r, none, lex1⟩ :: calls, by simpa using loop, steps⟩
          | some v =>
            rw [Values.forFound] at run
            cases here : step (Values.asRead v) w with
            | error e =>
              rw [Exec.bind_error (Values.onRest_error here)] at run
              cases run
            | ok q =>
              obtain ⟨_, w1⟩ := q
              rw [Exec.bind_ok (Values.onRest_ok here)] at run
              obtain ⟨calls, loop, steps⟩ :=
                ih (before ++ [⟨lex.fetched t r, some (Values.asRead v), lex1⟩]) run
              refine ⟨⟨lex.fetched t r, some (Values.asRead v), lex1⟩ :: calls, by simpa using loop, ?_⟩
              show forM (Values.asRead v :: calls.filterMap Call.result) step w = .ok ((), w')
              rw [List.forM_cons, Exec.bind_ok here]
              exact steps

/-! ## Outcomes -/

section Outcomes

variable {σ ι : Type} (js : Js σ ι)

/-- The outcomes of the handlers of one struct, in order. -/
def Js.outcomes (array : ι) (structName : Bytes) : List Bytes → σ → List Outcome × σ
  | [], s => ([], s)
  | name :: names, s =>
    let first := js.outcome array structName name s
    let rest := Js.outcomes array structName names first.2
    (first.1 :: rest.1, rest.2)

def Js.structOutcomes (v : DerivedStruct) (s : σ) : List Outcome × σ :=
  let array := js.newArray (v.metadata.map fromTokenToJsTokenObject) s
  js.outcomes array.1 v.structName v.handlers array.2

/-- The outcomes for each struct of a file. -/
def Js.fileOutcomes : List DerivedStruct → σ → List (List Outcome)
  | [], _ => []
  | v :: vs, s => (js.structOutcomes v s).1 :: Js.fileOutcomes vs (js.structOutcomes v s).2

def Outcome.code? : Outcome → Option Bytes
  | .returned code => some code
  | .converted text => text
  | _ => none

/-- The strings that were made of the results. -/
def codes (os : List Outcome) : List Bytes := os.filterMap Outcome.code?

@[simp] theorem codes_returned (code : Bytes) (os : List Outcome) :
    codes (.returned code :: os) = code :: codes os := rfl

@[simp] theorem codes_converted (code : Bytes) (os : List Outcome) :
    codes (.converted (some code) :: os) = code :: codes os := rfl

/-- What of the code of one struct gets into the file; `n` is the number of the attempt to append. -/
def written (writes : Nat → Append) (n : Nat) (cs : List Bytes) : Bytes :=
  match cs.getLast? with
  | none => []
  | some c => (writes n).kept (cString c)

/-- An attempt to append is made for a struct with code. -/
def attempts (cs : List Bytes) : Nat := min 1 cs.length

def writtenText (writes : Nat → Append) : Nat → List (List Outcome) → Bytes
  | _, [] => []
  | n, os :: oss => written writes n (codes os) ++ writtenText writes (n + attempts (codes os)) oss

end Outcomes

section Results

variable {σ ι : Type} {js : Js σ ι} {writes : Nat → Append} {array : ι} {structName : Bytes}

/-- The loop over the items keeps the last code, and loses a string for each other one. -/
theorem generateItems_ok (names : List Bytes) : ∀ {output output' : Option Bytes} {w w' : Values.Run σ},
    names.foldlM (Values.generateItem js array structName) output w = .ok (output', w') →
    let os := js.outcomes array structName names w.1.js
    w'.1 = { w.1 with js := os.2 } ∧
      output' = (output.toList ++ (codes os.1).map cString).getLast? ∧
      w'.2 + output'.toList.length = w.2 + output.toList.length + (codes os.1).length := by
  induction names with
  | nil =>
    intro output output' w w' run
    cases run
    refine ⟨rfl, ?_, by simp [Js.outcomes, codes]⟩
    cases output <;> rfl
  | cons name names ih =>
    intro output output' w w' run
    rw [List.foldlM_cons] at run
    obtain ⟨host, leaked⟩ := w
    have outcome : Values.onHost (onJs (js.outcome array structName name)) (host, leaked) =
        .ok ((js.outcome array structName name host.js).1,
          ({ host with js := (js.outcome array structName name host.js).2 }, leaked)) := rfl
    rw [Values.generateItem, bind_assoc, Exec.bind_ok outcome] at run
    simp only [Js.outcomes]
    generalize js.outcome array structName name host.js = first at run
    obtain ⟨first, js'⟩ := first
    cases first with
    | notFunction => exact ih run
    | exception => exact ih run
    | returned code =>
      obtain ⟨hosts, out, count⟩ := ih (w := ({ host with js := js' }, leaked + output.toList.length)) run
      refine ⟨hosts, ?_, ?_⟩
      · simp [out, List.getLast?_append, List.getLast?_cons]
      · simp only [codes_returned, List.length_cons, List.length_nil, Option.toList_some] at count ⊢
        omega
    | converted text =>
      cases text with
      | none => cases run
      | some code =>
        obtain ⟨hosts, out, count⟩ := ih (w := ({ host with js := js' }, leaked + output.toList.length)) run
        refine ⟨hosts, ?_, ?_⟩
        · simp [out, List.getLast?_append, List.getLast?_cons]
        · simp only [codes_converted, List.length_cons, List.length_nil, Option.toList_some] at count ⊢
          omega

theorem generateCode_ok {names : List Bytes} {output : Option Bytes} {w w' : Values.Run σ}
    (run : Values.generateCode js array structName names w = .ok (output, w')) :
    let os := js.outcomes array structName names w.1.js
    w'.1 = { w.1 with js := os.2 } ∧ output = (codes os.1).getLast?.map cString ∧
      w'.2 = w.2 + ((codes os.1).length - 1) := by
  obtain ⟨hosts, out, count⟩ := generateItems_ok names run
  simp only [Option.toList_none, List.nil_append, List.length_nil, Nat.add_zero] at out count
  refine ⟨hosts, by rw [out, List.getLast?_map], ?_⟩
  have length : output.toList.length = min 1 (codes (js.outcomes array structName names w.1.js).1).length := by
    rw [out]
    cases (codes (js.outcomes array structName names w.1.js).1) with
    | nil => rfl
    | cons c cs => simp [List.getLast?_cons]
  omega

theorem writeGenerated_ok {cs : List Bytes} {w w' : Values.Run σ}
    (run : Values.writeGenerated writes (cs.getLast?.map cString) w = .ok ((), w')) :
    w'.1.js = w.1.js ∧ w'.1.output = w.1.output ++ written writes w.1.appends cs ∧
      w'.1.appends = w.1.appends + attempts cs ∧ w'.2 = w.2 := by
  obtain ⟨host, leaked⟩ := w
  cases last : cs.getLast? with
  | none =>
    rw [last] at run
    cases run
    rw [List.getLast?_eq_none_iff] at last
    simp [written, attempts, last]
  | some c =>
    have nonempty : attempts cs = 1 := by
      cases cs with
      | nil => cases last
      | cons c cs => simp [attempts]
    obtain ⟨ret, append⟩ := @appendToOutput_run _ writes (cString (cString c)) host
    have values : Values.onHost (appendToOutput writes (cString (cString c))) (host, leaked) =
        .ok (ret, (host.append writes (cString (cString c)), leaked)) := Exec.zoom_ok append
    rw [last, Option.map_some, Values.writeGenerated, Exec.bind_ok values] at run
    cases run
    rw [nonempty, written, last, cString_of_no_nul (no_nul_cString c)]
    exact ⟨rfl, rfl, rfl, rfl⟩

/-- What becomes of the output file and of the count for one struct. -/
theorem generate_ok {v : DerivedStruct} {w w' : Values.Run σ} (run : Values.generate js writes v w = .ok ((), w')) :
    let os := js.structOutcomes v w.1.js
    w'.1.js = os.2 ∧ w'.1.output = w.1.output ++ written writes w.1.appends (codes os.1) ∧
      w'.1.appends = w.1.appends + attempts (codes os.1) ∧ w'.2 = w.2 + ((codes os.1).length - 1) := by
  obtain ⟨host, leaked⟩ := w
  let array := js.newArray (v.metadata.map fromTokenToJsTokenObject) host.js
  have values : Values.onHost (onJs (js.newArray (v.metadata.map fromTokenToJsTokenObject))) (host, leaked) =
      .ok (array.1, ({ host with js := array.2 }, leaked)) := rfl
  rw [Values.generate, Exec.bind_ok values] at run
  obtain ⟨output, w1, code, write⟩ := Exec.bind_eq_ok.mp run
  obtain ⟨host1, out, count⟩ := generateCode_ok code
  rw [out] at write
  obtain ⟨engine, text, appends, lost⟩ := writeGenerated_ok write
  rw [host1] at engine text appends
  exact ⟨engine, text, appends, lost.trans count⟩

/-- The same for all structs of a file. -/
theorem generateFile_ok (vs : List DerivedStruct) : ∀ {w w' : Values.Run σ},
    forM vs (Values.generate js writes) w = .ok ((), w') →
    w'.1.output = w.1.output ++ writtenText writes w.1.appends (js.fileOutcomes vs w.1.js) ∧
      w'.1.appends = w.1.appends + ((js.fileOutcomes vs w.1.js).map fun os => attempts (codes os)).sum ∧
      w'.2 = w.2 + ((js.fileOutcomes vs w.1.js).map fun os => (codes os).length - 1).sum := by
  induction vs with
  | nil =>
    intro w w' run
    cases run
    simp [Js.fileOutcomes, writtenText]
  | cons v vs ih =>
    intro w w' run
    rw [List.forM_cons] at run
    obtain ⟨_, w1, here, later⟩ := Exec.bind_eq_ok.mp run
    obtain ⟨engine, output, appends, lost⟩ := generate_ok here
    obtain ⟨output', appends', lost'⟩ := ih later
    rw [output', output, appends', lost', lost, engine, appends]
    simp only [Js.fileOutcomes, writtenText, List.map_cons, List.sum_cons, List.append_assoc, true_and]
    omega

/-! ## When nothing is lost -/

/-- The code of all handlers that returned any. -/
def wholeText (oss : List (List Outcome)) : Bytes := oss.flatMap fun os => (codes os).flatten

/-- Only the last code of a struct has any bytes, it has no NUL, and all of it is appended. -/
structure Keeps (writes : Nat → Append) (n : Nat) (cs : List Bytes) : Prop where
  earlier : ∀ c ∈ cs.dropLast, c = []
  last : ∀ c ∈ cs.getLast?, 0 ∉ c ∧ (writes n).kept c = c

def KeepsAll (writes : Nat → Append) : Nat → List (List Outcome) → Prop
  | _, [] => True
  | n, os :: oss => Keeps writes n (codes os) ∧ KeepsAll writes (n + attempts (codes os)) oss

theorem cString_eq_self_iff {b : Bytes} : cString b = b ↔ 0 ∉ b :=
  ⟨fun same => same ▸ no_nul_cString b, cString_of_no_nul⟩

theorem Append.length_kept_le (write : Append) (content : Bytes) : (write.kept content).length ≤ content.length := by
  cases write with
  | closed => exact Nat.zero_le _
  | cut n => exact List.length_take_le' n content
  | whole => exact Nat.le_refl _

theorem length_written_le (n : Nat) (cs : List Bytes) : (written writes n cs).length ≤ cs.flatten.length := by
  unfold written
  cases last : cs.getLast? with
  | none => exact Nat.zero_le _
  | some c =>
    obtain ⟨front, rfl⟩ := List.getLast?_eq_some_iff.mp last
    have short := (cString_isPrefix c).length_le
    have shorter := (writes n).length_kept_le (cString c)
    simp only [List.flatten_append, List.flatten_cons, List.flatten_nil, List.append_nil, List.length_append]
    omega

theorem written_iff (n : Nat) (cs : List Bytes) : written writes n cs = cs.flatten ↔ Keeps writes n cs := by
  cases last : cs.getLast? with
  | none =>
    rw [List.getLast?_eq_none_iff] at last
    subst last
    exact ⟨fun _ => ⟨by simp, by simp⟩, fun _ => rfl⟩
  | some c =>
    obtain ⟨front, rfl⟩ := List.getLast?_eq_some_iff.mp last
    have short := (cString_isPrefix c).length_le
    have keeps : Keeps writes n (front ++ [c]) ↔ front.flatten = [] ∧ 0 ∉ c ∧ (writes n).kept c = c := by
      constructor
      · rintro ⟨earlier, tail⟩
        rw [List.dropLast_concat] at earlier
        exact ⟨List.flatten_eq_nil_iff.mpr earlier, tail c last⟩
      · rintro ⟨earlier, tail⟩
        refine ⟨?_, ?_⟩
        · rw [List.dropLast_concat]
          exact List.flatten_eq_nil_iff.mp earlier
        · intro c' here
          rw [last] at here
          cases here
          exact tail
    rw [keeps, written, last]
    simp only [List.flatten_append, List.flatten_cons, List.flatten_nil, List.append_nil]
    constructor
    · intro same
      have length := congrArg List.length same
      have shorter := (writes n).length_kept_le (cString c)
      rw [List.length_append] at length
      have nothing : front.flatten = [] := List.eq_nil_of_length_eq_zero (by omega)
      rw [nothing, List.nil_append] at same
      have whole : cString c = c := (cString_isPrefix c).eq_of_length (by omega)
      rw [whole] at same
      exact ⟨nothing, cString_eq_self_iff.mp whole, same⟩
    · rintro ⟨nothing, clean, kept⟩
      rw [nothing, List.nil_append, cString_of_no_nul clean, kept]

/-- The text of the file is whole exactly when that of each struct is. -/
theorem writtenText_iff (oss : List (List Outcome)) : ∀ n,
    (writtenText writes n oss).length ≤ (wholeText oss).length ∧
      (writtenText writes n oss = wholeText oss ↔ KeepsAll writes n oss) := by
  induction oss with
  | nil =>
    intro n
    exact ⟨Nat.le_refl _, fun _ => trivial, fun _ => rfl⟩
  | cons os oss ih =>
    intro n
    obtain ⟨shorter, whole⟩ := ih (n + attempts (codes os))
    have short := @length_written_le writes n (codes os)
    have cons : wholeText (os :: oss) = (codes os).flatten ++ wholeText oss := by
      simp [wholeText]
    rw [cons, writtenText, KeepsAll, ← whole, ← written_iff]
    constructor
    · rw [List.length_append, List.length_append]
      omega
    · constructor
      · intro same
        have length := congrArg List.length same
        rw [List.length_append, List.length_append] at length
        exact List.append_inj same (by omega)
      · rintro ⟨first, rest⟩
        rw [first, rest]

end Results

end MoeToolchain
