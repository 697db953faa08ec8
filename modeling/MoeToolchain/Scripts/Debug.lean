import MoeToolchain.ProcMacro.Generate
import MoeToolchain.Scripts.CText

/-!
# `debug.js`

The two handlers of the script: `debug` for a struct, with the scan of its fields, and
`debugEnum` for an enum. A JavaScript string is the bytes that `JS_ToCString` makes of it.

Main results:

* `debugField_callees`: which function the statements for a field call.
* `debug_clean`, `debugEnum_clean`: the generated text has no NUL.
-/

namespace MoeToolchain
set_option autoImplicit false

/-! ## Tokens of the script -/

/-- The value of an identifier token. -/
def JsToken.identifier? (tok : JsToken) : Option Bytes :=
  match tok.value with
  | .string text => if tok.type = moeTokenTypeToString .identifier then some text else none
  | _ => none

def JsToken.isStar (tok : JsToken) : Bool :=
  tok.type = moeTokenTypeToString .punctuation ∧ tok.value = .string (bytesOf "*")

/-! ## The scan of the fields -/

/-- The `type` of a field; `bareStruct` and `bareEnum` have no tag. -/
inductive FieldType
  | int
  | float
  | double
  | struct (tag : Bytes)
  | enum (tag : Bytes)
  | bareStruct
  | bareEnum
deriving DecidableEq, Repr

def FieldType.text : FieldType → Bytes
  | int => bytesOf "int"
  | float => bytesOf "float"
  | double => bytesOf "double"
  | struct tag => bytesOf "struct " ++ tag
  | enum tag => bytesOf "enum " ++ tag
  | bareStruct => bytesOf "struct"
  | bareEnum => bytesOf "enum"

structure Field where
  type : FieldType
  name : Bytes
  ptr : Nat
deriving DecidableEq, Repr

/-- The type that begins with `typeName`, and how many of the tokens after it belong to it. -/
def typeAt (typeName : Bytes) (rest : List JsToken) : Option (FieldType × Nat) :=
  if typeName = bytesOf "int" then some (.int, 0)
  else if typeName = bytesOf "float" then some (.float, 0)
  else if typeName = bytesOf "double" then some (.double, 0)
  else if typeName = bytesOf "struct" then
    match rest.head?.bind JsToken.identifier? with
    | some structName => some (.struct structName, 1)
    | none => some (.bareStruct, 0)
  else if typeName = bytesOf "enum" then
    match rest.head?.bind JsToken.identifier? with
    | some enumName => some (.enum enumName, 1)
    | none => some (.bareEnum, 0)
  else none

/-- How many stars come first. -/
def stars : List JsToken → Nat
  | [] => 0
  | tok :: rest => if tok.isStar then stars rest + 1 else 0

/-- One turn of the loop on the token `tok`, with the field it pushes and how far it
moves `i` itself. -/
def fieldAt (tok : JsToken) (rest : List JsToken) : Option Field × Nat :=
  match tok.identifier?.bind fun typeName => typeAt typeName rest with
  | none => (none, 0)
  | some (nextType, used) =>
    let ptrDepth := stars (rest.drop used)
    match rest[used + ptrDepth]?.bind JsToken.identifier? with
    | some name => (some ⟨nextType, name, ptrDepth⟩, used + ptrDepth + 1)
    | none => (none, used + ptrDepth)

/-- The loop; `skip` is how many tokens `i` has been moved over already. -/
def scan : Nat → List JsToken → List Field
  | _, [] => []
  | skip + 1, _ :: rest => scan skip rest
  | 0, tok :: rest => (fieldAt tok rest).1.toList ++ scan (fieldAt tok rest).2 rest

def scanFields (tokens : List JsToken) : List Field := scan 0 tokens

/-! ## Code for a struct -/

/-- `_moe_proc_macro_<name>_derive_<trait>_impl` -/
def implName (name trait : Bytes) : Bytes :=
  bytesOf "_moe_proc_macro_" ++ name ++ bytesOf "_derive_" ++ trait ++ bytesOf "_impl"

def debugTrait : Bytes := bytesOf "debug"

def debugEnumTrait : Bytes := bytesOf "debug_enum"

def helperName (name : Bytes) : Bytes := implName name debugTrait ++ bytesOf "_helper"

def selfWord : Bytes := bytesOf "self"

def baseIdent : CExpr := .ident (bytesOf "base_ident")

/-- `self->name` -/
def fieldExpr (f : Field) : CExpr := .arrow (.ident selfWord) f.name

/-- `(base_ident + 1) * 4` -/
def fieldIndent : CExpr := .binary .times (.paren (.binary .add baseIdent (.digit 1))) (.digit 4)

/-- `base_ident * 4` -/
def baseIndent : CExpr := .binary .times baseIdent (.digit 4)

/-- `base_ident + 1` -/
def nextIdent : CExpr := .binary .add baseIdent (.digit 1)

/-- `printf("%*s<name>: ..", (base_ident + 1) * 4, "", ..);` -/
def printField (f : Field) (format : List CFormat) (args : List CExpr) : CStmt :=
  .call (.printf (.padded :: .plain (f.name ++ bytesOf ": ") :: format) (fieldIndent :: .emptyString :: args))

/-- `printf("\n");` -/
def printNewline : CStmt := .call (.printf [.newline] [])

/-- `f.type == 'int' ? '%d' : '%f'` -/
def scalarFormat (type : FieldType) : CFormat := if type = .int then .int else .float

/-- `(void*)self->name` -/
def fieldAddress (f : Field) : CExpr := .unary .voidPtr (fieldExpr f)

def debugPointerField (f : Field) : List CStmt :=
  match f.type with
  | .struct tag =>
    [printField f [.plain (bytesOf "struct _* ("), .pointer, .plain (bytesOf ") = ")] [fieldAddress f],
      .ifThen (fieldExpr f) (.function (helperName tag) [fieldExpr f, nextIdent])]
  | .enum tag =>
    [printField f [.plain (bytesOf "enum " ++ tag ++ bytesOf "* ("), .pointer, .plain (bytesOf ") = ")] [fieldAddress f],
      .ifThen (fieldExpr f) (.function (implName tag debugEnumTrait) [.unary .deref (fieldExpr f)]),
      printNewline]
  | .bareStruct => [printField f [.plain (bytesOf "struct = "), .pointer, .newline] [fieldAddress f]]
  | .bareEnum => [printField f [.plain (bytesOf "enum = "), .pointer, .newline] [fieldAddress f]]
  | type =>
    [printField f [.plain (type.text ++ bytesOf " = "), .pointer] [fieldAddress f],
      .ifThen (fieldExpr f) (.printf [.plain (bytesOf " -> "), scalarFormat type] [.unary .deref (fieldExpr f)]),
      printNewline]

def debugValueField (f : Field) : List CStmt :=
  match f.type with
  | .struct tag =>
    [printField f [.plain (bytesOf "struct _ = ")] [],
      .call (.function (helperName tag) [.unary .addressOf (fieldExpr f), nextIdent])]
  | .enum tag =>
    [printField f [.plain (bytesOf "enum " ++ tag ++ bytesOf " = ")] [],
      .call (.function (implName tag debugEnumTrait) [fieldExpr f]),
      printNewline]
  | .bareStruct => [printField f [.plain (bytesOf "struct = <unknown>"), .newline] []]
  | .bareEnum => [printField f [.plain (bytesOf "enum = <unknown>"), .newline] []]
  | type => [printField f [.plain (type.text ++ bytesOf " = "), scalarFormat type, .newline] [fieldExpr f]]

/-- The statements for a field. -/
def debugField (f : Field) : List CStmt := if f.ptr > 0 then debugPointerField f else debugValueField f

def debugHelper (name : Bytes) (fields : List Field) : CFunction where
  name := helperName name
  params := [⟨.structPtr name, selfWord⟩, ⟨.named (bytesOf "int"), bytesOf "base_ident"⟩]
  body :=
    .ifElse (.binary .equal baseIdent (.digit 0))
        (.printf [.padded, .plain (name ++ bytesOf " \x7b"), .newline] [baseIndent, .emptyString])
        (.printf [.plain (name ++ bytesOf " \x7b"), .newline] []) ::
      fields.flatMap debugField ++
      [.call (.printf [.padded, .plain (bytesOf "\x7d"), .newline] [baseIndent, .emptyString])]

def debugImpl (name : Bytes) : CFunction where
  name := implName name debugTrait
  params := [⟨.structPtr name, selfWord⟩]
  body := [.call (.function (helperName name) [.ident selfWord, .digit 0])]

/-- `globalThis.debug` -/
def debug (name : Bytes) (tokens : List JsToken) : List CFunction :=
  [debugHelper name (scanFields tokens), debugImpl name]

/-! ## Code for an enum -/

/-- The identifiers of the body. -/
def variants (tokens : List JsToken) : List Bytes := tokens.filterMap JsToken.identifier?

/-- `globalThis.debug_enum` -/
def debugEnum (name : Bytes) (tokens : List JsToken) : List CFunction :=
  [{ name := implName name debugEnumTrait
     params := [⟨.enum name, bytesOf "value"⟩]
     body := [.switch (.ident (bytesOf "value")) ((variants tokens).map fun v => (v, v)) (bytesOf "<unknown>")] }]

/-! ## The script as an engine -/

/-- The functions that the script defines, with the definitions they generate. -/
def scriptFunction? (handler : Bytes) : Option (Bytes → List JsToken → List CFunction) :=
  if handler = debugTrait then some debug
  else if handler = debugEnumTrait then some debugEnum
  else none

def programText (fs : List CFunction) : Bytes := fs.flatMap CFunction.text

/-- The functions of the global object that the script does not define, such as `String` and
`parseInt`, with what they return for a name and an array of tokens. -/
abbrev Builtins := Bytes → Option (Bytes → List JsToken → CallResult)

/-- What the function of the name makes of a struct's name and tokens. -/
def globalFunction? (builtins : Builtins) (handler : Bytes) : Option (Bytes → List JsToken → CallResult) :=
  match scriptFunction? handler with
  | some f => some fun name tokens => .string (programText (f name tokens))
  | none => builtins handler

/-- QuickJS with `debug.js`, where the engine's own functions are `builtins`. -/
def debugJs (builtins : Builtins) : Js Unit (List JsToken) where
  eval _ s := (false, s)
  newArray tokens s := (tokens, s)
  isFunction handler s := ((globalFunction? builtins handler).isSome, s)
  call handler name tokens s :=
    match globalFunction? builtins handler with
    | some f => (f name tokens, s)
    | none => (.exception, s)

/-- What becomes of a result. -/
def CallResult.outcome : CallResult → Outcome
  | exception => .exception
  | string code => .returned code
  | other text => .converted text

theorem outcome_debugJs (builtins : Builtins) (tokens : List JsToken) (name handler : Bytes) :
    (debugJs builtins).outcome tokens name handler () =
      ((globalFunction? builtins handler).elim .notFunction fun f => (f name tokens).outcome, ()) := by
  unfold Js.outcome debugJs
  cases found : globalFunction? builtins handler with
  | none => simp [found]
  | some f => cases returned : f name tokens <;> simp [found, returned, CallResult.outcome]

/-- The functions of the script take the place of any others of these names. -/
theorem globalFunction?_script {handler : Bytes} {f : Bytes → List JsToken → List CFunction} (builtins : Builtins)
    (script : scriptFunction? handler = some f) :
    globalFunction? builtins handler = some fun name tokens => .string (programText (f name tokens)) := by
  rw [globalFunction?, script]

/-! ## Calls -/

/-- The function that is called for a field of the type. -/
def FieldType.callee? : FieldType → Option Bytes
  | struct tag => some (helperName tag)
  | enum tag => some (implName tag debugEnumTrait)
  | _ => none

theorem debugField_callees (f : Field) : (debugField f).flatMap CStmt.callees = f.type.callee?.toList := by
  obtain ⟨type, name, ptr⟩ := f
  unfold debugField
  split
  · cases type <;> rfl
  · cases type <;> rfl

theorem debugHelper_callees (name : Bytes) (fields : List Field) :
    (debugHelper name fields).callees = fields.flatMap fun f => f.type.callee?.toList := by
  have each : (fun f => (debugField f).flatMap CStmt.callees) = fun f => f.type.callee?.toList :=
    funext debugField_callees
  rw [← each, ← List.flatMap_assoc, CFunction.callees, debugHelper, List.flatMap_append, List.flatMap_cons]
  simp [CStmt.callees, CCall.callee?]

theorem debugImpl_callees (name : Bytes) : (debugImpl name).callees = [helperName name] := rfl

theorem debugEnum_callees (name : Bytes) (tokens : List JsToken) : ∀ f ∈ debugEnum name tokens, f.callees = [] := by
  intro f mem
  rw [List.mem_singleton.mp mem]
  rfl

/-! ## Names -/

theorem helperName_inj {name name' : Bytes} (same : helperName name = helperName name') : name = name' := by
  unfold helperName implName at same
  have same := List.append_cancel_right (List.append_cancel_right (List.append_cancel_right
    (List.append_cancel_right same)))
  exact List.append_cancel_left same

/-- A helper has the name of no `_impl` function. -/
theorem helperName_ne_implName (name name' trait : Bytes) : helperName name ≠ implName name' trait := by
  intro same
  have last := congrArg List.getLast? same
  have helper : (bytesOf "_helper").getLast? = some 114 := by decide
  have impl : (bytesOf "_impl").getLast? = some 108 := by decide
  rw [helperName, implName.eq_def name', List.getLast?_append, List.getLast?_append, helper, impl] at last
  exact absurd last (by simp)

/-! ## The names in the fields -/

theorem typeAt_struct {typeName tag : Bytes} {rest : List JsToken} {used : Nat}
    (found : typeAt typeName rest = some (.struct tag, used) ∨ typeAt typeName rest = some (.enum tag, used)) :
    ∃ tok ∈ rest, tok.identifier? = some tag := by
  have head : ∀ {text : Bytes}, rest.head?.bind JsToken.identifier? = some text →
      ∃ tok ∈ rest, tok.identifier? = some text := by
    intro text here
    obtain ⟨tok, first, identifier⟩ := Option.bind_eq_some_iff.mp here
    exact ⟨tok, List.mem_of_mem_head? first, identifier⟩
  unfold typeAt at found
  cases here : rest.head?.bind JsToken.identifier? with
  | none =>
    rw [here] at found
    split_ifs at found <;> simp at found
  | some text =>
    rw [here] at found
    split_ifs at found <;> simp at found
    · rw [← found.1]
      exact head here
    · rw [← found.1]
      exact head here

/-- The words of the tokens. -/
def Words (tokens : List JsToken) (text : Bytes) : Prop := ∃ tok ∈ tokens, tok.identifier? = some text

def FieldType.tag? : FieldType → Option Bytes
  | struct tag => some tag
  | enum tag => some tag
  | _ => none

/-- The name of a field and its tag are words of the tokens. -/
theorem scan_words {f : Field} (tokens : List JsToken) : ∀ {skip : Nat}, f ∈ scan skip tokens →
    Words tokens f.name ∧ ∀ tag, f.type.tag? = some tag → Words tokens tag := by
  induction tokens with
  | nil =>
    intro skip mem
    cases skip <;> cases mem
  | cons tok rest ih =>
    have later : ∀ {text : Bytes}, Words rest text → Words (tok :: rest) text := by
      rintro text ⟨tok', mem, identifier⟩
      exact ⟨tok', List.mem_cons_of_mem _ mem, identifier⟩
    intro skip mem
    cases skip with
    | succ skip =>
      obtain ⟨name, tag⟩ := ih mem
      exact ⟨later name, fun t here => later (tag t here)⟩
    | zero =>
      obtain here | there := List.mem_append.mp mem
      · unfold fieldAt at here
        cases found : tok.identifier?.bind fun typeName => typeAt typeName rest with
        | none =>
          rw [found] at here
          cases here
        | some p =>
          obtain ⟨type, used⟩ := p
          rw [found] at here
          simp only at here
          cases named : rest[used + stars (rest.drop used)]?.bind JsToken.identifier? with
          | none =>
            rw [named] at here
            cases here
          | some name =>
            rw [named] at here
            obtain rfl : f = ⟨type, name, stars (rest.drop used)⟩ := List.mem_singleton.mp here
            obtain ⟨tok', at_, identifier⟩ := Option.bind_eq_some_iff.mp named
            refine ⟨later ⟨tok', List.mem_of_getElem? at_, identifier⟩, fun tag isTag => later ?_⟩
            obtain ⟨typeName, -, type_⟩ := Option.bind_eq_some_iff.mp found
            cases type with
            | struct tag' =>
              cases isTag
              exact typeAt_struct (.inl type_)
            | enum tag' =>
              cases isTag
              exact typeAt_struct (.inr type_)
            | _ => cases isTag
      · obtain ⟨name, tag⟩ := ih there
        exact ⟨later name, fun t here => later (tag t here)⟩

/-! ## No NUL in the code -/

theorem noNul_implName {name trait : Bytes} (clean : NoNul name) (clean' : NoNul trait) : NoNul (implName name trait) :=
  ((((NoNul.append (by decide) clean).append (by decide)).append clean').append (by decide))

theorem noNul_helperName {name : Bytes} (clean : NoNul name) : NoNul (helperName name) :=
  (noNul_implName clean (by decide)).append (by decide)

theorem FieldType.noNul_text {type : FieldType} (clean : ∀ tag, type.tag? = some tag → NoNul tag) : NoNul type.text := by
  cases type with
  | struct tag => exact NoNul.append (by decide) (clean tag rfl)
  | enum tag => exact NoNul.append (by decide) (clean tag rfl)
  | _ => decide

structure Field.Clean (f : Field) : Prop where
  name : NoNul f.name
  tag : ∀ tag, f.type.tag? = some tag → NoNul tag

section Clean

variable {f : Field} {name : Bytes} {tokens : List JsToken}

theorem clean_baseIdent : baseIdent.Clean := show NoNul (bytesOf "base_ident") by decide

theorem clean_fieldExpr (clean : f.Clean) : (fieldExpr f).Clean := ⟨show NoNul selfWord by decide, clean.name⟩

theorem clean_printField (clean : f.Clean) {format : List CFormat} {args : List CExpr}
    (parts : ∀ part ∈ format, part.Clean) (each : ∀ e ∈ args, e.Clean) : (printField f format args).Clean := by
  have start : CFormat.Clean (.plain (f.name ++ bytesOf ": ")) := NoNul.append clean.name (by decide)
  refine ⟨?_, ?_⟩
  · simp only [List.forall_mem_cons]
    exact ⟨trivial, start, parts⟩
  · simp only [List.forall_mem_cons]
    exact ⟨⟨⟨clean_baseIdent, trivial⟩, trivial⟩, trivial, each⟩

theorem clean_printNewline : printNewline.Clean := ⟨by simp [CFormat.Clean], by simp⟩

theorem clean_scalarFormat (type : FieldType) : (scalarFormat type).Clean := by
  unfold scalarFormat
  split <;> trivial

theorem clean_debugPointerField (clean : f.Clean) : ∀ s ∈ debugPointerField f, s.Clean := by
  have expr := clean_fieldExpr clean
  have next : nextIdent.Clean := ⟨clean_baseIdent, trivial⟩
  have address : ∀ e ∈ [fieldAddress f], e.Clean := by
    rw [List.forall_mem_singleton]
    exact expr
  have scalar : NoNul (f.type.text ++ bytesOf " = ") := (FieldType.noNul_text clean.tag).append (by decide)
  have format := clean_scalarFormat f.type
  have print : ∀ {parts : List CFormat}, (∀ part ∈ parts, part.Clean) → (printField f parts [fieldAddress f]).Clean :=
    fun parts => clean_printField clean parts address
  unfold debugPointerField
  split
  · rename_i tag isStruct
    have helper := noNul_helperName (clean.tag tag (by rw [isStruct]; rfl))
    simp only [List.forall_mem_cons]
    refine ⟨print ?_, ⟨expr, helper, ?_⟩, by simp⟩
    · simp +decide [CFormat.Clean]
    · simpa using ⟨expr, next⟩
  · rename_i tag isEnum
    have clean' : NoNul tag := clean.tag tag (by rw [isEnum]; rfl)
    have impl : NoNul (implName tag debugEnumTrait) := noNul_implName clean' (by decide)
    have text : NoNul (bytesOf "enum " ++ tag ++ bytesOf "* (") := (NoNul.append (by decide) clean').append (by decide)
    simp only [List.forall_mem_cons]
    refine ⟨print ?_, ⟨expr, impl, ?_⟩, clean_printNewline, by simp⟩
    · simpa +decide [CFormat.Clean] using text
    · simpa [CExpr.Clean] using expr
  · rw [List.forall_mem_singleton]
    exact print (by simp +decide [CFormat.Clean])
  · rw [List.forall_mem_singleton]
    exact print (by simp +decide [CFormat.Clean])
  · simp only [List.forall_mem_cons]
    refine ⟨print ?_, ⟨expr, ?_, ?_⟩, clean_printNewline, by simp⟩
    · simp +decide [CFormat.Clean, scalar]
    · simpa [CFormat.Clean] using ⟨by decide, format⟩
    · simpa [CExpr.Clean] using expr

theorem clean_debugValueField (clean : f.Clean) : ∀ s ∈ debugValueField f, s.Clean := by
  have expr := clean_fieldExpr clean
  have next : nextIdent.Clean := ⟨clean_baseIdent, trivial⟩
  have scalar : NoNul (f.type.text ++ bytesOf " = ") := (FieldType.noNul_text clean.tag).append (by decide)
  have format := clean_scalarFormat f.type
  have print : ∀ {parts : List CFormat}, (∀ part ∈ parts, part.Clean) → (printField f parts []).Clean :=
    fun parts => clean_printField clean parts (by simp)
  unfold debugValueField
  split
  · rename_i tag isStruct
    have helper := noNul_helperName (clean.tag tag (by rw [isStruct]; rfl))
    simp only [List.forall_mem_cons]
    refine ⟨print ?_, ⟨helper, ?_⟩, by simp⟩
    · simp +decide [CFormat.Clean]
    · simpa using ⟨expr, next⟩
  · rename_i tag isEnum
    have clean' : NoNul tag := clean.tag tag (by rw [isEnum]; rfl)
    have impl : NoNul (implName tag debugEnumTrait) := noNul_implName clean' (by decide)
    have text : NoNul (bytesOf "enum " ++ tag ++ bytesOf " = ") := (NoNul.append (by decide) clean').append (by decide)
    simp only [List.forall_mem_cons]
    refine ⟨print ?_, ⟨impl, ?_⟩, clean_printNewline, by simp⟩
    · simpa +decide [CFormat.Clean] using text
    · simpa using expr
  · rw [List.forall_mem_singleton]
    exact print (by simp +decide [CFormat.Clean])
  · rw [List.forall_mem_singleton]
    exact print (by simp +decide [CFormat.Clean])
  · rw [List.forall_mem_singleton]
    refine clean_printField clean ?_ (by simpa using expr)
    simpa [CFormat.Clean] using ⟨scalar, format⟩

theorem clean_debugField (clean : f.Clean) : ∀ s ∈ debugField f, s.Clean := by
  unfold debugField
  split
  · exact clean_debugPointerField clean
  · exact clean_debugValueField clean

theorem clean_debugHelper {fields : List Field} (clean : NoNul name) (each : ∀ f ∈ fields, f.Clean) :
    (debugHelper name fields).Clean where
  name := noNul_helperName clean
  params := by
    have self : NoNul selfWord := by decide
    have base : NoNul (bytesOf "base_ident") := by decide
    have int : NoNul (bytesOf "int") := by decide
    simp only [debugHelper, List.forall_mem_cons]
    exact ⟨⟨clean, self⟩, ⟨int, base⟩, by simp⟩
  body := by
    have indent : baseIndent.Clean := ⟨clean_baseIdent, trivial⟩
    have title : NoNul (name ++ bytesOf " \x7b") := clean.append (by decide)
    have fields' : ∀ s ∈ fields.flatMap debugField, s.Clean := by
      intro s mem
      obtain ⟨f, here, mem⟩ := List.mem_flatMap.mp mem
      exact clean_debugField (each f here) s mem
    simp only [debugHelper, List.forall_mem_append, List.forall_mem_cons]
    refine ⟨⟨⟨⟨clean_baseIdent, trivial⟩, ?_, ?_⟩, fields'⟩, ⟨?_, ?_⟩, by simp⟩
    · refine ⟨?_, ?_⟩
      · simpa [CFormat.Clean] using title
      · simpa [CExpr.Clean] using indent
    · refine ⟨?_, by simp⟩
      simpa [CFormat.Clean] using title
    · simp +decide [CFormat.Clean]
    · simpa [CExpr.Clean] using indent

/-- The generated code has no NUL. -/
theorem debug_clean (clean : NoNul name) (words : ∀ text, Words tokens text → NoNul text) :
    ∀ f ∈ debug name tokens, f.Clean := by
  have fields : ∀ f ∈ scanFields tokens, f.Clean := by
    intro f mem
    obtain ⟨named, tagged⟩ := scan_words tokens mem
    exact ⟨words _ named, fun tag here => words tag (tagged tag here)⟩
  have self : NoNul selfWord := by decide
  have helper := noNul_helperName clean
  simp only [debug, List.forall_mem_cons]
  refine ⟨clean_debugHelper clean fields, ⟨noNul_implName clean (by decide), ?_, ?_⟩, by simp⟩
  · rw [debugImpl, List.forall_mem_singleton]
    exact ⟨clean, self⟩
  · rw [debugImpl, List.forall_mem_singleton]
    refine ⟨helper, ?_⟩
    simpa [CExpr.Clean] using self

theorem debugEnum_clean (clean : NoNul name) (words : ∀ text, Words tokens text → NoNul text) :
    ∀ f ∈ debugEnum name tokens, f.Clean := by
  have value : NoNul (bytesOf "value") := by decide
  have unknown : NoNul (bytesOf "<unknown>") := by decide
  have labels : ∀ v ∈ variants tokens, NoNul v := by
    intro v mem
    obtain ⟨tok, mem, identifier⟩ := List.mem_filterMap.mp mem
    exact words v ⟨tok, mem, identifier⟩
  rw [debugEnum, List.forall_mem_singleton]
  refine ⟨noNul_implName clean (by decide), ?_, ?_⟩
  · rw [List.forall_mem_singleton]
    exact ⟨clean, value⟩
  · rw [List.forall_mem_singleton]
    refine ⟨value, ?_, unknown⟩
    rw [List.forall_mem_map]
    exact fun v mem => ⟨labels v mem, labels v mem⟩

end Clean

end MoeToolchain
