import MoeToolchain.Scripts.CReader
import MoeToolchain.Scripts.CRun
import MoeToolchain.Scripts.NamedTypes
import MoeToolchain.Scripts.Pipeline

/-!
# The generated file read as C

The code of `debug.js` for words that are short enough is lexed and read as the trees
that it was made of (`debug_written`, `debugEnum_written`). So the file that the program
writes for a header, read as C, behaves as the program of the header does: what holds of
the trees holds of the file.

Main result:

* `output_reads_back`: the file for any spelling of a header is read as its program.
-/

namespace MoeToolchain
set_option autoImplicit false
open Lib Stb

attribute [local instance] decidableBytes

/-! ## Formats of single bytes -/

section Spread

variable {rt : Runtime}

theorem printf_plain (text : Bytes) (format : List CFormat) (values : List CValue) :
    printf rt (text.map (fun c => .plain [c]) ++ format) values = printf rt (.plain text :: format) values := by
  induction text with
  | nil => exact (bind_pure (printf rt format values)).symm
  | cons c text ih =>
    rw [List.map_cons, List.cons_append, printf, ih, printf, printf]
    cases printf rt format values <;> rfl

theorem printf_congr {a b : List CFormat} (part : CFormat) (same : ∀ values, printf rt a values = printf rt b values)
    (values : List CValue) : printf rt (part :: a) values = printf rt (part :: b) values := by
  cases part with
  | plain text => rw [printf, printf, same]
  | newline => rw [printf, printf, same]
  | padded =>
    cases values with
    | nil => rfl
    | cons v values =>
      cases values with
      | nil => cases v <;> rfl
      | cons v' values => cases v <;> cases v' <;> first | rfl | rw [printf, printf, same]
  | _ =>
    cases values with
    | nil => rfl
    | cons v values => cases v <;> first | rfl | rw [printf, printf, same]

theorem printf_spread (format : List CFormat) : ∀ values,
    printf rt (format.flatMap CFormat.spread) values = printf rt format values := by
  induction format with
  | nil => exact fun _ => rfl
  | cons part format ih =>
    intro values
    rw [List.flatMap_cons, ← printf_congr part ih]
    cases part with
    | plain text => exact printf_plain text _ values
    | _ => rfl

theorem CCall.run_spread (callee : Callee) (env : CEnv) (c : CCall) : c.spread.run rt callee env = c.run rt callee env := by
  cases c with
  | printf format args =>
    rw [CCall.spread, CCall.run, CCall.run]
    exact congrArg _ (funext fun values => printf_spread format values)
  | function callee args => rfl

theorem CStmt.run_spread (callee : Callee) (env : CEnv) (s : CStmt) : s.spread.run rt callee env = s.run rt callee env := by
  cases s with
  | call c => exact c.run_spread callee env
  | ifThen cond yes => simp only [CStmt.spread, CStmt.run, CCall.run_spread]
  | ifElse cond yes no => simp only [CStmt.spread, CStmt.run, CCall.run_spread]
  | switch on labels default => rfl

theorem runStmts_spread (callee : Callee) (env : CEnv) (ss : List CStmt) :
    runStmts rt callee env (ss.map CStmt.spread) = runStmts rt callee env ss := by
  induction ss with
  | nil => rfl
  | cons s ss ih => simp only [List.map_cons, runStmts, CStmt.run_spread, ih]

/-- Programs run as before with their formats split up. -/
theorem callFunction_spread (program : List CFunction) (fuel : Nat) :
    callFunction rt (program.map CFunction.spread) fuel = callFunction rt program fuel := by
  induction fuel with
  | zero => rfl
  | succ fuel ih =>
    funext name args
    have found : (program.map CFunction.spread).find? (fun f => f.name = name) =
        (program.find? fun f => f.name = name).map CFunction.spread := by
      rw [List.find?_map]
      rfl
    rw [callFunction, callFunction, found, ih]
    cases program.find? fun f => f.name = name with
    | none => rfl
    | some f =>
      simp only [Option.map_some, CFunction.run, CFunction.spread, runStmts_spread]

end Spread

/-! ## Short words -/

/-- A word that leaves the lexer room for the names and texts that are made of it. -/
structure Short (word : Bytes) : Prop where
  first : isIdStart (word.headD 0) = true
  letters : ∀ c ∈ word, isIdChar c = true
  length : word.length ≤ 500

section Words

variable {a b name trait : Bytes}

theorem Short.isName (short : Short name) : IsName name :=
  ⟨short.first, short.letters, by have := short.length; omega⟩

theorem letters_append (first : ∀ c ∈ a, isIdChar c = true) (second : ∀ c ∈ b, isIdChar c = true) :
    ∀ c ∈ a ++ b, isIdChar c = true :=
  List.forall_mem_append.mpr ⟨first, second⟩

theorem length_implName : (MoeToolchain.implName name trait).length = name.length + trait.length + 29 := by
  have start : (bytesOf "_moe_proc_macro_").length = 16 := by decide
  have middle : (bytesOf "_derive_").length = 8 := by decide
  have last : (bytesOf "_impl").length = 5 := by decide
  simp only [MoeToolchain.implName, List.length_append]
  omega

theorem Short.implName (short : Short name) (letters : ∀ c ∈ trait, isIdChar c = true) (length : trait.length ≤ 100) :
    IsName (implName name trait) where
  first := show isIdStart (byteOf '_') = true by decide
  letters := letters_append (letters_append (letters_append (letters_append (by decide) short.letters) (by decide)) letters)
    (by decide)
  length := by
    have small := short.length
    rw [length_implName]
    omega

theorem Short.helperName (short : Short name) : IsName (helperName name) where
  first := show isIdStart (byteOf '_') = true by decide
  letters := letters_append (@Short.implName _ debugTrait short (by decide) (by decide)).letters (by decide)
  length := by
    have trait : debugTrait.length = 5 := by decide
    have helper : (bytesOf "_helper").length = 7 := by decide
    have small := short.length
    rw [MoeToolchain.helperName, List.length_append, length_implName]
    omega

theorem plain_append (first : (CFormat.plain a).Written) (second : (CFormat.plain b).Written) :
    (CFormat.plain (a ++ b)).Written :=
  List.forall_mem_append.mpr ⟨first, second⟩

theorem Short.plain (short : Short name) : (CFormat.plain name).Written := by
  have letter : ∀ c, isIdChar c = true → c ≠ byteOf '"' ∧ c ≠ byteOf '\\' ∧ c ≠ byteOf '%' ∧ c ≠ 10 :=
    forall_byte (by decide +kernel)
  exact fun c mem => letter c (short.letters c mem)

instance (text : Bytes) : Decidable (CFormat.plain text).Written :=
  inferInstanceAs (Decidable (∀ c ∈ text, c ≠ byteOf '"' ∧ c ≠ byteOf '\\' ∧ c ≠ byteOf '%' ∧ c ≠ 10))

end Words

/-! ## The code for a struct -/

structure Field.Short (f : Field) : Prop where
  name : MoeToolchain.Short f.name
  tag : ∀ tag, f.type.tag? = some tag → MoeToolchain.Short tag

section Debug

variable {f : Field} {name : Bytes} {tokens : List JsToken}

theorem written_baseIdent : baseIdent.Written :=
  ⟨show IsName (bytesOf "base_ident") by decide, show bytesOf "base_ident" ≠ bytesOf "void" by decide⟩

theorem written_fieldExpr (short : f.Short) : (fieldExpr f).Written :=
  ⟨show (0 : Nat) ≤ 1 by decide, ⟨show IsName selfWord by decide, show selfWord ≠ bytesOf "void" by decide⟩,
    short.name.isName⟩

theorem written_nextIdent : nextIdent.Written :=
  ⟨⟨show (0 : Nat) ≤ 4 by decide, written_baseIdent⟩, show (0 : Nat) < 4 by decide, trivial⟩

theorem written_baseIndent : baseIndent.Written :=
  ⟨⟨show (0 : Nat) ≤ 3 by decide, written_baseIdent⟩, show (0 : Nat) < 3 by decide, trivial⟩

theorem written_fieldIndent : fieldIndent.Written :=
  ⟨⟨show (0 : Nat) ≤ 3 by decide, written_nextIdent⟩, show (0 : Nat) < 3 by decide, trivial⟩

/-- The statement for a field, where the format is plain and not too long. -/
theorem written_printField (short : f.Short) {format : List CFormat} {args : List CExpr}
    (parts : ∀ part ∈ format, part.Written) (small : (format.flatMap CFormat.bytes).length ≤ 519)
    (each : ∀ e ∈ args, e.Written) : (printField f format args).Written := by
  have start : (CFormat.plain (f.name ++ bytesOf ": ")).Written := plain_append short.name.plain (by decide)
  have padded : (bytesOf "%*s").length = 3 := by decide
  have colon : (bytesOf ": ").length = 2 := by decide
  have named := short.name.length
  refine ⟨?_, ?_, ?_⟩
  · simp only [List.forall_mem_cons]
    exact ⟨trivial, start, parts⟩
  · simp only [List.flatMap_cons, CFormat.bytes, CFormat.text, List.length_append]
    omega
  · simp only [List.forall_mem_cons]
    exact ⟨written_fieldIndent, trivial, each⟩

theorem written_printNewline : printNewline.Written := ⟨by simp [CFormat.Written], by decide, by simp⟩

theorem written_scalarFormat (type : FieldType) : (scalarFormat type).Written ∧ (scalarFormat type).bytes.length ≤ 2 := by
  unfold scalarFormat
  split
  · exact ⟨trivial, by decide⟩
  · exact ⟨trivial, by decide⟩

/-- Only generated names begin with an underscore. -/
theorem underscore_other {callee : Bytes} (first : callee.headD 0 = byteOf '_') : callee ∉ statementWords := by
  have all : ∀ word ∈ statementWords, word.headD 0 ≠ byteOf '_' := by decide
  exact fun mem => all callee mem first

theorem written_call {callee : Bytes} {args : List CExpr} (word : IsName callee) (first : callee.headD 0 = byteOf '_')
    (some_ : args ≠ []) (each : ∀ e ∈ args, e.Written) : (CCall.function callee args).Written :=
  ⟨word, underscore_other first, some_, each⟩

/-- The types without a tag are written as they are. -/
theorem written_typeText {type : FieldType} (noStruct : ∀ tag, type = .struct tag → False)
    (noEnum : ∀ tag, type = .enum tag → False) : (CFormat.plain type.text).Written ∧ type.text.length ≤ 500 := by
  cases type with
  | struct tag => exact absurd rfl (noStruct tag)
  | enum tag => exact absurd rfl (noEnum tag)
  | _ => exact ⟨by decide, by decide⟩

theorem written_debugPointerField (short : f.Short) : ∀ s ∈ debugPointerField f, s.Written := by
  have expr := written_fieldExpr short
  have pointer : (bytesOf "%p").length = 2 := by decide
  have address : ∀ e ∈ [fieldAddress f], e.Written := by
    rw [List.forall_mem_singleton]
    exact ⟨show (1 : Nat) ≤ 1 by decide, expr⟩
  have target : ∀ e ∈ [CExpr.unary .deref (fieldExpr f)], e.Written := by
    rw [List.forall_mem_singleton]
    exact ⟨show (1 : Nat) ≤ 1 by decide, expr⟩
  have print : ∀ {parts : List CFormat}, (∀ part ∈ parts, part.Written) → (parts.flatMap CFormat.bytes).length ≤ 519 →
      (printField f parts [fieldAddress f]).Written := fun parts small => written_printField short parts small address
  unfold debugPointerField
  split
  · rename_i tag isStruct
    have short' := short.tag tag (by rw [isStruct]; rfl)
    simp only [List.forall_mem_cons]
    refine ⟨print ?_ (by decide), ⟨expr, written_call short'.helperName rfl (by simp) ?_⟩, by simp⟩
    · simp only [List.forall_mem_cons]
      exact ⟨by decide, trivial, by decide, by simp⟩
    · simp only [List.forall_mem_cons]
      exact ⟨expr, written_nextIdent, by simp⟩
  · rename_i tag isEnum
    have short' := short.tag tag (by rw [isEnum]; rfl)
    have small := short'.length
    have text : (CFormat.plain (bytesOf "enum " ++ tag ++ bytesOf "* (")).Written :=
      plain_append (plain_append (by decide) short'.plain) (by decide)
    simp only [List.forall_mem_cons]
    refine ⟨print ?_ ?_, ⟨expr, written_call (short'.implName (by decide) (by decide)) rfl (by simp) target⟩,
      written_printNewline, by simp⟩
    · simp only [List.forall_mem_cons]
      exact ⟨text, trivial, by decide, by simp⟩
    · have lead : (bytesOf "enum ").length = 5 := by decide
      have open_ : (bytesOf "* (").length = 3 := by decide
      have close : (bytesOf ") = ").length = 4 := by decide
      simp only [List.flatMap_cons, List.flatMap_nil, CFormat.bytes, CFormat.text, List.length_append, List.length_nil]
      omega
  · rw [List.forall_mem_singleton]
    refine print ?_ (by decide)
    simp only [List.forall_mem_cons]
    exact ⟨by decide, trivial, trivial, by simp⟩
  · rw [List.forall_mem_singleton]
    refine print ?_ (by decide)
    simp only [List.forall_mem_cons]
    exact ⟨by decide, trivial, trivial, by simp⟩
  · rename_i noStruct noEnum _ _
    obtain ⟨plain, less⟩ := written_typeText noStruct noEnum
    obtain ⟨format, few⟩ := written_scalarFormat f.type
    simp only [List.forall_mem_cons]
    refine ⟨print ?_ ?_, ⟨expr, ?_, ?_, target⟩, written_printNewline, by simp⟩
    · simp only [List.forall_mem_cons]
      exact ⟨plain_append plain (by decide), trivial, by simp⟩
    · have equals : (bytesOf " = ").length = 3 := by decide
      simp only [List.flatMap_cons, List.flatMap_nil, CFormat.bytes, CFormat.text, List.length_append, List.length_nil]
      omega
    · simp only [List.forall_mem_cons]
      exact ⟨by decide, format, by simp⟩
    · have arrow : (bytesOf " -> ").length = 4 := by decide
      simp only [List.flatMap_cons, List.flatMap_nil, CFormat.bytes_plain, List.length_append, List.length_nil]
      omega

theorem written_debugValueField (short : f.Short) : ∀ s ∈ debugValueField f, s.Written := by
  have expr := written_fieldExpr short
  have address : (CExpr.unary .addressOf (fieldExpr f)).Written := ⟨show (1 : Nat) ≤ 1 by decide, expr⟩
  have print : ∀ {parts : List CFormat}, (∀ part ∈ parts, part.Written) → (parts.flatMap CFormat.bytes).length ≤ 519 →
      (printField f parts []).Written := fun parts small => written_printField short parts small (by simp)
  unfold debugValueField
  split
  · rename_i tag isStruct
    have short' := short.tag tag (by rw [isStruct]; rfl)
    simp only [List.forall_mem_cons]
    refine ⟨print ?_ (by decide), written_call short'.helperName rfl (by simp) ?_, by simp⟩
    · rw [List.forall_mem_singleton]
      decide
    · simp only [List.forall_mem_cons]
      exact ⟨address, written_nextIdent, by simp⟩
  · rename_i tag isEnum
    have short' := short.tag tag (by rw [isEnum]; rfl)
    have small := short'.length
    have text : (CFormat.plain (bytesOf "enum " ++ tag ++ bytesOf " = ")).Written :=
      plain_append (plain_append (by decide) short'.plain) (by decide)
    simp only [List.forall_mem_cons]
    refine ⟨print ?_ ?_, written_call (short'.implName (by decide) (by decide)) rfl (by simp) ?_, written_printNewline, by simp⟩
    · rwa [List.forall_mem_singleton]
    · have lead : (bytesOf "enum ").length = 5 := by decide
      have equals : (bytesOf " = ").length = 3 := by decide
      simp only [List.flatMap_cons, List.flatMap_nil, CFormat.bytes, CFormat.text, List.length_append, List.length_nil]
      omega
    · rwa [List.forall_mem_singleton]
  · rw [List.forall_mem_singleton]
    refine print ?_ (by decide)
    simp only [List.forall_mem_cons]
    exact ⟨by decide, trivial, by simp⟩
  · rw [List.forall_mem_singleton]
    refine print ?_ (by decide)
    simp only [List.forall_mem_cons]
    exact ⟨by decide, trivial, by simp⟩
  · rename_i noStruct noEnum _ _
    obtain ⟨plain, less⟩ := written_typeText noStruct noEnum
    obtain ⟨format, few⟩ := written_scalarFormat f.type
    rw [List.forall_mem_singleton]
    refine written_printField short ?_ ?_ (by rwa [List.forall_mem_singleton])
    · simp only [List.forall_mem_cons]
      exact ⟨plain_append plain (by decide), format, trivial, by simp⟩
    · have equals : (bytesOf " = ").length = 3 := by decide
      have newline : CFormat.newline.bytes.length = 1 := rfl
      simp only [List.flatMap_cons, List.flatMap_nil, CFormat.bytes_plain, List.length_append, List.length_nil]
      omega

theorem written_debugField (short : f.Short) : ∀ s ∈ debugField f, s.Written := by
  unfold debugField
  split
  · exact written_debugPointerField short
  · exact written_debugValueField short

theorem written_debugHelper {fields : List Field} (short : Short name) (each : ∀ f ∈ fields, f.Short) :
    (debugHelper name fields).Written where
  name := short.helperName
  some := List.cons_ne_nil _ _
  params := by
    have self : IsName selfWord := by decide
    have base : IsName (bytesOf "base_ident") := by decide
    have int : (CType.named (bytesOf "int")).Written := by
      refine ⟨?_, ?_, ?_⟩ <;> decide
    simp only [debugHelper, List.forall_mem_cons]
    exact ⟨⟨short.isName, self⟩, ⟨int, base⟩, by simp⟩
  body := by
    have title : (CFormat.plain (name ++ bytesOf " \x7b")).Written := plain_append short.plain (by decide)
    have small := short.length
    have padded : (bytesOf "%*s").length = 3 := by decide
    have brace : (bytesOf " \x7b").length = 2 := by decide
    have indent : ∀ e ∈ [baseIndent, .emptyString], e.Written := by
      simp only [List.forall_mem_cons]
      exact ⟨written_baseIndent, trivial, by simp⟩
    have fields' : ∀ s ∈ fields.flatMap debugField, s.Written := by
      intro s mem
      obtain ⟨f, here, mem⟩ := List.mem_flatMap.mp mem
      exact written_debugField (each f here) s mem
    have test : (CExpr.binary .equal baseIdent (.digit 0)).Written :=
      ⟨⟨show (0 : Nat) ≤ 5 by decide, written_baseIdent⟩, show (0 : Nat) < 5 by decide, trivial⟩
    simp only [debugHelper, List.forall_mem_append, List.forall_mem_cons]
    refine ⟨⟨⟨test, ⟨?_, ?_, indent⟩, ?_, ?_, by simp⟩, fields'⟩, ⟨?_, by decide, indent⟩, by simp⟩
    · simp only [List.forall_mem_cons]
      exact ⟨trivial, title, trivial, by simp⟩
    · simp only [List.flatMap_cons, List.flatMap_nil, CFormat.bytes, CFormat.text, List.length_append, List.length_cons, List.length_nil]
      omega
    · simp only [List.forall_mem_cons]
      exact ⟨title, trivial, by simp⟩
    · simp only [List.flatMap_cons, List.flatMap_nil, CFormat.bytes, CFormat.text, List.length_append, List.length_cons, List.length_nil]
      omega
    · simp only [List.forall_mem_cons]
      exact ⟨trivial, by decide, trivial, by simp⟩

/-- The code for a struct with short names needs no more parentheses, quotes or escapes. -/
theorem debug_written (short : Short name) (words : ∀ text, Words tokens text → Short text) :
    ∀ f ∈ debug name tokens, f.Written := by
  have fields : ∀ f ∈ scanFields tokens, f.Short := by
    intro f mem
    obtain ⟨named, tagged⟩ := scan_words tokens mem
    exact ⟨words _ named, fun tag here => words tag (tagged tag here)⟩
  have self : IsName selfWord := by decide
  have self' : (CExpr.ident selfWord).Written := ⟨self, show selfWord ≠ bytesOf "void" by decide⟩
  simp only [debug, List.forall_mem_cons]
  refine ⟨written_debugHelper short fields, ⟨short.implName (by decide) (by decide), List.cons_ne_nil _ _, ?_, ?_⟩, by simp⟩
  · rw [debugImpl, List.forall_mem_singleton]
    exact ⟨short.isName, self⟩
  · rw [debugImpl, List.forall_mem_singleton]
    refine written_call short.helperName rfl (by simp) ?_
    simp only [List.forall_mem_cons]
    exact ⟨self', trivial, by simp⟩

theorem printed_plain {text : Bytes} (plain : (CFormat.plain text).Written) (small : text.length ≤ 1024) : Printed text := by
  refine ⟨by rwa [List.forall_mem_singleton], ?_, by simp⟩
  rw [List.flatMap_singleton]
  exact small

theorem debugEnum_written (short : Short name) (words : ∀ text, Words tokens text → Short text) :
    ∀ f ∈ debugEnum name tokens, f.Written := by
  have value : IsName (bytesOf "value") := by decide
  have value' : (CExpr.ident (bytesOf "value")).Written := ⟨value, show bytesOf "value" ≠ bytesOf "void" by decide⟩
  have labels : ∀ v ∈ variants tokens, IsName v ∧ Printed v := by
    intro v mem
    obtain ⟨tok, mem, identifier⟩ := List.mem_filterMap.mp mem
    have short' := words v ⟨tok, mem, identifier⟩
    exact ⟨short'.isName, printed_plain short'.plain (by have := short'.length; omega)⟩
  rw [debugEnum, List.forall_mem_singleton]
  refine ⟨short.implName (by decide) (by decide), List.cons_ne_nil _ _, ?_, ?_⟩
  · rw [List.forall_mem_singleton]
    exact ⟨short.isName, value⟩
  · rw [List.forall_mem_singleton]
    refine ⟨value', ?_, printed_plain (by decide) (by decide)⟩
    rw [List.forall_mem_map]
    exact labels

end Debug

/-! ## The file of a header -/

section Header

variable {strtod : Nat → BitVec 64 × Nat}

/-- The identifiers of a text are words. -/
theorem Spelt.word {ls : List Lexeme} {x : Ident} : ∀ {p : Nat}, Spelt strtod p ls → .id x ∈ ls.filterMap Lexeme.token? →
    isIdStart (x.text.headD 0) = true ∧ ∀ c ∈ x.text, isIdChar c = true := by
  induction ls with
  | nil =>
    intro p _ mem
    cases mem
  | cons l ls ih =>
    intro p spelt mem
    obtain ⟨l', there, token⟩ := List.mem_filterMap.mp mem
    rcases List.mem_cons.mp there with rfl | later
    · cases l' with
      | id name =>
        obtain rfl : name = x := Token.id.inj (Option.some.inj token)
        exact ⟨spelt.1.1, spelt.1.2.1⟩
      | _ => simp [Lexeme.token?] at token
    · exact ih spelt.2 (List.mem_filterMap.mpr ⟨l', later, token⟩)

theorem mem_jsTokens {b : DeriveBlock} {text : Bytes} (word : Words b.jsTokens text) :
    ∃ x : Ident, .id x ∈ b.body ∧ x.text = text := by
  obtain ⟨tok, mem, identifier⟩ := word
  have objects : b.jsTokens = b.body.map Token.object := by
    rw [DeriveBlock.jsTokens, DerivedStruct.jsTokens, DeriveBlock.value, List.map_map]
    rfl
  rw [objects] at mem
  obtain ⟨t, there, rfl⟩ := List.mem_map.mp mem
  rw [Token.identifier?_object] at identifier
  cases t with
  | id x => exact ⟨x, there, Option.some.inj identifier⟩
  | _ => cases identifier

/-- The name of a block and the words of its body are tokens of the header. -/
theorem Header.mem_tokens {header : Header} {b : Filler × HeaderBlock} {t : Token} (mem : b ∈ header.blocks)
    (here : t = .id b.2.name ∨ t ∈ b.2.body) : t ∈ header.tokens := by
  have inside : t ∈ b.2.tokens := by
    refine List.mem_append_right _ (List.mem_append_right _ ?_)
    rcases here with rfl | body
    · simp
    · simp [body]
  exact List.mem_append_left _ (List.mem_flatMap.mpr ⟨b, mem, List.mem_append_right _ inside⟩)

theorem program_written {header : Header} (words : ∀ x : Ident, .id x ∈ header.tokens → Short x.text) :
    ∀ f ∈ header.program, f.Written := by
  intro f mem
  obtain ⟨b, there, here⟩ := List.mem_flatMap.mp mem
  have name := words b.2.name (Header.mem_tokens there (.inl rfl))
  have body : ∀ text, Words b.2.jsTokens text → Short text := by
    intro text word
    obtain ⟨x, inside, rfl⟩ := mem_jsTokens word
    exact words x (Header.mem_tokens there (.inr inside))
  unfold DeriveBlock.functions at here
  cases kind : b.2.kind with
  | derives =>
    rw [kind] at here
    exact debug_written name body f here
  | derivesEnum =>
    rw [kind] at here
    exact debugEnum_written name body f here

/-- The first line is a preprocessor line for the lexer. -/
theorem includeLine_lexed {base : Bytes} {next : UInt8} (line : ∀ c ∈ base, lineByte c = true) :
    LexedAs next (includeLine base) [] := by
  have first : bytesOf "#include \"" = byteOf '#' :: bytesOf "include \"" := by decide
  have last : bytesOf "\"\n" = bytesOf "\"" ++ [10] := by decide
  have stop : lineByte 10 = false := by decide
  have white : clexIswhite 10 = true := by decide
  refine ⟨[.directive (bytesOf "include \"" ++ base ++ bytesOf "\""), .blank 10], ?_, rfl, ⟨?_, stop⟩, white, trivial⟩
  · rw [includeLine, first, last]
    simp [spellAll, Lexeme.spell]
  · simp only [List.forall_mem_append]
    exact ⟨⟨by decide, line⟩, by decide⟩

/-- The file that the program writes for a header, in any spelling, is read as C as the
program of the header, where the words of the header have at most 500 letters. -/
theorem output_reads_back (strtod strtod' : Nat → BitVec 64 × Nat) (builtins : Builtins) (header : Header) (ls : List Lexeme)
    (argv : List Bytes) (inputFile script output : Bytes) (spelt : Spelt strtod 0 ls)
    (same : ls.filterMap Lexeme.token? = header.tokens) (nonempty : spellAll ls ≠ []) (script_ : script ≠ [])
    (argument : (debugWorld strtod builtins argv script (spellAll ls)).inputFile? = some inputFile) (once : header.DerivesOnce)
    (short : ∀ x : Ident, .id x ∈ header.tokens → x.text.length ≤ 500)
    (line : ∀ c ∈ cString (baseName inputFile), lineByte c = true) :
    ∃ text, ending (main .assertions (debugWorld strtod builtins argv script (spellAll ls))
        ((debugWorld strtod builtins argv script (spellAll ls)).start output)) = .ok (0, text) ∧
      readProgram (tokensOf strtod' text) = some (header.program.map CFunction.spread) ∧
      ∀ rt fuel, callFunction rt (header.program.map CFunction.spread) fuel = callFunction rt header.program fuel := by
  have words : ∀ x : Ident, .id x ∈ header.tokens → Short x.text := by
    intro x mem
    obtain ⟨first, letters⟩ := Spelt.word spelt (same ▸ mem)
    exact ⟨first, letters, short x mem⟩
  have written := program_written words
  have lexed : LexedAs 0 (includeLine (cString (baseName inputFile)) ++ programText header.program)
      ([] ++ header.program.flatMap CFunction.tokens) :=
    .append (includeLine_lexed line) (.flatMap fun f mem next => (written f mem).lexed)
  refine ⟨_, (header_generates strtod builtins header ls argv inputFile script output spelt same nonempty script_ argument).1 once, ?_,
    fun rt fuel => callFunction_spread header.program fuel⟩
  rw [lexed.tokensOf strtod', List.nil_append]
  exact readProgram_written written

/-- The theorem at the file of `A` and `B`. -/
theorem output_reads_back_spacedAB :
    let w := debugWorld (fun p => (0, p + 1)) (fun _ => none) [bytesOf "moe", bytesOf "a.h", bytesOf "a.c", bytesOf "debug.js"] (bytesOf "-")
      (spellAll spacedAB)
    ∃ text, ending (main .assertions w (w.start [])) = .ok (0, text) ∧
      readProgram (tokensOf (fun p => (0, p + 1)) text) = some (forwardPointer.program.map CFunction.spread) ∧
      ∀ rt fuel, callFunction rt (forwardPointer.program.map CFunction.spread) fuel = callFunction rt forwardPointer.program fuel := by
  have once : forwardPointer.DerivesOnce := by
    unfold Header.DerivesOnce
    decide
  have short : ∀ t ∈ forwardPointer.tokens, ∀ x ∈ t.ident?, x.text.length ≤ 500 := by decide +kernel
  exact output_reads_back (fun p => (0, p + 1)) (fun p => (0, p + 1)) (fun _ => none) forwardPointer spacedAB _ (bytesOf "a.h") (bytesOf "-") []
    (by decide +kernel) (by decide) (by decide) (by decide) rfl once (fun x mem => short _ mem x rfl) (by decide)

end Header

end MoeToolchain
