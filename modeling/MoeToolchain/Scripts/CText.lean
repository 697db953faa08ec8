import MoeToolchain.Common.Base

/-!
# Generated C code

The fragment of C that the scripts emit, as trees with their text. `Declared known fs`
says that the functions `fs`, one after the other, call only functions that are `known`
before the first of them or were defined up to the call.
-/

namespace MoeToolchain
set_option autoImplicit false

/-! ## Trees -/

inductive CUnary
  | deref
  | addressOf
  | voidPtr
deriving DecidableEq, Repr

inductive CBinary
  | add
  | times
  | equal
deriving DecidableEq, Repr

inductive CExpr
  | ident (name : Bytes)
  | digit (d : Fin 10)
  | emptyString
  | arrow (e : CExpr) (field : Bytes)
  | unary (op : CUnary) (e : CExpr)
  | binary (op : CBinary) (a b : CExpr)
  | paren (e : CExpr)
deriving DecidableEq, Repr

/-- A part of a format string; `padded` is `%*s`. -/
inductive CFormat
  | plain (text : Bytes)
  | newline
  | padded
  | int
  | float
  | pointer
deriving DecidableEq, Repr

inductive CCall
  | printf (format : List CFormat) (args : List CExpr)
  | function (callee : Bytes) (args : List CExpr)
deriving DecidableEq, Repr

/-- A `switch` prints a text for each label, and another one by default. -/
inductive CStmt
  | call (c : CCall)
  | ifThen (cond : CExpr) (yes : CCall)
  | ifElse (cond : CExpr) (yes no : CCall)
  | switch (on : CExpr) (labels : List (Bytes × Bytes)) (default : Bytes)
deriving DecidableEq, Repr

/-- The type of a parameter; `named` is one word. -/
inductive CType
  | structPtr (tag : Bytes)
  | enum (tag : Bytes)
  | named (word : Bytes)
deriving DecidableEq, Repr

structure CParam where
  type : CType
  name : Bytes
deriving DecidableEq, Repr

/-- A definition of a `void` function. -/
structure CFunction where
  name : Bytes
  params : List CParam
  body : List CStmt
deriving DecidableEq, Repr

/-! ## Text -/

def CUnary.text : CUnary → Bytes
  | deref => bytesOf "*"
  | addressOf => bytesOf "&"
  | voidPtr => bytesOf "(void*)"

def CBinary.text : CBinary → Bytes
  | add => bytesOf " + "
  | times => bytesOf " * "
  | equal => bytesOf " == "

def CExpr.text : CExpr → Bytes
  | ident name => name
  | digit d => [48 + UInt8.ofNat d]
  | emptyString => bytesOf "\"\""
  | arrow e field => e.text ++ bytesOf "->" ++ field
  | unary op e => op.text ++ e.text
  | binary op a b => a.text ++ op.text ++ b.text
  | paren e => bytesOf "(" ++ e.text ++ bytesOf ")"

def CFormat.text : CFormat → Bytes
  | plain text => text
  | newline => bytesOf "\\n"
  | padded => bytesOf "%*s"
  | int => bytesOf "%d"
  | float => bytesOf "%f"
  | pointer => bytesOf "%p"

/-- The parts with `, ` between them. -/
def commaSeparated (parts : List Bytes) : Bytes := (bytesOf ", ").intercalate parts

def CCall.text : CCall → Bytes
  | printf format args =>
    bytesOf "printf(" ++ commaSeparated
      ((bytesOf "\"" ++ format.flatMap CFormat.text ++ bytesOf "\"") :: args.map CExpr.text) ++ bytesOf ");"
  | function callee args => callee ++ bytesOf "(" ++ commaSeparated (args.map CExpr.text) ++ bytesOf ");"

/-- `'    '.repeat(n)` -/
def indent (n : Nat) : Bytes := (List.replicate n (bytesOf "    ")).flatten

def line (n : Nat) (text : Bytes) : Bytes := indent n ++ text ++ [10]

/-- A label of a switch and what it does. -/
def caseText (label printed : Bytes) : Bytes :=
  line 2 (label ++ bytesOf ":") ++ line 3 (CCall.printf [.plain printed] []).text ++ line 3 (bytesOf "break;")

def CStmt.text : CStmt → Bytes
  | call c => line 1 c.text
  | ifThen cond yes => line 1 (bytesOf "if (" ++ cond.text ++ bytesOf ") " ++ yes.text)
  | ifElse cond yes no =>
    line 1 (bytesOf "if (" ++ cond.text ++ bytesOf ") " ++ yes.text) ++ line 1 (bytesOf "else " ++ no.text)
  | switch on labels default =>
    line 1 (bytesOf "switch(" ++ on.text ++ bytesOf ") \x7b") ++
      labels.flatMap (fun c => caseText (bytesOf "case " ++ c.1) c.2) ++ caseText (bytesOf "default") default ++
      line 1 (bytesOf "\x7d")

def CParam.text (p : CParam) : Bytes :=
  match p.type with
  | .structPtr tag => bytesOf "struct " ++ tag ++ bytesOf " *" ++ p.name
  | .enum tag => bytesOf "enum " ++ tag ++ bytesOf " " ++ p.name
  | .named word => word ++ bytesOf " " ++ p.name

def CFunction.text (f : CFunction) : Bytes :=
  line 0 (bytesOf "void " ++ f.name ++ bytesOf "(" ++ commaSeparated (f.params.map CParam.text) ++ bytesOf ") \x7b") ++
    f.body.flatMap CStmt.text ++ line 0 (bytesOf "\x7d")

/-! ## Calls and declarations -/

def CCall.callee? : CCall → Option Bytes
  | printf _ _ => none
  | function callee _ => some callee

/-- The functions of the program that a statement calls. -/
def CStmt.callees : CStmt → List Bytes
  | call c => c.callee?.toList
  | ifThen _ yes => yes.callee?.toList
  | ifElse _ yes no => yes.callee?.toList ++ no.callee?.toList
  | switch _ _ _ => []

def CFunction.callees (f : CFunction) : List Bytes := f.body.flatMap CStmt.callees

/-- Every call is of a function that is declared or defined before it; a function is
declared in its own body. -/
def Declared : List Bytes → List CFunction → Prop
  | _, [] => True
  | known, f :: fs => (∀ callee ∈ f.callees, callee ∈ f.name :: known) ∧ Declared (f.name :: known) fs

/-! ## Texts without NUL -/

def NoNul (text : Bytes) : Prop := 0 ∉ text

instance (text : Bytes) : Decidable (NoNul text) := inferInstanceAs (Decidable (0 ∉ text))

theorem NoNul.append {a b : Bytes} (first : NoNul a) (second : NoNul b) : NoNul (a ++ b) := by
  rw [NoNul, List.mem_append, not_or]
  exact ⟨first, second⟩

theorem noNul_flatMap {α : Type} {f : α → Bytes} {as : List α} (each : ∀ a ∈ as, NoNul (f a)) :
    NoNul (as.flatMap f) := by
  intro nul
  obtain ⟨a, mem, here⟩ := List.mem_flatMap.mp nul
  exact each a mem here

theorem noNul_commaSeparated {parts : List Bytes} (each : ∀ part ∈ parts, NoNul part) :
    NoNul (commaSeparated parts) := by
  have sep : NoNul (bytesOf ", ") := by decide
  induction parts with
  | nil => decide
  | cons part parts ih =>
    cases parts with
    | nil =>
      rw [commaSeparated, List.intercalate_singleton]
      exact each part (by simp)
    | cons next parts =>
      rw [commaSeparated, List.intercalate_cons_cons]
      exact ((each part (by simp)).append sep).append (ih fun part mem => each part (List.mem_cons_of_mem _ mem))

theorem noNul_line {n : Nat} {text : Bytes} (clean : NoNul text) : NoNul (line n text) := by
  have spaces : NoNul (indent n) := by
    intro nul
    obtain ⟨piece, mem, here⟩ := List.mem_flatten.mp nul
    rw [List.eq_of_mem_replicate mem] at here
    exact absurd here (by decide)
  exact (spaces.append clean).append (by decide)

/-- No NUL in the names of an expression. -/
def CExpr.Clean : CExpr → Prop
  | ident name => NoNul name
  | digit _ => True
  | emptyString => True
  | arrow e field => e.Clean ∧ NoNul field
  | unary _ e => e.Clean
  | binary _ a b => a.Clean ∧ b.Clean
  | paren e => e.Clean

theorem CExpr.Clean.text {e : CExpr} (clean : e.Clean) : NoNul e.text := by
  induction e with
  | ident name => exact clean
  | digit d =>
    have digits : ∀ d : Fin 10, NoNul [48 + UInt8.ofNat d] := by decide
    exact digits d
  | emptyString => decide
  | arrow e field ih => exact ((ih clean.1).append (by decide)).append clean.2
  | unary op e ih =>
    have sign : NoNul op.text := by cases op <;> decide
    exact sign.append (ih clean)
  | binary op a b iha ihb =>
    have sign : NoNul op.text := by cases op <;> decide
    exact ((iha clean.1).append sign).append (ihb clean.2)
  | paren e ih =>
    exact (NoNul.append (by decide) (ih clean)).append (by decide)

def CFormat.Clean : CFormat → Prop
  | plain text => NoNul text
  | _ => True

theorem CFormat.Clean.text {part : CFormat} (clean : part.Clean) : NoNul part.text := by
  cases part with
  | plain text => exact clean
  | _ => decide

def CCall.Clean : CCall → Prop
  | printf format args => (∀ part ∈ format, part.Clean) ∧ ∀ e ∈ args, e.Clean
  | function callee args => NoNul callee ∧ ∀ e ∈ args, e.Clean

theorem CCall.Clean.text {c : CCall} (clean : c.Clean) : NoNul c.text := by
  have texts : ∀ {args : List CExpr}, (∀ e ∈ args, e.Clean) → ∀ part ∈ args.map CExpr.text, NoNul part := by
    intro args each part mem
    obtain ⟨e, here, rfl⟩ := List.mem_map.mp mem
    exact (each e here).text
  cases c with
  | printf format args =>
    have quoted : NoNul (bytesOf "\"" ++ format.flatMap CFormat.text ++ bytesOf "\"") :=
      (NoNul.append (by decide) (noNul_flatMap fun part mem => (clean.1 part mem).text)).append (by decide)
    exact (NoNul.append (by decide) (noNul_commaSeparated
      (List.forall_mem_cons.mpr ⟨quoted, texts clean.2⟩))).append (by decide)
  | function callee args =>
    exact ((clean.1.append (by decide)).append (noNul_commaSeparated (texts clean.2))).append (by decide)

def CStmt.Clean : CStmt → Prop
  | call c => c.Clean
  | ifThen cond yes => cond.Clean ∧ yes.Clean
  | ifElse cond yes no => cond.Clean ∧ yes.Clean ∧ no.Clean
  | switch on labels default =>
    on.Clean ∧ (∀ c ∈ labels, NoNul c.1 ∧ NoNul c.2) ∧ NoNul default

theorem noNul_caseText {label printed : Bytes} (clean : NoNul label) (clean' : NoNul printed) :
    NoNul (caseText label printed) := by
  have print : (CCall.printf [.plain printed] []).Clean := ⟨by simpa [CFormat.Clean] using clean', by simp⟩
  exact ((noNul_line (clean.append (by decide))).append (noNul_line print.text)).append (noNul_line (by decide))

theorem CStmt.Clean.text {s : CStmt} (clean : s.Clean) : NoNul s.text := by
  have guarded : ∀ {cond : CExpr} {yes : CCall}, cond.Clean → yes.Clean →
      NoNul (line 1 (bytesOf "if (" ++ cond.text ++ bytesOf ") " ++ yes.text)) := by
    intro cond yes first second
    exact noNul_line (((NoNul.append (by decide) first.text).append (by decide)).append second.text)
  cases s with
  | call c => exact noNul_line (CCall.Clean.text clean)
  | ifThen cond yes => exact guarded clean.1 clean.2
  | ifElse cond yes no =>
    exact (guarded clean.1 clean.2.1).append (noNul_line (NoNul.append (by decide) clean.2.2.text))
  | switch on labels default =>
    obtain ⟨first, each, last⟩ := clean
    have head : NoNul (line 1 (bytesOf "switch(" ++ on.text ++ bytesOf ") \x7b")) :=
      noNul_line ((NoNul.append (by decide) first.text).append (by decide))
    have middle : NoNul (labels.flatMap fun c => caseText (bytesOf "case " ++ c.1) c.2) :=
      noNul_flatMap fun c mem =>
        noNul_caseText (NoNul.append (by decide) (each c mem).1) (each c mem).2
    exact ((head.append middle).append (noNul_caseText (by decide) last)).append (noNul_line (by decide))

def CType.Clean : CType → Prop
  | structPtr tag => NoNul tag
  | enum tag => NoNul tag
  | named word => NoNul word

structure CParam.Clean (p : CParam) : Prop where
  type : p.type.Clean
  name : NoNul p.name

theorem CParam.Clean.text {p : CParam} (clean : p.Clean) : NoNul p.text := by
  obtain ⟨type, name⟩ := p
  obtain ⟨typeClean, nameClean⟩ := clean
  cases type with
  | structPtr tag => exact ((NoNul.append (by decide) typeClean).append (by decide)).append nameClean
  | enum tag => exact ((NoNul.append (by decide) typeClean).append (by decide)).append nameClean
  | named word => exact (NoNul.append typeClean (by decide)).append nameClean

structure CFunction.Clean (f : CFunction) : Prop where
  name : NoNul f.name
  params : ∀ p ∈ f.params, p.Clean
  body : ∀ s ∈ f.body, s.Clean

theorem CFunction.Clean.text {f : CFunction} (clean : f.Clean) : NoNul f.text := by
  have params : ∀ part ∈ f.params.map CParam.text, NoNul part := by
    intro part mem
    obtain ⟨p, here, rfl⟩ := List.mem_map.mp mem
    exact (clean.params p here).text
  have head : NoNul (line 0 (bytesOf "void " ++ f.name ++ bytesOf "(" ++
      commaSeparated (f.params.map CParam.text) ++ bytesOf ") \x7b")) :=
    noNul_line ((((NoNul.append (by decide) clean.name).append (by decide)).append
      (noNul_commaSeparated params)).append (by decide))
  exact (head.append (noNul_flatMap fun s mem => (clean.body s mem).text)).append (noNul_line (by decide))

end MoeToolchain
