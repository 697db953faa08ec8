import MoeToolchain.ProcMacro.Lexemes
import MoeToolchain.Scripts.CText

/-!
# The tokens of generated C code

The tokens of the trees of `CText`, and which trees are `Written` so that their text is
lexed as these tokens. `LexedAs next text tokens` says so of a text in front of the byte
`next`; texts in a row are lexed one by one (`LexedAs.append`).

Main result:

* `CFunction.Written.lexed`: the text of a function is lexed as its tokens.
-/

namespace MoeToolchain
set_option autoImplicit false
open Lib

/-- The bytes of the text are looked at one by one, not all the bytes there are. -/
@[reducible] def decidableBytes {p : UInt8 → Prop} [DecidablePred p] (text : Bytes) : Decidable (∀ c ∈ text, p c) :=
  List.decidableBAll p text

attribute [local instance] decidableBytes

namespace Stb

/-! ## Lexemes before a byte -/

/-- In front of `next`, the lexer takes the spelling for this lexeme. -/
def Lexeme.Before (next : UInt8) : Lexeme → Prop
  | blank c => clexIswhite c = true
  | directive body => (∀ c ∈ body, lineByte c = true) ∧ lineByte next = false
  | id name => isIdStart (name.text.headD 0) = true ∧ (∀ c ∈ name.text, isIdChar c = true) ∧ name.text.length < 1024 ∧
      isIdChar next = false
  | integer digits => (∃ d : Fin 10, digits = [48 + UInt8.ofNat d]) ∧ isIdChar next = false ∧ next ≠ byteOf '.'
  | literal chars => CharactersFit chars ∧ chars.length ≤ 1024
  | op o => o = .arrow ∨ o = .eq
  | char c => CharFits (UInt8.ofNat c) next
  | _ => False

instance (next : UInt8) (x : Lexeme) : Decidable (x.Before next) :=
  match x with
  | .blank _ => inferInstanceAs (Decidable (_ = _))
  | .directive _ => inferInstanceAs (Decidable (_ ∧ _))
  | .id _ => inferInstanceAs (Decidable (_ ∧ _))
  | .integer _ => inferInstanceAs (Decidable (_ ∧ _))
  | .literal _ => inferInstanceAs (Decidable (_ ∧ _))
  | .op _ => inferInstanceAs (Decidable (_ ∨ _))
  | .char _ => inferInstanceAs (Decidable (CharFits _ _))
  | .lineComment _ | .comment _ | .hexInteger _ _ | .float _ _ | .charLiteral _ _ => inferInstanceAs (Decidable False)

/-- Whatever comes next. -/
def Lexeme.closed : Lexeme → Bool
  | blank _ | literal _ | op _ => true
  | char c => UInt8.ofNat c != byteOf '/' && (operators (UInt8.ofNat c)).isEmpty
  | _ => false

theorem Lexeme.Before.closed {x : Lexeme} {next next' : UInt8} (before : x.Before next) (closed : x.closed = true) :
    x.Before next' := by
  cases x with
  | char c =>
    simp only [Lexeme.closed, Bool.and_eq_true, bne_iff_ne, ne_eq, List.isEmpty_iff] at closed
    obtain ⟨white, id, digit, quote, hash, -, -⟩ := before
    exact ⟨white, id, digit, quote, hash, fun slash => absurd slash closed.1, by rw [closed.2]; rfl⟩
  | blank c => exact before
  | literal chars => exact before
  | op o => exact before
  | _ => cases closed

theorem idChar_digit {c : UInt8} (other : isIdChar c = false) : isDigit c = false := by
  rw [isIdChar, Bool.or_eq_false_iff] at other
  exact other.2

/-- A byte that is in no word is no digit, in no base, and no letter. -/
theorem digit?_none : ∀ c, isIdChar c = false →
    digit? 8 c = none ∧ digit? 10 c = none ∧ hexMark c = false ∧ c ≠ byteOf 'e' ∧ c ≠ byteOf 'E' :=
  forall_byte (by decide +kernel)

theorem Lexeme.Before.fits {strtod : Nat → BitVec 64 × Nat} {p : Nat} {x : Lexeme} {rest : Bytes}
    (before : x.Before (rest.headD 0)) : x.Fits strtod p rest := by
  cases x with
  | blank c => exact before
  | directive body => exact ⟨before.1, .inr before.2⟩
  | id name => exact before
  | integer digits =>
    obtain ⟨⟨d, rfl⟩, other, point⟩ := before
    obtain ⟨octal, decimal, hex, e, e'⟩ := digit?_none _ other
    have first : ∀ d : Fin 10, isDigit (48 + UInt8.ofNat d) = true ∧
        (baseOf [48 + UInt8.ofNat d] = 8 ∨ baseOf [48 + UInt8.ofNat d] = 10) ∧
        (digit? (baseOf [48 + UInt8.ofNat d]) (48 + UInt8.ofNat d)).isSome = true := by decide
    obtain ⟨digit, base, value⟩ := first d
    refine ⟨digit, by simpa using value, ?_, ?_, fun _ mark => ?_⟩
    · rcases base with base | base <;> rw [base] <;> assumption
    · have behind : ([48 + UInt8.ofNat d] ++ rest).dropWhile isDigit = rest := by
        rw [List.singleton_append, List.dropWhile_cons_of_pos digit]
        cases rest with
        | nil => rfl
        | cons c rest => exact List.dropWhile_cons_of_neg (by simpa using idChar_digit other)
      simp only [floatMark, behind, Bool.or_eq_false_iff, beq_eq_false_iff_ne, ne_eq]
      exact ⟨⟨point, e⟩, e'⟩
    · rw [hex] at mark
      cases mark
  | literal chars => exact before
  | op o =>
    rcases before with rfl | rfl
    · exact ⟨by decide, by simp⟩
    · exact ⟨by decide, by simp⟩
  | char c => exact before
  | _ => cases before

theorem Lexeme.Before.spell_ne_nil {x : Lexeme} {next : UInt8} (before : x.Before next) : x.spell ≠ [] := by
  cases x with
  | id name => exact name.nonempty
  | integer digits =>
    obtain ⟨⟨d, rfl⟩, -⟩ := before
    exact List.cons_ne_nil _ _
  | op o =>
    rcases before with rfl | rfl
    · exact List.cons_ne_nil _ _
    · exact List.cons_ne_nil _ _
  | float _ _ => cases before
  | _ => exact List.cons_ne_nil _ _

/-- Each lexeme is read as such in front of the next one, and the last one in front of `next`. -/
def Chain (next : UInt8) : List Lexeme → Prop
  | [] => True
  | x :: rest => x.Before ((spellAll rest).headD next) ∧ Chain next rest

instance decidableChain (next : UInt8) : (ls : List Lexeme) → Decidable (Chain next ls)
  | [] => inferInstanceAs (Decidable True)
  | x :: rest =>
    have := decidableChain next rest
    inferInstanceAs (Decidable (x.Before ((spellAll rest).headD next) ∧ Chain next rest))

theorem headD_append (a b : Bytes) (next : UInt8) : (a ++ b).headD next = a.headD (b.headD next) := by
  cases a <;> rfl

theorem headD_of_ne_nil {a : Bytes} (some_ : a ≠ []) (next next' : UInt8) : a.headD next = a.headD next' := by
  cases a with
  | nil => exact absurd rfl some_
  | cons c cs => rfl

theorem Chain.append {next : UInt8} {ls ls' : List Lexeme} (first : Chain ((spellAll ls').headD next) ls)
    (second : Chain next ls') : Chain next (ls ++ ls') := by
  induction ls with
  | nil => exact second
  | cons x ls ih =>
    have behind : spellAll (ls ++ ls') = spellAll ls ++ spellAll ls' := List.flatMap_append
    refine ⟨?_, ih first.2⟩
    rw [List.append_eq, behind, headD_append]
    exact first.1

/-- At the end of a text. -/
theorem Chain.spelt {strtod : Nat → BitVec 64 × Nat} {ls : List Lexeme} (chain : Chain 0 ls) : ∀ p, Spelt strtod p ls := by
  induction ls with
  | nil => exact fun _ => trivial
  | cons x ls ih => exact fun p => ⟨chain.1.fits, ih chain.2 _⟩

/-- A text that ends with a closed lexeme is the same before every byte. -/
theorem Chain.closed {next next' : UInt8} {ls : List Lexeme} (chain : Chain next ls)
    (closed : ∀ x ∈ ls.getLast?, x.closed = true) : Chain next' ls := by
  induction ls with
  | nil => trivial
  | cons x ls ih =>
    cases ls with
    | nil => exact ⟨chain.1.closed (closed x rfl), trivial⟩
    | cons y ls =>
      have here : spellAll (y :: ls) ≠ [] := List.append_ne_nil_of_left_ne_nil chain.2.1.spell_ne_nil _
      refine ⟨?_, ih chain.2 fun z mem => closed z (by rwa [List.getLast?_cons_cons])⟩
      rw [headD_of_ne_nil here next' next]
      exact chain.1

/-! ## Texts before a byte -/

/-- In front of `next`, the text is taken apart into these tokens. -/
def LexedAs (next : UInt8) (text : Bytes) (tokens : List Token) : Prop :=
  ∃ ls, spellAll ls = text ∧ ls.filterMap Lexeme.token? = tokens ∧ Chain next ls

section LexedAs

variable {next : UInt8} {a b : Bytes} {ts ts' : List Token}

theorem LexedAs.nil : LexedAs next [] [] := ⟨[], rfl, rfl, trivial⟩

theorem LexedAs.append (first : LexedAs (b.headD next) a ts) (second : LexedAs next b ts') :
    LexedAs next (a ++ b) (ts ++ ts') := by
  obtain ⟨ls, rfl, rfl, chain⟩ := first
  obtain ⟨ls', rfl, rfl, chain'⟩ := second
  exact ⟨ls ++ ls', List.flatMap_append, List.filterMap_append, chain.append chain'⟩

/-- A text whose last lexeme is closed, with whatever behind it. -/
theorem LexedAs.closed (ls : List Lexeme) (fits : spellAll ls = a ∧ ls.filterMap Lexeme.token? = ts ∧ Chain 0 ls ∧
    ∀ x ∈ ls.getLast?, x.closed = true) : LexedAs next a ts :=
  ⟨ls, fits.1, fits.2.1, fits.2.2.1.closed fits.2.2.2⟩

theorem LexedAs.char {c : Fin 128} (fits : CharFits (UInt8.ofNat c) next) : LexedAs next [UInt8.ofNat c] [.char c] :=
  ⟨[.char c], rfl, rfl, fits, trivial⟩

/-- Texts in a row, each of which is taken apart in the same way before every byte. -/
theorem LexedAs.flatMap {α : Type} {text : α → Bytes} {tokens : α → List Token} {as : List α}
    (each : ∀ x ∈ as, ∀ next, LexedAs next (text x) (tokens x)) : LexedAs next (as.flatMap text) (as.flatMap tokens) := by
  induction as with
  | nil => exact .nil
  | cons x as ih =>
    exact .append (each x List.mem_cons_self _) (ih fun x mem => each x (List.mem_cons_of_mem _ mem))

/-- The tokens of a whole text. -/
theorem LexedAs.tokensOf (strtod : Nat → BitVec 64 × Nat) (lexed : LexedAs 0 a ts) : tokensOf strtod a = ts := by
  obtain ⟨ls, rfl, rfl, chain⟩ := lexed
  exact (tokensOf_spelled ls (chain.spelt 0)).1

end LexedAs

end Stb

open Stb

/-! ## Names -/

/-- A word that the lexer can take as one identifier. -/
structure IsName (name : Bytes) : Prop where
  first : isIdStart (name.headD 0) = true
  letters : ∀ c ∈ name, isIdChar c = true
  length : name.length < 1024

instance (name : Bytes) : Decidable (IsName name) :=
  decidable_of_iff (isIdStart (name.headD 0) = true ∧ (∀ c ∈ name, isIdChar c = true) ∧ name.length < 1024)
    ⟨fun ⟨first, letters, length⟩ => ⟨first, letters, length⟩,
      fun ⟨first, letters, length⟩ => ⟨first, letters, length⟩⟩

section Names

variable {name : Bytes} {next : UInt8}

theorem IsName.ident (word : IsName name) : ∃ x : Ident, x.text = name ∧ identifierToken name = .id x := by
  have some_ : name ≠ [] := by
    rintro rfl
    exact absurd word.first (by decide)
  have clean : 0 ∉ name := fun mem => absurd (word.letters 0 mem) (by decide)
  exact ⟨⟨name, some_, clean⟩, rfl, identifierToken_eq some_ clean⟩

theorem IsName.lexed (word : IsName name) (stops : isIdChar next = false) : LexedAs next name [identifierToken name] := by
  obtain ⟨x, rfl, token⟩ := word.ident
  rw [token]
  exact ⟨[.id x], List.append_nil _, rfl, ⟨word.first, word.letters, word.length, stops⟩, trivial⟩

theorem identifierToken_inj {name' : Bytes} (word : IsName name)
    (same : identifierToken name = identifierToken name') : name = name' := by
  obtain ⟨x, rfl, token⟩ := word.ident
  rw [token, identifierToken] at same
  split at same
  · exact congrArg Ident.text (Token.id.inj same)
  · cases same

end Names

/-! ## Tokens of the trees -/

def CUnary.tokens : CUnary → List Token
  | deref => [.char 42]
  | addressOf => [.char 38]
  | voidPtr => [.char 40, identifierToken (bytesOf "void"), .char 42, .char 41]

def CBinary.tokens : CBinary → List Token
  | add => [.char 43]
  | times => [.char 42]
  | equal => [.op .eq]

def CExpr.tokens : CExpr → List Token
  | ident name => [identifierToken name]
  | digit d => [.intlit (d : Nat)]
  | emptyString => [.dqstring []]
  | arrow e field => e.tokens ++ [.op .arrow, identifierToken field]
  | unary op e => op.tokens ++ e.tokens
  | binary op a b => a.tokens ++ op.tokens ++ b.tokens
  | paren e => [.char 40] ++ e.tokens ++ [.char 41]

/-- What a part of a format is in the value of the literal. -/
def CFormat.bytes : CFormat → Bytes
  | newline => [10]
  | part => part.text

@[simp] theorem CFormat.bytes_plain (text : Bytes) : (plain text).bytes = text := rfl

/-- The tokens of some parts with `,` between them. -/
def commaTokens (parts : List (List Token)) : List Token := [Token.char 44].intercalate parts

def CCall.tokens : CCall → List Token
  | printf format args =>
    [identifierToken (bytesOf "printf"), .char 40] ++
      commaTokens ([.dqstring (format.flatMap CFormat.bytes)] :: args.map CExpr.tokens) ++ [.char 41, .char 59]
  | function callee args =>
    [identifierToken callee] ++ [.char 40] ++ commaTokens (args.map CExpr.tokens) ++ [.char 41, .char 59]

/-- What follows a label. -/
def printedTokens (printed : Bytes) : List Token :=
  [.char 58] ++ ((CCall.printf [.plain printed] []).tokens ++ [identifierToken (bytesOf "break"), .char 59])

def CStmt.tokens : CStmt → List Token
  | call c => c.tokens
  | ifThen cond yes => [identifierToken (bytesOf "if"), .char 40] ++ cond.tokens ++ [.char 41] ++ yes.tokens
  | ifElse cond yes no =>
    [identifierToken (bytesOf "if"), .char 40] ++ cond.tokens ++ [.char 41] ++ yes.tokens ++
      ([identifierToken (bytesOf "else")] ++ no.tokens)
  | switch on labels default =>
    [identifierToken (bytesOf "switch"), .char 40] ++ on.tokens ++ [.char 41, .char 123] ++
      labels.flatMap (fun c => [identifierToken (bytesOf "case"), identifierToken c.1] ++ printedTokens c.2) ++
      ([identifierToken (bytesOf "default")] ++ printedTokens default) ++ [.char 125]

def CParam.tokens (p : CParam) : List Token :=
  match p.type with
  | .structPtr tag => [identifierToken (bytesOf "struct"), identifierToken tag, .char 42, identifierToken p.name]
  | .enum tag => [identifierToken (bytesOf "enum"), identifierToken tag, identifierToken p.name]
  | .named word => [identifierToken word, identifierToken p.name]

/-- The tokens of a function from its name on. -/
def CFunction.declarator (f : CFunction) : List Token :=
  [identifierToken f.name] ++ [.char 40] ++ commaTokens (f.params.map CParam.tokens) ++ [.char 41, .char 123] ++
    f.body.flatMap CStmt.tokens ++ [.char 125]

def CFunction.tokens (f : CFunction) : List Token := [identifierToken (bytesOf "void")] ++ f.declarator

/-! ## Expressions -/

/-- How tightly an operator binds its operands: a smaller number binds tighter, 0 is for
primary expressions, 1 for members and 2 for signs. -/
def CBinary.level : CBinary → Nat
  | times => 3
  | add => 4
  | equal => 5

def CExpr.level : CExpr → Nat
  | arrow _ _ => 1
  | unary _ _ => 2
  | binary op _ _ => op.level
  | _ => 0

/-- The operands bind tighter than the operators, or are in parentheses. -/
def CExpr.Written : CExpr → Prop
  | ident name => IsName name ∧ name ≠ bytesOf "void"
  | digit _ => True
  | emptyString => True
  | arrow e field => e.level ≤ 1 ∧ e.Written ∧ IsName field
  | unary _ e => e.level ≤ 1 ∧ e.Written
  | binary op a b => (a.level ≤ op.level ∧ a.Written) ∧ b.level < op.level ∧ b.Written
  | paren e => e.Written

section Lexed

variable {next : UInt8} {e : CExpr}

/-- A byte that a sign and it do not make another operator. -/
def AfterSign (c : UInt8) : Prop := CharFits (byteOf '*') c ∧ CharFits (byteOf '&') c

theorem afterSign_letter : ∀ c, isIdStart c = true → AfterSign c := by
  unfold AfterSign
  exact forall_byte (by decide +kernel)

theorem CExpr.Written.opens (written : e.Written) (tight : e.level ≤ 1) :
    e.text ≠ [] ∧ ∀ next, AfterSign (e.text.headD next) := by
  induction e with
  | ident name =>
    obtain ⟨word, -⟩ := written
    obtain ⟨x, rfl, -⟩ := word.ident
    refine ⟨x.nonempty, fun next => ?_⟩
    rw [CExpr.text, headD_of_ne_nil x.nonempty next 0]
    exact afterSign_letter _ word.first
  | digit d =>
    have digits : ∀ d : Fin 10, AfterSign (48 + UInt8.ofNat d) := by
      unfold AfterSign
      decide
    exact ⟨List.cons_ne_nil _ _, fun _ => digits d⟩
  | emptyString =>
    have quote : AfterSign (byteOf '"') := ⟨by decide, by decide⟩
    exact ⟨List.cons_ne_nil _ _, fun _ => quote⟩
  | arrow e field ih =>
    obtain ⟨tight, left, -⟩ := written
    obtain ⟨some_, opens⟩ := ih left tight
    refine ⟨fun none_ => ?_, fun next => ?_⟩
    · simp only [CExpr.text, List.append_eq_nil_iff] at none_
      exact some_ none_.1.1
    · rw [CExpr.text, List.append_assoc, headD_append]
      exact opens _
  | unary op e => exact absurd tight (by simp [CExpr.level])
  | binary op a b => cases op <;> exact absurd tight (by simp [CExpr.level, CBinary.level])
  | paren e =>
    have opening : AfterSign (byteOf '(') := ⟨by decide, by decide⟩
    exact ⟨List.cons_ne_nil _ _, fun _ => opening⟩

theorem CUnary.lexed (op : CUnary) (opens : AfterSign next) : LexedAs next op.text op.tokens := by
  cases op with
  | deref => exact .char (c := 42) opens.1
  | addressOf => exact .char (c := 38) opens.2
  | voidPtr => exact .closed [.char 40, .id ⟨bytesOf "void", by decide, by decide⟩, .char 42, .char 41] (by decide)

theorem CBinary.lexed (op : CBinary) : LexedAs next op.text op.tokens := by
  cases op with
  | add => exact .closed [.blank 32, .char 43, .blank 32] (by decide)
  | times => exact .closed [.blank 32, .char 42, .blank 32] (by decide)
  | equal => exact .closed [.blank 32, .op .eq, .blank 32] (by decide)

/-- No byte that goes on with a word or a number. -/
structure WordEnds (next : UInt8) : Prop where
  word : isIdChar next = false
  point : next ≠ byteOf '.'

theorem WordEnds.space : WordEnds 32 := ⟨by decide, by decide⟩

theorem WordEnds.close : WordEnds (byteOf ')') := ⟨by decide, by decide⟩

theorem WordEnds.open : WordEnds (byteOf '(') := ⟨by decide, by decide⟩

theorem WordEnds.comma : WordEnds (byteOf ',') := ⟨by decide, by decide⟩

theorem WordEnds.minus : WordEnds (byteOf '-') := ⟨by decide, by decide⟩

theorem openParen_lexed : LexedAs next (bytesOf "(") [.char 40] := .closed [.char 40] (by decide)

theorem closeParen_lexed : LexedAs next (bytesOf ")") [.char 41] := .closed [.char 41] (by decide)

/-- What opens the body of a function or of a `switch`. -/
theorem bodyOpen_lexed : LexedAs next (bytesOf ") \x7b") [.char 41, .char 123] :=
  .closed [.char 41, .blank 32, .char 123] (by decide)

theorem brace_lexed : LexedAs next (bytesOf "\x7d") [.char 125] := .closed [.char 125] (by decide)

/-- The text of an expression is lexed as its tokens. -/
theorem CExpr.Written.lexed (written : e.Written) : ∀ {next}, WordEnds next → LexedAs next e.text e.tokens := by
  induction e with
  | ident name => exact fun delimits => written.1.lexed delimits.word
  | digit d =>
    intro next delimits
    have value : ∀ d : Fin 10, (Lexeme.integer [48 + UInt8.ofNat d]).token? = some (.intlit (d : Nat)) := by decide
    exact ⟨[.integer [48 + UInt8.ofNat d]], rfl, by simp [value d, CExpr.tokens],
      ⟨⟨d, rfl⟩, delimits.word, delimits.point⟩, trivial⟩
  | emptyString => exact fun _ => .closed [.literal []] (by decide)
  | arrow e field ih =>
    intro next delimits
    obtain ⟨-, left, word⟩ := written
    have sign : ∀ {next}, LexedAs next (bytesOf "->") [.op .arrow] := .closed [.op .arrow] (by decide)
    rw [CExpr.text, List.append_assoc]
    exact .append (ih left WordEnds.minus) (.append sign (word.lexed delimits.word))
  | unary op e ih =>
    intro next delimits
    obtain ⟨tight, right⟩ := written
    exact .append (op.lexed ((right.opens tight).2 next)) (ih right delimits)
  | binary op a b first second =>
    intro next delimits
    obtain ⟨⟨-, left⟩, -, right⟩ := written
    have sign : ∀ next, WordEnds ((op.text ++ b.text).headD next) := by
      intro next
      cases op <;> exact WordEnds.space
    rw [CExpr.text, CExpr.tokens, List.append_assoc, List.append_assoc]
    exact .append (first left (sign next)) (.append op.lexed (second right delimits))
  | paren e ih =>
    intro next delimits
    exact .append (.append openParen_lexed (ih written WordEnds.close)) closeParen_lexed

end Lexed

/-! ## Calls -/

/-- The plain parts need no escapes. -/
def CFormat.Written : CFormat → Prop
  | plain text => ∀ c ∈ text, c ≠ byteOf '"' ∧ c ≠ byteOf '\\' ∧ c ≠ byteOf '%' ∧ c ≠ 10
  | _ => True

/-- The characters of the literal for a part of a format. -/
def CFormat.chars : CFormat → List Character
  | newline => [.escaped 110]
  | part => part.text.map .plain

/-- The words that a call of a function does not begin with. -/
def statementWords : List Bytes := [bytesOf "printf", bytesOf "if", bytesOf "switch", bytesOf "else"]

def CCall.Written : CCall → Prop
  | printf format args =>
    (∀ part ∈ format, part.Written) ∧ (format.flatMap CFormat.bytes).length ≤ 1024 ∧ ∀ e ∈ args, e.Written
  | function callee args => IsName callee ∧ callee ∉ statementWords ∧ args ≠ [] ∧ ∀ e ∈ args, e.Written

section Calls

variable {next : UInt8}

theorem charactersFit {chars : List Character} (all : ∀ x ∈ chars, x ≠ .plain (byteOf '"') ∧ ∀ next, x.Fits next) :
    CharactersFit chars := by
  induction chars with
  | nil => trivial
  | cons x chars ih =>
    obtain ⟨here, later⟩ := List.forall_mem_cons.mp all
    exact ⟨⟨here.1, here.2 _⟩, ih later⟩

theorem spell_plain (text : Bytes) : (text.map Character.plain).flatMap Character.spell = text := by
  rw [List.flatMap_map]
  exact List.flatMap_singleton' text

theorem value_plain (text : Bytes) :
    (text.map Character.plain).map (fun x => UInt8.ofNat x.value.toNat) = text := by
  rw [List.map_map]
  refine (List.map_congr_left fun c _ => ?_).trans (List.map_id text)
  exact UInt8.ofNat_toNat

theorem CFormat.spell_chars (part : CFormat) : part.chars.flatMap Character.spell = part.text := by
  cases part with
  | newline => rfl
  | _ => exact spell_plain _

theorem CFormat.value_chars (part : CFormat) :
    part.chars.map (fun x => UInt8.ofNat x.value.toNat) = part.bytes := by
  cases part with
  | newline => decide
  | _ => exact value_plain _

theorem CFormat.Written.chars {part : CFormat} (written : part.Written) :
    ∀ x ∈ part.chars, x ≠ .plain (byteOf '"') ∧ ∀ next, x.Fits next := by
  have plain : ∀ {text : Bytes}, (∀ c ∈ text, c ≠ byteOf '"' ∧ c ≠ byteOf '\\') →
      ∀ x ∈ text.map Character.plain, x ≠ .plain (byteOf '"') ∧ ∀ next, x.Fits next := by
    intro text all x mem
    obtain ⟨c, here, rfl⟩ := List.mem_map.mp mem
    obtain ⟨quote, escape⟩ := all c here
    exact ⟨fun same => quote (Character.plain.inj same), fun _ same => absurd same escape⟩
  cases part with
  | plain text => exact plain fun c mem => ⟨(written c mem).1, (written c mem).2.1⟩
  | newline =>
    intro x mem
    obtain rfl := List.mem_singleton.mp mem
    have known : 0 ≤ (escape? 110).getD (-1) := by decide
    exact ⟨Character.noConfusion, fun _ => known⟩
  | padded => exact plain (by decide)
  | int => exact plain (by decide)
  | float => exact plain (by decide)
  | pointer => exact plain (by decide)

/-- A format is lexed as one literal. -/
theorem lexed_format {format : List CFormat} (written : ∀ part ∈ format, part.Written)
    (small : (format.flatMap CFormat.bytes).length ≤ 1024) :
    LexedAs next (bytesOf "\"" ++ format.flatMap CFormat.text ++ bytesOf "\"") [.dqstring (format.flatMap CFormat.bytes)] := by
  have spell : (format.flatMap CFormat.chars).flatMap Character.spell = format.flatMap CFormat.text := by
    rw [List.flatMap_assoc]
    exact congrArg (fun f => format.flatMap f) (funext CFormat.spell_chars)
  have value : (format.flatMap CFormat.chars).map (fun x => UInt8.ofNat x.value.toNat) = format.flatMap CFormat.bytes := by
    rw [List.map_flatMap]
    exact congrArg (fun f => format.flatMap f) (funext CFormat.value_chars)
  have fits : CharactersFit (format.flatMap CFormat.chars) := charactersFit fun x mem => by
    obtain ⟨part, there, here⟩ := List.mem_flatMap.mp mem
    exact (written part there).chars x here
  refine ⟨[.literal (format.flatMap CFormat.chars)], ?_, ?_, ⟨fits, ?_⟩, trivial⟩
  · rw [← spell]
    exact List.append_nil _
  · rw [← value]
    rfl
  · rwa [← value, List.length_map] at small

theorem comma_lexed : LexedAs next (bytesOf ", ") [.char 44] := .closed [.char 44, .blank 32] (by decide)

/-- Parts with commas between them, in front of the closing parenthesis. -/
theorem lexed_commaSeparated {parts : List (Bytes × List Token)}
    (each : ∀ part ∈ parts, ∀ {next}, WordEnds next → LexedAs next part.1 part.2) :
    LexedAs (byteOf ')') (commaSeparated (parts.map Prod.fst)) (commaTokens (parts.map Prod.snd)) := by
  induction parts with
  | nil => exact .nil
  | cons part parts ih =>
    obtain ⟨here, later⟩ := List.forall_mem_cons.mp each
    cases parts with
    | nil =>
      rw [commaSeparated, commaTokens, List.map_singleton, List.map_singleton, List.intercalate_singleton,
        List.intercalate_singleton]
      exact here WordEnds.close
    | cons part' parts =>
      rw [commaSeparated, commaTokens, List.map_cons, List.map_cons, List.map_cons, List.map_cons,
        List.intercalate_cons_cons, List.intercalate_cons_cons, List.append_assoc, List.append_assoc]
      exact .append (here WordEnds.comma) (.append comma_lexed (ih later))

theorem callEnd_lexed : LexedAs next (bytesOf ");") [.char 41, .char 59] := .closed [.char 41, .char 59] (by decide)

theorem CCall.Written.lexed {c : CCall} (written : c.Written) : LexedAs next c.text c.tokens := by
  have texts : ∀ args : List CExpr, args.map CExpr.text = (args.map fun e => (e.text, e.tokens)).map Prod.fst := by simp
  have tokens : ∀ args : List CExpr, args.map CExpr.tokens = (args.map fun e => (e.text, e.tokens)).map Prod.snd := by simp
  have arguments : ∀ {args : List CExpr}, (∀ e ∈ args, e.Written) →
      ∀ part ∈ args.map fun e => (e.text, e.tokens), ∀ {next}, WordEnds next → LexedAs next part.1 part.2 := by
    intro args all part mem next delimits
    obtain ⟨e, here, rfl⟩ := List.mem_map.mp mem
    exact (all e here).lexed delimits
  cases c with
  | printf format args =>
    obtain ⟨formats, small, all⟩ := written
    have opening : ∀ {next}, LexedAs next (bytesOf "printf(") [identifierToken (bytesOf "printf"), .char 40] :=
      .closed [.id ⟨bytesOf "printf", by decide, by decide⟩, .char 40] (by decide)
    have parts := @lexed_commaSeparated ((bytesOf "\"" ++ format.flatMap CFormat.text ++ bytesOf "\"",
        [.dqstring (format.flatMap CFormat.bytes)]) :: args.map fun e => (e.text, e.tokens))
      (List.forall_mem_cons.mpr ⟨fun _ => lexed_format formats small, arguments all⟩)
    rw [List.map_cons, List.map_cons, ← texts, ← tokens] at parts
    exact .append (.append opening parts) callEnd_lexed
  | function callee args =>
    obtain ⟨word, -, -, all⟩ := written
    have parts := lexed_commaSeparated (arguments all)
    rw [← texts, ← tokens] at parts
    rw [CCall.text, CCall.tokens, List.append_assoc, List.append_assoc, List.append_assoc, List.append_assoc]
    exact .append (word.lexed WordEnds.open.word) (.append openParen_lexed (.append parts callEnd_lexed))

end Calls

/-! ## Statements -/

/-- The text that a label of a switch prints. -/
def Printed (text : Bytes) : Prop := (CCall.printf [.plain text] []).Written

def CStmt.Written : CStmt → Prop
  | call c => c.Written
  | ifThen cond yes => cond.Written ∧ yes.Written
  | ifElse cond yes no => cond.Written ∧ yes.Written ∧ no.Written
  | switch on labels default => on.Written ∧ (∀ c ∈ labels, IsName c.1 ∧ Printed c.2) ∧ Printed default

section Statements

variable {next : UInt8} {text : Bytes} {ts : List Token}

theorem lexed_line {n : Nat} (lexed : LexedAs 10 text ts) : LexedAs next (line n text) ts := by
  have spaces : ∀ {next}, LexedAs next (bytesOf "    ") [] :=
    .closed [.blank 32, .blank 32, .blank 32, .blank 32] (by decide)
  have margin : ∀ {next}, LexedAs next (indent n) [] := by
    induction n with
    | zero => exact .nil
    | succ n ih => exact .append spaces ih
  have newline : LexedAs next [10] [] := .closed [.blank 10] (by decide)
  have whole := LexedAs.append (b := [10]) (LexedAs.append margin lexed) newline
  rwa [List.nil_append, List.append_nil] at whole

theorem lexed_if {cond : CExpr} {yes : CCall} (first : cond.Written) (second : yes.Written) :
    LexedAs next (line 1 (bytesOf "if (" ++ cond.text ++ bytesOf ") " ++ yes.text))
      ([identifierToken (bytesOf "if"), .char 40] ++ cond.tokens ++ [.char 41] ++ yes.tokens) := by
  have opening : ∀ {next}, LexedAs next (bytesOf "if (") [identifierToken (bytesOf "if"), .char 40] :=
    .closed [.id ⟨bytesOf "if", by decide, by decide⟩, .blank 32, .char 40] (by decide)
  have closing : ∀ {next}, LexedAs next (bytesOf ") ") [.char 41] := .closed [.char 41, .blank 32] (by decide)
  refine lexed_line ?_
  rw [List.append_assoc, List.append_assoc, List.append_assoc, List.append_assoc]
  exact .append opening (.append (first.lexed WordEnds.close) (.append closing second.lexed))

theorem lexed_caseText {label printed : Bytes} (lexed : LexedAs (byteOf ':') label ts) (written : Printed printed) :
    LexedAs next (caseText label printed) (ts ++ printedTokens printed) := by
  have colon : ∀ {next}, LexedAs next (bytesOf ":") [.char 58] := .closed [.char 58] (by decide)
  have stop : ∀ {next}, LexedAs next (bytesOf "break;") [identifierToken (bytesOf "break"), .char 59] :=
    .closed [.id ⟨bytesOf "break", by decide, by decide⟩, .char 59] (by decide)
  have first : ∀ {next}, LexedAs next (line 2 (label ++ bytesOf ":")) (ts ++ [.char 58]) := lexed_line (.append lexed colon)
  have second : ∀ {next}, LexedAs next (line 3 (CCall.printf [.plain printed] []).text)
      (CCall.printf [.plain printed] []).tokens := lexed_line (CCall.Written.lexed written)
  have whole := first.append (second.append (@lexed_line next _ _ 3 stop))
  rw [List.append_assoc ts] at whole
  rwa [caseText, List.append_assoc]

theorem CStmt.Written.lexed {s : CStmt} (written : s.Written) : LexedAs next s.text s.tokens := by
  cases s with
  | call c => exact lexed_line (CCall.Written.lexed written)
  | ifThen cond yes => exact lexed_if written.1 written.2
  | ifElse cond yes no =>
    have other : ∀ {next}, LexedAs next (bytesOf "else ") [identifierToken (bytesOf "else")] :=
      .closed [.id ⟨bytesOf "else", by decide, by decide⟩, .blank 32] (by decide)
    exact .append (lexed_if written.1 written.2.1) (lexed_line (.append other written.2.2.lexed))
  | switch on labels default =>
    obtain ⟨value, all, last⟩ := written
    have opening : ∀ {next}, LexedAs next (bytesOf "switch(") [identifierToken (bytesOf "switch"), .char 40] :=
      .closed [.id ⟨bytesOf "switch", by decide, by decide⟩, .char 40] (by decide)
    have case_ : ∀ {next}, LexedAs next (bytesOf "case ") [identifierToken (bytesOf "case")] :=
      .closed [.id ⟨bytesOf "case", by decide, by decide⟩, .blank 32] (by decide)
    have default_ : LexedAs (byteOf ':') (bytesOf "default") [identifierToken (bytesOf "default")] :=
      IsName.lexed (by decide) (by decide)
    have first : ∀ {next}, LexedAs next (line 1 (bytesOf "switch(" ++ on.text ++ bytesOf ") \x7b"))
        ([identifierToken (bytesOf "switch"), .char 40] ++ on.tokens ++ [.char 41, .char 123]) := by
      intro next
      refine lexed_line ?_
      rw [List.append_assoc, List.append_assoc]
      exact .append opening (.append (value.lexed WordEnds.close) bodyOpen_lexed)
    have cases_ : ∀ {next}, LexedAs next (labels.flatMap fun c => caseText (bytesOf "case " ++ c.1) c.2)
        (labels.flatMap fun c => [identifierToken (bytesOf "case"), identifierToken c.1] ++ printedTokens c.2) := by
      intro next
      refine .flatMap fun c mem next => ?_
      obtain ⟨word, printed⟩ := all c mem
      exact lexed_caseText (.append case_ (word.lexed (by decide))) printed
    exact .append (.append (.append first cases_) (lexed_caseText default_ last)) (lexed_line brace_lexed)

end Statements

/-! ## Functions -/

def CType.Written : CType → Prop
  | structPtr tag => IsName tag
  | enum tag => IsName tag
  | named word => IsName word ∧ word ≠ bytesOf "struct" ∧ word ≠ bytesOf "enum"

structure CParam.Written (p : CParam) : Prop where
  type : p.type.Written
  name : IsName p.name

structure CFunction.Written (f : CFunction) : Prop where
  name : IsName f.name
  some : f.params ≠ []
  params : ∀ p ∈ f.params, p.Written
  body : ∀ s ∈ f.body, s.Written

section Functions

variable {next : UInt8}

theorem CParam.Written.lexed {p : CParam} (written : p.Written) (delimits : WordEnds next) : LexedAs next p.text p.tokens := by
  obtain ⟨type, name⟩ := p
  obtain ⟨fits, word⟩ := written
  have last := word.lexed delimits.word
  have space : ∀ {next}, LexedAs next (bytesOf " ") [] := .closed [.blank 32] (by decide)
  cases type with
  | structPtr tag =>
    have lead : ∀ {next}, LexedAs next (bytesOf "struct ") [identifierToken (bytesOf "struct")] :=
      .closed [.id ⟨bytesOf "struct", by decide, by decide⟩, .blank 32] (by decide)
    have star : LexedAs (name.headD next) (bytesOf " *") [.char 42] := by
      obtain ⟨x, rfl, -⟩ := word.ident
      have opens := afterSign_letter _ word.first
      rw [headD_of_ne_nil x.nonempty next 0]
      exact .append (b := [42]) space (.char (c := 42) opens.1)
    simp only [CParam.text, List.append_assoc]
    show LexedAs next _
      ([identifierToken (bytesOf "struct")] ++ ([identifierToken tag] ++ ([.char 42] ++ [identifierToken name])))
    exact .append lead (.append (fits.lexed WordEnds.space.word) (.append star last))
  | enum tag =>
    have lead : ∀ {next}, LexedAs next (bytesOf "enum ") [identifierToken (bytesOf "enum")] :=
      .closed [.id ⟨bytesOf "enum", by decide, by decide⟩, .blank 32] (by decide)
    simp only [CParam.text, List.append_assoc]
    show LexedAs next _ ([identifierToken (bytesOf "enum")] ++ ([identifierToken tag] ++ ([] ++ [identifierToken name])))
    exact .append lead (.append (fits.lexed WordEnds.space.word) (.append space last))
  | named base =>
    simp only [CParam.text, List.append_assoc]
    show LexedAs next _ ([identifierToken base] ++ ([] ++ [identifierToken name]))
    exact .append (fits.1.lexed WordEnds.space.word) (.append space last)

/-- The text of a function is lexed as its tokens, whatever comes next. -/
theorem CFunction.Written.lexed {f : CFunction} (written : f.Written) : LexedAs next f.text f.tokens := by
  have lead : ∀ {next}, LexedAs next (bytesOf "void ") [identifierToken (bytesOf "void")] :=
    .closed [.id ⟨bytesOf "void", by decide, by decide⟩, .blank 32] (by decide)
  have params : LexedAs (byteOf ')') (commaSeparated (f.params.map CParam.text)) (commaTokens (f.params.map CParam.tokens)) := by
    have parts := @lexed_commaSeparated (f.params.map fun p => (p.text, p.tokens)) fun part mem next delimits => by
      obtain ⟨p, here, rfl⟩ := List.mem_map.mp mem
      exact (written.params p here).lexed delimits
    rwa [List.map_map, List.map_map] at parts
  have first : ∀ {next}, LexedAs next (line 0 (bytesOf "void " ++ f.name ++ bytesOf "(" ++
      commaSeparated (f.params.map CParam.text) ++ bytesOf ") \x7b"))
      ([identifierToken (bytesOf "void"), identifierToken f.name, .char 40] ++ commaTokens (f.params.map CParam.tokens) ++
        [.char 41, .char 123]) := by
    intro next
    refine lexed_line ?_
    show LexedAs 10 _ ([identifierToken (bytesOf "void")] ++ ([identifierToken f.name] ++ ([.char 40] ++
      (commaTokens (f.params.map CParam.tokens) ++ [.char 41, .char 123]))))
    rw [List.append_assoc, List.append_assoc, List.append_assoc]
    exact .append lead (.append (written.name.lexed WordEnds.open.word) (.append openParen_lexed (.append params bodyOpen_lexed)))
  show LexedAs next _ ([identifierToken (bytesOf "void"), identifierToken f.name, .char 40] ++
    commaTokens (f.params.map CParam.tokens) ++ [.char 41, .char 123] ++ f.body.flatMap CStmt.tokens ++ [.char 125])
  exact .append (.append first (.flatMap fun s mem next => (written.body s mem).lexed)) (lexed_line brace_lexed)

end Functions

end MoeToolchain
