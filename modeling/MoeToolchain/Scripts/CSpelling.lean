import MoeToolchain.ProcMacro.Lexemes
import MoeToolchain.Scripts.NamedTypes

/-!
# Tokens of C and what the lexer makes of them

A text of C with white space and comments between its tokens is not what the lexer takes
it for: the letters behind a number and before a literal are identifiers of their own, and
a character literal takes the byte behind its quote along.

Main result:

* `Written.words`: the identifiers that the lexer finds in such a text.
-/

namespace MoeToolchain
set_option autoImplicit false
open Lib

/-! ## Tokens -/

/-- The digits of an integer literal. -/
inductive IntegerDigits
  | plain (digits : Bytes)
  | hex (mark : UInt8) (digits : Bytes)
deriving DecidableEq, Repr

/-- The value of the literal in C. -/
def IntegerDigits.value : IntegerDigits → Nat
  | plain digits => Stb.digitsValue (Stb.baseOf digits) digits
  | hex _ digits => Stb.digitsValue 16 digits

inductive CNumber
  | integer (digits : IntegerDigits)
  | float (spelling : Bytes) (value : BitVec 64)
deriving DecidableEq, Repr

/-- A token of C. The suffix of a number and the encoding of a literal are letters that belong to it. -/
inductive CToken
  | word (name : Ident)
  | number (n : CNumber) (suffix : Option Ident)
  | char (encoding : Option Ident) (x : Stb.Character)
  | string (encoding : Option Ident) (chars : List Stb.Character)
  | op (o : Operator)
  | mark (c : Fin 128)
deriving DecidableEq, Repr

/-- White space or a comment. -/
inductive CLayout
  | blank (c : UInt8)
  | lineComment (body : Bytes)
  | comment (body : Bytes)
deriving DecidableEq, Repr

/-- A piece of a text of C. -/
inductive CPiece
  | token (t : CToken)
  | layout (l : CLayout)
deriving DecidableEq, Repr

def CNumber.lexeme : CNumber → Stb.Lexeme
  | integer (.plain digits) => .integer digits
  | integer (.hex mark digits) => .hexInteger mark digits
  | float spelling value => .float spelling value

def CLayout.lexeme : CLayout → Stb.Lexeme
  | blank c => .blank c
  | lineComment body => .lineComment body
  | comment body => .comment body

/-- Letters before or behind a literal. -/
def letters (name : Option Ident) : List Stb.Lexeme := name.toList.map Stb.Lexeme.id

def quoted (x : Stb.Character) : Bytes := byteOf '\'' :: (x.spell ++ [byteOf '\''])

def CToken.spell : CToken → Bytes
  | word name => name.text
  | number n suffix => n.lexeme.spell ++ Stb.spellAll (letters suffix)
  | char encoding x => Stb.spellAll (letters encoding) ++ quoted x
  | string encoding chars => Stb.spellAll (letters encoding) ++ (Stb.Lexeme.literal chars).spell
  | op o => Stb.operatorSpelling o
  | mark c => [UInt8.ofNat c]

def CPiece.spell : CPiece → Bytes
  | token t => t.spell
  | layout l => l.lexeme.spell

def CPiece.token? : CPiece → Option CToken
  | token t => some t
  | layout _ => none

/-- The identifiers that the lexer makes of a token. -/
def CToken.words : CToken → List Ident
  | word name => [name]
  | number _ suffix => suffix.toList
  | char encoding _ => encoding.toList
  | string encoding _ => encoding.toList
  | op _ => []
  | mark _ => []

/-! ## Lexemes -/

/-- The first byte of an operator, and the others. -/
def operatorBytes (o : Operator) : UInt8 × List (Fin 128) :=
  ((Stb.operatorSpelling o).headD 0, (Stb.operatorSpelling o).tail.map fun c => Fin.ofNat 128 c.toNat)

/-- The lexemes of a text of C; `quote` is a character literal that has been opened right before. It takes along
a blank, a single character or the first half of an operator. The lexer loses its way in a comment that it takes the
first byte of, and there are no lexemes then. -/
def lexemesFrom : Option Stb.Character → List CPiece → Option (List Stb.Lexeme)
  | none, [] => some []
  | none, .layout l :: ps => (lexemesFrom none ps).map (l.lexeme :: ·)
  | none, .token (.word name) :: ps => (lexemesFrom none ps).map (.id name :: ·)
  | none, .token (.number n suffix) :: ps => (lexemesFrom none ps).map (n.lexeme :: letters suffix ++ ·)
  | none, .token (.char encoding x) :: ps => (lexemesFrom (some x) ps).map (letters encoding ++ ·)
  | none, .token (.string encoding chars) :: ps => (lexemesFrom none ps).map (letters encoding ++ .literal chars :: ·)
  | none, .token (.op o) :: ps => (lexemesFrom none ps).map (.op o :: ·)
  | none, .token (.mark c) :: ps => (lexemesFrom none ps).map (.char c :: ·)
  | some x, .layout (.blank c) :: ps => (lexemesFrom none ps).map (.charLiteral x c :: ·)
  | some x, .token (.mark c) :: ps => (lexemesFrom none ps).map (.charLiteral x (UInt8.ofNat c) :: ·)
  | some x, .token (.op o) :: ps =>
    (lexemesFrom none ps).map (.charLiteral x (operatorBytes o).1 :: (operatorBytes o).2.map Stb.Lexeme.char ++ ·)
  | some _, _ => none

/-- Some text with these tokens, which the lexer takes apart without an error. -/
structure Written (strtod : Nat → BitVec 64 × Nat) (ts : List CToken) where
  pieces : List CPiece
  lexemes : List Stb.Lexeme
  tokens : pieces.filterMap CPiece.token? = ts
  taken : lexemesFrom none pieces = some lexemes
  spelt : Stb.Spelt strtod 0 lexemes

def Written.text {strtod : Nat → BitVec 64 × Nat} {ts : List CToken} (w : Written strtod ts) : Bytes :=
  w.pieces.flatMap CPiece.spell

/-- The identifiers among the tokens. -/
def identifiers (ts : List Token) : List Ident := ts.filterMap Token.ident?

@[simp] theorem identifiers_append (ts us : List Token) : identifiers (ts ++ us) = identifiers ts ++ identifiers us :=
  List.filterMap_append

@[simp] theorem identifiers_nil : identifiers [] = [] := rfl

theorem identifiers_cons (t : Token) (ts : List Token) : identifiers (t :: ts) = t.ident?.toList ++ identifiers ts := by
  cases named : t.ident? <;> simp [identifiers, named]

section Lexemes

/-- The identifiers of some lexemes. -/
def lexemeWords (ls : List Stb.Lexeme) : List Ident := identifiers (ls.filterMap Stb.Lexeme.token?)

theorem lexemeWords_cons (l : Stb.Lexeme) (ls : List Stb.Lexeme) :
    lexemeWords (l :: ls) = identifiers l.token?.toList ++ lexemeWords ls := by
  cases token : l.token? <;> simp [lexemeWords, token, identifiers_cons]

theorem lexemeWords_append (ls ls' : List Stb.Lexeme) : lexemeWords (ls ++ ls') = lexemeWords ls ++ lexemeWords ls' := by
  rw [lexemeWords, List.filterMap_append, identifiers_append]
  rfl

theorem lexemeWords_letters (name : Option Ident) : lexemeWords (letters name) = name.toList := by
  cases name <;> rfl

theorem lexemeWords_chars (cs : List (Fin 128)) : lexemeWords (cs.map Stb.Lexeme.char) = [] := by
  induction cs with
  | nil => rfl
  | cons c cs ih =>
    rw [List.map_cons, lexemeWords_cons, ih]
    rfl

theorem CNumber.words_lexeme (n : CNumber) : identifiers n.lexeme.token?.toList = [] := by
  obtain ⟨digits | digits⟩ | _ := n <;> rfl

theorem CLayout.token?_lexeme (l : CLayout) : l.lexeme.token? = none := by
  cases l <;> rfl

theorem operatorBytes_spell (o : Operator) :
    (operatorBytes o).1 :: (operatorBytes o).2.map (fun c => UInt8.ofNat c) = Stb.operatorSpelling o := by
  cases o <;> decide

theorem spellAll_chars (cs : List (Fin 128)) : Stb.spellAll (cs.map Stb.Lexeme.char) = cs.map fun c => UInt8.ofNat c := by
  induction cs with
  | nil => rfl
  | cons c cs ih =>
    rw [List.map_cons, Stb.spellAll, List.flatMap_cons, ← Stb.spellAll, ih]
    rfl

theorem spellAll_cons (l : Stb.Lexeme) (ls : List Stb.Lexeme) : Stb.spellAll (l :: ls) = l.spell ++ Stb.spellAll ls :=
  List.flatMap_cons

theorem spellAll_append (ls ls' : List Stb.Lexeme) : Stb.spellAll (ls ++ ls') = Stb.spellAll ls ++ Stb.spellAll ls' :=
  List.flatMap_append

/-- The lexemes have the text of the pieces and the identifiers of their tokens. The induction is on the
pieces, for both cases of a literal before them. -/
theorem lexemesFrom_reads (ps : List CPiece) : ∀ {quote : Option Stb.Character} {ls : List Stb.Lexeme},
    lexemesFrom quote ps = some ls →
    Stb.spellAll ls = quote.toList.flatMap quoted ++ ps.flatMap CPiece.spell ∧
      lexemeWords ls = (ps.filterMap CPiece.token?).flatMap CToken.words := by
  induction ps with
  | nil =>
    intro quote ls taken
    cases quote with
    | none =>
      cases taken
      exact ⟨rfl, rfl⟩
    | some x => cases taken
  | cons piece ps ih =>
    intro quote ls taken
    rw [List.flatMap_cons]
    cases quote with
    | none =>
      cases piece with
      | layout l =>
        obtain ⟨rest, here, rfl⟩ := Option.map_eq_some_iff.mp taken
        obtain ⟨text, words⟩ := ih here
        rw [spellAll_cons, lexemeWords_cons, text, words, l.token?_lexeme]
        exact ⟨rfl, rfl⟩
      | token t =>
        cases t with
        | word name =>
          obtain ⟨rest, here, rfl⟩ := Option.map_eq_some_iff.mp taken
          obtain ⟨text, words⟩ := ih here
          rw [spellAll_cons, lexemeWords_cons, text, words]
          exact ⟨rfl, rfl⟩
        | number n suffix =>
          obtain ⟨rest, here, rfl⟩ := Option.map_eq_some_iff.mp taken
          obtain ⟨text, words⟩ := ih here
          rw [List.cons_append, spellAll_cons, spellAll_append, lexemeWords_cons, lexemeWords_append, text, words,
            n.words_lexeme, lexemeWords_letters]
          exact ⟨(List.append_assoc ..).symm, rfl⟩
        | char encoding x =>
          obtain ⟨rest, here, rfl⟩ := Option.map_eq_some_iff.mp taken
          obtain ⟨text, words⟩ := ih here
          rw [spellAll_append, lexemeWords_append, text, words, lexemeWords_letters]
          refine ⟨?_, rfl⟩
          simp [CPiece.spell, CToken.spell]
        | string encoding chars =>
          obtain ⟨rest, here, rfl⟩ := Option.map_eq_some_iff.mp taken
          obtain ⟨text, words⟩ := ih here
          rw [spellAll_append, spellAll_cons, lexemeWords_append, lexemeWords_cons, text, words, lexemeWords_letters]
          refine ⟨?_, rfl⟩
          simp [CPiece.spell, CToken.spell]
        | op o =>
          obtain ⟨rest, here, rfl⟩ := Option.map_eq_some_iff.mp taken
          obtain ⟨text, words⟩ := ih here
          rw [spellAll_cons, lexemeWords_cons, text, words]
          exact ⟨rfl, rfl⟩
        | mark c =>
          obtain ⟨rest, here, rfl⟩ := Option.map_eq_some_iff.mp taken
          obtain ⟨text, words⟩ := ih here
          rw [spellAll_cons, lexemeWords_cons, text, words]
          exact ⟨rfl, rfl⟩
    | some x =>
      have closed : ∀ lost, (Stb.Lexeme.charLiteral x lost).spell = quoted x ++ [lost] := by
        intro lost
        simp [Stb.Lexeme.spell, quoted]
      cases piece with
      | layout l =>
        cases l with
        | blank c =>
          obtain ⟨rest, here, rfl⟩ := Option.map_eq_some_iff.mp taken
          obtain ⟨text, words⟩ := ih here
          rw [spellAll_cons, lexemeWords_cons, text, words, closed]
          refine ⟨?_, rfl⟩
          simp [CPiece.spell, CLayout.lexeme, Stb.Lexeme.spell]
        | lineComment body => cases taken
        | comment body => cases taken
      | token t =>
        cases t with
        | op o =>
          obtain ⟨rest, here, rfl⟩ := Option.map_eq_some_iff.mp taken
          obtain ⟨text, words⟩ := ih here
          rw [List.cons_append, spellAll_cons, spellAll_append, lexemeWords_cons, lexemeWords_append, text, words, closed,
            spellAll_chars, lexemeWords_chars]
          refine ⟨?_, rfl⟩
          simp [CPiece.spell, CToken.spell, ← operatorBytes_spell o]
        | mark c =>
          obtain ⟨rest, here, rfl⟩ := Option.map_eq_some_iff.mp taken
          obtain ⟨text, words⟩ := ih here
          rw [spellAll_cons, lexemeWords_cons, text, words, closed]
          refine ⟨?_, rfl⟩
          simp [CPiece.spell, CToken.spell]
        | word name => cases taken
        | number n suffix => cases taken
        | char encoding x' => cases taken
        | string encoding chars => cases taken

/-- The identifiers of a text are those that the lexer makes of its tokens, one token after the other. -/
theorem Written.words {strtod : Nat → BitVec 64 × Nat} {ts : List CToken} (w : Written strtod ts) :
    identifiers (Stb.tokensOf strtod w.text) = ts.flatMap CToken.words := by
  obtain ⟨text, words⟩ := lexemesFrom_reads w.pieces w.taken
  have whole : Stb.spellAll w.lexemes = w.text := text
  rw [w.tokens] at words
  rw [← words, ← whole, (Stb.tokensOf_spelled w.lexemes w.spelt).1]
  rfl

end Lexemes

end MoeToolchain
