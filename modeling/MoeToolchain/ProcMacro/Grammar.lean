import MoeToolchain.ProcMacro.Values

/-!
# What a call of `parse_derived_struct` reads

An `Extent` is the tree of the tokens that one call consumes after the macro name,
whether it returns a struct or not. `tokens` writes a tree out, `Ok` says which trees
the parser follows, and a list of tokens is the text of at most one such tree
(`Extent.tokens_inj`). A `DeriveBlock` is a well-formed declaration; it is an extent of a
special shape.

The parser is laxer than blocks are: any token but `,` ends the arguments of a derive,
a derive with another name is passed over up to that name, and `typedef` is compared
with the lexer's text only.
-/

namespace MoeToolchain
set_option autoImplicit false
open Lib

/-! ## Words -/

def structWord : Ident := ⟨bytesOf "struct", by decide, by decide⟩
def enumWord : Ident := ⟨bytesOf "enum", by decide, by decide⟩
def typedefWord : Ident := ⟨bytesOf "typedef", by decide, by decide⟩
def intWord : Ident := ⟨bytesOf "int", by decide, by decide⟩
def floatWord : Ident := ⟨bytesOf "float", by decide, by decide⟩
def doubleWord : Ident := ⟨bytesOf "double", by decide, by decide⟩

/-! The names of types, members and handlers in the examples. -/

def typeA : Ident := ⟨bytesOf "A", by decide, by decide⟩
def typeB : Ident := ⟨bytesOf "B", by decide, by decide⟩
def typeS : Ident := ⟨bytesOf "S", by decide, by decide⟩
def wordA : Ident := ⟨bytesOf "a", by decide, by decide⟩
def wordB : Ident := ⟨bytesOf "b", by decide, by decide⟩
def wordH : Ident := ⟨bytesOf "h", by decide, by decide⟩

inductive Keyword
  | struct
  | enum
deriving DecidableEq, Repr

def Keyword.word : Keyword → Ident
  | struct => structWord
  | enum => enumWord

/-- The two macros that start a block. -/
inductive Macro
  | derives
  | derivesEnum
deriving DecidableEq, Repr

def Macro.word : Macro → Ident
  | derives => ⟨moeProcMacroDerivesMacroName, by decide, by decide⟩
  | derivesEnum => ⟨moeProcMacroDerivesEnumMacroName, by decide, by decide⟩

/-- What a macro is for. -/
def Macro.keyword : Macro → Keyword
  | derives => .struct
  | derivesEnum => .enum

theorem Ident.strEq_iff (a b : Ident) : strEq a.text b.text = true ↔ a = b := by
  rw [strEq, cString_of_no_nul a.no_nul, cString_of_no_nul b.no_nul, beq_iff_eq]
  constructor
  · exact Ident.ext_text
  · rintro rfl
    rfl

/-- The text in the lexer after it returned `ts`. -/
def lastText (text : Bytes) (ts : List Token) : Bytes := ts.foldl (fun b t => t.text?.getD b) text

@[simp] theorem lastText_nil (text : Bytes) : lastText text [] = text := rfl

@[simp] theorem lastText_append (text : Bytes) (ts us : List Token) :
    lastText text (ts ++ us) = lastText (lastText text ts) us := by
  simp [lastText]

@[simp] theorem lastText_cons (text : Bytes) (t : Token) (ts : List Token) :
    lastText text (t :: ts) = lastText (t.text?.getD text) ts := rfl

/-! ## Trees -/

/-- An argument `, macro ( type , name )` of a derive. -/
structure DeriveArg where
  argMacro : Ident
  argType : Ident
  argName : Ident
deriving DecidableEq, Repr

def DeriveArg.tokens (a : DeriveArg) : List Token :=
  [.char comma, .id a.argMacro, .char lparen, .id a.argType, .char comma, .id a.argName, .char rparen]

/-- What follows `macro ( name ,` of a derive: the handler, the arguments, the token
that ends them, and whether a `;` comes next. -/
structure DeriveTail where
  handler : Ident
  args : List DeriveArg
  closer : Token
  semi : Bool
deriving DecidableEq, Repr

def DeriveTail.tokens (d : DeriveTail) : List Token :=
  .id d.handler :: (d.args.flatMap DeriveArg.tokens ++
    d.closer :: if d.semi then [.char semicolon] else [])

/-- The arguments end at the first token that is not `,`, and a `;` is not left behind. -/
structure DeriveTail.Ok (d : DeriveTail) (following : List Token) : Prop where
  closer : d.closer ≠ .char comma
  semi : d.semi = false → following.head? ≠ some (.char semicolon)

/-- One turn of the derive loop: a derive of the same name, or one of another name,
which is read up to that name only. -/
inductive Piece
  | derive (d : DeriveTail)
  | otherName
deriving DecidableEq, Repr

def Piece.tokens (name : Ident) : Piece → List Token
  | derive d => .id Macro.derives.word :: .char lparen :: .id name :: .char comma :: d.tokens
  | otherName => [.id Macro.derives.word, .char lparen]

def Piece.handler? : Piece → Option Bytes
  | derive d => some d.handler.text
  | otherName => none

/-- The text of a name ends up in the next token when it is another one. -/
def nameDiffers (name : Ident) (following : List Token) : Prop :=
  ∃ other rest, following = .id other :: rest ∧ other ≠ name

/-- The turns of the derive loop, with `count` derive items before them and `tail` after. -/
def PiecesOk (name : Ident) (tail : List Token) : Nat → List Piece → Prop
  | count, [] => count < moeProcMacroMaxDeriveItemNum → tail.head? ≠ some (.id Macro.derives.word)
  | count, .derive d :: ps => count < moeProcMacroMaxDeriveItemNum ∧
      d.Ok (ps.flatMap (Piece.tokens name) ++ tail) ∧ PiecesOk name tail (count + 1) ps
  | count, .otherName :: ps => count < moeProcMacroMaxDeriveItemNum ∧
      nameDiffers name (ps.flatMap (Piece.tokens name) ++ tail) ∧ PiecesOk name tail count ps

/-! Of the tokens after a piece only the first matters. -/

theorem DeriveTail.Ok.congr {d : DeriveTail} {following following' : List Token} (ok : d.Ok following)
    (same : following'.head? = following.head?) : d.Ok following' :=
  ⟨ok.closer, fun no => same ▸ ok.semi no⟩

theorem nameDiffers.congr {name : Ident} {following following' : List Token}
    (differs : nameDiffers name following) (same : following'.head? = following.head?) :
    nameDiffers name following' := by
  obtain ⟨other, rest, rfl, ne⟩ := differs
  obtain ⟨rest', rfl⟩ := List.head?_eq_some_iff.mp same
  exact ⟨other, rest', rfl, ne⟩

theorem PiecesOk.congr {name : Ident} {tail tail' : List Token} (same : tail'.head? = tail.head?)
    {ps : List Piece} : ∀ {count : Nat}, PiecesOk name tail count ps → PiecesOk name tail' count ps := by
  induction ps with
  | nil =>
    intro count ok room
    rw [same]
    exact ok room
  | cons p ps ih =>
    intro count ok
    have next : (ps.flatMap (Piece.tokens name) ++ tail').head? =
        (ps.flatMap (Piece.tokens name) ++ tail).head? := by
      rw [List.head?_append, List.head?_append, same]
    cases p with
    | derive d => exact ⟨ok.1, ok.2.1.congr next, ih ok.2.2⟩
    | otherName => exact ⟨ok.1, ok.2.1.congr next, ih ok.2.2⟩

/-- What comes after `typedef`, if that was there. -/
inductive Declaration
  | undeclared (t : Token)
  | otherName (k : Keyword) (name : Ident)
  | defined (k : Keyword) (body : List Token) (typeName : Option Ident)
deriving DecidableEq, Repr

def Declaration.tokens (name : Ident) : Declaration → List Token
  | undeclared t => [t]
  | otherName k found => [.id k.word, .id found]
  | defined k body typeName => .id k.word :: .id name :: .char lbrace :: (body ++
      .char rbrace :: (typeName.toList.map Token.id ++ [.char semicolon]))

/-- The end of an extent, with the token at which the lexer's text was `typedef`. -/
structure Ending where
  typedef? : Option Token
  declaration : Declaration
deriving DecidableEq, Repr

def Ending.tokens (name : Ident) (e : Ending) : List Token :=
  e.typedef?.toList ++ e.declaration.tokens name

def Declaration.Ok (name : Ident) (typedef : Bool) : Declaration → Prop
  | undeclared t => ∀ k : Keyword, t ≠ .id k.word
  | otherName _ found => found ≠ name
  | defined _ body typeName => .char rbrace ∉ body ∧ typeName.isSome = typedef

/-- `text` is the lexer's text before the first token of the ending, which is looked at
together with that token. -/
structure Ending.Ok (name : Ident) (text : Bytes) (e : Ending) : Prop where
  typedef : e.typedef?.isSome = strEq (lastText text ((e.tokens name).take 1)) (bytesOf "typedef")
  declaration : e.declaration.Ok name e.typedef?.isSome

/-- The tokens a call consumes after the macro name. -/
structure Extent where
  name : Ident
  first : DeriveTail
  pieces : List Piece
  ending : Ending
deriving DecidableEq, Repr

/-- The derives of an extent. -/
def Extent.derives (e : Extent) : List Token :=
  .char lparen :: .id e.name :: .char comma ::
    (e.first.tokens ++ e.pieces.flatMap (Piece.tokens e.name))

def Extent.tokens (e : Extent) : List Token := e.derives ++ e.ending.tokens e.name

structure Extent.Ok (m : Macro) (e : Extent) : Prop where
  first : e.first.Ok (e.pieces.flatMap (Piece.tokens e.name) ++ e.ending.tokens e.name)
  pieces : PiecesOk e.name (e.ending.tokens e.name) 1 e.pieces
  ending : e.ending.Ok e.name (lastText m.word.text e.derives)

def Token.ident? : Token → Option Ident
  | .id i => some i
  | _ => none

/-- The token object that a token of a body becomes. -/
def Token.value : Token → TokenValue
  | id name => .identifier name.text
  | dqstring text => .stringLiteral text
  | sqstring text => .stringLiteral text
  | intlit v => .intLiteral (intOfLong v)
  | floatlit v => .floatLiteral (floatOfDouble v)
  | t => .punctuation (charOfLong t.code)

def Extent.handlers (e : Extent) : List Bytes :=
  e.first.handler.text :: e.pieces.filterMap Piece.handler?

/-- What the call returns. -/
def Extent.result (e : Extent) : Option DerivedStruct :=
  match e.ending.declaration with
  | .defined _ body _ => some ⟨e.name.text, e.handlers, body.map Token.value⟩
  | _ => none

/-! ## Unambiguity -/

theorem Keyword.word_inj {k k' : Keyword} (same : k.word = k'.word) : k = k' := by
  cases k <;> cases k' <;> first | rfl | exact absurd same (by decide)

theorem args_cancel {args args' : List DeriveArg} {c c' : Token} {r r' : List Token}
    (ends : c ≠ .char comma) (ends' : c' ≠ .char comma)
    (same : args.flatMap DeriveArg.tokens ++ c :: r = args'.flatMap DeriveArg.tokens ++ c' :: r') :
    args = args' ∧ c = c' ∧ r = r' := by
  induction args generalizing args' with
  | nil =>
    cases args' with
    | nil => simpa using same
    | cons a args' => simp [DeriveArg.tokens, ends] at same
  | cons a args ih =>
    cases args' with
    | nil => simp [DeriveArg.tokens, Ne.symm ends'] at same
    | cons a' args' =>
      simp only [List.flatMap_cons, DeriveArg.tokens, List.cons_append, List.nil_append,
        List.cons.injEq, Token.id.injEq, true_and] at same
      obtain ⟨argMacro, argType, argName, rest⟩ := same
      obtain ⟨rfl, rfl, rfl⟩ := ih rest
      refine ⟨?_, rfl, rfl⟩
      cases a
      cases a'
      simp_all

theorem DeriveTail.cancel {d d' : DeriveTail} {r r' : List Token} (ok : d.Ok r) (ok' : d'.Ok r')
    (same : d.tokens ++ r = d'.tokens ++ r') : d = d' ∧ r = r' := by
  obtain ⟨handler, args, closer, semi⟩ := d
  obtain ⟨handler', args', closer', semi'⟩ := d'
  simp only [DeriveTail.tokens, List.cons_append, List.append_assoc, List.cons.injEq,
    Token.id.injEq] at same
  obtain ⟨rfl, same⟩ := same
  obtain ⟨rfl, rfl, same⟩ := args_cancel ok.closer ok'.closer same
  cases semi with
  | true =>
    cases semi' with
    | true => simpa using same
    | false =>
      simp only [if_true, Bool.false_eq_true, if_false, List.nil_append, List.cons_append] at same
      exact absurd (by rw [← same]; rfl) (ok'.semi rfl)
  | false =>
    cases semi' with
    | true =>
      simp only [if_true, Bool.false_eq_true, if_false, List.nil_append, List.cons_append] at same
      exact absurd (by rw [same]; rfl) (ok.semi rfl)
    | false => simpa using same

theorem pieces_cancel {name : Ident} {tail tail' : List Token} {ps : List Piece} :
    ∀ {ps' : List Piece} {count : Nat}, PiecesOk name tail count ps → PiecesOk name tail' count ps' →
      ps.flatMap (Piece.tokens name) ++ tail = ps'.flatMap (Piece.tokens name) ++ tail' →
      ps = ps' ∧ tail = tail' := by
  -- a list of pieces never stops where another one goes on
  have stops : ∀ {tail tail' : List Token} {p : Piece} {ps : List Piece} {count : Nat},
      PiecesOk name tail count [] → PiecesOk name tail' count (p :: ps) →
      tail ≠ (p :: ps).flatMap (Piece.tokens name) ++ tail' := by
    intro tail tail' p ps count ok ok' same
    cases p with
    | derive d => exact ok ok'.1 (by rw [same]; rfl)
    | otherName => exact ok ok'.1 (by rw [same]; rfl)
  -- nor is a derive of the same name one of another name
  have apart : ∀ {tail tail' : List Token} {d : DeriveTail} {ps ps' : List Piece} {count : Nat},
      PiecesOk name tail' count (.otherName :: ps') →
      (Piece.derive d :: ps).flatMap (Piece.tokens name) ++ tail ≠
        (Piece.otherName :: ps').flatMap (Piece.tokens name) ++ tail' := by
    intro tail tail' d ps ps' count ok' same
    obtain ⟨-, ⟨other, rest, next, differs⟩, -⟩ := ok'
    simp only [List.flatMap_cons, Piece.tokens, List.cons_append, List.nil_append, List.append_assoc,
      next, List.cons.injEq, Token.id.injEq, true_and] at same
    exact differs same.1.symm
  induction ps with
  | nil =>
    intro ps' count ok ok' same
    cases ps' with
    | nil => exact ⟨rfl, same⟩
    | cons p ps' => exact absurd same (stops ok ok')
  | cons p ps ih =>
    intro ps' count ok ok' same
    cases ps' with
    | nil => exact absurd same.symm (stops ok' ok)
    | cons p' ps' =>
      cases p with
      | derive d =>
        cases p' with
        | derive d' =>
          simp only [List.flatMap_cons, Piece.tokens, List.cons_append, List.append_assoc,
            List.cons.injEq, true_and] at same
          obtain ⟨rfl, rest⟩ := DeriveTail.cancel ok.2.1 ok'.2.1 same
          obtain ⟨rfl, rfl⟩ := ih ok.2.2 ok'.2.2 rest
          exact ⟨rfl, rfl⟩
        | otherName => exact absurd same (apart ok')
      | otherName =>
        cases p' with
        | derive d' => exact absurd same.symm (apart ok)
        | otherName =>
          simp only [List.flatMap_cons, Piece.tokens, List.cons_append, List.nil_append,
            List.cons.injEq, true_and] at same
          obtain ⟨rfl, rfl⟩ := ih ok.2.2 ok'.2.2 same
          exact ⟨rfl, rfl⟩

/-- A body ends at its first `}`. -/
theorem body_cancel {body body' r r' : List Token} (clean : .char rbrace ∉ body)
    (clean' : .char rbrace ∉ body') (same : body ++ .char rbrace :: r = body' ++ .char rbrace :: r') :
    body = body' ∧ r = r' := by
  induction body generalizing body' with
  | nil =>
    cases body' with
    | nil => simpa using same
    | cons t body' =>
      simp only [List.nil_append, List.cons_append, List.cons.injEq] at same
      exact absurd (by simp [same.1]) clean'
  | cons t body ih =>
    cases body' with
    | nil =>
      simp only [List.nil_append, List.cons_append, List.cons.injEq] at same
      exact absurd (by simp [same.1]) clean
    | cons t' body' =>
      simp only [List.cons_append, List.cons.injEq] at same
      obtain ⟨rfl, same⟩ := same
      obtain ⟨rfl, rfl⟩ := ih (fun mem => clean (List.mem_cons_of_mem _ mem))
        (fun mem => clean' (List.mem_cons_of_mem _ mem)) same
      exact ⟨rfl, rfl⟩

theorem Declaration.cancel {name : Ident} {typedef : Bool} {d d' : Declaration}
    (ok : d.Ok name typedef) (ok' : d'.Ok name typedef) (same : d.tokens name = d'.tokens name) :
    d = d' := by
  cases d with
  | undeclared t =>
    cases d' with
    | undeclared t' => simpa [Declaration.tokens] using same
    | otherName k found => simp [Declaration.tokens] at same
    | defined k body typeName => simp [Declaration.tokens] at same
  | otherName k found =>
    cases d' with
    | undeclared t' => simp [Declaration.tokens] at same
    | otherName k' found' =>
      simp only [Declaration.tokens, List.cons.injEq, Token.id.injEq, and_true] at same
      rw [Keyword.word_inj same.1, same.2]
    | defined k' body typeName => simp [Declaration.tokens] at same
  | defined k body typeName =>
    cases d' with
    | undeclared t' => simp [Declaration.tokens] at same
    | otherName k' found' => simp [Declaration.tokens] at same
    | defined k' body' typeName' =>
      simp only [Declaration.tokens, List.cons.injEq, Token.id.injEq, true_and] at same
      obtain ⟨word, same⟩ := same
      obtain ⟨rfl, same⟩ := body_cancel ok.1 ok'.1 same
      rw [Keyword.word_inj word]
      cases typeName with
      | none =>
        cases typeName' with
        | none => rfl
        | some n => exact absurd (ok.2.trans ok'.2.symm) (by simp)
      | some n =>
        cases typeName' with
        | none => exact absurd (ok.2.trans ok'.2.symm) (by simp)
        | some n' => simp_all

theorem Ending.cancel {name : Ident} {text : Bytes} {e e' : Ending} (ok : e.Ok name text)
    (ok' : e'.Ok name text) (same : e.tokens name = e'.tokens name) : e = e' := by
  have typedef := ok.typedef
  rw [same, ← ok'.typedef] at typedef
  obtain ⟨typedef?, declaration⟩ := e
  obtain ⟨typedef?', declaration'⟩ := e'
  have rest := ok.declaration
  have rest' := ok'.declaration
  simp only at typedef rest rest'
  cases typedef? with
  | none =>
    cases typedef?' with
    | none => rw [Declaration.cancel rest rest' (by simpa [Ending.tokens] using same)]
    | some t => exact absurd typedef (by simp)
  | some t =>
    cases typedef?' with
    | none => exact absurd typedef (by simp)
    | some t' =>
      simp only [Ending.tokens, Option.toList_some, List.cons_append, List.nil_append,
        List.cons.injEq] at same
      rw [same.1, Declaration.cancel rest rest' same.2]

/-- Tokens are the text of at most one extent. -/
theorem Extent.tokens_inj {m : Macro} {e e' : Extent} (ok : e.Ok m) (ok' : e'.Ok m)
    (same : e.tokens = e'.tokens) : e = e' := by
  have first := ok.first
  have pieces := ok.pieces
  have ending := ok.ending
  have first' := ok'.first
  have pieces' := ok'.pieces
  have ending' := ok'.ending
  obtain ⟨name, d, ps, t⟩ := e
  obtain ⟨name', d', ps', t'⟩ := e'
  simp only [Extent.tokens, Extent.derives, List.cons_append, List.append_assoc, List.cons.injEq,
    Token.id.injEq, true_and] at same
  obtain ⟨rfl, same⟩ := same
  obtain ⟨rfl, same⟩ := DeriveTail.cancel first first' same
  obtain ⟨rfl, same⟩ := pieces_cancel pieces pieces' same
  obtain rfl : t = t' := Ending.cancel ending ending' same
  rfl

end MoeToolchain
