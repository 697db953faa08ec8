import MoeToolchain.Common.Base

/-!
# The token stream of `stb_c_lexer.h`

The parser sees the lexer as a stream of tokens. `stb_lexer` keeps the code of the
last token and, next to it, the text of the last identifier or string literal and
the last numbers: a token without a text leaves the text of an earlier one in
`string`. A lexical error may leave what was read of a text or a character. The codes
are those of the enumeration in `stb_c_lexer.h`.

An identifier of the lexer is not empty and has no NUL in it. The text of a string
literal is any bytes, since escapes are decoded.
-/

namespace MoeToolchain
set_option autoImplicit false
open Lib

/-- The text of an identifier token. -/
structure Ident where
  text : Bytes
  nonempty : text ≠ []
  no_nul : 0 ∉ text
deriving DecidableEq, Repr

@[ext] theorem Ident.ext_text {a b : Ident} (same : a.text = b.text) : a = b := by
  cases a
  cases b
  simp_all

/-- The operators of more than one character. -/
inductive Operator
  | eq | noteq | lesseq | greatereq | andand | oror | shl | shr | plusplus | minusminus
  | pluseq | minuseq | muleq | diveq | modeq | andeq | oreq | xoreq | arrow | eqarrow
  | shleq | shreq
deriving DecidableEq, Repr

instance neZeroCharacters : NeZero 128 := ⟨by decide⟩

/-- A token with the value it carries. A character below 128 is a token by itself. After an
error, `text` is in the string store and `value` is the number, where they changed. -/
inductive Token
  | char (c : Fin 128)
  | parseError (text : Option Bytes) (value : Option Int)
  | intlit (value : Int)
  | floatlit (value : BitVec 64)
  | id (name : Ident)
  | dqstring (text : Bytes)
  | sqstring (text : Bytes)
  | charlit (value : Int)
  | op (o : Operator)
deriving DecidableEq, Repr

def clexEof : Nat := 256
def clexParseError : Nat := 257
def clexIntlit : Nat := 258
def clexFloatlit : Nat := 259
def clexId : Nat := 260
def clexDqstring : Nat := 261
def clexSqstring : Nat := 262
def clexCharlit : Nat := 263

/-- The codes `CLEX_eq` to `CLEX_shreq`. -/
def Operator.code : Operator → Nat
  | eq => 264 | noteq => 265 | lesseq => 266 | greatereq => 267 | andand => 268 | oror => 269
  | shl => 270 | shr => 271 | plusplus => 272 | minusminus => 273 | pluseq => 274 | minuseq => 275
  | muleq => 276 | diveq => 277 | modeq => 278 | andeq => 279 | oreq => 280 | xoreq => 281
  | arrow => 282 | eqarrow => 283 | shleq => 284 | shreq => 285

namespace Token

/-- `lex->token` after this token. -/
def code : Token → Nat
  | char c => c
  | parseError _ _ => clexParseError
  | intlit _ => clexIntlit
  | floatlit _ => clexFloatlit
  | id _ => clexId
  | dqstring _ => clexDqstring
  | sqstring _ => clexSqstring
  | charlit _ => clexCharlit
  | op o => o.code

/-- The text a token leaves in `lex->string`. -/
def text? : Token → Option Bytes
  | id name => some name.text
  | dqstring text => some text
  | sqstring text => some text
  | parseError text _ => text
  | _ => none

/-- The length a token leaves in `lex->string_len`. -/
def stringLen? : Token → Option Nat
  | id name => some name.text.length
  | dqstring text => some text.length
  | sqstring text => some text.length
  | _ => none

/-- The number a token leaves in `lex->int_number`. -/
def intNumber? : Token → Option Int
  | intlit value => some value
  | charlit value => some value
  | parseError _ value => value
  | _ => none

/-- The number a token leaves in `lex->real_number`. -/
def realNumber? : Token → Option (BitVec 64)
  | floatlit value => some value
  | _ => none

/-- A lexical error. -/
def isError : Token → Bool
  | parseError _ _ => true
  | _ => false

end Token

@[simp] theorem Token.isError_char (c : Fin 128) : (Token.char c).isError = false := rfl

@[simp] theorem Token.isError_id (name : Ident) : (Token.id name).isError = false := rfl

/-- Tokens without a lexical error. -/
def Lexed (ts : List Token) : Prop := ∀ t ∈ ts, t.isError = false

instance (ts : List Token) : Decidable (Lexed ts) := List.decidableBAll _ ts

@[simp] theorem lexed_nil : Lexed [] := nofun

@[simp] theorem lexed_cons (t : Token) (ts : List Token) : Lexed (t :: ts) ↔ t.isError = false ∧ Lexed ts :=
  List.forall_mem_cons

@[simp] theorem lexed_append (ts us : List Token) : Lexed (ts ++ us) ↔ Lexed ts ∧ Lexed us :=
  List.forall_mem_append

/-- `'('` and the other one-character tokens of the sources. -/
def lparen : Fin 128 := 40
def rparen : Fin 128 := 41
def comma : Fin 128 := 44
def semicolon : Fin 128 := 59
def lbrace : Fin 128 := 123
def rbrace : Fin 128 := 125

theorem Operator.code_range (o : Operator) : 264 ≤ o.code ∧ o.code ≤ 285 := by
  cases o <;> decide

theorem Token.code_char (t : Token) (c : Fin 128) : t.code = c ↔ t = .char c := by
  have below := c.isLt
  cases t with
  | char d => simp [Token.code, Fin.ext_iff]
  | op o =>
    have range := o.code_range
    simp only [Token.code, reduceCtorEq, iff_false]
    omega
  | _ =>
    simp only [Token.code, clexParseError, clexIntlit, clexFloatlit, clexId, clexDqstring,
      clexSqstring, clexCharlit, reduceCtorEq, iff_false]
    omega

theorem Token.code_id (t : Token) : t.code = clexId ↔ ∃ name, t = .id name := by
  cases t with
  | char d =>
    have below := d.isLt
    simp only [Token.code, clexId, reduceCtorEq, exists_false, iff_false]
    omega
  | op o =>
    have range := o.code_range
    simp only [Token.code, clexId, reduceCtorEq, exists_false, iff_false]
    omega
  | _ => simp [Token.code, clexParseError, clexIntlit, clexFloatlit, clexId, clexDqstring,
      clexSqstring, clexCharlit]

theorem Token.code_parseError (t : Token) : t.code = clexParseError ↔ t.isError = true := by
  cases t with
  | char d =>
    have below := d.isLt
    simp only [Token.code, clexParseError, Token.isError, Bool.false_eq_true, iff_false]
    omega
  | op o =>
    have range := o.code_range
    simp only [Token.code, clexParseError, Token.isError, Bool.false_eq_true, iff_false]
    omega
  | _ => simp [Token.code, clexParseError, clexIntlit, clexFloatlit, clexId, clexDqstring,
      clexSqstring, clexCharlit, Token.isError]

/-- The fields of `stb_lexer` that the parser reads, and the tokens not yet returned. -/
structure StbLexer where
  rest : List Token
  token : Nat
  string : Bytes
  stringLen : Nat
  intNumber : Int
  realNumber : BitVec 64
deriving DecidableEq, Repr

namespace StbLexer

/-- The lexer right after it returned `t`, with `rest` still to come. -/
def fetched (lex : StbLexer) (t : Token) (rest : List Token) : StbLexer where
  rest := rest
  token := t.code
  string := t.text?.getD lex.string
  stringLen := t.stringLen?.getD lex.stringLen
  intNumber := t.intNumber?.getD lex.intNumber
  realNumber := t.realNumber?.getD lex.realNumber

@[simp] theorem fetched_rest (lex : StbLexer) (t : Token) (rest : List Token) :
    (lex.fetched t rest).rest = rest := rfl

@[simp] theorem fetched_token (lex : StbLexer) (t : Token) (rest : List Token) :
    (lex.fetched t rest).token = t.code := rfl

@[simp] theorem fetched_string (lex : StbLexer) (t : Token) (rest : List Token) :
    (lex.fetched t rest).string = t.text?.getD lex.string := rfl

@[simp] theorem fetched_stringLen (lex : StbLexer) (t : Token) (rest : List Token) :
    (lex.fetched t rest).stringLen = t.stringLen?.getD lex.stringLen := rfl

/-- The lexer with the first of these tokens current. -/
def atHead (lex : StbLexer) : List Token → StbLexer
  | [] => lex
  | t :: rest => lex.fetched t rest

/-- The lexer after `stb_c_lexer_init`: nothing returned yet. -/
def start (tokens : List Token) : StbLexer := ⟨tokens, 0, [], 0, 0, 0⟩

/-- The lexer after it returned all of `ts`, with `rest` still to come. -/
def after (lex : StbLexer) : List Token → List Token → StbLexer
  | [], _ => lex
  | t :: ts, rest => (lex.fetched t (ts ++ rest)).after ts rest

@[simp] theorem after_nil (lex : StbLexer) (rest : List Token) : lex.after [] rest = lex := rfl

theorem after_cons (lex : StbLexer) (t : Token) (ts rest : List Token) :
    lex.after (t :: ts) rest = (lex.fetched t (ts ++ rest)).after ts rest := rfl

theorem after_append (lex : StbLexer) (ts us rest : List Token) :
    lex.after (ts ++ us) rest = (lex.after ts (us ++ rest)).after us rest := by
  induction ts generalizing lex with
  | nil => rfl
  | cons t ts ih => rw [List.cons_append, after_cons, after_cons, ih, List.append_assoc]

theorem after_rest {lex : StbLexer} {ts rest : List Token} (next : lex.rest = ts ++ rest) :
    (lex.after ts rest).rest = rest := by
  induction ts generalizing lex with
  | nil => exact next
  | cons t ts ih => exact ih rfl

end StbLexer

/-- `stb_c_lexer_get_token`: at the end the token is `CLEX_eof` and the result 0. -/
def stbCLexerGetToken : C StbLexer Bool := fun lex =>
  match lex.rest with
  | [] => .ok (false, { lex with token := clexEof })
  | t :: rest => .ok (true, lex.fetched t rest)

theorem stbCLexerGetToken_end {lex : StbLexer} (done : lex.rest = []) :
    stbCLexerGetToken lex = .ok (false, { lex with token := clexEof }) := by
  simp only [stbCLexerGetToken, done]

theorem stbCLexerGetToken_cons {lex : StbLexer} {t : Token} {rest : List Token}
    (next : lex.rest = t :: rest) : stbCLexerGetToken lex = .ok (true, lex.fetched t rest) := by
  simp only [stbCLexerGetToken, next]

/-! ## The macros of `proc_macro.c` -/

/-- `moe_next_token(lex)`. -/
def moeNextToken (build : Build) : C StbLexer Unit := moeAssert build stbCLexerGetToken

/-- `moe_expect_token(lex, expected)`. -/
def moeExpectToken (build : Build) (expected : Nat) : C StbLexer Unit :=
  moeAssert build do
    let lex ← get
    pure (lex.token == expected)

/-- `moe_expect_next_token(lex, expected)`. -/
def moeExpectNextToken (build : Build) (expected : Nat) : C StbLexer Unit := do
  moeNextToken build
  moeExpectToken build expected

section Assertions

variable {lex lex' : StbLexer}

/-- With assertions, fetching a token succeeds exactly when there is one. -/
theorem moeNextToken_ok :
    moeNextToken .assertions lex = .ok ((), lex') ↔
      ∃ t rest, lex.rest = t :: rest ∧ lex' = lex.fetched t rest := by
  unfold moeNextToken
  rw [moeAssert_ok]
  cases more : lex.rest with
  | nil => simp [stbCLexerGetToken_end more]
  | cons t rest =>
    rw [stbCLexerGetToken_cons more]
    constructor
    · intro run
      cases run
      exact ⟨t, rest, rfl, rfl⟩
    · rintro ⟨t', rest', same, rfl⟩
      cases same
      rfl

theorem moeNextToken_run {t : Token} {rest : List Token} (next : lex.rest = t :: rest) :
    moeNextToken .assertions lex = .ok ((), lex.fetched t rest) :=
  moeNextToken_ok.mpr ⟨t, rest, next, rfl⟩

theorem moeExpectToken_ok {expected : Nat} :
    moeExpectToken .assertions expected lex = .ok ((), lex') ↔
      lex.token = expected ∧ lex' = lex := by
  unfold moeExpectToken
  rw [moeAssert_ok]
  change Except.ok (lex.token == expected, lex) = _ ↔ _
  simp only [Except.ok.injEq, Prod.mk.injEq, beq_iff_eq]
  constructor
  · rintro ⟨same, rfl⟩
    exact ⟨same, rfl⟩
  · rintro ⟨same, rfl⟩
    exact ⟨same, rfl⟩

/-- With assertions, an expected token is the next one of the stream. -/
theorem moeExpectNextToken_ok {expected : Nat} :
    moeExpectNextToken .assertions expected lex = .ok ((), lex') ↔
      ∃ t rest, lex.rest = t :: rest ∧ t.code = expected ∧ lex' = lex.fetched t rest := by
  unfold moeExpectNextToken
  rw [Exec.bind_eq_ok]
  constructor
  · rintro ⟨_, mid, fetch, expect⟩
    obtain ⟨t, rest, next, rfl⟩ := moeNextToken_ok.mp fetch
    obtain ⟨same, rfl⟩ := moeExpectToken_ok.mp expect
    exact ⟨t, rest, next, same, rfl⟩
  · rintro ⟨t, rest, next, same, rfl⟩
    exact ⟨(), _, moeNextToken_run next, moeExpectToken_ok.mpr ⟨same, rfl⟩⟩

/-- An expected character is that character token. -/
theorem moeExpectNextToken_char {c : Fin 128} :
    moeExpectNextToken .assertions c lex = .ok ((), lex') ↔
      ∃ rest, lex.rest = .char c :: rest ∧ lex' = lex.fetched (.char c) rest := by
  rw [moeExpectNextToken_ok]
  constructor
  · rintro ⟨t, rest, next, same, rfl⟩
    rw [Token.code_char] at same
    exact ⟨rest, same ▸ next, by rw [same]⟩
  · rintro ⟨rest, next, rfl⟩
    exact ⟨.char c, rest, next, rfl, rfl⟩

/-- An expected identifier is some identifier token. -/
theorem moeExpectNextToken_id :
    moeExpectNextToken .assertions clexId lex = .ok ((), lex') ↔
      ∃ name rest, lex.rest = .id name :: rest ∧ lex' = lex.fetched (.id name) rest := by
  rw [moeExpectNextToken_ok]
  constructor
  · rintro ⟨t, rest, next, same, rfl⟩
    obtain ⟨name, rfl⟩ := (Token.code_id t).mp same
    exact ⟨name, rest, next, rfl⟩
  · rintro ⟨name, rest, next, rfl⟩
    exact ⟨.id name, rest, next, rfl, rfl⟩

end Assertions

/-! ## Without assertions -/

section Ndebug

@[simp] theorem moeNextToken_ndebug : moeNextToken .ndebug = pure () := rfl

@[simp] theorem moeExpectNextToken_ndebug (expected : Nat) :
    moeExpectNextToken .ndebug expected = pure () := rfl

end Ndebug

end MoeToolchain
