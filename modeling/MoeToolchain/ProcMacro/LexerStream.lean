import MoeToolchain.ProcMacro.StringStore

/-!
# Bytes and tokens

The lexer on bytes is the token stream that the parser's model takes it for. `Shows` is
what the fields of `stb_lexer` and the string store have to do with a `StbLexer`; a call
that returns a token keeps it, and takes the token off the stream (`Leaves.shows`).
-/

namespace MoeToolchain
set_option autoImplicit false
open Lib

namespace Stb

/-- The fields that the parser reads, with `lex->string` as a C string. -/
structure Shows (lexer : Lexer) (store : Bytes) (lex : StbLexer) : Prop where
  token : lex.token = lexer.token
  stringLen : lex.stringLen = lexer.stringLen
  intNumber : lex.intNumber = lexer.intNumber
  realNumber : lex.realNumber = lexer.realNumber
  string : lexer.string = some lexer.stringStorage → cString lex.string = cString store

/-- The text of an identifier or a literal is in the store as a whole. -/
def ShowsText (lexer : Lexer) (store : Bytes) (lex : StbLexer) : Prop :=
  IsText lexer.token → lexer.string = some lexer.stringStorage ∧ store.take lexer.stringLen = lex.string

section Calls

variable {input : Input} {strtod : Nat → BitVec 64 × Nat} {fuel : Nat} {lexer lexer' : Lexer} {m₀ m m' : Mem}
  {f : Footprint} {store store' : Bytes} {lex : StbLexer} {t : Token} {l : StringAt}

/-- The comparisons of the parser. -/
theorem Shows.strEq (shows_ : Shows lexer store lex) (string : lexer.string = some lexer.stringStorage) (word : Bytes) :
    MoeToolchain.strEq store word = MoeToolchain.strEq lex.string word := by
  rw [MoeToolchain.strEq, MoeToolchain.strEq, shows_.string string]

theorem cString_take {n : Nat} (nul : store[n]? = some 0) : cString (store.take n) = cString store := by
  obtain ⟨fits, last⟩ := List.getElem?_eq_some_iff.mp nul
  have split : store = store.take n ++ 0 :: store.drop (n + 1) := by
    rw [← last, List.getElem_cons_drop, List.take_append_drop]
  have whole : cString (store.take n ++ 0 :: store.drop (n + 1)) = cString (store.take n) := cString_append_nul _
  rw [← split] at whole
  exact whole.symm

theorem Leaves.shows (leaves : Leaves input m₀ f lexer t lexer' store' m')
    (kept : t.text? = none → store' = store ∧ lexer'.string = lexer.string) (shows_ : Shows lexer store lex)
    (rest : List Token) : Shows lexer' store' (lex.fetched t rest) ∧ ShowsText lexer' store' (lex.fetched t rest) := by
  refine ⟨⟨leaves.token.symm, ?_, ?_, ?_, ?_⟩, ?_⟩
  · rw [leaves.stringLen, ← shows_.stringLen]
    rfl
  · rw [leaves.intNumber, ← shows_.intNumber]
    rfl
  · rw [leaves.realNumber, ← shows_.realNumber]
    rfl
  · intro string
    rw [StbLexer.fetched_string]
    cases text : t.text? with
    | none =>
      obtain ⟨rfl, same⟩ := kept text
      rw [leaves.storage, same] at string
      exact shows_.string string
    | some b =>
      cases error : t.isError with
      | true =>
        rw [leaves.error error b text]
        exact cString_of_no_nul (no_nul_cString store')
      | false =>
        obtain ⟨here, rfl⟩ := leaves.hasText error b text
        exact cString_take here.nul
  · intro isText
    rw [leaves.token] at isText
    obtain ⟨error, b, text⟩ := isText_code isText
    obtain ⟨here, rfl⟩ := leaves.hasText error b text
    exact ⟨here.string, by rw [StbLexer.fetched_string, text]; rfl⟩

/-- The lexer of `main` after `n` calls that returned tokens, with the rest of the program
in between. The fields that `stb_c_lexer_init` does not set are those of `lexer₀`. -/
inductive Returned (input : Input) (strtod : Nat → BitVec 64 × Nat) (m₀ : Mem) (l : StringAt) (lexer₀ : Lexer) :
    Nat → Lexer → Footprint → Mem → Prop
  | init {f : Footprint} {m m' : Mem} (alloc : moeStringAlloc none 1024 m = .ok (l.handle, m'))
      (owned : Owns m₀ m' (strBlocks l (List.replicate 1024 0) + f)) :
      Returned input strtod m₀ l lexer₀ 0 (stbCLexerInit lexer₀ l.data 1024) f m'
  | call {n : Nat} {lexer lexer' : Lexer} {f : Footprint} {m m' : Mem} {fuel : Nat}
      (before : Returned input strtod m₀ l lexer₀ n lexer f m)
      (run : stbCLexerGetToken input strtod fuel lexer m = .ok ((true, lexer'), m')) :
      Returned input strtod m₀ l lexer₀ (n + 1) lexer' f m'
  | others {n : Nat} {lexer : Lexer} {f g : Footprint} {m m' : Mem}
      (before : Returned input strtod m₀ l lexer₀ n lexer f m)
      (frame : ∀ store, Owns m₀ m (storeBlocks l store + f) → Owns m₀ m' (storeBlocks l store + g)) :
      Returned input strtod m₀ l lexer₀ n lexer g m'

/-- The stream before the first call. -/
def streamOf (lexer₀ : Lexer) (tokens : List Token) : StbLexer :=
  ⟨tokens, lexer₀.token, [], lexer₀.stringLen, lexer₀.intNumber, lexer₀.realNumber⟩

end Calls

end Stb

end MoeToolchain
