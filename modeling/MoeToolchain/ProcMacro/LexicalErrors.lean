import MoeToolchain.ProcMacro.Files

/-!
# Lexical errors inside a block

The token loop of `main` ends at `CLEX_parse_error`. Within a call of the parser it is a
token like others: `errors_unabsorbed_iff` says at which places of an accepted block no
error may stand, which are those that take any token.
-/

namespace MoeToolchain
set_option autoImplicit false
open Lib

/-- No lexical error where the parser takes any token. -/
structure Extent.Clean (e : Extent) : Prop where
  first : e.first.closer.isError = false
  closers : ∀ d, .derive d ∈ e.pieces → d.closer.isError = false
  typedef : ∀ t, e.ending.typedef? = some t → t.isError = false
  body : ∀ k body typeName, e.ending.declaration = .defined k body typeName → Lexed body

/-- A call that returns a struct has not read a lexical error. -/
def ErrorsUnabsorbed (lex : StbLexer) (t : Token) (rest : List Token) (mem : Mem) : Prop :=
  ∀ d st read, parseDerivedStruct .assertions ⟨lex.fetched t rest, mem⟩ = .ok (some d, st) →
    t :: rest = read ++ st.lex.rest → Lexed read

section Errors

variable {e : Extent} {d : DeriveTail} {name : Ident}

theorem DeriveTail.lexed_iff : Lexed d.tokens ↔ d.closer.isError = false := by
  have args : Lexed (d.args.flatMap DeriveArg.tokens) := by
    intro t here
    obtain ⟨a, -, here⟩ := List.mem_flatMap.mp here
    have clean : Lexed a.tokens := by simp [DeriveArg.tokens]
    exact clean t here
  have semi : Lexed (if d.semi then [Token.char semicolon] else []) := by
    split <;> simp
  simp [DeriveTail.tokens, args, semi]

theorem pieces_lexed_iff {ps : List Piece} :
    Lexed (ps.flatMap (Piece.tokens name)) ↔ ∀ d, .derive d ∈ ps → d.closer.isError = false := by
  have piece : ∀ d, Lexed (Piece.tokens name (.derive d)) ↔ d.closer.isError = false := by
    intro d
    simp [Piece.tokens, DeriveTail.lexed_iff]
  constructor
  · intro clean d mem
    rw [← piece d]
    exact fun t here => clean t (List.mem_flatMap.mpr ⟨.derive d, mem, here⟩)
  · intro closers t here
    obtain ⟨p, mem, here⟩ := List.mem_flatMap.mp here
    cases p with
    | derive d => exact (piece d).mpr (closers d mem) t here
    | otherName =>
      have clean : Lexed (Piece.tokens name .otherName) := by simp [Piece.tokens]
      exact clean t here

/-- Where the lexical errors of an accepted block can be. -/
theorem Extent.clean_iff {v : DerivedStruct} (accepted : e.result = some v) : e.Clean ↔ Lexed e.tokens := by
  obtain ⟨name, first, pieces, typedef?, d⟩ := e
  cases d with
  | undeclared t => cases accepted
  | otherName k found => cases accepted
  | defined k body typeName =>
    have typeNames : Lexed (typeName.toList.map Token.id) := by simp [Lexed]
    have typedefs : Lexed typedef?.toList ↔ ∀ t, typedef? = some t → t.isError = false := by simp [Lexed]
    have tokens : Lexed (⟨name, first, pieces, ⟨typedef?, .defined k body typeName⟩⟩ : Extent).tokens ↔
        (first.closer.isError = false ∧ ∀ d, .derive d ∈ pieces → d.closer.isError = false) ∧
          (∀ t, typedef? = some t → t.isError = false) ∧ Lexed body := by
      simp [Extent.tokens, Extent.derives, Ending.tokens, Declaration.tokens, DeriveTail.lexed_iff, pieces_lexed_iff,
        typeNames, typedefs, and_assoc]
    rw [tokens]
    constructor
    · rintro ⟨one, two, three, four⟩
      exact ⟨⟨one, two⟩, three, four _ _ _ rfl⟩
    · rintro ⟨⟨one, two⟩, three, four⟩
      refine ⟨one, two, three, ?_⟩
      rintro _ _ _ ⟨⟩
      exact four

end Errors

/-- A call absorbs no lexical error exactly when the block that begins at its tokens, if
there is one that it accepts, is clean. -/
theorem errors_unabsorbed_iff (lex : StbLexer) (t : Token) (rest : List Token) (mem : Mem) :
    ErrorsUnabsorbed lex t rest mem ↔
      ∀ (m : Macro) (e : Extent) (v : DerivedStruct) (r : List Token), e.Ok m → e.result = some v →
        t :: rest = .id m.word :: (e.tokens ++ r) → e.Clean := by
  constructor
  · intro unabsorbed m e v r ok accepted same
    obtain ⟨rfl, rfl⟩ := List.cons.inj same
    obtain ⟨d, st, run, after, -⟩ := parseDerivedStruct_returns ok accepted lex mem r
    have clean := unabsorbed d st (.id m.word :: e.tokens) run (by rw [after, List.cons_append])
    rw [Extent.clean_iff accepted]
    exact ((lexed_cons _ _).mp clean).2
  · intro clean d st read run same
    obtain ⟨m, e, v, ok, accepted, rfl, read', -⟩ := parseDerivedStruct_returned run
    have tokens : rest = e.tokens ++ st.lex.rest := read'.rest
    have here : read = .id m.word :: e.tokens := by
      rw [tokens, ← List.cons_append] at same
      exact (List.append_cancel_right same).symm
    have lexed := (Extent.clean_iff accepted).mp (clean m e v st.lex.rest ok accepted (by rw [tokens]))
    rw [here, lexed_cons]
    exact ⟨rfl, lexed⟩

/-- `MOE_PROC_MACRO_DERIVES(B, h); struct B { };` with a lexical error between the braces. -/
def erroneousB : DeriveBlock := { blockB with body := [.parseError none none], closed := by decide }

/-- The lexical error in the body of `B` becomes a token of the struct. -/
theorem erroneousB_absorbed :
    ∃ d st, parseDerivedStruct .assertions
        ⟨(StbLexer.start []).fetched (.id Macro.derives.word) erroneousB.tokens.tail, Mem.empty⟩ = .ok (some d, st) ∧
      st.lex.rest = [] ∧ ¬ Lexed erroneousB.tokens.tail := by
  have fits : erroneousB.Fits := ⟨by decide, fun _ => rfl⟩
  obtain ⟨d, st, run, after, -⟩ :=
    parseDerivedStruct_returns (DeriveBlock.toExtent_ok fits) erroneousB.toExtent_result (.start []) Mem.empty []
  rw [List.append_nil] at run
  exact ⟨d, st, run, after, by decide⟩

end MoeToolchain
