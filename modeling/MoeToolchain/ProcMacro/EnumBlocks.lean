import MoeToolchain.ProcMacro.Files

/-!
# The two spellings of a block

The same declaration can be written for a struct, with `MOE_PROC_MACRO_DERIVES`, and for
an enum, with `MOE_PROC_MACRO_DERIVES_ENUM`. `enum_block_iff` says when the parser makes
the same of both: the first derive is taken with either macro, the ones after it with the
struct macro only.
-/

namespace MoeToolchain
set_option autoImplicit false
open Lib

/-- The block for the other kind of type. -/
def DeriveBlock.written (b : DeriveBlock) (kind : Macro) : DeriveBlock := { b with kind }

/-- A call of the parser, what it returns as `main` reads it, and how many tokens it takes. -/
def parseAndRead (build : Build) : C St (Option DerivedStruct × Nat) := do
  let before ← onLex get
  let p ← parseDerivedStruct build
  let v ← onMem (readFound p)
  let after ← onLex get
  pure (v, before.rest.length - after.rest.length)

section Spellings

variable {lex : StbLexer} {m : Macro} {e : Extent} {b : DeriveBlock} {r : List Token}

/-- On an extent the call returns its result and takes its tokens. -/
theorem parseAndRead_extent (ok : e.Ok m) (lex : StbLexer) (mem : Mem) (r : List Token) :
    ∃ st, parseAndRead .assertions ⟨lex.atHead (.id m.word :: (e.tokens ++ r)), mem⟩ =
      .ok ((e.result.map Values.asRead, e.tokens.length), st) := by
  obtain ⟨here, read⟩ : ∃ lex', Reads (lex.fetched (.id m.word) (e.tokens ++ r)) e.tokens lex' :=
    ⟨_, reads_after rfl⟩
  have values := parseDerivedStruct_run ok (fetched_current lex _ _) read
  obtain ⟨p, mem', run, returned⟩ := parseDerivedStruct_spec (owns_refl mem) values
  have found : (onMem (readFound p) : C St _) ⟨here, mem'⟩ = .ok (e.result.map Values.asRead, ⟨here, mem'⟩) :=
    Exec.zoom_ok (readFound_owns returned)
  have get_ : ∀ st : St, (onLex get : C St StbLexer) st = .ok (st.lex, st) := fun _ => rfl
  have taken : (lex.fetched (.id m.word) (e.tokens ++ r)).rest.length - here.rest.length = e.tokens.length := by
    have length := read.length
    omega
  refine ⟨⟨here, mem'⟩, ?_⟩
  rw [StbLexer.atHead, parseAndRead, Exec.bind_ok (get_ _), Exec.bind_ok run, Exec.bind_ok found,
    Exec.bind_ok (get_ _), taken]
  rfl

/-- The keyword makes no difference to how many tokens a block with one derive has. -/
theorem length_toExtent (one : b.more = []) (kind : Macro) :
    (b.written kind).toExtent.tokens.length = b.toExtent.tokens.length := by
  simp only [DeriveBlock.toExtent, DeriveBlock.ending, DeriveBlock.written, Extent.tokens, Extent.derives,
    Ending.tokens, Declaration.tokens, one, List.length_append, List.length_cons]

/-- What the parser makes of an enum block with a second derive: the first derive, and
then a macro name in the place of the keyword. -/
def DeriveBlock.cutShort (b : DeriveBlock) : Extent :=
  ⟨b.name, b.first.tail, [], ⟨none, .undeclared (.id Macro.derivesEnum.word)⟩⟩

theorem DeriveBlock.cutShort_ok (b : DeriveBlock) : b.cutShort.Ok .derivesEnum where
  first := by
    apply Invocation.tail_ok
    simp [DeriveBlock.cutShort, Ending.tokens, Declaration.tokens]
  pieces := by
    intro _ same
    have words : Macro.derivesEnum.word = Macro.derives.word := by
      simpa [DeriveBlock.cutShort, Ending.tokens, Declaration.tokens] using same
    exact absurd words (by decide)
  ending := by
    constructor
    · simp only [DeriveBlock.cutShort, Ending.tokens, Declaration.tokens]
      rw [Bool.eq_iff_iff]
      simp [typedef_strEq, Token.text?, Macro.word_ne_typedef]
    · intro k same
      exact Macro.word_ne_keyword .derivesEnum k (Token.id.inj same)

/-- The tokens of a block with a second derive begin with those of the part that is read. -/
theorem DeriveBlock.cutShort_tokens {i : Invocation} {is : List Invocation} (more : b.more = i :: is) :
    ∃ r, (b.written .derivesEnum).tokens = .id Macro.derivesEnum.word :: (b.cutShort.tokens ++ r) := by
  refine ⟨(i.tokens .derivesEnum b.name).tail ++
    (is.flatMap (Invocation.tokens .derivesEnum b.name) ++ (b.written .derivesEnum).definition), ?_⟩
  simp [DeriveBlock.tokens, DeriveBlock.written, DeriveBlock.invocations, DeriveBlock.cutShort, more,
    Extent.tokens, Extent.derives, Ending.tokens, Declaration.tokens, Invocation.tokens]

/-- A second derive of the enum macro ends the block without a struct. -/
theorem second_derive_fails {i : Invocation} {is : List Invocation} (more : b.more = i :: is)
    (lex : StbLexer) (mem : Mem) (r : List Token) :
    ∃ n st, parseAndRead .assertions ⟨lex.atHead ((b.written .derivesEnum).tokens ++ r), mem⟩ =
      .ok ((none, n), st) := by
  obtain ⟨r', tokens⟩ := DeriveBlock.cutShort_tokens more
  obtain ⟨st, run⟩ := parseAndRead_extent b.cutShort_ok lex mem (r' ++ r)
  rw [tokens, List.cons_append, List.append_assoc]
  exact ⟨_, st, run⟩

/-- A block that fits is parsed to its value. -/
theorem parseAndRead_block (fits : b.Fits) (lex : StbLexer) (mem : Mem) (r : List Token) :
    ∃ st, parseAndRead .assertions ⟨lex.atHead (b.tokens ++ r), mem⟩ =
      .ok ((some b.value, b.toExtent.tokens.length), st) := by
  have run := parseAndRead_extent (DeriveBlock.toExtent_ok fits) lex mem r
  rw [DeriveBlock.toExtent_result, Option.map_some, b.asRead_value, ← List.cons_append] at run
  rw [DeriveBlock.tokens_eq fits.single]
  exact run

end Spellings

/-- The call on the block written for an enum returns what the call on the block written
for a struct returns, and takes as many tokens. -/
def SameParse (b : DeriveBlock) (lex : StbLexer) (mem : Mem) (r : List Token) : Prop :=
  ∃ v n st st',
    parseAndRead .assertions ⟨lex.atHead ((b.written .derives).tokens ++ r), mem⟩ = .ok ((some v, n), st) ∧
    parseAndRead .assertions ⟨lex.atHead ((b.written .derivesEnum).tokens ++ r), mem⟩ = .ok ((some v, n), st')

/-- A block with up to eight derives is parsed alike in both spellings exactly when it
has one derive. -/
theorem enum_block_iff (b : DeriveBlock) (few : b.invocations.length ≤ moeProcMacroMaxDeriveItemNum)
    (lex : StbLexer) (mem : Mem) (r : List Token) : SameParse b lex mem r ↔ b.more = [] := by
  have single : (b.written .derives).kind = .derivesEnum → (b.written .derives).more = [] := by
    intro same
    cases same
  constructor
  · rintro ⟨v, n, _, _, -, enum_⟩
    cases more : b.more with
    | nil => rfl
    | cons i is =>
      obtain ⟨_, _, none_⟩ := second_derive_fails more lex mem r
      rw [none_] at enum_
      cases enum_
  · intro one
    obtain ⟨st, struct_⟩ := @parseAndRead_block (b.written .derives) ⟨few, single⟩ lex mem r
    obtain ⟨st', enum_⟩ := @parseAndRead_block (b.written .derivesEnum) ⟨few, fun _ => one⟩ lex mem r
    rw [length_toExtent one] at struct_ enum_
    exact ⟨b.value, _, st, st', struct_, enum_⟩

/-- The theorem at the block of `B`, which has one derive. -/
theorem enum_block_iff_blockB : SameParse blockB (.start []) Mem.empty [] ↔ blockB.more = [] :=
  enum_block_iff blockB (by decide) (.start []) Mem.empty []

/-- `MOE_PROC_MACRO_DERIVES_ENUM(B, h); MOE_PROC_MACRO_DERIVES_ENUM(B, h); enum B { };` is
not parsed as the struct is. -/
theorem second_enum_derive_rejected :
    ¬ SameParse { blockB with more := [handlerH] } (.start []) Mem.empty [] := by
  rintro ⟨v, n, st, st', -, enum_⟩
  obtain ⟨_, _, none_⟩ := @second_derive_fails { blockB with more := [handlerH] } handlerH [] rfl
    (.start []) Mem.empty []
  rw [none_] at enum_
  cases enum_

end MoeToolchain
