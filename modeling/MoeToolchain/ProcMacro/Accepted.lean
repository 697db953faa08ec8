import MoeToolchain.ProcMacro.Blocks

/-!
# What the parser accepts

A call that returns a struct consumed an extent with a definition at its end. Such an
extent is a block exactly when it is `Strict`: `strict_iff`. The parser does not check
any of this, so `accepted_iff_strict` says for which tokens everything it accepts is a
block.
-/

namespace MoeToolchain
set_option autoImplicit false
open Lib

/-- The checks on an extent that the parser leaves out. -/
structure Extent.Strict (m : Macro) (e : Extent) : Prop where
  first : e.first.closer = .char rparen
  closers : ∀ d, .derive d ∈ e.pieces → d.closer = .char rparen
  named : .otherName ∉ e.pieces
  single : m = .derivesEnum → e.pieces = []
  typedef : ∀ t, e.ending.typedef? = some t → t = .id typedefWord
  keyword : ∀ k body typeName, e.ending.declaration = .defined k body typeName → k = m.keyword

section Strict

variable {m : Macro} {name : Ident} {ps : List Piece} {tail def_ : List Token} {e : Extent}

/-- No macro name begins the end of an extent. -/
theorem Ending.Ok.head_ne {text : Bytes} {d : Ending} {k : Keyword} {body : List Token}
    {typeName : Option Ident} (ok : d.Ok name text) (defined : d.declaration = .defined k body typeName)
    (m : Macro) : (d.tokens name).head? ≠ some (.id m.word) := by
  obtain ⟨typedef?, declaration⟩ := d
  obtain rfl : declaration = _ := defined
  cases typedef? with
  | none =>
    simp only [Ending.tokens, Declaration.tokens, Option.toList_none, List.nil_append,
      List.head?_cons, Ne, Option.some.injEq, Token.id.injEq]
    exact fun same => m.word_ne_keyword k same.symm
  | some t =>
    intro same
    obtain rfl : t = .id m.word := by simpa [Ending.tokens] using same
    have typedef : true = strEq m.word.text (bytesOf "typedef") := ok.typedef
    exact m.word_ne_typedef ((typedef_strEq m.word).mp typedef.symm)

/-- The turns of the derive loop and the derives of a block, on the same tokens. -/
theorem pieces_invocations (is : List Invocation) : ∀ {ps : List Piece} {count : Nat},
    PiecesOk name tail count ps → (∀ m : Macro, tail.head? ≠ some (.id m.word)) →
    (∀ m : Macro, def_.head? ≠ some (.id m.word)) → def_.head? ≠ some (.char semicolon) →
    ps.flatMap (Piece.tokens name) ++ tail = is.flatMap (Invocation.tokens m name) ++ def_ →
    ps = is.map (fun i => .derive i.tail) ∧ tail = def_ ∧ (m = .derivesEnum → is = []) := by
  induction is with
  | nil =>
    intro ps count ok tailHead defHead _ same
    cases ps with
    | nil => exact ⟨rfl, same, fun _ => rfl⟩
    | cons p ps =>
      cases p with
      | derive d => exact absurd (by rw [← List.nil_append def_, ← List.flatMap_nil, ← same]; rfl) (defHead .derives)
      | otherName => exact absurd (by rw [← List.nil_append def_, ← List.flatMap_nil, ← same]; rfl) (defHead .derives)
  | cons i is ih =>
    intro ps count ok tailHead defHead defSemi same
    have next : (is.flatMap (Invocation.tokens m name) ++ def_).head? ≠ some (.char semicolon) := by
      cases is with
      | nil => exact defSemi
      | cons i is => simp [Invocation.tokens]
    cases ps with
    | nil => exact absurd (by rw [← List.nil_append tail, ← List.flatMap_nil, same]; rfl) (tailHead m)
    | cons p ps =>
      cases p with
      | derive d =>
        simp only [List.flatMap_cons, Piece.tokens, Invocation.tokens, List.cons_append,
          List.append_assoc, List.cons.injEq, Token.id.injEq, true_and] at same
        obtain ⟨word, same⟩ := same
        obtain ⟨rfl, after⟩ := DeriveTail.cancel ok.2.1 (i.tail_ok next) same
        obtain ⟨rfl, rfl, -⟩ := ih ok.2.2 tailHead defHead defSemi after
        obtain rfl := Macro.word_inj word
        exact ⟨rfl, rfl, fun isEnum => by cases isEnum⟩
      | otherName =>
        obtain ⟨-, ⟨other, rest, following, differs⟩, -⟩ := ok
        simp only [List.flatMap_cons, Piece.tokens, Invocation.tokens, List.cons_append,
          List.nil_append, List.append_assoc, following, List.cons.injEq, Token.id.injEq] at same
        exact absurd same.2.2.1 differs

/-- An accepted extent with the tokens of a block is that block. -/
theorem Extent.eq_toExtent (ok : e.Ok m) {v : DerivedStruct} (accepted : e.result = some v)
    {b : DeriveBlock} (same : .id m.word :: e.tokens = b.tokens) :
    m = b.kind ∧ e = b.toExtent ∧ (m = .derivesEnum → b.more = []) := by
  obtain ⟨name, first, pieces, ending⟩ := e
  obtain ⟨okFirst, okPieces, okEnding⟩ := ok
  simp only at okFirst okPieces okEnding
  simp only [Extent.tokens, Extent.derives, DeriveBlock.tokens, DeriveBlock.invocations,
    List.flatMap_cons, Invocation.tokens, List.cons_append, List.append_assoc, List.cons.injEq,
    Token.id.injEq, true_and] at same
  obtain ⟨word, rfl, same⟩ := same
  obtain rfl := Macro.word_inj word
  obtain ⟨rfl, rest⟩ := DeriveTail.cancel okFirst (b.first.tail_ok (b.next_head b.more)) same
  obtain ⟨w, r, head, words, -⟩ := b.definition_head
  have defHead : ∀ m : Macro, b.definition.head? ≠ some (.id m.word) := by
    intro m
    simp [head, words m]
  have tailHead : ∀ m : Macro, (ending.tokens b.name).head? ≠ some (.id m.word) := by
    unfold Extent.result at accepted
    split at accepted
    · rename_i defined
      exact okEnding.head_ne defined
    · cases accepted
  obtain ⟨rfl, tail, single⟩ := pieces_invocations b.more okPieces tailHead defHead (by simp [head]) rest
  rw [← b.ending_tokens] at tail
  obtain rfl := Ending.cancel okEnding (b.ending_ok _) tail
  exact ⟨rfl, rfl, single⟩

theorem DeriveBlock.toExtent_strict (b : DeriveBlock) (single : b.kind = .derivesEnum → b.more = []) :
    b.toExtent.Strict b.kind where
  first := rfl
  closers := by
    intro d mem
    obtain ⟨i, -, same⟩ := List.mem_map.mp mem
    cases same
    rfl
  named := by simp [DeriveBlock.toExtent]
  single := fun isEnum => by simp [DeriveBlock.toExtent, single isEnum]
  typedef := by
    intro t there
    simp only [DeriveBlock.toExtent, DeriveBlock.ending] at there
    split at there
    · cases there
      rfl
    · cases there
  keyword := by
    intro k body typeName defined
    cases defined
    rfl

theorem DeriveTail.eq_tail {d : DeriveTail} (closer : d.closer = .char rparen) :
    d = Invocation.tail ⟨d.handler, d.args, d.semi⟩ := by
  obtain ⟨handler, args, _, semi⟩ := d
  obtain rfl := closer
  rfl

theorem pieces_eq_map {ps : List Piece} (closers : ∀ d, .derive d ∈ ps → d.closer = .char rparen)
    (named : .otherName ∉ ps) : ∃ is : List Invocation, ps = is.map fun i => .derive i.tail := by
  induction ps with
  | nil => exact ⟨[], rfl⟩
  | cons p ps ih =>
    obtain ⟨is, rfl⟩ := ih (fun d mem => closers d (List.mem_cons_of_mem _ mem))
      (fun mem => named (List.mem_cons_of_mem _ mem))
    cases p with
    | derive d => exact ⟨⟨d.handler, d.args, d.semi⟩ :: is, by
        rw [List.map_cons, ← DeriveTail.eq_tail (closers d (by simp))]⟩
    | otherName => exact absurd (by simp) named

/-- A strict accepted extent is a block. -/
theorem Extent.Strict.block (strict : e.Strict m) (ok : e.Ok m) {v : DerivedStruct}
    (accepted : e.result = some v) :
    ∃ b : DeriveBlock, b.kind = m ∧ e = b.toExtent ∧ (b.kind = .derivesEnum → b.more = []) := by
  obtain ⟨name, first, pieces, typedef?, declaration⟩ := e
  obtain ⟨more, rfl⟩ := pieces_eq_map strict.closers strict.named
  have keyword := strict.keyword
  have typedef := strict.typedef
  have single := strict.single
  cases declaration with
  | undeclared t => cases accepted
  | otherName k found => cases accepted
  | defined k body typeName =>
    obtain rfl := keyword k body typeName rfl
    obtain ⟨clean, isSome⟩ := ok.ending.declaration
    refine ⟨⟨m, name, ⟨first.handler, first.args, first.semi⟩, more, body, clean, typeName⟩, rfl, ?_, ?_⟩
    · simp only [DeriveBlock.toExtent, DeriveBlock.ending, ← DeriveTail.eq_tail strict.first,
        Extent.mk.injEq, Ending.mk.injEq, true_and, and_true]
      cases typedef? with
      | none => simp_all
      | some t => simp_all
    · exact fun isEnum => List.map_eq_nil_iff.mp (single isEnum)

/-- The tokens of an accepted extent are those of a block exactly if it is strict. -/
theorem strict_iff (ok : e.Ok m) {v : DerivedStruct} (accepted : e.result = some v) :
    (∃ b : DeriveBlock, .id m.word :: e.tokens = b.tokens ∧ v.handlers.length = b.invocations.length) ↔
      e.Strict m := by
  constructor
  · rintro ⟨b, same, -⟩
    obtain ⟨rfl, rfl, single⟩ := Extent.eq_toExtent ok accepted same
    exact b.toExtent_strict single
  · intro strict
    obtain ⟨b, rfl, rfl, single⟩ := strict.block ok accepted
    rw [b.toExtent_result] at accepted
    cases accepted
    exact ⟨b, (DeriveBlock.tokens_eq single).symm, by simp [DeriveBlock.value]⟩

end Strict

/-! ## The calls that return a struct -/

/-- What the tokens and the number of derive items of every accepted call should be. -/
def AcceptsBlocks (lex : StbLexer) (t : Token) (rest : List Token) (mem : Mem) : Prop :=
  ∀ d st, parseDerivedStruct .assertions ⟨lex.fetched t rest, mem⟩ = .ok (some d, st) →
    ∃ (b : DeriveBlock) (fields : MoeDerivedStruct),
      t :: rest = b.tokens ++ st.lex.rest ∧
      loadAs Block.asDerivedStruct (some d) st.mem = .ok (fields, st.mem) ∧
      fields.deriveItemNum = b.invocations.length

/-- The parser accepts nothing but a block on these tokens, exactly when the extent with a
definition at their start, if there is one, is strict. -/
theorem accepted_iff_strict (lex : StbLexer) (t : Token) (rest : List Token) (mem : Mem) :
    AcceptsBlocks lex t rest mem ↔
      ∀ (m : Macro) (e : Extent) (v : DerivedStruct) (r : List Token), e.Ok m → e.result = some v →
        t :: rest = .id m.word :: (e.tokens ++ r) → e.Strict m := by
  constructor
  · intro blocks m e v r ok accepted same
    obtain ⟨rfl, rfl⟩ := List.cons.inj same
    obtain ⟨d, st, run, after, s, here, owned⟩ := parseDerivedStruct_returns ok accepted lex mem r
    cases here
    obtain ⟨b, fields, same, load, count⟩ := blocks _ _ run
    obtain ⟨n, load'⟩ := owned.load
    rw [load'] at load
    cases load
    rw [after, ← List.cons_append] at same
    exact (strict_iff ok accepted).mp ⟨b, List.append_cancel_right same, count⟩
  · intro strict d st run
    obtain ⟨m, e, v, ok, accepted, rfl, read, s, here, owned⟩ := parseDerivedStruct_returned run
    cases here
    obtain ⟨n, load⟩ := owned.load
    have stream : rest = e.tokens ++ st.lex.rest := read.rest
    obtain ⟨b, tokens, count⟩ := (strict_iff ok accepted).mpr
      (strict m e v st.lex.rest ok accepted (by rw [stream]))
    refine ⟨b, _, ?_, load, count⟩
    rw [← tokens, List.cons_append, ← stream]

/-- `( S , h ] struct S { } ;` -/
def bracketed : Extent :=
  ⟨typeS, ⟨wordH, [], .char 93, false⟩, [], ⟨none, .defined .struct [] none⟩⟩

theorem bracketed_ok : bracketed.Ok .derives where
  first := ⟨by decide, by decide⟩
  pieces := fun _ => by decide
  ending := ⟨by decide, by simp [bracketed, Declaration.Ok]⟩

/-- A derive that is closed by `]` is accepted, and its tokens are not those of a block. -/
theorem bracketed_accepted :
    ∃ d st, parseDerivedStruct .assertions
        ⟨StbLexer.fetched (.start []) (.id Macro.derives.word) bracketed.tokens, Mem.empty⟩ = .ok (some d, st) ∧
      ∀ b : DeriveBlock, .id Macro.derives.word :: bracketed.tokens ≠ b.tokens ++ st.lex.rest := by
  obtain ⟨lex', read, rest⟩ : ∃ lex',
      Reads (StbLexer.fetched (.start []) (.id Macro.derives.word) bracketed.tokens) bracketed.tokens lex' ∧
      lex'.rest = [] :=
    ⟨_, reads_after (r := []) (List.append_nil _).symm, StbLexer.after_rest (List.append_nil _).symm⟩
  have values := parseDerivedStruct_run bracketed_ok (fetched_current _ _ _) read
  obtain ⟨_, mem, run, s, rfl, -⟩ := parseDerivedStruct_spec (owns_refl Mem.empty) values
  refine ⟨_, _, run, ?_⟩
  intro b same
  rw [rest, List.append_nil] at same
  obtain ⟨-, same, -⟩ := Extent.eq_toExtent bracketed_ok rfl same
  have closer : bracketed.first.closer = .char rparen := by
    rw [same]
    rfl
  exact absurd closer (by decide)

end MoeToolchain
