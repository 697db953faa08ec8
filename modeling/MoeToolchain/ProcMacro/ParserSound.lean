import MoeToolchain.ProcMacro.Grammar

/-!
# Every run of the parser reads an extent

With assertions, a call on a macro name stops at a failed assertion, or it consumes
the tokens of an extent and returns the extent's result. No other fault stops it: the
loops end within their fuel, since every turn consumes a token, and the bytes copied
for a token are those the lexer has just stored.
-/

namespace MoeToolchain
set_option autoImplicit false
open Lib

/-! ## What the lexer returned between two states -/

/-- From `lex` to `lex'` the lexer returned exactly the tokens `ts`. -/
structure Reads (lex : StbLexer) (ts : List Token) (lex' : StbLexer) : Prop where
  rest : lex.rest = ts ++ lex'.rest
  state : lex' = lex.after ts lex'.rest

section Reading

variable {lex lex' lex'' : StbLexer} {ts us : List Token} {t : Token}

theorem Reads.refl (lex : StbLexer) : Reads lex [] lex := ⟨rfl, rfl⟩

theorem reads_one {r : List Token} (next : lex.rest = t :: r) : Reads lex [t] (lex.fetched t r) :=
  ⟨next, rfl⟩

theorem Reads.trans (first : Reads lex ts lex') (second : Reads lex' us lex'') :
    Reads lex (ts ++ us) lex'' := by
  constructor
  · rw [first.rest, second.rest, List.append_assoc]
  · rw [StbLexer.after_append, ← second.rest, ← first.state]
    exact second.state

theorem reads_after {r : List Token} (here : lex.rest = ts ++ r) : Reads lex ts (lex.after ts r) := by
  have rest := StbLexer.after_rest here
  exact ⟨by rw [rest, here], by rw [rest]⟩

/-- Reading can be stopped anywhere. -/
theorem Reads.split (both : Reads lex (ts ++ us) lex') :
    ∃ mid, Reads lex ts mid ∧ Reads mid us lex' := by
  have here := both.rest
  rw [List.append_assoc] at here
  have rest := StbLexer.after_rest here
  refine ⟨lex.after ts (us ++ lex'.rest), ⟨?_, ?_⟩, ⟨rest, ?_⟩⟩
  · rw [rest]
    exact here
  · rw [rest]
  · rw [← StbLexer.after_append]
    exact both.state

theorem Reads.cons (both : Reads lex (t :: us) lex') :
    ∃ mid, Reads lex [t] mid ∧ Reads mid us lex' := by
  have both' : Reads lex ([t] ++ us) lex' := both
  exact both'.split

theorem Reads.length (read : Reads lex ts lex') :
    lex.rest.length = ts.length + lex'.rest.length := by
  rw [read.rest, List.length_append]

/-- The tokens fix the state. -/
theorem Reads.unique (read : Reads lex ts lex') (read' : Reads lex ts lex'') : lex' = lex'' := by
  have rest : lex'.rest = lex''.rest := List.append_cancel_left (read.rest.symm.trans read'.rest)
  rw [read.state, read'.state, rest]

theorem StbLexer.after_string (lex : StbLexer) (ts r : List Token) :
    (lex.after ts r).string = lastText lex.string ts := by
  induction ts generalizing lex with
  | nil => rfl
  | cons t ts ih => exact ih (lex.fetched t (ts ++ r))

theorem Reads.string (read : Reads lex ts lex') : lex'.string = lastText lex.string ts := by
  rw [read.state, StbLexer.after_string]

theorem reads_one_iff : Reads lex [t] lex' ↔ lex.rest = t :: lex'.rest ∧ lex' = lex.fetched t lex'.rest :=
  ⟨fun read => ⟨read.rest, read.state⟩, fun both => ⟨both.1, both.2⟩⟩

/-- The code and the text in the lexer are those of the token `t`. -/
structure Current (lex : StbLexer) (t : Token) : Prop where
  token : lex.token = t.code
  string : ∀ b, t.text? = some b → lex.string = b

theorem Reads.current (read : Reads lex (ts ++ [t]) lex') : Current lex' t := by
  obtain ⟨mid, -, last⟩ := read.split
  obtain ⟨-, state⟩ := reads_one_iff.mp last
  constructor
  · rw [state]
    rfl
  · intro b text
    rw [state, StbLexer.fetched_string, text]
    rfl

/-- The parser's test for an identifier is right about the current token. -/
theorem Current.word_iff (current : Current lex t) (word : Ident) :
    (lex.token = clexId ∧ strEq lex.string word.text = true) ↔ t = .id word := by
  rw [current.token, Token.code_id]
  constructor
  · rintro ⟨⟨name, rfl⟩, same⟩
    rw [current.string name.text rfl, Ident.strEq_iff] at same
    rw [same]
  · rintro rfl
    refine ⟨⟨word, rfl⟩, ?_⟩
    rw [current.string word.text rfl, Ident.strEq_iff]

end Reading

/-! ## Single steps -/

/-- A failed assertion is the only fault. -/
def AssertionOnly (e : Fault) : Prop := e = .assertFailed

section Steps

variable {α : Type} {lex : StbLexer}

theorem moeNextToken_wp {post : Unit → StbLexer → Prop}
    (h : ∀ t lex', Reads lex [t] lex' → post () lex') :
    Exec.Wp AssertionOnly (moeNextToken .assertions) lex post := by
  cases more : lex.rest with
  | nil =>
    have stop : moeNextToken .assertions lex = .error .assertFailed := by
      rw [moeNextToken, moeAssert, Exec.bind_ok (stbCLexerGetToken_end more)]
      rfl
    rw [Exec.Wp, stop]
    rfl
  | cons t r =>
    rw [Exec.Wp, moeNextToken_run more]
    exact h t _ (reads_one more)

/-- The next token is read and compared with a character. -/
theorem nextTokenIs_wp {c : Fin 128} {yes no : StbLexer → C StbLexer α} {post : α → StbLexer → Prop}
    (same : ∀ lex', Reads lex [.char c] lex' → Exec.Wp AssertionOnly (yes lex') lex' post)
    (other : ∀ t lex', t ≠ .char c → Reads lex [t] lex' → Exec.Wp AssertionOnly (no lex') lex' post) :
    Exec.Wp AssertionOnly (do
      moeNextToken .assertions
      let lex ← get
      if lex.token = c then yes lex else no lex) lex post := by
  apply Exec.Wp.bind
  apply moeNextToken_wp
  intro t lex' read
  have token : lex'.token = t.code := (reads_one_iff.mp read).2 ▸ rfl
  apply Exec.Wp.get
  apply Exec.Wp.ite
  · intro isChar
    rw [token, Token.code_char] at isChar
    exact same lex' (isChar ▸ read)
  · intro notChar
    rw [token, Token.code_char] at notChar
    exact other t lex' notChar read

theorem moeExpectNextToken_wp {expected : Nat} {post : Unit → StbLexer → Prop}
    (h : ∀ t lex', t.code = expected → Reads lex [t] lex' → post () lex') :
    Exec.Wp AssertionOnly (moeExpectNextToken .assertions expected) lex post := by
  apply Exec.Wp.bind
  apply moeNextToken_wp
  intro t lex' read
  have token : lex'.token = t.code := (reads_one_iff.mp read).2 ▸ rfl
  by_cases same : t.code = expected
  · rw [Exec.Wp, moeExpectToken_ok.mpr ⟨token.trans same, rfl⟩]
    exact h t lex' same read
  · have stop : moeExpectToken .assertions expected lex' = .error .assertFailed := by
      change (if (lex'.token == expected) = true then pure () else Exec.fault Fault.assertFailed :
        C StbLexer Unit) lex' = _
      rw [token, if_neg (by simpa using same)]
      rfl
    rw [Exec.Wp, stop]
    rfl

theorem expectChar_wp {c : Fin 128} {post : Unit → StbLexer → Prop}
    (h : ∀ lex', Reads lex [.char c] lex' → post () lex') :
    Exec.Wp AssertionOnly (moeExpectNextToken .assertions c) lex post := by
  apply moeExpectNextToken_wp
  intro t lex' code read
  rw [Token.code_char] at code
  exact h lex' (code ▸ read)

theorem expectId_wp {post : Unit → StbLexer → Prop}
    (h : ∀ name lex', Reads lex [.id name] lex' → post () lex') :
    Exec.Wp AssertionOnly (moeExpectNextToken .assertions clexId) lex post := by
  apply moeExpectNextToken_wp
  intro t lex' code read
  obtain ⟨name, rfl⟩ := (Token.code_id t).mp code
  exact h name lex' read

end Steps

/-! ## Derives -/

section Derives

variable {α : Type} {lex : StbLexer} {v : DerivedStruct} {name : Ident}

theorem parseArgs_wp {post : Unit → StbLexer → Prop}
    (h : ∀ (a : DeriveArg) lex', Reads lex a.tokens.tail lex' → post () lex') :
    Exec.Wp AssertionOnly (parseArgs .assertions) lex post := by
  apply Exec.Wp.bind
  apply expectId_wp
  intro argMacro lex1 read1
  apply Exec.Wp.bind
  apply expectChar_wp
  intro lex2 read2
  apply Exec.Wp.bind
  apply expectId_wp
  intro argType lex3 read3
  apply Exec.Wp.bind
  apply expectChar_wp
  intro lex4 read4
  apply Exec.Wp.bind
  apply expectId_wp
  intro argName lex5 read5
  apply expectChar_wp
  intro lex6 read6
  exact h ⟨argMacro, argType, argName⟩ lex6
    (read1.trans (read2.trans (read3.trans (read4.trans (read5.trans read6)))))

/-- The argument loop ends at the first token that is not `,`. -/
theorem argsLoop_wp (fuel : Nat) : ∀ {lex : StbLexer} {post : Unit → StbLexer → Prop},
    lex.rest.length < fuel →
    (∀ (args : List DeriveArg) closer lex', closer ≠ .char comma →
      Reads lex (args.flatMap DeriveArg.tokens ++ [closer]) lex' → post () lex') →
    Exec.Wp AssertionOnly (argsLoop .assertions fuel) lex post := by
  induction fuel with
  | zero =>
    intro lex post enough
    omega
  | succ fuel ih =>
    intro lex post enough h
    apply nextTokenIs_wp
    · intro lex1 read1
      have shorter := read1.length
      simp only [List.length_singleton] at shorter
      apply Exec.Wp.bind
      apply parseArgs_wp
      intro a lex2 read2
      have more := read2.length
      apply ih (by omega)
      intro args closer lex' ends read3
      apply h (a :: args) closer lex' ends
      rw [List.flatMap_cons, List.append_assoc]
      exact read1.trans (read2.trans read3)
    · intro t lex1 notComma read1
      exact h [] t lex1 notComma read1

/-- A derive, up to the token after it. -/
theorem parseDeriveItem_wp {g : DerivedStruct → C StbLexer α} {post : α → StbLexer → Prop}
    (h : ∀ (d : DeriveTail) t lex', (∀ r, d.Ok (t :: r)) → Reads lex (d.tokens ++ [t]) lex' →
      Exec.Wp AssertionOnly (g { v with handlers := v.handlers ++ [d.handler.text] }) lex' post) :
    Exec.Wp AssertionOnly (do
      let v ← Values.parseDeriveItem .assertions v
      nextPastSemicolon .assertions
      g v) lex post := by
  apply Exec.Wp.bind
  apply Exec.Wp.bind
  apply expectId_wp
  intro handler lex1 read1
  have text : cString lex1.string = handler.text := by
    rw [read1.string]
    exact cString_of_no_nul handler.no_nul
  apply Exec.Wp.get
  apply Exec.Wp.bind
  apply argsLoop_wp _ (by unfold loopFuel; omega)
  intro args closer lex2 ends read2
  apply Exec.Wp.pure
  apply Exec.Wp.bind
  rw [text]
  apply nextTokenIs_wp
  · intro lex3 read3
    apply moeNextToken_wp
    intro t' lex4 read4
    apply h ⟨handler, args, closer, true⟩ t' lex4 (fun r => ⟨ends, fun no => by cases no⟩)
    simpa [DeriveTail.tokens] using (read1.trans read2).trans (read3.trans read4)
  · intro t lex3 notSemi read3
    apply h ⟨handler, args, closer, false⟩ t lex3
      (fun r => ⟨ends, fun _ same => notSemi (by simpa using same)⟩)
    simpa [DeriveTail.tokens] using (read1.trans read2).trans read3

/-- One turn of the derive loop from the current token `z`. -/
theorem tryParseDerive_wp {z : Token} {post : Int × DerivedStruct → StbLexer → Prop}
    (current : Current lex z) (named : v.structName = name.text)
    (none_ : z ≠ .id Macro.derives.word → post (0, v) lex)
    (otherName : ∀ other lex', z = .id Macro.derives.word → other ≠ name →
      Reads lex [.char lparen, .id other] lex' → post (-1, v) lex')
    (derive : ∀ (d : DeriveTail) t lex', z = .id Macro.derives.word → (∀ r, d.Ok (t :: r)) →
      Reads lex (.char lparen :: .id name :: .char comma :: (d.tokens ++ [t])) lex' →
      post (1, { v with handlers := v.handlers ++ [d.handler.text] }) lex') :
    Exec.Wp AssertionOnly (Values.tryParseDerive .assertions v) lex post := by
  have word := current.word_iff Macro.derives.word
  apply Exec.Wp.get
  apply Exec.Wp.ite
  · intro differs
    apply none_
    intro same
    obtain ⟨token, text⟩ := word.mpr same
    exact differs.elim (fun no => no token) (fun no => no text)
  intro same
  have isMacro := word.mp (by
    rw [not_or, not_not, not_not] at same
    exact same)
  apply Exec.Wp.bind
  apply expectChar_wp
  intro lex1 read1
  apply Exec.Wp.bind
  apply expectId_wp
  intro other lex2 read2
  have text : lex2.string = other.text := by
    rw [read2.string]
    rfl
  apply Exec.Wp.get
  rw [named, cString_of_no_nul name.no_nul, text]
  apply Exec.Wp.ite
  · intro differs
    have ne : other ≠ name := fun same => differs ((Ident.strEq_iff name other).mpr same.symm)
    exact otherName other lex2 isMacro ne (read1.trans read2)
  intro same
  rw [not_not, Ident.strEq_iff] at same
  subst same
  apply Exec.Wp.bind
  apply expectChar_wp
  intro lex3 read3
  apply parseDeriveItem_wp
  intro d t lex4 ok read4
  exact derive d t lex4 isMacro ok ((read1.trans read2).trans (read3.trans read4))

/-- The derive loop from the current token `z`: it reads pieces up to a token `z'`. -/
theorem deriveLoop_wp (fuel : Nat) : ∀ {lex : StbLexer} {v : DerivedStruct} {z : Token}
    {post : DerivedStruct → StbLexer → Prop},
    lex.rest.length < fuel → Current lex z → v.structName = name.text →
    (∀ ps z' ts lex', z :: ts = ps.flatMap (Piece.tokens name) ++ [z'] → Reads lex ts lex' →
      Current lex' z' → (∀ r, PiecesOk name (z' :: r) v.handlers.length ps) →
      post { v with handlers := v.handlers ++ ps.filterMap Piece.handler? } lex') →
    Exec.Wp AssertionOnly (Values.deriveLoop .assertions fuel v) lex post := by
  induction fuel with
  | zero =>
    intro lex v z post enough
    omega
  | succ fuel ih =>
    intro lex v z post enough current named h
    have done : (v.handlers.length < moeProcMacroMaxDeriveItemNum → z ≠ .id Macro.derives.word) →
        post v lex := by
      intro stop
      have ended := h [] z [] lex rfl (Reads.refl lex) current (fun r room same =>
        stop room (by simpa using same))
      simpa using ended
    unfold Values.deriveLoop
    apply Exec.Wp.ite
    · intro room
      apply Exec.Wp.bind
      apply tryParseDerive_wp current named
      · intro other
        exact Exec.Wp.pure (done fun _ => other)
      · intro other lex1 isMacro differs read1
        have shorter := read1.length
        simp only [List.length_cons, List.length_nil] at shorter
        have read1' : Reads lex ([.char lparen] ++ [.id other]) lex1 := read1
        apply ih (by omega) read1'.current named
        intro ps z' ts lex' tokens read2 current' ok
        apply h (.otherName :: ps) z' (.char lparen :: .id other :: ts) lex' _ (read1.trans read2) current'
        · intro r
          have next : ps.flatMap (Piece.tokens name) ++ z' :: r = .id other :: (ts ++ r) := by
            rw [List.append_cons, ← tokens, List.cons_append]
          exact ⟨room, ⟨other, ts ++ r, next, differs⟩, ok r⟩
        · rw [List.flatMap_cons, isMacro, tokens]
          rfl
      · intro d t lex1 isMacro ok read1
        have shorter := read1.length
        simp only [List.length_cons] at shorter
        have read1' : Reads lex ((.char lparen :: .id name :: .char comma :: d.tokens) ++ [t]) lex1 := read1
        apply ih (v := { v with handlers := v.handlers ++ [d.handler.text] }) (by omega) read1'.current named
        intro ps z' ts lex' tokens read2 current' ok'
        have whole := h (.derive d :: ps) z'
          (.char lparen :: .id name :: .char comma :: (d.tokens ++ t :: ts)) lex'
        simp only [List.filterMap_cons, Piece.handler?] at whole
        rw [List.append_assoc, List.singleton_append]
        refine whole ?_ ?_ current' ?_
        · rw [List.flatMap_cons, isMacro, List.append_assoc, tokens]
          simp [Piece.tokens]
        · have both := read1.trans read2
          simpa using both
        · intro r
          have next : ps.flatMap (Piece.tokens name) ++ z' :: r = t :: (ts ++ r) := by
            rw [List.append_cons, ← tokens, List.cons_append]
          refine ⟨room, ?_, ?_⟩
          · rw [next]
            exact ok (ts ++ r)
          · have rest := ok' r
            simpa using rest
    · intro full
      exact Exec.Wp.pure (done fun room => absurd room full)

end Derives

/-! ## The struct body -/

/-- What `try_parse_derived_struct_body` makes of a declaration. -/
def Declaration.outcome (v : DerivedStruct) : Declaration → Int × DerivedStruct
  | undeclared _ => (0, v)
  | otherName _ _ => (-1, v)
  | defined _ body _ => (1, { v with metadata := v.metadata ++ body.map Token.value })

section Body

variable {lex lex' : StbLexer} {v : DerivedStruct} {name : Ident} {t y z : Token}

/-- A token that was just returned becomes its own value. -/
theorem bodyToken_fetched (read : Reads lex [t] lex') (s : StbLexer) :
    Values.bodyToken lex' s = .ok (t.value, s) := by
  obtain ⟨-, state⟩ := reads_one_iff.mp read
  rw [state]
  have text : ∀ b : Bytes, stringContent (some b) b.length = some b := stringContent_exact
  unfold Values.bodyToken
  cases t with
  | char c =>
    have below := c.isLt
    have code : (lex.fetched (.char c) lex'.rest).token = c := rfl
    rw [code, if_neg (by unfold clexId clexSqstring clexDqstring; omega),
      if_neg (by unfold clexIntlit; omega), if_neg (by unfold clexFloatlit; omega)]
    rfl
  | op o =>
    have range := o.code_range
    have code : (lex.fetched (.op o) lex'.rest).token = o.code := rfl
    rw [code, if_neg (by unfold clexId clexSqstring clexDqstring; omega),
      if_neg (by unfold clexIntlit; omega), if_neg (by unfold clexFloatlit; omega)]
    rfl
  | id name => simp [StbLexer.fetched, Token.code, Token.text?, Token.stringLen?, Token.value, text]
  | dqstring b =>
    simp [StbLexer.fetched, Token.code, Token.text?, Token.stringLen?, Token.value, text, clexId, clexDqstring]
  | sqstring b =>
    simp [StbLexer.fetched, Token.code, Token.text?, Token.stringLen?, Token.value, text, clexId, clexSqstring]
  | _ => rfl

/-- The body loop ends at the first `}`. -/
theorem bodyLoop_wp (fuel : Nat) : ∀ {lex : StbLexer} {v : DerivedStruct}
    {post : DerivedStruct → StbLexer → Prop},
    lex.rest.length < fuel →
    (∀ body lex', .char rbrace ∉ body → Reads lex (body ++ [.char rbrace]) lex' →
      post { v with metadata := v.metadata ++ body.map Token.value } lex') →
    Exec.Wp AssertionOnly (Values.bodyLoop .assertions fuel v) lex post := by
  induction fuel with
  | zero =>
    intro lex v post enough
    omega
  | succ fuel ih =>
    intro lex v post enough h
    apply nextTokenIs_wp
    · intro lex1 read1
      have ended := h [] lex1 (by simp) read1
      apply Exec.Wp.pure
      simpa using ended
    · intro t lex1 inside read1
      have shorter := read1.length
      simp only [List.length_singleton] at shorter
      apply Exec.Wp.bind
      rw [Exec.Wp, bodyToken_fetched read1]
      apply ih (by omega)
      intro body lex2 clean read2
      have whole := h (t :: body) lex2 (by simp [Ne.symm inside, clean]) (read1.trans read2)
      simpa using whole

theorem typedefKeyword_wp {post : Bool → StbLexer → Prop}
    (here : strEq lex.string (bytesOf "typedef") = true → ∀ w lex', Reads lex [w] lex' → post true lex')
    (absent : strEq lex.string (bytesOf "typedef") = false → post false lex) :
    Exec.Wp AssertionOnly (typedefKeyword .assertions) lex post := by
  apply Exec.Wp.get
  apply Exec.Wp.ite
  · intro yes
    apply Exec.Wp.bind
    apply moeNextToken_wp
    intro w lex' read
    exact Exec.Wp.pure (here yes w lex' read)
  · intro no
    exact Exec.Wp.pure (absent (by simpa using no))

theorem Current.keyword_iff (current : Current lex y) :
    ¬ (lex.token ≠ clexId ∨
      (¬ strEq lex.string (bytesOf "struct") = true ∧ ¬ strEq lex.string (bytesOf "enum") = true)) ↔
      ∃ k : Keyword, y = .id k.word := by
  have struct := current.word_iff structWord
  have enum := current.word_iff enumWord
  constructor
  · intro found
    by_cases isStruct : strEq lex.string (bytesOf "struct") = true
    · exact ⟨.struct, struct.mp ⟨by tauto, isStruct⟩⟩
    · exact ⟨.enum, enum.mp ⟨by tauto, show strEq lex.string (bytesOf "enum") = true by tauto⟩⟩
  · rintro ⟨k, word⟩ missing
    cases k with
    | struct =>
      obtain ⟨token, text⟩ := struct.mpr word
      exact missing.elim (fun no => no token) (fun no => no.1 text)
    | enum =>
      obtain ⟨token, text⟩ := enum.mpr word
      exact missing.elim (fun no => no token) (fun no => no.2 text)

theorem declarationEnd_wp {isTypedef : Bool} {post : Unit → StbLexer → Prop}
    (h : ∀ (typeName : Option Ident) lex', typeName.isSome = isTypedef →
      Reads lex (typeName.toList.map Token.id ++ [.char semicolon]) lex' → post () lex') :
    Exec.Wp AssertionOnly (declarationEnd .assertions isTypedef) lex post := by
  apply Exec.Wp.bind
  cases isTypedef with
  | true =>
    apply expectId_wp
    intro typeName lex1 read1
    apply expectChar_wp
    intro lex2 read2
    exact h (some typeName) lex2 rfl (read1.trans read2)
  | false =>
    apply Exec.Wp.pure
    apply expectChar_wp
    intro lex2 read2
    exact h none lex2 rfl read2

/-- The declaration from the current token `y`. -/
theorem parseDeclaration_wp {isTypedef : Bool} {post : Int × DerivedStruct → StbLexer → Prop}
    (current : Current lex y) (named : v.structName = name.text)
    (h : ∀ (d : Declaration) ts lex', y :: ts = d.tokens name → Reads lex ts lex' →
      d.Ok name isTypedef → post (d.outcome v) lex') :
    Exec.Wp AssertionOnly (Values.parseDeclaration .assertions v isTypedef) lex post := by
  have keyword := current.keyword_iff
  apply Exec.Wp.get
  apply Exec.Wp.ite
  · intro none_
    apply Exec.Wp.pure
    apply h (.undeclared y) [] lex rfl (Reads.refl lex)
    intro k word
    exact keyword.mpr ⟨k, word⟩ none_
  intro some_
  obtain ⟨k, rfl⟩ := keyword.mp some_
  apply Exec.Wp.bind
  apply expectId_wp
  intro found lex1 read1
  have text : lex1.string = found.text := by
    rw [read1.string]
    rfl
  apply Exec.Wp.get
  rw [named, cString_of_no_nul name.no_nul, text]
  apply Exec.Wp.ite
  · intro differs
    apply Exec.Wp.pure
    exact h (.otherName k found) [.id found] lex1 rfl read1
      (fun same => differs ((Ident.strEq_iff name found).mpr same.symm))
  intro same
  rw [not_not, Ident.strEq_iff] at same
  subst same
  apply Exec.Wp.bind
  apply expectChar_wp
  intro lex2 read2
  apply Exec.Wp.get
  apply Exec.Wp.bind
  apply bodyLoop_wp _ (by unfold loopFuel; omega)
  intro body lex3 clean read3
  apply Exec.Wp.bind
  apply declarationEnd_wp
  intro typeName lex4 typed read4
  apply Exec.Wp.pure
  apply h (.defined k body typeName) _ lex4 _ ((read1.trans read2).trans (read3.trans read4)) ⟨clean, typed⟩
  simp [Declaration.tokens]

/-- The end of an extent from the current token `z`. -/
theorem tryParseDerivedStructBody_wp {post : Int × DerivedStruct → StbLexer → Prop}
    (current : Current lex z) (named : v.structName = name.text)
    (h : ∀ (e : Ending) ts lex', z :: ts = e.tokens name → Reads lex ts lex' →
      e.typedef?.isSome = strEq lex.string (bytesOf "typedef") →
      e.declaration.Ok name e.typedef?.isSome → post (e.declaration.outcome v) lex') :
    Exec.Wp AssertionOnly (Values.tryParseDerivedStructBody .assertions v) lex post := by
  apply Exec.Wp.bind
  apply typedefKeyword_wp
  · intro isTypedef w lex1 read1
    have read1' : Reads lex ([] ++ [w]) lex1 := read1
    apply parseDeclaration_wp read1'.current named
    intro d ts lex' tokens read2 ok
    apply h ⟨some z, d⟩ (w :: ts) lex' _ (read1.trans read2) isTypedef.symm ok
    rw [tokens]
    rfl
  · intro plain
    apply parseDeclaration_wp current named
    intro d ts lex' tokens read2 ok
    exact h ⟨none, d⟩ ts lex' tokens read2 plain.symm ok

end Body

/-! ## The whole call -/

section Whole

variable {lex : StbLexer} {t : Token} {m : Macro}

/-- On any other token the call does nothing. -/
theorem parseDerivedStruct_none (build : Build) (current : Current lex t)
    (other : ∀ m : Macro, t ≠ .id m.word) : Values.parseDerivedStruct build lex = .ok (none, lex) := by
  have derives := current.word_iff Macro.derives.word
  have derivesEnum := current.word_iff Macro.derivesEnum.word
  unfold Values.parseDerivedStruct
  rw [Exec.bind_ok (Exec.get_apply lex)]
  by_cases id : lex.token = clexId
  · rw [if_neg (not_not.mpr id), if_pos]
    · rfl
    · exact ⟨fun text => other .derives (derives.mp ⟨id, text⟩),
        fun text => other .derivesEnum (derivesEnum.mp ⟨id, text⟩)⟩
  · rw [if_pos id]
    rfl

/-- The parser's test for a macro name passes on one. -/
theorem Current.isMacro (current : Current lex (.id m.word)) :
    ¬ (¬ strEq lex.string moeProcMacroDerivesMacroName = true ∧
      ¬ strEq lex.string moeProcMacroDerivesEnumMacroName = true) := by
  rintro ⟨derives, derivesEnum⟩
  cases m with
  | derives => exact derives ((current.word_iff Macro.derives.word).mpr rfl).2
  | derivesEnum => exact derivesEnum ((current.word_iff Macro.derivesEnum.word).mpr rfl).2

/-- A call on a macro name consumes an extent and returns its result. -/
theorem parseDerivedStruct_wp (current : Current lex (.id m.word)) :
    Exec.Wp AssertionOnly (Values.parseDerivedStruct .assertions) lex fun r lex' =>
      ∃ e : Extent, e.Ok m ∧ Reads lex e.tokens lex' ∧ r = e.result := by
  have start : lex.string = m.word.text := current.string _ rfl
  have id : lex.token = clexId := current.token
  unfold Values.parseDerivedStruct
  apply Exec.Wp.get
  rw [if_neg (not_not.mpr id), if_neg current.isMacro]
  apply Exec.Wp.bind
  apply Exec.Wp.bind
  apply expectChar_wp
  intro lex1 read1
  apply Exec.Wp.bind
  apply expectId_wp
  intro name lex2 read2
  have text : cString lex2.string = name.text := by
    rw [read2.string]
    exact cString_of_no_nul name.no_nul
  apply Exec.Wp.get
  apply Exec.Wp.bind
  apply expectChar_wp
  intro lex3 read3
  rw [text]
  apply parseDeriveItem_wp
  intro first z lex4 ok4 read4
  apply Exec.Wp.pure
  apply Exec.Wp.get
  apply Exec.Wp.bind
  apply deriveLoop_wp _ (by unfold loopFuel; omega) read4.current (show _ = name.text from rfl)
  intro pieces z' ts lex5 tokens5 read5 current5 ok5
  apply Exec.Wp.bind
  apply tryParseDerivedStructBody_wp current5 (show _ = name.text from rfl)
  intro ending us lex6 tokens6 read6 typedef ok6
  have derives : Reads lex (Extent.derives ⟨name, first, pieces, ending⟩ ++ [z']) lex5 := by
    have opening := read1.trans (read2.trans read3)
    have rest := read4.trans read5
    rw [List.append_assoc, List.singleton_append, tokens5] at rest
    simpa [Extent.derives] using opening.trans rest
  have e : (⟨name, first, pieces, ending⟩ : Extent).Ok m := by
    refine ⟨?_, ?_, ?_, ok6⟩
    · simp only
      rw [← tokens6, List.append_cons, ← tokens5, List.cons_append]
      exact ok4 _
    · simp only
      rw [← tokens6]
      exact ok5 us
    · rw [typedef, derives.string, start, ← tokens6]
      simp
  have whole := derives.trans read6
  rw [List.append_assoc, List.singleton_append, tokens6] at whole
  obtain ⟨typedef?, d⟩ := ending
  cases d with
  | undeclared t => exact ⟨_, e, whole, rfl⟩
  | otherName k found => exact ⟨_, e, whole, rfl⟩
  | defined k body typeName => exact ⟨_, e, whole, rfl⟩

end Whole

end MoeToolchain
