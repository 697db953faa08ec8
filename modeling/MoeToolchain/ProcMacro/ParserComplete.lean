import MoeToolchain.ProcMacro.ParserSound

/-!
# Every extent is read by the parser

The converse of `parseDerivedStruct_wp`: on the tokens of an extent no assertion of
the call fails, and it returns the extent's result with the lexer on the last token.
Well-formed blocks are extents (`DeriveBlock.toExtent_ok`), so this is what the parser
accepts of the language it was written for.
-/

namespace MoeToolchain
set_option autoImplicit false
open Lib

section Runs

variable {α : Type} {lex lex' : StbLexer} {v : DerivedStruct} {name : Ident} {t z : Token}

theorem nextToken_run (read : Reads lex [t] lex') : moeNextToken .assertions lex = .ok ((), lex') := by
  obtain ⟨rest, state⟩ := reads_one_iff.mp read
  rw [moeNextToken_run rest, ← state]

theorem expectChar_run {c : Fin 128} (read : Reads lex [.char c] lex') :
    moeExpectNextToken .assertions c lex = .ok ((), lex') := by
  obtain ⟨rest, state⟩ := reads_one_iff.mp read
  exact moeExpectNextToken_char.mpr ⟨lex'.rest, rest, state⟩

theorem expectId_run (read : Reads lex [.id name] lex') :
    moeExpectNextToken .assertions clexId lex = .ok ((), lex') := by
  obtain ⟨rest, state⟩ := reads_one_iff.mp read
  exact moeExpectNextToken_id.mpr ⟨name, lex'.rest, rest, state⟩

theorem Reads.token (read : Reads lex [t] lex') : lex'.token = t.code := by
  rw [(reads_one_iff.mp read).2]
  rfl

theorem parseArgs_run {a : DeriveArg} (read : Reads lex a.tokens.tail lex') :
    parseArgs .assertions lex = .ok ((), lex') := by
  obtain ⟨lex1, read1, read⟩ := read.cons
  obtain ⟨lex2, read2, read⟩ := read.cons
  obtain ⟨lex3, read3, read⟩ := read.cons
  obtain ⟨lex4, read4, read⟩ := read.cons
  obtain ⟨lex5, read5, read⟩ := read.cons
  rw [parseArgs, Exec.bind_ok (expectId_run read1), Exec.bind_ok (expectChar_run read2),
    Exec.bind_ok (expectId_run read3), Exec.bind_ok (expectChar_run read4),
    Exec.bind_ok (expectId_run read5), expectChar_run read]

theorem argsLoop_run {closer : Token} (ends : closer ≠ .char comma) (args : List DeriveArg) :
    ∀ {fuel : Nat} {lex : StbLexer}, args.length < fuel →
      Reads lex (args.flatMap DeriveArg.tokens ++ [closer]) lex' →
      argsLoop .assertions fuel lex = .ok ((), lex') := by
  induction args with
  | nil =>
    intro fuel lex enough read
    obtain ⟨fuel, rfl⟩ := Nat.exists_eq_succ_of_ne_zero (Nat.ne_of_gt (Nat.zero_lt_of_lt enough))
    have read' : Reads lex [closer] lex' := read
    rw [argsLoop, Exec.bind_ok (nextToken_run read'), Exec.bind_ok (Exec.get_apply lex'), if_neg]
    · rfl
    · rw [read'.token, Token.code_char]
      exact ends
  | cons a args ih =>
    intro fuel lex enough read
    obtain ⟨fuel, rfl⟩ := Nat.exists_eq_succ_of_ne_zero (Nat.ne_of_gt (Nat.zero_lt_of_lt enough))
    rw [List.flatMap_cons, List.append_assoc] at read
    obtain ⟨lex1, read1, rest⟩ := read.cons
    obtain ⟨lex2, read2, read3⟩ := rest.split
    rw [argsLoop, Exec.bind_ok (nextToken_run read1), Exec.bind_ok (Exec.get_apply lex1), if_pos,
      Exec.bind_ok (parseArgs_run read2), ih (by simpa using enough) read3]
    rw [read1.token]
    rfl

/-- Every argument has tokens of its own, so the fuel covers them. -/
theorem length_args_le (args : List DeriveArg) :
    args.length ≤ (args.flatMap DeriveArg.tokens).length := by
  induction args with
  | nil => simp
  | cons a args ih =>
    simp only [List.flatMap_cons, List.length_append, List.length_cons, DeriveArg.tokens]
    omega

theorem parseDeriveItem_run {d : DeriveTail} {g : DerivedStruct → C StbLexer α} (ok : d.Ok [t])
    (read : Reads lex (d.tokens ++ [t]) lex') :
    (do
      let v ← Values.parseDeriveItem .assertions v
      nextPastSemicolon .assertions
      g v) lex = g { v with handlers := v.handlers ++ [d.handler.text] } lex' := by
  obtain ⟨handler, args, closer, semi⟩ := d
  have tokens : DeriveTail.tokens ⟨handler, args, closer, semi⟩ ++ [t] =
      .id handler :: ((args.flatMap DeriveArg.tokens ++ [closer]) ++
        ((if semi then [.char semicolon] else []) ++ [t])) := by
    simp [DeriveTail.tokens]
  rw [tokens] at read
  obtain ⟨lex1, read1, rest⟩ := read.cons
  obtain ⟨lex2, read2, rest⟩ := rest.split
  have text : cString lex1.string = handler.text := by
    rw [read1.string]
    exact cString_of_no_nul handler.no_nul
  have enough : args.length < loopFuel lex1 := by
    have size := read2.length
    have tokens := length_args_le args
    rw [List.length_append] at size
    unfold loopFuel
    omega
  have item : Values.parseDeriveItem .assertions v lex =
      .ok ({ v with handlers := v.handlers ++ [handler.text] }, lex2) := by
    rw [Values.parseDeriveItem, Exec.bind_ok (expectId_run read1), Exec.bind_ok (Exec.get_apply lex1),
      Exec.bind_ok (argsLoop_run ok.closer args enough read2), text]
    rfl
  have past : nextPastSemicolon .assertions lex2 = .ok ((), lex') := by
    cases semi with
    | true =>
      obtain ⟨lex3, read3, read4⟩ := rest.cons
      rw [nextPastSemicolon, Exec.bind_ok (nextToken_run read3), Exec.bind_ok (Exec.get_apply lex3),
        if_pos, nextToken_run read4]
      rw [read3.token]
      rfl
    | false =>
      have read3 : Reads lex2 [t] lex' := rest
      rw [nextPastSemicolon, Exec.bind_ok (nextToken_run read3), Exec.bind_ok (Exec.get_apply lex'), if_neg]
      · rfl
      · rw [read3.token, Token.code_char]
        intro same
        exact ok.semi rfl (by rw [same]; rfl)
  rw [Exec.bind_ok item, Exec.bind_ok past]

/-! ## The derive loop -/

theorem tryParseDerive_stop (current : Current lex z) (other : z ≠ .id Macro.derives.word) :
    Values.tryParseDerive .assertions v lex = .ok ((0, v), lex) := by
  have word := current.word_iff Macro.derives.word
  rw [Values.tryParseDerive, Exec.bind_ok (Exec.get_apply lex), if_pos]
  · rfl
  · by_contra both
    rw [not_or, not_not, not_not] at both
    exact other (word.mp both)

theorem tryParseDerive_otherName {other : Ident} (current : Current lex (.id Macro.derives.word))
    (named : v.structName = name.text) (differs : other ≠ name)
    (read : Reads lex [.char lparen, .id other] lex') :
    Values.tryParseDerive .assertions v lex = .ok ((-1, v), lex') := by
  obtain ⟨token, text⟩ := (current.word_iff Macro.derives.word).mpr rfl
  obtain ⟨lex1, read1, read2⟩ := read.cons
  have found : lex'.string = other.text := by
    rw [read2.string]
    rfl
  have mismatch : ¬ strEq (cString v.structName) lex'.string = true := by
    rw [named, cString_of_no_nul name.no_nul, found, Ident.strEq_iff]
    exact Ne.symm differs
  rw [Values.tryParseDerive, Exec.bind_ok (Exec.get_apply lex), if_neg,
    Exec.bind_ok (expectChar_run read1), Exec.bind_ok (expectId_run read2),
    Exec.bind_ok (Exec.get_apply lex'), if_pos mismatch]
  · rfl
  · rintro (no | no)
    · exact no token
    · exact no text

theorem tryParseDerive_derive {d : DeriveTail} (current : Current lex (.id Macro.derives.word))
    (named : v.structName = name.text) (ok : d.Ok [t])
    (read : Reads lex (.char lparen :: .id name :: .char comma :: (d.tokens ++ [t])) lex') :
    Values.tryParseDerive .assertions v lex =
      .ok ((1, { v with handlers := v.handlers ++ [d.handler.text] }), lex') := by
  obtain ⟨token, text⟩ := (current.word_iff Macro.derives.word).mpr rfl
  obtain ⟨lex1, read1, read⟩ := read.cons
  obtain ⟨lex2, read2, read⟩ := read.cons
  obtain ⟨lex3, read3, read4⟩ := read.cons
  have found : lex2.string = name.text := by
    rw [read2.string]
    rfl
  have matching : ¬ ¬ strEq (cString v.structName) lex2.string = true := by
    rw [named, cString_of_no_nul name.no_nul, found, not_not, Ident.strEq_iff]
  rw [Values.tryParseDerive, Exec.bind_ok (Exec.get_apply lex), if_neg,
    Exec.bind_ok (expectChar_run read1), Exec.bind_ok (expectId_run read2),
    Exec.bind_ok (Exec.get_apply lex2), if_neg matching, Exec.bind_ok (expectChar_run read3),
    parseDeriveItem_run ok read4]
  · rfl
  · rintro (no | no)
    · exact no token
    · exact no text

theorem deriveLoop_run (ps : List Piece) :
    ∀ {fuel : Nat} {lex : StbLexer} {v : DerivedStruct} {z : Token} {ts : List Token},
      ps.length < fuel → Current lex z → v.structName = name.text →
      z :: ts = ps.flatMap (Piece.tokens name) ++ [t] → Reads lex ts lex' →
      PiecesOk name [t] v.handlers.length ps →
      Values.deriveLoop .assertions fuel v lex =
        .ok ({ v with handlers := v.handlers ++ ps.filterMap Piece.handler? }, lex') := by
  induction ps with
  | nil =>
    intro fuel lex v z ts enough current named tokens read ok
    obtain ⟨fuel, rfl⟩ := Nat.exists_eq_succ_of_ne_zero (Nat.ne_of_gt (Nat.zero_lt_of_lt enough))
    simp only [List.flatMap_nil, List.nil_append, List.cons.injEq] at tokens
    obtain ⟨rfl, rfl⟩ := tokens
    obtain rfl : lex = lex' := (Reads.refl lex).unique read
    simp only [List.filterMap_nil, List.append_nil]
    rw [Values.deriveLoop]
    by_cases room : v.handlers.length < moeProcMacroMaxDeriveItemNum
    · have other : z ≠ .id Macro.derives.word := fun same => ok room (by rw [same]; rfl)
      rw [if_pos room, Exec.bind_ok (tryParseDerive_stop current other)]
      rfl
    · rw [if_neg room]
      rfl
  | cons p ps ih =>
    intro fuel lex v z ts enough current named tokens read ok
    obtain ⟨fuel, rfl⟩ := Nat.exists_eq_succ_of_ne_zero (Nat.ne_of_gt (Nat.zero_lt_of_lt enough))
    have enough' : ps.length < fuel := by simpa using enough
    -- the token after this piece begins the rest
    obtain ⟨y, us, next⟩ : ∃ y us, ps.flatMap (Piece.tokens name) ++ [t] = y :: us :=
      List.exists_cons_of_ne_nil (by simp)
    rw [List.flatMap_cons, List.append_assoc, next] at tokens
    cases p with
    | otherName =>
      obtain ⟨room, ⟨other, r, head, differs⟩, rest⟩ := ok
      rw [next, List.cons.injEq] at head
      obtain ⟨rfl, rfl⟩ := head
      simp only [Piece.tokens, List.cons_append, List.nil_append, List.cons.injEq] at tokens
      obtain ⟨rfl, rfl⟩ := tokens
      have read' : Reads lex ([.char lparen, .id other] ++ us) lex' := read
      obtain ⟨lex1, read1, read2⟩ := read'.split
      have read1' : Reads lex ([.char lparen] ++ [.id other]) lex1 := read1
      rw [Values.deriveLoop, if_pos room,
        Exec.bind_ok (tryParseDerive_otherName current named differs read1)]
      exact ih enough' read1'.current named next.symm read2 rest
    | derive d =>
      obtain ⟨room, ends, rest⟩ := ok
      rw [next] at ends
      simp only [Piece.tokens, List.cons_append, List.cons.injEq] at tokens
      obtain ⟨rfl, rfl⟩ := tokens
      have read' : Reads lex ((.char lparen :: .id name :: .char comma :: (d.tokens ++ [y])) ++ us) lex' := by
        simpa using read
      obtain ⟨lex1, read1, read2⟩ := read'.split
      have read1' : Reads lex ((.char lparen :: .id name :: .char comma :: d.tokens) ++ [y]) lex1 := read1
      have ends' : d.Ok [y] := ⟨ends.closer, ends.semi⟩
      rw [Values.deriveLoop, if_pos room, Exec.bind_ok (tryParseDerive_derive current named ends' read1)]
      have later := ih (v := { v with handlers := v.handlers ++ [d.handler.text] }) enough' read1'.current
        named next.symm read2 (by simpa using rest)
      rw [List.append_assoc] at later
      exact later

/-! ## The struct body -/

theorem bodyLoop_run (body : List Token) :
    ∀ {fuel : Nat} {lex : StbLexer} {v : DerivedStruct}, body.length < fuel → .char rbrace ∉ body →
      Reads lex (body ++ [.char rbrace]) lex' →
      Values.bodyLoop .assertions fuel v lex =
        .ok ({ v with metadata := v.metadata ++ body.map Token.value }, lex') := by
  induction body with
  | nil =>
    intro fuel lex v enough clean read
    obtain ⟨fuel, rfl⟩ := Nat.exists_eq_succ_of_ne_zero (Nat.ne_of_gt (Nat.zero_lt_of_lt enough))
    have read' : Reads lex [.char rbrace] lex' := read
    rw [Values.bodyLoop, Exec.bind_ok (nextToken_run read'), Exec.bind_ok (Exec.get_apply lex'), if_pos]
    · simp
    · rw [read'.token]
      rfl
  | cons t body ih =>
    intro fuel lex v enough clean read
    obtain ⟨fuel, rfl⟩ := Nat.exists_eq_succ_of_ne_zero (Nat.ne_of_gt (Nat.zero_lt_of_lt enough))
    obtain ⟨lex1, read1, rest⟩ := read.cons
    have later := ih (v := { v with metadata := v.metadata ++ [t.value] }) (by simpa using enough)
      (fun mem => clean (List.mem_cons_of_mem _ mem)) rest
    rw [List.append_assoc] at later
    rw [Values.bodyLoop, Exec.bind_ok (nextToken_run read1), Exec.bind_ok (Exec.get_apply lex1), if_neg,
      Exec.bind_ok (bodyToken_fetched read1 lex1)]
    · exact later
    · rw [read1.token, Token.code_char]
      intro same
      exact clean (by simp [same])

theorem declarationEnd_run {typeName : Option Ident}
    (read : Reads lex (typeName.toList.map Token.id ++ [.char semicolon]) lex') :
    declarationEnd .assertions typeName.isSome lex = .ok ((), lex') := by
  cases typeName with
  | none => exact expectChar_run read
  | some n =>
    obtain ⟨lex1, read1, read2⟩ := read.cons
    rw [declarationEnd]
    exact (Exec.bind_ok (expectId_run read1)).trans (expectChar_run read2)

theorem parseDeclaration_run {d : Declaration} {isTypedef : Bool} {y : Token} {ts : List Token}
    (current : Current lex y) (named : v.structName = name.text) (ok : d.Ok name isTypedef)
    (tokens : y :: ts = d.tokens name) (read : Reads lex ts lex') :
    Values.parseDeclaration .assertions v isTypedef lex = .ok (d.outcome v, lex') := by
  have keyword := current.keyword_iff
  rw [Values.parseDeclaration, Exec.bind_ok (Exec.get_apply lex)]
  cases d with
  | undeclared t =>
    simp only [Declaration.tokens, List.cons.injEq] at tokens
    obtain ⟨rfl, rfl⟩ := tokens
    obtain rfl : lex = lex' := (Reads.refl lex).unique read
    rw [if_pos]
    · rfl
    · by_contra found
      obtain ⟨k, word⟩ := keyword.mp found
      exact ok k word
  | otherName k found =>
    simp only [Declaration.tokens, List.cons.injEq] at tokens
    obtain ⟨rfl, rfl⟩ := tokens
    have text : lex'.string = found.text := by
      rw [read.string]
      rfl
    rw [if_neg (keyword.mpr ⟨k, rfl⟩), Exec.bind_ok (expectId_run read), Exec.bind_ok (Exec.get_apply lex'),
      if_pos]
    · rfl
    · rw [named, cString_of_no_nul name.no_nul, text, Ident.strEq_iff]
      exact Ne.symm ok
  | defined k body typeName =>
    simp only [Declaration.tokens, List.cons.injEq] at tokens
    obtain ⟨rfl, rfl⟩ := tokens
    obtain ⟨clean, rfl⟩ := ok
    obtain ⟨lex1, read1, rest⟩ := read.cons
    obtain ⟨lex2, read2, rest⟩ := rest.cons
    have rest' : Reads lex2 ((body ++ [.char rbrace]) ++
        (typeName.toList.map Token.id ++ [.char semicolon])) lex' := by
      simpa using rest
    obtain ⟨lex3, read3, read4⟩ := rest'.split
    have text : lex1.string = name.text := by
      rw [read1.string]
      rfl
    have enough : body.length < loopFuel lex2 := by
      have size := read3.length
      rw [List.length_append] at size
      unfold loopFuel
      omega
    rw [if_neg (keyword.mpr ⟨k, rfl⟩), Exec.bind_ok (expectId_run read1),
      Exec.bind_ok (Exec.get_apply lex1), if_neg, Exec.bind_ok (expectChar_run read2),
      Exec.bind_ok (Exec.get_apply lex2), Exec.bind_ok (bodyLoop_run body enough clean read3),
      Exec.bind_ok (declarationEnd_run read4)]
    · rfl
    · rw [named, cString_of_no_nul name.no_nul, text, not_not, Ident.strEq_iff]

theorem tryParseDerivedStructBody_run {e : Ending} {ts : List Token} (current : Current lex z)
    (named : v.structName = name.text) (ok : e.declaration.Ok name e.typedef?.isSome)
    (typedef : e.typedef?.isSome = strEq lex.string (bytesOf "typedef"))
    (tokens : z :: ts = e.tokens name) (read : Reads lex ts lex') :
    Values.tryParseDerivedStructBody .assertions v lex = .ok (e.declaration.outcome v, lex') := by
  obtain ⟨typedef?, d⟩ := e
  cases typedef? with
  | none =>
    have plain : typedefKeyword .assertions lex = .ok (false, lex) := by
      rw [typedefKeyword, Exec.bind_ok (Exec.get_apply lex), if_neg (by simp [← typedef])]
      rfl
    rw [Values.tryParseDerivedStructBody, Exec.bind_ok plain]
    exact parseDeclaration_run current named ok tokens read
  | some z' =>
    simp only [Ending.tokens, Option.toList_some, List.cons_append, List.nil_append,
      List.cons.injEq] at tokens
    obtain ⟨rfl, rfl⟩ := tokens
    obtain ⟨w, us, next⟩ : ∃ w us, d.tokens name = w :: us :=
      List.exists_cons_of_ne_nil (by cases d <;> simp [Declaration.tokens])
    rw [next] at read
    obtain ⟨lex1, read1, read2⟩ := read.cons
    have here : typedefKeyword .assertions lex = .ok (true, lex1) := by
      rw [typedefKeyword, Exec.bind_ok (Exec.get_apply lex), if_pos (by simp [← typedef]),
        Exec.bind_ok (nextToken_run read1)]
      rfl
    have read1' : Reads lex ([] ++ [w]) lex1 := read1
    rw [Values.tryParseDerivedStructBody, Exec.bind_ok here]
    exact parseDeclaration_run read1'.current named ok next.symm read2

/-! ## The whole call -/

theorem length_pieces_le (ps : List Piece) :
    ps.length ≤ (ps.flatMap (Piece.tokens name)).length := by
  induction ps with
  | nil => simp
  | cons p ps ih =>
    cases p <;>
      · simp only [List.flatMap_cons, List.length_append, List.length_cons, Piece.tokens]
        omega

theorem Ending.tokens_ne_nil (e : Ending) : e.tokens name ≠ [] := by
  obtain ⟨typedef?, d⟩ := e
  cases d <;> simp [Ending.tokens, Declaration.tokens]

theorem parseDerivedStruct_run {m : Macro} {e : Extent} (ok : e.Ok m)
    (current : Current lex (.id m.word)) (read : Reads lex e.tokens lex') :
    Values.parseDerivedStruct .assertions lex = .ok (e.result, lex') := by
  have start : lex.string = m.word.text := current.string _ rfl
  have id : lex.token = clexId := current.token
  obtain ⟨name, first, pieces, ending⟩ := e
  obtain ⟨okFirst, okPieces, okEnding⟩ := ok
  simp only at okFirst okPieces okEnding
  -- `z` is the current token after the derives, `y` the one after the first of them
  obtain ⟨z, us, endTokens⟩ : ∃ z us, ending.tokens name = z :: us :=
    List.exists_cons_of_ne_nil ending.tokens_ne_nil
  obtain ⟨y, ts, pieceTokens⟩ : ∃ y ts, pieces.flatMap (Piece.tokens name) ++ [z] = y :: ts :=
    List.exists_cons_of_ne_nil (by simp)
  have tokens : Extent.tokens ⟨name, first, pieces, ending⟩ =
      .char lparen :: .id name :: .char comma :: ((first.tokens ++ [y]) ++ (ts ++ us)) := by
    have split : pieces.flatMap (Piece.tokens name) ++ z :: us = y :: (ts ++ us) := by
      rw [List.append_cons, pieceTokens, List.cons_append]
    simp only [Extent.tokens, Extent.derives, List.cons_append, List.append_assoc, endTokens, split]
    simp
  rw [tokens] at read
  obtain ⟨lex1, read1, rest⟩ := read.cons
  obtain ⟨lex2, read2, rest⟩ := rest.cons
  obtain ⟨lex3, read3, rest⟩ := rest.cons
  obtain ⟨lex4, read4, rest⟩ := rest.split
  obtain ⟨lex5, read5, read6⟩ := rest.split
  have text : cString lex2.string = name.text := by
    rw [read2.string]
    exact cString_of_no_nul name.no_nul
  have ok4 : first.Ok [y] := by
    apply okFirst.congr
    rw [endTokens, List.append_cons, pieceTokens]
    rfl
  have ok5 : PiecesOk name [z] 1 pieces := okPieces.congr (by rw [endTokens]; rfl)
  have derives : Reads lex (Extent.derives ⟨name, first, pieces, ending⟩ ++ [z]) lex5 := by
    have opening := read1.trans (read2.trans read3)
    have rest := read4.trans read5
    rw [List.append_assoc, List.singleton_append, ← pieceTokens] at rest
    simpa [Extent.derives] using opening.trans rest
  have typedef := okEnding.typedef
  rw [endTokens, ← start] at typedef
  have typedef' : ending.typedef?.isSome = strEq lex5.string (bytesOf "typedef") := by
    rw [typedef, derives.string, lastText_append]
    rfl
  have enough : pieces.length < loopFuel lex4 := by
    have size := read5.length
    have some_ : pieces.length ≤ (pieces.flatMap (Piece.tokens name)).length := length_pieces_le pieces
    have count := congrArg List.length pieceTokens
    simp only [List.length_append, List.length_cons, List.length_nil] at count
    unfold loopFuel
    omega
  have firstRun : Values.parseFirstDerive .assertions lex =
      .ok (⟨name.text, [first.handler.text], []⟩, lex4) := by
    rw [Values.parseFirstDerive, Exec.bind_ok (expectChar_run read1), Exec.bind_ok (expectId_run read2),
      Exec.bind_ok (Exec.get_apply lex2), Exec.bind_ok (expectChar_run read3), parseDeriveItem_run ok4 read4,
      text]
    rfl
  have loopRun := deriveLoop_run (v := ⟨name.text, [first.handler.text], []⟩) pieces enough read4.current rfl
    pieceTokens.symm read5 ok5
  have bodyRun := tryParseDerivedStructBody_run
    (v := ⟨name.text, [first.handler.text] ++ pieces.filterMap Piece.handler?, []⟩) derives.current rfl
    okEnding.declaration typedef' endTokens.symm read6
  rw [Values.parseDerivedStruct, Exec.bind_ok (Exec.get_apply lex), if_neg (not_not.mpr id), if_neg current.isMacro,
    Exec.bind_ok firstRun, Exec.bind_ok (Exec.get_apply lex4), Exec.bind_ok loopRun, Exec.bind_ok bodyRun]
  obtain ⟨typedef?, d⟩ := ending
  cases d with
  | undeclared t => rfl
  | otherName k found => rfl
  | defined k body typeName => rfl

end Runs

end MoeToolchain
