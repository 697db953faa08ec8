import MoeToolchain.ProcMacro.Files

/-!
# The build without assertions

`moe_next_token` is an assertion, so a build with `NDEBUG` never advances inside the
parser: a call on a macro name reads that name as the struct, as every handler and as the
token after the derives, finds no keyword there and returns `NULL`
(`parseDerivedStruct_ndebug`). Only the loop of `main` fetches tokens.

`ndebug_agrees_iff` compares the two builds on a file that the assertions let pass.
-/

namespace MoeToolchain
set_option autoImplicit false
open Lib

section Parser

variable {lex : StbLexer} {m : Macro} {v : DerivedStruct}

theorem argsLoop_ndebug {fuel : Nat} (other : lex.token ≠ comma) :
    argsLoop .ndebug (fuel + 1) lex = .ok ((), lex) := by
  rw [argsLoop, moeNextToken_ndebug, pure_bind, Exec.bind_ok (Exec.get_apply lex), if_neg other]
  rfl

theorem nextPastSemicolon_ndebug (other : lex.token ≠ semicolon) :
    nextPastSemicolon .ndebug lex = .ok ((), lex) := by
  rw [nextPastSemicolon, moeNextToken_ndebug, pure_bind, Exec.bind_ok (Exec.get_apply lex), if_neg other]
  rfl

theorem parseDeriveItem_ndebug (other : lex.token ≠ comma) (v : DerivedStruct) :
    Values.parseDeriveItem .ndebug v lex =
      .ok ({ v with handlers := v.handlers ++ [cString lex.string] }, lex) := by
  have args : argsLoop .ndebug (loopFuel lex) lex = .ok ((), lex) := argsLoop_ndebug other
  rw [Values.parseDeriveItem, moeExpectNextToken_ndebug, pure_bind, Exec.bind_ok (Exec.get_apply lex),
    Exec.bind_ok args]
  rfl

/-- The macro name is taken for another derive of the struct that it also names. -/
theorem tryParseDerive_ndebug (current : Current lex (.id m.word)) (named : v.structName = m.word.text) :
    ∃ ret v', Values.tryParseDerive .ndebug v lex = .ok ((ret, v'), lex) ∧ v'.structName = v.structName ∧
      (ret = 0 ∨ ret = 1 ∧ v'.handlers.length = v.handlers.length + 1) := by
  have token : lex.token = clexId := current.token
  have text : lex.string = m.word.text := current.string _ rfl
  unfold Values.tryParseDerive
  rw [Exec.bind_ok (Exec.get_apply lex)]
  by_cases derives : lex.token ≠ clexId ∨ ¬ strEq lex.string moeProcMacroDerivesMacroName
  · rw [if_pos derives]
    exact ⟨0, v, rfl, rfl, .inl rfl⟩
  · have same : ¬ ¬ strEq (cString v.structName) lex.string = true := by
      rw [named, text, cString_text]
      exact not_not.mpr ((Ident.strEq_iff _ _).mpr rfl)
    have item := @parseDeriveItem_ndebug lex (by rw [token]; decide) v
    have next := @nextPastSemicolon_ndebug lex (by rw [token]; decide)
    rw [if_neg derives, moeExpectNextToken_ndebug, pure_bind, moeExpectNextToken_ndebug, pure_bind,
      Exec.bind_ok (Exec.get_apply lex), if_neg same, moeExpectNextToken_ndebug, pure_bind,
      Exec.bind_ok item, Exec.bind_ok next]
    exact ⟨1, _, rfl, rfl, .inr ⟨rfl, by simp⟩⟩

theorem deriveLoop_ndebug (current : Current lex (.id m.word)) (fuel : Nat) : ∀ {v : DerivedStruct},
    v.structName = m.word.text → moeProcMacroMaxDeriveItemNum - v.handlers.length < fuel →
    ∃ v', Values.deriveLoop .ndebug fuel v lex = .ok (v', lex) := by
  induction fuel with
  | zero =>
    intro v named enough
    omega
  | succ fuel ih =>
    intro v named enough
    unfold Values.deriveLoop
    by_cases room : v.handlers.length < moeProcMacroMaxDeriveItemNum
    · obtain ⟨ret, v', turn, name, stop | ⟨one, count⟩⟩ := tryParseDerive_ndebug current named
      · subst stop
        rw [if_pos room, Exec.bind_ok turn]
        exact ⟨v', rfl⟩
      · subst one
        rw [if_pos room, Exec.bind_ok turn]
        exact ih (name.trans named) (by omega)
    · rw [if_neg room]
      exact ⟨v, rfl⟩

theorem tryParseDerivedStructBody_ndebug (current : Current lex (.id m.word)) :
    Values.tryParseDerivedStructBody .ndebug v lex = .ok ((0, v), lex) := by
  have text : lex.string = m.word.text := current.string _ rfl
  have keyword : typedefKeyword .ndebug lex = .ok (false, lex) := by
    have other : ¬ strEq lex.string (bytesOf "typedef") = true := by
      rw [text, typedef_strEq]
      exact m.word_ne_typedef
    rw [typedefKeyword, Exec.bind_ok (Exec.get_apply lex), if_neg other]
    rfl
  have other : ∀ k : Keyword, ¬ strEq lex.string k.word.text = true := by
    intro k
    rw [text, Ident.strEq_iff]
    exact m.word_ne_keyword k
  rw [Values.tryParseDerivedStructBody, Exec.bind_ok keyword, Values.parseDeclaration,
    Exec.bind_ok (Exec.get_apply lex), if_pos (.inr ⟨other .struct, other .enum⟩)]
  rfl

/-- Without assertions a call reads no token and returns `NULL`. -/
theorem parseDerivedStruct_ndebug (lex : StbLexer) (t : Token) (rest : List Token) :
    Values.parseDerivedStruct .ndebug (lex.fetched t rest) = .ok (none, lex.fetched t rest) := by
  have current := fetched_current lex t rest
  by_cases isMacro : ∃ m : Macro, t = .id m.word
  · obtain ⟨m, rfl⟩ := isMacro
    generalize lex.fetched (.id m.word) rest = lex at current
    have token : lex.token = clexId := current.token
    have text : lex.string = m.word.text := current.string _ rfl
    have first : Values.parseFirstDerive .ndebug lex = .ok (⟨m.word.text, [m.word.text], []⟩, lex) := by
      have item := @parseDeriveItem_ndebug lex (by rw [token]; decide) ⟨cString lex.string, [], []⟩
      have next := @nextPastSemicolon_ndebug lex (by rw [token]; decide)
      rw [Values.parseFirstDerive, moeExpectNextToken_ndebug, pure_bind, moeExpectNextToken_ndebug,
        pure_bind, Exec.bind_ok (Exec.get_apply lex), moeExpectNextToken_ndebug, pure_bind,
        Exec.bind_ok item, Exec.bind_ok next, text, cString_text]
      rfl
    obtain ⟨v, loop⟩ := deriveLoop_ndebug current (loopFuel lex) (v := ⟨m.word.text, [m.word.text], []⟩) rfl
      (by simp only [loopFuel, List.length_singleton]; omega)
    unfold Values.parseDerivedStruct
    rw [Exec.bind_ok (Exec.get_apply lex), if_neg (not_not.mpr token), if_neg current.isMacro,
      Exec.bind_ok first, Exec.bind_ok (Exec.get_apply lex), Exec.bind_ok loop,
      Exec.bind_ok (tryParseDerivedStructBody_ndebug current)]
    rfl
  · rw [not_exists] at isMacro
    exact parseDerivedStruct_none .ndebug current isMacro

end Parser

/-! ## The loop -/

/-- The lexer when every token up to the end or the first parse error was fetched. -/
def StbLexer.toEnd (lex : StbLexer) : List Token → StbLexer
  | [] => { lex with token := clexEof }
  | t :: ts => if t.isError then lex.fetched t ts else (lex.fetched t ts).toEnd ts

/-- Without assertions the loop visits every token and obtains no struct. -/
theorem tokenLoop_ndebug (fuel : Nat) : ∀ {lex : StbLexer} {calls : List Call}, lex.rest.length < fuel →
    ∃ new, (∀ c ∈ new, c.result = none) ∧
      Values.tokenLoop .ndebug Values.recordCall fuel (lex, calls) =
        .ok ((), lex.toEnd lex.rest, calls ++ new) := by
  induction fuel with
  | zero =>
    intro lex calls enough
    omega
  | succ fuel ih =>
    intro lex calls enough
    cases next : lex.rest with
    | nil => exact ⟨[], by simp, by rw [tokenLoop_end next, List.append_nil]; rfl⟩
    | cons t r =>
      rw [next, List.length_cons] at enough
      cases lexed : t.isError with
      | true =>
        refine ⟨[], by simp, ?_⟩
        rw [tokenLoop_parseError next lexed, List.append_nil, StbLexer.toEnd, if_pos lexed]
      | false =>
        obtain ⟨new, none_, run⟩ := @ih (lex.fetched t r)
          (calls ++ [⟨lex.fetched t r, none, lex.fetched t r⟩]) (Nat.lt_of_succ_lt_succ enough)
        refine ⟨⟨lex.fetched t r, none, lex.fetched t r⟩ :: new, List.forall_mem_cons.mpr ⟨rfl, none_⟩, ?_⟩
        rw [tokenLoop_call next lexed (parseDerivedStruct_ndebug lex t r), StbLexer.toEnd, if_neg (by simp [lexed])]
        simpa using run

theorem StbLexer.toEnd_append {us r : List Token} (clean : Lexed us) : ∀ (lex : StbLexer),
    lex.toEnd (us ++ r) = (lex.after us r).toEnd r := by
  induction us with
  | nil =>
    intro lex
    rfl
  | cons t us ih =>
    intro lex
    rw [lexed_cons] at clean
    rw [List.cons_append, toEnd, if_neg (by simp [clean.1]), ih clean.2]
    rfl

/-- After a parse error no more is fetched. -/
theorem StbLexer.toEnd_parseError {us r : List Token} (found : ¬ Lexed us) : ∀ (lex : StbLexer),
    (lex.toEnd (us ++ r)).token = clexParseError ∧ r.length ≤ (lex.toEnd (us ++ r)).rest.length := by
  induction us with
  | nil => exact absurd lexed_nil found
  | cons t us ih =>
    intro lex
    cases here : t.isError with
    | true =>
      rw [List.cons_append, toEnd, if_pos here]
      exact ⟨(Token.code_parseError t).mpr here, by rw [StbLexer.fetched_rest, List.length_append]; omega⟩
    | false =>
      rw [List.cons_append, toEnd, if_neg (by simp [here])]
      refine ih (fun clean => found ?_) _
      exact (lexed_cons t us).mpr ⟨here, clean⟩

/-- The loop ends at the end of the tokens or behind a parse error. -/
theorem LoopRun.ends {lex lex' : StbLexer} {calls : List Call} (run : LoopRun .assertions lex calls lex') :
    lex'.token = clexEof ∨ lex'.rest.length < lex.rest.length := by
  induction run with
  | done => exact .inl rfl
  | stopped next =>
    rw [next]
    exact .inr (Nat.lt_succ_self _)
  | @call lex lex1 lex' t r v calls next lexed run rest ih =>
    obtain ⟨s, -, whole⟩ := parseDerivedStruct_consumes lexed run
    have onward : lex1.rest.length ≤ lex.rest.length := by
      rw [next, whole, List.length_append]
      omega
    obtain ended | less := ih
    · exact .inl ended
    · exact .inr (by omega)

/-! ## The two builds on one file -/

/-- No call of the loop on these tokens finds a definition, or a parse error in its extent. -/
def Bare (ts : List Token) : Prop :=
  ∀ (pre : List Token) (m : Macro) (e : Extent) (r : List Token), Segmented pre → e.Ok m →
    ts = pre ++ (.id m.word :: (e.tokens ++ r)) → e.result = none ∧ Lexed e.tokens

theorem Bare.rest {s ts : List Token} (bare : Bare (s ++ ts)) (segment : Segment s) : Bare ts := by
  intro pre m e r segmented ok same
  exact bare (s ++ pre) m e r (.cons segment segmented) ok (by rw [same, List.append_assoc])

/-- On such tokens the loop with assertions visits the same tokens. -/
theorem LoopRun.bare {lex lex' : StbLexer} {calls : List Call} (run : LoopRun .assertions lex calls lex') :
    Bare lex.rest → lex' = lex.toEnd lex.rest ∧ ∀ c ∈ calls, c.result = none := by
  induction run with
  | @done lex done =>
    intro _
    have eof : { lex with token := clexEof } = lex.toEnd lex.rest := by
      cases lex
      cases done
      rfl
    exact ⟨eof, by simp⟩
  | stopped next error =>
    intro _
    rw [next, StbLexer.toEnd, if_pos error]
    exact ⟨rfl, by simp⟩
  | @call lex lex1 lex' t r v calls next lexed run rest ih =>
    intro bare
    rw [next] at bare ⊢
    -- the call returned nothing, and read on to where the other loop comes later
    have step : v = none ∧ Bare lex1.rest ∧ lex.toEnd (t :: r) = lex1.toEnd lex1.rest := by
      by_cases isMacro : ∃ m : Macro, t = .id m.word
      · obtain ⟨m, rfl⟩ := isMacro
        obtain ⟨e, ok, read, rfl⟩ := (parseDerivedStruct_wp (fetched_current lex _ r)).of_ok run
        have whole : r = e.tokens ++ lex1.rest := read.rest
        obtain ⟨nothing, clean⟩ := bare [] m e lex1.rest .nil ok (by rw [whole]; rfl)
        refine ⟨nothing, Bare.rest (s := .id m.word :: e.tokens) (by rwa [whole] at bare) (.extent m e ok), ?_⟩
        rw [StbLexer.toEnd, if_neg (by simp [lexed]), whole, StbLexer.toEnd_append clean, ← whole, ← read.state]
      · rw [not_exists] at isMacro
        rw [parseDerivedStruct_none .assertions (fetched_current lex t r) isMacro] at run
        cases run
        refine ⟨rfl, Bare.rest (s := [t]) bare (.plain t ⟨lexed, isMacro⟩), ?_⟩
        rw [StbLexer.toEnd, if_neg (by simp [lexed])]
        rfl
    obtain ⟨rfl, bare', onward⟩ := step
    obtain ⟨same, none_⟩ := ih bare'
    exact ⟨same.trans onward.symm, List.forall_mem_cons.mpr ⟨rfl, none_⟩⟩

/-- The structs obtained are the same, and the lexer ends in the same state. -/
def Agree (st : St) (calls : List Call) (st' : St) (calls' : List Call) : Prop :=
  calls.filterMap Call.found = calls'.filterMap Call.found ∧ st.lex = st'.lex

/-- On a file that the assertions let pass, the two builds agree exactly when there is no
definition to be found. -/
theorem ndebug_agrees_iff (lex : StbLexer) (mem : Mem) (st : St) (calls : List Call)
    (run : parseFile .assertions lex mem = .ok ((), st, calls)) :
    ∃ st' calls', parseFile .ndebug lex mem = .ok ((), st', calls') ∧
      (Agree st calls st' calls' ↔ Bare lex.rest) := by
  have values := parseFile_values run
  obtain ⟨new, none_, ndebug⟩ := @tokenLoop_ndebug (lex.rest.length + 1) lex []
    (Nat.lt_succ_self _)
  obtain ⟨mem', run', -⟩ := parseFile_spec ndebug mem
  refine ⟨_, _, run', ?_, ?_⟩
  · rintro ⟨found, same⟩ pre m e r segmented ok next
    rw [List.nil_append, found_none none_, List.filterMap_eq_nil_iff] at found
    obtain ⟨lex1, calls1, rest1, first⟩ := @loopReaches_segmented _ _ segmented _ [] next
    obtain ⟨lex2, rest2, -, second⟩ := @loopReaches_extent _ ([] ++ calls1) _ _ _ ok rest1
    obtain ⟨fuel, -, whole⟩ := (first.trans second).parseFile
    rw [values] at whole
    constructor
    · obtain ⟨later, all, -⟩ := tokenLoop_loopRun fuel whole.symm
      have called : (⟨lex1.fetched (.id m.word) (e.tokens ++ r), e.result.map Values.asRead, lex2⟩ : Call) ∈
          calls := by simp [all]
      have nothing := found _ called
      simpa [Call.found] using nothing
    · by_contra error
      have stopped := @StbLexer.toEnd_parseError (pre ++ .id m.word :: e.tokens) r
        (fun clean => error ((lexed_cons _ _).mp ((lexed_append _ _).mp clean).2).2) lex
      rw [List.append_assoc, List.cons_append, ← next, ← show st.lex = lex.toEnd lex.rest from same] at stopped
      obtain ⟨_, -, loop⟩ := tokenLoop_loopRun fuel whole.symm
      obtain ended | less := loop.ends
      · exact absurd (stopped.1.symm.trans ended) (by decide)
      · rw [rest2] at less
        omega
  · intro bare
    obtain ⟨new', rfl, loop⟩ := tokenLoop_loopRun _ values
    obtain ⟨same, none'⟩ := loop.bare bare
    have none_' : ∀ c ∈ [] ++ new, c.result = none := none_
    exact ⟨(found_none none').trans (found_none none_').symm, same⟩

/-- The theorem at the block of `B`. -/
theorem ndebug_agrees_iff_blockB :
    ∃ st calls, parseFile .assertions (.start blockB.tokens) Mem.empty = .ok ((), st, calls) ∧
      ∃ st' calls', parseFile .ndebug (.start blockB.tokens) Mem.empty = .ok ((), st', calls') ∧
        (Agree st calls st' calls' ↔ Bare blockB.tokens) := by
  obtain ⟨st, calls, run⟩ := @parseFile_isOk .assertions (.start blockB.tokens)
    (by decide +kernel) Mem.empty
  exact ⟨st, calls, run, ndebug_agrees_iff (.start blockB.tokens) Mem.empty st calls run⟩

/-- The block of `B` is found by the build with assertions only. -/
theorem ndebug_loses_blockB :
    ∃ st calls st' calls', parseFile .assertions (.start blockB.tokens) Mem.empty = .ok ((), st, calls) ∧
      parseFile .ndebug (.start blockB.tokens) Mem.empty = .ok ((), st', calls') ∧
      calls.filterMap Call.found = [(blockB.value, semicolon.val, [])] ∧
      calls'.filterMap Call.found = [] := by
  obtain ⟨st, calls, run⟩ := @parseFile_isOk .assertions (.start blockB.tokens)
    (by decide +kernel) Mem.empty
  obtain ⟨st', calls', run'⟩ := @parseFile_isOk .ndebug (.start blockB.tokens)
    (by decide +kernel) Mem.empty
  have found : (Values.parseFile .assertions (.start blockB.tokens)).toOption.map
      (fun r => r.2.2.filterMap Call.found) = some [(blockB.value, semicolon.val, [])] := by decide +kernel
  have found' : (Values.parseFile .ndebug (.start blockB.tokens)).toOption.map
      (fun r => r.2.2.filterMap Call.found) = some [] := by decide +kernel
  rw [parseFile_values run] at found
  rw [parseFile_values run'] at found'
  exact ⟨st, calls, st', calls', run, run', Option.some.inj found, Option.some.inj found'⟩

end MoeToolchain
