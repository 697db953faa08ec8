import MoeToolchain.ProcMacro.Main
import MoeToolchain.ProcMacro.StringStore

/-!
# The texts that lexical errors leave behind

What an error leaves in the string store is compared with `typedef` at most, and only
behind a derive macro. `SameTokens` are tokens with other such texts, where a comparison
comes out the same once the store has been written as far as `typedef` goes.

Main result:

* `loop_same`: the token loop does the same on such tokens.
-/

namespace MoeToolchain
set_option autoImplicit false
open Lib

/-- Its text fills the store as far as `typedef` and its NUL. -/
def Token.isLong : Token → Bool
  | .id name => decide (8 ≤ name.text.length)
  | _ => false

@[simp] theorem Token.isLong_parseError (text : Option Bytes) (value : Option Int) :
    (parseError text value).isLong = false := rfl

/-- The text is `typedef`. -/
def isTypedef (text : Bytes) : Bool := strEq text (bytesOf "typedef")

/-- The same tokens, but for the texts of errors; `known` says that a long text came before. -/
inductive SameTokens : Bool → List Token → List Token → Prop
  | nil {known : Bool} : SameTokens known [] []
  | same {known : Bool} {ts us : List Token} (t : Token) (rest : SameTokens (known || t.isLong) ts us) :
      SameTokens known (t :: ts) (t :: us)
  | error {known : Bool} {a b : Bytes} {ts us : List Token} (word : known = true → isTypedef b = isTypedef a)
      (rest : SameTokens known ts us) :
      SameTokens known (.parseError (some a) none :: ts) (.parseError (some b) none :: us)

theorem SameTokens.refl (ts : List Token) : ∀ known, SameTokens known ts ts := by
  induction ts with
  | nil => exact fun _ => .nil
  | cons t ts ih => exact fun _ => .same t (ih _)

theorem SameTokens.length_eq {known : Bool} {ts us : List Token} (same : SameTokens known ts us) :
    us.length = ts.length := by
  induction same with
  | nil => rfl
  | same t rest ih => rw [List.length_cons, List.length_cons, ih]
  | error word rest ih => rw [List.length_cons, List.length_cons, ih]

theorem SameTokens.append {known : Bool} {ts us ts' us' : List Token} (same : SameTokens known ts us)
    (later : SameTokens (known || ts.any Token.isLong) ts' us') : SameTokens known (ts ++ ts') (us ++ us') := by
  induction same with
  | nil => simpa using later
  | same t rest ih => exact .same t (ih (by rwa [List.any_cons, ← Bool.or_assoc] at later))
  | error word rest ih => exact .error word (ih (by rwa [List.any_cons, Token.isLong_parseError, Bool.false_or] at later))

/-- The lexer on such tokens. Without assertions the lexer does not move while a block is parsed, and its text is
the same throughout. -/
structure Close (fixed : Prop) (known : Bool) (lex lex' : StbLexer) : Prop where
  rest : SameTokens known lex.rest lex'.rest
  token : lex'.token = lex.token
  stringLen : lex'.stringLen = lex.stringLen
  intNumber : lex'.intNumber = lex.intNumber
  realNumber : lex'.realNumber = lex.realNumber
  string : fixed ∨ Stb.IsText lex.token → lex'.string = lex.string
  word : known = true → isTypedef lex'.string = isTypedef lex.string

section Fetch

variable {known : Bool} {lex lex' : StbLexer} {t t' : Token} {r r' : List Token}

/-- The next token is the same, or an error in both. -/
theorem Close.fetched {fixed : Prop} (close : Close fixed known lex lex') (tokens : SameTokens known (t :: r) (t' :: r')) :
    t'.code = t.code ∧ t'.isError = t.isError ∧
      Close False (known || t.isLong) (lex.fetched t r) (lex'.fetched t' r') := by
  cases tokens with
  | same _ rest =>
    refine ⟨rfl, rfl, rest, rfl, ?_, ?_, ?_, fun text => ?_, fun known' => ?_⟩
    · simp only [StbLexer.fetched, close.stringLen]
    · simp only [StbLexer.fetched, close.intNumber]
    · simp only [StbLexer.fetched, close.realNumber]
    · obtain ⟨-, b, hasText⟩ := Stb.isText_code (text.resolve_left id)
      rw [StbLexer.fetched_string, StbLexer.fetched_string, hasText]
      rfl
    · rw [StbLexer.fetched_string, StbLexer.fetched_string]
      cases hasText : t.text? with
      | some b => rfl
      | none =>
        have short : t.isLong = false := by
          cases t with
          | id name => cases hasText
          | _ => rfl
        rw [short, Bool.or_false] at known'
        exact close.word known'
  | @error _ a b _ _ word rest =>
    refine ⟨rfl, rfl, ?_, rfl, close.stringLen, close.intNumber, close.realNumber, fun text => ?_, fun known' => ?_⟩
    · rwa [Token.isLong_parseError, Bool.or_false]
    · exact absurd (text.resolve_left id) (show ¬ Stb.IsText clexParseError by decide)
    · rw [Token.isLong_parseError, Bool.or_false] at known'
      exact word known'

end Fetch

/-! ## The parser inside a block -/

section Block

variable {α β : Type} {build : Build} {lex lex' : StbLexer}

/-- What the parser has behind a derive macro. -/
abbrev Inside (build : Build) (lex lex' : StbLexer) : Prop := Close (build = .ndebug) true lex lex'

/-- The texts of errors do not matter to `x`. -/
def Insensitive (build : Build) (x : C StbLexer α) : Prop :=
  Refines (Inside build) x x fun a b lex lex' => a = b ∧ Inside build lex lex'

theorem Insensitive.pure (a : α) : Insensitive build (Pure.pure a : C StbLexer α) :=
  Refines.pure fun _ _ close => ⟨rfl, close⟩

theorem Insensitive.fault (e : Fault) : Insensitive build (Exec.fault e : C StbLexer α) := Refines.fault e

theorem Insensitive.bind {x : C StbLexer α} {f : α → C StbLexer β} (first : Insensitive build x)
    (rest : ∀ a, Insensitive build (f a)) : Insensitive build (x >>= f) := by
  refine Refines.bind first fun a b => ?_
  rintro s t ⟨rfl, close⟩
  exact rest a s t close

theorem Insensitive.ite {c : Prop} [Decidable c] {x y : C StbLexer α} (yes : Insensitive build x)
    (no : Insensitive build y) : Insensitive build (if c then x else y) := by
  split
  · exact yes
  · exact no

/-- What goes on from the lexer is the same from both. -/
theorem Insensitive.get {f : StbLexer → C StbLexer α} (same : ∀ lex lex', Inside build lex lex' → f lex' = f lex)
    (rest : ∀ lex, Insensitive build (f lex)) : Insensitive build (MonadState.get >>= f) := by
  intro s t close
  rw [Exec.bind_ok (Exec.get_apply s), Exec.bind_ok (Exec.get_apply t), same s t close]
  exact rest s s t close

theorem moeNextToken_same : Insensitive build (moeNextToken build) := by
  cases build with
  | ndebug => exact Insensitive.pure ()
  | assertions =>
    intro s t close
    have tokens := close.rest
    cases here : s.rest with
    | nil =>
      rw [here] at tokens
      cases there : t.rest with
      | nil =>
        simp only [moeNextToken, moeAssert, Exec.bind_ok (stbCLexerGetToken_end here),
          Exec.bind_ok (stbCLexerGetToken_end there)]
        rfl
      | cons u us =>
        rw [there] at tokens
        cases tokens
    | cons u us =>
      cases there : t.rest with
      | nil =>
        rw [here, there] at tokens
        cases tokens
      | cons u' us' =>
        rw [here, there] at tokens
        obtain ⟨-, -, next⟩ := close.fetched tokens
        rw [moeNextToken_run here, moeNextToken_run there]
        rw [Bool.true_or] at next
        refine ⟨(), _, rfl, rfl, { next with string := fun text => next.string (.inr (text.resolve_left ?_)) }⟩
        intro same
        cases same

theorem moeExpectNextToken_same (expected : Nat) : Insensitive build (moeExpectNextToken build expected) := by
  refine moeNextToken_same.bind fun _ => ?_
  cases build with
  | ndebug => exact Insensitive.pure ()
  | assertions =>
    have holds : Insensitive .assertions (do
        let lex ← get
        pure (lex.token == expected) : C StbLexer Bool) := .get (fun s t close => by rw [close.token]) fun s => .pure _
    exact holds.bind fun passed => .ite (.pure ()) (.fault _)

/-- Behind an identifier the text is the same. -/
theorem Insensitive.expectId {f : StbLexer → C StbLexer α}
    (same : ∀ lex lex', Inside build lex lex' → lex'.string = lex.string → f lex' = f lex)
    (rest : ∀ lex, Insensitive build (f lex)) :
    Insensitive build (moeExpectNextToken build clexId >>= fun _ => MonadState.get >>= f) := by
  have text : Refines (Inside build) (moeExpectNextToken build clexId) (moeExpectNextToken build clexId)
      fun _ _ lex lex' => Inside build lex lex' ∧ lex'.string = lex.string := by
    intro s t close
    have run := moeExpectNextToken_same clexId s t close
    cases there : moeExpectNextToken build clexId t with
    | error e =>
      rw [there] at run
      exact run
    | ok r =>
      rw [there] at run
      obtain ⟨_, s', here, -, close'⟩ := run
      refine ⟨_, s', here, close', ?_⟩
      cases build with
      | ndebug => exact close'.string (.inl rfl)
      | assertions =>
        obtain ⟨name, rest, -, rfl⟩ := moeExpectNextToken_id.mp here
        exact close'.string (.inr (.inl rfl))
  refine Refines.bind text fun _ _ => ?_
  rintro s t ⟨close, string⟩
  rw [Exec.bind_ok (Exec.get_apply s), Exec.bind_ok (Exec.get_apply t), same s t close string]
  exact rest s s t close

theorem argsLoop_same (fuel : Nat) : Insensitive build (argsLoop build fuel) := by
  have args : Insensitive build (parseArgs build) := by
    apply (moeExpectNextToken_same _).bind
    intro _
    apply (moeExpectNextToken_same _).bind
    intro _
    apply (moeExpectNextToken_same _).bind
    intro _
    apply (moeExpectNextToken_same _).bind
    intro _
    exact (moeExpectNextToken_same _).bind fun _ => moeExpectNextToken_same _
  induction fuel with
  | zero => exact .fault _
  | succ fuel ih =>
    refine moeNextToken_same.bind fun _ => ?_
    exact .get (fun s t close => by rw [close.token]) fun s => .ite (args.bind fun _ => ih) (.pure ())

theorem loopFuel_same (close : Inside build lex lex') : loopFuel lex' = loopFuel lex := by
  rw [loopFuel, loopFuel, close.rest.length_eq]

theorem parseDeriveItem_same (v : DerivedStruct) : Insensitive build (Values.parseDeriveItem build v) := by
  refine .expectId (fun s t close string => ?_) fun s => (argsLoop_same _).bind fun _ => .pure _
  rw [loopFuel_same close, string]

theorem nextPastSemicolon_same : Insensitive build (nextPastSemicolon build) := by
  refine moeNextToken_same.bind fun _ => ?_
  exact .get (fun s t close => by rw [close.token]) fun s => .ite moeNextToken_same (.pure ())

/-- An identifier has the same text. -/
theorem Close.id_string {fixed : Prop} {known : Bool} (close : Close fixed known lex lex') (isId : lex.token = clexId) :
    lex'.string = lex.string := close.string (.inr (.inl isId))

theorem tryParseDerive_same (v : DerivedStruct) : Insensitive build (Values.tryParseDerive build v) := by
  refine .get (fun s t close => ?_) fun s => .ite (.pure _) ?_
  · rw [close.token]
    by_cases isId : s.token = clexId
    · rw [close.id_string isId]
    · rw [if_pos (.inl isId), if_pos (.inl isId)]
  · apply (moeExpectNextToken_same _).bind
    intro _
    refine .expectId (fun s t close string => by rw [string]) fun s => .ite (.pure _) ?_
    apply (moeExpectNextToken_same _).bind
    intro _
    apply (parseDeriveItem_same v).bind
    intro _
    exact nextPastSemicolon_same.bind fun _ => .pure _

theorem deriveLoop_same (fuel : Nat) : ∀ v : DerivedStruct, Insensitive build (Values.deriveLoop build fuel v) := by
  induction fuel with
  | zero => exact fun _ => .fault _
  | succ fuel ih =>
    intro v
    exact .ite ((tryParseDerive_same v).bind fun r => .ite (ih _) (.ite (.pure _) (ih _))) (.pure _)

theorem bodyToken_same (close : Inside build lex lex') : Values.bodyToken lex' = Values.bodyToken lex := by
  unfold Values.bodyToken
  rw [close.token, close.stringLen, close.intNumber, close.realNumber]
  by_cases text : lex.token = clexId ∨ lex.token = clexSqstring ∨ lex.token = clexDqstring
  · rw [close.string (.inr text)]
  · rw [if_neg text, if_neg text]

theorem bodyToken_insensitive (lex : StbLexer) : Insensitive build (Values.bodyToken lex) := by
  unfold Values.bodyToken
  refine .ite ?_ (.ite (.pure _) (.ite (.pure _) (.pure _)))
  split
  · exact .fault _
  · exact .pure _

theorem bodyLoop_same (fuel : Nat) : ∀ v : DerivedStruct, Insensitive build (Values.bodyLoop build fuel v) := by
  induction fuel with
  | zero => exact fun _ => .fault _
  | succ fuel ih =>
    intro v
    refine moeNextToken_same.bind fun _ => .get (fun s t close => ?_) fun s =>
      .ite (.pure _) ((bodyToken_insensitive s).bind fun _ => ih _)
    rw [close.token, bodyToken_same close]

theorem declarationEnd_same (isTypedef : Bool) : Insensitive build (declarationEnd build isTypedef) :=
  (Insensitive.ite (moeExpectNextToken_same _) (.pure ())).bind fun _ => moeExpectNextToken_same _

theorem parseDeclaration_same (v : DerivedStruct) (isTypedef : Bool) :
    Insensitive build (Values.parseDeclaration build v isTypedef) := by
  refine .get (fun s t close => ?_) fun s => .ite (.pure _) ?_
  · rw [close.token]
    by_cases isId : s.token = clexId
    · rw [close.id_string isId]
    · rw [if_pos (.inl isId), if_pos (.inl isId)]
  · refine .expectId (fun s t close string => by rw [string]) fun s => .ite (.pure _) ?_
    apply (moeExpectNextToken_same _).bind
    intro _
    refine .get (fun s t close => by rw [loopFuel_same close]) fun s => ?_
    apply (bodyLoop_same _ v).bind
    intro _
    exact (declarationEnd_same isTypedef).bind fun _ => .pure _

theorem typedefKeyword_same : Insensitive build (typedefKeyword build) := by
  refine .get (fun s t close => ?_) fun s => .ite (moeNextToken_same.bind fun _ => .pure _) (.pure _)
  have word : strEq t.string (bytesOf "typedef") = strEq s.string (bytesOf "typedef") := close.word rfl
  rw [word]

theorem tryParseDerivedStructBody_same (v : DerivedStruct) : Insensitive build (Values.tryParseDerivedStructBody build v) :=
  typedefKeyword_same.bind fun _ => parseDeclaration_same v _

theorem parseFirstDerive_same : Insensitive build (Values.parseFirstDerive build) := by
  apply (moeExpectNextToken_same _).bind
  intro _
  refine .expectId (fun s t close string => by rw [string]) fun s => ?_
  apply (moeExpectNextToken_same _).bind
  intro _
  apply (parseDeriveItem_same _).bind
  intro _
  exact nextPastSemicolon_same.bind fun _ => .pure _

/-- The parser on a block, behind its macro. -/
theorem parseBlock_same : Insensitive build (do
    let v ← Values.parseFirstDerive build
    let lex ← get
    let v ← Values.deriveLoop build (loopFuel lex) v
    let (result, v) ← Values.tryParseDerivedStructBody build v
    if result = 0 ∨ result = -1 then pure none else pure (some v)) := by
  refine parseFirstDerive_same.bind fun v => .get (fun s t close => by rw [loopFuel_same close]) fun s => ?_
  exact (deriveLoop_same _ v).bind fun v => (tryParseDerivedStructBody_same v).bind fun r => .ite (.pure _) (.pure _)

end Block

/-! ## The token loop -/

section Loop

variable {ω : Type} {build : Build} {lex lex' : StbLexer}

/-- What the loop has between two calls. -/
def Between (lex lex' : StbLexer) : Prop :=
  ∃ known, Close False known lex lex' ∧ (lex.token = clexId → 8 ≤ lex.string.length → known = true)

theorem Close.between {fixed : Prop} (close : Close fixed true lex lex') : Between lex lex' :=
  ⟨true, { close with string := fun text => close.string (.inr (text.resolve_left id)) }, fun _ _ => rfl⟩

theorem long_of_strEq {a b : Bytes} (same : strEq a b = true) (long : 8 ≤ (cString b).length) : 8 ≤ a.length := by
  have equal : cString a = cString b := by simpa [strEq] using same
  have prefix_ : (cString a).length ≤ a.length := (List.takeWhile_prefix _).length_le
  rw [equal] at prefix_
  omega

/-- A call of the parser returns the same. -/
theorem parseDerivedStruct_same : Refines Between (Values.parseDerivedStruct build) (Values.parseDerivedStruct build)
    fun a b lex lex' => a = b ∧ Between lex lex' := by
  rintro s t ⟨known, close, long⟩
  have token := close.token
  unfold Values.parseDerivedStruct
  rw [Exec.bind_ok (Exec.get_apply s), Exec.bind_ok (Exec.get_apply t), token]
  by_cases isId : s.token = clexId
  · rw [if_neg (not_not.mpr isId), if_neg (not_not.mpr isId), close.id_string isId]
    by_cases other : ¬ strEq s.string moeProcMacroDerivesMacroName = true ∧
        ¬ strEq s.string moeProcMacroDerivesEnumMacroName = true
    · rw [if_pos other]
      exact ⟨none, s, rfl, rfl, known, close, long⟩
    · rw [if_neg other]
      have macro_ : 8 ≤ s.string.length := by
        by_cases derives : strEq s.string moeProcMacroDerivesMacroName = true
        · exact long_of_strEq derives (by decide +kernel)
        · exact long_of_strEq (not_not.mp fun no => other ⟨derives, no⟩) (by decide +kernel)
      obtain rfl := long isId macro_
      have inside : Inside build s t := { close with string := fun _ => close.id_string isId }
      have ends := Refines.conseq parseBlock_same (fun _ _ close => close)
        fun (a b : Option DerivedStruct) (s t : StbLexer) (both : a = b ∧ Inside build s t) => And.intro both.1 both.2.between
      exact ends s t inside
  · rw [if_pos isId, if_pos isId]
    exact ⟨none, s, rfl, rfl, known, close, long⟩

/-- A call of the lexer takes the next token of both. -/
theorem stbCLexerGetToken_same : Refines Between stbCLexerGetToken stbCLexerGetToken
    fun a b lex lex' => a = b ∧ Between lex lex' := by
  rintro s t ⟨known, close, long⟩
  have tokens := close.rest
  cases here : s.rest with
  | nil =>
    rw [here] at tokens
    cases there : t.rest with
    | cons u us =>
      rw [there] at tokens
      cases tokens
    | nil =>
      rw [stbCLexerGetToken_end here, stbCLexerGetToken_end there]
      have text : ¬ Stb.IsText clexEof := by decide
      refine ⟨_, _, rfl, rfl, known, ?_, fun isId => absurd isId (show ¬ clexEof = clexId by decide)⟩
      exact ⟨close.rest, rfl, close.stringLen, close.intNumber, close.realNumber,
        fun isText => absurd (isText.resolve_left id) text, close.word⟩
  | cons u us =>
    cases there : t.rest with
    | nil =>
      rw [here, there] at tokens
      cases tokens
    | cons u' us' =>
      rw [here, there] at tokens
      obtain ⟨-, -, next⟩ := close.fetched tokens
      rw [stbCLexerGetToken_cons here, stbCLexerGetToken_cons there]
      refine ⟨_, _, rfl, rfl, _, next, fun isId text => ?_⟩
      obtain ⟨name, rfl⟩ := (Token.code_id u).mp isId
      have long : (Token.id name).isLong = true := decide_eq_true text
      rw [long, Bool.or_true]

/-- The lexers are as between two calls, and the rest is the same. -/
def Along (c c' : StbLexer × ω) : Prop := Between c.1 c'.1 ∧ c.2 = c'.2

theorem onLexer_same {α : Type} {x : C StbLexer α}
    (same : Refines Between x x fun a b lex lex' => a = b ∧ Between lex lex') :
    Refines Along (Values.onLexer x : C (StbLexer × ω) α) (Values.onLexer x) fun a b c c' => a = b ∧ Along c c' := by
  rintro ⟨s, w⟩ ⟨t, _⟩ ⟨between, rfl⟩
  have run := same s t between
  cases there : x t with
  | error e =>
    rw [there] at run
    have stops : Values.onLexer x (t, w) = .error e := Exec.zoom_error there
    rw [stops]
    exact Exec.zoom_error run
  | ok r =>
    rw [there] at run
    obtain ⟨a, s', here, rfl, between'⟩ := run
    have goes : Values.onLexer x (t, w) = .ok (r.1, (r.2, w)) := Exec.zoom_ok there
    rw [goes]
    exact ⟨_, _, Exec.zoom_ok here, rfl, between', rfl⟩

theorem forFound_same (step : DerivedStruct → C ω Unit) (l l' : StbLexer) (v : Option DerivedStruct) :
    Refines Along (Values.forFound step l v) (Values.forFound step l' v) fun _ _ c c' => Along c c' := by
  cases v with
  | none => exact Refines.pure fun _ _ along => along
  | some v =>
    rintro ⟨s, w⟩ ⟨t, _⟩ ⟨between, rfl⟩
    cases run : step (Values.asRead v) w with
    | error e =>
      have stops : ∀ lex l, Values.forFound step l (some v) (lex, w) = .error e := fun lex l => Values.onRest_error run
      rw [stops t l']
      exact stops s l
    | ok r =>
      have goes : ∀ lex l, Values.forFound step l (some v) (lex, w) = .ok (r.1, (lex, r.2)) := fun lex l =>
        Values.onRest_ok run
      rw [goes t l']
      exact ⟨_, _, goes s l, between, rfl⟩

/-- A turn of the loop does the same, and so do all. -/
theorem tokenLoop_same (step : DerivedStruct → C ω Unit) (fuel : Nat) :
    Refines Along (Values.tokenLoop build (Values.forFound step) fuel) (Values.tokenLoop build (Values.forFound step) fuel)
      fun _ _ c c' => Along c c' := by
  induction fuel with
  | zero => exact Refines.fault _
  | succ fuel ih =>
    refine Refines.bind (onLexer_same stbCLexerGetToken_same) fun more more' => ?_
    rintro c c' ⟨rfl, along⟩
    cases more with
    | false => exact ⟨(), c, rfl, along⟩
    | true =>
      obtain ⟨⟨known, close, long⟩, rest⟩ := along
      have get : ∀ d : StbLexer × ω, (Values.onLexer get : C (StbLexer × ω) StbLexer) d = .ok (d.1, d) := fun _ => rfl
      rw [if_pos rfl, Exec.bind_ok (get c), Exec.bind_ok (get c'), close.token]
      by_cases error : c.1.token = clexParseError
      · rw [if_pos error, if_pos error]
        exact ⟨(), c, rfl, ⟨known, close, long⟩, rest⟩
      · rw [if_neg error, if_neg error]
        refine Refines.bind (onLexer_same parseDerivedStruct_same) (fun v v' => ?_) c c' ⟨⟨known, close, long⟩, rest⟩
        rintro d d' ⟨rfl, along⟩
        exact Refines.bind (forFound_same step c.1 c'.1 v) (fun _ _ => ih) d d' along

/-- Two runs of the loop fail with one fault, or leave the same behind. -/
theorem loop_same {σ ι : Type} {w w' : World σ ι} {text : Bytes} (js : w'.js = w.js) (writes : w'.writes = w.writes)
    (same : SameTokens false (w.lexer text) (w'.lexer text)) (host : Host σ) :
    (w'.loop build text host).map (fun r => r.2.2) = (w.loop build text host).map fun r => r.2.2 := by
  have other : ¬ 0 = clexId := by decide
  have start : Along (StbLexer.start (w.lexer text), (host, 0)) (StbLexer.start (w'.lexer text), (host, 0)) :=
    ⟨⟨false, ⟨same, rfl, rfl, rfl, rfl, fun _ => rfl, nofun⟩, fun isId => absurd isId other⟩, rfl⟩
  have run := @tokenLoop_same _ build (Values.generate w.js w.writes) ((w.lexer text).length + 1) _ _ start
  unfold World.loop
  rw [js, writes, same.length_eq]
  cases there : Values.tokenLoop build (Values.forFound (Values.generate w.js w.writes)) ((w.lexer text).length + 1)
      (StbLexer.start (w'.lexer text), (host, 0)) with
  | error e =>
    rw [there] at run
    rw [run]
  | ok r =>
    rw [there] at run
    obtain ⟨a, c, here, along⟩ := run
    rw [here]
    exact congrArg Except.ok along.2.symm

end Loop

end MoeToolchain
