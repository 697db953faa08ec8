import MoeToolchain.ProcMacro.Files

/-!
# How often the parser calls the lexer

`Metered` has the functions of the parser once more, on a lexer that counts the calls of
`stb_c_lexer_get_token` and faults with `outOfFuel` at the call after a limit. Forgetting
the count gives the parser itself (`parseDerivedStruct_meters`), also where it faults,
so a limit that is never exceeded bounds the calls of every run, of those that stop at an
assertion as well. `lexer_calls_bounded` is about the limit of one call for each token and
one more. That the loops of the parser have turns enough is part of it.
-/

namespace MoeToolchain
set_option autoImplicit false
open Lib

/-- The lexer, and how often it was called. -/
structure MeteredLexer where
  lex : StbLexer
  calls : Nat
deriving DecidableEq, Repr

namespace Metered

/-- A step that does not call the lexer. -/
def uncalled {α : Type} (x : C StbLexer α) : C MeteredLexer α :=
  Exec.zoom MeteredLexer.lex (fun lex s => { s with lex := lex }) x

section Source

variable (limit : Nat)

/-- `stb_c_lexer_get_token`, at most `limit` times. -/
def stbCLexerGetToken : C MeteredLexer Bool := do
  let s ← get
  if s.calls < limit then do
    set { s with calls := s.calls + 1 }
    uncalled MoeToolchain.stbCLexerGetToken
  else Exec.fault .outOfFuel

def moeNextToken : C MeteredLexer Unit := moeAssert .assertions (stbCLexerGetToken limit)

def moeExpectNextToken (expected : Nat) : C MeteredLexer Unit := do
  moeNextToken limit
  uncalled (moeExpectToken .assertions expected)

def parseArgs : C MeteredLexer Unit := do
  moeExpectNextToken limit clexId
  moeExpectNextToken limit lparen
  moeExpectNextToken limit clexId
  moeExpectNextToken limit comma
  moeExpectNextToken limit clexId
  moeExpectNextToken limit rparen

def argsLoop : Nat → C MeteredLexer Unit
  | 0 => Exec.fault .outOfFuel
  | fuel + 1 => do
    moeNextToken limit
    let lex ← uncalled get
    if lex.token = comma then do
      parseArgs limit
      argsLoop fuel
    else pure ()

def parseDeriveItem (v : DerivedStruct) : C MeteredLexer DerivedStruct := do
  moeExpectNextToken limit clexId
  let lex ← uncalled get
  argsLoop limit (loopFuel lex)
  pure { v with handlers := v.handlers ++ [cString lex.string] }

def nextPastSemicolon : C MeteredLexer Unit := do
  moeNextToken limit
  let lex ← uncalled get
  if lex.token = semicolon then moeNextToken limit else pure ()

def tryParseDerive (v : DerivedStruct) : C MeteredLexer (Int × DerivedStruct) := do
  let lex ← uncalled get
  if lex.token ≠ clexId ∨ ¬ strEq lex.string moeProcMacroDerivesMacroName then pure (0, v)
  else do
    moeExpectNextToken limit lparen
    moeExpectNextToken limit clexId
    let lex ← uncalled get
    if ¬ strEq (cString v.structName) lex.string then pure (-1, v)
    else do
      moeExpectNextToken limit comma
      let v ← parseDeriveItem limit v
      nextPastSemicolon limit
      pure (1, v)

def deriveLoop : Nat → DerivedStruct → C MeteredLexer DerivedStruct
  | 0, _ => Exec.fault .outOfFuel
  | fuel + 1, v =>
    if v.handlers.length < moeProcMacroMaxDeriveItemNum then do
      let (ret, v) ← tryParseDerive limit v
      if ret = 1 then deriveLoop fuel v
      else if ret = 0 then pure v
      else deriveLoop fuel v
    else pure v

def bodyLoop : Nat → DerivedStruct → C MeteredLexer DerivedStruct
  | 0, _ => Exec.fault .outOfFuel
  | fuel + 1, v => do
    moeNextToken limit
    let lex ← uncalled get
    if lex.token = rbrace then pure v
    else do
      let token ← uncalled (Values.bodyToken lex)
      bodyLoop fuel { v with metadata := v.metadata ++ [token] }

def typedefKeyword : C MeteredLexer Bool := do
  let lex ← uncalled get
  if strEq lex.string (bytesOf "typedef") then do
    moeNextToken limit
    pure true
  else pure false

def declarationEnd (isTypedef : Bool) : C MeteredLexer Unit := do
  (if isTypedef then moeExpectNextToken limit clexId else pure () : C MeteredLexer Unit)
  moeExpectNextToken limit semicolon

def parseDeclaration (v : DerivedStruct) (isTypedef : Bool) : C MeteredLexer (Int × DerivedStruct) := do
  let lex ← uncalled get
  if lex.token ≠ clexId ∨ (¬ strEq lex.string (bytesOf "struct") ∧ ¬ strEq lex.string (bytesOf "enum")) then
    pure (0, v)
  else do
    moeExpectNextToken limit clexId
    let lex ← uncalled get
    if ¬ strEq (cString v.structName) lex.string then pure (-1, v)
    else do
      moeExpectNextToken limit lbrace
      let lex ← uncalled get
      let v ← bodyLoop limit (loopFuel lex) v
      declarationEnd limit isTypedef
      pure (1, v)

def tryParseDerivedStructBody (v : DerivedStruct) : C MeteredLexer (Int × DerivedStruct) := do
  let isTypedef ← typedefKeyword limit
  parseDeclaration limit v isTypedef

def parseFirstDerive : C MeteredLexer DerivedStruct := do
  moeExpectNextToken limit lparen
  moeExpectNextToken limit clexId
  let lex ← uncalled get
  moeExpectNextToken limit comma
  let v ← parseDeriveItem limit ⟨cString lex.string, [], []⟩
  nextPastSemicolon limit
  pure v

def parseDerivedStruct : C MeteredLexer (Option DerivedStruct) := do
  let lex ← uncalled get
  if lex.token ≠ clexId then pure none
  else if ¬ strEq lex.string moeProcMacroDerivesMacroName ∧
      ¬ strEq lex.string moeProcMacroDerivesEnumMacroName then pure none
  else do
    let v ← parseFirstDerive limit
    let lex ← uncalled get
    let v ← deriveLoop limit (loopFuel lex) v
    let (result, v) ← tryParseDerivedStructBody limit v
    if result = 0 ∨ result = -1 then pure none else pure (some v)

/-- The token loop of `main`, with a record of the calls of the parser. -/
def tokenLoop : Nat → List Call → C MeteredLexer (List Call)
  | 0, _ => Exec.fault .outOfFuel
  | fuel + 1, calls => do
    let more ← stbCLexerGetToken limit
    if more then do
      let lex ← uncalled get
      if lex.token = clexParseError then pure calls
      else do
        let v ← parseDerivedStruct limit
        let after ← uncalled get
        tokenLoop fuel (calls ++ [⟨lex, v.map Values.asRead, after⟩])
    else pure calls

end Source

/-! ## The count and the rest of the input -/

/-- The same lexer; the calls made and the tokens still to come add up to `n`. -/
def Counted (n : Nat) (s : MeteredLexer) (lex : StbLexer) : Prop :=
  s.lex = lex ∧ s.calls + lex.rest.length = n

/-- `x` does what `y` does, with one call for each token it takes and at most one more,
after which it stops. -/
def Meters {α : Type} (n : Nat) (x : C MeteredLexer α) (y : C StbLexer α) : Prop :=
  Refines (Counted n) x y fun a b s lex => a = b ∧ Counted n s lex

section Rules

variable {n : Nat} {α β : Type}

theorem Meters.pure (a : α) : Meters n (Pure.pure a) (Pure.pure a) :=
  Refines.pure fun _ _ counted => ⟨rfl, counted⟩

theorem Meters.fault (e : Fault) : Meters n (Exec.fault e : C MeteredLexer α) (Exec.fault e) := Refines.fault e

theorem Meters.bind {x : C MeteredLexer α} {y : C StbLexer α} {f : α → C MeteredLexer β} {g : α → C StbLexer β}
    (h : Meters n x y) (hf : ∀ a, Meters n (f a) (g a)) : Meters n (x >>= f) (y >>= g) := by
  apply Refines.bind h
  intro a b s lex both
  obtain ⟨rfl, counted⟩ := both
  exact hf a s lex counted

theorem Meters.ite {c : Prop} [Decidable c] {x x' : C MeteredLexer α} {y y' : C StbLexer α}
    (yes : Meters n x y) (no : Meters n x' y') : Meters n (if c then x else x') (if c then y else y') :=
  Refines.ite (fun _ => yes) (fun _ => no)

/-- A step that leaves the lexer as it is. -/
theorem Meters.uncalled {x : C StbLexer α} (still : ∀ {lex lex' : StbLexer} {a : α}, x lex = .ok (a, lex') → lex' = lex) :
    Meters n (Metered.uncalled x) x := by
  intro s lex counted
  obtain ⟨rfl, total⟩ := counted
  cases run : x s.lex with
  | error e => exact Exec.zoom_error run
  | ok r =>
    obtain ⟨a, lex'⟩ := r
    obtain rfl := still run
    exact ⟨a, s, Exec.zoom_ok run, rfl, rfl, total⟩

theorem Meters.get {f : StbLexer → C MeteredLexer β} {g : StbLexer → C StbLexer β}
    (h : ∀ lex, Meters n (f lex) (g lex)) : Meters n (Metered.uncalled MonadState.get >>= f) (MonadState.get >>= g) := by
  refine Meters.bind (Meters.uncalled ?_) h
  intro lex lex' a run
  cases run
  rfl

theorem stbCLexerGetToken_run {limit : Nat} {s : MeteredLexer} {more : Bool} {lex : StbLexer}
    (within : s.calls < limit) (run : MoeToolchain.stbCLexerGetToken s.lex = .ok (more, lex)) :
    stbCLexerGetToken limit s = .ok (more, ⟨lex, s.calls + 1⟩) := by
  rw [stbCLexerGetToken, Exec.bind_ok (Exec.get_apply s), if_pos within, Exec.bind_ok (Exec.set_apply s _)]
  exact Exec.zoom_ok run

/-- `moe_next_token` takes a token, or stops at its assertion after one more call. -/
theorem moeNextToken_meters : Meters n (moeNextToken (n + 1)) (MoeToolchain.moeNextToken .assertions) := by
  intro s lex counted
  obtain ⟨here, calls⟩ := s
  obtain ⟨same, total⟩ := counted
  simp only at same total
  subst same
  cases next : here.rest with
  | nil =>
    rw [next, List.length_nil] at total
    have plain : MoeToolchain.moeNextToken .assertions here = .error .assertFailed := by
      rw [MoeToolchain.moeNextToken, moeAssert, Exec.bind_ok (stbCLexerGetToken_end next)]
      rfl
    rw [plain, moeNextToken, moeAssert, Exec.bind_ok (stbCLexerGetToken_run (by simp only; omega)
      (stbCLexerGetToken_end next))]
    rfl
  | cons t r =>
    rw [next, List.length_cons] at total
    rw [moeNextToken_run next, moeNextToken, moeAssert, Exec.bind_ok (stbCLexerGetToken_run (by simp only; omega)
      (stbCLexerGetToken_cons next))]
    exact ⟨(), _, rfl, rfl, rfl, by simp only [StbLexer.fetched_rest]; omega⟩

theorem moeExpectNextToken_meters (expected : Nat) :
    Meters n (moeExpectNextToken (n + 1) expected) (MoeToolchain.moeExpectNextToken .assertions expected) := by
  apply Meters.bind moeNextToken_meters
  intro _
  apply Meters.uncalled
  intro lex lex' _ run
  exact (moeExpectToken_ok.mp run).2

end Rules

/-! ## The parser's functions -/

section Functions

variable {n : Nat}

theorem bodyToken_still (here : StbLexer) {lex lex' : StbLexer} {a : TokenValue}
    (run : Values.bodyToken here lex = .ok (a, lex')) : lex' = lex := by
  by_cases text : here.token = clexId ∨ here.token = clexSqstring ∨ here.token = clexDqstring
  · rw [Values.bodyToken, if_pos text] at run
    cases content : stringContent (some here.string) here.stringLen with
    | none =>
      rw [content] at run
      cases run
    | some b =>
      rw [content] at run
      cases run
      rfl
  · rw [Values.bodyToken, if_neg text] at run
    by_cases int : here.token = clexIntlit
    · rw [if_pos int] at run
      cases run
      rfl
    · rw [if_neg int] at run
      by_cases float : here.token = clexFloatlit
      · rw [if_pos float] at run
        cases run
        rfl
      · rw [if_neg float] at run
        cases run
        rfl

theorem parseArgs_meters : Meters n (parseArgs (n + 1)) (MoeToolchain.parseArgs .assertions) :=
  (moeExpectNextToken_meters _).bind fun _ => (moeExpectNextToken_meters _).bind fun _ =>
    (moeExpectNextToken_meters _).bind fun _ => (moeExpectNextToken_meters _).bind fun _ =>
      (moeExpectNextToken_meters _).bind fun _ => moeExpectNextToken_meters _

theorem argsLoop_meters (fuel : Nat) :
    Meters n (argsLoop (n + 1) fuel) (MoeToolchain.argsLoop .assertions fuel) := by
  induction fuel with
  | zero => exact Meters.fault _
  | succ fuel ih =>
    apply Meters.bind moeNextToken_meters
    intro _
    apply Meters.get
    intro lex
    apply Meters.ite
    · exact parseArgs_meters.bind fun _ => ih
    · exact Meters.pure _

theorem parseDeriveItem_meters (v : DerivedStruct) :
    Meters n (parseDeriveItem (n + 1) v) (Values.parseDeriveItem .assertions v) := by
  apply Meters.bind (moeExpectNextToken_meters _)
  intro _
  apply Meters.get
  intro lex
  exact (argsLoop_meters _).bind fun _ => Meters.pure _

theorem nextPastSemicolon_meters :
    Meters n (nextPastSemicolon (n + 1)) (MoeToolchain.nextPastSemicolon .assertions) := by
  apply Meters.bind moeNextToken_meters
  intro _
  apply Meters.get
  intro lex
  exact Meters.ite moeNextToken_meters (Meters.pure _)

theorem tryParseDerive_meters (v : DerivedStruct) :
    Meters n (tryParseDerive (n + 1) v) (Values.tryParseDerive .assertions v) := by
  apply Meters.get
  intro lex
  apply Meters.ite (Meters.pure _)
  apply Meters.bind (moeExpectNextToken_meters _)
  intro _
  apply Meters.bind (moeExpectNextToken_meters _)
  intro _
  apply Meters.get
  intro lex'
  apply Meters.ite (Meters.pure _)
  apply Meters.bind (moeExpectNextToken_meters _)
  intro _
  apply Meters.bind (parseDeriveItem_meters v)
  intro v'
  exact nextPastSemicolon_meters.bind fun _ => Meters.pure _

theorem deriveLoop_meters (fuel : Nat) : ∀ v : DerivedStruct,
    Meters n (deriveLoop (n + 1) fuel v) (Values.deriveLoop .assertions fuel v) := by
  induction fuel with
  | zero => exact fun _ => Meters.fault _
  | succ fuel ih =>
    intro v
    unfold deriveLoop Values.deriveLoop
    apply Meters.ite
    · apply Meters.bind (tryParseDerive_meters v)
      intro r
      exact Meters.ite (ih r.2) (Meters.ite (Meters.pure _) (ih r.2))
    · exact Meters.pure _

theorem bodyLoop_meters (fuel : Nat) : ∀ v : DerivedStruct,
    Meters n (bodyLoop (n + 1) fuel v) (Values.bodyLoop .assertions fuel v) := by
  induction fuel with
  | zero => exact fun _ => Meters.fault _
  | succ fuel ih =>
    intro v
    apply Meters.bind moeNextToken_meters
    intro _
    apply Meters.get
    intro lex
    apply Meters.ite (Meters.pure _)
    exact (Meters.uncalled (bodyToken_still lex)).bind fun token => ih _

theorem typedefKeyword_meters : Meters n (typedefKeyword (n + 1)) (MoeToolchain.typedefKeyword .assertions) := by
  apply Meters.get
  intro lex
  exact Meters.ite (moeNextToken_meters.bind fun _ => Meters.pure _) (Meters.pure _)

theorem declarationEnd_meters (isTypedef : Bool) :
    Meters n (declarationEnd (n + 1) isTypedef) (MoeToolchain.declarationEnd .assertions isTypedef) := by
  refine Meters.bind ?_ fun _ => moeExpectNextToken_meters _
  exact Meters.ite (moeExpectNextToken_meters _) (Meters.pure _)

theorem parseDeclaration_meters (v : DerivedStruct) (isTypedef : Bool) :
    Meters n (parseDeclaration (n + 1) v isTypedef) (Values.parseDeclaration .assertions v isTypedef) := by
  apply Meters.get
  intro lex
  apply Meters.ite (Meters.pure _)
  apply Meters.bind (moeExpectNextToken_meters _)
  intro _
  apply Meters.get
  intro lex'
  apply Meters.ite (Meters.pure _)
  apply Meters.bind (moeExpectNextToken_meters _)
  intro _
  apply Meters.get
  intro lex''
  apply Meters.bind (bodyLoop_meters _ v)
  intro v'
  exact (declarationEnd_meters isTypedef).bind fun _ => Meters.pure _

theorem parseFirstDerive_meters : Meters n (parseFirstDerive (n + 1)) (Values.parseFirstDerive .assertions) := by
  apply Meters.bind (moeExpectNextToken_meters _)
  intro _
  apply Meters.bind (moeExpectNextToken_meters _)
  intro _
  apply Meters.get
  intro lex
  apply Meters.bind (moeExpectNextToken_meters _)
  intro _
  apply Meters.bind (parseDeriveItem_meters _)
  intro v
  exact nextPastSemicolon_meters.bind fun _ => Meters.pure _

theorem parseDerivedStruct_meters :
    Meters n (parseDerivedStruct (n + 1)) (Values.parseDerivedStruct .assertions) := by
  apply Meters.get
  intro lex
  apply Meters.ite (Meters.pure _)
  apply Meters.ite (Meters.pure _)
  apply Meters.bind parseFirstDerive_meters
  intro v
  apply Meters.get
  intro lex'
  apply Meters.bind (deriveLoop_meters _ v)
  intro v'
  apply Meters.bind (typedefKeyword_meters.bind fun isTypedef => parseDeclaration_meters v' isTypedef)
  intro r
  exact Meters.ite (Meters.pure _) (Meters.pure _)

end Functions

end Metered

/-! ## Whole runs -/

theorem Segment.ne_nil {s : List Token} (segment : Segment s) : s ≠ [] := by
  cases segment <;> simp

/-- The loop and its metered twin, after `k` calls of the lexer. -/
theorem tokenLoop_meters (fuel : Nat) : ∀ {lex : StbLexer} {found : List Call} {k n : Nat},
    lex.rest.length < fuel → k + lex.rest.length = n →
    match Values.tokenLoop .assertions Values.recordCall fuel (lex, found) with
    | .error e => e = .assertFailed ∧ Metered.tokenLoop (n + 1) fuel found ⟨lex, k⟩ = .error .assertFailed
    | .ok (_, lex', found') => ∃ k', Metered.tokenLoop (n + 1) fuel found ⟨lex, k⟩ = .ok (found', ⟨lex', k'⟩) ∧
        k' ≤ n + 1 := by
  induction fuel with
  | zero =>
    intro lex found k n enough
    cases enough
  | succ fuel ih =>
    intro lex found k n enough total
    cases next : lex.rest with
    | nil =>
      rw [next, List.length_nil] at total
      have last := Metered.stbCLexerGetToken_run (s := ⟨lex, k⟩) (show k < n + 1 by omega) (stbCLexerGetToken_end next)
      rw [tokenLoop_end next, Metered.tokenLoop, Exec.bind_ok last]
      exact ⟨k + 1, rfl, by omega⟩
    | cons t r =>
      rw [next, List.length_cons] at total enough
      have first := Metered.stbCLexerGetToken_run (s := ⟨lex, k⟩) (show k < n + 1 by omega) (stbCLexerGetToken_cons next)
      have here : (Metered.uncalled get : C MeteredLexer StbLexer) ⟨lex.fetched t r, k + 1⟩ =
          .ok (lex.fetched t r, ⟨lex.fetched t r, k + 1⟩) := rfl
      rw [Metered.tokenLoop, Exec.bind_ok first, if_pos rfl, Exec.bind_ok here]
      cases lexed : t.isError with
      | true =>
        have stop : (lex.fetched t r).token = clexParseError := (Token.code_parseError t).mpr lexed
        rw [tokenLoop_parseError next lexed, if_pos stop]
        exact ⟨k + 1, rfl, by omega⟩
      | false =>
        rw [if_neg (fetched_lexed lexed)]
        have counted : Metered.Counted n ⟨lex.fetched t r, k + 1⟩ (lex.fetched t r) :=
          ⟨rfl, show k + 1 + r.length = n by omega⟩
        have parse := Metered.parseDerivedStruct_meters _ _ counted
        cases call : Values.parseDerivedStruct .assertions (lex.fetched t r) with
        | error e =>
          rw [call] at parse
          obtain rfl : e = .assertFailed := (parseDerivedStruct_assertionOnly lex t r).of_error call
          rw [tokenLoop_fault next lexed call, Exec.bind_error parse]
          exact ⟨rfl, rfl⟩
        | ok p =>
          obtain ⟨v, lex1⟩ := p
          rw [call] at parse
          obtain ⟨_, ⟨lex2, k1⟩, parse, rfl, same, total1⟩ := parse
          obtain rfl : lex2 = lex1 := same
          obtain ⟨s, consumes, whole⟩ := parseDerivedStruct_consumes lexed call
          have shorter : lex2.rest.length ≤ r.length := by
            have length := congrArg List.length whole
            have some_ := List.length_pos_of_ne_nil consumes.segment.ne_nil
            simp only [List.length_append, List.length_cons] at length
            omega
          have after : (Metered.uncalled get : C MeteredLexer StbLexer) ⟨lex2, k1⟩ = .ok (lex2, ⟨lex2, k1⟩) := rfl
          rw [tokenLoop_call next lexed call, Exec.bind_ok parse, Exec.bind_ok after]
          exact ih (by omega) total1

/-- With assertions, a call of the parser on any token, and the token loop, end after at
most one lexer call for each token still to come and one more: they return, or they stop
at a failed assertion. -/
theorem lexer_calls_bounded (lex : StbLexer) (mem : Mem) :
    (∀ (t : Token) (rest : List Token),
      match parseDerivedStruct .assertions ⟨lex.fetched t rest, mem⟩ with
      | .error e => e = .assertFailed ∧
          Metered.parseDerivedStruct (rest.length + 1) ⟨lex.fetched t rest, 0⟩ = .error .assertFailed
      | .ok (p, st) => ∃ v calls, Returned mem 0 p v st.mem ∧
          Metered.parseDerivedStruct (rest.length + 1) ⟨lex.fetched t rest, 0⟩ = .ok (v, ⟨st.lex, calls⟩) ∧
          calls + st.lex.rest.length = rest.length) ∧
    match parseFile .assertions lex mem with
    | .error e => e = .assertFailed ∧
        Metered.tokenLoop (lex.rest.length + 1) (lex.rest.length + 1) [] ⟨lex, 0⟩ = .error .assertFailed
    | .ok (_, st, found) => ∃ calls,
        Metered.tokenLoop (lex.rest.length + 1) (lex.rest.length + 1) [] ⟨lex, 0⟩ = .ok (found, ⟨st.lex, calls⟩) ∧
        calls ≤ lex.rest.length + 1 := by
  constructor
  · intro t rest
    have parse := Metered.parseDerivedStruct_meters (n := rest.length) ⟨lex.fetched t rest, 0⟩ (lex.fetched t rest)
      ⟨rfl, Nat.zero_add _⟩
    cases call : Values.parseDerivedStruct .assertions (lex.fetched t rest) with
    | error e =>
      rw [call] at parse
      obtain rfl : e = .assertFailed := (parseDerivedStruct_assertionOnly lex t rest).of_error call
      rw [parseDerivedStruct_fault call mem]
      exact ⟨rfl, parse⟩
    | ok p =>
      obtain ⟨v, lex1⟩ := p
      rw [call] at parse
      obtain ⟨_, ⟨_, calls⟩, parse, rfl, rfl, total⟩ := parse
      obtain ⟨p, mem', run, returned⟩ := parseDerivedStruct_spec (owns_refl mem) call
      rw [run]
      exact ⟨_, calls, returned, parse, total⟩
  · have loop := @tokenLoop_meters (lex.rest.length + 1) lex [] 0 lex.rest.length (Nat.lt_succ_self _) (Nat.zero_add _)
    cases run : Values.parseFile .assertions lex with
    | error e =>
      rw [show Values.tokenLoop .assertions Values.recordCall (lex.rest.length + 1) (lex, []) = _ from run] at loop
      rw [parseFile_fault run mem]
      exact loop
    | ok p =>
      obtain ⟨_, lex', found⟩ := p
      rw [show Values.tokenLoop .assertions Values.recordCall (lex.rest.length + 1) (lex, []) = _ from run] at loop
      obtain ⟨mem', run', -⟩ := parseFile_spec run mem
      rw [run']
      exact loop

end MoeToolchain
