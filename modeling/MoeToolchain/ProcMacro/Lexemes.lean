import Mathlib.Data.List.GetD
import MoeToolchain.ProcMacro.ScanBounds

/-!
# Spelling

What the lexer takes a text apart into: white space, comments and preprocessor lines, and
the spellings of tokens. A spelling is that of its lexeme only before certain bytes: the
lexer takes as much as it can.

Main result:

* `tokensOf_spelled`: the tokens of a text that is put together from lexemes are theirs.
-/

namespace MoeToolchain
set_option autoImplicit false
open Lib

namespace Stb

/-! ## Lexemes -/

/-- A character of a literal. -/
inductive Character
  | plain (c : UInt8)
  | escaped (c : UInt8)
deriving DecidableEq, Repr

def Character.spell : Character → Bytes
  | plain c => [c]
  | escaped c => [byteOf '\\', c]

def Character.value : Character → Int
  | plain c => c.toNat
  | escaped c => (escape? c).getD (-1)

/-- The character is read as such before this byte: a backslash does not escape it. -/
def Character.Fits (next : UInt8) : Character → Prop
  | plain c => c = byteOf '\\' → escape? next = none
  | escaped c => 0 ≤ (escape? c).getD (-1)

instance (next : UInt8) (x : Character) : Decidable (x.Fits next) :=
  match x with
  | .plain c => inferInstanceAs (Decidable (c = byteOf '\\' → escape? next = none))
  | .escaped c => inferInstanceAs (Decidable (0 ≤ (escape? c).getD (-1)))

/-- A piece of a text. -/
inductive Lexeme
  | blank (c : UInt8)
  | lineComment (body : Bytes)
  | comment (body : Bytes)
  | directive (body : Bytes)
  | id (name : Ident)
  | integer (digits : Bytes)
  | hexInteger (mark : UInt8) (digits : Bytes)
  | float (spelling : Bytes) (value : BitVec 64)
  | literal (chars : List Character)
  -- the byte behind the closing quote goes with it
  | charLiteral (x : Character) (lost : UInt8)
  | op (o : Operator)
  | char (c : Fin 128)
deriving DecidableEq, Repr

def operatorSpelling : Operator → Bytes
  | .eq => [byteOf '=', byteOf '='] | .noteq => [byteOf '!', byteOf '=']
  | .lesseq => [byteOf '<', byteOf '='] | .greatereq => [byteOf '>', byteOf '=']
  | .andand => [byteOf '&', byteOf '&'] | .oror => [byteOf '|', byteOf '|']
  | .shl => [byteOf '<', byteOf '<'] | .shr => [byteOf '>', byteOf '>']
  | .plusplus => [byteOf '+', byteOf '+'] | .minusminus => [byteOf '-', byteOf '-']
  | .pluseq => [byteOf '+', byteOf '='] | .minuseq => [byteOf '-', byteOf '=']
  | .muleq => [byteOf '*', byteOf '='] | .diveq => [byteOf '/', byteOf '='] | .modeq => [byteOf '%', byteOf '=']
  | .andeq => [byteOf '&', byteOf '='] | .oreq => [byteOf '|', byteOf '='] | .xoreq => [byteOf '^', byteOf '=']
  | .arrow => [byteOf '-', byteOf '>'] | .eqarrow => [byteOf '=', byteOf '>']
  | .shleq => [byteOf '<', byteOf '<', byteOf '='] | .shreq => [byteOf '>', byteOf '>', byteOf '=']

/-- What closes a comment. -/
def commentEnd : Bytes := [byteOf '*', byteOf '/']

def Lexeme.spell : Lexeme → Bytes
  | blank c => [c]
  | lineComment body => byteOf '/' :: byteOf '/' :: body
  | comment body => byteOf '/' :: byteOf '*' :: (body ++ commentEnd)
  | directive body => byteOf '#' :: body
  | id name => name.text
  | integer digits => digits
  | hexInteger mark digits => byteOf '0' :: mark :: digits
  | float spelling _ => spelling
  | literal chars => byteOf '"' :: (chars.flatMap Character.spell ++ [byteOf '"'])
  | charLiteral x lost => byteOf '\'' :: (x.spell ++ [byteOf '\'', lost])
  | op o => operatorSpelling o
  | char c => [UInt8.ofNat c]

/-- The base that the first digit stands for. -/
def baseOf (digits : Bytes) : Nat := if digits.headD 0 = byteOf '0' then 8 else 10

/-- The number that `strtol` reads before it looks at `LONG_MAX`. -/
def digitsValue (base : Nat) (digits : Bytes) : Nat :=
  digits.foldl (fun n c => n * base + (digit? base c).getD 0) 0

def Lexeme.token? : Lexeme → Option Token
  | blank _ | lineComment _ | comment _ | directive _ => none
  | id name => some (.id name)
  | integer digits => some (.intlit (min (digitsValue (baseOf digits) digits) (2 ^ 63 - 1)))
  | hexInteger _ digits => some (.intlit (min (digitsValue 16 digits) (2 ^ 63 - 1)))
  | float _ value => some (.floatlit value)
  | literal chars => some (.dqstring (chars.map fun x => UInt8.ofNat x.value.toNat))
  | charLiteral x _ => some (.charlit x.value)
  | op o => some (.op o)
  | char c => some (.char c)

def lineByte (c : UInt8) : Bool := c != byteOf '\r' && c != byteOf '\n'

/-- The digits of this text are those of a float. -/
def floatMark (text : Bytes) : Bool :=
  let c := (text.dropWhile isDigit).headD 0
  c == byteOf '.' || c == byteOf 'e' || c == byteOf 'E'

def hexMark (c : UInt8) : Bool := c == byteOf 'x' || c == byteOf 'X'

/-- The characters of a literal, up to its quote. -/
def CharactersFit : List Character → Prop
  | [] => True
  | x :: rest => (x ≠ .plain (byteOf '"') ∧ x.Fits ((rest.flatMap Character.spell ++ [byteOf '"']).headD 0)) ∧
      CharactersFit rest

instance decidableCharactersFit : (chars : List Character) → Decidable (CharactersFit chars)
  | [] => inferInstanceAs (Decidable True)
  | x :: rest =>
    have := decidableCharactersFit rest
    inferInstanceAs (Decidable ((x ≠ .plain (byteOf '"') ∧
      x.Fits ((rest.flatMap Character.spell ++ [byteOf '"']).headD 0)) ∧ CharactersFit rest))

/-- The bytes of a comment do not close it early. -/
def CommentFits (body : Bytes) : Prop :=
  ∀ i < body.length, (body ++ commentEnd).getD i 0 ≠ byteOf '*' ∨ (body ++ commentEnd).getD (i + 1) 0 ≠ byteOf '/'

/-- A character that is a token by itself before `next`. -/
structure CharFits (c next : UInt8) : Prop where
  white : clexIswhite c = false
  id : isIdStart c = false
  digit : isDigit c = false
  quote : c ≠ byteOf '"' ∧ c ≠ byteOf '\''
  hash : c ≠ byteOf '#'
  comment : c = byteOf '/' → next ≠ byteOf '/' ∧ next ≠ byteOf '*'
  operator : (operators c).lookup next = none

instance (c next : UInt8) : Decidable (CharFits c next) :=
  decidable_of_iff (clexIswhite c = false ∧ isIdStart c = false ∧ isDigit c = false ∧
    (c ≠ byteOf '"' ∧ c ≠ byteOf '\'') ∧ c ≠ byteOf '#' ∧ (c = byteOf '/' → next ≠ byteOf '/' ∧ next ≠ byteOf '*') ∧
    (operators c).lookup next = none)
    ⟨fun ⟨a, b, c, d, e, f, g⟩ => ⟨a, b, c, d, e, f, g⟩, fun ⟨a, b, c, d, e, f, g⟩ => ⟨a, b, c, d, e, f, g⟩⟩

/-- At position `p` and before `rest`, the lexer takes the spelling for this lexeme. -/
def Lexeme.Fits (strtod : Nat → BitVec 64 × Nat) (p : Nat) (rest : Bytes) : Lexeme → Prop
  | blank c => clexIswhite c = true
  | lineComment body => (∀ c ∈ body, lineByte c = true) ∧ (rest = [] ∨ lineByte (rest.headD 0) = false)
  | comment body => CommentFits body
  | directive body => (∀ c ∈ body, lineByte c = true) ∧ (rest = [] ∨ lineByte (rest.headD 0) = false)
  | id name => isIdStart (name.text.headD 0) = true ∧ (∀ c ∈ name.text, isIdChar c = true) ∧ name.text.length < 1024 ∧
      isIdChar (rest.headD 0) = false
  | integer digits => isDigit (digits.headD 0) = true ∧ (∀ c ∈ digits, (digit? (baseOf digits) c).isSome = true) ∧
      digit? (baseOf digits) (rest.headD 0) = none ∧ floatMark (digits ++ rest) = false ∧
      (digits = [byteOf '0'] → hexMark (rest.headD 0) = true → digit? 16 (rest.getD 1 0) = none)
  | hexInteger mark digits => hexMark mark = true ∧ digits ≠ [] ∧ (∀ c ∈ digits, (digit? 16 c).isSome = true) ∧
      digit? 16 (rest.headD 0) = none
  | float spelling value => isDigit (spelling.headD 0) = true ∧ floatMark (spelling ++ rest) = true ∧
      strtod p = (value, p + spelling.length)
  | literal chars => CharactersFit chars ∧ chars.length ≤ 1024
  | charLiteral x _ => x.Fits (byteOf '\'')
  | op o => o ≠ .eqarrow ∧ (o = .shl ∨ o = .shr → rest.headD 0 ≠ byteOf '=')
  | char c => CharFits (UInt8.ofNat c) (rest.headD 0)

instance (strtod : Nat → BitVec 64 × Nat) (p : Nat) (rest : Bytes) (x : Lexeme) : Decidable (x.Fits strtod p rest) :=
  match x with
  | .blank _ => inferInstanceAs (Decidable (_ = _))
  | .lineComment _ => inferInstanceAs (Decidable (_ ∧ _))
  | .comment body => inferInstanceAs (Decidable (∀ i < body.length, _ ∨ _))
  | .directive _ => inferInstanceAs (Decidable (_ ∧ _))
  | .id _ => inferInstanceAs (Decidable (_ ∧ _))
  | .integer _ => inferInstanceAs (Decidable (_ ∧ _))
  | .hexInteger _ _ => inferInstanceAs (Decidable (_ ∧ _))
  | .float _ _ => inferInstanceAs (Decidable (_ ∧ _))
  | .literal _ => inferInstanceAs (Decidable (_ ∧ _))
  | .charLiteral x _ => inferInstanceAs (Decidable (x.Fits _))
  | .op _ => inferInstanceAs (Decidable (_ ∧ _))
  | .char _ => inferInstanceAs (Decidable (CharFits _ _))

/-- The text of some lexemes. -/
def spellAll (ls : List Lexeme) : Bytes := ls.flatMap Lexeme.spell

/-- Each lexeme, from position `p` on, is read as such before what follows it. -/
def Spelt (strtod : Nat → BitVec 64 × Nat) : Nat → List Lexeme → Prop
  | _, [] => True
  | p, x :: rest => x.Fits strtod p (spellAll rest) ∧ Spelt strtod (p + x.spell.length) rest

instance decidableSpelt (strtod : Nat → BitVec 64 × Nat) : (p : Nat) → (ls : List Lexeme) → Decidable (Spelt strtod p ls)
  | _, [] => inferInstanceAs (Decidable True)
  | p, x :: rest =>
    have := decidableSpelt strtod (p + x.spell.length) rest
    inferInstanceAs (Decidable (x.Fits strtod p (spellAll rest) ∧ Spelt strtod (p + x.spell.length) rest))

example : Spelt (fun p => (0, p + 1)) 0 [.id ⟨bytesOf "f", by decide, by decide⟩, .char 40, .integer (bytesOf "017"),
    .comment (bytesOf "*"), .op .shl, .literal [.plain 97, .escaped 110], .directive []] := by
  decide +kernel

/-! ## The bytes ahead -/

/-- From `p` on the input has these bytes, and then its end with a NUL. -/
structure Ahead (input : Input) (p : Nat) (text : Bytes) : Prop where
  eof : input.eof = p + text.length
  byte : ∀ i ≤ text.length, input.byte (p + i) = text.getD i 0

section Ahead

variable {input : Input} {strtod : Nat → BitVec 64 × Nat} {p q : Nat} {text rest : Bytes} {c : UInt8} {store : Bytes}

theorem Ahead.drop (ahead : Ahead input p (text ++ rest)) : Ahead input (p + text.length) rest := by
  have size := ahead.eof
  rw [List.length_append] at size
  refine ⟨by omega, fun i bound => ?_⟩
  have here := ahead.byte (text.length + i) (by rw [List.length_append]; omega)
  rw [← Nat.add_assoc] at here
  rw [here, List.getD_append_right _ _ _ _ (by omega), Nat.add_sub_cancel_left]

theorem Ahead.byte_append (ahead : Ahead input p (text ++ rest)) {i : Nat} (inside : i < text.length) :
    input.byte (p + i) = text.getD i 0 := by
  rw [ahead.byte i (by rw [List.length_append]; omega), List.getD_append _ _ _ _ inside]

theorem Ahead.first (ahead : Ahead input p text) : input.byte p = text.headD 0 := by
  have here := ahead.byte 0 (Nat.zero_le _)
  cases text with
  | nil => exact here
  | cons c rest => exact here

theorem Ahead.head (ahead : Ahead input p (text ++ rest)) (some_ : text ≠ []) : input.byte p = text.headD 0 := by
  cases text with
  | nil => exact absurd rfl some_
  | cons c cs => exact ahead.first

theorem Ahead.second (ahead : Ahead input p (c :: rest)) : input.byte (p + 1) = rest.headD 0 := by
  have here := ahead.byte 1 (by simp)
  cases rest with
  | nil => exact here
  | cons c rest => exact here

theorem Ahead.tail (ahead : Ahead input p (c :: rest)) : Ahead input (p + 1) rest :=
  @Ahead.drop _ _ [c] _ ahead

theorem Ahead.nul (ahead : Ahead input p text) : input.byte input.eof = 0 := by
  rw [ahead.eof, ahead.byte text.length (Nat.le_refl _), List.getD_eq_default _ _ (Nat.le_refl _)]

theorem Ahead.inside (ahead : Ahead input p text) : p ≤ input.eof := by
  rw [ahead.eof]
  omega

theorem Ahead.more (ahead : Ahead input p (c :: rest)) : p < input.eof := by
  rw [ahead.eof, List.length_cons]
  omega

theorem ahead_ofBytes (text : Bytes) : Ahead (Input.ofBytes text) 0 text :=
  ⟨(Nat.zero_add _).symm, fun i _ => by rw [Nat.zero_add]; rfl⟩

/-! ## Loops over them -/

/-- A loop that goes on for `n` bytes, and not for another one. -/
theorem scanWhile_count {go : Nat → Bool} (n : Nat) : ∀ {p : Nat}, (∀ i < n, p + i ≠ input.eof ∧ go (p + i) = true) →
    (p + n = input.eof ∨ go (p + n) = false) → scanWhile input go (n + 1) p = some (p + n) := by
  induction n with
  | zero =>
    intro p going stops
    rw [scanWhile, if_neg]
    · rfl
    · rintro ⟨inside, goes⟩
      rcases stops with ended | stop
      · exact inside ended
      · rw [Nat.add_zero, goes] at stop
        cases stop
  | succ n ih =>
    intro p going stops
    have next : ∀ i, p + 1 + i = p + (i + 1) := fun i => by omega
    have first : p ≠ input.eof ∧ go p = true := going 0 (by omega)
    rw [scanWhile, if_pos first, ← next n]
    refine ih (fun i inside => ?_) ?_
    · rw [next]
      exact going (i + 1) (by omega)
    · rw [next]
      exact stops

/-- A loop over bytes. -/
theorem scanWhile_bytes {go : UInt8 → Bool} (ahead : Ahead input p (text ++ rest)) (all : ∀ c ∈ text, go c = true)
    (stops : rest = [] ∨ go (rest.headD 0) = false) :
    scanWhile input (fun i => go (input.byte i)) (text.length + 1) p = some (p + text.length) := by
  have size := ahead.eof
  rw [List.length_append] at size
  refine scanWhile_count _ (fun i inside => ⟨by omega, ?_⟩) ?_
  · rw [ahead.byte_append inside]
    exact all _ (by rw [List.getD_eq_getElem _ _ inside]; exact List.getElem_mem inside)
  · rcases stops with rfl | stop
    · exact .inl (by rw [size]; rfl)
    · rw [ahead.drop.first]
      exact .inr stop

/-- How the loop over white space and comments ends, with enough turns. -/
def Skips (input : Input) (p : Nat) (r : Skipped) : Prop := ∃ fuel, skipSpace input fuel fuel p = some r

theorem Skips.intro {limit fuel : Nat} {r : Skipped} (run : skipSpace input limit fuel p = some r) : Skips input p r :=
  ⟨max limit fuel, skipSpace_mono (Nat.le_max_left _ _) (Nat.le_max_right _ _) run⟩

/-- At a byte that is not white, the loop looks for a comment at once. -/
theorem skipSpace_here {limit fuel : Nat} (here : p = input.eof ∨ clexIswhite (input.byte p) = false) :
    skipSpace input (limit + 1) (fuel + 1) p =
      if p ≠ input.eof ∧ input.byte p = byteOf '/' ∧ input.byte (p + 1) = byteOf '/' then do
        let p ← scanWhile input (inLine input) (limit + 1) p
        skipSpace input (limit + 1) fuel p
      else if p ≠ input.eof ∧ input.byte p = byteOf '/' ∧ input.byte (p + 1) = byteOf '*' then do
        let q ← scanWhile input (inComment input) (limit + 1) (p + 2)
        if q = input.eof then some (.unclosed p q) else skipSpace input (limit + 1) fuel (q + 2)
      else if p ≠ input.eof ∧ input.byte p = byteOf '#' then do
        let p ← scanWhile input (inLine input) (limit + 1) p
        skipSpace input (limit + 1) fuel p
      else some (.ends p) := by
  have stays : scanWhile input (fun i => clexIswhite (input.byte i)) (limit + 1) p = some p := by
    rw [scanWhile, if_neg]
    rintro ⟨inside, white⟩
    rcases here with ended | other
    · exact inside ended
    · rw [other] at white
      cases white
  rw [skipSpace, stays]
  rfl

theorem Skips.white {r : Skipped} (inside : p ≠ input.eof) (white : clexIswhite (input.byte p) = true)
    (later : Skips input (p + 1) r) : Skips input p r := by
  obtain ⟨fuel, run⟩ := later
  cases fuel with
  | zero => cases run
  | succ fuel =>
    refine @Skips.intro input p (fuel + 2) (fuel + 1) r ?_
    rw [skipSpace] at run ⊢
    obtain ⟨q, skip, run⟩ := Option.bind_eq_some_iff.mp run
    rw [scanWhile, if_pos ⟨inside, white⟩, skip, Option.bind_eq_bind, Option.bind_some]
    have wider := fun {q' : Nat} {r : Skipped} => @skipSpace_mono input q' r (fuel + 1) (fuel + 2) fuel fuel (by omega) (by omega)
    have longer := fun {go : Nat → Bool} {p q' : Nat} => @scanWhile_mono input p go q' (fuel + 1) (fuel + 2) (by omega)
    split at run
    · rename_i line
      obtain ⟨q', body, run⟩ := Option.bind_eq_some_iff.mp run
      rw [if_pos line, longer body, Option.bind_some]
      exact wider run
    rename_i line
    rw [if_neg line]
    split at run
    · rename_i comment
      obtain ⟨q', body, run⟩ := Option.bind_eq_some_iff.mp run
      rw [if_pos comment, longer body, Option.bind_some]
      split at run
      · rename_i unclosed
        rw [if_pos unclosed]
        exact run
      · rename_i closed
        rw [if_neg closed]
        exact wider run
    rename_i comment
    rw [if_neg comment]
    split at run
    · rename_i directive
      obtain ⟨q', body, run⟩ := Option.bind_eq_some_iff.mp run
      rw [if_pos directive, longer body, Option.bind_some]
      exact wider run
    · rename_i directive
      rw [if_neg directive]
      exact run

/-- A comment up to the end of the line, or a preprocessor line. -/
theorem Skips.line {r : Skipped} {fuel : Nat} (inside : p ≠ input.eof)
    (start : input.byte p = byteOf '/' ∧ input.byte (p + 1) = byteOf '/' ∨ input.byte p = byteOf '#')
    (body : scanWhile input (inLine input) fuel p = some q) (later : Skips input q r) : Skips input p r := by
  obtain ⟨fuel', run⟩ := later
  have other : clexIswhite (input.byte p) = false := by
    rcases start with ⟨first, -⟩ | first
    · rw [first]
      decide
    · rw [first]
      decide
  refine @Skips.intro input p (max fuel fuel' + 1) (max fuel fuel' + 1) r ?_
  rw [skipSpace_here (.inr other), scanWhile_mono (by omega) body, Option.bind_eq_bind, Option.bind_some,
    skipSpace_mono (by omega : fuel' ≤ max fuel fuel' + 1) (by omega : fuel' ≤ max fuel fuel') run]
  rcases start with ⟨first, second⟩ | first
  · rw [if_pos ⟨inside, first, second⟩]
  · have slash : ¬ (byteOf '#' = byteOf '/') := by decide
    rw [first, if_neg fun both => slash both.2.1, if_neg fun both => slash both.2.1, if_pos ⟨inside, rfl⟩]

theorem Skips.comment {r : Skipped} {fuel : Nat} (inside : p ≠ input.eof) (first : input.byte p = byteOf '/')
    (second : input.byte (p + 1) = byteOf '*') (body : scanWhile input (inComment input) fuel (p + 2) = some q)
    (closed : q ≠ input.eof) (later : Skips input (q + 2) r) : Skips input p r := by
  obtain ⟨fuel', run⟩ := later
  refine @Skips.intro input p (max fuel fuel' + 1) (max fuel fuel' + 1) r ?_
  have star : ¬ (byteOf '*' = byteOf '/') := by decide
  rw [skipSpace_here (.inr (by rw [first]; decide)), if_neg (fun both => star (second.symm.trans both.2.2)),
    if_pos ⟨inside, first, second⟩, scanWhile_mono (by omega) body, Option.bind_eq_bind, Option.bind_some, if_neg closed]
  exact skipSpace_mono (by omega) (by omega) run

theorem Skips.ends (white : p = input.eof ∨ clexIswhite (input.byte p) = false)
    (slash : p ≠ input.eof → input.byte p = byteOf '/' → input.byte (p + 1) ≠ byteOf '/' ∧ input.byte (p + 1) ≠ byteOf '*')
    (hash : p ≠ input.eof → input.byte p ≠ byteOf '#') : Skips input p (.ends p) := by
  refine @Skips.intro input p 1 1 _ ?_
  rw [skipSpace_here white, if_neg fun both => (slash both.1 both.2.1).1 both.2.2,
    if_neg fun both => (slash both.1 both.2.1).2 both.2.2, if_neg fun both => hash both.1 both.2]

end Ahead

/-! ## Calls -/

section Calls

variable {input : Input} {strtod : Nat → BitVec 64 × Nat} {p q : Nat} {text rest : Bytes} {c : UInt8} {store : Bytes}

/-- What a call makes of its input, with enough turns. -/
def Calls (input : Input) (strtod : Nat → BitVec 64 × Nat) (p : Nat) (store : Bytes) (r : Scanned) : Prop :=
  ∃ fuel, scanCall input strtod 1024 fuel p store = some r

theorem Calls.turns {r : Scanned} (calls : Calls input strtod p store r) (ahead : Ahead input p text) :
    scanCall input strtod 1024 (input.eof + 1) p store = some r := by
  obtain ⟨fuel, run⟩ := calls
  obtain ⟨r', run'⟩ := @scanCall_returns input strtod 1024 (input.eof + 1) p store ahead.nul ahead.inside (by omega)
  rw [run', scanCall_unique run run']

theorem Calls.skip {r : Scanned} (skips : ∀ s, Skips input q s → Skips input p s) (calls : Calls input strtod q store r) :
    Calls input strtod p store r := by
  obtain ⟨fuel, run⟩ := calls
  cases skip : skipSpace input fuel fuel q with
  | none =>
    rw [scanCall, skip] at run
    cases run
  | some s =>
    obtain ⟨fuel', skip'⟩ := skips s ⟨fuel, skip⟩
    refine ⟨max fuel fuel', ?_⟩
    rw [scanCall, skip] at run
    rw [scanCall, skipSpace_mono (Nat.le_max_right _ _) (Nat.le_max_right _ _) skip']
    cases s with
    | unclosed _ _ => exact run
    | ends e =>
      simp only at run ⊢
      split at run
      · rename_i done
        rw [if_pos done]
        exact run
      · rename_i inside
        obtain ⟨s, token, same⟩ := Option.map_eq_some_iff.mp run
        rw [if_neg inside, scanToken_mono (Nat.le_max_left _ _) token, ← same]
        rfl

theorem Calls.ended (done : p = input.eof) : Calls input strtod p store .ended := by
  obtain ⟨fuel, skip⟩ := Skips.ends (.inl done) (fun more => absurd done more) fun more => absurd done more
  exact ⟨fuel, by rw [scanCall, skip]; exact if_pos done⟩

theorem Calls.token {fuel : Nat} {s : Scan} (inside : p ≠ input.eof) (skips : Skips input p (.ends p))
    (token : scanToken input strtod 1024 fuel p store = some s) : Calls input strtod p store (.token s) := by
  obtain ⟨fuel', skip⟩ := skips
  refine ⟨max fuel fuel', ?_⟩
  rw [scanCall, skipSpace_mono (Nat.le_max_right _ _) (Nat.le_max_right _ _) skip]
  simp only
  rw [if_neg inside, scanToken_mono (Nat.le_max_left _ _) token]
  rfl

/-- The `switch` gives this token, and the position behind it. -/
def Gives (input : Input) (strtod : Nat → BitVec 64 × Nat) (p : Nat) (store : Bytes) (t : Token) (q : Nat) : Prop :=
  ∃ fuel s, scanToken input strtod 1024 fuel p store = some s ∧ s.token = t ∧ s.next = q ∧ s.store.length = 1025

/-! ## Bytes -/

/-- The cases of a byte. -/
theorem forall_byte {P : UInt8 → Prop} (all : ∀ n : Fin 256, P (UInt8.ofFin n)) (c : UInt8) : P c := by
  have here := all c.toFin
  rwa [UInt8.ofFin_toFin] at here

/-- The loop over white space and comments stops at this byte. -/
def Starts (c : UInt8) : Prop := clexIswhite c = false ∧ c ≠ byteOf '/' ∧ c ≠ byteOf '#'

instance (c : UInt8) : Decidable (Starts c) := inferInstanceAs (Decidable (_ ∧ _))

theorem starts_letter : ∀ c, isIdStart c = true → Starts c := forall_byte (by decide +kernel)

theorem starts_digit : ∀ c, isDigit c = true → Starts c := forall_byte (by decide +kernel)

theorem digit_class : ∀ c, isDigit c = true → isIdStart c = false ∧ c ≠ byteOf '"' ∧ c ≠ byteOf '\'' :=
  forall_byte (by decide +kernel)

theorem hexMark_isDigit : ∀ c, hexMark c = true → isDigit c = false ∧ digit? 16 c = none ∧ digit? 8 c = none :=
  forall_byte (by decide +kernel)

theorem Starts.skips (starts : Starts c) (here : input.byte p = c) : Skips input p (.ends p) := by
  subst here
  exact .ends (.inr starts.1) (fun _ slash => absurd slash starts.2.1) fun _ => starts.2.2

/-! ## Identifiers and literals -/

theorem scanIdentifier_spelled {text : Bytes} (ahead : Ahead input p (text ++ rest)) (letters : ∀ c ∈ text, isIdChar c = true)
    (small : text.length < 1024) (stops : isIdChar (rest.headD 0) = false) (fuel : Nat) : ∀ {n : Nat} {store : Bytes},
    n < text.length → text.length ≤ n + fuel → store.length = 1025 → store.take n = text.take n →
    ∃ s, scanIdentifier input 1024 p fuel n store = some s ∧ s.token = identifierToken text ∧
      s.next = p + text.length ∧ s.store.length = 1025 := by
  induction fuel with
  | zero =>
    intro n store inside enough size written
    omega
  | succ fuel ih =>
    intro n store inside enough size written
    have here : input.byte (p + n) = text[n] := by
      rw [ahead.byte_append inside, List.getD_eq_getElem _ _ inside]
    have written1 : (store.set n (input.byte (p + n))).take (n + 1) = text.take (n + 1) := by
      rw [take_set_succ (by omega), written, here, List.take_succ_eq_append_getElem inside]
    unfold scanIdentifier
    rw [if_neg (by omega : ¬ n + 1 ≥ 1024)]
    simp only
    by_cases more : n + 1 < text.length
    · have next : input.byte (p + (n + 1)) = text[n + 1] := by
        rw [ahead.byte_append more, List.getD_eq_getElem _ _ more]
      rw [next, if_pos (letters _ (List.getElem_mem more))]
      exact ih more (by omega) (by rw [List.length_set, size]) written1
    · have last : text.length = n + 1 := by omega
      have next : input.byte (p + (n + 1)) = rest.headD 0 := by
        rw [← last]
        exact ahead.drop.first
      rw [next, if_neg (by rw [stops]; decide)]
      refine ⟨_, rfl, ?_, by simp only; omega, by simp [size]⟩
      simp only
      rw [List.take_set_of_le (Nat.le_refl _), written1, List.take_of_length_le (by omega)]

theorem gives_id {name : Ident} (ahead : Ahead input p (name.text ++ rest))
    (first : isIdStart (name.text.headD 0) = true) (letters : ∀ c ∈ name.text, isIdChar c = true)
    (small : name.text.length < 1024) (stops : isIdChar (rest.headD 0) = false) (size : store.length = 1025) :
    Gives input strtod p store (.id name) (p + name.text.length) := by
  have some_ : 0 < name.text.length := List.length_pos_iff.mpr name.nonempty
  have here : input.byte p = name.text.headD 0 := ahead.head name.nonempty
  obtain ⟨s, scan, token, next, size'⟩ :=
    scanIdentifier_spelled ahead letters small stops (1024 + 1) some_ (by omega) size (by simp)
  refine ⟨0, s, ?_, ?_, next, size'⟩
  · rw [scanToken, here, if_pos first, scan]
  · rw [token, identifierToken_eq name.nonempty name.no_nul]

theorem Character.Fits.nonneg {x : Character} {next : UInt8} (fits : x.Fits next) : 0 ≤ x.value := by
  cases x with
  | plain c => exact Int.natCast_nonneg _
  | escaped c => exact fits

theorem clexParseChar_spelled {x : Character} (ahead : Ahead input p (x.spell ++ rest)) (fits : x.Fits (rest.headD 0)) :
    clexParseChar input p = (x.value, p + x.spell.length) := by
  cases x with
  | plain c =>
    have here : input.byte p = c := ahead.first
    have next : input.byte (p + 1) = rest.headD 0 := Ahead.second ahead
    rw [clexParseChar, here, next]
    split
    · rename_i backslash
      rw [fits backslash]
      rfl
    · rfl
  | escaped c =>
    have here : input.byte p = byteOf '\\' := ahead.first
    have next : input.byte (p + 1) = c := Ahead.second ahead
    rw [clexParseChar, here, next, if_pos rfl, Character.value]
    simp only [Character.Fits] at fits
    cases known : escape? c with
    | none =>
      rw [known] at fits
      exact absurd fits (by decide)
    | some n => rfl

theorem scanString_spelled {start : Nat} (quote : input.byte start = byteOf '"') (fuel : Nat) :
    ∀ {chars : List Character} {p out : Nat} {store : Bytes},
    Ahead input p (chars.flatMap Character.spell ++ byteOf '"' :: rest) → CharactersFit chars →
    out + chars.length ≤ 1024 → chars.length < fuel → store.length = 1025 →
    ∃ s, scanString input 1024 start fuel p out store = some s ∧
      s.token = .dqstring (store.take out ++ chars.map fun x => UInt8.ofNat x.value.toNat) ∧
      s.next = p + (chars.flatMap Character.spell).length + 1 ∧ s.store.length = 1025 := by
  induction fuel with
  | zero =>
    intro chars p out store ahead fits room enough size
    omega
  | succ fuel ih =>
    intro chars p out store ahead fits room enough size
    unfold scanString
    cases chars with
    | nil =>
      have here : input.byte p = byteOf '"' := ahead.first
      rw [if_pos (here.trans quote.symm)]
      refine ⟨_, rfl, ?_, rfl, by simp [size]⟩
      simp only
      rw [List.take_set_of_le (Nat.le_refl _), List.map_nil, List.append_nil]
    | cons x chars =>
      obtain ⟨⟨other, reads⟩, fits⟩ := fits
      rw [List.flatMap_cons, List.append_assoc] at ahead
      have next : (chars.flatMap Character.spell ++ byteOf '"' :: rest).headD 0 =
          (chars.flatMap Character.spell ++ [byteOf '"']).headD 0 := by
        cases chars.flatMap Character.spell with
        | nil => rfl
        | cons c cs => rfl
      rw [← next] at reads
      have first : input.byte p ≠ byteOf '"' := by
        cases x with
        | plain c =>
          rw [show input.byte p = c from ahead.first]
          rintro rfl
          exact other rfl
        | escaped c =>
          rw [show input.byte p = byteOf '\\' from ahead.first]
          decide
      have positive := reads.nonneg
      rw [List.length_cons] at room enough
      rw [if_neg (fun close => first (close.trans quote)), clexParseChar_spelled ahead reads]
      simp only
      rw [if_neg (by omega), if_neg (by omega)]
      obtain ⟨s, scan, token, next, size'⟩ := @ih chars (p + x.spell.length) (out + 1)
        (store.set out (UInt8.ofNat x.value.toNat)) ahead.drop fits (by omega) (by omega) (by rw [List.length_set, size])
      refine ⟨s, scan, ?_, ?_, size'⟩
      · rw [token, take_set_succ (by omega), List.append_assoc]
        rfl
      · rw [next, List.flatMap_cons, List.length_append]
        omega

theorem gives_literal {chars : List Character}
    (ahead : Ahead input p (byteOf '"' :: (chars.flatMap Character.spell ++ [byteOf '"']) ++ rest))
    (fits : CharactersFit chars) (small : chars.length ≤ 1024) (size : store.length = 1025) :
    Gives input strtod p store (.dqstring (chars.map fun x => UInt8.ofNat x.value.toNat))
      (p + (byteOf '"' :: (chars.flatMap Character.spell ++ [byteOf '"'])).length) := by
  have quote : input.byte p = byteOf '"' := ahead.first
  rw [List.cons_append, List.append_assoc] at ahead
  obtain ⟨s, scan, token, next, size'⟩ :=
    scanString_spelled quote (1024 + 1) ahead.tail fits (by omega : 0 + chars.length ≤ 1024) (by omega) size
  refine ⟨0, s, ?_, token, ?_, size'⟩
  · rw [scanToken, quote, if_neg (by decide), if_pos rfl, scan]
  · rw [next, List.length_cons, List.length_append, List.length_singleton]
    omega

theorem gives_charLiteral {x : Character} {lost : UInt8}
    (ahead : Ahead input p (byteOf '\'' :: (x.spell ++ [byteOf '\'', lost]) ++ rest)) (fits : x.Fits (byteOf '\''))
    (size : store.length = 1025) :
    Gives input strtod p store (.charlit x.value) (p + (byteOf '\'' :: (x.spell ++ [byteOf '\'', lost])).length) := by
  have quote : input.byte p = byteOf '\'' := ahead.first
  rw [List.cons_append, List.append_assoc] at ahead
  have char := clexParseChar_spelled ahead.tail fits
  have positive := fits.nonneg
  have close : input.byte (p + 1 + x.spell.length) = byteOf '\'' := ahead.tail.drop.first
  have inside : p + 1 + x.spell.length ≠ input.eof := Nat.ne_of_lt ahead.tail.drop.more
  have scan : scanChar input p = (.charlit x.value, p + 1 + x.spell.length + 2) := by
    rw [scanChar, char]
    simp only
    rw [if_neg (by omega), close, if_neg (by simp [inside])]
  refine ⟨0, ⟨.charlit x.value, p + 1 + x.spell.length + 2, store⟩, ?_, rfl, ?_, size⟩
  · rw [scanToken, quote, if_neg (by decide), if_neg (by decide), if_pos rfl, scan]
    rfl
  · simp only [List.length_cons, List.length_append, List.length_nil]
    omega

/-! ## Numbers -/

theorem strtolLoop_digits {base : Nat} {digits : Bytes} (fuel : Nat) : ∀ {p n : Nat}, Ahead input p (digits ++ rest) →
    (∀ c ∈ digits, (digit? base c).isSome = true) → digit? base (rest.headD 0) = none → digits.length < fuel →
    strtolLoop input base fuel p n =
      some (digits.foldl (fun n c => n * base + (digit? base c).getD 0) n, p + digits.length) := by
  induction digits generalizing fuel with
  | nil =>
    intro p n ahead all stops enough
    obtain ⟨fuel, rfl⟩ := Nat.exists_eq_succ_of_ne_zero (by omega : fuel ≠ 0)
    have here : input.byte p = rest.headD 0 := ahead.first
    rw [strtolLoop, here, stops]
    rfl
  | cons c digits ih =>
    intro p n ahead all stops enough
    rw [List.length_cons] at enough
    obtain ⟨fuel, rfl⟩ := Nat.exists_eq_succ_of_ne_zero (by omega : fuel ≠ 0)
    obtain ⟨d, digit⟩ := Option.isSome_iff_exists.mp (all c (by simp))
    have here : input.byte p = c := ahead.first
    rw [strtolLoop, here, digit]
    simp only
    rw [ih fuel ahead.tail (fun c mem => all c (by simp [mem])) stops (by omega), List.foldl_cons, digit, List.length_cons]
    simp only [Option.getD_some]
    congr 2
    omega

theorem strtol_digits {base fuel : Nat} {digits : Bytes} (ahead : Ahead input p (digits ++ rest))
    (all : ∀ c ∈ digits, (digit? base c).isSome = true) (stops : digit? base (rest.headD 0) = none)
    (plain : base = 16 → hexPrefix input p = false) (enough : digits.length < fuel) :
    strtol input base fuel p = some (min (digitsValue base digits : Int) (2 ^ 63 - 1), p + digits.length) := by
  have start : ¬ (base = 16 ∧ hexPrefix input p = true) := by
    rintro ⟨hex, marked⟩
    rw [plain hex] at marked
    cases marked
  rw [strtol, if_neg start, strtolLoop_digits fuel ahead all stops enough]
  rfl

/-- The digits at `p` and the byte behind them. -/
theorem digits_mark {text : Bytes} (ahead : Ahead input p text) :
    ∃ q, scanWhile input (fun i => isDigit (input.byte i)) (text.length + 1) p = some q ∧
      ((q ≠ input.eof ∧ (input.byte q = byteOf '.' ∨ input.byte q = byteOf 'e' ∨ input.byte q = byteOf 'E')) ↔
        floatMark text = true) := by
  have split : text = text.takeWhile isDigit ++ text.dropWhile isDigit := List.takeWhile_append_dropWhile.symm
  have ahead' := ahead
  rw [split] at ahead'
  have stops : text.dropWhile isDigit = [] ∨ isDigit ((text.dropWhile isDigit).headD 0) = false := by
    cases tail : text.dropWhile isDigit with
    | nil => exact .inl rfl
    | cons c cs =>
      have here := List.head?_dropWhile_not isDigit text
      rw [tail] at here
      exact .inr (by simpa using here)
  have fewer : (text.takeWhile isDigit).length + 1 ≤ text.length + 1 :=
    Nat.succ_le_succ (List.takeWhile_prefix isDigit).length_le
  have run := scanWhile_bytes ahead' (fun c mem => List.mem_takeWhile_imp mem) stops
  refine ⟨_, scanWhile_mono fewer run, ?_⟩
  have here : input.byte (p + (text.takeWhile isDigit).length) = (text.dropWhile isDigit).headD 0 := ahead'.drop.first
  rw [here]
  simp only [floatMark, Bool.or_eq_true, beq_iff_eq, or_assoc]
  refine ⟨And.right, fun mark => ⟨fun ended => ?_, mark⟩⟩
  have nul : (text.dropWhile isDigit).headD 0 = 0 := by
    rw [← here, ended]
    exact ahead.nul
  rw [nul] at mark
  exact absurd mark (by decide)

theorem hexMark_iff : hexMark c = true ↔ c = byteOf 'x' ∨ c = byteOf 'X' := by
  simp [hexMark]

/-- Digits with a `0x` before them are not those of a float. -/
theorem hex_no_float {text : Bytes} (ahead : Ahead input p text) (zero : input.byte p = byteOf '0')
    (mark : hexMark (input.byte (p + 1)) = true) : floatMark text = false := by
  have first := ahead.first.symm.trans zero
  obtain _ | ⟨c, text⟩ := text
  · cases first
  obtain rfl : c = byteOf '0' := first
  rw [ahead.second] at mark
  obtain _ | ⟨x, text⟩ := text
  · cases mark
  have digit : isDigit (byteOf '0') = true := by decide
  obtain ⟨other, -, -⟩ := hexMark_isDigit x mark
  rw [floatMark, List.dropWhile_cons_of_pos digit, List.dropWhile_cons_of_neg (by rw [other]; decide), List.headD_cons]
  rcases hexMark_iff.mp mark with rfl | rfl
  · rfl
  · rfl

theorem gives_number {t : Token} {fuel : Nat} (digit : isDigit (input.byte p) = true)
    (number : scanNumber input strtod fuel p = some (t, q)) (size : store.length = 1025) :
    Gives input strtod p store t q := by
  obtain ⟨other, double, single⟩ := digit_class _ digit
  refine ⟨fuel, ⟨t, q, store⟩, ?_, rfl, rfl, size⟩
  rw [scanToken, other, if_neg (by decide), if_neg double, if_neg single, if_pos digit, number]
  rfl

theorem head_ne_nil {digits : Bytes} (first : isDigit (digits.headD 0) = true) : digits ≠ [] := by
  rintro rfl
  cases first

theorem gives_float {spelling : Bytes} {value : BitVec 64} (ahead : Ahead input p (spelling ++ rest))
    (first : isDigit (spelling.headD 0) = true) (mark : floatMark (spelling ++ rest) = true)
    (number : strtod p = (value, p + spelling.length)) (size : store.length = 1025) :
    Gives input strtod p store (.floatlit value) (p + spelling.length) := by
  have here : input.byte p = spelling.headD 0 := ahead.head (head_ne_nil first)
  obtain ⟨q, digits, float⟩ := digits_mark ahead
  have plain : ¬ (input.byte p = byteOf '0' ∧ p + 1 ≠ input.eof ∧
      (input.byte (p + 1) = byteOf 'x' ∨ input.byte (p + 1) = byteOf 'X')) := by
    rintro ⟨zero, -, hex⟩
    rw [hex_no_float ahead zero (hexMark_iff.mpr hex)] at mark
    cases mark
  have scan : scanNumber input strtod ((spelling ++ rest).length + 1) p = some (.floatlit value, p + spelling.length) := by
    rw [scanNumber, if_neg plain, digits, Option.bind_eq_bind, Option.bind_some, if_pos (float.mpr mark), number]
  exact gives_number (by rw [here]; exact first) scan size

/-- A zero before an `x` without a digit. -/
theorem scanNumber_zero (ahead : Ahead input p (byteOf '0' :: rest)) (mark : hexMark (rest.headD 0) = true)
    (none_ : digit? 16 (rest.getD 1 0) = none) : scanNumber input strtod (rest.length + 2) p = some (.intlit 0, p + 1) := by
  obtain _ | ⟨x, rest⟩ := rest
  · cases mark
  have zero : input.byte p = byteOf '0' := ahead.first
  have second : input.byte (p + 1) = x := ahead.second
  have third : input.byte (p + 2) = rest.headD 0 := ahead.tail.second
  have inside : p + 1 ≠ input.eof := Nat.ne_of_lt ahead.tail.more
  have last : digit? 16 (rest.headD 0) = none := by
    rw [← none_]
    cases rest with
    | nil => rfl
    | cons c rest => rfl
  have no_prefix : hexPrefix input p = false := by
    rw [hexPrefix, third, last]
    exact Bool.and_false _
  have number : strtol input 16 ((x :: rest).length + 2) p = some (0, p + 1) :=
    strtol_digits (show Ahead input p ([byteOf '0'] ++ x :: rest) from ahead) (by simp [digit_zero])
      (hexMark_isDigit x mark).2.1 (fun _ => no_prefix) (by simp)
  rw [scanNumber, if_pos ⟨zero, inside, by rw [second]; exact hexMark_iff.mp mark⟩, scanHexInteger, number,
    Option.bind_eq_bind, Option.bind_some, if_neg (by simp only; omega)]

theorem scanNumber_digits {digits : Bytes} (ahead : Ahead input p (digits ++ rest))
    (first : isDigit (digits.headD 0) = true) (all : ∀ c ∈ digits, (digit? (baseOf digits) c).isSome = true)
    (stops : digit? (baseOf digits) (rest.headD 0) = none) (whole : floatMark (digits ++ rest) = false)
    (plain : ¬ (input.byte p = byteOf '0' ∧ p + 1 ≠ input.eof ∧
      (input.byte (p + 1) = byteOf 'x' ∨ input.byte (p + 1) = byteOf 'X'))) :
    scanNumber input strtod ((digits ++ rest).length + 1) p =
      some (.intlit (min (digitsValue (baseOf digits) digits) (2 ^ 63 - 1)), p + digits.length) := by
  have here : input.byte p = digits.headD 0 := ahead.head (head_ne_nil first)
  obtain ⟨q, run, float⟩ := digits_mark ahead
  have base : baseOf digits ≠ 16 := by
    unfold baseOf
    split
    · decide
    · decide
  have integer : scanInteger input ((digits ++ rest).length + 1) (baseOf digits) p =
      some (.intlit (min (digitsValue (baseOf digits) digits) (2 ^ 63 - 1)), p + digits.length) := by
    rw [scanInteger, strtol_digits ahead all stops (fun hex => absurd hex base) (by rw [List.length_append]; omega)]
    rfl
  have no_float : ¬ (q ≠ input.eof ∧ (input.byte q = byteOf '.' ∨ input.byte q = byteOf 'e' ∨ input.byte q = byteOf 'E')) := by
    intro mark
    rw [float.mp mark] at whole
    cases whole
  rw [scanNumber, if_neg plain, run, Option.bind_eq_bind, Option.bind_some, if_neg no_float, here]
  by_cases octal : digits.headD 0 = byteOf '0'
  · have eight : baseOf digits = 8 := if_pos octal
    rw [if_pos octal, ← eight, integer]
  · have ten : baseOf digits = 10 := if_neg octal
    rw [if_neg octal, ← ten, integer]

theorem gives_integer {digits : Bytes} (ahead : Ahead input p (digits ++ rest)) (first : isDigit (digits.headD 0) = true)
    (all : ∀ c ∈ digits, (digit? (baseOf digits) c).isSome = true) (stops : digit? (baseOf digits) (rest.headD 0) = none)
    (whole : floatMark (digits ++ rest) = false)
    (zero : digits = [byteOf '0'] → hexMark (rest.headD 0) = true → digit? 16 (rest.getD 1 0) = none)
    (size : store.length = 1025) :
    Gives input strtod p store (.intlit (min (digitsValue (baseOf digits) digits) (2 ^ 63 - 1))) (p + digits.length) := by
  have here : input.byte p = digits.headD 0 := ahead.head (head_ne_nil first)
  have digit : isDigit (input.byte p) = true := by rw [here]; exact first
  by_cases hex : input.byte p = byteOf '0' ∧ p + 1 ≠ input.eof ∧
      (input.byte (p + 1) = byteOf 'x' ∨ input.byte (p + 1) = byteOf 'X')
  · obtain ⟨nought, -, mark⟩ := hex
    have mark := hexMark_iff.mpr mark
    obtain _ | ⟨c, digits⟩ := digits
    · cases first
    obtain rfl : c = byteOf '0' := here.symm.trans nought
    obtain _ | ⟨x, digits⟩ := digits
    · rw [show input.byte (p + 1) = rest.headD 0 from ahead.second] at mark
      exact gives_number digit (scanNumber_zero ahead mark (zero rfl mark)) size
    · -- the second byte is an octal digit
      rw [show input.byte (p + 1) = x from ahead.second] at mark
      have octal := all x (by simp)
      rw [show baseOf (byteOf '0' :: x :: digits) = 8 from if_pos rfl, (hexMark_isDigit x mark).2.2] at octal
      cases octal
  · exact gives_number digit (scanNumber_digits ahead first all stops whole hex) size

theorem gives_hexInteger {mark : UInt8} {digits : Bytes} (ahead : Ahead input p (byteOf '0' :: mark :: digits ++ rest))
    (hex : hexMark mark = true) (some_ : digits ≠ []) (all : ∀ c ∈ digits, (digit? 16 c).isSome = true)
    (stops : digit? 16 (rest.headD 0) = none) (size : store.length = 1025) :
    Gives input strtod p store (.intlit (min (digitsValue 16 digits) (2 ^ 63 - 1)))
      (p + (byteOf '0' :: mark :: digits).length) := by
  have zero : input.byte p = byteOf '0' := ahead.first
  have second : input.byte (p + 1) = mark := ahead.second
  have behind : Ahead input (p + 1 + 1) (digits ++ rest) := ahead.tail.tail
  obtain ⟨c, more, rfl⟩ := List.exists_cons_of_ne_nil some_
  have third : input.byte (p + 2) = c := behind.first
  have inside : p + 1 ≠ input.eof := Nat.ne_of_lt ahead.tail.more
  have marked : hexPrefix input p = true := by
    rw [hexPrefix, zero, second, third, all c (by simp)]
    simpa [hexMark] using hex
  have number : strtol input 16 ((c :: more).length + 1) p =
      some (min (digitsValue 16 (c :: more) : Int) (2 ^ 63 - 1), p + 1 + 1 + (c :: more).length) := by
    rw [strtol, if_pos ⟨rfl, marked⟩, strtolLoop_digits ((c :: more).length + 1) behind all stops (Nat.lt_succ_self _)]
    rfl
  have scan : scanNumber input strtod ((c :: more).length + 1) p =
      some (.intlit (min (digitsValue 16 (c :: more)) (2 ^ 63 - 1)), p + 1 + 1 + (c :: more).length) := by
    rw [scanNumber, if_pos ⟨zero, inside, by rw [second]; exact hexMark_iff.mp hex⟩, scanHexInteger, number,
      Option.bind_eq_bind, Option.bind_some, if_neg (by simp only [List.length_cons]; omega)]
  have gives := @gives_number input strtod p _ store _ _ (by rw [zero]; decide) scan size
  have last : p + 1 + 1 + (c :: more).length = p + (byteOf '0' :: mark :: c :: more).length := by
    simp only [List.length_cons]
    omega
  rwa [last] at gives

/-! ## Operators and single characters -/

theorem operators_class : ∀ c, operators c ≠ [] →
    isIdStart c = false ∧ isDigit c = false ∧ (c ≠ byteOf '"' ∧ c ≠ byteOf '\'') ∧ clexIswhite c = false ∧ c ≠ byteOf '#' :=
  forall_byte (by decide +kernel)

theorem slash_operator {d : UInt8} {o : Operator} (known : (operators (byteOf '/')).lookup d = some o) : d = byteOf '=' := by
  rw [show operators (byteOf '/') = [(byteOf '=', .diveq)] from rfl, List.lookup_cons] at known
  split at known
  · rename_i same
    exact eq_of_beq same
  · cases known

/-- The operators of two characters are in the table, and the others begin with one. -/
theorem operator_spell {o : Operator} (known : o ≠ .eqarrow) :
    ∃ c d o' tail, operatorSpelling o = c :: d :: tail ∧ (operators c).lookup d = some o' ∧
      (tail = [] ∧ o' = o ∨ tail = [byteOf '='] ∧ (o' = .shl ∧ o = .shleq ∨ o' = .shr ∧ o = .shreq)) := by
  cases o with
  | eqarrow => exact absurd rfl known
  | shleq => exact ⟨_, _, .shl, _, rfl, by decide, .inr ⟨rfl, .inl ⟨rfl, rfl⟩⟩⟩
  | shreq => exact ⟨_, _, .shr, _, rfl, by decide, .inr ⟨rfl, .inr ⟨rfl, rfl⟩⟩⟩
  | _ => exact ⟨_, _, _, [], rfl, by decide, .inl ⟨rfl, rfl⟩⟩

theorem operatorAt_spelled {o : Operator} (ahead : Ahead input p (operatorSpelling o ++ rest)) (known : o ≠ .eqarrow)
    (short : o = .shl ∨ o = .shr → rest.headD 0 ≠ byteOf '=') :
    operatorAt input p = some (o, p + (operatorSpelling o).length - 1) := by
  obtain ⟨c, d, o', tail, spelling, here, cases_⟩ := operator_spell known
  rw [spelling] at ahead ⊢
  have first : input.byte p = c := ahead.first
  have second : input.byte (p + 1) = d := ahead.second
  have third : input.byte (p + 2) = (tail ++ rest).headD 0 := ahead.tail.second
  have inside : p + 1 ≠ input.eof := Nat.ne_of_lt ahead.tail.more
  rw [operatorAt, if_neg inside, first, second, here]
  rcases cases_ with ⟨rfl, rfl⟩ | ⟨rfl, ⟨rfl, rfl⟩ | ⟨rfl, rfl⟩⟩
  · rw [List.nil_append] at third
    simp only [third]
    split
    · rename_i none_
      cases none_
    · rename_i shl
      cases shl
      rw [if_neg fun assigns => short (.inl rfl) assigns.2]
      rfl
    · rename_i shr
      cases shr
      rw [if_neg fun assigns => short (.inr rfl) assigns.2]
      rfl
    · rename_i other
      cases other
      rfl
  · have inside' : p + 2 ≠ input.eof := Nat.ne_of_lt ahead.tail.tail.more
    simp only [third]
    exact if_pos ⟨inside', rfl⟩
  · have inside' : p + 2 ≠ input.eof := Nat.ne_of_lt ahead.tail.tail.more
    simp only [third]
    exact if_pos ⟨inside', rfl⟩

theorem gives_op {o : Operator} (ahead : Ahead input p (operatorSpelling o ++ rest)) (known : o ≠ .eqarrow)
    (short : o = .shl ∨ o = .shr → rest.headD 0 ≠ byteOf '=') (size : store.length = 1025) :
    Gives input strtod p store (.op o) (p + (operatorSpelling o).length) ∧ Skips input p (.ends p) := by
  have here := operatorAt_spelled ahead known short
  obtain ⟨c, d, o', tail, spelling, entry, -⟩ := operator_spell known
  have length : p + (operatorSpelling o).length - 1 + 1 = p + (operatorSpelling o).length := by
    rw [spelling, List.length_cons]
    omega
  rw [spelling] at ahead
  have first : input.byte p = c := ahead.first
  have second : input.byte (p + 1) = d := ahead.second
  have some_ : operators c ≠ [] := by
    intro none_
    rw [none_] at entry
    cases entry
  obtain ⟨id, digit, ⟨double, single⟩, white, hash⟩ := operators_class c some_
  refine ⟨⟨0, ⟨.op o, p + (operatorSpelling o).length, store⟩, ?_, rfl, rfl, size⟩, ?_⟩
  · rw [scanToken, first, id, digit, if_neg (by decide), if_neg double, if_neg single, if_neg (by decide), here]
    simp only
    rw [length]
  · refine .ends (.inr (by rw [first]; exact white)) (fun _ slash => ?_) fun _ => by rw [first]; exact hash
    obtain rfl : c = byteOf '/' := first.symm.trans slash
    rw [second, slash_operator entry]
    decide

theorem gives_char {c : Fin 128} (ahead : Ahead input p (UInt8.ofNat c :: rest))
    (fits : CharFits (UInt8.ofNat c) (rest.headD 0)) (size : store.length = 1025) :
    Gives input strtod p store (.char c) (p + 1) ∧ Skips input p (.ends p) := by
  have first : input.byte p = UInt8.ofNat c := ahead.first
  have second : input.byte (p + 1) = rest.headD 0 := ahead.second
  have none_ : operatorAt input p = none := by
    unfold operatorAt
    split
    · rfl
    · rw [first, second, fits.operator]
  have value : (Fin.ofNat 128 (UInt8.ofNat c).toNat : Fin 128) = c := by
    have small := c.isLt
    apply Fin.ext
    show (UInt8.ofNat c).toNat % 128 = c
    rw [UInt8.toNat_ofNat']
    omega
  refine ⟨⟨0, ⟨.char c, p + 1, store⟩, ?_, rfl, rfl, size⟩, ?_⟩
  · rw [scanToken, first, fits.id, fits.digit, if_neg (by decide), if_neg fits.quote.1, if_neg fits.quote.2,
      if_neg (by decide), none_]
    simp only
    rw [value]
  · refine .ends (.inr (by rw [first]; exact fits.white)) (fun _ slash => ?_) fun _ => by rw [first]; exact fits.hash
    rw [second]
    exact fits.comment (first.symm.trans slash)

/-! ## All lexemes -/

/-- The body of a comment up to the end of the line, or of a preprocessor line. -/
theorem scanWhile_line {body : Bytes} (ahead : Ahead input p (body ++ rest)) (all : ∀ c ∈ body, lineByte c = true)
    (stops : rest = [] ∨ lineByte (rest.headD 0) = false) :
    scanWhile input (inLine input) (body.length + 1) p = some (p + body.length) :=
  scanWhile_bytes ahead all stops

theorem scanWhile_comment {body : Bytes} (ahead : Ahead input p (body ++ commentEnd ++ rest)) (fits : CommentFits body) :
    scanWhile input (inComment input) (body.length + 1) p = some (p + body.length) := by
  have size := ahead.eof
  simp only [List.length_append, commentEnd, List.length_cons, List.length_nil] at size
  have bytes : ∀ i ≤ body.length + 1, input.byte (p + i) = (body ++ commentEnd).getD i 0 := by
    intro i bound
    exact ahead.byte_append (by simp only [List.length_append, commentEnd, List.length_cons, List.length_nil]; omega)
  refine scanWhile_count _ (fun i inside => ⟨by omega, ?_⟩) (.inr ?_)
  · rw [inComment, bytes i (by omega), Nat.add_assoc, bytes (i + 1) (by omega)]
    simpa using fits i inside
  · rw [inComment, bytes _ (by omega), Nat.add_assoc, bytes _ (by omega),
      List.getD_append_right _ _ _ _ (Nat.le_refl _), List.getD_append_right _ _ _ _ (Nat.le_add_right _ 1),
      Nat.sub_self, Nat.add_sub_cancel_left]
    decide

/-- A lexeme without a token is skipped. -/
theorem Lexeme.skips {x : Lexeme} (ahead : Ahead input p (x.spell ++ rest)) (fits : x.Fits strtod p rest)
    (none_ : x.token? = none) (r : Skipped) (later : Skips input (p + x.spell.length) r) : Skips input p r := by
  have inside : ∀ {c : UInt8} {cs : Bytes}, Ahead input p (c :: cs) → p ≠ input.eof := fun ahead => Nat.ne_of_lt ahead.more
  have slash : lineByte (byteOf '/') = true := by decide
  have hash : lineByte (byteOf '#') = true := by decide
  cases x with
  | blank c =>
    have first : input.byte p = c := ahead.first
    exact .white (inside ahead) (by rw [first]; exact fits) later
  | lineComment body =>
    have line := scanWhile_line ahead (by simpa [Lexeme.spell, slash] using fits.1) fits.2
    exact .line (inside ahead) (.inl ⟨ahead.first, ahead.second⟩) line later
  | directive body =>
    have line := scanWhile_line ahead (by simpa [Lexeme.spell, hash] using fits.1) fits.2
    exact .line (inside ahead) (.inr ahead.first) line later
  | comment body =>
    have behind : Ahead input (p + 1 + 1) (body ++ commentEnd ++ rest) := ahead.tail.tail
    have close : p + 1 + 1 + body.length ≠ input.eof := by
      rw [List.append_assoc] at behind
      exact Nat.ne_of_lt behind.drop.more
    have length : p + (Lexeme.comment body).spell.length = p + 1 + 1 + body.length + 2 := by
      simp only [Lexeme.spell, commentEnd, List.length_cons, List.length_append, List.length_nil]
      omega
    rw [length] at later
    exact .comment (inside ahead) ahead.first ahead.second (scanWhile_comment behind fits) close later
  | _ => cases none_

/-- No lexeme is an error. -/
theorem Lexeme.fine {x : Lexeme} {t : Token} (token : x.token? = some t) : t.isError = false := by
  cases x with
  | blank _ => cases token
  | lineComment _ => cases token
  | comment _ => cases token
  | directive _ => cases token
  | _ =>
    obtain rfl := Option.some.inj token
    rfl

/-- The call on a lexeme with a token returns it. -/
theorem Lexeme.call {x : Lexeme} {t : Token} (ahead : Ahead input p (x.spell ++ rest)) (fits : x.Fits strtod p rest)
    (token : x.token? = some t) (size : store.length = 1025) :
    Gives input strtod p store t (p + x.spell.length) ∧ Skips input p (.ends p) ∧ x.spell ≠ [] := by
  have starts : ∀ {c : UInt8}, Starts c → input.byte p = c → Skips input p (.ends p) := fun starts here => starts.skips here
  cases x with
  | id name =>
    obtain rfl := Option.some.inj token
    obtain ⟨first, letters, small, stops⟩ := fits
    exact ⟨gives_id ahead first letters small stops size,
      starts (starts_letter _ first) (ahead.head name.nonempty), name.nonempty⟩
  | integer digits =>
    obtain rfl := Option.some.inj token
    obtain ⟨first, all, stops, whole, zero⟩ := fits
    exact ⟨gives_integer ahead first all stops whole zero size,
      starts (starts_digit _ first) (ahead.head (head_ne_nil first)), head_ne_nil first⟩
  | hexInteger mark digits =>
    obtain rfl := Option.some.inj token
    obtain ⟨hex, some_, all, stops⟩ := fits
    exact ⟨gives_hexInteger ahead hex some_ all stops size,
      starts (by decide : Starts (byteOf '0')) ahead.first, nofun⟩
  | float spelling value =>
    obtain rfl := Option.some.inj token
    obtain ⟨first, mark, number⟩ := fits
    exact ⟨gives_float ahead first mark number size,
      starts (starts_digit _ first) (ahead.head (head_ne_nil first)), head_ne_nil first⟩
  | literal chars =>
    obtain rfl := Option.some.inj token
    exact ⟨gives_literal ahead fits.1 fits.2 size, starts (by decide : Starts (byteOf '"')) ahead.first, nofun⟩
  | charLiteral x lost =>
    obtain rfl := Option.some.inj token
    exact ⟨gives_charLiteral ahead fits size, starts (by decide : Starts (byteOf '\'')) ahead.first, nofun⟩
  | op o =>
    obtain rfl := Option.some.inj token
    obtain ⟨gives, skips⟩ := @gives_op input strtod p rest store o ahead fits.1 fits.2 size
    obtain ⟨c, d, o', tail, spelling, -⟩ := operator_spell fits.1
    exact ⟨gives, skips, by rw [Lexeme.spell, spelling]; exact nofun⟩
  | char c =>
    obtain rfl := Option.some.inj token
    obtain ⟨gives, skips⟩ := @gives_char input strtod p rest store c ahead fits size
    exact ⟨gives, skips, nofun⟩
  | _ => cases token

/-- What comes before the first token takes no part in the calls. -/
theorem Reads.skip {scans : List Scan} (skips : ∀ r, Skips input q r → Skips input p r) (ahead : Ahead input p text)
    (before : p ≤ q) (reads : Reads input strtod q store scans) : Reads input strtod p store scans := by
  cases reads with
  | ended inside call => exact .ended ahead.inside ((Calls.skip skips ⟨_, call⟩).turns ahead)
  | token moves inside call later => exact .token (by omega) inside ((Calls.skip skips ⟨_, call⟩).turns ahead) later

/-- The calls on lexemes return their tokens, one after the other. -/
theorem reads_spelled (ls : List Lexeme) : ∀ {p : Nat} {store : Bytes}, Ahead input p (spellAll ls) → Spelt strtod p ls →
    store.length = 1025 → ∃ scans, scans.map Scan.token = ls.filterMap Lexeme.token? ∧ Reads input strtod p store scans := by
  induction ls with
  | nil =>
    intro p store ahead spelt size
    have done : p = input.eof := ahead.eof.symm
    exact ⟨[], rfl, .ended ahead.inside ((Calls.ended done).turns ahead)⟩
  | cons x ls ih =>
    intro p store ahead spelt size
    have ahead' : Ahead input p (x.spell ++ spellAll ls) := by rwa [spellAll, List.flatMap_cons] at ahead
    cases token : x.token? with
    | none =>
      obtain ⟨scans, tokens, reads⟩ := ih ahead'.drop spelt.2 size
      refine ⟨scans, ?_, reads.skip (Lexeme.skips ahead' spelt.1 token) ahead (Nat.le_add_right _ _)⟩
      rw [List.filterMap_cons_none token, tokens]
    | some t =>
      obtain ⟨⟨fuel, s, scan, rfl, next, size'⟩, skips, some_⟩ := Lexeme.call ahead' spelt.1 token size
      obtain ⟨scans, tokens, reads⟩ := ih ahead'.drop spelt.2 size'
      have length := List.length_pos_iff.mpr some_
      have inside : p < input.eof := by
        rw [ahead'.eof, List.length_append]
        omega
      rw [← next] at reads
      refine ⟨s :: scans, ?_, .token (by omega) reads.inside ((Calls.token (by omega) skips scan).turns ahead) reads⟩
      rw [List.filterMap_cons_some token, List.map_cons, tokens]

/-- The list of the calls is that of `scansFrom`. -/
theorem Reads.scansFrom {scans : List Scan} (reads : Reads input strtod p store scans) {n : Nat} (enough : input.eof < p + n) :
    Stb.scansFrom input strtod n p store = scans ∧ ∀ s ∈ scans, s.next ≤ input.eof := by
  induction reads generalizing n with
  | ended inside call =>
    obtain ⟨n, rfl⟩ := Nat.exists_eq_succ_of_ne_zero (by omega : n ≠ 0)
    rw [Stb.scansFrom, call]
    exact ⟨rfl, by simp⟩
  | token moves inside call later ih =>
    obtain ⟨n, rfl⟩ := Nat.exists_eq_succ_of_ne_zero (by omega : n ≠ 0)
    obtain ⟨same, all⟩ := @ih n (by omega)
    rw [Stb.scansFrom, call]
    refine ⟨congrArg (List.cons _) same, fun s here => ?_⟩
    rcases List.mem_cons.mp here with rfl | later
    · exact inside
    · exact all s later

/-- The tokens of a text that is put together from lexemes are theirs, and its literals are closed. -/
theorem tokensOf_spelled (ls : List Lexeme) (spelt : Spelt strtod 0 ls) :
    tokensOf strtod (spellAll ls) = ls.filterMap Lexeme.token? ∧ Closed strtod (spellAll ls) := by
  have fresh : freshStore.length = 1025 := List.length_replicate
  have enough : (Input.ofBytes (spellAll ls)).eof < 0 + ((spellAll ls).length + 1) := by simp [Input.ofBytes]
  obtain ⟨scans, tokens, reads⟩ := reads_spelled ls (ahead_ofBytes (spellAll ls)) spelt fresh
  obtain ⟨same, inside⟩ := reads.scansFrom enough
  have scans_ : scansOf strtod (spellAll ls) = scans := same
  refine ⟨by rw [tokensOf, scans_, tokens], ?_⟩
  unfold Closed
  rw [scans_]
  exact inside

end Calls

end Stb

end MoeToolchain
