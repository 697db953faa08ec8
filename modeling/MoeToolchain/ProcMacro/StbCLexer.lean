import MoeToolchain.ProcMacro.Types
import MoeToolchain.ProcMacro.Lexer

/-!
# `stb_c_lexer.h`

The lexer itself, on the bytes of the input and with its string store in the memory of the
program, in the configuration of the header's default definitions. The parser's model takes
it as a stream of tokens (`StbLexer`); here it is about the bytes that it reads and writes.

Positions in the input are indices. What lies behind the end of the input is any bytes: the
lexer looks at the byte at its end, and an unclosed literal makes it read on. `strtod` is a
parameter. Loops over the input have a bound on their turns, and `outOfFuel` when it is
reached; the loops that write the store end at its length.
-/

namespace MoeToolchain
set_option autoImplicit false
open Lib

/-- The code of a character of the sources. -/
def byteOf (c : Char) : UInt8 := UInt8.ofNat c.toNat

namespace Stb

/-- The memory from the first byte of the input on, and the number of bytes of the input. -/
structure Input where
  byte : Nat → UInt8
  eof : Nat

/-- `stb_lexer`. -/
structure Lexer where
  parsePoint : Nat
  stringStorage : Addr
  stringStorageLen : Nat
  whereFirstchar : Int
  whereLastchar : Int
  token : Nat
  realNumber : BitVec 64
  intNumber : Int
  string : Ptr
  stringLen : Nat
deriving DecidableEq, Repr

/-- `stb_c_lexer_init`: the other fields keep what they are. -/
def stbCLexerInit (lexer : Lexer) (stringStore : Addr) (storeLength : Nat) : Lexer :=
  { lexer with parsePoint := 0, stringStorage := stringStore, stringStorageLen := storeLength }

/-- `stb__clex_token`. -/
def clexToken (lexer : Lexer) (token : Nat) (first last : Int) : Lexer :=
  { lexer with token := token, whereFirstchar := first, whereLastchar := last, parsePoint := (last + 1).toNat }

/-- `p[i] = c`. -/
def storeByte (p : Addr) (i : Nat) (c : UInt8) : C Mem Unit := do
  let data ← loadAs Block.asChars (some p)
  if i < data.length then storeBlock p (.chars (data.set i c)) else Exec.fault .outOfBounds

def clexIswhite (x : UInt8) : Bool :=
  x == byteOf ' ' || x == byteOf '\t' || x == byteOf '\r' || x == byteOf '\n' || x == 12

def isLetter (c : UInt8) : Bool :=
  (byteOf 'a' ≤ c && c ≤ byteOf 'z') || (byteOf 'A' ≤ c && c ≤ byteOf 'Z')

def isDigit (c : UInt8) : Bool := byteOf '0' ≤ c && c ≤ byteOf '9'

/-- A byte an identifier may start with; `$` and the bytes of UTF-8 characters are letters. -/
def isIdStart (c : UInt8) : Bool := isLetter c || c == byteOf '_' || 128 ≤ c || c == byteOf '$'

def isIdChar (c : UInt8) : Bool := isIdStart c || isDigit c

section Source

variable (input : Input)

/-! ## White space and comments -/

/-- The first position from `p` on that is the end of the input or not `go`. -/
def scanWhile (go : Nat → Bool) : Nat → Nat → Option Nat
  | 0, _ => none
  | fuel + 1, p => if p ≠ input.eof ∧ go p = true then scanWhile go fuel (p + 1) else some p

def inLine (p : Nat) : Bool := input.byte p != byteOf '\r' && input.byte p != byteOf '\n'

def inComment (p : Nat) : Bool := input.byte p != byteOf '*' || input.byte (p + 1) != byteOf '/'

/-- Where white space and comments end: at a token or the end of the input, or never. -/
inductive Skipped
  | ends (p : Nat)
  | unclosed (start p : Nat)
deriving DecidableEq, Repr

/-- The loop that skips white space, comments and preprocessor lines; `limit` bounds the inner loops. -/
def skipSpace (limit : Nat) : Nat → Nat → Option Skipped
  | 0, _ => none
  | fuel + 1, p => do
    let p ← scanWhile input (fun i => clexIswhite (input.byte i)) limit p
    if p ≠ input.eof ∧ input.byte p = byteOf '/' ∧ input.byte (p + 1) = byteOf '/' then do
      let p ← scanWhile input (inLine input) limit p
      skipSpace limit fuel p
    else if p ≠ input.eof ∧ input.byte p = byteOf '/' ∧ input.byte (p + 1) = byteOf '*' then do
      let q ← scanWhile input (inComment input) limit (p + 2)
      if q = input.eof then some (.unclosed p q) else skipSpace limit fuel (q + 2)
    else if p ≠ input.eof ∧ input.byte p = byteOf '#' then do
      let p ← scanWhile input (inLine input) limit p
      skipSpace limit fuel p
    else some (.ends p)

/-! ## Characters and strings -/

/-- The character that a backslash and `c` stand for, -1 where that is not supported. -/
def escape? (c : UInt8) : Option Int :=
  if c = byteOf '\\' then some 92
  else if c = byteOf '\'' then some 39
  else if c = byteOf '"' then some 34
  else if c = byteOf 't' then some 9
  else if c = byteOf 'f' then some 12
  else if c = byteOf 'n' then some 10
  else if c = byteOf 'r' then some 13
  else if c = byteOf '0' then some 0
  else if c = byteOf 'x' ∨ c = byteOf 'X' then some (-1)
  else if c = byteOf 'u' then some (-1)
  else none

/-- `stb__clex_parse_char`: the character at `p` and the position behind it. -/
def clexParseChar (p : Nat) : Int × Nat :=
  if input.byte p = byteOf '\\' then
    match escape? (input.byte (p + 1)) with
    | some n => (n, p + 2)
    | none => ((input.byte p).toNat, p + 1)
  else ((input.byte p).toNat, p + 1)

/-- The loop of `stb__clex_parse_string`, with `out` bytes written. -/
def parseStringLoop (lexer : Lexer) (start : Nat) (type : Nat) : Nat → Nat → Nat → C Mem Lexer
  | 0, _, _ => Exec.fault .outOfFuel
  | fuel + 1, p, out =>
    if input.byte p = input.byte start then do
      storeByte lexer.stringStorage out 0
      pure (clexToken { lexer with string := some lexer.stringStorage, stringLen := out } type start p)
    else
      let (n, q) := clexParseChar input p
      if n < 0 then pure (clexToken lexer clexParseError start q)
      else if out + 1 > lexer.stringStorageLen then pure (clexToken lexer clexParseError start q)
      else do
        storeByte lexer.stringStorage out (UInt8.ofNat n.toNat)
        parseStringLoop lexer start type fuel q (out + 1)

/-- `stb__clex_parse_string`. -/
def clexParseString (lexer : Lexer) (p : Nat) (type : Nat) : C Mem Lexer :=
  parseStringLoop input lexer p type (lexer.stringStorageLen + 1) (p + 1) 0

/-- The loop over an identifier, with `n` bytes written. -/
def identifierLoop (lexer : Lexer) (p : Nat) : Nat → Nat → C Mem Lexer
  | 0, _ => Exec.fault .outOfFuel
  | fuel + 1, n =>
    if n + 1 ≥ lexer.stringStorageLen then pure (clexToken lexer clexParseError p (p + n))
    else do
      storeByte lexer.stringStorage n (input.byte (p + n))
      if isIdChar (input.byte (p + (n + 1))) then identifierLoop lexer p fuel (n + 1)
      else do
        storeByte lexer.stringStorage (n + 1) 0
        pure (clexToken { lexer with stringLen := n + 1 } clexId p (p + n))

def identifier (lexer : Lexer) (p : Nat) : C Mem Lexer :=
  identifierLoop input { lexer with string := some lexer.stringStorage } p (lexer.stringStorageLen + 1) 0

/-- A character in single quotes. -/
def charLiteral (lexer : Lexer) (start : Nat) : Lexer :=
  let (n, p) := clexParseChar input (start + 1)
  let lexer := { lexer with intNumber := n }
  if n < 0 then clexToken lexer clexParseError start start
  else if p = input.eof ∨ input.byte p ≠ byteOf '\'' then clexToken lexer clexParseError start p
  else clexToken lexer clexCharlit start (p + 1)

/-! ## Numbers -/

def digit? (base : Nat) (c : UInt8) : Option Nat :=
  let value := if isDigit c then c.toNat - 48
    else if byteOf 'a' ≤ c ∧ c ≤ byteOf 'z' then c.toNat - 87
    else if byteOf 'A' ≤ c ∧ c ≤ byteOf 'Z' then c.toNat - 55
    else base
  if value < base then some value else none

def strtolLoop (base : Nat) : Nat → Nat → Nat → Option (Nat × Nat)
  | 0, _, _ => none
  | fuel + 1, q, n =>
    match digit? base (input.byte q) with
    | none => some (n, q)
    | some d => strtolLoop base fuel (q + 1) (n * base + d)

/-- `0x` before a hexadecimal digit. -/
def hexPrefix (p : Nat) : Bool :=
  input.byte p == byteOf '0' && (input.byte (p + 1) == byteOf 'x' || input.byte (p + 1) == byteOf 'X') &&
    (digit? 16 (input.byte (p + 2))).isSome

/-- `strtol` at a digit: the number, at most `LONG_MAX`, and the position behind it. -/
def strtol (base fuel p : Nat) : Option (Int × Nat) := do
  let r ← strtolLoop input base fuel (if base = 16 ∧ hexPrefix input p = true then p + 2 else p) 0
  some (min r.1 (2 ^ 63 - 1), r.2)

/-- An integer without prefix. -/
def integer (fuel : Nat) (lexer : Lexer) (base p : Nat) : Option Lexer := do
  let r ← strtol input base fuel p
  some (clexToken { lexer with intNumber := r.1 } clexIntlit p (r.2 - 1))

def hexInteger (fuel : Nat) (lexer : Lexer) (p : Nat) : Option Lexer := do
  let r ← strtol input 16 fuel p
  let lexer := { lexer with intNumber := r.1 }
  if r.2 = p + 2 then some (clexToken lexer clexParseError (p - 2) (p - 1))
  else some (clexToken lexer clexIntlit p (r.2 - 1))

/-- The cases of the digits; `strtod p` is the number at `p` and the position behind it. -/
def number (strtod : Nat → BitVec 64 × Nat) (fuel : Nat) (lexer : Lexer) (p : Nat) : Option Lexer :=
  if input.byte p = byteOf '0' ∧ p + 1 ≠ input.eof ∧
      (input.byte (p + 1) = byteOf 'x' ∨ input.byte (p + 1) = byteOf 'X') then hexInteger input fuel lexer p
  else do
    let q ← scanWhile input (fun i => isDigit (input.byte i)) fuel p
    if q ≠ input.eof ∧
        (input.byte q = byteOf '.' ∨ input.byte q = byteOf 'e' ∨ input.byte q = byteOf 'E') then
      some (clexToken { lexer with realNumber := (strtod p).1 } clexFloatlit p ((strtod p).2 - 1))
    else if input.byte p = byteOf '0' then integer input fuel lexer 8 p
    else integer input fuel lexer 10 p

/-! ## Tokens -/

/-- The operators of two characters, by the first one. -/
def operators (c : UInt8) : List (UInt8 × Operator) :=
  if c = byteOf '+' then [(byteOf '+', .plusplus), (byteOf '=', .pluseq)]
  else if c = byteOf '-' then [(byteOf '-', .minusminus), (byteOf '=', .minuseq), (byteOf '>', .arrow)]
  else if c = byteOf '&' then [(byteOf '&', .andand), (byteOf '=', .andeq)]
  else if c = byteOf '|' then [(byteOf '|', .oror), (byteOf '=', .oreq)]
  else if c = byteOf '=' then [(byteOf '=', .eq)]
  else if c = byteOf '!' then [(byteOf '=', .noteq)]
  else if c = byteOf '^' then [(byteOf '=', .xoreq)]
  else if c = byteOf '%' then [(byteOf '=', .modeq)]
  else if c = byteOf '*' then [(byteOf '=', .muleq)]
  else if c = byteOf '/' then [(byteOf '=', .diveq)]
  else if c = byteOf '<' then [(byteOf '=', .lesseq), (byteOf '<', .shl)]
  else if c = byteOf '>' then [(byteOf '=', .greatereq), (byteOf '>', .shr)]
  else []

/-- The operator at `p` and its last position. -/
def operatorAt (p : Nat) : Option (Operator × Nat) :=
  if p + 1 = input.eof then none
  else
    let assigns := p + 2 ≠ input.eof ∧ input.byte (p + 2) = byteOf '='
    match (operators (input.byte p)).lookup (input.byte (p + 1)) with
    | none => none
    | some .shl => if assigns then some (.shleq, p + 2) else some (.shl, p + 1)
    | some .shr => if assigns then some (.shreq, p + 2) else some (.shr, p + 1)
    | some o => some (o, p + 1)

/-- The `switch` on the first byte of a token. -/
def clexSwitch (strtod : Nat → BitVec 64 × Nat) (fuel : Nat) (lexer : Lexer) (p : Nat) : C Mem Lexer :=
  let c := input.byte p
  if isIdStart c then identifier input lexer p
  else if c = byteOf '"' then clexParseString input lexer p clexDqstring
  else if c = byteOf '\'' then pure (charLiteral input lexer p)
  else if isDigit c then
    match number input strtod fuel lexer p with
    | none => Exec.fault .outOfFuel
    | some lexer => pure lexer
  else
    match operatorAt input p with
    | some (o, last) => pure (clexToken lexer o.code p last)
    -- single_char
    | none => pure (clexToken lexer c.toNat p p)

/-- `stb_c_lexer_get_token`. -/
def stbCLexerGetToken (strtod : Nat → BitVec 64 × Nat) (fuel : Nat) (lexer : Lexer) : C Mem (Bool × Lexer) :=
  match skipSpace input fuel fuel lexer.parsePoint with
  | none => Exec.fault .outOfFuel
  | some (.unclosed start p) => pure (true, clexToken lexer clexParseError start (p - 1))
  | some (.ends p) =>
    if p = input.eof then pure (false, { lexer with token := clexEof })
    else do
      let lexer ← clexSwitch input strtod fuel lexer p
      pure (true, lexer)

end Source

end Stb

end MoeToolchain
