import MoeToolchain.ProcMacro.Lexer
import MoeToolchain.ProcMacro.Types

/-!
# The parser of `proc_macro.c`

`parseDerivedStruct` and the functions under it, as the source has them: on the
lexer and the memory together, with every read of a string and every allocation.
Both builds of the assertions are there, since `moe_next_token` is an assertion.

The loops take the fuel `loopFuel`; no run of a build with assertions uses it up.
-/

namespace MoeToolchain
set_option autoImplicit false
open Lib

/-- The lexer and the memory of a run. -/
structure St where
  lex : StbLexer
  mem : Mem
deriving DecidableEq, Repr

section States

variable {α : Type}

def onLex (x : C StbLexer α) : C St α := Exec.zoom St.lex (fun lex s => { s with lex := lex }) x

def onMem (x : C Mem α) : C St α := Exec.zoom St.mem (fun mem s => { s with mem := mem }) x

end States

/-- `MOE_PROC_MACRO_DERIVES_MACRO_NAME`. -/
def moeProcMacroDerivesMacroName : Bytes := bytesOf "MOE_PROC_MACRO_DERIVES"

/-- `MOE_PROC_MACRO_DERIVES_ENUM_MACRO_NAME`. -/
def moeProcMacroDerivesEnumMacroName : Bytes := bytesOf "MOE_PROC_MACRO_DERIVES_ENUM"

/-- One turn for each token still to come, and for each derive item. -/
def loopFuel (lex : StbLexer) : Nat := lex.rest.length + moeProcMacroMaxDeriveItemNum + 1

/-! ## Derive items -/

/-- `id ( id , id )`. -/
def parseArgs (build : Build) : C StbLexer Unit := do
  moeExpectNextToken build clexId
  moeExpectNextToken build lparen
  moeExpectNextToken build clexId
  moeExpectNextToken build comma
  moeExpectNextToken build clexId
  moeExpectNextToken build rparen

/-- `while ((moe_next_token(lex), lex->token) == ',') parse_args(lex);` -/
def argsLoop (build : Build) : Nat → C StbLexer Unit
  | 0 => Exec.fault .outOfFuel
  | fuel + 1 => do
    moeNextToken build
    let lex ← get
    if lex.token = comma then do
      parseArgs build
      argsLoop build fuel
    else pure ()

def parseDeriveItem (build : Build) (item : ItemSlot) : C St Unit := do
  onLex (moeExpectNextToken build clexId)
  let lex ← onLex get
  onMem (moeDeriveItemCreate item lex.string 0)
  onLex (argsLoop build (loopFuel lex))

/-- The step past the token that ended the arguments, and past one `;`. -/
def nextPastSemicolon (build : Build) : C StbLexer Unit := do
  moeNextToken build
  let lex ← get
  if lex.token = semicolon then moeNextToken build else pure ()

/-- 1 for a derive item, 0 for no further one, -1 for another struct's name. -/
def tryParseDerive (build : Build) (structName : Ptr) (item : ItemSlot) : C St Int := do
  let lex ← onLex get
  if lex.token ≠ clexId ∨ ¬ strEq lex.string moeProcMacroDerivesMacroName then pure 0
  else do
    onLex (moeExpectNextToken build lparen)
    onLex (moeExpectNextToken build clexId)
    let name ← onMem (moeStringRead structName)
    let lex ← onLex get
    if ¬ strEq name lex.string then do
      -- the warning prints the struct's name once more
      let _ ← onMem (moeStringRead structName)
      pure (-1)
    else do
      onLex (moeExpectNextToken build comma)
      parseDeriveItem build item
      onLex (nextPastSemicolon build)
      pure 1

/-- A mismatching derive (-1) neither counts nor ends the loop. -/
def deriveLoop (build : Build) (structName : Ptr) (items : Addr) : Nat → Nat → C St Nat
  | 0, _ => Exec.fault .outOfFuel
  | fuel + 1, deriveCount =>
    if deriveCount < moeProcMacroMaxDeriveItemNum then do
      let ret ← tryParseDerive build structName ⟨items, deriveCount⟩
      if ret = 1 then deriveLoop build structName items fuel (deriveCount + 1)
      else if ret = 0 then pure deriveCount
      else deriveLoop build structName items fuel deriveCount
    else pure deriveCount

/-! ## The struct body -/

/-- A `long` converted to `int`. -/
def intOfLong (v : Int) : Int := (BitVec.ofInt 32 v).toInt

/-- A `long` converted to (signed) `char`. -/
def charOfLong (v : Nat) : Int := (BitVec.ofNat 8 v).toInt

/-- `n / 2 ^ k`, rounded to the nearest, halves to the even one. -/
def roundShift (n k : Nat) : Nat :=
  let q := n / 2 ^ k
  let r := n % 2 ^ k
  if 2 * r > 2 ^ k ∨ (2 * r = 2 ^ k ∧ q % 2 = 1) then q + 1 else q

/-- A `double` converted to `float`, on the bits of IEEE 754 numbers: round to nearest
even, overflow to infinity, and NaN to a quiet NaN. -/
def floatOfDouble (d : BitVec 64) : BitVec 32 :=
  let sign := d.toNat / 2 ^ 63
  let exponent := d.toNat / 2 ^ 52 % 2 ^ 11
  let mantissa := d.toNat % 2 ^ 52
  let magnitude :=
    if exponent = 2047 then
      if mantissa = 0 then 0x7F800000
      else 0x7FC00000 ||| (mantissa / 2 ^ 29)
    else
      let significand := if exponent = 0 then mantissa else 2 ^ 52 + mantissa
      let e := max exponent 1
      min ((e - 897) * 2 ^ 23 + roundShift significand (29 + (897 - e))) 0x7F800000
  BitVec.ofNat 32 (sign * 2 ^ 31 + magnitude)

/-- The token object for the lexer's current token. -/
def createBodyToken (lex : StbLexer) : C Mem Addr :=
  if lex.token = clexId then moeTokenCreateIdentifier lex.string lex.stringLen
  else if lex.token = clexSqstring ∨ lex.token = clexDqstring then
    moeTokenCreateStringLiteral lex.string lex.stringLen
  else if lex.token = clexIntlit then moeTokenCreateIntLiteral (intOfLong lex.intNumber)
  else if lex.token = clexFloatlit then moeTokenCreateFloatLiteral (floatOfDouble lex.realNumber)
  else moeTokenCreatePunctuation (charOfLong lex.token)

/-- The tokens up to the first `}` go into the metadata list. -/
def bodyLoop (build : Build) (derivedStruct : Addr) : Nat → C St Unit
  | 0 => Exec.fault .outOfFuel
  | fuel + 1 => do
    onLex (moeNextToken build)
    let lex ← onLex get
    if lex.token = rbrace then pure ()
    else do
      let token ← onMem (createBodyToken lex)
      onMem (moeDeriveStructMetadataAddToken (some derivedStruct) token)
      bodyLoop build derivedStruct fuel

/-- Whether the text in the lexer is `typedef`, stepping past that token. The text is
compared whatever the kind of the token is. -/
def typedefKeyword (build : Build) : C StbLexer Bool := do
  let lex ← get
  if strEq lex.string (bytesOf "typedef") then do
    moeNextToken build
    pure true
  else pure false

/-- The end of the declaration: the type name of a `typedef`, then `;`. -/
def declarationEnd (build : Build) (isTypedef : Bool) : C StbLexer Unit := do
  (if isTypedef then moeExpectNextToken build clexId else pure () : C StbLexer Unit)
  moeExpectNextToken build semicolon

/-- 1 for a parsed body, 0 for no struct or enum, -1 for another name. -/
def tryParseDerivedStructBody (build : Build) (structName : Ptr) (derivedStruct : Addr) : C St Int := do
  let isTypedef ← onLex (typedefKeyword build)
  let lex ← onLex get
  if lex.token ≠ clexId ∨ (¬ strEq lex.string (bytesOf "struct") ∧ ¬ strEq lex.string (bytesOf "enum")) then
    pure 0
  else do
    onLex (moeExpectNextToken build clexId)
    let name ← onMem (moeStringRead structName)
    let lex ← onLex get
    if ¬ strEq name lex.string then do
      let _ ← onMem (moeStringRead structName)
      pure (-1)
    else do
      onLex (moeExpectNextToken build lbrace)
      let lex ← onLex get
      bodyLoop build derivedStruct (loopFuel lex)
      onLex (declarationEnd build isTypedef)
      pure 1

/-! ## The whole block -/

/-- The struct with its name, and its first derive item. -/
def parseFirstDerive (build : Build) : C St (Addr × MoeDerivedStruct) := do
  onLex (moeExpectNextToken build lparen)
  onLex (moeExpectNextToken build clexId)
  let lex ← onLex get
  let derivedStruct ← onMem (moeDerivedStructAlloc lex.string moeProcMacroMaxDeriveItemNum)
  let fields ← onMem (loadAs Block.asDerivedStruct (some derivedStruct))
  onLex (moeExpectNextToken build comma)
  parseDeriveItem build ⟨fields.deriveItems, 0⟩
  onLex (nextPastSemicolon build)
  pure (derivedStruct, fields)

/-- `NULL` unless a whole block was parsed. -/
def parseDerivedStruct (build : Build) : C St Ptr := do
  let lex ← onLex get
  if lex.token ≠ clexId then pure none
  else if ¬ strEq lex.string moeProcMacroDerivesMacroName ∧
      ¬ strEq lex.string moeProcMacroDerivesEnumMacroName then pure none
  else do
    let (derivedStruct, fields) ← parseFirstDerive build
    let lex ← onLex get
    let deriveCount ← deriveLoop build fields.structName fields.deriveItems (loopFuel lex) 1
    onMem (setDeriveItemNum derivedStruct deriveCount)
    let result ← tryParseDerivedStructBody build fields.structName derivedStruct
    if result = 0 ∨ result = -1 then do
      -- the two branches differ in the message only, which prints the struct's name
      let _ ← onMem (moeStringRead fields.structName)
      onMem (moeDerivedStructFree (some derivedStruct))
      pure none
    else pure (some derivedStruct)

end MoeToolchain
