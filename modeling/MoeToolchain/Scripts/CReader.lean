import MoeToolchain.Lib.Readers
import MoeToolchain.Scripts.CTokens

/-!
# Reading generated C code

A reader of the fragment of C in `CText`, by recursive descent on the tokens of the lexer:
`*` binds tighter than `+`, this tighter than `==`, and operators of one kind group to
the left. A format comes back byte by byte (`CFunction.spread`).

Main result:

* `readProgram_written`: the tokens of written functions are read as these functions.
-/

namespace MoeToolchain
set_option autoImplicit false
open Lib Lib.Reader
open Stb (identifierToken)

/-! ## The reader -/

def readWord : Reader Token Bytes := do
  match ← next with
  | .id name => pure name.text
  | _ => fail

section Expressions

variable (inner : Reader Token CExpr)

/-- `inner` reads what is in parentheses. -/
def readPrimary : Reader Token CExpr := do
  match ← next with
  | .id name => pure (.ident name.text)
  | .intlit n => if range : 0 ≤ n ∧ n.toNat < 10 then pure (.digit ⟨n.toNat, range.2⟩) else fail
  | .dqstring [] => pure .emptyString
  | .char 40 => do
    let e ← inner
    expect [.char 41]
    pure (.paren e)
  | _ => fail

def readMembers : Reader Token CExpr := do
  let e ← readPrimary inner
  let fields ← many [.op .arrow] readWord
  pure (fields.foldl .arrow e)

def readSigned : Reader Token CExpr := do
  let cast ← accept CUnary.voidPtr.tokens
  if cast then .unary .voidPtr <$> readMembers inner
  else do
    let star ← accept CUnary.deref.tokens
    if star then .unary .deref <$> readMembers inner
    else do
      let sign ← accept CUnary.addressOf.tokens
      if sign then .unary .addressOf <$> readMembers inner else readMembers inner

/-- Operands with the operator between them. -/
def readOperands (op : CBinary) (operand : Reader Token CExpr) : Reader Token CExpr := do
  let first ← operand
  let more ← many op.tokens operand
  pure (more.foldl (.binary op) first)

def readProduct : Reader Token CExpr := readOperands .times (readSigned inner)

def readSum : Reader Token CExpr := readOperands .add (readProduct inner)

def readEquality : Reader Token CExpr := readOperands .equal (readSum inner)

end Expressions

/-- An expression with so many parentheses in each other. -/
def readNested : Nat → Reader Token CExpr
  | 0 => fail
  | depth + 1 => readEquality (readNested depth)

def readExpression : Reader Token CExpr := do
  let depth ← remaining
  readNested (depth + 1)

/-- The parts of a format, with each plain byte by itself. -/
def formatParts : Bytes → Option (List CFormat)
  | [] => some []
  | 37 :: 42 :: 115 :: rest => (.padded :: ·) <$> formatParts rest
  | 37 :: 100 :: rest => (.int :: ·) <$> formatParts rest
  | 37 :: 102 :: rest => (.float :: ·) <$> formatParts rest
  | 37 :: 112 :: rest => (.pointer :: ·) <$> formatParts rest
  | 10 :: rest => (.newline :: ·) <$> formatParts rest
  | c :: rest => if c = byteOf '%' then none else (.plain [c] :: ·) <$> formatParts rest

def readFormat : Reader Token (List CFormat) := do
  match ← next with
  | .dqstring text =>
    match formatParts text with
    | some format => pure format
    | none => fail
  | _ => fail

def readPrintf : Reader Token CCall := do
  let format ← readFormat
  let args ← many [.char 44] readExpression
  expect [.char 41, .char 59]
  pure (.printf format args)

def readArguments (callee : Bytes) : Reader Token CCall := do
  let first ← readExpression
  let more ← many [.char 44] readExpression
  expect [.char 41, .char 59]
  pure (.function callee (first :: more))

def readCall : Reader Token CCall := do
  let callee ← readWord
  expect [.char 40]
  if callee = bytesOf "printf" then readPrintf else readArguments callee

/-- The text of a format without directives. -/
def plainText : List CFormat → Option Bytes
  | [] => some []
  | .plain text :: rest => (text ++ ·) <$> plainText rest
  | _ => none

/-- What a label prints: a colon, a call of `printf`, and `break`. -/
def readPrinted : Reader Token Bytes := do
  expect [.char 58]
  match ← readCall with
  | .printf format [] =>
    match plainText format with
    | some text => do
      expect [identifierToken (bytesOf "break"), .char 59]
      pure text
    | none => fail
  | _ => fail

def readCase : Reader Token (Bytes × Bytes) := do
  let label ← readWord
  Prod.mk label <$> readPrinted

/-- Behind `if (`. -/
def readIf : Reader Token CStmt := do
  let cond ← readExpression
  expect [.char 41]
  let yes ← readCall
  let other ← accept [identifierToken (bytesOf "else")]
  if other then .ifElse cond yes <$> readCall else pure (.ifThen cond yes)

/-- Behind `switch(`. -/
def readSwitch : Reader Token CStmt := do
  let on ← readExpression
  expect [.char 41, .char 123]
  let labels ← many [identifierToken (bytesOf "case")] readCase
  expect [identifierToken (bytesOf "default")]
  let default ← readPrinted
  expect [.char 125]
  pure (.switch on labels default)

def readStmt : Reader Token CStmt := do
  let test ← accept [identifierToken (bytesOf "if"), .char 40]
  if test then readIf
  else do
    let choice ← accept [identifierToken (bytesOf "switch"), .char 40]
    if choice then readSwitch else .call <$> readCall

/-- A tag and the name of a parameter, with `between` between them. -/
def readTagged (between : List Token) (type : Bytes → CType) : Reader Token CParam := do
  let tag ← readWord
  expect between
  let name ← readWord
  pure ⟨type tag, name⟩

def readParam : Reader Token CParam := do
  let struct ← accept [identifierToken (bytesOf "struct")]
  if struct then readTagged [.char 42] .structPtr
  else do
    let enum ← accept [identifierToken (bytesOf "enum")]
    if enum then readTagged [] .enum else readTagged [] .named

/-- A function behind its `void`. -/
def readFunction : Reader Token CFunction := do
  let name ← readWord
  expect [.char 40]
  let first ← readParam
  let more ← many [.char 44] readParam
  expect [.char 41, .char 123]
  let body ← manyTill [.char 125] readStmt
  pure ⟨name, first :: more, body⟩

def readFunctions : Reader Token (List CFunction) := do
  let fs ← many [identifierToken (bytesOf "void")] readFunction
  let left ← remaining
  if left = 0 then pure fs else fail

/-- The functions of a whole file. -/
def readProgram (tokens : List Token) : Option (List CFunction) :=
  match readFunctions tokens with
  | .ok (fs, _) => some fs
  | .error _ => none

/-! ## Expressions -/

/-- How many parentheses are in each other. -/
def CExpr.parens : CExpr → Nat
  | arrow e _ => e.parens
  | unary _ e => e.parens
  | binary _ a b => max a.parens b.parens
  | paren e => e.parens + 1
  | _ => 0

/-- The level of the operators that begin with this token. -/
def operatorLevel : Token → Nat
  | .op .arrow => 1
  | .char 42 => 3
  | .char 43 => 4
  | .op .eq => 5
  | _ => 6

/-- No operator of the level or a tighter one comes next. -/
def Stops (n : Nat) (rest : List Token) : Prop := ∀ t ∈ rest.head?, n < operatorLevel t

theorem Stops.mono {n m : Nat} {rest : List Token} (stops : Stops n rest) (less : m ≤ n) : Stops m rest :=
  fun t mem => Nat.lt_of_le_of_lt less (stops t mem)

theorem identifierToken_ne {name : Bytes} {t : Token} (id : ∀ {x}, .id x ≠ t) (error : .parseError none none ≠ t) :
    identifierToken name ≠ t := by
  unfold identifierToken
  split
  · exact id
  · exact error

theorem reads_word {name : Bytes} {before : List Token → Prop} (word : IsName name) :
    ReadsOff readWord [identifierToken name] name before := by
  obtain ⟨x, rfl, token⟩ := word.ident
  rw [token]
  exact fun _ _ => rfl

section Expressions

variable {inner : Reader Token CExpr} {e : CExpr} {depth : Nat}

/-- The spine of members. -/
theorem CExpr.Written.members (written : e.Written) (tight : e.level ≤ 1) :
    ∃ (first : CExpr) (fields : List Bytes), first.level = 0 ∧ first.Written ∧ (∀ field ∈ fields, IsName field) ∧
      fields.foldl .arrow first = e ∧
      e.tokens = first.tokens ++ fields.flatMap (fun field => [.op .arrow] ++ [identifierToken field]) ∧
      first.parens = e.parens := by
  induction e with
  | arrow e field ih =>
    obtain ⟨less, left, word⟩ := written
    obtain ⟨first, fields, zero, inside, words, rfl, tokens, parens⟩ := ih left less
    refine ⟨first, fields ++ [field], zero, inside, ?_, by simp, ?_, parens⟩
    · exact List.forall_mem_append.mpr ⟨words, List.forall_mem_singleton.mpr word⟩
    · rw [CExpr.tokens, tokens]
      simp
  | unary op e => exact absurd tight (by simp [CExpr.level])
  | binary op a b => cases op <;> exact absurd tight (by simp [CExpr.level, CBinary.level])
  | ident name => exact ⟨_, [], rfl, written, by simp, rfl, by simp, rfl⟩
  | digit d => exact ⟨_, [], rfl, written, by simp, rfl, by simp, rfl⟩
  | emptyString => exact ⟨_, [], rfl, written, by simp, rfl, by simp, rfl⟩
  | paren e => exact ⟨_, [], rfl, written, by simp, rfl, by simp, rfl⟩

theorem CBinary.level_inj {op op' : CBinary} (same : op.level = op'.level) : op = op' := by
  cases op <;> cases op' <;> first | rfl | cases same

theorem CBinary.three_le (op : CBinary) : 3 ≤ op.level := by
  cases op <;> decide

/-- The spine of operands of one operator. -/
theorem CExpr.Written.operands {op : CBinary} (written : e.Written) (tight : e.level ≤ op.level) :
    ∃ (first : CExpr) (more : List CExpr), (first.level < op.level ∧ first.Written) ∧
      (∀ b ∈ more, b.level < op.level ∧ b.Written) ∧
      more.foldl (.binary op) first = e ∧ e.tokens = first.tokens ++ more.flatMap (fun b => op.tokens ++ b.tokens) ∧
      first.parens ≤ e.parens ∧ ∀ b ∈ more, b.parens ≤ e.parens := by
  have single : e.level < op.level → ∃ (first : CExpr) (more : List CExpr), (first.level < op.level ∧ first.Written) ∧
      (∀ b ∈ more, b.level < op.level ∧ b.Written) ∧ more.foldl (.binary op) first = e ∧
      e.tokens = first.tokens ++ more.flatMap (fun b => op.tokens ++ b.tokens) ∧
      first.parens ≤ e.parens ∧ ∀ b ∈ more, b.parens ≤ e.parens :=
    fun less => ⟨e, [], ⟨less, written⟩, by simp, rfl, by simp, Nat.le_refl _, by simp⟩
  have sign := op.three_le
  induction e with
  | binary op' a b left right =>
    rcases Nat.lt_or_eq_of_le tight with less | same
    · exact single less
    · obtain rfl := CBinary.level_inj same
      obtain ⟨⟨less, first⟩, below, second⟩ := written
      obtain ⟨head, more, inside, each, rfl, tokens, least, parens⟩ := left first less
        fun less => ⟨a, [], ⟨less, first⟩, by simp, rfl, by simp, Nat.le_refl _, by simp⟩
      refine ⟨head, more ++ [b], inside, ?_, by simp, ?_, ?_, ?_⟩
      · exact List.forall_mem_append.mpr ⟨each, List.forall_mem_singleton.mpr ⟨below, second⟩⟩
      · rw [CExpr.tokens, tokens]
        simp
      · exact Nat.le_trans least (Nat.le_max_left _ _)
      · intro b' mem
        rcases List.mem_append.mp mem with here | last
        · exact Nat.le_trans (parens b' here) (Nat.le_max_left _ _)
        · rw [List.mem_singleton.mp last]
          exact Nat.le_max_right _ _
  | ident name => exact single (by simp only [CExpr.level]; omega)
  | digit d => exact single (by simp only [CExpr.level]; omega)
  | emptyString => exact single (by simp only [CExpr.level]; omega)
  | arrow e field => exact single (by simp only [CExpr.level]; omega)
  | unary op' e => exact single (by simp only [CExpr.level]; omega)
  | paren e => exact single (by simp only [CExpr.level]; omega)

/-- The reader takes expressions up to the level, with not too many parentheses. -/
def ReadsOffUpTo (read : Reader Token CExpr) (n depth : Nat) : Prop :=
  ∀ e : CExpr, e.Written → e.level ≤ n → e.parens ≤ depth → ReadsOff read e.tokens e (Stops n)

theorem CExpr.level_le (e : CExpr) : e.level ≤ 5 := by
  cases e with
  | binary op a b => cases op <;> simp [CExpr.level, CBinary.level]
  | _ => simp [CExpr.level]

theorem stops_close (rest : List Token) : Stops 5 ([.char 41] ++ rest) := by
  intro t mem
  obtain rfl := Option.mem_some_iff.mp mem
  decide

theorem readPrimary_reads (inside : ∀ e : CExpr, e.Written → e.parens < depth → ReadsOff inner e.tokens e (Stops 5)) :
    ReadsOffUpTo (readPrimary inner) 0 depth := by
  intro e written tight few
  cases e with
  | ident name =>
    obtain ⟨x, rfl, token⟩ := written.1.ident
    rw [CExpr.tokens, token]
    exact fun _ _ => rfl
  | digit d =>
    have range : 0 ≤ ((d : Nat) : Int) ∧ ((d : Nat) : Int).toNat < 10 := by omega
    intro rest _
    show (if range : 0 ≤ ((d : Nat) : Int) ∧ ((d : Nat) : Int).toNat < 10 then
      (pure (.digit ⟨((d : Nat) : Int).toNat, range.2⟩) : Reader Token CExpr) else fail) rest = _
    rw [dif_pos range]
    rfl
  | emptyString => exact fun _ _ => rfl
  | arrow e field => exact absurd tight (by simp [CExpr.level])
  | unary op e => exact absurd tight (by simp [CExpr.level])
  | binary op a b => cases op <;> exact absurd tight (by simp [CExpr.level, CBinary.level])
  | paren e =>
    have inner_ := inside e written (Nat.lt_of_lt_of_le (Nat.lt_succ_self _) few)
    rw [CExpr.tokens, List.append_assoc]
    exact ReadsOff.andThen ReadsOff.next (ReadsOff.bind inner_ ReadsOff.last fun rest _ => stops_close rest)

theorem not_prefix_stops {n : Nat} {t : Token} {ts rest : List Token} (stops : Stops n rest) (level : operatorLevel t ≤ n) :
    ¬ (t :: ts) <+: rest := by
  rintro ⟨_, rfl⟩
  exact absurd (stops t rfl) (by omega)

theorem stops_flatMap {α : Type} {n : Nat} {t : Token} {ts rest : List Token} {tokens : α → List Token} (as : List α)
    (level : n < operatorLevel t) (stops : Stops n rest) : Stops n (as.flatMap (fun a => (t :: ts) ++ tokens a) ++ rest) := by
  cases as with
  | nil => exact stops
  | cons a as =>
    intro t' mem
    obtain rfl := Option.mem_some_iff.mp mem
    exact level

theorem readMembers_reads (primary : ReadsOffUpTo (readPrimary inner) 0 depth) : ReadsOffUpTo (readMembers inner) 1 depth := by
  intro e written tight few
  obtain ⟨first, fields, zero, inside, words, rfl, tokens, parens⟩ := written.members tight
  have head := primary first inside (by omega) (by omega)
  have more : ReadsOff (many [Token.op .arrow] readWord) (fields.flatMap fun field => [.op .arrow] ++ [identifierToken field])
      (fields.map id) (Stops 1) :=
    ReadsOff.many (List.cons_ne_nil _ _) fields (fun rest stops => ⟨not_prefix_stops stops (by decide), trivial⟩)
      (fun _ => trivial) fun field mem => reads_word (words field mem)
  rw [List.map_id] at more
  rw [tokens, ← List.append_nil (fields.flatMap _)]
  refine ReadsOff.bind head (ReadsOff.bind more (ReadsOff.pure _) fun _ stops => stops) fun rest stops => ?_
  rw [List.append_nil]
  exact stops_flatMap fields (by decide) (stops.mono (Nat.zero_le _))

/-- No expression begins with the word of a cast. -/
theorem CExpr.Written.head (written : e.Written) : ∃ t ts, e.tokens = t :: ts ∧ t ≠ identifierToken (bytesOf "void") := by
  induction e with
  | ident name => exact ⟨_, _, rfl, fun same => written.2 (identifierToken_inj written.1 same)⟩
  | digit d => exact ⟨_, _, rfl, (identifierToken_ne Token.noConfusion Token.noConfusion).symm⟩
  | emptyString => exact ⟨_, _, rfl, (identifierToken_ne Token.noConfusion Token.noConfusion).symm⟩
  | arrow e field ih =>
    obtain ⟨t, ts, tokens, other⟩ := ih written.2.1
    exact ⟨t, _, by rw [CExpr.tokens, tokens]; rfl, other⟩
  | unary op e =>
    cases op with
    | deref => exact ⟨_, _, rfl, (identifierToken_ne Token.noConfusion Token.noConfusion).symm⟩
    | addressOf => exact ⟨_, _, rfl, (identifierToken_ne Token.noConfusion Token.noConfusion).symm⟩
    | voidPtr => exact ⟨_, _, rfl, (identifierToken_ne Token.noConfusion Token.noConfusion).symm⟩
  | binary op a b left =>
    obtain ⟨t, ts, tokens, other⟩ := left written.1.2
    exact ⟨t, _, by rw [CExpr.tokens, tokens]; rfl, other⟩
  | paren e => exact ⟨_, _, rfl, (identifierToken_ne Token.noConfusion Token.noConfusion).symm⟩

/-- No sign comes first. -/
theorem CExpr.Written.unsigned (op : CUnary) (written : e.Written) (tight : e.level ≤ 1) :
    ∀ rest, ¬ op.tokens <+: e.tokens ++ rest := by
  have first : ∃ c ts, op.tokens = .char c :: ts := by cases op <;> exact ⟨_, _, rfl⟩
  obtain ⟨c, ts, tokens⟩ := first
  induction e with
  | ident name =>
    rw [tokens]
    exact fun rest => not_prefix (identifierToken_ne Token.noConfusion Token.noConfusion).symm
  | digit d =>
    rw [tokens]
    exact fun rest => not_prefix Token.noConfusion
  | emptyString =>
    rw [tokens]
    exact fun rest => not_prefix Token.noConfusion
  | arrow e field ih =>
    intro rest
    rw [CExpr.tokens, List.append_assoc]
    exact ih written.2.1 written.1 _
  | unary op' e => exact absurd tight (by simp [CExpr.level])
  | binary op' a b => cases op' <;> exact absurd tight (by simp [CExpr.level, CBinary.level])
  | paren e =>
    intro rest
    obtain ⟨t, ts', inside, other⟩ := @CExpr.Written.head e written
    rw [CExpr.tokens, inside]
    cases op with
    | deref => exact not_prefix (by decide)
    | addressOf => exact not_prefix (by decide)
    | voidPtr => exact fun here => not_prefix other.symm (List.cons_prefix_cons.mp here).2

theorem readSigned_reads (members : ReadsOffUpTo (readMembers inner) 1 depth) : ReadsOffUpTo (readSigned inner) 2 depth := by
  intro e written tight few
  by_cases simple : e.level ≤ 1
  · have reads := (members e written simple few).weaken fun rest stops => Stops.mono stops (by omega : 1 ≤ 2)
    exact .passed (fun rest _ => written.unsigned .voidPtr simple rest) (.passed (fun rest _ => written.unsigned .deref simple rest)
      (.passed (fun rest _ => written.unsigned .addressOf simple rest) reads))
  · cases e with
    | unary op e =>
      obtain ⟨less, right⟩ := written
      have reads := ReadsOff.map (f := CExpr.unary op)
        ((members e right less few).weaken fun rest stops => Stops.mono stops (by omega : 1 ≤ 2))
      cases op with
      | voidPtr => exact .accepted reads
      | deref => exact .passed (fun _ _ => not_prefix (by decide)) (.accepted reads)
      | addressOf =>
        exact .passed (fun _ _ => not_prefix (by decide)) (.passed (fun _ _ => not_prefix (by decide)) (.accepted reads))
    | binary op a b => cases op <;> exact absurd tight (by simp [CExpr.level, CBinary.level])
    | _ => exact absurd (by simp [CExpr.level]) simple

theorem readOperands_reads {op : CBinary} {operand : Reader Token CExpr} {n : Nat} (level : n + 1 = op.level)
    (reads : ReadsOffUpTo operand n depth) : ReadsOffUpTo (readOperands op operand) (n + 1) depth := by
  intro e written tight few
  obtain ⟨first, more, ⟨less, inside⟩, each, rfl, tokens, least, parens⟩ := written.operands (level ▸ tight)
  obtain ⟨t, token, here⟩ : ∃ t, op.tokens = [t] ∧ operatorLevel t = op.level := by
    cases op <;> exact ⟨_, rfl, by decide⟩
  have head := reads first inside (by omega) (by omega)
  have others : ReadsOff (many op.tokens operand) (more.flatMap fun b => op.tokens ++ b.tokens) (more.map id)
      (Stops (n + 1)) := by
    rw [token]
    refine ReadsOff.many (List.cons_ne_nil _ _) more
      (fun rest stops => ⟨not_prefix_stops stops (by omega), stops.mono (by omega)⟩)
      (fun rest t' mem => ?_)
      fun b mem => reads b (each b mem).2 (by have := (each b mem).1; omega) (Nat.le_trans (parens b mem) few)
    obtain rfl := Option.mem_some_iff.mp mem
    omega
  rw [List.map_id] at others
  rw [tokens, ← List.append_nil (more.flatMap _)]
  refine ReadsOff.bind head (ReadsOff.bind others (ReadsOff.pure _) fun _ stops => stops) fun rest stops => ?_
  rw [List.append_nil, token]
  exact stops_flatMap more (by omega) (stops.mono (by omega))

theorem readNested_reads (depth : Nat) : ReadsOffUpTo (readNested (depth + 1)) 5 depth := by
  have levels : ∀ {inner depth}, (∀ e : CExpr, e.Written → e.parens < depth → ReadsOff inner e.tokens e (Stops 5)) →
      ReadsOffUpTo (readEquality inner) 5 depth := fun inside =>
    readOperands_reads rfl (readOperands_reads rfl (readOperands_reads rfl
      (readSigned_reads (readMembers_reads (readPrimary_reads inside)))))
  induction depth with
  | zero => exact levels fun e _ none_ => absurd none_ (Nat.not_lt_zero _)
  | succ depth ih => exact levels fun e written fewer => ih e written e.level_le (Nat.le_of_lt_succ fewer)

theorem CExpr.parens_le (e : CExpr) : e.parens ≤ e.tokens.length := by
  induction e with
  | arrow e field ih => simp only [CExpr.parens, CExpr.tokens, List.length_append]; omega
  | unary op e ih => simp only [CExpr.parens, CExpr.tokens, List.length_append]; omega
  | binary op a b left right => simp only [CExpr.parens, CExpr.tokens, List.length_append]; omega
  | paren e ih => simp only [CExpr.parens, CExpr.tokens, List.length_append, List.length_singleton]; omega
  | ident name => exact Nat.zero_le _
  | digit d => exact Nat.zero_le _
  | emptyString => exact Nat.zero_le _

/-- The tokens of an expression are read as this expression. -/
theorem reads_expression (written : e.Written) : ReadsOff readExpression e.tokens e (Stops 5) := by
  intro rest stops
  have few : e.parens ≤ (e.tokens ++ rest).length := by
    rw [List.length_append]
    exact Nat.le_add_right_of_le e.parens_le
  exact readNested_reads _ e written e.level_le few rest stops

end Expressions

/-! ## Formats -/

def CFormat.spread : CFormat → List CFormat
  | plain text => text.map fun c => plain [c]
  | part => [part]

def CCall.spread : CCall → CCall
  | printf format args => printf (format.flatMap CFormat.spread) args
  | c => c

def CStmt.spread : CStmt → CStmt
  | call c => call c.spread
  | ifThen cond yes => ifThen cond yes.spread
  | ifElse cond yes no => ifElse cond yes.spread no.spread
  | s => s

/-- The function with formats of single bytes. -/
def CFunction.spread (f : CFunction) : CFunction := { f with body := f.body.map CStmt.spread }

section Formats

theorem formatParts_plain {c : UInt8} {rest : Bytes} (percent : c ≠ byteOf '%') (newline : c ≠ 10) :
    formatParts (c :: rest) = (.plain [c] :: ·) <$> formatParts rest := by
  rw [formatParts]
  · rw [if_neg percent]
  case x_5 => exact newline
  all_goals exact fun _ same _ => percent same

theorem formatParts_text {text rest : Bytes} {parts : List CFormat} (plain : ∀ c ∈ text, c ≠ byteOf '%' ∧ c ≠ 10)
    (later : formatParts rest = some parts) :
    formatParts (text ++ rest) = some (text.map (fun c => .plain [c]) ++ parts) := by
  induction text with
  | nil => exact later
  | cons c text ih =>
    obtain ⟨here, others⟩ := List.forall_mem_cons.mp plain
    rw [List.cons_append, formatParts_plain here.1 here.2, ih others]
    rfl

theorem formatParts_bytes {format : List CFormat} (written : ∀ part ∈ format, part.Written) :
    formatParts (format.flatMap CFormat.bytes) = some (format.flatMap CFormat.spread) := by
  induction format with
  | nil => rfl
  | cons part format ih =>
    obtain ⟨here, others⟩ := List.forall_mem_cons.mp written
    have later := ih others
    rw [List.flatMap_cons, List.flatMap_cons]
    cases part with
    | plain text => exact formatParts_text (fun c mem => (here c mem).2.2) later
    | newline => exact congrArg _ later
    | padded => exact congrArg _ later
    | int => exact congrArg _ later
    | float => exact congrArg _ later
    | pointer => exact congrArg _ later

end Formats

/-! ## Calls -/

section Calls

variable {before : List Token → Prop}

/-- The closing parenthesis comes next. -/
def Closes (rest : List Token) : Prop := rest.head? = some (.char 41)

theorem Closes.stops {rest : List Token} (closes : Closes rest) : Stops 5 rest := by
  intro t mem
  rw [Closes] at closes
  rw [closes] at mem
  obtain rfl := Option.mem_some_iff.mp mem
  decide

theorem Closes.comma {rest : List Token} (closes : Closes rest) : ¬ [Token.char 44] <+: rest := by
  rintro ⟨more, rfl⟩
  exact absurd (Option.some.inj closes) (by decide)

theorem stops_comma (rest : List Token) : Stops 5 ([.char 44] ++ rest) := by
  intro t mem
  obtain rfl := Option.mem_some_iff.mp mem
  decide

/-- Further arguments. -/
theorem reads_more {args : List CExpr} (written : ∀ e ∈ args, e.Written) :
    ReadsOff (many [Token.char 44] readExpression) (args.flatMap fun e => [.char 44] ++ e.tokens) args Closes := by
  have reads : ReadsOff (many [Token.char 44] readExpression) (args.flatMap fun e => [.char 44] ++ e.tokens)
      (args.map id) Closes :=
    ReadsOff.many (List.cons_ne_nil _ _) args (fun rest closes => ⟨closes.comma, closes.stops⟩) stops_comma
      fun e mem => reads_expression (written e mem)
  rwa [List.map_id] at reads

theorem commaTokens_cons (part : List Token) (parts : List (List Token)) :
    commaTokens (part :: parts) = part ++ parts.flatMap fun part => [.char 44] ++ part := by
  induction parts generalizing part with
  | nil => simp [commaTokens]
  | cons part' parts ih =>
    rw [commaTokens, List.intercalate_cons_cons, List.flatMap_cons, List.append_assoc]
    exact congrArg (part ++ ·) (congrArg ([Token.char 44] ++ ·) (ih part'))

theorem commaTokens_map {α : Type} (tokens : α → List Token) (a : List Token) (as : List α) :
    commaTokens (a :: as.map tokens) = a ++ as.flatMap fun x => [.char 44] ++ tokens x := by
  rw [commaTokens_cons, List.flatMap_map]

theorem reads_format {format : List CFormat} (written : ∀ part ∈ format, part.Written) :
    ReadsOff readFormat [.dqstring (format.flatMap CFormat.bytes)] (format.flatMap CFormat.spread) before := by
  intro rest _
  show (match formatParts (format.flatMap CFormat.bytes) with
    | some format => (pure format : Reader Token (List CFormat))
    | none => fail) rest = _
  rw [formatParts_bytes written]
  rfl

theorem reads_call {c : CCall} (written : c.Written) : ReadsOff readCall c.tokens c.spread before := by
  cases c with
  | printf format args =>
    obtain ⟨formats, -, all⟩ := written
    have word : IsName (bytesOf "printf") := by decide
    have args_ : ReadsOff readPrintf ([.dqstring (format.flatMap CFormat.bytes)] ++ ((args.flatMap fun e => [.char 44] ++ e.tokens) ++
        [.char 41, .char 59])) (.printf (format.flatMap CFormat.spread) args) before :=
      ReadsOff.andThen (reads_format formats) (ReadsOff.bind (reads_more all) ReadsOff.last fun _ _ => rfl)
    rw [CCall.tokens, commaTokens_map, List.append_assoc, List.append_assoc]
    show ReadsOff readCall ([identifierToken (bytesOf "printf")] ++ ([.char 40] ++ _)) _ _
    refine ReadsOff.andThen (reads_word word) (ReadsOff.expected ?_)
    rw [if_pos rfl]
    exact args_
  | function callee args =>
    obtain ⟨word, other, some_, all⟩ := written
    cases args with
    | nil => exact absurd rfl some_
    | cons first more =>
      obtain ⟨here, others⟩ := List.forall_mem_cons.mp all
      have args_ : ReadsOff (readArguments callee) (first.tokens ++ ((more.flatMap fun e => [.char 44] ++ e.tokens) ++
          [.char 41, .char 59])) (.function callee (first :: more)) before :=
        ReadsOff.bind (reads_expression here) (ReadsOff.bind (reads_more others) ReadsOff.last fun _ _ => rfl) fun rest _ => by
          rw [List.append_assoc]
          exact stops_flatMap more (by decide) (stops_close _)
      rw [CCall.tokens, List.map_cons, commaTokens_map, List.append_assoc, List.append_assoc, List.append_assoc]
      refine ReadsOff.andThen (reads_word word) (ReadsOff.expected ?_)
      have printf_ : callee ≠ bytesOf "printf" := fun same => other (by rw [same]; decide)
      rw [if_neg printf_]
      exact args_

end Calls

/-! ## Statements -/

section Statements

variable {before : List Token → Prop}

theorem plainText_spread (text : Bytes) : plainText ([CFormat.plain text].flatMap CFormat.spread) = some text := by
  rw [List.flatMap_singleton, CFormat.spread]
  induction text with
  | nil => rfl
  | cons c text ih =>
    rw [List.map_cons, plainText, ih]
    rfl

theorem reads_printed {text : Bytes} (printed : Printed text) :
    ReadsOff readPrinted (printedTokens text) text before := by
  refine ReadsOff.expected (ReadsOff.andThen (reads_call printed) ?_)
  show ReadsOff (match plainText ([CFormat.plain text].flatMap CFormat.spread) with
    | some text => expect [identifierToken (bytesOf "break"), .char 59] >>= fun _ => pure text
    | none => fail) _ _ _
  rw [plainText_spread]
  exact ReadsOff.last

theorem reads_case {c : Bytes × Bytes} (word : IsName c.1) (printed : Printed c.2) :
    ReadsOff readCase ([identifierToken c.1] ++ printedTokens c.2) c before :=
  ReadsOff.andThen (reads_word word) (ReadsOff.map (reads_printed printed))

/-- A call begins with a word, but with none of these. -/
theorem CCall.Written.head {c : CCall} (written : c.Written) :
    ∃ name ts, c.tokens = identifierToken name :: ts ∧ IsName name ∧
    name ≠ bytesOf "else" ∧ name ≠ bytesOf "if" ∧ name ≠ bytesOf "switch" := by
  cases c with
  | printf format args => exact ⟨bytesOf "printf", _, rfl, by decide, by decide, by decide, by decide⟩
  | function callee args =>
    obtain ⟨word, other, -⟩ := written
    have differ : ∀ {name}, name ∈ statementWords → callee ≠ name := fun mem same => other (same ▸ mem)
    exact ⟨callee, _, rfl, word, differ (by decide), differ (by decide), differ (by decide)⟩

theorem not_prefix_word {name name' : Bytes} {ts ts' rest : List Token} (word : IsName name) (differ : name ≠ name') :
    ¬ (identifierToken name' :: ts') <+: (identifierToken name :: ts ++ rest) :=
  not_prefix fun same => differ (identifierToken_inj word same.symm)

/-- No statement begins like this. -/
theorem CStmt.Written.other {s : CStmt} (written : s.Written) (rest : List Token) :
    ¬ [identifierToken (bytesOf "else")] <+: s.tokens ++ rest ∧ ¬ [Token.char 125] <+: s.tokens ++ rest := by
  have first : ∃ name ts, s.tokens = identifierToken name :: ts ∧ IsName name ∧ name ≠ bytesOf "else" := by
    cases s with
    | call c =>
      obtain ⟨name, ts, tokens, word, other, -⟩ := CCall.Written.head written
      exact ⟨name, ts, tokens, word, other⟩
    | ifThen cond yes => exact ⟨bytesOf "if", _, rfl, by decide, by decide⟩
    | ifElse cond yes no => exact ⟨bytesOf "if", _, rfl, by decide, by decide⟩
    | switch on labels default => exact ⟨bytesOf "switch", _, rfl, by decide, by decide⟩
  obtain ⟨name, ts, tokens, word, other⟩ := first
  rw [tokens]
  exact ⟨not_prefix_word word other, not_prefix (identifierToken_ne Token.noConfusion Token.noConfusion).symm⟩

/-- No `else` comes next. -/
def NoElse (rest : List Token) : Prop := ¬ [identifierToken (bytesOf "else")] <+: rest

theorem reads_ifThen {cond : CExpr} {yes : CCall} (first : cond.Written) (second : yes.Written) :
    ReadsOff readIf (cond.tokens ++ ([.char 41] ++ (yes.tokens ++ []))) (.ifThen cond yes.spread) NoElse :=
  ReadsOff.bind (reads_expression first) (ReadsOff.expected (ReadsOff.andThen (reads_call second)
    (ReadsOff.passed (fun _ other => other) (ReadsOff.pure _)))) fun _ _ => stops_close _

theorem reads_ifElse {cond : CExpr} {yes no : CCall} (first : cond.Written) (second : yes.Written) (third : no.Written) :
    ReadsOff readIf (cond.tokens ++ ([.char 41] ++ (yes.tokens ++ ([identifierToken (bytesOf "else")] ++ no.tokens))))
      (.ifElse cond yes.spread no.spread) before :=
  ReadsOff.bind (reads_expression first) (ReadsOff.expected (ReadsOff.andThen (reads_call second)
    (ReadsOff.accepted (ReadsOff.map (reads_call third))))) fun _ _ => stops_close _

theorem reads_switch {on : CExpr} {labels : List (Bytes × Bytes)} {default : Bytes} (value : on.Written)
    (all : ∀ c ∈ labels, IsName c.1 ∧ Printed c.2) (last : Printed default) :
    ReadsOff readSwitch (on.tokens ++ ([.char 41, .char 123] ++
      ((labels.flatMap fun c => [identifierToken (bytesOf "case"), identifierToken c.1] ++ printedTokens c.2) ++
        ([identifierToken (bytesOf "default")] ++ (printedTokens default ++ [.char 125]))))) (.switch on labels default) before := by
  have default_ : ∀ {rest : List Token}, ¬ [identifierToken (bytesOf "case")] <+: [identifierToken (bytesOf "default")] ++ rest :=
    not_prefix_word (by decide) (by decide)
  have cases_ : ReadsOff (many [identifierToken (bytesOf "case")] readCase)
      (labels.flatMap fun c => [identifierToken (bytesOf "case")] ++ ([identifierToken c.1] ++ printedTokens c.2)) (labels.map id)
      fun rest => [identifierToken (bytesOf "default")] <+: rest :=
    ReadsOff.many (List.cons_ne_nil _ _) labels (fun rest ⟨more, same⟩ => ⟨same ▸ default_, trivial⟩) (fun _ => trivial)
      fun c mem => reads_case (all c mem).1 (all c mem).2
  rw [List.map_id] at cases_
  exact ReadsOff.bind (reads_expression value) (ReadsOff.expected (ReadsOff.bind cases_ (ReadsOff.expected
    (ReadsOff.andThen (reads_printed last) ReadsOff.last)) fun _ _ => List.prefix_append _ _)) fun _ _ => stops_close _

/-- The tokens of a statement are read as this statement, unless `else` comes next. -/
theorem reads_stmt {s : CStmt} (written : s.Written) : ReadsOff readStmt s.tokens s.spread NoElse := by
  have if_ : ∀ {ts : List Token} {s : CStmt}, ReadsOff readIf ts s NoElse →
      ReadsOff readStmt ([identifierToken (bytesOf "if"), .char 40] ++ ts) s NoElse := fun reads => ReadsOff.accepted reads
  cases s with
  | call c =>
    obtain ⟨name, ts, tokens, word, -, noIf, noSwitch⟩ := CCall.Written.head written
    have reads : ReadsOff (CStmt.call <$> readCall) c.tokens (.call c.spread) NoElse := ReadsOff.map (reads_call written)
    rw [CStmt.tokens, tokens] at *
    exact ReadsOff.passed (fun _ _ => not_prefix_word word noIf) (ReadsOff.passed (fun _ _ => not_prefix_word word noSwitch) reads)
  | ifThen cond yes =>
    have reads := if_ (reads_ifThen written.1 written.2)
    rw [List.append_nil, ← List.append_assoc, ← List.append_assoc] at reads
    exact reads
  | ifElse cond yes no =>
    have reads := if_ (reads_ifElse written.1 written.2.1 written.2.2)
    rw [← List.append_assoc, ← List.append_assoc, ← List.append_assoc] at reads
    exact reads
  | switch on labels default =>
    obtain ⟨value, all, last⟩ := written
    have whole : ReadsOff readStmt ([identifierToken (bytesOf "switch"), .char 40] ++ _) (.switch on labels default) NoElse :=
      ReadsOff.passed (fun _ _ => not_prefix_word (by decide) (by decide)) (ReadsOff.accepted (reads_switch value all last))
    simp only [CStmt.tokens, List.append_assoc] at whole ⊢
    exact whole

end Statements

/-! ## Functions -/

section Functions

variable {before : List Token → Prop}

theorem reads_tagged {tag name : Bytes} {between : List Token} {type : Bytes → CType} (word : IsName tag)
    (word' : IsName name) :
    ReadsOff (readTagged between type) ([identifierToken tag] ++ (between ++ [identifierToken name])) ⟨type tag, name⟩
      before := by
  have last : ReadsOff (readWord >>= fun name => pure (⟨type tag, name⟩ : CParam)) ([identifierToken name] ++ [])
      ⟨type tag, name⟩ before :=
    ReadsOff.andThen (reads_word word') (ReadsOff.pure _)
  exact ReadsOff.andThen (reads_word word) (ReadsOff.expected last)

theorem reads_param {p : CParam} (written : p.Written) : ReadsOff readParam p.tokens p before := by
  obtain ⟨type, name⟩ := p
  obtain ⟨fits, word⟩ := written
  have other : IsName (bytesOf "enum") := by decide
  cases type with
  | structPtr tag => exact ReadsOff.accepted (reads_tagged fits word)
  | enum tag =>
    exact ReadsOff.passed (fun _ _ => not_prefix_word other (by decide)) (ReadsOff.accepted (reads_tagged fits word))
  | named base =>
    obtain ⟨word', noStruct, noEnum⟩ := fits
    exact ReadsOff.passed (fun _ _ => not_prefix_word word' noStruct)
      (ReadsOff.passed (fun _ _ => not_prefix_word word' noEnum) (reads_tagged word' word))

/-- The tokens of a function behind its `void` are read as this function. -/
theorem reads_function {f : CFunction} (written : f.Written) : ReadsOff readFunction f.declarator f.spread before := by
  obtain ⟨name, params, body⟩ := f
  obtain ⟨word, some_, params_, stmts⟩ := written
  cases params with
  | nil => exact absurd rfl some_
  | cons first more =>
    obtain ⟨here, others⟩ := List.forall_mem_cons.mp params_
    have more_ : ReadsOff (many [Token.char 44] readParam) (more.flatMap fun p => [.char 44] ++ p.tokens) (more.map id) Closes :=
      ReadsOff.many (List.cons_ne_nil _ _) more (fun rest closes => ⟨closes.comma, trivial⟩) (fun _ => trivial)
        fun p mem => reads_param (others p mem)
    have body_ : ReadsOff (manyTill [Token.char 125] readStmt) (body.flatMap CStmt.tokens ++ [.char 125]) (body.map CStmt.spread)
        fun _ => True :=
      ReadsOff.manyTill body (fun s mem rest => ((stmts s mem).other rest).2) (fun rest => not_prefix
        (identifierToken_ne Token.noConfusion Token.noConfusion)) (fun s mem rest => ((stmts s mem).other rest).1)
        fun s mem => reads_stmt (stmts s mem)
    rw [List.map_id] at more_
    have whole : ReadsOff readFunction _ (CFunction.spread ⟨name, first :: more, body⟩) before :=
      ReadsOff.andThen (reads_word word) (ReadsOff.expected (ReadsOff.andThen (reads_param here) (ReadsOff.bind more_
        (ReadsOff.expected (ReadsOff.andThen body_ (ReadsOff.pure _))) fun _ _ => rfl)))
    rw [CFunction.declarator, List.map_cons, commaTokens_map]
    simp only [List.append_assoc, List.append_nil] at whole ⊢
    exact whole

/-- The tokens of some functions are read as these functions. -/
theorem readProgram_written {fs : List CFunction} (written : ∀ f ∈ fs, f.Written) :
    readProgram (fs.flatMap CFunction.tokens) = some (fs.map CFunction.spread) := by
  have reads : ReadsOff (many [identifierToken (bytesOf "void")] readFunction)
      (fs.flatMap fun f => [identifierToken (bytesOf "void")] ++ f.declarator) (fs.map CFunction.spread) (· = []) :=
    ReadsOff.many (List.cons_ne_nil _ _) fs (fun rest ended => ⟨by rw [ended]; simp, trivial⟩) (fun _ => trivial)
      fun f mem => reads_function (written f mem)
  have run : many [identifierToken (bytesOf "void")] readFunction (fs.flatMap CFunction.tokens) =
      .ok (fs.map CFunction.spread, []) := by
    have here := reads [] rfl
    rw [List.append_nil] at here
    exact here
  have all : readFunctions (fs.flatMap CFunction.tokens) = .ok (fs.map CFunction.spread, []) := by
    rw [readFunctions, Exec.bind_ok run]
    rfl
  rw [readProgram, all]

end Functions

end MoeToolchain
