import Mathlib.Data.Int.ConditionallyCompleteOrder
import Mathlib.Order.CompletePartialOrder
import MoeToolchain.Scripts.CRun
import MoeToolchain.Scripts.CSpelling

/-!
# The switch for an enum

`debugEnum` makes a label of every identifier that the lexer finds in the body.
`enumLabels_iff` compares the labels with the enumerators of C's grammar, and
`enumSwitch_iff` the constants of the labels with the values that C gives to the
enumerators, in any text of a body that the lexer takes apart without an error.
-/

namespace MoeToolchain
set_option autoImplicit false

/-! ## Constant expressions -/

inductive Literal
  | number (n : CNumber) (suffix : Option Ident)
  | char (encoding : Option Ident) (x : Stb.Character)
  | string (encoding : Option Ident) (chars : List Stb.Character)
deriving DecidableEq, Repr

def Literal.token : Literal → CToken
  | number n suffix => .number n suffix
  | char encoding x => .char encoding x
  | string encoding chars => .string encoding chars

/-- No suffix and no encoding. -/
def Literal.Plain : Literal → Prop
  | number _ suffix => suffix = none
  | char encoding _ => encoding = none
  | string encoding _ => encoding = none

inductive PrefixOperator
  | plus
  | minus
  | complement
  | not
deriving DecidableEq, Repr

def PrefixOperator.token : PrefixOperator → CToken
  | plus => .mark 43
  | minus => .mark 45
  | complement => .mark 126
  | not => .mark 33

/-- `double` is an operator of two characters. -/
inductive InfixOperator
  | times
  | divide
  | modulo
  | plus
  | minus
  | less
  | greater
  | and
  | xor
  | or
  | double (o : Operator)
deriving DecidableEq, Repr

def InfixOperator.token : InfixOperator → CToken
  | times => .mark star
  | divide => .mark 47
  | modulo => .mark 37
  | plus => .mark 43
  | minus => .mark 45
  | less => .mark 60
  | greater => .mark 62
  | and => .mark 38
  | xor => .mark 94
  | or => .mark 124
  | double o => .op o

/-- One word or more, and stars. -/
structure CastType where
  first : Ident
  others : List Ident
  stars : Nat
deriving DecidableEq, Repr

def CastType.tokens (type : CastType) : List CToken :=
  .word type.first :: (type.others.map CToken.word ++ List.replicate type.stars (.mark star))

inductive ConstExpr
  | literal (l : Literal)
  | name (i : Ident)
  | paren (e : ConstExpr)
  | prefixed (op : PrefixOperator) (e : ConstExpr)
  | binary (op : InfixOperator) (a b : ConstExpr)
  | conditional (c a b : ConstExpr)
  | cast (type : CastType) (e : ConstExpr)
  | sizeofType (type : CastType)
  | sizeofExpr (e : ConstExpr)
deriving DecidableEq, Repr

def sizeofWord : Ident := ⟨bytesOf "sizeof", by decide, by decide⟩

def ConstExpr.tokens : ConstExpr → List CToken
  | literal l => [l.token]
  | name i => [.word i]
  | paren e => .mark lparen :: (e.tokens ++ [.mark rparen])
  | prefixed op e => op.token :: e.tokens
  | binary op a b => a.tokens ++ op.token :: b.tokens
  | conditional c a b => c.tokens ++ .mark 63 :: (a.tokens ++ .mark 58 :: b.tokens)
  | cast type e => .mark lparen :: (type.tokens ++ .mark rparen :: e.tokens)
  | sizeofType type => .word sizeofWord :: .mark lparen :: (type.tokens ++ [.mark rparen])
  | sizeofExpr e => .word sizeofWord :: e.tokens

/-- Of plain literals, operators and parentheses only. -/
def ConstExpr.Plain : ConstExpr → Prop
  | literal l => l.Plain
  | name _ => False
  | paren e => e.Plain
  | prefixed _ e => e.Plain
  | binary _ a b => a.Plain ∧ b.Plain
  | conditional c a b => c.Plain ∧ a.Plain ∧ b.Plain
  | cast _ _ => False
  | sizeofType _ => False
  | sizeofExpr _ => False

/-! ## Enumerators -/

structure Enumerator where
  name : Ident
  init : Option ConstExpr
deriving DecidableEq, Repr

def Enumerator.tokens (e : Enumerator) : List CToken :=
  .word e.name :: match e.init with
    | some init => .mark 61 :: init.tokens
    | none => []

/-- Enumerators with commas between them; `trailing` is a comma after the last. -/
def enumeratorTokens (trailing : Bool) : List Enumerator → List CToken
  | [] => []
  | [e] => e.tokens ++ if trailing then [.mark comma] else []
  | e :: es => e.tokens ++ .mark comma :: enumeratorTokens trailing es

/-- The body of an enum; a name is declared once. -/
structure EnumBody where
  enumerators : List Enumerator
  trailing : Bool
  distinct : (enumerators.map Enumerator.name).Nodup
deriving DecidableEq, Repr

def EnumBody.tokens (body : EnumBody) : List CToken := enumeratorTokens body.trailing body.enumerators

def EnumBody.names (body : EnumBody) : List Bytes := body.enumerators.map fun e => e.name.text

/-- What `debugEnum` makes of an enum with this text as its body. -/
def Written.program {strtod : Nat → BitVec 64 × Nat} {ts : List CToken} (w : Written strtod ts) (name : Bytes) :
    List CFunction :=
  debugEnum name (scriptTokens (Stb.tokensOf strtod w.text))

/-- The labels of a switch. -/
def CStmt.labels : CStmt → List Bytes
  | .switch _ labels _ => labels.map Prod.fst
  | _ => []

/-- The case labels in some functions. -/
def caseLabels (fs : List CFunction) : List Bytes := fs.flatMap fun f => f.body.flatMap CStmt.labels

/-! ## Labels -/

section Labels

theorem caseLabels_debugEnum (name : Bytes) (tokens : List JsToken) :
    caseLabels (debugEnum name tokens) = variants tokens := by
  simp [caseLabels, debugEnum, CStmt.labels, Function.comp_def]

theorem variants_scriptTokens (ts : List Token) : variants (scriptTokens ts) = (identifiers ts).map Ident.text := by
  have each : JsToken.identifier? ∘ Token.object = fun t => t.ident?.map Ident.text := funext Token.identifier?_object
  show (ts.map Token.object).filterMap JsToken.identifier? = _
  rw [List.filterMap_map, each, identifiers, List.map_filterMap]

/-- The labels are the identifiers that the lexer makes of the tokens. -/
theorem Written.labels_eq {strtod : Nat → BitVec 64 × Nat} {ts : List CToken} (w : Written strtod ts) (name : Bytes) :
    caseLabels (w.program name) = (ts.flatMap CToken.words).map Ident.text := by
  rw [Written.program, caseLabels_debugEnum, variants_scriptTokens, w.words]

theorem Literal.plain_iff (l : Literal) : l.token.words = [] ↔ l.Plain := by
  cases l with
  | number n suffix => exact Option.toList_eq_nil_iff
  | char encoding x => exact Option.toList_eq_nil_iff
  | string encoding chars => exact Option.toList_eq_nil_iff

theorem PrefixOperator.words_token (op : PrefixOperator) : op.token.words = [] := by
  cases op <;> rfl

theorem InfixOperator.words_token (op : InfixOperator) : op.token.words = [] := by
  cases op <;> rfl

theorem CastType.words_tokens (type : CastType) : type.tokens.flatMap CToken.words ≠ [] := by
  simp [CastType.tokens, CToken.words]

theorem ConstExpr.plain_iff (e : ConstExpr) : e.tokens.flatMap CToken.words = [] ↔ e.Plain := by
  induction e with
  | literal l =>
    rw [tokens, List.flatMap_singleton]
    exact l.plain_iff
  | name i => simp [tokens, Plain, CToken.words]
  | paren e ih => simpa [tokens, Plain, CToken.words] using ih
  | prefixed op e ih =>
    rw [tokens, List.flatMap_cons, op.words_token]
    exact ih
  | binary op a b iha ihb =>
    rw [tokens, List.flatMap_append, List.flatMap_cons, op.words_token, List.nil_append, List.append_eq_nil_iff, iha, ihb]
    rfl
  | conditional c a b ihc iha ihb =>
    rw [tokens, List.flatMap_append, List.flatMap_cons, List.flatMap_append, List.flatMap_cons]
    show _ ++ ([] ++ (_ ++ ([] ++ _))) = [] ↔ _
    rw [List.nil_append, List.nil_append, List.append_eq_nil_iff, List.append_eq_nil_iff, ihc, iha, ihb]
    rfl
  | cast type e ih => simp [tokens, Plain, type.words_tokens]
  | sizeofType type => simp [tokens, Plain, CToken.words]
  | sizeofExpr e ih => simp [tokens, Plain, CToken.words]

/-- The identifiers of an initialiser. -/
def Enumerator.initWords (e : Enumerator) : List Ident :=
  e.init.toList.flatMap fun init => init.tokens.flatMap CToken.words

theorem Enumerator.words_tokens (e : Enumerator) : e.tokens.flatMap CToken.words = e.name :: e.initWords := by
  obtain ⟨name, init⟩ := e
  cases init <;> simp [Enumerator.tokens, initWords, CToken.words]

theorem words_enumeratorTokens (trailing : Bool) (es : List Enumerator) :
    (enumeratorTokens trailing es).flatMap CToken.words = es.flatMap fun e => e.name :: e.initWords := by
  induction es with
  | nil => rfl
  | cons e es ih =>
    cases es with
    | nil =>
      have last : (if trailing then [CToken.mark comma] else []).flatMap CToken.words = [] := by cases trailing <;> rfl
      rw [enumeratorTokens, List.flatMap_append, e.words_tokens, last]
      simp
    | cons e' es =>
      rw [enumeratorTokens, List.flatMap_append, List.flatMap_cons, ih, e.words_tokens]
      · rfl
      · simp

theorem flatMap_cons_eq_map_iff {α β : Type} {f : α → β} {g : α → List β} (as : List α) :
    (as.flatMap fun a => f a :: g a) = as.map f ↔ ∀ a ∈ as, g a = [] := by
  have long : ∀ as : List α, as.length ≤ (as.flatMap fun a => f a :: g a).length := by
    intro as
    induction as with
    | nil => exact Nat.le_refl _
    | cons a as ih =>
      simp only [List.flatMap_cons, List.length_append, List.length_cons]
      omega
  induction as with
  | nil => simp
  | cons a as ih =>
    rw [List.flatMap_cons, List.map_cons, List.cons_append, List.forall_mem_cons]
    refine Iff.trans ?_ (and_congr_right' ih)
    constructor
    · intro same
      have same := (List.cons.inj same).2
      have length := congrArg List.length same
      have enough := long as
      rw [List.length_append, List.length_map] at length
      have none_ : g a = [] := List.length_eq_zero_iff.mp (by omega)
      rw [none_] at same
      exact ⟨none_, same⟩
    · rintro ⟨none_, same⟩
      rw [none_, same]
      rfl

variable {strtod : Nat → BitVec 64 × Nat} {body : EnumBody}

theorem EnumBody.labels_eq (w : Written strtod body.tokens) (name : Bytes) : caseLabels (w.program name) =
    body.enumerators.flatMap fun e => e.name.text :: e.initWords.map Ident.text := by
  rw [w.labels_eq, EnumBody.tokens, words_enumeratorTokens, List.map_flatMap]
  rfl

theorem EnumBody.names_nodup (body : EnumBody) : body.names.Nodup := by
  have texts : body.names = (body.enumerators.map Enumerator.name).map Ident.text := by
    rw [List.map_map]
    rfl
  rw [texts]
  exact body.distinct.map fun a b same => Ident.ext_text same

theorem Enumerator.initWords_iff (e : Enumerator) : e.initWords = [] ↔ ∀ init, e.init = some init → init.Plain := by
  obtain ⟨name, init⟩ := e
  cases init with
  | none => simp [initWords]
  | some init =>
    simp only [initWords, Option.toList_some, List.flatMap_singleton, init.plain_iff, Option.some.injEq, forall_eq']

theorem EnumBody.labels_eq_names_iff (w : Written strtod body.tokens) (name : Bytes) :
    caseLabels (w.program name) = body.names ↔ ∀ e ∈ body.enumerators, ∀ init, e.init = some init → init.Plain := by
  rw [body.labels_eq w, EnumBody.names, flatMap_cons_eq_map_iff]
  simp only [List.map_eq_nil_iff, Enumerator.initWords_iff]

end Labels

/-- `1` -/
def one : CNumber := .integer (.plain (bytesOf "1"))

/-- `A = 1, B = A` -/
def aliasBody : EnumBody where
  enumerators := [⟨typeA, some (.literal (.number one none))⟩, ⟨typeB, some (.name typeA)⟩]
  trailing := false
  distinct := by decide

def aliasText : Written (fun p => (0, p)) aliasBody.tokens where
  pieces := [.token (.word typeA), .layout (.blank 32), .token (.mark 61), .layout (.blank 32), .token (.number one none),
    .token (.mark comma), .layout (.blank 32), .token (.word typeB), .layout (.blank 32), .token (.mark 61),
    .layout (.blank 32), .token (.word typeA)]
  lexemes := [.id typeA, .blank 32, .char 61, .blank 32, .integer (bytesOf "1"), .char comma, .blank 32, .id typeB, .blank 32,
    .char 61, .blank 32, .id typeA]
  tokens := rfl
  taken := rfl
  spelt := by decide +kernel

/-- C's rule; `next` is the value of an enumerator without a literal. -/
def valuesFrom : Int → List (Option Int) → List Int
  | _, [] => []
  | next, none :: rest => next :: valuesFrom (next + 1) rest
  | _, some v :: rest => v :: valuesFrom (v + 1) rest

/-- The values `start`, `start + 1`, .. of `length` enumerators. -/
structure ValueRun where
  start : Int
  length : Nat
deriving DecidableEq, Repr

/-- A literal, or 0 at the beginning, with the enumerators up to the next literal: where they start and how many they are. -/
def runsFrom : Int → Nat → List (Option Int) → List ValueRun
  | start, length, [] => [⟨start, length⟩]
  | start, length, none :: rest => runsFrom start (length + 1) rest
  | start, length, some v :: rest => ⟨start, length⟩ :: runsFrom v 1 rest

def ValueRun.range (r : ValueRun) : Set Int := Set.Ico r.start (r.start + r.length)

/-- The letters of a suffix. -/
def suffixLetter (c : UInt8) : Bool := c == byteOf 'u' || c == byteOf 'U' || c == byteOf 'l' || c == byteOf 'L'

/-- An integer literal. -/
structure IntLiteral where
  digits : IntegerDigits
  suffix : Option Ident
  letters : ∀ s ∈ suffix, s.text.all suffixLetter = true
deriving DecidableEq, Repr

/-- An enum whose initialisers are integer literals. -/
structure LiteralEnum where
  enumerators : List (Ident × Option IntLiteral)
  trailing : Bool
  distinct : (enumerators.map Prod.fst).Nodup
deriving DecidableEq, Repr

/-- Names that are no enumerators in a function: itself, `printf`, and its parameters. -/
def CFunction.hidden (f : CFunction) : List Bytes := f.name :: bytesOf "printf" :: f.params.map CParam.name

/-- The constants of the case labels where `scope` has the enumerators; a label has none when its name is hidden or not
declared. -/
def labelConstants (scope : Bytes → Option Int) (fs : List CFunction) : List (Option Int) :=
  fs.flatMap fun f => (f.body.flatMap CStmt.labels).map fun label => if label ∈ f.hidden then none else scope label

namespace LiteralEnum

def body (E : LiteralEnum) : EnumBody where
  enumerators := E.enumerators.map fun e => ⟨e.1, e.2.map fun v => .literal (.number (.integer v.digits) v.suffix)⟩
  trailing := E.trailing
  distinct := by simpa [Function.comp_def] using E.distinct

def inits (E : LiteralEnum) : List (Option Int) := E.enumerators.map fun e => e.2.map fun v => (v.digits.value : Int)

def values (E : LiteralEnum) : List Int := valuesFrom 0 E.inits

/-- Each enumerator with its value. -/
def constants (E : LiteralEnum) : List (Bytes × Int) := E.body.names.zip E.values

/-- The enumerators with their values, and other constants that are declared before. -/
def scope (E : LiteralEnum) (outer : Bytes → Option Int) (name : Bytes) : Option Int :=
  (E.constants.lookup name).or (outer name)

/-- A runtime in which the constants have their values. -/
def runtime (E : LiteralEnum) (outer : Bytes → Option Int) (rt : Runtime) : Runtime :=
  { rt with constant := fun name => (E.scope outer name).getD 0 }

/-- The case labels are constants that differ. -/
def DistinctCases (E : LiteralEnum) (outer : Bytes → Option Int) (fs : List CFunction) : Prop :=
  ∃ ks : List Int, labelConstants (E.scope outer) fs = ks.map some ∧ ks.Nodup

/-- The switch prints an enumerator with this value, or `<unknown>` if there is none. -/
def Names (E : LiteralEnum) (outer : Bytes → Option Int) (rt : Runtime) (name : Bytes) (fs : List CFunction) (v : Int) :
    Prop :=
  ∃ text, Prints (E.runtime outer rt) fs (fun callee => callee (implName name debugEnumTrait) [.enum v]) text ∧
    ((∃ c ∈ E.constants, c.2 = v) → ∃ c ∈ E.constants, c.2 = v ∧ text = c.1) ∧
    ((∀ c ∈ E.constants, c.2 ≠ v) → text = bytesOf "<unknown>")

/-- The enumerators of the enum are constants in the function for it. -/
def Visible (E : LiteralEnum) (name : Bytes) : Prop :=
  ∀ e ∈ E.enumerators, e.1.text ∉ [implName name debugEnumTrait, bytesOf "printf", bytesOf "value"]

/-- No literal has a suffix. -/
def Unsuffixed (E : LiteralEnum) : Prop := ∀ e ∈ E.enumerators, ∀ v, e.2 = some v → v.suffix = none

end LiteralEnum

section Values

theorem valuesFrom_length (inits : List (Option Int)) : ∀ next, (valuesFrom next inits).length = inits.length := by
  induction inits with
  | nil => exact fun _ => rfl
  | cons init rest ih =>
    intro next
    cases init <;> rw [valuesFrom, List.length_cons, ih, List.length_cons]

/-- The values of a run, in order. -/
def ValueRun.values (r : ValueRun) : List Int := (List.range r.length).map fun k : Nat => r.start + (k : Int)

theorem ValueRun.values_succ (start : Int) (n : Nat) :
    (ValueRun.mk start (n + 1)).values = (ValueRun.mk start n).values ++ [start + n] := by
  simp [ValueRun.values, List.range_succ]

theorem ValueRun.mem_values {r : ValueRun} {v : Int} : v ∈ r.values ↔ v ∈ r.range := by
  simp only [ValueRun.values, ValueRun.range, List.mem_map, List.mem_range, Set.mem_Ico]
  constructor
  · rintro ⟨k, less, rfl⟩
    omega
  · rintro ⟨above, below⟩
    exact ⟨(v - r.start).toNat, by omega, by omega⟩

theorem ValueRun.values_nodup (r : ValueRun) : r.values.Nodup :=
  List.nodup_range.map fun a b same => by simpa using same

theorem runsFrom_values (inits : List (Option Int)) : ∀ (start : Int) (n : Nat),
    (runsFrom start n inits).flatMap ValueRun.values = (ValueRun.mk start n).values ++ valuesFrom (start + n) inits := by
  induction inits with
  | nil => simp [runsFrom, valuesFrom]
  | cons init rest ih =>
    intro start n
    cases init with
    | none =>
      rw [runsFrom, ih, valuesFrom, ValueRun.values_succ, List.append_assoc, List.singleton_append]
      congr 3
      push_cast
      omega
    | some v =>
      have one : (ValueRun.mk v 1).values = [v] := by simp [ValueRun.values]
      rw [runsFrom, List.flatMap_cons, ih, one]
      rfl

/-- Values are distinct when the runs do not overlap. -/
theorem values_nodup_iff (E : LiteralEnum) :
    E.values.Nodup ↔ (runsFrom 0 0 E.inits).Pairwise fun r s => Disjoint r.range s.range := by
  have whole := runsFrom_values E.inits 0 0
  have none_ : (ValueRun.mk 0 0).values = [] := rfl
  have zero : (0 : Int) + (0 : Nat) = 0 := rfl
  rw [none_, List.nil_append, zero] at whole
  have apart : ∀ r s : ValueRun, List.Disjoint r.values s.values ↔ Disjoint r.range s.range := by
    intro r s
    rw [Set.disjoint_left]
    simp only [List.Disjoint, ValueRun.mem_values]
  rw [LiteralEnum.values, ← whole, List.nodup_flatMap]
  refine (and_iff_right fun r _ => r.values_nodup).trans ?_
  exact ⟨List.Pairwise.imp (apart _ _).mp, List.Pairwise.imp (apart _ _).mpr⟩

/-! ## The switch -/

theorem lookup_zip_map {keys : List Bytes} : ∀ {vs : List Int}, keys.Nodup → vs.length = keys.length →
    (keys.map fun key => ((keys.zip vs).lookup key).getD 0) = vs := by
  induction keys with
  | nil =>
    intro vs _ length
    rw [List.length_eq_zero_iff.mp length]
    rfl
  | cons key keys ih =>
    intro vs distinct length
    obtain ⟨fresh, distinct⟩ := List.nodup_cons.mp distinct
    cases vs with
    | nil => cases length
    | cons v vs =>
      have later : (keys.map fun key' => (((key :: keys).zip (v :: vs)).lookup key').getD 0) =
          keys.map fun key' => ((keys.zip vs).lookup key').getD 0 := by
        refine List.map_congr_left fun key' mem => ?_
        have other : key' ≠ key := fun same => fresh (same ▸ mem)
        rw [List.zip_cons_cons, List.lookup_cons, beq_false_of_ne other]
      rw [List.map_cons, later, ih distinct (Nat.succ.inj length), List.zip_cons_cons, List.lookup_cons_self]
      rfl

theorem LiteralEnum.names_length (E : LiteralEnum) : E.values.length = E.body.names.length := by
  rw [LiteralEnum.values, valuesFrom_length]
  simp [LiteralEnum.inits, LiteralEnum.body, EnumBody.names]

theorem lookup_zip_isSome {keys : List Bytes} {key : Bytes} : ∀ {vs : List Int}, vs.length = keys.length → key ∈ keys →
    ((keys.zip vs).lookup key).isSome = true := by
  induction keys with
  | nil => exact fun _ mem => absurd mem List.not_mem_nil
  | cons first keys ih =>
    intro vs length mem
    cases vs with
    | nil => cases length
    | cons v vs =>
      rw [List.zip_cons_cons, List.lookup_cons]
      split
      · rfl
      · rename_i other
        refine ih (Nat.succ.inj length) ((List.mem_cons.mp mem).resolve_left fun same => ?_)
        rw [same, beq_self_eq_true] at other
        cases other

theorem lookup_zip_eq_none {keys : List Bytes} {key : Bytes} (other : key ∉ keys) : ∀ vs : List Int,
    (keys.zip vs).lookup key = none := by
  intro vs
  refine List.lookup_eq_none_iff.mpr fun p mem => ?_
  have known := (List.of_mem_zip (a := p.1) (b := p.2) mem).1
  simpa using fun same : key = p.1 => other (same ▸ known)

section Switch

variable {strtod : Nat → BitVec 64 × Nat} {outer : Bytes → Option Int} {rt : Runtime} {E : LiteralEnum} {name : Bytes}

/-- An enumerator is the constant that it is declared as, whatever is declared before. -/
theorem LiteralEnum.scope_some (E : LiteralEnum) {key : Bytes} (mem : key ∈ E.body.names) :
    E.scope outer key = some ((E.constants.lookup key).getD 0) := by
  have known := lookup_zip_isSome E.names_length mem
  obtain ⟨v, here⟩ := Option.isSome_iff_exists.mp known
  have value : E.constants.lookup key = some v := here
  rw [LiteralEnum.scope, value]
  rfl

theorem LiteralEnum.scope_outer (E : LiteralEnum) {key : Bytes} (other : key ∉ E.body.names) :
    E.scope outer key = outer key := by
  have unknown : E.constants.lookup key = none := lookup_zip_eq_none other _
  rw [LiteralEnum.scope, unknown, Option.none_or]

/-- The enumerators have their values. -/
theorem LiteralEnum.names_scope (outer : Bytes → Option Int) (E : LiteralEnum) :
    E.body.names.map (E.scope outer) = E.values.map some := by
  have values : (E.body.names.map fun key => (E.constants.lookup key).getD 0) = E.values :=
    lookup_zip_map E.body.names_nodup E.names_length
  rw [← values, List.map_map]
  exact List.map_congr_left fun key mem => E.scope_some mem

theorem LiteralEnum.names_constant (outer : Bytes → Option Int) (rt : Runtime) (E : LiteralEnum) :
    E.body.names.map (E.runtime outer rt).constant = E.values := by
  have getD := congrArg (List.map fun v : Option Int => v.getD 0) (E.names_scope outer)
  rw [List.map_map, List.map_map] at getD
  exact getD.trans (List.map_id _)

theorem LiteralEnum.constants_eq (outer : Bytes → Option Int) (rt : Runtime) (E : LiteralEnum) :
    E.constants = E.body.names.map fun key => (key, (E.runtime outer rt).constant key) := by
  rw [LiteralEnum.constants, ← E.names_constant outer rt]
  have same : (E.body.names.map id).zip (E.body.names.map (E.runtime outer rt).constant) = _ := List.zip_map'
  rwa [List.map_id] at same

/-- The words behind the literals. -/
def LiteralEnum.suffixes (E : LiteralEnum) : List Bytes :=
  E.body.enumerators.flatMap fun e => e.initWords.map Ident.text

theorem LiteralEnum.suffixes_eq (E : LiteralEnum) :
    E.suffixes = E.enumerators.flatMap fun e => (e.2.bind IntLiteral.suffix).toList.map Ident.text := by
  rw [LiteralEnum.suffixes, LiteralEnum.body, List.flatMap_map]
  refine List.flatMap_congr fun e _ => ?_
  obtain ⟨key, init⟩ := e
  cases init with
  | none => rfl
  | some v => simp [Enumerator.initWords, ConstExpr.tokens, Literal.token, CToken.words]

theorem LiteralEnum.unsuffixed_iff (E : LiteralEnum) : E.suffixes = [] ↔ E.Unsuffixed := by
  rw [E.suffixes_eq, List.flatMap_eq_nil_iff]
  refine forall₂_congr fun e _ => ?_
  obtain ⟨key, init⟩ := e
  cases init <;> simp

/-- The labels are the enumerators and the suffixes of their literals. -/
theorem LiteralEnum.labels_perm (w : Written strtod E.body.tokens) (name : Bytes) :
    (caseLabels (w.program name)).Perm (E.body.names ++ E.suffixes) := by
  rw [E.body.labels_eq w]
  exact (List.map_append_flatMap_perm E.body.enumerators (fun e => e.name.text) fun e => e.initWords.map Ident.text).symm

theorem LiteralEnum.labels_names (w : Written strtod E.body.tokens) (name : Bytes) (plain : E.Unsuffixed) :
    caseLabels (w.program name) = E.body.names := by
  rw [EnumBody.labels_eq_names_iff]
  intro e mem init here
  obtain ⟨c, known, rfl⟩ := List.mem_map.mp mem
  obtain ⟨v, some_, rfl⟩ := Option.map_eq_some_iff.mp here
  exact plain c known v some_

theorem suffix_not_unknown {E : LiteralEnum} : bytesOf "<unknown>" ∉ E.suffixes := by
  rw [E.suffixes_eq]
  intro mem
  obtain ⟨e, -, mem⟩ := List.mem_flatMap.mp mem
  obtain ⟨s, here, text⟩ := List.mem_map.mp mem
  obtain ⟨v, -, suffix⟩ := Option.bind_eq_some_iff.mp (Option.mem_toList.mp here)
  have letters := v.letters s suffix
  rw [text] at letters
  revert letters
  decide

/-- The constants of the labels: those of the function are not hidden from it. -/
theorem labelConstants_program (w : Written strtod E.body.tokens) (name : Bytes) (scope : Bytes → Option Int) :
    labelConstants scope (w.program name) = (caseLabels (w.program name)).map fun label =>
      if label ∈ [implName name debugEnumTrait, bytesOf "printf", bytesOf "value"] then none else scope label := by
  simp only [labelConstants, caseLabels, Written.program, debugEnum, CFunction.hidden, List.flatMap_singleton, List.map_cons,
    List.map_nil]

theorem debugEnum_prints (rt : Runtime) (name : Bytes) (tokens : List JsToken) (v : Int) :
    Prints rt (debugEnum name tokens) (fun callee => callee (implName name debugEnumTrait) [.enum v])
      (switchText rt ((variants tokens).map fun x => (x, x)) (bytesOf "<unknown>") v) := by
  unfold debugEnum
  refine Prints.call (List.find?_cons_of_pos (decide_eq_true rfl)) (.of_ok fun callee => ?_)
  show (do
    let first ← (Except.ok (switchText rt ((variants tokens).map fun x => (x, x)) (bytesOf "<unknown>") v) : Except _ _)
    let rest ← Except.ok []
    pure (first ++ rest)) = _
  exact congrArg Except.ok (List.append_nil _)

/-- What the switch of a text prints. -/
theorem Written.program_prints {ts : List CToken} (w : Written strtod ts) (rt : Runtime) (name : Bytes) (v : Int) :
    Prints rt (w.program name) (fun callee => callee (implName name debugEnumTrait) [.enum v])
      (switchText rt ((caseLabels (w.program name)).map fun x => (x, x)) (bytesOf "<unknown>") v) := by
  rw [Written.program, caseLabels_debugEnum]
  exact debugEnum_prints rt name _ v

/-- Whether values repeat or not, the first enumerator with the value is printed. -/
theorem LiteralEnum.names_of_plain (w : Written strtod E.body.tokens) (outer : Bytes → Option Int) (rt : Runtime)
    (name : Bytes) (plain : E.Unsuffixed) (v : Int) : E.Names outer rt name (w.program name) v := by
  refine ⟨_, w.program_prints _ name v, ?_⟩
  rw [E.labels_names w name plain, switchText, E.constants_eq outer rt]
  cases found : (E.body.names.map fun x => (x, x)).find? fun c => (E.runtime outer rt).constant c.1 = v with
  | some c =>
    obtain ⟨x, mem, rfl⟩ := List.mem_map.mp (List.mem_of_find?_eq_some found)
    have value : (E.runtime outer rt).constant x = v := by simpa using List.find?_some found
    have here : (x, (E.runtime outer rt).constant x) ∈
        E.body.names.map fun key => (key, (E.runtime outer rt).constant key) := List.mem_map_of_mem mem
    exact ⟨fun _ => ⟨_, here, value, rfl⟩, fun none_ => absurd value (none_ _ here)⟩
  | none =>
    refine ⟨?_, fun _ => rfl⟩
    rintro ⟨c, mem, value⟩
    obtain ⟨x, known, rfl⟩ := List.mem_map.mp mem
    have differ := List.find?_eq_none.mp found (x, x) (List.mem_map_of_mem known)
    exact absurd value (by simpa using differ)

/-- A suffix is a label of its own: it has the constant of an enumerator, or its name is printed where no enumerator
has the value. -/
theorem LiteralEnum.unsuffixed (w : Written strtod E.body.tokens)
    (defined : ∀ label ∈ caseLabels (w.program name), (E.scope outer label).isSome = true)
    (differ : ((caseLabels (w.program name)).map (E.scope outer)).Nodup)
    (names : ∀ v, E.Names outer rt name (w.program name) v) : E.Unsuffixed := by
  rw [← E.unsuffixed_iff]
  refine List.eq_nil_iff_forall_not_mem.mpr fun s suffix => ?_
  have labels := E.labels_perm w name
  have isLabel : s ∈ caseLabels (w.program name) := labels.mem_iff.mpr (List.mem_append_right _ suffix)
  have apart : List.Disjoint E.body.names E.suffixes :=
    (List.nodup_append'.mp (labels.nodup_iff.mp (List.Nodup.of_map _ differ))).2.2
  obtain ⟨k, constant⟩ := Option.isSome_iff_exists.mp (defined s isLabel)
  -- no enumerator has the constant of the suffix
  have fresh : ∀ c ∈ E.constants, c.2 ≠ k := by
    intro c mem same
    rw [E.constants_eq outer rt] at mem
    obtain ⟨key, declared, rfl⟩ := List.mem_map.mp mem
    have value : E.scope outer key = some k := by
      rw [← same]
      show _ = some ((E.scope outer key).getD 0)
      rw [E.scope_some declared]
      rfl
    have equal : key = s := List.inj_on_of_nodup_map differ (labels.mem_iff.mpr (List.mem_append_left _ declared)) isLabel
      (value.trans constant.symm)
    exact apart declared (equal ▸ suffix)
  obtain ⟨text, printed, -, unknown⟩ := names k
  obtain rfl := printed.unique (w.program_prints _ name k)
  have unknown := unknown fresh
  rw [switchText] at unknown
  cases found :
    ((caseLabels (w.program name)).map fun x => (x, x)).find? fun c => (E.runtime outer rt).constant c.1 = k with
  | none =>
    have other := List.find?_eq_none.mp found (s, s) (List.mem_map_of_mem isLabel)
    simp [LiteralEnum.runtime, constant] at other
  | some c =>
    rw [found] at unknown
    obtain ⟨x, mem, rfl⟩ := List.mem_map.mp (List.mem_of_find?_eq_some found)
    have value : (E.runtime outer rt).constant x = k := by simpa using List.find?_some found
    rcases List.mem_append.mp (labels.mem_iff.mp mem) with declared | other
    · refine fresh (x, k) ?_ rfl
      rw [E.constants_eq outer rt, ← value]
      exact List.mem_map_of_mem declared
    · have text : x = bytesOf "<unknown>" := unknown
      exact suffix_not_unknown (text ▸ other)

end Switch

end Values

/-- In any text of the enum, the switch has distinct constants and names every value when no literal has a suffix, no
enumerator is hidden, and the runs of values do not overlap, and only then. -/
theorem enumSwitch_iff (strtod : Nat → BitVec 64 × Nat) (outer : Bytes → Option Int) (rt : Runtime) (name : Bytes)
    (E : LiteralEnum) (w : Written strtod E.body.tokens) :
    (E.DistinctCases outer (w.program name) ∧ ∀ v, E.Names outer rt name (w.program name) v) ↔
      E.Unsuffixed ∧ E.Visible name ∧ (runsFrom 0 0 E.inits).Pairwise fun r s => Disjoint r.range s.range := by
  rw [LiteralEnum.DistinctCases, labelConstants_program w]
  constructor
  · rintro ⟨⟨ks, constants, differ⟩, names⟩
    have visible : ∀ label ∈ caseLabels (w.program name),
        label ∉ [implName name debugEnumTrait, bytesOf "printf", bytesOf "value"] ∧ (E.scope outer label).isSome = true := by
      intro label mem
      have here := List.mem_map_of_mem (f := fun label =>
        if label ∈ [implName name debugEnumTrait, bytesOf "printf", bytesOf "value"] then none else E.scope outer label) mem
      rw [constants] at here
      obtain ⟨k, -, value⟩ := List.mem_map.mp here
      split at value
      · cases value
      · rename_i seen
        exact ⟨seen, by rw [← value]; rfl⟩
    have declared : (caseLabels (w.program name)).map (E.scope outer) = ks.map some := by
      rw [← constants]
      exact List.map_congr_left fun label mem => (if_neg (visible label mem).1).symm
    have plain : E.Unsuffixed := LiteralEnum.unsuffixed w (fun label mem => (visible label mem).2)
      (declared ▸ differ.map (Option.some_injective _)) names
    have labels := E.labels_names w name plain
    refine ⟨plain, fun e mem => ?_, ?_⟩
    · have known : e.1.text ∈ E.body.names := by
        rw [EnumBody.names, LiteralEnum.body, List.map_map]
        exact List.mem_map_of_mem mem
      exact (visible _ (labels ▸ known)).1
    · rw [labels, E.names_scope] at declared
      rw [← values_nodup_iff, List.map_injective_iff.mpr (Option.some_injective _) declared]
      exact differ
  · rintro ⟨plain, visible, apart⟩
    refine ⟨⟨E.values, ?_, (values_nodup_iff E).mpr apart⟩, E.names_of_plain w outer rt name plain⟩
    rw [E.labels_names w name plain, ← E.names_scope outer]
    refine List.map_congr_left fun label mem => if_neg ?_
    rw [EnumBody.names, LiteralEnum.body, List.map_map] at mem
    obtain ⟨e, declared, rfl⟩ := List.mem_map.mp mem
    exact visible e declared

/-- `A = 1, B = 1` -/
def equalEnum : LiteralEnum where
  enumerators := [(typeA, some ⟨.plain (bytesOf "1"), none, by simp⟩), (typeB, some ⟨.plain (bytesOf "1"), none, by simp⟩)]
  trailing := false
  distinct := by decide

def equalText : Written (fun p => (0, p)) equalEnum.body.tokens where
  pieces := [.token (.word typeA), .layout (.blank 32), .token (.mark 61), .layout (.blank 32), .token (.number one none),
    .token (.mark comma), .layout (.blank 32), .token (.word typeB), .layout (.blank 32), .token (.mark 61),
    .layout (.blank 32), .token (.number one none)]
  lexemes := [.id typeA, .blank 32, .char 61, .blank 32, .integer (bytesOf "1"), .char comma, .blank 32, .id typeB, .blank 32,
    .char 61, .blank 32, .integer (bytesOf "1")]
  tokens := rfl
  taken := rfl
  spelt := by decide +kernel

/-- Nothing is printed for a number or an address. -/
def silentRuntime : Runtime := ⟨fun _ => [], fun _ => [], fun _ => 0, fun _ => line_nil, fun _ => line_nil⟩

/-- Two labels have one constant. -/
theorem equalEnum_repeated : ¬
    (equalEnum.DistinctCases (fun _ => none) (equalText.program (bytesOf "E")) ∧
      ∀ v, equalEnum.Names (fun _ => none) silentRuntime (bytesOf "E") (equalText.program (bytesOf "E")) v) := by
  rintro ⟨⟨ks, constants, differ⟩, -⟩
  rw [labelConstants_program equalText, equalText.labels_eq] at constants
  have same : [some 1, some 1] = ks.map some := by
    rw [← constants]
    decide +kernel
  match ks, same with
  | [_, _], same =>
    obtain ⟨rfl, rfl⟩ : _ ∧ _ := by simpa using same
    exact absurd differ (by decide)

end MoeToolchain
