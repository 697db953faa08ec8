import MoeToolchain.ProcMacro.Files
import MoeToolchain.ProcMacro.Generate

/-!
# What a handler sees of a body

The tokens of a body go through three forms: the token of the lexer, the token object of
the struct and the element of the array that a handler is called with. Codes above 255
are cut to a `char`, texts end at their first NUL, and integers are cut to 32 bits.

* `handoff_faithful_iff`: which bodies without numbers are told apart.
* `int_literal_kept_iff`: which integer literals keep their value.
-/

namespace MoeToolchain
set_option autoImplicit false
open Lib

/-- Parse a block and build the array of its tokens. -/
def handOff {σ ι : Type} (js : Js σ ι) : C (St × Host σ) (Option ι) := do
  let p ← onSt (parseDerivedStruct .assertions)
  match p with
  | none => pure none
  | some derivedStruct => do
    let array ← fromTokenStreamToJsArray js derivedStruct
    pure (some array)

/-- An engine whose arrays are lists. -/
def listArrays : Js Unit (List JsToken) where
  eval _ s := (false, s)
  newArray tokens s := (tokens, s)
  isFunction _ s := (false, s)
  call _ _ _ s := (.exception, s)

/-- The array made of a body. -/
def jsArray (body : List Token) : List JsToken := body.map fun t => fromTokenToJsTokenObject t.value

/-- The array that the program builds for the block, wherever it stands. -/
def Presented (b : DeriveBlock) (array : List JsToken) : Prop :=
  ∀ (lex : StbLexer) (mem : Mem) (r : List Token) (host : Host Unit),
    ∃ c, handOff listArrays (⟨lex.atHead (b.tokens ++ r), mem⟩, host) = .ok (some array, c)

theorem handOff_block {σ ι : Type} (js : Js σ ι) {b : DeriveBlock} (fits : b.Fits) (lex : StbLexer) (mem : Mem)
    (r : List Token) (host : Host σ) :
    ∃ c, handOff js (⟨lex.atHead (b.tokens ++ r), mem⟩, host) =
      .ok (some (js.newArray (jsArray b.body) host.js).1, c) := by
  obtain ⟨d, ⟨lex', mem'⟩, run, -, s, here, owned⟩ :=
    parseDerivedStruct_returns (DeriveBlock.toExtent_ok fits) b.toExtent_result lex mem r
  cases here
  have tokens : readTokens s.addr mem' = .ok (b.body.map Token.value, mem') := owned.readTokens
  have array : fromTokenStreamToJsArray js s.addr (⟨lex', mem'⟩, host) =
      .ok ((js.newArray (jsArray b.body) host.js).1,
        (⟨lex', mem'⟩, { host with js := (js.newArray (jsArray b.body) host.js).2 })) := by
    rw [fromTokenStreamToJsArray, Exec.bind_ok (onMem_ok tokens), List.map_map]
    rfl
  have parse : onSt (parseDerivedStruct .assertions)
      (⟨lex.fetched (.id b.kind.word) (b.toExtent.tokens ++ r), mem⟩, host) =
        .ok (some s.addr, (⟨lex', mem'⟩, host)) := Exec.zoom_ok run
  rw [DeriveBlock.tokens_eq fits.single, List.cons_append, StbLexer.atHead, handOff, Exec.bind_ok parse]
  simp only
  rw [Exec.bind_ok array]
  exact ⟨_, rfl⟩

theorem presented_iff {b : DeriveBlock} (fits : b.Fits) (array : List JsToken) :
    Presented b array ↔ array = jsArray b.body := by
  constructor
  · intro presented
    obtain ⟨c, run⟩ := presented (.start []) Mem.empty [] ⟨(), [], 0⟩
    obtain ⟨c', run'⟩ := handOff_block listArrays fits (.start []) Mem.empty [] ⟨(), [], 0⟩
    rw [run'] at run
    cases run
    rfl
  · rintro rfl lex mem r host
    exact handOff_block listArrays fits lex mem r host

/-! ## Tokens without numbers -/

/-- A token that is neither a number nor a lexical error. -/
def Token.Textual : Token → Prop
  | intlit _ => False
  | floatlit _ => False
  | parseError _ _ => False
  | _ => True

def Token.literalText? : Token → Option Bytes
  | dqstring text => some text
  | sqstring text => some text
  | _ => none

/-- Pairs of tokens with the same token object. -/
inductive Confused : Token → Token → Prop
  /-- String literals that agree up to their first NUL. -/
  | texts {t t' : Token} {a b : Bytes} (text : t.literalText? = some a) (text' : t'.literalText? = some b)
      (same : cString a = cString b) : Confused t t'
  /-- Character literals lose their value. -/
  | charlits (v w : Int) : Confused (.charlit v) (.charlit w)
  | charlit (v : Int) (c : Fin 128) (code : c.val = 7) : Confused (.charlit v) (.char c)
  /-- An operator becomes the character with the low byte of its code. -/
  | operator (o : Operator) (c : Fin 128) (code : o.code = 256 + c) : Confused (.op o) (.char c)

/-- A handler cannot tell the two tokens apart. -/
def Conflated (t t' : Token) : Prop := t = t' ∨ Confused t t' ∨ Confused t' t

section Objects

variable {t t' : Token} {a b : Bytes}

theorem cString_singleton (x y : UInt8) : cString [x] = cString [y] ↔ x = y := by
  have one : ∀ z : UInt8, cString [z] = if z = 0 then [] else [z] := by
    intro z
    by_cases nul : z = 0 <;> simp [cString, nul]
  rw [one, one]
  by_cases nul : x = 0
  · by_cases nul' : y = 0
    · simp [nul, nul']
    · simp [nul, nul', Ne.symm nul']
  · by_cases nul' : y = 0
    · simp [nul, nul']
    · simp [nul, nul']

/-- Of a code the object keeps the low byte. -/
theorem punctuation_iff (n m : Nat) :
    fromTokenToJsTokenObject (.punctuation (charOfLong n)) = fromTokenToJsTokenObject (.punctuation (charOfLong m)) ↔
      n % 256 = m % 256 := by
  have byte : ∀ k, UInt8.ofBitVec (BitVec.ofInt 8 (charOfLong k)) = UInt8.ofNat k := by
    intro k
    rw [charOfLong, BitVec.ofInt_toInt]
    rfl
  simp only [fromTokenToJsTokenObject, JsToken.mk.injEq, JsValue.string.injEq, true_and, byte, cString_singleton]
  rw [← UInt8.toNat_inj]
  simp

theorem literal_value (text : t.literalText? = some a) : t.value = .stringLiteral a := by
  cases t <;> cases text <;> rfl

/-- A token of a body is an identifier, a string literal, or is handed on by its code. -/
theorem Token.Textual.shape (textual : t.Textual) :
    (∃ name, t = .id name) ∨ (∃ a, t.literalText? = some a) ∨
      (t.value = .punctuation (charOfLong t.code) ∧
        ((∃ c, t = .char c) ∨ (∃ o, t = .op o) ∨ (∃ v, t = .charlit v))) := by
  cases t with
  | parseError => cases textual
  | intlit v => cases textual
  | floatlit v => cases textual
  | id name => exact .inl ⟨name, rfl⟩
  | dqstring text => exact .inr (.inl ⟨text, rfl⟩)
  | sqstring text => exact .inr (.inl ⟨text, rfl⟩)
  | char c => exact .inr (.inr ⟨rfl, .inl ⟨c, rfl⟩⟩)
  | op o => exact .inr (.inr ⟨rfl, .inr (.inl ⟨o, rfl⟩)⟩)
  | charlit v => exact .inr (.inr ⟨rfl, .inr (.inr ⟨v, rfl⟩)⟩)

theorem Operator.code_inj {o o' : Operator} (same : o.code = o'.code) : o = o' := by
  cases o <;> cases o' <;> first | rfl | exact absurd same (by decide)

theorem confused_object (confused : Confused t t') :
    fromTokenToJsTokenObject t.value = fromTokenToJsTokenObject t'.value := by
  cases confused with
  | texts text text' same =>
    rw [literal_value text, literal_value text', fromTokenToJsTokenObject, same]
    rfl
  | charlits v w => rfl
  | charlit v c code =>
    apply (punctuation_iff _ _).mpr
    simp [Token.code, clexCharlit, code]
  | operator o c code =>
    apply (punctuation_iff _ _).mpr
    simp [Token.code, code]

/-- Tokens that go by their codes are confused when the codes have the same low byte. -/
theorem coded_conflated (same : t.code % 256 = t'.code % 256)
    (coded : (∃ c, t = .char c) ∨ (∃ o, t = .op o) ∨ (∃ v, t = .charlit v))
    (coded' : (∃ c, t' = .char c) ∨ (∃ o, t' = .op o) ∨ (∃ v, t' = .charlit v)) : Conflated t t' := by
  have char_op : ∀ (c : Fin 128) (o : Operator), c.val % 256 = o.code % 256 → o.code = 256 + c := by
    intro c o same
    have range := o.code_range
    omega
  have charlit_op : ∀ o : Operator, o.code % 256 ≠ clexCharlit % 256 := by
    intro o same
    have range := o.code_range
    unfold clexCharlit at same
    omega
  have char_charlit : ∀ c : Fin 128, c.val % 256 = clexCharlit % 256 → c.val = 7 := by
    intro c same
    unfold clexCharlit at same
    omega
  rcases coded with ⟨c, rfl⟩ | ⟨o, rfl⟩ | ⟨v, rfl⟩
  · rcases coded' with ⟨c', rfl⟩ | ⟨o', rfl⟩ | ⟨v', rfl⟩
    · have values : c.val = c'.val := by
        simp only [Token.code] at same
        omega
      exact .inl (by rw [Fin.ext values])
    · exact .inr (.inr (.operator o' c (char_op c o' same)))
    · exact .inr (.inr (.charlit v' c (char_charlit c same)))
  · rcases coded' with ⟨c', rfl⟩ | ⟨o', rfl⟩ | ⟨v', rfl⟩
    · exact .inr (.inl (.operator o c' (char_op c' o same.symm)))
    · have range := o.code_range
      have range' := o'.code_range
      have codes : o.code = o'.code := by
        simp only [Token.code] at same
        omega
      exact .inl (by rw [Operator.code_inj codes])
    · exact absurd same (charlit_op o)
  · rcases coded' with ⟨c', rfl⟩ | ⟨o', rfl⟩ | ⟨v', rfl⟩
    · exact .inr (.inl (.charlit v c' (char_charlit c' same.symm)))
    · exact absurd same.symm (charlit_op o')
    · exact .inr (.inl (.charlits v v'))

theorem object_iff (textual : t.Textual) (textual' : t'.Textual) :
    fromTokenToJsTokenObject t.value = fromTokenToJsTokenObject t'.value ↔ Conflated t t' := by
  constructor
  · intro same
    have types := congrArg JsToken.type same
    have idText : moeTokenTypeToString .identifier ≠ moeTokenTypeToString .stringLiteral := by decide
    have idCode : moeTokenTypeToString .identifier ≠ moeTokenTypeToString .punctuation := by decide
    have textCode : moeTokenTypeToString .stringLiteral ≠ moeTokenTypeToString .punctuation := by decide
    rcases textual.shape with ⟨name, rfl⟩ | ⟨a, text⟩ | ⟨value, coded⟩
    · rcases textual'.shape with ⟨name', rfl⟩ | ⟨b, text'⟩ | ⟨value', -⟩
      · simp only [Token.value, fromTokenToJsTokenObject, cString_text, JsToken.mk.injEq, JsValue.string.injEq,
          true_and] at same
        exact .inl (by rw [Ident.ext_text same])
      · rw [literal_value text'] at types
        exact absurd types idText
      · rw [value'] at types
        exact absurd types idCode
    · rw [literal_value text] at types same
      rcases textual'.shape with ⟨name', rfl⟩ | ⟨b, text'⟩ | ⟨value', -⟩
      · exact absurd types idText.symm
      · rw [literal_value text'] at same
        simp only [fromTokenToJsTokenObject, JsToken.mk.injEq, JsValue.string.injEq, true_and] at same
        exact .inr (.inl (.texts text text' same))
      · rw [value'] at types
        exact absurd types textCode
    · rw [value] at types same
      rcases textual'.shape with ⟨name', rfl⟩ | ⟨b, text'⟩ | ⟨value', coded'⟩
      · exact absurd types idCode.symm
      · rw [literal_value text'] at types
        exact absurd types textCode.symm
      · rw [value', punctuation_iff] at same
        exact coded_conflated same coded coded'
  · rintro (rfl | confused | confused)
    · rfl
    · exact confused_object confused
    · exact (confused_object confused).symm

/-- The arrays of two bodies are equal when their tokens are conflated one by one. -/
theorem jsArray_iff (xs : List Token) : ∀ (ys : List Token), (∀ t ∈ xs, t.Textual) → (∀ t ∈ ys, t.Textual) →
    (jsArray xs = jsArray ys ↔ List.Forall₂ Conflated xs ys) := by
  induction xs with
  | nil =>
    intro ys _ _
    cases ys <;> simp [jsArray]
  | cons x xs ih =>
    intro ys textual textual'
    cases ys with
    | nil => simp [jsArray]
    | cons y ys =>
      obtain ⟨here, later⟩ := List.forall_mem_cons.mp textual
      obtain ⟨here', later'⟩ := List.forall_mem_cons.mp textual'
      rw [List.forall₂_cons, ← ih ys later later', ← object_iff here here']
      simp [jsArray]

end Objects

/-- Of two blocks without numbers in their bodies, the program presents different bodies
differently exactly when some tokens at one place are not conflated. -/
theorem handoff_faithful_iff {b b' : DeriveBlock} (fits : b.Fits) (fits' : b'.Fits)
    (textual : ∀ t ∈ b.body, t.Textual) (textual' : ∀ t ∈ b'.body, t.Textual) {array array' : List JsToken}
    (presented : Presented b array) (presented' : Presented b' array') :
    (b.body ≠ b'.body → array ≠ array') ↔ (b.body = b'.body ∨ ¬ List.Forall₂ Conflated b.body b'.body) := by
  rw [presented_iff fits] at presented
  rw [presented_iff fits'] at presented'
  subst presented presented'
  rw [Ne, Ne, jsArray_iff _ _ textual textual']
  tauto

/-- `struct B { 'a' };` and the like. -/
def charBlock (v : Int) : DeriveBlock := { blockB with body := [.charlit v], closed := by simp }

theorem charBlock_fits (v : Int) : (charBlock v).Fits where
  few := show 1 ≤ 8 by omega
  single _ := rfl

theorem charBlock_textual (v : Int) : ∀ t ∈ (charBlock v).body, t.Textual := by
  intro t mem
  rw [List.mem_singleton.mp mem]
  trivial

/-- The theorem at `'a'` and `'b'`. -/
theorem handoff_faithful_iff_charBlock :
    ∃ array array', Presented (charBlock 97) array ∧ Presented (charBlock 98) array' ∧
      (((charBlock 97).body ≠ (charBlock 98).body → array ≠ array') ↔
        ((charBlock 97).body = (charBlock 98).body ∨
          ¬ List.Forall₂ Conflated (charBlock 97).body (charBlock 98).body)) := by
  have presented := (presented_iff (charBlock_fits 97) (jsArray (charBlock 97).body)).mpr rfl
  have presented' := (presented_iff (charBlock_fits 98) (jsArray (charBlock 98).body)).mpr rfl
  exact ⟨_, _, presented, presented', handoff_faithful_iff (charBlock_fits 97) (charBlock_fits 98)
    (charBlock_textual 97) (charBlock_textual 98) presented presented'⟩

/-- `'a'` and `'b'` are presented alike. -/
theorem charlits_confused :
    ∃ array, Presented (charBlock 97) array ∧ Presented (charBlock 98) array ∧
      (charBlock 97).body ≠ (charBlock 98).body := by
  have same : jsArray (charBlock 97).body = jsArray (charBlock 98).body := by
    simp [jsArray, charBlock, Token.value, Token.code]
  exact ⟨jsArray (charBlock 97).body, (presented_iff (charBlock_fits 97) _).mpr rfl,
    (presented_iff (charBlock_fits 98) _).mpr same, by simp [charBlock]⟩

/-! ## Integer literals -/

/-- A `long` of the lexer fits an `int` when it is below `2 ^ 31`. -/
theorem intOfLong_iff {v : Int} (low : 0 ≤ v) (high : v < 2 ^ 63) : intOfLong v = v ↔ v < 2 ^ 31 := by
  rw [intOfLong, BitVec.toInt_ofInt, Int.bmod_def]
  omega

theorem intOfLong_eq_iff (v w : Int) : intOfLong v = intOfLong w ↔ v % 2 ^ 32 = w % 2 ^ 32 := by
  rw [intOfLong, intOfLong, BitVec.toInt_ofInt, BitVec.toInt_ofInt, Int.bmod_def, Int.bmod_def]
  omega

/-- The array holds the value of an integer literal of the body exactly when that is below
`2 ^ 31`, and bodies that differ in one literal are presented alike exactly when its two
values agree modulo `2 ^ 32`. -/
theorem int_literal_kept_iff {b : DeriveBlock} (fits : b.Fits) {array : List JsToken} (presented : Presented b array)
    (i : Nat) (v : Int) (here : b.body[i]? = some (.intlit v)) (low : 0 ≤ v) (high : v < 2 ^ 63) :
    (array[i]?.map JsToken.value = some (.int32 v) ↔ v < 2 ^ 31) ∧
      ∀ (b' : DeriveBlock) (array' : List JsToken) (w : Int), b'.Fits → Presented b' array' →
        b'.body = b.body.set i (.intlit w) → (array' = array ↔ w % 2 ^ 32 = v % 2 ^ 32) := by
  rw [presented_iff fits] at presented
  subst presented
  constructor
  · rw [← intOfLong_iff low high]
    simp [jsArray, here, Token.value, fromTokenToJsTokenObject]
  · intro b' array' w fits' presented' body
    rw [presented_iff fits'] at presented'
    subst presented'
    have element : (jsArray b.body)[i]? = some (fromTokenToJsTokenObject (.intLiteral (intOfLong v))) := by
      simp [jsArray, here, Token.value]
    obtain ⟨inside, element⟩ := List.getElem?_eq_some_iff.mp element
    have replaced : jsArray b'.body = (jsArray b.body).set i (fromTokenToJsTokenObject (.intLiteral (intOfLong w))) := by
      rw [body, jsArray, jsArray, List.map_set]
      rfl
    rw [replaced, ← intOfLong_eq_iff]
    constructor
    · intro same
      have at_ := congrArg (·[i]?) same
      simp only [List.getElem?_set_self inside, List.getElem?_eq_getElem inside, element, Option.some.injEq,
        fromTokenToJsTokenObject, JsToken.mk.injEq, JsValue.int32.injEq, true_and] at at_
      exact at_
    · intro same
      rw [same, ← element, List.set_getElem_self]

/-- `struct B { 5 };` and the like. -/
def intBlock (v : Int) : DeriveBlock := { blockB with body := [.intlit v], closed := by simp }

theorem intBlock_fits (v : Int) : (intBlock v).Fits where
  few := show 1 ≤ 8 by omega
  single _ := rfl

/-- The theorem at the literal 5. -/
theorem int_literal_kept_iff_five :
    ∃ array, Presented (intBlock 5) array ∧
      (array[0]?.map JsToken.value = some (.int32 5) ↔ (5 : Int) < 2 ^ 31) ∧
      ∀ (b' : DeriveBlock) (array' : List JsToken) (w : Int), b'.Fits → Presented b' array' →
        b'.body = (intBlock 5).body.set 0 (.intlit w) → (array' = array ↔ w % 2 ^ 32 = 5 % 2 ^ 32) := by
  have presented := (presented_iff (intBlock_fits 5) _).mpr rfl
  exact ⟨_, presented, int_literal_kept_iff (intBlock_fits 5) presented 0 5 rfl (by decide) (by decide)⟩

/-- The literal 4294967301 is presented as 5. -/
theorem large_literal_truncated :
    ∃ array, Presented (intBlock 4294967301) array ∧ Presented (intBlock 5) array ∧
      array.map JsToken.value = [.int32 5] :=
  ⟨_, (presented_iff (intBlock_fits 4294967301) _).mpr rfl, (presented_iff (intBlock_fits 5) _).mpr rfl, rfl⟩

end MoeToolchain
