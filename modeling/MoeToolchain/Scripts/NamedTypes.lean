import MoeToolchain.Scripts.FieldScan

/-!
# What the scan of the fields takes for a name

The scan finds a field where a type, stars and an identifier follow each other (`Named`),
whatever they are there for: `scan_tokens_iff`.
-/

namespace MoeToolchain
set_option autoImplicit false

/-! ## Tokens as objects -/

/-- The script's object for a token. -/
def Token.object (t : Token) : JsToken := fromTokenToJsTokenObject t.value

@[simp] theorem Token.identifier?_object (t : Token) : t.object.identifier? = t.ident?.map Ident.text := by
  have other : ∀ {type : MoeTokenType} {value : JsValue}, moeTokenTypeToString type ≠ moeTokenTypeToString .identifier →
      JsToken.identifier? ⟨moeTokenTypeToString type, value⟩ = none := by
    intro type value differ
    cases value with
    | string text => simp [JsToken.identifier?, differ]
    | _ => rfl
  cases t with
  | id i => exact identifier?_id i
  | _ => exact other (by decide)

theorem Token.isStar_object (t : Token) : t.object.isStar = decide (t = .char star) := by
  have chars : ∀ c : Fin 128, (Token.char c).object.isStar = decide (Token.char c = .char star) := by decide +kernel
  have ops : ∀ o : Operator, (Token.op o).object.isStar = false := by
    intro o
    cases o <;> decide +kernel
  have other : ∀ {type : MoeTokenType} {value : JsValue}, moeTokenTypeToString type ≠ moeTokenTypeToString .punctuation →
      JsToken.isStar ⟨moeTokenTypeToString type, value⟩ = false := by
    intro type value differ
    simp [JsToken.isStar, differ]
  cases t with
  | char c => exact chars c
  | op o => rw [ops]; rfl
  | parseError text value =>
    have code : (Token.parseError none none).object.isStar = false := by decide +kernel
    exact code
  | charlit v =>
    have code : (Token.charlit 0).object.isStar = false := by decide +kernel
    exact code
  | _ => exact other (by decide)

/-! ## Where the scan finds something -/

section Names

variable {ts : List JsToken} {tok : JsToken} {rest : List JsToken}

theorem identifier?_star (isStar : tok.isStar = true) : tok.identifier? = none := by
  have differ : moeTokenTypeToString .punctuation ≠ moeTokenTypeToString .identifier := by decide
  have type : tok.type = moeTokenTypeToString .punctuation := (of_decide_eq_true isStar).1
  obtain ⟨type', value⟩ := tok
  obtain rfl : type' = moeTokenTypeToString .punctuation := type
  cases value with
  | string text => simp [JsToken.identifier?, differ]
  | _ => rfl

/-- No turn of the loop finds a field, wherever it begins. -/
def Silent (ts : List JsToken) : Prop := ∀ tok rest, tok :: rest <:+ ts → (fieldAt tok rest).1 = none

theorem Silent.tail (silent : Silent (tok :: rest)) : Silent rest :=
  fun tok' rest' suffix => silent tok' rest' (suffix.trans (List.suffix_cons tok rest))

theorem Silent.cons (here : (fieldAt tok rest).1 = none) (silent : Silent rest) : Silent (tok :: rest) := by
  intro tok' rest' suffix
  obtain same | within := List.suffix_cons_iff.mp suffix
  · obtain ⟨rfl, rfl⟩ := List.cons.inj same
    exact here
  · exact silent tok' rest' within

theorem scan_silent (ts : List JsToken) : ∀ {skip : Nat}, Silent ts → scan skip ts = [] := by
  induction ts with
  | nil =>
    intro skip silent
    cases skip <;> rfl
  | cons tok rest ih =>
    intro skip silent
    cases skip with
    | succ skip => exact ih silent.tail
    | zero => rw [scan, silent tok rest (List.suffix_refl _), ih silent.tail]; rfl

theorem stars_get (ts : List JsToken) : ∀ {j : Nat}, j < stars ts → ∃ tok, ts[j]? = some tok ∧ tok.isStar = true := by
  induction ts with
  | nil =>
    intro j less
    cases less
  | cons tok rest ih =>
    intro j less
    rw [stars] at less
    split at less
    · rename_i isStar
      cases j with
      | zero => exact ⟨tok, rfl, isStar⟩
      | succ j => exact ih (by omega)
    · cases less

/-- Where a turn of the loop finds no field, it moves over tokens where none begins. -/
theorem fieldAt_passed (nothing : (fieldAt tok rest).1 = none) {j : Nat} (passed : j < (fieldAt tok rest).2)
    {tok' : JsToken} {rest' : List JsToken} (at_ : rest.drop j = tok' :: rest') : (fieldAt tok' rest').1 = none := by
  rw [fieldAt] at nothing passed
  cases type : tok.identifier?.bind fun typeName => typeAt typeName rest with
  | none =>
    rw [type] at passed
    cases passed
  | some p =>
    obtain ⟨nextType, used⟩ := p
    rw [type] at nothing passed
    simp only at nothing passed
    cases named : rest[used + stars (rest.drop used)]?.bind JsToken.identifier? with
    | some name =>
      rw [named] at nothing
      cases nothing
    | none =>
      rw [named] at passed
      simp only at passed
      obtain ⟨typeName, -, typed⟩ := Option.bind_eq_some_iff.mp type
      by_cases isStar : used ≤ j
      · -- a star
        have less : j - used < stars (rest.drop used) := by omega
        obtain ⟨tok'', here, isStar⟩ := stars_get _ less
        rw [List.getElem?_drop, Nat.add_sub_cancel' ‹used ≤ j›] at here
        have same : rest[j]? = some tok' := by rw [← List.head?_drop, at_]; rfl
        obtain rfl : tok'' = tok' := Option.some.inj (here.symm.trans same)
        rw [fieldAt, identifier?_star isStar]
        rfl
      · -- the tag
        obtain rfl | ⟨rfl, tag, -⟩ := typeAt_cases typed
        · omega
        obtain rfl : j = 0 := by omega
        obtain rfl : rest = tok' :: rest' := at_
        rw [Nat.add_comm, List.getElem?_cons_succ, List.drop_succ_cons, List.drop_zero] at named
        rw [fieldAt]
        cases type' : tok'.identifier?.bind fun typeName => typeAt typeName rest' with
        | none => rfl
        | some p =>
          obtain ⟨nextType', used'⟩ := p
          obtain ⟨typeName', -, typed'⟩ := Option.bind_eq_some_iff.mp type'
          obtain rfl | ⟨rfl, tag', isTag⟩ := typeAt_cases typed'
          · simp only [List.drop_zero, Nat.zero_add]
            rw [named]
          · have first : stars rest' = 0 := by
              cases rest' with
              | nil => rfl
              | cons x xs =>
                have word : x.identifier? = some tag' := isTag
                rw [stars]
                split
                · rename_i isStar
                  rw [identifier?_star isStar] at word
                  cases word
                · rfl
            rw [first, ← List.head?_eq_getElem?, isTag] at named
            cases named

theorem silent_of_scan (ts : List JsToken) : ∀ {skip : Nat},
    (∀ j < skip, ∀ tok rest, ts.drop j = tok :: rest → (fieldAt tok rest).1 = none) → scan skip ts = [] → Silent ts := by
  induction ts with
  | nil =>
    intro skip passed nothing tok rest suffix
    cases List.suffix_nil.mp suffix
  | cons tok rest ih =>
    intro skip passed nothing
    cases skip with
    | succ skip =>
      exact .cons (passed 0 (Nat.succ_pos _) tok rest rfl)
        (ih (fun j less => passed (j + 1) (Nat.succ_lt_succ less)) nothing)
    | zero =>
      rw [scan] at nothing
      obtain ⟨here, later⟩ := List.append_eq_nil_iff.mp nothing
      have none_ : (fieldAt tok rest).1 = none := by simpa using here
      exact .cons none_ (ih (fun j less tok' rest' at_ => fieldAt_passed none_ less at_) later)

theorem scan_eq_nil_iff : scan 0 ts = [] ↔ Silent ts :=
  ⟨silent_of_scan ts fun _ less => absurd less (Nat.not_lt_zero _), scan_silent ts⟩

end Names

/-! ## Named types -/

/-- A type, stars and a name come first. -/
inductive Named : List Token → Prop
  | base (type : BaseType) (k : Nat) (name : Ident) (rest : List Token) :
    Named (type.tokens ++ (starTokens k ++ .id name :: rest))
  | bareStruct (k : Nat) (name : Ident) (rest : List Token) :
    Named (.id structWord :: (starTokens (k + 1) ++ .id name :: rest))
  | bareEnum (k : Nat) (name : Ident) (rest : List Token) :
    Named (.id enumWord :: (starTokens (k + 1) ++ .id name :: rest))

/-- Somewhere in the tokens, stars and a name follow a type. -/
def NamesType (ts : List Token) : Prop := ∃ us, us <:+ ts ∧ Named us

section Named

variable {i : Ident} {ts : List Token}

theorem scriptTokens_cons (t : Token) (ts : List Token) : scriptTokens (t :: ts) = t.object :: scriptTokens ts := rfl

theorem stars_id (i : Ident) (rest : List JsToken) : stars ((Token.id i).object :: rest) = 0 := by
  rw [stars, Token.isStar_object]
  rfl

theorem fieldAt_of_named {us : List Token} (named : Named us) :
    ∃ t ts, us = t :: ts ∧ (fieldAt t.object (scriptTokens ts)).1 ≠ none := by
  have bare : ∀ {word : Ident} {type : FieldType} (k : Nat) (name : Ident) (rest : List Token),
      (∀ xs, typeAt word.text ((Token.char star).object :: xs) = some (type, 0)) →
      (fieldAt (Token.id word).object (scriptTokens (starTokens (k + 1) ++ .id name :: rest))).1 ≠ none := by
    intro word type k name rest typed
    have shape : scriptTokens (starTokens (k + 1) ++ .id name :: rest) =
        scriptTokens (starTokens (k + 1)) ++ (Token.id name).object :: scriptTokens rest := scriptTokens_append _ _
    have typed' : typeAt word.text (scriptTokens (starTokens (k + 1) ++ .id name :: rest)) = some (type, 0) := typed _
    have length : (scriptTokens (starTokens (k + 1))).length = k + 1 := by simp [starTokens]
    rw [fieldAt, Token.identifier?_object]
    simp only [Token.ident?, Option.map_some, Option.bind_some, typed']
    rw [List.drop_zero, shape, stars_starTokens (k + 1) (stars_id _ _), List.getElem?_append_right (by omega)]
    simp [length, Token.ident?]
  cases named with
  | base type k name rest =>
    refine ⟨_, _, rfl, ?_⟩
    have shape : scriptTokens (type.tag?.toList.map Token.id ++ (starTokens k ++ .id name :: rest)) =
        scriptTokens (type.tag?.toList.map Token.id ++ starTokens k) ++ (Token.id name).object :: scriptTokens rest := by
      rw [← List.append_assoc, scriptTokens_append]
      rfl
    show (fieldAt (Token.id type.word).object
      (scriptTokens (type.tag?.toList.map Token.id ++ (starTokens k ++ .id name :: rest)))).1 ≠ none
    have found := fieldAt_base type k (stars_id name (scriptTokens rest))
    rw [shape, Token.object, found]
    simp [Token.ident?]
  | bareStruct k name rest => exact ⟨_, _, rfl, @bare _ .bareStruct k name rest fun xs => by simp +decide [typeAt, Token.ident?]⟩
  | bareEnum k name rest => exact ⟨_, _, rfl, @bare _ .bareEnum k name rest fun xs => by simp +decide [typeAt, Token.ident?]⟩

theorem stars_split (ts : List Token) : ∃ us, ts = starTokens (stars (scriptTokens ts)) ++ us := by
  induction ts with
  | nil => exact ⟨[], rfl⟩
  | cons t ts ih =>
    obtain ⟨us, split⟩ := ih
    by_cases isStar : t = .char star
    · have starred : stars (scriptTokens (t :: ts)) = stars (scriptTokens ts) + 1 := by
        rw [scriptTokens_cons, stars, Token.isStar_object, decide_eq_true isStar, if_pos rfl]
      refine ⟨us, ?_⟩
      rw [starred, isStar]
      exact congrArg (Token.char star :: ·) split
    · have unstarred : stars (scriptTokens (t :: ts)) = 0 := by
        rw [scriptTokens_cons, stars, Token.isStar_object, decide_eq_false isStar]
        rfl
      exact ⟨t :: ts, by rw [unstarred]; rfl⟩

/-- After the stars of the tokens, the token that the loop takes for a name. -/
theorem named_split {name : Bytes}
    (named : (scriptTokens ts)[stars (scriptTokens ts)]?.bind JsToken.identifier? = some name) :
    ∃ i rest, ts = starTokens (stars (scriptTokens ts)) ++ .id i :: rest := by
  obtain ⟨us, split⟩ := stars_split ts
  obtain ⟨tok, at_, identifier⟩ := Option.bind_eq_some_iff.mp named
  have here : (scriptTokens ts)[stars (scriptTokens ts)]? = us.head?.map Token.object := by
    generalize stars (scriptTokens ts) = k at split
    have length : (scriptTokens (starTokens k)).length = k := by simp [starTokens]
    rw [split, scriptTokens_append, List.getElem?_append_right (by omega), length, Nat.sub_self, ← List.head?_eq_getElem?]
    exact List.head?_map
  cases us with
  | nil =>
    rw [here] at at_
    cases at_
  | cons u us =>
    rw [here] at at_
    obtain rfl := Option.some.inj at_
    rw [Token.identifier?_object] at identifier
    cases u with
    | id i => exact ⟨i, us, split⟩
    | _ => cases identifier

/-- What the type is, in the tokens. -/
theorem typeAt_tokens {type : FieldType} {used : Nat} (found : typeAt i.text (scriptTokens ts) = some (type, used)) :
    (∃ base : BaseType, ∃ ts', .id i :: ts = base.tokens ++ ts' ∧ used = base.tag?.toList.length ∧ ts' = ts.drop used) ∨
      ((i = structWord ∨ i = enumWord) ∧ used = 0 ∧ ts.head?.bind Token.ident? = none) := by
  have head : (scriptTokens ts).head?.bind JsToken.identifier? = (ts.head?.bind Token.ident?).map Ident.text := by
    cases ts with
    | nil => rfl
    | cons t ts => exact Token.identifier?_object t
  have tagged : ∀ {tag : Ident}, ts.head?.bind Token.ident? = some tag → ts = .id tag :: ts.drop 1 := by
    intro tag here
    obtain ⟨t, first, isId⟩ := Option.bind_eq_some_iff.mp here
    cases ts with
    | nil => cases first
    | cons t' ts =>
      obtain rfl := Option.some.inj first
      cases t' with
      | id i' =>
        obtain rfl := Option.some.inj isId
        rfl
      | _ => cases isId
  unfold typeAt at found
  rw [head] at found
  split_ifs at found with isInt isFloat isDouble isStruct isEnum
  · obtain ⟨-, rfl⟩ := Prod.mk.inj (Option.some.inj found)
    obtain rfl : i = BaseType.int.word := Ident.ext_text isInt
    exact .inl ⟨.int, ts, rfl, rfl, rfl⟩
  · obtain ⟨-, rfl⟩ := Prod.mk.inj (Option.some.inj found)
    obtain rfl : i = BaseType.float.word := Ident.ext_text isFloat
    exact .inl ⟨.float, ts, rfl, rfl, rfl⟩
  · obtain ⟨-, rfl⟩ := Prod.mk.inj (Option.some.inj found)
    obtain rfl : i = BaseType.double.word := Ident.ext_text isDouble
    exact .inl ⟨.double, ts, rfl, rfl, rfl⟩
  · obtain rfl : i = structWord := Ident.ext_text isStruct
    cases tag : ts.head?.bind Token.ident? with
    | none =>
      rw [tag] at found
      obtain ⟨-, rfl⟩ := Prod.mk.inj (Option.some.inj found)
      exact .inr ⟨.inl rfl, rfl, rfl⟩
    | some tag' =>
      rw [tag] at found
      obtain ⟨-, rfl⟩ := Prod.mk.inj (Option.some.inj found)
      exact .inl ⟨.struct tag', ts.drop 1, congrArg (Token.id structWord :: ·) (tagged tag), rfl, rfl⟩
  · obtain rfl : i = enumWord := Ident.ext_text isEnum
    cases tag : ts.head?.bind Token.ident? with
    | none =>
      rw [tag] at found
      obtain ⟨-, rfl⟩ := Prod.mk.inj (Option.some.inj found)
      exact .inr ⟨.inr rfl, rfl, rfl⟩
    | some tag' =>
      rw [tag] at found
      obtain ⟨-, rfl⟩ := Prod.mk.inj (Option.some.inj found)
      exact .inl ⟨.enum tag', ts.drop 1, congrArg (Token.id enumWord :: ·) (tagged tag), rfl, rfl⟩

theorem named_of_fieldAt {t : Token} (found : (fieldAt t.object (scriptTokens ts)).1 ≠ none) : Named (t :: ts) := by
  rw [fieldAt, Token.identifier?_object] at found
  cases t with
  | id i =>
    simp only [Token.ident?, Option.map_some, Option.bind_some] at found
    cases typed : typeAt i.text (scriptTokens ts) with
    | none => simp [typed] at found
    | some p =>
      obtain ⟨type, used⟩ := p
      simp only [typed] at found
      cases named : (scriptTokens ts)[used + stars ((scriptTokens ts).drop used)]?.bind JsToken.identifier? with
      | none => simp [named] at found
      | some name =>
        have dropped : (scriptTokens ts).drop used = scriptTokens (ts.drop used) := List.map_drop.symm
        rw [← List.getElem?_drop, dropped] at named
        obtain ⟨j, rest, split⟩ := named_split named
        obtain ⟨base, ts', same, -, rfl⟩ | ⟨word, rfl, bare⟩ := typeAt_tokens typed
        · rw [same, split]
          exact .base base _ j rest
        · rw [List.drop_zero] at split
          cases depth : stars (scriptTokens ts) with
          | zero =>
            rw [split, depth] at bare
            cases bare
          | succ k =>
            rw [depth] at split
            rw [split]
            obtain rfl | rfl := word
            · exact .bareStruct k j rest
            · exact .bareEnum k j rest
  | _ => exact absurd rfl found

/-- The scan of the tokens finds something where a type is named. -/
theorem scan_tokens_iff (ts : List Token) : scan 0 (scriptTokens ts) = [] ↔ ¬ NamesType ts := by
  rw [scan_eq_nil_iff]
  constructor
  · rintro silent ⟨us, suffix, named⟩
    obtain ⟨t, us, rfl, found⟩ := fieldAt_of_named named
    exact found (silent _ _ (suffix.map Token.object))
  · intro unnamed tok rest suffix
    obtain ⟨us, within, same⟩ : ∃ us, us <:+ ts ∧ tok :: rest = us.map Token.object := by
      obtain ⟨before, split⟩ := suffix
      refine ⟨ts.drop before.length, List.drop_suffix _ _, ?_⟩
      rw [List.map_drop]
      show _ = (scriptTokens ts).drop _
      rw [← split, List.drop_left]
    cases us with
    | nil => cases same
    | cons u us =>
      obtain ⟨rfl, rfl⟩ := List.cons.inj same
      by_contra found
      exact unnamed ⟨_, within, named_of_fieldAt found⟩

end Named
end MoeToolchain
