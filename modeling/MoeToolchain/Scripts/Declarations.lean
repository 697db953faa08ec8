import MoeToolchain.ProcMacro.Files
import MoeToolchain.Scripts.Debug

/-!
# Declarations that `debug.js` is made for

A `Family` is a set of struct and enum types whose members are scalars, structs and
enums of the family, or pointers to one of these. `scan_members` says that `debug` finds
the members of a struct, in order.
-/

namespace MoeToolchain
set_option autoImplicit false

/-! ## Words -/

/-- The bytes of an identifier. -/
def isWordByte (c : UInt8) : Bool :=
  (97 ≤ c && c ≤ 122) || (65 ≤ c && c ≤ 90) || (48 ≤ c && c ≤ 57) || c == 95 || c == 36 || 128 ≤ c

structure Word extends Ident where
  bytes : ∀ c ∈ text, isWordByte c = true
deriving DecidableEq, Repr

theorem Word.line (w : Word) : 10 ∉ w.text := fun mem => absurd (w.bytes 10 mem) (by decide)

theorem Word.ext_text {v w : Word} (same : v.text = w.text) : v = w := by
  obtain ⟨v, _⟩ := v
  obtain ⟨w, _⟩ := w
  obtain rfl := Ident.ext_text same
  rfl

/-! ## Members -/

inductive MemberType
  | int
  | float
  | double
  | struct (tag : Word)
  | enum (tag : Word)
deriving DecidableEq, Repr

def MemberType.tokens : MemberType → List Token
  | int => [.id intWord]
  | float => [.id floatWord]
  | double => [.id doubleWord]
  | struct tag => [.id structWord, .id tag.toIdent]
  | enum tag => [.id enumWord, .id tag.toIdent]

def MemberType.fieldType : MemberType → FieldType
  | int => .int
  | float => .float
  | double => .double
  | struct tag => .struct tag.text
  | enum tag => .enum tag.text

/-- `type name;` or `type *name;` -/
structure Member where
  type : MemberType
  pointer : Bool
  name : Word
deriving DecidableEq, Repr

def star : Fin 128 := 42

def Member.tokens (m : Member) : List Token :=
  m.type.tokens ++ ((if m.pointer then [.char star] else []) ++ [.id m.name.toIdent, .char semicolon])

def Member.field (m : Member) : Field := ⟨m.type.fieldType, m.name.text, if m.pointer then 1 else 0⟩

structure StructDecl where
  name : Word
  members : List Member
deriving DecidableEq, Repr

/-- An enum with any body that has words for identifiers. -/
structure EnumDecl where
  name : Word
  body : List Token
  words : ∀ i, .id i ∈ body → ∀ c ∈ i.text, isWordByte c = true
deriving DecidableEq, Repr

/-- Types with different tags that refer to each other only. -/
structure Family where
  structs : List StructDecl
  enums : List EnumDecl
  structTags : ∀ S ∈ structs, ∀ S' ∈ structs, S.name = S'.name → S = S'
  enumTags : ∀ E ∈ enums, ∀ E' ∈ enums, E.name = E'.name → E = E'
  structsKnown : ∀ S ∈ structs, ∀ m ∈ S.members, ∀ tag, m.type = .struct tag → ∃ S' ∈ structs, S'.name = tag
  enumsKnown : ∀ S ∈ structs, ∀ m ∈ S.members, ∀ tag, m.type = .enum tag → ∃ E ∈ enums, E.name = tag

/-- The tokens of a body as the script gets them. -/
def scriptTokens (body : List Token) : List JsToken := body.map fun t => fromTokenToJsTokenObject t.value

def StructDecl.tokens (S : StructDecl) : List JsToken := scriptTokens (S.members.flatMap Member.tokens)

/-- What `debug.js` generates for the family. -/
def Family.program (F : Family) : List CFunction :=
  F.structs.flatMap (fun S => debug S.name.text S.tokens) ++
    F.enums.flatMap fun E => debugEnum E.name.text (scriptTokens E.body)

/-! ## The functions of the program -/

section Functions

variable {F : Family}

theorem implName_inj {name name' trait : Bytes} (same : implName name trait = implName name' trait) : name = name' := by
  unfold implName at same
  have same := List.append_cancel_right (List.append_cancel_right (List.append_cancel_right same))
  exact List.append_cancel_left same

theorem implName_ne (name name' : Bytes) : implName name debugTrait ≠ implName name' debugEnumTrait := by
  intro same
  unfold implName at same
  have last := congrArg List.getLast? (List.append_cancel_right same)
  have struct : debugTrait.getLast? = some 103 := by decide
  have enum : debugEnumTrait.getLast? = some 109 := by decide
  simp only [List.getLast?_append, struct, enum, Option.some_or] at last
  exact absurd last (by decide)

/-- A function of the program is a helper, the function of a struct, or that of an enum. -/
theorem mem_program {f : CFunction} : f ∈ F.program ↔
    (∃ S ∈ F.structs, f = debugHelper S.name.text (scanFields S.tokens) ∨ f = debugImpl S.name.text) ∨
      ∃ E ∈ F.enums, f ∈ debugEnum E.name.text (scriptTokens E.body) := by
  rw [Family.program, List.mem_append, List.mem_flatMap, List.mem_flatMap]
  simp only [debug, List.mem_cons, List.not_mem_nil, or_false]

theorem find_unique {α : Type} {p : α → Bool} {as : List α} {a : α} (mem : a ∈ as) (holds : p a = true)
    (only : ∀ a' ∈ as, p a' = true → a' = a) : as.find? p = some a := by
  cases found : as.find? p with
  | none => exact absurd holds (by simpa using List.find?_eq_none.mp found a mem)
  | some a' => rw [only a' (List.mem_of_find?_eq_some found) (List.find?_some found)]

theorem find_helper {S : StructDecl} (known : S ∈ F.structs) :
    F.program.find? (fun f => f.name = helperName S.name.text) =
      some (debugHelper S.name.text (scanFields S.tokens)) := by
  refine find_unique (mem_program.mpr (.inl ⟨S, known, .inl rfl⟩)) (decide_eq_true rfl) fun f mem same => ?_
  have same := of_decide_eq_true same
  obtain ⟨S', known', rfl | rfl⟩ | ⟨E, -, enum⟩ := mem_program.mp mem
  · rw [F.structTags S' known' S known (Word.ext_text (helperName_inj same))]
  · exact absurd same.symm (helperName_ne_implName _ _ _)
  · rw [List.mem_singleton.mp enum] at same
    exact absurd same.symm (helperName_ne_implName _ _ _)

theorem find_enum {E : EnumDecl} {f : CFunction} (known : E ∈ F.enums)
    (mem : f ∈ debugEnum E.name.text (scriptTokens E.body)) :
    F.program.find? (fun f => f.name = implName E.name.text debugEnumTrait) = some f := by
  have named : ∀ {E : EnumDecl} {f : CFunction}, f ∈ debugEnum E.name.text (scriptTokens E.body) →
      f.name = implName E.name.text debugEnumTrait := fun mem => congrArg CFunction.name (List.mem_singleton.mp mem)
  refine find_unique (mem_program.mpr (.inr ⟨E, known, mem⟩)) (decide_eq_true (named mem)) fun f' mem' same => ?_
  have same := of_decide_eq_true same
  obtain ⟨S, -, rfl | rfl⟩ | ⟨E', known', enum⟩ := mem_program.mp mem'
  · exact absurd same (helperName_ne_implName _ _ _)
  · exact absurd same (implName_ne _ _)
  · rw [named enum] at same
    obtain rfl := F.enumTags E' known' E known (Word.ext_text (implName_inj same))
    rw [List.mem_singleton.mp mem, List.mem_singleton.mp enum]

end Functions

/-! ## The scan finds the members -/

section Scan

variable {rest : List JsToken}

theorem identifier?_id (i : Ident) : (fromTokenToJsTokenObject (Token.id i).value).identifier? = some i.text := by
  rw [← cString_text i]
  simp [JsToken.identifier?, fromTokenToJsTokenObject, Token.value]

theorem isStar_id (i : Ident) : (fromTokenToJsTokenObject (Token.id i).value).isStar = false := by
  have differ : moeTokenTypeToString .identifier ≠ moeTokenTypeToString .punctuation := by decide
  simp [JsToken.isStar, fromTokenToJsTokenObject, Token.value, differ]

theorem identifier?_semicolon : (fromTokenToJsTokenObject (Token.char semicolon).value).identifier? = none := by decide

theorem isStar_star : (fromTokenToJsTokenObject (Token.char star).value).isStar = true := by decide

theorem scan_append (xs : List JsToken) : scan xs.length (xs ++ rest) = scan 0 rest := by
  induction xs with
  | nil => rfl
  | cons x xs ih => exact ih

/-- A declaration is one field: its type, with `used` tokens after the first, `k` stars and a name. -/
theorem scan_declaration {tok : JsToken} {type stars' : List JsToken} {nextType : FieldType} {typeName : Bytes}
    {i : Ident} (first : tok.identifier? = some typeName)
    (typed : ∀ rest, typeAt typeName (type ++ (stars' ++ fromTokenToJsTokenObject (Token.id i).value :: rest)) =
      some (nextType, type.length))
    (starred : ∀ t ∈ stars', t.isStar = true) :
    scan 0 (tok :: (type ++ (stars' ++ scriptTokens [.id i, .char semicolon] ++ rest))) =
      ⟨nextType, i.text, stars'.length⟩ :: scan 0 rest := by
  have many : ∀ rest, stars (stars' ++ fromTokenToJsTokenObject (Token.id i).value :: rest) = stars'.length := by
    intro rest
    clear typed
    induction stars' with
    | nil =>
      rw [List.nil_append, stars, isStar_id]
      rfl
    | cons t ts ih =>
      rw [List.cons_append, stars, starred t List.mem_cons_self, if_pos rfl,
        ih fun t mem => starred t (List.mem_cons_of_mem _ mem), List.length_cons]
  have shape : type ++ (stars' ++ scriptTokens [.id i, .char semicolon] ++ rest) =
      type ++ (stars' ++ fromTokenToJsTokenObject (Token.id i).value ::
        (fromTokenToJsTokenObject (Token.char semicolon).value :: rest)) := by
    simp [scriptTokens]
  have turn : ∀ rest, fieldAt tok (type ++ (stars' ++ fromTokenToJsTokenObject (Token.id i).value :: rest)) =
      (some ⟨nextType, i.text, stars'.length⟩, type.length + stars'.length + 1) := by
    intro rest
    rw [fieldAt, first, Option.bind_some, typed]
    simp only
    rw [List.drop_left, many, List.getElem?_append_right (Nat.le_add_right _ _), Nat.add_sub_cancel_left,
      List.getElem?_append_right (Nat.le_refl _), Nat.sub_self, List.getElem?_cons_zero, Option.bind_some,
      identifier?_id]
  rw [shape, scan, turn]
  simp only [Option.toList_some, List.singleton_append, List.cons.injEq, true_and]
  have skipped := @scan_append (fromTokenToJsTokenObject (Token.char semicolon).value :: rest)
    (type ++ (stars' ++ [fromTokenToJsTokenObject (Token.id i).value]))
  rw [List.length_append, List.length_append, List.length_singleton, ← Nat.add_assoc] at skipped
  simp only [List.append_assoc, List.singleton_append] at skipped
  rw [skipped, scan, fieldAt, identifier?_semicolon]
  rfl

theorem scan_member (m : Member) : scan 0 (scriptTokens m.tokens ++ rest) = m.field :: scan 0 rest := by
  obtain ⟨type, pointer, name⟩ := m
  have starred : ∀ t ∈ scriptTokens (if pointer = true then [.char star] else []), t.isStar = true := by
    cases pointer with
    | true =>
      intro t mem
      rw [List.mem_singleton.mp mem]
      exact isStar_star
    | false =>
      intro t mem
      cases mem
  have count : (scriptTokens (if pointer = true then [.char star] else [])).length = if pointer = true then 1 else 0 := by
    cases pointer <;> rfl
  have tagged : ∀ (tag : Word) (rest : List JsToken),
      (scriptTokens [.id tag.toIdent] ++ rest).head?.bind JsToken.identifier? = some tag.text := by
    intro tag rest
    exact identifier?_id tag.toIdent
  have split : ∀ (after : List Token) {word : Ident} {nextType : FieldType},
      (∀ rest, typeAt word.text (scriptTokens after ++ rest) = some (nextType, (scriptTokens after).length)) →
      scan 0 (scriptTokens (.id word :: (after ++ ((if pointer = true then [.char star] else []) ++
        [.id name.toIdent, .char semicolon]))) ++ rest) =
          ⟨nextType, name.text, if pointer = true then 1 else 0⟩ :: scan 0 rest := by
    intro after word nextType typed
    have found := @scan_declaration rest _ (scriptTokens after) _ nextType word.text name.toIdent
      (identifier?_id word) (fun rest => typed _) starred
    rw [count] at found
    simpa [scriptTokens] using found
  cases type with
  | int => exact split [] fun rest => rfl
  | float => exact split [] fun rest => rfl
  | double => exact split [] fun rest => rfl
  | struct tag =>
    refine split [.id tag.toIdent] fun rest => ?_
    have word : structWord.text = bytesOf "struct" := rfl
    rw [word, typeAt, tagged]
    simp +decide [scriptTokens, MemberType.fieldType]
  | enum tag =>
    refine split [.id tag.toIdent] fun rest => ?_
    have word : enumWord.text = bytesOf "enum" := rfl
    rw [word, typeAt, tagged]
    simp +decide [scriptTokens, MemberType.fieldType]

theorem scriptTokens_append (ts us : List Token) : scriptTokens (ts ++ us) = scriptTokens ts ++ scriptTokens us :=
  List.map_append

/-- The fields of a struct are its members, in order. -/
theorem scan_members (S : StructDecl) : scanFields S.tokens = S.members.map Member.field := by
  rw [scanFields, StructDecl.tokens]
  induction S.members with
  | nil => rfl
  | cons m ms ih => rw [List.flatMap_cons, scriptTokens_append, scan_member, ih, List.map_cons]

end Scan

end MoeToolchain
