import MoeToolchain.Scripts.Declarations

/-!
# The scan of the fields, one declaration at a time

The lookahead of the scan takes identifiers and stars only, so it ends at any other token
(`Stop`) as it does at the end of the array: `scanFrom_stop`. `fields_compositional` is
this law at `;`, with what it says of plain declarations.
-/

namespace MoeToolchain
set_option autoImplicit false

/-- A token that ends every lookahead of the scan. -/
structure JsToken.Stop (tok : JsToken) : Prop where
  identifier : tok.identifier? = none
  star : tok.isStar = false

/-- The loop from the token at index `i` on, with each field next to the index of its name. -/
def scanFrom : Nat → Nat → List JsToken → List (Nat × Field)
  | _, _, [] => []
  | i, skip + 1, _ :: rest => scanFrom (i + 1) skip rest
  | i, 0, tok :: rest =>
    (fieldAt tok rest).1.toList.map (fun f => (i + (fieldAt tok rest).2, f)) ++
      scanFrom (i + 1) (fieldAt tok rest).2 rest

theorem scanFrom_fields (ts : List JsToken) : ∀ (i skip : Nat), (scanFrom i skip ts).map Prod.snd = scan skip ts := by
  induction ts with
  | nil =>
    intro i skip
    cases skip <;> rfl
  | cons tok rest ih =>
    intro i skip
    cases skip with
    | succ skip => exact ih (i + 1) skip
    | zero =>
      rw [scanFrom, scan, List.map_append, ih, List.map_map]
      congr 1
      exact List.map_id _

/-! ## The lookahead -/

section Lookahead

variable {xs ys : List JsToken} {d tok : JsToken}

theorem typeAt_stop (stop : d.Stop) (typeName : Bytes) : typeAt typeName (xs ++ d :: ys) = typeAt typeName xs := by
  have head : (xs ++ d :: ys).head?.bind JsToken.identifier? = xs.head?.bind JsToken.identifier? := by
    cases xs with
    | nil => exact stop.identifier
    | cons x xs => rfl
  rw [typeAt, head, typeAt]

/-- The tag is the token after the word. -/
theorem typeAt_cases {typeName : Bytes} {type : FieldType} {used : Nat} (found : typeAt typeName xs = some (type, used)) :
    used = 0 ∨ (used = 1 ∧ ∃ tag, xs.head?.bind JsToken.identifier? = some tag) := by
  unfold typeAt at found
  cases here : xs.head?.bind JsToken.identifier? with
  | none =>
    rw [here] at found
    split_ifs at found <;> simp at found <;> exact .inl found.2.symm
  | some tag =>
    rw [here] at found
    split_ifs at found <;> simp at found <;> simp [← found.2]

theorem typeAt_used {typeName : Bytes} {type : FieldType} {used : Nat} (found : typeAt typeName xs = some (type, used)) :
    used ≤ xs.length := by
  obtain rfl | ⟨rfl, tag, here⟩ := typeAt_cases found
  · exact Nat.zero_le _
  · cases xs with
    | nil => cases here
    | cons x xs => simp

theorem stars_stop (stop : d.Stop) : stars (xs ++ d :: ys) = stars xs := by
  induction xs with
  | nil => simp [stars, stop.star]
  | cons x xs ih => rw [List.cons_append, stars, ih, stars]

theorem stars_le (xs : List JsToken) : stars xs ≤ xs.length := by
  induction xs with
  | nil => exact Nat.le_refl _
  | cons x xs ih =>
    rw [stars, List.length_cons]
    split <;> omega

theorem getElem?_stop (stop : d.Stop) {k : Nat} (inside : k ≤ xs.length) :
    (xs ++ d :: ys)[k]?.bind JsToken.identifier? = xs[k]?.bind JsToken.identifier? := by
  obtain less | rfl := Nat.lt_or_eq_of_le inside
  · rw [List.getElem?_append_left less]
  · simp [stop.identifier]

/-- A turn of the loop before the stop does what it does at the end of the array. -/
theorem fieldAt_stop (stop : d.Stop) (tok : JsToken) : fieldAt tok (xs ++ d :: ys) = fieldAt tok xs := by
  have types : (tok.identifier?.bind fun typeName => typeAt typeName (xs ++ d :: ys)) =
      tok.identifier?.bind fun typeName => typeAt typeName xs := by
    congr 1
    funext typeName
    exact typeAt_stop stop typeName
  rw [fieldAt, types, fieldAt]
  cases found : tok.identifier?.bind fun typeName => typeAt typeName xs with
  | none => rfl
  | some p =>
    obtain ⟨type, used⟩ := p
    obtain ⟨typeName, -, type_⟩ := Option.bind_eq_some_iff.mp found
    have usedLe := typeAt_used type_
    have depth : stars ((xs ++ d :: ys).drop used) = stars (xs.drop used) := by
      rw [List.drop_append_of_le_length usedLe, stars_stop stop]
    have depthLe := stars_le (xs.drop used)
    rw [List.length_drop] at depthLe
    simp only [depth]
    rw [getElem?_stop stop (by omega)]

/-- The loop moves `i` to a token of the array. -/
theorem fieldAt_moved (tok : JsToken) (xs : List JsToken) : (fieldAt tok xs).2 ≤ xs.length := by
  rw [fieldAt]
  cases found : tok.identifier?.bind fun typeName => typeAt typeName xs with
  | none => exact Nat.zero_le _
  | some p =>
    obtain ⟨type, used⟩ := p
    obtain ⟨typeName, -, type_⟩ := Option.bind_eq_some_iff.mp found
    have usedLe := typeAt_used type_
    have depthLe := stars_le (xs.drop used)
    rw [List.length_drop] at depthLe
    simp only
    cases named : xs[used + stars (xs.drop used)]?.bind JsToken.identifier? with
    | none =>
      simp only
      omega
    | some name =>
      obtain ⟨tok', at_, -⟩ := Option.bind_eq_some_iff.mp named
      have inside := (List.getElem?_eq_some_iff.mp at_).1
      simp only
      omega

end Lookahead

/-! ## The scan -/

section Scan

variable {xs ys : List JsToken} {d : JsToken}

/-- What is found before a stop and after it. -/
theorem scanFrom_stop (stop : d.Stop) (xs : List JsToken) : ∀ {i skip : Nat}, skip ≤ xs.length →
    scanFrom i skip (xs ++ d :: ys) = scanFrom i skip xs ++ scanFrom (i + xs.length + 1) 0 ys := by
  induction xs with
  | nil =>
    intro i skip inside
    obtain rfl : skip = 0 := Nat.le_zero.mp inside
    have nothing : fieldAt d ys = (none, 0) := by
      rw [fieldAt, stop.identifier]
      rfl
    show (fieldAt d ys).1.toList.map _ ++ scanFrom (i + 1) (fieldAt d ys).2 ys = _
    rw [nothing]
    rfl
  | cons x xs ih =>
    intro i skip inside
    have shift : i + 1 + xs.length + 1 = i + (x :: xs).length + 1 := by
      rw [List.length_cons]
      omega
    cases skip with
    | succ skip =>
      rw [List.cons_append, scanFrom, ih (Nat.le_of_succ_le_succ inside), shift]
      rfl
    | zero =>
      rw [List.cons_append, scanFrom, fieldAt_stop stop, ih (fieldAt_moved x xs), shift, ← List.append_assoc]
      rfl

theorem scan_stop (stop : d.Stop) (xs ys : List JsToken) : scan 0 (xs ++ d :: ys) = scan 0 xs ++ scan 0 ys := by
  rw [← scanFrom_fields _ 0, scanFrom_stop stop xs (Nat.zero_le _), List.map_append, scanFrom_fields, scanFrom_fields]

/-- The index is that of the token with the name. -/
theorem scanFrom_index (ts : List JsToken) : ∀ {i skip j : Nat} {f : Field}, (j, f) ∈ scanFrom i skip ts →
    i ≤ j ∧ ts[j - i]?.bind JsToken.identifier? = some f.name := by
  induction ts with
  | nil =>
    intro i skip j f mem
    cases skip <;> cases mem
  | cons tok rest ih =>
    intro i skip j f mem
    have later : ∀ {k : Nat}, (j, f) ∈ scanFrom (i + 1) k rest →
        i ≤ j ∧ (tok :: rest)[j - i]?.bind JsToken.identifier? = some f.name := by
      intro k mem
      obtain ⟨after, named⟩ := ih mem
      have next : j - i = j - (i + 1) + 1 := by omega
      exact ⟨by omega, by rw [next, List.getElem?_cons_succ, named]⟩
    cases skip with
    | succ skip => exact later mem
    | zero =>
      obtain here | there := List.mem_append.mp mem
      · obtain ⟨f', found, same⟩ := List.mem_map.mp here
        obtain ⟨rfl, rfl⟩ := Prod.mk.inj same
        refine ⟨Nat.le_add_right _ _, ?_⟩
        rw [Nat.add_sub_cancel_left]
        unfold fieldAt at found ⊢
        cases type : tok.identifier?.bind fun typeName => typeAt typeName rest with
        | none =>
          rw [type] at found
          cases found
        | some p =>
          obtain ⟨nextType, used⟩ := p
          rw [type] at found
          simp only at found ⊢
          cases named : rest[used + stars (rest.drop used)]?.bind JsToken.identifier? with
          | none =>
            rw [named] at found
            cases found
          | some name =>
            rw [named] at found
            obtain rfl := List.mem_singleton.mp found
            exact named
      · exact later there

end Scan

/-! ## Declarations with any number of stars -/

inductive BaseType
  | int
  | float
  | double
  | struct (tag : Ident)
  | enum (tag : Ident)
deriving DecidableEq, Repr

/-- The word that the type begins with. -/
def BaseType.word : BaseType → Ident
  | int => intWord
  | float => floatWord
  | double => doubleWord
  | struct _ => structWord
  | enum _ => enumWord

def BaseType.tag? : BaseType → Option Ident
  | struct tag => some tag
  | enum tag => some tag
  | _ => none

def BaseType.tokens (type : BaseType) : List Token := .id type.word :: type.tag?.toList.map Token.id

def BaseType.fieldType : BaseType → FieldType
  | int => .int
  | float => .float
  | double => .double
  | struct tag => .struct tag.text
  | enum tag => .enum tag.text

/-- `type **name;` with as many stars as `stars` says. -/
structure StarDecl where
  type : BaseType
  stars : Nat
  name : Ident
deriving DecidableEq, Repr

def starTokens (k : Nat) : List Token := List.replicate k (.char star)

def StarDecl.tokens (decl : StarDecl) : List Token :=
  decl.type.tokens ++ (starTokens decl.stars ++ [.id decl.name, .char semicolon])

def StarDecl.field (decl : StarDecl) : Field := ⟨decl.type.fieldType, decl.name.text, decl.stars⟩

/-- The script's object for `;`. -/
def semicolonToken : JsToken := fromTokenToJsTokenObject (Token.char semicolon).value

theorem semicolonToken_stop : semicolonToken.Stop := ⟨by decide, by decide⟩

@[simp] theorem scriptTokens_length (ts : List Token) : (scriptTokens ts).length = ts.length := List.length_map _

theorem typeAt_base (type : BaseType) (rest : List JsToken) :
    typeAt type.word.text (scriptTokens (type.tag?.toList.map Token.id) ++ rest) =
      some (type.fieldType, type.tag?.toList.length) := by
  have tagged : ∀ tag : Ident,
      (scriptTokens [.id tag] ++ rest).head?.bind JsToken.identifier? = some tag.text := fun tag => identifier?_id tag
  cases type with
  | struct tag =>
    show typeAt (bytesOf "struct") (scriptTokens [.id tag] ++ rest) = _
    rw [typeAt, tagged]
    simp +decide [BaseType.fieldType, BaseType.tag?]
  | enum tag =>
    show typeAt (bytesOf "enum") (scriptTokens [.id tag] ++ rest) = _
    rw [typeAt, tagged]
    simp +decide [BaseType.fieldType, BaseType.tag?]
  | _ => rfl

theorem stars_starTokens (k : Nat) {rest : List JsToken} (ends : stars rest = 0) :
    stars (scriptTokens (starTokens k) ++ rest) = k := by
  induction k with
  | zero => exact ends
  | succ k ih =>
    show stars (fromTokenToJsTokenObject (Token.char star).value :: (scriptTokens (starTokens k) ++ rest)) = k + 1
    rw [stars, isStar_star, if_pos rfl, ih]

/-- The turn of the loop on a base type and `k` stars. -/
theorem fieldAt_base (type : BaseType) (k : Nat) {rest : List JsToken} (ends : stars rest = 0) :
    fieldAt (fromTokenToJsTokenObject (Token.id type.word).value)
        (scriptTokens (type.tag?.toList.map Token.id ++ starTokens k) ++ rest) =
      match rest.head?.bind JsToken.identifier? with
      | some name => (some ⟨type.fieldType, name, k⟩, type.tag?.toList.length + k + 1)
      | none => (none, type.tag?.toList.length + k) := by
  have used : (scriptTokens (type.tag?.toList.map Token.id)).length = type.tag?.toList.length := by simp
  have count : (scriptTokens (starTokens k)).length = k := by simp [starTokens]
  have next : (scriptTokens (type.tag?.toList.map Token.id) ++ (scriptTokens (starTokens k) ++ rest))[
      type.tag?.toList.length + k]? = rest.head? := by
    rw [List.getElem?_append_right (by omega), List.getElem?_append_right (by omega), used, count,
      Nat.add_sub_cancel_left, Nat.sub_self, List.head?_eq_getElem?]
  rw [fieldAt, identifier?_id, Option.bind_some, scriptTokens_append, List.append_assoc, typeAt_base]
  simp only
  rw [← used, List.drop_left, stars_starTokens k ends, used]
  cases named : rest.head?.bind JsToken.identifier? with
  | none => simp only [next, named]
  | some name => simp only [next, named]

theorem scanFrom_skip (xs ys : List JsToken) : ∀ i : Nat,
    scanFrom i xs.length (xs ++ ys) = scanFrom (i + xs.length) 0 ys := by
  induction xs with
  | nil => exact fun i => rfl
  | cons x xs ih =>
    intro i
    rw [List.cons_append, List.length_cons, scanFrom, ih]
    congr 1
    omega

/-- A base type, `k` stars and a name: a field. -/
theorem scanFrom_base (type : BaseType) (k : Nat) (name : Ident) (rest : List JsToken) (i : Nat) :
    scanFrom i 0 (scriptTokens (type.tokens ++ (starTokens k ++ [.id name])) ++ rest) =
      (i + (type.tokens.length + k), ⟨type.fieldType, name.text, k⟩) ::
        scanFrom (i + (type.tokens.length + k + 1)) 0 rest := by
  have shape : scriptTokens (type.tokens ++ (starTokens k ++ [.id name])) ++ rest =
      fromTokenToJsTokenObject (Token.id type.word).value ::
        (scriptTokens (type.tag?.toList.map Token.id ++ starTokens k) ++ (scriptTokens [.id name] ++ rest)) := by
    simp [scriptTokens, BaseType.tokens]
  have ends : stars (scriptTokens [.id name] ++ rest) = 0 := by
    show stars (fromTokenToJsTokenObject (Token.id name).value :: rest) = 0
    rw [stars, isStar_id]
    rfl
  have named : (scriptTokens [.id name] ++ rest).head?.bind JsToken.identifier? = some name.text := identifier?_id name
  have count : type.tokens.length = type.tag?.toList.length + 1 := by simp [BaseType.tokens]
  have skipped := scanFrom_skip
    (scriptTokens (type.tag?.toList.map Token.id ++ starTokens k) ++ scriptTokens [.id name]) rest (i + 1)
  have length : (scriptTokens (type.tag?.toList.map Token.id ++ starTokens k) ++ scriptTokens [.id name]).length =
      type.tag?.toList.length + k + 1 := by
    simp [starTokens]
  rw [length, List.append_assoc] at skipped
  rw [shape, scanFrom, fieldAt_base type k ends, named]
  simp only
  rw [skipped, count]
  simp only [Option.toList_some, List.map_cons, List.map_nil, List.singleton_append, List.cons.injEq, Prod.mk.injEq,
    and_true]
  refine ⟨by omega, ?_⟩
  congr 1
  omega

theorem scan_starDecl (decl : StarDecl) (rest : List JsToken) :
    scan 0 (scriptTokens decl.tokens ++ rest) = decl.field :: scan 0 rest := by
  have shape : scriptTokens decl.tokens ++ rest =
      scriptTokens (decl.type.tokens ++ (starTokens decl.stars ++ [.id decl.name])) ++ ([] ++ semicolonToken :: rest) := by
    simp [scriptTokens, StarDecl.tokens, semicolonToken]
  rw [shape, ← scanFrom_fields _ 0, scanFrom_base, List.map_cons, scanFrom_fields, scan_stop semicolonToken_stop]
  rfl

/-- What is found around a `;`, and in a list of declarations. -/
theorem fields_compositional :
    (∀ ts us : List JsToken, scanFields (ts ++ [semicolonToken] ++ us) = scanFields ts ++ scanFields us) ∧
      ∀ decls : List StarDecl, scanFields (scriptTokens (decls.flatMap StarDecl.tokens)) = decls.map StarDecl.field := by
  constructor
  · intro ts us
    rw [List.append_assoc]
    exact scan_stop semicolonToken_stop ts us
  · intro decls
    induction decls with
    | nil => rfl
    | cons decl decls ih =>
      rw [List.flatMap_cons, scriptTokens_append, scanFields, scan_starDecl]
      exact congrArg _ ih

end MoeToolchain
