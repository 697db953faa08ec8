import MoeToolchain.Scripts.FieldScan

/-!
# The types of the generated code

`CExpr.type?` is C's type of an expression and `CStmt.WellTyped` says that conversions and
calls get arguments of the types that they need. `fields_wellTyped_iff`: the statements for
the fields of a struct are well typed when no field has more than one star.
-/

namespace MoeToolchain
set_option autoImplicit false

/-! ## Types -/

inductive ValueType
  | void
  | char
  | int
  | float
  | double
  | struct (tag : Bytes)
  | enum (tag : Bytes)
  | pointer (target : ValueType)
deriving DecidableEq, Repr

/-- `T **` with so many stars. -/
def ValueType.pointers (type : ValueType) : Nat → ValueType
  | 0 => type
  | k + 1 => .pointer (type.pointers k)

/-- The default promotion of an argument. -/
def ValueType.promoted : ValueType → ValueType
  | char => int
  | float => double
  | type => type

/-- Whether it can be a condition. -/
def ValueType.isScalar : ValueType → Bool
  | void => false
  | struct _ => false
  | _ => true

structure TypeContext where
  var : Bytes → Option ValueType
  /-- The members of the structs, by tag and name. -/
  member : Bytes → Bytes → Option ValueType

def CBinary.type? : CBinary → ValueType → ValueType → Option ValueType
  | _, .int, .int => some .int
  | _, _, _ => none

def CUnary.type? : CUnary → ValueType → Option ValueType
  | deref, .pointer .void => none
  | deref, .pointer target => some target
  | addressOf, type => some (.pointer type)
  | voidPtr, .pointer _ => some (.pointer .void)
  | _, _ => none

/-- `p->field` -/
def TypeContext.arrow? (Γ : TypeContext) (field : Bytes) : ValueType → Option ValueType
  | .pointer (.struct tag) => Γ.member tag field
  | _ => none

/-- What `&` can be applied to. -/
def CExpr.isLvalue : CExpr → Bool
  | ident _ => true
  | arrow _ _ => true
  | unary .deref _ => true
  | _ => false

def CExpr.type? (Γ : TypeContext) : CExpr → Option ValueType
  | ident name => Γ.var name
  | digit _ => some .int
  | emptyString => some (.pointer .char)
  | arrow e field => (e.type? Γ).bind (Γ.arrow? field)
  | unary .addressOf e => if e.isLvalue then (e.type? Γ).bind CUnary.addressOf.type? else none
  | unary op e => (e.type? Γ).bind op.type?
  | binary op a b => (a.type? Γ).bind fun s => (b.type? Γ).bind fun t => op.type? s t
  | paren e => e.type? Γ

/-- The types of the arguments that a part of a format takes. -/
def CFormat.takes : CFormat → List ValueType
  | plain _ => []
  | newline => []
  | padded => [.int, .pointer .char]
  | int => [.int]
  | float => [.double]
  | pointer => [.pointer .void]

/-! ## Generated functions -/

/-- A function that `debug.js` generates for some type. -/
def Generated (f : CFunction) : Prop := ∃ name tokens, f ∈ debug name tokens ∨ f ∈ debugEnum name tokens

def CType.valueType? : CType → Option ValueType
  | structPtr tag => some (.pointer (.struct tag))
  | enum tag => some (.enum tag)
  | named word => if word = bytesOf "int" then some .int else none

def CFunction.paramTypes (f : CFunction) : List (Option ValueType) := f.params.map fun p => p.type.valueType?

/-- The function is generated, with parameters of exactly these types. -/
def TakesTypes (callee : Bytes) (types : List ValueType) : Prop :=
  (∃ f, Generated f ∧ f.name = callee) ∧ ∀ f, Generated f → f.name = callee → f.paramTypes = types.map some

/-! ## Statements -/

def CCall.WellTyped (Γ : TypeContext) : CCall → Prop
  | printf format args =>
    ∃ types, args.mapM (CExpr.type? Γ) = some types ∧ types.map ValueType.promoted = format.flatMap CFormat.takes
  | function callee args => ∃ types, args.mapM (CExpr.type? Γ) = some types ∧ TakesTypes callee types

def CExpr.IsCondition (Γ : TypeContext) (e : CExpr) : Prop := ∃ type, e.type? Γ = some type ∧ type.isScalar = true

def CStmt.WellTyped (Γ : TypeContext) : CStmt → Prop
  | call c => c.WellTyped Γ
  | ifThen cond yes => cond.IsCondition Γ ∧ yes.WellTyped Γ
  | ifElse cond yes no => cond.IsCondition Γ ∧ yes.WellTyped Γ ∧ no.WellTyped Γ
  | switch on _ _ => ∃ type, on.type? Γ = some type ∧ (type = .int ∨ ∃ tag, type = .enum tag)

/-! ## Fields -/

/-- C's type, if the type has its tag. -/
def FieldType.valueType? : FieldType → Option ValueType
  | int => some .int
  | float => some .float
  | double => some .double
  | struct tag => some (.struct tag)
  | enum tag => some (.enum tag)
  | bareStruct => none
  | bareEnum => none

/-- In the helper of the struct `owner`, where `self->name` has the type of the field under its stars. -/
def fieldContext (owner : Bytes) (f : Field) : TypeContext where
  var x := ((debugHelper owner []).params.find? fun p => p.name = x).bind fun p => p.type.valueType?
  member tag name := if tag = owner ∧ name = f.name then f.type.valueType?.map fun type => type.pointers f.ptr else none

section Signatures

variable {tag callee : Bytes} {types : List ValueType}

theorem generated_cases {f : CFunction} (generated : Generated f) :
    (∃ name, f.name = helperName name ∧ f.paramTypes = [some (.pointer (.struct name)), some .int]) ∨
      (∃ name, f.name = implName name debugTrait ∧ f.paramTypes = [some (.pointer (.struct name))]) ∨
        ∃ name, f.name = implName name debugEnumTrait ∧ f.paramTypes = [some (.enum name)] := by
  obtain ⟨name, tokens, struct | enum⟩ := generated
  · obtain rfl | impl := List.mem_cons.mp struct
    · exact .inl ⟨name, rfl, rfl⟩
    · obtain rfl := List.mem_singleton.mp impl
      exact .inr (.inl ⟨name, rfl, rfl⟩)
  · obtain rfl := List.mem_singleton.mp enum
    exact .inr (.inr ⟨name, rfl, rfl⟩)

theorem takesTypes_helper_iff : TakesTypes (helperName tag) types ↔ types = [.pointer (.struct tag), .int] := by
  have helper : Generated (debugHelper tag (scanFields [])) := ⟨tag, [], .inl List.mem_cons_self⟩
  constructor
  · rintro ⟨-, exact_⟩
    have same : [some (.pointer (.struct tag)), some .int] = types.map some := exact_ _ helper rfl
    exact (List.map_injective_iff.mpr (Option.some_injective _) (by simpa using same)).symm
  · rintro rfl
    refine ⟨⟨_, helper, rfl⟩, fun f generated named => ?_⟩
    obtain ⟨name, isHelper, types⟩ | ⟨name, isImpl, -⟩ | ⟨name, isEnum, -⟩ := generated_cases generated
    · obtain rfl := helperName_inj (named.symm.trans isHelper)
      exact types
    · exact absurd (named.symm.trans isImpl) (helperName_ne_implName _ _ _)
    · exact absurd (named.symm.trans isEnum) (helperName_ne_implName _ _ _)

theorem takesTypes_enum_iff : TakesTypes (implName tag debugEnumTrait) types ↔ types = [.enum tag] := by
  obtain ⟨f, enum⟩ : ∃ f, f ∈ debugEnum tag [] := ⟨_, List.mem_singleton.mpr rfl⟩
  have generated : Generated f := ⟨tag, [], .inr enum⟩
  have isEnum : f.name = implName tag debugEnumTrait ∧ f.paramTypes = [some (.enum tag)] := by
    rw [List.mem_singleton.mp enum]
    exact ⟨rfl, rfl⟩
  constructor
  · rintro ⟨-, exact_⟩
    have same := exact_ f generated isEnum.1
    rw [isEnum.2] at same
    exact (List.map_injective_iff.mpr (Option.some_injective _) (by simpa using same)).symm
  · rintro rfl
    refine ⟨⟨f, generated, isEnum.1⟩, fun f generated named => ?_⟩
    obtain ⟨name, isHelper, -⟩ | ⟨name, isImpl, -⟩ | ⟨name, isEnum, types⟩ := generated_cases generated
    · exact absurd (isHelper.symm.trans named) (helperName_ne_implName _ _ _)
    · exact absurd (isImpl.symm.trans named) (implName_ne _ _)
    · obtain rfl := implName_inj (named.symm.trans isEnum)
      exact types

end Signatures

section Fields

variable {owner : Bytes} {f : Field} {type : ValueType}

theorem type_fieldExpr (typed : f.type.valueType? = some type) :
    (fieldExpr f).type? (fieldContext owner f) = some (type.pointers f.ptr) := by
  have self : (fieldContext owner f).var selfWord = some (.pointer (.struct owner)) := rfl
  rw [fieldExpr, CExpr.type?, CExpr.type?, self]
  simp [TypeContext.arrow?, fieldContext, typed]

theorem type_fieldIndent : fieldIndent.type? (fieldContext owner f) = some .int := rfl

theorem type_nextIdent : nextIdent.type? (fieldContext owner f) = some .int := rfl

/-- After the padding and the name. -/
theorem printField_wellTyped_iff {format : List CFormat} {args : List CExpr} :
    (printField f format args).WellTyped (fieldContext owner f) ↔
      ∃ types, args.mapM (CExpr.type? (fieldContext owner f)) = some types ∧
        types.map ValueType.promoted = format.flatMap CFormat.takes := by
  rw [printField, CStmt.WellTyped, CCall.WellTyped]
  simp only [List.mapM_cons, type_fieldIndent, CExpr.type?]
  cases args.mapM (CExpr.type? (fieldContext owner f)) with
  | none => simp
  | some types => simp [CFormat.takes, ValueType.promoted]

theorem printNewline_wellTyped : printNewline.WellTyped (fieldContext owner f) := ⟨[], rfl, rfl⟩

theorem callHelper_wellTyped_iff {tag : Bytes} {e : CExpr} (typed : e.type? (fieldContext owner f) = some type) :
    (CCall.function (helperName tag) [e, nextIdent]).WellTyped (fieldContext owner f) ↔ type = .pointer (.struct tag) := by
  rw [CCall.WellTyped]
  simp [typed, type_nextIdent, takesTypes_helper_iff]

theorem callEnum_wellTyped_iff {tag : Bytes} {e : CExpr} (typed : e.type? (fieldContext owner f) = some type) :
    (CCall.function (implName tag debugEnumTrait) [e]).WellTyped (fieldContext owner f) ↔ type = .enum tag := by
  rw [CCall.WellTyped]
  simp [typed, takesTypes_enum_iff]

theorem mapM_singleton {Γ : TypeContext} {e : CExpr} (typed : e.type? Γ = some type) :
    [e].mapM (CExpr.type? Γ) = some [type] := by
  rw [List.mapM_cons, typed]
  rfl

/-- A field with no star. -/
theorem debugValueField_wellTyped (typed : f.type.valueType? = some type) (value : f.ptr = 0) :
    ∀ s ∈ debugValueField f, s.WellTyped (fieldContext owner f) := by
  have expr : (fieldExpr f).type? (fieldContext owner f) = some type := by
    rw [type_fieldExpr typed, value]
    rfl
  have address : (CExpr.unary .addressOf (fieldExpr f)).type? (fieldContext owner f) = some (.pointer type) := by
    have lvalue : (fieldExpr f).isLvalue = true := rfl
    rw [CExpr.type?, if_pos lvalue, expr]
    rfl
  have plain : ∀ text, (printField f [.plain text] []).WellTyped (fieldContext owner f) :=
    fun text => printField_wellTyped_iff.mpr ⟨[], rfl, rfl⟩
  obtain ⟨fieldType, name, ptr⟩ := f
  cases fieldType with
  | struct tag =>
    obtain rfl := Option.some.inj typed
    exact List.forall_mem_cons.mpr ⟨plain _, List.forall_mem_singleton.mpr ((callHelper_wellTyped_iff address).mpr rfl)⟩
  | enum tag =>
    obtain rfl := Option.some.inj typed
    exact List.forall_mem_cons.mpr ⟨plain _, List.forall_mem_cons.mpr
      ⟨(callEnum_wellTyped_iff expr).mpr rfl, List.forall_mem_singleton.mpr printNewline_wellTyped⟩⟩
  | bareStruct => cases typed
  | bareEnum => cases typed
  | _ =>
    obtain rfl := Option.some.inj typed
    exact List.forall_mem_singleton.mpr (printField_wellTyped_iff.mpr ⟨_, mapM_singleton expr, rfl⟩)

/-- A field with stars; its target has no star if there is one only. -/
theorem debugPointerField_wellTyped_iff {k : Nat} (typed : f.type.valueType? = some type) (depth : f.ptr = k + 1) :
    (∀ s ∈ debugPointerField f, s.WellTyped (fieldContext owner f)) ↔ k = 0 := by
  have expr : (fieldExpr f).type? (fieldContext owner f) = some (.pointer (type.pointers k)) := by
    rw [type_fieldExpr typed, depth]
    rfl
  have notVoid : type.pointers k ≠ .void := by
    cases k with
    | succ k => simp [ValueType.pointers]
    | zero =>
      rintro rfl
      obtain ⟨fieldType, name, ptr⟩ := f
      cases fieldType <;> cases typed
  have target : (CExpr.unary .deref (fieldExpr f)).type? (fieldContext owner f) = some (type.pointers k) := by
    rw [CExpr.type?, expr, Option.bind_some]
    · cases here : type.pointers k <;> first | rfl | exact absurd here notVoid
    · simp
  have address : (fieldAddress f).type? (fieldContext owner f) = some (.pointer .void) := by
    rw [fieldAddress, CExpr.type?, expr]
    · rfl
    · simp
  have guarded : ∀ {c : CCall}, (CStmt.ifThen (fieldExpr f) c).WellTyped (fieldContext owner f) ↔
      c.WellTyped (fieldContext owner f) := and_iff_right ⟨_, expr, rfl⟩
  have title : ∀ {text text'}, (printField f [.plain text, .pointer, .plain text'] [fieldAddress f]).WellTyped
      (fieldContext owner f) := printField_wellTyped_iff.mpr ⟨_, mapM_singleton address, rfl⟩
  have scalarTitle : ∀ {text}, (printField f [.plain text, .pointer] [fieldAddress f]).WellTyped (fieldContext owner f) :=
    printField_wellTyped_iff.mpr ⟨_, mapM_singleton address, rfl⟩
  obtain ⟨fieldType, name, ptr⟩ := f
  cases fieldType with
  | struct tag =>
    obtain rfl := Option.some.inj typed
    have call := @callHelper_wellTyped_iff owner _ _ tag _ expr
    simp only [debugPointerField, List.forall_mem_cons, title, guarded, call, true_and]
    cases k <;> simp [ValueType.pointers]
  | enum tag =>
    obtain rfl := Option.some.inj typed
    have call := @callEnum_wellTyped_iff owner _ _ tag _ target
    simp only [debugPointerField, List.forall_mem_cons, title, guarded, call, true_and]
    cases k <;> simp [ValueType.pointers, printNewline_wellTyped]
  | bareStruct => cases typed
  | bareEnum => cases typed
  | _ =>
    obtain rfl := Option.some.inj typed
    simp only [debugPointerField, List.forall_mem_cons, scalarTitle, guarded, true_and]
    simp only [CCall.WellTyped, mapM_singleton target]
    cases k <;> simp [ValueType.pointers, ValueType.promoted, CFormat.takes, scalarFormat, printNewline_wellTyped]

theorem debugField_wellTyped_iff (typed : f.type.valueType? = some type) :
    (∀ s ∈ debugField f, s.WellTyped (fieldContext owner f)) ↔ f.ptr ≤ 1 := by
  cases depth : f.ptr with
  | zero =>
    have value : debugField f = debugValueField f := by simp [debugField, depth]
    rw [value]
    exact iff_of_true (debugValueField_wellTyped typed depth) (Nat.zero_le _)
  | succ k =>
    have pointer : debugField f = debugPointerField f := by simp [debugField, depth]
    rw [pointer, debugPointerField_wellTyped_iff typed depth]
    omega

end Fields

/-- The statements for the fields that the scan finds are well typed when none has more than one star. -/
theorem fields_wellTyped_iff (owner : Bytes) (tokens : List JsToken)
    (tagged : ∀ f ∈ scanFields tokens, f.type ≠ .bareStruct ∧ f.type ≠ .bareEnum) :
    (∀ f ∈ scanFields tokens, ∀ s ∈ debugField f, s.WellTyped (fieldContext owner f)) ↔
      ∀ f ∈ scanFields tokens, f.ptr ≤ 1 := by
  have each : ∀ f ∈ scanFields tokens, (∀ s ∈ debugField f, s.WellTyped (fieldContext owner f)) ↔ f.ptr ≤ 1 := by
    intro f mem
    obtain ⟨notStruct, notEnum⟩ := tagged f mem
    cases typed : f.type.valueType? with
    | some type => exact debugField_wellTyped_iff typed
    | none => cases type : f.type <;> simp_all [FieldType.valueType?]
  exact forall₂_congr each

/-- `struct S *p; int n;` -/
def pointerAndInt : List StarDecl :=
  [⟨.struct typeS, 1, ⟨bytesOf "p", by decide, by decide⟩⟩,
    ⟨.int, 0, ⟨bytesOf "n", by decide, by decide⟩⟩]

theorem pointerAndInt_wellTyped :
    (∀ f ∈ scanFields (scriptTokens (pointerAndInt.flatMap StarDecl.tokens)),
        ∀ s ∈ debugField f, s.WellTyped (fieldContext (bytesOf "T") f)) ↔
      ∀ f ∈ scanFields (scriptTokens (pointerAndInt.flatMap StarDecl.tokens)), f.ptr ≤ 1 :=
  fields_wellTyped_iff (bytesOf "T") (scriptTokens (pointerAndInt.flatMap StarDecl.tokens)) (by decide +kernel)

/-- `int **pp;` -/
def doublePointer : StarDecl := ⟨.int, 2, ⟨bytesOf "pp", by decide, by decide⟩⟩

/-- `%d` gets an `int *`. -/
theorem doublePointer_illTyped : ¬ ∀ f ∈ scanFields (scriptTokens doublePointer.tokens),
    ∀ s ∈ debugField f, s.WellTyped (fieldContext (bytesOf "T") f) := by
  have found : scanFields (scriptTokens doublePointer.tokens) = [doublePointer.field] := by decide +kernel
  rw [found, List.forall_mem_singleton, @debugField_wellTyped_iff _ _ .int rfl]
  decide

end MoeToolchain
