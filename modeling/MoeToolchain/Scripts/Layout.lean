import MoeToolchain.Scripts.MemberText

/-!
# The layout of the debug output

`Layout` is what the helper of a struct is to print: a line with the name, a text for
each member that begins and ends a line, and a closing line, with the texts of nested
structs inside. `layout_iff` says for which values it does: the statements for a
pointer to a struct end no line by themselves, so where such a pointer is NULL the
member shares its line with what comes next.
-/

namespace MoeToolchain
set_option autoImplicit false

section Layout

variable (rt : Runtime) (F : Family)

/-- The helper prints the title, the text of each member in order, and the closing line,
and so do the helpers of the nested structs. -/
inductive Layout : Nat → StructDecl → CValue → Prop
  | intro {b : Nat} {S : StructDecl} {a : Nat} {address : Bytes → Nat} {member : Bytes → CValue}
    (text : Member → Bytes)
    (whole : HelperPrints rt F b S (.pointer a (.struct address member))
      (S.name.text ++ bytesOf " \x7b\n" ++ S.members.flatMap text ++ (spaces (4 * b) ++ bytesOf "\x7d\n")))
    (texts : ∀ m ∈ S.members, MemberText rt F b a address member m (text m))
    (inner : ∀ m ∈ S.members, ∀ S' ∈ F.structs, ∀ self, m.nestedSelf address member = some (S'.name, self) →
      Layout (b + 1) S' self) :
    Layout b S (.pointer a (.struct address member))

/-- No pointer to a struct that is reached is NULL, and every indentation is an `int`. -/
inductive Whole : Nat → StructDecl → CValue → Prop
  | intro {b : Nat} {S : StructDecl} {a : Nat} {address : Bytes → Nat} {member : Bytes → CValue}
    (last : 4 * b < 2 ^ 31)
    (deeper : ∀ m ∈ S.members, 4 * (b + 1) < 2 ^ 31)
    (pointers : ∀ m ∈ S.members, ∀ tag, m.type = .struct tag → m.pointer = true → member m.name.text ≠ .null)
    (inner : ∀ m ∈ S.members, ∀ S' ∈ F.structs, ∀ self, m.nestedSelf address member = some (S'.name, self) →
      Whole (b + 1) S' self) :
    Whole b S (.pointer a (.struct address member))

end Layout

/-! ## The body of a helper -/

section Body

variable {rt : Runtime} {F : Family} {b : Nat} {S : StructDecl} {self : CValue} {callee : Callee}

theorem debugHelper_run (name : Bytes) (fields : List Field) :
    (debugHelper name fields).run rt callee [self, .int b] =
      runStmts rt callee (helperEnv self b) (debugHelper name fields).body := rfl

/-- The title has no indentation: it is printed only at level 0 or after a field's name. -/
theorem title_run (name : Bytes) :
    (CStmt.ifElse (.binary .equal baseIdent (.digit 0))
        (.printf [.padded, .plain (name ++ bytesOf " \x7b"), .newline] [baseIndent, .emptyString])
        (.printf [.plain (name ++ bytesOf " \x7b"), .newline] [])).run rt callee (helperEnv self b) =
      .ok (name ++ bytesOf " \x7b\n") := by
  have newline : name ++ bytesOf " \x7b\n" = name ++ bytesOf " \x7b" ++ [10] := by
    rw [List.append_assoc]
    rfl
  rw [newline, CStmt.run, eval_binary eval_baseIdent (eval_digit _ 0)]
  cases b with
  | zero => rfl
  | succ b =>
    have differ : ¬ ((b + 1 : Nat) : Int) = ((0 : Nat) : Int) := by omega
    have test : CBinary.apply .equal (.int ((b + 1 : Nat) : Int)) (.int ((0 : Nat) : Int)) = .ok (.int 0) := by
      rw [CBinary.apply, if_neg differ]
    show (CBinary.apply .equal (.int ((b + 1 : Nat) : Int)) (.int ((0 : Nat) : Int)) >>= _) = _
    rw [test]
    rfl

theorem closing_run (range : 4 * b < 2 ^ 31) :
    (CStmt.call (.printf [.padded, .plain (bytesOf "\x7d"), .newline] [baseIndent, .emptyString])).run rt callee
        (helperEnv self b) = .ok (spaces (4 * b) ++ bytesOf "\x7d\n") := by
  have indent : baseIndent.eval (helperEnv self b) = .ok (.int ((4 * b : Nat) : Int)) := by
    rw [eval_baseIndent, Nat.mul_comm, checkedInt_nat range]
  have empty : CExpr.emptyString.eval (helperEnv self b) = .ok (.string []) := rfl
  rw [CStmt.run, run_printf (mapM_two indent empty), printf, pad_nat]
  rfl

theorem closing_ok {out : Bytes}
    (ok : (CStmt.call (.printf [.padded, .plain (bytesOf "\x7d"), .newline] [baseIndent, .emptyString])).run rt callee
      (helperEnv self b) = .ok out) : 4 * b < 2 ^ 31 := by
  rw [CStmt.run, CCall.run, bind_ok] at ok
  obtain ⟨values, evaluated, -⟩ := ok
  rw [List.mapM_cons, bind_ok] at evaluated
  obtain ⟨w, indent, -⟩ := evaluated
  rw [eval_baseIndent] at indent
  have range := checkedInt_range indent
  omega

/-- The statements for the members in the body of the helper. -/
theorem members_stmts (S : StructDecl) :
    (scanFields S.tokens).flatMap debugField = S.members.flatMap fun m => debugField m.field := by
  rw [scan_members, List.flatMap_map]

theorem HelperPrints.of_members {text : Member → Bytes} (known : S ∈ F.structs) (range : 4 * b < 2 ^ 31)
    (each : ∀ m ∈ S.members, MemberPrints rt F b self m (text m)) :
    HelperPrints rt F b S self
      (S.name.text ++ bytesOf " \x7b\n" ++ S.members.flatMap text ++ (spaces (4 * b) ++ bytesOf "\x7d\n")) := by
  refine Prints.call (find_helper known) ?_
  have title : Prints rt F.program (fun callee => CStmt.run rt callee (helperEnv self b) _) _ :=
    .of_ok fun callee => title_run S.name.text
  have closing : Prints rt F.program (fun callee => runStmts rt callee (helperEnv self b) _) _ :=
    Prints.cons (.of_ok fun callee => closing_run range) Prints.nil
  have body := (title.cons (Prints.flatMap each)).append closing
  rw [List.append_nil, ← members_stmts] at body
  exact body

/-- Where the helper prints something, the indentation of its last line is an `int`. -/
theorem HelperPrints.last {text : Bytes} (known : S ∈ F.structs) (prints : HelperPrints rt F b S self text) :
    4 * b < 2 ^ 31 := by
  obtain ⟨fuel, run⟩ := (Prints.body (find_helper known) prints).exists
  simp only [debugHelper_run] at run
  obtain ⟨-, closing, -, last, -⟩ := runStmts_append.mp run
  rw [runStmts, bind_ok] at last
  obtain ⟨out, last, -⟩ := last
  exact closing_ok last

end Body

/-! ## From the values to the layout and back -/

section Iff

variable {rt : Runtime} {F : Family} {b : Nat} {S : StructDecl} {self : CValue}

theorem Layout.ends (layout : Layout rt F b S self) : ∃ body, HelperPrints rt F b S self (body ++ [10]) := by
  cases layout with
  | @intro _ _ a address member text whole texts inner =>
    refine ⟨S.name.text ++ bytesOf " \x7b\n" ++ S.members.flatMap text ++ (spaces (4 * b) ++ bytesOf "\x7d"), ?_⟩
    have newline : bytesOf "\x7d\n" = bytesOf "\x7d" ++ [10] := rfl
    rw [newline] at whole
    simpa using whole

/-- The nested instance of a member is one of its struct. -/
theorem Typed.nested {m : Member} {S' : StructDecl} {address : Bytes → Nat} {member : Bytes → CValue}
    (typed : Typed F m.type m.pointer (member m.name.text))
    (self_ : m.nestedSelf address member = some (S'.name, self)) : Instance F S' self := by
  obtain ⟨type, pointer, name⟩ := m
  cases type with
  | struct tag =>
    cases pointer with
    | false =>
      obtain ⟨rfl, rfl⟩ := Prod.mk.inj (Option.some.inj self_)
      exact ⟨_, _, rfl, typed⟩
    | true =>
      simp only [Member.nestedSelf, if_true] at self_
      simp only at typed
      generalize member name.text = v at typed self_
      cases typed with
      | null => cases self_
      | pointer a' pointsTo =>
        obtain ⟨rfl, rfl⟩ := Prod.mk.inj (Option.some.inj self_)
        exact ⟨_, _, rfl, pointsTo⟩
  | _ => cases self_

/-- A struct by value, or behind a pointer that is not NULL, is a nested instance. -/
theorem Typed.nestedSelf {m : Member} {tag : Word} {address : Bytes → Nat} {member : Bytes → CValue}
    (typed : Typed F m.type m.pointer (member m.name.text)) (type : m.type = .struct tag)
    (pointers : m.pointer = true → member m.name.text ≠ .null) :
    ∃ self, m.nestedSelf address member = some (tag, self) := by
  obtain ⟨_, pointer, name⟩ := m
  obtain rfl : _ = MemberType.struct tag := type
  cases pointer with
  | false => exact ⟨_, rfl⟩
  | true =>
    have notNull := pointers rfl
    simp only [Member.nestedSelf, if_true]
    simp only at typed notNull
    generalize member name.text = v at typed notNull
    cases typed with
    | null => exact absurd rfl notNull
    | pointer a' _ => exact ⟨_, rfl⟩

/-- Each kind of member has a text that is laid out. -/
theorem member_text {m : Member} {a : Nat} {address : Bytes → Nat} {member : Bytes → CValue} (known : S ∈ F.structs)
    (mem : m ∈ S.members) (range : 4 * (b + 1) < 2 ^ 31) (typed : Typed F m.type m.pointer (member m.name.text))
    (pointers : ∀ tag, m.type = .struct tag → m.pointer = true → member m.name.text ≠ .null)
    (inner : ∀ S' ∈ F.structs, ∀ self, m.nestedSelf address member = some (S'.name, self) →
      Layout rt F (b + 1) S' self) :
    ∃ text, MemberText rt F b a address member m text := by
  cases type : m.type with
  | struct tag =>
    obtain ⟨S', known', rfl⟩ := F.structsKnown S known m mem tag type
    obtain ⟨self', self_⟩ := typed.nestedSelf type (pointers S'.name type)
    obtain ⟨body, helper⟩ := (inner S' known' self' self_).ends
    exact struct_text known' self_ range helper
  | enum tag =>
    obtain ⟨E, known', rfl⟩ := F.enumsKnown S known m mem tag type
    exact enum_text known' type range typed
  | _ => exact scalar_text range (type ▸ trivial) typed

theorem whole_layout (whole : Whole F b S self) (known : S ∈ F.structs) (instance_ : Instance F S self) :
    Layout rt F b S self := by
  induction whole with
  | @intro b S a address member last deeper pointers inner ih =>
    have typed : ∀ m ∈ S.members, Typed F m.type m.pointer (member m.name.text) := by
      obtain ⟨a', value, same, typed⟩ := instance_
      cases same
      generalize name : MemberType.struct S.name = type at typed
      cases typed with
      | struct known' members =>
        obtain rfl := F.structTags S known _ known' (MemberType.struct.inj name)
        exact members
    have layouts : ∀ m ∈ S.members, ∀ S' ∈ F.structs, ∀ self, m.nestedSelf address member = some (S'.name, self) →
        Layout rt F (b + 1) S' self :=
      fun m mem S' known' self self_ => ih m mem S' known' self self_ known' ((typed m mem).nested self_)
    have each : ∀ m, ∃ text, m ∈ S.members → MemberText rt F b a address member m text := by
      intro m
      by_cases mem : m ∈ S.members
      · obtain ⟨text, laid⟩ := member_text (a := a) known mem (deeper m mem) (typed m mem) (pointers m mem)
          (layouts m mem)
        exact ⟨text, fun _ => laid⟩
      · exact ⟨[], fun here => absurd here mem⟩
    choose text laid using each
    exact .intro text (.of_members known last fun m mem => (laid m mem).prints) laid layouts

theorem debugField_head (f : Field) : ∃ format args more, debugField f = printField f format args :: more := by
  obtain ⟨type, name, ptr⟩ := f
  unfold debugField
  split
  · cases type <;> exact ⟨_, _, _, rfl⟩
  · cases type <;> exact ⟨_, _, _, rfl⟩

theorem MemberPrints.range {m : Member} {text : Bytes} (prints : MemberPrints rt F b self m text) :
    4 * (b + 1) < 2 ^ 31 := by
  obtain ⟨fuel, run⟩ := prints.exists
  obtain ⟨format, args, more, head⟩ := debugField_head m.field
  simp only [head, runStmts, bind_ok] at run
  obtain ⟨first, ok, -⟩ := run
  exact printField_ok ok

theorem layout_whole (layout : Layout rt F b S self) (known : S ∈ F.structs) : Whole F b S self := by
  induction layout with
  | @intro b S a address member text whole texts inner ih =>
    have deeper : ∀ m ∈ S.members, 4 * (b + 1) < 2 ^ 31 := fun m mem => (texts m mem).prints.range
    refine .intro (whole.last known) deeper (fun m mem tag type pointer null => ?_) fun m mem S' known' self self_ =>
      ih m mem S' known' self self_ known'
    -- the text of a NULL pointer to a struct does not end with a newline
    have space := null_text type pointer null (deeper m mem) (texts m mem).prints
    obtain ⟨middle, ends, -⟩ := (texts m mem).line
    rw [ends, List.getLast?_concat] at space
    exact absurd space (by decide)

/-- The helper of a struct prints its layout exactly for the values without a NULL pointer
to a struct, as deep as the indentation is an `int`. That `printf` fails for more than
`INT_MAX` bytes is left out. -/
theorem layout_iff (rt : Runtime) {F : Family} {S : StructDecl} {self : CValue} (known : S ∈ F.structs)
    (instance_ : Instance F S self) (b : Nat) : Layout rt F b S self ↔ Whole F b S self :=
  ⟨fun layout => layout_whole layout known, fun whole => whole_layout whole known instance_⟩

end Iff

/-! ### A node and its leaf -/

def nodeWord : Word := ⟨⟨bytesOf "Node", by decide, by decide⟩, by decide +kernel⟩

def leafWord : Word := ⟨⟨bytesOf "Leaf", by decide, by decide⟩, by decide +kernel⟩

def valueMember : Word := ⟨⟨bytesOf "value", by decide, by decide⟩, by decide +kernel⟩

def leafMember : Word := ⟨⟨bytesOf "leaf", by decide, by decide⟩, by decide +kernel⟩

/-- `struct Leaf { int value; }` -/
def leafDecl : StructDecl := ⟨leafWord, [⟨.int, false, valueMember⟩]⟩

/-- `struct Node { struct Leaf *leaf; int value; }` -/
def nodeDecl : StructDecl := ⟨nodeWord, [⟨.struct leafWord, true, leafMember⟩, ⟨.int, false, valueMember⟩]⟩

def nodeFamily : Family where
  structs := [leafDecl, nodeDecl]
  enums := []
  structTags := by decide
  enumTags := by simp
  structsKnown := by simp [leafDecl, nodeDecl]
  enumsKnown := by simp [leafDecl, nodeDecl]

/-- `%p` with `0x` and hexadecimal digits; there is no `%f` and no enum. -/
def nodeRuntime : Runtime where
  float _ := []
  pointer
    | none => bytesOf "(nil)"
    | some a => bytesOf "0x" ++ numeral 16 a
  constant _ := 0
  float_line := by simp
  pointer_line := by
    intro p
    cases p with
    | none => decide
    | some a => exact not_mem_append (by decide) (numeral_line (by decide) (by decide) a)

def leafValue : CValue := .struct (fun _ => 4096) fun _ => .int 7

/-- A node at 8192 with the given pointer to its leaf. -/
def nodeValue (leaf : CValue) : CValue :=
  .pointer 8192 (.struct (fun _ => 8192) fun field => if field = leafMember.text then leaf else .int 3)

theorem nodeValue_instance {leaf : CValue} (typed : Typed nodeFamily (.struct leafWord) true leaf) :
    Instance nodeFamily nodeDecl (nodeValue leaf) := by
  refine ⟨_, _, rfl, .struct (by simp [nodeFamily]) ?_⟩
  simp only [nodeDecl, List.forall_mem_cons]
  exact ⟨typed, .int 3, by simp⟩

theorem leafPointer_typed : Typed nodeFamily (.struct leafWord) true (.pointer 4096 leafValue) := by
  have known : leafDecl ∈ nodeFamily.structs := by simp [nodeFamily]
  refine .pointer 4096 (.struct known ?_)
  simp only [leafDecl, List.forall_mem_cons]
  exact ⟨.int 7, by simp⟩

theorem nodeWhole : Whole nodeFamily 0 nodeDecl (nodeValue (.pointer 4096 leafValue)) := by
  have leaf : Whole nodeFamily 1 leafDecl (.pointer 4096 leafValue) := by
    refine .intro (by decide) (fun _ _ => by decide) ?_ ?_
    · simp [leafDecl]
    · simp [leafDecl, Member.nestedSelf]
  refine .intro (by decide) (fun _ _ => by decide) ?_ ?_
  · simp [nodeDecl, leafValue]
  · simp only [nodeDecl, List.forall_mem_cons]
    refine ⟨fun S' known self same => ?_, by simp [Member.nestedSelf], by simp⟩
    obtain ⟨name, rfl⟩ := Prod.mk.inj (Option.some.inj same)
    obtain rfl := nodeFamily.structTags leafDecl (by simp [nodeFamily]) S' known name
    exact leaf

theorem layout_iff_node : Layout nodeRuntime nodeFamily 0 nodeDecl (nodeValue (.pointer 4096 leafValue)) :=
  (layout_iff nodeRuntime (by simp [nodeFamily]) (nodeValue_instance leafPointer_typed) 0).mpr nodeWhole

/-- Without a leaf the two members share a line. -/
theorem nullLeaf_shares_line : ¬ ∀ (rt : Runtime) (F : Family) (S : StructDecl) (self : CValue) (b : Nat),
    S ∈ F.structs → Instance F S self → Layout rt F b S self := by
  intro claim
  have known : nodeDecl ∈ nodeFamily.structs := by simp [nodeFamily]
  have layout := claim nodeRuntime nodeFamily nodeDecl (nodeValue .null) 0 known (nodeValue_instance (.null _))
  cases layout_whole layout known with
  | intro last deeper pointers inner =>
    exact pointers ⟨.struct leafWord, true, leafMember⟩ (by simp [nodeDecl]) leafWord rfl rfl (by simp)

end MoeToolchain
