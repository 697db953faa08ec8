import MoeToolchain.Scripts.CRun
import MoeToolchain.Scripts.Declarations

/-!
# What the statements for a member print

Typed values of a family, and the text of a member for each of its types, by value and
by pointer: `member_text`. The text of a struct ends as its helper's does, so it is laid
out when the helper was called; the other types print their own newline.
-/

namespace MoeToolchain
set_option autoImplicit false

/-! ## Values of a family -/

/-- The values of a member type; a pointer points to a value of the type or is NULL. -/
inductive Typed (F : Family) : MemberType → Bool → CValue → Prop
  | int (v : Int) : Typed F .int false (.int v)
  | float (v : BitVec 64) : Typed F .float false (.floating v)
  | double (v : BitVec 64) : Typed F .double false (.floating v)
  | enum (tag : Word) (v : Int) : Typed F (.enum tag) false (.enum v)
  | struct {S : StructDecl} {address : Bytes → Nat} {member : Bytes → CValue} (known : S ∈ F.structs)
      (members : ∀ m ∈ S.members, Typed F m.type m.pointer (member m.name.text)) :
      Typed F (.struct S.name) false (.struct address member)
  | null (type : MemberType) : Typed F type true .null
  | pointer {type : MemberType} {target : CValue} (a : Nat) (pointsTo : Typed F type false target) :
      Typed F type true (.pointer a target)

/-- A pointer to an instance of a struct. -/
def Instance (F : Family) (S : StructDecl) (self : CValue) : Prop :=
  ∃ a value, self = .pointer a value ∧ Typed F (.struct S.name) false value

/-- The instance that the helper of a member's struct is called on: the member itself, or
what it points to. -/
def Member.nestedSelf (m : Member) (address : Bytes → Nat) (member : Bytes → CValue) : Option (Word × CValue) :=
  match m.type with
  | .struct tag =>
    if m.pointer then
      match member m.name.text with
      | .pointer a target => some (tag, .pointer a target)
      | _ => none
    else some (tag, .pointer (address m.name.text) (member m.name.text))
  | _ => none

/-- The variables of a helper. -/
def helperEnv (self : CValue) (b : Nat) : CEnv := [(selfWord, self), (bytesOf "base_ident", .int b)]

section Texts

variable (rt : Runtime) (F : Family)

/-- What the helper of `S` prints. -/
def HelperPrints (b : Nat) (S : StructDecl) (self : CValue) (text : Bytes) : Prop :=
  Prints rt F.program (fun callee => callee (helperName S.name.text) [self, .int b]) text

/-- What the statements for a member print. -/
def MemberPrints (b : Nat) (self : CValue) (m : Member) (text : Bytes) : Prop :=
  Prints rt F.program (fun callee => runStmts rt callee (helperEnv self b) (debugField m.field)) text

/-- The text of a member begins with the indentation and the name and ends with a newline.
It is one line, or what the helper of a nested struct prints one level deeper comes after
the beginning. -/
structure MemberText (b a : Nat) (address : Bytes → Nat) (member : Bytes → CValue) (m : Member) (text : Bytes) :
    Prop where
  prints : MemberPrints rt F b (.pointer a (.struct address member)) m text
  line : ∃ middle, text = spaces (4 * (b + 1)) ++ m.name.text ++ middle ++ [10] ∧
    (m.nestedSelf address member = none → 10 ∉ middle)
  nested : ∀ S' ∈ F.structs, ∀ self, m.nestedSelf address member = some (S'.name, self) →
    ∃ middle out, 10 ∉ middle ∧ HelperPrints rt F (b + 1) S' self out ∧
      text = spaces (4 * (b + 1)) ++ m.name.text ++ middle ++ out

end Texts

/-! ## Statements of a helper -/

section Statements

variable {rt : Runtime} {F : Family} {b a : Nat} {address : Bytes → Nat} {member : Bytes → CValue}
  {callee : Callee} {self : CValue}

theorem checkedInt_nat {n : Nat} (range : n < 2 ^ 31) : checkedInt (n : Int) = .ok (.int (n : Int)) :=
  if_pos ⟨by omega, by omega⟩

theorem checkedInt_range {n : Nat} {w : CValue} (ok : checkedInt (n : Int) = .ok w) : n < 2 ^ 31 := by
  unfold checkedInt at ok
  split at ok
  · omega
  · cases ok

theorem apply_add (x y : Nat) : CBinary.apply .add (.int x) (.int y) = checkedInt ((x + y : Nat) : Int) := by
  rw [Int.natCast_add]
  rfl

theorem apply_times (x y : Nat) : CBinary.apply .times (.int x) (.int y) = checkedInt ((x * y : Nat) : Int) := by
  rw [Int.natCast_mul]
  rfl

theorem eval_binary {env : CEnv} {op : CBinary} {e e' : CExpr} {x y : CValue} (left : e.eval env = .ok x)
    (right : e'.eval env = .ok y) : (CExpr.binary op e e').eval env = op.apply x y := by
  rw [CExpr.eval, left, right]
  rfl

theorem eval_baseIdent : baseIdent.eval (helperEnv self b) = .ok (.int (b : Int)) := rfl

theorem eval_digit (env : CEnv) (d : Fin 10) : (CExpr.digit d).eval env = .ok (.int (d.val : Int)) := rfl

theorem eval_baseIndent : baseIndent.eval (helperEnv self b) = checkedInt ((b * 4 : Nat) : Int) := by
  rw [baseIndent, eval_binary eval_baseIdent (eval_digit _ 4), apply_times]
  rfl

theorem eval_nextIdent : nextIdent.eval (helperEnv self b) = checkedInt ((b + 1 : Nat) : Int) := by
  rw [nextIdent, eval_binary eval_baseIdent (eval_digit _ 1), apply_add]
  rfl

theorem eval_fieldIndent (range : 4 * (b + 1) < 2 ^ 31) :
    fieldIndent.eval (helperEnv self b) = .ok (.int ((4 * (b + 1) : Nat) : Int)) := by
  have next : (CExpr.paren nextIdent).eval (helperEnv self b) = .ok (.int ((b + 1 : Nat) : Int)) := by
    rw [CExpr.eval, eval_nextIdent, checkedInt_nat (by omega)]
  have times : fieldIndent.eval (helperEnv self b) = checkedInt (((b + 1) * 4 : Nat) : Int) := by
    rw [← apply_times]
    exact eval_binary next (eval_digit _ 4)
  rw [times, Nat.mul_comm, checkedInt_nat range]

theorem fieldIndent_ok {w : CValue} (ok : fieldIndent.eval (helperEnv self b) = .ok w) : 4 * (b + 1) < 2 ^ 31 := by
  have steps : fieldIndent.eval (helperEnv self b) = (do
      let x ← nextIdent.eval (helperEnv self b)
      CBinary.apply .times x (.int ((4 : Nat) : Int))) := rfl
  rw [steps, bind_ok] at ok
  obtain ⟨x, sum, ok⟩ := ok
  rw [eval_nextIdent] at sum
  rw [checkedInt_nat (checkedInt_range sum)] at sum
  obtain rfl := Except.ok.inj sum
  rw [apply_times] at ok
  have range := checkedInt_range ok
  omega

theorem pad_nat (n : Nat) : pad ((n : Nat) : Int) [] = spaces n := by
  have positive : ¬ ((n : Nat) : Int) < 0 := by omega
  rw [pad, if_neg positive]
  simp

/-- The first statement for a field. -/
theorem printField_run {f : Field} {format : List CFormat} {args : List CExpr} {values : List CValue} {out : Bytes}
    (range : 4 * (b + 1) < 2 ^ 31) (evaluated : args.mapM (CExpr.eval (helperEnv self b)) = .ok values)
    (printed : printf rt format values = .ok out) :
    (printField f format args).run rt callee (helperEnv self b) =
      .ok (spaces (4 * (b + 1)) ++ (f.name ++ bytesOf ": " ++ out)) := by
  have all : (fieldIndent :: .emptyString :: args).mapM (CExpr.eval (helperEnv self b)) =
      .ok (.int ((4 * (b + 1) : Nat) : Int) :: .string [] :: values) := by
    rw [List.mapM_cons, List.mapM_cons, eval_fieldIndent range, evaluated]
    rfl
  have run : (printField f format args).run rt callee (helperEnv self b) =
      (fieldIndent :: .emptyString :: args).mapM (CExpr.eval (helperEnv self b)) >>=
        printf rt (.padded :: .plain (f.name ++ bytesOf ": ") :: format) := rfl
  rw [run, all]
  show printf rt (.padded :: .plain (f.name ++ bytesOf ": ") :: format) _ = _
  rw [printf, printf, printed, pad_nat]
  rfl

/-- It prints only where the indentation is an `int`. -/
theorem printField_ok {f : Field} {format : List CFormat} {args : List CExpr} {out : Bytes}
    (ok : (printField f format args).run rt callee (helperEnv self b) = .ok out) : 4 * (b + 1) < 2 ^ 31 := by
  have run : (printField f format args).run rt callee (helperEnv self b) =
      (fieldIndent :: .emptyString :: args).mapM (CExpr.eval (helperEnv self b)) >>=
        printf rt (.padded :: .plain (f.name ++ bytesOf ": ") :: format) := rfl
  rw [run, bind_ok] at ok
  obtain ⟨values, evaluated, -⟩ := ok
  rw [List.mapM_cons, bind_ok] at evaluated
  obtain ⟨w, indent, -⟩ := evaluated
  exact fieldIndent_ok indent

theorem printNewline_run : printNewline.run rt callee (helperEnv self b) = .ok [10] := rfl

end Statements

/-! ## The statements for a member -/

section Member

variable {rt : Runtime} {F : Family} {b a : Nat} {address : Bytes → Nat} {member : Bytes → CValue} {f : Field}

/-- The variables of the helper of an instance. -/
abbrev instanceEnv (a : Nat) (address : Bytes → Nat) (member : Bytes → CValue) (b : Nat) : CEnv :=
  helperEnv (.pointer a (.struct address member)) b

theorem eval_fieldExpr : (fieldExpr f).eval (instanceEnv a address member b) = .ok (member f.name) := rfl

theorem eval_addressOf : (CExpr.unary .addressOf (fieldExpr f)).eval (instanceEnv a address member b) =
    .ok (.pointer (address f.name) (member f.name)) := rfl

theorem eval_deref : (CExpr.unary .deref (fieldExpr f)).eval (instanceEnv a address member b) =
    (member f.name).deref := rfl

theorem eval_fieldAddress : (fieldAddress f).eval (instanceEnv a address member b) = (member f.name).voidPtr := rfl

theorem mapM_one {env : CEnv} {e : CExpr} {v : CValue} (evaluated : e.eval env = .ok v) :
    [e].mapM (CExpr.eval env) = .ok [v] := by
  rw [List.mapM_cons, evaluated]
  rfl

theorem mapM_two {env : CEnv} {e e' : CExpr} {v v' : CValue} (evaluated : e.eval env = .ok v)
    (evaluated' : e'.eval env = .ok v') : [e, e'].mapM (CExpr.eval env) = .ok [v, v'] := by
  rw [List.mapM_cons, evaluated, mapM_one evaluated']
  rfl

/-- `%p` of a pointer. -/
theorem printf_pointer (rt : Runtime) {type : MemberType} {v : CValue} (typed : Typed F type true v) :
    ∃ w out, v.voidPtr = .ok w ∧ 10 ∉ out ∧ ∀ {before rest : Bytes} {after : List CFormat},
      printf rt after [] = .ok rest →
      printf rt (.plain before :: .pointer :: after) [w] = .ok (before ++ (out ++ rest)) := by
  cases typed with
  | null =>
    refine ⟨.null, _, rfl, rt.pointer_line none, fun ends => ?_⟩
    rw [printf, printf, ends]
    rfl
  | pointer address _ =>
    refine ⟨_, _, rfl, rt.pointer_line (some address), fun ends => ?_⟩
    rw [printf, printf, ends]
    rfl

/-- The first statement of a field and the ones after it. -/
theorem Prints.field {program : List CFunction} {self : CValue} {format : List CFormat} {args : List CExpr}
    {values : List CValue} {more : List CStmt} {out rest : Bytes} (range : 4 * (b + 1) < 2 ^ 31)
    (evaluated : args.mapM (CExpr.eval (helperEnv self b)) = .ok values) (printed : printf rt format values = .ok out)
    (after : Prints rt program (fun callee => runStmts rt callee (helperEnv self b) more) rest) :
    Prints rt program (fun callee => runStmts rt callee (helperEnv self b) (printField f format args :: more))
      (spaces (4 * (b + 1)) ++ f.name ++ (bytesOf ": " ++ out) ++ rest) := by
  have first : Prints rt program (fun callee => (printField f format args).run rt callee (helperEnv self b))
      (spaces (4 * (b + 1)) ++ f.name ++ (bytesOf ": " ++ out)) := by
    refine .of_ok fun callee => ?_
    rw [printField_run range evaluated printed]
    simp
  exact Prints.cons first after

/-- Something, and then the newline. -/
theorem Prints.line {program : List CFunction} {self : CValue} {s : CStmt} {text : Bytes}
    (first : Prints rt program (fun callee => s.run rt callee (helperEnv self b)) text) :
    Prints rt program (fun callee => runStmts rt callee (helperEnv self b) [s, printNewline]) (text ++ [10]) :=
  first.cons (Prints.cons (.of_ok fun _ => printNewline_run) .nil)

/-- Neither a struct nor an enum. -/
def MemberType.Scalar : MemberType → Prop
  | .int => True
  | .float => True
  | .double => True
  | _ => False

theorem printf_scalar (rt : Runtime) {type : MemberType} (scalar : type.Scalar) {v : CValue} (typed : Typed F type false v) :
    ∃ out, 10 ∉ out ∧ ∀ before, printf rt [.plain before, scalarFormat type.fieldType] [v] = .ok (before ++ out) ∧
      printf rt [.plain before, scalarFormat type.fieldType, .newline] [v] = .ok (before ++ (out ++ [10])) := by
  cases typed with
  | int v =>
    exact ⟨decimalInt v, decimalInt_line v, fun before => ⟨by
      simp [scalarFormat, MemberType.fieldType, printf, pure, Except.pure, Bind.bind, Except.bind], by
      simp [scalarFormat, MemberType.fieldType, printf, pure, Except.pure, Bind.bind, Except.bind]⟩⟩
  | float v =>
    exact ⟨rt.float v, rt.float_line v, fun before => ⟨by
      simp [scalarFormat, MemberType.fieldType, printf, pure, Except.pure, Bind.bind, Except.bind], by
      simp [scalarFormat, MemberType.fieldType, printf, pure, Except.pure, Bind.bind, Except.bind]⟩⟩
  | double v =>
    exact ⟨rt.float v, rt.float_line v, fun before => ⟨by
      simp [scalarFormat, MemberType.fieldType, printf, pure, Except.pure, Bind.bind, Except.bind], by
      simp [scalarFormat, MemberType.fieldType, printf, pure, Except.pure, Bind.bind, Except.bind]⟩⟩
  | enum => cases scalar
  | struct => cases scalar

theorem MemberText.flat {m : Member} (middle : Bytes) (noSelf : m.nestedSelf address member = none)
    (prints : MemberPrints rt F b (.pointer a (.struct address member)) m
      (spaces (4 * (b + 1)) ++ m.name.text ++ middle ++ [10])) (line : 10 ∉ middle) :
    ∃ text, MemberText rt F b a address member m text := by
  refine ⟨_, prints, ⟨middle, rfl, fun _ => line⟩, fun S' _ self same => ?_⟩
  rw [noSelf] at same
  cases same

theorem not_mem_append {c : UInt8} {a b : Bytes} (first : c ∉ a) (second : c ∉ b) : c ∉ a ++ b := by
  rw [List.mem_append, not_or]
  exact ⟨first, second⟩

/-- A pointer to a scalar or an enum: the address, the value if there is one, and a newline. -/
theorem pointer_text {m : Member} {before ends : Bytes} {after : List CFormat} {yes : CCall}
    (range : 4 * (b + 1) < 2 ^ 31) (noSelf : m.nestedSelf address member = none)
    (typed : Typed F m.type true (member m.name.text))
    (stmts : debugField m.field =
      [printField m.field (.plain before :: .pointer :: after) [fieldAddress m.field],
        .ifThen (fieldExpr m.field) yes, printNewline])
    (printed : printf rt after [] = .ok ends) (line : 10 ∉ before) (line' : 10 ∉ ends)
    (value : ∀ a' target, member m.name.text = .pointer a' target → ∃ text, 10 ∉ text ∧
      Prints rt F.program (fun callee => yes.run rt callee (instanceEnv a address member b)) text) :
    ∃ text, MemberText rt F b a address member m text := by
  obtain ⟨w, out, cast, pointerLine, pointer⟩ := printf_pointer rt typed
  have second : ∃ text, 10 ∉ text ∧ Prints rt F.program (fun callee =>
      (CStmt.ifThen (fieldExpr m.field) yes).run rt callee (instanceEnv a address member b)) text := by
    generalize m.type = type at typed
    generalize here : member m.name.text = v at typed
    have expr : (fieldExpr m.field).eval (instanceEnv a address member b) = .ok v := here ▸ eval_fieldExpr
    cases typed with
    | null => exact ⟨[], List.not_mem_nil, .of_ok fun callee => run_ifThen_false expr rfl⟩
    | pointer a' _ =>
      obtain ⟨text, textLine, prints⟩ := value _ _ here
      exact ⟨text, textLine, prints.ifThen expr rfl⟩
  obtain ⟨text, textLine, prints⟩ := second
  have address_ : (fieldAddress m.field).eval (instanceEnv a address member b) = .ok w := cast
  have whole : Prints rt F.program
      (fun callee => runStmts rt callee (instanceEnv a address member b) (debugField m.field))
      (spaces (4 * (b + 1)) ++ m.name.text ++ (bytesOf ": " ++ (before ++ (out ++ ends))) ++ (text ++ [10])) := by
    rw [stmts]
    exact Prints.field range (mapM_one address_) (pointer printed) prints.line
  have colon : 10 ∉ bytesOf ": " := by decide
  refine MemberText.flat (bytesOf ": " ++ (before ++ (out ++ ends)) ++ text) noSelf ?_ ?_
  · simpa [MemberPrints] using whole
  · exact not_mem_append (not_mem_append colon (not_mem_append line (not_mem_append pointerLine line'))) textLine

theorem scalar_line {type : MemberType} (scalar : type.Scalar) : 10 ∉ type.fieldType.text := by
  cases type with
  | struct => cases scalar
  | enum => cases scalar
  | _ => decide

theorem scalar_text {m : Member} (range : 4 * (b + 1) < 2 ^ 31) (scalar : m.type.Scalar)
    (typed : Typed F m.type m.pointer (member m.name.text)) :
    ∃ text, MemberText rt F b a address member m text := by
  obtain ⟨type, pointer, name⟩ := m
  have noSelf : Member.nestedSelf ⟨type, pointer, name⟩ address member = none := by
    cases type <;> first | rfl | cases scalar
  have colon : 10 ∉ bytesOf ": " := by decide
  have typeLine : 10 ∉ type.fieldType.text ++ bytesOf " = " := not_mem_append (scalar_line scalar) (by decide)
  cases pointer with
  | false =>
    obtain ⟨out, outLine, printed⟩ := printf_scalar rt scalar typed
    have stmts : debugField (Member.field ⟨type, false, name⟩) =
        [printField (Member.field ⟨type, false, name⟩)
          [.plain (type.fieldType.text ++ bytesOf " = "), scalarFormat type.fieldType, .newline]
          [fieldExpr (Member.field ⟨type, false, name⟩)]] := by
      cases type <;> first | rfl | cases scalar
    have whole : Prints rt F.program
        (fun callee => runStmts rt callee (instanceEnv a address member b) (debugField (Member.field ⟨type, false, name⟩)))
        (spaces (4 * (b + 1)) ++ name.text ++
          (bytesOf ": " ++ (type.fieldType.text ++ bytesOf " = " ++ (out ++ [10]))) ++ []) := by
      rw [stmts]
      exact Prints.field range (mapM_one eval_fieldExpr) (printed _).2 Prints.nil
    refine MemberText.flat (bytesOf ": " ++ (type.fieldType.text ++ bytesOf " = " ++ out)) noSelf ?_ ?_
    · simpa [MemberPrints] using whole
    · exact not_mem_append colon (not_mem_append typeLine outLine)
  | true =>
    have stmts : debugField (Member.field ⟨type, true, name⟩) =
        [printField (Member.field ⟨type, true, name⟩) [.plain (type.fieldType.text ++ bytesOf " = "), .pointer]
            [fieldAddress (Member.field ⟨type, true, name⟩)],
          .ifThen (fieldExpr (Member.field ⟨type, true, name⟩))
            (.printf [.plain (bytesOf " -> "), scalarFormat type.fieldType]
              [.unary .deref (fieldExpr (Member.field ⟨type, true, name⟩))]),
          printNewline] := by
      cases type <;> first | rfl | cases scalar
    refine pointer_text range noSelf typed stmts rfl typeLine List.not_mem_nil fun a' target here => ?_
    simp only at here typed
    rw [here] at typed
    cases typed with
    | pointer _ pointsTo =>
      obtain ⟨out, outLine, printed⟩ := printf_scalar rt scalar pointsTo
      have value : (CExpr.unary .deref (fieldExpr (Member.field ⟨type, true, name⟩))).eval
          (instanceEnv a address member b) = .ok target := by
        rw [eval_deref]
        show (member name.text).deref = _
        rw [here]
        rfl
      have arrow : 10 ∉ bytesOf " -> " := by decide
      exact ⟨_, not_mem_append arrow outLine, .of_ok fun callee => (run_printf (mapM_one value)).trans (printed _).1⟩

/-! ### Enums -/

theorem variants_line (E : EnumDecl) : ∀ v ∈ variants (scriptTokens E.body), 10 ∉ v := by
  intro v mem
  obtain ⟨tok, here, identifier⟩ := List.mem_filterMap.mp mem
  obtain ⟨t, inBody, rfl⟩ := List.mem_map.mp here
  cases t with
  | id i =>
    rw [identifier?_id] at identifier
    rw [← Option.some.inj identifier]
    exact fun newline => absurd (E.words i inBody 10 newline) (by decide)
  | _ => cases identifier

/-- The function of an enum prints the name of the constant, without a newline. -/
theorem enum_prints {E : EnumDecl} (known : E ∈ F.enums) (v : Int) : ∃ text, 10 ∉ text ∧
    Prints rt F.program (fun callee => callee (implName E.name.text debugEnumTrait) [.enum v]) text := by
  let labels := (variants (scriptTokens E.body)).map fun v => (v, v)
  refine ⟨switchText rt labels (bytesOf "<unknown>") v, ?_, ?_⟩
  · unfold switchText
    cases found : labels.find? fun c => rt.constant c.1 = v with
    | none => decide
    | some c =>
      obtain ⟨v, mem, rfl⟩ := List.mem_map.mp (List.mem_of_find?_eq_some found)
      exact variants_line E v mem
  · refine Prints.call (find_enum known (List.mem_singleton.mpr rfl)) (.of_ok fun callee => ?_)
    show runStmts rt callee [(bytesOf "value", .enum v)] _ = _
    simp only [runStmts, CStmt.run]
    exact congrArg Except.ok (List.append_nil _)

theorem enum_text {m : Member} {E : EnumDecl} (known : E ∈ F.enums) (type : m.type = .enum E.name)
    (range : 4 * (b + 1) < 2 ^ 31) (typed : Typed F m.type m.pointer (member m.name.text)) :
    ∃ text, MemberText rt F b a address member m text := by
  obtain ⟨_, pointer, name⟩ := m
  obtain rfl : _ = MemberType.enum E.name := type
  have colon : 10 ∉ bytesOf ": " := by decide
  have enumLine : 10 ∉ bytesOf "enum " ++ E.name.text := not_mem_append (by decide) E.name.line
  cases pointer with
  | false =>
    generalize here : member name.text = value at typed
    cases typed with
    | enum _ v =>
      obtain ⟨out, outLine, call⟩ := @enum_prints rt F E known v
      have prints : Prints rt F.program (fun callee => (CStmt.call (.function (implName E.name.text debugEnumTrait)
          [fieldExpr (Member.field ⟨.enum E.name, false, name⟩)])).run rt callee (instanceEnv a address member b)) out :=
        Prints.function (mapM_one (here ▸ eval_fieldExpr)) call
      have whole : Prints rt F.program
          (fun callee => runStmts rt callee (instanceEnv a address member b)
            (debugField (Member.field ⟨.enum E.name, false, name⟩)))
          (spaces (4 * (b + 1)) ++ name.text ++
            (bytesOf ": " ++ (bytesOf "enum " ++ E.name.text ++ bytesOf " = " ++ [])) ++ (out ++ [10])) :=
        Prints.field range rfl rfl prints.line
      refine MemberText.flat (bytesOf ": " ++ (bytesOf "enum " ++ E.name.text ++ bytesOf " = ") ++ out) rfl ?_ ?_
      · simpa [MemberPrints] using whole
      · exact not_mem_append (not_mem_append colon (not_mem_append enumLine (by decide))) outLine
  | true =>
    refine pointer_text range rfl typed rfl rfl (not_mem_append enumLine (by decide)) (by decide) fun a' target here => ?_
    simp only at here typed
    rw [here] at typed
    cases typed with
    | pointer _ pointsTo =>
      cases pointsTo with
      | enum _ v =>
        obtain ⟨out, outLine, call⟩ := @enum_prints rt F E known v
        have value : (CExpr.unary .deref (fieldExpr (Member.field ⟨.enum E.name, true, name⟩))).eval
            (instanceEnv a address member b) = .ok (.enum v) := by
          rw [eval_deref]
          show (member name.text).deref = _
          rw [here]
          rfl
        exact ⟨out, outLine, Prints.function (mapM_one value) call⟩

/-! ### Structs -/

theorem nextIdent_ok (range : 4 * (b + 1) < 2 ^ 31) {self : CValue} :
    nextIdent.eval (helperEnv self b) = .ok (.int ((b + 1 : Nat) : Int)) := by
  rw [eval_nextIdent, checkedInt_nat (by omega)]

/-- The first statement and a call of the helper of the struct. -/
theorem MemberText.calls {m : Member} {S' : StructDecl} {self' : CValue} {format : List CFormat} {args : List CExpr}
    {values : List CValue} {call : CStmt} {out body : Bytes} (known : S' ∈ F.structs)
    (self_ : m.nestedSelf address member = some (S'.name, self')) (range : 4 * (b + 1) < 2 ^ 31)
    (evaluated : args.mapM (CExpr.eval (instanceEnv a address member b)) = .ok values)
    (printed : printf rt format values = .ok out) (line : 10 ∉ out)
    (stmts : debugField m.field = [printField m.field format args, call])
    (prints : Prints rt F.program (fun callee => call.run rt callee (instanceEnv a address member b)) (body ++ [10]))
    (helper : HelperPrints rt F (b + 1) S' self' (body ++ [10])) :
    ∃ text, MemberText rt F b a address member m text := by
  have whole : Prints rt F.program
      (fun callee => runStmts rt callee (instanceEnv a address member b) (debugField m.field))
      (spaces (4 * (b + 1)) ++ m.name.text ++ (bytesOf ": " ++ out) ++ (body ++ [10] ++ [])) := by
    rw [stmts]
    exact Prints.field range evaluated printed (prints.cons Prints.nil)
  rw [List.append_nil] at whole
  refine ⟨_, whole, ⟨bytesOf ": " ++ out ++ body, by simp, fun flat => ?_⟩, fun S'' known' self'' same => ?_⟩
  · rw [flat] at self_
    cases self_
  · rw [self_, Option.some.injEq, Prod.mk.injEq] at same
    obtain ⟨name, rfl⟩ := same
    obtain rfl := F.structTags S' known S'' known' name
    exact ⟨bytesOf ": " ++ out, body ++ [10], not_mem_append (by decide) line, helper, rfl⟩

/-- The struct that is nested, or that a pointer points to. -/
theorem struct_text {m : Member} {S' : StructDecl} {self' : CValue} {body : Bytes} (known : S' ∈ F.structs)
    (self_ : m.nestedSelf address member = some (S'.name, self')) (range : 4 * (b + 1) < 2 ^ 31)
    (helper : HelperPrints rt F (b + 1) S' self' (body ++ [10])) :
    ∃ text, MemberText rt F b a address member m text := by
  obtain ⟨type, pointer, name⟩ := m
  cases type with
  | struct tag =>
    cases pointer with
    | false =>
      obtain ⟨rfl, rfl⟩ := Prod.mk.inj (Option.some.inj self_)
      refine MemberText.calls known self_ range rfl rfl (by decide) rfl ?_ helper
      exact Prints.function (mapM_two eval_addressOf (nextIdent_ok range)) helper
    | true =>
      simp only [Member.nestedSelf, if_true] at self_
      cases here : member name.text with
      | pointer a' target =>
        rw [here] at self_
        obtain ⟨rfl, rfl⟩ := Prod.mk.inj (Option.some.inj self_)
        have nested : Member.nestedSelf ⟨.struct S'.name, true, name⟩ address member =
            some (S'.name, .pointer a' target) := by
          simp [Member.nestedSelf, here]
        have expr : (fieldExpr (Member.field ⟨.struct S'.name, true, name⟩)).eval (instanceEnv a address member b) =
            .ok (.pointer a' target) := here ▸ eval_fieldExpr
        have cast : (fieldAddress (Member.field ⟨.struct S'.name, true, name⟩)).eval (instanceEnv a address member b) =
            .ok (.pointer a' target) := by
          rw [eval_fieldAddress]
          show (member name.text).voidPtr = _
          rw [here]
          rfl
        have line : 10 ∉ bytesOf "struct _* (" ++ (rt.pointer (some a') ++ bytesOf ") = ") :=
          not_mem_append (by decide) (not_mem_append (rt.pointer_line _) (by decide))
        refine MemberText.calls known nested range (mapM_one cast) rfl line rfl ?_ helper
        exact (Prints.function (mapM_two expr (nextIdent_ok range)) helper).ifThen expr rfl
      | _ =>
        rw [here] at self_
        cases self_
  | _ => cases self_

/-- The text of a NULL pointer to a struct ends with the equals sign. -/
theorem null_text {m : Member} {tag : Word} {text : Bytes} (type : m.type = .struct tag) (pointer : m.pointer = true)
    (null : member m.name.text = .null) (range : 4 * (b + 1) < 2 ^ 31)
    (prints : MemberPrints rt F b (.pointer a (.struct address member)) m text) : text.getLast? = some 32 := by
  obtain ⟨_, _, name⟩ := m
  obtain rfl : _ = MemberType.struct tag := type
  obtain rfl : _ = true := pointer
  have expr : (fieldExpr (Member.field ⟨.struct tag, true, name⟩)).eval (instanceEnv a address member b) = .ok .null :=
    null ▸ eval_fieldExpr
  have cast : (fieldAddress (Member.field ⟨.struct tag, true, name⟩)).eval (instanceEnv a address member b) =
      .ok .null := by
    rw [eval_fieldAddress]
    show (member name.text).voidPtr = _
    rw [null]
    rfl
  have whole : MemberPrints rt F b (.pointer a (.struct address member)) ⟨.struct tag, true, name⟩ (spaces (4 * (b + 1)) ++
      name.text ++ (bytesOf ": " ++ (bytesOf "struct _* (" ++ (rt.pointer none ++ bytesOf ") = "))) ++ ([] ++ [])) :=
    Prints.field range (mapM_one cast) rfl (Prints.cons (.of_ok fun _ => run_ifThen_false expr rfl) Prints.nil)
  have last : (bytesOf ") = ").getLast? = some 32 := by decide
  rw [prints.unique whole]
  simp [List.getLast?_append, last]

end Member

end MoeToolchain
