import MoeToolchain.Scripts.FieldScan
import MoeToolchain.Scripts.Layout

/-!
# The generated printers and NULL

`callGuarded` runs a program as `callFunction` does, and every call whose first argument is
NULL is a fault. `debug_null_safe`: on an instance that is not NULL, the code for structs
with any bodies whose fields have a star at most meets no NULL where it needs an object.
-/

namespace MoeToolchain
set_option autoImplicit false

/-! ## Guarded calls -/

/-- `callFunction` with a check of the first argument of every call. -/
def callGuarded (rt : Runtime) (program : List CFunction) : Nat → Callee
  | 0, _, _ => .error .outOfFuel
  | _ + 1, _, .null :: _ => .error .nullPointer
  | fuel + 1, name, args =>
    match program.find? fun f => f.name = name with
    | some f => f.run rt (callGuarded rt program fuel) args
    | none => .error .unknownFunction

section Guarded

variable {rt : Runtime} {program : List CFunction} {callee callee' : Callee} {env : CEnv}

/-- The same result, but where the guarded run stops at NULL. -/
def GuardedEq {α : Type} (guarded r : Except CFault α) : Prop := guarded = .error .nullPointer ∨ guarded = r

theorem GuardedEq.bind {α β : Type} {x x' : Except CFault α} {f f' : α → Except CFault β} (first : GuardedEq x x')
    (next : ∀ a, GuardedEq (f a) (f' a)) : GuardedEq (x >>= f) (x' >>= f') := by
  obtain rfl | rfl := first
  · exact .inl rfl
  · cases x with
    | error e => exact .inr rfl
    | ok a => exact next a

theorem GuardedEq.rfl {α : Type} {r : Except CFault α} : GuardedEq r r := .inr (Eq.refl r)

variable (agree : ∀ name args, GuardedEq (callee name args) (callee' name args))
include agree

theorem CCall.run_guardedEq (c : CCall) : GuardedEq (c.run rt callee env) (c.run rt callee' env) := by
  cases c with
  | printf format args => exact .rfl
  | function name args => exact GuardedEq.rfl.bind fun values => agree name values

theorem CStmt.run_guardedEq (s : CStmt) : GuardedEq (s.run rt callee env) (s.run rt callee' env) := by
  have choose : ∀ {b : Bool} {yes yes' no no' : Except CFault Bytes}, GuardedEq yes yes' → GuardedEq no no' →
      GuardedEq (if b then yes else no) (if b then yes' else no') := by
    intro b yes yes' no no' first second
    cases b with
    | false => exact second
    | true => exact first
  cases s with
  | call c => exact c.run_guardedEq agree
  | ifThen cond yes =>
    exact GuardedEq.rfl.bind fun v => GuardedEq.rfl.bind fun b => choose (yes.run_guardedEq agree) .rfl
  | ifElse cond yes no =>
    exact GuardedEq.rfl.bind fun v => GuardedEq.rfl.bind fun b => choose (yes.run_guardedEq agree) (no.run_guardedEq agree)
  | «switch» on labels default => exact .rfl

theorem runStmts_guardedEq (ss : List CStmt) : GuardedEq (runStmts rt callee env ss) (runStmts rt callee' env ss) := by
  induction ss with
  | nil => exact .rfl
  | cons s ss ih => exact (s.run_guardedEq agree).bind fun first => ih.bind fun rest => .rfl

end Guarded

/-- A guarded run that does not stop at NULL is the run. -/
theorem callGuarded_eq (rt : Runtime) (program : List CFunction) (fuel : Nat) :
    ∀ name args, GuardedEq (callGuarded rt program fuel name args) (callFunction rt program fuel name args) := by
  induction fuel with
  | zero => exact fun name args => .rfl
  | succ fuel ih =>
    intro name args
    have body : GuardedEq
        (match program.find? fun f => f.name = name with
          | some f => f.run rt (callGuarded rt program fuel) args
          | none => .error .unknownFunction)
        (callFunction rt program (fuel + 1) name args) := by
      rw [callFunction]
      cases program.find? fun f => f.name = name with
      | none => exact .rfl
      | some f =>
        unfold CFunction.run
        simp only
        split
        · exact runStmts_guardedEq ih f.body
        · exact .rfl
    cases args with
    | nil => exact body
    | cons v vs =>
      cases v with
      | null => exact .inl rfl
      | _ => exact body

/-! ## Derived types and their values -/

/-- The name of a type and the tokens of its body, whatever they are. -/
structure Derived where
  name : Bytes
  tokens : List JsToken

structure DerivedTypes where
  structs : List Derived
  enums : List Derived

/-- What `debug.js` generates for the types. -/
def DerivedTypes.program (D : DerivedTypes) : List CFunction :=
  D.structs.flatMap (fun S => debug S.name S.tokens) ++ D.enums.flatMap fun E => debugEnum E.name E.tokens

/-- The values of a field's type under so many stars: each pointer is NULL or points to a value. -/
inductive Valid (D : DerivedTypes) : FieldType → Nat → CValue → Prop
  | int (v : Int) : Valid D .int 0 (.int v)
  | float (v : BitVec 64) : Valid D .float 0 (.floating v)
  | double (v : BitVec 64) : Valid D .double 0 (.floating v)
  | enum (tag : Bytes) (v : Int) : Valid D (.enum tag) 0 (.enum v)
  | struct {tag : Bytes} {address : Bytes → Nat} {member : Bytes → CValue}
      (fields : ∀ S ∈ D.structs, S.name = tag → ∀ f ∈ scanFields S.tokens, Valid D f.type f.ptr (member f.name)) :
      Valid D (.struct tag) 0 (.struct address member)
  | bareStruct (v : CValue) : Valid D .bareStruct 0 v
  | bareEnum (v : CValue) : Valid D .bareEnum 0 v
  | null (type : FieldType) (k : Nat) : Valid D type (k + 1) .null
  | pointer {type : FieldType} {k : Nat} {target : CValue} (a : Nat) (pointsTo : Valid D type k target) :
      Valid D type (k + 1) (.pointer a target)

section Functions

variable {D : DerivedTypes} {f : CFunction}

theorem DerivedTypes.mem_program : f ∈ D.program ↔
    (∃ S ∈ D.structs, f = debugHelper S.name (scanFields S.tokens) ∨ f = debugImpl S.name) ∨
      ∃ E ∈ D.enums, f ∈ debugEnum E.name E.tokens := by
  rw [DerivedTypes.program, List.mem_append, List.mem_flatMap, List.mem_flatMap]
  simp only [debug, List.mem_cons, List.not_mem_nil, or_false]

theorem DerivedTypes.helper_of_name {tag : Bytes} (mem : f ∈ D.program) (named : f.name = helperName tag) :
    ∃ S ∈ D.structs, S.name = tag ∧ f = debugHelper tag (scanFields S.tokens) := by
  obtain ⟨S, known, rfl | rfl⟩ | ⟨E, -, enum⟩ := DerivedTypes.mem_program.mp mem
  · obtain rfl := helperName_inj named
    exact ⟨S, known, rfl, rfl⟩
  · exact absurd named.symm (helperName_ne_implName _ _ _)
  · rw [List.mem_singleton.mp enum] at named
    exact absurd named.symm (helperName_ne_implName _ _ _)

theorem DerivedTypes.impl_of_name {tag : Bytes} (mem : f ∈ D.program) (named : f.name = implName tag debugTrait) :
    f = debugImpl tag := by
  obtain ⟨S, -, rfl | rfl⟩ | ⟨E, -, enum⟩ := DerivedTypes.mem_program.mp mem
  · exact absurd named (helperName_ne_implName _ _ _)
  · rw [implName_inj named]
  · rw [List.mem_singleton.mp enum] at named
    exact absurd named.symm (implName_ne _ _)

theorem DerivedTypes.enum_of_name {tag : Bytes} (mem : f ∈ D.program) (named : f.name = implName tag debugEnumTrait) :
    ∃ E ∈ D.enums, f ∈ debugEnum tag E.tokens := by
  obtain ⟨S, -, rfl | rfl⟩ | ⟨E, known, enum⟩ := DerivedTypes.mem_program.mp mem
  · exact absurd named (helperName_ne_implName _ _ _)
  · exact absurd named (implName_ne _ _)
  · have isEnum : f.name = implName E.name debugEnumTrait := by rw [List.mem_singleton.mp enum]
    obtain rfl := implName_inj (named.symm.trans isEnum)
    exact ⟨E, known, enum⟩

end Functions

/-! ## Safe runs -/

/-- A result as it should be, or a fault that has nothing to do with pointers. -/
def Safe {α : Type} (post : α → Prop) : Except CFault α → Prop
  | .ok a => post a
  | .error fault => fault ≠ .nullPointer ∧ fault ≠ .badOperand

/-- Any text. -/
abbrev SafeText : Except CFault Bytes → Prop := Safe fun _ => True

section Safe

theorem Safe.bind {α β : Type} {post : α → Prop} {post' : β → Prop} {x : Except CFault α} {f : α → Except CFault β}
    (first : Safe post x) (next : ∀ a, post a → Safe post' (f a)) : Safe post' (x >>= f) := by
  cases x with
  | error e => exact first
  | ok a => exact next a first

def IsInt (v : CValue) : Prop := ∃ n, v = .int n

theorem safe_checkedInt (v : Int) : Safe IsInt (checkedInt v) := by
  unfold checkedInt
  split
  · exact ⟨v, rfl⟩
  · exact ⟨by decide, by decide⟩

theorem safe_binary {env : CEnv} {op : CBinary} {e e' : CExpr} (left : Safe IsInt (e.eval env))
    (right : Safe IsInt (e'.eval env)) : Safe IsInt ((CExpr.binary op e e').eval env) := by
  refine left.bind fun v isInt => right.bind fun w isInt' => ?_
  obtain ⟨m, rfl⟩ := isInt
  obtain ⟨n, rfl⟩ := isInt'
  cases op with
  | add => exact safe_checkedInt _
  | times => exact safe_checkedInt _
  | equal => exact ⟨_, rfl⟩

theorem safe_runStmts {rt : Runtime} {callee : Callee} {env : CEnv} {ss : List CStmt}
    (each : ∀ s ∈ ss, SafeText (s.run rt callee env)) : SafeText (runStmts rt callee env ss) := by
  induction ss with
  | nil => exact trivial
  | cons s ss ih =>
    obtain ⟨first, rest⟩ := List.forall_mem_cons.mp each
    exact first.bind fun _ _ => (ih rest).bind fun _ _ => trivial

end Safe

/-! ## The statements of a helper -/

section Helper

variable {rt : Runtime} {callee : Callee} {a : Nat} {address : Bytes → Nat} {member : Bytes → CValue} {b : Int} {f : Field}

/-- The variables of the helper of an instance that is not NULL. -/
def helperVars (a : Nat) (address : Bytes → Nat) (member : Bytes → CValue) (b : Int) : CEnv :=
  [(selfWord, .pointer a (.struct address member)), (bytesOf "base_ident", .int b)]

theorem safe_baseIdent : Safe IsInt (baseIdent.eval (helperVars a address member b)) := ⟨b, rfl⟩

theorem safe_digit (env : CEnv) (d : Fin 10) : Safe IsInt ((CExpr.digit d).eval env) := ⟨_, rfl⟩

theorem safe_nextIdent : Safe IsInt (nextIdent.eval (helperVars a address member b)) :=
  safe_binary safe_baseIdent (safe_digit _ 1)

theorem safe_fieldIndent : Safe IsInt (fieldIndent.eval (helperVars a address member b)) :=
  safe_binary safe_nextIdent (safe_digit _ 4)

theorem safe_baseIndent : Safe IsInt (baseIndent.eval (helperVars a address member b)) :=
  safe_binary safe_baseIdent (safe_digit _ 4)

/-- A `printf` that begins with an indentation. -/
theorem safe_padded {env : CEnv} {indent : CExpr} {format : List CFormat} {args : List CExpr} {values : List CValue}
    {out : Bytes} (isInt : Safe IsInt (indent.eval env)) (evaluated : args.mapM (CExpr.eval env) = .ok values)
    (printed : printf rt format values = .ok out) :
    SafeText ((CCall.printf (.padded :: format) (indent :: .emptyString :: args)).run rt callee env) := by
  have steps : (CCall.printf (.padded :: format) (indent :: .emptyString :: args)).run rt callee env =
      indent.eval env >>= fun v => printf rt (.padded :: format) (v :: .string [] :: values) := by
    rw [CCall.run, List.mapM_cons, List.mapM_cons, evaluated]
    cases indent.eval env <;> rfl
  rw [steps]
  refine isInt.bind fun v isInt => ?_
  obtain ⟨n, rfl⟩ := isInt
  rw [printf, printed]
  exact trivial

theorem safe_printField {format : List CFormat} {args : List CExpr} {values : List CValue} {out : Bytes}
    (evaluated : args.mapM (CExpr.eval (helperVars a address member b)) = .ok values)
    (printed : printf rt format values = .ok out) :
    SafeText ((printField f format args).run rt callee (helperVars a address member b)) := by
  have whole : printf rt (.plain (f.name ++ bytesOf ": ") :: format) values = .ok (f.name ++ bytesOf ": " ++ out) := by
    rw [printf, printed]
    rfl
  show SafeText ((CCall.printf (.padded :: .plain (f.name ++ bytesOf ": ") :: format)
    (fieldIndent :: .emptyString :: args)).run rt callee _)
  exact safe_padded safe_fieldIndent evaluated whole

theorem safe_printNewline {env : CEnv} : SafeText (printNewline.run rt callee env) := trivial

theorem safe_call {env : CEnv} {c : CCall} (safe : SafeText (c.run rt callee env)) :
    SafeText ((CStmt.call c).run rt callee env) := safe

theorem safe_function {env : CEnv} {name : Bytes} {args : List CExpr} {values : List CValue}
    (evaluated : args.mapM (CExpr.eval env) = .ok values) (safe : SafeText (callee name values)) :
    SafeText ((CCall.function name args).run rt callee env) := by
  rw [CCall.run, evaluated]
  exact safe

/-- A guarded statement; what it guards has to be safe for an object. -/
theorem safe_guarded {env : CEnv} {cond : CExpr} {yes : CCall} {v : CValue} (evaluated : cond.eval env = .ok v)
    (isPointer : v = .null ∨ ∃ a target, v = .pointer a target ∧ SafeText (yes.run rt callee env)) :
    SafeText ((CStmt.ifThen cond yes).run rt callee env) := by
  rw [CStmt.run, evaluated]
  obtain rfl | ⟨a, target, rfl, safe⟩ := isPointer
  · exact trivial
  · exact safe

/-! ## The statements for a field -/

/-- What the helpers of the program rely on. -/
structure SafeCalls (D : DerivedTypes) (callee : Callee) : Prop where
  helper : ∀ (tag : Bytes) (a : Nat) (v : CValue) (b : Int), Valid D (.struct tag) 0 v →
    SafeText (callee (helperName tag) [.pointer a v, .int b])
  enum : ∀ (tag : Bytes) (v : Int), SafeText (callee (implName tag debugEnumTrait) [.enum v])

variable {D : DerivedTypes}

theorem safe_call_helper (calls : SafeCalls D callee) {tag : Bytes} {e : CExpr} {a' : Nat} {v : CValue}
    (evaluated : e.eval (helperVars a address member b) = .ok (.pointer a' v)) (valid : Valid D (.struct tag) 0 v) :
    SafeText ((CCall.function (helperName tag) [e, nextIdent]).run rt callee (helperVars a address member b)) := by
  have steps : (CCall.function (helperName tag) [e, nextIdent]).run rt callee (helperVars a address member b) =
      nextIdent.eval (helperVars a address member b) >>= fun w => callee (helperName tag) [.pointer a' v, w] := by
    rw [CCall.run, List.mapM_cons, evaluated, List.mapM_cons, List.mapM_nil]
    cases nextIdent.eval (helperVars a address member b) <;> rfl
  rw [steps]
  refine safe_nextIdent.bind fun w isInt => ?_
  obtain ⟨n, rfl⟩ := isInt
  exact calls.helper tag a' v n valid

theorem printf_scalarFormat {type : FieldType} {v : CValue} (valid : Valid D type 0 v)
    (scalar : type = .int ∨ type = .float ∨ type = .double) (before : Bytes) (after : List CFormat) (ends : Bytes)
    (printed : printf rt after [] = .ok ends) :
    ∃ out, printf rt (.plain before :: scalarFormat type :: after) [v] = .ok out := by
  obtain rfl | rfl | rfl := scalar
  · cases valid with
    | int n =>
      refine ⟨before ++ (decimalInt n ++ ends), ?_⟩
      simp [scalarFormat, printf, printed, Bind.bind, Except.bind, pure, Except.pure]
  · cases valid with
    | float x =>
      refine ⟨before ++ (rt.float x ++ ends), ?_⟩
      simp [scalarFormat, printf, printed, Bind.bind, Except.bind, pure, Except.pure]
  · cases valid with
    | double x =>
      refine ⟨before ++ (rt.float x ++ ends), ?_⟩
      simp [scalarFormat, printf, printed, Bind.bind, Except.bind, pure, Except.pure]

theorem safe_debugValueField (calls : SafeCalls D callee) (valid : Valid D f.type 0 (member f.name)) :
    ∀ s ∈ debugValueField f, SafeText (s.run rt callee (helperVars a address member b)) := by
  have expr : (fieldExpr f).eval (helperVars a address member b) = .ok (member f.name) := rfl
  have title : ∀ text, SafeText ((printField f [.plain text] []).run rt callee (helperVars a address member b)) :=
    fun text => safe_printField rfl rfl
  have unknown : ∀ text, SafeText ((printField f [.plain text, .newline] []).run rt callee
      (helperVars a address member b)) := fun text => safe_printField rfl rfl
  have scalar : (f.type = .int ∨ f.type = .float ∨ f.type = .double) → SafeText ((printField f
      [.plain (f.type.text ++ bytesOf " = "), scalarFormat f.type, .newline] [fieldExpr f]).run rt callee
        (helperVars a address member b)) := by
    intro isScalar
    obtain ⟨out, printed⟩ := printf_scalarFormat valid isScalar _ [.newline] [10] rfl
    exact safe_printField (mapM_one expr) printed
  unfold debugValueField
  split
  · rename_i tag type
    rw [type] at valid
    refine List.forall_mem_cons.mpr ⟨title _, List.forall_mem_singleton.mpr ?_⟩
    have address' : (CExpr.unary .addressOf (fieldExpr f)).eval (helperVars a address member b) =
        .ok (.pointer (address f.name) (member f.name)) := rfl
    exact safe_call (safe_call_helper calls address' valid)
  · rename_i tag type
    rw [type] at valid
    refine List.forall_mem_cons.mpr ⟨title _, List.forall_mem_cons.mpr
      ⟨?_, List.forall_mem_singleton.mpr safe_printNewline⟩⟩
    generalize member f.name = v at valid expr
    cases valid with
    | enum _ v => exact safe_call (safe_function (mapM_one expr) (calls.enum tag v))
  · exact List.forall_mem_singleton.mpr (unknown _)
  · exact List.forall_mem_singleton.mpr (unknown _)
  · rename_i type notStruct notEnum notBareStruct notBareEnum
    refine List.forall_mem_singleton.mpr (scalar ?_)
    cases type : f.type <;> simp_all

theorem safe_debugPointerField (calls : SafeCalls D callee) (valid : Valid D f.type 1 (member f.name)) :
    ∀ s ∈ debugPointerField f, SafeText (s.run rt callee (helperVars a address member b)) := by
  have expr : (fieldExpr f).eval (helperVars a address member b) = .ok (member f.name) := rfl
  have cases_ : member f.name = .null ∨ ∃ a' target, member f.name = .pointer a' target ∧ Valid D f.type 0 target := by
    generalize member f.name = v at valid
    generalize f.type = type at valid
    cases valid with
    | null => exact .inl rfl
    | pointer a' pointsTo => exact .inr ⟨a', _, rfl, pointsTo⟩
  -- the address is printed, NULL or not
  have title : ∀ (text : Bytes) (after : List CFormat) (ends : Bytes), printf rt after [] = .ok ends →
      SafeText ((printField f (.plain text :: .pointer :: after) [fieldAddress f]).run rt callee
        (helperVars a address member b)) := by
    intro text after ends printed
    have cast : (fieldAddress f).eval (helperVars a address member b) = (member f.name).voidPtr := rfl
    obtain null | ⟨a', target, object, -⟩ := cases_
    · rw [null] at cast
      exact safe_printField (mapM_one cast)
        (show printf rt (.plain text :: .pointer :: after) [.null] = .ok (text ++ (rt.pointer none ++ ends)) by
          rw [printf, printf, printed]; rfl)
    · rw [object] at cast
      exact safe_printField (mapM_one cast)
        (show printf rt (.plain text :: .pointer :: after) [.pointer a' target] =
          .ok (text ++ (rt.pointer (some a') ++ ends)) by rw [printf, printf, printed]; rfl)
  -- the rest is done for an object only
  have guarded : ∀ {yes : CCall}, (∀ a' target, member f.name = .pointer a' target → Valid D f.type 0 target →
      SafeText (yes.run rt callee (helperVars a address member b))) →
      SafeText ((CStmt.ifThen (fieldExpr f) yes).run rt callee (helperVars a address member b)) := by
    intro yes safe
    refine safe_guarded expr ?_
    obtain null | ⟨a', target, object, pointsTo⟩ := cases_
    · exact .inl null
    · exact .inr ⟨a', target, object, safe a' target object pointsTo⟩
  have deref : ∀ {a' : Nat} {target : CValue}, member f.name = .pointer a' target →
      (CExpr.unary .deref (fieldExpr f)).eval (helperVars a address member b) = .ok target := by
    intro a' target object
    show (member f.name).deref = _
    rw [object]
    rfl
  unfold debugPointerField
  split
  · rename_i tag type
    refine List.forall_mem_cons.mpr ⟨title _ _ _ rfl, List.forall_mem_singleton.mpr (guarded ?_)⟩
    intro a' target object pointsTo
    rw [type] at pointsTo
    exact safe_call_helper calls (expr.trans (congrArg _ object)) pointsTo
  · rename_i tag type
    refine List.forall_mem_cons.mpr ⟨title _ _ _ rfl, List.forall_mem_cons.mpr
      ⟨guarded ?_, List.forall_mem_singleton.mpr safe_printNewline⟩⟩
    intro a' target object pointsTo
    rw [type] at pointsTo
    have value := deref object
    cases pointsTo with
    | enum _ v => exact safe_function (mapM_one value) (calls.enum tag v)
  · exact List.forall_mem_singleton.mpr (title _ _ _ rfl)
  · exact List.forall_mem_singleton.mpr (title _ _ _ rfl)
  · rename_i type notStruct notEnum notBareStruct notBareEnum
    refine List.forall_mem_cons.mpr ⟨title _ _ _ rfl, List.forall_mem_cons.mpr
      ⟨guarded ?_, List.forall_mem_singleton.mpr safe_printNewline⟩⟩
    intro a' target object pointsTo
    have isScalar : f.type = .int ∨ f.type = .float ∨ f.type = .double := by
      cases type : f.type <;> simp_all
    obtain ⟨out, printed⟩ := printf_scalarFormat pointsTo isScalar (bytesOf " -> ") [] [] rfl
    rw [run_printf (mapM_one (deref object)), printed]
    exact trivial

end Helper

/-! ## The calls -/

section Calls

variable {rt : Runtime} {D : DerivedTypes}

theorem safe_debugField {callee : Callee} {a : Nat} {address : Bytes → Nat} {member : Bytes → CValue} {b : Int} {f : Field}
    (calls : SafeCalls D callee) (shallow : f.ptr ≤ 1) (valid : Valid D f.type f.ptr (member f.name)) :
    ∀ s ∈ debugField f, SafeText (s.run rt callee (helperVars a address member b)) := by
  unfold debugField
  split
  · have one : f.ptr = 1 := by omega
    rw [one] at valid
    exact safe_debugPointerField calls valid
  · have zero : f.ptr = 0 := by omega
    rw [zero] at valid
    exact safe_debugValueField calls valid

theorem safe_debugHelper {callee : Callee} {a : Nat} {address : Bytes → Nat} {member : Bytes → CValue} {b : Int}
    (calls : SafeCalls D callee) (name : Bytes) {fields : List Field} (shallow : ∀ f ∈ fields, f.ptr ≤ 1)
    (valid : ∀ f ∈ fields, Valid D f.type f.ptr (member f.name)) :
    SafeText ((debugHelper name fields).run rt callee [.pointer a (.struct address member), .int b]) := by
  have body : SafeText (runStmts rt callee (helperVars a address member b) (debugHelper name fields).body) := by
    have title : printf rt [.plain (name ++ bytesOf " \x7b"), .newline] [] = .ok (name ++ bytesOf " \x7b" ++ [10]) := rfl
    have closing : printf rt [.plain (bytesOf "\x7d"), .newline] [] = .ok (bytesOf "\x7d" ++ [10]) := rfl
    refine safe_runStmts fun s mem => ?_
    obtain rfl | mem := List.mem_cons.mp mem
    · have cond : Safe IsInt ((CExpr.binary .equal baseIdent (.digit 0)).eval (helperVars a address member b)) :=
        safe_binary safe_baseIdent (safe_digit _ 0)
      refine cond.bind fun v isInt => ?_
      obtain ⟨n, rfl⟩ := isInt
      show SafeText (if decide (n ≠ 0) then _ else _)
      split
      · exact safe_padded safe_baseIndent rfl title
      · have plain : (CCall.printf [.plain (name ++ bytesOf " \x7b"), .newline] []).run rt callee
            (helperVars a address member b) = .ok (name ++ bytesOf " \x7b" ++ [10]) := (run_printf rfl).trans title
        rw [plain]
        exact trivial
    · obtain fields' | last := List.mem_append.mp mem
      · obtain ⟨f, here, mem⟩ := List.mem_flatMap.mp fields'
        exact safe_debugField calls (shallow f here) (valid f here) s mem
      · obtain rfl := List.mem_singleton.mp last
        exact safe_call (safe_padded safe_baseIndent rfl closing)
  exact body

/-- A call of a function of the program. -/
theorem safe_callGuarded {program : List CFunction} {fuel : Nat} {name : Bytes} {args : List CValue}
    (object : args.head? ≠ some .null)
    (body : ∀ f ∈ program, f.name = name → SafeText (f.run rt (callGuarded rt program fuel) args)) :
    SafeText (callGuarded rt program (fuel + 1) name args) := by
  have call : SafeText (match program.find? fun f => f.name = name with
      | some f => f.run rt (callGuarded rt program fuel) args
      | none => .error .unknownFunction) := by
    cases found : program.find? fun f => f.name = name with
    | none => exact ⟨by decide, by decide⟩
    | some f => exact body f (List.mem_of_find?_eq_some found) (by simpa using List.find?_some found)
  cases args with
  | nil => exact call
  | cons v vs =>
    cases v with
    | null => exact absurd rfl object
    | _ => exact call

/-- By induction on the depth of calls: every call of a helper is made on an instance. -/
theorem safeCalls (rt : Runtime) (shallow : ∀ S ∈ D.structs, ∀ f ∈ scanFields S.tokens, f.ptr ≤ 1) (fuel : Nat) :
    SafeCalls D (callGuarded rt D.program fuel) := by
  induction fuel with
  | zero => exact ⟨fun _ _ _ _ _ => ⟨by decide, by decide⟩, fun _ _ => ⟨by decide, by decide⟩⟩
  | succ fuel ih =>
    refine ⟨fun tag a v b valid => ?_, fun tag v => ?_⟩
    · refine safe_callGuarded (by simp) fun f mem named => ?_
      obtain ⟨S, known, same, rfl⟩ := DerivedTypes.helper_of_name mem named
      cases valid with
      | struct fields => exact safe_debugHelper ih tag (shallow S known) (fields S known same)
    · refine safe_callGuarded (by simp) fun f mem named => ?_
      obtain ⟨E, -, enum⟩ := DerivedTypes.enum_of_name mem named
      obtain rfl := List.mem_singleton.mp enum
      exact trivial

end Calls

/-- The call ends as it does with the guard, and neither at NULL nor at a value of another type. -/
def NullSafe (rt : Runtime) (D : DerivedTypes) (name : Bytes) (args : List CValue) : Prop :=
  ∀ fuel, SafeText (callGuarded rt D.program fuel name args) ∧
    callFunction rt D.program fuel name args = callGuarded rt D.program fuel name args

theorem nullSafe_of_safe {rt : Runtime} {D : DerivedTypes} {name : Bytes} {args : List CValue}
    (safe : ∀ fuel, SafeText (callGuarded rt D.program fuel name args)) : NullSafe rt D name args := by
  intro fuel
  refine ⟨safe fuel, ?_⟩
  obtain null | same := callGuarded_eq rt D.program fuel name args
  · have := safe fuel
    rw [null] at this
    exact absurd rfl this.1
  · exact same.symm

/-- The code for a struct is safe on every instance. -/
theorem debug_null_safe (rt : Runtime) (D : DerivedTypes)
    (shallow : ∀ S ∈ D.structs, ∀ f ∈ scanFields S.tokens, f.ptr ≤ 1) (S : Derived) (a : Nat) (v : CValue)
    (valid : Valid D (.struct S.name) 0 v) :
    NullSafe rt D (implName S.name debugTrait) [.pointer a v] ∧
      ∀ b : Int, NullSafe rt D (helperName S.name) [.pointer a v, .int b] := by
  refine ⟨nullSafe_of_safe fun fuel => ?_, fun b => nullSafe_of_safe fun fuel =>
    (safeCalls rt shallow fuel).helper S.name a v b valid⟩
  cases fuel with
  | zero => exact ⟨by decide, by decide⟩
  | succ fuel =>
    refine safe_callGuarded (by simp) fun f mem named => ?_
    obtain rfl := DerivedTypes.impl_of_name mem named
    refine safe_runStmts (List.forall_mem_singleton.mpr (safe_call ?_))
    exact safe_function rfl ((safeCalls rt shallow fuel).helper S.name a v 0 valid)

/-! ### A list of two nodes -/

/-- `struct Node { struct Node *next; int *count; }` -/
def listNode : Derived where
  name := bytesOf "Node"
  tokens := scriptTokens ([⟨.struct nodeWord.toIdent, 1, ⟨bytesOf "next", by decide, by decide⟩⟩,
    ⟨.int, 1, ⟨bytesOf "count", by decide, by decide⟩⟩].flatMap StarDecl.tokens)

def listTypes : DerivedTypes := ⟨[listNode], []⟩

/-- A node that points to the given one and has no count. -/
def listValue (next : CValue) : CValue :=
  .struct (fun _ => 4096) fun field => if field = bytesOf "next" then next else .null

theorem listFields : scanFields listNode.tokens =
    [⟨.struct (bytesOf "Node"), bytesOf "next", 1⟩, ⟨.int, bytesOf "count", 1⟩] := by decide +kernel

theorem listValue_valid {next : CValue} (valid : Valid listTypes (.struct listNode.name) 1 next) :
    Valid listTypes (.struct listNode.name) 0 (listValue next) := by
  have differ : bytesOf "count" ≠ bytesOf "next" := by decide
  refine .struct fun S known _ f mem => ?_
  obtain rfl := List.mem_singleton.mp known
  rw [listFields, List.mem_cons, List.mem_singleton] at mem
  obtain rfl | rfl := mem
  · rw [if_pos rfl]
    exact valid
  · rw [if_neg differ]
    exact .null _ 0

theorem list_null_safe :
    NullSafe nodeRuntime listTypes (implName listNode.name debugTrait)
        [.pointer 4096 (listValue (.pointer 8192 (listValue .null)))] ∧
      ∀ b : Int, NullSafe nodeRuntime listTypes (helperName listNode.name)
        [.pointer 4096 (listValue (.pointer 8192 (listValue .null))), .int b] :=
  debug_null_safe nodeRuntime listTypes (by rw [listTypes, List.forall_mem_singleton, listFields]; decide) listNode 4096
    (listValue (.pointer 8192 (listValue .null))) (listValue_valid (.pointer 8192 (listValue_valid (.null _ 0))))

end MoeToolchain
