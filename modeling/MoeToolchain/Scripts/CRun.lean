import Mathlib.Data.Nat.Digits.Defs
import Mathlib.Order.Filter.AtTopBot.Basic
import MoeToolchain.Scripts.CText

/-!
# What generated C code prints

The meaning of the trees of `CText` as printed text. A pointer carries the object that it
points to, so that a value is a tree. `callFunction` runs a function of a program with
fuel for the depth of calls; `Prints` is what a run prints with enough of it.

The plain parts of a format are printed as they are, which is right for texts without
`%`, `"` and `\`.
-/

namespace MoeToolchain
set_option autoImplicit false

/-! ## Values -/

/-- A `struct` has an address and a value for each member; `floating` is a `float` or a
`double` after the promotion of arguments. -/
inductive CValue
  | int (v : Int)
  | floating (v : BitVec 64)
  | enum (v : Int)
  | string (text : Bytes)
  | struct (address : Bytes → Nat) (member : Bytes → CValue)
  | null
  | pointer (address : Nat) (target : CValue)

inductive CFault
  | nullPointer
  | overflow
  | badOperand
  | unknownFunction
  | outOfFuel
deriving DecidableEq, Repr

/-- What the code is linked with: `%f`, `%p`, and the constants of the enums. -/
structure Runtime where
  float : BitVec 64 → Bytes
  pointer : Option Nat → Bytes
  constant : Bytes → Int
  float_line : ∀ v, 10 ∉ float v
  pointer_line : ∀ p, 10 ∉ pointer p

theorem line_nil : 10 ∉ ([] : Bytes) := List.not_mem_nil

/-- The variables of a function. -/
abbrev CEnv := List (Bytes × CValue)

/-! ## Expressions -/

/-- A result of type `int`. -/
def checkedInt (v : Int) : Except CFault CValue :=
  if -2 ^ 31 ≤ v ∧ v < 2 ^ 31 then .ok (.int v) else .error .overflow

def CBinary.apply : CBinary → CValue → CValue → Except CFault CValue
  | add, .int a, .int b => checkedInt (a + b)
  | times, .int a, .int b => checkedInt (a * b)
  | equal, .int a, .int b => .ok (.int (if a = b then 1 else 0))
  | _, _, _ => .error .badOperand

/-- `p->field` -/
def CValue.arrow (p : CValue) (field : Bytes) : Except CFault CValue :=
  match p with
  | .pointer _ (.struct _ member) => .ok (member field)
  | .null => .error .nullPointer
  | _ => .error .badOperand

/-- `&p->field` -/
def CValue.arrowAddress (p : CValue) (field : Bytes) : Except CFault CValue :=
  match p with
  | .pointer _ (.struct address member) => .ok (.pointer (address field) (member field))
  | .null => .error .nullPointer
  | _ => .error .badOperand

/-- `*p` -/
def CValue.deref : CValue → Except CFault CValue
  | .pointer _ target => .ok target
  | .null => .error .nullPointer
  | _ => .error .badOperand

/-- `(void*)p` -/
def CValue.voidPtr : CValue → Except CFault CValue
  | .pointer address target => .ok (.pointer address target)
  | .null => .ok .null
  | _ => .error .badOperand

/-- As a condition. -/
def CValue.truth : CValue → Except CFault Bool
  | .int v => .ok (v ≠ 0)
  | .pointer _ _ => .ok true
  | .null => .ok false
  | _ => .error .badOperand

def CExpr.eval (env : CEnv) : CExpr → Except CFault CValue
  | ident name =>
    match env.lookup name with
    | some v => .ok v
    | none => .error .badOperand
  | digit d => .ok (.int (d : Nat))
  | emptyString => .ok (.string [])
  | arrow e field => do
    let p ← e.eval env
    p.arrow field
  | unary .addressOf (arrow e field) => do
    let p ← e.eval env
    p.arrowAddress field
  | unary .addressOf _ => .error .badOperand
  | unary .deref e => do
    let p ← e.eval env
    p.deref
  | unary .voidPtr e => do
    let p ← e.eval env
    p.voidPtr
  | binary op a b => do
    let x ← a.eval env
    let y ← b.eval env
    op.apply x y
  | paren e => e.eval env

/-! ## Printing -/

def digitByte (d : Nat) : UInt8 := UInt8.ofNat (if d < 10 then 48 + d else 87 + d)

/-- The digits of a number in a base up to 16. -/
def numeral (base n : Nat) : Bytes := if n = 0 then [48] else (Nat.digits base n).reverse.map digitByte

/-- `%d` of a number that is not negative. -/
def decimal (n : Nat) : Bytes := numeral 10 n

def decimalInt (v : Int) : Bytes := if v < 0 then 45 :: decimal v.natAbs else decimal v.natAbs

def spaces (n : Nat) : Bytes := List.replicate n 32

/-- `%*s`; a negative width puts the spaces after the text. -/
def pad (width : Int) (text : Bytes) : Bytes :=
  if width < 0 then text ++ spaces (width.natAbs - text.length) else spaces (width.natAbs - text.length) ++ text

section Run

variable (rt : Runtime)

def printf : List CFormat → List CValue → Except CFault Bytes
  | [], _ => .ok []
  | .plain text :: rest, args => do
    let out ← printf rest args
    pure (text ++ out)
  | .newline :: rest, args => do
    let out ← printf rest args
    pure (10 :: out)
  | .padded :: rest, .int width :: .string text :: args => do
    let out ← printf rest args
    pure (pad width text ++ out)
  | .int :: rest, .int v :: args => do
    let out ← printf rest args
    pure (decimalInt v ++ out)
  | .float :: rest, .floating v :: args => do
    let out ← printf rest args
    pure (rt.float v ++ out)
  | .pointer :: rest, .pointer address _ :: args => do
    let out ← printf rest args
    pure (rt.pointer (some address) ++ out)
  | .pointer :: rest, .null :: args => do
    let out ← printf rest args
    pure (rt.pointer none ++ out)
  | _ :: _, _ => .error .badOperand

/-- What a call of a function prints. -/
abbrev Callee := Bytes → List CValue → Except CFault Bytes

variable (callee : Callee) (env : CEnv)

def CCall.run : CCall → Except CFault Bytes
  | printf format args => do
    let values ← args.mapM (CExpr.eval env)
    MoeToolchain.printf rt format values
  | function name args => do
    let values ← args.mapM (CExpr.eval env)
    callee name values

/-- The text for the label with the value `v`. Each label is a constant: which names are, in the scope of a function,
is not looked at here. -/
def switchText (labels : List (Bytes × Bytes)) (default : Bytes) (v : Int) : Bytes :=
  match labels.find? fun c => rt.constant c.1 = v with
  | some c => c.2
  | none => default

def CStmt.run : CStmt → Except CFault Bytes
  | call c => c.run rt callee env
  | ifThen cond yes => do
    let v ← cond.eval env
    let b ← v.truth
    if b then yes.run rt callee env else pure []
  | ifElse cond yes no => do
    let v ← cond.eval env
    let b ← v.truth
    if b then yes.run rt callee env else no.run rt callee env
  | switch on labels default => do
    let v ← on.eval env
    match v with
    | .enum v => pure (switchText rt labels default v)
    | _ => .error .badOperand

def runStmts : List CStmt → Except CFault Bytes
  | [] => .ok []
  | s :: ss => do
    let first ← s.run rt callee env
    let rest ← runStmts ss
    pure (first ++ rest)

/-- Run the body on the arguments. -/
def CFunction.run (f : CFunction) (args : List CValue) : Except CFault Bytes :=
  if f.params.length = args.length then runStmts rt callee ((f.params.map CParam.name).zip args) f.body
  else .error .badOperand

end Run

def callFunction (rt : Runtime) (program : List CFunction) : Nat → Callee
  | 0, _, _ => .error .outOfFuel
  | fuel + 1, name, args =>
    match program.find? fun f => f.name = name with
    | some f => f.run rt (callFunction rt program fuel) args
    | none => .error .unknownFunction

/-! ## Rules -/

section Rules

open Filter

variable {rt : Runtime} {program : List CFunction} {env : CEnv}

/-- With enough fuel for the calls, the run prints the text. -/
def Prints (rt : Runtime) (program : List CFunction) (run : Callee → Except CFault Bytes) (text : Bytes) : Prop :=
  ∀ᶠ fuel in atTop, run (callFunction rt program fuel) = .ok text

theorem Prints.unique {run : Callee → Except CFault Bytes} {text text' : Bytes} (prints : Prints rt program run text)
    (prints' : Prints rt program run text') : text = text' := by
  obtain ⟨fuel, first, second⟩ := (prints.and prints').exists
  rw [first] at second
  exact Except.ok.inj second

/-- A run that calls no function. -/
theorem Prints.of_ok {run : Callee → Except CFault Bytes} {text : Bytes} (ok : ∀ callee, run callee = .ok text) :
    Prints rt program run text :=
  Eventually.of_forall fun fuel => ok (callFunction rt program fuel)

theorem bind_ok {α β : Type} {x : Except CFault α} {f : α → Except CFault β} {b : β} :
    (x >>= f) = .ok b ↔ ∃ a, x = .ok a ∧ f a = .ok b := by
  cases x with
  | error e => simp [Bind.bind, Except.bind]
  | ok a => simp [Bind.bind, Except.bind]

theorem Prints.nil : Prints rt program (fun callee => runStmts rt callee env []) [] := .of_ok fun _ => rfl

theorem Prints.cons {s : CStmt} {ss : List CStmt} {a b : Bytes}
    (first : Prints rt program (fun callee => s.run rt callee env) a)
    (rest : Prints rt program (fun callee => runStmts rt callee env ss) b) :
    Prints rt program (fun callee => runStmts rt callee env (s :: ss)) (a ++ b) := by
  filter_upwards [first, rest] with fuel first rest
  simp only [runStmts, first, rest]
  rfl

theorem runStmts_append {callee : Callee} {ss ts : List CStmt} {text : Bytes} :
    runStmts rt callee env (ss ++ ts) = .ok text ↔
      ∃ a b, runStmts rt callee env ss = .ok a ∧ runStmts rt callee env ts = .ok b ∧ text = a ++ b := by
  induction ss generalizing text with
  | nil => simp [runStmts]
  | cons s ss ih =>
    simp only [List.cons_append, runStmts, bind_ok, ih, pure, Except.pure, Except.ok.injEq]
    constructor
    · rintro ⟨first, run, _, ⟨a, b, ss', ts', rfl⟩, rfl⟩
      exact ⟨first ++ a, b, ⟨first, run, a, ss', rfl⟩, ts', (List.append_assoc _ _ _).symm⟩
    · rintro ⟨_, b, ⟨first, run, a, ss', rfl⟩, ts', rfl⟩
      exact ⟨first, run, a ++ b, ⟨a, b, ss', ts', rfl⟩, (List.append_assoc _ _ _).symm⟩

theorem Prints.append {ss ts : List CStmt} {a b : Bytes}
    (first : Prints rt program (fun callee => runStmts rt callee env ss) a)
    (rest : Prints rt program (fun callee => runStmts rt callee env ts) b) :
    Prints rt program (fun callee => runStmts rt callee env (ss ++ ts)) (a ++ b) := by
  filter_upwards [first, rest] with fuel first rest
  exact runStmts_append.mpr ⟨a, b, first, rest, rfl⟩

/-- Statements for each of some things, one after the other. -/
theorem Prints.flatMap {α : Type} {stmts : α → List CStmt} {text : α → Bytes} {as : List α}
    (each : ∀ a ∈ as, Prints rt program (fun callee => runStmts rt callee env (stmts a)) (text a)) :
    Prints rt program (fun callee => runStmts rt callee env (as.flatMap stmts)) (as.flatMap text) := by
  induction as with
  | nil => exact Prints.nil
  | cons a as ih =>
    exact Prints.append (each a List.mem_cons_self) (ih fun a mem => each a (List.mem_cons_of_mem _ mem))

theorem run_printf {callee : Callee} {format : List CFormat} {args : List CExpr} {values : List CValue}
    (evaluated : args.mapM (CExpr.eval env) = .ok values) :
    (CCall.printf format args).run rt callee env = printf rt format values := by
  rw [CCall.run, evaluated]
  rfl

theorem Prints.function {name : Bytes} {args : List CExpr} {values : List CValue} {text : Bytes}
    (evaluated : args.mapM (CExpr.eval env) = .ok values)
    (prints : Prints rt program (fun callee => callee name values) text) :
    Prints rt program (fun callee => (CCall.function name args).run rt callee env) text := by
  filter_upwards [prints] with fuel prints
  rw [CCall.run, evaluated]
  exact prints

theorem Prints.ifThen {cond : CExpr} {yes : CCall} {v : CValue} {text : Bytes} (evaluated : cond.eval env = .ok v)
    (holds : v.truth = .ok true) (prints : Prints rt program (fun callee => yes.run rt callee env) text) :
    Prints rt program (fun callee => (CStmt.ifThen cond yes).run rt callee env) text := by
  filter_upwards [prints] with fuel prints
  rw [CStmt.run, evaluated, ← prints]
  show (v.truth >>= fun b => if b then _ else _) = _
  rw [holds]
  rfl

theorem run_ifThen_false {callee : Callee} {cond : CExpr} {yes : CCall} {v : CValue}
    (evaluated : cond.eval env = .ok v) (fails : v.truth = .ok false) :
    (CStmt.ifThen cond yes).run rt callee env = .ok [] := by
  rw [CStmt.run, evaluated]
  show (v.truth >>= fun b => if b then _ else _) = _
  rw [fails]
  rfl

/-- A call of a function of the program prints what its body does. -/
theorem Prints.call {name : Bytes} {f : CFunction} {args : List CValue} {text : Bytes}
    (found : program.find? (fun f => f.name = name) = some f)
    (body : Prints rt program (fun callee => f.run rt callee args) text) :
    Prints rt program (fun callee => callee name args) text := by
  obtain ⟨enough, prints⟩ := eventually_atTop.mp body
  refine eventually_atTop.mpr ⟨enough + 1, fun fuel more => ?_⟩
  obtain ⟨fuel, rfl⟩ : ∃ n, fuel = n + 1 := ⟨fuel - 1, by omega⟩
  simp only [callFunction, found]
  exact prints fuel (by omega)

/-- What a call prints, the body of the function prints. -/
theorem Prints.body {name : Bytes} {f : CFunction} {args : List CValue} {text : Bytes}
    (found : program.find? (fun f => f.name = name) = some f)
    (prints : Prints rt program (fun callee => callee name args) text) :
    Prints rt program (fun callee => f.run rt callee args) text := by
  obtain ⟨enough, prints⟩ := eventually_atTop.mp prints
  refine eventually_atTop.mpr ⟨enough, fun fuel more => ?_⟩
  have run := prints (fuel + 1) (by omega)
  simp only [callFunction, found] at run
  exact run

end Rules

/-! ## Printed numbers -/

theorem digitByte_line {d : Nat} (range : d < 16) : digitByte d ≠ 10 := by
  have all : ∀ d < 16, digitByte d ≠ 10 := by decide
  exact all d range

theorem numeral_line {base : Nat} (more : 1 < base) (range : base ≤ 16) (n : Nat) : 10 ∉ numeral base n := by
  unfold numeral
  split
  · decide
  · intro mem
    obtain ⟨d, digit, same⟩ := List.mem_map.mp mem
    have less := Nat.digits_lt_base more (List.mem_reverse.mp digit)
    exact digitByte_line (less.trans_le range) same

theorem decimal_line (n : Nat) : 10 ∉ decimal n := numeral_line (by decide) (by decide) n

theorem decimalInt_line (v : Int) : 10 ∉ decimalInt v := by
  unfold decimalInt
  split
  · rw [List.mem_cons, not_or]
    exact ⟨by decide, decimal_line _⟩
  · exact decimal_line _

end MoeToolchain
