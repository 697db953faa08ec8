import MoeToolchain.ProcMacro.Files
import MoeToolchain.Scripts.Debug

/-!
# Prototypes and definitions

The macros of `moe_proc_macro.h` declare the function of a derive and call it; the
script defines it. `signature_agrees_iff` compares the three: the parser reads the
arguments of a derive and keeps none of them.
-/

namespace MoeToolchain
set_option autoImplicit false
open Lib

/-! ## `moe_proc_macro.h` -/

/-- A declaration of a `void` function. -/
structure CPrototype where
  name : Bytes
  params : List CParam
deriving DecidableEq, Repr

structure CTypedExpr where
  expr : CExpr
  type : CType
deriving DecidableEq, Repr

/-- A call, with the types of its arguments. -/
structure CTypedCall where
  callee : Bytes
  args : List CTypedExpr
deriving DecidableEq, Repr

def moeProcMacroArgWord : Ident := ⟨bytesOf "MOE_PROC_MACRO_ARG", by decide, by decide⟩

/-- `MOE_PROC_MACRO_ARG(type, name)` -/
def moeProcMacroArg (type name : Ident) : CParam := ⟨.named type.text, name.text⟩

/-- The two arguments of `MOE_PROC_MACRO_ARG`. -/
structure ArgPair where
  type : Ident
  name : Ident
deriving DecidableEq, Repr

/-- How the parser sees it. -/
def ArgPair.argument (a : ArgPair) : DeriveArg := ⟨moeProcMacroArgWord, a.type, a.name⟩

def ArgPair.param (a : ArgPair) : CParam := moeProcMacroArg a.type a.name

/-- The function that `MOE_PROC_MACRO_DERIVES(struct_name, trait_name, ...)` declares. -/
def moeProcMacroDerives (structName traitName : Ident) (args : List ArgPair) : CPrototype :=
  ⟨implName structName.text traitName.text,
    ⟨.structPtr structName.text, bytesOf "instance_ptr"⟩ :: args.map ArgPair.param⟩

/-- The same for `MOE_PROC_MACRO_DERIVES_ENUM`. -/
def moeProcMacroDerivesEnum (enumName traitName : Ident) (args : List ArgPair) : CPrototype :=
  ⟨implName enumName.text traitName.text, ⟨.enum enumName.text, bytesOf "value"⟩ :: args.map ArgPair.param⟩

/-- `MOE_PROC_MACRO_CALL(struct_name, trait_name, instance_ptr, ...)` -/
def moeProcMacroCall (structName traitName : Ident) (instancePtr : CTypedExpr) (args : List CTypedExpr) : CTypedCall :=
  ⟨implName structName.text traitName.text, instancePtr :: args⟩

/-- What the derives of a block declare. -/
def Macro.prototype : Macro → Ident → Ident → List ArgPair → CPrototype
  | derives => moeProcMacroDerives
  | derivesEnum => moeProcMacroDerivesEnum

/-- The type of the value that the function is for. -/
def Macro.selfType : Macro → Ident → CType
  | derives, name => .structPtr name.text
  | derivesEnum, name => .enum name.text

/-- The function of the script for the macro. -/
def Macro.trait : Macro → Bytes
  | derives => debugTrait
  | derivesEnum => debugEnumTrait

def Macro.script : Macro → Bytes → List JsToken → List CFunction
  | derives => debug
  | derivesEnum => debugEnum

theorem scriptFunction?_trait (m : Macro) : scriptFunction? m.trait = some m.script := by
  cases m <;> rfl

/-! ## Signatures -/

/-- The name of a function and the types of its parameters. -/
structure Signature where
  name : Bytes
  types : List CType
deriving DecidableEq, Repr

def CFunction.signature (f : CFunction) : Signature := ⟨f.name, f.params.map CParam.type⟩

def CPrototype.signature (p : CPrototype) : Signature := ⟨p.name, p.params.map CParam.type⟩

def CTypedCall.signature (c : CTypedCall) : Signature := ⟨c.callee, c.args.map CTypedExpr.type⟩

/-- One of the functions has the signature of the prototype, and of every call with
arguments of the types that the derive lists. -/
def Agrees (m : Macro) (name trait : Ident) (args : List ArgPair) (fs : List CFunction) : Prop :=
  ∃ f ∈ fs, f.signature = (m.prototype name trait args).signature ∧
    ∀ (self : CTypedExpr) (values : List CTypedExpr), self.type = m.selfType name →
      values.map CTypedExpr.type = args.map (fun a => a.param.type) →
      f.signature = (moeProcMacroCall name trait self values).signature

theorem prototype_signature (m : Macro) (name trait : Ident) (args : List ArgPair) :
    (m.prototype name trait args).signature =
      ⟨implName name.text trait.text, m.selfType name :: args.map fun a => a.param.type⟩ := by
  cases m <;> simp [Macro.prototype, moeProcMacroDerives, moeProcMacroDerivesEnum, CPrototype.signature, Macro.selfType]

/-- The script defines one function with the name of the prototype, and it has one parameter. -/
theorem script_signature (m : Macro) (name : Ident) (tokens : List JsToken) :
    (∃ f ∈ m.script name.text tokens, f.signature = ⟨implName name.text m.trait, [m.selfType name]⟩) ∧
      ∀ f ∈ m.script name.text tokens, f.name = implName name.text m.trait →
        f.signature = ⟨implName name.text m.trait, [m.selfType name]⟩ := by
  cases m with
  | derives =>
    refine ⟨⟨debugImpl name.text, by simp [Macro.script, debug], rfl⟩, ?_⟩
    intro f mem named
    rcases List.mem_cons.mp mem with rfl | mem
    · exact absurd named (helperName_ne_implName _ _ _)
    · rw [List.mem_singleton.mp mem]
      rfl
  | derivesEnum =>
    refine ⟨⟨_, List.mem_singleton_self _, rfl⟩, ?_⟩
    intro f mem _
    rw [List.mem_singleton.mp mem]
    rfl

theorem agrees_iff {m : Macro} {name trait : Ident} (isTrait : trait.text = m.trait) (args : List ArgPair)
    (tokens : List JsToken) : Agrees m name trait args (m.script name.text tokens) ↔ args = [] := by
  obtain ⟨⟨f, mem, signature⟩, unique⟩ := script_signature m name tokens
  have prototype := prototype_signature m name trait args
  rw [isTrait] at prototype
  constructor
  · rintro ⟨g, there, same, -⟩
    rw [prototype] at same
    have one := unique g there (congrArg Signature.name same)
    rw [one] at same
    have types := (List.cons.inj (congrArg Signature.types same)).2
    exact List.map_eq_nil_iff.mp types.symm
  · rintro rfl
    refine ⟨f, mem, signature.trans prototype.symm, ?_⟩
    intro self values selfType types
    rw [List.map_eq_nil_iff.mp types, signature, CTypedCall.signature, moeProcMacroCall, isTrait]
    simp [selfType]

/-- For a derive of a block that the parser takes, the function that the script defines
agrees with the prototype and with the calls exactly when the derive has no arguments. -/
theorem signature_agrees_iff (b : DeriveBlock) (fits : b.Fits) (i : Invocation) (here : i ∈ b.invocations)
    (trait : i.handler.text = b.kind.trait) (args : List ArgPair) (written : i.args = args.map ArgPair.argument)
    (builtins : Builtins) (lex : StbLexer) (mem : Mem) (r : List Token) :
    ∃ d st v, parseDerivedStruct .assertions ⟨lex.fetched (.id b.kind.word) (b.tokens.tail ++ r), mem⟩ =
        .ok (some d, st) ∧
      readDerivedStruct d st.mem = .ok (v, st.mem) ∧ i.handler.text ∈ v.handlers ∧
      (debugJs builtins).outcome (v.metadata.map fromTokenToJsTokenObject) v.structName i.handler.text () =
        (.returned (programText (b.kind.script v.structName (v.metadata.map fromTokenToJsTokenObject))), ()) ∧
      (Agrees b.kind b.name i.handler args
        (b.kind.script v.structName (v.metadata.map fromTokenToJsTokenObject)) ↔ i.args = []) := by
  obtain ⟨d, st, run, -, s, same, owned⟩ := parseDerivedStruct_returns (b.toExtent_ok fits) b.toExtent_result lex mem r
  have tokens : b.toExtent.tokens = b.tokens.tail := by
    rw [DeriveBlock.tokens_eq fits.single]
    rfl
  rw [tokens] at run
  cases same
  have read : readDerivedStruct s.addr st.mem = .ok (Values.asRead b.value, st.mem) := readDerivedStruct_owns owned
  rw [b.asRead_value] at read
  refine ⟨s.addr, st, b.value, run, read, List.mem_map_of_mem here, ?_, ?_⟩
  · rw [trait, outcome_debugJs, globalFunction?_script builtins (scriptFunction?_trait b.kind)]
    rfl
  · rw [written, List.map_eq_nil_iff]
    exact agrees_iff trait args _

def debugWord : Ident := ⟨debugTrait, by decide, by decide⟩

/-- `MOE_PROC_MACRO_DERIVES(B, debug, MOE_PROC_MACRO_ARG(int, depth)); struct B { };` -/
def argBlock : DeriveBlock := { blockB with
  first := ⟨debugWord, [ArgPair.argument ⟨intWord, ⟨bytesOf "depth", by decide, by decide⟩⟩], true⟩ }

/-- The theorem at the block of `B` with one argument. -/
theorem signature_agrees_iff_argBlock :
    ∃ d st v, parseDerivedStruct .assertions
        ⟨(StbLexer.start []).fetched (.id argBlock.kind.word) (argBlock.tokens.tail ++ []), Mem.empty⟩ = .ok (some d, st) ∧
      readDerivedStruct d st.mem = .ok (v, st.mem) ∧ argBlock.first.handler.text ∈ v.handlers ∧
      (debugJs fun _ => none).outcome (v.metadata.map fromTokenToJsTokenObject) v.structName argBlock.first.handler.text () =
        (.returned (programText (debug v.structName (v.metadata.map fromTokenToJsTokenObject))), ()) ∧
      (Agrees .derives argBlock.name argBlock.first.handler
        [⟨⟨bytesOf "int", by decide, by decide⟩, ⟨bytesOf "depth", by decide, by decide⟩⟩]
        (debug v.structName (v.metadata.map fromTokenToJsTokenObject)) ↔ argBlock.first.args = []) :=
  signature_agrees_iff argBlock ⟨by decide, fun _ => rfl⟩ argBlock.first (by decide) rfl _ rfl _ (.start []) Mem.empty []

/-- The prototype has an argument that the definition has not. -/
theorem argBlock_disagrees :
    argBlock.Fits ∧ ¬ Agrees .derives argBlock.name argBlock.first.handler
      [⟨⟨bytesOf "int", by decide, by decide⟩, ⟨bytesOf "depth", by decide, by decide⟩⟩]
      (debug argBlock.value.structName (argBlock.value.metadata.map fromTokenToJsTokenObject)) := by
  refine ⟨⟨by decide, fun _ => rfl⟩, fun agrees => ?_⟩
  have none_ := (@agrees_iff .derives argBlock.name argBlock.first.handler rfl _ _).mp agrees
  cases none_

end MoeToolchain
