import MoeToolchain.Scripts.GeneratedCalls

/-!
# Headers for `debug.js`

A `Header` is a file whose struct blocks derive `debug`, whose enum blocks derive
`debug_enum`, and whose fields name types of the file only. What is appended for its
blocks is the program of the header, and the calls in it are declared exactly if the
blocks are in order.
-/

namespace MoeToolchain
set_option autoImplicit false
open Lib

/-! ## Headers -/

/-- The tokens of the body as the script gets them. -/
def DeriveBlock.jsTokens (b : DeriveBlock) : List JsToken := b.value.jsTokens

/-- The fields that `debug` finds. -/
def DeriveBlock.fields (b : DeriveBlock) : List Field :=
  match b.kind with
  | .derives => scanFields b.jsTokens
  | .derivesEnum => []

def DeriveBlock.structNames (b : DeriveBlock) : List Bytes :=
  match b.kind with
  | .derives => [b.name.text]
  | .derivesEnum => []

def DeriveBlock.enumNames (b : DeriveBlock) : List Bytes :=
  match b.kind with
  | .derives => []
  | .derivesEnum => [b.name.text]

/-- The type is scalar or one of these. -/
def FieldType.Among (structs enums : List Bytes) : FieldType → Prop
  | struct tag => tag ∈ structs
  | enum tag => tag ∈ enums
  | _ => True

/-- A block that derives the function of the script for its kind and nothing else. Its words are ASCII:
`JS_NewString` copies these as they are, and makes U+FFFD of what is no UTF-8. -/
structure HeaderBlock extends DeriveBlock where
  fits : toDeriveBlock.Fits
  derives : ∀ i ∈ toDeriveBlock.invocations, i.handler.text = kind.trait
  ascii : (name :: body.filterMap Token.ident?).all (fun x => x.text.all (· < 128)) = true

structure Header where
  blocks : List (Filler × HeaderBlock)
  last : Filler
  known : ∀ b ∈ blocks, ∀ f ∈ b.2.fields,
    f.type.Among (blocks.flatMap fun b => b.2.structNames) (blocks.flatMap fun b => b.2.enumNames)

namespace Header

def tokens (header : Header) : List Token :=
  header.blocks.flatMap (fun b => b.1.tokens ++ b.2.tokens) ++ header.last.tokens

/-- The structs that the parser finds. -/
def structs (header : Header) : List DerivedStruct := header.blocks.map fun b => b.2.value

end Header

/-- What the script generates for the block. -/
def DeriveBlock.functions (b : DeriveBlock) : List CFunction := b.kind.script b.name.text b.jsTokens

def Header.program (header : Header) : List CFunction := header.blocks.flatMap fun b => b.2.functions

/-- Every struct that is the type of a field, by value or behind pointers, is the struct
of the field or one of an earlier block. -/
def OrderedFrom : List Bytes → List (Filler × HeaderBlock) → Prop
  | _, [] => True
  | structs, b :: blocks =>
    (∀ f ∈ b.2.fields, ∀ tag, f.type = .struct tag → tag ∈ b.2.structNames ++ structs) ∧
      OrderedFrom (b.2.structNames ++ structs) blocks

def Header.Ordered (header : Header) : Prop := OrderedFrom [] header.blocks

/-! ## The program of a header -/

section Program

variable {builtins : Builtins}

theorem HeaderBlock.handlers (b : HeaderBlock) : ∀ handler ∈ b.value.handlers, handler = b.kind.trait := by
  intro handler mem
  obtain ⟨i, invoked, rfl⟩ := List.mem_map.mp mem
  exact b.derives i invoked

theorem HeaderBlock.handlerCode (b : HeaderBlock) :
    handlerCode builtins b.value b.kind.trait = some (programText b.functions) := by
  rw [MoeToolchain.handlerCode, globalFunction?_script builtins (scriptFunction?_trait b.kind)]
  rfl

/-- The code that is kept for a block is that of the trait. -/
theorem HeaderBlock.keptHandler (b : HeaderBlock) : keptHandler? builtins b.value = some b.kind.trait := by
  cases kept : keptHandler? builtins b.value with
  | none =>
    have nothing := List.find?_eq_none.mp kept b.kind.trait
      (List.mem_reverse.mpr (b.derives b.first List.mem_cons_self ▸ List.mem_cons_self))
    simp [b.handlerCode] at nothing
  | some handler => rw [b.handlers handler (List.mem_reverse.mp (List.mem_of_find?_eq_some kept))]

theorem HeaderBlock.appended (b : HeaderBlock) : appendedFor builtins b.value = .functions b.functions :=
  appendedFor_script b.keptHandler (scriptFunction?_trait b.kind)

theorem Header.generated (header : Header) : generatedFor builtins header.structs = header.program := by
  rw [generatedFor, Header.structs, List.flatMap_map]
  exact List.flatMap_congr fun b _ => by rw [b.2.appended]; rfl

/-- The text that is written for a header is its program. -/
theorem Header.written (header : Header) (n : Nat) :
    writtenText (fun _ => .whole) n ((debugJs builtins).fileOutcomes header.structs ()) = programText header.program := by
  have clean : ∀ v ∈ header.structs, NoNul v.structName := by
    intro v mem
    obtain ⟨b, -, rfl⟩ := List.mem_map.mp mem
    exact b.2.name.no_nul
  rw [writtenText_appendedFor _ n clean, Header.structs, List.flatMap_map, Header.program, programText, List.flatMap_assoc]
  exact List.flatMap_congr fun b _ => by rw [b.2.appended]; rfl

end Program

/-! ## Calls -/

section Calls

variable {builtins : Builtins} {header : Header}

theorem deriveAt_tokens (m : Macro) (name : Ident) (i : Invocation) (r : List Token) :
    deriveAt (i.tokens m name ++ r) = some (name.text, i.handler.text) := by
  obtain ⟨handler, args, semi⟩ := i
  have word : m.word = Macro.derives.word ∨ m.word = Macro.derivesEnum.word := by cases m <;> simp
  cases args with
  | nil => simp [Invocation.tokens, Invocation.tail, DeriveTail.tokens, deriveAt, word]
  | cons a args => simp [Invocation.tokens, Invocation.tail, DeriveTail.tokens, DeriveArg.tokens, deriveAt, word]

/-- The derives of a block are derives of the header. -/
theorem Header.mem_derivesIn {b : Filler × HeaderBlock} {i : Invocation} (mem : b ∈ header.blocks)
    (invoked : i ∈ b.2.invocations) : (b.2.name.text, i.handler.text) ∈ derivesIn header.tokens := by
  obtain ⟨before, after, tokens⟩ : ∃ before after,
      header.tokens = before ++ (i.tokens b.2.kind b.2.name ++ after) := by
    obtain ⟨bs, bs', blocks⟩ := List.append_of_mem mem
    obtain ⟨is, is', invocations⟩ := List.append_of_mem invoked
    refine ⟨bs.flatMap (fun b => b.1.tokens ++ b.2.tokens) ++
        (b.1.tokens ++ is.flatMap (Invocation.tokens b.2.kind b.2.name)),
      is'.flatMap (Invocation.tokens b.2.kind b.2.name) ++ b.2.definition ++
        bs'.flatMap (fun b => b.1.tokens ++ b.2.tokens) ++ header.last.tokens, ?_⟩
    simp [Header.tokens, blocks, DeriveBlock.tokens, invocations]
  rw [derivesIn, List.mem_filterMap]
  exact ⟨_, (List.mem_tails ..).mpr ⟨before, tokens.symm⟩, deriveAt_tokens ..⟩

theorem Header.enumsDerived (header : Header) : EnumsDerived builtins header.tokens header.structs := by
  intro v mem kept f here tag isEnum
  obtain ⟨b, there, rfl⟩ := List.mem_map.mp mem
  have trait := b.2.keptHandler.symm.trans kept
  have kind : b.2.kind = .derives := by
    cases isKind : b.2.kind with
    | derives => rfl
    | derivesEnum =>
      rw [isKind] at trait
      exact absurd (Option.some.inj trait) (by decide)
  have known := header.known b there f (by rwa [DeriveBlock.fields, kind])
  rw [isEnum] at known
  obtain ⟨e, inside, named⟩ := List.mem_flatMap.mp known
  rw [DeriveBlock.enumNames] at named
  cases enum : e.2.kind with
  | derives =>
    rw [enum] at named
    cases named
  | derivesEnum =>
    rw [enum] at named
    have derived := Header.mem_derivesIn inside (i := e.2.first) List.mem_cons_self
    rw [e.2.derives e.2.first List.mem_cons_self, enum, ← List.mem_singleton.mp named] at derived
    exact derived

theorem printedInOrder_blocks (blocks : List (Filler × HeaderBlock)) : ∀ structs : List Bytes,
    PrintedInOrder builtins structs (blocks.map fun b => b.2.value) ↔ OrderedFrom structs blocks := by
  induction blocks with
  | nil => exact fun structs => Iff.rfl
  | cons b blocks ih =>
    intro structs
    rw [List.map_cons, PrintedInOrder, OrderedFrom, b.2.keptHandler, DeriveBlock.fields, DeriveBlock.structNames]
    cases b.2.kind with
    | derives =>
      rw [if_pos (show some Macro.derives.trait = some debugTrait from rfl), ih]
      rfl
    | derivesEnum =>
      rw [if_neg (by decide), ih]
      simp

/-- The calls of the program are declared exactly if the blocks are ordered. -/
theorem declared_iff_ordered (header : Header) :
    Declared (declaredIn header.tokens) header.program ↔ header.Ordered := by
  rw [← @Header.generated (fun _ => none) header, declared_iff_printedInOrder header.enumsDerived]
  exact printedInOrder_blocks header.blocks []

end Calls

/-! ## An example -/

/-- The block of `A`, which has a pointer to `B`, and that of `B`. -/
def forwardPointer : Header where
  blocks := [(⟨[], by simp⟩, ⟨pointsToB, ⟨by decide, fun _ => rfl⟩, by decide, by decide⟩),
    (⟨[], by simp⟩, ⟨emptyB, ⟨by decide, fun _ => rfl⟩, by decide, by decide⟩)]
  last := ⟨[], by simp⟩
  known := by
    have fields : pointsToB.fields = [⟨.struct (bytesOf "B"), bytesOf "b", 1⟩] := by decide
    intro b mem
    simp only [List.mem_cons, List.not_mem_nil, or_false] at mem
    rcases mem with rfl | rfl
    · simp only [fields, List.forall_mem_singleton]
      exact List.mem_cons_of_mem _ List.mem_cons_self
    · intro f none_
      cases none_

end MoeToolchain
