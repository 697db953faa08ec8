import MoeToolchain.ProcMacro.Ownership

/-!
# Well-formed blocks

A `DeriveBlock` is the declaration the macros are meant for: one or more derives of one
name, each closed by `)`, and then the definition of that name with the keyword of the
macro. The parser takes every block of at most eight derives (`DeriveBlock.toExtent_ok`).
-/

namespace MoeToolchain
set_option autoImplicit false
open Lib

/-- A derive `macro ( name , handler {, id ( id , id )} ) [;]`. -/
structure Invocation where
  handler : Ident
  args : List DeriveArg
  semi : Bool
deriving DecidableEq, Repr

def Invocation.tail (i : Invocation) : DeriveTail := ⟨i.handler, i.args, .char rparen, i.semi⟩

def Invocation.tokens (m : Macro) (name : Ident) (i : Invocation) : List Token :=
  .id m.word :: .char lparen :: .id name :: .char comma :: i.tail.tokens

/-- A block; `typeName` is there in the `typedef` form. -/
structure DeriveBlock where
  kind : Macro
  name : Ident
  first : Invocation
  more : List Invocation
  body : List Token
  closed : .char rbrace ∉ body
  typeName : Option Ident
deriving DecidableEq, Repr

namespace DeriveBlock

def invocations (b : DeriveBlock) : List Invocation := b.first :: b.more

/-- `[typedef] keyword name { body } [typeName] ;` -/
def definition (b : DeriveBlock) : List Token :=
  (if b.typeName.isSome then [.id typedefWord] else []) ++
    (.id b.kind.keyword.word :: .id b.name :: .char lbrace :: (b.body ++
      .char rbrace :: (b.typeName.toList.map Token.id ++ [.char semicolon])))

def tokens (b : DeriveBlock) : List Token :=
  b.invocations.flatMap (Invocation.tokens b.kind b.name) ++ b.definition

/-- The struct that the block describes. -/
def value (b : DeriveBlock) : DerivedStruct :=
  ⟨b.name.text, b.invocations.map fun i => i.handler.text, b.body.map Token.value⟩

/-- The derive loop takes no more than eight derives, and after the first one only
those of the struct macro. -/
structure Fits (b : DeriveBlock) : Prop where
  few : b.invocations.length ≤ moeProcMacroMaxDeriveItemNum
  single : b.kind = .derivesEnum → b.more = []

def ending (b : DeriveBlock) : Ending :=
  ⟨if b.typeName.isSome then some (.id typedefWord) else none,
    .defined b.kind.keyword b.body b.typeName⟩

def toExtent (b : DeriveBlock) : Extent :=
  ⟨b.name, b.first.tail, b.more.map fun i => .derive i.tail, b.ending⟩

theorem ending_tokens (b : DeriveBlock) : b.ending.tokens b.name = b.definition := by
  unfold ending Ending.tokens Declaration.tokens definition
  split <;> rfl

end DeriveBlock

/-! ## Blocks are extents -/

theorem typedef_strEq (w : Ident) : strEq w.text (bytesOf "typedef") = true ↔ w = typedefWord :=
  Ident.strEq_iff w typedefWord

theorem Keyword.word_ne_typedef (k : Keyword) : k.word ≠ typedefWord := by
  cases k <;> decide

theorem Macro.word_ne_typedef (m : Macro) : m.word ≠ typedefWord := by
  cases m <;> decide

theorem Macro.word_ne_keyword (m : Macro) (k : Keyword) : m.word ≠ k.word := by
  cases m <;> cases k <;> decide

theorem Macro.word_inj {m m' : Macro} (same : m.word = m'.word) : m = m' := by
  cases m <;> cases m' <;> first | rfl | exact absurd same (by decide)

/-- The first token of a definition is a word of C. -/
theorem DeriveBlock.definition_head (b : DeriveBlock) :
    ∃ w r, b.definition = .id w :: r ∧ (∀ m : Macro, w ≠ m.word) ∧
      (w = typedefWord ↔ b.typeName.isSome = true) := by
  unfold DeriveBlock.definition
  split
  · exact ⟨typedefWord, _, rfl, fun m same => m.word_ne_typedef same.symm, by simp_all⟩
  · refine ⟨b.kind.keyword.word, _, rfl, fun m same => m.word_ne_keyword _ same.symm, ?_⟩
    have plain := b.kind.keyword.word_ne_typedef
    simp_all

theorem Invocation.tail_ok (i : Invocation) {following : List Token}
    (next : following.head? ≠ some (.char semicolon)) : i.tail.Ok following :=
  ⟨show Token.char rparen ≠ .char comma by decide, fun _ => next⟩

theorem derives_flatMap (m : Macro) (name : Ident) (is : List Invocation) (single : m = .derivesEnum → is = []) :
    (is.map fun i => Piece.derive i.tail).flatMap (Piece.tokens name) =
      is.flatMap (Invocation.tokens m name) := by
  cases m with
  | derives =>
    rw [List.flatMap_map]
    rfl
  | derivesEnum => rw [single rfl]; rfl

theorem DeriveBlock.tokens_eq {b : DeriveBlock} (single : b.kind = .derivesEnum → b.more = []) :
    b.tokens = .id b.kind.word :: b.toExtent.tokens := by
  have more := derives_flatMap b.kind b.name b.more single
  unfold DeriveBlock.tokens DeriveBlock.invocations Extent.tokens Extent.derives DeriveBlock.toExtent
  rw [more, DeriveBlock.ending_tokens]
  simp [Invocation.tokens]

/-- What follows a derive of a block does not begin with `;`. -/
theorem DeriveBlock.next_head (b : DeriveBlock) (is : List Invocation) :
    (is.flatMap (Invocation.tokens b.kind b.name) ++ b.definition).head? ≠ some (.char semicolon) := by
  cases is with
  | nil =>
    obtain ⟨w, r, head, -⟩ := b.definition_head
    simp [head]
  | cons i is => simp [Invocation.tokens]

theorem DeriveBlock.pieces_ok (b : DeriveBlock) (is : List Invocation) :
    ∀ {count : Nat}, (b.kind = .derivesEnum → is = []) →
      count + is.length ≤ moeProcMacroMaxDeriveItemNum →
      PiecesOk b.name b.definition count (is.map fun i => .derive i.tail) := by
  induction is with
  | nil =>
    intro count _ few room
    obtain ⟨w, r, head, words, -⟩ := b.definition_head
    rw [head]
    intro same
    rw [List.head?_cons, Option.some.injEq, Token.id.injEq] at same
    exact words .derives same
  | cons i is ih =>
    intro count one few
    rw [List.length_cons] at few
    refine ⟨by omega, ?_, ih (fun isEnum => absurd (one isEnum) (by simp)) (by omega)⟩
    apply Invocation.tail_ok
    rw [derives_flatMap b.kind b.name is (fun isEnum => absurd (one isEnum) (by simp))]
    exact b.next_head is

theorem lastText_definition (b : DeriveBlock) (text : Bytes) :
    b.typeName.isSome = strEq (lastText text (b.definition.take 1)) (bytesOf "typedef") := by
  obtain ⟨w, r, head, -, typedef⟩ := b.definition_head
  rw [head, Bool.eq_iff_iff, ← typedef]
  exact (typedef_strEq w).symm

theorem DeriveBlock.ending_ok (b : DeriveBlock) (text : Bytes) : b.ending.Ok b.name text := by
  have isSome : b.ending.typedef?.isSome = b.typeName.isSome := by
    unfold DeriveBlock.ending
    split <;> simp_all
  constructor
  · rw [isSome, DeriveBlock.ending_tokens]
    exact lastText_definition b _
  · exact ⟨b.closed, isSome.symm⟩

theorem DeriveBlock.toExtent_ok {b : DeriveBlock} (fits : b.Fits) : b.toExtent.Ok b.kind := by
  have few := fits.few
  simp only [DeriveBlock.invocations, List.length_cons] at few
  constructor
  · apply Invocation.tail_ok
    unfold DeriveBlock.toExtent
    rw [derives_flatMap b.kind b.name b.more fits.single, DeriveBlock.ending_tokens]
    exact b.next_head b.more
  · unfold DeriveBlock.toExtent
    rw [DeriveBlock.ending_tokens]
    exact b.pieces_ok b.more fits.single (by omega)
  · exact b.ending_ok _

theorem DeriveBlock.toExtent_result (b : DeriveBlock) : b.toExtent.result = some b.value := by
  unfold Extent.result DeriveBlock.toExtent DeriveBlock.ending DeriveBlock.value Extent.handlers DeriveBlock.invocations
  simp [List.filterMap_map, Function.comp_def, Piece.handler?, Invocation.tail]

end MoeToolchain
