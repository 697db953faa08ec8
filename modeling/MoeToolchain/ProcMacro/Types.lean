import MoeToolchain.Common.MoeString

/-!
# The objects of `proc_macro.c`: tokens, derive items, derived structs

The functions of `proc_macro.c` that create and destroy the parser's objects, and
what they do to the memory. `StructOwned m₀ f s num v m` says that `m` is `m₀`
with the blocks `f` and the blocks of one derived struct at `s` that holds the
value `v`. The struct is built one derive item and one token at a time, so the
predicate speaks of the items initialised so far, whatever `derive_item_num` says.
-/

namespace MoeToolchain
set_option autoImplicit false
open Lib

/-- `MOE_PROC_MACRO_MAX_DERIVE_ITEM_NUM`. -/
def moeProcMacroMaxDeriveItemNum : Nat := 8

/-- What a `moe_token_t` holds. -/
inductive TokenValue
  | identifier (text : Bytes)
  | stringLiteral (text : Bytes)
  | punctuation (value : Int)
  | intLiteral (value : Int)
  | floatLiteral (value : BitVec 32)
deriving DecidableEq, Repr

/-- What a `moe_derived_struct_t` holds: its name, the handler names of its derive
items and the tokens of its metadata. -/
structure DerivedStruct where
  structName : Bytes
  handlers : List Bytes
  metadata : List TokenValue
deriving DecidableEq, Repr

/-! ## Tokens -/

/-- A token whose value is a string of its own. -/
def moeTokenCreateText (type : MoeTokenType) (text : Bytes) (len : Nat) : C Mem Addr := do
  let token ← moeMalloc .uninit
  let str ← moeStringAlloc (some text) len
  storeBlock token (.token ⟨type, .strValue str⟩)
  pure token

/-- A token whose value is a number. -/
def moeTokenCreateScalar (type : MoeTokenType) (value : MoeTokenUnion) : C Mem Addr := do
  let token ← moeMalloc .uninit
  storeBlock token (.token ⟨type, value⟩)
  pure token

def moeTokenCreateIdentifier (identifier : Bytes) (len : Nat) : C Mem Addr :=
  moeTokenCreateText .identifier identifier len

def moeTokenCreateStringLiteral (str : Bytes) (len : Nat) : C Mem Addr :=
  moeTokenCreateText .stringLiteral str len

def moeTokenCreatePunctuation (punctuation : Int) : C Mem Addr :=
  moeTokenCreateScalar .punctuation (.intValue punctuation)

def moeTokenCreateIntLiteral (value : Int) : C Mem Addr :=
  moeTokenCreateScalar .intLiteral (.intValue value)

def moeTokenCreateFloatLiteral (value : BitVec 32) : C Mem Addr :=
  moeTokenCreateScalar .floatLiteral (.floatValue value)

def moeTokenFree (token : Ptr) : C Mem Unit :=
  match token with
  | none => pure ()
  | some a => do
    let t ← loadAs Block.asToken (some a)
    (if t.type = .identifier ∨ t.type = .stringLiteral then
      match t.value with
      | .strValue p => moeStringFree (some p)
      | _ => Exec.fault .uninitialized
    else pure () : C Mem Unit)
    moeFree (some a)

/-- The bytes of a string, as many as its `length` says. -/
def readString (str : Addr) : C Mem Bytes := do
  let s ← loadAs Block.asString (some str)
  let p ← moeStringGet (some str)
  let data ← loadAs Block.asChars (some p)
  if data.length < s.length then Exec.fault .outOfBounds else pure (data.take s.length)

/-- The value of a token, as a reader of its union field sees it. -/
def readToken (token : Addr) : C Mem TokenValue := do
  let t ← loadAs Block.asToken (some token)
  match t.type, t.value with
  | .identifier, .strValue p => do
    let text ← readString p
    pure (.identifier text)
  | .stringLiteral, .strValue p => do
    let text ← readString p
    pure (.stringLiteral text)
  | .punctuation, .intValue v => pure (.punctuation v)
  | .intLiteral, .intValue v => pure (.intLiteral v)
  | .floatLiteral, .floatValue v => pure (.floatLiteral v)
  | _, _ => Exec.fault .uninitialized

/-! ## The token list of a struct -/

def moeStructMetadataTokenStreamNodeAlloc (token : Addr) : C Mem Addr := do
  let node ← moeMalloc .uninit
  storeBlock node (.tokenNode ⟨⟨none, none⟩, token⟩)
  moeListNodeInit (some node)
  pure node

def moeStructMetadataTokenStreamNodeFree (node : Ptr) : C Mem Unit :=
  match node with
  | none => pure ()
  | some a => do
    let n ← loadAs Block.asTokenNode (some a)
    moeTokenFree (some n.token)
    moeFree (some a)

/-- `metadata` is the address of the struct, whose list node is the sentinel. -/
def moeDeriveStructMetadataAddToken (metadata : Ptr) (token : Addr) : C Mem Unit :=
  match metadata with
  | none => pure ()
  | some a => do
    let node ← moeStructMetadataTokenStreamNodeAlloc token
    moeListAddTail (some a) (some node)

def moeDeriveStructMetadataClearIterator (node : Ptr) : C Mem Unit :=
  moeStructMetadataTokenStreamNodeFree node

/-- Every turn of the loop frees a block, so it takes no more turns than there are blocks. -/
def moeStructMetadataDestroy (metadata : Ptr) : C Mem Unit :=
  match metadata with
  | none => pure ()
  | some a => do
    let m ← get
    moeListIterateSafe (m.heap.next + 1) (some a) moeDeriveStructMetadataClearIterator

/-- The tokens that `moe_list_iterator_next` and `moe_list_iterator_get` come to. -/
def collectTokens : Nat → MoeListIterator → C Mem (List TokenValue)
  | 0, _ => Exec.fault .outOfFuel
  | fuel + 1, it => do
    let step ← moeListIteratorNext it
    if step.1 then do
      let node ← loadAs Block.asTokenNode (moeListIteratorGet step.2)
      let value ← readToken node.token
      let values ← collectTokens fuel step.2
      pure (value :: values)
    else pure []

/-! ## Derive items -/

/-- `&derive_items[index]`. -/
structure ItemSlot where
  items : Addr
  index : Nat
deriving DecidableEq, Repr

/-- Write a whole `moe_derive_item_t` of an array. -/
def writeItem (slot : ItemSlot) (item : MoeDeriveItem) : C Mem Unit := do
  let xs ← loadAs Block.asDeriveItems (some slot.items)
  if slot.index < xs.length then
    storeBlock slot.items (.deriveItems (xs.set slot.index (some item)))
  else Exec.fault .outOfBounds

/-- An element of an array: there, and written. -/
def elementAt {α : Type} (xs : List (Option α)) (i : Nat) : C Mem α :=
  match xs[i]? with
  | none => Exec.fault .outOfBounds
  | some none => Exec.fault .uninitialized
  | some (some x) => pure x

def readItem (slot : ItemSlot) : C Mem MoeDeriveItem := do
  let xs ← loadAs Block.asDeriveItems (some slot.items)
  elementAt xs slot.index

/-- `moe_string_get(item->derive_handler_name)` read as a C string. -/
def readHandlerName (slot : ItemSlot) : C Mem Bytes := do
  let item ← readItem slot
  moeStringRead item.deriveHandlerName

def moeDeriveItemCreate (slot : ItemSlot) (deriveHandlerName : Bytes) (argNum : Nat) : C Mem Unit := do
  let name ← moeStringAlloc (some deriveHandlerName) 0
  let args ← moeMalloc (.deriveArgs (List.replicate argNum none))
  writeItem slot ⟨some name, argNum, some args⟩

def moeDeriveArgDestroy (arg : MoeDeriveArg) : C Mem Unit := do
  moeStringFree arg.argType
  moeStringFree arg.argName

def moeDeriveItemDestroy (slot : ItemSlot) : C Mem Unit := do
  let item ← readItem slot
  moeStringFree item.deriveHandlerName
  forM (List.range item.argNum) fun i => do
    let args ← loadAs Block.asDeriveArgs item.args
    let arg ← elementAt args i
    moeDeriveArgDestroy arg
  moeFree item.args

/-! ## Derived structs -/

def moeDerivedStructAlloc (structName : Bytes) (deriveItemNum : Nat) : C Mem Addr := do
  let derivedStruct ← moeMalloc .uninit
  let name ← moeStringAlloc (some structName) 0
  let items ← moeMalloc (.deriveItems (List.replicate deriveItemNum none))
  storeBlock derivedStruct (.derivedStruct ⟨some name, deriveItemNum, items, ⟨none, none⟩⟩)
  moeListNodeInit (some derivedStruct)
  pure derivedStruct

def moeDerivedStructFree (derivedStruct : Ptr) : C Mem Unit :=
  match derivedStruct with
  | none => pure ()
  | some a => do
    let d ← loadAs Block.asDerivedStruct (some a)
    moeStringFree d.structName
    forM (List.range d.deriveItemNum) fun i => moeDeriveItemDestroy ⟨d.deriveItems, i⟩
    moeFree (some d.deriveItems)
    moeStructMetadataDestroy (some a)
    moeFree (some a)

/-- `derived_struct->derive_item_num = n`. -/
def setDeriveItemNum (derivedStruct : Addr) (n : Nat) : C Mem Unit := do
  let d ← loadAs Block.asDerivedStruct (some derivedStruct)
  storeBlock derivedStruct (.derivedStruct { d with deriveItemNum := n })

/-- What a caller reads out of a derived struct: the name, the handler names of its
`derive_item_num` items, and the tokens the list iterator comes to. -/
def readDerivedStruct (derivedStruct : Addr) : C Mem DerivedStruct := do
  let d ← loadAs Block.asDerivedStruct (some derivedStruct)
  let name ← moeStringRead d.structName
  let handlers ← (List.range d.deriveItemNum).mapM fun i => readHandlerName ⟨d.deriveItems, i⟩
  let m ← get
  let metadata ← collectTokens (m.heap.next + 1) (moeListIteratorInit (some derivedStruct))
  pure ⟨name, handlers, metadata⟩

end MoeToolchain
