import MoeToolchain.Common.MoeList

/-!
# `moe_alloc.c` and the blocks of the program

The memory is a heap of typed blocks with the two counters of `moe_alloc.c`. Each
`MOE_ALLOC` of the sources makes one block; `uninit` is a block no field of which
has been written yet. An array is one block, and an element that was never
written is `none`. `malloc` itself is taken not to fail: no caller tests for it.

`Owns m₀ m f` says that `m` is `m₀` with exactly the blocks `f` added, and that
the counters have moved accordingly. It is the form in which every function of
the program states what it allocates and frees.
-/

namespace MoeToolchain
set_option autoImplicit false
open Lib

/-- `moe_string_t`. -/
structure MoeString where
  internal : Addr
  length : Nat
  capacity : Nat
deriving DecidableEq, Repr

/-- `struct _moe_string_internal_s`. -/
structure MoeStringInternal where
  data : Addr
  refCount : Int
deriving DecidableEq, Repr

/-- `moe_token_type_t`. -/
inductive MoeTokenType
  | unknown
  | identifier
  | punctuation
  | stringLiteral
  | intLiteral
  | floatLiteral
deriving DecidableEq, Repr

/-- The union in `moe_token_t`. -/
inductive MoeTokenUnion
  | intValue (v : Int)
  | floatValue (v : BitVec 32)
  | strValue (p : Addr)
deriving DecidableEq, Repr

/-- `moe_token_t`. -/
structure MoeToken where
  type : MoeTokenType
  value : MoeTokenUnion
deriving DecidableEq, Repr

/-- `moe__struct_metadata_token_stream_node_t`. -/
structure TokenStreamNode where
  listNode : MoeListNode
  token : Addr
deriving DecidableEq, Repr

/-- `moe_derive_arg_t`. -/
structure MoeDeriveArg where
  argType : Ptr
  argName : Ptr
deriving DecidableEq, Repr

/-- `moe_derive_item_t`. -/
structure MoeDeriveItem where
  deriveHandlerName : Ptr
  argNum : Nat
  args : Ptr
deriving DecidableEq, Repr

/-- `moe_derived_struct_t`; `metadata` is its one field `token_stream_node`. -/
structure MoeDerivedStruct where
  structName : Ptr
  deriveItemNum : Nat
  deriveItems : Addr
  metadata : MoeListNode
deriving DecidableEq, Repr

inductive Block
  | uninit
  | string (s : MoeString)
  | stringInternal (i : MoeStringInternal)
  | chars (data : Bytes)
  | token (t : MoeToken)
  | tokenNode (n : TokenStreamNode)
  | deriveArgs (args : List (Option MoeDeriveArg))
  | deriveItems (items : List (Option MoeDeriveItem))
  | derivedStruct (d : MoeDerivedStruct)
  | jsRuntime
deriving DecidableEq, Repr

namespace Block

def asString : Block → Option MoeString
  | string s => some s
  | _ => none

def asStringInternal : Block → Option MoeStringInternal
  | stringInternal i => some i
  | _ => none

def asChars : Block → Option Bytes
  | chars data => some data
  | _ => none

def asToken : Block → Option MoeToken
  | token t => some t
  | _ => none

def asTokenNode : Block → Option TokenStreamNode
  | tokenNode n => some n
  | _ => none

def asDeriveArgs : Block → Option (List (Option MoeDeriveArg))
  | deriveArgs args => some args
  | _ => none

def asDeriveItems : Block → Option (List (Option MoeDeriveItem))
  | deriveItems items => some items
  | _ => none

def asDerivedStruct : Block → Option MoeDerivedStruct
  | derivedStruct d => some d
  | _ => none

/-- The list node embedded in a block. -/
def listNode? : Block → Option MoeListNode
  | tokenNode n => some n.listNode
  | derivedStruct d => some d.metadata
  | _ => none

def setListNode (n : MoeListNode) : Block → Block
  | tokenNode t => tokenNode { t with listNode := n }
  | derivedStruct d => derivedStruct { d with metadata := n }
  | b => b

theorem listNode?_setListNode {b : Block} {n : MoeListNode} (held : b.listNode?.isSome = true) :
    (b.setListNode n).listNode? = some n := by
  cases b <;> simp_all [listNode?, setListNode]

end Block

/-- `moe__alloc_stats_t`. -/
structure MoeAllocStats where
  totalAllocated : Nat
  totalFreed : Nat
deriving DecidableEq, Repr

structure Mem where
  heap : Heap Block
  stats : MoeAllocStats
deriving DecidableEq, Repr

/-- The memory before the first allocation. -/
def Mem.empty : Mem := ⟨Heap.empty, ⟨0, 0⟩⟩

/-- `moe_malloc` and `moe_calloc`: count, then allocate. -/
def moeMalloc (b : Block) : C Mem Addr := fun m =>
  .ok (m.heap.next,
    ⟨m.heap.alloc b, { m.stats with totalAllocated := m.stats.totalAllocated + 1 }⟩)

/-- `moe_free`: count, then free. `free(NULL)` does nothing, and a second free of a
block is undefined. -/
def moeFree (p : Ptr) : C Mem Unit := fun m =>
  let stats := { m.stats with totalFreed := m.stats.totalFreed + 1 }
  match p with
  | none => .ok ((), ⟨m.heap, stats⟩)
  | some a =>
    match m.heap.load a with
    | none => .error .danglingPointer
    | some _ => .ok ((), ⟨m.heap.free a, stats⟩)

/-- `moe_check_memory_leak`. -/
def moeCheckMemoryLeak (build : Build) : C Mem Unit :=
  moeAssert build do
    let m ← get
    pure (m.stats.totalAllocated = m.stats.totalFreed)

theorem moeCheckMemoryLeak_ok {m m' : Mem} : moeCheckMemoryLeak .assertions m = .ok ((), m') ↔
    m.stats.totalAllocated = m.stats.totalFreed ∧ m' = m := by
  rw [moeCheckMemoryLeak, moeAssert_ok, Exec.bind_ok (Exec.get_apply m)]
  constructor
  · intro passed
    obtain ⟨equal, same⟩ := Prod.mk.inj (Except.ok.inj passed)
    exact ⟨of_decide_eq_true equal, same.symm⟩
  · rintro ⟨equal, rfl⟩
    exact congrArg (fun b => Except.ok (b, m')) (decide_eq_true equal)

/-- Read a block as a value of the type the pointer has. -/
def loadAs {α : Type} (as : Block → Option α) (p : Ptr) : C Mem α := fun m =>
  match p with
  | none => .error .nullPointer
  | some a =>
    match m.heap.load a with
    | none => .error .danglingPointer
    | some b =>
      match as b with
      | none => .error .uninitialized
      | some x => .ok (x, m)

/-- Write a live block. -/
def storeBlock (a : Addr) (b : Block) : C Mem Unit := fun m =>
  match m.heap.load a with
  | none => .error .danglingPointer
  | some _ => .ok ((), { m with heap := m.heap.store a b })

instance : NodeStore Mem where
  node? m a := (m.heap.load a).bind Block.listNode?
  setNode m a n :=
    match m.heap.load a with
    | none => m
    | some b => { m with heap := m.heap.store a (b.setListNode n) }
  node?_setNode := by
    intro m a n c held
    cases found : m.heap.load a with
    | none => simp [found] at held
    | some b =>
      simp only [found, Option.bind_some] at held ⊢
      rw [Heap.load_store]
      by_cases same : a = c
      · subst same
        simp [Heap.load_lt found, Block.listNode?_setListNode held]
      · simp [same, Ne.symm same]

/-- The blocks of a memory region, by address. -/
abbrev Footprint := Multiset (Addr × Block)

/-- `m` is `m₀` with exactly the blocks `f` added. -/
structure Owns (m₀ m : Mem) (f : Footprint) : Prop where
  holds : m₀.heap.Holds m.heap f
  balance : m.stats.totalAllocated + m₀.stats.totalFreed =
    m₀.stats.totalAllocated + m.stats.totalFreed + Multiset.card f
  counted : m.stats.totalAllocated + m₀.heap.next = m₀.stats.totalAllocated + m.heap.next

theorem owns_refl (m : Mem) : Owns m m 0 :=
  ⟨Heap.holds_refl m.heap, by simp, rfl⟩

section Rules

variable {α : Type} {m₀ m : Mem} {f r : Footprint} {a : Addr} {b : Block}

theorem moeMalloc_owns (owned : Owns m₀ m f) (b : Block) :
    ∃ a m', moeMalloc b m = .ok (a, m') ∧ Owns m₀ m' ({(a, b)} + f) := by
  refine ⟨_, _, rfl, owned.holds.alloc b, ?_, ?_⟩
  · have balance := owned.balance
    simp only [Multiset.card_add, Multiset.card_singleton]
    omega
  · have counted := owned.counted
    have fresh := Heap.next_alloc m.heap b
    simp only [fresh]
    omega

theorem moeFree_owns (owned : Owns m₀ m f) (split : f = {(a, b)} + r) :
    ∃ m', moeFree (some a) m = .ok ((), m') ∧ Owns m₀ m' r := by
  have found := owned.holds.load (a := a) (b := b) (by simp [split])
  refine ⟨⟨m.heap.free a, { m.stats with totalFreed := m.stats.totalFreed + 1 }⟩, ?_,
    owned.holds.free split, ?_, ?_⟩
  · simp only [moeFree, found]
  · have balance := owned.balance
    rw [split] at balance
    simp only [Multiset.card_add, Multiset.card_singleton] at balance ⊢
    omega
  · have counted := owned.counted
    simpa using counted

theorem loadAs_owns (as : Block → Option α) {x : α} (owned : Owns m₀ m f) (mem : (a, b) ∈ f)
    (value : as b = some x) : loadAs as (some a) m = .ok (x, m) := by
  simp only [loadAs, owned.holds.load mem, value]

theorem storeBlock_owns (owned : Owns m₀ m f) (split : f = {(a, b)} + r) (b' : Block) :
    ∃ m', storeBlock a b' m = .ok ((), m') ∧ Owns m₀ m' ({(a, b')} + r) := by
  have found := owned.holds.load (a := a) (b := b) (by simp [split])
  refine ⟨{ m with heap := m.heap.store a b' }, ?_, owned.holds.store split b', ?_, ?_⟩
  · simp only [storeBlock, found]
  · have balance := owned.balance
    rw [split] at balance
    simpa using balance
  · have counted := owned.counted
    simpa using counted

/-- The node blocks of a list: `wrap x n` is the block at `x` when its node is `n`. -/
def nodeBlocks (wrap : Addr → MoeListNode → Block) (k : Links) (xs : List Addr) : Footprint :=
  (xs.map fun x => (x, wrap x ⟨k.next x, k.prev x⟩) : List (Addr × Block))

@[simp] theorem nodeBlocks_nil (wrap : Addr → MoeListNode → Block) (k : Links) :
    nodeBlocks wrap k [] = 0 := rfl

@[simp] theorem nodeBlocks_cons (wrap : Addr → MoeListNode → Block) (k : Links) (x : Addr)
    (xs : List Addr) :
    nodeBlocks wrap k (x :: xs) = {(x, wrap x ⟨k.next x, k.prev x⟩)} + nodeBlocks wrap k xs := by
  simp [nodeBlocks, ← Multiset.cons_coe]

@[simp] theorem card_nodeBlocks (wrap : Addr → MoeListNode → Block) (k : Links) (xs : List Addr) :
    Multiset.card (nodeBlocks wrap k xs) = xs.length := by
  simp [nodeBlocks]

theorem nodeBlocks_append (wrap : Addr → MoeListNode → Block) (k : Links) (xs ys : List Addr) :
    nodeBlocks wrap k (xs ++ ys) = nodeBlocks wrap k xs + nodeBlocks wrap k ys := by
  simp [nodeBlocks, ← Multiset.coe_add]

theorem nodeBlocks_congr {wrap wrap' : Addr → MoeListNode → Block} {k k' : Links} {xs : List Addr}
    (same : ∀ x ∈ xs, wrap' x ⟨k'.next x, k'.prev x⟩ = wrap x ⟨k.next x, k.prev x⟩) :
    nodeBlocks wrap' k' xs = nodeBlocks wrap k xs := by
  simp only [nodeBlocks]
  congr 1
  apply List.map_congr_left
  intro x mem
  rw [same x mem]

/-- The blocks of a family of nodes, one of them taken out. -/
theorem nodeBlocks_split {wrap : Addr → MoeListNode → Block} {k : Links} {xs : List Addr}
    (mem : a ∈ xs) : nodeBlocks wrap k xs =
      {(a, wrap a ⟨k.next a, k.prev a⟩)} + nodeBlocks wrap k (xs.erase a) := by
  rw [← nodeBlocks_cons]
  simp only [nodeBlocks]
  exact Multiset.coe_eq_coe.mpr ((List.perm_cons_erase mem).map _)

/-- Owning the blocks of a family of nodes gives access to their links. -/
theorem nodeBlocks_view {wrap : Addr → MoeListNode → Block} {xs : List Addr} (nodup : xs.Nodup)
    (node : ∀ x n, (wrap x n).listNode? = some n)
    (set : ∀ x n n', (wrap x n).setListNode n' = wrap x n') :
    LinkView (fun k m => Owns m₀ m (nodeBlocks wrap k xs + r)) (· ∈ xs) where
  read := by
    intro k m a owned here
    have mem : (a, wrap a ⟨k.next a, k.prev a⟩) ∈ nodeBlocks wrap k xs + r := by
      simp [nodeBlocks_split here]
    simp only [NodeStore.node?, owned.holds.load mem, Option.bind_some, node]
  write := by
    intro k m a n owned here
    have split : nodeBlocks wrap k xs + r =
        {(a, wrap a ⟨k.next a, k.prev a⟩)} + (nodeBlocks wrap k (xs.erase a) + r) := by
      rw [nodeBlocks_split here, add_assoc]
    have found := owned.holds.load (a := a) (b := wrap a ⟨k.next a, k.prev a⟩) (by simp [split])
    obtain ⟨m', run, owned'⟩ := storeBlock_owns owned split (wrap a n)
    have target : NodeStore.setNode m a n = m' := by
      simp only [storeBlock, found, Except.ok.injEq, Prod.mk.injEq, true_and] at run
      simp only [NodeStore.setNode, found, set, run]
    have rest : nodeBlocks wrap ((k.setNext a n.next).setPrev a n.prev) (xs.erase a) =
        nodeBlocks wrap k (xs.erase a) := by
      apply nodeBlocks_congr
      intro x mem
      have ne : x ≠ a := fun same => (nodup.not_mem_erase (same ▸ mem))
      simp [Links.setNext_next, Links.setPrev_prev, ne]
    rw [target, nodeBlocks_split here, rest]
    simpa [Links.setNext_next, Links.setPrev_prev, add_assoc] using owned'

end Rules

end MoeToolchain
