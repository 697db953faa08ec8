import MoeToolchain.ProcMacro.Types
import MoeToolchain.Common.MoeListTraversals
import Mathlib.Algebra.BigOperators.Group.Multiset.Basic

/-!
# What the objects of `proc_macro.c` own

Each function of `ProcMacro.Types` is run here on a memory whose blocks are known.
`StructOwned m₀ f s num v m` says that `m` is `m₀` with the blocks `f` and those of
one derived struct at `s` with the value `v` and `derive_item_num = num`. Creating a
derive item or adding a token extends `v`; `moeDerivedStructFree` gives back all of it
as soon as `num` is the number of items that were created.
-/

namespace MoeToolchain
set_option autoImplicit false
open Lib

/-! ## Tokens -/

/-- The text of a token that owns a string. -/
def TokenValue.text? : TokenValue → Option Bytes
  | identifier text => some text
  | stringLiteral text => some text
  | _ => none

/-- The addresses of a token and of its string, which numbers do not have. -/
structure TokenAt where
  token : Addr
  text : StringAt
deriving DecidableEq, Repr

/-- The `moe_token_t` with a given value. -/
def TokenAt.object (l : TokenAt) : TokenValue → MoeToken
  | .identifier _ => ⟨.identifier, .strValue l.text.handle⟩
  | .stringLiteral _ => ⟨.stringLiteral, .strValue l.text.handle⟩
  | .punctuation v => ⟨.punctuation, .intValue v⟩
  | .intLiteral v => ⟨.intLiteral, .intValue v⟩
  | .floatLiteral v => ⟨.floatLiteral, .floatValue v⟩

def textBlocks (l : StringAt) : Option Bytes → Footprint
  | some text => strBlocks l text
  | none => 0

def tokenBlocks (l : TokenAt) (v : TokenValue) : Footprint :=
  {(l.token, .token (l.object v))} + textBlocks l.text v.text?

section Tokens

variable {m₀ m : Mem} {f r : Footprint} {l : TokenAt} {v : TokenValue} {b c : Bytes}

theorem moeTokenCreateText_owns {type : MoeTokenType} {len : Nat} (owned : Owns m₀ m f)
    (content : stringContent (some b) len = some c)
    (same : ∀ l : TokenAt, l.object v = ⟨type, .strValue l.text.handle⟩) (text : v.text? = some c) :
    ∃ l m', moeTokenCreateText type b len m = .ok (l.token, m') ∧ Owns m₀ m' (tokenBlocks l v + f) := by
  obtain ⟨token, m1, run1, owned1⟩ := moeMalloc_owns owned .uninit
  obtain ⟨str, m2, run2, owned2⟩ := moeStringAlloc_owns owned1 content
  obtain ⟨m3, run3, owned3⟩ := storeBlock_owns owned2 (add_left_comm _ _ _)
    (.token ⟨type, .strValue str.handle⟩)
  refine ⟨⟨token, str⟩, m3, ?_, ?_⟩
  · rw [moeTokenCreateText, Exec.bind_ok run1, Exec.bind_ok run2, Exec.bind_ok run3]
    rfl
  · rw [tokenBlocks, same, text, add_assoc]
    exact owned3

theorem moeTokenCreateScalar_owns {type : MoeTokenType} {value : MoeTokenUnion} (owned : Owns m₀ m f)
    (same : ∀ l : TokenAt, l.object v = ⟨type, value⟩) (text : v.text? = none) :
    ∃ l m', moeTokenCreateScalar type value m = .ok (l.token, m') ∧
      Owns m₀ m' (tokenBlocks l v + f) := by
  obtain ⟨token, m1, run1, owned1⟩ := moeMalloc_owns owned .uninit
  obtain ⟨m2, run2, owned2⟩ := storeBlock_owns owned1 rfl (.token ⟨type, value⟩)
  refine ⟨⟨token, ⟨0, 0, 0⟩⟩, m2, ?_, ?_⟩
  · rw [moeTokenCreateScalar, Exec.bind_ok run1, Exec.bind_ok run2]
    rfl
  · rw [tokenBlocks, same, text]
    simpa [textBlocks] using owned2

theorem moeTokenFree_owns (owned : Owns m₀ m f) (split : f = tokenBlocks l v + r) :
    ∃ m', moeTokenFree (some l.token) m = .ok ((), m') ∧ Owns m₀ m' r := by
  have here : (l.token, .token (l.object v)) ∈ f := by
    simp [split, tokenBlocks]
  have read := loadAs_owns Block.asToken owned here rfl
  cases text : v.text? with
  | none =>
    have plain : f = {(l.token, .token (l.object v))} + r := by
      simp [split, tokenBlocks, text, textBlocks]
    obtain ⟨m1, run1, owned1⟩ := moeFree_owns owned plain
    refine ⟨m1, ?_, owned1⟩
    rw [moeTokenFree, Exec.bind_ok read]
    cases v with
    | identifier t => cases text
    | stringLiteral t => cases text
    | _ => exact run1
  | some t =>
    have string : f = strBlocks l.text t + ({(l.token, .token (l.object v))} + r) := by
      rw [split, tokenBlocks, text, textBlocks]
      abel
    obtain ⟨m1, run1, owned1⟩ := moeStringFree_owns owned string
    obtain ⟨m2, run2, owned2⟩ := moeFree_owns owned1 rfl
    refine ⟨m2, ?_, owned2⟩
    rw [moeTokenFree, Exec.bind_ok read]
    cases v with
    | identifier t' =>
      simp only [TokenAt.object, true_or, if_true]
      rw [Exec.bind_ok run1, run2]
    | stringLiteral t' =>
      simp only [TokenAt.object, or_true, if_true]
      rw [Exec.bind_ok run1, run2]
    | _ => cases text

theorem readString_owns {s : StringAt} (owned : Owns m₀ m f) (split : f = strBlocks s b + r) :
    readString s.handle m = .ok (b, m) := by
  have handle : (s.handle, .string ⟨s.internal, b.length, b.length + 1⟩) ∈ f := by
    simp [split, strBlocks]
  have data : (s.data, .chars (b ++ [0])) ∈ f := by
    simp [split, strBlocks]
  rw [readString, Exec.bind_ok (loadAs_owns Block.asString owned handle rfl),
    Exec.bind_ok (moeStringGet_owns owned split), Exec.bind_ok (loadAs_owns Block.asChars owned data rfl),
    if_neg (by simp)]
  simp

theorem readToken_owns (owned : Owns m₀ m f) (split : f = tokenBlocks l v + r) :
    readToken l.token m = .ok (v, m) := by
  have here : (l.token, .token (l.object v)) ∈ f := by
    simp [split, tokenBlocks]
  have read := loadAs_owns Block.asToken owned here rfl
  have string : ∀ t, v.text? = some t →
      f = strBlocks l.text t + ({(l.token, .token (l.object v))} + r) := by
    intro t text
    rw [split, tokenBlocks, text, textBlocks]
    abel
  rw [readToken, Exec.bind_ok read]
  cases v with
  | identifier t =>
    simp only [TokenAt.object]
    rw [Exec.bind_ok (readString_owns owned (string t rfl))]
    rfl
  | stringLiteral t =>
    simp only [TokenAt.object]
    rw [Exec.bind_ok (readString_owns owned (string t rfl))]
    rfl
  | _ => rfl

end Tokens

/-! ## Derived structs -/

/-- A created derive item. -/
structure ItemEntry where
  name : StringAt
  args : Addr
  handler : Bytes
deriving DecidableEq, Repr

/-- A token of the metadata list. -/
structure TokenEntry where
  place : TokenAt
  value : TokenValue
deriving DecidableEq, Repr

def ItemEntry.object (e : ItemEntry) : MoeDeriveItem := ⟨some e.name.handle, 0, some e.args⟩

def itemBlocks (e : ItemEntry) : Footprint :=
  strBlocks e.name e.handler + {(e.args, .deriveArgs [])}

/-- The item array: the created items, then the ones never written. -/
def itemSlots (es : List ItemEntry) : List (Option MoeDeriveItem) :=
  es.map (fun e => some e.object) ++ List.replicate (moeProcMacroMaxDeriveItemNum - es.length) none

/-- The addresses of a derived struct that stay the same while it is built. -/
structure StructAt where
  addr : Addr
  name : StringAt
  items : Addr
deriving DecidableEq, Repr

/-- The rest of it: the created items, and the list nodes with their links and tokens. -/
structure StructLayout where
  items : List ItemEntry
  links : Links
  nodes : List Addr
  entry : Addr → TokenEntry

/-- The block of a node of the metadata list; the sentinel is in the struct itself. -/
def structNode (s : StructAt) (num : Nat) (entry : Addr → TokenEntry) (x : Addr) (n : MoeListNode) :
    Block :=
  if x = s.addr then .derivedStruct ⟨some s.name.handle, num, s.items, n⟩
  else .tokenNode ⟨n, (entry x).place.token⟩

def entryBlocks (e : TokenEntry) : Footprint := tokenBlocks e.place e.value

def structBlocks (s : StructAt) (num : Nat) (name : Bytes) (l : StructLayout) : Footprint :=
  nodeBlocks (structNode s num l.entry) l.links (s.addr :: l.nodes) +
    (strBlocks s.name name + ({(s.items, .deriveItems (itemSlots l.items))} +
      ((l.items.map itemBlocks).sum + (l.nodes.map fun x => entryBlocks (l.entry x)).sum)))

/-- The layout `l` at `s` holds the value `v`. -/
structure StructLayout.Represents (l : StructLayout) (s : StructAt) (v : DerivedStruct) : Prop where
  ring : LinkRing l.links s.addr l.nodes
  few : l.items.length ≤ moeProcMacroMaxDeriveItemNum
  handlers : l.items.map ItemEntry.handler = v.handlers
  metadata : (l.nodes.map fun x => (l.entry x).value) = v.metadata

/-- `m` is `m₀` with the blocks `f` and those of a derived struct at `s`. -/
def StructOwned (m₀ : Mem) (f : Footprint) (s : StructAt) (num : Nat) (v : DerivedStruct) (m : Mem) :
    Prop :=
  ∃ l : StructLayout, l.Represents s v ∧ Owns m₀ m (structBlocks s num v.structName l + f)

theorem structNode_listNode (s : StructAt) (num : Nat) (entry : Addr → TokenEntry) (x : Addr)
    (n : MoeListNode) : (structNode s num entry x n).listNode? = some n := by
  unfold structNode
  split <;> rfl

theorem structNode_setListNode (s : StructAt) (num : Nat) (entry : Addr → TokenEntry) (x : Addr)
    (n n' : MoeListNode) :
    (structNode s num entry x n).setListNode n' = structNode s num entry x n' := by
  unfold structNode
  split <;> rfl

theorem structNode_self (s : StructAt) (num : Nat) (entry : Addr → TokenEntry) (n : MoeListNode) :
    structNode s num entry s.addr n = .derivedStruct ⟨some s.name.handle, num, s.items, n⟩ :=
  if_pos rfl

theorem structNode_other {s : StructAt} {x : Addr} (other : x ≠ s.addr) (num : Nat)
    (entry : Addr → TokenEntry) (n : MoeListNode) :
    structNode s num entry x n = .tokenNode ⟨n, (entry x).place.token⟩ :=
  if_neg other

@[simp] theorem length_itemSlots {es : List ItemEntry} (few : es.length ≤ moeProcMacroMaxDeriveItemNum) :
    (itemSlots es).length = moeProcMacroMaxDeriveItemNum := by
  simp only [itemSlots, List.length_append, List.length_map, List.length_replicate]
  omega

theorem itemSlots_get {es : List ItemEntry} {i : Nat} (here : i < es.length) :
    (itemSlots es)[i]? = some (some es[i].object) := by
  rw [itemSlots, List.getElem?_append_left (by simpa using here)]
  simp [here]

/-- Writing the first unwritten slot. -/
theorem itemSlots_set {es : List ItemEntry} (room : es.length < moeProcMacroMaxDeriveItemNum)
    (e : ItemEntry) : (itemSlots es).set es.length (some e.object) = itemSlots (es ++ [e]) := by
  obtain ⟨k, left⟩ : ∃ k, moeProcMacroMaxDeriveItemNum - es.length = k + 1 :=
    ⟨moeProcMacroMaxDeriveItemNum - es.length - 1, by omega⟩
  have left' : moeProcMacroMaxDeriveItemNum - (es.length + 1) = k := by omega
  simp [itemSlots, left, left', List.replicate_succ]

section Structs

variable {m₀ m : Mem} {f r : Footprint} {s : StructAt} {num : Nat} {v : DerivedStruct} {b : Bytes}

/-- A fresh struct: a name, no item created, an empty token list. -/
theorem moeDerivedStructAlloc_owns (owned : Owns m₀ m f) (b : Bytes) :
    ∃ s m', moeDerivedStructAlloc b moeProcMacroMaxDeriveItemNum m = .ok (s.addr, m') ∧
      StructOwned m₀ f s moeProcMacroMaxDeriveItemNum ⟨cString b, [], []⟩ m' := by
  obtain ⟨addr, m1, run1, owned1⟩ := moeMalloc_owns owned .uninit
  obtain ⟨name, m2, run2, owned2⟩ := moeStringAlloc_owns owned1 (stringContent_cString b)
  obtain ⟨items, m3, run3, owned3⟩ :=
    moeMalloc_owns owned2 (.deriveItems (List.replicate moeProcMacroMaxDeriveItemNum none))
  obtain ⟨m4, run4, owned4⟩ := storeBlock_owns owned3
    (by abel : _ = {(addr, Block.uninit)} + (strBlocks name (cString b) +
      ({(items, Block.deriveItems (List.replicate moeProcMacroMaxDeriveItemNum none))} + f)))
    (.derivedStruct ⟨some name.handle, moeProcMacroMaxDeriveItemNum, items, ⟨none, none⟩⟩)
  -- the struct's block is the only node so far, and its links are both NULL
  let s : StructAt := ⟨addr, name, items⟩
  let entry : Addr → TokenEntry := fun _ => ⟨⟨0, ⟨0, 0, 0⟩⟩, .punctuation 0⟩
  let others : Footprint := strBlocks name (cString b) +
    ({(items, Block.deriveItems (List.replicate moeProcMacroMaxDeriveItemNum none))} + f)
  have view : LinkView (fun k m => Owns m₀ m
      (nodeBlocks (structNode s moeProcMacroMaxDeriveItemNum entry) k [addr] + others)) (· ∈ [addr]) :=
    nodeBlocks_view (by simp) (structNode_listNode s _ entry) (structNode_setListNode s _ entry)
  obtain ⟨m5, links, run5, owned5, ring, -⟩ := moeListNodeInit_ring view
    (k := ⟨fun _ => none, fun _ => none⟩) (s := m4) (n := addr)
    (by simpa [structNode, s, others] using owned4) (by simp)
  refine ⟨s, m5, ?_, ⟨[], links, [], entry⟩, ⟨ring, by simp, rfl, rfl⟩, ?_⟩
  · rw [moeDerivedStructAlloc, Exec.bind_ok run1, Exec.bind_ok run2, Exec.bind_ok run3,
      Exec.bind_ok run4, Exec.bind_ok run5]
    rfl
  · convert owned5 using 1
    simp only [structBlocks, itemSlots, others, s, List.map_nil, List.sum_nil, List.nil_append,
      List.length_nil, Nat.sub_zero, add_zero]
    abel

/-- The struct's own block. -/
theorem StructOwned.load (owned : StructOwned m₀ f s num v m) :
    ∃ n, loadAs Block.asDerivedStruct (some s.addr) m =
      .ok (⟨some s.name.handle, num, s.items, n⟩, m) := by
  obtain ⟨l, -, owns⟩ := owned
  refine ⟨⟨l.links.next s.addr, l.links.prev s.addr⟩, ?_⟩
  apply loadAs_owns Block.asDerivedStruct owns
    (b := structNode s num l.entry s.addr ⟨l.links.next s.addr, l.links.prev s.addr⟩)
  · simp [structBlocks]
  · rw [structNode_self]
    rfl

theorem StructOwned.readName (owned : StructOwned m₀ f s num v m) :
    moeStringRead (some s.name.handle) m = .ok (cString v.structName, m) := by
  obtain ⟨l, -, owns⟩ := owned
  exact moeStringRead_owns owns (by
    rw [structBlocks]
    abel : _ = strBlocks s.name v.structName + (nodeBlocks (structNode s num l.entry) l.links
      (s.addr :: l.nodes) + ({(s.items, .deriveItems (itemSlots l.items))} +
        ((l.items.map itemBlocks).sum + (l.nodes.map fun x => entryBlocks (l.entry x)).sum)) + f))

theorem moeDeriveItemCreate_owns (owned : StructOwned m₀ f s num v m)
    (room : v.handlers.length < moeProcMacroMaxDeriveItemNum) (b : Bytes) :
    ∃ m', moeDeriveItemCreate ⟨s.items, v.handlers.length⟩ b 0 m = .ok ((), m') ∧
      StructOwned m₀ f s num { v with handlers := v.handlers ++ [cString b] } m' := by
  obtain ⟨l, rep, owns⟩ := owned
  have count : l.items.length = v.handlers.length := by
    rw [← rep.handlers, List.length_map]
  obtain ⟨name, m1, run1, owned1⟩ := moeStringAlloc_owns owns (stringContent_cString b)
  obtain ⟨args, m2, run2, owned2⟩ := moeMalloc_owns owned1 (.deriveArgs (List.replicate 0 none))
  let e : ItemEntry := ⟨name, args, cString b⟩
  have split : {(args, Block.deriveArgs (List.replicate 0 none))} + (strBlocks name (cString b) +
      (structBlocks s num v.structName l + f)) = {(s.items, .deriveItems (itemSlots l.items))} +
      (nodeBlocks (structNode s num l.entry) l.links (s.addr :: l.nodes) + (strBlocks s.name v.structName +
        ((l.items.map itemBlocks).sum + itemBlocks e +
          (l.nodes.map fun x => entryBlocks (l.entry x)).sum)) + f) := by
    simp only [structBlocks, itemBlocks, e, List.replicate_zero]
    abel
  have here : (s.items, .deriveItems (itemSlots l.items)) ∈
      {(args, Block.deriveArgs (List.replicate 0 none))} + (strBlocks name (cString b) +
        (structBlocks s num v.structName l + f)) := by
    rw [split]
    simp
  obtain ⟨m3, run3, owned3⟩ := storeBlock_owns owned2 split (.deriveItems (itemSlots (l.items ++ [e])))
  refine ⟨m3, ?_, { l with items := l.items ++ [e] }, ⟨rep.ring, ?_, ?_, rep.metadata⟩, ?_⟩
  · have inside : v.handlers.length < (itemSlots l.items).length := by
      rw [length_itemSlots rep.few]
      exact room
    rw [moeDeriveItemCreate, Exec.bind_ok run1, Exec.bind_ok run2, writeItem,
      Exec.bind_ok (loadAs_owns Block.asDeriveItems owned2 here rfl), if_pos inside, ← count]
    rw [← itemSlots_set (by omega) e] at run3
    exact run3
  · simp only [List.length_append, List.length_singleton]
    omega
  · simp [rep.handlers, e]
  · convert owned3 using 1
    simp only [structBlocks, List.map_append, List.map_singleton, List.sum_append, List.sum_singleton]
    abel

theorem setDeriveItemNum_owns (owned : StructOwned m₀ f s num v m) (n : Nat) :
    ∃ m', setDeriveItemNum s.addr n m = .ok ((), m') ∧ StructOwned m₀ f s n v m' := by
  obtain ⟨l, rep, owns⟩ := owned
  have others : nodeBlocks (structNode s n l.entry) l.links l.nodes =
      nodeBlocks (structNode s num l.entry) l.links l.nodes := by
    apply nodeBlocks_congr
    intro x mem
    have other : x ≠ s.addr := fun same => (List.nodup_cons.mp rep.ring.nodup).1 (same ▸ mem)
    rw [structNode_other other, structNode_other other]
  have split : structBlocks s num v.structName l + f =
      {(s.addr, structNode s num l.entry s.addr ⟨l.links.next s.addr, l.links.prev s.addr⟩)} +
        (nodeBlocks (structNode s num l.entry) l.links l.nodes + (strBlocks s.name v.structName +
          ({(s.items, .deriveItems (itemSlots l.items))} + ((l.items.map itemBlocks).sum +
            (l.nodes.map fun x => entryBlocks (l.entry x)).sum))) + f) := by
    rw [structBlocks, nodeBlocks_cons]
    abel
  have stored := loadAs_owns Block.asDerivedStruct owns (a := s.addr)
    (b := structNode s num l.entry s.addr ⟨l.links.next s.addr, l.links.prev s.addr⟩)
    (by simp [split]) (by rw [structNode_self]; rfl)
  obtain ⟨m1, run1, owned1⟩ := storeBlock_owns owns split
    (structNode s n l.entry s.addr ⟨l.links.next s.addr, l.links.prev s.addr⟩)
  refine ⟨m1, ?_, l, rep, ?_⟩
  · rw [setDeriveItemNum, Exec.bind_ok stored]
    rw [structNode_self] at run1
    exact run1
  · convert owned1 using 1
    rw [structBlocks, nodeBlocks_cons, others]
    abel

/-- An address of a footprint is not the address of another of its blocks. -/
theorem Owns.apart {a c : Addr} {x y : Block} (owned : Owns m₀ m ({(a, x)} + f)) (mem : (c, y) ∈ f) :
    c ≠ a := by
  intro same
  have nodup := owned.holds.nodup
  rw [Multiset.singleton_add, Multiset.map_cons, Multiset.nodup_cons] at nodup
  exact nodup.1 (Multiset.mem_map.mpr ⟨(c, y), mem, same⟩)

theorem mem_nodeBlocks {wrap : Addr → MoeListNode → Block} {k : Links} {xs : List Addr} {x : Addr}
    (mem : x ∈ xs) : (x, wrap x ⟨k.next x, k.prev x⟩) ∈ nodeBlocks wrap k xs := by
  rw [nodeBlocks_split mem]
  simp

/-- A new node is a ring of its own. -/
theorem moeStructMetadataTokenStreamNodeAlloc_owns (owned : Owns m₀ m f) (token : Addr) :
    ∃ node m', moeStructMetadataTokenStreamNodeAlloc token m = .ok (node, m') ∧
      Owns m₀ m' ({(node, .tokenNode ⟨⟨some node, some node⟩, token⟩)} + f) := by
  obtain ⟨node, m1, run1, owned1⟩ := moeMalloc_owns owned .uninit
  obtain ⟨m2, run2, owned2⟩ := storeBlock_owns owned1 rfl (.tokenNode ⟨⟨none, none⟩, token⟩)
  have view : LinkView (fun k m => Owns m₀ m (nodeBlocks (fun _ n => .tokenNode ⟨n, token⟩) k [node] + f))
      (· ∈ [node]) :=
    nodeBlocks_view (by simp) (fun _ _ => rfl) (fun _ _ _ => rfl)
  obtain ⟨m3, links, run3, owned3, ring, -⟩ := moeListNodeInit_ring view
    (k := ⟨fun _ => none, fun _ => none⟩) (s := m2) (n := node) (by simpa using owned2) (by simp)
  obtain ⟨next, prev⟩ := ring_nil.mp ring
  refine ⟨node, m3, ?_, ?_⟩
  · rw [moeStructMetadataTokenStreamNodeAlloc, Exec.bind_ok run1, Exec.bind_ok run2, Exec.bind_ok run3]
    rfl
  · simpa [next, prev] using owned3

/-- Adding a token that is already there to the end of the list. -/
theorem moeDeriveStructMetadataAddToken_owns {p : TokenAt} {t : TokenValue}
    (owned : StructOwned m₀ (tokenBlocks p t + f) s num v m) :
    ∃ m', moeDeriveStructMetadataAddToken (some s.addr) p.token m = .ok ((), m') ∧
      StructOwned m₀ f s num { v with metadata := v.metadata ++ [t] } m' := by
  obtain ⟨l, rep, owns⟩ := owned
  obtain ⟨node, m1, run1, owned1⟩ := moeStructMetadataTokenStreamNodeAlloc_owns owns p.token
  have fresh : node ∉ s.addr :: l.nodes := by
    intro mem
    have found : (node, structNode s num l.entry node ⟨l.links.next node, l.links.prev node⟩) ∈
        structBlocks s num v.structName l + (tokenBlocks p t + f) := by
      simp only [structBlocks, Multiset.mem_add]
      exact Or.inl (Or.inl (mem_nodeBlocks mem))
    exact owned1.apart found rfl
  have apart : ∀ x ∈ s.addr :: l.nodes, x ≠ node := fun x mem same => fresh (same ▸ mem)
  have other : node ≠ s.addr := (apart s.addr List.mem_cons_self).symm
  -- the node comes in with links to itself, and with its token
  let entry := Function.update l.entry node ⟨p, t⟩
  let links := (l.links.setNext node (some node)).setPrev node (some node)
  let others : Footprint := strBlocks s.name v.structName +
    ({(s.items, .deriveItems (itemSlots l.items))} + ((l.items.map itemBlocks).sum +
      ((l.nodes.map fun x => entryBlocks (l.entry x)).sum + (tokenBlocks p t + f))))
  have old : nodeBlocks (structNode s num entry) links (s.addr :: l.nodes) =
      nodeBlocks (structNode s num l.entry) l.links (s.addr :: l.nodes) := by
    apply nodeBlocks_congr
    intro x mem
    simp [structNode, entry, links, Links.setNext_next, Links.setPrev_prev, apart x mem]
  have ring : LinkRing links s.addr l.nodes := by
    apply rep.ring.congr
    · intro x mem
      simp [links, Links.setNext_next, apart x mem]
    · intro x mem
      simp [links, Links.setPrev_prev, apart x mem]
  have start : Owns m₀ m1 (nodeBlocks (structNode s num entry) links (node :: s.addr :: l.nodes) + others) := by
    convert owned1 using 1
    rw [nodeBlocks_cons, old, structNode_other other]
    simp only [entry, links, others, Function.update_self, structBlocks, Links.setNext_next,
      Links.setPrev_prev, Links.setPrev_next, if_true]
    abel
  have view : LinkView (fun k m => Owns m₀ m
      (nodeBlocks (structNode s num entry) k (node :: s.addr :: l.nodes) + others))
      (· ∈ node :: s.addr :: l.nodes) :=
    nodeBlocks_view (List.nodup_cons.mpr ⟨fresh, rep.ring.nodup⟩) (structNode_listNode s num entry)
      (structNode_setListNode s num entry)
  obtain ⟨m2, links', run2, owned2, ring', -⟩ :=
    moeListAddTail_ring view start ring fresh (fun x mem => mem)
  have kept : ∀ x ∈ l.nodes, entry x = l.entry x :=
    fun x mem => Function.update_of_ne (apart x (List.mem_cons_of_mem _ mem)) _ _
  have tokens : (l.nodes.map fun x => entryBlocks (entry x)) =
      l.nodes.map fun x => entryBlocks (l.entry x) := by
    apply List.map_congr_left
    intro x mem
    rw [kept x mem]
  refine ⟨m2, ?_, ⟨l.items, links', l.nodes ++ [node], entry⟩, ⟨ring', rep.few, rep.handlers, ?_⟩, ?_⟩
  · rw [moeDeriveStructMetadataAddToken, Exec.bind_ok run1, run2]
  · rw [← rep.metadata, List.map_append]
    congr 1
    · apply List.map_congr_left
      exact fun x mem => congrArg TokenEntry.value (kept x mem)
    · simp [entry]
  · convert owned2 using 1
    have added : entryBlocks (entry node) = tokenBlocks p t := by
      simp [entry, entryBlocks]
    simp only [structBlocks, others, List.map_append, List.map_singleton, List.sum_append,
      List.sum_singleton, tokens, added, nodeBlocks_cons, nodeBlocks_append, nodeBlocks_nil]
    abel

theorem readItem_owns {items : List ItemEntry} {a : Addr} {i : Nat}
    (owned : Owns m₀ m ({(a, .deriveItems (itemSlots items))} + f)) (here : i < items.length) :
    readItem ⟨a, i⟩ m = .ok (items[i].object, m) := by
  have array : (a, Block.deriveItems (itemSlots items)) ∈
      ({(a, Block.deriveItems (itemSlots items))} + f : Footprint) := by simp
  rw [readItem, Exec.bind_ok (loadAs_owns Block.asDeriveItems owned array rfl), elementAt,
    itemSlots_get here]
  rfl

theorem moeDeriveItemDestroy_owns {items : List ItemEntry} {a : Addr} {i : Nat}
    (owned : Owns m₀ m ({(a, .deriveItems (itemSlots items))} + f)) (here : i < items.length)
    (split : f = itemBlocks items[i] + r) :
    ∃ m', moeDeriveItemDestroy ⟨a, i⟩ m = .ok ((), m') ∧
      Owns m₀ m' ({(a, .deriveItems (itemSlots items))} + r) := by
  have read := readItem_owns owned here
  obtain ⟨m1, run1, owned1⟩ := moeStringFree_owns owned (by
    rw [split, itemBlocks]
    abel : _ = strBlocks items[i].name items[i].handler + ({(items[i].args, Block.deriveArgs [])} +
      ({(a, Block.deriveItems (itemSlots items))} + r)))
  obtain ⟨m2, run2, owned2⟩ := moeFree_owns owned1 rfl
  refine ⟨m2, ?_, owned2⟩
  rw [moeDeriveItemDestroy, Exec.bind_ok read]
  simp only [ItemEntry.object, List.range_zero, List.forM_nil, pure_bind]
  rw [Exec.bind_ok run1, run2]

/-- The loop over the items, from the first one not yet destroyed. -/
theorem destroyItems_owns {a : Addr} (rest : List ItemEntry) :
    ∀ {done : List ItemEntry} {m : Mem},
      Owns m₀ m ({(a, .deriveItems (itemSlots (done ++ rest)))} + ((rest.map itemBlocks).sum + r)) →
      ∃ m', forM (List.range' done.length rest.length) (fun i => moeDeriveItemDestroy ⟨a, i⟩) m =
          .ok ((), m') ∧
        Owns m₀ m' ({(a, .deriveItems (itemSlots (done ++ rest)))} + r) := by
  induction rest with
  | nil =>
    intro done m owned
    exact ⟨m, rfl, by simpa using owned⟩
  | cons e rest ih =>
    intro done m owned
    have here : done.length < (done ++ e :: rest).length := by simp
    obtain ⟨m1, run1, owned1⟩ := moeDeriveItemDestroy_owns owned here (by
      simp only [List.getElem_append_right (Nat.le_refl _), Nat.sub_self, List.getElem_cons_zero,
        List.map_cons, List.sum_cons]
      exact add_assoc _ _ _)
    rw [List.append_cons] at owned1
    obtain ⟨m2, run2, owned2⟩ := ih owned1
    rw [← List.append_cons] at owned2
    refine ⟨m2, ?_, owned2⟩
    rw [List.length_cons, List.range'_succ, List.forM_cons, Exec.bind_ok run1]
    simpa using run2

/-- The nodes of a stream are linked in the memory as they are in `k`. -/
theorem streamLinks {entry : Addr → TokenEntry} {k : Links} {nodes : List Addr} (nodup : (s.addr :: nodes).Nodup)
    (owned : Owns m₀ m (nodeBlocks (structNode s num entry) k (s.addr :: nodes) + r)) :
    ∀ a ∈ s.addr :: nodes, (linksOf m).next a = k.next a ∧ (linksOf m).prev a = k.prev a := by
  intro a mem
  have view : LinkView (fun k m => Owns m₀ m (nodeBlocks (structNode s num entry) k (s.addr :: nodes) + r))
      (· ∈ s.addr :: nodes) :=
    nodeBlocks_view nodup (structNode_listNode s num entry) (structNode_setListNode s num entry)
  simp [linksOf, view.read owned mem]

theorem streamRing {entry : Addr → TokenEntry} {k : Links} {nodes : List Addr} (ring : LinkRing k s.addr nodes)
    (owned : Owns m₀ m (nodeBlocks (structNode s num entry) k (s.addr :: nodes) + r)) :
    LinkRing (linksOf m) s.addr nodes :=
  ring.congr (fun a mem => (streamLinks ring.nodup owned a mem).1) fun a mem => (streamLinks ring.nodup owned a mem).2

/-- The callback of `moe_struct_metadata_destroy` gives back its node and the token. -/
theorem clearIterator_owns {entry : Addr → TokenEntry} {k : Links} {x : Addr} {nodes : List Addr}
    (other : x ≠ s.addr)
    (owned : Owns m₀ m (nodeBlocks (structNode s num entry) k (s.addr :: x :: nodes) +
      (((x :: nodes).map fun x => entryBlocks (entry x)).sum + r))) :
    ∃ m', moeDeriveStructMetadataClearIterator (some x) m = .ok ((), m') ∧
      Owns m₀ m' (nodeBlocks (structNode s num entry) k (s.addr :: nodes) +
        ((nodes.map fun x => entryBlocks (entry x)).sum + r)) := by
  have split : nodeBlocks (structNode s num entry) k (s.addr :: x :: nodes) +
      (((x :: nodes).map fun x => entryBlocks (entry x)).sum + r) =
      tokenBlocks (entry x).place (entry x).value +
        ({(x, .tokenNode ⟨⟨k.next x, k.prev x⟩, (entry x).place.token⟩)} +
          (nodeBlocks (structNode s num entry) k (s.addr :: nodes) +
            ((nodes.map fun x => entryBlocks (entry x)).sum + r))) := by
    rw [nodeBlocks_cons, nodeBlocks_cons, nodeBlocks_cons, structNode_other other, List.map_cons,
      List.sum_cons, entryBlocks]
    abel
  have node : (x, Block.tokenNode ⟨⟨k.next x, k.prev x⟩, (entry x).place.token⟩) ∈
      nodeBlocks (structNode s num entry) k (s.addr :: x :: nodes) +
        (((x :: nodes).map fun x => entryBlocks (entry x)).sum + r) := by
    rw [split]
    simp
  obtain ⟨m1, run1, owned1⟩ := moeTokenFree_owns owned split
  obtain ⟨m2, run2, owned2⟩ := moeFree_owns owned1 rfl
  refine ⟨m2, ?_, owned2⟩
  rw [moeDeriveStructMetadataClearIterator, moeStructMetadataTokenStreamNodeFree,
    Exec.bind_ok (loadAs_owns Block.asTokenNode owned node rfl), Exec.bind_ok run1, run2]

/-- The traversal gives back the token stream; of the nodes the sentinel alone is left. -/
theorem moeStructMetadataDestroy_owns {entry : Addr → TokenEntry} {k : Links} {nodes : List Addr}
    (ring : LinkRing k s.addr nodes)
    (owned : Owns m₀ m (nodeBlocks (structNode s num entry) k (s.addr :: nodes) +
      ((nodes.map fun x => entryBlocks (entry x)).sum + r))) :
    ∃ m', moeStructMetadataDestroy (some s.addr) m = .ok ((), m') ∧
      Owns m₀ m' (nodeBlocks (structNode s num entry) k [s.addr] + r) := by
  have enough : nodes.length < m.heap.next + 1 := by
    have card := owned.holds.card_le
    simp only [Multiset.card_add, card_nodeBlocks, List.length_cons] at card
    omega
  obtain ⟨m', run, -, -, -, rest⟩ := iterateSafe_calls moeDeriveStructMetadataClearIterator
    (fun later m => (s.addr :: later).Nodup ∧ LeadsTo k.next later s.addr ∧
      Owns m₀ m (nodeBlocks (structNode s num entry) k (s.addr :: later) +
        ((later.map fun x => entryBlocks (entry x)).sum + r)))
    (streamRing ring owned) enough
    ⟨ring.nodup, (leadsTo_cons.mp ring.path.forward).2, owned⟩
    (by
      rintro later m ⟨nodup, leads, owned⟩
      exact leads.congr fun a mem => (streamLinks nodup owned a (List.mem_cons_of_mem _ mem)).1)
    (by
      rintro x later m ⟨nodup, leads, owned⟩
      obtain ⟨outside, distinct⟩ := List.nodup_cons.mp nodup
      obtain ⟨m', call, owned'⟩ := clearIterator_owns (fun same => outside (by simp [same])) owned
      refine ⟨m', call, List.nodup_cons.mpr ⟨fun mem => outside (List.mem_cons_of_mem _ mem), ?_⟩,
        (leadsTo_cons.mp leads).2, owned'⟩
      exact (List.nodup_cons.mp distinct).2)
  refine ⟨m', ?_, by simpa using rest⟩
  rw [moeStructMetadataDestroy, Exec.bind_ok (Exec.get_apply m), run]

/-- A struct has fewer nodes than there are addresses. -/
theorem length_nodes_lt {l : StructLayout} {name : Bytes}
    (owned : Owns m₀ m (structBlocks s num name l + f)) : l.nodes.length < m.heap.next := by
  have card := owned.holds.card_le
  simp only [structBlocks, Multiset.card_add, card_nodeBlocks, List.length_cons] at card
  omega

/-- Freeing a struct gives back all its blocks, when `derive_item_num` counts the
items that were created. -/
theorem moeDerivedStructFree_owns (owned : StructOwned m₀ f s v.handlers.length v m) :
    ∃ m', moeDerivedStructFree (some s.addr) m = .ok ((), m') ∧ Owns m₀ m' f := by
  obtain ⟨node, read⟩ := owned.load
  obtain ⟨l, rep, owns⟩ := owned
  have count : l.items.length = v.handlers.length := by
    rw [← rep.handlers, List.length_map]
  let nodes : Footprint := nodeBlocks (structNode s v.handlers.length l.entry) l.links (s.addr :: l.nodes)
  let tokens : Footprint := (l.nodes.map fun x => entryBlocks (l.entry x)).sum
  obtain ⟨m1, run1, owned1⟩ := moeStringFree_owns owns (by
    simp only [structBlocks, nodes, tokens, List.nil_append]
    abel : _ = strBlocks s.name v.structName + ({(s.items, .deriveItems (itemSlots ([] ++ l.items)))} +
      ((l.items.map itemBlocks).sum + (nodes + (tokens + f)))))
  obtain ⟨m2, run2, owned2⟩ := destroyItems_owns l.items owned1
  obtain ⟨m3, run3, owned3⟩ := moeFree_owns owned2 rfl
  obtain ⟨m4, run4, owned4⟩ := moeStructMetadataDestroy_owns rep.ring owned3
  rw [nodeBlocks_cons, nodeBlocks_nil, add_zero] at owned4
  obtain ⟨m5, run5, owned5⟩ := moeFree_owns owned4 rfl
  refine ⟨m5, ?_, owned5⟩
  rw [List.length_nil, ← List.range_eq_range', count] at run2
  rw [moeDerivedStructFree, Exec.bind_ok read, Exec.bind_ok run1, Exec.bind_ok run2, Exec.bind_ok run3,
    Exec.bind_ok run4, run5]

/-! ## Reading a struct -/

/-- What the loop over the token stream does at a node. -/
def readNode (p : Ptr) : C Mem TokenValue := do
  let node ← loadAs Block.asTokenNode p
  readToken node.token

/-- The loop is one of the external iterator. -/
theorem collectTokens_loop (fuel : Nat) (it : MoeListIterator) :
    collectTokens fuel it = (do
      let (values, _) ← iteratorLoop readNode fuel it
      pure values) := by
  induction fuel generalizing it with
  | zero => rfl
  | succ fuel ih =>
    rw [collectTokens, iteratorLoop, bind_assoc]
    congr 1
    funext step
    by_cases more : step.1 = true
    · simp only [if_pos more, readNode, ih, bind_assoc, pure_bind]
    · simp only [if_neg more, pure_bind]

theorem readNode_owns {l : StructLayout} {name : Bytes} (owned : Owns m₀ m (structBlocks s num name l + f))
    (outside : s.addr ∉ l.nodes) {x : Addr} (here : x ∈ l.nodes) :
    readNode (some x) m = .ok ((l.entry x).value, m) := by
  have other : x ≠ s.addr := fun same => outside (same ▸ here)
  have node : (x, Block.tokenNode ⟨⟨l.links.next x, l.links.prev x⟩, (l.entry x).place.token⟩) ∈
      structBlocks s num name l + f := by
    rw [← structNode_other other num]
    simp only [structBlocks, Multiset.mem_add]
    exact Or.inl (Or.inl (mem_nodeBlocks (List.mem_cons_of_mem _ here)))
  have value := readToken_owns owned (by
    rw [structBlocks, ← List.sum_map_erase (fun x => entryBlocks (l.entry x)) here, entryBlocks]
    abel : _ = tokenBlocks (l.entry x).place (l.entry x).value +
      (nodeBlocks (structNode s num l.entry) l.links (s.addr :: l.nodes) + (strBlocks s.name name +
        ({(s.items, .deriveItems (itemSlots l.items))} + ((l.items.map itemBlocks).sum +
          ((l.nodes.erase x).map fun x => entryBlocks (l.entry x)).sum))) + f))
  rw [readNode, Exec.bind_ok (loadAs_owns Block.asTokenNode owned node rfl), value]

/-- The iterator runs through the nodes, and reads their tokens. -/
theorem collectTokens_owns {l : StructLayout} {name : Bytes}
    (owned : Owns m₀ m (structBlocks s num name l + f)) (ring : LinkRing l.links s.addr l.nodes) {fuel : Nat}
    (enough : l.nodes.length < fuel) :
    collectTokens fuel (moeListIteratorInit (some s.addr)) m = .ok (l.nodes.map fun x => (l.entry x).value, m) := by
  have stream := owned
  rw [structBlocks, add_assoc] at stream
  have reads : ∀ x ∈ l.nodes, readNode (some x) m = .ok ((l.entry x).value, m) :=
    fun x => readNode_owns owned (List.nodup_cons.mp ring.nodup).1
  have keeps : KeepsLinks readNode (fun _ => true) (s.addr :: l.nodes) l.nodes m :=
    Exec.EachCall.of_reads reads fun _ _ _ _ => ⟨rfl, rfl⟩
  have through := iterator_runsThrough (streamRing ring stream) enough keeps
  rw [RunsThrough, Exec.bind_ok (Exec.mapM_reads reads)] at through
  rw [collectTokens_loop, Exec.bind_ok through]
  rfl

/-- The item at an index below the number of items. -/
theorem StructOwned.readItem (owned : StructOwned m₀ f s num v m) {i : Nat} (here : i < v.handlers.length) :
    ∃ item, readItem ⟨s.items, i⟩ m = .ok (item, m) ∧ item.argNum = 0 ∧
      moeStringRead item.deriveHandlerName m = .ok (cString v.handlers[i], m) := by
  obtain ⟨l, rep, owns⟩ := owned
  have count : l.items.length = v.handlers.length := by
    rw [← rep.handlers, List.length_map]
  have inside : i < l.items.length := by
    rw [count]
    exact here
  have array : structBlocks s num v.structName l + f =
      {(s.items, .deriveItems (itemSlots l.items))} + ((l.items.map itemBlocks).sum +
        (nodeBlocks (structNode s num l.entry) l.links (s.addr :: l.nodes) +
          (strBlocks s.name v.structName + ((l.nodes.map fun x => entryBlocks (l.entry x)).sum + f)))) := by
    rw [structBlocks]
    abel
  rw [array] at owns
  have name := moeStringRead_owns owns (by
    rw [← List.sum_map_erase itemBlocks (List.getElem_mem inside), itemBlocks]
    abel : _ = strBlocks l.items[i].name l.items[i].handler +
      ({(s.items, .deriveItems (itemSlots l.items))} + ({(l.items[i].args, .deriveArgs [])} +
        ((l.items.erase l.items[i]).map itemBlocks).sum +
        (nodeBlocks (structNode s num l.entry) l.links (s.addr :: l.nodes) +
          (strBlocks s.name v.structName + ((l.nodes.map fun x => entryBlocks (l.entry x)).sum + f))))))
  have handler : v.handlers[i] = l.items[i].handler := by
    simp only [← rep.handlers, List.getElem_map]
  rw [handler]
  exact ⟨_, readItem_owns owns inside, rfl, name⟩

theorem StructOwned.readHandler (owned : StructOwned m₀ f s num v m) {i : Nat}
    (here : i < v.handlers.length) :
    readHandlerName ⟨s.items, i⟩ m = .ok (cString v.handlers[i], m) := by
  obtain ⟨item, read, -, name⟩ := owned.readItem here
  rw [readHandlerName, Exec.bind_ok read]
  exact name

/-- The list iterator comes to all the tokens. -/
theorem StructOwned.readTokens (owned : StructOwned m₀ f s num v m) :
    collectTokens (m.heap.next + 1) (moeListIteratorInit (some s.addr)) m = .ok (v.metadata, m) := by
  obtain ⟨l, rep, owns⟩ := owned
  rw [← rep.metadata]
  exact collectTokens_owns owns rep.ring (Nat.lt_succ_of_lt (length_nodes_lt owns))

/-- A string allocated next to a struct. -/
theorem StructOwned.alloc (owned : StructOwned m₀ f s num v m) {data : Option Bytes} {length : Nat}
    {c : Bytes} (content : stringContent data length = some c) :
    ∃ l m', moeStringAlloc data length m = .ok (l.handle, m') ∧ StructOwned m₀ (strBlocks l c + f) s num v m' := by
  obtain ⟨layout, rep, owns⟩ := owned
  obtain ⟨l, m', run, owns'⟩ := moeStringAlloc_owns owns content
  rw [add_left_comm] at owns'
  exact ⟨l, m', run, layout, rep, owns'⟩

/-- A string read next to a struct. -/
theorem StructOwned.readString {l : StringAt} {b : Bytes}
    (owned : StructOwned m₀ (strBlocks l b + f) s num v m) :
    moeStringRead (some l.handle) m = .ok (cString b, m) := by
  obtain ⟨layout, -, owns⟩ := owned
  exact moeStringRead_owns owns (add_left_comm _ _ _)

theorem StructOwned.free {l : StringAt} {b : Bytes}
    (owned : StructOwned m₀ (strBlocks l b + f) s num v m) :
    ∃ m', moeStringFree (some l.handle) m = .ok ((), m') ∧ StructOwned m₀ f s num v m' := by
  obtain ⟨layout, rep, owns⟩ := owned
  obtain ⟨m', run, owns'⟩ := moeStringFree_owns owns (add_left_comm _ _ _)
  exact ⟨m', run, layout, rep, owns'⟩

/-- Reading a struct gives back what it was built from. -/
theorem readDerivedStruct_owns (owned : StructOwned m₀ f s v.handlers.length v m) :
    readDerivedStruct s.addr m =
      .ok (⟨cString v.structName, v.handlers.map cString, v.metadata⟩, m) := by
  obtain ⟨node, read⟩ := owned.load
  have name := owned.readName
  have tokens := owned.readTokens
  have handlers : (List.range v.handlers.length).mapM (fun i => readHandlerName ⟨s.items, i⟩) m =
      .ok (v.handlers.map cString, m) := by
    rw [← List.length_map cString]
    refine Exec.mapM_range_ok fun i here => ?_
    rw [List.length_map] at here
    rw [owned.readHandler here, List.getElem_map]
  rw [readDerivedStruct, Exec.bind_ok read, Exec.bind_ok name, Exec.bind_ok handlers,
    Exec.bind_ok (Exec.get_apply m), Exec.bind_ok tokens]
  rfl

end Structs

end MoeToolchain
