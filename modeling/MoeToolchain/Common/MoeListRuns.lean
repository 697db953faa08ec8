import MoeToolchain.Common.MoeList

/-!
# Runs of list operations

The abstract side of `moe_list.c` is a finite number of named sequences: each
sentinel has the sequence of the nodes after it. `Represents` ties a memory to
such a family through the links of its nodes. One operation of the source is
matched by `Lists.apply` on the family (`step_sound`), and so is every run of
operations that are each applied where the source allows them (`run_sound`).
-/

namespace MoeToolchain
set_option autoImplicit false
open Lib

/-- The sequence of every sentinel. -/
abbrev Lists := Addr → Option (List Addr)

inductive ListOp
  | init (n : Addr)
  | addHead (l n : Addr)
  | addTail (l n : Addr)
  | remove (m : Addr)
  | replace (m n : Addr)
  | empty (l : Addr)
  | head (l : Addr)
  | tail (l : Addr)
deriving DecidableEq, Repr

/-- What an operation returns to its caller. -/
inductive ListAnswer
  | nothing
  | node (p : Ptr)
  | bool (b : Bool)
deriving DecidableEq, Repr

namespace Lists

/-- In no list, or the sentinel of an empty one. -/
def Detached (ls : Lists) (n : Addr) : Prop :=
  (∀ l xs, ls l = some xs → n ∉ xs) ∧ ∀ xs, ls n = some xs → xs = []

def Member (ls : Lists) (m : Addr) : Prop := ∃ l xs, ls l = some xs ∧ m ∈ xs

def Sentinel (ls : Lists) (l : Addr) : Prop := ∃ xs, ls l = some xs

/-- The sequence behind `l`. -/
def seq (ls : Lists) (l : Addr) : List Addr := (ls l).getD []

/-- The abstract effect. A node that is linked in stops being the sentinel of an
empty list of its own. -/
def apply (ls : Lists) : ListOp → Lists
  | .init n => fun l => if l = n then some [] else ls l
  | .addHead l n => fun c =>
    if c = n then none else if c = l then some (n :: ls.seq l) else ls c
  | .addTail l n => fun c =>
    if c = n then none else if c = l then some (ls.seq l ++ [n]) else ls c
  | .remove m => fun c => (ls c).map fun xs => xs.erase m
  | .replace m n =>
    if (ls m).isSome then fun c => if c = n then ls m else if c = m then none else ls c
    else fun c =>
      if c = n then none else (ls c).map fun xs => xs.map fun x => if x = m then n else x
  | .empty _ | .head _ | .tail _ => ls

/-- What the operation answers. -/
def answer (ls : Lists) : ListOp → ListAnswer
  | .init _ | .addHead _ _ | .addTail _ _ | .remove _ => .nothing
  | .replace m _ => .node (some m)
  | .empty l => .bool (ls.seq l).isEmpty
  | .head l => .node (some ((ls.seq l).headD l))
  | .tail l => .node (some ((ls.seq l).getLastD l))

/-- Where an operation may be applied. -/
def Allows (dom : Addr → Prop) (ls : Lists) : ListOp → Prop
  | .init n => dom n ∧ ls.Detached n
  | .addHead l n | .addTail l n => ls.Sentinel l ∧ n ≠ l ∧ dom n ∧ ls.Detached n
  | .remove m => ls.Member m
  | .replace m n => (ls.Member m ∨ ls.Sentinel m) ∧ n ≠ m ∧ dom n ∧ ls.Detached n
  | .empty l | .head l | .tail l => ls.Sentinel l

def applyAll (ls : Lists) (ops : List ListOp) : Lists := ops.foldl apply ls

def answers : Lists → List ListOp → List ListAnswer
  | _, [] => []
  | ls, op :: ops => ls.answer op :: answers (ls.apply op) ops

/-- Each operation of the run is allowed where it is applied. -/
def AllowsAll (dom : Addr → Prop) : Lists → List ListOp → Prop
  | _, [] => True
  | ls, op :: ops => ls.Allows dom op ∧ AllowsAll dom (ls.apply op) ops

@[simp] theorem applyAll_cons (ls : Lists) (op : ListOp) (ops : List ListOp) :
    ls.applyAll (op :: ops) = (ls.apply op).applyAll ops := rfl

theorem allowsAll_append {dom : Addr → Prop} {ls : Lists} {ops ops' : List ListOp} :
    AllowsAll dom ls (ops ++ ops') ↔ AllowsAll dom ls ops ∧ AllowsAll dom (ls.applyAll ops) ops' := by
  induction ops generalizing ls with
  | nil => simp [AllowsAll, applyAll]
  | cons op ops ih => simp [AllowsAll, ih, and_assoc]

end Lists

namespace ListOp

/-- The nodes an operation is given. -/
def nodes : ListOp → List Addr
  | .init n => [n]
  | .addHead l n | .addTail l n => [l, n]
  | .remove m => [m]
  | .replace m n => [m, n]
  | .empty l | .head l | .tail l => [l]

/-- The node an operation takes out of its list. -/
def taken : ListOp → Option Addr
  | .remove m | .replace m _ => some m
  | _ => none

variable {σ : Type} [NodeStore σ]

/-- The source function. -/
def run : ListOp → C σ ListAnswer
  | .init n => do
    moeListNodeInit (some n)
    pure .nothing
  | .addHead l n => do
    moeListAddHead (some l) (some n)
    pure .nothing
  | .addTail l n => do
    moeListAddTail (some l) (some n)
    pure .nothing
  | .remove m => do
    moeListRemove (some m)
    pure .nothing
  | .replace m n => do
    let replaced ← moeListReplace (some m) (some n)
    pure (.node replaced)
  | .empty l => do
    let b ← moeListEmpty (some l)
    pure (.bool b)
  | .head l => do
    let p ← moeListHead (some l)
    pure (.node p)
  | .tail l => do
    let p ← moeListTail (some l)
    pure (.node p)

def runAll : List ListOp → C σ (List ListAnswer)
  | [] => pure []
  | op :: ops => do
    let a ← op.run
    let rest ← runAll ops
    pure (a :: rest)

end ListOp

variable {σ : Type} [NodeStore σ] {dom : Addr → Prop} {s s' : σ} {ls ls' : Lists} {op : ListOp}

/-- The links a memory holds. -/
def linksOf (s : σ) : Links where
  next a := (NodeStore.node? s a).bind MoeListNode.next
  prev a := (NodeStore.node? s a).bind MoeListNode.prev

/-- A memory seen through its own links. -/
def AtLinks (dom : Addr → Prop) (k : Links) (s : σ) : Prop :=
  linksOf s = k ∧ ∀ a, dom a → (NodeStore.node? s a).isSome = true

theorem atLinks_view : LinkView (σ := σ) (AtLinks dom) dom where
  read := by
    rintro k s a ⟨rfl, allocated⟩ here
    obtain ⟨n, found⟩ := Option.isSome_iff_exists.mp (allocated a here)
    simp [linksOf, found]
  write := by
    rintro k s a n ⟨rfl, allocated⟩ here
    have held := allocated a here
    refine ⟨?_, ?_⟩
    · simp only [linksOf, Links.setNext, Links.setPrev, Links.mk.injEq]
      constructor
      · funext c
        rw [NodeStore.node?_setNode s a n c held, Function.update_apply]
        split <;> rfl
      · funext c
        rw [NodeStore.node?_setNode s a n c held, Function.update_apply]
        split <;> rfl
    · intro c hc
      rw [NodeStore.node?_setNode s a n c held]
      split
      · rfl
      · exact allocated c hc

/-- The memory `s` holds the lists `ls`: disjoint rings of allocated nodes. -/
structure Represents (dom : Addr → Prop) (s : σ) (ls : Lists) : Prop where
  allocated : ∀ a, dom a → (NodeStore.node? s a).isSome = true
  ring : ∀ l xs, ls l = some xs → LinkRing (linksOf s) l xs
  inside : ∀ l xs, ls l = some xs → ∀ x ∈ l :: xs, dom x
  apart : ∀ l xs m ys, ls l = some xs → ls m = some ys → l ≠ m → ∀ x ∈ l :: xs, x ∉ m :: ys

theorem Represents.atLinks (rep : Represents dom s ls) : AtLinks dom (linksOf s) s :=
  ⟨rfl, rep.allocated⟩

/-- The operation is given a node of the list behind `l`. -/
def ListOp.Touches (op : ListOp) (ls : Lists) (l : Addr) : Prop := ∃ x ∈ op.nodes, x ∈ l :: ls.seq l

/-- `n->next->prev == n` and `n->prev->next == n`. -/
def WellLinked (s : σ) (n : Addr) : Prop :=
  (∃ y, (linksOf s).next n = some y ∧ (linksOf s).prev y = some n) ∧
    ∃ y, (linksOf s).prev n = some y ∧ (linksOf s).next y = some n

/-- What one operation does to the memory and to the lists. -/
structure StepSound (dom : Addr → Prop) (s s' : σ) (ls : Lists) (op : ListOp) : Prop where
  represents : Represents dom s' (ls.apply op)
  others : ∀ l xs, ls l = some xs → ¬ op.Touches ls l →
    ls.apply op l = some xs ∧ ∀ x ∈ l :: xs, NodeStore.node? s' x = NodeStore.node? s x
  taken : ∀ m, op.taken = some m →
    NodeStore.node? s' m = some ⟨none, none⟩ ∧ (ls.apply op).Detached m

theorem Represents.linked (rep : Represents dom s ls) {l m : Addr} {xs : List Addr}
    (list : ls l = some xs) (mem : m ∈ l :: xs) : WellLinked s m := by
  obtain ⟨⟨y, -, next, back⟩, ⟨z, -, prev, forth⟩⟩ := (rep.ring l xs list).linked mem
  exact ⟨⟨y, next, back⟩, ⟨z, prev, forth⟩⟩

/-- The list a node belongs to is the only one it belongs to. -/
theorem Represents.unique (rep : Represents dom s ls) {l m x : Addr} {xs ys : List Addr}
    (first : ls l = some xs) (second : ls m = some ys) (inFirst : x ∈ l :: xs)
    (inSecond : x ∈ m :: ys) : l = m := by
  by_contra different
  exact rep.apart l xs m ys first second different x inFirst inSecond

/-- Nodes outside the written ones are read as before. -/
theorem node_of_frame {touched : List Addr} (before : AtLinks dom (linksOf s) s)
    (after : AtLinks dom (linksOf s') s') (frame : LinksFrame (linksOf s) (linksOf s') touched)
    {x : Addr} (here : dom x) (outside : x ∉ touched) :
    NodeStore.node? s' x = NodeStore.node? s x := by
  rw [atLinks_view.read after here, atLinks_view.read before here, frame.next x outside,
    frame.prev x outside]

/-- One ring is new, its nodes among the written ones; every other list of the new
family is an old one that was not written. -/
theorem Represents.renew {touched : List Addr} {l₀ : Addr} {xs₀ : List Addr}
    (rep : Represents dom s ls) (after : AtLinks dom (linksOf s') s')
    (frame : LinksFrame (linksOf s) (linksOf s') touched) (ring : LinkRing (linksOf s') l₀ xs₀)
    (sub : ∀ x ∈ l₀ :: xs₀, x ∈ touched ∧ dom x)
    (lists : ∀ l xs, ls' l = some xs →
      (l = l₀ ∧ xs = xs₀) ∨ (ls l = some xs ∧ ∀ x ∈ l :: xs, x ∉ touched)) :
    Represents dom s' ls' where
  allocated := after.2
  ring := by
    intro l xs list
    rcases lists l xs list with ⟨rfl, rfl⟩ | ⟨old, away⟩
    · exact ring
    · apply (rep.ring l xs old).congr
      · exact fun x mem => frame.next x (away x mem)
      · exact fun x mem => frame.prev x (away x mem)
  inside := by
    intro l xs list x mem
    rcases lists l xs list with ⟨rfl, rfl⟩ | ⟨old, -⟩
    · exact (sub x mem).2
    · exact rep.inside l xs old x mem
  apart := by
    intro l xs m ys first second different x inFirst inSecond
    rcases lists l xs first with ⟨rfl, rfl⟩ | ⟨oldFirst, awayFirst⟩
    · rcases lists m ys second with ⟨rfl, rfl⟩ | ⟨-, awaySecond⟩
      · exact different rfl
      · exact awaySecond x inSecond (sub x inFirst).1
    · rcases lists m ys second with ⟨rfl, rfl⟩ | ⟨oldSecond, -⟩
      · exact awayFirst x inFirst (sub x inSecond).1
      · exact rep.apart l xs m ys oldFirst oldSecond different x inFirst inSecond

/-- A list that does not contain a node of another list shares no node with it. -/
theorem Represents.away (rep : Represents dom s ls) {l c m : Addr} {xs ys : List Addr}
    (list : ls l = some xs) (other : ls c = some ys) (inList : m ∈ l :: xs) (outside : m ∉ c :: ys) :
    ∀ x ∈ c :: ys, x ∉ l :: xs := by
  intro x inOther inFirst
  have same := rep.unique list other inFirst inOther
  subst same
  rw [list] at other
  cases other
  exact outside inList

theorem not_touches_iff {l : Addr} {xs : List Addr} (list : ls l = some xs) :
    ¬ op.Touches ls l ↔ ∀ x ∈ op.nodes, x ∉ l :: xs := by
  simp [ListOp.Touches, Lists.seq, list]

/-- A detached node is in no nonempty list, and alone in its own. -/
theorem Lists.Detached.outside {n c : Addr} {ys : List Addr} (detached : ls.Detached n)
    (other : ls c = some ys) (ne : c ≠ n) : n ∉ c :: ys := by
  intro mem
  rcases List.mem_cons.mp mem with same | mem
  · exact ne same.symm
  · exact detached.1 c ys other mem

theorem init_sound {n : Addr} (rep : Represents dom s ls) (allowed : ls.Allows dom (.init n)) :
    ∃ s', (ListOp.init n).run s = .ok (.nothing, s') ∧ StepSound dom s s' ls (.init n) := by
  obtain ⟨here, detached⟩ := allowed
  obtain ⟨s', k', run, after, ring, frame⟩ := moeListNodeInit_ring atLinks_view rep.atLinks here
  obtain ⟨rfl, allocated⟩ := after
  refine ⟨s', by rw [ListOp.run, Exec.bind_ok run]; rfl, ?_, ?_, nofun⟩
  · apply rep.renew ⟨rfl, allocated⟩ frame ring
    · intro x mem
      rw [List.mem_singleton.mp mem]
      exact ⟨by simp, here⟩
    · intro l xs list
      simp only [Lists.apply] at list
      split at list
      · rename_i same
        cases list
        exact .inl ⟨same, rfl⟩
      · rename_i ne
        refine .inr ⟨list, ?_⟩
        rintro x mem inTouched
        rw [List.mem_singleton.mp inTouched] at mem
        exact detached.outside list ne mem
  · intro l xs list untouched
    rw [not_touches_iff list] at untouched
    have away : n ∉ l :: xs := untouched n (by simp [ListOp.nodes])
    have ne : l ≠ n := fun same => away (by simp [same])
    refine ⟨by simp [Lists.apply, ne, list], ?_⟩
    intro x mem
    apply node_of_frame rep.atLinks ⟨rfl, allocated⟩ frame (rep.inside l xs list x mem)
    intro inTouched
    rw [List.mem_singleton.mp inTouched] at mem
    exact away mem

/-- The operation makes `xs₀` behind `l₀` of the list behind `l` and of the nodes `new`, and
leaves the other lists alone. -/
structure Lists.Rewrites (ls : Lists) (op : ListOp) (new : List Addr) (l l₀ : Addr) (xs₀ : List Addr) : Prop where
  lists : ∀ c ws, ls.apply op c = some ws → (c = l₀ ∧ ws = xs₀) ∨ (ls c = some ws ∧ c ≠ l ∧ c ∉ new)
  others : ∀ c ws, ls c = some ws → (∀ x ∈ op.nodes, x ∉ c :: ws) → ls.apply op c = some ws

/-- An operation that is given a node of one list, and `new` of no list. -/
theorem Represents.rewrite {new xs xs₀ : List Addr} {l l₀ a : Addr} (rep : Represents dom s ls)
    (list : ls l = some xs) (fresh : ∀ n ∈ new, n ∈ op.nodes ∧ dom n ∧ ls.Detached n) (given : a ∈ op.nodes)
    (member : a ∈ l :: xs) (rewrites : ls.Rewrites op new l l₀ xs₀) (after : AtLinks dom (linksOf s') s')
    (frame : LinksFrame (linksOf s) (linksOf s') (new ++ l :: xs)) (ring : LinkRing (linksOf s') l₀ xs₀)
    (sub : ∀ x ∈ l₀ :: xs₀, x ∈ new ++ l :: xs)
    (taken : ∀ m, op.taken = some m →
      m ∈ l :: xs ∧ m ∉ l₀ :: xs₀ ∧ (linksOf s').next m = none ∧ (linksOf s').prev m = none) :
    StepSound dom s s' ls op where
  represents := by
    apply rep.renew after frame ring
    · intro x mem
      refine ⟨sub x mem, ?_⟩
      rcases List.mem_append.mp (sub x mem) with isNew | inList
      · exact (fresh x isNew).2.1
      · exact rep.inside l xs list x inList
    · intro c ws found
      rcases rewrites.lists c ws found with rewritten | ⟨old, ne, notNew⟩
      · exact .inl rewritten
      · refine .inr ⟨old, ?_⟩
        intro x mem inTouched
        rcases List.mem_append.mp inTouched with isNew | inList
        · exact (fresh x isNew).2.2.outside old (fun same => notNew (same ▸ isNew)) mem
        · exact ne (rep.unique old list mem inList)
  others := by
    intro c ws found untouched
    rw [not_touches_iff found] at untouched
    refine ⟨rewrites.others c ws found untouched, ?_⟩
    intro x mem
    apply node_of_frame rep.atLinks after frame (rep.inside c ws found x mem)
    intro inTouched
    rcases List.mem_append.mp inTouched with isNew | inList
    · exact untouched x (fresh x isNew).1 mem
    · exact rep.away list found member (untouched a given) x mem inList
  taken := by
    intro m takes
    obtain ⟨inList, gone, next, prev⟩ := taken m takes
    have out : ∀ c ws, ls.apply op c = some ws → m ∉ c :: ws := by
      intro c ws found mem
      rcases rewrites.lists c ws found with ⟨rfl, rfl⟩ | ⟨old, ne, -⟩
      · exact gone mem
      · exact ne (rep.unique old list mem inList)
    refine ⟨?_, fun c ws found mem => out c ws found (List.mem_cons_of_mem _ mem), fun ws found => ?_⟩
    · rw [atLinks_view.read after (rep.inside l xs list m inList), next, prev]
    · exact absurd List.mem_cons_self (out m ws found)

/-- The nodes of a list, and one to link in. -/
theorem Represents.inside_cons (rep : Represents dom s ls) {l n : Addr} {xs : List Addr} (list : ls l = some xs)
    (here : dom n) : ∀ x ∈ n :: l :: xs, dom x := by
  intro x mem
  rcases List.mem_cons.mp mem with rfl | mem
  · exact here
  · exact rep.inside l xs list x mem

/-- Where `n` goes into the list behind `l`, and is no sentinel any more. -/
theorem rewrites_add {l n : Addr} {xs' : List Addr} (nodes : op.nodes = [l, n])
    (effect : ls.apply op = fun c => if c = n then none else if c = l then some xs' else ls c) :
    ls.Rewrites op [n] l l xs' where
  lists := by
    intro c ws found
    rw [effect] at found
    by_cases isN : c = n
    · simp [isN] at found
    · by_cases isL : c = l
      · subst isL
        simp only [isN, if_false, if_true, Option.some.injEq] at found
        exact .inl ⟨rfl, found.symm⟩
      · simp only [isN, isL, if_false] at found
        exact .inr ⟨found, isL, by simpa using isN⟩
  others := by
    intro c ws found untouched
    rw [nodes] at untouched
    have notL : c ≠ l := fun same => untouched l (by simp) (by simp [same])
    have notN : c ≠ n := fun same => untouched n (by simp) (by simp [same])
    rw [effect]
    simp only [notN, notL, if_false, found]

/-- Linking a detached node into one list, at whichever end. -/
theorem add_sound {l n : Addr} {xs xs' : List Addr} (rep : Represents dom s ls)
    (list : ls l = some xs) (here : dom n) (detached : ls.Detached n) (after : AtLinks dom (linksOf s') s')
    (frame : LinksFrame (linksOf s) (linksOf s') (n :: l :: xs)) (ring : LinkRing (linksOf s') l xs')
    (same : ∀ x, x ∈ xs' ↔ x ∈ n :: xs) (nodes : op.nodes = [l, n]) (taken : op.taken = none)
    (effect : ls.apply op = fun c => if c = n then none else if c = l then some xs' else ls c) :
    StepSound dom s s' ls op := by
  have fresh : ∀ x ∈ [n], x ∈ op.nodes ∧ dom x ∧ ls.Detached x := by
    intro x mem
    rw [List.mem_singleton.mp mem, nodes]
    exact ⟨by simp, here, detached⟩
  have given : l ∈ op.nodes := by simp [nodes]
  apply rep.rewrite list fresh given List.mem_cons_self (rewrites_add nodes effect) after frame ring
  · intro x mem
    rcases List.mem_cons.mp mem with rfl | mem
    · simp
    · rcases List.mem_cons.mp ((same x).mp mem) with rfl | mem
      · simp
      · simp [mem]
  · simp [taken]

theorem addHead_sound {l n : Addr} (rep : Represents dom s ls)
    (allowed : ls.Allows dom (.addHead l n)) :
    ∃ s', (ListOp.addHead l n).run s = .ok (.nothing, s') ∧ StepSound dom s s' ls (.addHead l n) := by
  obtain ⟨⟨xs, list⟩, ne, here, detached⟩ := allowed
  obtain ⟨s', k', run, ⟨rfl, allocated⟩, ring, frame⟩ := moeListAddHead_ring atLinks_view rep.atLinks
    (rep.ring l xs list) (detached.outside list ne.symm) (rep.inside_cons list here)
  refine ⟨s', by rw [ListOp.run, Exec.bind_ok run]; rfl, ?_⟩
  apply add_sound rep list here detached ⟨rfl, allocated⟩ frame ring (fun _ => Iff.rfl) rfl rfl
  simp only [Lists.apply, Lists.seq, list, Option.getD_some]

theorem addTail_sound {l n : Addr} (rep : Represents dom s ls)
    (allowed : ls.Allows dom (.addTail l n)) :
    ∃ s', (ListOp.addTail l n).run s = .ok (.nothing, s') ∧ StepSound dom s s' ls (.addTail l n) := by
  obtain ⟨⟨xs, list⟩, ne, here, detached⟩ := allowed
  obtain ⟨s', k', run, ⟨rfl, allocated⟩, ring, frame⟩ := moeListAddTail_ring atLinks_view rep.atLinks
    (rep.ring l xs list) (detached.outside list ne.symm) (rep.inside_cons list here)
  refine ⟨s', by rw [ListOp.run, Exec.bind_ok run]; rfl, ?_⟩
  apply add_sound rep list here detached ⟨rfl, allocated⟩ frame ring (fun x => by simp [or_comm]) rfl rfl
  simp only [Lists.apply, Lists.seq, list, Option.getD_some]

/-- The list a member is in, split at the member. -/
theorem Represents.split (rep : Represents dom s ls) {m : Addr} (member : ls.Member m) :
    ∃ l ys zs, ls l = some (ys ++ m :: zs) ∧ m ∉ l :: (ys ++ zs) := by
  obtain ⟨l, xs, list, mem⟩ := member
  obtain ⟨ys, zs, rfl⟩ := List.append_of_mem mem
  refine ⟨l, ys, zs, list, ?_⟩
  intro again
  apply (List.nodup_cons.mp (rep.ring l _ list).rotate.nodup).1
  simp only [List.mem_cons, List.mem_append] at again ⊢
  tauto

/-- What is done to every list at the member `m` does something to its own list only. -/
theorem Represents.rewrites_member {m l : Addr} {ys zs new xs₀ : List Addr} {f : List Addr → List Addr}
    (rep : Represents dom s ls) (list : ls l = some (ys ++ m :: zs)) (given : ∀ x ∈ m :: new, x ∈ op.nodes)
    (effect : ls.apply op = fun c => if c ∈ new then none else (ls c).map f) (result : f (ys ++ m :: zs) = xs₀)
    (others : ∀ ws, m ∉ ws → f ws = ws) : ls.Rewrites op new l l xs₀ where
  lists := by
    intro c ws found
    rw [effect] at found
    by_cases isNew : c ∈ new
    · simp [isNew] at found
    · simp only [isNew, if_false, Option.map_eq_some_iff] at found
      obtain ⟨old, held, rfl⟩ := found
      by_cases same : c = l
      · subst same
        rw [list] at held
        cases held
        exact .inl ⟨rfl, result⟩
      · have out : m ∉ old := fun mem => same (rep.unique held list (List.mem_cons_of_mem _ mem) (by simp))
        rw [others old out]
        exact .inr ⟨held, same, isNew⟩
  others := by
    intro c ws found untouched
    have notNew : c ∉ new := fun mem => untouched c (given c (List.mem_cons_of_mem _ mem)) List.mem_cons_self
    have out : m ∉ ws := fun mem => untouched m (given m List.mem_cons_self) (List.mem_cons_of_mem _ mem)
    rw [effect]
    simp only [notNew, if_false, found, Option.map_some, others ws out]

theorem remove_sound {m : Addr} (rep : Represents dom s ls) (allowed : ls.Allows dom (.remove m)) :
    ∃ s', (ListOp.remove m).run s = .ok (.nothing, s') ∧ StepSound dom s s' ls (.remove m) := by
  obtain ⟨l, ys, zs, list, gone⟩ := rep.split allowed
  obtain ⟨s', k', run, ⟨rfl, allocated⟩, ring, next, prev, frame⟩ :=
    moeListRemove_ring atLinks_view rep.atLinks (rep.ring l _ list) (rep.inside l _ list)
  have erased : (ys ++ m :: zs).erase m = ys ++ zs := by
    rw [List.erase_append_right, List.erase_cons_head]
    exact fun mem => gone (by simp [mem])
  have rewrites : ls.Rewrites (.remove m) [] l l (ys ++ zs) :=
    rep.rewrites_member list (fun _ mem => mem) (by simp [Lists.apply]) erased fun _ => List.erase_of_not_mem
  refine ⟨s', by rw [ListOp.run, Exec.bind_ok run]; rfl, ?_⟩
  apply rep.rewrite list (fun _ mem => by cases mem) List.mem_cons_self (by simp) rewrites ⟨rfl, allocated⟩ frame ring
  · intro x mem
    simp only [List.nil_append, List.mem_cons, List.mem_append] at mem ⊢
    tauto
  · rintro _ ⟨⟩
    exact ⟨by simp, gone, next, prev⟩

theorem replace_sentinel_sound {m n : Addr} {xs : List Addr} (rep : Represents dom s ls)
    (list : ls m = some xs) (ne : n ≠ m) (here : dom n) (detached : ls.Detached n) :
    ∃ s', (ListOp.replace m n).run s = .ok (.node (some m), s') ∧
      StepSound dom s s' ls (.replace m n) := by
  obtain ⟨s', k', run, ⟨rfl, allocated⟩, ring, next, prev, frame⟩ := moeListReplace_ring atLinks_view rep.atLinks
    (rep.ring m xs list) (detached.outside list ne.symm) (rep.inside_cons list here)
  have effect : ls.apply (.replace m n) =
      fun c => if c = n then some xs else if c = m then none else ls c := by
    simp only [Lists.apply, list, Option.isSome_some, if_true]
  have rewrites : ls.Rewrites (.replace m n) [n] m n xs := by
    constructor
    · intro c ws found
      simp only [effect] at found
      split at found
      · rename_i same
        cases found
        exact .inl ⟨same, rfl⟩
      · rename_i notN
        split at found
        · cases found
        · rename_i notM
          exact .inr ⟨found, notM, by simpa using notN⟩
    · intro c ws found untouched
      have notM : c ≠ m := fun same => untouched m (by simp [ListOp.nodes]) (by simp [same])
      have notN : c ≠ n := fun same => untouched n (by simp [ListOp.nodes]) (by simp [same])
      simp only [effect, notN, notM, if_false, found]
  have fresh : ∀ x ∈ [n], x ∈ (ListOp.replace m n).nodes ∧ dom x ∧ ls.Detached x := by
    intro x mem
    rw [List.mem_singleton.mp mem]
    exact ⟨by simp [ListOp.nodes], here, detached⟩
  refine ⟨s', by rw [ListOp.run, Exec.bind_ok run]; rfl, ?_⟩
  apply rep.rewrite list fresh List.mem_cons_self List.mem_cons_self rewrites ⟨rfl, allocated⟩ frame ring
  · intro x mem
    simp only [List.singleton_append, List.mem_cons] at mem ⊢
    tauto
  · rintro _ ⟨⟩
    have out : m ∉ xs := (List.nodup_cons.mp (rep.ring m xs list).nodup).1
    exact ⟨List.mem_cons_self, by simp [ne.symm, out], next, prev⟩

/-- Substituting in a list. -/
theorem map_substitute {m n : Addr} {ws : List Addr} (out : m ∉ ws) :
    ws.map (fun x => if x = m then n else x) = ws := by
  refine (List.map_congr_left ?_).trans (List.map_id ws)
  intro x mem
  exact if_neg fun eq : x = m => out (eq ▸ mem)

theorem replace_member_sound {m n : Addr} (rep : Represents dom s ls) (member : ls.Member m)
    (other : ¬ ls.Sentinel m) (here : dom n) (detached : ls.Detached n) :
    ∃ s', (ListOp.replace m n).run s = .ok (.node (some m), s') ∧
      StepSound dom s s' ls (.replace m n) := by
  obtain ⟨l, ys, zs, list, gone⟩ := rep.split member
  have neL : l ≠ n := by
    rintro rfl
    have empty := detached.2 _ list
    simp at empty
  have outside : n ∉ l :: (ys ++ m :: zs) := detached.outside list neL
  obtain ⟨s', k', run, ⟨rfl, allocated⟩, ring, next, prev, frame⟩ :=
    moeListReplace_member_ring atLinks_view rep.atLinks (rep.ring l _ list) outside (rep.inside_cons list here)
  have substituted : (ys ++ m :: zs).map (fun x => if x = m then n else x) = ys ++ n :: zs := by
    simp only [List.mem_cons, List.mem_append, not_or] at gone
    rw [List.map_append, List.map_cons, map_substitute gone.2.1, map_substitute gone.2.2, if_pos rfl]
  have missing : (ls m).isSome = false := by
    cases found : ls m with
    | none => rfl
    | some xs => exact absurd ⟨xs, found⟩ other
  have rewrites : ls.Rewrites (.replace m n) [n] l l (ys ++ n :: zs) :=
    rep.rewrites_member list (fun _ mem => mem) (by simp [Lists.apply, missing]) substituted fun _ => map_substitute
  have fresh : ∀ x ∈ [n], x ∈ (ListOp.replace m n).nodes ∧ dom x ∧ ls.Detached x := by
    intro x mem
    rw [List.mem_singleton.mp mem]
    exact ⟨by simp [ListOp.nodes], here, detached⟩
  refine ⟨s', by rw [ListOp.run, Exec.bind_ok run]; rfl, ?_⟩
  apply rep.rewrite list fresh List.mem_cons_self (by simp) rewrites ⟨rfl, allocated⟩ frame ring
  · intro x mem
    simp only [List.singleton_append, List.mem_cons, List.mem_append] at mem ⊢
    tauto
  · rintro _ ⟨⟩
    have apart : m ≠ n := by
      rintro rfl
      exact outside (by simp)
    refine ⟨by simp, ?_, next, prev⟩
    simp only [List.mem_cons, List.mem_append, apart, false_or] at gone ⊢
    exact gone

theorem replace_sound {m n : Addr} (rep : Represents dom s ls)
    (allowed : ls.Allows dom (.replace m n)) :
    ∃ s', (ListOp.replace m n).run s = .ok (.node (some m), s') ∧
      StepSound dom s s' ls (.replace m n) := by
  obtain ⟨place, ne, here, detached⟩ := allowed
  by_cases sentinel : ls.Sentinel m
  · obtain ⟨xs, list⟩ := sentinel
    exact replace_sentinel_sound rep list ne here detached
  · exact replace_member_sound rep (place.resolve_right sentinel) sentinel here detached

/-- A question changes nothing. -/
theorem question_sound (rep : Represents dom s ls) (same : ls.apply op = ls) (taken : op.taken = none) :
    StepSound dom s s ls op where
  represents := same.symm ▸ rep
  others := by
    intro l xs list _
    exact ⟨by rw [same]; exact list, fun _ _ => rfl⟩
  taken := by simp [taken]

/-- **One operation.** Where it is allowed it runs without a fault, gives the
abstract answer and has the abstract effect. -/
theorem step_sound (rep : Represents dom s ls) (allowed : ls.Allows dom op) :
    ∃ s', op.run s = .ok (ls.answer op, s') ∧ StepSound dom s s' ls op := by
  cases op with
  | init n => exact init_sound rep allowed
  | addHead l n => exact addHead_sound rep allowed
  | addTail l n => exact addTail_sound rep allowed
  | remove m => exact remove_sound rep allowed
  | replace m n => exact replace_sound rep allowed
  | empty l =>
    obtain ⟨xs, list⟩ := allowed
    have run := moeListEmpty_ring atLinks_view rep.atLinks (rep.ring l xs list)
      (rep.inside l xs list l (by simp))
    refine ⟨s, ?_, question_sound rep rfl rfl⟩
    rw [ListOp.run, Exec.bind_ok run]
    simp [Lists.answer, Lists.seq, list]
  | head l =>
    obtain ⟨xs, list⟩ := allowed
    have run := moeListHead_ring atLinks_view rep.atLinks (rep.ring l xs list)
      (rep.inside l xs list l (by simp))
    refine ⟨s, ?_, question_sound rep rfl rfl⟩
    rw [ListOp.run, Exec.bind_ok run]
    simp [Lists.answer, Lists.seq, list]
  | tail l =>
    obtain ⟨xs, list⟩ := allowed
    have run := moeListTail_ring atLinks_view rep.atLinks (rep.ring l xs list)
      (rep.inside l xs list l (by simp))
    refine ⟨s, ?_, question_sound rep rfl rfl⟩
    rw [ListOp.run, Exec.bind_ok run]
    simp [Lists.answer, Lists.seq, list]

/-- **A run of operations** reaches a memory that holds the abstract lists. -/
theorem run_sound {ops : List ListOp} (rep : Represents dom s ls)
    (allowed : Lists.AllowsAll dom ls ops) :
    ∃ s', ListOp.runAll ops s = .ok (ls.answers ops, s') ∧ Represents dom s' (ls.applyAll ops) := by
  induction ops generalizing s ls with
  | nil => exact ⟨s, rfl, rep⟩
  | cons op ops ih =>
    obtain ⟨first, rest⟩ := allowed
    obtain ⟨s1, run1, sound⟩ := step_sound rep first
    obtain ⟨s2, run2, rep2⟩ := ih sound.represents rest
    refine ⟨s2, ?_, rep2⟩
    rw [ListOp.runAll, Exec.bind_ok run1, Exec.bind_ok run2]
    rfl

/-- **The intrusive list refines sequences.** From any memory that holds disjoint
rings, every run of operations succeeds with the abstract answers; so does one
operation more, and what it does to the memory it finds is its abstract effect on
the list it is given, nothing to the others, and a taken node that can be linked
in again. In every memory reached the linked nodes point back at each other. -/
theorem list_run_refines {ops : List ListOp} (rep : Represents dom s ls)
    (allowed : Lists.AllowsAll dom ls (ops ++ [op])) :
    ∃ s₁ s₂, ListOp.runAll ops s = .ok (ls.answers ops, s₁) ∧
      op.run s₁ = .ok ((ls.applyAll ops).answer op, s₂) ∧
      Represents dom s₁ (ls.applyAll ops) ∧ StepSound dom s₁ s₂ (ls.applyAll ops) op ∧
      ∀ l xs, (ls.applyAll ops).apply op l = some xs → ∀ m ∈ l :: xs, WellLinked s₂ m := by
  obtain ⟨before, last, -⟩ := Lists.allowsAll_append.mp allowed
  obtain ⟨s₁, run₁, rep₁⟩ := run_sound rep before
  obtain ⟨s₂, run₂, sound⟩ := step_sound rep₁ last
  exact ⟨s₁, s₂, run₁, run₂, rep₁, sound, fun l xs list m mem => sound.represents.linked list mem⟩

/-- A heap whose blocks are the nodes themselves. -/
instance : NodeStore (Heap MoeListNode) where
  node? h a := h.load a
  setNode h a n := h.store a n
  node?_setNode := by
    intro h a n c held
    have bound : a < h.next := by
      obtain ⟨b, found⟩ := Option.isSome_iff_exists.mp held
      exact Heap.load_lt found
    rw [Heap.load_store]
    by_cases same : a = c
    · simp [same, same ▸ bound]
    · simp [same, Ne.symm same]

/-- Three nodes in no list. -/
def threeNodes : Heap MoeListNode := ⟨[some ⟨none, none⟩, some ⟨none, none⟩, some ⟨none, none⟩]⟩

/-- Node 1 is linked into the list behind node 0, and node 2 takes the place of
the sentinel. -/
theorem list_run_refines_threeNodes :
    ∃ s₁ s₂, ListOp.runAll [.init 0, .addTail 0 1] threeNodes = .ok ([.nothing, .nothing], s₁) ∧
      (ListOp.replace 0 2).run s₁ = .ok (.node (some 0), s₂) ∧ WellLinked s₂ 2 := by
  have rep : Represents (· < 3) threeNodes fun _ => none := by
    refine ⟨by decide, nofun, nofun, nofun⟩
  have allowed : Lists.AllowsAll (· < 3) (fun _ => none)
      ([.init 0, .addTail 0 1] ++ [.replace 0 2]) := by
    simp [Lists.AllowsAll, Lists.Allows, Lists.apply, Lists.Detached, Lists.Sentinel, Lists.seq]
    grind
  obtain ⟨s₁, s₂, run₁, run₂, -, -, linked⟩ := list_run_refines rep allowed
  exact ⟨s₁, s₂, run₁, run₂, linked 2 [1] rfl 2 (by simp)⟩

end MoeToolchain
