import MoeToolchain.Common.Base
import MoeToolchain.Lib.Calls
import MoeToolchain.Lib.Ring

/-!
# `moe_list.c`: the intrusive list

The list code sees nothing of the blocks its nodes are embedded in, so the model
runs over any state with a `NodeStore`: a way to read and to write the node at an
address. A `moe_list_node_t*` is the address of the block the node is in, and
`moe_list_entry` is the identity. The assertions are those of the build that has them.

Each write below is one assignment of the source, in the source's order. The
`_ring` lemmas say what the assignments do to a ring of links, under any view
`A k s` of the state that exposes the links of the nodes in question.
-/

namespace MoeToolchain
set_option autoImplicit false
open Lib

/-- `moe_list_node_t`. -/
structure MoeListNode where
  next : Ptr
  prev : Ptr
deriving DecidableEq, Repr

/-- A memory that holds list nodes, each inside some block. -/
class NodeStore (σ : Type) where
  node? : σ → Addr → Option MoeListNode
  setNode : σ → Addr → MoeListNode → σ
  node?_setNode : ∀ s a n c, (node? s a).isSome = true →
    node? (setNode s a n) c = if c = a then some n else node? s c

section Functions

variable {σ : Type} [NodeStore σ]

/-- The node that `p` points to. -/
def nodeAt (p : Ptr) : C σ (Addr × MoeListNode) := fun s =>
  match p with
  | none => .error .nullPointer
  | some a =>
    match NodeStore.node? s a with
    | none => .error .danglingPointer
    | some n => .ok ((a, n), s)

/-- `p->next`. -/
def getNext (p : Ptr) : C σ Ptr := do
  let node ← nodeAt p
  pure node.2.next

/-- `p->prev`. -/
def getPrev (p : Ptr) : C σ Ptr := do
  let node ← nodeAt p
  pure node.2.prev

/-- `p->next = v`. -/
def setNext (p v : Ptr) : C σ Unit := do
  let node ← nodeAt p
  modify fun s => NodeStore.setNode s node.1 { node.2 with next := v }

/-- `p->prev = v`. -/
def setPrev (p v : Ptr) : C σ Unit := do
  let node ← nodeAt p
  modify fun s => NodeStore.setNode s node.1 { node.2 with prev := v }

def moeListNodeInit (node : Ptr) : C σ Unit := do
  setNext node node
  setPrev node node

def moeListAddHead (list node : Ptr) : C σ Unit := do
  let _ ← moeAssertNonNull .assertions list
  let _ ← moeAssertNonNull .assertions node
  let origNext ← getNext list
  setNext list node
  setPrev node list
  setNext node origNext
  setPrev origNext node

def moeListAddTail (list node : Ptr) : C σ Unit := do
  let _ ← moeAssertNonNull .assertions list
  let _ ← moeAssertNonNull .assertions node
  let origPrev ← getPrev list
  setPrev list node
  setPrev node origPrev
  setNext node list
  setNext origPrev node

/-- `list->next == list && list->prev == list`; the second test runs only after the first. -/
def moeListEmpty (list : Ptr) : C σ Bool := do
  let next ← getNext list
  if next = list then do
    let prev ← getPrev list
    pure (prev = list)
  else
    pure false

def moeListHead (list : Ptr) : C σ Ptr := getNext list

def moeListTail (list : Ptr) : C σ Ptr := getPrev list

/-- Each right-hand side is read after the writes before it. -/
def moeListReplace (list node : Ptr) : C σ Ptr := do
  let _ ← moeAssertNonNull .assertions list
  let _ ← moeAssertNonNull .assertions node
  let replaced := list
  setNext (← getPrev list) node
  setPrev node (← getPrev list)
  setPrev (← getNext list) node
  setNext node (← getNext list)
  setNext replaced none
  setPrev replaced none
  pure replaced

def moeListRemove (node : Ptr) : C σ Unit := do
  let _ ← moeAssertNonNull .assertions node
  setNext (← getPrev node) (← getNext node)
  setPrev (← getNext node) (← getPrev node)
  setNext node none
  setPrev node none

/-- The loop of the plain traversals: `link` leads to the node after the current one, and a
callback that returns false breaks. -/
def iterateLoop (link : Ptr → C σ Ptr) (head : Ptr) (iterator : Ptr → C σ Bool) : Nat → Ptr → C σ Unit
  | 0, _ => Exec.fault .outOfFuel
  | fuel + 1, node =>
    if node = head then pure ()
    else do
      let result ← iterator node
      if result then do
        let node ← link node
        iterateLoop link head iterator fuel node
      else pure ()

def moeListIteratePredicated (fuel : Nat) (head : Ptr) (iterator : Ptr → C σ Bool) : C σ Unit := do
  let node ← getNext head
  iterateLoop getNext head iterator fuel node

/-- A callback without a result never breaks. -/
def moeListIterate (fuel : Nat) (head : Ptr) (iterator : Ptr → C σ Unit) : C σ Unit :=
  moeListIteratePredicated fuel head (Exec.always iterator)

/-- The loop of `moe_list_iterate_safe`: `next` is read before the callback runs. -/
def iterateSafeLoop (head : Ptr) (iterator : Ptr → C σ Unit) : Nat → Ptr → C σ Unit
  | 0, _ => Exec.fault .outOfFuel
  | fuel + 1, node =>
    if node = head then pure ()
    else do
      let next ← getNext node
      iterator node
      iterateSafeLoop head iterator fuel next

def moeListIterateSafe (fuel : Nat) (head : Ptr) (iterator : Ptr → C σ Unit) : C σ Unit := do
  let node ← getNext head
  iterateSafeLoop head iterator fuel node

def moeListReverseIteratePredicated (fuel : Nat) (head : Ptr) (iterator : Ptr → C σ Bool) : C σ Unit := do
  let node ← getPrev head
  iterateLoop getPrev head iterator fuel node

def moeListReverseIterate (fuel : Nat) (head : Ptr) (iterator : Ptr → C σ Unit) : C σ Unit :=
  moeListReverseIteratePredicated fuel head (Exec.always iterator)

/-- `moe_list_iterator_t`. -/
structure MoeListIterator where
  current : Ptr
  head : Ptr
deriving DecidableEq, Repr

def moeListIteratorInit (head : Ptr) : MoeListIterator := ⟨head, head⟩

def moeListIteratorNext (it : MoeListIterator) : C σ (Bool × MoeListIterator) := do
  let next ← getNext it.current
  let it' := { it with current := next }
  if it'.current = it'.head then pure (false, it') else pure (true, it')

def moeListIteratorGet (it : MoeListIterator) : Ptr := it.current

/-- `while (moe_list_iterator_next(&it)) ..`, with a body that is given the node of
`moe_list_iterator_get`. It ends with the results of the body and the iterator. -/
def iteratorLoop {α : Type} (body : Ptr → C σ α) : Nat → MoeListIterator → C σ (List α × MoeListIterator)
  | 0, _ => Exec.fault .outOfFuel
  | fuel + 1, it => do
    let step ← moeListIteratorNext it
    if step.1 then do
      let value ← body (moeListIteratorGet step.2)
      let rest ← iteratorLoop body fuel step.2
      pure (value :: rest.1, rest.2)
    else pure ([], step.2)

end Functions

/-! ## Runs on a state whose links are known -/

/-- `A k s`: the nodes in `dom` have in `s` the links `k`, and writing one of them
changes its links alone. -/
structure LinkView {σ : Type} [NodeStore σ] (A : Links → σ → Prop) (dom : Addr → Prop) : Prop where
  read : ∀ {k s a}, A k s → dom a → NodeStore.node? s a = some ⟨k.next a, k.prev a⟩
  write : ∀ {k s a} (n : MoeListNode), A k s → dom a →
    A ((k.setNext a n.next).setPrev a n.prev) (NodeStore.setNode s a n)

section Runs

variable {σ : Type} [NodeStore σ] {A : Links → σ → Prop} {dom : Addr → Prop}
  {k : Links} {s : σ} {a l m n f p : Addr} {xs ys zs : List Addr}

theorem nodeAt_run (view : LinkView A dom) (at_ : A k s) (here : dom a) :
    nodeAt (some a) s = .ok ((a, ⟨k.next a, k.prev a⟩), s) := by
  simp only [nodeAt, view.read at_ here]

theorem getNext_run (view : LinkView A dom) (at_ : A k s) (here : dom a) :
    getNext (some a) s = .ok (k.next a, s) := by
  rw [getNext, Exec.bind_ok (nodeAt_run view at_ here)]
  rfl

theorem getPrev_run (view : LinkView A dom) (at_ : A k s) (here : dom a) :
    getPrev (some a) s = .ok (k.prev a, s) := by
  rw [getPrev, Exec.bind_ok (nodeAt_run view at_ here)]
  rfl

theorem setNext_run (view : LinkView A dom) (at_ : A k s) (here : dom a) (v : Ptr) :
    ∃ s', setNext (some a) v s = .ok ((), s') ∧ A (k.setNext a v) s' := by
  refine ⟨NodeStore.setNode s a ⟨v, k.prev a⟩, ?_, ?_⟩
  · rw [setNext, Exec.bind_ok (nodeAt_run view at_ here)]
    rfl
  · have after := view.write ⟨v, k.prev a⟩ at_ here
    have same : (k.setNext a v).setPrev a (k.prev a) = k.setNext a v := by
      simp [Links.setNext, Links.setPrev]
    rwa [same] at after

theorem setPrev_run (view : LinkView A dom) (at_ : A k s) (here : dom a) (v : Ptr) :
    ∃ s', setPrev (some a) v s = .ok ((), s') ∧ A (k.setPrev a v) s' := by
  refine ⟨NodeStore.setNode s a ⟨k.next a, v⟩, ?_, ?_⟩
  · rw [setPrev, Exec.bind_ok (nodeAt_run view at_ here)]
    rfl
  · have after := view.write ⟨k.next a, v⟩ at_ here
    have same : (k.setNext a (k.next a)).setPrev a v = k.setPrev a v := by
      simp [Links.setNext, Links.setPrev]
    rwa [same] at after

/-- `k'` differs from `k` at the nodes `touched` only. -/
structure LinksFrame (k k' : Links) (touched : List Addr) : Prop where
  next : ∀ x, x ∉ touched → k'.next x = k.next x
  prev : ∀ x, x ∉ touched → k'.prev x = k.prev x

theorem moeListNodeInit_ring (view : LinkView A dom) (at_ : A k s) (here : dom n) :
    ∃ s' k', moeListNodeInit (some n) s = .ok ((), s') ∧ A k' s' ∧ LinkRing k' n [] ∧
      LinksFrame k k' [n] := by
  obtain ⟨s1, run1, at1⟩ := setNext_run view at_ here (some n)
  obtain ⟨s2, run2, at2⟩ := setPrev_run view at1 here (some n)
  refine ⟨s2, _, ?_, at2, ?_, ?_⟩
  · rw [moeListNodeInit, Exec.bind_ok run1, run2]
  · simp [ring_nil, Links.setNext_next, Links.setPrev_prev]
  · constructor
    · intro x outside
      simp only [List.mem_singleton] at outside
      simp [Links.setNext_next, outside]
    · intro x outside
      simp only [List.mem_singleton] at outside
      simp [Links.setPrev_prev, outside]

theorem moeListAddHead_ring (view : LinkView A dom) (at_ : A k s) (ring : LinkRing k l xs)
    (fresh : n ∉ l :: xs) (inside : ∀ x ∈ n :: l :: xs, dom x) :
    ∃ s' k', moeListAddHead (some l) (some n) s = .ok ((), s') ∧ A k' s' ∧
      LinkRing k' l (n :: xs) ∧ LinksFrame k k' (n :: l :: xs) := by
  have first := ring.head
  have firstIn : xs.headD l ∈ l :: xs := headD_mem l xs
  have domN : dom n := inside n (by simp)
  have domL : dom l := inside l (by simp)
  have domF : dom (xs.headD l) := inside _ (List.mem_cons_of_mem _ firstIn)
  obtain ⟨s1, run1, at1⟩ := setNext_run view at_ domL (some n)
  obtain ⟨s2, run2, at2⟩ := setPrev_run view at1 domN (some l)
  obtain ⟨s3, run3, at3⟩ := setNext_run view at2 domN (some (xs.headD l))
  obtain ⟨s4, run4, at4⟩ := setPrev_run view at3 domF (some n)
  refine ⟨s4, _, ?_, at4, ring.insert fresh, ?_⟩
  · simp only [moeListAddHead, moeAssertNonNull_some, pure_bind]
    rw [Exec.bind_ok (getNext_run view at_ domL), first, Exec.bind_ok run1, Exec.bind_ok run2,
      Exec.bind_ok run3, run4]
  · constructor
    · intro x outside
      simp only [List.mem_cons, not_or] at outside
      simp [Links.setNext_next, outside]
    · intro x outside
      have ne : x ≠ xs.headD l := fun same => outside (List.mem_cons_of_mem _ (same ▸ firstIn))
      simp only [List.mem_cons, not_or] at outside
      simp only [Links.setPrev_prev, Links.setNext_prev, if_neg ne, if_neg outside.1]

theorem moeListAddTail_ring (view : LinkView A dom) (at_ : A k s) (ring : LinkRing k l xs)
    (fresh : n ∉ l :: xs) (inside : ∀ x ∈ n :: l :: xs, dom x) :
    ∃ s' k', moeListAddTail (some l) (some n) s = .ok ((), s') ∧ A k' s' ∧
      LinkRing k' l (xs ++ [n]) ∧ LinksFrame k k' (n :: l :: xs) := by
  have last := ring.last
  have lastIn : xs.getLastD l ∈ l :: xs := getLastD_mem l xs
  have domN : dom n := inside n (by simp)
  have domL : dom l := inside l (by simp)
  have domP : dom (xs.getLastD l) := inside _ (List.mem_cons_of_mem _ lastIn)
  obtain ⟨s1, run1, at1⟩ := setPrev_run view at_ domL (some n)
  obtain ⟨s2, run2, at2⟩ := setPrev_run view at1 domN (some (xs.getLastD l))
  obtain ⟨s3, run3, at3⟩ := setNext_run view at2 domN (some l)
  obtain ⟨s4, run4, at4⟩ := setNext_run view at3 domP (some n)
  refine ⟨s4, _, ?_, at4, ring.insert_last fresh, ?_⟩
  · simp only [moeListAddTail, moeAssertNonNull_some, pure_bind]
    rw [Exec.bind_ok (getPrev_run view at_ domL), last, Exec.bind_ok run1, Exec.bind_ok run2,
      Exec.bind_ok run3, run4]
  · constructor
    · intro x outside
      have ne : x ≠ xs.getLastD l := fun same => outside (List.mem_cons_of_mem _ (same ▸ lastIn))
      simp only [List.mem_cons, not_or] at outside
      simp only [Links.setNext_next, Links.setPrev_next, if_neg ne, if_neg outside.1]
    · intro x outside
      simp only [List.mem_cons, not_or] at outside
      simp [Links.setPrev_prev, outside]

theorem moeListRemove_ring (view : LinkView A dom) (at_ : A k s)
    (ring : LinkRing k l (ys ++ m :: zs)) (inside : ∀ x ∈ l :: (ys ++ m :: zs), dom x) :
    ∃ s' k', moeListRemove (some m) s = .ok ((), s') ∧ A k' s' ∧ LinkRing k' l (ys ++ zs) ∧
      k'.next m = none ∧ k'.prev m = none ∧ LinksFrame k k' (l :: (ys ++ m :: zs)) := by
  obtain ⟨before, after⟩ := path_append.mp ring.path
  have prev := before.last
  have next := after.head
  have lastIn : ys.getLastD l ∈ l :: ys := getLastD_mem l ys
  have firstIn : zs.headD l ∈ l :: zs := headD_mem l zs
  have apart : m ∉ l :: (ys ++ zs) := by
    intro mem
    apply (List.nodup_cons.mp ring.rotate.nodup).1
    simp only [List.mem_cons, List.mem_append] at mem ⊢
    tauto
  have lastApart : m ≠ ys.getLastD l := by
    rintro same
    rw [same] at apart
    exact apart (by simp only [List.mem_cons, List.mem_append] at lastIn ⊢; tauto)
  have domM : dom m := inside m (by simp)
  have domP : dom (ys.getLastD l) :=
    inside _ (by simp only [List.mem_cons, List.mem_append] at lastIn ⊢; tauto)
  have domF : dom (zs.headD l) :=
    inside _ (by simp only [List.mem_cons, List.mem_append] at firstIn ⊢; tauto)
  obtain ⟨s1, run1, at1⟩ := setNext_run view at_ domP (some (zs.headD l))
  have next1 : (k.setNext (ys.getLastD l) (some (zs.headD l))).next m = some (zs.headD l) := by
    rw [Links.setNext_next, if_neg lastApart, next]
  obtain ⟨s2, run2, at2⟩ := setPrev_run view at1 domF (some (ys.getLastD l))
  obtain ⟨s3, run3, at3⟩ := setNext_run view at2 domM none
  obtain ⟨s4, run4, at4⟩ := setPrev_run view at3 domM none
  refine ⟨s4, _, ?_, at4, ?_, ?_, ?_, ?_, ?_⟩
  · simp only [moeListRemove, moeAssertNonNull_some, pure_bind]
    rw [Exec.bind_ok (getPrev_run view at_ domM), Exec.bind_ok (getNext_run view at_ domM), prev, next,
      Exec.bind_ok run1, Exec.bind_ok (getNext_run view at1 domM), next1,
      Exec.bind_ok (getPrev_run view at1 domM), Links.setNext_prev, prev, Exec.bind_ok run2,
      Exec.bind_ok run3, run4]
  · apply ring.unlink_member.congr
    · intro x mem
      have ne : x ≠ m := fun same => apart (same ▸ mem)
      simp only [Links.setPrev_next, Links.setNext_next, if_neg ne]
    · intro x mem
      have ne : x ≠ m := fun same => apart (same ▸ mem)
      simp only [Links.setNext_prev, Links.setPrev_prev, if_neg ne]
  · simp [Links.setNext_next]
  · simp [Links.setPrev_prev]
  · intro x outside
    have ne : x ≠ m := fun same => outside (by simp [same])
    have ne' : x ≠ ys.getLastD l := fun same => outside (by
      rw [same]; simp only [List.mem_cons, List.mem_append] at lastIn ⊢; tauto)
    simp only [Links.setPrev_next, Links.setNext_next, if_neg ne, if_neg ne']
  · intro x outside
    have ne : x ≠ m := fun same => outside (by simp [same])
    have ne' : x ≠ zs.headD l := fun same => outside (by
      rw [same]; simp only [List.mem_cons, List.mem_append] at firstIn ⊢; tauto)
    simp only [Links.setNext_prev, Links.setPrev_prev, if_neg ne, if_neg ne']

/-- Replacing the sentinel. In an empty ring the first write already changes the
`next` that is read again two lines later. -/
theorem moeListReplace_ring (view : LinkView A dom) (at_ : A k s) (ring : LinkRing k m xs)
    (fresh : n ∉ m :: xs) (inside : ∀ x ∈ n :: m :: xs, dom x) :
    ∃ s' k', moeListReplace (some m) (some n) s = .ok (some m, s') ∧ A k' s' ∧ LinkRing k' n xs ∧
      k'.next m = none ∧ k'.prev m = none ∧ LinksFrame k k' (n :: m :: xs) := by
  have prev := ring.last
  have lastIn : xs.getLastD m ∈ m :: xs := getLastD_mem m xs
  have firstIn : xs.headD n ∈ n :: xs := headD_mem n xs
  have apart : n ≠ m := fun same => fresh (by simp [same])
  have away : m ∉ xs := (List.nodup_cons.mp ring.nodup).1
  have domN : dom n := inside n (by simp)
  have domM : dom m := inside m (by simp)
  have domP : dom (xs.getLastD m) := inside _ (List.mem_cons_of_mem _ lastIn)
  have domF : dom (xs.headD n) :=
    inside _ (by simp only [List.mem_cons] at firstIn ⊢; tauto)
  obtain ⟨s1, run1, at1⟩ := setNext_run view at_ domP (some n)
  obtain ⟨s2, run2, at2⟩ := setPrev_run view at1 domN (some (xs.getLastD m))
  -- the `next` of the replaced node after the first write
  have next2 : (k.setNext (xs.getLastD m) (some n)).next m = some (xs.headD n) := by
    rw [Links.setNext_next]
    rcases List.eq_nil_or_concat xs with rfl | ⟨ys, y, rfl⟩
    · simp
    · rw [List.concat_eq_append] at *
      have ne : m ≠ (ys ++ [y]).getLastD m := fun same => away (by
        rw [List.getLastD_concat] at same; simp [same])
      rw [if_neg ne, ring.head]
      cases ys <;> simp
  obtain ⟨s3, run3, at3⟩ := setPrev_run view at2 domF (some n)
  obtain ⟨s4, run4, at4⟩ := setNext_run view at3 domN (some (xs.headD n))
  obtain ⟨s5, run5, at5⟩ := setNext_run view at4 domM none
  obtain ⟨s6, run6, at6⟩ := setPrev_run view at5 domM none
  have run : moeListReplace (some m) (some n) s = .ok (some m, s6) := by
    simp only [moeListReplace, moeAssertNonNull_some, pure_bind]
    rw [Exec.bind_ok (getPrev_run view at_ domM), prev, Exec.bind_ok run1,
      Exec.bind_ok (getPrev_run view at1 domM), Links.setNext_prev, prev, Exec.bind_ok run2,
      Exec.bind_ok (getNext_run view at2 domM), Links.setPrev_next, next2, Exec.bind_ok run3,
      Exec.bind_ok (getNext_run view at3 domM), Links.setPrev_next, Links.setPrev_next, next2,
      Exec.bind_ok run4, Exec.bind_ok run5, Exec.bind_ok run6]
    rfl
  refine ⟨s6, _, run, at6, ?_, ?_, ?_, ?_, ?_⟩
  · have nodup := List.nodup_cons.mpr
      ⟨fun mem => fresh (List.mem_cons_of_mem _ mem), (List.nodup_cons.mp ring.nodup).2⟩
    rcases List.eq_nil_or_concat xs with rfl | ⟨ys, y, rfl⟩
    · simp [ring_nil, Links.setNext_next, Links.setPrev_prev, apart]
    · rw [List.concat_eq_append] at *
      apply (ring.substitute fresh).congr
      · intro x mem
        have ne : x ≠ m := by
          rintro rfl
          rcases List.mem_cons.mp mem with same | mem
          · exact apart same.symm
          · exact away mem
        simp only [Links.setPrev_next, Links.setNext_next, if_neg ne, List.getLastD_concat]
      · intro x mem
        have ne : x ≠ m := by
          rintro rfl
          rcases List.mem_cons.mp mem with same | mem
          · exact apart same.symm
          · exact away mem
        simp only [Links.setNext_prev, Links.setPrev_prev, if_neg ne, List.getLastD_concat]
  · simp [Links.setNext_next]
  · simp [Links.setPrev_prev]
  · intro x outside
    have ne : x ≠ xs.getLastD m := fun same => outside (List.mem_cons_of_mem _ (same ▸ lastIn))
    simp only [List.mem_cons, not_or] at outside
    simp only [Links.setPrev_next, Links.setNext_next, if_neg outside.1, if_neg outside.2.1, if_neg ne]
  · intro x outside
    have ne : x ≠ xs.headD n := fun same => outside (by
      rw [same]; simp only [List.mem_cons] at firstIn ⊢; tauto)
    simp only [List.mem_cons, not_or] at outside
    simp only [Links.setNext_prev, Links.setPrev_prev, if_neg outside.1, if_neg outside.2.1, if_neg ne]

/-- Replacing a member is replacing the sentinel of the ring read from it. -/
theorem moeListReplace_member_ring (view : LinkView A dom) (at_ : A k s)
    (ring : LinkRing k l (ys ++ m :: zs)) (fresh : n ∉ l :: (ys ++ m :: zs))
    (inside : ∀ x ∈ n :: l :: (ys ++ m :: zs), dom x) :
    ∃ s' k', moeListReplace (some m) (some n) s = .ok (some m, s') ∧ A k' s' ∧
      LinkRing k' l (ys ++ n :: zs) ∧ k'.next m = none ∧ k'.prev m = none ∧
      LinksFrame k k' (n :: l :: (ys ++ m :: zs)) := by
  have same : ∀ x, x ∈ m :: (zs ++ l :: ys) ↔ x ∈ l :: (ys ++ m :: zs) := by
    intro x
    simp only [List.mem_cons, List.mem_append]
    tauto
  obtain ⟨s', k', run, view', ring', next, prev, frame⟩ := moeListReplace_ring view at_ ring.rotate
    (fun mem => fresh ((same n).mp mem)) (fun x mem => inside x (by
      rcases List.mem_cons.mp mem with rfl | mem
      · simp
      · exact List.mem_cons_of_mem _ ((same x).mp mem)))
  have outside : ∀ x, x ∉ n :: l :: (ys ++ m :: zs) → x ∉ n :: m :: (zs ++ l :: ys) := by
    intro x out mem
    rcases List.mem_cons.mp mem with rfl | mem
    · exact out (by simp)
    · exact out (List.mem_cons_of_mem _ ((same x).mp mem))
  exact ⟨s', k', run, view', ring'.rotate, next, prev,
    fun x out => frame.next x (outside x out), fun x out => frame.prev x (outside x out)⟩

theorem moeListHead_ring (view : LinkView A dom) (at_ : A k s) (ring : LinkRing k l xs)
    (here : dom l) : moeListHead (some l) s = .ok (some (xs.headD l), s) := by
  rw [moeListHead, getNext_run view at_ here, ring.head]

theorem moeListTail_ring (view : LinkView A dom) (at_ : A k s) (ring : LinkRing k l xs)
    (here : dom l) : moeListTail (some l) s = .ok (some (xs.getLastD l), s) := by
  rw [moeListTail, getPrev_run view at_ here, ring.last]

theorem moeListEmpty_ring (view : LinkView A dom) (at_ : A k s) (ring : LinkRing k l xs)
    (here : dom l) : moeListEmpty (some l) s = .ok (xs.isEmpty, s) := by
  rw [moeListEmpty, Exec.bind_ok (getNext_run view at_ here), ring.head]
  cases xs with
  | nil =>
    rw [if_pos (by simp), Exec.bind_ok (getPrev_run view at_ here), ring.last]
    simp
  | cons x xs =>
    have ne : x ≠ l := fun same => (List.nodup_cons.mp ring.nodup).1 (by simp [same])
    simp [ne]

end Runs

end MoeToolchain
