import MoeToolchain.Common.MoeListRuns

/-!
# Traversals of a list

A traversal is compared with the calls that it is to make: the callback on the nodes of
the sequence, one after the other, whatever it does besides. So the loop itself reads no
node that is not linked, and comes to an end.

* `traversals_agree`: the traversals for callbacks that do not modify links.
* `iterate_safe_deletes`: `moe_list_iterate_safe`, whose callback may free its node, or take
  it out of the list.
* `iterate_deletes_iff`: with such callbacks `moe_list_iterate` ends only if nothing is deleted.
-/

namespace MoeToolchain
set_option autoImplicit false
open Lib

/-! ## The loops -/

section Loops

variable {σ : Type} [NodeStore σ] {s s' : σ} {l a : Addr} {xs nodes : List Addr}

/-- `link` reads the link `field` of a node. -/
def ReadsLink (σ : Type) [NodeStore σ] (link : Ptr → C σ Ptr) (field : Links → Addr → Ptr) : Prop :=
  ∀ {s : σ} {a b : Addr}, field (linksOf s) a = some b → link (some a) s = .ok (some b, s)

theorem node_of_link {field : MoeListNode → Ptr} {b : Addr}
    (linked : (NodeStore.node? s a).bind field = some b) : ∃ n, NodeStore.node? s a = some n ∧ field n = some b :=
  Option.bind_eq_some_iff.mp linked

theorem getNext_reads : ReadsLink σ getNext Links.next := by
  intro s a b linked
  obtain ⟨n, found, next⟩ := node_of_link linked
  have at_ : nodeAt (some a) s = .ok ((a, n), s) := by simp only [nodeAt, found]
  rw [getNext, Exec.bind_ok at_, ← next]
  rfl

theorem getPrev_reads : ReadsLink σ getPrev Links.prev := by
  intro s a b linked
  obtain ⟨n, found, prev⟩ := node_of_link linked
  have at_ : nodeAt (some a) s = .ok ((a, n), s) := by simp only [nodeAt, found]
  rw [getPrev, Exec.bind_ok at_, ← prev]
  rfl

/-- The call on `x` keeps the link that leads on from each of `ys`. -/
def KeepsField (field : Links → Addr → Ptr) (ys : List Addr) (s s' : σ) : Prop :=
  ∀ a ∈ ys, field (linksOf s') a = field (linksOf s) a

/-- The loop calls the callback on the nodes up to the sentinel, if the calls keep the links
that are still to be followed. The induction is on these nodes. -/
theorem iterateLoop_run {link : Ptr → C σ Ptr} {field : Links → Addr → Ptr} (reads : ReadsLink σ link field)
    {iterator : Ptr → C σ Bool} : ∀ {xs : List Addr} {s : σ} {fuel : Nat},
    LeadsTo (field (linksOf s)) xs l → l ∉ xs →
    Exec.EachCall (fun x => iterator (some x)) id (fun x later => KeepsField field (x :: later)) xs s →
    xs.length < fuel →
    iterateLoop link (some l) iterator fuel (some (xs.headD l)) s =
      Exec.callUntil (fun x => iterator (some x)) xs s := by
  intro xs
  induction xs with
  | nil =>
    intro s fuel leads outside each enough
    obtain ⟨fuel, rfl⟩ := Nat.exists_eq_add_of_lt enough
    simp [iterateLoop, Exec.callUntil]
  | cons x xs ih =>
    intro s fuel leads outside each enough
    obtain ⟨fuel, rfl⟩ := Nat.exists_eq_succ_of_ne_zero (Nat.ne_of_gt (Nat.zero_lt_of_lt enough))
    have other : ¬ (some x : Ptr) = some l := fun same => outside (by simp [Option.some.inj same])
    show iterateLoop link (some l) iterator (fuel + 1) (some x) s = _
    rw [iterateLoop, if_neg other, Exec.callUntil]
    cases call : iterator (some x) s with
    | error e => rw [Exec.bind_error call, Exec.bind_error call]
    | ok r =>
      obtain ⟨more, s1⟩ := r
      obtain ⟨kept, later⟩ := each more s1 call
      rw [Exec.bind_ok call, Exec.bind_ok call]
      cases more with
      | false => rfl
      | true =>
        obtain ⟨here, rest⟩ := leadsTo_cons.mp (leads.congr kept)
        simp only [if_true]
        rw [Exec.bind_ok (reads here)]
        exact ih rest (fun mem => outside (List.mem_cons_of_mem _ mem)) (later rfl) (Nat.lt_of_succ_lt_succ enough)

/-- Here the link is followed before the call: afterwards the links have to lead through the
nodes still to come, and may have left the node of the call. -/
theorem iterateSafeLoop_run {iterator : Ptr → C σ Unit} : ∀ {xs : List Addr} {s : σ} {fuel : Nat},
    LeadsTo (linksOf s).next xs l → l ∉ xs →
    Exec.EachCall (fun x => iterator (some x)) (fun _ => true)
      (fun _ later _ s' => LeadsTo (linksOf s').next later l) xs s →
    xs.length < fuel →
    iterateSafeLoop (some l) iterator fuel (some (xs.headD l)) s = forM xs (fun x => iterator (some x)) s := by
  intro xs
  induction xs with
  | nil =>
    intro s fuel leads outside each enough
    obtain ⟨fuel, rfl⟩ := Nat.exists_eq_add_of_lt enough
    simp [iterateSafeLoop]
  | cons x xs ih =>
    intro s fuel leads outside each enough
    obtain ⟨fuel, rfl⟩ := Nat.exists_eq_succ_of_ne_zero (Nat.ne_of_gt (Nat.zero_lt_of_lt enough))
    have other : ¬ (some x : Ptr) = some l := fun same => outside (by simp [Option.some.inj same])
    obtain ⟨here, -⟩ := leadsTo_cons.mp leads
    show iterateSafeLoop (some l) iterator (fuel + 1) (some x) s = _
    rw [iterateSafeLoop, if_neg other, List.forM_cons, Exec.bind_ok (getNext_reads here)]
    cases call : iterator (some x) s with
    | error e => rw [Exec.bind_error call, Exec.bind_error call]
    | ok r =>
      obtain ⟨_, s1⟩ := r
      obtain ⟨rest, later⟩ := each () s1 call
      rw [Exec.bind_ok call, Exec.bind_ok call]
      exact ih rest (fun mem => outside (List.mem_cons_of_mem _ mem)) (later rfl) (Nat.lt_of_succ_lt_succ enough)

/-- The external iterator comes from `a`, which the body was called on before, so that link
is to be kept too. -/
theorem iteratorLoop_run {α : Type} {body : Ptr → C σ α} : ∀ {xs : List Addr} {a : Addr} {s : σ} {fuel : Nat},
    LeadsTo (linksOf s).next (a :: xs) l → l ∉ xs →
    Exec.EachCall (fun x => body (some x)) (fun _ => true) (fun x later => KeepsField Links.next (x :: later)) xs s →
    xs.length < fuel →
    iteratorLoop body fuel ⟨some a, some l⟩ s = (do
      let values ← xs.mapM fun x => body (some x)
      pure (values, moeListIteratorInit (some l)) : C σ (List α × MoeListIterator)) s := by
  intro xs
  induction xs with
  | nil =>
    intro a s fuel leads outside each enough
    obtain ⟨fuel, rfl⟩ := Nat.exists_eq_add_of_lt enough
    obtain ⟨here, -⟩ := leadsTo_cons.mp leads
    have step : moeListIteratorNext ⟨some a, some l⟩ s = .ok ((false, moeListIteratorInit (some l)), s) := by
      rw [moeListIteratorNext, Exec.bind_ok (getNext_reads here)]
      simp [moeListIteratorInit]
    simp only [List.length_nil, Nat.zero_add, iteratorLoop]
    rw [Exec.bind_ok step]
    rfl
  | cons x xs ih =>
    intro a s fuel leads outside each enough
    obtain ⟨fuel, rfl⟩ := Nat.exists_eq_succ_of_ne_zero (Nat.ne_of_gt (Nat.zero_lt_of_lt enough))
    obtain ⟨here, rest⟩ := leadsTo_cons.mp leads
    have other : ¬ (some x : Ptr) = some l := fun same => outside (by simp [Option.some.inj same])
    have next : getNext (some a) s = .ok (some x, s) := getNext_reads here
    have step : moeListIteratorNext ⟨some a, some l⟩ s = .ok ((true, ⟨some x, some l⟩), s) := by
      rw [moeListIteratorNext, Exec.bind_ok next]
      simp only [if_neg other]
      rfl
    simp only [iteratorLoop]
    rw [Exec.bind_ok step, List.mapM_cons]
    simp only [if_true, moeListIteratorGet, bind_assoc, pure_bind]
    cases call : body (some x) s with
    | error e => rw [Exec.bind_error call, Exec.bind_error call]
    | ok r =>
      obtain ⟨value, s1⟩ := r
      obtain ⟨kept, later⟩ := each value s1 call
      have turned := ih (rest.congr kept) (fun mem => outside (List.mem_cons_of_mem _ mem)) (later rfl)
        (Nat.lt_of_succ_lt_succ enough)
      rw [Exec.bind_ok call, Exec.bind_ok call, Exec.bind_apply, turned, Exec.bind_apply, Exec.bind_apply]
      cases (xs.mapM fun x => body (some x)) s1 with
      | error e => rfl
      | ok r => rfl

end Loops

/-! ## Callbacks that do not modify links -/

section ReadOnly

variable {σ : Type} [NodeStore σ] {s s' : σ} {l : Addr} {xs ys nodes : List Addr} {fuel : Nat}

/-- The nodes have the same links before and after. -/
def SameLinks (nodes : List Addr) (s s' : σ) : Prop :=
  ∀ a ∈ nodes, (linksOf s').next a = (linksOf s).next a ∧ (linksOf s').prev a = (linksOf s).prev a

theorem SameLinks.next (same : SameLinks nodes s s') : KeepsField Links.next nodes s s' :=
  fun a mem => (same a mem).1

theorem SameLinks.prev (same : SameLinks nodes s s') : KeepsField Links.prev nodes s s' :=
  fun a mem => (same a mem).2

theorem SameLinks.ring (same : SameLinks (l :: xs) s s') (ring : LinkRing (linksOf s) l xs) :
    LinkRing (linksOf s') l xs := ring.congr same.next same.prev

/-- Of the calls on `ys`, as long as the results go on, none modifies a link of `nodes`. -/
def KeepsLinks {β : Type} (iterator : Ptr → C σ β) (goesOn : β → Bool) (nodes ys : List Addr) (s : σ) : Prop :=
  Exec.EachCall (fun x => iterator (some x)) goesOn (fun _ _ => SameLinks nodes) ys s

theorem KeepsLinks.field {β : Type} {iterator : Ptr → C σ β} {goesOn : β → Bool} {field : Links → Addr → Ptr}
    (keeps : KeepsLinks iterator goesOn nodes ys s) (inside : ∀ y ∈ ys, y ∈ nodes)
    (same : ∀ s s' : σ, SameLinks nodes s s' → KeepsField field nodes s s') :
    Exec.EachCall (fun x => iterator (some x)) goesOn (fun x later => KeepsField field (x :: later)) ys s := by
  induction ys generalizing s with
  | nil => trivial
  | cons y ys ih =>
    intro b s' call
    obtain ⟨here, later⟩ := keeps b s' call
    refine ⟨fun a mem => same s s' here a (inside a mem), fun goes => ?_⟩
    exact ih (later goes) fun a mem => inside a (List.mem_cons_of_mem _ mem)

/-- The run is the calls of `iterator` on `ys` up to the first that returns false, and in
one that ends these are the shortest such prefix of `ys`. -/
def VisitsUpToFalse (traversal : C σ Unit) (iterator : Ptr → C σ Bool) (ys : List Addr) (s : σ) : Prop :=
  traversal s = Exec.callUntil (fun x => iterator (some x)) ys s ∧
    ∀ s', traversal s = .ok ((), s') →
      ∃ calls, Exec.Calls (fun x => iterator (some x)) s calls s' ∧ Exec.UpToFalse ys calls

/-- The loop over the iterator `it` runs the body on `ys` in order, and leaves `it` as it was. -/
def RunsThrough {α : Type} (fuel : Nat) (it : MoeListIterator) (body : Ptr → C σ α) (ys : List Addr) (s : σ) : Prop :=
  iteratorLoop body fuel it s = (do
    let values ← ys.mapM fun x => body (some x)
    pure (values, it) : C σ (List α × MoeListIterator)) s

theorem iteratePredicated_visits (ring : LinkRing (linksOf s) l xs) (enough : xs.length < fuel)
    {iterator : Ptr → C σ Bool} (keeps : KeepsLinks iterator id (l :: xs) xs s) :
    VisitsUpToFalse (moeListIteratePredicated fuel (some l) iterator) iterator xs s := by
  obtain ⟨first, rest⟩ := leadsTo_cons.mp ring.path.forward
  have run : moeListIteratePredicated fuel (some l) iterator s =
      Exec.callUntil (fun x => iterator (some x)) xs s := by
    rw [moeListIteratePredicated, Exec.bind_ok (getNext_reads first)]
    exact iterateLoop_run getNext_reads rest (List.nodup_cons.mp ring.nodup).1
      (keeps.field (fun _ => List.mem_cons_of_mem _) fun _ _ same => same.next) enough
  refine ⟨run, fun s' ends => ?_⟩
  rw [run] at ends
  exact Exec.callUntil_ok.mp ends

theorem reverseIteratePredicated_visits (ring : LinkRing (linksOf s) l xs) (enough : xs.length < fuel)
    {iterator : Ptr → C σ Bool} (keeps : KeepsLinks iterator id (l :: xs) xs.reverse s) :
    VisitsUpToFalse (moeListReverseIteratePredicated fuel (some l) iterator) iterator xs.reverse s := by
  obtain ⟨first, rest⟩ := leadsTo_cons.mp ring.path.backward
  have outside : l ∉ xs.reverse := fun mem => (List.nodup_cons.mp ring.nodup).1 (List.mem_reverse.mp mem)
  have run : moeListReverseIteratePredicated fuel (some l) iterator s =
      Exec.callUntil (fun x => iterator (some x)) xs.reverse s := by
    rw [moeListReverseIteratePredicated, Exec.bind_ok (getPrev_reads first)]
    refine iterateLoop_run getPrev_reads rest outside ?_ (by rwa [List.length_reverse])
    exact keeps.field (fun _ mem => List.mem_cons_of_mem _ (List.mem_reverse.mp mem)) fun _ _ same => same.prev
  refine ⟨run, fun s' ends => ?_⟩
  rw [run] at ends
  exact Exec.callUntil_ok.mp ends

theorem iterator_runsThrough {α : Type} (ring : LinkRing (linksOf s) l xs) (enough : xs.length < fuel)
    {body : Ptr → C σ α} (keeps : KeepsLinks body (fun _ => true) (l :: xs) xs s) :
    RunsThrough fuel (moeListIteratorInit (some l)) body xs s :=
  iteratorLoop_run ring.path.forward (List.nodup_cons.mp ring.nodup).1
    (keeps.field (fun _ => List.mem_cons_of_mem _) fun _ _ same => same.next) enough

/-- The body leaves a ring behind that it finds. -/
theorem KeepsLinks.ring {α : Type} {body : Ptr → C σ α} :
    ∀ {ys : List Addr} {s : σ} {values : List α} {s' : σ}, LinkRing (linksOf s) l xs →
      KeepsLinks body (fun _ => true) (l :: xs) ys s → ys.mapM (fun x => body (some x)) s = .ok (values, s') →
      LinkRing (linksOf s') l xs := by
  intro ys
  induction ys with
  | nil =>
    intro s values s' ring keeps run
    cases run
    exact ring
  | cons y ys ih =>
    intro s values s' ring keeps run
    rw [List.mapM_cons] at run
    obtain ⟨value, s1, call, run⟩ := Exec.bind_eq_ok.mp run
    obtain ⟨rest, s2, later, run⟩ := Exec.bind_eq_ok.mp run
    cases run
    obtain ⟨same, kept⟩ := keeps value s1 call
    exact ih (same.ring ring) (kept rfl) later

/-- **All read-only traversals agree**, whatever the callbacks do to anything but links. The
loops end in as many turns as there are nodes and one, an exhausted iterator is the initial
one, and another loop over it goes through the same nodes. -/
theorem traversals_agree (ring : LinkRing (linksOf s) l xs) (enough : xs.length < fuel) :
    (∀ iterator : Ptr → C σ Unit, KeepsLinks iterator (fun _ => true) (l :: xs) xs s →
      moeListIterate fuel (some l) iterator s = (forM xs fun x => iterator (some x)) s) ∧
    (∀ iterator : Ptr → C σ Unit, KeepsLinks iterator (fun _ => true) (l :: xs) xs.reverse s →
      moeListReverseIterate fuel (some l) iterator s = (forM xs.reverse fun x => iterator (some x)) s) ∧
    (∀ iterator : Ptr → C σ Bool, KeepsLinks iterator id (l :: xs) xs s →
      VisitsUpToFalse (moeListIteratePredicated fuel (some l) iterator) iterator xs s) ∧
    (∀ iterator : Ptr → C σ Bool, KeepsLinks iterator id (l :: xs) xs.reverse s →
      VisitsUpToFalse (moeListReverseIteratePredicated fuel (some l) iterator) iterator xs.reverse s) ∧
    ∀ (α : Type) (body : Ptr → C σ α), KeepsLinks body (fun _ => true) (l :: xs) xs s →
      RunsThrough fuel (moeListIteratorInit (some l)) body xs s ∧
      ∀ values it s', iteratorLoop body fuel (moeListIteratorInit (some l)) s = .ok ((values, it), s') →
        it = moeListIteratorInit (some l) ∧
        ∀ again : Ptr → C σ α, KeepsLinks again (fun _ => true) (l :: xs) xs s' → RunsThrough fuel it again xs s' := by
  refine ⟨?_, ?_, ?_, ?_, ?_⟩
  · intro iterator keeps
    have keeps' : KeepsLinks (Exec.always iterator) id (l :: xs) xs s := Exec.eachCall_always.mpr keeps
    have visits := iteratePredicated_visits ring enough keeps'
    exact visits.1.trans (congrFun (Exec.callUntil_always _ xs) s)
  · intro iterator keeps
    have keeps' : KeepsLinks (Exec.always iterator) id (l :: xs) xs.reverse s := Exec.eachCall_always.mpr keeps
    have visits := reverseIteratePredicated_visits ring enough keeps'
    exact visits.1.trans (congrFun (Exec.callUntil_always _ xs.reverse) s)
  · exact fun iterator keeps => iteratePredicated_visits ring enough keeps
  · exact fun iterator keeps => reverseIteratePredicated_visits ring enough keeps
  · intro α body keeps
    have through := iterator_runsThrough ring enough keeps
    refine ⟨through, fun values it s' ends => ?_⟩
    rw [through, Exec.bind_eq_ok] at ends
    obtain ⟨values', s1, calls, done⟩ := ends
    cases done
    exact ⟨rfl, fun again keeps' => iterator_runsThrough (keeps.ring ring calls) enough keeps'⟩

end ReadOnly

/-! ## Callbacks that free or detach their node -/

section Deleting

variable {σ : Type} [NodeStore σ] {s s' : σ} {l x : Addr} {xs later kept : List Addr} {fuel : Nat}

/-- What `moe_list_iterate_safe` calls, by an invariant of the nodes still to come under
which they are linked. -/
theorem iterateSafe_calls (iterator : Ptr → C σ Unit) (holds : List Addr → σ → Prop)
    (ring : LinkRing (linksOf s) l xs) (enough : xs.length < fuel) (start : holds xs s)
    (linked : ∀ {later s}, holds later s → LeadsTo (linksOf s).next later l)
    (turn : ∀ x later s, holds (x :: later) s → ∃ s', iterator (some x) s = .ok ((), s') ∧ holds later s') :
    ∃ s', moeListIterateSafe fuel (some l) iterator s = .ok ((), s') ∧
      Exec.Calls (fun x => iterator (some x)) s (xs.map (·, ())) s' ∧ holds [] s' := by
  obtain ⟨first, rest⟩ := leadsTo_cons.mp ring.path.forward
  obtain ⟨each, s', calls, final⟩ := Exec.calls_invariant turn start
  refine ⟨s', ?_, calls, final⟩
  rw [moeListIterateSafe, Exec.bind_ok (getNext_reads first),
    iterateSafeLoop_run rest (List.nodup_cons.mp ring.nodup).1 (each.imp fun _ _ _ _ => linked) enough]
  exact Exec.forM_ok.mpr calls

/-- The calls on these nodes return, each with its node freed and the links of those to come
as they were. The links of the sentinel and of the nodes before it may dangle. -/
def FreesEach (iterator : Ptr → C σ Unit) : List Addr → σ → Prop
  | [], _ => True
  | x :: later, s => ∃ s', iterator (some x) s = .ok ((), s') ∧ NodeStore.node? s' x = none ∧
      SameLinks later s s' ∧ FreesEach iterator later s'

/-- A callback that takes the nodes that `test` finds out of their list; `release` may free
them then. -/
def detaching (test : Ptr → C σ Bool) (release : Ptr → C σ Unit) (node : Ptr) : C σ Unit := do
  let found ← test node
  if found then do
    moeListRemove node
    release node
  else pure ()

/-- No link of a list behind `l` is modified. -/
def KeepsList (l : Addr) (s s' : σ) : Prop := ∀ ys, LinkRing (linksOf s) l ys → SameLinks (l :: ys) s s'

theorem KeepsList.ring (keeps : KeepsList l s s') (ring : LinkRing (linksOf s) l xs) :
    LinkRing (linksOf s') l xs := (keeps xs ring).ring ring

/-- The tests of these nodes return what `p` says of them and leave the list alone; so do
the releases, for which the node is in the list no longer. -/
def DetachesEach (p : Addr → Bool) (test : Ptr → C σ Bool) (release : Ptr → C σ Unit) (l : Addr) :
    List Addr → σ → Prop
  | [], _ => True
  | x :: later, s => ∃ s₀, test (some x) s = .ok (p x, s₀) ∧ KeepsList l s s₀ ∧
      (p x = false → DetachesEach p test release l later s₀) ∧
      (p x = true → ∀ s₁, moeListRemove (some x) s₀ = .ok ((), s₁) →
        ∃ s₂, release (some x) s₁ = .ok ((), s₂) ∧ KeepsList l s₁ s₂ ∧ DetachesEach p test release l later s₂)

/-- Removing a member reads and writes linked nodes only. -/
theorem moeListRemove_member (ring : LinkRing (linksOf s) l (kept ++ x :: later)) :
    ∃ s', moeListRemove (some x) s = .ok ((), s') ∧ LinkRing (linksOf s') l (kept ++ later) := by
  have at_ : AtLinks (· ∈ l :: (kept ++ x :: later)) (linksOf s) s := by
    refine ⟨rfl, fun a mem => ?_⟩
    obtain ⟨⟨b, -, next, -⟩, -⟩ := ring.linked mem
    obtain ⟨n, found, -⟩ := node_of_link next
    rw [found]
    rfl
  obtain ⟨s', k', run, ⟨rfl, -⟩, ring', -⟩ := moeListRemove_ring atLinks_view at_ ring fun _ mem => mem
  exact ⟨s', run, ring'⟩

/-- Of the nodes to come, `kept` are the ones before that are still linked. -/
def Detaching (p : Addr → Bool) (test : Ptr → C σ Bool) (release : Ptr → C σ Unit) (l : Addr) (xs later : List Addr)
    (s : σ) : Prop :=
  ∃ kept, LinkRing (linksOf s) l (kept ++ later) ∧ kept ++ later.filter (fun x => !p x) = xs.filter (fun x => !p x) ∧
    DetachesEach p test release l later s

/-- One call of a callback that detaches. -/
theorem detaching_turn {p : Addr → Bool} {test : Ptr → C σ Bool} {release : Ptr → C σ Unit} (x : Addr)
    (later : List Addr) (s : σ) (holds : Detaching p test release l xs (x :: later) s) :
    ∃ s', detaching test release (some x) s = .ok ((), s') ∧ Detaching p test release l xs later s' := by
  obtain ⟨kept, ring, filtered, s₀, tested, alone, stays, goes⟩ := holds
  have ring₀ := alone.ring ring
  rw [detaching, Exec.bind_ok tested]
  cases found : p x with
  | false =>
    refine ⟨s₀, rfl, kept ++ [x], by simpa using ring₀, ?_, stays found⟩
    rw [← filtered]
    simp [found]
  | true =>
    obtain ⟨s₁, removed, ring₁⟩ := moeListRemove_member ring₀
    obtain ⟨s₂, released, alone', rest⟩ := goes found s₁ removed
    refine ⟨s₂, ?_, kept, alone'.ring ring₁, ?_, rest⟩
    · rw [if_pos rfl, Exec.bind_ok removed, released]
    · rw [← filtered]
      simp [found]

/-- **The traversal for callbacks that delete.** It ends without a fault after a call on
every node that was in the list, in order: so neither the loop nor the removals follow a link
of a node that is freed or detached. What is left is the list of the nodes that stay. -/
theorem iterate_safe_deletes (ring : LinkRing (linksOf s) l xs) (enough : xs.length < fuel) :
    (∀ iterator : Ptr → C σ Unit, FreesEach iterator xs s →
      ∃ s', moeListIterateSafe fuel (some l) iterator s = .ok ((), s') ∧
        Exec.Calls (fun x => iterator (some x)) s (xs.map (·, ())) s') ∧
    ∀ (p : Addr → Bool) (test : Ptr → C σ Bool) (release : Ptr → C σ Unit), DetachesEach p test release l xs s →
      ∃ s', moeListIterateSafe fuel (some l) (detaching test release) s = .ok ((), s') ∧
        Exec.Calls (fun x => detaching test release (some x)) s (xs.map (·, ())) s' ∧
        LinkRing (linksOf s') l (xs.filter fun x => !p x) := by
  constructor
  · intro iterator frees
    obtain ⟨s', run, calls, -⟩ := iterateSafe_calls iterator
      (fun later s => LeadsTo (linksOf s).next later l ∧ FreesEach iterator later s) ring enough
      ⟨(leadsTo_cons.mp ring.path.forward).2, frees⟩ (fun held => held.1) (by
        rintro x later s ⟨leads, s', call, -, same, rest⟩
        exact ⟨s', call, (leadsTo_cons.mp leads).2.congr fun a mem => (same a mem).1, rest⟩)
    exact ⟨s', run, calls⟩
  · intro p test release detaches
    obtain ⟨s', run, calls, kept, ring', filtered, -⟩ :=
      iterateSafe_calls (detaching test release) (Detaching p test release l xs) ring enough ⟨[], ring, rfl, detaches⟩
        (fun ⟨kept, linked, _⟩ => (leadsTo_cons.mp linked.path.forward).2.suffix) detaching_turn
    rw [List.filter_nil, List.append_nil] at filtered
    rw [List.append_nil, filtered] at ring'
    exact ⟨s', run, calls, ring'⟩

theorem nodeAt_ok {a : Addr} {n : MoeListNode} (at_ : nodeAt (some x) s = .ok ((a, n), s')) :
    NodeStore.node? s x = some n ∧ s' = s := by
  unfold nodeAt at at_
  cases found : NodeStore.node? s x with
  | none => simp [found] at at_
  | some m =>
    simp only [found, Except.ok.injEq, Prod.mk.injEq] at at_
    exact ⟨congrArg some at_.1.2, at_.2.symm⟩

/-- A removed node leads nowhere. -/
theorem moeListRemove_unlinks {s₁ : σ} (ring : LinkRing (linksOf s) l (kept ++ x :: later))
    (removed : moeListRemove (some x) s = .ok ((), s₁)) : (linksOf s₁).next x = none := by
  have at_ : AtLinks (· ∈ l :: (kept ++ x :: later)) (linksOf s) s := by
    refine ⟨rfl, fun a mem => ?_⟩
    obtain ⟨⟨b, -, next, -⟩, -⟩ := ring.linked mem
    obtain ⟨n, found, -⟩ := node_of_link next
    rw [found]
    rfl
  obtain ⟨s', k', run, ⟨rfl, -⟩, -, none_, -⟩ := moeListRemove_ring atLinks_view at_ ring fun _ mem => mem
  rw [removed] at run
  cases run
  exact none_

/-- From a node without links the loop of `moe_list_iterate` does not come on: it reads a
freed node, or the callback or the loop is given `NULL`. -/
theorem iterateLoop_lost {test : Ptr → C σ Bool} {release : Ptr → C σ Unit} (lost : (linksOf s).next x = none) :
    ∀ s', (getNext (some x) >>= iterateLoop getNext (some l) (Exec.always (detaching test release)) fuel) s ≠
      .ok ((), s') := by
  intro s' run
  obtain ⟨next, s₁, read, run⟩ := Exec.bind_eq_ok.mp run
  obtain rfl : next = none := by
    obtain ⟨⟨a, n⟩, s₂, at_, done⟩ := Exec.bind_eq_ok.mp read
    cases done
    simpa only [linksOf, (nodeAt_ok at_).1, Option.bind_some] using lost
  cases fuel with
  | zero => cases run
  | succ fuel =>
    have other : ¬ (none : Ptr) = some l := by simp
    rw [iterateLoop, if_neg other] at run
    obtain ⟨more, s₂, call, run⟩ := Exec.bind_eq_ok.mp run
    obtain ⟨rfl, -⟩ := Exec.always_ok.mp call
    rw [if_pos rfl] at run
    obtain ⟨node, s₃, null, -⟩ := Exec.bind_eq_ok.mp run
    cases null

/-- The releases of nodes that lead nowhere leave them so, or free them. -/
def LeavesLost (release : Ptr → C σ Unit) : Prop :=
  ∀ {x : Addr} {s s' : σ}, (linksOf s).next x = none → release (some x) s = .ok ((), s') → (linksOf s').next x = none

theorem iterateLoop_deletes {p : Addr → Bool} {test : Ptr → C σ Bool} {release : Ptr → C σ Unit}
    (leaves : LeavesLost release) : ∀ {later kept : List Addr} {s : σ} {fuel : Nat},
    LinkRing (linksOf s) l (kept ++ later) → DetachesEach p test release l later s → later.length < fuel →
    ((∃ s', iterateLoop getNext (some l) (Exec.always (detaching test release)) fuel (some (later.headD l)) s = .ok ((), s')) ↔
      ∀ x ∈ later, p x = false) := by
  intro later
  induction later with
  | nil =>
    intro kept s fuel ring each enough
    obtain ⟨fuel, rfl⟩ := Nat.exists_eq_add_of_lt enough
    simp [iterateLoop]
  | cons x later ih =>
    intro kept s fuel ring each enough
    obtain ⟨fuel, rfl⟩ := Nat.exists_eq_succ_of_ne_zero (Nat.ne_of_gt (Nat.zero_lt_of_lt enough))
    have other : ¬ (some x : Ptr) = some l := fun same =>
      (List.nodup_cons.mp ring.nodup).1 (by simp [← Option.some.inj same])
    obtain ⟨s₀, tested, alone, stays, goes⟩ := each
    have ring₀ := alone.ring ring
    show (∃ s', iterateLoop getNext (some l) _ (fuel + 1) (some x) s = _) ↔ _
    rw [iterateLoop, if_neg other, List.forall_mem_cons]
    cases found : p x with
    | false =>
      have call : Exec.always (detaching test release) (some x) s = .ok (true, s₀) := by
        rw [Exec.always_ok, detaching, Exec.bind_ok tested, found]
        exact ⟨rfl, rfl⟩
      obtain ⟨here, -⟩ := leadsTo_cons.mp (leadsTo_cons.mp ring₀.path.forward).2.suffix
      rw [Exec.bind_ok call, if_pos rfl, Exec.bind_ok (getNext_reads here), and_iff_right rfl]
      rw [List.append_cons] at ring₀
      exact ih ring₀ (stays found) (Nat.lt_of_succ_lt_succ enough)
    | true =>
      obtain ⟨s₁, removed, -⟩ := moeListRemove_member ring₀
      obtain ⟨s₂, released, -⟩ := goes found s₁ removed
      have call : Exec.always (detaching test release) (some x) s = .ok (true, s₂) := by
        rw [Exec.always_ok, detaching, Exec.bind_ok tested, found, if_pos rfl, Exec.bind_ok removed]
        exact ⟨rfl, released⟩
      have lost := leaves (moeListRemove_unlinks ring₀ removed) released
      rw [Exec.bind_ok call, if_pos rfl]
      exact ⟨fun ⟨s', run⟩ => absurd run (iterateLoop_lost lost s'), fun none_ => absurd none_.1 (by simp)⟩

/-- **The plain traversal for callbacks that delete.** With a callback that frees its node,
`moe_list_iterate` ends without a fault only on the empty list. With one that takes nodes
out of the list, it ends without a fault exactly if there is none to take out. -/
theorem iterate_deletes_iff (ring : LinkRing (linksOf s) l xs) (enough : xs.length < fuel) :
    (∀ iterator : Ptr → C σ Unit, FreesEach iterator xs s →
      ((∃ s', moeListIterate fuel (some l) iterator s = .ok ((), s')) ↔ xs = [])) ∧
    ∀ (p : Addr → Bool) (test : Ptr → C σ Bool) (release : Ptr → C σ Unit), DetachesEach p test release l xs s →
      LeavesLost release →
      ((∃ s', moeListIterate fuel (some l) (detaching test release) s = .ok ((), s')) ↔ ∀ x ∈ xs, p x = false) := by
  obtain ⟨first, rest⟩ := leadsTo_cons.mp ring.path.forward
  constructor
  · intro iterator frees
    rw [moeListIterate, moeListIteratePredicated, Exec.bind_ok (getNext_reads first)]
    obtain ⟨fuel, rfl⟩ := Nat.exists_eq_succ_of_ne_zero (Nat.ne_of_gt (Nat.zero_lt_of_lt enough))
    cases xs with
    | nil => simp [iterateLoop]
    | cons x later =>
      obtain ⟨s₁, call, freed, -⟩ := frees
      have other : ¬ (some x : Ptr) = some l := fun same =>
        (List.nodup_cons.mp ring.nodup).1 (by simp [← Option.some.inj same])
      have always : Exec.always iterator (some x) s = .ok (true, s₁) := Exec.always_ok.mpr ⟨rfl, call⟩
      have dangling : getNext (some x) s₁ = .error .danglingPointer := by
        have at_ : nodeAt (some x) s₁ = .error .danglingPointer := by simp only [nodeAt, freed]
        exact Exec.bind_error at_
      show (∃ s', iterateLoop getNext (some l) _ (fuel + 1) (some x) s = _) ↔ _
      rw [iterateLoop, if_neg other, Exec.bind_ok always, if_pos rfl, Exec.bind_error dangling]
      simp
  · intro p test release detaches leaves
    rw [moeListIterate, moeListIteratePredicated, Exec.bind_ok (getNext_reads first)]
    exact iterateLoop_deletes leaves (show LinkRing (linksOf s) l ([] ++ xs) from ring) detaches enough

end Deleting

/-- Nodes 1 and 2 in the ring behind node 0, and node 3 beside it. -/
def ringOfTwo : Heap MoeListNode :=
  ⟨[some ⟨some 1, some 2⟩, some ⟨some 2, some 0⟩, some ⟨some 0, some 1⟩, some ⟨none, none⟩]⟩

theorem ringOfTwo_ring : LinkRing (linksOf ringOfTwo) 0 [1, 2] :=
  ⟨⟨rfl, rfl, rfl, rfl, rfl, rfl⟩, by decide⟩

/-- A callback that remembers the node it is called on in node 3. -/
def remember (node : Ptr) : C (Heap MoeListNode) Unit := setNext (some 3) node

theorem remember_keeps {goesOn : Unit → Bool} {ys : List Addr} {s : Heap MoeListNode} :
    KeepsLinks remember goesOn [0, 1, 2] ys s := by
  apply Exec.EachCall.of_forall
  intro x later s _ s' call
  obtain ⟨⟨a, n⟩, s1, at_, write⟩ := Exec.bind_eq_ok.mp call
  have found : NodeStore.node? s 3 = some n ∧ a = 3 ∧ s1 = s := by
    unfold nodeAt at at_
    cases here : NodeStore.node? s 3 with
    | none => simp [here] at at_
    | some m =>
      simp only [here, Except.ok.injEq, Prod.mk.injEq] at at_
      exact ⟨by rw [at_.1.2], at_.1.1.symm, at_.2.symm⟩
  obtain ⟨here, rfl, rfl⟩ := found
  cases write
  intro c mem
  have other : c ≠ 3 := by
    rintro rfl
    exact absurd mem (by decide)
  simp only [linksOf, NodeStore.node?_setNode s1 3 _ c (by rw [here]; rfl), if_neg other, and_self]

/-- Forwards the last node remembered is 2, and backwards it is 1. -/
theorem traversals_agree_ringOfTwo :
    moeListIterate 3 (some 0) remember ringOfTwo = (forM [1, 2] fun x => remember (some x)) ringOfTwo ∧
      moeListReverseIterate 3 (some 0) remember ringOfTwo = (forM [2, 1] fun x => remember (some x)) ringOfTwo :=
  have agree := @traversals_agree _ _ ringOfTwo 0 [1, 2] 3 ringOfTwo_ring (by decide)
  ⟨agree.1 remember remember_keeps, agree.2.1 remember remember_keeps⟩

/-- `free` of a node. -/
def freeNode (node : Ptr) : C (Heap MoeListNode) Unit := do
  let found ← nodeAt node
  modify fun h => h.free found.1

/-- A node without links is in no list. -/
theorem free_keepsList {h : Heap MoeListNode} {a l : Addr} (detached : (linksOf h).next a = none) :
    KeepsList l h (h.free a) := by
  intro ys ring b mem
  obtain ⟨⟨c, -, next, -⟩, -⟩ := ring.linked mem
  have other : a ≠ b := by
    rintro rfl
    rw [detached] at next
    cases next
  have same : NodeStore.node? (h.free a) b = NodeStore.node? h b := by
    simp [NodeStore.node?, Heap.load_free, other]
  simp only [linksOf, same, and_self]

/-- Once both nodes are freed, and once node 1 is taken out before. -/
theorem iterate_safe_deletes_ringOfTwo :
    (∃ s', moeListIterateSafe 3 (some 0) freeNode ringOfTwo = .ok ((), s') ∧
      Exec.Calls (fun x => freeNode (some x)) ringOfTwo [(1, ()), (2, ())] s') ∧
    ∃ s', moeListIterateSafe 3 (some 0) (detaching (fun node => pure (node == some 1)) freeNode) ringOfTwo =
      .ok ((), s') ∧ LinkRing (linksOf s') 0 [2] := by
  obtain ⟨freeing, detaching⟩ := @iterate_safe_deletes _ _ ringOfTwo 0 [1, 2] 3 ringOfTwo_ring (by decide)
  refine ⟨freeing freeNode ?_, ?_⟩
  · refine ⟨_, rfl, rfl, ?_, _, rfl, rfl, nofun, trivial⟩
    intro a mem
    rw [List.mem_singleton.mp mem]
    exact ⟨rfl, rfl⟩
  · obtain ⟨s', run, -, ring⟩ := detaching (· == 1) (fun node => pure (node == some 1)) freeNode (by
      refine ⟨_, rfl, fun _ _ _ _ => ⟨rfl, rfl⟩, nofun, fun _ s₁ removed => ?_⟩
      cases removed
      refine ⟨_, rfl, free_keepsList rfl, _, rfl, fun _ _ _ _ => ⟨rfl, rfl⟩, fun _ => trivial, nofun⟩)
    exact ⟨s', run, ring⟩

theorem freeNode_leavesLost : LeavesLost freeNode := by
  intro x h h' lost run
  obtain ⟨⟨a, n⟩, h₁, at_, free⟩ := Exec.bind_eq_ok.mp run
  cases free
  obtain rfl : h₁ = h := (nodeAt_ok at_).2
  simp only [linksOf, NodeStore.node?, Heap.load_free] at lost ⊢
  split
  · rfl
  · exact lost

/-- The plain traversal ends in neither case. -/
theorem iterate_deletes_iff_ringOfTwo :
    (¬ ∃ s', moeListIterate 3 (some 0) freeNode ringOfTwo = .ok ((), s')) ∧
    ¬ ∃ s', moeListIterate 3 (some 0) (detaching (fun node => pure (node == some 1)) freeNode) ringOfTwo = .ok ((), s') := by
  obtain ⟨freeing, detaching⟩ := @iterate_deletes_iff _ _ ringOfTwo 0 [1, 2] 3 ringOfTwo_ring (by decide)
  constructor
  · rw [freeing freeNode (by
      refine ⟨_, rfl, rfl, ?_, _, rfl, rfl, nofun, trivial⟩
      intro a mem
      rw [List.mem_singleton.mp mem]
      exact ⟨rfl, rfl⟩)]
    decide
  · rw [detaching (· == 1) (fun node => pure (node == some 1)) freeNode (by
      refine ⟨_, rfl, fun _ _ _ _ => ⟨rfl, rfl⟩, nofun, fun _ s₁ removed => ?_⟩
      cases removed
      refine ⟨_, rfl, free_keepsList rfl, _, rfl, fun _ _ _ _ => ⟨rfl, rfl⟩, fun _ => trivial, nofun⟩) freeNode_leavesLost]
    decide

end MoeToolchain
