import MoeToolchain.Common.MoeString
import Mathlib.Algebra.BigOperators.Group.List.Basic

/-!
# Runs of string operations and the reference count

A run allocates strings, and clones, reads and frees handles that have not been
freed. `SoundRun` is what reference counting promises along the run: the count of
every buffer is the number of its handles, every handle finds its buffer, and a
buffer goes away with its last handle. `moe_string_clone` makes a second handle
without counting it, so the runs that keep the promise are exactly those that
never clone (`soundRun_iff`).
-/

namespace MoeToolchain
set_option autoImplicit false
open Lib

inductive StringOp
  | alloc (data : Option Bytes) (length : Nat)
  | clone (h : Addr)
  | get (h : Addr)
  | free (h : Addr)
deriving DecidableEq, Repr

/-- The memory and the handles not yet freed. -/
structure StringState where
  mem : Mem
  handles : List Addr
deriving DecidableEq, Repr

def StringState.empty : StringState := ⟨Mem.empty, []⟩

namespace StringOp

def onMem {α : Type} : C Mem α → C StringState α :=
  Exec.zoom StringState.mem fun m s => { s with mem := m }

theorem onMem_ok {α : Type} {x : C Mem α} {st : StringState} {a : α} {m : Mem}
    (run : x st.mem = .ok (a, m)) : onMem x st = .ok (a, { st with mem := m }) :=
  Exec.zoom_ok run

def run : StringOp → C StringState Unit
  | alloc data length => do
    let h ← onMem (moeStringAlloc data length)
    modify fun s => { s with handles := h :: s.handles }
  | clone h => do
    let dup ← onMem (moeStringClone (some h))
    modify fun s => { s with handles := dup :: s.handles }
  | get h => do
    let _ ← onMem (moeStringGet (some h))
    pure ()
  | free h => do
    onMem (moeStringFree (some h))
    modify fun s => { s with handles := s.handles.erase h }

def runAll : List StringOp → C StringState Unit
  | [] => pure ()
  | op :: ops => do
    op.run
    runAll ops

/-- Strings are allocated from a source that covers the length asked for; the other
operations take handles that were not freed. -/
def allowed (st : StringState) : StringOp → Bool
  | alloc data length => (stringContent data length).isSome
  | clone h | get h | free h => st.handles.contains h

/-- Each operation of the run is allowed in the state it is applied to. -/
def allowedRun : StringState → List StringOp → Bool
  | _, [] => true
  | st, op :: ops =>
    allowed st op && match op.run st with
      | .ok (_, st') => allowedRun st' ops
      | .error _ => true

end StringOp

/-- The handle `h` points to the internal buffer at `a`. -/
def pointsTo (m : Mem) (a h : Addr) : Bool :=
  match m.heap.load h with
  | some (.string s) => s.internal == a
  | _ => false

/-- The count of every buffer is the number of its handles, and every handle has one. -/
structure RefCounted (st : StringState) : Prop where
  alive : ∀ h ∈ st.handles, ∃ s i, st.mem.heap.load h = some (.string s) ∧
    st.mem.heap.load s.internal = some (.stringInternal i)
  count : ∀ a i, st.mem.heap.load a = some (.stringInternal i) →
    i.refCount = (st.handles.countP (pointsTo st.mem a) : Int)

/-- A buffer goes away in this step exactly when its only handle is freed. -/
def FreedByLast (st : StringState) (op : StringOp) (st' : StringState) : Prop :=
  ∀ a i, st.mem.heap.load a = some (.stringInternal i) →
    (st'.mem.heap.load a = none ↔
      ∃ h, op = .free h ∧ st.handles.filter (pointsTo st.mem a) = [h])

/-- Every state of the run is counted right, no operation faults, and buffers go
with their last handles. -/
def SoundRun : StringState → List StringOp → Prop
  | st, [] => RefCounted st
  | st, op :: ops =>
    RefCounted st ∧ ∃ st', op.run st = .ok ((), st') ∧ FreedByLast st op st' ∧ SoundRun st' ops

/-! ## Runs without clones -/

/-- The blocks of a collection of strings. -/
def stringsBlocks (ss : List (StringAt × Bytes)) : Footprint :=
  (ss.map fun p => strBlocks p.1 p.2).sum

@[simp] theorem stringsBlocks_nil : stringsBlocks [] = 0 := rfl

@[simp] theorem stringsBlocks_cons (p : StringAt × Bytes) (ss : List (StringAt × Bytes)) :
    stringsBlocks (p :: ss) = strBlocks p.1 p.2 + stringsBlocks ss := by
  simp [stringsBlocks]

theorem stringsBlocks_perm {ss ts : List (StringAt × Bytes)} (perm : ss.Perm ts) :
    stringsBlocks ss = stringsBlocks ts :=
  (perm.map _).sum_eq

/-- Every live block belongs to one of the strings, each with one handle. -/
structure Held (st : StringState) (ss : List (StringAt × Bytes)) : Prop where
  owns : Owns Mem.empty st.mem (stringsBlocks ss)
  handles : (ss.map fun p => p.1.handle).Perm st.handles

variable {st st' : StringState} {ss : List (StringAt × Bytes)} {p : StringAt × Bytes} {m : Mem}
  {a h : Addr} {b : Block}

theorem mem_stringsBlocks : (a, b) ∈ stringsBlocks ss ↔ ∃ p ∈ ss, (a, b) ∈ strBlocks p.1 p.2 := by
  induction ss with
  | nil => simp
  | cons p ss ih => simp [ih]

theorem mem_strBlocks {l : StringAt} {c : Bytes} : (a, b) ∈ strBlocks l c ↔
    (a = l.handle ∧ b = .string ⟨l.internal, c.length, c.length + 1⟩) ∨
      (a = l.internal ∧ b = .stringInternal ⟨l.data, 1⟩) ∨ (a = l.data ∧ b = .chars (c ++ [0])) := by
  simp only [strBlocks, Multiset.mem_add, Multiset.mem_singleton, Prod.mk.injEq]

/-- From an empty base every live block is an owned one. -/
theorem owns_mem {f : Footprint} (owned : Owns Mem.empty m f) (found : m.heap.load a = some b) :
    (a, b) ∈ f := by
  obtain ⟨ext, cells, rfl⟩ := owned.holds
  rw [Heap.load_some_iff, cells] at found
  exact Heap.mem_entriesFrom.mpr ⟨Nat.zero_le _, found⟩

theorem Held.load (held : Held st ss) (mem : p ∈ ss) :
    st.mem.heap.load p.1.handle = some (.string ⟨p.1.internal, p.2.length, p.2.length + 1⟩) ∧
      st.mem.heap.load p.1.internal = some (.stringInternal ⟨p.1.data, 1⟩) := by
  constructor
  · exact held.owns.holds.load (mem_stringsBlocks.mpr ⟨p, mem, by simp [mem_strBlocks]⟩)
  · exact held.owns.holds.load (mem_stringsBlocks.mpr ⟨p, mem, by simp [mem_strBlocks]⟩)

/-- The internal buffers of the strings are different blocks. -/
theorem internals_nodup (nodup : ((stringsBlocks ss).map Prod.fst).Nodup) :
    (ss.map fun p => p.1.internal).Nodup := by
  have sub : ((ss.map fun p => p.1.internal : List Addr) : Multiset Addr) ≤
      (stringsBlocks ss).map Prod.fst := by
    clear nodup
    induction ss with
    | nil => simp
    | cons p ss ih =>
      simp only [List.map_cons, stringsBlocks_cons, strBlocks, Multiset.map_add,
        Multiset.map_singleton, ← Multiset.cons_coe, ← Multiset.singleton_add]
      calc ({p.1.internal} : Multiset Addr) + (ss.map fun p => p.1.internal : List Addr)
          ≤ {p.1.internal} + (stringsBlocks ss).map Prod.fst := add_le_add (le_refl _) ih
        _ ≤ ({p.1.handle} + {p.1.data}) + ({p.1.internal} + (stringsBlocks ss).map Prod.fst) :=
          Multiset.le_add_left _ _
        _ = _ := by abel
  exact Multiset.coe_nodup.mp (Multiset.nodup_of_le sub nodup)

theorem Held.internals (held : Held st ss) : (ss.map fun p => p.1.internal).Nodup :=
  internals_nodup held.owns.holds.nodup

/-- Keys that are all different single out one entry. -/
theorem filter_key {α β : Type} [BEq β] [LawfulBEq β] {f : α → β} {xs : List α} {x : α}
    (nodup : (xs.map f).Nodup) (mem : x ∈ xs) : xs.filter (fun y => f y == f x) = [x] := by
  induction xs with
  | nil => simp at mem
  | cons y ys ih =>
    simp only [List.map_cons, List.nodup_cons, List.mem_map, not_exists, not_and] at nodup
    rcases List.mem_cons.mp mem with rfl | mem
    · have none : ys.filter (fun y => f y == f x) = [] := by
        apply List.filter_eq_nil_iff.mpr
        intro y inside same
        exact nodup.1 y inside (eq_of_beq same)
      simp [none]
    · have ne : f y ≠ f x := fun same => nodup.1 x mem same.symm
      simp [ne, ih nodup.2 mem]

/-- A string's buffer has the string's handle and no other. -/
theorem Held.only (held : Held st ss) (mem : p ∈ ss) :
    st.handles.filter (pointsTo st.mem p.1.internal) = [p.1.handle] := by
  have perm := held.handles.filter (pointsTo st.mem p.1.internal)
  have same : (ss.map fun q => q.1.handle).filter (pointsTo st.mem p.1.internal) = [p.1.handle] := by
    rw [List.filter_map]
    have keys : ss.filter (pointsTo st.mem p.1.internal ∘ fun q => q.1.handle) =
        ss.filter fun q => q.1.internal == p.1.internal := by
      apply List.filter_congr
      intro q inside
      simp only [Function.comp_apply, pointsTo, (held.load inside).1]
    rw [keys, filter_key held.internals mem]
    rfl
  rw [same] at perm
  exact (List.singleton_perm.mp perm).symm

/-- Every live buffer is the buffer of one of the strings. -/
theorem Held.buffer (held : Held st ss) {i : MoeStringInternal}
    (found : st.mem.heap.load a = some (.stringInternal i)) :
    ∃ q ∈ ss, a = q.1.internal ∧ i = ⟨q.1.data, 1⟩ := by
  obtain ⟨q, inside, block⟩ := mem_stringsBlocks.mp (owns_mem held.owns found)
  rcases mem_strBlocks.mp block with ⟨-, wrong⟩ | ⟨at_, same⟩ | ⟨-, wrong⟩
  · cases wrong
  · exact ⟨q, inside, at_, by cases same; rfl⟩
  · cases wrong

theorem Held.refCounted (held : Held st ss) : RefCounted st where
  alive := by
    intro h mem
    obtain ⟨q, inside, rfl⟩ := List.mem_map.mp (held.handles.mem_iff.mpr mem)
    exact ⟨_, _, (held.load inside).1, (held.load inside).2⟩
  count := by
    intro a i found
    obtain ⟨q, inside, rfl, rfl⟩ := held.buffer found
    rw [List.countP_eq_length_filter, held.only inside]
    rfl

theorem Held.alloc (held : Held st ss) {data : Option Bytes} {length : Nat}
    (allowed : (StringOp.alloc data length).allowed st = true) :
    ∃ st' ss', (StringOp.alloc data length).run st = .ok ((), st') ∧
      FreedByLast st (.alloc data length) st' ∧ Held st' ss' := by
  obtain ⟨c, content⟩ := Option.isSome_iff_exists.mp allowed
  obtain ⟨l, m', run, owned⟩ := moeStringAlloc_owns held.owns content
  refine ⟨⟨m', l.handle :: st.handles⟩, (l, c) :: ss, ?_, ?_, ?_⟩
  · rw [StringOp.run, Exec.bind_ok (StringOp.onMem_ok run)]
    rfl
  · intro a i found
    have kept := owned.holds.load (Multiset.mem_add.mpr (.inr (owns_mem held.owns found)))
    simp [kept]
  · exact ⟨by simpa using owned, held.handles.cons _⟩

theorem Held.get (held : Held st ss) (allowed : (StringOp.get h).allowed st = true) :
    (StringOp.get h).run st = .ok ((), st) ∧ FreedByLast st (.get h) st := by
  have mem : h ∈ st.handles := List.contains_iff_mem.mp allowed
  obtain ⟨q, inside, rfl⟩ := List.mem_map.mp (held.handles.mem_iff.mpr mem)
  have split := stringsBlocks_perm (List.perm_cons_erase inside)
  rw [stringsBlocks_cons] at split
  constructor
  · rw [StringOp.run, Exec.bind_ok (StringOp.onMem_ok (moeStringGet_owns held.owns split))]
    rfl
  · intro a i found
    simp [found]

theorem Held.free (held : Held st ss) (allowed : (StringOp.free h).allowed st = true) :
    ∃ st' ss', (StringOp.free h).run st = .ok ((), st') ∧ FreedByLast st (.free h) st' ∧
      Held st' ss' := by
  have mem : h ∈ st.handles := List.contains_iff_mem.mp allowed
  obtain ⟨q, inside, rfl⟩ := List.mem_map.mp (held.handles.mem_iff.mpr mem)
  have perm := List.perm_cons_erase inside
  have split := stringsBlocks_perm perm
  rw [stringsBlocks_cons] at split
  obtain ⟨m', run, owned⟩ := moeStringFree_owns held.owns split
  have addresses := held.owns.holds.nodup
  rw [split, Multiset.map_add, Multiset.nodup_add] at addresses
  refine ⟨⟨m', st.handles.erase q.1.handle⟩, ss.erase q, ?_, ?_, ?_⟩
  · rw [StringOp.run, Exec.bind_ok (StringOp.onMem_ok run)]
    rfl
  · intro a i found
    obtain ⟨p, member, rfl, rfl⟩ := held.buffer found
    rw [held.only member]
    by_cases same : p = q
    · subst same
      refine iff_of_true ?_ ⟨_, rfl, rfl⟩
      cases left : m'.heap.load p.1.internal with
      | none => rfl
      | some b =>
        have inRest := Multiset.mem_map_of_mem Prod.fst (owns_mem owned left)
        have inString : p.1.internal ∈ (strBlocks p.1 p.2).map Prod.fst := by
          simp [strBlocks]
        exact absurd inRest (Multiset.disjoint_left.mp addresses.2.2 inString)
    · have inRest : p ∈ ss.erase q := (List.mem_erase_of_ne same).mpr member
      have kept := owned.holds.load
        (mem_stringsBlocks.mpr ⟨p, inRest, mem_strBlocks.mpr (.inr (.inl ⟨rfl, rfl⟩))⟩)
      refine iff_of_false (by simp [kept]) ?_
      rintro ⟨h', eq, only⟩
      cases eq
      have handles : p.1.handle = q.1.handle := by simpa using only
      have inString : p.1.handle ∈ (strBlocks q.1 q.2).map Prod.fst := by
        simp [strBlocks, handles]
      have inOthers : p.1.handle ∈ (stringsBlocks (ss.erase q)).map Prod.fst :=
        Multiset.mem_map_of_mem Prod.fst
          (mem_stringsBlocks.mpr ⟨p, inRest, mem_strBlocks.mpr (.inl ⟨rfl, rfl⟩)⟩)
      exact absurd inOthers (Multiset.disjoint_left.mp addresses.2.2 inString)
  · refine ⟨owned, ?_⟩
    have moved := (perm.map fun p => p.1.handle).symm.trans held.handles
    have erased := moved.erase q.1.handle
    simpa using erased

/-- A clone leaves a buffer with two handles and a count of one. -/
theorem Held.clone (held : Held st ss) (allowed : (StringOp.clone h).allowed st = true)
    (run : (StringOp.clone h).run st = .ok ((), st')) : ¬ RefCounted st' := by
  have mem : h ∈ st.handles := List.contains_iff_mem.mp allowed
  obtain ⟨q, inside, rfl⟩ := List.mem_map.mp (held.handles.mem_iff.mpr mem)
  obtain ⟨dup, m1, run1, owned1⟩ := moeMalloc_owns held.owns .uninit
  have handle : (q.1.handle, Block.string ⟨q.1.internal, q.2.length, q.2.length + 1⟩) ∈
      {(dup, .uninit)} + stringsBlocks ss :=
    Multiset.mem_add.mpr (.inr (mem_stringsBlocks.mpr ⟨q, inside, mem_strBlocks.mpr (.inl ⟨rfl, rfl⟩)⟩))
  obtain ⟨m2, run2, owned2⟩ := storeBlock_owns owned1 rfl
    (.string ⟨q.1.internal, q.2.length, q.2.length + 1⟩)
  have cloned : moeStringClone (some q.1.handle) st.mem = .ok (dup, m2) := by
    rw [moeStringClone, moeAssertNonNull_some, pure_bind, Exec.bind_ok run1,
      Exec.bind_ok (loadAs_owns Block.asString owned1 handle rfl), Exec.bind_ok run2]
    rfl
  rw [StringOp.run, Exec.bind_ok (StringOp.onMem_ok cloned)] at run
  cases run
  intro counted
  have old : ∀ c b, (c, b) ∈ strBlocks q.1 q.2 → m2.heap.load c = some b := fun c b block =>
    owned2.holds.load (Multiset.mem_add.mpr (.inr (mem_stringsBlocks.mpr ⟨q, inside, block⟩)))
  have buffer := old _ _ (mem_strBlocks.mpr (.inr (.inl ⟨rfl, rfl⟩)))
  have count := counted.count _ _ buffer
  have first : pointsTo m2 q.1.internal q.1.handle = true := by
    simp [pointsTo, old _ _ (mem_strBlocks.mpr (.inl ⟨rfl, rfl⟩))]
  have second : pointsTo m2 q.1.internal dup = true := by
    simp [pointsTo, owned2.holds.load (Multiset.mem_add.mpr (.inl (Multiset.mem_singleton_self _)))]
  have positive : 0 < st.handles.countP (pointsTo m2 q.1.internal) :=
    List.countP_pos_iff.mpr ⟨_, mem, first⟩
  simp only [List.countP_cons_of_pos second] at count
  omega

/-- **Which runs are counted right**, from any state without clones. -/
theorem Held.sound_iff_no_clone {ops : List StringOp} (held : Held st ss)
    (allowed : StringOp.allowedRun st ops = true) :
    SoundRun st ops ↔ ∀ op ∈ ops, ∀ h, op ≠ .clone h := by
  induction ops generalizing st ss with
  | nil => simp [SoundRun, held.refCounted]
  | cons op ops ih =>
    simp only [StringOp.allowedRun, Bool.and_eq_true] at allowed
    obtain ⟨first, rest⟩ := allowed
    -- an operation that keeps the strings apart leaves the matter to the rest of the run
    have keeps : (∀ h, op ≠ .clone h) → (∃ st' ss', op.run st = .ok ((), st') ∧
        FreedByLast st op st' ∧ Held st' ss') →
        (SoundRun st (op :: ops) ↔ ∀ op' ∈ op :: ops, ∀ h, op' ≠ .clone h) := by
      rintro counted ⟨st', ss', run, freed, held'⟩
      simp only [run] at rest
      have after := ih held' rest
      constructor
      · rintro ⟨-, st'', run', -, sound⟩
        rw [run] at run'
        cases run'
        exact List.forall_mem_cons.mpr ⟨counted, after.mp sound⟩
      · intro clean
        exact ⟨held.refCounted, st', run, freed, after.mpr (List.forall_mem_cons.mp clean).2⟩
    cases op with
    | alloc data length => exact keeps nofun (held.alloc first)
    | get h =>
      obtain ⟨run, freed⟩ := held.get first
      exact keeps nofun ⟨st, ss, run, freed, held⟩
    | free h => exact keeps nofun (held.free first)
    | clone h =>
      refine iff_of_false ?_ fun clean => clean _ List.mem_cons_self h rfl
      rintro ⟨-, st', run, -, sound⟩
      have counted : RefCounted st' := by
        cases ops with
        | nil => exact sound
        | cons op ops => exact sound.1
      exact held.clone first run counted

theorem held_empty : Held .empty [] := ⟨owns_refl _, .refl _⟩

/-- **The reference-count invariant.** A run on handles that were not freed keeps
every count right, faults nowhere and frees each buffer with its last handle
exactly when it clones no handle. -/
theorem soundRun_iff {ops : List StringOp} (allowed : StringOp.allowedRun .empty ops = true) :
    SoundRun .empty ops ↔ ∀ op ∈ ops, ∀ h, op ≠ .clone h :=
  held_empty.sound_iff_no_clone allowed

theorem soundRun_alloc_get_free :
    SoundRun .empty [.alloc (some [97]) 0, .get 0, .free 0] :=
  (soundRun_iff (by decide)).mpr (by simp)

/-- Freeing the original takes the buffer away from its clone: reading the clone
reads freed memory. -/
theorem clone_outlives_buffer :
    StringOp.allowedRun .empty [.alloc (some [97]) 0, .clone 0, .free 0, .get 3] = true ∧
      StringOp.runAll [.alloc (some [97]) 0, .clone 0, .free 0, .get 3] .empty =
        .error .danglingPointer ∧
      ¬ SoundRun .empty [.alloc (some [97]) 0, .clone 0, .free 0, .get 3] := by
  have allowed : StringOp.allowedRun .empty [.alloc (some [97]) 0, .clone 0, .free 0, .get 3] = true := by
    decide
  refine ⟨allowed, by decide, ?_⟩
  rw [held_empty.sound_iff_no_clone allowed]
  intro clean
  exact clean (.clone 0) (by simp) 0 rfl

end MoeToolchain
