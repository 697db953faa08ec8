import Mathlib.Algebra.Order.Group.Multiset
import Mathlib.Tactic.Abel

/-!
# Heaps of blocks and what a computation owns of them

A heap is the list of the blocks allocated so far; a freed block leaves a hole,
so an address is never given out twice and a second free of a block, or a read
after its free, finds the hole. `Holds base h m` says that `h` is `base` with
exactly the blocks of the multiset `m` added: nothing of `base` changed, and of
everything allocated since only `m` is still there. `Holds base h 0` is
"whatever was allocated has been freed". The rules for `alloc`, `load`, `store`
and `free` act on one block of the multiset, and sums of multisets play the part
of separating conjunction.
-/

namespace Lib
set_option autoImplicit false

abbrev Addr := Nat

/-- The blocks allocated so far, in order of allocation; `none` is a freed one. -/
structure Heap (β : Type) where
  cells : List (Option β)
deriving DecidableEq, Repr

namespace Heap

variable {β : Type}

def empty : Heap β := ⟨[]⟩

/-- The address the next block gets. -/
def next (h : Heap β) : Addr := h.cells.length

def load (h : Heap β) (a : Addr) : Option β := (h.cells[a]?).join

def alloc (h : Heap β) (b : β) : Heap β := ⟨h.cells ++ [some b]⟩

def store (h : Heap β) (a : Addr) (b : β) : Heap β := ⟨h.cells.set a (some b)⟩

def free (h : Heap β) (a : Addr) : Heap β := ⟨h.cells.set a none⟩

/-- A block that was allocated and not freed. -/
def Live (h : Heap β) (a : Addr) : Prop := (h.load a).isSome = true

/-- How many blocks were freed. -/
def freed (h : Heap β) : Nat := h.cells.countP Option.isNone

/-- How many blocks are live. -/
def live (h : Heap β) : Nat := h.cells.countP Option.isSome

@[simp] theorem next_alloc (h : Heap β) (b : β) : (h.alloc b).next = h.next + 1 := by
  simp [next, alloc]

@[simp] theorem next_store (h : Heap β) (a : Addr) (b : β) : (h.store a b).next = h.next := by
  simp [next, store]

@[simp] theorem next_free (h : Heap β) (a : Addr) : (h.free a).next = h.next := by
  simp [next, free]

theorem load_some_iff {h : Heap β} {a : Addr} {b : β} :
    h.load a = some b ↔ h.cells[a]? = some (some b) := by
  simp [load, Option.join_eq_some_iff]

theorem load_lt {h : Heap β} {a : Addr} {b : β} (found : h.load a = some b) : a < h.next := by
  rw [load_some_iff] at found
  exact (List.getElem?_eq_some_iff.mp found).1

theorem load_store (h : Heap β) (a c : Addr) (b : β) :
    (h.store a b).load c = if a = c ∧ a < h.next then some b else h.load c := by
  simp only [load, store, next, List.getElem?_set]
  by_cases same : a = c
  · subst same
    by_cases bound : a < h.cells.length
    · simp [bound]
    · simp [bound]
  · simp [same]

theorem load_free (h : Heap β) (a c : Addr) : (h.free a).load c = if a = c then none else h.load c := by
  by_cases same : a = c
  · subst same
    simp only [load, free, List.getElem?_set, if_true]
    split <;> rfl
  · simp [load, free, same]

theorem live_add_freed (h : Heap β) : h.live + h.freed = h.next := by
  simp only [live, freed, next]
  induction h.cells with
  | nil => rfl
  | cons c cs ih =>
    cases c <;> simp <;> omega

/-- The live blocks of a list of cells that starts at address `n`. -/
def entriesFrom : Nat → List (Option β) → Multiset (Addr × β)
  | _, [] => 0
  | n, none :: cs => entriesFrom (n + 1) cs
  | n, some b :: cs => {(n, b)} + entriesFrom (n + 1) cs

theorem entriesFrom_append (n : Nat) (cs ds : List (Option β)) :
    entriesFrom n (cs ++ ds) = entriesFrom n cs + entriesFrom (n + cs.length) ds := by
  induction cs generalizing n with
  | nil => simp [entriesFrom]
  | cons c cs ih =>
    have shift : n + 1 + cs.length = n + (cs.length + 1) := by omega
    cases c with
    | none => simp [entriesFrom, ih, shift]
    | some b => simp [entriesFrom, ih, shift]

theorem mem_entriesFrom {n : Nat} {cs : List (Option β)} {a : Nat} {b : β} :
    (a, b) ∈ entriesFrom n cs ↔ n ≤ a ∧ cs[a - n]? = some (some b) := by
  induction cs generalizing n with
  | nil => simp [entriesFrom]
  | cons c cs ih =>
    have tail : n + 1 ≤ a → (c :: cs)[a - n]? = cs[a - (n + 1)]? := by
      intro h
      rw [show a - n = (a - (n + 1)) + 1 by omega, List.getElem?_cons_succ]
    cases c with
    | none =>
      simp only [entriesFrom, ih]
      constructor
      · rintro ⟨h, found⟩
        exact ⟨by omega, by rw [tail h]; exact found⟩
      · rintro ⟨h, found⟩
        rcases Nat.eq_or_lt_of_le h with same | later
        · subst same
          simp at found
        · exact ⟨later, by rw [← tail later]; exact found⟩
    | some d =>
      simp only [entriesFrom, Multiset.singleton_add, Multiset.mem_cons, ih, Prod.mk.injEq]
      constructor
      · rintro (⟨rfl, rfl⟩ | ⟨h, found⟩)
        · exact ⟨Nat.le_refl _, by simp⟩
        · exact ⟨by omega, by rw [tail h]; exact found⟩
      · rintro ⟨h, found⟩
        rcases Nat.eq_or_lt_of_le h with same | later
        · subst same
          simp at found
          exact .inl ⟨rfl, found.symm⟩
        · exact .inr ⟨later, by rw [← tail later]; exact found⟩

theorem card_entriesFrom (n : Nat) (cs : List (Option β)) :
    Multiset.card (entriesFrom n cs) = cs.countP Option.isSome := by
  induction cs generalizing n with
  | nil => rfl
  | cons c cs ih =>
    cases c with
    | none => simp [entriesFrom, ih]
    | some b => simp [entriesFrom, ih, Nat.add_comm]

/-- Writing a cell exchanges the block it held. -/
theorem entriesFrom_set {n : Nat} {cs : List (Option β)} {i : Nat} {b : β}
    (held : cs[i]? = some (some b)) (c : Option β) :
    entriesFrom n cs + entriesFrom (n + i) [c] = entriesFrom n (cs.set i c) + {(n + i, b)} := by
  induction cs generalizing n i with
  | nil => simp at held
  | cons d cs ih =>
    cases i with
    | zero =>
      simp only [List.getElem?_cons_zero, Option.some.injEq] at held
      subst held
      cases c with
      | none => simp only [entriesFrom, List.set_cons_zero, Nat.add_zero]; abel
      | some b' => simp only [entriesFrom, List.set_cons_zero, Nat.add_zero]; abel
    | succ i =>
      simp only [List.getElem?_cons_succ] at held
      have rest := ih (n := n + 1) held
      rw [show n + 1 + i = n + (i + 1) by omega] at rest
      cases d with
      | none => simpa only [entriesFrom, List.set_cons_succ] using rest
      | some b' =>
        simp only [entriesFrom, List.set_cons_succ]
        rw [add_assoc, add_assoc, rest]

/-- `h` is `base` with exactly the blocks of `m` added. -/
def Holds (base h : Heap β) (m : Multiset (Addr × β)) : Prop :=
  ∃ ext, h.cells = base.cells ++ ext ∧ entriesFrom base.next ext = m

theorem holds_refl (h : Heap β) : Holds h h 0 :=
  ⟨[], by simp, rfl⟩

namespace Holds

variable {base h : Heap β} {m r : Multiset (Addr × β)} {a : Addr} {b : β}

theorem alloc (owned : Holds base h m) (b : β) :
    Holds base (h.alloc b) ({(h.next, b)} + m) := by
  obtain ⟨ext, cells, rfl⟩ := owned
  refine ⟨ext ++ [some b], by simp [Heap.alloc, cells], ?_⟩
  have fresh : base.next + ext.length = h.next := by simp [next, cells]
  rw [entriesFrom_append, fresh]
  simp only [entriesFrom, add_zero]
  exact add_comm _ _

/-- The cell of an owned block, in the extension. -/
theorem cell (owned : Holds base h m) (mem : (a, b) ∈ m) :
    ∃ ext, h.cells = base.cells ++ ext ∧ entriesFrom base.next ext = m ∧
      base.next ≤ a ∧ ext[a - base.next]? = some (some b) := by
  obtain ⟨ext, cells, rfl⟩ := owned
  obtain ⟨above, found⟩ := mem_entriesFrom.mp mem
  exact ⟨ext, cells, rfl, above, found⟩

theorem load (owned : Holds base h m) (mem : (a, b) ∈ m) : h.load a = some b := by
  obtain ⟨ext, cells, -, above, found⟩ := owned.cell mem
  rw [load_some_iff, cells, List.getElem?_append_right above]
  exact found

/-- Writing the cell of an owned block. -/
theorem set_cell (owned : Holds base h m) (split : m = {(a, b)} + r) (c : Option β) :
    Holds base ⟨h.cells.set a c⟩ (entriesFrom a [c] + r) := by
  have mem : (a, b) ∈ m := by simp [split]
  obtain ⟨ext, cells, entries, above, found⟩ := owned.cell mem
  refine ⟨ext.set (a - base.next) c, ?_, ?_⟩
  · simp only [cells, next] at above ⊢
    rw [List.set_append_right _ _ above]
  · have swap := entriesFrom_set (n := base.next) found c
    rw [entries, split, Nat.add_sub_cancel' above, add_comm {(a, b)} r, add_right_comm] at swap
    exact (add_right_cancel swap).symm.trans (add_comm _ _)

theorem store (owned : Holds base h m) (split : m = {(a, b)} + r) (b' : β) :
    Holds base (h.store a b') ({(a, b')} + r) := by
  have set := owned.set_cell split (some b')
  simp only [entriesFrom, add_zero] at set
  exact set

theorem free (owned : Holds base h m) (split : m = {(a, b)} + r) : Holds base (h.free a) r := by
  have set := owned.set_cell split none
  simp only [entriesFrom, zero_add] at set
  exact set

/-- Owned blocks have different addresses. -/
theorem nodup (owned : Holds base h m) : (m.map Prod.fst).Nodup := by
  obtain ⟨ext, -, rfl⟩ := owned
  generalize base.next = n
  induction ext generalizing n with
  | nil => simp [entriesFrom]
  | cons c cs ih =>
    cases c with
    | none => exact ih (n + 1)
    | some d =>
      simp only [entriesFrom, Multiset.singleton_add, Multiset.map_cons, Multiset.nodup_cons]
      refine ⟨?_, ih (n + 1)⟩
      intro mem
      obtain ⟨⟨c, e⟩, inside, same⟩ := Multiset.mem_map.mp mem
      have above := (mem_entriesFrom.mp inside).1
      simp only at same
      subst same
      exact absurd above (Nat.not_succ_le_self _)

/-- The blocks that were there before are as they were. -/
theorem frame (owned : Holds base h m) (old : a < base.next) : h.load a = base.load a := by
  obtain ⟨ext, cells, -⟩ := owned
  simp only [Heap.load, cells]
  rw [List.getElem?_append_left old]

theorem next_le (owned : Holds base h m) : base.next ≤ h.next := by
  obtain ⟨ext, cells, -⟩ := owned
  simp [next, cells]

/-- When nothing is owned the live blocks are those of the base. -/
theorem live_iff (owned : Holds base h 0) (a : Addr) : h.Live a ↔ base.Live a := by
  by_cases old : a < base.next
  · simp only [Live, owned.frame old]
  · have above : base.next ≤ a := Nat.le_of_not_lt old
    have missing : base.load a = none := by
      simp [Heap.load, List.getElem?_eq_none above]
    have gone : h.load a = none := by
      obtain ⟨ext, cells, none⟩ := owned
      cases found : h.load a with
      | none => rfl
      | some b =>
        rw [load_some_iff, cells, List.getElem?_append_right above] at found
        have mem : (a, b) ∈ entriesFrom base.next ext := mem_entriesFrom.mpr ⟨above, found⟩
        simp [none] at mem
    simp [Live, missing, gone]

theorem card_live (owned : Holds base h m) : h.live = base.live + Multiset.card m := by
  obtain ⟨ext, cells, rfl⟩ := owned
  simp [live, cells, card_entriesFrom]

/-- There are at most as many owned blocks as addresses. -/
theorem card_le (owned : Holds base h m) : Multiset.card m ≤ h.next := by
  have count := owned.card_live
  have total := live_add_freed h
  omega

end Holds

end Heap

end Lib
