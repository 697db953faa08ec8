import MoeToolchain.Lib.Exec
import MoeToolchain.Lib.Heap

/-!
# References that are given back

Computations on a heap of references, where a reference is created, read, written and
released; the use of one that was released is the fault `gone`. `Turns f x post` is a
total triple: from exactly the references `f` the computation `x` ends, with a value and
references that `post` allows. So it uses no reference that was released, and it releases
what `post` does not have any more.
-/

namespace Lib
set_option autoImplicit false

namespace References

variable {φ β α γ : Type}

def create (b : β) : Exec φ (Heap β) Addr := fun h => .ok (h.next, h.alloc b)

def read (gone : φ) (a : Addr) : Exec φ (Heap β) β := fun h =>
  match h.load a with
  | none => .error gone
  | some b => .ok (b, h)

def write (gone : φ) (a : Addr) (b : β) : Exec φ (Heap β) Unit := do
  let _ ← read gone a
  modify fun h => h.store a b

def release (gone : φ) (a : Addr) : Exec φ (Heap β) Unit := do
  let _ ← read gone a
  modify fun h => h.free a

def Turns (f : Multiset (Addr × β)) (x : Exec φ (Heap β) α) (post : α → Multiset (Addr × β) → Prop) : Prop :=
  ∀ h, Heap.empty.Holds h f → ∃ a h' g, x h = .ok (a, h') ∧ post a g ∧ Heap.empty.Holds h' g

namespace Turns

variable {f r : Multiset (Addr × β)} {gone : φ} {a : Addr} {b : β}

theorem pure {v : α} {post : α → Multiset (Addr × β) → Prop} (here : post v f) :
    Turns (φ := φ) f (Pure.pure v) post := fun h held => ⟨v, h, f, rfl, here, held⟩

theorem bind {x : Exec φ (Heap β) α} {k : α → Exec φ (Heap β) γ} {q : α → Multiset (Addr × β) → Prop}
    {post : γ → Multiset (Addr × β) → Prop} (first : Turns f x q) (rest : ∀ v g, q v g → Turns g (k v) post) :
    Turns f (x >>= k) post := by
  intro h held
  obtain ⟨v, h1, g, run, here, held1⟩ := first h held
  obtain ⟨w, h2, g', run', there, held2⟩ := rest v g here h1 held1
  exact ⟨w, h2, g', by rw [Exec.bind_ok run, run'], there, held2⟩

theorem create (b : β) : Turns (φ := φ) f (References.create b) fun a g => g = {(a, b)} + f :=
  fun h held => ⟨h.next, h.alloc b, _, rfl, rfl, held.alloc b⟩

theorem read (held : (a, b) ∈ f) : Turns f (References.read gone a) fun v g => v = b ∧ g = f := by
  intro h owned
  refine ⟨b, h, f, ?_, ⟨rfl, rfl⟩, owned⟩
  rw [References.read, owned.load held]

theorem write (split : f = {(a, b)} + r) (b' : β) :
    Turns f (References.write gone a b') fun _ g => g = {(a, b')} + r := by
  refine bind (read (b := b) (by simp [split])) ?_
  rintro _ _ ⟨rfl, rfl⟩ h held
  exact ⟨(), h.store a b', _, rfl, rfl, held.store split b'⟩

theorem release (split : f = {(a, b)} + r) : Turns f (References.release gone a) fun _ g => g = r := by
  refine bind (read (b := b) (by simp [split])) ?_
  rintro _ _ ⟨rfl, rfl⟩ h held
  exact ⟨(), h.free a, _, rfl, rfl, held.free split⟩

/-- A look at the whole heap. -/
theorem get {k : Heap β → Exec φ (Heap β) γ} {post : γ → Multiset (Addr × β) → Prop}
    (rest : ∀ h, Heap.empty.Holds h f → Turns f (k h) post) : Turns f (MonadState.get >>= k) post := by
  intro h held
  exact rest h held h held

/-- What is in the heap is owned. -/
theorem mem_of_cell {h : Heap β} (held : Heap.empty.Holds h f) (here : some b ∈ h.cells) : ∃ a, (a, b) ∈ f := by
  obtain ⟨ext, cells, rfl⟩ := held
  rw [cells] at here
  obtain ⟨i, found⟩ := List.mem_iff_getElem?.mp here
  refine ⟨i, Heap.mem_entriesFrom.mpr ⟨Nat.zero_le _, ?_⟩⟩
  exact found

end Turns

end References

end Lib
