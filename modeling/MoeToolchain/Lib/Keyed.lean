import Mathlib.Logic.Function.Basic
import Mathlib.Data.List.Basic

/-!
# Events with keys

A state with a cell for each key, and events that act on the cell of their key. What a cell
holds in the end depends only on the events of its key, in order (`foldl_actAt`). So two
sequences of events in which every key has the same events (`SameEvents`) have one result,
however the keys are interleaved, and they are permutations of each other.
-/

namespace Lib
set_option autoImplicit false

section Keyed

variable {κ ε α : Type} [DecidableEq κ] {k : κ} {as bs : List (κ × ε)}

/-- The events of one key, in order. -/
def eventsOf (k : κ) (es : List (κ × ε)) : List ε := es.filterMap fun e => if e.1 = k then some e.2 else none

/-- An event on the cell of its key. -/
def actAt (act : α → ε → α) (cells : κ → α) (e : κ × ε) : κ → α := Function.update cells e.1 (act (cells e.1) e.2)

/-- Every key has the same events in both sequences. -/
def SameEvents (as bs : List (κ × ε)) : Prop := ∀ k, eventsOf k as = eventsOf k bs

theorem eventsOf_cons (e : κ × ε) (es : List (κ × ε)) :
    eventsOf k (e :: es) = if e.1 = k then e.2 :: eventsOf k es else eventsOf k es := by
  unfold eventsOf
  by_cases same : e.1 = k <;> simp [same]

/-- A cell sees only the events of its key. -/
theorem foldl_actAt (act : α → ε → α) (es : List (κ × ε)) : ∀ cells : κ → α,
    es.foldl (actAt act) cells k = (eventsOf k es).foldl act (cells k) := by
  induction es with
  | nil =>
    intro cells
    rfl
  | cons e es ih =>
    intro cells
    rw [List.foldl_cons, ih, eventsOf_cons, actAt]
    by_cases same : e.1 = k
    · subst same
      rw [if_pos rfl, Function.update_self, List.foldl_cons]
    · rw [if_neg same, Function.update_of_ne fun here => same here.symm]

theorem SameEvents.foldl (same : SameEvents as bs) (act : α → ε → α) (cells : κ → α) :
    as.foldl (actAt act) cells = bs.foldl (actAt act) cells := by
  funext k
  rw [foldl_actAt, foldl_actAt, same k]

theorem count_eventsOf [DecidableEq ε] (k : κ) (x : ε) (es : List (κ × ε)) : es.count (k, x) = (eventsOf k es).count x := by
  induction es with
  | nil => rfl
  | cons e es ih =>
    obtain ⟨k', y⟩ := e
    rw [eventsOf_cons, List.count_cons, ih]
    by_cases same : k' = k
    · subst same
      simp [List.count_cons]
    · simp [same]

theorem SameEvents.perm (same : SameEvents as bs) : as.Perm bs := by
  classical
  rw [List.perm_iff_count]
  rintro ⟨k, x⟩
  rw [count_eventsOf, count_eventsOf, same k]

end Keyed

end Lib
