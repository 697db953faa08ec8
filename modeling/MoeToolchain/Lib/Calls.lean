import MoeToolchain.Lib.Exec
import Mathlib.Data.List.Infix

/-!
# Calls of one computation on the elements of a list

`forM` and `mapM` call a computation on every element in order, and `callUntil` up to the
first on which it returns `false`. `Calls` is the trace of such calls. `EachCall` says of
the calls that a run makes what each one does, so that a loop can be compared with the
calls it makes whatever these do besides.
-/

namespace Lib
set_option autoImplicit false

namespace Exec

variable {φ σ α β : Type} {s s' : σ}

/-- The calls of `f` on the elements in order, up to the first that returns `false`. -/
def callUntil (f : α → Exec φ σ Bool) : List α → Exec φ σ Unit
  | [] => pure ()
  | x :: xs => do
    let more ← f x
    if more then callUntil f xs else pure ()

/-- Calls of `f` one after the other, each with its element and its result. -/
inductive Calls (f : α → Exec φ σ β) : σ → List (α × β) → σ → Prop
  | nil (s : σ) : Calls f s [] s
  | cons {s s' s'' : σ} {x : α} {b : β} {calls : List (α × β)} (call : f x s = .ok (b, s'))
      (rest : Calls f s' calls s'') : Calls f s ((x, b) :: calls) s''

/-- The shortest prefix of `xs` that ends with a call that returned `false`; all of `xs` if
there is none. -/
def UpToFalse (xs : List α) (calls : List (α × Bool)) : Prop :=
  calls = xs.map (·, true) ∨
    ∃ before x after, xs = before ++ x :: after ∧ calls = before.map (·, true) ++ [(x, false)]

theorem upToFalse_nil {calls : List (α × Bool)} : UpToFalse [] calls ↔ calls = [] := by
  simp [UpToFalse]

theorem upToFalse_cons {x y : α} {b : Bool} {xs : List α} {calls : List (α × Bool)} :
    UpToFalse (x :: xs) ((y, b) :: calls) ↔
      y = x ∧ ((b = true ∧ UpToFalse xs calls) ∨ (b = false ∧ calls = [])) := by
  constructor
  · rintro (all | ⟨before, z, after, split, same⟩)
    · obtain ⟨here, rest⟩ := List.cons.inj all
      cases here
      exact ⟨rfl, .inl ⟨rfl, .inl rest⟩⟩
    · cases before with
      | nil =>
        cases split
        cases same
        exact ⟨rfl, .inr ⟨rfl, rfl⟩⟩
      | cons w before =>
        cases split
        cases same
        exact ⟨rfl, .inl ⟨rfl, .inr ⟨before, z, after, rfl, rfl⟩⟩⟩
  · rintro ⟨rfl, ⟨rfl, all | ⟨before, z, after, rfl, rfl⟩⟩ | ⟨rfl, rfl⟩⟩
    · exact .inl (by rw [all]; rfl)
    · exact .inr ⟨y :: before, z, after, rfl, rfl⟩
    · exact .inr ⟨[], y, xs, rfl, rfl⟩

theorem not_upToFalse_nil {x : α} {xs : List α} : ¬ UpToFalse (x :: xs) [] := by
  rintro (all | ⟨before, z, after, split, same⟩)
  · cases all
  · exact absurd same (by simp)

/-- What `callUntil` calls. -/
theorem callUntil_ok {f : α → Exec φ σ Bool} {xs : List α} :
    callUntil f xs s = .ok ((), s') ↔ ∃ calls, Calls f s calls s' ∧ UpToFalse xs calls := by
  induction xs generalizing s with
  | nil =>
    constructor
    · intro run
      cases run
      exact ⟨[], .nil _, upToFalse_nil.mpr rfl⟩
    · rintro ⟨calls, made, upTo⟩
      obtain rfl := upToFalse_nil.mp upTo
      cases made
      rfl
  | cons x xs ih =>
    rw [callUntil, bind_eq_ok]
    constructor
    · rintro ⟨more, mid, call, run⟩
      cases more with
      | false =>
        cases run
        exact ⟨[(x, false)], .cons call (.nil _), upToFalse_cons.mpr ⟨rfl, .inr ⟨rfl, rfl⟩⟩⟩
      | true =>
        obtain ⟨calls, made, upTo⟩ := ih.mp run
        exact ⟨(x, true) :: calls, .cons call made, upToFalse_cons.mpr ⟨rfl, .inl ⟨rfl, upTo⟩⟩⟩
    · rintro ⟨calls, made, upTo⟩
      cases made with
      | nil => exact absurd upTo not_upToFalse_nil
      | @cons _ mid _ y more calls call rest =>
        obtain ⟨rfl, ⟨rfl, later⟩ | ⟨rfl, rfl⟩⟩ := upToFalse_cons.mp upTo
        · exact ⟨true, mid, call, ih.mpr ⟨calls, rest, later⟩⟩
        · cases rest
          exact ⟨false, _, call, rfl⟩

/-- A call without a result, as one that never returns `false`. -/
def always (f : α → Exec φ σ Unit) (x : α) : Exec φ σ Bool := do
  f x
  pure true

theorem always_ok {f : α → Exec φ σ Unit} {x : α} {more : Bool} :
    always f x s = .ok (more, s') ↔ more = true ∧ f x s = .ok ((), s') := by
  rw [always, bind_eq_ok]
  constructor
  · rintro ⟨_, mid, call, run⟩
    cases run
    exact ⟨rfl, call⟩
  · rintro ⟨rfl, call⟩
    exact ⟨(), s', call, rfl⟩

theorem callUntil_always (f : α → Exec φ σ Unit) (xs : List α) : callUntil (always f) xs = forM xs f := by
  induction xs with
  | nil => rfl
  | cons x xs ih =>
    rw [callUntil, ih, List.forM_cons, always, bind_assoc]
    rfl

/-- What `forM` calls. -/
theorem forM_ok {f : α → Exec φ σ Unit} {xs : List α} :
    forM xs f s = .ok ((), s') ↔ Calls f s (xs.map (·, ())) s' := by
  induction xs generalizing s with
  | nil =>
    constructor
    · intro run
      cases run
      exact .nil _
    · intro calls
      cases calls
      rfl
  | cons x xs ih =>
    rw [List.forM_cons, bind_eq_ok]
    constructor
    · rintro ⟨_, mid, call, rest⟩
      exact .cons call (ih.mp rest)
    · intro calls
      cases calls with
      | cons call rest => exact ⟨(), _, call, ih.mpr rest⟩

/-- Of the calls of `f` on the elements in order, as long as the results go on: each one
that returns does `does`, given its element, those still to come and the states around it. -/
def EachCall (f : α → Exec φ σ β) (goesOn : β → Bool) (does : α → List α → σ → σ → Prop) : List α → σ → Prop
  | [], _ => True
  | x :: xs, s => ∀ b s', f x s = .ok (b, s') → does x xs s s' ∧ (goesOn b = true → EachCall f goesOn does xs s')

section EachCall

variable {f : α → Exec φ σ β} {goesOn : β → Bool} {does does' : α → List α → σ → σ → Prop} {xs : List α}

theorem EachCall.imp (weaker : ∀ x xs s s', does x xs s s' → does' x xs s s') :
    ∀ {xs : List α} {s : σ}, EachCall f goesOn does xs s → EachCall f goesOn does' xs s := by
  intro xs
  induction xs with
  | nil => exact fun _ => trivial
  | cons x xs ih =>
    intro s each b s' call
    obtain ⟨here, later⟩ := each b s' call
    exact ⟨weaker _ _ _ _ here, fun goes => ih (later goes)⟩

/-- What every call does from any state, it does in a run. -/
theorem EachCall.of_forall (every : ∀ x xs s b s', f x s = .ok (b, s') → does x xs s s') :
    ∀ {xs : List α} {s : σ}, EachCall f goesOn does xs s := by
  intro xs
  induction xs with
  | nil => exact trivial
  | cons x xs ih => exact fun b s' call => ⟨every _ _ _ _ _ call, fun _ => ih⟩

/-- Calls that only read. -/
theorem EachCall.of_reads {g : α → β} (reads : ∀ x ∈ xs, f x s = .ok (g x, s)) (same : ∀ x later, does x later s s) :
    EachCall f goesOn does xs s := by
  induction xs with
  | nil => exact trivial
  | cons x xs ih =>
    intro b s' call
    rw [reads x (by simp)] at call
    cases call
    exact ⟨same x xs, fun _ => ih fun y mem => reads y (List.mem_cons_of_mem _ mem)⟩

theorem mapM_reads {g : α → β} (reads : ∀ x ∈ xs, f x s = .ok (g x, s)) : xs.mapM f s = .ok (xs.map g, s) := by
  induction xs with
  | nil => rfl
  | cons x xs ih =>
    have rest := ih fun y mem => reads y (List.mem_cons_of_mem _ mem)
    rw [List.mapM_cons, bind_ok (reads x (by simp)), bind_ok rest]
    rfl

/-- The rule of a loop over a list: `holds` speaks of the elements still to come and of the
state, and where it does, the next call returns and keeps it. -/
theorem calls_invariant {f : α → Exec φ σ Unit} {holds : List α → σ → Prop}
    (turn : ∀ x xs s, holds (x :: xs) s → ∃ s', f x s = .ok ((), s') ∧ holds xs s') :
    ∀ {xs : List α} {s : σ}, holds xs s →
      EachCall f (fun _ => true) (fun _ later _ => holds later) xs s ∧
      ∃ s', Calls f s (xs.map (·, ())) s' ∧ holds [] s' := by
  intro xs
  induction xs with
  | nil => exact fun start => ⟨trivial, _, .nil _, start⟩
  | cons x xs ih =>
    intro s start
    obtain ⟨s1, call, kept⟩ := turn x xs s start
    obtain ⟨each, s', calls, final⟩ := ih kept
    refine ⟨?_, s', .cons call calls, final⟩
    intro _ s2 called
    rw [call] at called
    cases called
    exact ⟨kept, fun _ => each⟩

theorem eachCall_always {f : α → Exec φ σ Unit} :
    EachCall (always f) id does xs s ↔ EachCall f (fun _ => true) does xs s := by
  induction xs generalizing s with
  | nil => exact Iff.rfl
  | cons x xs ih =>
    constructor
    · intro each _ s' call
      obtain ⟨here, later⟩ := each true s' (always_ok.mpr ⟨rfl, call⟩)
      exact ⟨here, fun _ => ih.mp (later rfl)⟩
    · intro each more s' call
      obtain ⟨rfl, called⟩ := always_ok.mp call
      obtain ⟨here, later⟩ := each () s' called
      exact ⟨here, fun _ => ih.mpr (later rfl)⟩

end EachCall

end Exec

end Lib
