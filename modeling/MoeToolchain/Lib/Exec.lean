import Mathlib.Data.List.Basic

/-!
# Computations with state and faults, and refinement between them

`Exec φ σ α` is a computation over states `σ` that ends with a value and a state,
or stops with a fault of type `φ`. `Refines` compares a computation on concrete
states with one on abstract states: the concrete one faults exactly as the
abstract one does, and otherwise returns a related value in a related state.
A concrete fault that the abstract side does not have is ruled out by every
refinement, so memory safety of the concrete side is part of the relation.

`Wp` speaks of one computation: what it ends in, and which faults may stop it.

The rules follow the shape of programs: `bind` for sequencing, `step` for work
only the concrete side does, `ite` for a common test, `foldlM` for loops.
-/

namespace Lib
set_option autoImplicit false

/-- State passing with faults. -/
abbrev Exec (φ σ α : Type) := StateT σ (Except φ) α

namespace Exec

variable {φ σ τ α β : Type}

/-- Run a computation on a part of the state. -/
def zoom (get : σ → τ) (put : τ → σ → σ) (x : Exec φ τ α) : Exec φ σ α := fun s =>
  match x (get s) with
  | .ok (a, t) => .ok (a, put t s)
  | .error e => .error e

/-- Stop with a fault. -/
def fault (e : φ) : Exec φ σ α := fun _ => .error e

@[simp] theorem pure_apply (a : α) (s : σ) : (pure a : Exec φ σ α) s = .ok (a, s) := rfl

@[simp] theorem get_apply (s : σ) : (get : Exec φ σ σ) s = .ok (s, s) := rfl

@[simp] theorem set_apply (s s' : σ) : (set s' : Exec φ σ PUnit) s = .ok (⟨⟩, s') := rfl

@[simp] theorem modify_apply (f : σ → σ) (s : σ) :
    (modify f : Exec φ σ PUnit) s = .ok (⟨⟩, f s) := rfl

@[simp] theorem fault_apply (e : φ) (s : σ) : (fault e : Exec φ σ α) s = .error e := rfl

theorem bind_apply (x : Exec φ σ α) (f : α → Exec φ σ β) (s : σ) :
    (x >>= f) s = match x s with
      | .ok (a, s') => f a s'
      | .error e => .error e := by
  change (StateT.bind x f) s = _
  unfold StateT.bind
  cases x s with
  | error e => rfl
  | ok r => rfl

theorem bind_ok {x : Exec φ σ α} {f : α → Exec φ σ β} {s s' : σ} {a : α}
    (run : x s = .ok (a, s')) : (x >>= f) s = f a s' := by
  rw [bind_apply, run]

theorem bind_error {x : Exec φ σ α} {f : α → Exec φ σ β} {s : σ} {e : φ}
    (run : x s = .error e) : (x >>= f) s = .error e := by
  rw [bind_apply, run]

/-- A sequence that returns is two runs that return. -/
theorem bind_eq_ok {x : Exec φ σ α} {f : α → Exec φ σ β} {s : σ} {r : β × σ} :
    (x >>= f) s = .ok r ↔ ∃ a s', x s = .ok (a, s') ∧ f a s' = .ok r := by
  rw [bind_apply]
  cases x s with
  | error e => simp
  | ok p =>
    obtain ⟨a, s'⟩ := p
    simp

theorem zoom_ok {get : σ → τ} {put : τ → σ → σ} {x : Exec φ τ α} {s : σ} {a : α} {t : τ}
    (run : x (get s) = .ok (a, t)) : zoom get put x s = .ok (a, put t s) := by
  simp only [zoom, run]

theorem zoom_error {get : σ → τ} {put : τ → σ → σ} {x : Exec φ τ α} {s : σ} {e : φ}
    (run : x (get s) = .error e) : zoom get put x s = .error e := by
  simp only [zoom, run]

theorem zoom_eq_ok {get : σ → τ} {put : τ → σ → σ} {x : Exec φ τ α} {s : σ} {r : α × σ} :
    zoom get put x s = .ok r ↔ ∃ t, x (get s) = .ok (r.1, t) ∧ put t s = r.2 := by
  obtain ⟨a, s'⟩ := r
  simp only [zoom]
  cases x (get s) with
  | error e => simp
  | ok p =>
    obtain ⟨a', t⟩ := p
    simp only [Except.ok.injEq, Prod.mk.injEq]
    constructor
    · rintro ⟨rfl, rfl⟩
      exact ⟨t, ⟨rfl, rfl⟩, rfl⟩
    · rintro ⟨t', ⟨rfl, rfl⟩, rfl⟩
      exact ⟨rfl, rfl⟩

/-- Reads at the indices of a list make up the list. -/
theorem mapM_range_ok {f : Nat → Exec φ σ β} {vs : List β} {s : σ}
    (read : ∀ i (here : i < vs.length), f i s = .ok (vs[i], s)) :
    (List.range vs.length).mapM f s = .ok (vs, s) := by
  induction vs generalizing f with
  | nil => rfl
  | cons v vs ih =>
    have first := read 0 (Nat.zero_lt_succ _)
    have rest := @ih (fun i => f (i + 1)) fun i here => read (i + 1) (Nat.succ_lt_succ here)
    have shifted : ((List.range vs.length).map Nat.succ).mapM f s = .ok (vs, s) := by
      rw [List.mapM_map]
      exact rest
    rw [List.length_cons, List.range_succ_eq_map, List.mapM_cons, bind_ok first, bind_ok shifted]
    rfl

/-- `x` run from `s` ends in `post`, or stops with one of the `allowed` faults. -/
def Wp (allowed : φ → Prop) (x : Exec φ σ α) (s : σ) (post : α → σ → Prop) : Prop :=
  match x s with
  | .error e => allowed e
  | .ok (a, s') => post a s'

namespace Wp

variable {allowed : φ → Prop} {s s' : σ} {a : α} {e : φ}

theorem of_ok {x : Exec φ σ α} {post : α → σ → Prop} (h : Wp allowed x s post)
    (run : x s = .ok (a, s')) : post a s' := by
  simpa only [Wp, run] using h

theorem of_error {x : Exec φ σ α} {post : α → σ → Prop} (h : Wp allowed x s post)
    (run : x s = .error e) : allowed e := by
  simpa only [Wp, run] using h

theorem pure {post : α → σ → Prop} (h : post a s) : Wp allowed (Pure.pure a) s post := h

theorem bind {x : Exec φ σ α} {f : α → Exec φ σ β} {post : β → σ → Prop}
    (h : Wp allowed x s fun a s' => Wp allowed (f a) s' post) : Wp allowed (x >>= f) s post := by
  unfold Wp at h ⊢
  rw [bind_apply]
  cases run : x s with
  | error e =>
    rw [run] at h
    exact h
  | ok r =>
    rw [run] at h
    exact h

/-- Reading the state changes nothing. -/
theorem get {f : σ → Exec φ σ β} {post : β → σ → Prop} (h : Wp allowed (f s) s post) :
    Wp allowed (MonadState.get >>= f) s post := h

theorem conseq {x : Exec φ σ α} {post post' : α → σ → Prop} (h : Wp allowed x s post)
    (weaker : ∀ a s', post a s' → post' a s') : Wp allowed x s post' := by
  unfold Wp at h ⊢
  cases run : x s with
  | error e =>
    rw [run] at h
    exact h
  | ok r =>
    rw [run] at h
    exact weaker _ _ h

theorem ite {c : Prop} [Decidable c] {x y : Exec φ σ α} {post : α → σ → Prop}
    (yes : c → Wp allowed x s post) (no : ¬ c → Wp allowed y s post) :
    Wp allowed (if c then x else y) s post := by
  split
  · exact yes ‹_›
  · exact no ‹_›

end Wp

end Exec

open Exec

variable {φ σ τ υ α β γ δ : Type}

/-- The concrete computation `x` does what the abstract computation `y` does. -/
def Refines (pre : σ → τ → Prop) (x : Exec φ σ α) (y : Exec φ τ β)
    (post : α → β → σ → τ → Prop) : Prop :=
  ∀ s t, pre s t →
    match y t with
    | .error e => x s = .error e
    | .ok (b, t') => ∃ a s', x s = .ok (a, s') ∧ post a b s' t'

namespace Refines

theorem pure {pre : σ → τ → Prop} {post : α → β → σ → τ → Prop} {a : α} {b : β}
    (h : ∀ s t, pre s t → post a b s t) :
    Refines (φ := φ) pre (Pure.pure a) (Pure.pure b) post := by
  intro s t hp
  exact ⟨a, s, rfl, h s t hp⟩

theorem fault {pre : σ → τ → Prop} {post : α → β → σ → τ → Prop} (e : φ) :
    Refines pre (Exec.fault e) (Exec.fault e) post := by
  intro s t _
  rfl

theorem conseq {pre pre' : σ → τ → Prop} {x : Exec φ σ α} {y : Exec φ τ β}
    {post post' : α → β → σ → τ → Prop} (h : Refines pre x y post)
    (hpre : ∀ s t, pre' s t → pre s t)
    (hpost : ∀ a b s t, post a b s t → post' a b s t) : Refines pre' x y post' := by
  intro s t hp
  have run := h s t (hpre s t hp)
  cases hy : y t with
  | error e =>
    rw [hy] at run
    exact run
  | ok r =>
    rw [hy] at run
    obtain ⟨a, s', hx, hq⟩ := run
    exact ⟨a, s', hx, hpost _ _ _ _ hq⟩

/-- Sequencing: related parts compose to a related whole. -/
theorem bind {pre : σ → τ → Prop} {x : Exec φ σ α} {y : Exec φ τ β}
    {mid : α → β → σ → τ → Prop} {f : α → Exec φ σ γ} {g : β → Exec φ τ δ}
    {post : γ → δ → σ → τ → Prop} (h : Refines pre x y mid)
    (hf : ∀ a b, Refines (mid a b) (f a) (g b) post) :
    Refines pre (x >>= f) (y >>= g) post := by
  intro s t hp
  have run := h s t hp
  rw [bind_apply]
  cases hy : y t with
  | error e =>
    rw [hy] at run
    exact bind_error run
  | ok r =>
    obtain ⟨b, t'⟩ := r
    rw [hy] at run
    obtain ⟨a, s', hx, hm⟩ := run
    have next := hf a b s' t' hm
    rw [bind_ok hx]
    exact next

/-- Work that only the concrete side does. -/
theorem step {pre : σ → τ → Prop} {x : Exec φ σ α} {mid : α → σ → τ → Prop}
    {f : α → Exec φ σ γ} {y : Exec φ τ δ} {post : γ → δ → σ → τ → Prop}
    (h : ∀ s t, pre s t → ∃ a s', x s = .ok (a, s') ∧ mid a s' t)
    (hf : ∀ a, Refines (mid a) (f a) y post) : Refines pre (x >>= f) y post := by
  intro s t hp
  obtain ⟨a, s', hx, hm⟩ := h s t hp
  rw [bind_ok hx]
  exact hf a s' t hm

/-- Both branches of a common test refine. -/
theorem ite {pre : σ → τ → Prop} {c : Prop} [Decidable c] {x x' : Exec φ σ α}
    {y y' : Exec φ τ β} {post : α → β → σ → τ → Prop}
    (yes : c → Refines pre x y post) (no : ¬ c → Refines pre x' y' post) :
    Refines pre (if c then x else x') (if c then y else y') post := by
  split
  · exact yes ‹_›
  · exact no ‹_›

/-- A fact about the states that the precondition gives may be named first. -/
theorem assume {pre : σ → τ → Prop} {c : Prop} {x : Exec φ σ α} {y : Exec φ τ β}
    {post : α → β → σ → τ → Prop} (h : ∀ s t, pre s t → c)
    (hc : c → Refines pre x y post) : Refines pre x y post := by
  intro s t hp
  exact hc (h s t hp) s t hp

/-- Two folds over lists whose elements are related. -/
theorem foldlM {ι κ : Type} {R : ι → κ → Prop} {rel : α → β → σ → τ → Prop}
    {f : α → ι → Exec φ σ α} {g : β → κ → Exec φ τ β} {xs : List ι} {ys : List κ}
    (related : List.Forall₂ R xs ys)
    (step : ∀ x y, R x y → ∀ a b, Refines (rel a b) (f a x) (g b y) rel) :
    ∀ a b, Refines (rel a b) (xs.foldlM f a) (ys.foldlM g b) rel := by
  induction related with
  | nil =>
    intro a b
    exact Refines.pure fun s t h => h
  | cons here _ ih =>
    intro a b
    rw [List.foldlM_cons, List.foldlM_cons]
    exact Refines.bind (step _ _ here a b) ih

/-- A value that the precondition only says exists may be fixed first. -/
theorem choose {ι : Sort*} {pre : ι → σ → τ → Prop} {x : Exec φ σ α} {y : Exec φ τ β}
    {post : α → β → σ → τ → Prop} (h : ∀ i, Refines (pre i) x y post) :
    Refines (fun s t => ∃ i, pre i s t) x y post := by
  intro s t hp
  obtain ⟨i, hp⟩ := hp
  exact h i s t hp

end Refines

end Lib
