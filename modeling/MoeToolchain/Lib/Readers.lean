import Mathlib.Data.List.Infix
import MoeToolchain.Lib.Exec

/-!
# Readers of tokens

A `Reader` takes a value off the front of a list of tokens. `ReadsOff read ts a before` says
that it takes just the tokens `ts` for the value `a`, whatever follows them as long as
`before` holds of it. A printer is undone by a reader part by part: the rules are for
sequences (`ReadsOff.bind`), for expected tokens, and for items up to the end of them
(`ReadsOff.many`, `ReadsOff.manyTill`).
-/

namespace Lib
set_option autoImplicit false

/-- Takes a value off a list, or fails. -/
abbrev Reader (τ α : Type) := Exec Unit (List τ) α

namespace Reader

variable {τ α β : Type}

def fail : Reader τ α := Exec.fault ()

def next : Reader τ τ := fun input =>
  match input with
  | [] => .error ()
  | t :: rest => .ok (t, rest)

def remaining : Reader τ Nat := fun input => .ok (input.length, input)

/-- Items, as long as `go` finds another one. -/
def loop (go : Reader τ Bool) (item : Reader τ α) : Nat → Reader τ (List α)
  | 0 => fail
  | fuel + 1 => do
    let more ← go
    if more then do
      let a ← item
      let as ← loop go item fuel
      pure (a :: as)
    else pure []

/-- The reader takes the tokens `ts` for `a`, where what follows is as `before` says. -/
def ReadsOff (read : Reader τ α) (ts : List τ) (a : α) (before : List τ → Prop) : Prop :=
  ∀ rest, before rest → read (ts ++ rest) = .ok (a, rest)

section Rules

variable {read : Reader τ α} {ts ts' rest : List τ} {t t' : τ} {a : α} {b : β} {before after : List τ → Prop}

theorem ReadsOff.weaken (reads : ReadsOff read ts a before) (stronger : ∀ rest, after rest → before rest) :
    ReadsOff read ts a after :=
  fun rest here => reads rest (stronger rest here)

theorem ReadsOff.pure (a : α) : ReadsOff (Pure.pure a : Reader τ α) [] a before := fun _ _ => rfl

theorem ReadsOff.bind {f : α → Reader τ β} (first : ReadsOff read ts a before) (second : ReadsOff (f a) ts' b after)
    (between : ∀ rest, after rest → before (ts' ++ rest)) : ReadsOff (read >>= f) (ts ++ ts') b after := by
  intro rest follows
  rw [List.append_assoc, Exec.bind_ok (first _ (between rest follows))]
  exact second rest follows

/-- What follows the first part does not matter. -/
theorem ReadsOff.andThen {f : α → Reader τ β} (first : ReadsOff read ts a fun _ => True) (second : ReadsOff (f a) ts' b after) :
    ReadsOff (read >>= f) (ts ++ ts') b after :=
  first.bind second fun _ _ => trivial

theorem ReadsOff.map {f : α → β} (reads : ReadsOff read ts a before) : ReadsOff (f <$> read) ts (f a) before := by
  intro rest follows
  rw [map_eq_pure_bind, Exec.bind_ok (reads rest follows)]
  rfl

theorem ReadsOff.next : ReadsOff next [t] t before := fun _ _ => rfl

theorem not_prefix (differ : t ≠ t') : ¬ (t :: ts) <+: (t' :: rest) := fun here =>
  differ (List.cons_prefix_cons.mp here).1

/-- Items that are read one after the other, and then what ends them. -/
theorem ReadsOff.loop {go : Reader τ Bool} {item : Reader τ β} {tokens : α → List τ} {value : α → β} {lead stop : List τ}
    (ends : ReadsOff go stop false after) (last : ∀ rest, after rest → before (stop ++ rest)) (as : List α)
    (goes : ∀ a ∈ as, ∀ rest, go (lead ++ (tokens a ++ rest)) = .ok (true, tokens a ++ rest))
    (between : ∀ a ∈ as, ∀ rest, before (lead ++ (tokens a ++ rest)))
    (each : ∀ a ∈ as, ReadsOff item (tokens a) (value a) before) {fuel : Nat} (enough : as.length < fuel) :
    ReadsOff (loop go item fuel) (as.flatMap (fun a => lead ++ tokens a) ++ stop) (as.map value) after := by
  induction as generalizing fuel with
  | nil =>
    obtain ⟨fuel, rfl⟩ := Nat.exists_eq_add_of_lt enough
    intro rest follows
    rw [List.length_nil, Nat.zero_add, Reader.loop, List.flatMap_nil, List.nil_append, Exec.bind_ok (ends rest follows)]
    rfl
  | cons a as ih =>
    obtain ⟨fuel, rfl⟩ := Nat.exists_eq_succ_of_ne_zero (Nat.ne_of_gt (Nat.zero_lt_of_lt enough))
    intro rest follows
    have later := ih (fun a mem => goes a (List.mem_cons_of_mem _ mem))
      (fun a mem => between a (List.mem_cons_of_mem _ mem)) (fun a mem => each a (List.mem_cons_of_mem _ mem))
      (Nat.lt_of_succ_lt_succ enough) rest follows
    have here : before (as.flatMap (fun a => lead ++ tokens a) ++ stop ++ rest) := by
      cases as with
      | nil => simpa using last rest follows
      | cons a' as =>
        simp only [List.flatMap_cons, List.append_assoc]
        exact between a' (by simp) _
    have read := each a List.mem_cons_self _ here
    have goes := goes a List.mem_cons_self (as.flatMap (fun a => lead ++ tokens a) ++ stop ++ rest)
    rw [List.flatMap_cons, List.append_assoc, List.append_assoc, List.append_assoc, ← List.append_assoc _ stop,
      Reader.loop, Exec.bind_ok goes, if_pos rfl, Exec.bind_ok read, Exec.bind_ok later]
    rfl

theorem length_le_flatMap {tokens : α → List τ} (as : List α) (some_ : ∀ a ∈ as, tokens a ≠ []) :
    as.length ≤ (as.flatMap tokens).length := by
  induction as with
  | nil => exact Nat.le_refl _
  | cons a as ih =>
    obtain ⟨here, later⟩ := List.forall_mem_cons.mp some_
    have first := List.length_pos_iff.mpr here
    have rest := ih later
    rw [List.flatMap_cons, List.length_append, List.length_cons]
    omega

end Rules

/-! ## Expected tokens -/

section Expected

variable [DecidableEq τ] {ts ts' : List τ} {b : β} {before after : List τ → Prop}

/-- Take the tokens if they come next. -/
def accept (ts : List τ) : Reader τ Bool := fun input =>
  if ts <+: input then .ok (true, input.drop ts.length) else .ok (false, input)

def expect (ts : List τ) : Reader τ Unit := do
  let here ← accept ts
  if here then pure () else fail

/-- Items with `lead` in front of each. -/
def many (lead : List τ) (item : Reader τ α) : Reader τ (List α) := do
  let fuel ← remaining
  loop (accept lead) item (fuel + 1)

/-- Items up to `stop`. -/
def manyTill (stop : List τ) (item : Reader τ α) : Reader τ (List α) := do
  let fuel ← remaining
  loop (not <$> accept stop) item (fuel + 1)

theorem accept_here (ts rest : List τ) : accept ts (ts ++ rest) = .ok (true, rest) := by
  rw [accept, if_pos (List.prefix_append ts rest), List.drop_left]

theorem ReadsOff.accepted {f : Bool → Reader τ β} (later : ReadsOff (f true) ts' b after) :
    ReadsOff (accept ts >>= f) (ts ++ ts') b after := by
  intro rest follows
  rw [List.append_assoc, Exec.bind_ok (accept_here ts _)]
  exact later rest follows

/-- Other tokens come next. -/
theorem ReadsOff.passed {f : Bool → Reader τ β} (other : ∀ rest, after rest → ¬ ts <+: ts' ++ rest)
    (later : ReadsOff (f false) ts' b after) : ReadsOff (accept ts >>= f) ts' b after := by
  intro rest follows
  have passes : accept ts (ts' ++ rest) = .ok (false, ts' ++ rest) := if_neg (other rest follows)
  rw [Exec.bind_ok passes]
  exact later rest follows

theorem expect_here (ts rest : List τ) : expect ts (ts ++ rest) = .ok ((), rest) := by
  rw [expect, Exec.bind_ok (accept_here ts rest)]
  rfl

theorem ReadsOff.expected {f : Unit → Reader τ β} (later : ReadsOff (f ()) ts' b after) :
    ReadsOff (expect ts >>= f) (ts ++ ts') b after := by
  intro rest follows
  rw [List.append_assoc, Exec.bind_ok (expect_here ts _)]
  exact later rest follows

theorem ReadsOff.last : ReadsOff (expect ts >>= fun _ => Pure.pure b) ts b after := by
  intro rest _
  rw [Exec.bind_ok (expect_here ts rest)]
  rfl

/-- Items with `lead` in front of each are read, where `lead` does not come next. -/
theorem ReadsOff.many {item : Reader τ β} {tokens : α → List τ} {value : α → β} {lead : List τ} (some_ : lead ≠ [])
    (as : List α) (ends : ∀ rest, after rest → ¬ lead <+: rest ∧ before rest) (between : ∀ rest, before (lead ++ rest))
    (each : ∀ a ∈ as, ReadsOff item (tokens a) (value a) before) :
    ReadsOff (many lead item) (as.flatMap fun a => lead ++ tokens a) (as.map value) after := by
  intro rest follows
  have enough : as.length < (as.flatMap (fun a => lead ++ tokens a) ++ rest).length + 1 := by
    have less := length_le_flatMap as fun a _ => List.append_ne_nil_of_left_ne_nil some_ (tokens a)
    rw [List.length_append]
    omega
  have stops : ReadsOff (accept lead) [] false after := fun rest follows => if_neg (ends rest follows).1
  have reads := ReadsOff.loop stops (fun rest follows => (ends rest follows).2) as (fun a _ rest => accept_here lead _)
    (fun a _ rest => between _) each enough rest follows
  rw [List.append_nil] at reads
  exact reads

/-- Items are read up to `stop`, which none of them begins with. -/
theorem ReadsOff.manyTill {item : Reader τ β} {tokens : α → List τ} {value : α → β} {stop : List τ} (as : List α)
    (other : ∀ a ∈ as, ∀ rest, ¬ stop <+: tokens a ++ rest) (last : ∀ rest, before (stop ++ rest))
    (between : ∀ a ∈ as, ∀ rest, before (tokens a ++ rest))
    (each : ∀ a ∈ as, ReadsOff item (tokens a) (value a) before) :
    ReadsOff (manyTill stop item) (as.flatMap tokens ++ stop) (as.map value) after := by
  intro rest follows
  have some_ : ∀ a ∈ as, tokens a ≠ [] := fun a mem none_ => other a mem stop (by rw [none_, List.nil_append])
  have enough : as.length < (as.flatMap tokens ++ stop ++ rest).length + 1 := by
    have less := length_le_flatMap as some_
    rw [List.length_append, List.length_append]
    omega
  have ends : ReadsOff (not <$> accept stop) stop false after := fun rest follows => by
    rw [map_eq_pure_bind, Exec.bind_ok (accept_here stop rest)]
    rfl
  have goes : ∀ a ∈ as, ∀ rest, (not <$> accept stop : Reader τ Bool) ([] ++ (tokens a ++ rest)) =
      .ok (true, tokens a ++ rest) := by
    intro a mem rest
    have passes : accept stop (tokens a ++ rest) = .ok (false, tokens a ++ rest) := if_neg (other a mem rest)
    rw [map_eq_pure_bind, List.nil_append, Exec.bind_ok passes]
    rfl
  exact ReadsOff.loop ends (fun rest _ => last rest) as goes between each enough rest follows

end Expected

end Reader

end Lib
