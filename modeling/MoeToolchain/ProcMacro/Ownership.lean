import MoeToolchain.ProcMacro.ParserComplete

/-!
# What a call of the parser owns

`parseDerivedStruct_spec` runs the parser of the source on a memory, through the value
parser. From it: a call that returns `NULL` has freed all it allocated, and freeing a
returned struct gives back the memory as it was before the call.
-/

namespace MoeToolchain
set_option autoImplicit false
open Lib

section Spec

variable {m₀ mem : Mem} {f : Footprint} {lex lex' : StbLexer} {build : Build}

/-- The pointer returned for a value: `NULL` with no blocks left over, or a struct that
owns its blocks. -/
def Returned (m₀ : Mem) (f : Footprint) (p : Ptr) (v : Option DerivedStruct) (mem : Mem) : Prop :=
  match v with
  | none => p = none ∧ Owns m₀ mem f
  | some v => ∃ s : StructAt, p = some s.addr ∧ StructOwned m₀ f s v.handlers.length v mem

theorem parseDerivedStruct_spec {v : Option DerivedStruct} (owned : Owns m₀ mem f)
    (run : Values.parseDerivedStruct build lex = .ok (v, lex')) :
    ∃ p mem', parseDerivedStruct build ⟨lex, mem⟩ = .ok (p, ⟨lex', mem'⟩) ∧ Returned m₀ f p v mem' := by
  have at_ : Alongside (Owns m₀ · f) ⟨lex, mem⟩ lex := ⟨rfl, owned⟩
  have refines := parseDerivedStruct_refines build _ _ at_
  rw [run] at refines
  obtain ⟨p, ⟨_, mem'⟩, run', rfl, returned⟩ := refines
  exact ⟨p, mem', run', returned⟩

theorem parseDerivedStruct_fault {e : Fault} (run : Values.parseDerivedStruct build lex = .error e)
    (mem : Mem) : parseDerivedStruct build ⟨lex, mem⟩ = .error e := by
  have at_ : Alongside (Owns mem · 0) ⟨lex, mem⟩ lex := ⟨rfl, owns_refl mem⟩
  have refines := parseDerivedStruct_refines build _ _ at_
  rw [run] at refines
  exact refines

/-- A call that ends without a fault is one on values. -/
theorem parseDerivedStruct_values {p : Ptr} {st : St}
    (run : parseDerivedStruct build ⟨lex, mem⟩ = .ok (p, st)) :
    ∃ v, Values.parseDerivedStruct build lex = .ok (v, st.lex) ∧ Returned mem 0 p v st.mem := by
  cases values : Values.parseDerivedStruct build lex with
  | error e =>
    rw [parseDerivedStruct_fault values mem] at run
    cases run
  | ok r =>
    obtain ⟨v, lex'⟩ := r
    obtain ⟨p', mem', run', returned⟩ := parseDerivedStruct_spec (owns_refl mem) values
    rw [run'] at run
    cases run
    exact ⟨v, rfl, returned⟩

/-- The token that the lexer has just returned is the current one. -/
theorem fetched_current (lex : StbLexer) (t : Token) (rest : List Token) :
    Current (lex.fetched t rest) t := by
  constructor
  · rfl
  · intro b text
    rw [StbLexer.fetched_string, text]
    rfl

/-- On any token the value parser stops at an assertion only. -/
theorem parseDerivedStruct_assertionOnly (lex : StbLexer) (t : Token) (rest : List Token) :
    Exec.Wp AssertionOnly (Values.parseDerivedStruct .assertions) (lex.fetched t rest) fun _ _ => True := by
  have current := fetched_current lex t rest
  by_cases isMacro : ∃ m : Macro, t = .id m.word
  · obtain ⟨m, rfl⟩ := isMacro
    exact Exec.Wp.conseq (parseDerivedStruct_wp current) fun _ _ _ => trivial
  · rw [not_exists] at isMacro
    rw [Exec.Wp, parseDerivedStruct_none .assertions current isMacro]
    trivial

/-- On an extent that ends in a definition the call returns a struct and stops behind it. -/
theorem parseDerivedStruct_returns {m : Macro} {e : Extent} {v : DerivedStruct} (ok : e.Ok m)
    (accepted : e.result = some v) (lex : StbLexer) (mem : Mem) (r : List Token) :
    ∃ d st, parseDerivedStruct .assertions ⟨lex.fetched (.id m.word) (e.tokens ++ r), mem⟩ = .ok (some d, st) ∧
      st.lex.rest = r ∧ Returned mem 0 (some d) (some v) st.mem := by
  obtain ⟨here, read, rest⟩ : ∃ lex', Reads (lex.fetched (.id m.word) (e.tokens ++ r)) e.tokens lex' ∧
      lex'.rest = r := ⟨_, reads_after rfl, StbLexer.after_rest rfl⟩
  have values := parseDerivedStruct_run ok (fetched_current lex _ _) read
  rw [accepted] at values
  obtain ⟨p, mem', run, s, rfl, owned⟩ := parseDerivedStruct_spec (owns_refl mem) values
  exact ⟨s.addr, ⟨here, mem'⟩, run, rest, s, rfl, owned⟩

/-- A call that returns a struct has read such an extent. -/
theorem parseDerivedStruct_returned {t : Token} {rest : List Token} {d : Addr} {st : St}
    (run : parseDerivedStruct .assertions ⟨lex.fetched t rest, mem⟩ = .ok (some d, st)) :
    ∃ (m : Macro) (e : Extent) (v : DerivedStruct), e.Ok m ∧ e.result = some v ∧ t = .id m.word ∧
      Reads (lex.fetched t rest) e.tokens st.lex ∧ Returned mem 0 (some d) (some v) st.mem := by
  obtain ⟨v, values, returned⟩ := parseDerivedStruct_values run
  have current := fetched_current lex t rest
  by_cases isMacro : ∃ m : Macro, t = .id m.word
  · obtain ⟨m, rfl⟩ := isMacro
    obtain ⟨e, ok, read, rfl⟩ := (parseDerivedStruct_wp current).of_ok values
    cases accepted : e.result with
    | none =>
      rw [accepted] at returned
      cases returned.1
    | some v =>
      rw [accepted] at returned
      exact ⟨m, e, v, ok, accepted, rfl, read, returned⟩
  · rw [not_exists] at isMacro
    rw [parseDerivedStruct_none .assertions current isMacro, Except.ok.injEq, Prod.mk.injEq] at values
    obtain ⟨rfl, -⟩ := values
    cases returned.1

end Spec

/-- `m'` has the blocks of `m` and no others, and as many blocks were freed in between
as were allocated. A free of a block that is not live is a fault, so each of these was
freed exactly once. -/
structure Restored (m m' : Mem) : Prop where
  load : ∀ a, m'.heap.load a = m.heap.load a
  freed : m'.stats.totalFreed = m.stats.totalFreed + (m'.heap.next - m.heap.next)
  allocated : m'.stats.totalAllocated = m.stats.totalAllocated + (m'.heap.next - m.heap.next)

theorem Owns.restored {m m' : Mem} (owned : Owns m m' 0) : Restored m m' := by
  have balance := owned.balance
  rw [Multiset.card_zero] at balance
  have count : ∀ a f a' f' n n' : Nat, a' + f = a + f' + 0 → a' + n = a + n' → n ≤ n' →
      f' = f + (n' - n) ∧ a' = a + (n' - n) := by omega
  obtain ⟨freed, allocated⟩ := count _ _ _ _ _ _ balance owned.counted owned.holds.next_le
  refine ⟨?_, freed, allocated⟩
  intro a
  by_cases old : a < m.heap.next
  · exact owned.holds.frame old
  · have live := owned.holds.live_iff a
    have missing : m.heap.load a = none := by
      cases found : m.heap.load a with
      | none => rfl
      | some b => exact absurd (Heap.load_lt found) old
    rw [missing]
    cases found : m'.heap.load a with
    | none => rfl
    | some b => simp [Heap.Live, found, missing] at live

/-- A call gives back all its memory when it returns `NULL`, and `moe_derived_struct_free`
does when it returns a struct. Neither reads a freed block, leaves the item array's
bounds or destroys an item that was not created: these are faults of the model, and a
failed assertion is the only one that occurs. -/
theorem parse_free_restores (mem : Mem) (lex : StbLexer) (t : Token) (rest : List Token) :
    match parseDerivedStruct .assertions ⟨lex.fetched t rest, mem⟩ with
    | .error e => e = .assertFailed
    | .ok (none, st) => Restored mem st.mem
    | .ok (some d, st) => ∃ mem', moeDerivedStructFree (some d) st.mem = .ok ((), mem') ∧
        Restored mem mem' := by
  have faults := parseDerivedStruct_assertionOnly lex t rest
  cases run : Values.parseDerivedStruct .assertions (lex.fetched t rest) with
  | error e =>
    rw [parseDerivedStruct_fault run mem]
    exact faults.of_error run
  | ok r =>
    obtain ⟨v, lex'⟩ := r
    obtain ⟨p, mem', run', returned⟩ := parseDerivedStruct_spec (owns_refl mem) run
    rw [run']
    cases v with
    | none =>
      obtain ⟨rfl, owned⟩ := returned
      exact owned.restored
    | some v =>
      obtain ⟨s, rfl, owned⟩ := returned
      obtain ⟨mem'', free, owned'⟩ := moeDerivedStructFree_owns owned
      exact ⟨mem'', free, owned'.restored⟩

end MoeToolchain
