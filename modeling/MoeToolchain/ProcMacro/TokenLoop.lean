import MoeToolchain.ProcMacro.Blocks

/-!
# The token loop of `main`

`tokenLoop` is the loop around `parse_derived_struct`, with a parameter for what is done
with its result before the struct is freed. `main` generates code there; `recordCall`
writes down the call instead, with what it returned and where it left the lexer.

`tokenLoop_refines` runs the loop on the value parser.
-/

namespace MoeToolchain
set_option autoImplicit false
open Lib

section Loop

variable {ω α : Type}

/-- Run on the lexer and the memory, next to some other state. -/
def onSt (x : C St α) : C (St × ω) α := Exec.zoom Prod.fst (fun st w => (st, w.2)) x

/-- Run on the other state. -/
def onRest (x : C ω α) : C (St × ω) α := Exec.zoom Prod.snd (fun r w => (w.1, r)) x

theorem onMem_ok {x : C Mem α} {lex : StbLexer} {mem mem' : Mem} {w : ω} {a : α}
    (run : x mem = .ok (a, mem')) : onSt (onMem x) ((⟨lex, mem⟩, w) : St × ω) = .ok (a, (⟨lex, mem'⟩, w)) :=
  Exec.zoom_ok (Exec.zoom_ok run)

theorem onMem_error {x : C Mem α} {lex : StbLexer} {mem : Mem} {w : ω} {e : Fault} (run : x mem = .error e) :
    onSt (onMem x) ((⟨lex, mem⟩, w) : St × ω) = .error e :=
  Exec.zoom_error (Exec.zoom_error run)

theorem onLex_ok {x : C StbLexer α} {lex lex' : StbLexer} {mem : Mem} {w : ω} {a : α}
    (run : x lex = .ok (a, lex')) : onSt (onLex x) ((⟨lex, mem⟩, w) : St × ω) = .ok (a, (⟨lex', mem⟩, w)) :=
  Exec.zoom_ok (Exec.zoom_ok run)

theorem onLex_error {x : C StbLexer α} {lex : StbLexer} {mem : Mem} {w : ω} {e : Fault}
    (run : x lex = .error e) : onSt (onLex x) ((⟨lex, mem⟩, w) : St × ω) = .error e :=
  Exec.zoom_error (Exec.zoom_error run)

/-- `moe_derived_struct_free(derived_struct)` where the loop has one. -/
def freeFound (p : Ptr) : C Mem Unit :=
  match p with
  | none => pure ()
  | some d => moeDerivedStructFree (some d)

/-- `while (stb_c_lexer_get_token(&lex)) ..`; `use lex p` is what the loop does with the
result `p` of the call made in the lexer state `lex`. -/
def tokenLoop (build : Build) (use : StbLexer → Ptr → C (St × ω) Unit) : Nat → C (St × ω) Unit
  | 0 => Exec.fault .outOfFuel
  | fuel + 1 => do
    let more ← onSt (onLex stbCLexerGetToken)
    if more then do
      let lex ← onSt (onLex get)
      if lex.token = clexParseError then pure ()
      else do
        let derivedStruct ← onSt (parseDerivedStruct build)
        use lex derivedStruct
        onSt (onMem (freeFound derivedStruct))
        tokenLoop build use fuel
    else pure ()

end Loop

/-- One call of `parse_derived_struct` by the loop: the lexer before it, the struct it
returned as its readers see it, and the lexer after it. -/
structure Call where
  before : StbLexer
  result : Option DerivedStruct
  after : StbLexer
deriving DecidableEq, Repr

/-- Read the returned struct, if there is one. -/
def readFound (p : Ptr) : C Mem (Option DerivedStruct) :=
  match p with
  | none => pure none
  | some d => do
    let v ← readDerivedStruct d
    pure (some v)

def recordCall (lex : StbLexer) (p : Ptr) : C (St × List Call) Unit := do
  let result ← onSt (onMem (readFound p))
  let after ← onSt (onLex get)
  onRest (modify fun calls => calls ++ [⟨lex, result, after⟩])

/-- All calls of the loop on the tokens of `lex`. -/
def parseFile (build : Build) (lex : StbLexer) (mem : Mem) : Except Fault (Unit × St × List Call) :=
  tokenLoop build recordCall (lex.rest.length + 1) (⟨lex, mem⟩, [])

namespace Values

section Loop

variable {ω α : Type}

def onLexer (x : C StbLexer α) : C (StbLexer × ω) α := Exec.zoom Prod.fst (fun lex w => (lex, w.2)) x

def onRest (x : C ω α) : C (StbLexer × ω) α := Exec.zoom Prod.snd (fun r w => (w.1, r)) x

theorem onRest_ok {x : C ω α} {lex : StbLexer} {w w' : ω} {a : α} (run : x w = .ok (a, w')) :
    onRest x (lex, w) = .ok (a, (lex, w')) := Exec.zoom_ok run

theorem onRest_error {x : C ω α} {lex : StbLexer} {w : ω} {e : Fault} (run : x w = .error e) :
    onRest x (lex, w) = .error e := Exec.zoom_error run

def tokenLoop (build : Build) (use : StbLexer → Option DerivedStruct → C (StbLexer × ω) Unit) :
    Nat → C (StbLexer × ω) Unit
  | 0 => Exec.fault .outOfFuel
  | fuel + 1 => do
    let more ← onLexer stbCLexerGetToken
    if more then do
      let lex ← onLexer get
      if lex.token = clexParseError then pure ()
      else do
        let v ← onLexer (parseDerivedStruct build)
        use lex v
        tokenLoop build use fuel
    else pure ()

end Loop

/-- A struct as its readers see it: the strings up to their first NUL. -/
def asRead (v : DerivedStruct) : DerivedStruct :=
  ⟨cString v.structName, v.handlers.map cString, v.metadata⟩

def recordCall (lex : StbLexer) (v : Option DerivedStruct) : C (StbLexer × List Call) Unit := do
  let after ← onLexer get
  onRest (modify fun calls => calls ++ [⟨lex, v.map asRead, after⟩])

end Values

/-! ## The loop on values -/

section Simulation

variable {ω ω' α γ δ : Type} {m₀ : Mem} {K : ω → ω' → Footprint → Prop} {build : Build}

/-- The same lexer on both sides, and the two other states in the relation `K` with the
blocks that are owned. -/
def LoopRel (m₀ : Mem) (K : ω → ω' → Footprint → Prop) (s : St × ω) (t : StbLexer × ω') : Prop :=
  s.1.lex = t.1 ∧ ∃ f, K s.2 t.2 f ∧ Owns m₀ s.1.mem f

/-- The same, while the struct at `p` is there. -/
def FoundRel (m₀ : Mem) (K : ω → ω' → Footprint → Prop) (p : Ptr) (v : Option DerivedStruct)
    (s : St × ω) (t : StbLexer × ω') : Prop :=
  s.1.lex = t.1 ∧ ∃ f, K s.2 t.2 f ∧ Returned m₀ f p v s.1.mem

theorem freeFound_owns {f : Footprint} {p : Ptr} {v : Option DerivedStruct} {mem : Mem}
    (returned : Returned m₀ f p v mem) : ∃ mem', freeFound p mem = .ok ((), mem') ∧ Owns m₀ mem' f := by
  cases v with
  | none =>
    obtain ⟨rfl, owned⟩ := returned
    exact ⟨mem, rfl, owned⟩
  | some v =>
    obtain ⟨s, rfl, owned⟩ := returned
    exact moeDerivedStructFree_owns owned

theorem parse_refines_loop :
    Refines (LoopRel m₀ K) (onSt (parseDerivedStruct build)) (Values.onLexer (Values.parseDerivedStruct build))
      (fun p v s t => FoundRel m₀ K p v s t) := by
  intro s t at_
  obtain ⟨⟨lex, mem⟩, w⟩ := s
  obtain ⟨_, w'⟩ := t
  obtain ⟨rfl, f, rel, owned⟩ := at_
  cases run : Values.parseDerivedStruct build lex with
  | error e =>
    rw [Values.onLexer, Exec.zoom_error run]
    exact Exec.zoom_error (parseDerivedStruct_fault run mem)
  | ok r =>
    obtain ⟨v, lex'⟩ := r
    obtain ⟨p, mem', run', returned⟩ := parseDerivedStruct_spec owned run
    rw [Values.onLexer, Exec.zoom_ok run]
    exact ⟨p, (⟨lex', mem'⟩, w), Exec.zoom_ok run', rfl, f, rel, returned⟩

theorem lexer_refines_loop (x : C StbLexer α) :
    Refines (LoopRel m₀ K) (onSt (onLex x)) (Values.onLexer x)
      (fun a b s t => a = b ∧ LoopRel m₀ K s t) := by
  intro s t at_
  obtain ⟨⟨lex, mem⟩, w⟩ := s
  obtain ⟨_, w'⟩ := t
  obtain ⟨rfl, owned⟩ := at_
  cases run : x lex with
  | error e =>
    rw [Values.onLexer, Exec.zoom_error run]
    exact onLex_error run
  | ok r =>
    obtain ⟨a, lex'⟩ := r
    rw [Values.onLexer, Exec.zoom_ok run]
    exact ⟨a, (⟨lex', mem⟩, w), onLex_ok run, rfl, rfl, owned⟩

/-- The loop does on the memory what it does on values, if `use` does. -/
theorem tokenLoop_refines {use : StbLexer → Ptr → C (St × ω) Unit}
    {use' : StbLexer → Option DerivedStruct → C (StbLexer × ω') Unit}
    (step : ∀ lex p v, Refines (FoundRel m₀ K p v) (use lex p) (use' lex v)
      (fun _ _ s t => FoundRel m₀ K p v s t)) (fuel : Nat) :
    Refines (LoopRel m₀ K) (tokenLoop build use fuel) (Values.tokenLoop build use' fuel)
      (fun _ _ s t => LoopRel m₀ K s t) := by
  induction fuel with
  | zero => exact Refines.fault Fault.outOfFuel
  | succ fuel ih =>
    unfold tokenLoop Values.tokenLoop
    apply Refines.bind (lexer_refines_loop _)
    intro more more'
    apply Refines.assume fun s t at_ => at_.1
    rintro rfl
    apply Refines.conseq _ (fun s t at_ => at_.2) (fun a b s t post => post)
    apply Refines.ite
    · intro _
      apply Refines.bind (lexer_refines_loop _)
      intro lex lex'
      apply Refines.assume fun s t at_ => at_.1
      rintro rfl
      apply Refines.conseq _ (fun s t at_ => at_.2) (fun a b s t post => post)
      apply Refines.ite
      · intro _
        exact Refines.pure fun s t at_ => at_
      · intro _
        apply Refines.bind parse_refines_loop
        intro p v
        apply Refines.bind (step lex p v)
        intro _ _
        have free : ∀ s t, FoundRel m₀ K p v s t → ∃ (a : Unit) (s' : St × ω),
            onSt (onMem (freeFound p)) s = .ok (a, s') ∧ LoopRel m₀ K s' t := by
          intro s t at_
          obtain ⟨same, f, rel, returned⟩ := at_
          obtain ⟨mem', run, owned⟩ := freeFound_owns returned
          exact ⟨(), _, onMem_ok run, same, f, rel, owned⟩
        exact Refines.step free fun _ => ih
    · intro _
      exact Refines.pure fun s t at_ => at_

/-! ## The calls of the loop -/

theorem readFound_owns {f : Footprint} {p : Ptr} {v : Option DerivedStruct} {mem : Mem}
    (returned : Returned m₀ f p v mem) : readFound p mem = .ok (v.map Values.asRead, mem) := by
  cases v with
  | none =>
    obtain ⟨rfl, -⟩ := returned
    rfl
  | some v =>
    obtain ⟨s, rfl, owned⟩ := returned
    rw [readFound, Exec.bind_ok (readDerivedStruct_owns owned)]
    rfl

/-- The records are equal, and the memory holds the same blocks throughout. -/
def SameCalls (f₀ : Footprint) (calls calls' : List Call) (f : Footprint) : Prop :=
  calls = calls' ∧ f = f₀

theorem recordCall_refines {f₀ : Footprint} (lex : StbLexer) (p : Ptr) (v : Option DerivedStruct) :
    Refines (FoundRel m₀ (SameCalls f₀) p v) (recordCall lex p) (Values.recordCall lex v)
      (fun _ _ s t => FoundRel m₀ (SameCalls f₀) p v s t) := by
  intro s t at_
  obtain ⟨⟨after, mem⟩, calls⟩ := s
  obtain ⟨_, _⟩ := t
  obtain ⟨rfl, f, ⟨rfl, rfl⟩, returned⟩ := at_
  have read := readFound_owns returned
  have run : recordCall lex p (⟨after, mem⟩, calls) =
      .ok ((), (⟨after, mem⟩, calls ++ [⟨lex, v.map Values.asRead, after⟩])) := by
    rw [recordCall, Exec.bind_ok (onMem_ok read), Exec.bind_ok (onLex_ok (Exec.get_apply after))]
    rfl
  exact ⟨(), _, run, rfl, f, ⟨rfl, rfl⟩, returned⟩

/-- The calls that the loop makes, on values. -/
def Values.parseFile (build : Build) (lex : StbLexer) : Except Fault (Unit × StbLexer × List Call) :=
  Values.tokenLoop build Values.recordCall (lex.rest.length + 1) (lex, [])

theorem recordLoop_refines (build : Build) (mem : Mem) (fuel : Nat) :
    Refines (LoopRel mem (SameCalls 0)) (tokenLoop build recordCall fuel)
      (Values.tokenLoop build Values.recordCall fuel) (fun _ _ s t => LoopRel mem (SameCalls 0) s t) :=
  tokenLoop_refines recordCall_refines fuel

theorem parseFile_spec {lex lex' : StbLexer} {calls : List Call}
    (run : Values.parseFile build lex = .ok ((), lex', calls)) (mem : Mem) :
    ∃ mem', parseFile build lex mem = .ok ((), ⟨lex', mem'⟩, calls) ∧ Owns mem mem' 0 := by
  have refines := recordLoop_refines build mem (lex.rest.length + 1) (⟨lex, mem⟩, []) (lex, [])
    ⟨rfl, 0, ⟨rfl, rfl⟩, owns_refl mem⟩
  unfold Values.parseFile at run
  rw [run] at refines
  obtain ⟨_, ⟨⟨_, mem'⟩, _⟩, run', rfl, f, ⟨rfl, rfl⟩, owned⟩ := refines
  exact ⟨mem', run', owned⟩

theorem parseFile_fault {lex : StbLexer} {e : Fault} (run : Values.parseFile build lex = .error e)
    (mem : Mem) : parseFile build lex mem = .error e := by
  have refines := recordLoop_refines build mem (lex.rest.length + 1) (⟨lex, mem⟩, []) (lex, [])
    ⟨rfl, 0, ⟨rfl, rfl⟩, owns_refl mem⟩
  unfold Values.parseFile at run
  rw [run] at refines
  exact refines

end Simulation

/-! ## Steps of the loop on values -/

section Steps

variable {build : Build} {lex lex' : StbLexer} {calls calls' : List Call} {fuel : Nat} {t : Token}
  {r : List Token} {v : Option DerivedStruct}

section AnyUse

variable {ω : Type} {use : StbLexer → Option DerivedStruct → C (StbLexer × ω) Unit} {w : ω}

theorem tokenLoop_end (done : lex.rest = []) :
    Values.tokenLoop build use (fuel + 1) (lex, w) = .ok ((), { lex with token := clexEof }, w) := by
  have fetch : Values.onLexer stbCLexerGetToken (lex, w) =
      .ok (false, { lex with token := clexEof }, w) := Exec.zoom_ok (stbCLexerGetToken_end done)
  rw [Values.tokenLoop, Exec.bind_ok fetch]
  rfl

theorem fetch_run (next : lex.rest = t :: r) :
    Values.onLexer stbCLexerGetToken (lex, w) = .ok (true, lex.fetched t r, w) :=
  Exec.zoom_ok (stbCLexerGetToken_cons next)

theorem getLexer_run (lex : StbLexer) (w : ω) : Values.onLexer get (lex, w) = .ok (lex, lex, w) :=
  Exec.zoom_ok (Exec.get_apply lex)

/-- A parse error ends the loop. -/
theorem tokenLoop_parseError (next : lex.rest = t :: r) (error : t.isError = true) :
    Values.tokenLoop build use (fuel + 1) (lex, w) = .ok ((), lex.fetched t r, w) := by
  have stop : (lex.fetched t r).token = clexParseError := (Token.code_parseError t).mpr error
  rw [Values.tokenLoop, Exec.bind_ok (fetch_run next), if_pos rfl, Exec.bind_ok (getLexer_run _ _), if_pos stop]
  rfl

theorem fetched_lexed (lexed : t.isError = false) : (lex.fetched t r).token ≠ clexParseError := by
  rw [StbLexer.fetched_token, Ne, Token.code_parseError, lexed]
  exact Bool.false_ne_true

/-- Any other token is the start of a call. -/
theorem tokenLoop_turn (next : lex.rest = t :: r) (lexed : t.isError = false)
    (run : Values.parseDerivedStruct build (lex.fetched t r) = .ok (v, lex')) :
    Values.tokenLoop build use (fuel + 1) (lex, w) =
      (use (lex.fetched t r) v >>= fun _ => Values.tokenLoop build use fuel) (lex', w) := by
  have call : Values.onLexer (Values.parseDerivedStruct build) (lex.fetched t r, w) =
      .ok (v, lex', w) := Exec.zoom_ok run
  rw [Values.tokenLoop, Exec.bind_ok (fetch_run next), if_pos rfl, Exec.bind_ok (getLexer_run _ _),
    if_neg (fetched_lexed lexed), Exec.bind_ok call]

theorem tokenLoop_fault {e : Fault} (next : lex.rest = t :: r) (lexed : t.isError = false)
    (run : Values.parseDerivedStruct build (lex.fetched t r) = .error e) :
    Values.tokenLoop build use (fuel + 1) (lex, w) = .error e := by
  have call : Values.onLexer (Values.parseDerivedStruct build) (lex.fetched t r, w) = .error e :=
    Exec.zoom_error run
  rw [Values.tokenLoop, Exec.bind_ok (fetch_run next), if_pos rfl, Exec.bind_ok (getLexer_run _ _),
    if_neg (fetched_lexed lexed), Exec.bind_error call]

end AnyUse

theorem tokenLoop_call (next : lex.rest = t :: r) (lexed : t.isError = false)
    (run : Values.parseDerivedStruct build (lex.fetched t r) = .ok (v, lex')) :
    Values.tokenLoop build Values.recordCall (fuel + 1) (lex, calls) =
      Values.tokenLoop build Values.recordCall fuel
        (lex', calls ++ [⟨lex.fetched t r, v.map Values.asRead, lex'⟩]) := by
  rw [tokenLoop_turn next lexed run]
  rfl

/-- The state `s` of the loop leads to the state `s'`, whatever the fuel. -/
def LoopReaches (build : Build) (s s' : StbLexer × List Call) : Prop :=
  ∀ fuel, s.1.rest.length < fuel → ∃ fuel', s'.1.rest.length < fuel' ∧
    Values.tokenLoop build Values.recordCall fuel s = Values.tokenLoop build Values.recordCall fuel' s'

theorem LoopReaches.refl (s : StbLexer × List Call) : LoopReaches build s s :=
  fun fuel enough => ⟨fuel, enough, rfl⟩

theorem LoopReaches.trans {s s' s'' : StbLexer × List Call} (first : LoopReaches build s s')
    (second : LoopReaches build s' s'') : LoopReaches build s s'' := by
  intro fuel enough
  obtain ⟨fuel', enough', same⟩ := first fuel enough
  obtain ⟨fuel'', enough'', same'⟩ := second fuel' enough'
  exact ⟨fuel'', enough'', same.trans same'⟩

/-- A call that reads on, or at least no tokens back. -/
theorem loopReaches_call (next : lex.rest = t :: r) (lexed : t.isError = false)
    (run : Values.parseDerivedStruct build (lex.fetched t r) = .ok (v, lex'))
    (onward : lex'.rest.length ≤ r.length) :
    LoopReaches build (lex, calls) (lex', calls ++ [⟨lex.fetched t r, v.map Values.asRead, lex'⟩]) := by
  intro fuel enough
  simp only [next, List.length_cons] at enough
  obtain ⟨fuel, rfl⟩ := Nat.exists_eq_succ_of_ne_zero (Nat.ne_of_gt (Nat.zero_lt_of_lt enough))
  exact ⟨fuel, by simp only; omega, tokenLoop_call next lexed run⟩

/-- A token that is no macro name is passed over. -/
theorem loopReaches_plain (next : lex.rest = t :: r) (lexed : t.isError = false)
    (plain : ∀ m : Macro, t ≠ .id m.word) :
    LoopReaches build (lex, calls) (lex.fetched t r, calls ++ [⟨lex.fetched t r, none, lex.fetched t r⟩]) := by
  have run := parseDerivedStruct_none build (fetched_current lex t r) plain
  exact loopReaches_call next lexed run (Nat.le_refl _)

/-- An extent is read by one call. -/
theorem loopReaches_extent {m : Macro} {e : Extent} (ok : e.Ok m)
    (next : lex.rest = .id m.word :: (e.tokens ++ r)) :
    ∃ lex', lex'.rest = r ∧ Reads (lex.fetched (.id m.word) (e.tokens ++ r)) e.tokens lex' ∧
      LoopReaches .assertions (lex, calls) (lex', calls ++
        [⟨lex.fetched (.id m.word) (e.tokens ++ r), e.result.map Values.asRead, lex'⟩]) := by
  have rest : ((lex.fetched (.id m.word) (e.tokens ++ r)).after e.tokens r).rest = r :=
    StbLexer.after_rest rfl
  have read := @reads_after (lex.fetched (.id m.word) (e.tokens ++ r)) e.tokens r rfl
  have run := parseDerivedStruct_run ok (fetched_current lex _ _) read
  refine ⟨_, rest, read, loopReaches_call next rfl run ?_⟩
  rw [rest, List.length_append]
  exact Nat.le_add_left _ _

/-- A run of the loop, with the calls that it makes. -/
inductive LoopRun (build : Build) : StbLexer → List Call → StbLexer → Prop
  | done {lex : StbLexer} (done : lex.rest = []) : LoopRun build lex [] { lex with token := clexEof }
  | stopped {lex : StbLexer} {t : Token} {r : List Token} (next : lex.rest = t :: r) (error : t.isError = true) :
      LoopRun build lex [] (lex.fetched t r)
  | call {lex lex1 lex' : StbLexer} {t : Token} {r : List Token} {v : Option DerivedStruct} {calls : List Call}
      (next : lex.rest = t :: r) (lexed : t.isError = false)
      (run : Values.parseDerivedStruct build (lex.fetched t r) = .ok (v, lex1)) (rest : LoopRun build lex1 calls lex') :
      LoopRun build lex (⟨lex.fetched t r, v.map Values.asRead, lex1⟩ :: calls) lex'

/-- The loop only adds to the record. -/
theorem tokenLoop_loopRun (fuel : Nat) : ∀ {lex lex' : StbLexer} {calls calls' : List Call},
    Values.tokenLoop build Values.recordCall fuel (lex, calls) = .ok ((), lex', calls') →
    ∃ new, calls' = calls ++ new ∧ LoopRun build lex new lex' := by
  induction fuel with
  | zero =>
    intro lex lex' calls calls' run
    cases run
  | succ fuel ih =>
    intro lex lex' calls calls' run
    cases next : lex.rest with
    | nil =>
      rw [tokenLoop_end next] at run
      cases run
      exact ⟨[], by simp, .done next⟩
    | cons t r =>
      cases lexed : t.isError with
      | true =>
        rw [tokenLoop_parseError next lexed] at run
        cases run
        exact ⟨[], by simp, .stopped next lexed⟩
      | false =>
        cases call : Values.parseDerivedStruct build (lex.fetched t r) with
        | error e =>
          rw [tokenLoop_fault next lexed call] at run
          cases run
        | ok p =>
          obtain ⟨v, lex1⟩ := p
          rw [tokenLoop_call next lexed call] at run
          obtain ⟨new, same, rest⟩ := ih run
          exact ⟨_, same.trans (List.append_assoc _ _ _), .call next lexed call rest⟩

/-- What the loop does is settled by any state it reaches. -/
theorem LoopReaches.parseFile {s : StbLexer × List Call} (reaches : LoopReaches build (lex, []) s) :
    ∃ fuel, s.1.rest.length < fuel ∧
      Values.parseFile build lex = Values.tokenLoop build Values.recordCall fuel s :=
  reaches (lex.rest.length + 1) (Nat.lt_succ_self _)

end Steps

end MoeToolchain
