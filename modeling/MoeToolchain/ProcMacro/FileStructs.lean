import MoeToolchain.ProcMacro.Complete
import MoeToolchain.ProcMacro.StringLengths

/-!
# The structs of a file

`FileReads` says by the tokens alone what the loop finds in a file, and whether it comes to
the end or is stuck at an assertion. Every file has exactly one such reading, and any loop
of `main` goes by it (`tokenLoop_reads`).

* `parseFile_reads_iff`: the parser of the source on any memory.
* `parseFile_append`: what is found in the second part of a file does not depend on the
  first, if that is read to its end.
-/

namespace MoeToolchain
set_option autoImplicit false
open Lib

/-! ## Readings -/

/-- Tokens that whole calls of the loop consume, with the structs that these return. -/
inductive Finds : List Token → List DerivedStruct → Prop
  | nil : Finds [] []
  | cons {s ts : List Token} {v : Option DerivedStruct} {vs : List DerivedStruct} (here : Consumes s v)
      (rest : Finds ts vs) : Finds (s ++ ts) (v.toList ++ vs)

/-- The loop ends before these tokens: at the end, or at a parse error. -/
def Ends (ts : List Token) : Prop := ∀ t ∈ ts.head?, t.isError = true

/-- No call returns from the first of these tokens. -/
def Barred (ts : List Token) : Prop := ∀ (s : List Token) (v : Option DerivedStruct) (r : List Token), Consumes s v → ts ≠ s ++ r

/-- Where the loop gets to. -/
inductive Reading
  | whole
  | stuck
deriving DecidableEq, Repr

/-- The tokens that are left behind the last call. -/
def Reading.Leaves : Reading → List Token → Prop
  | whole, ts => Ends ts
  | stuck, ts => ¬ Ends ts ∧ Barred ts

/-- The structs that the loop finds. Without assertions there are none, and it is never stuck. -/
def FileReads (build : Build) (ts : List Token) (vs : List DerivedStruct) (reading : Reading) : Prop :=
  match build with
  | .assertions => ∃ pre post, ts = pre ++ post ∧ Finds pre vs ∧ reading.Leaves post
  | .ndebug => vs = [] ∧ reading = .whole

section Finds

variable {a b s ts pre post r : List Token} {v : Option DerivedStruct} {vs vs' : List DerivedStruct}
  {lex lex' : StbLexer} {reading reading' : Reading} {build : Build}

/-- The tokens of a call do not depend on what follows them. -/
theorem Consumes.call (consumes : Consumes s v) (next : lex.rest = s ++ r) :
    ∃ t r' lex', lex.rest = t :: r' ∧ t.isError = false ∧ lex'.rest = r ∧
      Values.parseDerivedStruct .assertions (lex.fetched t r') = .ok (v, lex') := by
  obtain ⟨t, r', v', lex', head, lexed, rest, -, run⟩ := consumes.segment.call next
  obtain ⟨s', consumes', whole⟩ := parseDerivedStruct_consumes lexed run
  obtain ⟨rfl, rfl⟩ := consumes.unique consumes' (next.symm.trans (head.trans whole))
  exact ⟨t, r', lex', head, lexed, rest, run⟩

theorem Consumes.length_pos (consumes : Consumes s v) : 0 < s.length := by
  cases consumes with
  | plain t plain => exact Nat.zero_lt_one
  | extent m e ok => exact Nat.zero_lt_succ _

theorem Ends.barred (ends : Ends ts) : Barred ts := by
  rintro s v r consumes rfl
  obtain ⟨t, r', lex', head, lexed, -, -⟩ := consumes.call (show (StbLexer.start (s ++ r)).rest = s ++ r from rfl)
  rw [show s ++ r = t :: r' from head] at ends
  exact absurd (ends t rfl) (by simp [lexed])

theorem Reading.Leaves.barred (leaves : reading.Leaves ts) : Barred ts := by
  cases reading with
  | whole => exact Ends.barred leaves
  | stuck => exact leaves.2

theorem Reading.Leaves.unique (leaves : reading.Leaves ts) (leaves' : reading'.Leaves ts) : reading = reading' := by
  cases reading <;> cases reading'
  · rfl
  · exact absurd leaves leaves'.1
  · exact absurd leaves' leaves.1
  · rfl

theorem Finds.append (first : Finds a vs) (second : Finds b vs') : Finds (a ++ b) (vs ++ vs') := by
  induction first with
  | nil => exact second
  | cons here _ ih =>
    rw [List.append_assoc, List.append_assoc]
    exact .cons here ih

/-- What is found behind whole calls is found in the rest alone. -/
theorem Finds.rest (first : Finds a vs) : ∀ {pre : List Token} {vs' : List DerivedStruct}, Finds pre vs' → Barred post →
    a ++ b = pre ++ post → ∃ pre' vb, b = pre' ++ post ∧ vs' = vs ++ vb ∧ Finds pre' vb := by
  induction first with
  | nil =>
    intro pre vs' finds _ same
    exact ⟨pre, vs', same, rfl, finds⟩
  | @cons s ts v vs here _ ih =>
    intro pre vs' finds barred same
    rw [List.append_assoc] at same
    cases finds with
    | nil => exact absurd same.symm (barred s v _ here)
    | cons here' rest' =>
      rw [List.append_assoc] at same
      obtain ⟨rfl, rfl⟩ := here.unique here' same
      obtain ⟨pre', vb, tokens, rfl, finds⟩ := ih rest' barred (List.append_cancel_left same)
      exact ⟨pre', vb, tokens, (List.append_assoc ..).symm, finds⟩

/-- Calls go as far as they can, so what is found is settled by the tokens. -/
theorem Finds.unique (finds : Finds pre vs) (barred : Barred post) {pre' post' : List Token} (finds' : Finds pre' vs')
    (barred' : Barred post') (same : pre ++ post = pre' ++ post') : post = post' ∧ vs = vs' := by
  obtain ⟨more, vb, tokens, rfl, rest⟩ := finds.rest finds' barred' same
  cases rest with
  | nil => exact ⟨tokens, (List.append_nil vs).symm⟩
  | @cons s ts v vs here _ =>
    rw [List.append_assoc] at tokens
    exact absurd tokens (barred s v _ here)

theorem FileReads.unique (reads : FileReads build ts vs reading) (reads' : FileReads build ts vs' reading') :
    vs = vs' ∧ reading = reading' := by
  cases build with
  | assertions =>
    obtain ⟨pre, post, rfl, finds, leaves⟩ := reads
    obtain ⟨pre', post', same, finds', leaves'⟩ := reads'
    obtain ⟨rfl, rfl⟩ := finds.unique leaves.barred finds' leaves'.barred same
    exact ⟨rfl, leaves.unique leaves'⟩
  | ndebug =>
    obtain ⟨rfl, rfl⟩ := reads
    obtain ⟨rfl, rfl⟩ := reads'
    exact ⟨rfl, rfl⟩

/-- Tokens that calls consume to the last are a file of these structs. -/
theorem Finds.fileReads (finds : Finds a vs) : FileReads .assertions a vs .whole :=
  ⟨a, [], (List.append_nil a).symm, finds, by simp [Reading.Leaves, Ends]⟩

/-- Where the loop ends at once, it has found nothing. -/
theorem Ends.fileReads (ends : Ends ts) : FileReads build ts [] .whole := by
  cases build with
  | assertions => exact ⟨[], ts, rfl, .nil, ends⟩
  | ndebug => exact ⟨rfl, rfl⟩

theorem finds_filler (ts : List Token) (plain : ∀ t ∈ ts, t.Plain) (rest : Finds r vs) : Finds (ts ++ r) vs := by
  induction ts with
  | nil => exact rest
  | cons t ts ih =>
    exact .cons (.plain t (plain t (by simp))) (ih fun t mem => plain t (List.mem_cons_of_mem _ mem))

theorem finds_block {b : DeriveBlock} (fits : b.Fits) (rest : Finds r vs) : Finds (b.tokens ++ r) (b.value :: vs) := by
  rw [DeriveBlock.tokens_eq fits.single]
  have here : Consumes (.id b.kind.word :: b.toExtent.tokens) (some b.value) := by
    rw [← b.toExtent_result]
    exact .extent _ _ (b.toExtent_ok fits)
  exact .cons here rest

end Finds

/-! ## The loop -/

section Loop

variable {ω : Type} {build : Build} {lex lex' : StbLexer} {t : Token} {r : List Token} {v : Option DerivedStruct}
  {vs : List DerivedStruct} {calls : List Call} {reading : Reading}

/-- In neither build does a call give tokens back. -/
theorem call_onward (lexed : t.isError = false)
    (run : Values.parseDerivedStruct build (lex.fetched t r) = .ok (v, lex')) : lex'.rest.length ≤ r.length := by
  cases build with
  | assertions =>
    obtain ⟨s, consumes, whole⟩ := parseDerivedStruct_consumes lexed run
    have length := congrArg List.length whole
    have some_ := consumes.length_pos
    rw [List.length_append, List.length_cons] at length
    omega
  | ndebug =>
    rw [parseDerivedStruct_ndebug] at run
    cases run
    exact Nat.le_refl _

/-- A call that returns is the first of the reading. -/
theorem FileReads.call (lexed : t.isError = false)
    (run : Values.parseDerivedStruct build (lex.fetched t r) = .ok (v, lex')) (later : FileReads build lex'.rest vs reading) :
    FileReads build (t :: r) ((v.map Values.asRead).toList ++ vs) reading := by
  cases build with
  | assertions =>
    obtain ⟨s, consumes, whole⟩ := parseDerivedStruct_consumes lexed run
    obtain ⟨pre, post, tokens, finds, leaves⟩ := later
    rw [consumes.asRead]
    exact ⟨s ++ pre, post, by rw [whole, tokens, List.append_assoc], .cons consumes finds, leaves⟩
  | ndebug =>
    obtain ⟨rfl, rfl⟩ := later
    rw [parseDerivedStruct_ndebug] at run
    cases run
    exact ⟨rfl, rfl⟩

/-- Where a call stops at an assertion, the loop is stuck. -/
theorem fileReads_stuck {e : Fault} (lexed : t.isError = false)
    (run : Values.parseDerivedStruct build (lex.fetched t r) = .error e) : FileReads build (t :: r) [] .stuck := by
  cases build with
  | assertions =>
    refine ⟨[], t :: r, rfl, .nil, fun ends => ?_, fun s v r' consumes same => ?_⟩
    · exact absurd (ends t rfl) (by simp [lexed])
    · obtain ⟨t', r'', lex', head, -, -, returns⟩ :=
        consumes.call (show ({ lex with rest := t :: r } : StbLexer).rest = s ++ r' from same)
      cases head
      rw [show StbLexer.fetched { lex with rest := t :: r } t r = lex.fetched t r from rfl, run] at returns
      cases returns
  | ndebug =>
    rw [parseDerivedStruct_ndebug] at run
    cases run

/-- What a loop comes to by the reading of its file, when its steps for the structs come to `steps`. -/
def Reading.Result (reading : Reading) (steps : Except Fault (Unit × ω)) (loop : Except Fault (Unit × StbLexer × ω)) : Prop :=
  match steps, reading with
  | .error e, _ => loop = .error e
  | .ok (_, w'), .whole => ∃ lex', loop = .ok ((), lex', w')
  | .ok _, .stuck => loop = .error .assertFailed

/-- The loop does a step for each struct of the reading, in order, and ends as it says. The
induction is on the fuel, which is more than the tokens to come. -/
theorem tokenLoop_reads (step : DerivedStruct → C ω Unit) (fuel : Nat) : ∀ {lex : StbLexer} {w : ω}, lex.rest.length < fuel →
    ∃ vs reading, FileReads build lex.rest vs reading ∧
      reading.Result (forM vs step w) (Values.tokenLoop build (Values.forFound step) fuel (lex, w)) := by
  induction fuel with
  | zero =>
    intro lex w enough
    exact absurd enough (Nat.not_lt_zero _)
  | succ fuel ih =>
    intro lex w enough
    cases next : lex.rest with
    | nil =>
      rw [tokenLoop_end next]
      exact ⟨[], .whole, Ends.fileReads (by simp [Ends]), _, rfl⟩
    | cons t r =>
      rw [next, List.length_cons] at enough
      cases lexed : t.isError with
      | true =>
        rw [tokenLoop_parseError next lexed]
        exact ⟨[], .whole, Ends.fileReads (by simpa [Ends] using lexed), _, rfl⟩
      | false =>
        cases run : Values.parseDerivedStruct build (lex.fetched t r) with
        | error e =>
          rw [tokenLoop_fault next lexed run, parser_fault run]
          exact ⟨[], .stuck, fileReads_stuck lexed run, rfl⟩
        | ok p =>
          obtain ⟨v, lex1⟩ := p
          have onward := call_onward lexed run
          rw [tokenLoop_turn next lexed run]
          cases v with
          | none =>
            obtain ⟨vs, reading, reads, result⟩ := @ih lex1 w (by omega)
            exact ⟨vs, reading, reads.call lexed run, result⟩
          | some v =>
            rw [Values.forFound]
            cases here : step (Values.asRead v) w with
            | error e =>
              obtain ⟨vs, reading, reads, -⟩ := @ih lex1 w (by omega)
              refine ⟨Values.asRead v :: vs, reading, reads.call lexed run, ?_⟩
              rw [List.forM_cons, Exec.bind_error here, Exec.bind_error (Values.onRest_error here)]
              rfl
            | ok q =>
              obtain ⟨_, w1⟩ := q
              obtain ⟨vs, reading, reads, result⟩ := @ih lex1 w1 (by omega)
              refine ⟨Values.asRead v :: vs, reading, reads.call lexed run, ?_⟩
              rw [List.forM_cons, Exec.bind_ok here, Exec.bind_ok (Values.onRest_ok here)]
              exact result

/-- The same with the reading given. -/
theorem FileReads.result (reads : FileReads build lex.rest vs reading) (step : DerivedStruct → C ω Unit) (w : ω) :
    reading.Result (forM vs step w)
      (Values.tokenLoop build (Values.forFound step) (lex.rest.length + 1) (lex, w)) := by
  obtain ⟨vs', reading', reads', result⟩ := @tokenLoop_reads ω build step _ lex w (Nat.lt_succ_self _)
  obtain ⟨rfl, rfl⟩ := reads.unique reads'
  exact result

/-- Every file has a reading. -/
theorem fileReads_exists (build : Build) (ts : List Token) : ∃ vs reading, FileReads build ts vs reading := by
  obtain ⟨vs, reading, reads, -⟩ := @tokenLoop_reads Unit build (fun _ => pure ()) _ (.start ts) () (Nat.lt_succ_self _)
  exact ⟨vs, reading, reads⟩

end Loop

/-! ## The parser of the source -/

section Parts

variable {build : Build} {lex lex' : StbLexer} {calls : List Call}

theorem forM_log (vs : List DerivedStruct) : ∀ ws : List DerivedStruct,
    forM vs (fun v => (modify fun ws => ws ++ [v] : C (List DerivedStruct) Unit)) ws = .ok ((), ws ++ vs) := by
  induction vs with
  | nil =>
    intro ws
    rw [List.append_nil]
    rfl
  | cons v vs ih =>
    intro ws
    rw [List.forM_cons, Exec.bind_ok (Exec.modify_apply _ ws), ih, List.append_assoc]
    rfl

/-- A run of the loop is by a whole reading. -/
theorem LoopRun.reads (run : LoopRun build lex calls lex') : FileReads build lex.rest (calls.filterMap Call.result) .whole := by
  induction run with
  | done done => exact Ends.fileReads (by simp [Ends, done])
  | stopped next error => exact Ends.fileReads (by simpa [Ends, next] using error)
  | @call lex lex1 lex' t r v calls next lexed run _ ih =>
    rw [next]
    have reads := ih.call lexed run
    cases v <;> exact reads

/-- The parser of the source comes through a file, on any memory, exactly when the file has
a whole reading, and finds the structs of that. -/
theorem parseFile_reads_iff (build : Build) (lex : StbLexer) (mem : Mem) (vs : List DerivedStruct) :
    (∃ st calls, parseFile build lex mem = .ok ((), st, calls) ∧ calls.filterMap Call.result = vs) ↔
      FileReads build lex.rest vs .whole := by
  constructor
  · rintro ⟨st, calls, run, rfl⟩
    obtain ⟨_, rfl, loop⟩ := tokenLoop_loopRun _ (parseFile_values run)
    exact loop.reads
  · intro reads
    have result := reads.result (fun v => (modify fun ws => ws ++ [v] : C (List DerivedStruct) Unit)) []
    rw [forM_log] at result
    obtain ⟨lex', loop⟩ := result
    obtain ⟨calls, record, logged⟩ := tokenLoop_found _ [] loop
    rw [forM_log] at logged
    cases logged
    obtain ⟨mem', run, -⟩ := parseFile_spec record mem
    exact ⟨_, _, run, rfl⟩

/-- A file without parse errors that the parser comes through can be put before any
other: the parser comes through both exactly if it does through the second, and finds the
structs of the first and then those of the second. -/
theorem parseFile_append (a b : List Token) (lex : StbLexer) (mem : Mem) (st : St) (calls : List Call) (clean : Lexed a)
    (run : parseFile .assertions { lex with rest := a } mem = .ok ((), st, calls)) (vs : List DerivedStruct) :
    (∃ st' calls', parseFile .assertions { lex with rest := a ++ b } mem = .ok ((), st', calls') ∧
      calls'.filterMap Call.result = vs) ↔
    ∃ st' calls', parseFile .assertions { lex with rest := b } mem = .ok ((), st', calls') ∧
      vs = calls.filterMap Call.result ++ calls'.filterMap Call.result := by
  obtain ⟨pre, post, tokens, finds, ends⟩ := (parseFile_reads_iff ..).mp ⟨st, calls, run, rfl⟩
  have nothing : post = [] := by
    cases post with
    | nil => rfl
    | cons t r =>
      obtain rfl : a = pre ++ t :: r := tokens
      have error := ends t rfl
      rw [clean t (by simp)] at error
      cases error
  subst nothing
  obtain rfl : a = pre ++ [] := tokens
  rw [List.append_nil] at *
  rw [parseFile_reads_iff]
  constructor
  · rintro ⟨pre', post', same, finds', ends'⟩
    obtain ⟨pre'', vb, tokens', rfl, rest⟩ := finds.rest finds' (Ends.barred ends') same
    obtain ⟨st', calls', run', rfl⟩ := (parseFile_reads_iff .assertions { lex with rest := b } mem vb).mpr
      ⟨pre'', post', tokens', rest, ends'⟩
    exact ⟨st', calls', run', rfl⟩
  · rintro ⟨st', calls', run', rfl⟩
    obtain ⟨pre', post', tokens', rest, ends'⟩ := (parseFile_reads_iff ..).mp ⟨st', calls', run', rfl⟩
    obtain rfl : b = pre' ++ post' := tokens'
    exact ⟨pre ++ pre', post', (List.append_assoc ..).symm, finds.append rest, ends'⟩

end Parts

/-- The theorem at two files with the block of `B`. -/
theorem parseFile_append_blockB :
    ∃ st calls, parseFile .assertions { StbLexer.start [] with rest := blockB.tokens } Mem.empty = .ok ((), st, calls) ∧
      ∀ vs, (∃ st' calls', parseFile .assertions { StbLexer.start [] with rest := blockB.tokens ++ blockB.tokens } Mem.empty =
          .ok ((), st', calls') ∧ calls'.filterMap Call.result = vs) ↔
        ∃ st' calls', parseFile .assertions { StbLexer.start [] with rest := blockB.tokens } Mem.empty =
          .ok ((), st', calls') ∧ vs = calls.filterMap Call.result ++ calls'.filterMap Call.result := by
  obtain ⟨st, calls, run⟩ := @parseFile_isOk .assertions { StbLexer.start [] with rest := blockB.tokens }
    (by decide +kernel) Mem.empty
  exact ⟨st, calls, run, parseFile_append blockB.tokens blockB.tokens (.start []) Mem.empty st calls (by decide) run⟩

end MoeToolchain
