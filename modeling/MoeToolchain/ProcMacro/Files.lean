import MoeToolchain.ProcMacro.TokenLoop

/-!
# Whole files

Main results:

* `file_parses`: a file of struct blocks with other tokens between them is parsed block
  by block, and each call ends on the block's last `;`.
* `block_obtained_iff`: in any file, a block is obtained exactly when the tokens before
  it divide into tokens that are no macro name and whole extents of calls. The tokens of
  an extent that returned nothing are lost, so a block that starts among them is too.
-/

namespace MoeToolchain
set_option autoImplicit false
open Lib

/-- Neither a parse error nor a macro name. -/
structure Token.Plain (t : Token) : Prop where
  lexed : t.isError = false
  word : ∀ m : Macro, t ≠ .id m.word

theorem cString_text (name : Ident) : cString name.text = name.text := cString_of_no_nul name.no_nul

theorem DeriveBlock.asRead_value (b : DeriveBlock) : Values.asRead b.value = b.value := by
  simp [Values.asRead, DeriveBlock.value, cString_text]

section Reach

variable {build : Build} {lex : StbLexer} {calls : List Call} {r : List Token}

/-- Tokens between blocks are passed over one by one. -/
theorem loopReaches_filler (ts : List Token) : ∀ {lex : StbLexer} {calls : List Call},
    (∀ t ∈ ts, t.Plain) → lex.rest = ts ++ r →
    ∃ lex' new, lex'.rest = r ∧ (∀ c ∈ new, c.result = none) ∧
      LoopReaches build (lex, calls) (lex', calls ++ new) := by
  induction ts with
  | nil =>
    intro lex calls plain next
    exact ⟨lex, [], next, by simp, by simpa using LoopReaches.refl (lex, calls)⟩
  | cons t ts ih =>
    intro lex calls plain next
    have here := plain t (by simp)
    have step := @loopReaches_plain build lex calls _ _ next here.lexed here.word
    let c : Call := ⟨lex.fetched t (ts ++ r), none, lex.fetched t (ts ++ r)⟩
    obtain ⟨lex', new, rest, none_, reaches⟩ := @ih _ (calls ++ [c])
      (fun t mem => plain t (List.mem_cons_of_mem _ mem)) (StbLexer.fetched_rest lex t (ts ++ r))
    refine ⟨lex', c :: new, rest, ?_, ?_⟩
    · intro c' mem
      rcases List.mem_cons.mp mem with rfl | mem
      · rfl
      · exact none_ c' mem
    · have both := step.trans reaches
      rwa [List.append_assoc, List.singleton_append] at both

/-- A definition ends with `;`. -/
theorem DeriveBlock.tokens_last (b : DeriveBlock) :
    ∃ ts, b.toExtent.tokens = ts ++ [.char semicolon] := by
  refine ⟨b.toExtent.derives ++ ((if b.typeName.isSome then [.id typedefWord] else []) ++
    (.id b.kind.keyword.word :: .id b.name :: .char lbrace :: (b.body ++
      .char rbrace :: b.typeName.toList.map Token.id))), ?_⟩
  have ending : b.toExtent.ending.tokens b.toExtent.name = b.definition := b.ending_tokens
  rw [Extent.tokens, ending, DeriveBlock.definition]
  simp

/-- A block is read by one call, which ends on its last token. -/
theorem loopReaches_block {b : DeriveBlock} (fits : b.Fits) (next : lex.rest = b.tokens ++ r) :
    ∃ lex' c, lex'.rest = r ∧ lex'.token = semicolon.val ∧ c.before.rest = b.tokens.tail ++ r ∧
      c.result = some b.value ∧ c.after = lex' ∧
      LoopReaches .assertions (lex, calls) (lex', calls ++ [c]) := by
  rw [DeriveBlock.tokens_eq fits.single] at next
  obtain ⟨lex', rest, read, reaches⟩ := loopReaches_extent (b.toExtent_ok fits) next
  obtain ⟨ts, last⟩ := b.tokens_last
  refine ⟨lex', _, rest, ?_, ?_, ?_, rfl, reaches⟩
  · rw [last] at read
    exact read.current.token
  · rw [DeriveBlock.tokens_eq fits.single]
    rfl
  · rw [b.toExtent_result, Option.map_some, b.asRead_value]

end Reach

/-! ## Files of struct blocks -/

/-- Tokens between blocks. -/
structure Filler where
  tokens : List Token
  plain : ∀ t ∈ tokens, t.Plain

/-- A block of the struct macro with at most eight derives and no parse error inside. -/
structure StructBlock extends DeriveBlock where
  isStruct : kind = .derives
  few : toDeriveBlock.invocations.length ≤ moeProcMacroMaxDeriveItemNum
  lexed : Lexed body

theorem StructBlock.fits (b : StructBlock) : b.toDeriveBlock.Fits where
  few := b.few
  single := fun isEnum => absurd (b.isStruct.symm.trans isEnum) (by decide)

/-- The blocks of a file, each with the tokens before it, and the tokens after the last. -/
structure SourceFile where
  blocks : List (Filler × StructBlock)
  last : Filler

namespace SourceFile

def tokens (file : SourceFile) : List Token :=
  file.blocks.flatMap (fun b => b.1.tokens ++ b.2.tokens) ++ file.last.tokens

/-- The structs the file describes, each with the token the lexer is on after its
block and the tokens still to come. -/
def parses (last : Filler) : List (Filler × StructBlock) → List (DerivedStruct × Nat × List Token)
  | [] => []
  | b :: blocks =>
    (b.2.value, semicolon.val, SourceFile.tokens ⟨blocks, last⟩) :: parses last blocks

end SourceFile

/-- What a call that returned a struct shows of it and of the lexer. -/
def Call.found (c : Call) : Option (DerivedStruct × Nat × List Token) :=
  c.result.map fun v => (v, c.after.token, c.after.rest)

theorem found_none {calls : List Call} (none_ : ∀ c ∈ calls, c.result = none) :
    calls.filterMap Call.found = [] := by
  rw [List.filterMap_eq_nil_iff]
  intro c mem
  simp [Call.found, none_ c mem]

theorem filterMap_result (calls : List Call) :
    calls.filterMap Call.result = (calls.filterMap Call.found).map Prod.fst := by
  rw [List.map_filterMap]
  congr 1
  funext c
  cases returned : c.result with
  | none => simp [Call.found, returned]
  | some v => simp [Call.found, returned]

/-- The calls on the tokens before a block return nothing, the one on the block its struct. -/
theorem loopReaches_filled {gap : Filler} {b : DeriveBlock} {lex : StbLexer} {calls : List Call}
    {r : List Token} (fits : b.Fits) (next : lex.rest = gap.tokens ++ (b.tokens ++ r)) :
    ∃ lex' new, lex'.rest = r ∧ new.filterMap Call.found = [(b.value, semicolon.val, r)] ∧
      LoopReaches .assertions (lex, calls) (lex', calls ++ new) := by
  obtain ⟨lex1, new, rest1, none_, before⟩ := loopReaches_filler gap.tokens gap.plain next
  obtain ⟨lex2, c, rest2, token, -, result, after, onBlock⟩ := loopReaches_block fits rest1
  have here : c.found = some (b.value, semicolon.val, r) := by
    rw [Call.found, result, after, token, rest2]
    rfl
  refine ⟨lex2, new ++ [c], rest2, ?_, ?_⟩
  · rw [List.filterMap_append, found_none none_, List.nil_append, List.filterMap_cons_some here,
      List.filterMap_nil]
  · have both := before.trans onBlock
    rwa [List.append_assoc] at both

/-- A run of the loop that comes to the end of the tokens is one of `parseFile`. -/
theorem parseFile_end {lex lex' : StbLexer} {calls : List Call}
    (reaches : LoopReaches .assertions (lex, []) (lex', calls)) (done : lex'.rest = []) (mem : Mem) :
    ∃ st, parseFile .assertions lex mem = .ok ((), st, calls) := by
  obtain ⟨fuel, enough, same⟩ := reaches.parseFile
  obtain ⟨fuel, rfl⟩ := Nat.exists_eq_succ_of_ne_zero (Nat.ne_of_gt (Nat.zero_lt_of_lt enough))
  rw [tokenLoop_end done] at same
  obtain ⟨mem', run, -⟩ := parseFile_spec same mem
  exact ⟨_, run⟩

theorem loopReaches_file (last : Filler) (blocks : List (Filler × StructBlock)) :
    ∀ {lex : StbLexer} {calls : List Call}, lex.rest = SourceFile.tokens ⟨blocks, last⟩ →
      ∃ lex' new, lex'.rest = [] ∧ new.filterMap Call.found = SourceFile.parses last blocks ∧
        LoopReaches .assertions (lex, calls) (lex', calls ++ new) := by
  induction blocks with
  | nil =>
    intro lex calls next
    have next' : lex.rest = last.tokens ++ [] := by simpa [SourceFile.tokens] using next
    obtain ⟨lex', new, rest, none_, reaches⟩ := loopReaches_filler last.tokens last.plain next'
    exact ⟨lex', new, rest, found_none none_, reaches⟩
  | cons b blocks ih =>
    intro lex calls next
    have next' : lex.rest = b.1.tokens ++ (b.2.tokens ++ SourceFile.tokens ⟨blocks, last⟩) := by
      simpa [SourceFile.tokens] using next
    obtain ⟨lex1, new1, rest1, found1, first⟩ := loopReaches_filled b.2.fits next'
    obtain ⟨lex2, new2, rest2, found2, others⟩ := ih rest1
    refine ⟨lex2, new1 ++ new2, rest2, ?_, ?_⟩
    · rw [List.filterMap_append, found1, found2]
      rfl
    · have whole := first.trans others
      rwa [List.append_assoc] at whole

def handlerH : Invocation := ⟨wordH, [], true⟩

/-- `MOE_PROC_MACRO_DERIVES(B, h); struct B { };` -/
def blockB : DeriveBlock where
  kind := .derives
  name := typeB
  first := handlerH
  more := []
  body := []
  closed := by simp
  typeName := none

theorem plain_nil : ∀ t ∈ ([] : List Token), t.Plain := nofun

/-- A file with that block, behind a `;`. -/
def fileB : SourceFile where
  blocks := [(⟨[.char semicolon], fun t mem => List.mem_singleton.mp mem ▸ ⟨rfl, nofun⟩⟩,
    { blockB with isStruct := rfl, few := by decide, lexed := lexed_nil })]
  last := ⟨[], plain_nil⟩

example : (SourceFile.parses fileB.last fileB.blocks).map (fun p => (p.1.structName, p.1.handlers)) =
    [(typeB.text, [wordH.text])] := rfl

/-- In a file of struct blocks no assertion fails, and the calls that return a struct
are one for each block, in order: with the block's name, handlers and body, and with
the lexer on the block's last `;`. -/
theorem file_parses (file : SourceFile) (lex : StbLexer) (mem : Mem) :
    ∃ st calls, parseFile .assertions { lex with rest := file.tokens } mem = .ok ((), st, calls) ∧
      calls.filterMap Call.found = SourceFile.parses file.last file.blocks := by
  obtain ⟨lex', calls, done, found, reaches⟩ := @loopReaches_file file.last file.blocks _ []
    (show StbLexer.rest { lex with rest := file.tokens } = _ from rfl)
  obtain ⟨st, run⟩ := parseFile_end reaches done mem
  exact ⟨st, _, run, found⟩

/-- The theorem at that file. -/
theorem file_parses_fileB :
    ∃ st calls, parseFile .assertions (.start fileB.tokens) Mem.empty = .ok ((), st, calls) ∧
      calls.filterMap Call.found = SourceFile.parses fileB.last fileB.blocks :=
  file_parses fileB (.start []) Mem.empty

/-! ## A block among any other tokens -/

/-- What one call of the loop consumes, whether it returns a struct or not. -/
inductive Segment : List Token → Prop
  | plain (t : Token) (plain : t.Plain) : Segment [t]
  | extent (m : Macro) (e : Extent) (ok : e.Ok m) : Segment (.id m.word :: e.tokens)

/-- Tokens that whole calls of the loop consume. -/
inductive Segmented : List Token → Prop
  | nil : Segmented []
  | cons {s ts : List Token} (segment : Segment s) (rest : Segmented ts) : Segmented (s ++ ts)

/-- A segment is what one call consumes. -/
theorem Segment.call {s r : List Token} {lex : StbLexer} (segment : Segment s) (next : lex.rest = s ++ r) :
    ∃ t r' v lex', lex.rest = t :: r' ∧ t.isError = false ∧ lex'.rest = r ∧ r.length ≤ r'.length ∧
      Values.parseDerivedStruct .assertions (lex.fetched t r') = .ok (v, lex') := by
  cases segment with
  | plain t plain =>
    exact ⟨t, r, none, _, next, plain.lexed, rfl, Nat.le_refl _,
      parseDerivedStruct_none .assertions (fetched_current lex t r) plain.word⟩
  | extent m e ok =>
    have read := @reads_after (lex.fetched (.id m.word) (e.tokens ++ r)) e.tokens r rfl
    exact ⟨_, _, e.result, _, next, rfl, StbLexer.after_rest rfl, by simp,
      parseDerivedStruct_run ok (fetched_current lex _ _) read⟩

/-- Which segment comes next is settled by the tokens. -/
theorem Segment.unique {s s' r r' : List Token} (segment : Segment s) (segment' : Segment s')
    (same : s ++ r = s' ++ r') : s = s' := by
  have next : StbLexer.rest (.start (s ++ r)) = s ++ r := rfl
  obtain ⟨t, u, v, lex, head, -, rest, -, run⟩ := segment.call next
  obtain ⟨t', u', v', lex', head', -, rest', -, run'⟩ := segment'.call (next.trans same)
  rw [head] at head'
  cases head'
  rw [run] at run'
  cases run'
  rw [← rest, ← rest'] at same
  exact List.append_cancel_right same

theorem loopReaches_segmented {pre r : List Token} (segmented : Segmented pre) :
    ∀ {lex : StbLexer} {calls : List Call}, lex.rest = pre ++ r →
      ∃ lex' new, lex'.rest = r ∧ LoopReaches .assertions (lex, calls) (lex', calls ++ new) := by
  induction segmented with
  | nil =>
    intro lex calls next
    exact ⟨lex, [], next, by simpa using LoopReaches.refl (lex, calls)⟩
  | cons segment _ ih =>
    intro lex calls next
    rw [List.append_assoc] at next
    obtain ⟨t, r', v, lex1, head, lexed, rest1, onward, run⟩ := segment.call next
    have first := @loopReaches_call _ _ _ calls _ _ _ head lexed run (by rw [rest1]; exact onward)
    obtain ⟨lex2, new, rest2, second⟩ := ih rest1
    have both := first.trans second
    rw [List.append_assoc, List.singleton_append] at both
    exact ⟨lex2, _, rest2, both⟩

/-- What one call of the loop consumes, with what it returns. -/
inductive Consumes : List Token → Option DerivedStruct → Prop
  | plain (t : Token) (plain : t.Plain) : Consumes [t] none
  | extent (m : Macro) (e : Extent) (ok : e.Ok m) : Consumes (.id m.word :: e.tokens) e.result

theorem Consumes.segment {s : List Token} {v : Option DerivedStruct} (consumes : Consumes s v) : Segment s := by
  cases consumes with
  | plain t plain => exact .plain t plain
  | extent m e ok => exact .extent m e ok

/-- A call that returns did so on some tokens. -/
theorem parseDerivedStruct_consumes {lex lex' : StbLexer} {t : Token} {r : List Token}
    {v : Option DerivedStruct} (lexed : t.isError = false)
    (run : Values.parseDerivedStruct .assertions (lex.fetched t r) = .ok (v, lex')) :
    ∃ s, Consumes s v ∧ t :: r = s ++ lex'.rest := by
  have current := fetched_current lex t r
  by_cases isMacro : ∃ m : Macro, t = .id m.word
  · obtain ⟨m, rfl⟩ := isMacro
    have extent := parseDerivedStruct_wp current
    rw [Exec.Wp, run] at extent
    obtain ⟨e, ok, read, rfl⟩ := extent
    exact ⟨_, .extent m e ok, congrArg _ read.rest⟩
  · rw [not_exists] at isMacro
    rw [parseDerivedStruct_none .assertions current isMacro] at run
    cases run
    exact ⟨[t], .plain t ⟨lexed, isMacro⟩, rfl⟩

/-- Every call of the loop is made after whole segments. -/
theorem LoopRun.segmented {lex lex' : StbLexer} {calls : List Call} (run : LoopRun .assertions lex calls lex') :
    ∀ c ∈ calls, ∃ pre t, Segmented pre ∧ lex.rest = pre ++ t :: c.before.rest := by
  induction run with
  | done | stopped => simp
  | @call lex lex1 lex' t r v calls next lexed run rest ih =>
    intro c mem
    obtain rfl | later := List.mem_cons.mp mem
    · exact ⟨[], t, .nil, next⟩
    · obtain ⟨s, consumes, whole⟩ := parseDerivedStruct_consumes lexed run
      obtain ⟨pre, t', segmented, here⟩ := ih c later
      exact ⟨s ++ pre, t', .cons consumes.segment segmented, by rw [next, whole, here, List.append_assoc]⟩

/-- A run that ends without a fault is one on values. -/
theorem parseFile_values {build : Build} {lex : StbLexer} {mem : Mem} {st : St} {calls : List Call}
    (run : parseFile build lex mem = .ok ((), st, calls)) :
    Values.parseFile build lex = .ok ((), st.lex, calls) := by
  cases values : Values.parseFile build lex with
  | error e =>
    rw [parseFile_fault values mem] at run
    cases run
  | ok r =>
    obtain ⟨_, lex', calls'⟩ := r
    obtain ⟨mem', run', -⟩ := parseFile_spec values mem
    rw [run'] at run
    cases run
    rfl

/-- One of the calls was made on the first token of the block and returned its struct. -/
def Obtained (calls : List Call) (b : DeriveBlock) (post : List Token) : Prop :=
  ∃ c ∈ calls, c.before.rest = b.tokens.tail ++ post ∧ c.result = some b.value

theorem DeriveBlock.tokens_cons (b : DeriveBlock) : b.tokens = .id b.kind.word :: b.tokens.tail := rfl

theorem obtained_segmented {pre post : List Token} {b : DeriveBlock} {lex : StbLexer} {mem : Mem}
    {st : St} {calls : List Call} (next : lex.rest = pre ++ (b.tokens ++ post))
    (run : parseFile .assertions lex mem = .ok ((), st, calls)) (obtained : Obtained calls b post) :
    Segmented pre := by
  obtain ⟨c, called, before, -⟩ := obtained
  obtain ⟨new, rfl, loop⟩ := tokenLoop_loopRun _ (parseFile_values run)
  obtain ⟨pre', t, segmented, here⟩ := loop.segmented c called
  rw [next, before, ← List.cons_append, b.tokens_cons] at here
  obtain ⟨rfl, -⟩ := List.append_inj_left' here (by simp)
  exact segmented

/-! ## A derive right before a block -/

/-- After segments the rest is segmented by itself. -/
theorem Segmented.rest {pre ts : List Token} (segmented : Segmented pre) :
    Segmented (pre ++ ts) → Segmented ts := by
  induction segmented with
  | nil => exact id
  | @cons s pre segment _ ih =>
    intro whole
    rw [List.append_assoc] at whole
    generalize here : s ++ (pre ++ ts) = all at whole
    cases whole with
    | nil =>
      rw [List.append_eq_nil_iff, List.append_eq_nil_iff] at here
      rw [here.2.2]
      exact .nil
    | cons segment' rest =>
      obtain rfl := segment.unique segment' here
      rw [← List.append_cancel_left here] at rest
      exact ih rest

/-- A derive is not whole without the tokens after it. -/
theorem derive_not_segmented (m : Macro) (name : Ident) (i : Invocation) :
    ¬ Segmented (i.tokens m name) := by
  intro segmented
  generalize here : i.tokens m name = all at segmented
  cases segmented with
  | nil => cases here
  | @cons s ts segment _ =>
    cases segment with
    | plain t plain =>
      rw [Invocation.tokens, List.singleton_append, List.cons.injEq] at here
      exact plain.word m here.1.symm
    | extent m' e ok =>
      obtain ⟨name', first, pieces, ending⟩ := e
      have tail := ok.first
      simp only at tail
      simp only [Invocation.tokens, Extent.tokens, Extent.derives, List.cons_append,
        List.append_assoc, List.cons.injEq, true_and] at here
      obtain ⟨-, -, same⟩ := here
      obtain ⟨t, r, ends⟩ := List.exists_cons_of_ne_nil (@Ending.tokens_ne_nil name' ending)
      have tail' : first.Ok (pieces.flatMap (Piece.tokens name') ++ (ending.tokens name' ++ ts)) :=
        tail.congr (by simp [ends])
      have nothing := (DeriveTail.cancel (@Invocation.tail_ok i [] (by simp)) tail'
        ((List.append_nil _).trans same)).2
      simp [ends] at nothing

/-- A derive with no definition of its own takes the start of the block after it. -/
theorem derive_loses_block {pre post : List Token} {m : Macro} {name : Ident} {i : Invocation}
    {b : DeriveBlock} {lex : StbLexer} {mem : Mem} {st : St} {calls : List Call}
    (segmented : Segmented pre) (next : lex.rest = (pre ++ i.tokens m name) ++ (b.tokens ++ post))
    (run : parseFile .assertions lex mem = .ok ((), st, calls)) : ¬ Obtained calls b post :=
  fun obtained => derive_not_segmented m name i (segmented.rest (obtained_segmented next run obtained))

/-- `b` does not start inside another block. -/
def Outermost (pre post : List Token) (b : DeriveBlock) : Prop :=
  ∀ (pre' post' : List Token) (b' : DeriveBlock), b'.Fits →
    pre' ++ (b'.tokens ++ post') = pre ++ (b.tokens ++ post) →
    pre'.length < pre.length → pre'.length + b'.tokens.length ≤ pre.length

/-- `MOE_PROC_MACRO_DERIVES(A, h);` -/
def forwardA : List Token := handlerH.tokens .derives typeA

/-- What the call on the derive of `A` consumes: it compares the name of the next derive
as well, and then looks for a keyword behind that name. -/
def swallowed : Extent :=
  ⟨typeA, handlerH.tail, [.otherName], ⟨none, .undeclared (.id blockB.name)⟩⟩

theorem swallowed_ok : swallowed.Ok .derives where
  first := ⟨by decide, by decide⟩
  pieces := ⟨by decide, ⟨blockB.name, [], rfl, by decide⟩, fun _ => by decide⟩
  ending := ⟨by decide, fun k => by cases k <;> decide⟩

theorem blockB_outermost : Outermost forwardA [] blockB := by
  intro pre post b fits same before
  have macros : ∀ m : Macro, ∀ n < forwardA.length, forwardA[n]? = some (.id m.word) → n = 0 := by
    intro m
    cases m <;> decide
  have head : forwardA[pre.length]? = some (.id b.kind.word) := by
    rw [← @List.getElem?_append_left _ _ (blockB.tokens ++ []) _ before, ← same,
      List.getElem?_append_right (Nat.le_refl _), Nat.sub_self, b.tokens_cons]
    rfl
  have first := macros _ _ before head
  rw [List.length_eq_zero_iff.mp first, List.nil_append, DeriveBlock.tokens_eq fits.single] at same
  have read := @Segment.unique _ _ _ (.char comma :: (handlerH.tail.tokens ++ blockB.definition))
    (.extent _ _ (b.toExtent_ok fits)) (.extent _ _ swallowed_ok) same
  have brace : .char lbrace ∈ b.tokens := by simp [DeriveBlock.tokens, DeriveBlock.definition]
  rw [DeriveBlock.tokens_eq fits.single, read] at brace
  exact absurd brace (by decide)

/-- A run on values that ends without a fault is one on any memory. -/
theorem parseFile_isOk {build : Build} {lex : StbLexer} (ends : (Values.parseFile build lex).isOk = true)
    (mem : Mem) : ∃ st calls, parseFile build lex mem = .ok ((), st, calls) := by
  cases values : Values.parseFile build lex with
  | error e =>
    rw [values] at ends
    cases ends
  | ok r =>
    obtain ⟨_, lex', calls⟩ := r
    obtain ⟨mem', run, -⟩ := parseFile_spec values mem
    exact ⟨_, _, run⟩

/-- The loop obtains the struct of a block exactly when whole calls consume the tokens
before the block. -/
theorem block_obtained_iff (pre post : List Token) (b : DeriveBlock) (fits : b.Fits) (lex : StbLexer)
    (mem : Mem) (st : St) (calls : List Call)
    (run : parseFile .assertions { lex with rest := pre ++ (b.tokens ++ post) } mem = .ok ((), st, calls)) :
    Obtained calls b post ↔ Segmented pre := by
  constructor
  · exact obtained_segmented rfl run
  · intro segmented
    obtain ⟨lex1, new, rest1, first⟩ := @loopReaches_segmented _ _ segmented _ []
      (show StbLexer.rest { lex with rest := pre ++ (b.tokens ++ post) } = _ from rfl)
    obtain ⟨lex2, c, -, -, before, result, -, second⟩ := loopReaches_block fits rest1
    obtain ⟨fuel, -, same⟩ := (first.trans second).parseFile
    rw [parseFile_values run] at same
    obtain ⟨later, all, -⟩ := tokenLoop_loopRun fuel same.symm
    exact ⟨c, by simp [all], before, result⟩

/-- The theorem at a file that is the block of `B` only. -/
theorem block_obtained_iff_blockB :
    ∃ st calls, parseFile .assertions { StbLexer.start [] with rest := [] ++ (blockB.tokens ++ []) } Mem.empty =
      .ok ((), st, calls) ∧ (Obtained calls blockB [] ↔ Segmented []) := by
  have fits : blockB.Fits := ⟨by decide, fun _ => rfl⟩
  obtain ⟨st, calls, run⟩ := @parseFile_isOk .assertions
    { StbLexer.start [] with rest := [] ++ (blockB.tokens ++ []) } (by decide +kernel) Mem.empty
  exact ⟨st, calls, run, block_obtained_iff [] [] blockB fits (.start []) Mem.empty st calls run⟩

/-- No assertion fails on the derive of `A` and the block of `B`, which is not obtained. -/
theorem forwardA_loses_blockB :
    Outermost forwardA [] blockB ∧ blockB.Fits ∧ Lexed (forwardA ++ (blockB.tokens ++ [])) ∧
      ∃ st calls, parseFile .assertions (.start (forwardA ++ (blockB.tokens ++ []))) Mem.empty =
        .ok ((), st, calls) ∧ ¬ Obtained calls blockB [] := by
  have fits : blockB.Fits := ⟨by decide, fun _ => rfl⟩
  obtain ⟨st, calls, run⟩ := @parseFile_isOk .assertions
    (.start (forwardA ++ (blockB.tokens ++ []))) (by decide +kernel) Mem.empty
  exact ⟨blockB_outermost, fits, by decide, _, _, run, derive_loses_block .nil rfl run⟩

end MoeToolchain
