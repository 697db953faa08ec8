import MoeToolchain.ProcMacro.Accepted
import MoeToolchain.ProcMacro.Main

/-!
# What success says

`main` returns `EXIT_SUCCESS` whatever went wrong on the way: a script that throws, a
handler that is missing or throws, a block that is rejected and a file that cannot be
opened are printed at most, and a lexical error ends the loop. `Complete` is what a run
would have to show; `success_complete_iff` says which inputs and scripts make it so.

`Sections` divides a file into tokens that are no macro name and accepted blocks that
hold no stray one.
-/

namespace MoeToolchain
set_option autoImplicit false
open Lib

/-! ## Macro names -/

def Token.isMacro (t : Token) : Bool := t == .id Macro.derives.word || t == .id Macro.derivesEnum.word

/-- The same for a token object. -/
def TokenValue.isMacro (v : TokenValue) : Bool :=
  v == .identifier Macro.derives.word.text || v == .identifier Macro.derivesEnum.word.text

theorem Token.isMacro_iff {t : Token} : t.isMacro = true ↔ ∃ m : Macro, t = .id m.word := by
  rw [Token.isMacro, Bool.or_eq_true, beq_iff_eq, beq_iff_eq]
  constructor
  · rintro (rfl | rfl)
    · exact ⟨.derives, rfl⟩
    · exact ⟨.derivesEnum, rfl⟩
  · rintro ⟨m, rfl⟩
    cases m
    · exact .inl rfl
    · exact .inr rfl

@[simp] theorem Token.isMacro_word (m : Macro) : (Token.id m.word).isMacro = true := Token.isMacro_iff.mpr ⟨m, rfl⟩

@[simp] theorem Token.isMacro_char (c : Fin 128) : (Token.char c).isMacro = false := rfl

@[simp] theorem Token.isMacro_keyword (k : Keyword) : (Token.id k.word).isMacro = false := by
  cases k <;> decide

theorem Token.Plain.isMacro {t : Token} (plain : t.Plain) : t.isMacro = false := by
  rw [Bool.eq_false_iff]
  intro isMacro
  obtain ⟨m, same⟩ := Token.isMacro_iff.mp isMacro
  exact plain.word m same

theorem Token.isMacro_value (t : Token) : t.value.isMacro = t.isMacro := by
  cases t with
  | id name =>
    have word : ∀ m : Macro, TokenValue.identifier name.text = .identifier m.word.text ↔ Token.id name = .id m.word := by
      intro m
      rw [TokenValue.identifier.injEq, Token.id.injEq]
      exact ⟨Ident.ext_text, congrArg _⟩
    rw [Bool.eq_iff_iff, TokenValue.isMacro, Token.isMacro, Token.value]
    simp only [Bool.or_eq_true, beq_iff_eq, word]
  | _ => rfl

/-- The macro names that a struct stands for: one for each derive item, and those in its body. -/
def DerivedStruct.macroNames (v : DerivedStruct) : Nat := v.handlers.length + v.metadata.countP TokenValue.isMacro

/-! ## Accepted blocks and macro names -/

/-- A derive, with no further macro name. -/
def Piece.Settled (name : Ident) : Piece → Prop
  | .derive d => (Token.id name).isMacro = false ∧ ∀ t ∈ d.tokens, t.isMacro = false
  | .otherName => False

/-- Outside the body, no macro name but those that the derives begin with. -/
structure Extent.Settled (e : Extent) : Prop where
  name : (Token.id e.name).isMacro = false
  first : ∀ t ∈ e.first.tokens, t.isMacro = false
  pieces : ∀ p ∈ e.pieces, p.Settled e.name
  typeName : ∀ k body typeName, e.ending.declaration = .defined k body (some typeName) →
    (Token.id typeName).isMacro = false

theorem countP_isMacro_eq_zero {ts : List Token} : ts.countP Token.isMacro = 0 ↔ ∀ t ∈ ts, t.isMacro = false := by
  rw [List.countP_eq_zero]
  simp only [Bool.not_eq_true]

theorem countP_value (body : List Token) :
    (body.map Token.value).countP TokenValue.isMacro = body.countP Token.isMacro := by
  rw [List.countP_map]
  exact List.countP_congr fun t _ => by rw [Function.comp_apply, Token.isMacro_value]

theorem pieces_count (name : Ident) (ps : List Piece) :
    (ps.filterMap Piece.handler?).length ≤ (ps.flatMap (Piece.tokens name)).countP Token.isMacro ∧
      ((ps.flatMap (Piece.tokens name)).countP Token.isMacro = (ps.filterMap Piece.handler?).length ↔
        ∀ p ∈ ps, p.Settled name) := by
  induction ps with
  | nil => exact ⟨Nat.le_refl _, by simp⟩
  | cons p ps ih =>
    obtain ⟨fewer, settled⟩ := ih
    rw [List.flatMap_cons, List.countP_append, List.forall_mem_cons, ← settled]
    cases p with
    | otherName =>
      simp only [List.filterMap_cons, Piece.handler?, Piece.tokens, Piece.Settled, List.countP_cons, List.countP_nil,
        Token.isMacro_word, Token.isMacro_char, if_true, Bool.false_eq_true, if_false, false_and, iff_false]
      omega
    | derive d =>
      rw [Piece.Settled, ← countP_isMacro_eq_zero]
      simp only [List.filterMap_cons, Piece.handler?, Piece.tokens, List.countP_cons, List.length_cons,
        Token.isMacro_word, Token.isMacro_char, if_true, Bool.false_eq_true, if_false]
      cases (Token.id name).isMacro
      · simp only [Bool.false_eq_true, if_false, true_and]
        omega
      · simp only [if_true, Bool.true_eq_false, false_and, iff_false]
        omega

/-- An accepted extent has a macro name for each derive item, those of its body, and no
others if it is settled. -/
theorem Extent.count {m : Macro} {e : Extent} (ok : e.Ok m) {v : DerivedStruct} (accepted : e.result = some v) :
    v.macroNames ≤ (.id m.word :: e.tokens).countP Token.isMacro ∧
      ((.id m.word :: e.tokens).countP Token.isMacro = v.macroNames ↔ e.Settled) := by
  obtain ⟨name, first, pieces, typedef?, declaration⟩ := e
  obtain ⟨fewer, settled⟩ := pieces_count name pieces
  cases declaration with
  | undeclared t => cases accepted
  | otherName k found => cases accepted
  | defined k body typeName =>
    cases accepted
    have typedef : typedef?.toList.countP Token.isMacro = 0 := by
      rw [countP_isMacro_eq_zero]
      intro t there
      rw [Option.mem_toList] at there
      subst there
      rw [Bool.eq_false_iff]
      intro isMacro
      obtain ⟨m', rfl⟩ := Token.isMacro_iff.mp isMacro
      exact ok.ending.head_ne rfl m' rfl
    have iff_ : Extent.Settled ⟨name, first, pieces, typedef?, .defined k body typeName⟩ ↔
        (Token.id name).isMacro = false ∧ first.tokens.countP Token.isMacro = 0 ∧
          (∀ p ∈ pieces, p.Settled name) ∧ (typeName.toList.map Token.id).countP Token.isMacro = 0 := by
      rw [countP_isMacro_eq_zero, countP_isMacro_eq_zero]
      constructor
      · intro all
        refine ⟨all.name, all.first, all.pieces, ?_⟩
        cases typeName with
        | none => simp
        | some typeName => simpa using all.typeName k body typeName rfl
      · rintro ⟨name, first, pieces, typeName⟩
        refine ⟨name, first, pieces, ?_⟩
        intro k body typeName' defined
        cases defined
        simpa using typeName
    rw [iff_, ← settled]
    simp only [Extent.tokens, Extent.derives, Extent.handlers, Ending.tokens, Declaration.tokens,
      DerivedStruct.macroNames, countP_value, List.countP_append, List.countP_cons, List.countP_nil,
      List.length_cons, Token.isMacro_word, Token.isMacro_char, Token.isMacro_keyword, typedef, if_true,
      Bool.false_eq_true, if_false]
    cases (Token.id name).isMacro
    · simp only [Bool.false_eq_true, if_false, true_and]
      omega
    · simp only [if_true, Bool.true_eq_false, false_and, iff_false]
      omega

/-- The names of a struct have no NUL. -/
theorem Extent.asRead_result {e : Extent} {v : DerivedStruct} (accepted : e.result = some v) :
    Values.asRead v = v := by
  obtain ⟨name, first, pieces, typedef?, declaration⟩ := e
  cases declaration with
  | undeclared t => cases accepted
  | otherName k found => cases accepted
  | defined k body typeName =>
    cases accepted
    have handlers : ∀ text ∈ pieces.filterMap Piece.handler?, cString text = text := by
      intro text mem
      obtain ⟨p, -, handler⟩ := List.mem_filterMap.mp mem
      cases p with
      | derive d =>
        cases handler
        exact cString_text _
      | otherName => cases handler
    simp only [Values.asRead, Extent.handlers, List.map_cons, cString_text, List.map_congr_left handlers, List.map_id']

/-! ## Sections of a file -/

/-- A token that is no macro name, or a settled block. -/
inductive Section : List Token → Option DerivedStruct → Prop
  | plain (t : Token) (plain : t.Plain) : Section [t] none
  | block (m : Macro) (e : Extent) (v : DerivedStruct) (ok : e.Ok m) (accepted : e.result = some v)
      (settled : e.Settled) : Section (.id m.word :: e.tokens) (some v)

/-- The sections of a file and the structs of its blocks. -/
inductive Sections : List Token → List DerivedStruct → Prop
  | nil : Sections [] []
  | cons {s ts : List Token} {v : Option DerivedStruct} {vs : List DerivedStruct} (first : Section s v)
      (rest : Sections ts vs) : Sections (s ++ ts) (v.toList ++ vs)

section Sections

variable {s s' r r' : List Token} {v v' : Option DerivedStruct}

theorem Section.consumes (here : Section s v) : Consumes s v := by
  cases here with
  | plain t plain => exact .plain t plain
  | block m e v ok accepted settled =>
    rw [← accepted]
    exact .extent m e ok

theorem Consumes.unique (consumes : Consumes s v) (consumes' : Consumes s' v') (same : s ++ r = s' ++ r') :
    s = s' ∧ v = v' := by
  obtain rfl := consumes.segment.unique consumes'.segment same
  refine ⟨rfl, ?_⟩
  generalize here : s = s' at consumes'
  cases consumes with
  | plain t plain =>
    cases consumes' with
    | plain t' plain' => rfl
    | extent m e ok => exact absurd (List.cons.inj here).1 (plain.word m)
  | extent m e ok =>
    cases consumes' with
    | plain t' plain' => exact absurd (List.cons.inj here).1.symm (plain'.word m)
    | extent m' e' ok' =>
      obtain ⟨word, tokens⟩ := List.cons.inj here
      obtain rfl := Macro.word_inj (Token.id.inj word)
      rw [Extent.tokens_inj ok ok' tokens]

theorem Consumes.asRead (consumes : Consumes s v) : v.map Values.asRead = v := by
  cases consumes with
  | plain t plain => rfl
  | extent m e ok =>
    cases accepted : e.result with
    | none => rfl
    | some v => rw [Option.map_some, Extent.asRead_result accepted]

/-- A call accounts for all macro names that it meets exactly on a section. -/
theorem Consumes.count (consumes : Consumes s v) :
    (v.toList.map DerivedStruct.macroNames).sum ≤ s.countP Token.isMacro ∧
      (s.countP Token.isMacro = (v.toList.map DerivedStruct.macroNames).sum ↔ Section s v) := by
  cases consumes with
  | plain t plain =>
    have none_ : [t].countP Token.isMacro = 0 := by simp [plain.isMacro]
    rw [none_]
    exact ⟨Nat.le_refl _, fun _ => .plain t plain, fun _ => rfl⟩
  | extent m e ok =>
    cases accepted : e.result with
    | none =>
      refine ⟨Nat.zero_le _, fun same => ?_, fun here => ?_⟩
      · rw [List.countP_cons_of_pos (Token.isMacro_word m)] at same
        cases same
      · generalize tokens : Token.id m.word :: e.tokens = all at here
        cases here with
        | plain t plain => exact absurd (List.cons.inj tokens).1.symm (plain.word m)
    | some v =>
      obtain ⟨fewer, settled⟩ := Extent.count ok accepted
      simp only [Option.toList_some, List.map_cons, List.map_nil, List.sum_singleton]
      refine ⟨fewer, fun same => .block m e v ok accepted (settled.mp same), fun here => settled.mpr ?_⟩
      generalize tokens : Token.id m.word :: e.tokens = all at here
      cases here with
      | block m' e' v' ok' accepted' settled' =>
        obtain ⟨word, rest⟩ := List.cons.inj tokens
        obtain rfl := Macro.word_inj (Token.id.inj word)
        rwa [Extent.tokens_inj ok ok' rest]

/-- The loop on a file with no lexical error comes to the end, and the structs that it
found account for all macro names exactly if the file has sections; then they are the
structs of these. -/
theorem LoopRun.sections {lex lex' : StbLexer} {calls : List Call} (run : LoopRun .assertions lex calls lex') :
    Lexed lex.rest → lex'.rest = [] ∧ lex'.token = clexEof ∧
      ((calls.filterMap Call.result).map DerivedStruct.macroNames).sum ≤ lex.rest.countP Token.isMacro ∧
      (lex.rest.countP Token.isMacro = ((calls.filterMap Call.result).map DerivedStruct.macroNames).sum →
        Sections lex.rest (calls.filterMap Call.result)) ∧
      ∀ vs, Sections lex.rest vs → calls.filterMap Call.result = vs ∧
        lex.rest.countP Token.isMacro = (vs.map DerivedStruct.macroNames).sum := by
  induction run with
  | stopped next error =>
    intro clean
    rw [next, lexed_cons, error] at clean
    cases clean.1
  | @done lex next =>
    intro _
    rw [next]
    refine ⟨rfl, rfl, Nat.le_refl _, fun _ => .nil, ?_⟩
    intro vs sections
    generalize empty : ([] : List Token) = ts at sections
    cases sections with
    | nil => exact ⟨rfl, rfl⟩
    | cons first rest =>
      obtain ⟨t, r, v, lex1, head, -⟩ := first.consumes.segment.call (next.trans empty)
      rw [next] at head
      cases head
  | @call lex lex1 lex' t r v calls next lexed run rest ih =>
    intro clean
    obtain ⟨s, consumes, whole⟩ := parseDerivedStruct_consumes lexed run
    rw [next] at clean ⊢
    have clean1 : Lexed lex1.rest := by
      rw [whole, lexed_append] at clean
      exact clean.2
    obtain ⟨done, ended, fewer, sections, found⟩ := ih clean1
    obtain ⟨fewer', section_⟩ := consumes.count
    have result : (⟨lex.fetched t r, v.map Values.asRead, lex1⟩ :: calls).filterMap Call.result =
        v.toList ++ calls.filterMap Call.result := by
      rw [List.filterMap_cons, consumes.asRead]
      cases v <;> rfl
    refine ⟨done, ended, ?_⟩
    rw [result, whole, List.countP_append, List.map_append, List.sum_append]
    refine ⟨Nat.add_le_add fewer' fewer, fun same => ?_, fun vs all => ?_⟩
    · exact .cons (section_.mp (by omega)) (sections (by omega))
    · generalize tokens : s ++ lex1.rest = ts at all
      cases all with
      | nil =>
        rw [tokens] at whole
        cases whole
      | cons first rest =>
        obtain ⟨rfl, rfl⟩ := consumes.unique first.consumes tokens
        obtain rfl := List.append_cancel_left tokens
        obtain ⟨rfl, count⟩ := found _ rest
        refine ⟨rfl, ?_⟩
        rw [List.map_append, List.sum_append, section_.mpr first, count]

/-- A block has a derive. -/
theorem Sections.handlers {ts : List Token} {vs : List DerivedStruct} (sections : Sections ts vs) :
    ∀ v ∈ vs, v.handlers ≠ [] := by
  induction sections with
  | nil => simp
  | cons first rest ih =>
    intro v mem
    obtain here | later := List.mem_append.mp mem
    · cases first with
      | plain t plain => cases here
      | block m e v' ok accepted settled =>
        rw [Option.toList_some, List.mem_singleton] at here
        subst here
        rw [Extent.result] at accepted
        split at accepted
        · cases accepted
          simp [Extent.handlers]
        · cases accepted
    · exact ih v later

end Sections

/-! ## Outcomes with code -/

section Outcomes

variable {σ ι : Type} {js : Js σ ι} {writes : Nat → Append}

/-- Every handler returned a string. -/
def Handled (os : List Outcome) : Prop := ∀ o ∈ os, ∃ code, o = .returned code

theorem Handled.length_codes {os : List Outcome} (handled : Handled os) : (codes os).length = os.length := by
  induction os with
  | nil => rfl
  | cons o os ih =>
    obtain ⟨code, rfl⟩ := handled o (by simp)
    rw [codes_returned, List.length_cons, List.length_cons, ih fun o mem => handled o (List.mem_cons_of_mem _ mem)]

theorem length_outcomes (array : ι) (structName : Bytes) (names : List Bytes) :
    ∀ s, (js.outcomes array structName names s).1.length = names.length := by
  induction names with
  | nil =>
    intro s
    rfl
  | cons name names ih =>
    intro s
    simp only [Js.outcomes, List.length_cons, ih]

theorem length_fileOutcomes (vs : List DerivedStruct) : ∀ s, (js.fileOutcomes vs s).length = vs.length := by
  induction vs with
  | nil =>
    intro s
    rfl
  | cons v vs ih =>
    intro s
    simp only [Js.fileOutcomes, List.length_cons, ih]

theorem fileOutcomes_ne_nil (vs : List DerivedStruct) : ∀ s, (∀ v ∈ vs, v.handlers ≠ []) →
    ∀ os ∈ js.fileOutcomes vs s, os ≠ [] := by
  induction vs with
  | nil =>
    intro s derives os mem
    cases mem
  | cons v vs ih =>
    intro s derives os mem
    obtain rfl | later := List.mem_cons.mp mem
    · rw [Ne, ← List.length_eq_zero_iff, Js.structOutcomes, length_outcomes, List.length_eq_zero_iff]
      exact derives v (by simp)
    · exact ih _ (fun v mem => derives v (List.mem_cons_of_mem _ mem)) os later

/-- One handler, which returned a string. -/
def Single (os : List Outcome) : Prop := ∃ code, os = [.returned code]

theorem Handled.single {os : List Outcome} (handled : Handled os) (few : (codes os).length ≤ 1)
    (some_ : os ≠ []) : Single os := by
  rw [handled.length_codes] at few
  match os, some_ with
  | [o], _ =>
    obtain ⟨code, rfl⟩ := handled o (by simp)
    exact ⟨code, rfl⟩
  | o :: o' :: os, _ =>
    simp only [List.length_cons] at few
    omega

theorem attempts_single {oss : List (List Outcome)} (single : ∀ os ∈ oss, Single os) :
    (oss.map fun os => attempts (codes os)).sum = oss.length := by
  induction oss with
  | nil => rfl
  | cons os oss ih =>
    obtain ⟨code, rfl⟩ := single os (by simp)
    rw [List.map_cons, List.sum_cons, ih fun os mem => single os (List.mem_cons_of_mem _ mem), List.length_cons,
      Nat.add_comm]
    rfl

/-- Where no attempt to append fails, the text is whole when no code has a NUL. -/
theorem keepsAll_single {oss : List (List Outcome)} : ∀ {n : Nat}, (∀ os ∈ oss, Single os) →
    (∀ k < oss.length, writes (n + k) = .whole) →
    (KeepsAll writes n oss ↔ ∀ os ∈ oss, ∀ code, .returned code ∈ os → 0 ∉ code) := by
  induction oss with
  | nil =>
    intro n single opened
    simp [KeepsAll]
  | cons os oss ih =>
    intro n single opened
    obtain ⟨code, rfl⟩ := single os (by simp)
    have later := @ih (n + 1) (fun os mem => single os (List.mem_cons_of_mem _ mem)) fun k less => by
      have here := opened (k + 1) (by simpa using less)
      rwa [Nat.add_comm k, ← Nat.add_assoc] at here
    have first : Keeps writes n [code] ↔ 0 ∉ code := by
      constructor
      · intro keeps
        exact (keeps.last code rfl).1
      · intro clean
        refine ⟨by simp, ?_⟩
        intro c here
        cases here
        exact ⟨clean, by rw [show writes n = .whole from opened 0 (by simp)]; rfl⟩
    have steps : KeepsAll writes n ([.returned code] :: oss) ↔
        Keeps writes n [code] ∧ KeepsAll writes (n + 1) oss := Iff.rfl
    rw [steps, first, later, List.forall_mem_cons]
    simp

end Outcomes

/-! ## Complete runs -/

section Results

variable {σ ι : Type}

/-- What a run of `main` that succeeds is to have done: the script and the lexer had no
error, the input was read to its end, every macro name went into a struct, every handler
of these returned a string, and the strings are in the file, with no attempt to append that failed. -/
structure Complete (w : World σ ι) (c : St × Host σ) (inputFile text script : Bytes) (calls : List Call) : Prop where
  evaluated : (w.js.eval script w.engine).1 = false
  lexed : Lexed (w.lexer text)
  tokenised : c.1.lex.rest = [] ∧ c.1.lex.token = clexEof
  derived : (w.lexer text).countP Token.isMacro =
    ((calls.filterMap Call.result).map DerivedStruct.macroNames).sum
  handled : ∀ os ∈ w.outcomes script calls, Handled os
  opened : ∀ n < c.2.appends, w.writes n = .whole
  appended : c.2.output = includeLine (cString (baseName inputFile)) ++ wholeText (w.outcomes script calls)

/-- The input and the scripts that leave nothing to report. -/
structure Flawless (w : World σ ι) (text script : Bytes) (vs : List DerivedStruct) : Prop where
  evaluated : (w.js.eval script w.engine).1 = false
  lexed : Lexed (w.lexer text)
  sections : Sections (w.lexer text) vs
  handled : ∀ os ∈ w.js.fileOutcomes vs (w.js.eval script w.engine).2, Handled os
  clean : ∀ os ∈ w.js.fileOutcomes vs (w.js.eval script w.engine).2,
    ∀ code, .returned code ∈ os → 0 ∉ code
  opened : ∀ n ≤ vs.length, w.writes n = .whole

theorem main_success {w : World σ ι} {s c : St × Host σ} (run : main .assertions w s = .ok (0, c)) :
    mainToCheck .assertions w s = .ok (.check, c) ∧ c.1.mem.stats.totalAllocated = c.1.mem.stats.totalFreed := by
  obtain ⟨exit, c', toCheck, run⟩ := Exec.bind_eq_ok.mp run
  cases exit with
  | failure => cases run
  | check =>
    obtain ⟨_, c'', check, run⟩ := Exec.bind_eq_ok.mp run
    cases run
    obtain ⟨st, check, same⟩ := Exec.zoom_eq_ok.mp check
    obtain ⟨mem, check, same'⟩ := Exec.zoom_eq_ok.mp check
    obtain ⟨equal, rfl⟩ := moeCheckMemoryLeak_ok.mp check
    obtain rfl : c' = c := by
      simp only at same same'
      rw [← same, ← same']
    exact ⟨toCheck, equal⟩

/-- A run of `main` that succeeds is complete exactly when the script does not throw, the
file divides into sections without a lexical error, every handler of their structs
returns a string without NUL, and no attempt to append fails. -/
theorem success_complete_iff (w : World σ ι) (output : Bytes) (c : St × Host σ)
    (run : main .assertions w (w.start output) = .ok (0, c)) :
    ∃ inputFile text script calls, Checked .assertions w c inputFile text script calls ∧
      (Complete w c inputFile text script calls ↔ ∃ vs, Flawless w text script vs) := by
  obtain ⟨toCheck, equal⟩ := main_success run
  obtain ⟨inputFile, text, script, calls, checked, ended⟩ := mainToCheck_ok toCheck
  have few := checked.equal_iff.mp equal
  have appends := ended.appends
  refine ⟨inputFile, text, script, calls, checked, ?_, ?_⟩
  · intro complete
    obtain ⟨_, rfl, loop⟩ := tokenLoop_loopRun _ ended.lexer
    obtain ⟨-, -, -, divides, -⟩ := loop.sections complete.lexed
    have sections : Sections (w.lexer text) (calls.filterMap Call.result) := divides complete.derived
    have single : ∀ os ∈ w.outcomes script calls, Single os := fun os mem =>
      (complete.handled os mem).single (few os mem) (fileOutcomes_ne_nil _ _ sections.handlers os mem)
    have length : (w.outcomes script calls).length = (calls.filterMap Call.result).length := length_fileOutcomes _ _
    rw [attempts_single single, length] at appends
    have opened := complete.opened
    have whole := complete.appended
    rw [checked.output, World.firstLine, opened 0 (by omega), Append.kept, List.append_cancel_left_eq] at whole
    have clean := (keepsAll_single single fun k less => opened (1 + k) (by omega)).mp
      ((writtenText_iff _ 1).2.mp whole)
    exact ⟨_, complete.evaluated, complete.lexed, sections, complete.handled, clean, fun n less =>
      opened n (by omega)⟩
  · rintro ⟨vs, flawless⟩
    obtain ⟨_, rfl, loop⟩ := tokenLoop_loopRun _ ended.lexer
    obtain ⟨done, ended', -, -, found⟩ := loop.sections flawless.lexed
    obtain ⟨rfl, count⟩ := found vs flawless.sections
    have handled : ∀ os ∈ w.outcomes script calls, Handled os := flawless.handled
    have single : ∀ os ∈ w.outcomes script calls, Single os := fun os mem =>
      (handled os mem).single (few os mem) (fileOutcomes_ne_nil _ _ flawless.sections.handlers os mem)
    have length : (w.outcomes script calls).length = (calls.filterMap Call.result).length := length_fileOutcomes _ _
    rw [attempts_single single, length] at appends
    have opened := flawless.opened
    have whole := (writtenText_iff _ 1).2.mpr
      ((keepsAll_single single fun k less => opened (1 + k) (by omega)).mpr flawless.clean)
    refine ⟨flawless.evaluated, flawless.lexed, ⟨done, ended'⟩, count, handled, fun n less => opened n (by omega), ?_⟩
    rw [checked.output, World.firstLine, opened 0 (Nat.zero_le _), whole, Append.kept]

end Results

theorem exists_of_success {σ : Type} {x : C σ Int} {s : σ} (ends : (x s).toOption.any (fun r => r.1 == 0) = true) :
    ∃ c, x s = .ok (0, c) := by
  cases run : x s with
  | error e =>
    rw [run] at ends
    cases ends
  | ok r =>
    rw [run] at ends
    obtain ⟨code, c⟩ := r
    obtain rfl : code = 0 := eq_of_beq ends
    exact ⟨c, rfl⟩

/-- The theorem at a file with the block of `B`. -/
theorem success_complete_iff_blockB :
    ∃ c inputFile text script calls,
      main .assertions (worldOf blockB.tokens) ((worldOf blockB.tokens).start []) = .ok (0, c) ∧
      Checked .assertions (worldOf blockB.tokens) c inputFile text script calls ∧
      (Complete (worldOf blockB.tokens) c inputFile text script calls ↔
        ∃ vs, Flawless (worldOf blockB.tokens) text script vs) := by
  obtain ⟨c, run⟩ := exists_of_success (x := main .assertions (worldOf blockB.tokens))
    (s := (worldOf blockB.tokens).start []) (by decide +kernel)
  obtain ⟨inputFile, text, script, calls, checked, iff_⟩ :=
    success_complete_iff (worldOf blockB.tokens) [] c run
  exact ⟨c, inputFile, text, script, calls, run, checked, iff_⟩

/-- A script without functions. -/
def answerNothing : Js Unit Unit := { answerX with isFunction := fun _ s => (false, s) }

/-- Without the handler of `B`, `main` succeeds as well. -/
theorem missing_handler_succeeds :
    ∃ c inputFile text script calls,
      main .assertions { worldOf blockB.tokens with js := answerNothing } ((worldOf blockB.tokens).start []) =
        .ok (0, c) ∧
      Checked .assertions { worldOf blockB.tokens with js := answerNothing } c inputFile text script calls ∧
      ¬ Complete { worldOf blockB.tokens with js := answerNothing } c inputFile text script calls := by
  obtain ⟨c, run⟩ := exists_of_success (x := main .assertions { worldOf blockB.tokens with js := answerNothing })
    (s := (worldOf blockB.tokens).start []) (by decide +kernel)
  obtain ⟨inputFile, text, script, calls, checked, -⟩ := mainToCheck_ok
    (w := { worldOf blockB.tokens with js := answerNothing }) (main_success run).1
  have found : (Values.parseFile .assertions (.start blockB.tokens)).toOption.map
      (fun r => r.2.2.filterMap Call.result) = some [blockB.value] := by decide +kernel
  obtain ⟨st, parse⟩ := checked.found
  have structs : calls.filterMap Call.result = [blockB.value] := by
    rw [show World.lexer { worldOf blockB.tokens with js := answerNothing } text = blockB.tokens from rfl] at parse
    rw [parseFile_values parse] at found
    exact Option.some.inj found
  refine ⟨c, inputFile, text, script, calls, run, checked, fun complete => ?_⟩
  have handled := complete.handled
  rw [World.outcomes, structs] at handled
  obtain ⟨code, returned⟩ := handled [.notFunction] (List.mem_singleton_self _) .notFunction (List.mem_singleton_self _)
  cases returned

end MoeToolchain
