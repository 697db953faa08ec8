import MoeToolchain.ProcMacro.Generate
import MoeToolchain.ProcMacro.Files

/-!
# Braces inside a body

A member of a struct can have braces of its own. `try_parse_derived_struct_body` ends the
body at the first `}` it comes to, so `body_delimited_iff` holds of the bodies without
inner braces, among all bodies with balanced ones.
-/

namespace MoeToolchain
set_option autoImplicit false
open Lib

/-- Tokens in which every brace has its partner. -/
inductive Balanced : List Token → Prop
  | nil : Balanced []
  | plain (t : Token) (rest : List Token) (noOpen : t ≠ .char lbrace) (noClose : t ≠ .char rbrace) :
      Balanced rest → Balanced (t :: rest)
  | braces (inner rest : List Token) : Balanced inner → Balanced rest →
      Balanced (.char lbrace :: (inner ++ .char rbrace :: rest))

/-- Balanced tokens that open no brace close none. -/
theorem Balanced.flat_iff {ts : List Token} (balanced : Balanced ts) :
    .char lbrace ∉ ts ↔ .char rbrace ∉ ts := by
  induction balanced with
  | nil => simp
  | plain t rest noOpen noClose _ ih => simp [Ne.symm noOpen, Ne.symm noClose, ih]
  | braces inner rest _ _ _ _ => simp

/-- `[typedef] keyword name { body } [typeName] ;` -/
def definitionTokens (k : Keyword) (name : Ident) (body : List Token) (typeName : Option Ident) : List Token :=
  (if typeName.isSome then [.id typedefWord] else []) ++
    (.id k.word :: .id name :: .char lbrace :: (body ++
      .char rbrace :: (typeName.toList.map Token.id ++ [.char semicolon])))

/-- The call on a definition returns 1, with the tokens of the body in the struct and the
final `;` as the current token. -/
def Delimits (s : StructAt) (st : St) (body r : List Token) : Prop :=
  ∃ st', tryParseDerivedStructBody .assertions (some s.name.handle) s.addr st = .ok (1, st') ∧
    readTokens s.addr st'.mem = .ok (body.map Token.value, st'.mem) ∧
    st'.lex.token = semicolon ∧ st'.lex.rest = r

section Bodies

variable {m₀ mem : Mem} {f : Footprint} {s : StructAt} {num : Nat} {v : DerivedStruct} {name : Ident}
  {k : Keyword} {body r : List Token} {typeName : Option Ident}

/-- The call on values, up to the struct it fills in. -/
theorem tryParseDerivedStructBody_spec {lex lex' : StbLexer} {ret : Int} {v' : DerivedStruct}
    (owned : StructOwned m₀ f s num v mem)
    (run : Values.tryParseDerivedStructBody .assertions v lex = .ok ((ret, v'), lex')) :
    ∃ mem', tryParseDerivedStructBody .assertions (some s.name.handle) s.addr ⟨lex, mem⟩ =
      .ok (ret, ⟨lex', mem'⟩) ∧ StructOwned m₀ f s num v' mem' := by
  have refines := @tryParseDerivedStructBody_refines m₀ f s num v .assertions ⟨lex, mem⟩ lex ⟨rfl, owned⟩
  rw [run] at refines
  obtain ⟨_, ⟨_, mem'⟩, run', rfl, -, -, rfl, owned'⟩ := refines
  exact ⟨mem', run', owned'⟩

theorem tryParseDerivedStructBody_fault {lex : StbLexer} {e : Fault} (owned : StructOwned m₀ f s num v mem)
    (run : Values.tryParseDerivedStructBody .assertions v lex = .error e) :
    tryParseDerivedStructBody .assertions (some s.name.handle) s.addr ⟨lex, mem⟩ = .error e := by
  have refines := @tryParseDerivedStructBody_refines m₀ f s num v .assertions ⟨lex, mem⟩ lex ⟨rfl, owned⟩
  rw [run] at refines
  exact refines

/-- The parts of a definition as the grammar has them. -/
def definitionEnding (k : Keyword) (body : List Token) (typeName : Option Ident) : Ending :=
  ⟨if typeName.isSome then some (.id typedefWord) else none, .defined k body typeName⟩

theorem definitionEnding_tokens :
    (definitionEnding k body typeName).tokens name = definitionTokens k name body typeName := by
  unfold definitionEnding Ending.tokens Declaration.tokens definitionTokens
  split <;> rfl

/-- A definition begins with a word, which is `typedef` in the `typedef` form, and ends with `;`. -/
theorem definitionTokens_ends :
    ∃ w ts, definitionTokens k name body typeName = .id w :: (ts ++ [.char semicolon]) ∧
      typeName.isSome = strEq w.text (bytesOf "typedef") := by
  cases typeName with
  | none =>
    have plain := k.word_ne_typedef
    refine ⟨k.word, .id name :: .char lbrace :: (body ++ [.char rbrace]), by simp [definitionTokens], ?_⟩
    rw [Bool.eq_iff_iff, typedef_strEq]
    simp [plain]
  | some typeName =>
    refine ⟨typedefWord, .id k.word :: .id name :: .char lbrace :: (body ++ [.char rbrace, .id typeName]),
      by simp [definitionTokens], ?_⟩
    rw [Bool.eq_iff_iff, typedef_strEq]
    simp

/-- A definition whose body ends at its first `}` is read to its end. -/
theorem delimits_of_flat (lex : StbLexer) (owned : StructOwned m₀ f s num v mem) (named : v.structName = name.text)
    (fresh : v.metadata = []) (flat : .char rbrace ∉ body) :
    Delimits s ⟨lex.atHead (definitionTokens k name body typeName ++ r), mem⟩ body r := by
  obtain ⟨w, ts, tokens, typedef⟩ := @definitionTokens_ends name k body typeName
  obtain ⟨lex', read, rest⟩ : ∃ lex', Reads (lex.fetched (.id w) (ts ++ [.char semicolon] ++ r))
      (ts ++ [.char semicolon]) lex' ∧ lex'.rest = r := ⟨_, reads_after rfl, StbLexer.after_rest rfl⟩
  have isTypedef : (definitionEnding k body typeName).typedef?.isSome = typeName.isSome := by
    unfold definitionEnding
    split <;> simp_all
  have run := tryParseDerivedStructBody_run (e := definitionEnding k body typeName)
    (fetched_current lex (.id w) (ts ++ [.char semicolon] ++ r)) named ⟨flat, isTypedef.symm⟩
    (isTypedef.trans typedef) (tokens.symm.trans definitionEnding_tokens.symm) read
  obtain ⟨mem', run', owned'⟩ := tryParseDerivedStructBody_spec owned run
  refine ⟨⟨lex', mem'⟩, ?_, ?_, read.current.token, rest⟩
  · rw [tokens, List.cons_append, StbLexer.atHead, run']
  · have metadata := owned'.readTokens
    rw [show v.metadata ++ body.map Token.value = body.map Token.value by rw [fresh, List.nil_append]] at metadata
    exact metadata

/-- Where one definition is read as another, bodies of one length are the same. -/
theorem definitionTokens_body {k' : Keyword} {e : Ending} {body' r' : List Token} {typeName' : Option Ident}
    (defined : e.declaration = .defined k' body' typeName') (length : body'.length = body.length)
    (same : definitionTokens k name body typeName ++ r = e.tokens name ++ r') : body' = body := by
  obtain ⟨typedef?, d⟩ := e
  obtain rfl : d = _ := defined
  cases typeName with
  | none =>
    cases typedef? with
    | none =>
      simp only [definitionTokens, Ending.tokens, Declaration.tokens, Option.isSome_none, Bool.false_eq_true,
        if_false, List.nil_append, Option.toList_none, List.cons_append, List.append_assoc, List.cons.injEq,
        true_and] at same
      exact (List.append_inj_left same.2 length.symm).symm
    | some t => simp [definitionTokens, Ending.tokens, Declaration.tokens] at same
  | some typeName =>
    cases typedef? with
    | none => simp [definitionTokens, Ending.tokens, Declaration.tokens] at same
    | some t =>
      simp only [definitionTokens, Ending.tokens, Declaration.tokens, Option.isSome_some, if_true,
        List.nil_append, Option.toList_some, List.cons_append, List.append_assoc, List.cons.injEq,
        true_and] at same
      exact (List.append_inj_left same.2.2 length.symm).symm

/-- A call reads the end of an extent, or stops at an assertion. -/
theorem tryParseDerivedStructBody_reads {lex : StbLexer} {z : Token} (current : Current lex z)
    (named : v.structName = name.text) :
    Exec.Wp AssertionOnly (Values.tryParseDerivedStructBody .assertions v) lex fun b lex' =>
      ∃ (e : Ending) (ts : List Token), z :: ts = e.tokens name ∧ Reads lex ts lex' ∧
        b = e.declaration.outcome v ∧ e.declaration.Ok name e.typedef?.isSome :=
  tryParseDerivedStructBody_wp current named fun e ts _ tokens read _ ok => ⟨e, ts, tokens, read, rfl, ok⟩

/-- A body that was read whole has no `}`. -/
theorem flat_of_delimits (lex : StbLexer) (owned : StructOwned m₀ f s num v mem) (named : v.structName = name.text)
    (fresh : v.metadata = [])
    (whole : Delimits s ⟨lex.atHead (definitionTokens k name body typeName ++ r), mem⟩ body r) :
    .char rbrace ∉ body := by
  obtain ⟨w, ts, tokens, -⟩ := @definitionTokens_ends name k body typeName
  obtain ⟨⟨lex', mem'⟩, run, metadata, -, rest⟩ := whole
  rw [tokens, List.cons_append, StbLexer.atHead] at run
  simp only at metadata rest
  cases values : Values.tryParseDerivedStructBody .assertions v
      (lex.fetched (.id w) (ts ++ [.char semicolon] ++ r)) with
  | error e =>
    rw [tryParseDerivedStructBody_fault owned values] at run
    cases run
  | ok p =>
    obtain ⟨⟨ret, v'⟩, lex''⟩ := p
    obtain ⟨mem'', run', owned'⟩ := tryParseDerivedStructBody_spec owned values
    rw [run'] at run
    cases run
    obtain ⟨e, us, here, read, result, ok⟩ :=
      (tryParseDerivedStructBody_reads (fetched_current lex _ _) named).of_ok values
    cases declaration : e.declaration with
    | undeclared t =>
      rw [declaration] at result
      cases result
    | otherName k' found =>
      rw [declaration] at result
      cases result
    | defined k' body' typeName' =>
      rw [declaration] at result ok
      obtain ⟨-, rfl⟩ := Prod.mk.inj result
      have metadata' : readTokens s.addr mem' = .ok (v.metadata ++ body'.map Token.value, mem') := owned'.readTokens
      rw [metadata', fresh, List.nil_append] at metadata
      have length : body'.length = body.length := by
        simpa using congrArg List.length (Prod.mk.inj (Except.ok.inj metadata)).1
      have stream : definitionTokens k name body typeName ++ r = e.tokens name ++ lex'.rest := by
        rw [tokens, ← here, List.cons_append, List.cons_append, ← read.rest]
        rfl
      rw [← definitionTokens_body declaration length stream]
      exact ok.1

end Bodies

/-- On a definition with balanced braces the call reads the whole body exactly when the
body opens no brace of its own. The struct is the one that `parse_derived_struct` has made
so far, named like the definition and without tokens. -/
theorem body_delimited_iff {m₀ mem : Mem} {f : Footprint} {s : StructAt} {num : Nat} {v : DerivedStruct}
    (owned : StructOwned m₀ f s num v mem) (name : Ident) (named : v.structName = name.text)
    (fresh : v.metadata = []) (k : Keyword) (body r : List Token) (balanced : Balanced body)
    (typeName : Option Ident) (lex : StbLexer) :
    Delimits s ⟨lex.atHead (definitionTokens k name body typeName ++ r), mem⟩ body r ↔ .char lbrace ∉ body := by
  rw [balanced.flat_iff]
  exact ⟨flat_of_delimits lex owned named fresh, delimits_of_flat lex owned named fresh⟩

/-- `struct { a; } a;` -/
def innerStruct : List Token :=
  .id structWord :: .char lbrace :: ([.id wordA, .char semicolon] ++ .char rbrace :: [.id wordA, .char semicolon])

theorem innerStruct_balanced : Balanced innerStruct :=
  .plain _ _ (by decide) (by decide)
    (.braces _ _ (.plain _ _ (by decide) (by decide) (.plain _ _ (by decide) (by decide) .nil))
      (.plain _ _ (by decide) (by decide) (.plain _ _ (by decide) (by decide) .nil)))

/-- The theorem at the definition `struct a { struct { a; } a; };`. -/
theorem body_delimited_iff_innerStruct :
    ∃ s mem, moeDerivedStructAlloc wordA.text moeProcMacroMaxDeriveItemNum Mem.empty = .ok (s.addr, mem) ∧
      (Delimits s ⟨(StbLexer.start []).atHead (definitionTokens .struct wordA innerStruct none ++ []), mem⟩
        innerStruct [] ↔ .char lbrace ∉ innerStruct) := by
  obtain ⟨s, mem, alloc, owned⟩ := moeDerivedStructAlloc_owns (owns_refl Mem.empty) wordA.text
  exact ⟨s, mem, alloc, body_delimited_iff owned wordA (cString_text wordA) rfl .struct innerStruct []
    innerStruct_balanced none (.start [])⟩

/-- The braces of that definition are balanced, and the parser stops at an assertion: it
expects `;` after the inner `}`. -/
theorem innerStruct_stops :
    Balanced innerStruct ∧ ∃ (s : StructAt) (mem : Mem),
      moeDerivedStructAlloc wordA.text moeProcMacroMaxDeriveItemNum Mem.empty = .ok (s.addr, mem) ∧
      tryParseDerivedStructBody .assertions (some s.name.handle) s.addr
        ⟨(StbLexer.start []).atHead (definitionTokens .struct wordA innerStruct none), mem⟩ = .error .assertFailed := by
  obtain ⟨s, mem, alloc, owned⟩ := moeDerivedStructAlloc_owns (owns_refl Mem.empty) wordA.text
  refine ⟨innerStruct_balanced, s, mem, alloc, ?_⟩
  have stops : (Values.tryParseDerivedStructBody .assertions ⟨cString wordA.text, [], []⟩
      ((StbLexer.start []).atHead (definitionTokens .struct wordA innerStruct none))).isOk = false := by
    decide +kernel
  cases values : Values.tryParseDerivedStructBody .assertions ⟨cString wordA.text, [], []⟩
      ((StbLexer.start []).atHead (definitionTokens .struct wordA innerStruct none)) with
  | ok b =>
    rw [values] at stops
    cases stops
  | error e =>
    have assertion : e = .assertFailed :=
      (@tryParseDerivedStructBody_reads _ wordA _ _ (fetched_current _ _ _) (cString_text wordA)).of_error values
    rw [tryParseDerivedStructBody_fault owned values, assertion]

end MoeToolchain
