import MoeToolchain.ProcMacro.Parser
import MoeToolchain.ProcMacro.TypesOwnership

/-!
# The parser without its memory

`Values.parseDerivedStruct` is the parser with a value of type `DerivedStruct` in the
place of the heap object it builds. It says what the parser is for; the theorem
`parseDerivedStruct_refines` says that the parser of the source does the same on a
memory it leaves balanced: it stops exactly where the value parser stops, a returned
pointer owns the blocks of the returned value, and `NULL` owns nothing.
-/

namespace MoeToolchain
set_option autoImplicit false
open Lib

namespace Values

def parseDeriveItem (build : Build) (v : DerivedStruct) : C StbLexer DerivedStruct := do
  moeExpectNextToken build clexId
  let lex ← get
  argsLoop build (loopFuel lex)
  pure { v with handlers := v.handlers ++ [cString lex.string] }

def tryParseDerive (build : Build) (v : DerivedStruct) : C StbLexer (Int × DerivedStruct) := do
  let lex ← get
  if lex.token ≠ clexId ∨ ¬ strEq lex.string moeProcMacroDerivesMacroName then pure (0, v)
  else do
    moeExpectNextToken build lparen
    moeExpectNextToken build clexId
    let lex ← get
    if ¬ strEq (cString v.structName) lex.string then pure (-1, v)
    else do
      moeExpectNextToken build comma
      let v ← parseDeriveItem build v
      nextPastSemicolon build
      pure (1, v)

def deriveLoop (build : Build) : Nat → DerivedStruct → C StbLexer DerivedStruct
  | 0, _ => Exec.fault .outOfFuel
  | fuel + 1, v =>
    if v.handlers.length < moeProcMacroMaxDeriveItemNum then do
      let (ret, v) ← tryParseDerive build v
      if ret = 1 then deriveLoop build fuel v
      else if ret = 0 then pure v
      else deriveLoop build fuel v
    else pure v

/-- The value of the token object for the lexer's current token. The bytes copied are
inside the lexer's string unless `stringLen` is wrong. -/
def bodyToken (lex : StbLexer) : C StbLexer TokenValue :=
  if lex.token = clexId ∨ lex.token = clexSqstring ∨ lex.token = clexDqstring then
    match stringContent (some lex.string) lex.stringLen with
    | none => Exec.fault .outOfBounds
    | some text => pure (if lex.token = clexId then .identifier text else .stringLiteral text)
  else if lex.token = clexIntlit then pure (.intLiteral (intOfLong lex.intNumber))
  else if lex.token = clexFloatlit then pure (.floatLiteral (floatOfDouble lex.realNumber))
  else pure (.punctuation (charOfLong lex.token))

def bodyLoop (build : Build) : Nat → DerivedStruct → C StbLexer DerivedStruct
  | 0, _ => Exec.fault .outOfFuel
  | fuel + 1, v => do
    moeNextToken build
    let lex ← get
    if lex.token = rbrace then pure v
    else do
      let token ← bodyToken lex
      bodyLoop build fuel { v with metadata := v.metadata ++ [token] }

/-- The declaration after a `typedef`, if there was one. -/
def parseDeclaration (build : Build) (v : DerivedStruct) (isTypedef : Bool) :
    C StbLexer (Int × DerivedStruct) := do
  let lex ← get
  if lex.token ≠ clexId ∨ (¬ strEq lex.string (bytesOf "struct") ∧ ¬ strEq lex.string (bytesOf "enum")) then
    pure (0, v)
  else do
    moeExpectNextToken build clexId
    let lex ← get
    if ¬ strEq (cString v.structName) lex.string then pure (-1, v)
    else do
      moeExpectNextToken build lbrace
      let lex ← get
      let v ← bodyLoop build (loopFuel lex) v
      declarationEnd build isTypedef
      pure (1, v)

def tryParseDerivedStructBody (build : Build) (v : DerivedStruct) :
    C StbLexer (Int × DerivedStruct) := do
  let isTypedef ← typedefKeyword build
  parseDeclaration build v isTypedef

def parseFirstDerive (build : Build) : C StbLexer DerivedStruct := do
  moeExpectNextToken build lparen
  moeExpectNextToken build clexId
  let lex ← get
  moeExpectNextToken build comma
  let v ← parseDeriveItem build ⟨cString lex.string, [], []⟩
  nextPastSemicolon build
  pure v

def parseDerivedStruct (build : Build) : C StbLexer (Option DerivedStruct) := do
  let lex ← get
  if lex.token ≠ clexId then pure none
  else if ¬ strEq lex.string moeProcMacroDerivesMacroName ∧
      ¬ strEq lex.string moeProcMacroDerivesEnumMacroName then pure none
  else do
    let v ← parseFirstDerive build
    let lex ← get
    let v ← deriveLoop build (loopFuel lex) v
    let (result, v) ← tryParseDerivedStructBody build v
    if result = 0 ∨ result = -1 then pure none else pure (some v)

end Values

/-! ## The simulation -/

/-- The lexer is the same, and the memory satisfies `I`. -/
def Alongside (I : Mem → Prop) (s : St) (lex : StbLexer) : Prop := s.lex = lex ∧ I s.mem

section Simulation

variable {α β γ δ : Type} {I : Mem → Prop} {m₀ : Mem} {f : Footprint} {s : StructAt} {num : Nat}
  {v : DerivedStruct} {build : Build}

/-- The lexer's own steps are the same on both sides. -/
theorem onLex_refines (x : C StbLexer α) :
    Refines (Alongside I) (onLex x) x (fun a b s t => a = b ∧ Alongside I s t) := by
  intro s t at_
  obtain ⟨rfl, inv⟩ := at_
  cases run : x s.lex with
  | error e => exact Exec.zoom_error run
  | ok r =>
    obtain ⟨a, t⟩ := r
    exact ⟨a, _, Exec.zoom_ok run, rfl, rfl, inv⟩

theorem onLex_bind {x : C StbLexer α} {g : α → C St γ} {h : α → C StbLexer δ}
    {post : γ → δ → St → StbLexer → Prop}
    (rest : ∀ a, Refines (Alongside I) (g a) (h a) post) :
    Refines (Alongside I) (onLex x >>= g) (x >>= h) post := by
  apply Refines.bind (onLex_refines x)
  intro a b s t both
  obtain ⟨rfl, at_⟩ := both
  exact rest a s t at_

/-- A read of the memory whose result is known. -/
theorem onMem_read {x : C Mem α} {a : α} {g : α → C St γ} {y : C StbLexer δ}
    {post : γ → δ → St → StbLexer → Prop} (read : ∀ m, I m → x m = .ok (a, m))
    (rest : Refines (Alongside I) (g a) y post) : Refines (Alongside I) (onMem x >>= g) y post := by
  intro s t at_
  have run : onMem x s = .ok (a, s) := Exec.zoom_ok (read s.mem at_.2)
  rw [Exec.bind_ok run]
  exact rest s t at_

/-- A step on the memory alone. -/
theorem onMem_bind {x : C Mem α} {g : α → C St γ} {y : C StbLexer δ}
    {J : α → Mem → Prop} {post : γ → δ → St → StbLexer → Prop}
    (step : ∀ m, I m → ∃ a m', x m = .ok (a, m') ∧ J a m')
    (rest : ∀ a, Refines (Alongside (J a)) (g a) y post) :
    Refines (Alongside I) (onMem x >>= g) y post := by
  have both : ∀ s t, Alongside I s t → ∃ a s', onMem x s = .ok (a, s') ∧ Alongside (J a) s' t := by
    intro s t at_
    obtain ⟨same, inv⟩ := at_
    obtain ⟨a, m', run, after⟩ := step s.mem inv
    exact ⟨a, _, Exec.zoom_ok run, same, after⟩
  exact Refines.step both rest

theorem parseDeriveItem_refines (room : v.handlers.length < moeProcMacroMaxDeriveItemNum) :
    Refines (Alongside (StructOwned m₀ f s num v)) (parseDeriveItem build ⟨s.items, v.handlers.length⟩)
      (Values.parseDeriveItem build v)
      (fun _ v' st lex => v'.structName = v.structName ∧ v'.handlers.length = v.handlers.length + 1 ∧
        Alongside (StructOwned m₀ f s num v') st lex) := by
  unfold parseDeriveItem Values.parseDeriveItem
  apply onLex_bind
  intro _
  apply onLex_bind
  intro lex
  apply onMem_bind (J := fun _ => StructOwned m₀ f s num { v with handlers := v.handlers ++ [cString lex.string] })
  · intro m owned
    obtain ⟨m', run, after⟩ := moeDeriveItemCreate_owns owned room lex.string
    exact ⟨(), m', run, after⟩
  intro _
  rw [← bind_pure (onLex (argsLoop build (loopFuel lex)))]
  apply onLex_bind
  intro _
  apply Refines.pure
  intro st lex' at_
  exact ⟨rfl, by simp, at_⟩

theorem tryParseDerive_refines (room : v.handlers.length < moeProcMacroMaxDeriveItemNum) :
    Refines (Alongside (StructOwned m₀ f s num v))
      (tryParseDerive build (some s.name.handle) ⟨s.items, v.handlers.length⟩)
      (Values.tryParseDerive build v)
      (fun a b st lex => a = b.1 ∧ b.2.structName = v.structName ∧
        b.2.handlers.length = v.handlers.length + (if b.1 = 1 then 1 else 0) ∧
        Alongside (StructOwned m₀ f s num b.2) st lex) := by
  unfold tryParseDerive Values.tryParseDerive
  apply onLex_bind
  intro lex
  apply Refines.ite
  · intro _
    exact Refines.pure fun st lex' at_ => ⟨rfl, rfl, rfl, at_⟩
  intro _
  apply onLex_bind
  intro _
  apply onLex_bind
  intro _
  apply onMem_read fun m owned => owned.readName
  apply onLex_bind
  intro lex'
  apply Refines.ite
  · intro _
    apply onMem_read fun m owned => owned.readName
    exact Refines.pure fun st lex' at_ => ⟨rfl, rfl, rfl, at_⟩
  intro _
  apply onLex_bind
  intro _
  apply Refines.bind (parseDeriveItem_refines room)
  intro _ v'
  apply Refines.assume fun st lex'' at_ => And.intro at_.1 at_.2.1
  intro facts
  apply Refines.conseq _ (fun st lex'' at_ => at_.2.2) (fun a b st lex'' post => post)
  apply onLex_bind
  intro _
  exact Refines.pure fun st lex'' at_ => ⟨rfl, facts.1, by simpa using facts.2, at_⟩

theorem deriveLoop_refines (fuel : Nat) : ∀ {v : DerivedStruct},
    Refines (Alongside (StructOwned m₀ f s num v))
      (deriveLoop build (some s.name.handle) s.items fuel v.handlers.length)
      (Values.deriveLoop build fuel v)
      (fun a b st lex => a = b.handlers.length ∧ b.structName = v.structName ∧
        Alongside (StructOwned m₀ f s num b) st lex) := by
  induction fuel with
  | zero =>
    intro v
    exact Refines.fault Fault.outOfFuel
  | succ fuel ih =>
    intro v
    unfold deriveLoop Values.deriveLoop
    apply Refines.ite
    · intro room
      apply Refines.bind (tryParseDerive_refines room)
      intro ret b
      obtain ⟨ret', v'⟩ := b
      apply Refines.assume fun st lex at_ => And.intro at_.1 (And.intro at_.2.1 at_.2.2.1)
      intro facts
      obtain ⟨rfl, name, count⟩ := facts
      apply Refines.conseq _ (fun st lex at_ => at_.2.2.2) (fun a b st lex post => post)
      apply Refines.ite
      · intro one
        rw [if_pos one] at count
        rw [← count]
        exact Refines.conseq ih (fun _ _ at_ => at_) (fun _ _ _ _ post => ⟨post.1, post.2.1.trans name, post.2.2⟩)
      intro other
      rw [if_neg other] at count
      apply Refines.ite
      · intro _
        exact Refines.pure fun st lex at_ => ⟨count.symm, name, at_⟩
      · intro _
        have again := ih (v := v')
        rw [count] at again
        exact Refines.conseq again (fun _ _ at_ => at_)
          (fun _ _ _ _ post => ⟨post.1, post.2.1.trans name, post.2.2⟩)
    · intro _
      exact Refines.pure fun st lex at_ => ⟨rfl, rfl, at_⟩

/-- The token object holds the token value, and is not made where there is none. -/
theorem createBodyToken_owns {m : Mem} (owned : StructOwned m₀ f s num v m) (lex t : StbLexer) :
    match Values.bodyToken lex t with
    | .error e => createBodyToken lex m = .error e
    | .ok (value, t') => t' = t ∧ ∃ p m', createBodyToken lex m = .ok (TokenAt.token p, m') ∧
        StructOwned m₀ (tokenBlocks p value + f) s num v m' := by
  have place : ∀ {value : TokenValue} {x : C Mem Addr},
      (∀ {f'}, Owns m₀ m f' → ∃ p m', x m = .ok (TokenAt.token p, m') ∧
        Owns m₀ m' (tokenBlocks p value + f')) →
      ∃ p m', x m = .ok (TokenAt.token p, m') ∧ StructOwned m₀ (tokenBlocks p value + f) s num v m' := by
    intro value x step
    obtain ⟨l, rep, owns⟩ := owned
    obtain ⟨p, m', run, owns'⟩ := step owns
    refine ⟨p, m', run, l, rep, ?_⟩
    rwa [add_left_comm]
  unfold Values.bodyToken createBodyToken
  by_cases text : lex.token = clexId ∨ lex.token = clexSqstring ∨ lex.token = clexDqstring
  · rw [if_pos text]
    cases content : stringContent (some lex.string) lex.stringLen with
    | none =>
      have short : ∀ type, moeTokenCreateText type lex.string lex.stringLen m = .error .outOfBounds := by
        intro type
        have alloc : ∃ a m', moeMalloc .uninit m = .ok (a, m') := ⟨_, _, rfl⟩
        obtain ⟨a, m', run⟩ := alloc
        rw [moeTokenCreateText, Exec.bind_ok run, Exec.bind_error (moeStringAlloc_short content m')]
      by_cases id : lex.token = clexId
      · rw [if_pos id]
        exact short .identifier
      · rw [if_neg id, if_pos (text.resolve_left id)]
        exact short .stringLiteral
    | some c =>
      by_cases id : lex.token = clexId
      · simp only [if_pos id]
        exact ⟨rfl, place fun owns => moeTokenCreateText_owns owns content (fun _ => rfl) rfl⟩
      · simp only [if_neg id, if_pos (text.resolve_left id)]
        exact ⟨rfl, place fun owns => moeTokenCreateText_owns owns content (fun _ => rfl) rfl⟩
  · rw [if_neg text, if_neg (fun id => text (Or.inl id)), if_neg (fun lit => text (Or.inr lit))]
    by_cases int : lex.token = clexIntlit
    · simp only [if_pos int]
      exact ⟨rfl, place fun owns => moeTokenCreateScalar_owns owns (fun _ => rfl) rfl⟩
    · simp only [if_neg int]
      by_cases float : lex.token = clexFloatlit
      · simp only [if_pos float]
        exact ⟨rfl, place fun owns => moeTokenCreateScalar_owns owns (fun _ => rfl) rfl⟩
      · simp only [if_neg float]
        exact ⟨rfl, place fun owns => moeTokenCreateScalar_owns owns (fun _ => rfl) rfl⟩

theorem bodyLoop_refines (fuel : Nat) : ∀ {v : DerivedStruct},
    Refines (Alongside (StructOwned m₀ f s num v)) (bodyLoop build s.addr fuel)
      (Values.bodyLoop build fuel v)
      (fun _ b st lex => b.structName = v.structName ∧ b.handlers = v.handlers ∧
        Alongside (StructOwned m₀ f s num b) st lex) := by
  induction fuel with
  | zero =>
    intro v
    exact Refines.fault Fault.outOfFuel
  | succ fuel ih =>
    intro v
    unfold bodyLoop Values.bodyLoop
    apply onLex_bind
    intro _
    apply onLex_bind
    intro lex
    apply Refines.ite
    · intro _
      exact Refines.pure fun st lex at_ => ⟨rfl, rfl, at_⟩
    intro _ st t at_
    -- one token: the object is made and linked in, or both sides stop
    obtain ⟨rfl, owned⟩ := at_
    have made := createBodyToken_owns owned lex st.lex
    rw [Exec.bind_apply]
    cases token : Values.bodyToken lex st.lex with
    | error e =>
      rw [token] at made
      exact Exec.bind_error (Exec.zoom_error made)
    | ok r =>
      obtain ⟨value, t'⟩ := r
      rw [token] at made
      obtain ⟨rfl, p, m', run, owned'⟩ := made
      obtain ⟨m'', run', owned''⟩ := moeDeriveStructMetadataAddToken_owns owned'
      have create : onMem (createBodyToken lex) st = .ok (p.token, { st with mem := m' }) :=
        Exec.zoom_ok run
      have add : onMem (moeDeriveStructMetadataAddToken (some s.addr) p.token) { st with mem := m' } =
          .ok ((), { st with mem := m'' }) := Exec.zoom_ok run'
      rw [Exec.bind_ok create, Exec.bind_ok add]
      exact ih { st with mem := m'' } st.lex ⟨rfl, owned''⟩

theorem tryParseDerivedStructBody_refines :
    Refines (Alongside (StructOwned m₀ f s num v))
      (tryParseDerivedStructBody build (some s.name.handle) s.addr)
      (Values.tryParseDerivedStructBody build v)
      (fun a b st lex => a = b.1 ∧ b.2.structName = v.structName ∧ b.2.handlers = v.handlers ∧
        Alongside (StructOwned m₀ f s num b.2) st lex) := by
  unfold tryParseDerivedStructBody Values.tryParseDerivedStructBody Values.parseDeclaration
  apply onLex_bind
  intro isTypedef
  apply onLex_bind
  intro lex'
  apply Refines.ite
  · intro _
    exact Refines.pure fun st lex at_ => ⟨rfl, rfl, rfl, at_⟩
  intro _
  apply onLex_bind
  intro _
  apply onMem_read fun m owned => owned.readName
  apply onLex_bind
  intro lex''
  apply Refines.ite
  · intro _
    apply onMem_read fun m owned => owned.readName
    exact Refines.pure fun st lex at_ => ⟨rfl, rfl, rfl, at_⟩
  intro _
  apply onLex_bind
  intro _
  apply onLex_bind
  intro start
  apply Refines.bind (bodyLoop_refines _)
  intro _ v'
  apply Refines.assume fun st lex at_ => And.intro at_.1 at_.2.1
  intro facts
  apply Refines.conseq _ (fun st lex at_ => at_.2.2) (fun a b st lex post => post)
  apply onLex_bind
  intro _
  exact Refines.pure fun st lex at_ => ⟨rfl, facts.1, facts.2, at_⟩

/-- The first derive item comes with the struct itself. -/
theorem parseFirstDerive_refines :
    Refines (Alongside (Owns m₀ · f)) (parseFirstDerive build) (Values.parseFirstDerive build)
      (fun p v st lex => ∃ s : StructAt, (p.1 = s.addr ∧ p.2.structName = some s.name.handle ∧
        p.2.deriveItems = s.items ∧ v.handlers.length = 1) ∧
        Alongside (StructOwned m₀ f s moeProcMacroMaxDeriveItemNum v) st lex) := by
  unfold parseFirstDerive Values.parseFirstDerive
  apply onLex_bind
  intro _
  apply onLex_bind
  intro _
  apply onLex_bind
  intro lex
  apply onMem_bind (J := fun a m => ∃ s : StructAt, a = s.addr ∧
    StructOwned m₀ f s moeProcMacroMaxDeriveItemNum ⟨cString lex.string, [], []⟩ m)
  · intro m owned
    obtain ⟨s, m', run, after⟩ := moeDerivedStructAlloc_owns owned lex.string
    exact ⟨s.addr, m', run, s, rfl, after⟩
  intro a
  apply onMem_bind (J := fun d m => ∃ s : StructAt, (a = s.addr ∧ d.structName = some s.name.handle ∧
    d.deriveItems = s.items) ∧
    StructOwned m₀ f s moeProcMacroMaxDeriveItemNum ⟨cString lex.string, [], []⟩ m)
  · intro m owned
    obtain ⟨s, rfl, owned⟩ := owned
    obtain ⟨node, read⟩ := owned.load
    exact ⟨_, m, read, s, ⟨rfl, rfl, rfl⟩, owned⟩
  intro d
  apply onLex_bind
  intro _
  have known : ∀ st lex', Alongside (fun m => ∃ s : StructAt, (a = s.addr ∧
      d.structName = some s.name.handle ∧ d.deriveItems = s.items) ∧
      StructOwned m₀ f s moeProcMacroMaxDeriveItemNum ⟨cString lex.string, [], []⟩ m) st lex' →
      ∃ s : StructAt, (a = s.addr ∧ d.structName = some s.name.handle ∧ d.deriveItems = s.items) ∧
        Alongside (StructOwned m₀ f s moeProcMacroMaxDeriveItemNum ⟨cString lex.string, [], []⟩) st lex' := by
    intro st lex' at_
    obtain ⟨same, s, facts, owned⟩ := at_
    exact ⟨s, facts, same, owned⟩
  refine Refines.conseq ?_ known (fun a b st lex post => post)
  apply Refines.choose
  intro s
  apply Refines.assume fun st lex at_ => at_.1
  intro facts
  obtain ⟨rfl, name, items⟩ := facts
  apply Refines.conseq _ (fun st lex at_ => at_.2) (fun a b st lex post => post)
  rw [items]
  apply Refines.bind (parseDeriveItem_refines (v := ⟨cString lex.string, [], []⟩) (Nat.zero_lt_succ 7))
  intro _ v
  apply Refines.assume fun st lex at_ => And.intro at_.1 at_.2.1
  intro facts
  apply Refines.conseq _ (fun st lex at_ => at_.2.2) (fun a b st lex post => post)
  apply onLex_bind
  intro _
  exact Refines.pure fun st lex at_ => ⟨s, ⟨rfl, name, items, facts.2⟩, at_⟩

/-- The parser of the source does what the value parser does. A pointer it returns owns
the blocks of the value, and `NULL` leaves the memory with the blocks it had. -/
theorem parseDerivedStruct_refines (build : Build) :
    Refines (Alongside (Owns m₀ · f)) (parseDerivedStruct build) (Values.parseDerivedStruct build)
      (fun p v st lex => st.lex = lex ∧ match v with
        | none => p = none ∧ Owns m₀ st.mem f
        | some v => ∃ s : StructAt, p = some s.addr ∧ StructOwned m₀ f s v.handlers.length v st.mem) := by
  unfold parseDerivedStruct Values.parseDerivedStruct
  apply onLex_bind
  intro lex
  apply Refines.ite
  · intro _
    exact Refines.pure fun st lex at_ => ⟨at_.1, rfl, at_.2⟩
  intro _
  apply Refines.ite
  · intro _
    exact Refines.pure fun st lex at_ => ⟨at_.1, rfl, at_.2⟩
  intro _
  apply Refines.bind parseFirstDerive_refines
  intro p v
  obtain ⟨a, d⟩ := p
  apply Refines.choose
  intro s
  apply Refines.assume fun st lex at_ => at_.1
  intro facts
  obtain ⟨rfl, name, items, one⟩ := facts
  apply Refines.conseq _ (fun st lex at_ => at_.2) (fun a b st lex post => post)
  apply onLex_bind
  intro lex'
  rw [name, items, ← one]
  apply Refines.bind (deriveLoop_refines _)
  intro count v'
  apply Refines.assume fun st lex at_ => And.intro at_.1 at_.2.1
  intro facts
  obtain ⟨rfl, -⟩ := facts
  apply Refines.conseq _ (fun st lex at_ => at_.2.2) (fun a b st lex post => post)
  apply onMem_bind (J := fun _ => StructOwned m₀ f s v'.handlers.length v')
  · intro m owned
    obtain ⟨m', run, after⟩ := setDeriveItemNum_owns owned v'.handlers.length
    exact ⟨(), m', run, after⟩
  intro _
  apply Refines.bind tryParseDerivedStructBody_refines
  intro result b
  obtain ⟨result', v''⟩ := b
  apply Refines.assume fun st lex at_ => And.intro at_.1 at_.2.2.1
  intro facts
  obtain ⟨rfl, handlers⟩ := facts
  simp only at handlers
  rw [← handlers]
  apply Refines.conseq _ (fun st lex at_ => at_.2.2.2) (fun a b st lex post => post)
  apply Refines.ite
  · intro _
    apply onMem_read fun m owned => owned.readName
    apply onMem_bind (J := fun _ m => Owns m₀ m f)
    · intro m owned
      obtain ⟨m', run, after⟩ := moeDerivedStructFree_owns owned
      exact ⟨(), m', run, after⟩
    intro _
    exact Refines.pure fun st lex at_ => ⟨at_.1, rfl, at_.2⟩
  · intro _
    exact Refines.pure fun st lex at_ => ⟨at_.1, s, rfl, at_.2⟩

end Simulation

end MoeToolchain
