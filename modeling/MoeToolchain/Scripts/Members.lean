import MoeToolchain.Scripts.NamedTypes

/-!
# The scan of the fields and C's declarators

A `MemberDecl` is a declaration as C has it: qualifiers on both sides of the base type, and
any number of declarators, each an identifier or a function pointer under any number of
qualified stars. The scan goes by pattern: `fields_eq_members_iff` says for which
declarations it finds the members.
-/

namespace MoeToolchain
set_option autoImplicit false

/-! ## Declarations -/

inductive Qualifier
  | const
  | volatile
  | restrict
  | atomic
deriving DecidableEq, Repr

def Qualifier.word : Qualifier → Ident
  | const => ⟨bytesOf "const", by decide, by decide⟩
  | volatile => ⟨bytesOf "volatile", by decide, by decide⟩
  | restrict => ⟨bytesOf "restrict", by decide, by decide⟩
  | atomic => ⟨bytesOf "_Atomic", by decide, by decide⟩

def qualifierTokens (qs : List Qualifier) : List Token := qs.map fun q => .id q.word

/-- A star and its qualifiers. -/
def pointerTokens (qs : List Qualifier) : List Token := .char star :: qualifierTokens qs

/-- Each pointer is the list of its qualifiers. In `T **(*name)(params)` the star before the
name has its own, and there may be more of them. -/
inductive Declarator
  | plain (pointers : List (List Qualifier)) (name : Ident)
  | function (pointers : List (List Qualifier)) (star : List Qualifier) (stars : List (List Qualifier)) (name : Ident)
    (params : List Token)
deriving DecidableEq, Repr

def Declarator.pointers : Declarator → List (List Qualifier)
  | plain pointers _ => pointers
  | function pointers .. => pointers

/-- What follows the pointers. -/
def Declarator.direct : Declarator → List Token
  | plain _ name => [.id name]
  | function _ star stars name params =>
    .char lparen :: ((star :: stars).flatMap pointerTokens ++ .id name :: .char rparen :: .char lparen ::
      (params ++ [.char rparen]))

def Declarator.tokens (f : Declarator) : List Token := f.pointers.flatMap pointerTokens ++ f.direct

structure MemberDecl where
  before : List Qualifier
  type : BaseType
  after : List Qualifier
  first : Declarator
  others : List Declarator
deriving DecidableEq, Repr

def MemberDecl.specifiers (d : MemberDecl) : List Token :=
  qualifierTokens d.before ++ d.type.tokens ++ qualifierTokens d.after

/-- The declarators after the first, and the `;`. -/
def declaratorsAfter : List Declarator → List Token
  | [] => [.char semicolon]
  | f :: fs => .char comma :: (f.tokens ++ declaratorsAfter fs)

def MemberDecl.tokens (d : MemberDecl) : List Token := d.specifiers ++ d.first.tokens ++ declaratorsAfter d.others

/-! ## The members -/

/-- The member that a declarator at the index `i` declares, next to the index of its name, if its
type is the base type or a pointer to it. -/
def Declarator.member (type : BaseType) (i : Nat) : Declarator → List (Nat × Field)
  | plain pointers name =>
    [(i + (pointers.flatMap pointerTokens).length, ⟨type.fieldType, name.text, pointers.length⟩)]
  | function .. => []

/-- The members of the declarators after the first; `i` is the index of the first comma. -/
def membersAfter (type : BaseType) : Nat → List Declarator → List (Nat × Field)
  | _, [] => []
  | i, f :: fs => f.member type (i + 1) ++ membersAfter type (i + 1 + f.tokens.length) fs

def MemberDecl.members (i : Nat) (d : MemberDecl) : List (Nat × Field) :=
  d.first.member d.type (i + d.specifiers.length) ++
    membersAfter d.type (i + (d.specifiers ++ d.first.tokens).length) d.others

/-- The members of a struct whose body begins at the index `i`. -/
def membersFrom : Nat → List MemberDecl → List (Nat × Field)
  | _, [] => []
  | i, d :: ds => d.members i ++ membersFrom (i + d.tokens.length) ds

/-! ## Declarations that the scan understands -/

def Declarator.IsFunction : Declarator → Prop
  | plain .. => False
  | function .. => True

/-- Among the parameters, no type has a name. -/
def Declarator.UnnamedParams : Declarator → Prop
  | plain .. => True
  | function _ _ _ _ params => ¬ NamesType params

structure MemberDecl.Simple (d : MemberDecl) : Prop where
  after : d.after = []
  pointers : ∀ qs ∈ d.first.pointers, qs = []
  others : ∀ f ∈ d.others, f.IsFunction
  params : ∀ f ∈ d.first :: d.others, f.UnnamedParams

/-! ## The scan of a declaration -/

section Declaration

variable {i : Nat} {rest : List JsToken}

/-- A token that is no type. -/
def Token.Quiet (t : Token) : Prop := ∀ rest, fieldAt t.object rest = (none, 0)

theorem quiet_of_ident? {t : Token} (other : t.ident? = none) : t.Quiet := by
  intro rest
  rw [fieldAt, Token.identifier?_object, other]
  rfl

theorem quiet_qualifier (q : Qualifier) : Token.Quiet (.id q.word) := by
  intro rest
  rw [fieldAt, Token.identifier?_object]
  cases q <;> simp +decide [Token.ident?, Qualifier.word, typeAt]

theorem quiet_pointers {ps : List (List Qualifier)} : ∀ t ∈ ps.flatMap pointerTokens, t.Quiet := by
  intro t mem
  obtain ⟨qs, -, mem⟩ := List.mem_flatMap.mp mem
  obtain rfl | mem := List.mem_cons.mp mem
  · exact quiet_of_ident? rfl
  · obtain ⟨q, -, rfl⟩ := List.mem_map.mp mem
    exact quiet_qualifier q

theorem scanFrom_quiet (ts : List Token) : ∀ {i : Nat}, (∀ t ∈ ts, t.Quiet) →
    scanFrom i 0 (scriptTokens ts ++ rest) = scanFrom (i + ts.length) 0 rest := by
  induction ts with
  | nil => exact fun _ => rfl
  | cons t ts ih =>
    intro i quiet
    show (fieldAt t.object (scriptTokens ts ++ rest)).1.toList.map _ ++
      scanFrom (i + 1) (fieldAt t.object (scriptTokens ts ++ rest)).2 (scriptTokens ts ++ rest) = _
    rw [quiet t List.mem_cons_self, ih fun t mem => quiet t (List.mem_cons_of_mem _ mem), List.length_cons,
      Nat.add_assoc, Nat.add_comm 1]
    rfl

/-- The last token begins no field. -/
theorem scanFrom_last (tok : JsToken) : scanFrom i 0 [tok] = [] := by
  have moved : (fieldAt tok []).2 = 0 := Nat.le_zero.mp (fieldAt_moved tok [])
  show (fieldAt tok []).1.toList.map _ ++ scanFrom (i + 1) (fieldAt tok []).2 [] = []
  have nothing : (fieldAt tok []).1 = none := by
    rw [fieldAt]
    cases tok.identifier?.bind fun typeName => typeAt typeName [] with
    | none => rfl
    | some p => simp
  rw [nothing, moved]
  rfl

theorem stop_of_ident? {t : Token} (other : t.ident? = none) (unstarred : t ≠ .char star) : t.object.Stop where
  identifier := by rw [Token.identifier?_object, other]; rfl
  star := by rw [Token.isStar_object, decide_eq_false unstarred]

theorem scanFrom_break {t : Token} (other : t.ident? = none) (unstarred : t ≠ .char star) (ts : List Token)
    (rest : List JsToken) :
    scanFrom i 0 (scriptTokens ts ++ t.object :: rest) =
      scanFrom i 0 (scriptTokens ts) ++ scanFrom (i + ts.length + 1) 0 rest := by
  rw [scanFrom_stop (stop_of_ident? other unstarred) _ (Nat.zero_le _), scriptTokens_length]

/-- Stars and qualifiers, and a token, alone. -/
theorem scanFrom_pointers (ps : List (List Qualifier)) (t : Token) :
    scanFrom i 0 (scriptTokens (ps.flatMap pointerTokens ++ [t])) = [] := by
  rw [scriptTokens_append, scanFrom_quiet _ quiet_pointers]
  exact scanFrom_last _

/-- After its `(`, a function pointer has what its parameters have. -/
theorem scanFrom_function (pointers : List (List Qualifier)) (star : List Qualifier) (stars : List (List Qualifier))
    (name : Ident) (params : List Token) : ∃ k,
    ∀ i xs, scanFrom i 0 (xs ++ scriptTokens (Declarator.function pointers star stars name params).direct) =
      scanFrom i 0 xs ++ scanFrom (i + xs.length + k) 0 (scriptTokens params) := by
  refine ⟨((star :: stars).flatMap pointerTokens).length + 4, fun i xs => ?_⟩
  have shape : scriptTokens (Declarator.function pointers star stars name params).direct =
      (Token.char lparen).object :: (scriptTokens ((star :: stars).flatMap pointerTokens ++ [.id name]) ++
        (Token.char rparen).object :: ([] ++ (Token.char lparen).object ::
          (scriptTokens params ++ (Token.char rparen).object :: []))) := by
    simp [scriptTokens, Declarator.direct, Token.object]
  have stop : (Token.char lparen).object.Stop := stop_of_ident? rfl (by decide)
  rw [shape, scanFrom_stop stop xs (Nat.zero_le _), scanFrom_break rfl (by decide), scanFrom_pointers,
    scanFrom_stop stop [] (Nat.zero_le _), scanFrom_break rfl (by decide)]
  simp only [List.nil_append, List.length_append, List.length_nil, List.length_singleton]
  have none_ : ∀ i, scanFrom i 0 [] = [] := fun _ => rfl
  rw [none_, none_, List.nil_append, List.append_nil]
  congr 2
  omega

end Declaration

/-! ## What is found, and the members -/

section Split

variable {α : Type} {n : Nat} {as as' bs bs' : List (Nat × α)}

/-- Lists over two ranges of indices are equal when they are on each. -/
theorem append_eq_iff_of_ranges (low : ∀ p ∈ as, p.1 < n) (low' : ∀ p ∈ as', p.1 < n) (high : ∀ p ∈ bs, n ≤ p.1)
    (high' : ∀ p ∈ bs', n ≤ p.1) : as ++ bs = as' ++ bs' ↔ as = as' ∧ bs = bs' := by
  have keep : ∀ {cs : List (Nat × α)}, (∀ p ∈ cs, p.1 < n) → cs.filter (fun p => p.1 < n) = cs :=
    fun within => List.filter_eq_self.mpr fun p mem => decide_eq_true (within p mem)
  have drop : ∀ {cs : List (Nat × α)}, (∀ p ∈ cs, n ≤ p.1) → cs.filter (fun p => p.1 < n) = [] :=
    fun within => List.filter_eq_nil_iff.mpr fun p mem => by simpa using within p mem
  constructor
  · intro same
    have first := congrArg (List.filter fun p => p.1 < n) same
    rw [List.filter_append, List.filter_append, keep low, keep low', drop high, drop high', List.append_nil,
      List.append_nil] at first
    rw [first] at same
    exact ⟨first, List.append_cancel_left same⟩
  · rintro ⟨rfl, rfl⟩
    rfl

end Split

theorem scanFrom_bounds {ts : List JsToken} {i skip : Nat} : ∀ p ∈ scanFrom i skip ts, i ≤ p.1 ∧ p.1 < i + ts.length := by
  rintro ⟨j, f⟩ mem
  obtain ⟨from_, named⟩ := scanFrom_index ts mem
  obtain ⟨tok, at_, -⟩ := Option.bind_eq_some_iff.mp named
  have inside := (List.getElem?_eq_some_iff.mp at_).1
  exact ⟨from_, by simp only; omega⟩

theorem scanFrom_params_iff (params : List Token) (i : Nat) :
    scanFrom i 0 (scriptTokens params) = [] ↔ ¬ NamesType params := by
  rw [← scan_tokens_iff, ← scanFrom_fields _ i, List.map_eq_nil_iff]

section Found

variable {type : BaseType} {rest : List JsToken}

theorem Declarator.member_bounds (f : Declarator) {i : Nat} :
    ∀ p ∈ f.member type i, i ≤ p.1 ∧ p.1 < i + f.tokens.length := by
  cases f with
  | function => exact fun p mem => absurd mem (List.not_mem_nil)
  | plain pointers name =>
    intro p mem
    obtain rfl := List.mem_singleton.mp mem
    simp [Declarator.tokens, Declarator.pointers, Declarator.direct]

theorem membersAfter_bounds (fs : List Declarator) : ∀ {i : Nat},
    ∀ p ∈ membersAfter type i fs, i ≤ p.1 ∧ p.1 < i + (declaratorsAfter fs).length := by
  induction fs with
  | nil => exact fun p mem => absurd mem (List.not_mem_nil)
  | cons f fs ih =>
    intro i p mem
    rw [declaratorsAfter, List.length_cons, List.length_append]
    obtain here | later := List.mem_append.mp mem
    · have := f.member_bounds p here
      omega
    · have := ih p later
      omega

/-- A declarator after the first is found only if it is a parameter that has a name. -/
theorem scan_later_iff (f : Declarator) (i : Nat) :
    scanFrom i 0 (scriptTokens f.tokens) = f.member type i ↔ f.IsFunction ∧ f.UnnamedParams := by
  cases f with
  | plain pointers name =>
    have nothing : scanFrom i 0 (scriptTokens (Declarator.plain pointers name).tokens) = [] := scanFrom_pointers _ _
    rw [nothing]
    simp [Declarator.member, Declarator.IsFunction]
  | function pointers star stars name params =>
    obtain ⟨k, found⟩ := scanFrom_function pointers star stars name params
    have none_ : ∀ i, scanFrom i 0 [] = [] := fun _ => rfl
    have quiet : scanFrom i 0 (scriptTokens (pointers.flatMap pointerTokens)) = [] := by
      rw [← List.append_nil (scriptTokens _), scanFrom_quiet _ quiet_pointers, none_]
    rw [Declarator.tokens, scriptTokens_append, found]
    show scanFrom i 0 (scriptTokens (pointers.flatMap pointerTokens)) ++ _ = [] ↔ True ∧ ¬ NamesType params
    rw [quiet, List.nil_append, scanFrom_params_iff, true_and]

/-- Where the declarators after the first begin, there is a `,` or a `;`. -/
theorem scanFrom_declarators (ts : List Token) (fs : List Declarator) (i : Nat) :
    scanFrom i 0 (scriptTokens ts ++ (scriptTokens (declaratorsAfter fs) ++ rest)) =
      scanFrom i 0 (scriptTokens ts) ++ scanFrom (i + ts.length) 0 (scriptTokens (declaratorsAfter fs) ++ rest) := by
  have split : ∀ {t : Token}, t.ident? = none → t ≠ .char star → ∀ us : List JsToken,
      scanFrom i 0 (scriptTokens ts ++ t.object :: us) =
        scanFrom i 0 (scriptTokens ts) ++ scanFrom (i + ts.length) 0 (t.object :: us) := by
    intro t other unstarred us
    have turn : scanFrom (i + ts.length) 0 (t.object :: us) = scanFrom (i + ts.length + 1) 0 us :=
      @scanFrom_quiet us [t] (i + ts.length) (by simpa using quiet_of_ident? other)
    rw [scanFrom_break other unstarred, turn]
  cases fs with
  | nil => exact split rfl (by decide) _
  | cons f fs => exact split rfl (by decide) _

theorem scanFrom_comma (f : Declarator) (fs : List Declarator) (i : Nat) :
    scanFrom i 0 (scriptTokens (declaratorsAfter (f :: fs)) ++ rest) =
      scanFrom (i + 1) 0 (scriptTokens f.tokens) ++
        scanFrom (i + 1 + f.tokens.length) 0 (scriptTokens (declaratorsAfter fs) ++ rest) := by
  have comma' : ∀ t ∈ [Token.char comma], t.Quiet := by simpa using quiet_of_ident? rfl
  have shape : scriptTokens (declaratorsAfter (f :: fs)) ++ rest =
      scriptTokens [.char comma] ++ (scriptTokens f.tokens ++ (scriptTokens (declaratorsAfter fs) ++ rest)) := by
    simp [scriptTokens, declaratorsAfter]
  rw [shape, scanFrom_quiet _ comma', scanFrom_declarators]
  rfl

theorem scanFrom_ended (fs : List Declarator) : ∀ i : Nat,
    scanFrom i 0 (scriptTokens (declaratorsAfter fs) ++ rest) =
      scanFrom i 0 (scriptTokens (declaratorsAfter fs)) ++ scanFrom (i + (declaratorsAfter fs).length) 0 rest := by
  induction fs with
  | nil =>
    intro i
    have semicolon' : ∀ t ∈ declaratorsAfter [], t.Quiet := by simpa [declaratorsAfter] using quiet_of_ident? rfl
    have alone := @scanFrom_quiet [] (declaratorsAfter []) i semicolon'
    rw [List.append_nil] at alone
    rw [scanFrom_quiet _ semicolon', alone]
    rfl
  | cons f fs ih =>
    intro i
    have alone := @scanFrom_comma [] f fs i
    rw [List.append_nil, List.append_nil] at alone
    rw [scanFrom_comma, ih, alone, List.append_assoc]
    congr 3
    rw [declaratorsAfter, List.length_cons, List.length_append]
    omega

theorem scan_after_iff (fs : List Declarator) : ∀ i : Nat,
    scanFrom i 0 (scriptTokens (declaratorsAfter fs)) = membersAfter type i fs ↔
      ∀ f ∈ fs, f.IsFunction ∧ f.UnnamedParams := by
  induction fs with
  | nil =>
    intro i
    have nothing : scanFrom i 0 (scriptTokens (declaratorsAfter [])) = membersAfter type i [] := scanFrom_last _
    simp [nothing]
  | cons f fs ih =>
    intro i
    have found := @scanFrom_comma [] f fs i
    rw [List.append_nil, List.append_nil] at found
    rw [found, membersAfter, @append_eq_iff_of_ranges _ (i + 1 + f.tokens.length), scan_later_iff, ih,
      List.forall_mem_cons]
    · intro p mem
      simpa using (scanFrom_bounds p mem).2
    · exact fun p mem => (f.member_bounds p mem).2
    · exact fun p mem => (scanFrom_bounds p mem).1
    · exact fun p mem => (membersAfter_bounds fs p mem).1

end Found

/-! ## The first declarator -/

section First

variable {d : MemberDecl} {i : Nat}

/-- Between the type and what follows the pointers there are stars only, or there is a qualifier after some of them. -/
theorem decoration_cases (after : List Qualifier) (ps : List (List Qualifier)) :
    (after = [] ∧ (∀ qs ∈ ps, qs = []) ∧ ps.flatMap pointerTokens = starTokens ps.length) ∨
      (¬ (after = [] ∧ ∀ qs ∈ ps, qs = []) ∧ ∃ (k : Nat) (q : Qualifier) (zs : List Token), (∀ t ∈ zs, t.Quiet) ∧
        qualifierTokens after ++ ps.flatMap pointerTokens = starTokens k ++ .id q.word :: zs) := by
  have quiet : ∀ {qs : List Qualifier} {ps : List (List Qualifier)},
      ∀ t ∈ qualifierTokens qs ++ ps.flatMap pointerTokens, t.Quiet := by
    intro qs ps t mem
    obtain mem | mem := List.mem_append.mp mem
    · obtain ⟨q, -, rfl⟩ := List.mem_map.mp mem
      exact quiet_qualifier q
    · exact quiet_pointers t mem
  cases after with
  | cons q qs => exact .inr ⟨by simp, 0, q, _, quiet, rfl⟩
  | nil =>
    induction ps with
    | nil => exact .inl ⟨rfl, by simp, rfl⟩
    | cons p ps ih =>
      cases p with
      | cons q qs =>
        refine .inr ⟨by simp, 1, q, _, @quiet qs ps, ?_⟩
        simp [qualifierTokens, pointerTokens, starTokens]
      | nil =>
        obtain ⟨-, bare, stars⟩ | ⟨other, k, q, zs, quiet, split⟩ := ih
        · refine .inl ⟨rfl, by simpa using bare, ?_⟩
          rw [List.flatMap_cons, stars]
          rfl
        · refine .inr ⟨by simpa using other, k + 1, q, zs, quiet, ?_⟩
          simp only [qualifierTokens, List.map_nil, List.nil_append] at split ⊢
          rw [List.flatMap_cons, split]
          rfl

theorem scanFrom_specifiers (d : MemberDecl) (i : Nat) :
    scanFrom i 0 (scriptTokens (d.specifiers ++ d.first.tokens)) =
      scanFrom (i + d.before.length) 0 (scriptTokens (d.type.tokens ++
        (qualifierTokens d.after ++ d.first.pointers.flatMap pointerTokens ++ d.first.direct))) := by
  have quiet : ∀ t ∈ qualifierTokens d.before, t.Quiet := by
    intro t mem
    obtain ⟨q, -, rfl⟩ := List.mem_map.mp mem
    exact quiet_qualifier q
  have skipped := @scanFrom_quiet (scriptTokens (d.type.tokens ++
    (qualifierTokens d.after ++ d.first.pointers.flatMap pointerTokens ++ d.first.direct))) _ i quiet
  rw [← scriptTokens_append] at skipped
  simpa [MemberDecl.specifiers, Declarator.tokens, qualifierTokens] using skipped

/-- A type with stars and no name. -/
theorem scanFrom_unnamed (type : BaseType) (k i : Nat) :
    scanFrom i 0 (scriptTokens (type.tokens ++ starTokens k)) = [] := by
  have turn := @fieldAt_base type k [] rfl
  rw [List.append_nil] at turn
  have length : type.tag?.toList.length + k = (scriptTokens (type.tag?.toList.map Token.id ++ starTokens k)).length := by
    simp [starTokens]
  have skipped := scanFrom_skip (scriptTokens (type.tag?.toList.map Token.id ++ starTokens k)) [] (i + 1)
  rw [List.append_nil] at skipped
  show (fieldAt (fromTokenToJsTokenObject (Token.id type.word).value)
      (scriptTokens (type.tag?.toList.map Token.id ++ starTokens k))).1.toList.map _ ++
    scanFrom (i + 1) (fieldAt (fromTokenToJsTokenObject (Token.id type.word).value)
      (scriptTokens (type.tag?.toList.map Token.id ++ starTokens k))).2
        (scriptTokens (type.tag?.toList.map Token.id ++ starTokens k)) = []
  rw [turn]
  simp only [List.head?_nil, Option.bind_none, Option.toList_none, List.map_nil, List.nil_append]
  rw [length, skipped]
  rfl

/-- After the type and the pointers of the first declarator: the member, or a qualifier in its place. -/
theorem scan_first_iff (d : MemberDecl) (i : Nat) :
    scanFrom i 0 (scriptTokens (d.specifiers ++ d.first.tokens)) = d.first.member d.type (i + d.specifiers.length) ↔
      d.after = [] ∧ (∀ qs ∈ d.first.pointers, qs = []) ∧ d.first.UnnamedParams := by
  have length : d.specifiers.length = d.before.length + d.type.tokens.length + d.after.length := by
    simp [MemberDecl.specifiers, qualifierTokens, Nat.add_assoc]
  rw [scanFrom_specifiers, length]
  obtain ⟨noAfter, bare, stars⟩ | ⟨other, k, q, zs, quiet, split⟩ := decoration_cases d.after d.first.pointers
  · have split : qualifierTokens d.after ++ d.first.pointers.flatMap pointerTokens = starTokens d.first.pointers.length := by
      rw [noAfter, stars]
      rfl
    rw [split]
    simp only [noAfter, true_and]
    cases first : d.first with
    | plain pointers name =>
      have found := scanFrom_base d.type pointers.length name [] (i + d.before.length)
      have none_ : ∀ i, scanFrom i 0 [] = [] := fun _ => rfl
      have count : (pointers.flatMap pointerTokens).length = pointers.length := by
        rw [first] at stars
        simp only [Declarator.pointers] at stars
        simp [stars, starTokens]
      rw [List.append_nil, none_] at found
      rw [first] at bare
      simp only [Declarator.pointers, Declarator.direct, Declarator.UnnamedParams, and_true] at bare ⊢
      rw [found, Declarator.member, count]
      simpa [Nat.add_assoc] using bare
    | function pointers star stars' name params =>
      obtain ⟨k, found⟩ := scanFrom_function pointers star stars' name params
      rw [first] at bare
      simp only [Declarator.pointers] at bare
      rw [← List.append_assoc, scriptTokens_append, found]
      show scanFrom _ 0 (scriptTokens (d.type.tokens ++ starTokens pointers.length)) ++ _ = [] ↔ _ ∧ ¬ NamesType params
      rw [scanFrom_unnamed, List.nil_append, scanFrom_params_iff]
      exact ⟨fun unnamed => ⟨bare, unnamed⟩, And.right⟩
  · have wrong : scanFrom (i + d.before.length) 0 (scriptTokens (d.type.tokens ++
        (qualifierTokens d.after ++ d.first.pointers.flatMap pointerTokens ++ d.first.direct))) ≠
        d.first.member d.type (i + (d.before.length + d.type.tokens.length + d.after.length)) := by
      have shape : scriptTokens (d.type.tokens ++ (starTokens k ++ .id q.word :: zs ++ d.first.direct)) =
          scriptTokens (d.type.tokens ++ (starTokens k ++ [.id q.word])) ++ scriptTokens (zs ++ d.first.direct) := by
        simp [scriptTokens]
      have count := congrArg List.length split
      rw [split, shape, scanFrom_base]
      intro same
      cases first : d.first with
      | plain pointers name =>
        rw [first] at same count
        have at_ := congrArg Prod.fst (List.cons.inj same).1
        simp only [Declarator.pointers, List.length_append, List.length_cons, starTokens, List.length_replicate,
          qualifierTokens, List.length_map] at at_ count
        omega
      | function pointers star stars' name params =>
        rw [first] at same
        cases same
    exact iff_of_false wrong fun simple => other ⟨simple.1, simple.2.1⟩

end First

/-! ## The scan of a struct -/

theorem scan_declaration_iff (d : MemberDecl) (i : Nat) :
    scanFrom i 0 (scriptTokens d.tokens) = d.members i ↔ d.Simple := by
  have found := @scanFrom_declarators [] (d.specifiers ++ d.first.tokens) d.others i
  rw [List.append_nil, ← scriptTokens_append] at found
  rw [MemberDecl.tokens, found, MemberDecl.members,
    @append_eq_iff_of_ranges _ (i + (d.specifiers ++ d.first.tokens).length), scan_first_iff, scan_after_iff]
  · constructor
    · rintro ⟨⟨after, pointers, params⟩, others⟩
      exact ⟨after, pointers, fun f mem => (others f mem).1,
        List.forall_mem_cons.mpr ⟨params, fun f mem => (others f mem).2⟩⟩
    · intro simple
      obtain ⟨params, later⟩ := List.forall_mem_cons.mp simple.params
      exact ⟨⟨simple.after, simple.pointers, params⟩, fun f mem => ⟨simple.others f mem, later f mem⟩⟩
  · intro p mem
    simpa using (scanFrom_bounds p mem).2
  · intro p mem
    have := (d.first.member_bounds p mem).2
    rw [List.length_append]
    omega
  · exact fun p mem => (scanFrom_bounds p mem).1
  · exact fun p mem => (membersAfter_bounds d.others p mem).1

theorem MemberDecl.members_bounds (d : MemberDecl) {i : Nat} : ∀ p ∈ d.members i, i ≤ p.1 ∧ p.1 < i + d.tokens.length := by
  intro p mem
  rw [MemberDecl.tokens, List.length_append, List.length_append]
  rw [MemberDecl.members, List.length_append] at mem
  obtain here | later := List.mem_append.mp mem
  · have := d.first.member_bounds p here
    omega
  · have := membersAfter_bounds d.others p later
    omega

theorem membersFrom_bounds (ds : List MemberDecl) : ∀ {i : Nat}, ∀ p ∈ membersFrom i ds, i ≤ p.1 := by
  induction ds with
  | nil => exact fun p mem => absurd mem (List.not_mem_nil)
  | cons d ds ih =>
    intro i p mem
    obtain here | later := List.mem_append.mp mem
    · exact (d.members_bounds p here).1
    · exact Nat.le_trans (Nat.le_add_right _ _) (ih p later)

theorem scanFrom_declared (d : MemberDecl) (rest : List JsToken) (i : Nat) :
    scanFrom i 0 (scriptTokens d.tokens ++ rest) =
      scanFrom i 0 (scriptTokens d.tokens) ++ scanFrom (i + d.tokens.length) 0 rest := by
  have alone := @scanFrom_declarators [] (d.specifiers ++ d.first.tokens) d.others i
  rw [List.append_nil, ← scriptTokens_append] at alone
  rw [MemberDecl.tokens, alone, scriptTokens_append, List.append_assoc, scanFrom_declarators, scanFrom_ended,
    List.append_assoc]
  congr 3
  simp only [List.length_append]
  omega

/-- The scan finds the members of a struct, each at its own name, when every declaration is one it understands. -/
theorem fields_eq_members_iff (body : List MemberDecl) :
    scanFrom 0 0 (scriptTokens (body.flatMap MemberDecl.tokens)) = membersFrom 0 body ↔ ∀ d ∈ body, d.Simple := by
  have general : ∀ i, scanFrom i 0 (scriptTokens (body.flatMap MemberDecl.tokens)) = membersFrom i body ↔
      ∀ d ∈ body, d.Simple := by
    induction body with
    | nil =>
      intro i
      simp [scriptTokens, scanFrom, membersFrom]
    | cons d ds ih =>
      intro i
      rw [List.flatMap_cons, scriptTokens_append, scanFrom_declared, membersFrom,
        @append_eq_iff_of_ranges _ (i + d.tokens.length), scan_declaration_iff, ih, List.forall_mem_cons]
      · intro p mem
        simpa using (scanFrom_bounds p mem).2
      · exact fun p mem => (d.members_bounds p mem).2
      · exact fun p mem => (scanFrom_bounds p mem).1
      · exact fun p mem => membersFrom_bounds ds p mem
  exact general 0

/-- `int a, b;` -/
def intPair : MemberDecl where
  before := []
  type := .int
  after := []
  first := .plain [] wordA
  others := [.plain [] wordB]

/-- `b` is a member of the struct and no field. -/
theorem intPair_missed : scanFields (scriptTokens ([intPair].flatMap MemberDecl.tokens)) ≠
    (membersFrom 0 [intPair]).map Prod.snd := by decide +kernel

end MoeToolchain
