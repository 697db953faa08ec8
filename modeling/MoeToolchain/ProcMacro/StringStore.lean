import MoeToolchain.ProcMacro.StbCLexer
import MoeToolchain.ProcMacro.TypesOwnership

/-!
# The string store of the lexer

`main` gives the lexer a string of length 1024, which has 1025 bytes, and the length 1024.
An identifier may take one byte less than the length and a literal the whole length, both
with a NUL behind it, and a copy of the text reads that NUL too. `store_and_copies_fit` is
about every call of the lexer on such a store.
-/

namespace MoeToolchain
set_option autoImplicit false
open Lib

/-! ## Copies out of memory -/

section Source

/-- `strlen(p)`. -/
def strlenAt (p : Ptr) : C Mem Nat := do
  let data ← loadAs Block.asChars p
  if 0 ∈ data then pure (strlen data) else Exec.fault .outOfBounds

/-- `memcpy(bytes, data, capacity)` and the NUL. -/
def memcpyString (bytes : Addr) (data : Ptr) (capacity : Nat) : C Mem Unit :=
  match data with
  | none => pure ()
  | some p => do
    let source ← loadAs Block.asChars (some p)
    if source.length < capacity then Exec.fault .outOfBounds
    else storeBlock bytes (.chars ((source.take capacity).set (capacity - 1) 0))

/-- `moe_string_alloc` where `data` is a pointer to the first byte of a block. -/
def moeStringAllocAt (data : Ptr) (length : Nat) : C Mem Addr := do
  let str ← moeMalloc .uninit
  let length ← (if length = 0 then strlenAt data else pure length : C Mem Nat)
  let capacity := length + 1
  let internal ← moeMalloc .uninit
  let bytes ← moeMalloc (.chars (List.replicate capacity 0))
  memcpyString bytes data capacity
  storeBlock internal (.stringInternal ⟨bytes, 1⟩)
  storeBlock str (.string ⟨internal, length, capacity⟩)
  pure str

/-- `moe_token_create_identifier` and `moe_token_create_string_literal` on such a pointer. -/
def moeTokenCreateTextAt (type : MoeTokenType) (text : Ptr) (len : Nat) : C Mem Addr := do
  let token ← moeMalloc .uninit
  let str ← moeStringAllocAt text len
  storeBlock token (.token ⟨type, .strValue str⟩)
  pure token

def moeTokenCreateIdentifierAt (identifier : Ptr) (len : Nat) : C Mem Addr :=
  moeTokenCreateTextAt .identifier identifier len

def moeTokenCreateStringLiteralAt (str : Ptr) (len : Nat) : C Mem Addr :=
  moeTokenCreateTextAt .stringLiteral str len

end Source

section Copies

variable {m₀ m : Mem} {f : Footprint} {a : Addr} {store : Bytes} {len : Nat}

theorem loadChars (owned : Owns m₀ m f) (here : (a, Block.chars store) ∈ f) :
    loadAs Block.asChars (some a) m = .ok (store, m) := loadAs_owns Block.asChars owned here rfl

theorem moeStringAllocAt_owns (owned : Owns m₀ m ({(a, .chars store)} + f)) (nul : store[len]? = some 0) :
    ∃ l m', moeStringAllocAt (some a) len m = .ok (l.handle, m') ∧
      Owns m₀ m' (strBlocks l (store.take len) + ({(a, .chars store)} + f)) := by
  obtain ⟨fits, last⟩ := List.getElem?_eq_some_iff.mp nul
  obtain ⟨str, m1, run1, owned1⟩ := moeMalloc_owns owned .uninit
  have chosen : (if len = 0 then strlenAt (some a) else pure len : C Mem Nat) m1 = .ok (len, m1) := by
    by_cases zero : len = 0
    · subst zero
      have here : (0 : UInt8) ∈ store := last ▸ List.getElem_mem fits
      have empty : strlen store = 0 := by
        cases store with
        | nil => cases fits
        | cons c rest =>
          obtain rfl : c = 0 := last
          rfl
      rw [if_pos rfl, strlenAt, Exec.bind_ok (@loadChars _ _ _ a store owned1 (by simp)), if_pos here, empty]
      rfl
    · rw [if_neg zero]
      rfl
  obtain ⟨internal, m2, run2, owned2⟩ := moeMalloc_owns owned1 .uninit
  obtain ⟨bytes, m3, run3, owned3⟩ := moeMalloc_owns owned2 (.chars (List.replicate (len + 1) 0))
  have source : loadAs Block.asChars (some a) m3 = .ok (store, m3) := loadChars owned3 (by simp)
  have copied : (store.take (len + 1)).set (len + 1 - 1) 0 = store.take len ++ [0] := by
    rw [Nat.add_sub_cancel, List.take_add_one, nul, Option.toList_some,
      List.set_append_right _ _ (List.length_take_le ..), List.length_take,
      Nat.min_eq_left (Nat.le_of_lt fits), Nat.sub_self]
    rfl
  obtain ⟨m4, run4, owned4⟩ := storeBlock_owns owned3 rfl (.chars (store.take len ++ [0]))
  obtain ⟨m5, run5, owned5⟩ := storeBlock_owns owned4 (add_left_comm _ _ _) (.stringInternal ⟨bytes, 1⟩)
  obtain ⟨m6, run6, owned6⟩ := storeBlock_owns owned5
    (by abel : _ = {(str, Block.uninit)} + ({(internal, .stringInternal ⟨bytes, 1⟩)} +
      ({(bytes, .chars (store.take len ++ [0]))} + ({(a, .chars store)} + f)))) (.string ⟨internal, len, len + 1⟩)
  have copy : memcpyString bytes (some a) (len + 1) m3 = .ok ((), m4) := by
    rw [memcpyString, Exec.bind_ok source, if_neg (by omega), copied, run4]
  refine ⟨⟨str, internal, bytes⟩, m6, ?_, ?_⟩
  · rw [moeStringAllocAt, Exec.bind_ok run1, Exec.bind_ok chosen, Exec.bind_ok run2, Exec.bind_ok run3,
      Exec.bind_ok copy, Exec.bind_ok run5, Exec.bind_ok run6]
    rfl
  · rw [strBlocks, List.length_take, Nat.min_eq_left (Nat.le_of_lt fits)]
    simpa only [add_assoc] using owned6

/-- A copy of `len` bytes with a NUL behind them is a string of these bytes. -/
theorem moeTokenCreateTextAt_owns {type : MoeTokenType} {v : TokenValue}
    (owned : Owns m₀ m ({(a, .chars store)} + f)) (nul : store[len]? = some 0)
    (same : ∀ l : TokenAt, l.object v = ⟨type, .strValue l.text.handle⟩) (text : v.text? = some (store.take len)) :
    ∃ l m', moeTokenCreateTextAt type (some a) len m = .ok (l.token, m') ∧
      Owns m₀ m' (tokenBlocks l v + ({(a, .chars store)} + f)) := by
  obtain ⟨token, m1, run1, owned1⟩ := moeMalloc_owns owned .uninit
  rw [add_left_comm] at owned1
  obtain ⟨str, m2, run2, owned2⟩ := moeStringAllocAt_owns owned1 nul
  obtain ⟨m3, run3, owned3⟩ := storeBlock_owns owned2
    (by abel : _ = {(token, Block.uninit)} + (strBlocks str (store.take len) + ({(a, .chars store)} + f)))
    (.token ⟨type, .strValue str.handle⟩)
  refine ⟨⟨token, str⟩, m3, ?_, ?_⟩
  · rw [moeTokenCreateTextAt, Exec.bind_ok run1, Exec.bind_ok run2, Exec.bind_ok run3]
    rfl
  · rw [tokenBlocks, same, text, add_assoc]
    exact owned3

end Copies

/-! ## The loops that write the store -/

namespace Stb

section Loops

variable {input : Input} {lexer lexer' : Lexer} {m₀ m : Mem} {f : Footprint} {store : Bytes} {n p : Nat}

/-- A write below the capacity. -/
theorem storeByte_owns {a : Addr} (owned : Owns m₀ m ({(a, .chars store)} + f)) (fits : n < store.length) (c : UInt8) :
    ∃ m', storeByte a n c m = .ok ((), m') ∧ Owns m₀ m' ({(a, .chars (store.set n c))} + f) := by
  obtain ⟨m', run, owned'⟩ := storeBlock_owns owned rfl (.chars (store.set n c))
  refine ⟨m', ?_, owned'⟩
  rw [storeByte, Exec.bind_ok (@loadChars _ _ _ a store owned (by simp)), if_pos fits, run]

theorem take_set_succ (fits : n < store.length) (c : UInt8) : (store.set n c).take (n + 1) = store.take n ++ [c] := by
  rw [List.take_add_one, List.getElem?_set_self fits, List.take_set_of_le (Nat.le_refl n)]
  rfl

theorem nul_set (fits : n < store.length) : (store.set n 0)[n]? = some 0 := List.getElem?_set_self fits

/-- The bytes of the literal with the delimiter `delim` from `p` to its end at `e`. -/
inductive Decodes (input : Input) (delim : UInt8) : Nat → Bytes → Nat → Prop
  | close {p : Nat} (here : input.byte p = delim) : Decodes input delim p [] p
  | char {p q e : Nat} {n : Int} {b : Bytes} (inside : input.byte p ≠ delim)
      (parse : clexParseChar input p = (n, q)) (known : 0 ≤ n) (rest : Decodes input delim q b e) :
      Decodes input delim p (UInt8.ofNat n.toNat :: b) e

/-- `text` is what the token of the lexer spells in the input. -/
inductive Spells (input : Input) (lexer : Lexer) (text : Bytes) : Prop
  | identifier (token : lexer.token = clexId) (first : Nat) (at_ : lexer.whereFirstchar = first)
      (nonempty : text ≠ []) (chars : text = (List.range text.length).map fun i => input.byte (first + i))
      (letters : ∀ c ∈ text, isIdChar c = true)
  | literal (token : lexer.token = clexDqstring) (first : Nat) (at_ : lexer.whereFirstchar = first) (last : Nat)
      (decodes : Decodes input (input.byte first) (first + 1) text last)

/-- A token with a text: the text is in the store, with a NUL behind it, and both fit. -/
structure HasText (input : Input) (lexer : Lexer) (store : Bytes) : Prop where
  string : lexer.string = some lexer.stringStorage
  short : lexer.stringLen ≤ lexer.stringStorageLen
  nul : store[lexer.stringLen]? = some 0
  spells : Spells input lexer (store.take lexer.stringLen)

/-- The tokens whose text is copied. -/
def IsText (token : Nat) : Prop := token = clexId ∨ token = clexSqstring ∨ token = clexDqstring

instance (token : Nat) : Decidable (IsText token) := inferInstanceAs (Decidable (_ ∨ _))

/-- What a call that returned the token `t` leaves behind: its values in the lexer, and the
same store with the bytes `store'`. -/
structure Leaves (input : Input) (m₀ : Mem) (f : Footprint) (lexer : Lexer) (t : Token) (lexer' : Lexer)
    (store' : Bytes) (m' : Mem) : Prop where
  storage : lexer'.stringStorage = lexer.stringStorage
  storageLen : lexer'.stringStorageLen = lexer.stringStorageLen
  owned : Owns m₀ m' ({(lexer.stringStorage, .chars store')} + f)
  token : lexer'.token = t.code
  stringLen : lexer'.stringLen = t.stringLen?.getD lexer.stringLen
  intNumber : lexer'.intNumber = t.intNumber?.getD lexer.intNumber
  realNumber : lexer'.realNumber = t.realNumber?.getD lexer.realNumber
  error : t.isError = true → ∀ text, t.text? = some text → text = cString store'
  hasText : t.isError = false → ∀ text, t.text? = some text →
    HasText input lexer' store' ∧ text = store'.take lexer'.stringLen

/-- The loops end with a token that has a text, or with an error that changed the store. -/
def EndsInText (input : Input) (m₀ : Mem) (f : Footprint) (lexer : Lexer) (size : Nat)
    (result : Except Fault (Lexer × Mem)) : Prop :=
  ∃ lexer' m' t store', result = .ok (lexer', m') ∧ Leaves input m₀ f lexer t lexer' store' m' ∧
    store'.length = size ∧ t.text?.isSome = true

theorem EndsInText.parseError (owned : Owns m₀ m ({(lexer.stringStorage, .chars store)} + f)) (first last : Int) :
    EndsInText input m₀ f lexer store.length (.ok (clexToken lexer clexParseError first last, m)) := by
  refine ⟨_, m, .parseError (some (cString store)) none, store, rfl, ⟨rfl, rfl, owned, rfl, rfl, rfl, rfl, ?_, nofun⟩,
    rfl, rfl⟩
  rintro - text ⟨⟩
  rfl

theorem isIdChar_ne_zero {c : UInt8} (letter : isIdChar c = true) : c ≠ 0 := by
  rintro rfl
  exact absurd letter (by decide)

/-- Identifiers: `n` letters are written and there is room for one more and a NUL, or the loop stops. -/
theorem identifierLoop_leaves (fuel : Nat) : ∀ {n : Nat} {m : Mem} {store : Bytes},
    Owns m₀ m ({(lexer.stringStorage, .chars store)} + f) → lexer.stringStorageLen < store.length →
    lexer.string = some lexer.stringStorage → n ≤ lexer.stringStorageLen → lexer.stringStorageLen < n + fuel →
    store.take n = (List.range n).map (fun i => input.byte (p + i)) →
    (∀ i ≤ n, isIdChar (input.byte (p + i)) = true) →
    EndsInText input m₀ f lexer store.length (identifierLoop input lexer p fuel n m) := by
  induction fuel with
  | zero =>
    intro n m store owned room string bound enough
    omega
  | succ fuel ih =>
    intro n m store owned room string bound enough written letters
    unfold identifierLoop
    by_cases full : n + 1 ≥ lexer.stringStorageLen
    · rw [if_pos full]
      exact EndsInText.parseError owned _ _
    · obtain ⟨m1, write, owned1⟩ := storeByte_owns owned (n := n) (by omega) (input.byte (p + n))
      have written1 : (store.set n (input.byte (p + n))).take (n + 1) =
          (List.range (n + 1)).map (fun i => input.byte (p + i)) := by
        rw [take_set_succ (by omega), written, List.range_succ, List.map_append]
        rfl
      rw [if_neg full, Exec.bind_ok write]
      by_cases more : isIdChar (input.byte (p + (n + 1))) = true
      · rw [if_pos more]
        have next := ih owned1 (by rwa [List.length_set]) string (by omega) (by omega) written1
          (fun i bound' => by
            rcases Nat.lt_or_eq_of_le bound' with less | rfl
            · exact letters i (by omega)
            · exact more)
        rwa [List.length_set] at next
      · obtain ⟨m2, close, owned2⟩ := storeByte_owns owned1 (n := n + 1) (by rw [List.length_set]; omega) 0
        rw [if_neg more, Exec.bind_ok close]
        have text : ((store.set n (input.byte (p + n))).set (n + 1) 0).take (n + 1) =
            (List.range (n + 1)).map (fun i => input.byte (p + i)) := by
          rw [List.take_set_of_le (Nat.le_refl _), written1]
        have all : ∀ c ∈ (List.range (n + 1)).map (fun i => input.byte (p + i)), isIdChar c = true := by
          intro c here
          obtain ⟨i, inside, rfl⟩ := List.mem_map.mp here
          exact letters i (Nat.le_of_lt_succ (List.mem_range.mp inside))
        let name : Ident := ⟨(List.range (n + 1)).map fun i => input.byte (p + i), by simp,
          fun zero => isIdChar_ne_zero (all 0 zero) rfl⟩
        have length : n + 1 = name.text.length := by simp [name]
        refine ⟨_, m2, .id name, _, rfl, ⟨rfl, rfl, owned2, rfl, length, rfl, rfl, nofun, ?_⟩, by simp, rfl⟩
        rintro - _ ⟨⟩
        refine ⟨⟨string, ?_, nul_set (by simp; omega), ?_⟩, text.symm⟩
        · show n + 1 ≤ lexer.stringStorageLen
          omega
        · show Spells input _ (List.take (n + 1) _)
          rw [text]
          exact Spells.identifier rfl p rfl (by simp) (by simp) all

theorem identifier_leaves (owned : Owns m₀ m ({(lexer.stringStorage, .chars store)} + f))
    (room : lexer.stringStorageLen < store.length) (first : isIdStart (input.byte p) = true) :
    EndsInText input m₀ f lexer store.length (identifier input lexer p m) := by
  have letters : ∀ i ≤ 0, isIdChar (input.byte (p + i)) = true := by
    intro i bound
    obtain rfl := Nat.le_zero.mp bound
    rw [isIdChar, Nat.add_zero, first]
    rfl
  let pointed : Lexer := { lexer with string := some lexer.stringStorage }
  have ends : EndsInText input m₀ f pointed store.length
      (identifierLoop input pointed p (lexer.stringStorageLen + 1) 0 m) :=
    identifierLoop_leaves (lexer.stringStorageLen + 1) owned room rfl (Nat.zero_le _) (by simp [pointed]) rfl letters
  obtain ⟨lexer', m', t, store', run, ⟨storage, len, owned', token, stringLen, int, real, error, text⟩, size, some_⟩ :=
    ends
  exact ⟨lexer', m', t, store', run, ⟨storage, len, owned', token, stringLen, int, real, error, text⟩, size, some_⟩

/-- Literals: `out` bytes are written and there is room for a NUL, or the loop stops. -/
theorem parseStringLoop_leaves (start : Nat) (fuel : Nat) : ∀ {p out : Nat} {m : Mem} {store : Bytes},
    Owns m₀ m ({(lexer.stringStorage, .chars store)} + f) → lexer.stringStorageLen < store.length →
    out ≤ lexer.stringStorageLen → lexer.stringStorageLen < out + fuel →
    (∀ b e, Decodes input (input.byte start) p b e →
      Decodes input (input.byte start) (start + 1) (store.take out ++ b) e) →
    EndsInText input m₀ f lexer store.length (parseStringLoop input lexer start clexDqstring fuel p out m) := by
  induction fuel with
  | zero =>
    intro p out m store owned room bound enough
    omega
  | succ fuel ih =>
    intro p out m store owned room bound enough before
    unfold parseStringLoop
    by_cases close : input.byte p = input.byte start
    · obtain ⟨m1, write, owned1⟩ := storeByte_owns owned (n := out) (by omega) 0
      rw [if_pos close, Exec.bind_ok write]
      have text : (store.set out 0).take out = store.take out := List.take_set_of_le (Nat.le_refl out)
      have length : out = (store.take out).length := by
        rw [List.length_take]
        omega
      refine ⟨_, m1, .dqstring (store.take out), _, rfl, ⟨rfl, rfl, owned1, rfl, length, rfl, rfl, nofun, ?_⟩,
        List.length_set, rfl⟩
      rintro - _ ⟨⟩
      refine ⟨⟨rfl, bound, nul_set (by omega), Spells.literal rfl start rfl p ?_⟩, text.symm⟩
      show Decodes _ _ _ ((store.set out 0).take out) p
      rw [text, ← List.append_nil (store.take out)]
      exact before [] p (.close close)
    · rw [if_neg close]
      cases parse : clexParseChar input p with
      | mk n q =>
        simp only
        by_cases unknown : n < 0
        · rw [if_pos unknown]
          exact EndsInText.parseError owned _ _
        · rw [if_neg unknown]
          by_cases full : out + 1 > lexer.stringStorageLen
          · rw [if_pos full]
            exact EndsInText.parseError owned _ _
          · obtain ⟨m1, write, owned1⟩ := storeByte_owns owned (n := out) (by omega) (UInt8.ofNat n.toNat)
            rw [if_neg full, Exec.bind_ok write]
            have before1 : ∀ b e, Decodes input (input.byte start) q b e → Decodes input (input.byte start) (start + 1)
                ((store.set out (UInt8.ofNat n.toNat)).take (out + 1) ++ b) e := by
              intro b e rest
              rw [take_set_succ (by omega), List.append_assoc]
              exact before _ e (.char close parse (by omega) rest)
            have next := ih owned1 (by rwa [List.length_set]) (by omega) (by omega) before1
            rwa [List.length_set] at next

theorem clexParseString_leaves (owned : Owns m₀ m ({(lexer.stringStorage, .chars store)} + f))
    (room : lexer.stringStorageLen < store.length) :
    EndsInText input m₀ f lexer store.length (clexParseString input lexer p clexDqstring m) :=
  parseStringLoop_leaves p (lexer.stringStorageLen + 1) owned room (Nat.zero_le _) (by omega) fun _ _ rest => rest

end Loops

/-! ## The other tokens -/

section Others

variable {input : Input} {strtod : Nat → BitVec 64 × Nat} {lexer lexer' : Lexer} {m₀ m : Mem} {f : Footprint}
  {store : Bytes} {t : Token} {fuel p : Nat}

/-- A token without a text, which the store has no part in. -/
structure Textless (lexer : Lexer) (t : Token) (lexer' : Lexer) : Prop where
  storage : lexer'.stringStorage = lexer.stringStorage
  storageLen : lexer'.stringStorageLen = lexer.stringStorageLen
  token : lexer'.token = t.code
  string : lexer'.string = lexer.string
  stringLen : lexer'.stringLen = t.stringLen?.getD lexer.stringLen
  intNumber : lexer'.intNumber = t.intNumber?.getD lexer.intNumber
  realNumber : lexer'.realNumber = t.realNumber?.getD lexer.realNumber
  text : t.text? = none

theorem Textless.leaves (textless : Textless lexer t lexer') (owned : Owns m₀ m ({(lexer.stringStorage, .chars store)} + f)) :
    Leaves input m₀ f lexer t lexer' store m where
  storage := textless.storage
  storageLen := textless.storageLen
  owned := owned
  token := textless.token
  stringLen := textless.stringLen
  intNumber := textless.intNumber
  realNumber := textless.realNumber
  error _ _ text := by cases textless.text.symm.trans text
  hasText _ _ text := by cases textless.text.symm.trans text

theorem charLiteral_textless : ∃ t, Textless lexer t (charLiteral input lexer p) := by
  cases parse : clexParseChar input (p + 1) with
  | mk n q =>
    simp only [charLiteral, parse]
    split
    · exact ⟨.parseError none (some n), rfl, rfl, rfl, rfl, rfl, rfl, rfl, rfl⟩
    · split
      · exact ⟨.parseError none (some n), rfl, rfl, rfl, rfl, rfl, rfl, rfl, rfl⟩
      · exact ⟨.charlit n, rfl, rfl, rfl, rfl, rfl, rfl, rfl, rfl⟩

theorem integer_textless {base : Nat} (run : integer input fuel lexer base p = some lexer') :
    ∃ t, Textless lexer t lexer' := by
  obtain ⟨r, -, same⟩ := Option.bind_eq_some_iff.mp run
  cases same
  exact ⟨.intlit r.1, rfl, rfl, rfl, rfl, rfl, rfl, rfl, rfl⟩

theorem hexInteger_textless (run : hexInteger input fuel lexer p = some lexer') : ∃ t, Textless lexer t lexer' := by
  obtain ⟨r, -, same⟩ := Option.bind_eq_some_iff.mp run
  simp only at same
  split at same
  · cases same
    exact ⟨.parseError none (some r.1), rfl, rfl, rfl, rfl, rfl, rfl, rfl, rfl⟩
  · cases same
    exact ⟨.intlit r.1, rfl, rfl, rfl, rfl, rfl, rfl, rfl, rfl⟩

theorem number_textless (run : number input strtod fuel lexer p = some lexer') : ∃ t, Textless lexer t lexer' := by
  unfold number at run
  split at run
  · exact hexInteger_textless run
  · obtain ⟨q, -, same⟩ := Option.bind_eq_some_iff.mp run
    split at same
    · cases same
      exact ⟨.floatlit (strtod p).1, rfl, rfl, rfl, rfl, rfl, rfl, rfl, rfl⟩
    · split at same
      · exact integer_textless same
      · exact integer_textless same

/-- The run returned a token; only one with a text changes the store. -/
def EndsInToken (input : Input) (m₀ : Mem) (f : Footprint) (lexer : Lexer) (store : Bytes)
    (result : Except Fault (Lexer × Mem)) : Prop :=
  ∃ lexer' m' t store', result = .ok (lexer', m') ∧ Leaves input m₀ f lexer t lexer' store' m' ∧
    store'.length = store.length ∧ (t.text? = none → store' = store ∧ lexer'.string = lexer.string)

theorem EndsInText.token {result : Except Fault (Lexer × Mem)} (ends : EndsInText input m₀ f lexer store.length result) :
    EndsInToken input m₀ f lexer store result := by
  obtain ⟨lexer', m', t, store', run, leaves, size, some_⟩ := ends
  refine ⟨lexer', m', t, store', run, leaves, size, fun none_ => ?_⟩
  rw [none_] at some_
  cases some_

theorem Textless.ends (textless : Textless lexer t lexer') (owned : Owns m₀ m ({(lexer.stringStorage, .chars store)} + f)) :
    EndsInToken input m₀ f lexer store (.ok (lexer', m)) :=
  ⟨lexer', m, t, store, rfl, textless.leaves owned, rfl, fun _ => ⟨rfl, textless.string⟩⟩

/-- Any token: the store takes what is written to it, or the loops over the input have no turns left. -/
theorem clexSwitch_leaves (owned : Owns m₀ m ({(lexer.stringStorage, .chars store)} + f))
    (room : lexer.stringStorageLen < store.length) :
    clexSwitch input strtod fuel lexer p m = .error .outOfFuel ∧ number input strtod fuel lexer p = none ∧
        isDigit (input.byte p) = true ∨
      EndsInToken input m₀ f lexer store (clexSwitch input strtod fuel lexer p m) := by
  unfold clexSwitch
  by_cases id : isIdStart (input.byte p) = true
  · rw [if_pos id]
    exact .inr (identifier_leaves owned room id).token
  rw [if_neg id]
  by_cases dq : input.byte p = byteOf '"'
  · rw [if_pos dq]
    exact .inr (clexParseString_leaves owned room).token
  rw [if_neg dq]
  by_cases sq : input.byte p = byteOf '\''
  · rw [if_pos sq]
    obtain ⟨t, textless⟩ := @charLiteral_textless input lexer p
    exact .inr (textless.ends owned)
  rw [if_neg sq]
  by_cases digit : isDigit (input.byte p) = true
  · rw [if_pos digit]
    cases run : number input strtod fuel lexer p with
    | none => exact .inl ⟨rfl, rfl, digit⟩
    | some lexer' =>
      obtain ⟨t, textless⟩ := number_textless run
      exact .inr (textless.ends owned)
  rw [if_neg digit]
  refine .inr ?_
  cases operatorAt input p with
  | none =>
    have small : (input.byte p).toNat < 128 := by
      simp only [isIdStart, Bool.or_eq_true, not_or, decide_eq_true_eq] at id
      exact Nat.lt_of_not_le fun large => id.1.2 large
    have textless : Textless lexer (.char ⟨(input.byte p).toNat, small⟩) (clexToken lexer (input.byte p).toNat p p) :=
      ⟨rfl, rfl, rfl, rfl, rfl, rfl, rfl, rfl⟩
    exact textless.ends owned
  | some r =>
    have textless : Textless lexer (.op r.1) (clexToken lexer r.1.code p r.2) :=
      ⟨rfl, rfl, rfl, rfl, rfl, rfl, rfl, rfl⟩
    exact textless.ends owned

end Others

/-! ## Enough turns -/

section Turns

variable {input : Input} {strtod : Nat → BitVec 64 × Nat} {lexer : Lexer} {fuel limit p : Nat}

/-- A loop that stops at the end of the input. -/
theorem scanWhile_returns (go : Nat → Bool) (fuel : Nat) : ∀ {p : Nat}, p ≤ input.eof → input.eof < p + fuel →
    ∃ q, scanWhile input go fuel p = some q ∧ p ≤ q ∧ q ≤ input.eof ∧ (q = input.eof ∨ go q = false) ∧
      (p ≠ input.eof → go p = true → p < q) := by
  induction fuel with
  | zero =>
    intro p bound enough
    omega
  | succ fuel ih =>
    intro p bound enough
    by_cases more : p ≠ input.eof ∧ go p = true
    · obtain ⟨q, run, above, below, stop, -⟩ := @ih (p + 1) (by omega) (by omega)
      rw [scanWhile, if_pos more]
      exact ⟨q, run, by omega, below, stop, fun _ _ => by omega⟩
    · rw [scanWhile, if_neg more]
      refine ⟨p, rfl, Nat.le_refl p, bound, ?_, fun inside going => absurd ⟨inside, going⟩ more⟩
      by_cases ended : p = input.eof
      · exact .inl ended
      · exact .inr (Bool.eq_false_of_not_eq_true fun going => more ⟨ended, going⟩)

/-- A byte before the end of the input that is not NUL comes before the NUL. -/
theorem before_nul (nul : input.byte input.eof = 0) {q : Nat} (bound : q ≤ input.eof) {c : UInt8}
    (here : input.byte q = c) (other : c ≠ 0) : q < input.eof := by
  rcases Nat.lt_or_eq_of_le bound with less | rfl
  · exact less
  · exact absurd (here.symm.trans nul) other

theorem skipSpace_returns (nul : input.byte input.eof = 0) (fuel : Nat) : ∀ {p : Nat}, p ≤ input.eof →
    input.eof < p + fuel → input.eof < p + limit →
    ∃ r, skipSpace input limit fuel p = some r ∧ ∀ q, r = .ends q → p ≤ q ∧ q ≤ input.eof := by
  induction fuel with
  | zero =>
    intro p bound enough
    omega
  | succ fuel ih =>
    intro p bound enough many
    obtain ⟨q, white, above, below, -, -⟩ :=
      scanWhile_returns (fun i => clexIswhite (input.byte i)) limit bound many
    have again : ∀ {q' : Nat}, q < q' → q' ≤ input.eof →
        ∃ r, skipSpace input limit fuel q' = some r ∧ ∀ e, r = .ends e → p ≤ e ∧ e ≤ input.eof := by
      intro q' later bound'
      obtain ⟨r, run, ends⟩ := @ih q' bound' (by omega) (by omega)
      refine ⟨r, run, fun e here => ?_⟩
      have after := ends e here
      omega
    have line : ∀ {c : UInt8}, q ≠ input.eof → input.byte q = c → c ≠ byteOf '\r' → c ≠ byteOf '\n' →
        ∃ q', scanWhile input (inLine input) limit q = some q' ∧ q < q' ∧ q' ≤ input.eof := by
      intro c inside here cr lf
      obtain ⟨q', run, -, below', -, moves⟩ := scanWhile_returns (inLine input) limit below (by omega)
      exact ⟨q', run, moves inside (by simp [inLine, here, cr, lf]), below'⟩
    rw [skipSpace, white, Option.bind_eq_bind, Option.bind_some]
    by_cases cpp : q ≠ input.eof ∧ input.byte q = byteOf '/' ∧ input.byte (q + 1) = byteOf '/'
    · obtain ⟨q', run, later, bound'⟩ := line cpp.1 cpp.2.1 (by decide) (by decide)
      rw [if_pos cpp, run, Option.bind_some]
      exact again later bound'
    rw [if_neg cpp]
    by_cases comment : q ≠ input.eof ∧ input.byte q = byteOf '/' ∧ input.byte (q + 1) = byteOf '*'
    · have inside : q + 1 < input.eof := before_nul nul (by omega) comment.2.2 (by decide)
      obtain ⟨e, run, after, below', stop, -⟩ :=
        @scanWhile_returns input (inComment input) limit (q + 2) (by omega) (by omega)
      rw [if_pos comment, run, Option.bind_some]
      by_cases open_ : e = input.eof
      · rw [if_pos open_]
        exact ⟨_, rfl, nofun⟩
      · rw [if_neg open_]
        have close := stop.resolve_left open_
        simp only [inComment, Bool.or_eq_false_iff, bne_eq_false_iff_eq] at close
        have inside' : e + 1 < input.eof := before_nul nul (by omega) close.2 (by decide)
        exact again (by omega) (by omega)
    rw [if_neg comment]
    by_cases directive : q ≠ input.eof ∧ input.byte q = byteOf '#'
    · obtain ⟨q', run, later, bound'⟩ := line directive.1 directive.2 (by decide) (by decide)
      rw [if_pos directive, run, Option.bind_some]
      exact again later bound'
    rw [if_neg directive]
    refine ⟨_, rfl, fun e here => ?_⟩
    cases here
    exact ⟨above, below⟩

theorem digit?_nul (base : Nat) : digit? base 0 = none := by
  simp [digit?, isDigit, byteOf]

theorem strtolLoop_returns (nul : input.byte input.eof = 0) (base fuel : Nat) : ∀ {q n : Nat}, q ≤ input.eof →
    input.eof < q + fuel → ∃ r, strtolLoop input base fuel q n = some r := by
  induction fuel with
  | zero =>
    intro q n bound enough
    omega
  | succ fuel ih =>
    intro q n bound enough
    rw [strtolLoop]
    cases here : digit? base (input.byte q) with
    | none => exact ⟨_, rfl⟩
    | some d =>
      have inside : q ≠ input.eof := by
        rintro rfl
        rw [nul, digit?_nul] at here
        cases here
      exact ih (by omega) (by omega)

theorem strtol_returns (nul : input.byte input.eof = 0) (base : Nat) (bound : p ≤ input.eof)
    (enough : input.eof < p + fuel) : ∃ r, strtol input base fuel p = some r := by
  have start : (if base = 16 ∧ hexPrefix input p = true then p + 2 else p) ≤ input.eof ∧
      p ≤ (if base = 16 ∧ hexPrefix input p = true then p + 2 else p) := by
    split
    · rename_i hex
      have first := hex.2
      simp only [hexPrefix, Bool.and_eq_true, Bool.or_eq_true, beq_iff_eq] at first
      have zero : p < input.eof := before_nul nul bound first.1.1 (by decide)
      have mark : p + 1 < input.eof := by
        rcases first.1.2 with x | x
        · exact before_nul nul zero x (by decide)
        · exact before_nul nul zero x (by decide)
      omega
    · exact ⟨bound, Nat.le_refl p⟩
  obtain ⟨r, run⟩ := @strtolLoop_returns input nul base fuel _ 0 start.1 (by omega)
  exact ⟨_, by rw [strtol, run]; rfl⟩

theorem number_returns (nul : input.byte input.eof = 0) (bound : p ≤ input.eof) (enough : input.eof < p + fuel) :
    number input strtod fuel lexer p ≠ none := by
  have integers : ∀ base, integer input fuel lexer base p ≠ none := by
    intro base
    obtain ⟨r, run⟩ := strtol_returns nul base bound enough
    rw [integer, run]
    exact nofun
  unfold number
  split
  · obtain ⟨r, run⟩ := strtol_returns nul 16 bound enough
    rw [hexInteger, run, Option.bind_eq_bind, Option.bind_some]
    split
    · exact nofun
    · exact nofun
  · obtain ⟨q, run, -⟩ := scanWhile_returns (fun i => isDigit (input.byte i)) fuel bound enough
    rw [run, Option.bind_eq_bind, Option.bind_some]
    split
    · exact nofun
    · split
      · exact integers 8
      · exact integers 10

end Turns

/-! ## One call, and all calls -/

section Calls

variable {input : Input} {strtod : Nat → BitVec 64 × Nat} {fuel : Nat} {lexer : Lexer} {m₀ m : Mem} {f : Footprint}
  {store : Bytes}

/-- The lexer is inside its input, which ends in a NUL, and has turns enough to get to its end. -/
def Inside (input : Input) (lexer : Lexer) (fuel : Nat) : Prop :=
  input.byte input.eof = 0 ∧ lexer.parsePoint ≤ input.eof ∧ input.eof < lexer.parsePoint + fuel

/-- The call came to the end of the input, or returned a token. -/
def CallEnds (input : Input) (m₀ : Mem) (f : Footprint) (lexer : Lexer) (store : Bytes) (m : Mem)
    (result : Except Fault ((Bool × Lexer) × Mem)) : Prop :=
  result = .ok ((false, { lexer with token := clexEof }), m) ∨
  ∃ lexer' m' t store', result = .ok ((true, lexer'), m') ∧ Leaves input m₀ f lexer t lexer' store' m' ∧
    store'.length = store.length ∧ (t.text? = none → store' = store ∧ lexer'.string = lexer.string)

/-- A call writes inside the store, and inside the input it returns. -/
theorem stbCLexerGetToken_leaves (owned : Owns m₀ m ({(lexer.stringStorage, .chars store)} + f))
    (room : lexer.stringStorageLen < store.length) :
    stbCLexerGetToken input strtod fuel lexer m = .error .outOfFuel ∧ ¬ Inside input lexer fuel ∨
      CallEnds input m₀ f lexer store m (stbCLexerGetToken input strtod fuel lexer m) := by
  unfold stbCLexerGetToken
  cases skip : skipSpace input fuel fuel lexer.parsePoint with
  | none =>
    refine .inl ⟨rfl, fun ⟨nul, bound, enough⟩ => ?_⟩
    obtain ⟨r, run, -⟩ := @skipSpace_returns input fuel nul fuel _ bound enough enough
    rw [skip] at run
    cases run
  | some r =>
    cases r with
    | unclosed start p =>
      have textless : Textless lexer (.parseError none none) (clexToken lexer clexParseError start (p - 1)) :=
        ⟨rfl, rfl, rfl, rfl, rfl, rfl, rfl, rfl⟩
      exact .inr (.inr ⟨_, m, _, store, rfl, textless.leaves owned, rfl, fun _ => ⟨rfl, rfl⟩⟩)
    | ends p =>
      simp only
      by_cases done : p = input.eof
      · rw [if_pos done]
        exact .inr (.inl rfl)
      · rw [if_neg done]
        rcases @clexSwitch_leaves input strtod _ _ _ _ _ fuel p owned room with
          ⟨stops, none_, -⟩ | ⟨lexer', m', t, store', run, leaves⟩
        · refine .inl ⟨Exec.bind_error stops, fun ⟨nul, bound, enough⟩ => ?_⟩
          obtain ⟨r, run, ends⟩ := @skipSpace_returns input fuel nul fuel _ bound enough enough
          rw [skip] at run
          cases run
          have after := ends p rfl
          exact number_returns nul after.2 (by omega) none_
        · rw [Exec.bind_ok run]
          exact .inr (.inr ⟨lexer', m', t, store', rfl, leaves⟩)

/-- The string store without its bytes. -/
def storeHandle (l : StringAt) : Footprint :=
  {(l.handle, .string ⟨l.internal, 1024, 1025⟩)} + {(l.internal, .stringInternal ⟨l.data, 1⟩)}

/-- The string store with some bytes in it. -/
def storeBlocks (l : StringAt) (store : Bytes) : Footprint := {(l.data, .chars store)} + storeHandle l

theorem strBlocks_store (l : StringAt) : strBlocks l (List.replicate 1024 0) = storeBlocks l (List.replicate 1025 0) := by
  rw [storeBlocks, storeHandle, strBlocks, List.length_replicate, List.replicate_succ' (n := 1024)]
  abel

/-- What a call needs of the store that `main` allocates. -/
theorem store_ready {l : StringAt} (storage : lexer.stringStorage = l.data) (storageLen : lexer.stringStorageLen = 1024)
    (size : store.length = 1025) (owned : Owns m₀ m (storeBlocks l store + f)) :
    lexer.stringStorageLen < store.length ∧
      Owns m₀ m ({(lexer.stringStorage, .chars store)} + (storeHandle l + f)) := by
  refine ⟨?_, ?_⟩
  · rw [storageLen, size]
    decide
  · rwa [storeBlocks, add_assoc, ← storage] at owned

/-- The lexer of `main` with the store `l`: it starts on the store that `main` allocates, and
is called while the rest of the program works on blocks of its own. -/
inductive Lexes (input : Input) (strtod : Nat → BitVec 64 × Nat) (m₀ : Mem) (l : StringAt) :
    Lexer → Footprint → Mem → Prop
  | init {lexer : Lexer} {f : Footprint} {m m' : Mem} (alloc : moeStringAlloc none 1024 m = .ok (l.handle, m'))
      (owned : Owns m₀ m' (strBlocks l (List.replicate 1024 0) + f)) :
      Lexes input strtod m₀ l (stbCLexerInit lexer l.data 1024) f m'
  | call {lexer lexer' : Lexer} {f : Footprint} {m m' : Mem} {fuel : Nat} {more : Bool}
      (before : Lexes input strtod m₀ l lexer f m)
      (run : stbCLexerGetToken input strtod fuel lexer m = .ok ((more, lexer'), m')) :
      Lexes input strtod m₀ l lexer' f m'
  | others {lexer : Lexer} {f g : Footprint} {m m' : Mem} (before : Lexes input strtod m₀ l lexer f m)
      (frame : ∀ store, Owns m₀ m (storeBlocks l store + f) → Owns m₀ m' (storeBlocks l store + g)) :
      Lexes input strtod m₀ l lexer g m'

/-- The store has its 1025 bytes, and the lexer has its address and the length 1024. -/
structure OnStore (m₀ : Mem) (l : StringAt) (lexer : Lexer) (f : Footprint) (m : Mem) : Prop where
  storage : lexer.stringStorage = l.data
  storageLen : lexer.stringStorageLen = 1024
  store : ∃ store : Bytes, store.length = 1025 ∧ Owns m₀ m (storeBlocks l store + f)

theorem isText_code {t : Token} (text : IsText t.code) : t.isError = false ∧ ∃ b, t.text? = some b := by
  cases t with
  | id name => exact ⟨rfl, _, rfl⟩
  | dqstring b => exact ⟨rfl, _, rfl⟩
  | sqstring b => exact ⟨rfl, _, rfl⟩
  | char c =>
    have below := c.isLt
    simp only [IsText, Token.code, clexId, clexSqstring, clexDqstring] at text
    omega
  | op o =>
    have range := o.code_range
    simp only [IsText, Token.code, clexId, clexSqstring, clexDqstring] at text
    omega
  | _ => exact absurd text (by simp only [Token.code]; decide)

theorem OnStore.call {l : StringAt} (here : OnStore m₀ l lexer f m) :
    stbCLexerGetToken input strtod fuel lexer m = .error .outOfFuel ∧ ¬ Inside input lexer fuel ∨
      ∃ more lexer' m' store', stbCLexerGetToken input strtod fuel lexer m = .ok ((more, lexer'), m') ∧
        lexer'.stringStorage = l.data ∧ lexer'.stringStorageLen = 1024 ∧ store'.length = 1025 ∧
        Owns m₀ m' (storeBlocks l store' + f) ∧ (IsText lexer'.token → HasText input lexer' store') := by
  obtain ⟨store, size, owned⟩ := here.store
  obtain ⟨room, owned'⟩ := store_ready here.storage here.storageLen size owned
  rcases @stbCLexerGetToken_leaves input strtod fuel lexer m₀ m _ store owned' room with
    stops | done | ⟨lexer', m', t, store', run, leaves, size', -⟩
  · exact .inl stops
  · exact .inr ⟨false, _, m, store, done, here.storage, here.storageLen, size, owned,
      fun text => absurd text (show ¬ IsText clexEof by decide)⟩
  · refine .inr ⟨true, lexer', m', store', run, leaves.storage.trans here.storage,
      leaves.storageLen.trans here.storageLen, size'.trans size, ?_, fun text => ?_⟩
    · have owned := leaves.owned
      rwa [here.storage, ← add_assoc] at owned
    · rw [leaves.token] at text
      obtain ⟨fine, b, hasText⟩ := isText_code text
      exact (leaves.hasText fine b hasText).1

/-- It stays so in every run. -/
theorem Lexes.onStore {l : StringAt} (reached : Lexes input strtod m₀ l lexer f m) : OnStore m₀ l lexer f m := by
  induction reached with
  | @init lexer f m m' alloc owned =>
    rw [strBlocks_store] at owned
    exact ⟨rfl, rfl, List.replicate 1025 0, List.length_replicate, owned⟩
  | @call lexer lexer' f m m' fuel more before run ih =>
    rcases @OnStore.call input strtod fuel lexer m₀ m f l ih with
      ⟨stops, -⟩ | ⟨more', lexer1, m1, store, run', storage, storageLen, size, owned, -⟩
    · rw [run] at stops
      cases stops
    · rw [run] at run'
      cases run'
      exact ⟨storage, storageLen, store, size, owned⟩
  | others before frame ih =>
    obtain ⟨store, size, owned⟩ := ih.store
    exact ⟨ih.storage, ih.storageLen, store, size, frame store owned⟩

/-- The token object that `create` makes of the text in the store is a token of these bytes. -/
def Copies (m₀ : Mem) (create : Ptr → Nat → C Mem Addr) (value : Bytes → TokenValue) (l : StringAt) (lexer : Lexer)
    (f : Footprint) (store : Bytes) (m : Mem) : Prop :=
  ∃ t m', create lexer.string lexer.stringLen m = .ok (t.token, m') ∧
    Owns m₀ m' (tokenBlocks t (value (store.take lexer.stringLen)) + (storeBlocks l store + f))

/-- A call of the lexer that stays in its store, and whose text fits and is copied as it is. -/
def CallFits (input : Input) (strtod : Nat → BitVec 64 × Nat) (fuel : Nat) (m₀ : Mem) (l : StringAt)
    (lexer : Lexer) (f : Footprint) (m : Mem) : Prop :=
  (stbCLexerGetToken input strtod fuel lexer m = .error .outOfFuel ∧ ¬ Inside input lexer fuel) ∨
  ∃ more lexer' m' store, stbCLexerGetToken input strtod fuel lexer m = .ok ((more, lexer'), m') ∧
    store.length = 1025 ∧ Owns m₀ m' (storeBlocks l store + f) ∧
    (IsText lexer'.token → lexer'.string = some l.data ∧ (store.take lexer'.stringLen).length = lexer'.stringLen ∧
      store[lexer'.stringLen]? = some 0 ∧ Spells input lexer' (store.take lexer'.stringLen) ∧
      Copies m₀ moeTokenCreateIdentifierAt .identifier l lexer' f store m' ∧
      Copies m₀ moeTokenCreateStringLiteralAt .stringLiteral l lexer' f store m')

/-- In every run and for every input, a call of the lexer writes only inside the string
store and, inside the input, returns. The text of an identifier or literal that it returns
is in the store with a NUL behind it, and the copies read only the store and are strings of
that length with these bytes and a NUL. -/
theorem store_and_copies_fit (input : Input) (strtod : Nat → BitVec 64 × Nat) (fuel : Nat) (m₀ : Mem) (l : StringAt)
    (lexer : Lexer) (f : Footprint) (m : Mem) (reached : Lexes input strtod m₀ l lexer f m) :
    CallFits input strtod fuel m₀ l lexer f m := by
  rcases @OnStore.call input strtod fuel lexer m₀ m f l reached.onStore with
    stops | ⟨more, lexer', m', store, run, storage, -, size, owned, text⟩
  · exact .inl stops
  · refine .inr ⟨more, lexer', m', store, run, size, owned, fun isText => ?_⟩
    obtain ⟨string, -, nul, spells⟩ := text isText
    rw [storage] at string
    obtain ⟨fits, -⟩ := List.getElem?_eq_some_iff.mp nul
    have owned' : Owns m₀ m' ({(l.data, .chars store)} + (storeHandle l + f)) := by rwa [storeBlocks, add_assoc] at owned
    have copies : ∀ (type : MoeTokenType) (value : Bytes → TokenValue),
        (∀ (t : TokenAt) b, t.object (value b) = ⟨type, .strValue t.text.handle⟩) → (∀ b, (value b).text? = some b) →
        Copies m₀ (moeTokenCreateTextAt type) value l lexer' f store m' := by
      intro type value object hasText
      obtain ⟨t, m'', copy, owned''⟩ := @moeTokenCreateTextAt_owns m₀ m' _ _ _ _ type (value (store.take lexer'.stringLen))
        owned' nul (fun t => object t _) (hasText _)
      refine ⟨t, m'', by rw [string, copy], ?_⟩
      rwa [storeBlocks, add_assoc]
    refine ⟨string, by rw [List.length_take]; omega, nul, spells, ?_, ?_⟩
    · exact copies .identifier .identifier (fun _ _ => rfl) (fun _ => rfl)
    · exact copies .stringLiteral .stringLiteral (fun _ _ => rfl) (fun _ => rfl)

/-- A text with a NUL behind it. -/
def Input.ofBytes (text : Bytes) : Input := ⟨fun i => text.getD i 0, text.length⟩

/-- The theorem at the first call on a literal with a NUL in it. -/
theorem store_and_copies_fit_literal :
    ∃ l lexer m, moeStringAlloc none 1024 Mem.empty = .ok (l.handle, m) ∧
      CallFits (Input.ofBytes (bytesOf "\"\\0a\"")) (fun p => (0, p + 1)) 6 Mem.empty l lexer 0 m := by
  obtain ⟨l, m, alloc, owned⟩ := moeStringAlloc_owns (owns_refl Mem.empty)
    (rfl : stringContent none 1024 = some (List.replicate 1024 0))
  exact ⟨l, stbCLexerInit ⟨0, 0, 0, 0, 0, 0, 0, 0, none, 0⟩ l.data 1024, m, alloc,
    store_and_copies_fit _ _ _ _ _ _ _ _ (Lexes.init alloc owned)⟩

/-- The decoded NUL is one of the two bytes of that literal. -/
example : (stbCLexerGetToken (Input.ofBytes (bytesOf "\"\\0a\"")) (fun p => (0, p + 1)) 6
      (stbCLexerInit ⟨0, 0, 0, 0, 0, 0, 0, 0, none, 0⟩ 0 1024)
      ⟨⟨[some (.chars (List.replicate 1025 0))]⟩, ⟨0, 0⟩⟩).toOption.map
      (fun r => (r.1.2.token, r.1.2.stringLen, r.2.heap.cells.map fun b => (b.bind Block.asChars).map (List.take 3))) =
    some (clexDqstring, 2, [some [0, 97, 0]]) := by
  decide +kernel

end Calls

end Stb

end MoeToolchain
