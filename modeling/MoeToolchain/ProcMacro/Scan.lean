import MoeToolchain.ProcMacro.LexerStream

/-!
# What a call of the lexer makes of its input

`scanCall` is a call of `stb_c_lexer_get_token` without the memory of the program: from a
position in the input and the bytes of the string store it gives the token, the position
behind it and the bytes that are in the store then.

Main results:

* `call_scans`: a call on the memory does what `scanCall` says.
* `returned_scanned`: the tokens that the calls of a run return are those of `scans`, which
  is a function of the input, whatever the memory is and whatever the rest of the program
  does between the calls.
-/

namespace MoeToolchain
set_option autoImplicit false
open Lib

namespace Stb

/-! ## A call without memory -/

/-- A token, the position behind it, and the bytes of the store. -/
structure Scan where
  token : Token
  next : Nat
  store : Bytes
deriving DecidableEq, Repr

/-- An error that leaves a text behind: what is in the store. -/
def Scan.textError (next : Nat) (store : Bytes) : Scan := ⟨.parseError (some (cString store)) none, next, store⟩

/-- The token of an identifier with this text. -/
def identifierToken (text : Bytes) : Token :=
  if valid : text ≠ [] ∧ 0 ∉ text then .id ⟨text, valid.1, valid.2⟩ else .parseError none none

section Source

variable (input : Input) (strtod : Nat → BitVec 64 × Nat) (len : Nat)

/-- `identifierLoop` with `n` bytes written. -/
def scanIdentifier (p : Nat) : Nat → Nat → Bytes → Option Scan
  | 0, _, _ => none
  | fuel + 1, n, store =>
    if n + 1 ≥ len then some (.textError (p + n + 1) store)
    else
      let store := store.set n (input.byte (p + n))
      if isIdChar (input.byte (p + (n + 1))) then scanIdentifier p fuel (n + 1) store
      else
        let store := store.set (n + 1) 0
        some ⟨identifierToken (store.take (n + 1)), p + n + 1, store⟩

/-- `parseStringLoop` with `out` bytes written. -/
def scanString (start : Nat) : Nat → Nat → Nat → Bytes → Option Scan
  | 0, _, _, _ => none
  | fuel + 1, p, out, store =>
    if input.byte p = input.byte start then
      let store := store.set out 0
      some ⟨.dqstring (store.take out), p + 1, store⟩
    else
      let (n, q) := clexParseChar input p
      if n < 0 then some (.textError (q + 1) store)
      else if out + 1 > len then some (.textError (q + 1) store)
      else scanString start fuel q (out + 1) (store.set out (UInt8.ofNat n.toNat))

/-- `charLiteral`: the token and the position behind it. -/
def scanChar (start : Nat) : Token × Nat :=
  let (n, p) := clexParseChar input (start + 1)
  if n < 0 then (.parseError none (some n), start + 1)
  else if p = input.eof ∨ input.byte p ≠ byteOf '\'' then (.parseError none (some n), p + 1)
  else (.charlit n, p + 2)

def scanInteger (fuel base p : Nat) : Option (Token × Nat) := do
  let r ← strtol input base fuel p
  some (.intlit r.1, r.2)

def scanHexInteger (fuel p : Nat) : Option (Token × Nat) := do
  let r ← strtol input 16 fuel p
  if r.2 = p + 2 then some (.parseError none (some r.1), p) else some (.intlit r.1, r.2)

/-- `number`. -/
def scanNumber (fuel p : Nat) : Option (Token × Nat) :=
  if input.byte p = byteOf '0' ∧ p + 1 ≠ input.eof ∧
      (input.byte (p + 1) = byteOf 'x' ∨ input.byte (p + 1) = byteOf 'X') then scanHexInteger input fuel p
  else do
    let q ← scanWhile input (fun i => isDigit (input.byte i)) fuel p
    if q ≠ input.eof ∧
        (input.byte q = byteOf '.' ∨ input.byte q = byteOf 'e' ∨ input.byte q = byteOf 'E') then
      some (.floatlit (strtod p).1, (strtod p).2)
    else if input.byte p = byteOf '0' then scanInteger input fuel 8 p
    else scanInteger input fuel 10 p

/-- A token without a text. -/
def Scan.ofPair (store : Bytes) (r : Token × Nat) : Scan := ⟨r.1, r.2, store⟩

/-- `clexSwitch`. -/
def scanToken (fuel p : Nat) (store : Bytes) : Option Scan :=
  let c := input.byte p
  if isIdStart c then scanIdentifier input len p (len + 1) 0 store
  else if c = byteOf '"' then scanString input len p (len + 1) (p + 1) 0 store
  else if c = byteOf '\'' then some (.ofPair store (scanChar input p))
  else if isDigit c then (scanNumber input strtod fuel p).map (Scan.ofPair store)
  else
    match operatorAt input p with
    | some (o, last) => some ⟨.op o, last + 1, store⟩
    | none => some ⟨.char (Fin.ofNat 128 c.toNat), p + 1, store⟩

/-- How a call ends, with enough turns. -/
inductive Scanned
  | ended
  | token (s : Scan)
deriving DecidableEq, Repr

/-- `stbCLexerGetToken`. -/
def scanCall (fuel p : Nat) (store : Bytes) : Option Scanned :=
  match skipSpace input fuel fuel p with
  | none => none
  | some (.unclosed _ q) => some (.token ⟨.parseError none none, q, store⟩)
  | some (.ends q) =>
    if q = input.eof then some .ended else (scanToken input strtod len fuel q store).map Scanned.token

end Source

/-! ## The call on the memory -/

section Loops

variable {input : Input} {strtod : Nat → BitVec 64 × Nat} {lexer lexer' : Lexer} {m₀ m : Mem} {f : Footprint}
  {store : Bytes} {p : Nat}

/-- A call on a store returned the token of `s`, with the position and the store of `s`. -/
def Does (input : Input) (m₀ : Mem) (f : Footprint) (lexer : Lexer) (store : Bytes) (s : Scan)
    (result : Except Fault (Lexer × Mem)) : Prop :=
  ∃ lexer' m', result = .ok (lexer', m') ∧ lexer'.parsePoint = s.next ∧
    Leaves input m₀ f lexer s.token lexer' s.store m' ∧ s.store.length = store.length ∧
    (s.token.text? = none → s.store = store ∧ lexer'.string = lexer.string)

/-- The loops end in a token with a text. -/
def DoesText (input : Input) (m₀ : Mem) (f : Footprint) (lexer : Lexer) (store : Bytes) (scan : Option Scan)
    (result : Except Fault (Lexer × Mem)) : Prop :=
  ∃ s, scan = some s ∧ s.token.text? ≠ none ∧ Does input m₀ f lexer store s result

theorem DoesText.textError (owned : Owns m₀ m ({(lexer.stringStorage, .chars store)} + f)) (first : Int) (last : Nat) :
    DoesText input m₀ f lexer store (some (.textError (last + 1) store))
      (.ok (clexToken lexer clexParseError first last, m)) := by
  refine ⟨_, rfl, nofun, _, m, rfl, ?_, ⟨rfl, rfl, owned, rfl, rfl, rfl, rfl, ?_, nofun⟩, rfl, nofun⟩
  · show ((last : Int) + 1).toNat = last + 1
    omega
  · rintro - text ⟨⟩
    rfl

/-- A store that was written to stands for the one before. -/
theorem DoesText.written {c : UInt8} {n : Nat} {scan : Option Scan} {result : Except Fault (Lexer × Mem)}
    (does : DoesText input m₀ f lexer (store.set n c) scan result) : DoesText input m₀ f lexer store scan result := by
  obtain ⟨s, here, text, lexer', m', run, next, leaves, size, -⟩ := does
  rw [List.length_set] at size
  exact ⟨s, here, text, lexer', m', run, next, leaves, size, fun none_ => absurd none_ text⟩

/-- The text of an identifier is one. -/
theorem identifierToken_eq {text : Bytes} (nonempty : text ≠ []) (no_nul : 0 ∉ text) :
    identifierToken text = .id ⟨text, nonempty, no_nul⟩ := dif_pos ⟨nonempty, no_nul⟩

theorem identifierLoop_scans (fuel : Nat) : ∀ {n : Nat} {m : Mem} {store : Bytes},
    Owns m₀ m ({(lexer.stringStorage, .chars store)} + f) → lexer.stringStorageLen < store.length →
    lexer.string = some lexer.stringStorage → n ≤ lexer.stringStorageLen → lexer.stringStorageLen < n + fuel →
    store.take n = (List.range n).map (fun i => input.byte (p + i)) →
    (∀ i ≤ n, isIdChar (input.byte (p + i)) = true) →
    DoesText input m₀ f lexer store (scanIdentifier input lexer.stringStorageLen p fuel n store)
      (identifierLoop input lexer p fuel n m) := by
  induction fuel with
  | zero =>
    intro n m store owned room string bound enough
    omega
  | succ fuel ih =>
    intro n m store owned room string bound enough written letters
    unfold identifierLoop scanIdentifier
    by_cases full : n + 1 ≥ lexer.stringStorageLen
    · rw [if_pos full, if_pos full]
      exact DoesText.textError owned p (p + n)
    · obtain ⟨m1, write, owned1⟩ := storeByte_owns owned (n := n) (by omega) (input.byte (p + n))
      have written1 : (store.set n (input.byte (p + n))).take (n + 1) =
          (List.range (n + 1)).map (fun i => input.byte (p + i)) := by
        rw [take_set_succ (by omega), written, List.range_succ, List.map_append]
        rfl
      rw [if_neg full, if_neg full, Exec.bind_ok write]
      by_cases more : isIdChar (input.byte (p + (n + 1))) = true
      · simp only [more, if_true]
        have next := ih owned1 (by rwa [List.length_set]) string (by omega) (by omega) written1
          (fun i bound' => by
            rcases Nat.lt_or_eq_of_le bound' with less | rfl
            · exact letters i (by omega)
            · exact more)
        exact next.written
      · obtain ⟨m2, close, owned2⟩ := storeByte_owns owned1 (n := n + 1) (by rw [List.length_set]; omega) 0
        simp only [more]
        rw [if_neg Bool.false_ne_true, if_neg Bool.false_ne_true, Exec.bind_ok close]
        have text : ((store.set n (input.byte (p + n))).set (n + 1) 0).take (n + 1) =
            (List.range (n + 1)).map (fun i => input.byte (p + i)) := by
          rw [List.take_set_of_le (Nat.le_refl _), written1]
        have all : ∀ c ∈ (List.range (n + 1)).map (fun i => input.byte (p + i)), isIdChar c = true := by
          intro c here
          obtain ⟨i, inside, rfl⟩ := List.mem_map.mp here
          exact letters i (Nat.le_of_lt_succ (List.mem_range.mp inside))
        have nonempty : (List.range (n + 1)).map (fun i => input.byte (p + i)) ≠ [] := by simp
        have no_nul : 0 ∉ (List.range (n + 1)).map (fun i => input.byte (p + i)) :=
          fun zero => isIdChar_ne_zero (all 0 zero) rfl
        rw [text, identifierToken_eq nonempty no_nul]
        refine ⟨_, rfl, by simp [Token.text?], _, m2, rfl, ?_, ?_, by simp, by simp [Token.text?]⟩
        · show ((p : Int) + n + 1).toNat = p + n + 1
          omega
        refine ⟨rfl, rfl, owned2, rfl, ?_, rfl, rfl, by simp, ?_⟩
        · show n + 1 = List.length _
          simp
        · rintro - _ ⟨⟩
          refine ⟨⟨string, ?_, nul_set (by simp; omega), ?_⟩, text.symm⟩
          · show n + 1 ≤ lexer.stringStorageLen
            omega
          · show Spells input _ (List.take (n + 1) _)
            rw [text]
            exact Spells.identifier rfl p rfl nonempty (by simp) all

theorem identifier_scans (owned : Owns m₀ m ({(lexer.stringStorage, .chars store)} + f))
    (room : lexer.stringStorageLen < store.length) (first : isIdStart (input.byte p) = true) :
    DoesText input m₀ f lexer store (scanIdentifier input lexer.stringStorageLen p (lexer.stringStorageLen + 1) 0 store)
      (identifier input lexer p m) := by
  have letters : ∀ i ≤ 0, isIdChar (input.byte (p + i)) = true := by
    intro i bound
    obtain rfl := Nat.le_zero.mp bound
    rw [isIdChar, Nat.add_zero, first]
    rfl
  let pointed : Lexer := { lexer with string := some lexer.stringStorage }
  obtain ⟨s, scan, some_, lexer', m', run, next, leaves, size, -⟩ :=
    @identifierLoop_scans input pointed m₀ f p (lexer.stringStorageLen + 1) 0 m store owned room rfl (Nat.zero_le _)
      (by simp [pointed]) rfl letters
  obtain ⟨storage, len, owned', token, stringLen, int, real, error, text⟩ := leaves
  exact ⟨s, scan, some_, lexer', m', run, next, ⟨storage, len, owned', token, stringLen, int, real, error, text⟩, size,
    fun none_ => absurd none_ some_⟩

theorem parseStringLoop_scans (start : Nat) (fuel : Nat) : ∀ {p out : Nat} {m : Mem} {store : Bytes},
    Owns m₀ m ({(lexer.stringStorage, .chars store)} + f) → lexer.stringStorageLen < store.length →
    out ≤ lexer.stringStorageLen → lexer.stringStorageLen < out + fuel →
    (∀ b e, Decodes input (input.byte start) p b e →
      Decodes input (input.byte start) (start + 1) (store.take out ++ b) e) →
    DoesText input m₀ f lexer store (scanString input lexer.stringStorageLen start fuel p out store)
      (parseStringLoop input lexer start clexDqstring fuel p out m) := by
  induction fuel with
  | zero =>
    intro p out m store owned room bound enough
    omega
  | succ fuel ih =>
    intro p out m store owned room bound enough before
    unfold parseStringLoop scanString
    by_cases close : input.byte p = input.byte start
    · obtain ⟨m1, write, owned1⟩ := storeByte_owns owned (n := out) (by omega) 0
      rw [if_pos close, if_pos close, Exec.bind_ok write]
      have text : (store.set out 0).take out = store.take out := List.take_set_of_le (Nat.le_refl out)
      have length : out = (store.take out).length := by
        rw [List.length_take]
        omega
      simp only [text]
      refine ⟨_, rfl, by simp [Token.text?], _, m1, rfl, ?_, ?_, by simp, by simp [Token.text?]⟩
      · show ((p : Int) + 1).toNat = p + 1
        omega
      refine ⟨rfl, rfl, owned1, rfl, length, rfl, rfl, by simp [Token.isError], ?_⟩
      rintro - _ ⟨⟩
      refine ⟨⟨rfl, bound, nul_set (by omega), Spells.literal rfl start rfl p ?_⟩, text.symm⟩
      show Decodes _ _ _ ((store.set out 0).take out) p
      rw [text, ← List.append_nil (store.take out)]
      exact before [] p (.close close)
    · rw [if_neg close, if_neg close]
      cases parse : clexParseChar input p with
      | mk n q =>
        simp only
        by_cases unknown : n < 0
        · rw [if_pos unknown, if_pos unknown]
          exact DoesText.textError owned start q
        · rw [if_neg unknown, if_neg unknown]
          by_cases full : out + 1 > lexer.stringStorageLen
          · rw [if_pos full, if_pos full]
            exact DoesText.textError owned start q
          · obtain ⟨m1, write, owned1⟩ := storeByte_owns owned (n := out) (by omega) (UInt8.ofNat n.toNat)
            rw [if_neg full, if_neg full, Exec.bind_ok write]
            have before1 : ∀ b e, Decodes input (input.byte start) q b e → Decodes input (input.byte start) (start + 1)
                ((store.set out (UInt8.ofNat n.toNat)).take (out + 1) ++ b) e := by
              intro b e rest
              rw [take_set_succ (by omega), List.append_assoc]
              exact before _ e (.char close parse (by omega) rest)
            have next := ih owned1 (by rwa [List.length_set]) (by omega) (by omega) before1
            exact next.written

end Loops

section Others

variable {input : Input} {strtod : Nat → BitVec 64 × Nat} {lexer lexer' : Lexer} {m₀ m : Mem} {f : Footprint}
  {store : Bytes} {fuel p : Nat}

/-- The lexer took the token of `r`, which has no text, and is behind it. -/
def Takes (lexer : Lexer) (r : Token × Nat) (lexer' : Lexer) : Prop :=
  Textless lexer r.1 lexer' ∧ lexer'.parsePoint = r.2

theorem Takes.does {r : Token × Nat} (takes : Takes lexer r lexer')
    (owned : Owns m₀ m ({(lexer.stringStorage, .chars store)} + f)) :
    Does input m₀ f lexer store (.ofPair store r) (.ok (lexer', m)) :=
  ⟨lexer', m, rfl, takes.2, takes.1.leaves owned, rfl, fun _ => ⟨rfl, takes.1.string⟩⟩

theorem charLiteral_takes : Takes lexer (scanChar input p) (charLiteral input lexer p) := by
  cases parse : clexParseChar input (p + 1) with
  | mk n q =>
    simp only [charLiteral, scanChar, parse]
    split
    · exact ⟨⟨rfl, rfl, rfl, rfl, rfl, rfl, rfl, rfl⟩, by simp only [clexToken]; omega⟩
    · split
      · exact ⟨⟨rfl, rfl, rfl, rfl, rfl, rfl, rfl, rfl⟩, by simp only [clexToken]; omega⟩
      · exact ⟨⟨rfl, rfl, rfl, rfl, rfl, rfl, rfl, rfl⟩, by simp only [clexToken]; omega⟩

/-- The two readings of a number go together. -/
def TakesAll (lexer : Lexer) : Option (Token × Nat) → Option Lexer → Prop
  | none, none => True
  | some r, some lexer' => Takes lexer r lexer'
  | _, _ => False

theorem integer_takes {base : Nat} : TakesAll lexer (scanInteger input fuel base p) (integer input fuel lexer base p) := by
  cases run : strtol input base fuel p with
  | none => simp [scanInteger, integer, run, TakesAll]
  | some r =>
    simp only [scanInteger, integer, run, Option.bind_eq_bind, Option.bind_some, TakesAll]
    exact ⟨⟨rfl, rfl, rfl, rfl, rfl, rfl, rfl, rfl⟩, by simp only [clexToken]; omega⟩

theorem hexInteger_takes : TakesAll lexer (scanHexInteger input fuel p) (hexInteger input fuel lexer p) := by
  cases run : strtol input 16 fuel p with
  | none => simp [scanHexInteger, hexInteger, run, TakesAll]
  | some r =>
    simp only [scanHexInteger, hexInteger, run, Option.bind_eq_bind, Option.bind_some]
    split
    · exact ⟨⟨rfl, rfl, rfl, rfl, rfl, rfl, rfl, rfl⟩, by simp only [clexToken]; omega⟩
    · exact ⟨⟨rfl, rfl, rfl, rfl, rfl, rfl, rfl, rfl⟩, by simp only [clexToken]; omega⟩

theorem number_takes : TakesAll lexer (scanNumber input strtod fuel p) (number input strtod fuel lexer p) := by
  unfold scanNumber number
  split
  · exact hexInteger_takes
  · cases run : scanWhile input (fun i => isDigit (input.byte i)) fuel p with
    | none => simp [TakesAll]
    | some q =>
      simp only [Option.bind_eq_bind, Option.bind_some]
      split
      · exact ⟨⟨rfl, rfl, rfl, rfl, rfl, rfl, rfl, rfl⟩, by simp only [clexToken]; omega⟩
      · split
        · exact integer_takes
        · exact integer_takes

/-- A byte that starts no identifier is below 128. -/
theorem byte_small {c : UInt8} (other : ¬ isIdStart c = true) : c.toNat < 128 := by
  simp only [isIdStart, Bool.or_eq_true, not_or, decide_eq_true_eq] at other
  exact Nat.lt_of_not_le fun large => other.1.2 large

theorem clexSwitch_scans (owned : Owns m₀ m ({(lexer.stringStorage, .chars store)} + f))
    (room : lexer.stringStorageLen < store.length) :
    match scanToken input strtod lexer.stringStorageLen fuel p store with
    | none => clexSwitch input strtod fuel lexer p m = .error .outOfFuel
    | some s => Does input m₀ f lexer store s (clexSwitch input strtod fuel lexer p m) := by
  unfold clexSwitch scanToken
  by_cases id : isIdStart (input.byte p) = true
  · obtain ⟨s, scan, -, does⟩ := @identifier_scans input lexer m₀ m f store p owned room id
    simp only [id, if_true, scan]
    exact does
  simp only [id]
  by_cases dq : input.byte p = byteOf '"'
  · obtain ⟨s, scan, -, does⟩ := @parseStringLoop_scans input lexer m₀ f p (lexer.stringStorageLen + 1) (p + 1) 0 m store
      owned room (Nat.zero_le _) (by omega) fun _ _ rest => rest
    simp only [Bool.false_eq_true, if_false, if_pos dq, scan]
    exact does
  by_cases sq : input.byte p = byteOf '\''
  · simp only [Bool.false_eq_true, if_false, if_neg dq, if_pos sq]
    exact charLiteral_takes.does owned
  by_cases digit : isDigit (input.byte p) = true
  · simp only [Bool.false_eq_true, if_false, if_neg dq, if_neg sq, digit, if_true]
    have both := @number_takes input strtod lexer fuel p
    cases scan : scanNumber input strtod fuel p with
    | none =>
      cases run : number input strtod fuel lexer p with
      | none => rfl
      | some lexer' =>
        rw [scan, run] at both
        cases both
    | some r =>
      cases run : number input strtod fuel lexer p with
      | none =>
        rw [scan, run] at both
        cases both
      | some lexer' =>
        rw [scan, run] at both
        exact both.does owned
  simp only [Bool.false_eq_true, if_false, if_neg dq, if_neg sq, digit]
  cases operatorAt input p with
  | none =>
    have small := byte_small id
    have char : (Fin.ofNat 128 (input.byte p).toNat : Fin 128) = ⟨(input.byte p).toNat, small⟩ :=
      Fin.ext (Nat.mod_eq_of_lt small)
    have takes : Takes lexer (.char (Fin.ofNat 128 (input.byte p).toNat), p + 1)
        (clexToken lexer (input.byte p).toNat p p) := by
      rw [char]
      exact ⟨⟨rfl, rfl, rfl, rfl, rfl, rfl, rfl, rfl⟩, by simp only [clexToken]; omega⟩
    exact takes.does owned
  | some r =>
    have takes : Takes lexer (.op r.1, r.2 + 1) (clexToken lexer r.1.code p r.2) :=
      ⟨⟨rfl, rfl, rfl, rfl, rfl, rfl, rfl, rfl⟩, by simp only [clexToken]; omega⟩
    exact takes.does owned

/-- A call on the memory does what the scan of the input says. -/
theorem call_scans (owned : Owns m₀ m ({(lexer.stringStorage, .chars store)} + f))
    (room : lexer.stringStorageLen < store.length) :
    match scanCall input strtod lexer.stringStorageLen fuel lexer.parsePoint store with
    | none => stbCLexerGetToken input strtod fuel lexer m = .error .outOfFuel
    | some .ended => stbCLexerGetToken input strtod fuel lexer m = .ok ((false, { lexer with token := clexEof }), m)
    | some (.token s) => ∃ lexer' m', stbCLexerGetToken input strtod fuel lexer m = .ok ((true, lexer'), m') ∧
        lexer'.parsePoint = s.next ∧ Leaves input m₀ f lexer s.token lexer' s.store m' ∧
        s.store.length = store.length ∧ (s.token.text? = none → s.store = store ∧ lexer'.string = lexer.string) := by
  unfold stbCLexerGetToken scanCall
  cases skipSpace input fuel fuel lexer.parsePoint with
  | none => rfl
  | some r =>
    cases r with
    | unclosed start q =>
      have textless : Textless lexer (.parseError none none) (clexToken lexer clexParseError start (q - 1)) :=
        ⟨rfl, rfl, rfl, rfl, rfl, rfl, rfl, rfl⟩
      exact ⟨_, m, rfl, by simp only [clexToken]; omega, textless.leaves owned, rfl, fun _ => ⟨rfl, rfl⟩⟩
    | ends q =>
      by_cases done : q = input.eof
      · simp only [if_pos done]
        rfl
      · simp only [if_neg done]
        have switch := @clexSwitch_scans input strtod lexer m₀ m f store fuel q owned room
        cases scan : scanToken input strtod lexer.stringStorageLen fuel q store with
        | none =>
          rw [scan] at switch
          exact Exec.bind_error switch
        | some s =>
          rw [scan] at switch
          obtain ⟨lexer', m', run, rest⟩ := switch
          exact ⟨lexer', m', by rw [Exec.bind_ok run]; rfl, rest⟩

end Others

/-! ## Turns -/

section Turns

variable {input : Input} {strtod : Nat → BitVec 64 × Nat} {len : Nat} {store : Bytes} {p : Nat}

/-- More turns change nothing once a loop has ended. -/
theorem scanWhile_mono {go : Nat → Bool} {q fuel fuel' : Nat} (more : fuel ≤ fuel') :
    scanWhile input go fuel p = some q → scanWhile input go fuel' p = some q := by
  induction fuel generalizing p fuel' with
  | zero => exact nofun
  | succ fuel ih =>
    obtain ⟨fuel', rfl⟩ := Nat.exists_eq_succ_of_ne_zero (by omega : fuel' ≠ 0)
    unfold scanWhile
    split
    · exact ih (by omega)
    · exact id

theorem skipSpace_mono {r : Skipped} {limit limit' fuel fuel' : Nat} (wider : limit ≤ limit') (more : fuel ≤ fuel') :
    skipSpace input limit fuel p = some r → skipSpace input limit' fuel' p = some r := by
  induction fuel generalizing p fuel' with
  | zero => exact nofun
  | succ fuel ih =>
    obtain ⟨fuel', rfl⟩ := Nat.exists_eq_succ_of_ne_zero (by omega : fuel' ≠ 0)
    intro run
    rw [skipSpace, Option.bind_eq_bind, Option.bind_eq_some_iff] at run
    obtain ⟨q, white, run⟩ := run
    rw [skipSpace, scanWhile_mono wider white, Option.bind_eq_bind, Option.bind_some]
    split at run
    · rename_i cpp
      obtain ⟨q', line, run⟩ := Option.bind_eq_some_iff.mp run
      rw [if_pos cpp, scanWhile_mono wider line, Option.bind_some]
      exact ih (by omega) run
    · rename_i cpp
      rw [if_neg cpp]
      split at run
      · rename_i comment
        obtain ⟨q', inside, run⟩ := Option.bind_eq_some_iff.mp run
        rw [if_pos comment, scanWhile_mono wider inside, Option.bind_some]
        split at run
        · rename_i unclosed
          rw [if_pos unclosed]
          exact run
        · rename_i closed
          rw [if_neg closed]
          exact ih (by omega) run
      · rename_i comment
        rw [if_neg comment]
        split at run
        · rename_i directive
          obtain ⟨q', line, run⟩ := Option.bind_eq_some_iff.mp run
          rw [if_pos directive, scanWhile_mono wider line, Option.bind_some]
          exact ih (by omega) run
        · rename_i directive
          rw [if_neg directive]
          exact run

theorem strtolLoop_mono {base n fuel fuel' : Nat} {r : Nat × Nat} (more : fuel ≤ fuel') :
    strtolLoop input base fuel p n = some r → strtolLoop input base fuel' p n = some r := by
  induction fuel generalizing p n fuel' with
  | zero => exact nofun
  | succ fuel ih =>
    obtain ⟨fuel', rfl⟩ := Nat.exists_eq_succ_of_ne_zero (by omega : fuel' ≠ 0)
    unfold strtolLoop
    split
    · exact id
    · exact ih (by omega)

theorem strtol_mono {base fuel fuel' : Nat} {r : Int × Nat} (more : fuel ≤ fuel')
    (run : strtol input base fuel p = some r) : strtol input base fuel' p = some r := by
  obtain ⟨r', loop, same⟩ := Option.bind_eq_some_iff.mp run
  rw [strtol, strtolLoop_mono more loop]
  exact same

theorem scanNumber_mono {fuel fuel' : Nat} {r : Token × Nat} (more : fuel ≤ fuel')
    (run : scanNumber input strtod fuel p = some r) : scanNumber input strtod fuel' p = some r := by
  have integers : ∀ {base : Nat}, scanInteger input fuel base p = some r → scanInteger input fuel' base p = some r := by
    intro base run
    obtain ⟨r', number, same⟩ := Option.bind_eq_some_iff.mp run
    rw [scanInteger, strtol_mono more number]
    exact same
  unfold scanNumber at run ⊢
  split at run
  · rename_i hex
    obtain ⟨r', number, same⟩ := Option.bind_eq_some_iff.mp run
    rw [if_pos hex, scanHexInteger, strtol_mono more number]
    exact same
  · rename_i hex
    obtain ⟨q, digits, run⟩ := Option.bind_eq_some_iff.mp run
    rw [if_neg hex, scanWhile_mono more digits, Option.bind_eq_bind, Option.bind_some]
    split at run
    · rename_i float
      rw [if_pos float]
      exact run
    · rename_i float
      rw [if_neg float]
      split at run
      · rename_i octal
        rw [if_pos octal]
        exact integers run
      · rename_i octal
        rw [if_neg octal]
        exact integers run

theorem scanToken_mono {fuel fuel' : Nat} {s : Scan} (more : fuel ≤ fuel')
    (run : scanToken input strtod len fuel p store = some s) : scanToken input strtod len fuel' p store = some s := by
  unfold scanToken at run ⊢
  simp only at run ⊢
  split_ifs at run ⊢ with identifier string char digit
  · exact run
  · exact run
  · exact run
  · obtain ⟨r, number, same⟩ := Option.map_eq_some_iff.mp run
    rw [scanNumber_mono more number, ← same]
    rfl
  · exact run

theorem scanCall_mono {fuel fuel' : Nat} {r : Scanned} (more : fuel ≤ fuel')
    (run : scanCall input strtod len fuel p store = some r) : scanCall input strtod len fuel' p store = some r := by
  unfold scanCall at run ⊢
  cases skip : skipSpace input fuel fuel p with
  | none =>
    rw [skip] at run
    cases run
  | some q =>
    rw [skip] at run
    rw [skipSpace_mono more more skip]
    cases q with
    | unclosed _ _ => exact run
    | ends q =>
      simp only at run ⊢
      split at run
      · rename_i done
        rw [if_pos done]
        exact run
      · rename_i inside
        obtain ⟨s, token, same⟩ := Option.map_eq_some_iff.mp run
        rw [if_neg inside, scanToken_mono more token, ← same]
        rfl

/-- What a call makes of its input does not depend on its turns. -/
theorem scanCall_unique {fuel fuel' : Nat} {r r' : Scanned} (run : scanCall input strtod len fuel p store = some r)
    (run' : scanCall input strtod len fuel' p store = some r') : r = r' :=
  Option.some.inj ((scanCall_mono (Nat.le_max_left fuel fuel') run).symm.trans
    (scanCall_mono (Nat.le_max_right fuel fuel') run'))

end Turns

/-! ## Calls one after the other -/

section Calls

variable {input : Input} {strtod : Nat → BitVec 64 × Nat} {len : Nat}

/-- The calls from a position and a store return these tokens, and end at a position with a store. -/
inductive Scans (input : Input) (strtod : Nat → BitVec 64 × Nat) (len : Nat) (p : Nat) (store : Bytes) :
    List Token → Nat → Bytes → Prop
  | nil : Scans input strtod len p store [] p store
  | snoc {ts : List Token} {q fuel : Nat} {store' : Bytes} {s : Scan} (before : Scans input strtod len p store ts q store')
      (call : scanCall input strtod len fuel q store' = some (.token s)) :
      Scans input strtod len p store (ts ++ [s.token]) s.next s.store

/-- The calls are a function of the input. -/
theorem Scans.unique {p q q' : Nat} {store store' store'' : Bytes} {ts ts' : List Token}
    (scans : Scans input strtod len p store ts q store') (scans' : Scans input strtod len p store ts' q' store'')
    (count : ts.length = ts'.length) : ts = ts' ∧ q = q' ∧ store' = store'' := by
  induction scans generalizing ts' q' store'' with
  | nil =>
    cases scans' with
    | nil => exact ⟨rfl, rfl, rfl⟩
    | snoc _ _ => simp at count
  | @snoc ts q fuel store' s before call ih =>
    cases scans' with
    | nil => simp at count
    | snoc before' call' =>
      rw [List.length_append, List.length_append] at count
      obtain ⟨rfl, rfl, rfl⟩ := ih before' (Nat.add_right_cancel count)
      cases scanCall_unique call call'
      exact ⟨rfl, rfl, rfl⟩

/-- The store before the first call. -/
def freshStore : Bytes := List.replicate 1025 0

variable {m₀ m : Mem} {l : StringAt} {lexer₀ lexer : Lexer} {n : Nat} {f : Footprint}

/-- The lexer after `n` calls that returned tokens, on a store that held `store₀` at first, with the rest of the
program in between. -/
inductive Called (input : Input) (strtod : Nat → BitVec 64 × Nat) (m₀ : Mem) (l : StringAt) (lexer₀ : Lexer)
    (store₀ : Bytes) : Nat → Lexer → Footprint → Mem → Prop
  | init {f : Footprint} {m : Mem} (size : store₀.length = 1025) (owned : Owns m₀ m (storeBlocks l store₀ + f)) :
      Called input strtod m₀ l lexer₀ store₀ 0 (stbCLexerInit lexer₀ l.data 1024) f m
  | call {n : Nat} {lexer lexer' : Lexer} {f : Footprint} {m m' : Mem} {fuel : Nat}
      (before : Called input strtod m₀ l lexer₀ store₀ n lexer f m)
      (run : stbCLexerGetToken input strtod fuel lexer m = .ok ((true, lexer'), m')) :
      Called input strtod m₀ l lexer₀ store₀ (n + 1) lexer' f m'
  | others {n : Nat} {lexer : Lexer} {f g : Footprint} {m m' : Mem}
      (before : Called input strtod m₀ l lexer₀ store₀ n lexer f m)
      (frame : ∀ store, Owns m₀ m (storeBlocks l store + f) → Owns m₀ m' (storeBlocks l store + g)) :
      Called input strtod m₀ l lexer₀ store₀ n lexer g m'

/-- The stream before the first call, on a store that holds `store₀`. -/
def startOf (lexer₀ : Lexer) (store₀ : Bytes) (tokens : List Token) : StbLexer :=
  { streamOf lexer₀ tokens with string := cString store₀ }

theorem startOf_fresh (lexer₀ : Lexer) (tokens : List Token) : startOf lexer₀ freshStore tokens = streamOf lexer₀ tokens := rfl

/-- What the lexer holds after the tokens `ts`: its store, its position, and what it shows of the stream. -/
structure Holds (input : Input) (strtod : Nat → BitVec 64 × Nat) (m₀ : Mem) (l : StringAt) (lexer₀ : Lexer)
    (store₀ : Bytes) (lexer : Lexer) (f : Footprint) (m : Mem) (ts : List Token) (store : Bytes) : Prop where
  storage : lexer.stringStorage = l.data
  storageLen : lexer.stringStorageLen = 1024
  size : store.length = 1025
  owned : Owns m₀ m (storeBlocks l store + f)
  scans : Scans input strtod 1024 0 store₀ ts lexer.parsePoint store
  shown : ∀ rest, Shows lexer store ((startOf lexer₀ store₀ (ts ++ rest)).after ts rest)
  text : ∀ rest, ts ≠ [] → ShowsText lexer store ((startOf lexer₀ store₀ (ts ++ rest)).after ts rest)

/-- A call reads the next token of the input. -/
theorem Holds.call {ts : List Token} {store₀ store : Bytes} {lexer' : Lexer} {m' : Mem} {fuel : Nat}
    (holds : Holds input strtod m₀ l lexer₀ store₀ lexer f m ts store)
    (run : stbCLexerGetToken input strtod fuel lexer m = .ok ((true, lexer'), m')) :
    ∃ s, scanCall input strtod 1024 fuel lexer.parsePoint store = some (.token s) ∧
      Holds input strtod m₀ l lexer₀ store₀ lexer' f m' (ts ++ [s.token]) s.store := by
  obtain ⟨room, owned⟩ := store_ready holds.storage holds.storageLen holds.size holds.owned
  have does := @call_scans input strtod lexer m₀ m _ store fuel owned room
  rw [holds.storageLen] at does
  cases scan : scanCall input strtod 1024 fuel lexer.parsePoint store with
  | none =>
    rw [scan, run] at does
    cases does
  | some r =>
    cases r with
    | ended =>
      rw [scan, run] at does
      cases does
    | token s =>
      rw [scan] at does
      obtain ⟨lexer1, m1, run', next, leaves, size, kept⟩ := does
      rw [run] at run'
      cases run'
      have shows_ : ∀ rest, Shows lexer' s.store ((startOf lexer₀ store₀ (ts ++ [s.token] ++ rest)).after (ts ++ [s.token]) rest) ∧
          ShowsText lexer' s.store ((startOf lexer₀ store₀ (ts ++ [s.token] ++ rest)).after (ts ++ [s.token]) rest) := by
        intro rest
        rw [List.append_assoc, StbLexer.after_append]
        exact leaves.shows kept (holds.shown (s.token :: rest)) rest
      refine ⟨s, rfl, leaves.storage.trans holds.storage, leaves.storageLen.trans holds.storageLen,
        size.trans holds.size, ?_, ?_, fun rest => (shows_ rest).1, fun rest _ => (shows_ rest).2⟩
      · have owned' := leaves.owned
        rwa [holds.storage, ← add_assoc] at owned'
      · rw [next]
        exact holds.scans.snoc scan

/-- The calls of a run return the tokens of the input, whatever else is in the memory. -/
theorem called_scanned {store₀ : Bytes} (reached : Called input strtod m₀ l lexer₀ store₀ n lexer f m) :
    ∃ ts store, ts.length = n ∧ Holds input strtod m₀ l lexer₀ store₀ lexer f m ts store := by
  induction reached with
  | init size owned =>
    have first : cString store₀ = cString (cString store₀) := (cString_of_no_nul (no_nul_cString store₀)).symm
    exact ⟨[], store₀, rfl, rfl, rfl, size, owned, .nil, fun rest => ⟨rfl, rfl, rfl, rfl, fun _ => first.symm⟩, nofun⟩
  | @call n lexer lexer' f m m' fuel before run ih =>
    obtain ⟨ts, store, count, holds⟩ := ih
    obtain ⟨s, -, holds'⟩ := holds.call run
    exact ⟨ts ++ [s.token], s.store, by rw [List.length_append, count]; rfl, holds'⟩
  | others before frame ih =>
    obtain ⟨ts, store, count, holds⟩ := ih
    exact ⟨ts, store, count, { holds with owned := frame store holds.owned }⟩

/-- The calls of `main` are on a store of zeroes. -/
theorem Returned.called (reached : Returned input strtod m₀ l lexer₀ n lexer f m) :
    Called input strtod m₀ l lexer₀ freshStore n lexer f m := by
  induction reached with
  | init alloc owned =>
    rw [strBlocks_store] at owned
    exact .init List.length_replicate owned
  | call before run ih => exact .call ih run
  | others before frame ih => exact .others ih frame

theorem returned_scanned (reached : Returned input strtod m₀ l lexer₀ n lexer f m) :
    ∃ ts store, ts.length = n ∧ Holds input strtod m₀ l lexer₀ freshStore lexer f m ts store :=
  called_scanned reached.called

end Calls

end Stb

end MoeToolchain
