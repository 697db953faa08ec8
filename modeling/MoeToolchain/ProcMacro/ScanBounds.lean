import MoeToolchain.ProcMacro.Scan

/-!
# The lexer stays in its input

A call that starts inside an input that ends in a NUL takes at least one byte of it. What
it takes ends inside the input, and what lies behind the NUL has no part in it, unless the
token is a literal that is not closed: the loops over literals do not look for the end.

Main result:

* `lexer_on_text`: on a text whose literals are closed, the calls of every run return the
  tokens that `tokensOf` makes of the text, one after the other, and then the end.
-/

namespace MoeToolchain
set_option autoImplicit false
open Lib

namespace Stb

/-- Two inputs with the same bytes up to the end and the byte at it. -/
structure SameText (input input' : Input) : Prop where
  eof : input'.eof = input.eof
  byte : ∀ i ≤ input.eof, input'.byte i = input.byte i

/-- `strtod` at a digit takes that digit, and stops at the NUL at the latest. -/
def StrtodOk (input : Input) (strtod : Nat → BitVec 64 × Nat) : Prop :=
  ∀ p < input.eof, isDigit (input.byte p) = true → p < (strtod p).2 ∧ (strtod p).2 ≤ input.eof

section Loops

variable {input input' : Input} {len fuel p : Nat} {store : Bytes} {s : Scan}

theorem scanWhile_local {go go' : Nat → Bool} (eof : input'.eof = input.eof)
    (same : ∀ i < input.eof, go' i = go i) : ∀ {p : Nat}, p ≤ input.eof →
    scanWhile input' go' fuel p = scanWhile input go fuel p := by
  induction fuel with
  | zero =>
    intro p bound
    rfl
  | succ fuel ih =>
    intro p bound
    unfold scanWhile
    rw [eof]
    by_cases ended : p = input.eof
    · simp [ended]
    · rw [same p (by omega)]
      split
      · exact ih (by omega)
      · rfl

theorem scanWhile_inside {go : Nat → Bool} {q : Nat} (bound : p ≤ input.eof) (run : scanWhile input go fuel p = some q) :
    p ≤ q ∧ q ≤ input.eof := by
  induction fuel generalizing p with
  | zero => cases run
  | succ fuel ih =>
    unfold scanWhile at run
    split at run
    · obtain ⟨after, before⟩ := ih (by omega) run
      exact ⟨by omega, before⟩
    · cases run
      exact ⟨Nat.le_refl _, bound⟩

theorem scanWhile_stops {go : Nat → Bool} {q : Nat} (run : scanWhile input go fuel p = some q) (more : q ≠ input.eof) :
    go q = false := by
  induction fuel generalizing p with
  | zero => cases run
  | succ fuel ih =>
    unfold scanWhile at run
    split at run
    · exact ih run
    · rename_i stop
      obtain rfl := Option.some.inj run
      exact Bool.eq_false_of_not_eq_true fun going => stop ⟨more, going⟩

theorem inLine_local (same : SameText input input') : ∀ i < input.eof, inLine input' i = inLine input i := by
  intro i inside
  rw [inLine, inLine, same.byte i (by omega)]

theorem inComment_local (same : SameText input input') : ∀ i < input.eof, inComment input' i = inComment input i := by
  intro i inside
  rw [inComment, inComment, same.byte i (by omega), same.byte (i + 1) (by omega)]

theorem skipSpace_local (same : SameText input input') (nul : input.byte input.eof = 0) {limit : Nat} (fuel : Nat) :
    ∀ {p : Nat}, p ≤ input.eof → input.eof < p + limit →
    skipSpace input' limit fuel p = skipSpace input limit fuel p := by
  induction fuel with
  | zero =>
    intro p bound many
    rfl
  | succ fuel ih =>
    intro p bound many
    have white : ∀ i < input.eof, clexIswhite (input'.byte i) = clexIswhite (input.byte i) := by
      intro i inside
      rw [same.byte i (by omega)]
    obtain ⟨q, run, above, below, -, -⟩ :=
      scanWhile_returns (fun i => clexIswhite (input.byte i)) limit bound many
    rw [skipSpace, skipSpace, scanWhile_local same.eof white bound, run, Option.bind_eq_bind, Option.bind_some,
      Option.bind_some]
    by_cases ended : q = input.eof
    · simp [ended, same.eof]
    have first : input'.byte q = input.byte q := same.byte q (by omega)
    have second : input'.byte (q + 1) = input.byte (q + 1) := same.byte (q + 1) (by omega)
    obtain ⟨e, line, above', below', -, moves⟩ := @scanWhile_returns input (inLine input) limit q below (by omega)
    have again : ∀ {q' : Nat}, p ≤ q' → q' ≤ input.eof →
        skipSpace input' limit fuel q' = skipSpace input limit fuel q' := fun after before => ih before (by omega)
    rw [same.eof, first, second, scanWhile_local same.eof (inLine_local same) below, line]
    simp only [Option.bind_some]
    rw [again (by omega) below']
    by_cases comment : q ≠ input.eof ∧ input.byte q = byteOf '/' ∧ input.byte (q + 1) = byteOf '*'
    · have inside : q + 1 < input.eof := before_nul nul (by omega) comment.2.2 (by decide)
      obtain ⟨c, run', after, before, stop, -⟩ :=
        @scanWhile_returns input (inComment input) limit (q + 2) (by omega) (by omega)
      rw [if_pos comment, if_pos comment, scanWhile_local same.eof (inComment_local same) (by omega), run']
      simp only [Option.bind_some]
      by_cases open_ : c = input.eof
      · rw [if_pos open_, if_pos open_]
      · rw [if_neg open_, if_neg open_]
        have close := stop.resolve_left open_
        simp only [inComment, Bool.or_eq_false_iff, bne_eq_false_iff_eq] at close
        have inside' : c + 1 < input.eof := before_nul nul (by omega) close.2 (by decide)
        rw [again (by omega) (by omega)]
    · rw [if_neg comment, if_neg comment]

/-- An identifier ends inside the input, and is settled by it. -/
theorem scanIdentifier_inside (same : SameText input input') (nul : input.byte input.eof = 0) (fuel : Nat) :
    ∀ {n : Nat} {store : Bytes}, p + n < input.eof → scanIdentifier input len p fuel n store = some s →
    p < s.next ∧ s.next ≤ input.eof ∧ scanIdentifier input' len p fuel n store = some s := by
  induction fuel with
  | zero =>
    intro n store inside scan
    cases scan
  | succ fuel ih =>
    intro n store inside scan
    unfold scanIdentifier at scan ⊢
    rw [same.byte (p + n) (by omega), same.byte (p + (n + 1)) (by omega)]
    split at scan
    · rename_i full
      cases scan
      rw [if_pos full]
      exact ⟨by simp only [Scan.textError]; omega, by simp only [Scan.textError]; omega, rfl⟩
    · rename_i room
      rw [if_neg room]
      by_cases more : isIdChar (input.byte (p + (n + 1))) = true
      · simp only [more, if_true] at scan ⊢
        have onward : p + (n + 1) < input.eof :=
          before_nul nul (by omega) rfl fun zero => isIdChar_ne_zero more zero
        exact ih onward scan
      · simp only [more] at scan ⊢
        cases scan
        exact ⟨by simp only; omega, by simp only; omega, rfl⟩

theorem clexParseChar_moves : p < (clexParseChar input p).2 ∧ (clexParseChar input p).2 ≤ p + 2 := by
  unfold clexParseChar
  split
  · split
    · exact ⟨by simp only; omega, by simp only; omega⟩
    · exact ⟨by simp only; omega, by simp only; omega⟩
  · exact ⟨by simp only; omega, by simp only; omega⟩

theorem clexParseChar_local (same : SameText input input') (inside : p < input.eof) :
    clexParseChar input' p = clexParseChar input p := by
  rw [clexParseChar, clexParseChar, same.byte p (by omega), same.byte (p + 1) (by omega)]

/-- The loop over a literal moves on. -/
theorem scanString_moves {start : Nat} (fuel : Nat) : ∀ {p out : Nat} {store : Bytes},
    scanString input len start fuel p out store = some s → p < s.next := by
  induction fuel with
  | zero =>
    intro p out store scan
    cases scan
  | succ fuel ih =>
    intro p out store scan
    unfold scanString at scan
    split at scan
    · cases scan
      simp only
      omega
    · have moves := (@clexParseChar_moves input p).1
      cases parse : clexParseChar input p with
      | mk n q =>
        rw [parse] at scan moves
        simp only at scan moves
        split_ifs at scan
        · cases scan
          simp only [Scan.textError]
          omega
        · cases scan
          simp only [Scan.textError]
          omega
        · have later := ih scan
          omega

/-- A literal that ends inside the input is settled by it. -/
theorem scanString_local (same : SameText input input') {start : Nat} (first : start < input.eof) (fuel : Nat) :
    ∀ {p out : Nat} {store : Bytes}, scanString input len start fuel p out store = some s → s.next ≤ input.eof →
    scanString input' len start fuel p out store = some s := by
  induction fuel with
  | zero =>
    intro p out store scan bound
    cases scan
  | succ fuel ih =>
    intro p out store scan bound
    have inside : p < input.eof := (scanString_moves _ scan).trans_le bound
    unfold scanString at scan ⊢
    rw [same.byte p (by omega), same.byte start (by omega), clexParseChar_local same inside]
    split at scan
    · rename_i close
      rw [if_pos close]
      exact scan
    · rename_i more
      rw [if_neg more]
      simp only at scan ⊢
      split_ifs at scan ⊢
      · exact scan
      · exact scan
      · exact ih scan bound

theorem scanChar_moves : p < (scanChar input p).2 := by
  have moves := (@clexParseChar_moves input (p + 1)).1
  unfold scanChar
  simp only
  split_ifs
  · simp only
    omega
  · simp only
    omega
  · simp only
    omega

/-- A single quote at the end of the input is not closed inside it. -/
theorem scanChar_last (nul : input.byte input.eof = 0) (last : p + 1 = input.eof) : input.eof < (scanChar input p).2 := by
  have char : clexParseChar input (p + 1) = (0, p + 1 + 1) := by
    rw [clexParseChar, last, nul, if_neg (by decide)]
    rfl
  unfold scanChar
  rw [char]
  simp only
  rw [if_neg (by decide)]
  split_ifs
  · simp only
    omega
  · simp only
    omega

theorem scanChar_local (same : SameText input input') (nul : input.byte input.eof = 0) (inside : p < input.eof)
    (bound : (scanChar input p).2 ≤ input.eof) : scanChar input' p = scanChar input p := by
  have next : p + 1 < input.eof := by
    by_contra last
    have beyond := @scanChar_last input p nul (by omega)
    omega
  have char := clexParseChar_local same next
  unfold scanChar at bound ⊢
  rw [char]
  cases parse : clexParseChar input (p + 1) with
  | mk n q =>
    rw [parse] at bound
    simp only at bound ⊢
    by_cases error : n < 0
    · rw [if_pos error, if_pos error]
    · rw [if_neg error] at bound ⊢
      have behind : q ≤ input.eof := by
        split_ifs at bound
        · omega
        · omega
      rw [if_neg error, same.eof, same.byte q behind]

end Loops

section Numbers

variable {input input' : Input} {strtod : Nat → BitVec 64 × Nat} {len fuel p : Nat} {store : Bytes}

/-- The digits of a number end inside the input, and are settled by it. -/
theorem strtolLoop_inside (same : SameText input input') (nul : input.byte input.eof = 0) (base fuel : Nat) :
    ∀ {q n : Nat} {r : Nat × Nat}, q ≤ input.eof → strtolLoop input base fuel q n = some r →
    q ≤ r.2 ∧ r.2 ≤ input.eof ∧ strtolLoop input' base fuel q n = some r := by
  induction fuel with
  | zero =>
    intro q n r bound run
    cases run
  | succ fuel ih =>
    intro q n r bound run
    unfold strtolLoop at run ⊢
    rw [same.byte q bound]
    cases here : digit? base (input.byte q) with
    | none =>
      rw [here] at run
      cases run
      exact ⟨Nat.le_refl q, bound, rfl⟩
    | some d =>
      rw [here] at run
      have inside : q < input.eof := by
        refine before_nul nul bound rfl fun zero => ?_
        rw [zero, digit?_nul] at here
        cases here
      obtain ⟨after, before, run'⟩ := ih (by omega) run
      exact ⟨by omega, before, run'⟩

theorem strtolLoop_moves {base fuel q n : Nat} {r : Nat × Nat} (run : strtolLoop input base fuel q n = some r) : q ≤ r.2 := by
  induction fuel generalizing q n with
  | zero => cases run
  | succ fuel ih =>
    rw [strtolLoop] at run
    split at run
    · cases run
      exact Nat.le_refl q
    · have later := ih run
      omega

/-- A decimal digit is one in every base from ten on. -/
theorem digit_isSome {c : UInt8} {base : Nat} (ten : 10 ≤ base) (digit : isDigit c = true) :
    (digit? base c).isSome = true := by
  have last : c.toNat ≤ 57 := by
    simp only [isDigit, Bool.and_eq_true, decide_eq_true_eq] at digit
    exact UInt8.le_iff_toNat_le.mp digit.2
  have less : c.toNat - 48 < base := by omega
  simp [digit?, digit, less]

theorem digit_zero : digit? 16 (byteOf '0') = some 0 := by decide

theorem hexPrefix_inside (nul : input.byte input.eof = 0) (bound : p ≤ input.eof) (hex : hexPrefix input p = true) :
    p + 2 < input.eof := by
  simp only [hexPrefix, Bool.and_eq_true, Bool.or_eq_true, beq_iff_eq] at hex
  have zero : p < input.eof := before_nul nul bound hex.1.1 (by decide)
  have mark : p + 1 < input.eof := by
    rcases hex.1.2 with x | x
    · exact before_nul nul (by omega) x (by decide)
    · exact before_nul nul (by omega) x (by decide)
  refine before_nul nul (by omega) rfl fun none_ => ?_
  rw [none_, digit?_nul] at hex
  simp at hex

theorem hexPrefix_local (same : SameText input input') (nul : input.byte input.eof = 0) (bound : p ≤ input.eof) :
    hexPrefix input' p = hexPrefix input p := by
  by_cases zero : input.byte p = byteOf '0'
  · have first : p < input.eof := before_nul nul bound zero (by decide)
    by_cases mark : input.byte (p + 1) = byteOf 'x' ∨ input.byte (p + 1) = byteOf 'X'
    · have second : p + 1 < input.eof := by
        rcases mark with x | x
        · exact before_nul nul (by omega) x (by decide)
        · exact before_nul nul (by omega) x (by decide)
      rw [hexPrefix, hexPrefix, same.byte p bound, same.byte (p + 1) (by omega), same.byte (p + 2) (by omega)]
    · rw [not_or] at mark
      rw [hexPrefix, hexPrefix, same.byte p bound, same.byte (p + 1) (by omega)]
      simp [beq_eq_false_iff_ne.mpr mark.1, beq_eq_false_iff_ne.mpr mark.2]
  · rw [hexPrefix, hexPrefix, same.byte p bound]
    simp [beq_eq_false_iff_ne.mpr zero]

/-- `strtol` at a digit takes it, ends inside the input and is settled by it. -/
theorem strtol_inside (same : SameText input input') (nul : input.byte input.eof = 0) {base : Nat} {r : Int × Nat}
    (first : (digit? base (input.byte p)).isSome = true) (inside : p < input.eof)
    (run : strtol input base fuel p = some r) :
    p < r.2 ∧ r.2 ≤ input.eof ∧ strtol input' base fuel p = some r := by
  obtain ⟨r', loop, same'⟩ := Option.bind_eq_some_iff.mp run
  obtain rfl := Option.some.inj same'
  rw [strtol, hexPrefix_local same nul (by omega)]
  by_cases hex : base = 16 ∧ hexPrefix input p = true
  · rw [if_pos hex] at loop ⊢
    have behind := hexPrefix_inside nul (by omega) hex.2
    obtain ⟨after, before, loop'⟩ := strtolLoop_inside same nul base fuel (by omega) loop
    rw [loop']
    exact ⟨by simp only; omega, before, rfl⟩
  · rw [if_neg hex] at loop ⊢
    obtain ⟨after, before, loop'⟩ := strtolLoop_inside same nul base fuel (by omega) loop
    rw [loop']
    refine ⟨?_, before, rfl⟩
    cases fuel with
    | zero => cases loop
    | succ fuel =>
      obtain ⟨d, digit⟩ := Option.isSome_iff_exists.mp first
      rw [strtolLoop, digit] at loop
      obtain ⟨moved, -, -⟩ := strtolLoop_inside same nul base fuel (by omega) loop
      simp only
      omega

/-- `0x` is never all that `strtol` takes: without a digit behind it, the number is the `0`. -/
theorem strtol_hex {r : Int × Nat} (zero : input.byte p = byteOf '0')
    (mark : input.byte (p + 1) = byteOf 'x' ∨ input.byte (p + 1) = byteOf 'X')
    (run : strtol input 16 fuel p = some r) : r.2 ≠ p + 2 := by
  have moves : ∀ {fuel q n : Nat} {r : Nat × Nat}, strtolLoop input 16 fuel q n = some r →
      (digit? 16 (input.byte q)).isSome = true → q < r.2 := by
    intro fuel q n r loop first
    cases fuel with
    | zero => cases loop
    | succ fuel =>
      obtain ⟨d, digit⟩ := Option.isSome_iff_exists.mp first
      rw [strtolLoop, digit] at loop
      have later := strtolLoop_moves loop
      omega
  obtain ⟨r', loop, same'⟩ := Option.bind_eq_some_iff.mp run
  obtain rfl := Option.some.inj same'
  by_cases hex : hexPrefix input p = true
  · rw [if_pos ⟨rfl, hex⟩] at loop
    simp only [hexPrefix, Bool.and_eq_true] at hex
    have later := moves loop hex.2
    simp only
    omega
  · rw [if_neg fun both => hex both.2] at loop
    obtain _ | _ | fuel := fuel
    · cases loop
    · rw [strtolLoop, zero] at loop
      cases loop
    · rw [strtolLoop, zero, digit_zero] at loop
      simp only at loop
      rw [strtolLoop] at loop
      have none_ : digit? 16 (input.byte (p + 1)) = none := by
        rcases mark with x | x
        · rw [x]
          decide
        · rw [x]
          decide
      rw [none_] at loop
      cases loop
      simp only
      omega

/-- A number ends inside the input, and is settled by it. -/
theorem scanNumber_inside (same : SameText input input') (nul : input.byte input.eof = 0)
    (strtod_ok : StrtodOk input strtod) (digit : isDigit (input.byte p) = true) (inside : p < input.eof)
    {r : Token × Nat} (run : scanNumber input strtod fuel p = some r) :
    p < r.2 ∧ r.2 ≤ input.eof ∧ scanNumber input' strtod fuel p = some r := by
  have integers : ∀ {base : Nat}, (digit? base (input.byte p)).isSome = true → scanInteger input fuel base p = some r →
      p < r.2 ∧ r.2 ≤ input.eof ∧ scanInteger input' fuel base p = some r := by
    intro base known run
    obtain ⟨r', number, same'⟩ := Option.bind_eq_some_iff.mp run
    obtain rfl := Option.some.inj same'
    obtain ⟨after, before, number'⟩ := strtol_inside same nul known inside number
    exact ⟨after, before, by rw [scanInteger, number']; rfl⟩
  have digits : ∀ i < input.eof, isDigit (input'.byte i) = isDigit (input.byte i) := by
    intro i inside
    rw [same.byte i (by omega)]
  unfold scanNumber at run ⊢
  rw [same.byte p (by omega), same.byte (p + 1) (by omega), same.eof, scanWhile_local same.eof digits (by omega)]
  split at run
  · rename_i hex
    rw [if_pos hex]
    obtain ⟨r', number, result⟩ := Option.bind_eq_some_iff.mp run
    obtain ⟨after, before, number'⟩ := strtol_inside same nul (digit_isSome (by decide) digit) inside number
    rw [if_neg (strtol_hex hex.1 hex.2.2 number)] at result
    obtain rfl := Option.some.inj result
    rw [scanHexInteger, number', Option.bind_eq_bind, Option.bind_some, if_neg (strtol_hex hex.1 hex.2.2 number)]
    exact ⟨after, before, rfl⟩
  · rename_i hex
    rw [if_neg hex]
    obtain ⟨q, number, run⟩ := Option.bind_eq_some_iff.mp run
    obtain ⟨-, below⟩ := scanWhile_inside (by omega) number
    rw [number, Option.bind_eq_bind, Option.bind_some, same.byte q below]
    split at run
    · rename_i float
      obtain rfl := Option.some.inj run
      rw [if_pos float]
      obtain ⟨after, before⟩ := strtod_ok p inside digit
      exact ⟨after, before, rfl⟩
    · rename_i float
      rw [if_neg float]
      split at run
      · rename_i zero
        rw [if_pos zero]
        refine integers ?_ run
        rw [zero]
        decide
      · rename_i nonzero
        rw [if_neg nonzero]
        exact integers (digit_isSome (by decide) digit) run

end Numbers

/-! ## A call -/

section Call

variable {input input' : Input} {strtod : Nat → BitVec 64 × Nat} {len fuel p : Nat} {store : Bytes}

theorem operatorAt_local (same : SameText input input') (inside : p < input.eof) :
    operatorAt input' p = operatorAt input p := by
  by_cases last : p + 1 = input.eof
  · rw [operatorAt, operatorAt, same.eof, if_pos last, if_pos last]
  · rw [operatorAt, operatorAt, same.eof, same.byte p (by omega), same.byte (p + 1) (by omega),
      same.byte (p + 2) (by omega)]

theorem operatorAt_inside (inside : p < input.eof) {o : Operator} {last : Nat} (run : operatorAt input p = some (o, last)) :
    p < last ∧ last < input.eof := by
  unfold operatorAt at run
  split at run
  · cases run
  · rename_i more
    simp only at run
    split at run
    · cases run
    · split at run
      · rename_i assigns
        cases run
        omega
      · cases run
        omega
    · split at run
      · rename_i assigns
        cases run
        omega
      · cases run
        omega
    · cases run
      omega

/-- A token takes a byte. It ends inside the input, and is settled by it, if it is no literal that stays open. -/
theorem scanToken_inside (same : SameText input input') (nul : input.byte input.eof = 0)
    (strtod_ok : StrtodOk input strtod) (inside : p < input.eof) {s : Scan}
    (scan : scanToken input strtod len fuel p store = some s) :
    p < s.next ∧ (s.next ≤ input.eof → scanToken input' strtod len fuel p store = some s) ∧
      (input.byte p ≠ byteOf '"' → input.byte p ≠ byteOf '\'' → s.next ≤ input.eof) := by
  unfold scanToken at scan ⊢
  rw [same.byte p (by omega)]
  simp only at scan ⊢
  split at scan
  · rename_i id
    obtain ⟨after, before, scan'⟩ := @scanIdentifier_inside input input' len p s same nul _ 0 store inside scan
    rw [if_pos id]
    exact ⟨after, fun _ => scan', fun _ _ => before⟩
  rename_i id
  rw [if_neg id]
  split at scan
  · rename_i quote
    have moves := scanString_moves _ scan
    rw [if_pos quote]
    exact ⟨by omega, scanString_local same inside _ scan, fun other => absurd quote other⟩
  rename_i quote
  rw [if_neg quote]
  split at scan
  · rename_i single
    obtain rfl := Option.some.inj scan
    rw [if_pos single]
    exact ⟨scanChar_moves, fun bound => by rw [scanChar_local same nul inside bound], fun _ other => absurd single other⟩
  rename_i single
  rw [if_neg single]
  split at scan
  · rename_i digit
    obtain ⟨r, number, rfl⟩ := Option.map_eq_some_iff.mp scan
    obtain ⟨after, before, number'⟩ := scanNumber_inside same nul strtod_ok digit inside number
    rw [if_pos digit, number']
    exact ⟨after, fun _ => rfl, fun _ _ => before⟩
  rename_i digit
  rw [if_neg digit, operatorAt_local same inside]
  split at scan
  · rename_i o last here
    obtain ⟨after, before⟩ := operatorAt_inside inside here
    obtain rfl := Option.some.inj scan
    exact ⟨by simp only; omega, fun _ => rfl, fun _ _ => before⟩
  · rename_i none_
    obtain rfl := Option.some.inj scan
    exact ⟨Nat.lt_succ_self p, fun _ => rfl, fun _ _ => inside⟩

theorem scanIdentifier_returns (fuel : Nat) : ∀ {n : Nat} {store : Bytes}, len ≤ n + fuel → 0 < fuel →
    ∃ s, scanIdentifier input len p fuel n store = some s := by
  induction fuel with
  | zero =>
    intro n store enough some_
    omega
  | succ fuel ih =>
    intro n store enough some_
    unfold scanIdentifier
    by_cases full : n + 1 ≥ len
    · rw [if_pos full]
      exact ⟨_, rfl⟩
    · rw [if_neg full]
      simp only
      split
      · exact ih (by omega) (by omega)
      · exact ⟨_, rfl⟩

theorem scanString_returns (start fuel : Nat) : ∀ {p out : Nat} {store : Bytes}, len < out + fuel → 0 < fuel →
    ∃ s, scanString input len start fuel p out store = some s := by
  induction fuel with
  | zero =>
    intro p out store enough some_
    omega
  | succ fuel ih =>
    intro p out store enough some_
    unfold scanString
    split
    · exact ⟨_, rfl⟩
    · simp only
      split_ifs
      · exact ⟨_, rfl⟩
      · exact ⟨_, rfl⟩
      · exact ih (by omega) (by omega)

theorem scanToken_returns (nul : input.byte input.eof = 0) (bound : p ≤ input.eof) (enough : input.eof < p + fuel) :
    ∃ s, scanToken input strtod len fuel p store = some s := by
  unfold scanToken
  simp only
  split_ifs
  · exact scanIdentifier_returns _ (by omega) (by omega)
  · exact scanString_returns _ _ (by omega) (by omega)
  · exact ⟨_, rfl⟩
  · have integers : ∀ base, ∃ r, strtol input base fuel p = some r := fun base => strtol_returns nul base bound enough
    have returns : ∃ r, scanNumber input strtod fuel p = some r := by
      unfold scanNumber
      split
      · obtain ⟨r, run⟩ := integers 16
        rw [scanHexInteger, run, Option.bind_eq_bind, Option.bind_some]
        split
        · exact ⟨_, rfl⟩
        · exact ⟨_, rfl⟩
      · obtain ⟨q, run, -⟩ := scanWhile_returns (fun i => isDigit (input.byte i)) fuel bound enough
        rw [run, Option.bind_eq_bind, Option.bind_some]
        split
        · exact ⟨_, rfl⟩
        · split
          · obtain ⟨r, run⟩ := integers 8
            exact ⟨_, by rw [scanInteger, run]; rfl⟩
          · obtain ⟨r, run⟩ := integers 10
            exact ⟨_, by rw [scanInteger, run]; rfl⟩
    obtain ⟨r, run⟩ := returns
    rw [run]
    exact ⟨_, rfl⟩
  · split
    · exact ⟨_, rfl⟩
    · exact ⟨_, rfl⟩

/-- A comment that is not closed ends at the end of the input. -/
theorem skipSpace_unclosed (nul : input.byte input.eof = 0) {limit start q : Nat} (fuel : Nat) : ∀ {p : Nat}, p ≤ input.eof →
    skipSpace input limit fuel p = some (.unclosed start q) → p < q ∧ q = input.eof := by
  induction fuel with
  | zero =>
    intro p bound run
    cases run
  | succ fuel ih =>
    intro p bound run
    rw [skipSpace] at run
    obtain ⟨white, skip, run⟩ := Option.bind_eq_some_iff.mp run
    obtain ⟨after, below⟩ := scanWhile_inside bound skip
    have onward : ∀ {q' : Nat}, p ≤ q' → q' ≤ input.eof → skipSpace input limit fuel q' = some (.unclosed start q) →
        p < q ∧ q = input.eof := by
      intro q' later below run
      obtain ⟨moved, ended⟩ := ih below run
      exact ⟨by omega, ended⟩
    split at run
    · obtain ⟨q', line, run⟩ := Option.bind_eq_some_iff.mp run
      obtain ⟨later, below'⟩ := scanWhile_inside below line
      exact onward (by omega) below' run
    split at run
    · rename_i comment
      have inside : white + 1 < input.eof := before_nul nul (by omega) comment.2.2 (by decide)
      obtain ⟨q', close, run⟩ := Option.bind_eq_some_iff.mp run
      obtain ⟨later, below'⟩ := scanWhile_inside (by omega) close
      split at run
      · rename_i ended
        cases run
        exact ⟨by omega, ended⟩
      · rename_i closed
        have here := scanWhile_stops close
        simp only [inComment, Bool.or_eq_false_iff, bne_eq_false_iff_eq] at here
        have inside' : q' + 1 < input.eof := before_nul nul (by omega) (here closed).2 (by decide)
        exact onward (by omega) (by omega) run
    split at run
    · obtain ⟨q', line, run⟩ := Option.bind_eq_some_iff.mp run
      obtain ⟨later, below'⟩ := scanWhile_inside below line
      exact onward (by omega) below' run
    · cases run

theorem scanCall_returns (nul : input.byte input.eof = 0) (bound : p ≤ input.eof) (enough : input.eof < p + fuel) :
    ∃ r, scanCall input strtod len fuel p store = some r := by
  unfold scanCall
  obtain ⟨r, skip, ends⟩ := @skipSpace_returns input fuel nul fuel p bound enough enough
  rw [skip]
  cases r with
  | unclosed start q => exact ⟨_, rfl⟩
  | ends q =>
    obtain ⟨after, below⟩ := ends q rfl
    obtain ⟨s, token⟩ := @scanToken_returns input strtod len fuel q store nul below (by omega)
    simp only
    rw [token]
    split
    · exact ⟨_, rfl⟩
    · exact ⟨_, rfl⟩

/-- The end of the input is seen from the input alone. -/
theorem scanCall_ended (same : SameText input input') (nul : input.byte input.eof = 0) (bound : p ≤ input.eof)
    (enough : input.eof < p + fuel) (call : scanCall input strtod len fuel p store = some .ended) :
    scanCall input' strtod len fuel p store = some .ended := by
  unfold scanCall at call ⊢
  rw [skipSpace_local same nul fuel bound enough, same.eof]
  split at call
  · cases call
  · cases call
  · split at call
    · rename_i done
      rw [if_pos done]
    · obtain ⟨s, -, other⟩ := Option.map_eq_some_iff.mp call
      cases other

/-- A call takes a byte, and a token that ends inside the input is settled by it. Without
quotes every token does. -/
theorem scanCall_inside (same : SameText input input') (nul : input.byte input.eof = 0) (strtod_ok : StrtodOk input strtod)
    (bound : p ≤ input.eof) (enough : input.eof < p + fuel) {s : Scan}
    (call : scanCall input strtod len fuel p store = some (.token s)) :
    p < s.next ∧ (s.next ≤ input.eof → scanCall input' strtod len fuel p store = some (.token s)) ∧
      ((∀ i < input.eof, input.byte i ≠ byteOf '"' ∧ input.byte i ≠ byteOf '\'') → s.next ≤ input.eof) := by
  unfold scanCall at call ⊢
  rw [skipSpace_local same nul fuel bound enough, same.eof]
  split at call
  · cases call
  · rename_i start q skip
    cases call
    obtain ⟨moved, ended⟩ := skipSpace_unclosed nul fuel bound skip
    exact ⟨moved, fun _ => rfl, fun _ => Nat.le_of_eq ended⟩
  · rename_i q skip
    split at call
    · cases call
    · rename_i inside
      obtain ⟨s', token, here⟩ := Option.map_eq_some_iff.mp call
      obtain rfl := Scanned.token.inj here
      obtain ⟨r, skip', ends⟩ := @skipSpace_returns input fuel nul fuel p bound enough enough
      rw [skip] at skip'
      obtain ⟨after, below⟩ := ends q (Option.some.inj skip').symm
      obtain ⟨moved, settled, fits⟩ := scanToken_inside same nul strtod_ok (by omega) token
      rw [if_neg inside]
      refine ⟨by omega, fun within => by rw [settled within]; rfl, fun unquoted => ?_⟩
      obtain ⟨double, single⟩ := unquoted q (by omega)
      exact fits double single

end Call

/-! ## All calls on a text -/

section Text

/-- At most so many calls from a position and a store. -/
def scansFrom (input : Input) (strtod : Nat → BitVec 64 × Nat) : Nat → Nat → Bytes → List Scan
  | 0, _, _ => []
  | n + 1, p, store =>
    match scanCall input strtod 1024 (input.eof + 1) p store with
    | some (.token s) => s :: scansFrom input strtod n s.next s.store
    | _ => []

/-- The calls on a text. -/
def scansOf (strtod : Nat → BitVec 64 × Nat) (text : Bytes) : List Scan :=
  scansFrom (Input.ofBytes text) strtod (text.length + 1) 0 freshStore

/-- The tokens of a text. -/
def tokensOf (strtod : Nat → BitVec 64 × Nat) (text : Bytes) : List Token := (scansOf strtod text).map Scan.token

/-- The literals of a text are closed in it. -/
def Closed (strtod : Nat → BitVec 64 × Nat) (text : Bytes) : Prop := ∀ s ∈ scansOf strtod text, s.next ≤ text.length

instance (strtod : Nat → BitVec 64 × Nat) (text : Bytes) : Decidable (Closed strtod text) := List.decidableBAll _ _

/-- The calls from a position and a store return these tokens, inside the input, and then the end. -/
inductive Reads (input : Input) (strtod : Nat → BitVec 64 × Nat) : Nat → Bytes → List Scan → Prop
  | ended {p : Nat} {store : Bytes} (inside : p ≤ input.eof)
      (call : scanCall input strtod 1024 (input.eof + 1) p store = some .ended) : Reads input strtod p store []
  | token {p : Nat} {store : Bytes} {s : Scan} {rest : List Scan} (moves : p < s.next) (inside : s.next ≤ input.eof)
      (call : scanCall input strtod 1024 (input.eof + 1) p store = some (.token s))
      (later : Reads input strtod s.next s.store rest) : Reads input strtod p store (s :: rest)

variable {input input' : Input} {strtod : Nat → BitVec 64 × Nat} {p : Nat} {store : Bytes} {scans : List Scan}

theorem Reads.inside (reads : Reads input strtod p store scans) : p ≤ input.eof := by
  cases reads with
  | ended inside _ => exact inside
  | token moves inside _ _ => omega

theorem scansFrom_reads (nul : input.byte input.eof = 0) (strtod_ok : StrtodOk input strtod) (n : Nat) :
    ∀ {p : Nat} {store : Bytes}, p ≤ input.eof → input.eof < p + n →
    (∀ s ∈ scansFrom input strtod n p store, s.next ≤ input.eof) →
    Reads input strtod p store (scansFrom input strtod n p store) := by
  induction n with
  | zero =>
    intro p store bound enough closed
    omega
  | succ n ih =>
    intro p store bound enough closed
    obtain ⟨r, call⟩ := @scanCall_returns input strtod 1024 (input.eof + 1) p store nul bound (by omega)
    unfold scansFrom at closed ⊢
    rw [call] at closed ⊢
    cases r with
    | ended => exact .ended bound call
    | token s =>
      simp only [List.mem_cons, forall_eq_or_imp] at closed ⊢
      obtain ⟨moves, -⟩ := scanCall_inside ⟨rfl, fun _ _ => rfl⟩ nul strtod_ok bound (by omega) call
      exact .token moves closed.1 call (ih closed.1 (by omega) closed.2)

/-- Without quotes nothing stays open. -/
theorem scansFrom_unquoted (nul : input.byte input.eof = 0) (strtod_ok : StrtodOk input strtod)
    (unquoted : ∀ i < input.eof, input.byte i ≠ byteOf '"' ∧ input.byte i ≠ byteOf '\'') (n : Nat) :
    ∀ {p : Nat} {store : Bytes}, p ≤ input.eof → ∀ s ∈ scansFrom input strtod n p store, s.next ≤ input.eof := by
  induction n with
  | zero =>
    intro p store bound s here
    cases here
  | succ n ih =>
    intro p store bound s here
    obtain ⟨r, call⟩ := @scanCall_returns input strtod 1024 (input.eof + 1) p store nul bound (by omega)
    rw [scansFrom, call] at here
    cases r with
    | ended => cases here
    | token s' =>
      obtain ⟨-, -, fits⟩ := scanCall_inside ⟨rfl, fun _ _ => rfl⟩ nul strtod_ok bound (by omega) call
      rcases List.mem_cons.mp here with rfl | later
      · exact fits unquoted
      · exact ih (fits unquoted) s later

/-- What lies behind the text does not matter. -/
theorem Reads.transfer (same : SameText input input') (nul : input.byte input.eof = 0) (strtod_ok : StrtodOk input strtod)
    (reads : Reads input strtod p store scans) : Reads input' strtod p store scans := by
  induction reads with
  | ended inside call =>
    refine .ended (by rw [same.eof]; exact inside) ?_
    rw [same.eof]
    exact scanCall_ended same nul inside (by omega) call
  | token moves inside call later ih =>
    have before := later.inside
    refine .token moves (by rw [same.eof]; exact inside) ?_ ih
    rw [same.eof]
    exact (scanCall_inside same nul strtod_ok (by omega) (by omega) call).2.1 inside

/-- Calls that were made are the first ones. -/
theorem Reads.follows {q : Nat} {store' : Bytes} {ts : List Token} (reads : Reads input strtod p store scans)
    (calls : Scans input strtod 1024 p store ts q store') :
    ∃ before rest, scans = before ++ rest ∧ before.map Scan.token = ts ∧ Reads input strtod q store' rest ∧
      p + before.length ≤ q := by
  induction calls with
  | nil => exact ⟨[], scans, rfl, rfl, reads, Nat.le_refl p⟩
  | @snoc ts q fuel store' s made call ih =>
    obtain ⟨before, rest, rfl, rfl, here, moved⟩ := ih
    cases here with
    | ended inside call' => cases scanCall_unique call call'
    | @token _ _ s' rest moves inside call' later =>
      cases scanCall_unique call call'
      refine ⟨before ++ [s], rest, by simp, by simp, later, ?_⟩
      rw [List.length_append]
      simp only [List.length_singleton]
      omega

end Text

/-! ## The lexer of `main` on a text -/

section Runs

variable {strtod : Nat → BitVec 64 × Nat} {text : Bytes} {input : Input} {m₀ m : Mem} {l : StringAt}
  {lexer₀ lexer : Lexer} {n fuel : Nat} {f : Footprint}

/-- The fields that the parser reads and the text of the token are those of the stream. -/
def Agrees (m₀ : Mem) (l : StringAt) (f : Footprint) (lexer : Lexer) (m : Mem) (lex : StbLexer) : Prop :=
  ∃ store, Owns m₀ m (storeBlocks l store + f) ∧ Shows lexer store lex ∧ ShowsText lexer store lex

theorem nul_ofBytes : (Input.ofBytes text).byte (Input.ofBytes text).eof = 0 := by
  simp [Input.ofBytes]

theorem tokensOf_reads (strtod_ok : StrtodOk (Input.ofBytes text) strtod) (closed : Closed strtod text) :
    Reads (Input.ofBytes text) strtod 0 freshStore (scansOf strtod text) :=
  scansFrom_reads nul_ofBytes strtod_ok _ (Nat.zero_le _) (by simp [Input.ofBytes]) closed

theorem closed_of_unquoted (strtod_ok : StrtodOk (Input.ofBytes text) strtod)
    (unquoted : byteOf '"' ∉ text ∧ byteOf '\'' ∉ text) : Closed strtod text := by
  refine scansFrom_unquoted nul_ofBytes strtod_ok (fun i inside => ?_) _ (Nat.zero_le _)
  have here : (Input.ofBytes text).byte i ∈ text := by
    have inside : i < text.length := inside
    simp [Input.ofBytes, inside]
  exact ⟨fun quote => unquoted.1 (quote ▸ here), fun quote => unquoted.2 (quote ▸ here)⟩

/-- On a text in memory whose literals are closed, with a NUL behind it, every call of the
lexer in every run starts inside the text and does what the call on the stream of `tokensOf`
does: it returns the next token, for at least one byte, or says that there is none. -/
theorem lexer_on_text (same : SameText (Input.ofBytes text) input) (strtod_ok : StrtodOk (Input.ofBytes text) strtod)
    (closed : Closed strtod text) (reached : Returned input strtod m₀ l lexer₀ n lexer f m)
    (enough : text.length < fuel) :
    n ≤ lexer.parsePoint ∧ lexer.parsePoint ≤ text.length ∧
    ∃ before rest, tokensOf strtod text = before ++ rest ∧ before.length = n ∧
      ∃ more lexer' m' lex', stbCLexerGetToken input strtod fuel lexer m = .ok ((more, lexer'), m') ∧
        MoeToolchain.stbCLexerGetToken ((streamOf lexer₀ (tokensOf strtod text)).after before rest) = .ok (more, lex') ∧
        Agrees m₀ l f lexer' m' lex' ∧ (more = true → lexer.parsePoint < lexer'.parsePoint) := by
  obtain ⟨ts, store, count, holds⟩ := returned_scanned reached
  have reads := (tokensOf_reads strtod_ok closed).transfer same nul_ofBytes strtod_ok
  obtain ⟨before, rest, split, rfl, here, moved⟩ := reads.follows holds.scans
  have size : (before.map Scan.token).length = before.length := List.length_map _
  have tokens : tokensOf strtod text = before.map Scan.token ++ rest.map Scan.token := by
    rw [tokensOf, split, List.map_append]
  have eof : input.eof = text.length := same.eof
  have inside := here.inside
  refine ⟨by omega, by omega, before.map Scan.token, rest.map Scan.token, tokens, count, ?_⟩
  obtain ⟨room, owned⟩ := store_ready holds.storage holds.storageLen holds.size holds.owned
  have does := @call_scans input strtod lexer m₀ m _ store fuel owned room
  rw [holds.storageLen] at does
  have turns : ∀ {r : Scanned}, scanCall input strtod 1024 (input.eof + 1) lexer.parsePoint store = some r →
      scanCall input strtod 1024 fuel lexer.parsePoint store = some r := scanCall_mono (by omega)
  have stream : ((streamOf lexer₀ (tokensOf strtod text)).after (before.map Scan.token) (rest.map Scan.token)).rest =
      rest.map Scan.token := StbLexer.after_rest tokens
  have shown := holds.shown (rest.map Scan.token)
  rw [← tokens, startOf_fresh] at shown
  cases here with
  | ended inside call =>
    rw [turns call] at does
    refine ⟨false, _, m, _, does, stbCLexerGetToken_end stream, ⟨store, holds.owned, ?_, ?_⟩, nofun⟩
    · exact ⟨rfl, shown.stringLen, shown.intNumber, shown.realNumber, shown.string⟩
    · exact fun isText => absurd isText (show ¬ IsText clexEof by decide)
  | @token _ _ s rest moves inside call later =>
    rw [turns call] at does
    obtain ⟨lexer', m', run, next, leaves, -⟩ := does
    have moved' : lexer.parsePoint < lexer'.parsePoint := by
      rw [next]
      exact moves
    obtain ⟨s', call', holds'⟩ := holds.call run
    cases scanCall_unique call call'
    have all : before.map Scan.token ++ [s.token] ++ rest.map Scan.token = tokensOf strtod text := by
      rw [tokens, List.append_assoc]
      rfl
    have now := holds'.shown (rest.map Scan.token)
    have text' := holds'.text (rest.map Scan.token) (by simp)
    rw [all, startOf_fresh, StbLexer.after_append] at now text'
    exact ⟨true, lexer', m', _, run, stbCLexerGetToken_cons stream,
      ⟨s.store, holds'.owned, now, text'⟩, fun _ => moved'⟩

/-- The theorem at the first call on a call of `f`. -/
theorem lexer_on_text_call :
    ∃ l lexer m, moeStringAlloc none 1024 Mem.empty = .ok (l.handle, m) ∧ lexer.parsePoint ≤ 4 ∧
      ∃ before rest, tokensOf (fun p => (0, p + 1)) (bytesOf "f(7)") = before ++ rest ∧ before.length = 0 ∧
      ∃ more lexer' m' lex',
        stbCLexerGetToken (Input.ofBytes (bytesOf "f(7)")) (fun p => (0, p + 1)) 5 lexer m = .ok ((more, lexer'), m') ∧
        MoeToolchain.stbCLexerGetToken ((streamOf ⟨0, 0, 0, 0, 0, 0, 0, 0, none, 0⟩
          (tokensOf (fun p => (0, p + 1)) (bytesOf "f(7)"))).after before rest) = .ok (more, lex') ∧
        Agrees Mem.empty l 0 lexer' m' lex' ∧ (more = true → lexer.parsePoint < lexer'.parsePoint) := by
  obtain ⟨l, m, alloc, owned⟩ := moeStringAlloc_owns (owns_refl Mem.empty)
    (rfl : stringContent none 1024 = some (List.replicate 1024 0))
  let lexer₀ : Lexer := ⟨0, 0, 0, 0, 0, 0, 0, 0, none, 0⟩
  have reached : Returned (Input.ofBytes (bytesOf "f(7)")) (fun p => (0, p + 1)) Mem.empty l lexer₀ 0 _ 0 m :=
    .init alloc owned
  obtain ⟨-, inside, rest⟩ := @lexer_on_text (fun p => (0, p + 1)) (bytesOf "f(7)") _ _ _ _ _ _ _ 5 _ ⟨rfl, fun _ _ => rfl⟩
    (fun p inside _ => ⟨Nat.lt_succ_self p, inside⟩) (by decide +kernel) reached (by decide)
  exact ⟨l, _, m, alloc, inside, rest⟩

end Runs

end Stb

end MoeToolchain
