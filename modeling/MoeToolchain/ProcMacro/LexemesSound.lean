import MoeToolchain.ProcMacro.Lexemes

/-!
# Every text that is lexed is spelled

The other direction of `tokensOf_spelled`. A text whose literals are closed and that is
lexed without an error is put together from lexemes; each case of the lexer gives one.

Main result:

* `lexed_iff_spelled`: these texts are exactly those that are put together from lexemes.
-/

namespace MoeToolchain
set_option autoImplicit false
open Lib

namespace Stb

variable {input : Input} {strtod : Nat → BitVec 64 × Nat} {p q fuel : Nat} {text rest store : Bytes} {s : Scan}

/-- From `p` on, the text is put together from lexemes. -/
def Spellable (strtod : Nat → BitVec 64 × Nat) (p : Nat) (text : Bytes) : Prop :=
  ∃ ls, Spelt strtod p ls ∧ spellAll ls = text

theorem Spellable.cons {x : Lexeme} (fits : x.Fits strtod p rest) (later : Spellable strtod (p + x.spell.length) rest) :
    Spellable strtod p (x.spell ++ rest) := by
  obtain ⟨ls, spelt, rfl⟩ := later
  exact ⟨x :: ls, ⟨fits, spelt⟩, List.flatMap_cons⟩

/-- A byte before the end is the first of the text. -/
theorem Ahead.exists_cons (ahead : Ahead input p text) (inside : p < input.eof) :
    ∃ c rest, text = c :: rest ∧ input.byte p = c := by
  cases text with
  | nil =>
    have size := ahead.eof
    simp only [List.length_nil] at size
    omega
  | cons c rest => exact ⟨c, rest, rfl, ahead.first⟩

/-- The text up to a position inside the input. -/
theorem Ahead.split (ahead : Ahead input p text) (after : p ≤ q) (inside : q ≤ input.eof) :
    ∃ taken rest, text = taken ++ rest ∧ q = p + taken.length ∧ Ahead input q rest := by
  have size := ahead.eof
  have length : (text.take (q - p)).length = q - p := List.length_take_of_le (by omega)
  have here : q = p + (text.take (q - p)).length := by omega
  refine ⟨text.take (q - p), text.drop (q - p), (List.take_append_drop _ _).symm, here, ?_⟩
  rw [← List.take_append_drop (q - p) text] at ahead
  have behind := ahead.drop
  rwa [← here] at behind

theorem scanWhile_between {go : Nat → Bool} (run : scanWhile input go fuel p = some q) :
    ∀ i, p ≤ i → i < q → go i = true := by
  induction fuel generalizing p with
  | zero => cases run
  | succ fuel ih =>
    unfold scanWhile at run
    split at run
    · rename_i more
      intro i after before
      rcases Nat.eq_or_lt_of_le after with rfl | later
      · exact more.2
      · exact ih run i later before
    · obtain rfl := Option.some.inj run
      intro i after before
      omega

/-- The bytes that a loop goes over. -/
theorem scanWhile_taken {go : UInt8 → Bool} (ahead : Ahead input p text)
    (run : scanWhile input (fun i => go (input.byte i)) fuel p = some q) :
    ∃ taken rest, text = taken ++ rest ∧ q = p + taken.length ∧ Ahead input q rest ∧ (∀ c ∈ taken, go c = true) ∧
      (rest = [] ∨ go (rest.headD 0) = false) := by
  obtain ⟨after, before⟩ := scanWhile_inside ahead.inside run
  obtain ⟨taken, rest, rfl, rfl, behind⟩ := ahead.split after before
  refine ⟨taken, rest, rfl, rfl, behind, fun c mem => ?_, ?_⟩
  · obtain ⟨i, inside, rfl⟩ := List.mem_iff_getElem.mp mem
    have here := scanWhile_between run (p + i) (by omega) (by omega)
    rwa [ahead.byte_append inside, List.getD_eq_getElem _ _ inside] at here
  · cases rest with
    | nil => exact .inl rfl
    | cons c rest =>
      have stops := scanWhile_stops run (Nat.ne_of_lt behind.more)
      rw [behind.first] at stops
      exact .inr stops

/-! ## White space and comments -/

theorem spellable_blanks {taken : Bytes} (white : ∀ c ∈ taken, clexIswhite c = true) {p : Nat}
    (later : Spellable strtod (p + taken.length) rest) : Spellable strtod p (taken ++ rest) := by
  induction taken generalizing p with
  | nil => exact later
  | cons c taken ih =>
    have behind : p + (c :: taken).length = p + (Lexeme.blank c).spell.length + taken.length := by
      simp only [Lexeme.spell, List.length_cons, List.length_nil]
      omega
    rw [behind] at later
    exact @Spellable.cons strtod p _ (.blank c) (white c (by simp)) (ih (fun c mem => white c (by simp [mem])) later)

/-- A comment up to the end of the line, or a preprocessor line. -/
theorem spellable_line (ahead : Ahead input p text) (inside : p ≠ input.eof)
    (start : input.byte p = byteOf '/' ∧ input.byte (p + 1) = byteOf '/' ∨ input.byte p = byteOf '#')
    (line : scanWhile input (inLine input) fuel p = some q)
    (later : ∀ rest, Ahead input q rest → Spellable strtod q rest) : Spellable strtod p text := by
  have slash : inLine input p = true := by
    rcases start with ⟨first, -⟩ | first
    · rw [inLine, first]
      decide
    · rw [inLine, first]
      decide
  have nonempty : q ≠ p := by
    rintro rfl
    rw [scanWhile_stops line inside] at slash
    cases slash
  obtain ⟨taken, rest, rfl, rfl, behind, all, stops⟩ := @scanWhile_taken input p q fuel text lineByte ahead line
  obtain _ | ⟨c, body⟩ := taken
  · exact absurd rfl nonempty
  have first : input.byte p = c := ahead.first
  rcases start with ⟨here, second⟩ | here
  · obtain rfl : c = byteOf '/' := first.symm.trans here
    obtain _ | ⟨d, body⟩ := body
    · have last := scanWhile_stops line (Nat.ne_of_lt (before_nul ahead.nul behind.inside second (by decide)))
      rw [inLine, show input.byte (p + [byteOf '/'].length) = byteOf '/' from second] at last
      exact absurd last (by decide)
    obtain rfl : d = byteOf '/' := ahead.second.symm.trans second
    exact @Spellable.cons strtod p rest (.lineComment body) ⟨fun c mem => all c (by simp [mem]), stops⟩ (later rest behind)
  · obtain rfl : c = byteOf '#' := first.symm.trans here
    exact @Spellable.cons strtod p rest (.directive body) ⟨fun c mem => all c (by simp [mem]), stops⟩ (later rest behind)

theorem spellable_comment (ahead : Ahead input p text) (first : input.byte p = byteOf '/')
    (second : input.byte (p + 1) = byteOf '*') (close : scanWhile input (inComment input) fuel (p + 2) = some q)
    (closed : q ≠ input.eof) (later : ∀ rest, Ahead input (q + 2) rest → Spellable strtod (q + 2) rest) :
    Spellable strtod p text := by
  have nul := ahead.nul
  have inside : p < input.eof := before_nul nul ahead.inside first (by decide)
  have inside' : p + 1 < input.eof := before_nul nul inside second (by decide)
  obtain ⟨c, text, rfl, here⟩ := ahead.exists_cons inside
  obtain rfl := here.symm.trans first
  obtain ⟨d, text, rfl, here⟩ := ahead.tail.exists_cons inside'
  obtain rfl := here.symm.trans second
  obtain ⟨after, before⟩ := scanWhile_inside (Nat.succ_le_of_lt inside') close
  obtain ⟨body, rest, rfl, rfl, behind⟩ := ahead.tail.tail.split after before
  have ends := scanWhile_stops close closed
  simp only [inComment, Bool.or_eq_false_iff, bne_eq_false_iff_eq] at ends
  obtain ⟨c, rest, rfl, here⟩ := behind.exists_cons (by omega)
  obtain rfl := here.symm.trans ends.1
  obtain ⟨d, rest, rfl, here⟩ := behind.tail.exists_cons (before_nul nul behind.tail.inside ends.2 (by decide))
  obtain rfl := here.symm.trans ends.2
  have fits : CommentFits body := by
    intro i bound
    have going := scanWhile_between close (p + 2 + i) (by omega) (by omega)
    have bytes : ∀ j ≤ i + 1, input.byte (p + 2 + j) = (body ++ commentEnd).getD j 0 := by
      intro j less
      have ahead' : Ahead input (p + 2) (body ++ commentEnd ++ rest) := by
        rw [List.append_assoc]
        exact ahead.tail.tail
      refine ahead'.byte_append ?_
      simp only [List.length_append, commentEnd, List.length_cons, List.length_nil]
      omega
    rw [inComment, bytes i (by omega), Nat.add_assoc (p + 2) i 1, bytes (i + 1) (Nat.le_refl _)] at going
    simpa using going
  have length : p + 1 + 1 + body.length + 2 = p + (Lexeme.comment body).spell.length := by
    simp only [Lexeme.spell, commentEnd, List.length_cons, List.length_append, List.length_nil]
    omega
  have rest_ := later rest behind.tail.tail
  rw [length] at rest_
  have spelling : byteOf '/' :: byteOf '*' :: (body ++ byteOf '*' :: byteOf '/' :: rest) =
      (Lexeme.comment body).spell ++ rest := by
    simp only [Lexeme.spell, commentEnd, List.cons_append, List.append_assoc, List.nil_append]
  rw [spelling]
  exact .cons fits rest_

/-- White space and comments that end before `q` are lexemes. -/
theorem spellable_skip {limit : Nat} (fuel : Nat) : ∀ {p : Nat} {text : Bytes}, Ahead input p text →
    skipSpace input limit fuel p = some (.ends q) → (∀ rest, Ahead input q rest → Spellable strtod q rest) →
    Spellable strtod p text := by
  induction fuel with
  | zero =>
    intro p text ahead run later
    cases run
  | succ fuel ih =>
    intro p text ahead run later
    rw [skipSpace] at run
    obtain ⟨w, white, run⟩ := Option.bind_eq_some_iff.mp run
    obtain ⟨blank, text, rfl, rfl, here, whites, -⟩ := scanWhile_taken ahead white
    refine spellable_blanks whites ?_
    split at run
    · rename_i start
      obtain ⟨e, line, run⟩ := Option.bind_eq_some_iff.mp run
      exact spellable_line here start.1 (.inl start.2) line fun rest behind => ih behind run later
    split at run
    · rename_i start
      obtain ⟨e, close, run⟩ := Option.bind_eq_some_iff.mp run
      split at run
      · cases run
      · rename_i closed
        exact spellable_comment here start.2.1 start.2.2 close closed fun rest behind => ih behind run later
    split at run
    · rename_i start
      obtain ⟨e, line, run⟩ := Option.bind_eq_some_iff.mp run
      exact spellable_line here start.1 (.inr start.2) line fun rest behind => ih behind run later
    · obtain rfl := Skipped.ends.inj (Option.some.inj run)
      exact later text here

/-- Where the loop ends, no white space or comment begins. -/
theorem skipSpace_stops {limit : Nat} (fuel : Nat) : ∀ {p : Nat}, skipSpace input limit fuel p = some (.ends q) →
    q ≠ input.eof → clexIswhite (input.byte q) = false ∧
      (input.byte q = byteOf '/' → input.byte (q + 1) ≠ byteOf '/' ∧ input.byte (q + 1) ≠ byteOf '*') ∧
      input.byte q ≠ byteOf '#' := by
  induction fuel with
  | zero =>
    intro p run inside
    cases run
  | succ fuel ih =>
    intro p run inside
    rw [skipSpace] at run
    obtain ⟨w, white, run⟩ := Option.bind_eq_some_iff.mp run
    split at run
    · obtain ⟨e, line, run⟩ := Option.bind_eq_some_iff.mp run
      exact ih run inside
    rename_i no_line
    split at run
    · obtain ⟨e, close, run⟩ := Option.bind_eq_some_iff.mp run
      split at run
      · cases run
      · exact ih run inside
    rename_i no_comment
    split at run
    · obtain ⟨e, line, run⟩ := Option.bind_eq_some_iff.mp run
      exact ih run inside
    · rename_i no_directive
      obtain rfl := Skipped.ends.inj (Option.some.inj run)
      exact ⟨scanWhile_stops white inside, fun slash => ⟨fun next => no_line ⟨inside, slash, next⟩,
        fun next => no_comment ⟨inside, slash, next⟩⟩, fun hash => no_directive ⟨inside, hash⟩⟩

/-- At `p` the text begins with the spelling of a token. -/
def Begins (strtod : Nat → BitVec 64 × Nat) (p : Nat) (text : Bytes) : Prop :=
  ∃ (x : Lexeme) (t : Token) (rest : Bytes), text = x.spell ++ rest ∧ x.token? = some t ∧ x.Fits strtod p rest

/-! ## Identifiers and literals -/

/-- An identifier that fits into the store ends before a byte that is no letter of one. -/
theorem scanIdentifier_taken (fuel : Nat) : ∀ {n : Nat} {store : Bytes},
    scanIdentifier input 1024 p fuel n store = some s → s.token.isError = false → (∀ i ≤ n, isIdChar (input.byte (p + i)) = true) →
    ∃ k, s.next = p + (k + 1) ∧ k + 1 < 1024 ∧ (∀ i ≤ k, isIdChar (input.byte (p + i)) = true) ∧
      isIdChar (input.byte (p + (k + 1))) = false := by
  induction fuel with
  | zero =>
    intro n store scan fine letters
    cases scan
  | succ fuel ih =>
    intro n store scan fine letters
    unfold scanIdentifier at scan
    split at scan
    · obtain rfl := Option.some.inj scan
      cases fine
    rename_i room
    simp only at scan
    split at scan
    · rename_i more
      refine ih scan fine fun i bound => ?_
      rcases Nat.lt_or_eq_of_le bound with less | rfl
      · exact letters i (by omega)
      · exact more
    · rename_i stop
      obtain rfl := Option.some.inj scan
      exact ⟨n, rfl, by omega, letters, Bool.eq_false_of_not_eq_true stop⟩

theorem taken_id (ahead : Ahead input p text) (first : isIdStart (input.byte p) = true)
    (scan : scanIdentifier input 1024 p (1024 + 1) 0 store = some s) (fine : s.token.isError = false) :
    Begins strtod p text := by
  have letter : ∀ i ≤ 0, isIdChar (input.byte (p + i)) = true := by
    intro i bound
    obtain rfl := Nat.le_zero.mp bound
    rw [isIdChar, Nat.add_zero, first]
    rfl
  obtain ⟨k, -, small, letters, stops⟩ := scanIdentifier_taken _ scan fine letter
  have size := ahead.eof
  have within : p + (k + 1) ≤ input.eof := by
    by_contra beyond
    have last := letters (input.eof - p) (by omega)
    rw [show p + (input.eof - p) = input.eof by omega, ahead.nul] at last
    exact absurd last (by decide)
  obtain ⟨name, rest, rfl, length, behind⟩ := ahead.split (Nat.le_add_right p (k + 1)) within
  have bytes : ∀ c ∈ name, isIdChar c = true := by
    intro c mem
    obtain ⟨i, inside, rfl⟩ := List.mem_iff_getElem.mp mem
    have here := letters i (by omega)
    rwa [ahead.byte_append inside, List.getD_eq_getElem _ _ inside] at here
  have nonempty : name ≠ [] := by
    rintro rfl
    simp only [List.length_nil] at length
    omega
  have no_nul : 0 ∉ name := fun zero => isIdChar_ne_zero (bytes 0 zero) rfl
  refine ⟨.id ⟨name, nonempty, no_nul⟩, _, rest, rfl, rfl, ?_, bytes, by simp only; omega, ?_⟩
  · rwa [ahead.head nonempty] at first
  · rwa [behind.first] at stops

/-- A character of a literal that is no error. -/
theorem clexParseChar_taken {n : Int} (ahead : Ahead input p text) (inside : p < input.eof)
    (parse : clexParseChar input p = (n, q)) (fine : ¬ n < 0) :
    ∃ (x : Character) (rest : Bytes), text = x.spell ++ rest ∧ x.Fits (rest.headD 0) ∧ q = p + x.spell.length ∧
      Ahead input q rest ∧ x.spell.headD 0 = input.byte p := by
  obtain ⟨c, text, rfl, first⟩ := ahead.exists_cons inside
  have second : input.byte (p + 1) = text.headD 0 := ahead.second
  rw [clexParseChar, first, second] at parse
  have plain : ∀ {value : Int}, (value, p + 1) = (n, q) → (c = byteOf '\\' → escape? (text.headD 0) = none) →
      ∃ (x : Character) (rest : Bytes), c :: text = x.spell ++ rest ∧ x.Fits (rest.headD 0) ∧ q = p + x.spell.length ∧
        Ahead input q rest ∧ x.spell.headD 0 = input.byte p := by
    intro value same alone
    obtain rfl : p + 1 = q := congrArg Prod.snd same
    exact ⟨.plain c, text, rfl, alone, rfl, ahead.tail, first.symm⟩
  split at parse
  · rename_i backslash
    cases known : escape? (text.headD 0) with
    | none =>
      rw [known] at parse
      exact plain parse fun _ => known
    | some value =>
      rw [known] at parse
      obtain ⟨rfl, rfl⟩ := Prod.mk.inj parse
      cases text with
      | nil => cases known
      | cons d text =>
        have known : escape? d = some value := known
        refine ⟨.escaped d, text, by rw [backslash]; rfl, ?_, rfl, ahead.tail.tail, by rw [first, backslash]; rfl⟩
        show 0 ≤ (escape? d).getD (-1)
        rw [known, Option.getD_some]
        omega
  · rename_i other
    exact plain parse fun backslash => absurd backslash other

theorem scanString_taken {start : Nat} (quote : input.byte start = byteOf '"') (fuel : Nat) :
    ∀ {p out : Nat} {text store : Bytes}, Ahead input p text →
    scanString input 1024 start fuel p out store = some s → s.token.isError = false → s.next ≤ input.eof → out ≤ 1024 →
    ∃ chars rest, text = chars.flatMap Character.spell ++ byteOf '"' :: rest ∧ CharactersFit chars ∧
      out + chars.length ≤ 1024 := by
  induction fuel with
  | zero =>
    intro p out text store ahead scan fine within room
    cases scan
  | succ fuel ih =>
    intro p out text store ahead scan fine within room
    have inside : p < input.eof := (scanString_moves _ scan).trans_le within
    unfold scanString at scan
    split at scan
    · rename_i close
      obtain ⟨c, rest, rfl, first⟩ := ahead.exists_cons inside
      obtain rfl : c = byteOf '"' := first.symm.trans (close.trans quote)
      exact ⟨[], rest, rfl, trivial, room⟩
    rename_i more
    cases parse : clexParseChar input p with
    | mk n q =>
      rw [parse] at scan
      simp only at scan
      split at scan
      · obtain rfl := Option.some.inj scan
        cases fine
      rename_i known
      split at scan
      · obtain rfl := Option.some.inj scan
        cases fine
      rename_i space
      obtain ⟨x, rest, rfl, fits, rfl, behind, first⟩ := clexParseChar_taken ahead inside parse known
      obtain ⟨chars, tail, rfl, later, count⟩ := ih behind scan fine within (by omega)
      have next : (chars.flatMap Character.spell ++ byteOf '"' :: tail).headD 0 =
          (chars.flatMap Character.spell ++ [byteOf '"']).headD 0 := by
        cases chars.flatMap Character.spell with
        | nil => rfl
        | cons c cs => rfl
      rw [next] at fits
      have other : x ≠ .plain (byteOf '"') := by
        rintro rfl
        exact more (first.symm.trans quote.symm)
      refine ⟨x :: chars, tail, by rw [List.flatMap_cons, List.append_assoc], ⟨⟨other, fits⟩, later⟩, ?_⟩
      rw [List.length_cons]
      omega

theorem taken_literal (ahead : Ahead input p text) (quote : input.byte p = byteOf '"')
    (scan : scanString input 1024 p (1024 + 1) (p + 1) 0 store = some s) (fine : s.token.isError = false)
    (within : s.next ≤ input.eof) (inside : p < input.eof) : Begins strtod p text := by
  obtain ⟨c, text, rfl, first⟩ := ahead.exists_cons inside
  obtain rfl := first.symm.trans quote
  obtain ⟨chars, rest, rfl, fits, small⟩ := scanString_taken quote _ ahead.tail scan fine within (Nat.zero_le _)
  refine ⟨.literal chars, _, rest, ?_, rfl, fits, by omega⟩
  simp only [Lexeme.spell, List.cons_append, List.append_assoc, List.nil_append]

theorem taken_charLiteral (ahead : Ahead input p text) (quote : input.byte p = byteOf '\'') (inside : p < input.eof)
    (fine : (scanChar input p).1.isError = false) (within : (scanChar input p).2 ≤ input.eof) :
    Begins strtod p text := by
  obtain ⟨c, text, rfl, first⟩ := ahead.exists_cons inside
  obtain rfl := first.symm.trans quote
  unfold scanChar at fine within
  have moves := (@clexParseChar_moves input (p + 1)).1
  cases parse : clexParseChar input (p + 1) with
  | mk n q =>
    rw [parse] at fine within moves
    simp only at fine within moves
    split at fine
    · cases fine
    rename_i known
    rw [if_neg known] at within
    split at fine
    · cases fine
    rename_i close
    rw [if_neg close] at within
    rw [not_or, not_not] at close
    simp only at within
    obtain ⟨x, rest, rfl, fits, rfl, behind, -⟩ := clexParseChar_taken ahead.tail (by omega) parse known
    obtain ⟨d, rest, rfl, here⟩ := behind.exists_cons (by omega)
    obtain rfl := here.symm.trans close.2
    obtain ⟨lost, rest, rfl, -⟩ := behind.tail.exists_cons (by omega)
    refine ⟨.charLiteral x lost, _, rest, ?_, rfl, fits⟩
    simp only [Lexeme.spell, List.cons_append, List.append_assoc, List.nil_append]

/-! ## Numbers -/

/-- The digits that a text begins with. -/
theorem exists_digits (base : Nat) (text : Bytes) : ∃ digits rest : Bytes, text = digits ++ rest ∧
    (∀ c ∈ digits, (digit? base c).isSome = true) ∧ digit? base (rest.headD 0) = none := by
  induction text with
  | nil => exact ⟨[], [], rfl, nofun, digit?_nul base⟩
  | cons c text ih =>
    obtain ⟨digits, rest, same, all, stops⟩ := ih
    cases here : digit? base c with
    | none => exact ⟨[], c :: text, rfl, nofun, here⟩
    | some d => exact ⟨c :: digits, rest, by rw [same]; rfl, by simpa [here] using all, stops⟩

theorem taken_number (strtod_ok : StrtodOk input strtod) (ahead : Ahead input p text) (inside : p < input.eof)
    (digit : isDigit (input.byte p) = true) : Begins strtod p text := by
  by_cases float : floatMark text = true
  · obtain ⟨after, within⟩ := strtod_ok p inside digit
    obtain ⟨spelling, rest, rfl, length, -⟩ := ahead.split (Nat.le_of_lt after) within
    have nonempty : spelling ≠ [] := by
      rintro rfl
      simp only [List.length_nil] at length
      omega
    refine ⟨.float spelling (strtod p).1, _, rest, rfl, rfl, ?_, float, by rw [← length]⟩
    rwa [ahead.head nonempty] at digit
  rw [Bool.not_eq_true] at float
  obtain ⟨c, text, rfl, first⟩ := ahead.exists_cons inside
  rw [first] at digit
  by_cases hex : c = byteOf '0' ∧ hexMark (text.headD 0) = true ∧ (digit? 16 (text.getD 1 0)).isSome = true
  · obtain ⟨rfl, mark, some_⟩ := hex
    obtain _ | ⟨x, text⟩ := text
    · cases mark
    obtain _ | ⟨d, text⟩ := text
    · cases some_
    obtain ⟨digits, rest, same, all, stops⟩ := exists_digits 16 (d :: text)
    refine ⟨.hexInteger x digits, _, rest, by rw [same]; rfl, rfl, mark, ?_, all, stops⟩
    rintro rfl
    rw [List.nil_append] at same
    rw [← same] at stops
    have stops : digit? 16 d = none := stops
    have some_ : (digit? 16 d).isSome = true := some_
    rw [stops] at some_
    cases some_
  · obtain ⟨digits, rest, same, all, stops⟩ := exists_digits (baseOf (c :: text)) (c :: text)
    have known : (digit? (baseOf (c :: text)) c).isSome = true := by
      unfold baseOf
      split
      · rename_i zero
        obtain rfl : c = byteOf '0' := zero
        decide
      · exact digit_isSome (Nat.le_refl 10) digit
    obtain _ | ⟨d, digits⟩ := digits
    · rw [List.nil_append] at same
      rw [← same, show (c :: text).headD 0 = c from rfl] at stops
      rw [stops] at known
      cases known
    obtain ⟨rfl, tail⟩ := List.cons.inj same
    have base : baseOf (c :: text) = baseOf (c :: digits) := rfl
    rw [base] at all stops
    rw [same] at float
    refine ⟨.integer (c :: digits), _, rest, same, rfl, digit, all, stops, float, fun alone mark => ?_⟩
    obtain ⟨rfl, rfl⟩ := List.cons.inj alone
    rw [tail] at hex
    cases third : digit? 16 (rest.getD 1 0) with
    | none => rfl
    | some d => exact absurd ⟨rfl, mark, Option.isSome_iff_exists.mpr ⟨d, third⟩⟩ hex

/-! ## Operators and single characters -/

theorem operators_spelling : ∀ c, ∀ r ∈ operators c, operatorSpelling r.2 = [c, r.1] ∧ r.2 ≠ .eqarrow ∧ r.2 ≠ .shleq ∧
    r.2 ≠ .shreq := forall_byte (by decide +kernel)

theorem operators_nul : ∀ c, (operators c).lookup 0 = none := forall_byte (by decide +kernel)

theorem lookup_spelling {c d : UInt8} {o : Operator} (known : (operators c).lookup d = some o) :
    operatorSpelling o = [c, d] ∧ o ≠ .eqarrow := by
  obtain ⟨before, after, split, -⟩ := List.lookup_eq_some_iff.mp known
  obtain ⟨spelling, other, -⟩ := operators_spelling c (d, o) (by rw [split]; simp)
  exact ⟨spelling, other⟩

theorem taken_op {o : Operator} {last : Nat} (ahead : Ahead input p text) (inside : p < input.eof)
    (here : operatorAt input p = some (o, last)) : Begins strtod p text := by
  unfold operatorAt at here
  split at here
  · cases here
  rename_i more
  obtain ⟨c, text, rfl, first⟩ := ahead.exists_cons inside
  obtain ⟨d, rest, rfl, second⟩ := ahead.tail.exists_cons (by omega)
  have third : input.byte (p + 2) = rest.headD 0 := ahead.tail.second
  rw [first, second] at here
  simp only [third] at here
  have two : ∀ {o : Operator}, (operators c).lookup d = some o → (o = .shl ∨ o = .shr → rest.headD 0 ≠ byteOf '=') →
      Begins strtod p (c :: d :: rest) := by
    intro o known short
    obtain ⟨spelling, other⟩ := lookup_spelling known
    exact ⟨.op o, _, rest, by rw [Lexeme.spell, spelling]; rfl, rfl, other, short⟩
  have three : ∀ {o o' : Operator}, (operators c).lookup d = some o →
      operatorSpelling o' = operatorSpelling o ++ [byteOf '='] → (o' ≠ .eqarrow ∧ o' ≠ .shl ∧ o' ≠ .shr) →
      (p + 2 ≠ input.eof ∧ rest.headD 0 = byteOf '=') → Begins strtod p (c :: d :: rest) := by
    rintro o o' known longer ⟨other, no_shl, no_shr⟩ ⟨inside', assigns⟩
    obtain ⟨spelling, -⟩ := lookup_spelling known
    obtain ⟨e, rest, rfl, -⟩ := ahead.tail.tail.exists_cons (Nat.lt_of_le_of_ne ahead.tail.tail.inside inside')
    obtain rfl : e = byteOf '=' := assigns
    refine ⟨.op o', _, rest, by rw [Lexeme.spell, longer, spelling]; rfl, rfl, other, fun short => ?_⟩
    rcases short with shl | shr
    · exact absurd shl no_shl
    · exact absurd shr no_shr
  have alone : ¬ (p + 2 ≠ input.eof ∧ rest.headD 0 = byteOf '=') → rest.headD 0 ≠ byteOf '=' := by
    intro no_assign assigns
    refine no_assign ⟨fun last => ?_, assigns⟩
    rw [← third, last, ahead.nul] at assigns
    exact absurd assigns (by decide)
  split at here
  · cases here
  · rename_i known
    split at here
    · rename_i assigns
      exact three known (by decide : operatorSpelling .shleq = operatorSpelling .shl ++ [byteOf '=']) (by decide) assigns
    · rename_i no_assign
      exact two known fun _ => alone no_assign
  · rename_i known
    split at here
    · rename_i assigns
      exact three known (by decide : operatorSpelling .shreq = operatorSpelling .shr ++ [byteOf '=']) (by decide) assigns
    · rename_i no_assign
      exact two known fun _ => alone no_assign
  · rename_i o' no_shl no_shr known
    exact two known fun short => absurd short (not_or.mpr ⟨no_shl, no_shr⟩)

theorem taken_char (ahead : Ahead input p text) (inside : p < input.eof) (id : isIdStart (input.byte p) = false)
    (digit : isDigit (input.byte p) = false) (quote : input.byte p ≠ byteOf '"' ∧ input.byte p ≠ byteOf '\'')
    (stops : clexIswhite (input.byte p) = false ∧
      (input.byte p = byteOf '/' → input.byte (p + 1) ≠ byteOf '/' ∧ input.byte (p + 1) ≠ byteOf '*') ∧
      input.byte p ≠ byteOf '#') (none_ : operatorAt input p = none) : Begins strtod p text := by
  obtain ⟨c, rest, rfl, first⟩ := ahead.exists_cons inside
  have second : input.byte (p + 1) = rest.headD 0 := ahead.second
  have small : c.toNat < 128 := byte_small (by rw [← first, id]; decide)
  have value : UInt8.ofNat ((⟨c.toNat, small⟩ : Fin 128) : Nat) = c := UInt8.ofNat_toNat
  have operator : (operators c).lookup (rest.headD 0) = none := by
    unfold operatorAt at none_
    split at none_
    · rename_i last
      have nul : rest.headD 0 = 0 := by rw [← second, last, ahead.nul]
      rw [nul, operators_nul]
    · rw [first, second] at none_
      simp only at none_
      split at none_
      · assumption
      · split at none_
        · cases none_
        · cases none_
      · split at none_
        · cases none_
        · cases none_
      · cases none_
  rw [first, second] at stops
  rw [first] at id digit quote
  refine ⟨.char ⟨c.toNat, small⟩, _, rest, by rw [Lexeme.spell, value]; rfl, rfl, ?_⟩
  show CharFits (UInt8.ofNat ((⟨c.toNat, small⟩ : Fin 128) : Nat)) (rest.headD 0)
  rw [value]
  exact ⟨stops.1, id, digit, quote, stops.2.2, stops.2.1, operator⟩

/-! ## The whole text -/

/-- A token that is no error and ends inside the input is that of a lexeme. -/
theorem taken_token (strtod_ok : StrtodOk input strtod) (ahead : Ahead input p text) (inside : p < input.eof)
    (stops : clexIswhite (input.byte p) = false ∧
      (input.byte p = byteOf '/' → input.byte (p + 1) ≠ byteOf '/' ∧ input.byte (p + 1) ≠ byteOf '*') ∧
      input.byte p ≠ byteOf '#') (scan : scanToken input strtod 1024 fuel p store = some s)
    (fine : s.token.isError = false) (within : s.next ≤ input.eof) : Begins strtod p text := by
  unfold scanToken at scan
  simp only at scan
  split at scan
  · rename_i id
    exact taken_id ahead id scan fine
  rename_i id
  split at scan
  · rename_i quote
    exact taken_literal ahead quote scan fine within inside
  rename_i double
  split at scan
  · rename_i quote
    obtain rfl := Option.some.inj scan
    exact taken_charLiteral ahead quote inside fine within
  rename_i single
  split at scan
  · rename_i digit
    exact taken_number strtod_ok ahead inside digit
  rename_i digit
  split at scan
  · rename_i here
    exact taken_op ahead inside here
  · rename_i none_
    exact taken_char ahead inside (Bool.eq_false_of_not_eq_true id) (Bool.eq_false_of_not_eq_true digit) ⟨double, single⟩
      stops none_

theorem spellable_reads (strtod_ok : StrtodOk input strtod) {scans : List Scan} (reads : Reads input strtod p store scans) :
    ∀ {text : Bytes}, Ahead input p text → store.length = 1025 → (∀ s ∈ scans, s.token.isError = false) →
    Spellable strtod p text := by
  induction reads with
  | @ended p store inside call =>
    intro text ahead size fine
    unfold scanCall at call
    split at call
    · cases call
    · cases call
    · rename_i q skip
      split at call
      · rename_i done
        refine spellable_skip _ ahead skip fun rest behind => ?_
        have none_ : rest = [] := List.length_eq_zero_iff.mp (by have := behind.eof; omega)
        exact ⟨[], trivial, none_.symm⟩
      · obtain ⟨s, -, other⟩ := Option.map_eq_some_iff.mp call
        cases other
  | @token p store s scans moves within call later ih =>
    intro text ahead size fine
    have good := fine s (by simp)
    unfold scanCall at call
    split at call
    · cases call
    · cases call
      cases good
    · rename_i q skip
      split at call
      · cases call
      rename_i more
      obtain ⟨s', scan, same⟩ := Option.map_eq_some_iff.mp call
      obtain rfl := Scanned.token.inj same
      refine spellable_skip _ ahead skip fun rest behind => ?_
      have inside : q < input.eof := Nat.lt_of_le_of_ne behind.inside more
      obtain ⟨x, t, rest, rfl, token, fits⟩ :=
        taken_token strtod_ok behind inside (skipSpace_stops _ skip more) scan good within
      obtain ⟨⟨fuel, s, scan', -, next, size'⟩, -⟩ := Lexeme.call behind fits token size
      have one := (scanToken_mono (Nat.le_max_left _ fuel) scan).symm.trans (scanToken_mono (Nat.le_max_right _ fuel) scan')
      obtain rfl := Option.some.inj one
      refine .cons fits ?_
      have behind' := behind.drop
      rw [← next] at behind' ⊢
      exact ih behind' size' fun s here => fine s (by simp [here])

/-- The texts that are lexed without an error and whose literals are closed are exactly
those that are put together from lexemes, and their tokens are those of the lexemes. -/
theorem lexed_iff_spelled (strtod_ok : StrtodOk (Input.ofBytes text) strtod) (ts : List Token) :
    (tokensOf strtod text = ts ∧ Lexed ts ∧ Closed strtod text) ↔
      ∃ ls, Spelt strtod 0 ls ∧ spellAll ls = text ∧ ls.filterMap Lexeme.token? = ts := by
  constructor
  · rintro ⟨rfl, lexed, closed⟩
    have fine : ∀ s ∈ scansOf strtod text, s.token.isError = false := fun s here => lexed s.token (List.mem_map_of_mem here)
    obtain ⟨ls, spelt, rfl⟩ := spellable_reads strtod_ok (tokensOf_reads strtod_ok closed) (ahead_ofBytes text)
      List.length_replicate fine
    exact ⟨ls, spelt, rfl, (tokensOf_spelled ls spelt).1.symm⟩
  · rintro ⟨ls, spelt, rfl, rfl⟩
    obtain ⟨tokens, closed⟩ := tokensOf_spelled ls spelt
    refine ⟨tokens, fun t here => ?_, closed⟩
    obtain ⟨x, -, token⟩ := List.mem_filterMap.mp here
    exact Lexeme.fine token

/-- The theorem at a call of `f`, whose last argument takes the parenthesis along. -/
theorem lexed_iff_spelled_call :
    tokensOf (fun p => (0, p + 1)) (bytesOf "f(7<<'a')") =
      [.id ⟨bytesOf "f", by decide, by decide⟩, .char 40, .intlit 7, .op .shl, .charlit 97] := by
  have strtod_ok : StrtodOk (Input.ofBytes (bytesOf "f(7<<'a')")) fun p => (0, p + 1) :=
    fun p inside _ => ⟨Nat.lt_succ_self p, inside⟩
  refine ((lexed_iff_spelled strtod_ok _).mpr ⟨[.id ⟨bytesOf "f", by decide, by decide⟩, .char 40, .integer (bytesOf "7"), .op .shl,
      .charLiteral (.plain 97) (byteOf ')')], ?_, ?_, ?_⟩).1
  · decide +kernel
  · decide +kernel
  · decide

end Stb

end MoeToolchain
