import Mathlib.Data.List.Basic
import MoeToolchain.Lib.Digits

/-!
# JSON texts

`loads` reads a text as the decoder of Python's `json` module does, with its `NaN` and
`Infinity`. A number that is no integer is kept as its text, and of the members of an
object the last one with a key counts. `loads_write` says that an object written by
hand is read back: plain keys, and values that `Reads` says are read.

The readers have fuel for the nesting. `scanOnce_fuel` says that `loads` has enough.
-/

namespace Lib
set_option autoImplicit false

inductive Json
  | null
  | bool (b : Bool)
  | int (n : Int)
  | real (text : List Char)
  | str (text : List Char)
  | arr (items : List Json)
  | obj (members : List (List Char × Json))
deriving Repr

namespace Json

/-! ## Strings -/

def isSpace (c : Char) : Bool := c == ' ' || c == '\t' || c == '\n' || c == '\r'

def skipSpace (s : List Char) : List Char := s.dropWhile isSpace

/-- The rest after the character. -/
def expect (c : Char) : List Char → Option (List Char)
  | [] => none
  | d :: rest => if d = c then some rest else none

def hexValue (c : Char) : Option Nat :=
  if c.isDigit then some (c.toNat - 48)
  else if 'a' ≤ c ∧ c ≤ 'f' then some (c.toNat - 87)
  else if 'A' ≤ c ∧ c ≤ 'F' then some (c.toNat - 55)
  else none

def hexUnit (a b c d : Char) : Option Nat := do
  let w ← hexValue a
  let x ← hexValue b
  let y ← hexValue c
  let z ← hexValue d
  pure (((w * 16 + x) * 16 + y) * 16 + z)

/-- The character after a backslash. -/
def escaped (c : Char) : Option Nat :=
  if c = '"' then some 34
  else if c = '\\' then some 92
  else if c = '/' then some 47
  else if c = 'b' then some 8
  else if c = 'f' then some 12
  else if c = 'n' then some 10
  else if c = 'r' then some 13
  else if c = 't' then some 9
  else none

/-- A string from after its opening quote: its code points, with the surrogates of `\u`
escapes apart, and the rest. -/
def scanString : List Char → Option (List Nat × List Char)
  | [] => none
  | '"' :: rest => some ([], rest)
  | '\\' :: 'u' :: a :: b :: c :: d :: rest => do
    let unit ← hexUnit a b c d
    let (units, rest) ← scanString rest
    pure (unit :: units, rest)
  | '\\' :: c :: rest => do
    let unit ← escaped c
    let (units, rest) ← scanString rest
    pure (unit :: units, rest)
  | c :: rest =>
    if c.toNat < 32 ∨ c = '\\' then none
    else do
      let (units, rest) ← scanString rest
      pure (c.toNat :: units, rest)

def isHigh (u : Nat) : Bool := 0xD800 ≤ u && u < 0xDC00

def isLow (u : Nat) : Bool := 0xDC00 ≤ u && u < 0xE000

/-- A surrogate that has no partner is replaced. -/
def unitChar (u : Nat) : Char := if isHigh u || isLow u then '\uFFFD' else Char.ofNat u

def joinSurrogates : List Nat → List Char
  | [] => []
  | [u] => [unitChar u]
  | u :: v :: rest =>
    if isHigh u && isLow v then
      Char.ofNat (0x10000 + (u - 0xD800) * 1024 + (v - 0xDC00)) :: joinSurrogates rest
    else unitChar u :: joinSurrogates (v :: rest)

/-! ## Numbers and words -/

def digits (s : List Char) : List Char × List Char := (s.takeWhile Char.isDigit, s.dropWhile Char.isDigit)

/-- `0|[1-9]\d*` -/
def integer (s : List Char) : Option (List Char × List Char) :=
  match s with
  | '0' :: rest => some (['0'], rest)
  | _ => if (digits s).1 = [] then none else some (digits s)

/-- `(\.\d+)?` -/
def fraction (s : List Char) : List Char × List Char :=
  match s with
  | '.' :: rest => if (digits rest).1 = [] then ([], s) else ('.' :: (digits rest).1, (digits rest).2)
  | _ => ([], s)

/-- `[-+]?` -/
def sign (s : List Char) : List Char × List Char :=
  match s with
  | '+' :: rest => (['+'], rest)
  | '-' :: rest => (['-'], rest)
  | _ => ([], s)

/-- `([eE][-+]?\d+)?` -/
def exponent (s : List Char) : List Char × List Char :=
  match s with
  | e :: rest =>
    if (e = 'e' ∨ e = 'E') ∧ (digits (sign rest).2).1 ≠ [] then
      (e :: (sign rest).1 ++ (digits (sign rest).2).1, (digits (sign rest).2).2)
    else ([], s)
  | [] => ([], [])

/-- A number that begins with its digits. -/
def matchNatural (minus : Bool) (s : List Char) : Option (Json × List Char) :=
  match integer s with
  | none => none
  | some (whole, rest) =>
    let frac := fraction rest
    let exp := exponent frac.2
    let n : Int := Nat.ofDigitChars 10 whole 0
    if frac.1 = [] ∧ exp.1 = [] then some (.int (if minus then -n else n), exp.2)
    else some (.real ((if minus then ['-'] else []) ++ whole ++ frac.1 ++ exp.1), exp.2)

def matchNumber (s : List Char) : Option (Json × List Char) :=
  match s with
  | '-' :: rest => matchNatural true rest
  | _ => matchNatural false s

def matchWord (w : String) (v : Json) (s : List Char) : Option (Json × List Char) :=
  if s.take w.toList.length = w.toList then some (v, s.drop w.toList.length) else none

/-- A value that is no string, object or array. -/
def scanAtom (s : List Char) : Option (Json × List Char) :=
  (matchWord "null" .null s).or <|
  (matchWord "true" (.bool true) s).or <|
  (matchWord "false" (.bool false) s).or <|
  (matchNumber s).or <|
  (matchWord "NaN" (.real "NaN".toList) s).or <|
  (matchWord "Infinity" (.real "Infinity".toList) s).or <|
  matchWord "-Infinity" (.real "-Infinity".toList) s

/-! ## Values -/

mutual

def scanOnce : Nat → List Char → Option (Json × List Char)
  | 0, _ => none
  | _ + 1, [] => none
  | fuel + 1, c :: rest =>
    if c = '"' then do
      let (units, s) ← scanString rest
      pure (.str (joinSurrogates units), s)
    else if c = '\x7b' then
      match skipSpace rest with
      | [] => none
      | d :: s =>
        if d = '\x7d' then some (.obj [], s)
        else if d = '"' then do
          let (members, s) ← scanMembers fuel s
          pure (.obj members, s)
        else none
    else if c = '[' then
      match skipSpace rest with
      | [] => none
      | d :: s =>
        if d = ']' then some (.arr [], s)
        else do
          let (items, s) ← scanItems fuel (d :: s)
          pure (.arr items, s)
    else scanAtom (c :: rest)

/-- The members of an object, from after the opening quote of the first key. -/
def scanMembers : Nat → List Char → Option (List (List Char × Json) × List Char)
  | 0, _ => none
  | fuel + 1, s => do
    let (units, s) ← scanString s
    let s ← expect ':' (skipSpace s)
    let (value, s) ← scanOnce fuel (skipSpace s)
    match skipSpace s with
    | [] => none
    | d :: s =>
      if d = '\x7d' then some ([(joinSurrogates units, value)], s)
      else if d = ',' then do
        let s ← expect '"' (skipSpace s)
        let (members, s) ← scanMembers fuel s
        pure ((joinSurrogates units, value) :: members, s)
      else none

/-- The items of an array that is not empty. -/
def scanItems : Nat → List Char → Option (List Json × List Char)
  | 0, _ => none
  | fuel + 1, s => do
    let (value, s) ← scanOnce fuel s
    match skipSpace s with
    | [] => none
    | d :: s =>
      if d = ']' then some ([value], s)
      else if d = ',' then do
        let (items, s) ← scanItems fuel (skipSpace s)
        pure (value :: items, s)
      else none

end

/-- The value of a text, or `none` where the text is not JSON. -/
def loads (s : List Char) : Option Json :=
  if s.head? = some '\uFEFF' then none
  else
    match scanOnce (2 * s.length + 2) (skipSpace s) with
    | none => none
    | some (v, rest) => if skipSpace rest = [] then some v else none

/-- The value of a key, or the default where there is none. -/
def get (members : List (List Char × Json)) (key : String) (default : Json) : Json :=
  (members.reverse.lookup key.toList).getD default

/-! ## What is left of a text -/

section Shorter

variable {s rest : List Char}

theorem length_skipSpace (s : List Char) : (skipSpace s).length ≤ s.length := (List.dropWhile_sublist _).length_le

theorem expect_length {c : Char} (found : expect c s = some rest) : rest.length + 1 = s.length := by
  cases s with
  | nil => cases found
  | cons d s =>
    rw [expect] at found
    split at found
    · rw [← Option.some.inj found, List.length_cons]
    · cases found

theorem scanString_shorter {units : List Nat} (read : scanString s = some (units, rest)) : rest.length < s.length := by
  fun_induction scanString s generalizing units with
  | case1 => cases read
  | case2 => simp_all
  | case3 a b c d s ih =>
    simp only [Option.bind_eq_bind, Option.bind_eq_some_iff, Option.pure_def, Option.some.injEq, Prod.mk.injEq] at read
    obtain ⟨unit, -, ⟨units', s'⟩, tail, -, rfl⟩ := read
    have shorter : s'.length < s.length := ih tail
    simp only [List.length_cons]
    omega
  | case4 c s _ ih =>
    simp only [Option.bind_eq_bind, Option.bind_eq_some_iff, Option.pure_def, Option.some.injEq, Prod.mk.injEq] at read
    obtain ⟨unit, -, ⟨units', s'⟩, tail, -, rfl⟩ := read
    have shorter : s'.length < s.length := ih tail
    simp only [List.length_cons]
    omega
  | case5 => cases read
  | case6 c s _ _ _ _ ih =>
    simp only [Option.bind_eq_bind, Option.bind_eq_some_iff, Option.pure_def, Option.some.injEq, Prod.mk.injEq] at read
    obtain ⟨⟨units', s'⟩, tail, -, rfl⟩ := read
    have shorter : s'.length < s.length := ih tail
    simp only [List.length_cons]
    omega

theorem digits_length (s : List Char) : (digits s).1.length + (digits s).2.length = s.length := by
  rw [digits, ← List.length_append, List.takeWhile_append_dropWhile]

theorem integer_shorter {whole : List Char} (read : integer s = some (whole, rest)) : rest.length < s.length := by
  unfold integer at read
  split at read
  · simp only [Option.some.injEq, Prod.mk.injEq] at read
    rw [← read.2, List.length_cons]
    omega
  · split at read
    · cases read
    · rename_i some_
      have all := digits_length s
      have first := List.length_pos_of_ne_nil some_
      have last : (digits s).2 = rest := congrArg Prod.snd (Option.some.inj read)
      rw [← last]
      omega

theorem fraction_length (s : List Char) : (fraction s).2.length ≤ s.length := by
  unfold fraction
  split
  · split
    · exact Nat.le_refl _
    · rename_i rest _
      have all := digits_length rest
      simp only [List.length_cons]
      omega
  · exact Nat.le_refl _

theorem sign_length (s : List Char) : (sign s).2.length ≤ s.length := by
  unfold sign
  split <;> simp

theorem exponent_length (s : List Char) : (exponent s).2.length ≤ s.length := by
  unfold exponent
  split
  · split
    · rename_i e rest _
      have all := digits_length (sign rest).2
      have after := sign_length rest
      simp only [List.length_cons]
      omega
    · exact Nat.le_refl _
  · exact Nat.le_refl _

theorem matchNatural_shorter {minus : Bool} {v : Json} (read : matchNatural minus s = some (v, rest)) :
    rest.length < s.length := by
  unfold matchNatural at read
  split at read
  · cases read
  · rename_i whole after here
    have first := integer_shorter here
    have second := fraction_length after
    have third := exponent_length (fraction after).2
    have last : rest = (exponent (fraction after).2).2 := by
      simp only at read
      split at read
      · exact (congrArg Prod.snd (Option.some.inj read)).symm
      · exact (congrArg Prod.snd (Option.some.inj read)).symm
    rw [last]
    omega

theorem matchNumber_shorter {v : Json} (read : matchNumber s = some (v, rest)) : rest.length < s.length := by
  unfold matchNumber at read
  split at read
  · exact Nat.lt_succ_of_lt (matchNatural_shorter read)
  · exact matchNatural_shorter read

theorem matchWord_shorter {w : String} {v v' : Json} (word : w.toList ≠ []) (read : matchWord w v s = some (v', rest)) :
    rest.length < s.length := by
  unfold matchWord at read
  split at read
  · rename_i here
    have long := congrArg List.length here
    have first := List.length_pos_of_ne_nil word
    rw [List.length_take] at long
    have last : s.drop w.toList.length = rest := congrArg Prod.snd (Option.some.inj read)
    rw [← last, List.length_drop]
    omega
  · cases read

theorem scanAtom_shorter {v : Json} (read : scanAtom s = some (v, rest)) : rest.length < s.length := by
  unfold scanAtom at read
  simp only [Option.or_eq_some_iff] at read
  obtain null | ⟨-, true_ | ⟨-, false_ | ⟨-, number | ⟨-, nan | ⟨-, infinity | ⟨-, minus⟩⟩⟩⟩⟩⟩ := read
  · exact matchWord_shorter (by decide) null
  · exact matchWord_shorter (by decide) true_
  · exact matchWord_shorter (by decide) false_
  · exact matchNumber_shorter number
  · exact matchWord_shorter (by decide) nan
  · exact matchWord_shorter (by decide) infinity
  · exact matchWord_shorter (by decide) minus

/-- The reader takes something off the text. -/
def Shortens {α : Type} (read : List Char → Option (α × List Char)) : Prop :=
  ∀ s v rest, read s = some (v, rest) → rest.length < s.length

theorem scanOnce_shortens {fuel : Nat} (members : Shortens (scanMembers fuel)) (items : Shortens (scanItems fuel)) :
    Shortens (scanOnce (fuel + 1)) := by
  intro s v rest read
  cases s with
  | nil => simp [scanOnce] at read
  | cons c s =>
    have spaces := length_skipSpace s
    rw [List.length_cons]
    rw [scanOnce] at read
    split_ifs at read
    · obtain ⟨⟨units, s'⟩, string, same⟩ := Option.bind_eq_some_iff.mp read
      cases same
      exact Nat.lt_succ_of_lt (scanString_shorter string)
    · cases after : skipSpace s with
      | nil => simp [after] at read
      | cons d t =>
        simp only [after, List.length_cons] at read spaces
        split_ifs at read
        · cases read
          omega
        · obtain ⟨⟨ms, s'⟩, inner, same⟩ := Option.bind_eq_some_iff.mp read
          cases same
          have shorter : s'.length < t.length := members t ms _ inner
          show s'.length < _
          omega
    · cases after : skipSpace s with
      | nil => simp [after] at read
      | cons d t =>
        simp only [after, List.length_cons] at read spaces
        split_ifs at read
        · cases read
          omega
        · obtain ⟨⟨vs, s'⟩, inner, same⟩ := Option.bind_eq_some_iff.mp read
          cases same
          have shorter : s'.length < t.length + 1 := items (d :: t) vs _ inner
          show s'.length < _
          omega
    · exact scanAtom_shorter read

theorem scanMembers_shortens {fuel : Nat} (once : Shortens (scanOnce fuel)) (members : Shortens (scanMembers fuel)) :
    Shortens (scanMembers (fuel + 1)) := by
  intro s ms rest read
  rw [scanMembers] at read
  obtain ⟨⟨units, s₁⟩, string, read⟩ := Option.bind_eq_some_iff.mp read
  obtain ⟨s₂, colon, read⟩ := Option.bind_eq_some_iff.mp read
  obtain ⟨⟨value, s₃⟩, inner, read⟩ := Option.bind_eq_some_iff.mp read
  have first := scanString_shorter string
  have second := expect_length colon
  have third := once _ _ _ inner
  have before := length_skipSpace s₁
  have middle := length_skipSpace s₂
  have spaces := length_skipSpace s₃
  cases after : skipSpace s₃ with
  | nil => simp [after] at read
  | cons d t =>
    simp only [after, List.length_cons] at read spaces
    split_ifs at read
    · cases read
      omega
    · obtain ⟨s₄, quote, read⟩ := Option.bind_eq_some_iff.mp read
      obtain ⟨⟨ms', s₅⟩, more, same⟩ := Option.bind_eq_some_iff.mp read
      cases same
      have last := expect_length quote
      have gap := length_skipSpace t
      have shorter := members s₄ ms' _ more
      show s₅.length < _
      omega

theorem scanItems_shortens {fuel : Nat} (once : Shortens (scanOnce fuel)) (items : Shortens (scanItems fuel)) :
    Shortens (scanItems (fuel + 1)) := by
  intro s vs rest read
  rw [scanItems] at read
  obtain ⟨⟨value, s₁⟩, inner, read⟩ := Option.bind_eq_some_iff.mp read
  have first := once _ _ _ inner
  have spaces := length_skipSpace s₁
  cases after : skipSpace s₁ with
  | nil => simp [after] at read
  | cons d t =>
    simp only [after, List.length_cons] at read spaces
    split_ifs at read
    · cases read
      omega
    · obtain ⟨⟨vs', s₂⟩, more, same⟩ := Option.bind_eq_some_iff.mp read
      cases same
      have gap := length_skipSpace t
      have shorter := items _ vs' _ more
      show s₂.length < _
      omega

/-- All readers do, by induction on the fuel. -/
theorem scan_shortens (fuel : Nat) :
    Shortens (scanOnce fuel) ∧ Shortens (scanMembers fuel) ∧ Shortens (scanItems fuel) := by
  induction fuel with
  | zero => exact ⟨by simp [Shortens, scanOnce], by simp [Shortens, scanMembers], by simp [Shortens, scanItems]⟩
  | succ fuel ih =>
    obtain ⟨once, members, items⟩ := ih
    exact ⟨scanOnce_shortens members items, scanMembers_shortens once members, scanItems_shortens once items⟩

/-- More fuel than twice the length changes nothing. -/
theorem scan_fuel (fuel : Nat) :
    (∀ s more, 2 * s.length + 1 ≤ fuel → fuel ≤ more → scanOnce more s = scanOnce fuel s) ∧
      (∀ s more, 2 * s.length + 1 ≤ fuel → fuel ≤ more → scanMembers more s = scanMembers fuel s) ∧
        ∀ s more, 2 * s.length + 2 ≤ fuel → fuel ≤ more → scanItems more s = scanItems fuel s := by
  induction fuel with
  | zero => exact ⟨by omega, by omega, by omega⟩
  | succ fuel ih =>
    obtain ⟨once, members, items⟩ := ih
    refine ⟨?_, ?_, ?_⟩
    · intro s more enough le
      obtain ⟨more, rfl⟩ : ∃ n, more = n + 1 := ⟨more - 1, by omega⟩
      cases s with
      | nil => simp [scanOnce]
      | cons c s =>
        have spaces := length_skipSpace s
        rw [List.length_cons] at enough
        rw [scanOnce, scanOnce]
        cases after : skipSpace s with
        | nil => rfl
        | cons d t =>
          rw [after, List.length_cons] at spaces
          simp only [members t more (by omega) (by omega),
            items (d :: t) more (by rw [List.length_cons]; omega) (by omega)]
    · intro s more enough le
      obtain ⟨more, rfl⟩ : ∃ n, more = n + 1 := ⟨more - 1, by omega⟩
      rw [scanMembers, scanMembers]
      refine Option.bind_congr fun ⟨units, s₁⟩ string => Option.bind_congr fun s₂ colon => ?_
      have first := scanString_shorter string
      have second := expect_length colon
      have before := length_skipSpace s₁
      have middle := length_skipSpace s₂
      rw [once _ more (by omega) (by omega)]
      refine Option.bind_congr fun ⟨value, s₃⟩ inner => ?_
      have third := (scan_shortens fuel).1 _ _ _ inner
      have spaces := length_skipSpace s₃
      simp only
      cases after : skipSpace s₃ with
      | nil => rfl
      | cons d t =>
        rw [after, List.length_cons] at spaces
        have each : ∀ s₄, expect '"' (skipSpace t) = some s₄ → scanMembers more s₄ = scanMembers fuel s₄ := by
          intro s₄ quote
          have last := expect_length quote
          have gap := length_skipSpace t
          exact members s₄ more (by omega) (by omega)
        simp only
        split_ifs
        · rfl
        · exact Option.bind_congr fun s₄ quote => by rw [each s₄ quote]
        · rfl
    · intro s more enough le
      obtain ⟨more, rfl⟩ : ∃ n, more = n + 1 := ⟨more - 1, by omega⟩
      rw [scanItems, scanItems, once s more (by omega) (by omega)]
      refine Option.bind_congr fun ⟨value, s₁⟩ inner => ?_
      have first := (scan_shortens fuel).1 _ _ _ inner
      have spaces := length_skipSpace s₁
      simp only
      cases after : skipSpace s₁ with
      | nil => rfl
      | cons d t =>
        rw [after, List.length_cons] at spaces
        have gap := length_skipSpace t
        simp only [items (skipSpace t) more (by omega) (by omega)]

/-- The fuel of `loads` is enough. -/
theorem scanOnce_fuel {fuel : Nat} (enough : 2 * s.length + 2 ≤ fuel) :
    scanOnce fuel (skipSpace s) = scanOnce (2 * s.length + 2) (skipSpace s) := by
  have spaces := length_skipSpace s
  exact (scan_fuel (2 * s.length + 2)).1 _ fuel (by omega) enough

end Shorter

/-! ## Objects written by hand -/

section Write

/-- No quote, backslash or control character. -/
def Plain (s : List Char) : Prop := ∀ c ∈ s, 32 ≤ c.toNat ∧ c ≠ '"' ∧ c ≠ '\\'

instance (s : List Char) : Decidable (Plain s) := List.decidableBAll _ s

theorem scanString_plain {s : List Char} (plain : Plain s) (rest : List Char) :
    scanString (s ++ '"' :: rest) = some (s.map Char.toNat, rest) := by
  induction s with
  | nil => rfl
  | cons c s ih =>
    obtain ⟨printable, noQuote, noEscape⟩ := plain c List.mem_cons_self
    have tail := ih fun d mem => plain d (List.mem_cons_of_mem c mem)
    have allowed : ¬ (c.toNat < 32 ∨ c = '\\') := by
      rintro (control | same)
      · omega
      · exact noEscape same
    rw [List.cons_append, scanString.eq_def]
    split
    · rename_i nil
      cases nil
    · rename_i same
      exact absurd (List.cons.inj same).1 noQuote
    · rename_i same
      exact absurd (List.cons.inj same).1 noEscape
    · rename_i same
      exact absurd (List.cons.inj same).1 noEscape
    · rename_i same
      obtain ⟨rfl, rfl⟩ := List.cons.inj same
      rw [if_neg allowed, tail]
      rfl

theorem joinSurrogates_toNat (s : List Char) : joinSurrogates (s.map Char.toNat) = s := by
  have apart : ∀ c : Char, isHigh c.toNat = false ∧ isLow c.toNat = false := by
    intro c
    have valid : c.toNat < 0xD800 ∨ 0xDFFF < c.toNat ∧ c.toNat < 0x110000 := c.valid
    simp only [isHigh, isLow, Bool.and_eq_false_iff, decide_eq_false_iff_not]
    omega
  have same : ∀ c : Char, unitChar c.toNat = c := by
    intro c
    rw [unitChar, (apart c).1, (apart c).2]
    exact Char.ofNat_toNat c
  match s with
  | [] => rfl
  | [c] => exact congrArg (fun c => [c]) (same c)
  | c :: d :: rest =>
    have tail := joinSurrogates_toNat (d :: rest)
    rw [List.map_cons, List.map_cons, joinSurrogates, (apart c).1, same c, ← List.map_cons, tail]
    rfl

theorem skipSpace_cons {c : Char} (visible : isSpace c = false) (s : List Char) : skipSpace (c :: s) = c :: s := by
  rw [skipSpace, List.dropWhile_cons_of_neg (by simp [visible])]

/-- What comes after a member. -/
def Follows (rest : List Char) : Prop := ∃ tail, rest = ',' :: tail ∨ rest = '\x7d' :: tail

/-- The text is read as the value wherever a member ends. -/
structure Reads (text : List Char) (value : Json) : Prop where
  scan : ∀ fuel rest, Follows rest → scanOnce (fuel + 1) (text ++ rest) = some (value, rest)
  start : ∀ rest, skipSpace (text ++ rest) = text ++ rest

def quoted (s : List Char) : List Char := '"' :: (s ++ ['"'])

theorem reads_quoted {s : List Char} (plain : Plain s) : Reads (quoted s) (.str s) where
  scan := by
    intro fuel rest _
    have shape : quoted s ++ rest = '"' :: (s ++ '"' :: rest) := by simp [quoted]
    rw [shape, scanOnce, if_pos rfl, scanString_plain plain]
    exact congrArg (fun s => some (Json.str s, rest)) (joinSurrogates_toNat s)
  start rest := skipSpace_cons (by decide) _

theorem matchWord_none {w : String} {v : Json} {c : Char} (s : List Char) (other : w.toList.head? ≠ some c)
    (word : w.toList ≠ []) : matchWord w v (c :: s) = none := by
  refine if_neg fun same => other ?_
  rw [← same]
  cases here : w.toList with
  | nil => exact absurd here word
  | cons d ds => rfl

theorem integer_toDigits (n : Nat) {rest : List Char}
    (stop : digits (Nat.toDigits 10 n ++ rest) = (Nat.toDigits 10 n, rest)) :
    integer (Nat.toDigits 10 n ++ rest) = some (Nat.toDigits 10 n, rest) := by
  by_cases zero : n = 0
  · subst zero
    rw [Nat.toDigits_zero]
    rfl
  · unfold integer
    split
    · rename_i after same
      cases ds : Nat.toDigits 10 n with
      | nil => exact absurd ds Nat.toDigits_ne_nil
      | cons c ds' =>
        rw [ds] at same
        rw [(List.cons.inj same).1] at ds
        exact absurd ds (toDigits_head (by decide) (by decide) zero ds')
    · rw [stop, if_neg Nat.toDigits_ne_nil]

theorem matchNatural_toDigits (n : Nat) {rest : List Char} (follows : Follows rest) :
    matchNatural false (Nat.toDigits 10 n ++ rest) = some (.int n, rest) := by
  have all : ∀ c ∈ Nat.toDigits 10 n, c.isDigit = true :=
    fun c mem => Nat.isDigit_of_mem_toDigits (by decide) (by decide) mem
  obtain ⟨tail, ends⟩ := follows
  have stop : digits (Nat.toDigits 10 n ++ rest) = (Nat.toDigits 10 n, rest) := by
    obtain rfl | rfl := ends
    · simp only [digits, List.takeWhile_append_of_pos all, List.dropWhile_append_of_pos all]
      simp
    · simp only [digits, List.takeWhile_append_of_pos all, List.dropWhile_append_of_pos all]
      simp
  have plain : fraction rest = ([], rest) ∧ exponent rest = ([], rest) := by
    obtain rfl | rfl := ends
    · exact ⟨rfl, rfl⟩
    · exact ⟨rfl, rfl⟩
  simp [matchNatural, integer_toDigits n stop, plain]

/-- A digit begins no other value, and is no white space. -/
theorem isDigit_kind {c : Char} (digit : c.isDigit = true) :
    (c ≠ '"' ∧ c ≠ '\x7b' ∧ c ≠ '[') ∧ (c ≠ '-' ∧ c ≠ 'n' ∧ c ≠ 't' ∧ c ≠ 'f') ∧ isSpace c = false := by
  have other : ∀ d : Char, d.isDigit = false → c ≠ d := by
    rintro d not rfl
    rw [digit] at not
    cases not
  refine ⟨⟨other _ rfl, other _ rfl, other _ rfl⟩, ⟨other _ rfl, other _ rfl, other _ rfl, other _ rfl⟩, ?_⟩
  have space : c ≠ ' ' ∧ c ≠ '\t' ∧ c ≠ '\n' ∧ c ≠ '\r' := ⟨other _ rfl, other _ rfl, other _ rfl, other _ rfl⟩
  simp [isSpace, space]

theorem reads_nat (n : Nat) : Reads (Nat.toDigits 10 n) (.int n) := by
  cases text : Nat.toDigits 10 n with
  | nil => exact absurd text Nat.toDigits_ne_nil
  | cons c ds =>
    have digit : c.isDigit = true := Nat.isDigit_of_mem_toDigits (by decide) (by decide) (text ▸ List.mem_cons_self)
    obtain ⟨⟨quote, brace, bracket⟩, ⟨minus, n_, t_, f_⟩, visible⟩ := isDigit_kind digit
    refine ⟨fun fuel rest follows => ?_, fun rest => skipSpace_cons visible _⟩
    have number : matchNumber (c :: (ds ++ rest)) = some (.int n, rest) := by
      unfold matchNumber
      split
      · rename_i same
        exact absurd (List.cons.inj same).1 minus
      · rw [← List.cons_append, ← text]
        exact matchNatural_toDigits n follows
    have null_ : matchWord "null" .null (c :: (ds ++ rest)) = none :=
      matchWord_none _ (fun same => n_ (Option.some.inj same).symm) (by decide)
    have true_ : matchWord "true" (.bool true) (c :: (ds ++ rest)) = none :=
      matchWord_none _ (fun same => t_ (Option.some.inj same).symm) (by decide)
    have false_ : matchWord "false" (.bool false) (c :: (ds ++ rest)) = none :=
      matchWord_none _ (fun same => f_ (Option.some.inj same).symm) (by decide)
    rw [List.cons_append, scanOnce, if_neg quote, if_neg brace, if_neg bracket, scanAtom, null_, true_, false_, number]
    rfl

/-- A member of an object, with the text of its value. -/
structure Entry where
  key : List Char
  text : List Char
  value : Json
  plain : Plain key
  reads : Reads text value

def Entry.member (e : Entry) : List Char × Json := (e.key, e.value)

/-- Members from after the first quote to the closing brace. -/
def writeMembers (e : Entry) : List Entry → List Char
  | [] => e.key ++ '"' :: ':' :: (e.text ++ ['\x7d'])
  | e' :: es => e.key ++ '"' :: ':' :: (e.text ++ ',' :: ' ' :: '"' :: writeMembers e' es)

def writeObject (e : Entry) (es : List Entry) : List Char := '\x7b' :: '"' :: writeMembers e es

theorem writeMembers_last (es : List Entry) (e : Entry) : ∃ mid, writeMembers e es = mid ++ ['\x7d'] := by
  induction es generalizing e with
  | nil => exact ⟨e.key ++ '"' :: ':' :: e.text, by simp [writeMembers]⟩
  | cons e' es ih =>
    obtain ⟨mid, last⟩ := ih e'
    exact ⟨e.key ++ '"' :: ':' :: (e.text ++ ',' :: ' ' :: '"' :: mid), by simp [writeMembers, last]⟩

theorem writeObject_braces (e : Entry) (es : List Entry) : ∃ mid, writeObject e es = '\x7b' :: (mid ++ ['\x7d']) := by
  obtain ⟨mid, last⟩ := writeMembers_last es e
  exact ⟨'"' :: mid, by rw [writeObject, last, List.cons_append]⟩

theorem scanMembers_write (es : List Entry) (e : Entry) (fuel : Nat) (rest : List Char) :
    scanMembers (fuel + es.length + 2) (writeMembers e es ++ rest) = some ((e :: es).map Entry.member, rest) := by
  have key : ∀ (e : Entry) (after : List Char),
      scanString (e.key ++ '"' :: ':' :: after) = some (e.key.map Char.toNat, ':' :: after) :=
    fun e after => scanString_plain e.plain _
  have colon : ∀ after, expect ':' (skipSpace (':' :: after)) = some after := fun after => rfl
  induction es generalizing e with
  | nil =>
    have value := e.reads.scan fuel ('\x7d' :: rest) ⟨rest, .inr rfl⟩
    have shape : writeMembers e [] ++ rest = e.key ++ '"' :: ':' :: (e.text ++ '\x7d' :: rest) := by
      simp [writeMembers]
    rw [shape, scanMembers, key]
    simp only [Option.bind_eq_bind, Option.bind_some, colon, e.reads.start, List.length_nil, Nat.add_zero, value]
    rw [joinSurrogates_toNat]
    rfl
  | cons e' es ih =>
    have value := e.reads.scan (fuel + es.length + 1) (',' :: ' ' :: '"' :: (writeMembers e' es ++ rest)) ⟨_, .inl rfl⟩
    have shape : writeMembers e (e' :: es) ++ rest =
        e.key ++ '"' :: ':' :: (e.text ++ ',' :: ' ' :: '"' :: (writeMembers e' es ++ rest)) := by
      simp [writeMembers]
    have more : fuel + (e' :: es).length + 2 = (fuel + es.length + 2) + 1 := by
      rw [List.length_cons]
      omega
    have comma : skipSpace (',' :: ' ' :: '"' :: (writeMembers e' es ++ rest)) =
        ',' :: ' ' :: '"' :: (writeMembers e' es ++ rest) := rfl
    have quote : expect '"' (skipSpace (' ' :: '"' :: (writeMembers e' es ++ rest))) =
        some (writeMembers e' es ++ rest) := rfl
    have differ : ¬ (',' : Char) = '\x7d' := by decide
    rw [shape, more, scanMembers, key]
    simp only [Option.bind_eq_bind, Option.bind_some, colon, e.reads.start, value, comma, if_neg differ, if_true, quote,
      ih e']
    rw [joinSurrogates_toNat]
    rfl

/-- An object that was written is read. -/
theorem loads_write (e : Entry) (es : List Entry) :
    loads (writeObject e es) = some (.obj ((e :: es).map Entry.member)) := by
  have first : skipSpace (writeObject e es) = writeObject e es := rfl
  have read : scanOnce (2 * (writeObject e es).length + 2) (skipSpace (writeObject e es)) =
      some (.obj ((e :: es).map Entry.member), []) := by
    have members : ∀ n, scanMembers (n + es.length + 2) (writeMembers e es) =
        some ((e :: es).map Entry.member, []) := by
      intro n
      have all := scanMembers_write es e n []
      rwa [List.append_nil] at all
    rw [← scanOnce_fuel (by omega : _ ≤ 2 * (writeObject e es).length + es.length + 2 + 1), first]
    have differ : ¬ ('\x7b' : Char) = '"' := by decide
    have differ' : ¬ ('"' : Char) = '\x7d' := by decide
    have quote : skipSpace ('"' :: writeMembers e es) = '"' :: writeMembers e es := rfl
    rw [writeObject, scanOnce, if_neg differ, if_pos rfl, quote]
    simp only [if_neg differ', if_true, members]
    rfl
  have noMark : ¬ (writeObject e es).head? = some '\uFEFF' := by
    intro same
    exact absurd (Option.some.inj same) (by decide)
  rw [loads, if_neg noMark, read]
  rfl

end Write

end Json

end Lib
