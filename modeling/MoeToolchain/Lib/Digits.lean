import Mathlib.Data.List.Basic
import Mathlib.Data.Nat.Digits.Defs

/-!
# Numbers as digits

What `Nat.toDigits` writes in a base up to 16: digits, none of them a leading zero. Digits
that are read may have leading zeros; `ofDigits_reverse_inj` says that the number is all
that the others are.
-/

namespace Lib
set_option autoImplicit false

variable {base m n : Nat}

theorem digitChar_inj {c d : Nat} (rangeC : c < 16) (rangeD : d < 16) (same : c.digitChar = d.digitChar) : c = d := by
  have all : ∀ c < 16, ∀ d < 16, c.digitChar = d.digitChar → c = d := by decide
  exact all c rangeC d rangeD same

theorem map_digitChar_inj {ds es : List Nat} (rangeD : ∀ d ∈ ds, d < 16) (rangeE : ∀ e ∈ es, e < 16)
    (same : ds.map Nat.digitChar = es.map Nat.digitChar) : ds = es := by
  induction ds generalizing es with
  | nil => exact (List.map_eq_nil_iff.mp same.symm).symm
  | cons d ds ih =>
    cases es with
    | nil => cases same
    | cons e es =>
      rw [List.forall_mem_cons] at rangeD rangeE
      obtain ⟨first, rest⟩ := List.cons.inj same
      rw [digitChar_inj rangeD.1 rangeE.1 first, ih rangeD.2 rangeE.2 rest]

/-- The digits of a number that has more than one. -/
theorem toDigits_split (more : 1 < base) (large : base ≤ n) :
    n / base ≠ 0 ∧ n / base < n ∧ Nat.toDigits base n = Nat.toDigits base (n / base) ++ [(n % base).digitChar] := by
  have positive := Nat.div_pos large (by omega)
  exact ⟨by omega, Nat.div_lt_self (by omega) more, Nat.toDigits_of_base_le more large⟩

theorem mem_toDigits (more : 1 < base) (range : base ≤ 16) {c : Char} (mem : c ∈ Nat.toDigits base n) :
    ∃ d < 16, c = d.digitChar := by
  induction n using Nat.strongRecOn with
  | ind n ih =>
    by_cases small : n < base
    · rw [Nat.toDigits_of_lt_base small, List.mem_singleton] at mem
      exact ⟨n, by omega, mem⟩
    · obtain ⟨-, less, split⟩ := toDigits_split more (Nat.le_of_not_lt small)
      rw [split] at mem
      obtain lead | last := List.mem_append.mp mem
      · exact ih _ less lead
      · have digit := Nat.mod_lt n (by omega : base > 0)
        exact ⟨n % base, by omega, List.mem_singleton.mp last⟩

/-- No number but zero is written with a zero first. -/
theorem toDigits_head (more : 1 < base) (range : base ≤ 16) (positive : n ≠ 0) (rest : List Char) :
    Nat.toDigits base n ≠ '0' :: rest := by
  induction n using Nat.strongRecOn generalizing rest with
  | ind n ih =>
    by_cases small : n < base
    · rw [Nat.toDigits_of_lt_base small]
      intro same
      exact positive (digitChar_inj (by omega) (by decide) (List.cons.inj same).1)
    · obtain ⟨lead, less, split⟩ := toDigits_split more (Nat.le_of_not_lt small)
      rw [split]
      cases digits : Nat.toDigits base (n / base) with
      | nil => exact absurd digits Nat.toDigits_ne_nil
      | cons c ds =>
        intro same
        rw [(List.cons.inj same).1] at digits
        exact ih (n / base) less lead ds digits

/-! ## Digits as numbers -/

/-- Only leading zeros are lost when digits are read as a number. -/
theorem digits_ofDigits_reverse (more : 1 < base) {ds : List Nat} (range : ∀ d ∈ ds, d < base) :
    Nat.digits base (Nat.ofDigits base ds.reverse) = (ds.dropWhile (· = 0)).reverse := by
  induction ds with
  | nil => rw [List.dropWhile_nil, List.reverse_nil, Nat.ofDigits_nil, Nat.digits_zero]
  | cons d ds ih =>
    by_cases zero : d = 0
    · have rest := ih fun e mem => range e (List.mem_cons_of_mem d mem)
      rw [List.dropWhile_cons_of_pos (by simp [zero]), ← rest, zero, List.reverse_cons,
        Nat.ofDigits_append_zero]
    · rw [List.dropWhile_cons_of_neg (by simp [zero])]
      refine Nat.digits_ofDigits base more _ (fun e mem => range e (List.mem_reverse.mp mem)) fun _ => ?_
      rw [List.getLast_reverse, List.head_cons]
      exact zero

/-- Two lists of digits are the same number where they differ in leading zeros only. -/
theorem ofDigits_reverse_inj (more : 1 < base) {ds es : List Nat} (rangeD : ∀ d ∈ ds, d < base)
    (rangeE : ∀ e ∈ es, e < base) : Nat.ofDigits base ds.reverse = Nat.ofDigits base es.reverse ↔
      ds.dropWhile (· = 0) = es.dropWhile (· = 0) := by
  have first := digits_ofDigits_reverse more rangeD
  have second := digits_ofDigits_reverse more rangeE
  constructor
  · intro same
    rw [same, second] at first
    exact (List.reverse_injective first).symm
  · intro same
    rw [← Nat.ofDigits_digits base (Nat.ofDigits base ds.reverse), first, same, ← second, Nat.ofDigits_digits]

end Lib
