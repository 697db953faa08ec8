import MoeToolchain.Lib.Exec
import MoeToolchain.Lib.Heap
import Mathlib.Data.List.TakeWhile

/-!
# `moe_common.h`: assertions, pointers and faults

Every C function of the model is a computation over an explicit state that ends
normally or with a `Fault`. A failed assertion is the only fault the code asks
for; the others are what C leaves undefined: an access through `NULL` or through
a pointer to a freed block, an access outside an array, a read of memory that was
never written. `nullParameter` is the access through a parameter that is `NULL`
where the assertion about it is not compiled. `outOfFuel` marks a loop that ran longer than the bound it was
given, and theorems about a loop show that it does not occur.
-/

namespace MoeToolchain
set_option autoImplicit false
open Lib

inductive Fault
  | assertFailed
  | nullPointer
  | nullParameter
  | danglingPointer
  | outOfBounds
  | uninitialized
  | outOfFuel
deriving DecidableEq, Repr

/-- A C function over states `σ`. -/
abbrev C (σ α : Type) := Exec Fault σ α

/-- A pointer; `none` is `NULL`. -/
abbrev Ptr := Option Addr

/-- The bytes of a C string before its terminating NUL, or of a buffer. -/
abbrev Bytes := List UInt8

/-- The bytes of a string literal of the source. -/
def bytesOf (s : String) : Bytes := s.toList.map fun c => UInt8.ofNat c.toNat

/-- What a reader of a C string sees: the bytes up to the first NUL. -/
def cString (b : Bytes) : Bytes := b.takeWhile (· != 0)

/-- `strlen`. -/
def strlen (b : Bytes) : Nat := (cString b).length

/-- `strcmp(a, b) == 0`. -/
def strEq (a b : Bytes) : Bool := cString a == cString b

theorem cString_of_no_nul {b : Bytes} (clean : 0 ∉ b) : cString b = b := by
  apply List.takeWhile_eq_self_iff.mpr
  intro x mem
  rw [bne_iff_ne]
  rintro rfl
  exact clean mem

theorem no_nul_cString (b : Bytes) : 0 ∉ cString b := by
  intro mem
  have kept := List.mem_takeWhile_imp mem
  simp at kept

theorem cString_isPrefix (b : Bytes) : cString b <+: b := List.takeWhile_prefix _

/-- The terminating NUL ends the string whatever follows it. -/
theorem cString_append_nul {b : Bytes} (rest : Bytes) :
    cString (b ++ 0 :: rest) = cString b := by
  induction b with
  | nil => simp [cString]
  | cons x xs ih =>
    simp only [cString] at ih ⊢
    by_cases nul : x = 0
    · simp [nul]
    · rw [List.cons_append, List.takeWhile_cons_of_pos (by simpa using nul),
        List.takeWhile_cons_of_pos (by simpa using nul), ih]

/-- The two builds of `MOE_ASSERT`: with `assert` active, or with `NDEBUG`. -/
inductive Build
  | assertions
  | ndebug
deriving DecidableEq, Repr

/-- `MOE_ASSERT(cond)` is `(assert(cond))`: an `NDEBUG` build never evaluates `cond`. -/
def moeAssert {σ : Type} (build : Build) (cond : C σ Bool) : C σ Unit :=
  match build with
  | .assertions => do
    let holds ← cond
    if holds then pure () else Exec.fault .assertFailed
  | .ndebug => pure ()

@[simp] theorem moeAssert_ndebug {σ : Type} (cond : C σ Bool) : moeAssert .ndebug cond = pure () := rfl

/-- An active assertion passes exactly when its condition comes out true. -/
theorem moeAssert_ok {σ : Type} {cond : C σ Bool} {s s' : σ} :
    moeAssert .assertions cond s = .ok ((), s') ↔ cond s = .ok (true, s') := by
  simp only [moeAssert, Exec.bind_eq_ok]
  constructor
  · rintro ⟨holds, mid, run, rest⟩
    cases holds with
    | false => cases rest
    | true =>
      cases rest
      exact run
  · intro run
    exact ⟨true, s', run, rfl⟩

/-- What stops at a `NULL` that an assertion is there for: the assertion, or with `NDEBUG`
the access that follows. -/
def Build.nullFault : Build → Fault
  | assertions => .assertFailed
  | ndebug => .nullParameter

/-- `MOE_ASSERT(p != NULL)` on a parameter that is dereferenced next. -/
def moeAssertNonNull {σ : Type} (build : Build) (p : Ptr) : C σ Addr :=
  match p with
  | some a => pure a
  | none => Exec.fault build.nullFault

@[simp] theorem moeAssertNonNull_some {σ : Type} (build : Build) (a : Addr) :
    (moeAssertNonNull build (some a) : C σ Addr) = pure a := rfl

end MoeToolchain
