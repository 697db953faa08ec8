import Mathlib.Data.Finset.Card
import Mathlib.Data.Nat.ModEq
import MoeToolchain.Tool.Memleak

/-!
# The two leak detectors

`moe_check_memory_leak` compares two counters, and `memleak.py` keeps the blocks that are
outstanding. `Tracks` is what the dictionary of the script has to do with the live blocks
in a run, and `card_run` what the counters have to do with them. They differ in what they
make of `NULL`: a counter moves with each `MOE_FREE(NULL)`, and the dictionary has one key
for all of them. `detectors_agree_iff` says when the two agree.
-/

namespace MoeToolchain
set_option autoImplicit false
open Lib

/-! ## What a run does with `NULL` -/

def allocated (ops : List AllocOp) : Nat := ops.countP fun op => op.allocated?.isSome

def freed (ops : List AllocOp) : Nat := ops.countP fun op => op.freed?.isSome

/-- Allocations that returned `NULL`. -/
def nullAllocated (ops : List AllocOp) : Nat := ops.countP fun op => op.allocated? = some none

/-- Calls of `MOE_FREE(NULL)`. -/
def nullFreed (ops : List AllocOp) : Nat := ops.countP fun op => op.freed? = some none

def AllocOp.nullHeld (held : Bool) (op : AllocOp) : Bool :=
  if op.allocated? = some none then true else if op.freed? = some none then false else held

/-- The last operation with `NULL`, if there is one, was an allocation. -/
def nullHeld (ops : List AllocOp) : Bool := ops.foldl AllocOp.nullHeld false

/-- With nothing held, as many `NULL`s were freed as returned; otherwise the frees of
`NULL` do not make up for what is held. Counters are of type `size_t`. -/
def NullsCancel (ops : List AllocOp) (live : Finset Addr) : Prop :=
  if live = ∅ ∧ nullHeld ops = false then nullFreed ops ≡ nullAllocated ops [MOD 2 ^ 64]
  else ¬ nullFreed ops ≡ live.card + nullAllocated ops [MOD 2 ^ 64]

instance (ops : List AllocOp) (live : Finset Addr) : Decidable (NullsCancel ops live) :=
  inferInstanceAs (Decidable (if live = ∅ ∧ nullHeld ops = false then nullFreed ops ≡ nullAllocated ops [MOD 2 ^ 64]
    else ¬ nullFreed ops ≡ live.card + nullAllocated ops [MOD 2 ^ 64]))

section Runs

variable {noise : List Char → Prop} {live live' : Finset Addr} {op : AllocOp} {ops : List AllocOp}

theorem freed?_of_allocated {p : Ptr} (result : op.allocated? = some p) : op.freed? = none := by
  cases op with
  | moeFree => cases result
  | _ => rfl

theorem allocated?_of_freed {p : Ptr} (ptr : op.freed? = some p) : op.allocated? = none := by
  cases op with
  | moeFree => rfl
  | _ => cases ptr

/-! ## The counters -/

/-- What one operation does to the number of live blocks. -/
theorem card_step (step : AllocStep noise live op live') :
    live.card + allocated [op] + nullFreed [op] = live'.card + freed [op] + nullAllocated [op] := by
  cases step with
  | noBlock result => simp [allocated, freed, nullAllocated, nullFreed, result, freed?_of_allocated result]
  | block result fresh =>
    simp [allocated, freed, nullAllocated, nullFreed, result, freed?_of_allocated result, fresh]
  | freeNull ptr => simp [allocated, freed, nullAllocated, nullFreed, ptr, allocated?_of_freed ptr]
  | free ptr held =>
    have one := Finset.card_erase_add_one held
    simp [allocated, freed, nullAllocated, nullFreed, ptr, allocated?_of_freed ptr, one]
  | print => simp [allocated, freed, nullAllocated, nullFreed, AllocOp.allocated?, AllocOp.freed?]

/-- What is allocated is live, freed, or `NULL`. -/
theorem card_run (run : AllocRun noise live ops live') :
    live.card + allocated ops + nullFreed ops = live'.card + freed ops + nullAllocated ops := by
  induction run with
  | nil live => rfl
  | @cons live mid live' op ops first rest ih =>
    have step := card_step first
    have split : ∀ p : AllocOp → Bool, (op :: ops).countP p = [op].countP p + ops.countP p :=
      fun p => by rw [← List.singleton_append, List.countP_append]
    simp only [allocated, freed, nullAllocated, nullFreed] at step ih ⊢
    rw [split, split, split, split]
    omega

/-- The counters are the numbers of operations, as values of type `size_t`. -/
theorem allocStats_counts (ops : List AllocOp) : (allocStats ops).totalAllocated = allocated ops % 2 ^ 64 ∧
    (allocStats ops).totalFreed = freed ops % 2 ^ 64 := by
  induction ops using List.reverseRecOn with
  | nil => exact ⟨rfl, rfl⟩
  | append_singleton ops op ih =>
    obtain ⟨allocations, frees⟩ := ih
    have last : allocStats (ops ++ [op]) = AllocOp.count (allocStats ops) op := by
      rw [allocStats, List.foldl_append]
      rfl
    rw [last, allocated, freed, List.countP_append, List.countP_append]
    simp only [allocated, freed] at allocations frees
    cases op with
    | print => exact ⟨allocations, frees⟩
    | moeFree =>
      refine ⟨allocations, ?_⟩
      show ((allocStats ops).totalFreed + 1) % 2 ^ 64 = _
      rw [frees, Nat.mod_add_mod]
      rfl
    | _ =>
      refine ⟨?_, frees⟩
      show ((allocStats ops).totalAllocated + 1) % 2 ^ 64 = _
      rw [allocations, Nat.mod_add_mod]
      rfl

/-- When the counters are equal. -/
theorem balanced_iff (run : AllocRun noise ∅ ops live) :
    (allocStats ops).balanced = true ↔ nullFreed ops ≡ live.card + nullAllocated ops [MOD 2 ^ 64] := by
  have blocks := card_run run
  obtain ⟨allocations, frees⟩ := allocStats_counts ops
  have counters : (allocStats ops).balanced = true ↔ allocated ops ≡ freed ops [MOD 2 ^ 64] := by
    rw [MoeAllocStats.balanced, allocations, frees, decide_eq_true_iff]
    rfl
  rw [Finset.card_empty, Nat.zero_add] at blocks
  have right : freed ops + (live.card + nullAllocated ops) = allocated ops + nullFreed ops := by
    rw [blocks]
    omega
  rw [counters]
  constructor
  · intro same
    have sum := (same.add_right (nullFreed ops)).symm
    rw [← right] at sum
    exact Nat.ModEq.add_left_cancel' (freed ops) sum
  · intro same
    have sum := Nat.ModEq.add_left (freed ops) same
    rw [right] at sum
    exact (Nat.ModEq.add_right_cancel' (nullFreed ops) sum).symm

/-! ## The dictionary -/

/-- The keys are those of the live blocks, and that of `NULL` where it is held. -/
def Tracks (live : Finset Addr) (held : Bool) (s : LeakState) : Prop :=
  ∀ key, key ∈ s.allocatedBlocks ↔ (∃ a ∈ live, addrKey (some a) = key) ∨ held = true ∧ addrKey none = key

/-- The dictionary after one operation. -/
theorem tracks_step {held : Bool} {s : LeakState} {n : Nat} (tracks : Tracks live held s)
    (step : AllocStep NotObject live op live') : Tracks live' (op.nullHeld held) (s.readLine n op.line) := by
  intro key
  have before := tracks key
  cases step with
  | noBlock result =>
    obtain ⟨block, -, line⟩ := @readLine_allocated s op _ n result
    rw [line, AList.mem_insert, before, AllocOp.nullHeld, if_pos result]
    grind
  | @block _ a result fresh =>
    obtain ⟨block, -, line⟩ := @readLine_allocated s op _ n result
    rw [line, AList.mem_insert, before, AllocOp.nullHeld, result, freed?_of_allocated result]
    simp only [Finset.mem_insert]
    grind
  | freeNull ptr =>
    have line := @readLine_freed s op _ n ptr
    rw [line, AList.mem_erase, before, AllocOp.nullHeld, allocated?_of_freed ptr, ptr]
    have apart : ∀ a, addrKey (some a) ≠ addrKey none := fun a same => absurd (addrKey_inj same) (by simp)
    grind
  | @free _ a ptr mem =>
    have line := @readLine_freed s op _ n ptr
    rw [line, AList.mem_erase, before, AllocOp.nullHeld, allocated?_of_freed ptr, ptr]
    have apart : addrKey none ≠ addrKey (some a) := fun same => absurd (addrKey_inj same) (by simp)
    have one : ∀ b, addrKey (some b) = addrKey (some a) → b = a := fun b same => Option.some.inj (addrKey_inj same)
    simp only [Finset.mem_erase]
    grind
  | print other =>
    have line := @readLine_noise s n _ other
    exact (congrArg (key ∈ ·.allocatedBlocks) line).to_iff.trans before

theorem tracks_run {held : Bool} {s : LeakState} {n : Nat} (tracks : Tracks live held s)
    (run : AllocRun NotObject live ops live') :
    Tracks live' (ops.foldl AllocOp.nullHeld held) (s.readLines n (ops.map AllocOp.line)) := by
  induction run generalizing held s n with
  | nil live => exact tracks
  | cons first rest ih => exact ih (tracks_step tracks first)

/-- Nothing is held before a run. -/
theorem tracks_start : Tracks ∅ false ⟨∅, 0, 0⟩ := by
  intro key
  simp

theorem noLeak_iff {held : Bool} {s : LeakState} (tracks : Tracks live held s) :
    s.noLeak = true ↔ live = ∅ ∧ held = false := by
  have empty : s.noLeak = true ↔ ∀ key, key ∉ s.allocatedBlocks := by
    rw [LeakState.noLeak, List.isEmpty_iff]
    constructor
    · intro nil key mem
      have keys := AList.mem_keys.mp mem
      rw [AList.keys, nil] at keys
      cases keys
    · intro none_
      refine List.eq_nil_iff_forall_not_mem.mpr fun entry mem => none_ entry.1 ?_
      exact AList.mem_keys.mpr (List.mem_map_of_mem mem)
  rw [empty]
  constructor
  · intro none_
    refine ⟨Finset.eq_empty_of_forall_notMem fun a mem => ?_, ?_⟩
    · exact none_ _ ((tracks _).mpr (.inl ⟨a, mem, rfl⟩))
    · cases held with
      | false => rfl
      | true => exact absurd ((tracks _).mpr (.inr ⟨rfl, rfl⟩)) (none_ _)
  · rintro ⟨rfl, rfl⟩ key mem
    obtain ⟨a, here, -⟩ | ⟨held, -⟩ := (tracks key).mp mem
    · exact absurd here (Finset.notMem_empty a)
    · cases held

/-! ## The log -/

theorem printable_sizeText (n : Nat) : ∀ c ∈ sizeText n, 32 ≤ c.toNat := by
  intro c mem
  have digits : ∀ d < 16, 32 ≤ d.digitChar.toNat := by decide
  obtain ⟨d, range, rfl⟩ := mem_toDigits (by decide) (by decide) mem
  exact digits d range

theorem printable_literal {s : String} (all : (s.toList.all fun c => decide (32 ≤ c.toNat)) = true) :
    ∀ c ∈ s.toList, 32 ≤ c.toNat := fun c mem => of_decide_eq_true (List.all_eq_true.mp all c mem)

/-- The line of a macro is one line. -/
theorem printable_line (other : ∀ line, op ≠ .print line) : ∀ c ∈ op.line, 32 ≤ c.toNat := by
  have pointer : ∀ p : Ptr, ∀ c ∈ pointerText p, 32 ≤ c.toNat := fun p c mem => (plain_pointerText p c mem).1
  have typeText : ∀ type : TypeName, ∀ c ∈ type.text, 32 ≤ c.toNat := fun type c mem => (type.plain c mem).1
  have size := printable_sizeText
  have last : ∀ c ∈ "\"\x7d".toList, 32 ≤ c.toNat := printable_literal rfl
  have sizeKey : ∀ c ∈ "\", \"size\":".toList, 32 ≤ c.toNat := printable_literal rfl
  have addrKey : ∀ c ∈ ", \"addr\":\"".toList, 32 ≤ c.toNat := printable_literal rfl
  cases op with
  | moeAlloc type n p =>
    show ∀ c ∈ moeAllocLine type n p, 32 ≤ c.toNat
    unfold moeAllocLine
    simp only [List.forall_mem_append]
    exact ⟨⟨⟨⟨⟨⟨printable_literal rfl, typeText type⟩, sizeKey⟩, size n⟩, addrKey⟩, pointer p⟩, last⟩
  | moeAllocRange type n count p =>
    show ∀ c ∈ moeAllocRangeLine type n count p, 32 ≤ c.toNat
    unfold moeAllocRangeLine
    simp only [List.forall_mem_append]
    exact ⟨⟨⟨⟨⟨⟨⟨⟨printable_literal rfl, typeText type⟩, sizeKey⟩, size n⟩, printable_literal rfl⟩, size count⟩,
      addrKey⟩, pointer p⟩, last⟩
  | moeFree p =>
    show ∀ c ∈ moeFreeLine p, 32 ≤ c.toNat
    unfold moeFreeLine
    simp only [List.forall_mem_append]
    exact ⟨⟨printable_literal rfl, pointer p⟩, last⟩
  | print line => exact absurd rfl (other line)

theorem oneLine_step (step : AllocStep NotJson live op live') : '\n' ∉ op.line ∧ '\r' ∉ op.line := by
  have clean : (∀ line, op ≠ .print line) → '\n' ∉ op.line ∧ '\r' ∉ op.line := fun other =>
    ⟨fun mem => absurd (printable_line other _ mem) (by decide),
      fun mem => absurd (printable_line other _ mem) (by decide)⟩
  cases step with
  | print other => exact other.oneLine
  | noBlock result => exact clean (by rintro line rfl; cases result)
  | block result => exact clean (by rintro line rfl; cases result)
  | freeNull ptr => exact clean (by rintro line rfl; cases ptr)
  | free ptr => exact clean (by rintro line rfl; cases ptr)

/-- The script reads the line of each operation. -/
theorem splitLines_log (run : AllocRun NotJson live ops live') :
    splitLines [] (allocLog ops) = ops.map AllocOp.line := by
  induction run with
  | nil => rfl
  | @cons _ _ _ op ops first rest ih =>
    have shape : allocLog (op :: ops) = op.line ++ '\n' :: allocLog ops := by simp [allocLog]
    rw [shape, splitLines_line (oneLine_step first), ih]
    rfl

/-- The two detectors agree exactly where the `NULL`s cancel out. -/
theorem detectors_agree_iff (run : AllocRun NotJson ∅ ops live) (heap : Heap Block) :
    (moeCheckMemoryLeak .assertions ⟨heap, allocStats ops⟩ = .ok ((), ⟨heap, allocStats ops⟩) ↔
      (detectMemoryLeaks (allocLog ops)).noLeak = true) ↔ NullsCancel ops live := by
  have tracks := @tracks_run _ _ _ _ _ 1 tracks_start (run.imp fun _ => NotJson.notObject)
  rw [moeCheckMemoryLeak_balanced, balanced_iff run, detectMemoryLeaks, splitLines_log run, noLeak_iff tracks,
    NullsCancel, nullHeld]
  split
  · rename_i nothing
    simp [nothing]
  · rename_i something
    simp [something]

end Runs

/-! ### A block that comes back, and a free of `NULL` -/

def intName : TypeName := ⟨"int".toList, by decide, by decide⟩

/-- One address for two blocks, the second one without elements, and a message. -/
def reuseOps : List AllocOp :=
  [.moeAlloc intName 4 (some 4096), .print "done".toList, .moeFree (some 4096), .moeAllocRange intName 4 0 (some 4096),
    .moeFree (some 4096)]

theorem reuse_run :
    AllocRun NotJson ∅ reuseOps ((insert 4096 ((insert 4096 ∅ : Finset Addr).erase 4096)).erase 4096) := by
  have message : NotJson "done".toList := ⟨by decide, by decide⟩
  exact .cons (.block rfl (by decide)) (.cons (.print message) (.cons (.free rfl (by decide))
    (.cons (.block rfl (by decide)) (.cons (.free rfl (by decide)) (.nil _)))))

theorem reuse_detectors_agree :
    moeCheckMemoryLeak .assertions ⟨Heap.empty, allocStats reuseOps⟩ = .ok ((), ⟨Heap.empty, allocStats reuseOps⟩) ↔
      (detectMemoryLeaks (allocLog reuseOps)).noLeak = true :=
  (detectors_agree_iff reuse_run Heap.empty).mpr (by decide)

/-- A block that is never freed and a free of `NULL`: the counters are equal. -/
def freeNullOps : List AllocOp := [.moeAlloc intName 4 (some 4096), .moeFree none]

theorem freeNull_detectors_differ : ¬ ∀ (ops : List AllocOp) (live : Finset Addr) (heap : Heap Block),
    AllocRun NotJson ∅ ops live →
    (moeCheckMemoryLeak .assertions ⟨heap, allocStats ops⟩ = .ok ((), ⟨heap, allocStats ops⟩) ↔
      (detectMemoryLeaks (allocLog ops)).noLeak = true) := by
  intro claim
  have run : AllocRun NotJson ∅ freeNullOps (insert 4096 ∅) :=
    .cons (.block rfl (by decide)) (.cons (.freeNull rfl) (.nil _))
  have tracks := @tracks_run _ _ _ _ _ 1 tracks_start (run.imp fun _ => NotJson.notObject)
  have equal : (allocStats freeNullOps).balanced = true := by decide
  have leak := (claim freeNullOps _ Heap.empty run).mp ((moeCheckMemoryLeak_balanced _ _).mpr equal)
  rw [detectMemoryLeaks, splitLines_log run, noLeak_iff tracks] at leak
  exact absurd leak.1 (by decide)

end MoeToolchain
