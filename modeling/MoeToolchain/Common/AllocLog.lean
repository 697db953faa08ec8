import Mathlib.Data.Finset.Basic
import MoeToolchain.Common.MoeAlloc
import MoeToolchain.Lib.Json

/-!
# The log of the allocations

The macros of `moe_alloc.h` with their messages: each one counts in `moe_alloc.c` and
prints a line. An `AllocRun` is any sequence of them that frees only `NULL` and live
blocks, with other lines in between. An address may come back after it was freed, and
an allocation may return `NULL`. The counters are of type `size_t`.
-/

namespace MoeToolchain
set_option autoImplicit false
open Lib

/-! ## Operations -/

/-- The text of a type, as `#type` puts it into a format. -/
structure TypeName where
  text : List Char
  plain : Json.Plain text
  noConversion : '%' ∉ text

/-- An allocation comes with the pointer it returned. -/
inductive AllocOp
  | moeAlloc (type : TypeName) (size : Nat) (ptr : Ptr)
  | moeAllocRange (type : TypeName) (size count : Nat) (ptr : Ptr)
  | moeFree (ptr : Ptr)
  | print (line : List Char)

/-- The pointer that an operation allocates. -/
def AllocOp.allocated? : AllocOp → Option Ptr
  | moeAlloc _ _ ptr => some ptr
  | moeAllocRange _ _ _ ptr => some ptr
  | _ => none

def AllocOp.freed? : AllocOp → Option Ptr
  | moeFree ptr => some ptr
  | _ => none

/-! ## Counters -/

def MoeAllocStats.countAllocated (stats : MoeAllocStats) : MoeAllocStats :=
  { stats with totalAllocated := (stats.totalAllocated + 1) % 2 ^ 64 }

def MoeAllocStats.countFreed (stats : MoeAllocStats) : MoeAllocStats :=
  { stats with totalFreed := (stats.totalFreed + 1) % 2 ^ 64 }

def AllocOp.count (stats : MoeAllocStats) : AllocOp → MoeAllocStats
  | moeAlloc _ _ _ => stats.countAllocated
  | moeAllocRange _ _ _ _ => stats.countAllocated
  | moeFree _ => stats.countFreed
  | print _ => stats

/-- The counters after the operations. -/
def allocStats (ops : List AllocOp) : MoeAllocStats := ops.foldl AllocOp.count ⟨0, 0⟩

/-- The condition that `moe_check_memory_leak` asserts. -/
def MoeAllocStats.balanced (stats : MoeAllocStats) : Bool := stats.totalAllocated = stats.totalFreed

theorem moeCheckMemoryLeak_balanced (heap : Heap Block) (stats : MoeAllocStats) :
    moeCheckMemoryLeak .assertions ⟨heap, stats⟩ = .ok ((), ⟨heap, stats⟩) ↔ stats.balanced = true := by
  rw [moeCheckMemoryLeak_ok, MoeAllocStats.balanced, decide_eq_true_iff]
  exact and_iff_left rfl

/-! ## Lines -/

/-- `%zu` -/
def sizeText (n : Nat) : List Char := Nat.toDigits 10 n

/-- `%p` -/
def pointerText : Ptr → List Char
  | none => "(nil)".toList
  | some a => "0x".toList ++ Nat.toDigits 16 a

def moeAllocLine (type : TypeName) (size : Nat) (ptr : Ptr) : List Char :=
  "\x7b\"action\":\"alloc\", \"type\":\"".toList ++ type.text ++ "\", \"size\":".toList ++ sizeText size ++
    ", \"addr\":\"".toList ++ pointerText ptr ++ "\"\x7d".toList

def moeAllocRangeLine (type : TypeName) (size count : Nat) (ptr : Ptr) : List Char :=
  "\x7b\"action\":\"calloc\", \"type\":\"".toList ++ type.text ++ "\", \"size\":".toList ++ sizeText size ++
    ", \"count\":".toList ++ sizeText count ++ ", \"addr\":\"".toList ++ pointerText ptr ++ "\"\x7d".toList

def moeFreeLine (ptr : Ptr) : List Char :=
  "\x7b\"action\":\"free\", \"addr\":\"".toList ++ pointerText ptr ++ "\"\x7d".toList

/-- The line that an operation prints, without its newline. -/
def AllocOp.line : AllocOp → List Char
  | moeAlloc type size ptr => moeAllocLine type size ptr
  | moeAllocRange type size count ptr => moeAllocRangeLine type size count ptr
  | moeFree ptr => moeFreeLine ptr
  | print line => line

def allocLog (ops : List AllocOp) : List Char := ops.flatMap fun op => op.line ++ ['\n']

/-! ## Runs -/

section Runs

variable (noise : List Char → Prop)

/-- One operation, from the live blocks before it to those after it. -/
inductive AllocStep : Finset Addr → AllocOp → Finset Addr → Prop
  | noBlock {live : Finset Addr} {op : AllocOp} (result : op.allocated? = some none) : AllocStep live op live
  | block {live : Finset Addr} {op : AllocOp} {a : Addr} (result : op.allocated? = some (some a)) (fresh : a ∉ live) :
      AllocStep live op (insert a live)
  | freeNull {live : Finset Addr} {op : AllocOp} (ptr : op.freed? = some none) : AllocStep live op live
  | free {live : Finset Addr} {op : AllocOp} {a : Addr} (ptr : op.freed? = some (some a)) (held : a ∈ live) :
      AllocStep live op (live.erase a)
  | print {live : Finset Addr} {line : List Char} (other : noise line) : AllocStep live (.print line) live

inductive AllocRun : Finset Addr → List AllocOp → Finset Addr → Prop
  | nil (live : Finset Addr) : AllocRun live [] live
  | cons {live mid live' : Finset Addr} {op : AllocOp} {ops : List AllocOp} (first : AllocStep noise live op mid)
      (rest : AllocRun mid ops live') : AllocRun live (op :: ops) live'

end Runs

section Noise

variable {noise noise' : List Char → Prop} {live live' : Finset Addr} {op : AllocOp} {ops : List AllocOp}

theorem AllocStep.other {line : List Char} (step : AllocStep noise live (.print line) live') : noise line := by
  cases step with
  | print other => exact other
  | noBlock result => cases result
  | block result => cases result
  | freeNull ptr => cases ptr
  | free ptr => cases ptr

/-- A run with fewer lines in between is one with more. -/
theorem AllocStep.imp (more : ∀ line, noise line → noise' line) (step : AllocStep noise live op live') :
    AllocStep noise' live op live' := by
  cases step with
  | noBlock result => exact .noBlock result
  | block result fresh => exact .block result fresh
  | freeNull ptr => exact .freeNull ptr
  | free ptr held => exact .free ptr held
  | print other => exact .print (more _ other)

theorem AllocRun.imp (more : ∀ line, noise line → noise' line) (run : AllocRun noise live ops live') :
    AllocRun noise' live ops live' := by
  induction run with
  | nil live => exact .nil live
  | cons first rest ih => exact .cons (first.imp more) ih

end Noise

end MoeToolchain
