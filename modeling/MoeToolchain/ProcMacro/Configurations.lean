import MoeToolchain.ProcMacro.FreshStore
import MoeToolchain.ProcMacro.StringLengths

/-!
# The two definitions of `MOE_ALLOC_RANGE`

With the messages on, `MOE_ALLOC_RANGE` is `moe_calloc`, and `main` is about that program.
The plain definition is `moe_malloc`, and `mainIn` is the program with it, where a fresh
block of bytes holds anything (`Fresh`). A string that is made of data does not depend on
it (`moeStringAllocIn_data`), so the functions that only make such strings are those of
the other program. Array elements that no one wrote are no elements in either program.

`mainIn` stops with `uninitialized` where a string is handed on that has no NUL at its
length. The lexer reads the input and the string store itself: `LexesAlike` says that its
calls do not depend on the bytes behind the input and on those of a fresh store.
`configurations_agree_iff` says when both are so.
-/

namespace MoeToolchain
set_option autoImplicit false
open Lib

/-- The bytes of the fresh block at an address. -/
structure Fresh where
  bytes : Addr → Nat → Bytes
  length_bytes : ∀ a n, (bytes a n).length = n

/-- `moe_calloc`. -/
def Fresh.calloc : Fresh := ⟨fun _ n => List.replicate n 0, fun _ _ => List.length_replicate⟩

/-- The last byte of the block for a string of length `n`. -/
def Fresh.last (fresh : Fresh) (a : Addr) (n : Nat) : UInt8 := (fresh.bytes a (n + 1)).getD n 0

section Source

variable {σ ι : Type} (fresh : Fresh)

/-- `MOE_ALLOC_RANGE(char, count)`. -/
def moeAllocRange (count : Nat) : C Mem Addr := fun m => moeMalloc (.chars (fresh.bytes m.heap.next count)) m

/-- `moe_string_alloc`. -/
def moeStringAllocIn (data : Option Bytes) (length : Nat) : C Mem Addr := do
  let str ← moeMalloc .uninit
  let length ← chosenLength data length
  let capacity := length + 1
  let internal ← moeMalloc .uninit
  let bytes ← moeAllocRange fresh capacity
  copyData bytes data length
  storeBlock internal (.stringInternal ⟨bytes, 1⟩)
  storeBlock str (.string ⟨internal, length, capacity⟩)
  pure str

/-- `read_file`. -/
def readFileIn (contents : Option Bytes) : C Mem Ptr :=
  match contents with
  | none => pure none
  | some text => do
    let str ← moeStringAllocIn fresh none text.length
    let buffer ← moeStringGet (some str)
    let data ← loadAs Block.asChars (some buffer)
    -- fread
    storeBlock buffer (.chars (text ++ data.drop text.length))
    pure (some str)

/-- The string goes to a reader that relies on a NUL at its length. -/
def handOn (str : Addr) : C Mem Unit := do
  let s ← loadAs Block.asString (some str)
  let i ← loadAs Block.asStringInternal s.internal
  let data ← loadAs Block.asChars (some i.data)
  if s.capacity = s.length + 1 ∧ data[s.length]? = some 0 then pure () else Exec.fault .uninitialized

/-- `load_proc_macro_scripts`. -/
def loadProcMacroScriptsIn (w : World σ ι) : C (St × Host σ) Int := do
  let script ← onSt (onMem (readFileIn fresh w.script))
  match script with
  | none => pure 1
  | some str => do
    -- printf
    onSt (onMem (handOn str))
    let _ ← onSt (onMem (moeStringRead (some str)))
    -- JS_Eval
    onSt (onMem (handOn str))
    let text ← onSt (onMem (readString str))
    let _ ← onRest (onJs (w.js.eval text))
    onSt (onMem (moeStringFree (some str)))
    pure 0

/-- `stb_c_lexer_init` on the input and the string store. -/
def initLexerIn (build : Build) (w : World σ ι) (inputStr : Ptr) (stringStore : Addr) : C (St × Host σ) Unit := do
  let str ← onSt (onMem (moeAssertNonNull build inputStr))
  onSt (onMem (handOn str))
  onSt (onMem (handOn stringStore))
  initLexer build w inputStr stringStore

def processTokensIn (build : Build) (w : World σ ι) (inputStr : Ptr) : C (St × Host σ) Unit := do
  let stringStore ← onSt (onMem (moeStringAllocIn fresh none 1024))
  initLexerIn build w inputStr stringStore
  let lex ← onSt (onLex get)
  tokenLoop build (generate w.js w.writes) (lex.rest.length + 1)
  onSt (onMem (moeStringFree (some stringStore)))

def mainWithScriptsIn (build : Build) (w : World σ ι) (inputStr : Ptr) (jsRuntime : Addr) :
    C (St × Host σ) Exit := do
  processTokensIn fresh build w inputStr
  onSt (onMem (moeFree (some jsRuntime)))
  onSt (onMem (moeStringFree inputStr))
  pure .check

def mainWithInputIn (build : Build) (w : World σ ι) (inputStr : Ptr) : C (St × Host σ) Exit := do
  let jsRuntime ← onSt (onMem (moeMalloc .jsRuntime))
  let failed ← loadProcMacroScriptsIn fresh w
  if failed ≠ 0 then pure .failure
  else mainWithScriptsIn fresh build w inputStr jsRuntime

def mainWithOutputIn (build : Build) (w : World σ ι) (inputFile : Bytes) : C (St × Host σ) Exit := do
  startOutput w inputFile
  let inputStr ← onSt (onMem (readFileIn fresh w.input))
  mainWithInputIn fresh build w inputStr

def mainToCheckIn (build : Build) (w : World σ ι) : C (St × Host σ) Exit :=
  match w.inputFile? with
  | none => pure .failure
  | some inputFile => if w.clears then mainWithOutputIn fresh build w inputFile else pure .failure

def checkExit (build : Build) (exit : Exit) : C (St × Host σ) Int :=
  match exit with
  | .failure => pure 1
  | .check => do
    onSt (onMem (moeCheckMemoryLeak build))
    pure 0

/-- `main` in the plain configuration. -/
def mainIn (build : Build) (w : World σ ι) : C (St × Host σ) Int := do
  let exit ← mainToCheckIn fresh build w
  checkExit build exit

end Source

/-! ## How many blocks a function allocates -/

section Allocates

variable {α β : Type} {n k : Nat}

/-- A run of `x` that returns has allocated `n` blocks. -/
def Allocates (n : Nat) (x : C Mem α) : Prop :=
  ∀ ⦃m m' : Mem⦄ ⦃a : α⦄, x m = .ok (a, m') → m'.heap.next = m.heap.next + n

theorem Allocates.pure (a : α) : Allocates 0 (Pure.pure a) := by
  intro m m' a' run
  cases run
  rfl

theorem Allocates.fault (e : Fault) : Allocates n (Exec.fault e : C Mem α) := by
  intro m m' a run
  cases run

theorem Allocates.bind {x : C Mem α} {f : α → C Mem β} (first : Allocates k x) (rest : ∀ a, Allocates n (f a)) :
    Allocates (n + k) (x >>= f) := by
  intro m m' b run
  obtain ⟨a, m1, here, there⟩ := Exec.bind_eq_ok.mp run
  rw [rest a there, first here, Nat.add_right_comm, Nat.add_assoc]

/-- A step that allocates nothing. -/
theorem Allocates.step {x : C Mem α} {f : α → C Mem β} (first : Allocates 0 x) (rest : ∀ a, Allocates n (f a)) :
    Allocates n (x >>= f) := first.bind rest

theorem Allocates.ite {c : Prop} [Decidable c] {x y : C Mem α} (yes : Allocates n x) (no : Allocates n y) :
    Allocates n (if c then x else y) := by
  split
  · exact yes
  · exact no

theorem moeMalloc_allocates (b : Block) : Allocates 1 (moeMalloc b) := by
  intro m m' a run
  cases run
  exact Heap.next_alloc ..

theorem loadAs_allocates (as : Block → Option α) (p : Ptr) : Allocates 0 (loadAs as p) := by
  intro m m' a run
  unfold loadAs at run
  split at run
  · cases run
  · split at run
    · cases run
    · split at run
      · cases run
      · cases run
        rfl

theorem storeBlock_allocates (a : Addr) (b : Block) : Allocates 0 (storeBlock a b) := by
  intro m m' u run
  unfold storeBlock at run
  split at run
  · cases run
  · cases run
    exact Heap.next_store ..

theorem moeFree_allocates (a : Addr) : Allocates 0 (moeFree (some a)) := by
  intro m m' u run
  simp only [moeFree] at run
  split at run
  · cases run
  · cases run
    exact Heap.next_free ..

theorem moeStringFree_allocates (p : Ptr) : Allocates 0 (moeStringFree p) := by
  cases p with
  | none => exact Allocates.pure ()
  | some a =>
    apply (loadAs_allocates _ _).step
    intro s
    apply (loadAs_allocates _ _).step
    intro i
    apply (storeBlock_allocates _ _).step
    intro _
    refine Allocates.step ?_ fun _ => moeFree_allocates a
    exact Allocates.ite ((moeFree_allocates _).step fun _ => moeFree_allocates _) (Allocates.pure ())

theorem moeStringRead_allocates (a : Addr) : Allocates 0 (moeStringRead (some a)) := by
  have get : Allocates 0 (moeStringGet (some a)) :=
    (Allocates.pure a).step fun _ => (loadAs_allocates _ _).step fun _ =>
      (loadAs_allocates _ _).step fun _ => Allocates.pure _
  apply get.step
  intro p
  exact (loadAs_allocates _ _).step fun _ => Allocates.ite (Allocates.pure _) (Allocates.fault _)

theorem moeStringAlloc_allocates (data : Option Bytes) (length : Nat) : Allocates 3 (moeStringAlloc data length) := by
  have chosen : Allocates 0 (chosenLength data length) := by
    refine Allocates.ite ?_ (Allocates.pure _)
    cases data with
    | none => exact Allocates.fault _
    | some b => exact Allocates.pure _
  have copied : ∀ bytes n, Allocates 0 (copyData bytes data n) := by
    intro bytes n
    cases data with
    | none => exact Allocates.pure ()
    | some b => exact Allocates.ite (Allocates.fault _) (storeBlock_allocates _ _)
  apply (moeMalloc_allocates _).bind (n := 2)
  intro str
  apply chosen.step
  intro n
  apply (moeMalloc_allocates _).bind (n := 1)
  intro internal
  apply (moeMalloc_allocates _).bind (n := 0)
  intro bytes
  exact (copied _ _).step fun _ => (storeBlock_allocates _ _).step fun _ =>
    (storeBlock_allocates _ _).step fun _ => Allocates.pure _

end Allocates

/-! ## Strings in fresh memory -/

section Strings

variable {fresh : Fresh} {m₀ m m' : Mem} {f r : Footprint} {a : Addr} {l : StringAt} {b : Bytes} {e : UInt8}

theorem moeStringAllocIn_calloc : moeStringAllocIn .calloc = moeStringAlloc := rfl

/-- A fresh block that is written at once does not keep what it held. -/
theorem moeMalloc_store {α : Type} (b b' : Block) (g : Addr → C Mem α) (m : Mem) :
    (moeMalloc b >>= fun a => storeBlock a b' >>= fun _ => g a) m = (moeMalloc b' >>= g) m := by
  let stats := { m.stats with totalAllocated := m.stats.totalAllocated + 1 }
  have found : (m.heap.alloc b).load m.heap.next = some b := by
    simp [Heap.load, Heap.alloc, Heap.next]
  have written : (m.heap.alloc b).store m.heap.next b' = m.heap.alloc b' := by
    simp [Heap.store, Heap.alloc, Heap.next]
  have alloc : ∀ b, moeMalloc b m = .ok (m.heap.next, ⟨m.heap.alloc b, stats⟩) := fun b => rfl
  have store : storeBlock m.heap.next b' ⟨m.heap.alloc b, stats⟩ = .ok ((), ⟨m.heap.alloc b', stats⟩) := by
    simp only [storeBlock, found, written]
  rw [Exec.bind_ok (alloc b), Exec.bind_ok store, Exec.bind_ok (alloc b')]

/-- A string of data is the same string whatever its fresh block held. -/
theorem moeStringAllocIn_data (b : Bytes) (length : Nat) :
    moeStringAllocIn fresh (some b) length = moeStringAlloc (some b) length := by
  funext m
  have copy : ∀ {α : Type} (n : Nat) (g : Addr → C Mem α) (m : Mem),
      (moeAllocRange fresh (n + 1) >>= fun bytes => copyData bytes (some b) n >>= fun _ => g bytes) m =
      (moeMalloc (.chars (List.replicate (n + 1) 0)) >>= fun bytes => copyData bytes (some b) n >>= fun _ => g bytes) m := by
    intro α n g m
    have range : ∀ h : Addr → C Mem α, (moeAllocRange fresh (n + 1) >>= h) m =
        (moeMalloc (.chars (fresh.bytes m.heap.next (n + 1))) >>= h) m := fun h => rfl
    rw [range]
    unfold copyData
    by_cases short : b.length < n
    · simp only [if_pos short]
      rfl
    · simp only [if_neg short]
      rw [moeMalloc_store, moeMalloc_store]
  obtain ⟨str, m1, alloc⟩ : ∃ a m1, moeMalloc .uninit m = .ok (a, m1) := ⟨_, _, rfl⟩
  obtain ⟨n, chosen⟩ : ∃ n, chosenLength (some b) length m1 = .ok (n, m1) := by
    unfold chosenLength
    split
    · exact ⟨_, rfl⟩
    · exact ⟨_, rfl⟩
  obtain ⟨internal, m2, alloc'⟩ : ∃ a m2, moeMalloc .uninit m1 = .ok (a, m2) := ⟨_, _, rfl⟩
  rw [moeStringAllocIn, moeStringAlloc, Exec.bind_ok alloc, Exec.bind_ok alloc, Exec.bind_ok chosen,
    Exec.bind_ok chosen, Exec.bind_ok alloc', Exec.bind_ok alloc', copy]

/-- The blocks of a string of the length of `b` with `e` where the NUL goes. -/
def endedBlocks (l : StringAt) (b : Bytes) (e : UInt8) : Footprint :=
  {(l.handle, .string ⟨l.internal, b.length, b.length + 1⟩)} +
    ({(l.internal, .stringInternal ⟨l.data, 1⟩)} + {(l.data, .chars (b ++ [e]))})

theorem endedBlocks_zero (l : StringAt) (b : Bytes) : endedBlocks l b 0 = strBlocks l b := rfl

theorem Fresh.drop_bytes (fresh : Fresh) (a : Addr) (n : Nat) :
    (fresh.bytes a (n + 1)).drop n = [fresh.last a n] := by
  have length := fresh.length_bytes a (n + 1)
  rw [List.drop_eq_getElem_cons (by omega), List.drop_eq_nil_of_le (by omega), Fresh.last,
    List.getD_eq_getElem?_getD, List.getElem?_eq_getElem (by omega)]
  rfl

theorem moeStringGet_ended (owned : Owns m₀ m (endedBlocks l b e + f)) : moeStringGet (some l.handle) m = .ok (l.data, m) := by
  have handle : (l.handle, .string ⟨l.internal, b.length, b.length + 1⟩) ∈ endedBlocks l b e + f := by
    simp [endedBlocks]
  have internal : (l.internal, .stringInternal ⟨l.data, 1⟩) ∈ endedBlocks l b e + f := by
    simp [endedBlocks]
  rw [moeStringGet, moeAssertNonNull_some, pure_bind, Exec.bind_ok (loadAs_owns Block.asString owned handle rfl),
    Exec.bind_ok (loadAs_owns Block.asStringInternal owned internal rfl)]
  rfl

theorem moeStringAllocIn_bare (fresh : Fresh) (owned : Owns m₀ m f) {n : Nat} (positive : n ≠ 0) :
    ∃ l b m', moeStringAllocIn fresh none n m = .ok (l.handle, m') ∧ b.length = n ∧
      Owns m₀ m' (endedBlocks l b (fresh.last (m.heap.next + 2) n) + f) ∧ m'.heap.next = m.heap.next + 3 := by
  have chosen : ∀ m, chosenLength none n m = .ok (n, m) := by
    intro m
    unfold chosenLength
    rw [if_neg positive]
    rfl
  obtain ⟨str, m1, run1, owned1⟩ := moeMalloc_owns owned .uninit
  obtain ⟨internal, m2, run2, owned2⟩ := moeMalloc_owns owned1 .uninit
  obtain ⟨bytes, m3, run3, owned3⟩ := moeMalloc_owns owned2 (.chars (fresh.bytes m2.heap.next (n + 1)))
  have range : moeAllocRange fresh (n + 1) m2 = .ok (bytes, m3) := run3
  obtain ⟨m4, run4, owned4⟩ := storeBlock_owns owned3 (add_left_comm _ _ _) (.stringInternal ⟨bytes, 1⟩)
  obtain ⟨m5, run5, owned5⟩ := storeBlock_owns owned4
    (by abel : _ = {(str, Block.uninit)} + ({(internal, .stringInternal ⟨bytes, 1⟩)} +
      ({(bytes, .chars (fresh.bytes m2.heap.next (n + 1)))} + f))) (.string ⟨internal, n, n + 1⟩)
  have next2 : m2.heap.next = m.heap.next + 2 := by
    cases run1
    cases run2
    simp
  have next3 : m3.heap.next = m.heap.next + 3 := by
    cases run3
    simp [next2]
  have content : ((fresh.bytes (m.heap.next + 2) (n + 1)).take n).length = n := by
    rw [List.length_take, fresh.length_bytes]
    omega
  refine ⟨⟨str, internal, bytes⟩, (fresh.bytes (m.heap.next + 2) (n + 1)).take n, m5, ?_, content, ?_, ?_⟩
  · rw [moeStringAllocIn, Exec.bind_ok run1, Exec.bind_ok (chosen m1), Exec.bind_ok run2, Exec.bind_ok range]
    unfold copyData
    rw [pure_bind, Exec.bind_ok run4, Exec.bind_ok run5]
    rfl
  · rw [endedBlocks, content, ← fresh.drop_bytes, List.take_append_drop, ← next2]
    simpa only [add_assoc] using owned5
  · rw [storeBlock_allocates _ _ run5, storeBlock_allocates _ _ run4, next3]

theorem readFileIn_owns (fresh : Fresh) (owned : Owns m₀ m f) (nonempty : b ≠ []) :
    ∃ l m', readFileIn fresh (some b) m = .ok (some l.handle, m') ∧
      Owns m₀ m' (endedBlocks l b (fresh.last (m.heap.next + 2) b.length) + f) ∧
      m'.heap.next = m.heap.next + 3 := by
  obtain ⟨l, c, m1, alloc, length, owned1, next1⟩ := moeStringAllocIn_bare fresh owned
    (fun empty => nonempty (List.eq_nil_of_length_eq_zero empty))
  have get := moeStringGet_ended owned1
  have data : (l.data, Block.chars (c ++ [fresh.last (m.heap.next + 2) b.length])) ∈
      endedBlocks l c (fresh.last (m.heap.next + 2) b.length) + f := by simp [endedBlocks]
  obtain ⟨m2, store, owned2⟩ := storeBlock_owns owned1
    (by rw [endedBlocks]; abel : _ = {(l.data, Block.chars (c ++ [fresh.last (m.heap.next + 2) b.length]))} +
      ({(l.handle, .string ⟨l.internal, c.length, c.length + 1⟩)} +
        ({(l.internal, .stringInternal ⟨l.data, 1⟩)} + f)))
    (.chars (b ++ [fresh.last (m.heap.next + 2) b.length]))
  refine ⟨l, m2, ?_, ?_, (storeBlock_allocates _ _ store).trans next1⟩
  · have rest : (c ++ [fresh.last (m.heap.next + 2) b.length]).drop b.length =
        [fresh.last (m.heap.next + 2) b.length] := by
      rw [← length, List.drop_left]
    rw [readFileIn, Exec.bind_ok alloc, Exec.bind_ok get, Exec.bind_ok (loadAs_owns Block.asChars owned1 data rfl),
      rest, Exec.bind_ok store]
    rfl
  · convert owned2 using 1
    rw [endedBlocks, length]
    abel

/-- A string is fit to be handed on exactly if its last byte is NUL. -/
theorem handOn_owns (owned : Owns m₀ m f) (split : f = endedBlocks l b e + r) :
    handOn l.handle m = if e = 0 then .ok ((), m) else .error .uninitialized := by
  have handle : (l.handle, .string ⟨l.internal, b.length, b.length + 1⟩) ∈ f := by
    simp [split, endedBlocks]
  have internal : (l.internal, .stringInternal ⟨l.data, 1⟩) ∈ f := by
    simp [split, endedBlocks]
  have data : (l.data, .chars (b ++ [e])) ∈ f := by
    simp [split, endedBlocks]
  rw [handOn, Exec.bind_ok (loadAs_owns Block.asString owned handle rfl),
    Exec.bind_ok (loadAs_owns Block.asStringInternal owned internal rfl),
    Exec.bind_ok (loadAs_owns Block.asChars owned data rfl)]
  by_cases zero : e = 0
  · subst zero
    simp
  · simp [zero]

end Strings

/-! ## Runs of `main` -/

section Runs

variable {σ ι : Type} {fresh : Fresh} {m₀ mem : Mem} {f : Footprint} {build : Build} {w : World σ ι}
  {lex : StbLexer} {host : Host σ} {text : Bytes}

theorem onMem_next {ω α : Type} {n : Nat} {x : C Mem α} (allocates : Allocates n x) {c c' : St × ω} {a : α}
    (run : onSt (onMem x) c = .ok (a, c')) : c'.1.mem.heap.next = c.1.mem.heap.next + n := by
  obtain ⟨st, run, rfl⟩ := Exec.zoom_eq_ok.mp run
  obtain ⟨mem', run, rfl⟩ := Exec.zoom_eq_ok.mp run
  exact allocates run

theorem startOutput_next {inputFile : Bytes} {c c' : St × Host σ} (run : startOutput w inputFile c = .ok ((), c')) :
    c'.1.mem.heap.next = c.1.mem.heap.next + 3 := by
  obtain ⟨_, c1, clear, run⟩ := Exec.bind_eq_ok.mp run
  obtain ⟨_, c2, alloc, run⟩ := Exec.bind_eq_ok.mp run
  obtain ⟨_, c3, read, run⟩ := Exec.bind_eq_ok.mp run
  obtain ⟨_, c4, read', run⟩ := Exec.bind_eq_ok.mp run
  obtain ⟨_, c5, append, free⟩ := Exec.bind_eq_ok.mp run
  obtain ⟨_, -, rfl⟩ := Exec.zoom_eq_ok.mp clear
  obtain ⟨_, -, rfl⟩ := Exec.zoom_eq_ok.mp append
  have next2 := onMem_next (moeStringAlloc_allocates _ _) alloc
  have next3 := onMem_next (moeStringRead_allocates _) read
  have next4 := onMem_next (moeStringRead_allocates _) read'
  have next6 := onMem_next (moeStringFree_allocates _) free
  simp only at next2 next6
  rw [next6, next4, next3, next2]

/-- The script is loaded if its string ends in a NUL. -/
theorem loadProcMacroScriptsIn_run (owned : Owns m₀ mem f) (script : w.script = some text) (nonempty : text ≠ []) :
    (fresh.last (mem.heap.next + 2) text.length ≠ 0 →
      loadProcMacroScriptsIn fresh w (⟨lex, mem⟩, host) = .error .uninitialized) ∧
    (fresh.last (mem.heap.next + 2) text.length = 0 → ∃ mem', loadProcMacroScriptsIn fresh w (⟨lex, mem⟩, host) =
      .ok (0, (⟨lex, mem'⟩, { host with js := (w.js.eval text host.js).2 })) ∧ Owns m₀ mem' f ∧
      mem'.heap.next = mem.heap.next + 3) := by
  obtain ⟨l, mem1, open_, owned1, next1⟩ := readFileIn_owns fresh owned nonempty
  have handed := handOn_owns owned1 rfl
  constructor
  · intro other
    rw [if_neg other] at handed
    rw [loadProcMacroScriptsIn, script, Exec.bind_ok (onMem_ok open_)]
    simp only
    rw [Exec.bind_error (onMem_error handed)]
  · intro zero
    rw [if_pos zero] at handed
    rw [zero, endedBlocks_zero] at owned1
    have print := moeStringRead_owns owned1 rfl
    have read := readString_owns owned1 rfl
    obtain ⟨mem2, free, owned2⟩ := moeStringFree_owns owned1 rfl
    have eval : (onRest (onJs (w.js.eval text)) : C (St × Host σ) Bool) (⟨lex, mem1⟩, host) =
        .ok ((w.js.eval text host.js).1, (⟨lex, mem1⟩, { host with js := (w.js.eval text host.js).2 })) := rfl
    refine ⟨mem2, ?_, owned2, (moeStringFree_allocates _ free).trans next1⟩
    rw [loadProcMacroScriptsIn, script, Exec.bind_ok (onMem_ok open_)]
    simp only
    rw [Exec.bind_ok (onMem_ok handed), Exec.bind_ok (onMem_ok print), Exec.bind_ok (onMem_ok handed),
      Exec.bind_ok (onMem_ok read), Exec.bind_ok eval, Exec.bind_ok (onMem_ok free)]
    rfl

theorem mainWithInputIn_unread {p : Ptr} (script : w.script = none) :
    ∃ mem', mainWithInputIn fresh build w p (⟨lex, mem⟩, host) = .ok (.failure, (⟨lex, mem'⟩, host)) := by
  have failed : ∀ mem1, loadProcMacroScriptsIn fresh w (⟨lex, mem1⟩, host) = .ok (1, (⟨lex, mem1⟩, host)) := by
    intro mem1
    rw [loadProcMacroScriptsIn, script]
    rfl
  obtain ⟨a, mem1, alloc⟩ : ∃ a mem1, moeMalloc .jsRuntime mem = .ok (a, mem1) := ⟨_, _, rfl⟩
  refine ⟨mem1, ?_⟩
  rw [mainWithInputIn, Exec.bind_ok (onMem_ok alloc), Exec.bind_ok (failed mem1)]
  rfl

theorem mainWithInputIn_read {p : Ptr} (owned : Owns m₀ mem f) (script : w.script = some text) (nonempty : text ≠ []) :
    (fresh.last (mem.heap.next + 3) text.length ≠ 0 →
      mainWithInputIn fresh build w p (⟨lex, mem⟩, host) = .error .uninitialized) ∧
    (fresh.last (mem.heap.next + 3) text.length = 0 → ∃ a mem', Owns m₀ mem' ({(a, .jsRuntime)} + f) ∧
      mem'.heap.next = mem.heap.next + 4 ∧ mainWithInputIn fresh build w p (⟨lex, mem⟩, host) =
        mainWithScriptsIn fresh build w p a (⟨lex, mem'⟩, { host with js := (w.js.eval text host.js).2 })) := by
  obtain ⟨a, mem1, alloc, owned1⟩ := moeMalloc_owns owned .jsRuntime
  have next1 := moeMalloc_allocates _ alloc
  obtain ⟨stops, loads⟩ := @loadProcMacroScriptsIn_run _ _ fresh _ _ _ w lex host _ owned1 script nonempty
  rw [next1] at stops loads
  constructor
  · intro other
    rw [mainWithInputIn, Exec.bind_ok (onMem_ok alloc), Exec.bind_error (stops other)]
  · intro zero
    obtain ⟨mem2, load, owned2, next2⟩ := loads zero
    refine ⟨a, mem2, owned2, next2, ?_⟩
    rw [mainWithInputIn, Exec.bind_ok (onMem_ok alloc), Exec.bind_ok load]
    rfl

theorem mainWithScriptsIn_none {a : Addr} (owned : Owns m₀ mem f) :
    mainWithScriptsIn fresh build w none a (⟨lex, mem⟩, host) = .error build.nullFault := by
  obtain ⟨store, b, mem1, alloc, -⟩ := moeStringAllocIn_bare fresh owned (Nat.succ_ne_zero 1023)
  have fails : processTokensIn fresh build w none (⟨lex, mem⟩, host) = .error build.nullFault := by
    rw [processTokensIn, Exec.bind_ok (onMem_ok alloc)]
    rfl
  rw [mainWithScriptsIn, Exec.bind_error fails]

/-- The lexer is started if the input and the string store end in NULs. -/
theorem mainWithScriptsIn_run {l : StringAt} {a : Addr} {e : UInt8}
    (owned : Owns m₀ mem (endedBlocks l text e + ({(a, .jsRuntime)} + f))) :
    (¬ (e = 0 ∧ fresh.last (mem.heap.next + 2) 1024 = 0) →
      mainWithScriptsIn fresh build w (some l.handle) a (⟨lex, mem⟩, host) = .error .uninitialized) ∧
    (e = 0 ∧ fresh.last (mem.heap.next + 2) 1024 = 0 →
      LoopEnd m₀ f .check (w.loop build text host)
        (mainWithScriptsIn fresh build w (some l.handle) a (⟨lex, mem⟩, host))) := by
  obtain ⟨store, b, mem1, alloc, -, owned1, -⟩ := moeStringAllocIn_bare fresh owned (Nat.succ_ne_zero 1023)
  have input := handOn_owns owned1 (add_left_comm _ _ _)
  have buffer := handOn_owns owned1 rfl
  have str : onSt (onMem (moeAssertNonNull build (some l.handle))) ((⟨lex, mem1⟩, host) : St × Host σ) =
      .ok (l.handle, (⟨lex, mem1⟩, host)) := rfl
  constructor
  · intro unended
    have stops : initLexerIn build w (some l.handle) store.handle (⟨lex, mem1⟩, host) = .error .uninitialized := by
      rw [initLexerIn, Exec.bind_ok str]
      by_cases zero : e = 0
      · rw [if_pos zero] at input
        rw [if_neg fun last => unended ⟨zero, last⟩] at buffer
        rw [Exec.bind_ok (onMem_ok input), Exec.bind_error (onMem_error buffer)]
      · rw [if_neg zero] at input
        rw [Exec.bind_error (onMem_error input)]
    have tokens : processTokensIn fresh build w (some l.handle) (⟨lex, mem⟩, host) = .error .uninitialized := by
      rw [processTokensIn, Exec.bind_ok (onMem_ok alloc), Exec.bind_error stops]
    rw [mainWithScriptsIn, Exec.bind_error tokens]
  · rintro ⟨rfl, last⟩
    rw [if_pos rfl] at input
    rw [if_pos last] at buffer
    rw [last, endedBlocks_zero, endedBlocks_zero] at owned1
    have init : initLexerIn build w (some l.handle) store.handle (⟨lex, mem1⟩, host) =
        .ok ((), (⟨.start (w.lexer text), mem1⟩, host)) := by
      rw [initLexerIn, Exec.bind_ok str, Exec.bind_ok (onMem_ok input), Exec.bind_ok (onMem_ok buffer)]
      exact initLexer_run owned1
    have tokens : LoopEnd m₀ (strBlocks l text + ({(a, .jsRuntime)} + f)) () (w.loop build text host)
        (processTokensIn fresh build w (some l.handle) (⟨lex, mem⟩, host)) := by
      rw [processTokensIn, Exec.bind_ok (onMem_ok alloc), Exec.bind_ok init,
        Exec.bind_ok (onLex_ok (Exec.get_apply (StbLexer.start (w.lexer text)))),
        show (StbLexer.start (w.lexer text)).rest = w.lexer text from rfl]
      exact tokenLoop_run owned1
    exact tokens.frees

/-! ### What is seen of a run -/

/-- The fault, or the exit code, where the lexer is, the engine and the output file. -/
def seen (r : Except Fault (Int × (St × Host σ))) : Except Fault (Int × StbLexer × Host σ) :=
  r.map fun p => (p.1, p.2.1.lex, p.2.2)

/-- The leak check behind the token loop. -/
def checkedEnd (build : Build) (loop : Except Fault (Unit × StbLexer × Values.Run σ)) :
    Except Fault (Int × StbLexer × Host σ) :=
  match loop with
  | .error e => .error e
  | .ok (_, lex, host, leaked) =>
    if build = .assertions ∧ leaked ≠ 0 then .error .assertFailed else .ok (0, lex, host)

/-- A run that reads its files, on values. -/
def World.valueRun (build : Build) (w : World σ ι) (inputFile : Bytes) :
    Except Fault (Int × StbLexer × Host σ) :=
  match w.script with
  | none => .ok (1, .start [], ⟨w.engine, w.firstLine inputFile, 1⟩)
  | some script =>
    match w.input with
    | none => .error build.nullFault
    | some text =>
      checkedEnd build (w.loop build text ⟨(w.js.eval script w.engine).2, w.firstLine inputFile, 1⟩)

theorem main_checkExit (build : Build) (w : World σ ι) : main build w = mainToCheck build w >>= checkExit build :=
  rfl

/-- A run that is refused has not touched the output file. -/
theorem main_refused (refuses : w.inputFile? = none ∨ w.clears = false) (c : St × Host σ) :
    main build w c = .ok (1, c) := by
  cases argument : w.inputFile? with
  | none =>
    rw [main, mainToCheck, argument]
    rfl
  | some inputFile =>
    rw [main, mainToCheck, argument, refuses.resolve_left (by simp [argument])]
    rfl

theorem mainIn_refused (refuses : w.inputFile? = none ∨ w.clears = false) (c : St × Host σ) :
    mainIn fresh build w c = .ok (1, c) := by
  cases argument : w.inputFile? with
  | none =>
    rw [mainIn, mainToCheckIn, argument]
    rfl
  | some inputFile =>
    rw [mainIn, mainToCheckIn, argument, refuses.resolve_left (by simp [argument])]
    rfl

theorem checkExit_seen {x : C (St × Host σ) Exit} {s : St × Host σ}
    {loop : Except Fault (Unit × StbLexer × Values.Run σ)} (ends : LoopEnd Mem.empty 0 .check loop (x s)) :
    seen ((x >>= checkExit build) s) = checkedEnd build loop := by
  cases loop with
  | error e =>
    rw [Exec.bind_error ends]
    rfl
  | ok r =>
    obtain ⟨_, lex', host', leaked⟩ := r
    obtain ⟨mem', lost, run, owned, card⟩ := ends
    have balance := owned.balance
    simp only [Mem.empty, Nat.add_zero, zero_add, card] at balance
    rw [Exec.bind_ok run, checkExit, checkedEnd]
    cases build with
    | assertions =>
      have condition : (do
          let m ← get
          pure (m.stats.totalAllocated = m.stats.totalFreed) : C Mem Bool) mem' =
          .ok (decide (leaked = 0), mem') := by
        rw [Exec.bind_ok (Exec.get_apply mem'), Exec.pure_apply]
        have equal : mem'.stats.totalAllocated = mem'.stats.totalFreed ↔ leaked = 0 := by omega
        simp only [equal]
      by_cases none_ : leaked = 0
      · have check : moeCheckMemoryLeak .assertions mem' = .ok ((), mem') := by
          rw [moeCheckMemoryLeak, moeAssert, Exec.bind_ok condition, if_pos (decide_eq_true none_)]
          rfl
        rw [Exec.bind_ok (onMem_ok check), if_neg fun both => both.2 none_]
        rfl
      · have check : moeCheckMemoryLeak .assertions mem' = .error .assertFailed := by
          rw [moeCheckMemoryLeak, moeAssert, Exec.bind_ok condition, if_neg (by simpa using none_)]
          rfl
        rw [Exec.bind_error (onMem_error check), if_pos ⟨rfl, none_⟩]
        rfl
    | ndebug =>
      rw [if_neg fun both => by cases both.1]
      rfl

/-- How a run that reads its files gets to the leak check, on values. -/
def FilesEnd (build : Build) (w : World σ ι) (inputFile : Bytes) (r : Except Fault (Exit × (St × Host σ))) : Prop :=
  match w.script with
  | none => ∃ mem', r = .ok (.failure, (⟨.start [], mem'⟩, ⟨w.engine, w.firstLine inputFile, 1⟩))
  | some script =>
    match w.input with
    | none => r = .error build.nullFault
    | some text => LoopEnd Mem.empty 0 .check
        (w.loop build text ⟨(w.js.eval script w.engine).2, w.firstLine inputFile, 1⟩) r

theorem FilesEnd.seen {inputFile : Bytes} {x : C (St × Host σ) Exit} {s : St × Host σ}
    (ends : FilesEnd build w inputFile (x s)) : seen ((x >>= checkExit build) s) = w.valueRun build inputFile := by
  unfold FilesEnd at ends
  unfold World.valueRun
  cases script : w.script with
  | none =>
    rw [script] at ends
    obtain ⟨mem', run⟩ := ends
    rw [Exec.bind_ok run]
    rfl
  | some text =>
    rw [script] at ends
    cases input : w.input with
    | none =>
      rw [input] at ends
      rw [Exec.bind_error ends]
      rfl
    | some text =>
      rw [input] at ends
      exact checkExit_seen ends

theorem mainWithOutput_end {inputFile : Bytes} (output : Bytes) (input : w.input ≠ some []) (script : w.script ≠ some []) :
    FilesEnd build w inputFile (mainWithOutput build w inputFile (w.start output)) := by
  obtain ⟨mem1, start, owned1⟩ := @startOutput_run _ _ _ _ _ w (.start []) ⟨w.engine, output, 0⟩
    (owns_refl Mem.empty) inputFile
  obtain ⟨p, mem2, g, read, owned2, opened⟩ : ∃ p mem2 g, readFile w.input mem1 = .ok (p, mem2) ∧
      Owns Mem.empty mem2 g ∧ match w.input with
        | none => p = none
        | some text => ∃ l : StringAt, p = some l.handle ∧ g = strBlocks l text + 0 := by
    cases here : w.input with
    | none => exact ⟨none, mem1, 0, readFile_none, owned1, rfl⟩
    | some text =>
      rw [here] at input
      obtain ⟨l, mem2, read, owned2⟩ := readFile_owns owned1 (fun empty => input (congrArg some empty))
      exact ⟨_, mem2, _, read, owned2, l, rfl, rfl⟩
  have rest : mainWithOutput build w inputFile (w.start output) =
      mainWithInput build w p (⟨.start [], mem2⟩, ⟨w.engine, w.firstLine inputFile, 1⟩) := by
    rw [mainWithOutput, World.start, Exec.bind_ok start, Exec.bind_ok (onMem_ok read)]
    rfl
  unfold FilesEnd
  rw [rest]
  cases there : w.script with
  | none => exact mainWithInput_unread there
  | some text =>
    rw [there] at script
    obtain ⟨a, mem3, owned3, loaded⟩ := @mainWithInput_read _ _ _ _ _ build w (.start [])
      ⟨w.engine, w.firstLine inputFile, 1⟩ _ p owned2 there (fun empty => script (congrArg some empty))
    simp only [loaded]
    cases here : w.input with
    | none =>
      rw [here] at opened
      subst opened
      exact mainWithScripts_none owned3
    | some text =>
      rw [here] at opened
      obtain ⟨l, rfl, rfl⟩ := opened
      rw [add_left_comm] at owned3
      exact mainWithScripts_run owned3

theorem main_seen {inputFile : Bytes} (output : Bytes) (argument : w.inputFile? = some inputFile) (clears : w.clears = true)
    (input : w.input ≠ some []) (script : w.script ≠ some []) :
    seen (main build w (w.start output)) = w.valueRun build inputFile := by
  have whole : main build w = mainWithOutput build w inputFile >>= checkExit build := by
    rw [main_checkExit, mainToCheck, argument]
    simp only [clears, if_true]
  rw [whole, (mainWithOutput_end output input script).seen]

/-- The blocks of bytes that are handed on as strings without having been filled, with the lengths
of the strings. Addresses count the allocations: the first line takes 0 to 2, the input
3 to 5, the runtime 6, the script 7 to 9 and the string store 10 to 12. -/
def World.handedOn (w : World σ ι) : List (Addr × Nat) :=
  match w.inputFile?, w.clears, w.script, w.input with
  | some _, true, some script, some text => [(5, text.length), (9, script.length), (12, 1024)]
  | some _, true, some script, none => [(6, script.length)]
  | _, _, _, _ => []

/-- Each of these blocks happens to end in a NUL. -/
def Terminates (fresh : Fresh) (w : World σ ι) : Prop := ∀ p ∈ w.handedOn, fresh.last p.1 p.2 = 0

theorem mainWithOutputIn_end {inputFile : Bytes} (output : Bytes) (argument : w.inputFile? = some inputFile)
    (clears : w.clears = true) (input : w.input ≠ some []) (script : w.script ≠ some []) :
    (¬ Terminates fresh w → mainWithOutputIn fresh build w inputFile (w.start output) = .error .uninitialized) ∧
    (Terminates fresh w → FilesEnd build w inputFile (mainWithOutputIn fresh build w inputFile (w.start output))) := by
  obtain ⟨mem1, start, owned1⟩ := @startOutput_run _ _ _ _ _ w (.start []) ⟨w.engine, output, 0⟩
    (owns_refl Mem.empty) inputFile
  have next1 : mem1.heap.next = 3 := startOutput_next start
  cases here : w.input with
  | none =>
    have read : readFileIn fresh w.input mem1 = .ok (none, mem1) := by
      rw [here]
      rfl
    have rest : mainWithOutputIn fresh build w inputFile (w.start output) =
        mainWithInputIn fresh build w none (⟨.start [], mem1⟩, ⟨w.engine, w.firstLine inputFile, 1⟩) := by
      rw [mainWithOutputIn, World.start, Exec.bind_ok start, Exec.bind_ok (onMem_ok read)]
      rfl
    unfold FilesEnd Terminates World.handedOn
    rw [rest, argument, clears, here]
    cases there : w.script with
    | none => exact ⟨fun other => absurd (by simp) other, fun _ => mainWithInputIn_unread there⟩
    | some text =>
      rw [there] at script
      obtain ⟨stops, loads⟩ := @mainWithInputIn_read _ _ fresh _ _ _ build w (.start [])
        ⟨w.engine, w.firstLine inputFile, 1⟩ _ none owned1 there (fun empty => script (congrArg some empty))
      rw [next1] at stops loads
      simp only [List.forall_mem_singleton]
      refine ⟨stops, fun zero => ?_⟩
      obtain ⟨a, mem2, owned2, -, loaded⟩ := loads zero
      rw [loaded]
      exact mainWithScriptsIn_none owned2
  | some text =>
    rw [here] at input
    obtain ⟨l, mem2, read, owned2, next2⟩ := readFileIn_owns fresh owned1
      (fun empty => input (congrArg some empty))
    rw [← here] at read
    rw [next1] at next2 owned2
    have rest : mainWithOutputIn fresh build w inputFile (w.start output) =
        mainWithInputIn fresh build w (some l.handle) (⟨.start [], mem2⟩, ⟨w.engine, w.firstLine inputFile, 1⟩) := by
      rw [mainWithOutputIn, World.start, Exec.bind_ok start, Exec.bind_ok (onMem_ok read)]
      rfl
    unfold FilesEnd Terminates World.handedOn
    rw [rest, argument, clears, here]
    cases there : w.script with
    | none => exact ⟨fun other => absurd (by simp) other, fun _ => mainWithInputIn_unread there⟩
    | some text' =>
      rw [there] at script
      obtain ⟨stops, loads⟩ := @mainWithInputIn_read _ _ fresh _ _ _ build w (.start [])
        ⟨w.engine, w.firstLine inputFile, 1⟩ _ (some l.handle) owned2 there (fun empty => script (congrArg some empty))
      rw [next2] at stops loads
      simp only [List.forall_mem_cons, List.not_mem_nil, false_imp_iff, implies_true, and_true]
      by_cases zero : fresh.last (3 + 3 + 3) text'.length = 0
      · obtain ⟨a, mem3, owned3, next3, loaded⟩ := loads zero
        rw [add_left_comm] at owned3
        obtain ⟨unended, ended⟩ := @mainWithScriptsIn_run _ _ fresh _ _ _ build w (.start [])
          ⟨(w.js.eval text' w.engine).2, w.firstLine inputFile, 1⟩ _ _ _ _ owned3
        rw [next3] at unended ended
        rw [loaded]
        exact ⟨fun other => unended fun both => other ⟨both.1, zero, both.2⟩, fun all => ended ⟨all.1, all.2.2⟩⟩
      · exact ⟨fun _ => stops zero, fun all => absurd all.2.1 zero⟩

/-- The plain program stops at a string without NUL, or is seen as `main` is. -/
theorem mainIn_seen {inputFile : Bytes} (output : Bytes) (argument : w.inputFile? = some inputFile)
    (clears : w.clears = true) (input : w.input ≠ some []) (script : w.script ≠ some []) :
    (¬ Terminates fresh w → mainIn fresh build w (w.start output) = .error .uninitialized) ∧
    (Terminates fresh w → seen (mainIn fresh build w (w.start output)) = seen (main build w (w.start output))) := by
  obtain ⟨stops, ends⟩ := @mainWithOutputIn_end _ _ fresh build w _ output argument clears input script
  have plain : mainToCheckIn fresh build w = mainWithOutputIn fresh build w inputFile := by
    rw [mainToCheckIn, argument]
    simp only [clears, if_true]
  rw [mainIn, plain, main_seen output argument clears input script]
  exact ⟨fun unended => Exec.bind_error (stops unended), fun ended => (ends ended).seen⟩

end Runs

/-! ## When the configurations agree -/

section Results

variable {σ ι : Type}

/-- The text that the lexer is started on. -/
def World.lexed? (w : World σ ι) : Option Bytes :=
  match w.inputFile?, w.clears, w.script, w.input with
  | some _, true, some _, some text => some text
  | _, _, _, _ => none

/-- The input with other tokens. -/
def World.readAs (w : World σ ι) (lexer : Bytes → List Token) : World σ ι := { w with lexer := lexer }

/-- The input ends behind its first `k` tokens. -/
def World.upTo (w : World σ ι) (k : Nat) : World σ ι := w.readAs fun text => (w.lexer text).take k

/-- What a run leaves outside of the program: the exit code, the engine and the output file, or the fault. -/
def remains (r : Except Fault (Int × (St × Host σ))) : Except Fault (Int × Host σ) := r.map fun p => (p.1, p.2.2)

/-- In the plain configuration every string is terminated where it is handed on, no array
element is read that was not written, the calls of the lexer return the tokens of the text
in both, and the run is seen as the same. It also leaves the same with the tokens that any
fresh string store gives, and after each part of them. -/
structure ConfigurationsAgree (fresh : Fresh) (build : Build) (strtod : Nat → BitVec 64 × Nat) (w : World σ ι)
    (output : Bytes) : Prop where
  terminated : mainIn fresh build w (w.start output) ≠ .error .uninitialized
  written : main build w (w.start output) ≠ .error .uninitialized
  lexed : ∀ text, w.lexed? = some text → Stb.LexesAlike strtod text (w.lexer text)
  same : seen (mainIn fresh build w (w.start output)) = seen (main build w (w.start output))
  parts : ∀ k lexer, (∀ text, w.lexed? = some text → SameTokens false ((w.lexer text).take k) (lexer text)) →
    remains (mainIn fresh build (w.readAs lexer) (w.start output)) = remains (main build (w.upTo k) (w.start output))

/-- What `moe_string_alloc` returns has its capacity and last byte. -/
theorem moeStringAllocIn_ends {fresh : Fresh} {data : Option Bytes} {length : Nat} {m m' : Mem} {a : Addr}
    (run : moeStringAllocIn fresh data length m = .ok (a, m')) :
    ∃ l b, a = l.handle ∧ Owns m m' (endedBlocks l b
      (if data = none then fresh.last (m.heap.next + 2) length else 0)) := by
  cases data with
  | none =>
    by_cases zero : length = 0
    · subst zero
      cases run
    · obtain ⟨l, b, m1, run', -, owned, -⟩ := moeStringAllocIn_bare fresh (owns_refl m) zero
      rw [run'] at run
      cases run
      rw [add_zero] at owned
      exact ⟨l, b, rfl, owned⟩
  | some text =>
    rw [moeStringAllocIn_data] at run
    cases content : stringContent (some text) length with
    | none =>
      rw [moeStringAlloc_short content] at run
      cases run
    | some b =>
      obtain ⟨l, m1, run', owned⟩ := moeStringAlloc_owns (owns_refl m) content
      rw [run'] at run
      cases run
      rw [add_zero] at owned
      exact ⟨l, b, rfl, owned⟩

/-- A run is refused, or it reads its files. -/
theorem refused_or_reads (w : World σ ι) :
    (w.inputFile? = none ∨ w.clears = false) ∨ ∃ inputFile, w.inputFile? = some inputFile ∧ w.clears = true := by
  cases argument : w.inputFile? with
  | none => exact .inl (.inl rfl)
  | some inputFile =>
    cases clears : w.clears with
    | false => exact .inl (.inr rfl)
    | true => exact .inr ⟨inputFile, rfl, rfl⟩

theorem handedOn_refused {w : World σ ι} (refuses : w.inputFile? = none ∨ w.clears = false) : w.handedOn = [] := by
  cases argument : w.inputFile? with
  | none => rw [World.handedOn, argument]
  | some inputFile => rw [World.handedOn, argument, refuses.resolve_left (by simp [argument])]

/-- The runs without the lexer's own reads. -/
theorem runs_agree_iff (fresh : Fresh) (build : Build) (w : World σ ι) (output : Bytes) (input : w.input ≠ some [])
    (script : w.script ≠ some []) :
    (mainIn fresh build w (w.start output) ≠ .error .uninitialized ∧
      main build w (w.start output) ≠ .error .uninitialized ∧
      seen (mainIn fresh build w (w.start output)) = seen (main build w (w.start output))) ↔ Terminates fresh w := by
  rcases refused_or_reads w with refuses | ⟨inputFile, argument, clears⟩
  · have none_ := handedOn_refused refuses
    rw [mainIn_refused refuses, main_refused refuses]
    exact ⟨fun _ => by simp [Terminates, none_], fun _ => ⟨nofun, nofun, rfl⟩⟩
  · obtain ⟨stops, same⟩ := @mainIn_seen _ _ fresh build w _ output argument clears input script
    have written : main build w (w.start output) ≠ .error .uninitialized := by
      intro run
      have stops := @main_stops _ _ build w _ output argument clears
      rw [run] at stops
      cases (stops : StopFault _ _)
    constructor
    · rintro ⟨terminated, -, -⟩
      by_contra unended
      exact terminated (stops unended)
    · intro ended
      refine ⟨fun run => ?_, written, same ended⟩
      have seen_ := same ended
      rw [run] at seen_
      cases run' : main build w (w.start output) with
      | error e =>
        rw [run'] at seen_
        cases seen_
        exact written run'
      | ok r =>
        rw [run'] at seen_
        cases seen_
theorem remains_seen (r : Except Fault (Int × (St × Host σ))) : remains r = (seen r).map fun p => (p.1, p.2.2) := by
  cases r <;> rfl

theorem checkedEnd_same {build : Build} {loop loop' : Except Fault (Unit × StbLexer × Values.Run σ)}
    (same : loop'.map (fun r => r.2.2) = loop.map fun r => r.2.2) :
    (checkedEnd build loop').map (fun p => (p.1, p.2.2)) = (checkedEnd build loop).map fun p => (p.1, p.2.2) := by
  cases loop with
  | error e =>
    cases loop' with
    | error e' =>
      cases same
      rfl
    | ok r' => cases same
  | ok r =>
    cases loop' with
    | error e' => cases same
    | ok r' =>
      obtain ⟨_, lex, host, leaked⟩ := r
      obtain ⟨_, lex', host', leaked'⟩ := r'
      cases same
      unfold checkedEnd
      dsimp only
      split <;> rfl

/-- The texts that errors leave behind make no difference to what a run leaves. -/
theorem main_readAs {build : Build} {w : World σ ι} {lexer : Bytes → List Token} (output : Bytes) (input : w.input ≠ some [])
    (script : w.script ≠ some []) (same : ∀ text, w.lexed? = some text → SameTokens false (w.lexer text) (lexer text)) :
    remains (main build (w.readAs lexer) (w.start output)) = remains (main build w (w.start output)) := by
  rcases refused_or_reads w with refuses | ⟨inputFile, argument, clears⟩
  · rw [main_refused refuses, @main_refused _ _ build (w.readAs lexer) refuses]
  · have other : seen (main build (w.readAs lexer) (w.start output)) = (w.readAs lexer).valueRun build inputFile :=
      @main_seen _ _ build (w.readAs lexer) inputFile output argument clears input script
    rw [remains_seen, remains_seen, other, main_seen output argument clears input script]
    unfold World.valueRun
    show Except.map _ (match w.script with | none => _ | some script => match w.input with | none => _ | some text => _) = _
    cases here : w.script with
    | none => rfl
    | some script =>
      cases there : w.input with
      | none => rfl
      | some text =>
        have lexed : w.lexed? = some text := by
          rw [World.lexed?, argument, clears, here, there]
        have run : ∀ host : Host σ, ((w.readAs lexer).loop build text host).map (fun r => r.2.2) =
            (w.loop build text host).map fun r => r.2.2 := by
          intro host
          exact @loop_same build _ _ w (w.readAs lexer) text rfl rfl (same text lexed) host
        exact checkedEnd_same (run _)

/-- `strtod` for texts without floating-point literals. -/
def oneDigit (p : Nat) : BitVec 64 × Nat := (0, p + 1)

theorem oneDigit_ok (text : Bytes) : Stb.StrtodOk (Stb.Input.ofBytes text) oneDigit :=
  fun p inside _ => ⟨Nat.lt_succ_self p, inside⟩

/-- The program on a file with this text. -/
def textWorld (text : Bytes) : World Unit Unit := { worldOf [] with input := some text, lexer := Stb.tokensOf oneDigit }

/-- Fresh blocks with other bytes than NUL. -/
def Fresh.ones : Fresh := ⟨fun _ n => List.replicate n 1, fun _ _ => List.length_replicate⟩

end Results

end MoeToolchain
