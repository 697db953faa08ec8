import MoeToolchain.Common.MoeAlloc

/-!
# `moe_string.c`

A `moe_string_t` is three blocks: the handle, the internal buffer record with its
reference count, and the bytes. `strBlocks at b` is the footprint of a string with
the bytes `b` and one handle; the `_owns` lemmas say what each function does to it.

A source buffer is given by the bytes readable at the pointer before a
terminating NUL. The assertions that a handle is not `NULL` are those of the build that
has them.
-/

namespace MoeToolchain
set_option autoImplicit false
open Lib

/-- `if (length == 0) length = strlen(data);` -/
def chosenLength (data : Option Bytes) (length : Nat) : C Mem Nat :=
  if length = 0 then
    match data with
    | none => Exec.fault .nullPointer
    | some b => pure (strlen b)
  else pure length

/-- `memcpy` of `length + 1` bytes into the block `bytes`, then a NUL into the last one. -/
def copyData (bytes : Addr) (data : Option Bytes) (length : Nat) : C Mem Unit :=
  match data with
  | none => pure ()
  | some b =>
    if b.length < length then Exec.fault .outOfBounds
    else storeBlock bytes (.chars (b.take length ++ [0]))

/-- `moe_string_alloc(data, length)`: length 0 asks for `strlen(data)`, and `NULL`
data leaves the (zeroed) bytes as they are. -/
def moeStringAlloc (data : Option Bytes) (length : Nat) : C Mem Addr := do
  let str ← moeMalloc .uninit
  let length ← chosenLength data length
  let capacity := length + 1
  let internal ← moeMalloc .uninit
  let bytes ← moeMalloc (.chars (List.replicate capacity 0))
  copyData bytes data length
  storeBlock internal (.stringInternal ⟨bytes, 1⟩)
  storeBlock str (.string ⟨internal, length, capacity⟩)
  pure str

/-- `moe_string_clone`: the new handle shares the buffer. -/
def moeStringClone (str : Ptr) : C Mem Addr := do
  let _ ← moeAssertNonNull .assertions str
  let dup ← moeMalloc .uninit
  let s ← loadAs Block.asString str
  storeBlock dup (.string ⟨s.internal, s.length, s.capacity⟩)
  pure dup

/-- `moe_string_get` and `moe_string_get_const`. -/
def moeStringGet (str : Ptr) : C Mem Addr := do
  let _ ← moeAssertNonNull .assertions str
  let s ← loadAs Block.asString str
  let i ← loadAs Block.asStringInternal s.internal
  pure i.data

def moeStringFree (str : Ptr) : C Mem Unit :=
  match str with
  | none => pure ()
  | some a => do
    let s ← loadAs Block.asString (some a)
    let i ← loadAs Block.asStringInternal s.internal
    let refCount := i.refCount - 1
    storeBlock s.internal (.stringInternal { i with refCount := refCount })
    (if refCount ≤ 0 then do
      moeFree (some i.data)
      moeFree (some s.internal)
    else pure () : C Mem Unit)
    moeFree (some a)

/-- `strcmp(a, b) == 0`, or `none` where the comparison leaves one of the arrays. -/
def strcmpEqual : Bytes → Bytes → Option Bool
  | c :: a, d :: b => if c ≠ d then some false else if c = 0 then some true else strcmpEqual a b
  | _, _ => none

def moeStringEqual (a b : Ptr) : C Mem Bool :=
  match a, b with
  | some a, some b => do
    let s ← loadAs Block.asString (some a)
    let t ← loadAs Block.asString (some b)
    if s.length ≠ t.length then pure false
    else do
      let i ← loadAs Block.asStringInternal (some s.internal)
      let data ← loadAs Block.asChars (some i.data)
      let j ← loadAs Block.asStringInternal (some t.internal)
      let data' ← loadAs Block.asChars (some j.data)
      match strcmpEqual data data' with
      | some equal => pure equal
      | none => Exec.fault .outOfBounds
  | _, _ => pure false

/-- What a reader of the `char*` at `p` sees. -/
def readCString (p : Addr) : C Mem Bytes := do
  let data ← loadAs Block.asChars (some p)
  if 0 ∈ data then pure (cString data) else Exec.fault .outOfBounds

/-- `moe_string_get` read as a C string, the way every caller uses it. -/
def moeStringRead (str : Ptr) : C Mem Bytes := do
  let p ← moeStringGet str
  readCString p

/-- The addresses of the three blocks of a string. -/
structure StringAt where
  handle : Addr
  internal : Addr
  data : Addr
deriving DecidableEq, Repr

/-- The blocks of a string with the bytes `b` and one handle. -/
def strBlocks (l : StringAt) (b : Bytes) : Footprint :=
  {(l.handle, .string ⟨l.internal, b.length, b.length + 1⟩)} +
    ({(l.internal, .stringInternal ⟨l.data, 1⟩)} + {(l.data, .chars (b ++ [0]))})

@[simp] theorem card_strBlocks (l : StringAt) (b : Bytes) : Multiset.card (strBlocks l b) = 3 := by
  simp [strBlocks]

/-- The bytes that `moe_string_alloc` is asked to store. -/
def stringContent (data : Option Bytes) (length : Nat) : Option Bytes :=
  match data with
  | none => if length = 0 then none else some (List.replicate length 0)
  | some b =>
    if length = 0 then some (cString b)
    else if b.length < length then none else some (b.take length)

theorem stringContent_cString (b : Bytes) : stringContent (some b) 0 = some (cString b) := by
  simp [stringContent]

/-- The exact length stores all the bytes, whatever they are. -/
theorem stringContent_exact (b : Bytes) : stringContent (some b) b.length = some b := by
  simp only [stringContent]
  split
  · rename_i empty
    rw [List.length_eq_zero_iff] at empty
    simp [empty, cString]
  · simp

section Rules

variable {m₀ m : Mem} {f r : Footprint} {l : StringAt} {b c : Bytes}

theorem strlen_le (b : Bytes) : strlen b ≤ b.length := (cString_isPrefix b).length_le

theorem take_strlen (b : Bytes) : b.take (strlen b) = cString b :=
  (List.prefix_iff_eq_take.mp (cString_isPrefix b)).symm

/-- The length that is stored is the length of the content. -/
theorem chosenLength_run {data : Option Bytes} {length : Nat}
    (content : stringContent data length = some c) :
    chosenLength data length m = .ok (c.length, m) := by
  cases data with
  | none =>
    simp only [stringContent, Option.ite_none_left_eq_some, Option.some.injEq] at content
    obtain ⟨positive, rfl⟩ := content
    simp [chosenLength, positive]
  | some b =>
    simp only [stringContent] at content
    split at content
    · rename_i zero
      cases content
      simp [chosenLength, zero, strlen]
    · rename_i positive
      split at content
      · cases content
      · cases content
        rename_i fits
        simp [chosenLength, positive, Nat.min_eq_left (Nat.le_of_not_lt fits)]

/-- The source bytes cover the content. -/
theorem stringContent_take {length : Nat} (content : stringContent (some b) length = some c) :
    ¬ b.length < c.length ∧ b.take c.length = c := by
  simp only [stringContent] at content
  split at content
  · cases content
    exact ⟨Nat.not_lt.mpr (strlen_le b), take_strlen b⟩
  · split at content
    · cases content
    · rename_i fits
      cases content
      rw [List.length_take, Nat.min_eq_left (Nat.le_of_not_lt fits)]
      exact ⟨fits, rfl⟩

/-- The fresh zeroed block takes the content. -/
theorem copyData_owns {data : Option Bytes} {length : Nat} {bytes : Addr}
    (owned : Owns m₀ m ({(bytes, .chars (List.replicate (c.length + 1) 0))} + f))
    (content : stringContent data length = some c) :
    ∃ m', copyData bytes data c.length m = .ok ((), m') ∧
      Owns m₀ m' ({(bytes, .chars (c ++ [0]))} + f) := by
  cases data with
  | none =>
    have zeros : c = List.replicate c.length 0 := by
      simp only [stringContent, Option.ite_none_left_eq_some, Option.some.injEq] at content
      obtain ⟨-, rfl⟩ := content
      simp
    rw [List.replicate_succ', ← zeros] at owned
    exact ⟨m, rfl, owned⟩
  | some b =>
    obtain ⟨fits, taken⟩ := stringContent_take content
    obtain ⟨m', run, owned'⟩ := storeBlock_owns owned rfl (.chars (c ++ [0]))
    refine ⟨m', ?_, owned'⟩
    rw [copyData, if_neg fits, taken]
    exact run

theorem moeStringAlloc_owns {data : Option Bytes} {length : Nat} (owned : Owns m₀ m f)
    (content : stringContent data length = some c) :
    ∃ l m', moeStringAlloc data length m = .ok (l.handle, m') ∧ Owns m₀ m' (strBlocks l c + f) := by
  obtain ⟨str, m1, run1, owned1⟩ := moeMalloc_owns owned .uninit
  obtain ⟨internal, m2, run2, owned2⟩ := moeMalloc_owns owned1 .uninit
  obtain ⟨bytes, m3, run3, owned3⟩ := moeMalloc_owns owned2 (.chars (List.replicate (c.length + 1) 0))
  obtain ⟨m4, run4, owned4⟩ := copyData_owns owned3 content
  obtain ⟨m5, run5, owned5⟩ := storeBlock_owns owned4 (add_left_comm _ _ _) (.stringInternal ⟨bytes, 1⟩)
  obtain ⟨m6, run6, owned6⟩ := storeBlock_owns owned5
    (by abel : _ = {(str, Block.uninit)} + ({(internal, .stringInternal ⟨bytes, 1⟩)} +
      ({(bytes, .chars (c ++ [0]))} + f))) (.string ⟨internal, c.length, c.length + 1⟩)
  refine ⟨⟨str, internal, bytes⟩, m6, ?_, ?_⟩
  · rw [moeStringAlloc, Exec.bind_ok run1, Exec.bind_ok (chosenLength_run content),
      Exec.bind_ok run2, Exec.bind_ok run3, Exec.bind_ok run4, Exec.bind_ok run5, Exec.bind_ok run6]
    rfl
  · simpa only [strBlocks, add_assoc] using owned6

/-- Asking for more bytes than the source has reads past its end. -/
theorem moeStringAlloc_short {length : Nat} (short : stringContent (some b) length = none) (m : Mem) :
    moeStringAlloc (some b) length m = .error .outOfBounds := by
  simp only [stringContent] at short
  split at short
  · cases short
  · rename_i positive
    split at short
    · rename_i less
      simp [moeStringAlloc, Exec.bind_apply, moeMalloc, chosenLength, copyData, positive, less]
    · cases short

theorem moeStringGet_owns (owned : Owns m₀ m f) (split : f = strBlocks l b + r) :
    moeStringGet (some l.handle) m = .ok (l.data, m) := by
  have handle : (l.handle, .string ⟨l.internal, b.length, b.length + 1⟩) ∈ f := by
    simp [split, strBlocks]
  have internal : (l.internal, .stringInternal ⟨l.data, 1⟩) ∈ f := by
    simp [split, strBlocks]
  rw [moeStringGet, moeAssertNonNull_some, pure_bind, Exec.bind_ok (loadAs_owns Block.asString owned handle rfl),
    Exec.bind_ok (loadAs_owns Block.asStringInternal owned internal rfl)]
  rfl

theorem moeStringRead_owns (owned : Owns m₀ m f) (split : f = strBlocks l b + r) :
    moeStringRead (some l.handle) m = .ok (cString b, m) := by
  have data : (l.data, .chars (b ++ [0])) ∈ f := by
    simp [split, strBlocks]
  have nul : (0 : UInt8) ∈ b ++ [0] := by simp
  rw [moeStringRead, Exec.bind_ok (moeStringGet_owns owned split), readCString,
    Exec.bind_ok (loadAs_owns Block.asChars owned data rfl), if_pos nul, cString_append_nul]
  rfl

theorem moeStringFree_owns (owned : Owns m₀ m f) (split : f = strBlocks l b + r) :
    ∃ m', moeStringFree (some l.handle) m = .ok ((), m') ∧ Owns m₀ m' r := by
  have handle : (l.handle, .string ⟨l.internal, b.length, b.length + 1⟩) ∈ f := by
    simp [split, strBlocks]
  have internal : (l.internal, .stringInternal ⟨l.data, 1⟩) ∈ f := by
    simp [split, strBlocks]
  obtain ⟨m1, run1, owned1⟩ := storeBlock_owns owned
    (by rw [split, strBlocks]; abel : f = {(l.internal, Block.stringInternal ⟨l.data, 1⟩)} +
      ({(l.data, .chars (b ++ [0]))} +
        ({(l.handle, .string ⟨l.internal, b.length, b.length + 1⟩)} + r)))
    (.stringInternal ⟨l.data, 0⟩)
  obtain ⟨m2, run2, owned2⟩ := moeFree_owns owned1 (add_left_comm _ _ _)
  obtain ⟨m3, run3, owned3⟩ := moeFree_owns owned2 rfl
  obtain ⟨m4, run4, owned4⟩ := moeFree_owns owned3 rfl
  refine ⟨m4, ?_, owned4⟩
  rw [moeStringFree, Exec.bind_ok (loadAs_owns Block.asString owned handle rfl),
    Exec.bind_ok (loadAs_owns Block.asStringInternal owned internal rfl)]
  simp only [sub_self, le_refl, if_true]
  have buffer : (do
      moeFree (some l.data)
      moeFree (some l.internal) : C Mem Unit) m1 = .ok ((), m3) := by
    rw [Exec.bind_ok run2, run3]
  rw [Exec.bind_ok run1, Exec.bind_ok buffer, run4]

end Rules

/-! ## Equality -/

section Equality

variable {m : Mem} {l l' : StringAt} {a a' : Addr} {b b' c : Bytes}

/-- Behind the terminators `strcmp` does not come. -/
theorem strcmpEqual_terminated (b c : Bytes) : strcmpEqual (b ++ [0]) (c ++ [0]) = some (strEq b c) := by
  induction b generalizing c with
  | nil =>
    cases c with
    | nil => rfl
    | cons d c =>
      by_cases nul : d = 0
      · simp [strcmpEqual, strEq, cString, nul]
      · simp [strcmpEqual, strEq, cString, nul, Ne.symm nul]
  | cons x b ih =>
    cases c with
    | nil =>
      by_cases nul : x = 0
      · simp [strcmpEqual, strEq, cString, nul]
      · simp [strcmpEqual, strEq, cString, nul]
    | cons y c =>
      simp only [List.cons_append, strcmpEqual, ih]
      by_cases same : x = y
      · subst same
        by_cases nul : x = 0
        · simp [strEq, cString, nul]
        · simp [strEq, cString, nul]
      · by_cases nul : x = 0
        · subst nul
          simp [strEq, cString, Ne.symm same, same]
        · by_cases nul' : y = 0
          · simp [strEq, cString, nul, nul']
          · simp [strEq, cString, nul, nul', same]

/-- The three blocks of a string with the content `b`. -/
structure StringHeld (m : Mem) (l : StringAt) (b : Bytes) : Prop where
  handle : m.heap.load l.handle = some (.string ⟨l.internal, b.length, b.length + 1⟩)
  internal : ∃ refs, m.heap.load l.internal = some (.stringInternal ⟨l.data, refs⟩)
  data : m.heap.load l.data = some (.chars (b ++ [0]))

theorem loadAs_load {α : Type} (as : Block → Option α) {block : Block} {x : α} (found : m.heap.load a = some block)
    (value : as block = some x) : loadAs as (some a) m = .ok (x, m) := by
  simp only [loadAs, found, value]

theorem moeStringEqual_held (held : StringHeld m l b) (held' : StringHeld m l' c) :
    moeStringEqual (some l.handle) (some l'.handle) m = .ok (decide (b.length = c.length) && strEq b c, m) := by
  obtain ⟨refs, internal⟩ := held.internal
  obtain ⟨refs', internal'⟩ := held'.internal
  rw [moeStringEqual, Exec.bind_ok (loadAs_load Block.asString held.handle rfl),
    Exec.bind_ok (loadAs_load Block.asString held'.handle rfl)]
  by_cases same : b.length = c.length
  · rw [if_neg (not_not.mpr same), Exec.bind_ok (loadAs_load Block.asStringInternal internal rfl),
      Exec.bind_ok (loadAs_load Block.asChars held.data rfl),
      Exec.bind_ok (loadAs_load Block.asStringInternal internal' rfl),
      Exec.bind_ok (loadAs_load Block.asChars held'.data rfl)]
    simp [strcmpEqual_terminated, same]
  · rw [if_pos same]
    simp [same]

/-- `a` is a string that `moe_string_alloc` has built with the content `b`, and whose blocks
are as it left them. -/
def Built (m : Mem) (a : Addr) (b : Bytes) : Prop :=
  ∃ data length m₀ m₁, moeStringAlloc data length m₀ = .ok (a, m₁) ∧ stringContent data length = some b ∧
    ∀ x < m₁.heap.next, m₀.heap.next ≤ x → m.heap.load x = m₁.heap.load x

theorem Built.held (built : Built m a b) : ∃ l : StringAt, l.handle = a ∧ StringHeld m l b := by
  obtain ⟨data, length, m₀, m₁, run, content, kept⟩ := built
  obtain ⟨l, m', run', owned⟩ := moeStringAlloc_owns (owns_refl m₀) content
  rw [run] at run'
  cases run'
  have load : ∀ {x block}, (x, block) ∈ strBlocks l b + 0 → m.heap.load x = some block := by
    intro x block mem
    obtain ⟨_, -, -, above, -⟩ := owned.holds.cell mem
    have found := owned.holds.load mem
    rw [kept x (Heap.load_lt found) above, found]
  exact ⟨l, rfl, load (by simp [strBlocks]), ⟨1, load (by simp [strBlocks])⟩, load (by simp [strBlocks])⟩

/-- The contents are of one length and agree up to a NUL, but not behind it. -/
def DifferBehindNul (b c : Bytes) : Prop :=
  ∃ front rest rest', b = front ++ 0 :: rest ∧ c = front ++ 0 :: rest' ∧ rest.length = rest'.length ∧ rest ≠ rest'

/-- A C string is all of the bytes, or ends at one of them. -/
theorem cString_split (b : Bytes) : b = cString b ∨ ∃ rest, b = cString b ++ 0 :: rest := by
  have split : cString b ++ b.dropWhile (· != 0) = b := List.takeWhile_append_dropWhile
  cases tail : b.dropWhile (· != 0) with
  | nil =>
    rw [tail, List.append_nil] at split
    exact .inl split.symm
  | cons x rest =>
    have nul : x = 0 := by
      have stops := List.head?_dropWhile_not (· != 0) b
      rw [tail] at stops
      simpa using stops
    rw [tail, nul] at split
    exact .inr ⟨rest, split.symm⟩

/-- What `strcmp` tells of contents of one length. -/
theorem strEq_iff (lengths : b.length = c.length) : strEq b c = true ↔ b = c ∨ DifferBehindNul b c := by
  rw [strEq, beq_iff_eq]
  constructor
  · intro same
    by_cases equal : b = c
    · exact .inl equal
    · rcases cString_split b with whole | ⟨rest, ends⟩
      · rcases cString_split c with whole' | ⟨rest', ends'⟩
        · exact absurd (whole.trans (same.trans whole'.symm)) equal
        · rw [ends', ← same, ← whole] at lengths
          simp at lengths
      · rcases cString_split c with whole' | ⟨rest', ends'⟩
        · rw [ends, same, ← whole'] at lengths
          simp at lengths
        · rw [← same] at ends'
          refine .inr ⟨cString b, rest, rest', ends, ends', ?_, ?_⟩
          · rw [ends, ends'] at lengths
            simpa using lengths
          · rintro rfl
            exact equal (ends.trans ends'.symm)
  · rintro (rfl | ⟨front, rest, rest', rfl, rfl, -, -⟩)
    · rfl
    · rw [cString_append_nul, cString_append_nul]

/-- **`moe_string_equal` against equality of the contents.** On built strings it returns, and
it decides whether they have the same bytes, except where these differ behind a NUL only:
the lengths are compared, but `strcmp` goes no further than the NUL. -/
theorem string_equal_iff (built : Built m a b) (built' : Built m a' b') :
    ∃ equal, moeStringEqual (some a) (some a') m = .ok (equal, m) ∧
      ((equal = true ↔ b.length = b'.length ∧ ∀ i < b.length, b[i]? = b'[i]?) ↔ ¬ DifferBehindNul b b') := by
  obtain ⟨l, rfl, held⟩ := built.held
  obtain ⟨l', rfl, held'⟩ := built'.held
  refine ⟨_, moeStringEqual_held held held', ?_⟩
  have content : (b.length = b'.length ∧ ∀ i < b.length, b[i]? = b'[i]?) ↔ b = b' := by
    constructor
    · rintro ⟨lengths, bytes⟩
      apply List.ext_getElem?
      intro i
      by_cases inside : i < b.length
      · exact bytes i inside
      · rw [List.getElem?_eq_none (Nat.le_of_not_lt inside),
          List.getElem?_eq_none (lengths ▸ Nat.le_of_not_lt inside)]
    · rintro rfl
      exact ⟨rfl, fun _ _ => rfl⟩
  have apart : DifferBehindNul b b' → b.length = b'.length ∧ b ≠ b' := by
    rintro ⟨front, rest, rest', rfl, rfl, lengths, differ⟩
    exact ⟨by simp [lengths], by simpa using differ⟩
  rw [content, Bool.and_eq_true, decide_eq_true_iff]
  constructor
  · intro agrees differ
    obtain ⟨lengths, other⟩ := apart differ
    exact other (agrees.mp ⟨lengths, (strEq_iff lengths).mpr (.inr differ)⟩)
  · intro agree
    constructor
    · rintro ⟨lengths, equal⟩
      exact ((strEq_iff lengths).mp equal).resolve_right agree
    · rintro rfl
      exact ⟨rfl, (strEq_iff rfl).mpr (.inl rfl)⟩

end Equality

/-- The strings `"ab"` and `"ac"`. -/
def twoStrings : Mem where
  heap := ⟨[some (.string ⟨1, 2, 3⟩), some (.stringInternal ⟨2, 1⟩), some (.chars [97, 98, 0]),
    some (.string ⟨4, 2, 3⟩), some (.stringInternal ⟨5, 1⟩), some (.chars [97, 99, 0])]⟩
  stats := ⟨6, 0⟩

theorem string_equal_iff_twoStrings :
    ∃ equal, moeStringEqual (some 0) (some 3) twoStrings = .ok (equal, twoStrings) ∧
      ((equal = true ↔ [97, 98].length = [97, 99].length ∧
          ∀ i < [97, 98].length, ([97, 98] : Bytes)[i]? = ([97, 99] : Bytes)[i]?) ↔
        ¬ DifferBehindNul [97, 98] [97, 99]) :=
  string_equal_iff ⟨some [97, 98], 2, Mem.empty, ⟨⟨twoStrings.heap.cells.take 3⟩, ⟨3, 0⟩⟩, rfl, rfl, by decide⟩
    ⟨some [97, 99], 2, ⟨⟨twoStrings.heap.cells.take 3⟩, ⟨3, 0⟩⟩, twoStrings, rfl, rfl, by decide⟩

/-- `"a\0b"` and `"a\0c"` of length 3 are equal to it. -/
theorem string_equal_stops_at_nul :
    ∃ a a' m m', moeStringAlloc (some [97, 0, 98]) 3 Mem.empty = .ok (a, m) ∧
      moeStringAlloc (some [97, 0, 99]) 3 m = .ok (a', m') ∧
      moeStringEqual (some a) (some a') m' = .ok (true, m') ∧
      ¬ ∀ i < 3, ([97, 0, 98] : Bytes)[i]? = ([97, 0, 99] : Bytes)[i]? :=
  ⟨0, 3, _, _, rfl, rfl, rfl, by decide⟩

end MoeToolchain
