import Mathlib.Data.List.AList
import MoeToolchain.Common.AllocLog

/-!
# `memleak.py`

The loop of `detect_memory_leaks` over the lines of a log, with the dictionary of the
blocks that are outstanding, and the loop of its report. Messages are left out, and an
exception in the first loop is caught before anything changed, so both show as a line that
changes nothing. One in the report is not caught: there is no result.

`readLine_allocated`, `readLine_freed` and `readLine_noise` say what the lines of
`moe_alloc.h` and the others do, `normalizeAddr_iff` when two addresses have one key.
-/

namespace MoeToolchain
set_option autoImplicit false
open Lib

/-! ## The script -/

/-- What `str.strip` takes off. -/
def isStripped (c : Char) : Bool :=
  (9 ≤ c.toNat && c.toNat ≤ 13) || (28 ≤ c.toNat && c.toNat ≤ 32) || c.toNat == 0x85 || c.toNat == 0xA0 ||
    c.toNat == 0x1680 || (0x2000 ≤ c.toNat && c.toNat ≤ 0x200A) || c.toNat == 0x2028 || c.toNat == 0x2029 ||
    c.toNat == 0x202F || c.toNat == 0x205F || c.toNat == 0x3000

def strip (s : List Char) : List Char := ((s.dropWhile isStripped).reverse.dropWhile isStripped).reverse

/-- `for line in f`: the text is split at `\n`, `\r` and `\r\n`; `line` is what was read
of the current line, reversed. -/
def splitLines (line : List Char) : List Char → List (List Char)
  | [] => if line = [] then [] else [line.reverse]
  | '\r' :: '\n' :: rest => line.reverse :: splitLines [] rest
  | c :: rest => if c = '\n' ∨ c = '\r' then line.reverse :: splitLines [] rest else splitLines (c :: line) rest

/-- `addr.lstrip('0x').lower()`, for addresses of ASCII characters. -/
def normalizeAddr (addr : List Char) : List Char := (addr.dropWhile fun c => c = '0' || c = 'x').map Char.toLower

/-- An entry of `allocated_blocks`. -/
structure BlockInfo where
  type : Json
  size : Json
  count : Json
  line : Nat

/-- The variables of `detect_memory_leaks`. -/
structure LeakState where
  allocatedBlocks : AList fun _ : List Char => BlockInfo
  totalAllocations : Nat
  totalFrees : Nat

/-- `action in ['alloc', 'calloc', 'alloc_array']` -/
def isAllocAction (action : List Char) : Bool :=
  action = "alloc".toList || action = "calloc".toList || action = "alloc_array".toList

/-- What a block is recorded with. -/
def blockInfo (action : List Char) (data : List (List Char × Json)) (lineNumber : Nat) : BlockInfo where
  type := Json.get data "type" .null
  size := if action = "alloc_array".toList then Json.get data "element_size" .null else Json.get data "size" .null
  count := Json.get data "count" (.int 1)
  line := lineNumber

/-- An event with an action and an address. -/
def LeakState.event (s : LeakState) (action addr : List Char) (data : List (List Char × Json)) (lineNumber : Nat) :
    LeakState :=
  if isAllocAction action then
    { s with
      allocatedBlocks := s.allocatedBlocks.insert (normalizeAddr addr) (blockInfo action data lineNumber)
      totalAllocations := s.totalAllocations + 1 }
  else if action = "free".toList then
    { s with
      allocatedBlocks := s.allocatedBlocks.erase (normalizeAddr addr)
      totalFrees := s.totalFrees + 1 }
  else s

/-- One turn of the loop. Where `action` or `addr` is missing, empty or no string, the
line is skipped, or it raises, or its action is not supported. -/
def LeakState.readLine (s : LeakState) (lineNumber : Nat) (line : List Char) : LeakState :=
  if strip line = [] then s
  else
    match Json.loads (strip line) with
    | some (.obj data) =>
      match Json.get data "action" .null, Json.get data "addr" .null with
      | .str action, .str addr => if action = [] ∨ addr = [] then s else s.event action addr data lineNumber
      | _, _ => s
    | _ => s

def LeakState.readLines (s : LeakState) : Nat → List (List Char) → LeakState
  | _, [] => s
  | lineNumber, line :: lines => (s.readLine lineNumber line).readLines (lineNumber + 1) lines

/-- `detect_memory_leaks` up to the report. -/
def detectMemoryLeaks (log : List Char) : LeakState :=
  LeakState.readLines ⟨∅, 0, 0⟩ 1 (splitLines [] log)

/-- `if allocated_blocks` fails: no block is outstanding. -/
def LeakState.noLeak (s : LeakState) : Bool := s.allocatedBlocks.entries.isEmpty

/-! ## The report -/

/-- `bool(value)`. Floating point numbers are left out. -/
def isTruthy : Json → Option Bool
  | .null => some false
  | .bool b => some b
  | .int n => some (n != 0)
  | .real _ => none
  | .str text => some (text != [])
  | .arr items => some !items.isEmpty
  | .obj members => some !members.isEmpty

/-- A value as a factor of a number. A product with any other is no number, and adding it
to `total_leaked_bytes` raises; floating point numbers are left out. -/
def factor : Json → Option Int
  | .int n => some n
  | .bool b => some b.toInt
  | _ => none

/-- What `detect_memory_leaks` returns. -/
structure LeakReport where
  totalLeakedBytes : Int
  leakedBlocksInfo : AList fun _ : List Char => BlockInfo

/-- `info.get('size') and info.get('count')` -/
def BlockInfo.counts (info : BlockInfo) : Option Bool := do
  if ← isTruthy info.size then isTruthy info.count else pure false

/-- One turn of the loop over `allocated_blocks.items()`. -/
def LeakReport.add (report : LeakReport) (addr : List Char) (info : BlockInfo) : Option LeakReport := do
  if ← info.counts then
    let size ← factor info.size
    let count ← factor info.count
    pure ⟨report.totalLeakedBytes + size * count, report.leakedBlocksInfo.insert addr info⟩
  else pure report

/-- The loop. The order of the entries shows in the messages only. -/
def LeakState.report (s : LeakState) : Option LeakReport :=
  s.allocatedBlocks.entries.foldlM (fun report entry => report.add entry.1 entry.2) ⟨0, ∅⟩

/-- `detect_memory_leaks` -/
def detectMemoryLeaksReport (log : List Char) : Option LeakReport := (detectMemoryLeaks log).report

/-! ## Addresses in hexadecimal -/

/-- The number that hexadecimal digits are. -/
def hexNumber (s : List Char) : Option Nat :=
  (s.mapM Json.hexValue).map fun digits => Nat.ofDigits 16 digits.reverse

theorem hexValue_digit {c : Char} {d : Nat} (digit : Json.hexValue c = some d) :
    d < 16 ∧ c.toLower = d.digitChar ∧ c ≠ 'x' ∧ (c = '0' ↔ d = 0) := by
  have all : ∀ k < 128, ∀ d ∈ Json.hexValue (Char.ofNat k), d < 16 ∧ (Char.ofNat k).toLower = d.digitChar ∧
      Char.ofNat k ≠ 'x' ∧ (Char.ofNat k = '0' ↔ d = 0) := by decide
  have small : c.toNat < 128 := by
    unfold Json.hexValue at digit
    split_ifs at digit with decimal lower upper
    · simp only [Char.isDigit, Bool.and_eq_true, decide_eq_true_eq, UInt32.le_iff_toNat_le] at decimal
      exact Nat.lt_of_le_of_lt decimal.2 (by decide)
    · exact Nat.lt_of_le_of_lt (UInt32.le_iff_toNat_le.mp lower.2) (by decide)
    · exact Nat.lt_of_le_of_lt (UInt32.le_iff_toNat_le.mp upper.2) (by decide)
  have digit' := all c.toNat small
  rw [Char.ofNat_toNat] at digit'
  exact digit' d digit

section Hex

variable {s t : List Char} {digits : List Nat} {m n : Nat}

theorem hexDigits_cons {c : Char} (read : (c :: s).mapM Json.hexValue = some digits) :
    ∃ d, Json.hexValue c = some d ∧ ∃ ds, s.mapM Json.hexValue = some ds ∧ d :: ds = digits := by
  simpa [List.mapM_cons, Option.bind_eq_some_iff] using read

theorem hexDigits_lower (read : s.mapM Json.hexValue = some digits) :
    (∀ d ∈ digits, d < 16) ∧ s.map Char.toLower = digits.map Nat.digitChar := by
  induction s generalizing digits with
  | nil =>
    cases read
    simp
  | cons c s ih =>
    obtain ⟨d, digit, ds, rest, rfl⟩ := hexDigits_cons read
    obtain ⟨small, lower, -, -⟩ := hexValue_digit digit
    obtain ⟨range, tail⟩ := ih rest
    exact ⟨List.forall_mem_cons.mpr ⟨small, range⟩, by rw [List.map_cons, lower, tail, List.map_cons]⟩

/-- `lstrip` takes off the zeros, and no digit is an `x`. -/
theorem hexDigits_lstrip (read : s.mapM Json.hexValue = some digits) :
    (s.dropWhile fun c => c = '0' || c = 'x').mapM Json.hexValue = some (digits.dropWhile (· = 0)) := by
  induction s generalizing digits with
  | nil =>
    cases read
    rfl
  | cons c s ih =>
    obtain ⟨d, digit, ds, rest, rfl⟩ := hexDigits_cons read
    obtain ⟨-, -, notX, zero⟩ := hexValue_digit digit
    by_cases leading : d = 0
    · rw [List.dropWhile_cons_of_pos (by simp [zero.mpr leading]), List.dropWhile_cons_of_pos (by simp [leading])]
      exact ih rest
    · rw [List.dropWhile_cons_of_neg (by simp [leading, zero, notX]), List.dropWhile_cons_of_neg (by simp [leading])]
      exact read

/-- The key of an address has its digits, without leading zeros. -/
theorem normalizeAddr_hex (read : s.mapM Json.hexValue = some digits) :
    normalizeAddr ("0x".toList ++ s) = (digits.dropWhile (· = 0)).map Nat.digitChar :=
  (hexDigits_lower (hexDigits_lstrip read)).2

/-- Two addresses have the same key where they are the same number. -/
theorem normalizeAddr_iff (first : hexNumber s = some m) (second : hexNumber t = some n) :
    normalizeAddr ("0x".toList ++ s) = normalizeAddr ("0x".toList ++ t) ↔ m = n := by
  obtain ⟨ds, readS, rfl⟩ := Option.map_eq_some_iff.mp first
  obtain ⟨es, readT, rfl⟩ := Option.map_eq_some_iff.mp second
  rw [normalizeAddr_hex readS, normalizeAddr_hex readT,
    ofDigits_reverse_inj (by decide) (hexDigits_lower readS).1 (hexDigits_lower readT).1]
  constructor
  · exact map_digitChar_inj (hexDigits_lower (hexDigits_lstrip readS)).1 (hexDigits_lower (hexDigits_lstrip readT)).1
  · exact congrArg _

theorem hexNumber_toDigits (n : Nat) : hexNumber (Nat.toDigits 16 n) = some n := by
  have one : ∀ d < 16, Json.hexValue d.digitChar = some d := by decide
  induction n using Nat.strongRecOn with
  | ind n ih =>
    by_cases small : n < 16
    · rw [Nat.toDigits_of_lt_base small, hexNumber, List.mapM_cons, one n small]
      exact congrArg some Nat.ofDigits_singleton
    · obtain ⟨-, less, split⟩ := toDigits_split (by decide) (Nat.le_of_not_lt small)
      obtain ⟨ds, read, value⟩ := Option.map_eq_some_iff.mp (ih _ less)
      have last := one (n % 16) (Nat.mod_lt n (by decide))
      have all : (Nat.toDigits 16 (n / 16) ++ [(n % 16).digitChar]).mapM Json.hexValue = some (ds ++ [n % 16]) := by
        rw [List.mapM_append, read, List.mapM_cons, last]
        rfl
      rw [split, hexNumber, all, Option.map_some, List.reverse_concat, Nat.ofDigits_cons, value,
        Nat.mod_add_div]

end Hex

/-! ### Keys -/

/-- The key of a pointer in `allocated_blocks`. -/
def addrKey (p : Ptr) : List Char := normalizeAddr (pointerText p)

theorem addrKey_none : addrKey none = "(nil)".toList := by decide

/-- The key of an address has only digits. -/
theorem addrKey_some (a : Addr) : ∀ c ∈ addrKey (some a), ∃ d < 16, c = d.digitChar := by
  obtain ⟨digits, read, -⟩ := Option.map_eq_some_iff.mp (hexNumber_toDigits a)
  have key : addrKey (some a) = (digits.dropWhile (· = 0)).map Nat.digitChar := normalizeAddr_hex read
  intro c mem
  rw [key] at mem
  obtain ⟨d, digit, rfl⟩ := List.mem_map.mp mem
  exact ⟨d, (hexDigits_lower (hexDigits_lstrip read)).1 d digit, rfl⟩

/-- No two pointers have the same key. -/
theorem addrKey_inj {p q : Ptr} (same : addrKey p = addrKey q) : p = q := by
  have other : ∀ a, addrKey (some a) ≠ addrKey none := by
    intro a same
    have first : '(' ∈ addrKey (some a) := by
      rw [same, addrKey_none]
      decide
    have digits : ∀ d < 16, '(' ≠ d.digitChar := by decide
    obtain ⟨d, range, digit⟩ := addrKey_some a _ first
    exact digits d range digit
  cases p with
  | none =>
    cases q with
    | none => rfl
    | some b => exact absurd same.symm (other b)
  | some a =>
    cases q with
    | none => exact absurd same (other a)
    | some b => rw [(normalizeAddr_iff (hexNumber_toDigits a) (hexNumber_toDigits b)).mp same]

/-! ## Lines of a log -/

/-- A line without JSON that is printed as one line. -/
structure NotJson (line : List Char) : Prop where
  oneLine : '\n' ∉ line ∧ '\r' ∉ line
  notJson : Json.loads (strip line) = none

/-- A line that is no object. -/
def NotObject (line : List Char) : Prop := ∀ members, Json.loads (strip line) ≠ some (.obj members)

theorem NotJson.notObject {line : List Char} (other : NotJson line) : NotObject line := by
  intro members read
  rw [other.notJson] at read
  cases read

section Lines

variable {s : LeakState} {op : AllocOp} {p : Ptr} {n : Nat}

theorem splitLines_line {line text : List Char} (oneLine : '\n' ∉ text ∧ '\r' ∉ text) (rest : List Char) :
    splitLines line (text ++ '\n' :: rest) = (line.reverse ++ text) :: splitLines [] rest := by
  induction text generalizing line with
  | nil =>
    rw [List.nil_append, List.append_nil, splitLines.eq_def]
    rfl
  | cons c text ih =>
    simp only [List.mem_cons, not_or] at oneLine
    obtain ⟨⟨notNewline, newline⟩, notReturn, return_⟩ := oneLine
    have ends : ¬ (c = '\n' ∨ c = '\r') := fun same => same.elim (fun h => notNewline h.symm) fun h => notReturn h.symm
    have tail := @ih (c :: line) ⟨newline, return_⟩
    rw [List.cons_append, splitLines.eq_def]
    split
    · rename_i nil
      cases nil
    · rename_i same
      exact absurd (List.cons.inj same).1.symm notReturn
    · rename_i same
      obtain ⟨rfl, rfl⟩ := List.cons.inj same
      rw [if_neg ends, tail]
      simp

theorem strip_writeObject (e : Json.Entry) (es : List Json.Entry) :
    strip (Json.writeObject e es) = Json.writeObject e es := by
  obtain ⟨mid, braces⟩ := Json.writeObject_braces e es
  rw [braces, strip, List.dropWhile_cons_of_neg (by decide), List.reverse_cons, List.reverse_append]
  simp only [List.reverse_cons, List.reverse_nil, List.nil_append, List.cons_append]
  rw [List.dropWhile_cons_of_neg (by decide)]
  simp

/-- What is read of the line as an object. -/
theorem readLine_object {e : Json.Entry} {es : List Json.Entry} {action addr : List Char}
    (hasAction : Json.get ((e :: es).map Json.Entry.member) "action" .null = .str action)
    (hasAddr : Json.get ((e :: es).map Json.Entry.member) "addr" .null = .str addr) (some_ : action ≠ [] ∧ addr ≠ []) :
    s.readLine n (Json.writeObject e es) = s.event action addr ((e :: es).map Json.Entry.member) n := by
  have visible : ¬ Json.writeObject e es = [] := List.cons_ne_nil _ _
  have present : ¬ (action = [] ∨ addr = []) := not_or.mpr some_
  rw [LeakState.readLine, strip_writeObject, if_neg visible, Json.loads_write]
  simp only [hasAction, hasAddr, if_neg present]

theorem readLine_noise {line : List Char} (other : NotObject line) : s.readLine n line = s := by
  unfold LeakState.readLine
  split
  · rfl
  · split
    · rename_i members read
      exact absurd read (other members)
    · rfl

/-! ### The members of the lines -/

theorem plain_pointerText (p : Ptr) : Json.Plain (pointerText p) := by
  cases p with
  | none => decide
  | some a =>
    have digits : ∀ d < 16, 32 ≤ d.digitChar.toNat ∧ d.digitChar ≠ '"' ∧ d.digitChar ≠ '\\' := by decide
    have zero : Json.Plain "0x".toList := by decide
    intro c mem
    obtain first | digit := List.mem_append.mp mem
    · exact zero c first
    · obtain ⟨d, range, rfl⟩ := mem_toDigits (by decide) (by decide) digit
      exact digits d range

theorem pointerText_ne_nil (p : Ptr) : pointerText p ≠ [] := by
  cases p with
  | none => decide
  | some a => exact List.cons_ne_nil _ _

def textEntry (key : String) (text : List Char) (plainKey : Json.Plain key.toList) (plain : Json.Plain text) :
    Json.Entry :=
  ⟨key.toList, Json.quoted text, .str text, plainKey, Json.reads_quoted plain⟩

def sizeEntry (key : String) (n : Nat) (plainKey : Json.Plain key.toList) : Json.Entry :=
  ⟨key.toList, sizeText n, .int n, plainKey, Json.reads_nat n⟩

section Entries

variable {key : String} {text : List Char} {plainKey : Json.Plain key.toList} {plain : Json.Plain text}

theorem textEntry_key : (textEntry key text plainKey plain).key = key.toList := rfl

theorem textEntry_text : (textEntry key text plainKey plain).text = '"' :: (text ++ ['"']) := rfl

theorem sizeEntry_key : (sizeEntry key n plainKey).key = key.toList := rfl

theorem sizeEntry_text : (sizeEntry key n plainKey).text = sizeText n := rfl

end Entries

theorem moeAllocLine_eq (type : TypeName) (size : Nat) (p : Ptr) : moeAllocLine type size p =
    Json.writeObject (textEntry "action" "alloc".toList (by decide) (by decide))
      [textEntry "type" type.text (by decide) type.plain, sizeEntry "size" size (by decide),
        textEntry "addr" (pointerText p) (by decide) (plain_pointerText p)] := by
  unfold moeAllocLine
  simp only [String.reduceToList]
  simp only [Json.writeObject, Json.writeMembers, textEntry_key, textEntry_text, sizeEntry_key, sizeEntry_text,
    String.reduceToList, List.append_assoc, List.cons_append, List.nil_append]

theorem moeAllocRangeLine_eq (type : TypeName) (size count : Nat) (p : Ptr) : moeAllocRangeLine type size count p =
    Json.writeObject (textEntry "action" "calloc".toList (by decide) (by decide))
      [textEntry "type" type.text (by decide) type.plain, sizeEntry "size" size (by decide),
        sizeEntry "count" count (by decide), textEntry "addr" (pointerText p) (by decide) (plain_pointerText p)] := by
  unfold moeAllocRangeLine
  simp only [String.reduceToList]
  simp only [Json.writeObject, Json.writeMembers, textEntry_key, textEntry_text, sizeEntry_key, sizeEntry_text,
    String.reduceToList, List.append_assoc, List.cons_append, List.nil_append]

theorem moeFreeLine_eq (p : Ptr) : moeFreeLine p =
    Json.writeObject (textEntry "action" "free".toList (by decide) (by decide))
      [textEntry "addr" (pointerText p) (by decide) (plain_pointerText p)] := by
  unfold moeFreeLine
  simp only [String.reduceToList]
  simp only [Json.writeObject, Json.writeMembers, textEntry_key, textEntry_text, String.reduceToList, List.append_assoc,
    List.cons_append, List.nil_append]

/-! ### What a line does -/

theorem event_alloc {action addr : List Char} {data : List (List Char × Json)}
    (allocates : isAllocAction action = true) :
    s.event action addr data n =
      { s with
        allocatedBlocks := s.allocatedBlocks.insert (normalizeAddr addr) (blockInfo action data n)
        totalAllocations := s.totalAllocations + 1 } :=
  if_pos allocates

theorem event_free {addr : List Char} {data : List (List Char × Json)} : s.event "free".toList addr data n =
    { s with
      allocatedBlocks := s.allocatedBlocks.erase (normalizeAddr addr)
      totalFrees := s.totalFrees + 1 } := by
  have frees : ¬ isAllocAction "free".toList = true := by decide
  rw [LeakState.event, if_neg frees, if_pos rfl]

/-- What the line of an allocation says, with the number of the line. -/
structure Allocation where
  type : List Char
  size : Nat
  count : Nat
  line : Nat
deriving DecidableEq

def Allocation.info (block : Allocation) : BlockInfo :=
  ⟨.str block.type, .int block.size, .int block.count, block.line⟩

def AllocOp.allocation (lineNumber : Nat) : AllocOp → Option Allocation
  | moeAlloc type size _ => some ⟨type.text, size, 1, lineNumber⟩
  | moeAllocRange type size count _ => some ⟨type.text, size, count, lineNumber⟩
  | _ => none

theorem readLine_allocated (result : op.allocated? = some p) : ∃ block, op.allocation n = some block ∧
    s.readLine n op.line =
      { s with
        allocatedBlocks := s.allocatedBlocks.insert (addrKey p) block.info
        totalAllocations := s.totalAllocations + 1 } := by
  cases op with
  | moeAlloc type size ptr =>
    obtain rfl := Option.some.inj result
    have line := congrArg (s.readLine n) (moeAllocLine_eq type size ptr)
    rw [readLine_object rfl rfl ⟨by decide, pointerText_ne_nil ptr⟩, event_alloc (by decide)] at line
    exact ⟨_, rfl, line⟩
  | moeAllocRange type size count ptr =>
    obtain rfl := Option.some.inj result
    have line := congrArg (s.readLine n) (moeAllocRangeLine_eq type size count ptr)
    rw [readLine_object rfl rfl ⟨by decide, pointerText_ne_nil ptr⟩, event_alloc (by decide)] at line
    exact ⟨_, rfl, line⟩
  | moeFree => cases result
  | print => cases result

theorem readLine_freed (ptr : op.freed? = some p) : s.readLine n op.line =
    { s with
      allocatedBlocks := s.allocatedBlocks.erase (addrKey p)
      totalFrees := s.totalFrees + 1 } := by
  cases op with
  | moeFree ptr' =>
    obtain rfl := Option.some.inj ptr
    have line := congrArg (s.readLine n) (moeFreeLine_eq ptr')
    rw [readLine_object rfl rfl ⟨by decide, pointerText_ne_nil ptr'⟩, event_free] at line
    exact line
  | moeAlloc => cases ptr
  | moeAllocRange => cases ptr
  | print => cases ptr

end Lines

end MoeToolchain
