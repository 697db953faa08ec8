import Mathlib.Algebra.BigOperators.Option
import MoeToolchain.Tool.LeakDetectors

/-!
# The report of `memleak.py`

What the report says of a run, against the blocks that are live at its end: each has a
latest allocation, and `Records` is what the dictionary of the loop has to do with those.
The report itself leaves out every block whose size or count is zero. `leakReport_exact_iff`
is the result, with what two addresses must be to have one key.
-/

namespace MoeToolchain
set_option autoImplicit false
open Lib

/-! ## Latest allocations -/

/-- The latest operation that returned the pointer; the first one prints the line
`lineNumber`. -/
def latestAllocation (p : Ptr) (lineNumber : Nat) : List AllocOp → Option Allocation
  | [] => none
  | op :: ops =>
    (latestAllocation p (lineNumber + 1) ops).or (if op.allocated? = some p then op.allocation lineNumber else none)

def Allocation.bytes (block : Allocation) : Nat := block.size * block.count

/-- The bytes of the latest allocation. -/
def leakedBytes (ops : List AllocOp) (p : Ptr) : Nat :=
  ((latestAllocation p 1 ops).map Allocation.bytes).getD 0

/-- The report is about the live blocks and no others. -/
structure ReportsExactly (ops : List AllocOp) (live : Finset Addr) (report : LeakReport) : Prop where
  keys : ∀ key, key ∈ report.leakedBlocksInfo ↔ ∃ a ∈ live, addrKey (some a) = key
  latest : ∀ a ∈ live, ∃ block, latestAllocation (some a) 1 ops = some block ∧
    report.leakedBlocksInfo.lookup (addrKey (some a)) = some block.info
  total : report.totalLeakedBytes = ∑ a ∈ live, (leakedBytes ops (some a) : Int)

/-- Every live block has bytes, and a `NULL` that is held stands for none. -/
def BytesHeld (ops : List AllocOp) (live : Finset Addr) : Prop :=
  (∀ a ∈ live, leakedBytes ops (some a) ≠ 0) ∧ (nullHeld ops = true → leakedBytes ops none = 0)

instance (ops : List AllocOp) (live : Finset Addr) : Decidable (BytesHeld ops live) :=
  inferInstanceAs (Decidable (_ ∧ _))

/-! ## The dictionary -/

section Runs

variable {live live' : Finset Addr} {op : AllocOp} {ops : List AllocOp} {p : Ptr} {n : Nat} {s : LeakState}

/-- What a line does to the entry of a pointer. -/
theorem lookup_step (other : ∀ line, op = .print line → NotObject line) :
    (s.readLine n op.line).allocatedBlocks.lookup (addrKey p) =
      if op.allocated? = some p then (op.allocation n).map Allocation.info
      else if op.freed? = some p then none else s.allocatedBlocks.lookup (addrKey p) := by
  have apart : ∀ {q : Ptr}, q ≠ p → addrKey p ≠ addrKey q := fun differ same => differ (addrKey_inj same.symm)
  cases result : op.allocated? with
  | some q =>
    obtain ⟨block, first, line⟩ := @readLine_allocated s op q n result
    rw [line, first, freed?_of_allocated result]
    by_cases same : q = p
    · subst same
      simp
    · simp [same, AList.lookup_insert_ne (apart same)]
  | none =>
    cases ptr : op.freed? with
    | some q =>
      rw [readLine_freed ptr]
      by_cases same : q = p
      · subst same
        simp
      · simp [same, AList.lookup_erase_ne (apart same)]
    | none =>
      cases op with
      | print line =>
        have noise := @readLine_noise s n line (other line rfl)
        rw [if_neg (by simp), if_neg (by simp)]
        exact congrArg (·.allocatedBlocks.lookup (addrKey p)) noise
      | moeFree => cases ptr
      | _ => cases result

/-- A pointer that has an entry has that of its latest allocation. -/
theorem lookup_run (run : AllocRun NotObject live ops live')
    (here : addrKey p ∈ (s.readLines n (ops.map AllocOp.line)).allocatedBlocks) :
    (s.readLines n (ops.map AllocOp.line)).allocatedBlocks.lookup (addrKey p) =
      ((latestAllocation p n ops).map Allocation.info).or (s.allocatedBlocks.lookup (addrKey p)) := by
  induction run generalizing s n with
  | nil => rfl
  | @cons _ _ _ op ops step _ ih =>
    have line := @lookup_step op p n s fun line same => (same ▸ step).other
    have rest := ih here
    rw [List.map_cons, LeakState.readLines, rest, latestAllocation, Option.map_or]
    by_cases result : op.allocated? = some p
    · obtain ⟨block, first, -⟩ := @readLine_allocated s op p n result
      rw [if_pos result] at line ⊢
      rw [line, first]
      simp
    · by_cases ptr : op.freed? = some p
      · -- its entry is gone, so there is a later allocation
        rw [if_neg result, if_pos ptr] at line
        rw [line, Option.or_none] at rest
        obtain ⟨info, entry⟩ := Option.isSome_iff_exists.mp (AList.lookup_isSome.mpr here)
        have later := rest.symm.trans entry
        rw [line, if_neg result, later]
        rfl
      · rw [if_neg result, if_neg ptr] at line
        rw [line, if_neg result]
        simp

end Runs

/-! ## The loop of the report -/

section Report

/-- The product of the size and the count. -/
def BlockInfo.bytes (info : BlockInfo) : Int := (factor info.size).getD 0 * (factor info.count).getD 0

theorem info_bytes (block : Allocation) : block.info.bytes = (block.bytes : Int) := (Nat.cast_mul _ _).symm

/-- What one turn of the loop makes of an entry that is new to the report. -/
theorem add_info {report : LeakReport} {addr : List Char} (block : Allocation)
    (fresh : addr ∉ report.leakedBlocksInfo) : ∃ next, report.add addr block.info = some next ∧
      next.totalLeakedBytes = report.totalLeakedBytes + block.info.bytes ∧
      ∀ key info, next.leakedBlocksInfo.lookup key = some info ↔
        report.leakedBlocksInfo.lookup key = some info ∨ key = addr ∧ info = block.info ∧ block.bytes ≠ 0 := by
  obtain ⟨type, size, count, line⟩ := block
  have counts : (Allocation.info ⟨type, size, count, line⟩).counts = some (size != 0 && count != 0) := by
    cases size with
    | zero => rfl
    | succ size => cases count <;> rfl
  rw [info_bytes, LeakReport.add, counts]
  by_cases none_ : size * count = 0
  · have left : ((size != 0) && (count != 0)) = false := by
      rcases Nat.mul_eq_zero.mp none_ with rfl | rfl <;> simp
    rw [left]
    refine ⟨report, rfl, ?_, fun key info => ?_⟩
    · simp [Allocation.bytes, none_]
    · simp [Allocation.bytes, none_]
  · have right : ((size != 0) && (count != 0)) = true := by
      simpa [not_or] using none_
    rw [right]
    refine ⟨_, rfl, by simp [Allocation.bytes], fun key info => ?_⟩
    by_cases same : key = addr
    · subst same
      simp [Allocation.bytes, none_, AList.lookup_eq_none.mpr fresh, eq_comm]
    · simp [same, AList.lookup_insert_ne same]

/-- What the loop makes of entries that are new to the report: all bytes count, and the
entries with bytes are added. -/
theorem fold_report (entries : List (Sigma fun _ : List Char => BlockInfo)) (report : LeakReport)
    (blocks : ∀ entry ∈ entries, ∃ block : Allocation, entry.2 = block.info) (distinct : entries.NodupKeys)
    (fresh : ∀ entry ∈ entries, entry.1 ∉ report.leakedBlocksInfo) :
    ∃ last : LeakReport, entries.foldlM (fun report entry => report.add entry.1 entry.2) report = some last ∧
      last.totalLeakedBytes = report.totalLeakedBytes + (entries.map fun entry => entry.2.bytes).sum ∧
      ∀ key info, last.leakedBlocksInfo.lookup key = some info ↔
        report.leakedBlocksInfo.lookup key = some info ∨ ⟨key, info⟩ ∈ entries ∧ info.bytes ≠ 0 := by
  induction entries generalizing report with
  | nil => exact ⟨report, rfl, by simp, by simp⟩
  | cons entry entries ih =>
    obtain ⟨addr, info⟩ := entry
    obtain ⟨block, rfl⟩ := blocks _ List.mem_cons_self
    obtain ⟨notLater, distinct⟩ := List.nodupKeys_cons.mp distinct
    obtain ⟨next, add, total, found⟩ := add_info block (fresh _ List.mem_cons_self)
    have stillFresh : ∀ entry ∈ entries, entry.1 ∉ next.leakedBlocksInfo := by
      intro entry mem here
      obtain ⟨info, entry_⟩ := Option.isSome_iff_exists.mp (AList.lookup_isSome.mpr here)
      obtain before | ⟨same, -⟩ := (found entry.1 info).mp entry_
      · have old := AList.lookup_isSome.mp (Option.isSome_of_eq_some before)
        exact fresh entry (List.mem_cons_of_mem _ mem) old
      · exact notLater (same ▸ List.mem_keys_of_mem mem)
    obtain ⟨last, run, total', found'⟩ :=
      ih next (fun entry mem => blocks entry (List.mem_cons_of_mem _ mem)) distinct stillFresh
    refine ⟨last, ?_, ?_, fun key info => ?_⟩
    · rw [List.foldlM_cons, add]
      exact run
    · rw [total', total, List.map_cons, List.sum_cons, Int.add_assoc]
    · rw [found' key info, found key info, List.mem_cons]
      have bytes : block.info.bytes ≠ 0 ↔ block.bytes ≠ 0 := by rw [info_bytes, Nat.cast_ne_zero]
      constructor
      · rintro ((before | ⟨rfl, rfl, some_⟩) | ⟨mem, some_⟩)
        · exact .inl before
        · exact .inr ⟨.inl rfl, bytes.mpr some_⟩
        · exact .inr ⟨.inr mem, some_⟩
      · rintro (before | ⟨here | mem, some_⟩)
        · exact .inl (.inl before)
        · cases here
          exact .inl (.inr ⟨rfl, rfl, bytes.mp some_⟩)
        · exact .inr ⟨mem, some_⟩

end Report

/-! ## The report of a run -/

section Exact

variable {live : Finset Addr} {ops : List AllocOp} {p : Ptr} {log : List Char}

/-- The pointers with an entry in the dictionary. -/
def recorded (ops : List AllocOp) (live : Finset Addr) : Finset Ptr :=
  if nullHeld ops = true then Finset.insertNone live else live.map Function.Embedding.some

theorem mem_recorded : p ∈ recorded ops live ↔ (∃ a ∈ live, some a = p) ∨ nullHeld ops = true ∧ none = p := by
  rw [recorded]
  cases p with
  | none => split <;> simp_all
  | some a => split <;> simp

theorem sum_recorded (f : Ptr → Int) : ∑ p ∈ recorded ops live, f p =
    ∑ a ∈ live, f (some a) + if nullHeld ops = true then f none else 0 := by
  rw [recorded]
  split
  · rw [Finset.sum_insertNone, Int.add_comm]
  · rw [Finset.sum_map, Int.add_zero]
    rfl

theorem latest_of_bytes (bytes : leakedBytes ops p ≠ 0) : ∃ block, latestAllocation p 1 ops = some block := by
  cases allocation : latestAllocation p 1 ops with
  | none => simp [leakedBytes, allocation] at bytes
  | some block => exact ⟨block, rfl⟩

/-- What the dictionary of a run holds. -/
theorem entries_run (run : AllocRun NotObject ∅ ops live) (lines : splitLines [] log = ops.map AllocOp.line) :
    (∀ key, key ∈ (detectMemoryLeaks log).allocatedBlocks ↔ ∃ p ∈ recorded ops live, addrKey p = key) ∧
      ∀ p ∈ recorded ops live, (detectMemoryLeaks log).allocatedBlocks.lookup (addrKey p) =
        (latestAllocation p 1 ops).map Allocation.info := by
  have tracks := @tracks_run _ _ _ _ _ 1 tracks_start run
  rw [detectMemoryLeaks, lines]
  have keys : ∀ key, key ∈ (LeakState.readLines ⟨∅, 0, 0⟩ 1 (ops.map AllocOp.line)).allocatedBlocks ↔
      ∃ p ∈ recorded ops live, addrKey p = key := by
    intro key
    rw [tracks key]
    constructor
    · rintro (⟨a, mem, same⟩ | ⟨held, same⟩)
      · exact ⟨some a, mem_recorded.mpr (.inl ⟨a, mem, rfl⟩), same⟩
      · exact ⟨none, mem_recorded.mpr (.inr ⟨held, rfl⟩), same⟩
    · rintro ⟨p, mem, same⟩
      obtain ⟨a, here, rfl⟩ | ⟨held, rfl⟩ := mem_recorded.mp mem
      · exact .inl ⟨a, here, same⟩
      · exact .inr ⟨held, same⟩
  refine ⟨keys, fun p mem => ?_⟩
  rw [lookup_run run ((keys _).mpr ⟨p, mem, rfl⟩)]
  exact Option.or_none

/-- All bytes of the entries. -/
theorem sum_entries {entries : AList fun _ : List Char => BlockInfo}
    (keys : ∀ key, key ∈ entries ↔ ∃ p ∈ recorded ops live, addrKey p = key)
    (latest : ∀ p ∈ recorded ops live, entries.lookup (addrKey p) = (latestAllocation p 1 ops).map Allocation.info) :
    (entries.entries.map fun entry => entry.2.bytes).sum = ∑ p ∈ recorded ops live, (leakedBytes ops p : Int) := by
  let bytesAt : List Char → Int := fun key => ((entries.lookup key).map BlockInfo.bytes).getD 0
  have byKey : (entries.entries.map fun entry => entry.2.bytes) = entries.keys.map bytesAt := by
    rw [AList.keys, List.keys, List.map_map]
    refine List.map_congr_left fun entry mem => ?_
    have found : entries.lookup entry.1 = some entry.2 := AList.mem_lookup_iff.mpr mem
    simp [bytesAt, found]
  have order : entries.keys.Perm ((recorded ops live).toList.map addrKey) := by
    have distinct := (Finset.nodup_toList (recorded ops live)).map fun _ _ => addrKey_inj
    refine (List.perm_ext_iff_of_nodup entries.keys_nodup distinct).mpr fun key => ?_
    rw [← AList.mem_keys, keys key, List.mem_map]
    simp only [Finset.mem_toList]
  have byPointer : ∀ p ∈ recorded ops live, bytesAt (addrKey p) = leakedBytes ops p := by
    intro p mem
    simp only [bytesAt, latest p mem, leakedBytes]
    cases latestAllocation p 1 ops with
    | none => rfl
    | some block => exact info_bytes block
  rw [byKey, (order.map bytesAt).sum_eq, List.map_map, Finset.sum_map_toList]
  exact Finset.sum_congr rfl byPointer

/-- What the report of a run is. -/
theorem report_run (run : AllocRun NotObject ∅ ops live) (lines : splitLines [] log = ops.map AllocOp.line) :
    ∃ report, detectMemoryLeaksReport log = some report ∧
      report.totalLeakedBytes = ∑ p ∈ recorded ops live, (leakedBytes ops p : Int) ∧
      ∀ key info, report.leakedBlocksInfo.lookup key = some info ↔ ∃ p ∈ recorded ops live, addrKey p = key ∧
        ∃ block, latestAllocation p 1 ops = some block ∧ block.info = info ∧ leakedBytes ops p ≠ 0 := by
  obtain ⟨keys, latest⟩ := entries_run run lines
  have blocks : ∀ entry ∈ (detectMemoryLeaks log).allocatedBlocks.entries,
      ∃ p ∈ recorded ops live, addrKey p = entry.1 ∧
        ∃ block, latestAllocation p 1 ops = some block ∧ block.info = entry.2 := by
    intro entry mem
    have found : (detectMemoryLeaks log).allocatedBlocks.lookup entry.1 = some entry.2 := AList.mem_lookup_iff.mpr mem
    obtain ⟨p, here, same⟩ := (keys entry.1).mp (AList.lookup_isSome.mp (Option.isSome_of_eq_some found))
    rw [← same, latest p here] at found
    exact ⟨p, here, same, Option.map_eq_some_iff.mp found⟩
  obtain ⟨report, result, total, found⟩ := fold_report (detectMemoryLeaks log).allocatedBlocks.entries ⟨0, ∅⟩
    (fun entry mem => by
      obtain ⟨-, -, -, block, -, same⟩ := blocks entry mem
      exact ⟨block, same.symm⟩)
    (detectMemoryLeaks log).allocatedBlocks.nodupKeys fun entry _ => by simp
  refine ⟨report, result, ?_, fun key info => ?_⟩
  · rw [total, sum_entries keys latest, Int.zero_add]
  · rw [found key info]
    constructor
    · rintro (nothing | ⟨mem, some_⟩)
      · cases nothing
      · obtain ⟨p, here, same, block, allocation, rfl⟩ := blocks _ mem
        refine ⟨p, here, same, block, allocation, rfl, ?_⟩
        rw [info_bytes, Nat.cast_ne_zero] at some_
        simpa [leakedBytes, allocation] using some_
    · rintro ⟨p, here, rfl, block, allocation, rfl, some_⟩
      refine .inr ⟨AList.mem_lookup_iff.mp ?_, ?_⟩
      · rw [latest p here, allocation]
        rfl
      · rw [info_bytes, Nat.cast_ne_zero]
        simpa [leakedBytes, allocation] using some_

/-! ## The result -/

/-- The report is exact where every live block has bytes, and the keys are those of
numbers. -/
theorem leakReport_exact_iff (run : AllocRun NotObject ∅ ops live)
    (lines : splitLines [] log = ops.map AllocOp.line) :
    ((∃ report, detectMemoryLeaksReport log = some report ∧ ReportsExactly ops live report) ↔ BytesHeld ops live) ∧
      ∀ (s t : List Char) (m n : Nat), hexNumber s = some m → hexNumber t = some n →
        (normalizeAddr ("0x".toList ++ s) = normalizeAddr ("0x".toList ++ t) ↔ m = n) := by
  obtain ⟨report, result, total, found⟩ := report_run run lines
  have shown : ∀ key, key ∈ report.leakedBlocksInfo ↔
      ∃ p ∈ recorded ops live, addrKey p = key ∧ leakedBytes ops p ≠ 0 := by
    intro key
    rw [← AList.lookup_isSome, Option.isSome_iff_exists]
    constructor
    · rintro ⟨info, entry⟩
      obtain ⟨p, here, same, -, -, -, bytes⟩ := (found key info).mp entry
      exact ⟨p, here, same, bytes⟩
    · rintro ⟨p, here, same, bytes⟩
      obtain ⟨block, allocation⟩ := latest_of_bytes bytes
      exact ⟨block.info, (found key _).mpr ⟨p, here, same, block, allocation, rfl, bytes⟩⟩
  refine ⟨⟨?_, fun bytes => ⟨report, result, ?_⟩⟩, fun s t m n => normalizeAddr_iff⟩
  · rintro ⟨report', result', exact_⟩
    obtain rfl := Option.some.inj (result.symm.trans result')
    refine ⟨fun a mem => ?_, fun held => ?_⟩
    · obtain ⟨p, -, same, bytes⟩ := (shown _).mp ((exact_.keys _).mpr ⟨a, mem, rfl⟩)
      exact addrKey_inj same ▸ bytes
    · by_contra bytes
      have here := (shown _).mpr ⟨none, mem_recorded.mpr (.inr ⟨held, rfl⟩), rfl, bytes⟩
      obtain ⟨a, -, same⟩ := (exact_.keys _).mp here
      cases addrKey_inj same
  · obtain ⟨blocks, null⟩ := bytes
    constructor
    · intro key
      rw [shown]
      constructor
      · rintro ⟨p, mem, same, bytes⟩
        obtain ⟨a, here, rfl⟩ | ⟨held, rfl⟩ := mem_recorded.mp mem
        · exact ⟨a, here, same⟩
        · exact absurd (null held) bytes
      · rintro ⟨a, mem, same⟩
        exact ⟨some a, mem_recorded.mpr (.inl ⟨a, mem, rfl⟩), same, blocks a mem⟩
    · intro a mem
      obtain ⟨block, allocation⟩ := latest_of_bytes (blocks a mem)
      exact ⟨block, allocation, (found _ _).mpr
        ⟨some a, mem_recorded.mpr (.inl ⟨a, mem, rfl⟩), rfl, block, allocation, rfl, blocks a mem⟩⟩
    · rw [total, sum_recorded]
      split
      · rename_i held
        rw [null held, Nat.cast_zero, Int.add_zero]
      · rw [Int.add_zero]

end Exact

/-! ### A block that comes back, and one without elements -/

/-- One address for two blocks, and lines that are no objects. -/
def comesBackOps : List AllocOp :=
  [.moeAlloc intName 4 (some 4096), .print "[1]".toList, .moeFree (some 4096), .print "".toList,
    .moeAllocRange intName 4 3 (some 4096)]

theorem comesBack_run : AllocRun NotObject ∅ comesBackOps (insert 4096 ((insert 4096 (∅ : Finset Addr)).erase 4096)) := by
  have array : NotObject "[1]".toList := fun members read => by cases read
  have blank : NotObject "".toList := fun members read => by cases read
  exact .cons (.block rfl (by decide)) (.cons (.print array) (.cons (.free rfl (by decide))
    (.cons (.print blank) (.cons (.block rfl (by decide)) (.nil _)))))

theorem leakReport_exact_iff_comesBack :
    (∃ report, detectMemoryLeaksReport (allocLog comesBackOps) = some report ∧
      ReportsExactly comesBackOps (insert 4096 ((insert 4096 (∅ : Finset Addr)).erase 4096)) report) ∧
      normalizeAddr ("0x".toList ++ "01F".toList) = normalizeAddr ("0x".toList ++ "1f".toList) := by
  have lines : splitLines [] (allocLog comesBackOps) = comesBackOps.map AllocOp.line := by decide +kernel
  have exact_ := leakReport_exact_iff comesBack_run lines
  exact ⟨exact_.1.mpr (by decide +kernel), (exact_.2 _ _ 31 31 (by decide) (by decide)).mpr rfl⟩

/-- An array without elements is never freed, and the report does not have it. -/
theorem emptyRange_left_out : ¬ ∀ (ops : List AllocOp) (live : Finset Addr) (log : List Char),
    AllocRun NotObject ∅ ops live → splitLines [] log = ops.map AllocOp.line →
    ∃ report, detectMemoryLeaksReport log = some report ∧ ReportsExactly ops live report := by
  intro claim
  have run : AllocRun NotObject ∅ [.moeAllocRange intName 4 0 (some 4096)] (insert 4096 ∅) :=
    .cons (.block rfl (by decide)) (.nil _)
  have lines : splitLines [] (allocLog [.moeAllocRange intName 4 0 (some 4096)]) =
      [AllocOp.moeAllocRange intName 4 0 (some 4096)].map AllocOp.line := by decide +kernel
  obtain ⟨report, result, exact_⟩ := claim _ _ _ run lines
  obtain ⟨report', result', -, found⟩ := report_run run lines
  obtain rfl := Option.some.inj (result.symm.trans result')
  obtain ⟨block, -, entry⟩ := exact_.latest 4096 (by decide)
  obtain ⟨p, -, same, -, -, -, bytes⟩ := (found _ _).mp entry
  obtain rfl := addrKey_inj same
  exact bytes (by decide)

end MoeToolchain
