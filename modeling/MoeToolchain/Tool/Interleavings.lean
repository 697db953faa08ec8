import MoeToolchain.Lib.Keyed
import MoeToolchain.Tool.LeakDetectors

/-!
# Interleaved logs

`detect_memory_leaks` on logs of any kind: with two allocations of one address, frees of
others, lines that are no events. A line that is an event acts on the entry of its address
(`readLine_event`), so the dictionary is a state with a cell for each address. Therefore
the lines about different addresses can come in any order (`leaks_interleave`).
-/

namespace MoeToolchain
set_option autoImplicit false
open Lib

/-! ## Events -/

/-- What a log says of a block. -/
structure LoggedBlock where
  type : Json
  size : Json
  count : Json

def BlockInfo.block (info : BlockInfo) : LoggedBlock := ⟨info.type, info.size, info.count⟩

/-- The action, the address and the members of a line that has them. -/
def lineFields (line : List Char) : Option (List Char × List Char × List (List Char × Json)) :=
  match Json.loads (strip line) with
  | some (.obj data) =>
    match Json.get data "action" .null, Json.get data "addr" .null with
    | .str action, .str addr => if action = [] ∨ addr = [] then none else some (action, addr, data)
    | _, _ => none
  | _ => none

/-- The event of a line: the key of its address, with the block that is allocated there,
or `none` for a free. -/
def lineEvent (line : List Char) : Option (List Char × Option LoggedBlock) := do
  let (action, addr, data) ← lineFields line
  if isAllocAction action then some (normalizeAddr addr, some (blockInfo action data 0).block)
  else if action = "free".toList then some (normalizeAddr addr, none)
  else none

/-- The events of a log. -/
def logEvents (log : List Char) : List (List Char × Option LoggedBlock) := (splitLines [] log).filterMap lineEvent

/-- The block of an address, if one is outstanding. -/
def blocksOf (allocatedBlocks : AList fun _ : List Char => BlockInfo) (key : List Char) : Option LoggedBlock :=
  (allocatedBlocks.lookup key).map BlockInfo.block

theorem blocksOf_insert (d : AList fun _ : List Char => BlockInfo) (key : List Char) (info : BlockInfo) :
    blocksOf (d.insert key info) = Function.update (blocksOf d) key (some info.block) := by
  funext other
  unfold blocksOf
  by_cases same : other = key
  · rw [same, AList.lookup_insert, Function.update_self, Option.map_some]
  · rw [AList.lookup_insert_ne same, Function.update_of_ne same]

theorem blocksOf_erase (d : AList fun _ : List Char => BlockInfo) (key : List Char) :
    blocksOf (d.erase key) = Function.update (blocksOf d) key none := by
  funext other
  unfold blocksOf
  by_cases same : other = key
  · rw [same, AList.lookup_erase, Function.update_self, Option.map_none]
  · rw [AList.lookup_erase_ne same, Function.update_of_ne same]

/-- The last event of an address counts. -/
def lastEvent (_before event : Option LoggedBlock) : Option LoggedBlock := event

/-- `s'` is what some events make of `s`. -/
structure LeakState.Follows (s : LeakState) (es : List (List Char × Option LoggedBlock)) (s' : LeakState) : Prop where
  blocks : blocksOf s'.allocatedBlocks = es.foldl (actAt lastEvent) (blocksOf s.allocatedBlocks)
  allocations : s'.totalAllocations = s.totalAllocations + es.countP fun e => e.2.isSome
  frees : s'.totalFrees = s.totalFrees + es.countP fun e => e.2.isNone

/-! ## The dictionary as cells -/

section Lines

variable {s s' s'' : LeakState} {es es' : List (List Char × Option LoggedBlock)} {n : Nat} {line : List Char} {lines : List (List Char)}

theorem readLine_fields : s.readLine n line = match lineFields line with
    | none => s
    | some (action, addr, data) => s.event action addr data n := by
  unfold LeakState.readLine lineFields
  by_cases blank : strip line = []
  · have nothing : Json.loads [] = none := rfl
    rw [if_pos blank, blank, nothing]
  · rw [if_neg blank]
    cases Json.loads (strip line) with
    | none => rfl
    | some value =>
      cases value with
      | obj data =>
        simp only
        cases Json.get data "action" .null <;> try rfl
        cases Json.get data "addr" .null <;> try rfl
        simp only
        split <;> rfl
      | _ => rfl

theorem LeakState.Follows.append (first : s.Follows es s') (second : s'.Follows es' s'') : s.Follows (es ++ es') s'' where
  blocks := by rw [second.blocks, first.blocks, List.foldl_append]
  allocations := by rw [second.allocations, first.allocations, List.countP_append, Nat.add_assoc]
  frees := by rw [second.frees, first.frees, List.countP_append, Nat.add_assoc]

/-- The line of an event acts on the entry of its address and on the counts. -/
theorem readLine_event {e : List Char × Option LoggedBlock} (read : lineEvent line = some e) :
    s.Follows [e] (s.readLine n line) := by
  obtain ⟨⟨action, addr, data⟩, fields, acts⟩ := Option.bind_eq_some_iff.mp read
  rw [readLine_fields, fields]
  simp only at acts ⊢
  by_cases allocates : isAllocAction action = true
  · rw [if_pos allocates] at acts
    cases acts
    rw [event_alloc allocates]
    exact ⟨blocksOf_insert _ _ _, rfl, rfl⟩
  · rw [if_neg allocates] at acts
    by_cases frees : action = "free".toList
    · rw [if_pos frees] at acts
      cases acts
      subst frees
      rw [event_free]
      exact ⟨blocksOf_erase _ _, rfl, rfl⟩
    · rw [if_neg frees] at acts
      cases acts

/-- Any other line changes nothing. -/
theorem readLine_other (other : lineEvent line = none) : s.readLine n line = s := by
  rw [readLine_fields]
  unfold lineEvent at other
  cases fields : lineFields line with
  | none => rfl
  | some found =>
    obtain ⟨action, addr, data⟩ := found
    rw [fields, Option.bind_eq_bind, Option.bind_some] at other
    simp only at other ⊢
    unfold LeakState.event
    split
    · rename_i allocates
      rw [if_pos allocates] at other
      cases other
    · rename_i notAlloc
      rw [if_neg notAlloc] at other
      split
      · rename_i frees
        rw [if_pos frees] at other
        cases other
      · rfl

/-- After some lines, the state is what their events make of it. -/
theorem readLines_events : ∀ {s : LeakState} {n : Nat}, s.Follows (lines.filterMap lineEvent) (s.readLines n lines) := by
  induction lines with
  | nil =>
    intro s n
    exact ⟨rfl, rfl, rfl⟩
  | cons line lines ih =>
    intro s n
    rw [LeakState.readLines]
    cases read : lineEvent line with
    | none =>
      rw [readLine_other read, List.filterMap_cons_none read]
      exact ih
    | some e =>
      rw [List.filterMap_cons_some read]
      exact (readLine_event read).append ih

end Lines

/-! ## The report -/

section Report

variable {d d' : AList fun _ : List Char => BlockInfo}

/-- What a block adds to the total, unless that raises. -/
def LoggedBlock.cost (b : LoggedBlock) : Option Int := do
  let sized ← isTruthy b.size
  let counts ← if sized then isTruthy b.count else pure false
  if counts then
    let size ← factor b.size
    let count ← factor b.count
    pure (size * count)
  else pure 0

def addCost (cost total : Option Int) : Option Int := do
  let c ← cost
  let t ← total
  pure (c + t)

instance : LeftCommutative addCost where
  left_comm a b c := by
    cases a <;> cases b <;> cases c <;> simp [addCost, Int.add_left_comm]

theorem add_total (report : LeakReport) (addr : List Char) (info : BlockInfo) :
    (report.add addr info).map LeakReport.totalLeakedBytes = info.block.cost.map (report.totalLeakedBytes + ·) := by
  obtain ⟨type, size, count, line⟩ := info
  unfold LeakReport.add BlockInfo.counts LoggedBlock.cost BlockInfo.block
  cases isTruthy size with
  | none => rfl
  | some sized =>
    cases sized with
    | false => simp
    | true =>
      cases isTruthy count with
      | none => rfl
      | some counts =>
        cases counts with
        | false => simp
        | true => cases factor size <;> cases factor count <;> rfl

/-- The total of the report is the sum of the costs. -/
theorem report_total (entries : List (Sigma fun _ : List Char => BlockInfo)) : ∀ report : LeakReport,
    (entries.foldlM (fun (report : LeakReport) entry => report.add entry.1 entry.2) report).map LeakReport.totalLeakedBytes =
      ((entries.map fun e => e.2.block.cost).foldr addCost (some 0)).map (report.totalLeakedBytes + ·) := by
  induction entries with
  | nil =>
    intro report
    simp
  | cons entry entries ih =>
    intro report
    have here := add_total report entry.1 entry.2
    rw [List.foldlM_cons, List.map_cons, List.foldr_cons]
    cases added : report.add entry.1 entry.2 with
    | none =>
      rw [added, Option.map_none] at here
      rw [Option.map_eq_none_iff.mp here.symm]
      rfl
    | some next =>
      rw [added, Option.map_some] at here
      obtain ⟨cost, spent, total⟩ := Option.map_eq_some_iff.mp here.symm
      rw [spent, Option.bind_eq_bind, Option.bind_some, ih, ← total]
      cases (entries.map fun e => e.2.block.cost).foldr addCost (some 0) <;> simp [addCost, Int.add_assoc]

/-- The blocks that are outstanding, with their addresses. -/
def outstanding (d : AList fun _ : List Char => BlockInfo) : List (List Char × LoggedBlock) :=
  d.entries.map fun e => (e.1, e.2.block)

theorem mem_outstanding {key : List Char} {b : LoggedBlock} : (key, b) ∈ outstanding d ↔ blocksOf d key = some b := by
  unfold outstanding blocksOf
  rw [List.mem_map, Option.map_eq_some_iff]
  constructor
  · rintro ⟨⟨key', info⟩, mem, same⟩
    cases same
    exact ⟨info, AList.mem_lookup_iff.mpr mem, rfl⟩
  · rintro ⟨info, found, rfl⟩
    exact ⟨⟨key, info⟩, AList.mem_lookup_iff.mp found, rfl⟩

theorem outstanding_nodup (d : AList fun _ : List Char => BlockInfo) : (outstanding d).Nodup := by
  have keys : (outstanding d).map Prod.fst = d.keys := by
    unfold outstanding
    rw [List.map_map]
    rfl
  exact List.Nodup.of_map Prod.fst (keys ▸ d.keys_nodup)

theorem outstanding_perm (same : blocksOf d = blocksOf d') : (outstanding d).Perm (outstanding d') := by
  rw [List.perm_ext_iff_of_nodup (outstanding_nodup d) (outstanding_nodup d')]
  rintro ⟨key, b⟩
  rw [mem_outstanding, mem_outstanding, same]

end Report

/-! ## Two logs with the same events -/

/-- What is seen of the detector but for the numbers and the order of the lines: the
outstanding blocks, the counts, the verdict and the total. -/
structure SameLeaks (log log' : List Char) : Prop where
  blocks : blocksOf (detectMemoryLeaks log).allocatedBlocks = blocksOf (detectMemoryLeaks log').allocatedBlocks
  allocations : (detectMemoryLeaks log).totalAllocations = (detectMemoryLeaks log').totalAllocations
  frees : (detectMemoryLeaks log).totalFrees = (detectMemoryLeaks log').totalFrees
  verdict : (detectMemoryLeaks log).noLeak = (detectMemoryLeaks log').noLeak
  total : (detectMemoryLeaksReport log).map LeakReport.totalLeakedBytes =
    (detectMemoryLeaksReport log').map LeakReport.totalLeakedBytes

/-- The detector finds the same in any two logs in which each address has the same events
in the same order: however these are interleaved, and whatever lines stand between them. -/
theorem leaks_interleave (log log' : List Char) (same : SameEvents (logEvents log) (logEvents log')) :
    SameLeaks log log' := by
  have here : LeakState.Follows ⟨∅, 0, 0⟩ (logEvents log) (detectMemoryLeaks log) := readLines_events
  have there : LeakState.Follows ⟨∅, 0, 0⟩ (logEvents log') (detectMemoryLeaks log') := readLines_events
  have blocks : blocksOf (detectMemoryLeaks log).allocatedBlocks = blocksOf (detectMemoryLeaks log').allocatedBlocks := by
    rw [here.blocks, there.blocks, same.foldl]
  have perm := outstanding_perm blocks
  refine ⟨blocks, ?_, ?_, ?_, ?_⟩
  · rw [here.allocations, there.allocations, same.perm.countP_eq]
  · rw [here.frees, there.frees, same.perm.countP_eq]
  · have length := perm.length_eq
    unfold outstanding at length
    rw [List.length_map, List.length_map] at length
    rw [LeakState.noLeak, LeakState.noLeak, Bool.eq_iff_iff, List.isEmpty_iff_length_eq_zero, List.isEmpty_iff_length_eq_zero,
      length]
  · have costs := (perm.map fun e => e.2.cost).foldr_eq (some 0) (f := addCost)
    unfold outstanding at costs
    rw [List.map_map, List.map_map] at costs
    rw [detectMemoryLeaksReport, detectMemoryLeaksReport, LeakState.report, LeakState.report, report_total, report_total]
    exact congrArg _ costs

/-! ### The lines of `moe_alloc.h` -/

section Lines

variable {e : Json.Entry} {es : List Json.Entry} {action addr : List Char}

theorem lineFields_object (hasAction : Json.get ((e :: es).map Json.Entry.member) "action" .null = .str action)
    (hasAddr : Json.get ((e :: es).map Json.Entry.member) "addr" .null = .str addr) (some_ : action ≠ [] ∧ addr ≠ []) :
    lineFields (Json.writeObject e es) = some (action, addr, (e :: es).map Json.Entry.member) := by
  have present : ¬ (action = [] ∨ addr = []) := not_or.mpr some_
  rw [lineFields, strip_writeObject, Json.loads_write]
  simp only [hasAction, hasAddr, if_neg present]

theorem lineEvent_alloc (type : TypeName) (size : Nat) (p : Ptr) :
    lineEvent (moeAllocLine type size p) = some (addrKey p, some ⟨.str type.text, .int size, .int 1⟩) := by
  rw [moeAllocLine_eq, lineEvent, lineFields_object rfl rfl ⟨by decide, pointerText_ne_nil p⟩]
  rfl

theorem lineEvent_range (type : TypeName) (size count : Nat) (p : Ptr) :
    lineEvent (moeAllocRangeLine type size count p) =
      some (addrKey p, some ⟨.str type.text, .int size, .int count⟩) := by
  rw [moeAllocRangeLine_eq, lineEvent, lineFields_object rfl rfl ⟨by decide, pointerText_ne_nil p⟩]
  rfl

theorem lineEvent_free (p : Ptr) : lineEvent (moeFreeLine p) = some (addrKey p, none) := by
  rw [moeFreeLine_eq, lineEvent, lineFields_object rfl rfl ⟨by decide, pointerText_ne_nil p⟩]
  rfl

end Lines

/-- Two blocks, of which one is freed, in two orders. -/
def orderedOps : List AllocOp :=
  [.moeAlloc intName 4 (some 4096), .moeFree (some 4096), .moeAllocRange intName 4 2 (some 8192)]

def shuffledOps : List AllocOp :=
  [.moeAllocRange intName 4 2 (some 8192), .moeAlloc intName 4 (some 4096), .moeFree (some 4096)]

theorem orderedOps_run : AllocRun NotJson ∅ orderedOps (insert 8192 ((insert 4096 ∅ : Finset Addr).erase 4096)) :=
  .cons (.block rfl (by decide)) (.cons (.free rfl (by decide)) (.cons (.block rfl (by decide)) (.nil _)))

theorem shuffledOps_run : AllocRun NotJson ∅ shuffledOps ((insert 4096 (insert 8192 ∅ : Finset Addr)).erase 4096) :=
  .cons (.block rfl (by decide)) (.cons (.block rfl (by decide)) (.cons (.free rfl (by decide)) (.nil _)))

/-- The theorem at these two logs. -/
theorem leaks_interleave_shuffled : SameLeaks (allocLog orderedOps) (allocLog shuffledOps) := by
  refine leaks_interleave _ _ fun key => ?_
  have other : addrKey (some 4096) ≠ addrKey (some 8192) := fun same => absurd (addrKey_inj same) (by decide)
  rw [logEvents, logEvents, splitLines_log orderedOps_run, splitLines_log shuffledOps_run]
  simp only [orderedOps, shuffledOps, List.map_cons, List.map_nil, AllocOp.line, List.filterMap_cons, lineEvent_alloc,
    lineEvent_range, lineEvent_free, List.filterMap_nil, eventsOf_cons]
  by_cases first : addrKey (some 4096) = key
  · subst first
    simp [other.symm]
  · simp [first]

end MoeToolchain
