import MoeToolchain.Lib.Heap
import Mathlib.Logic.Function.Basic
import Mathlib.Data.List.Chain

/-!
# Rings of links

A circular doubly linked list is a ring of nodes: a sentinel and the members in
order, each linked both ways to the next and the last one to the sentinel.
`Links` holds the two link fields of every node as functions, `LinkPath k a xs b`
follows them from `a` through `xs` to `b`, and `LinkRing k s xs` is the path from
the sentinel back to itself through distinct nodes.

A ring can be read from any of its nodes (`LinkRing.rotate`), so an edit next to a
member is an edit next to the sentinel of the rotated ring: `insert`, `unlink`
and `substitute` are proved at the sentinel only.
-/

namespace Lib
set_option autoImplicit false

/-- The two link fields of every node. -/
structure Links where
  next : Addr → Option Addr
  prev : Addr → Option Addr

namespace Links

def setNext (k : Links) (a : Addr) (v : Option Addr) : Links :=
  { k with next := Function.update k.next a v }

def setPrev (k : Links) (a : Addr) (v : Option Addr) : Links :=
  { k with prev := Function.update k.prev a v }

@[simp] theorem setNext_prev (k : Links) (a : Addr) (v : Option Addr) :
    (k.setNext a v).prev = k.prev := rfl

@[simp] theorem setPrev_next (k : Links) (a : Addr) (v : Option Addr) :
    (k.setPrev a v).next = k.next := rfl

theorem setNext_next (k : Links) (a c : Addr) (v : Option Addr) :
    (k.setNext a v).next c = if c = a then v else k.next c := by
  simp [setNext, Function.update_apply]

theorem setPrev_prev (k : Links) (a c : Addr) (v : Option Addr) :
    (k.setPrev a v).prev c = if c = a then v else k.prev c := by
  simp [setPrev, Function.update_apply]

end Links

variable {k k' : Links} {a b s m n : Addr} {xs ys zs : List Addr}

/-- The nodes from `a` through `xs` to `b`, linked both ways. -/
def LinkPath (k : Links) : Addr → List Addr → Addr → Prop
  | a, [], b => k.next a = some b ∧ k.prev b = some a
  | a, x :: xs, b => k.next a = some x ∧ k.prev x = some a ∧ LinkPath k x xs b

theorem path_append {y : Addr} :
    LinkPath k a (xs ++ y :: ys) b ↔ LinkPath k a xs y ∧ LinkPath k y ys b := by
  induction xs generalizing a with
  | nil => simp [LinkPath, and_assoc]
  | cons x xs ih => simp [LinkPath, ih, and_assoc]

/-- A path reads `next` of every node but the last and `prev` of every node but
the first. -/
theorem LinkPath.congr (path : LinkPath k a xs b) (next : ∀ x ∈ a :: xs, k'.next x = k.next x)
    (prev : ∀ x ∈ xs ++ [b], k'.prev x = k.prev x) : LinkPath k' a xs b := by
  induction xs generalizing a with
  | nil =>
    exact ⟨(next a (by simp)).trans path.1, (prev b (by simp)).trans path.2⟩
  | cons x xs ih =>
    obtain ⟨forward, backward, rest⟩ := path
    refine ⟨(next a (by simp)).trans forward, (prev x (by simp)).trans backward, ?_⟩
    apply ih rest
    · intro y mem
      exact next y (List.mem_cons_of_mem _ mem)
    · intro y mem
      exact prev y (List.mem_cons_of_mem _ mem)

theorem LinkPath.head (path : LinkPath k a xs b) : k.next a = some (xs.headD b) := by
  cases xs with
  | nil => exact path.1
  | cons x xs => exact path.1

theorem LinkPath.last (path : LinkPath k a xs b) : k.prev b = some (xs.getLastD a) := by
  induction xs generalizing a with
  | nil => exact path.2
  | cons x xs ih =>
    rw [List.getLastD_cons]
    exact ih path.2.2

/-- One link field leads from each node of `xs` to the next, and from the last to `b`. -/
def LeadsTo (field : Addr → Option Addr) (xs : List Addr) (b : Addr) : Prop :=
  List.IsChain (fun x y => field x = some y) (xs ++ [b])

theorem leadsTo_cons {field : Addr → Option Addr} {x : Addr} :
    LeadsTo field (x :: xs) b ↔ field x = some (xs.headD b) ∧ LeadsTo field xs b := by
  have head : (xs ++ [b]).head? = some (xs.headD b) := by cases xs <;> rfl
  rw [LeadsTo, List.cons_append, List.isChain_cons, head]
  simp [LeadsTo]

/-- Only the nodes of `xs` are read. -/
theorem LeadsTo.congr {field field' : Addr → Option Addr} (leads : LeadsTo field xs b)
    (same : ∀ x ∈ xs, field' x = field x) : LeadsTo field' xs b := by
  induction xs with
  | nil => exact List.isChain_singleton b
  | cons x xs ih =>
    obtain ⟨here, rest⟩ := leadsTo_cons.mp leads
    exact leadsTo_cons.mpr ⟨(same x (by simp)).trans here, ih rest fun y mem => same y (List.mem_cons_of_mem _ mem)⟩

theorem LeadsTo.suffix {field : Addr → Option Addr} (leads : LeadsTo field (xs ++ ys) b) : LeadsTo field ys b := by
  induction xs with
  | nil => exact leads
  | cons x xs ih => exact ih (leadsTo_cons.mp leads).2

theorem LinkPath.forward (path : LinkPath k a xs b) : LeadsTo k.next (a :: xs) b := by
  induction xs generalizing a with
  | nil => exact leadsTo_cons.mpr ⟨path.1, List.isChain_singleton b⟩
  | cons x xs ih => exact leadsTo_cons.mpr ⟨path.1, ih path.2.2⟩

/-- Read from its end, a path goes through the reverse. -/
theorem LinkPath.backward (path : LinkPath k a xs b) : LeadsTo k.prev (b :: xs.reverse) a := by
  have chain : List.IsChain (fun x y => k.prev y = some x) (a :: xs ++ [b]) := by
    induction xs generalizing a with
    | nil => exact List.isChain_cons_cons.mpr ⟨path.2, List.isChain_singleton b⟩
    | cons x xs ih => exact List.isChain_cons_cons.mpr ⟨path.2.1, ih path.2.2⟩
  have turned := List.isChain_reverse (R := fun x y => k.prev x = some y).mpr chain
  simpa [LeadsTo] using turned

/-- A circular list: sentinel `s`, members `xs`. -/
structure LinkRing (k : Links) (s : Addr) (xs : List Addr) : Prop where
  path : LinkPath k s xs s
  nodup : (s :: xs).Nodup

theorem ring_nil : LinkRing k s [] ↔ k.next s = some s ∧ k.prev s = some s := by
  constructor
  · rintro ⟨path, -⟩
    exact path
  · intro path
    exact ⟨path, by simp⟩

theorem headD_mem (a : Addr) (xs : List Addr) : xs.headD a ∈ a :: xs := by
  cases xs <;> simp

theorem getLastD_mem (a : Addr) (xs : List Addr) : xs.getLastD a ∈ a :: xs := by
  rcases List.eq_nil_or_concat xs with rfl | ⟨ys, y, rfl⟩ <;> simp

namespace LinkRing

theorem congr (ring : LinkRing k s xs) (next : ∀ x ∈ s :: xs, k'.next x = k.next x)
    (prev : ∀ x ∈ s :: xs, k'.prev x = k.prev x) : LinkRing k' s xs := by
  refine ⟨ring.path.congr next ?_, ring.nodup⟩
  intro x mem
  apply prev
  simpa [or_comm] using mem

theorem head (ring : LinkRing k s xs) : k.next s = some (xs.headD s) := ring.path.head

theorem last (ring : LinkRing k s xs) : k.prev s = some (xs.getLastD s) := ring.path.last

/-- A ring read from one of its members. -/
theorem rotate (ring : LinkRing k s (ys ++ m :: zs)) : LinkRing k m (zs ++ s :: ys) := by
  obtain ⟨before, after⟩ := path_append.mp ring.path
  refine ⟨path_append.mpr ⟨after, before⟩, ?_⟩
  have perm : (s :: (ys ++ m :: zs)).Perm (m :: (zs ++ s :: ys)) := by
    rw [← List.cons_append, ← List.cons_append]
    exact List.perm_append_comm
  exact perm.nodup_iff.mp ring.nodup

/-- Every linked node is the predecessor of its successor and the successor of
its predecessor. -/
theorem linked (ring : LinkRing k s xs) (mem : m ∈ s :: xs) :
    (∃ y ∈ s :: xs, k.next m = some y ∧ k.prev y = some m) ∧
      ∃ y ∈ s :: xs, k.prev m = some y ∧ k.next y = some m := by
  -- read from its own position, `m` is the sentinel
  obtain ⟨cs, turned, same⟩ : ∃ cs, LinkRing k m cs ∧ ∀ x, x ∈ m :: cs ↔ x ∈ s :: xs := by
    rcases List.mem_cons.mp mem with rfl | inside
    · exact ⟨xs, ring, fun _ => Iff.rfl⟩
    · obtain ⟨ys, zs, rfl⟩ := List.append_of_mem inside
      refine ⟨zs ++ s :: ys, ring.rotate, ?_⟩
      intro x
      simp only [List.mem_cons, List.mem_append]
      tauto
  constructor
  · cases cs with
    | nil => exact ⟨m, (same m).mp (by simp), turned.path.1, turned.path.2⟩
    | cons c cs => exact ⟨c, (same c).mp (by simp), turned.path.1, turned.path.2.1⟩
  · rcases List.eq_nil_or_concat cs with rfl | ⟨cs, c, rfl⟩
    · exact ⟨m, (same m).mp (by simp), turned.path.2, turned.path.1⟩
    · rw [List.concat_eq_append] at turned same
      obtain ⟨-, final⟩ := path_append.mp turned.path
      exact ⟨c, (same c).mp (by simp), final.2, final.1⟩

/-- Link `n` in right after the sentinel. -/
theorem insert (ring : LinkRing k s xs) (fresh : n ∉ s :: xs) :
    LinkRing ((((k.setNext s n).setPrev n s).setNext n (xs.headD s)).setPrev (xs.headD s) n)
      s (n :: xs) := by
  have apart : n ≠ s := fun same => fresh (by simp [same])
  have outside : n ∉ xs := fun mem => fresh (List.mem_cons_of_mem _ mem)
  refine ⟨?_, ?_⟩
  · cases xs with
    | nil => simp [LinkPath, Links.setNext_next, Links.setPrev_prev, apart, apart.symm]
    | cons x xs =>
      have ahead : n ≠ x := fun same => outside (by simp [same])
      have distinct := ring.nodup
      simp only [List.nodup_cons, List.mem_cons, not_or] at distinct outside
      refine ⟨?_, ?_, ?_, ?_, ?_⟩
      · simp [Links.setNext_next, apart.symm]
      · simp [Links.setPrev_prev, ahead]
      · simp [Links.setNext_next]
      · simp [Links.setPrev_prev]
      · apply ring.path.2.2.congr
        · intro y mem
          have ne : y ≠ n ∧ y ≠ s := by
            rcases List.mem_cons.mp mem with rfl | mem
            · exact ⟨ahead.symm, fun same => distinct.1.1 same.symm⟩
            · exact ⟨fun same => outside.2 (same ▸ mem), fun same => distinct.1.2 (same ▸ mem)⟩
          simp [Links.setNext_next, ne.1, ne.2]
        · intro y mem
          have ne : y ≠ n ∧ y ≠ x := by
            rcases List.mem_append.mp mem with mem | mem
            · exact ⟨fun same => outside.2 (same ▸ mem), fun same => distinct.2.1 (same ▸ mem)⟩
            · rw [List.mem_singleton.mp mem]
              exact ⟨apart.symm, distinct.1.1⟩
          simp [Links.setPrev_prev, ne.1, ne.2]
  · have distinct := ring.nodup
    simp only [List.nodup_cons, List.mem_cons, not_or] at distinct ⊢
    exact ⟨⟨apart.symm, distinct.1⟩, outside, distinct.2⟩

/-- Unlink the node right after the sentinel. -/
theorem unlink (ring : LinkRing k s (m :: xs)) :
    LinkRing ((k.setNext s (xs.headD s)).setPrev (xs.headD s) s) s xs := by
  have distinct := ring.nodup
  simp only [List.nodup_cons, List.mem_cons, not_or] at distinct
  refine ⟨?_, by simp [distinct.1.2, distinct.2.2]⟩
  obtain ⟨-, -, rest⟩ := ring.path
  cases xs with
  | nil => simp [LinkPath, Links.setNext_next, Links.setPrev_prev]
  | cons x xs =>
    simp only [List.nodup_cons, List.mem_cons, not_or] at distinct
    refine ⟨?_, ?_, ?_⟩
    · simp [Links.setNext_next]
    · simp [Links.setPrev_prev]
    · apply rest.2.2.congr
      · intro y mem
        have ne : y ≠ s := by
          rcases List.mem_cons.mp mem with rfl | mem
          · exact fun same => distinct.1.2.1 same.symm
          · exact fun same => distinct.1.2.2 (same ▸ mem)
        simp [Links.setNext_next, ne]
      · intro y mem
        have ne : y ≠ x := by
          rcases List.mem_append.mp mem with mem | mem
          · exact fun same => distinct.2.2.1 (same ▸ mem)
          · rw [List.mem_singleton.mp mem]
            exact distinct.1.2.1
        simp [Links.setPrev_prev, ne]

/-- Link `n` in right before the sentinel. -/
theorem insert_last (ring : LinkRing k s xs) (fresh : n ∉ s :: xs) :
    LinkRing ((((k.setPrev s n).setPrev n (xs.getLastD s)).setNext n s).setNext (xs.getLastD s) n)
      s (xs ++ [n]) := by
  have apart : s ≠ n := fun same => fresh (by simp [same])
  have lastApart : xs.getLastD s ≠ n := fun same => fresh (same ▸ getLastD_mem s xs)
  -- the ring after an insertion that starts at the last node
  have turned : LinkRing ((((k.setNext (xs.getLastD s) n).setPrev n (xs.getLastD s)).setNext n
      s).setPrev s n) s (xs ++ [n]) := by
    rcases List.eq_nil_or_concat xs with rfl | ⟨ys, y, rfl⟩
    · exact ring.insert fresh
    · rw [List.concat_eq_append] at *
      have atLast : LinkRing k y (s :: ys) := ring.rotate
      have away : n ∉ y :: s :: ys := by
        simp only [List.mem_cons, List.mem_append, not_or] at fresh ⊢
        tauto
      have inserted : LinkRing _ y ([n] ++ s :: ys) := atLast.insert away
      have back := inserted.rotate
      simpa [List.getLastD_concat] using back
  apply turned.congr
  · intro x _
    simp only [Links.setNext_next, Links.setPrev_next]
    split_ifs <;> simp_all
  · intro x _
    simp only [Links.setNext_prev, Links.setPrev_prev]
    split_ifs <;> simp_all

/-- Unlink a member. -/
theorem unlink_member (ring : LinkRing k s (ys ++ m :: zs)) :
    LinkRing ((k.setNext (ys.getLastD s) (zs.headD s)).setPrev (zs.headD s) (ys.getLastD s))
      s (ys ++ zs) := by
  rcases List.eq_nil_or_concat ys with rfl | ⟨ys, y, rfl⟩
  · exact ring.unlink
  · rw [List.concat_eq_append] at *
    rw [List.append_assoc] at ring
    have atLast : LinkRing k y (m :: (zs ++ s :: ys)) := LinkRing.rotate ring
    have unlinked := atLast.unlink
    have back := unlinked.rotate
    have first : (zs ++ s :: ys).headD y = zs.headD s := by cases zs <;> simp
    rw [first] at back
    simpa [List.getLastD_concat] using back

/-- Put `n` in the place of the sentinel. -/
theorem substitute (ring : LinkRing k s xs) (fresh : n ∉ s :: xs) :
    LinkRing ((((k.setNext (xs.getLastD n) n).setPrev n (xs.getLastD n)).setPrev (xs.headD n) n).setNext
      n (xs.headD n)) n xs := by
  have outside : n ∉ xs := fun mem => fresh (List.mem_cons_of_mem _ mem)
  have distinct := ring.nodup
  refine ⟨?_, List.nodup_cons.mpr ⟨outside, (List.nodup_cons.mp distinct).2⟩⟩
  rcases List.eq_nil_or_concat xs with rfl | ⟨ys, y, rfl⟩
  · simp [LinkPath, Links.setNext_next, Links.setPrev_prev]
  · rw [List.concat_eq_append] at *
    have apart : y ≠ n := fun same => outside (by simp [same])
    have inner : LinkPath k s (ys ++ [y]) s := ring.path
    cases ys with
    | nil =>
      simp [LinkPath, Links.setNext_next, Links.setPrev_prev, apart, apart.symm]
    | cons x ys =>
      obtain ⟨-, -, rest⟩ := inner
      obtain ⟨middle, -⟩ := path_append.mp rest
      simp only [List.cons_append, List.mem_cons, List.mem_append, List.nodup_cons,
        List.not_mem_nil, or_false, not_or] at outside distinct
      have splitNodup := List.nodup_append.mp distinct.2.2
      have lastApart : ∀ z ∈ ys, z ≠ y := fun z mem => splitNodup.2.2 z mem y (by simp)
      have chain : LinkPath ((((k.setNext y n).setPrev n y).setPrev x n).setNext n x) n
          ((x :: ys) ++ [y]) n := by
        refine ⟨by simp [Links.setNext_next], by simp [Links.setPrev_prev], ?_⟩
        apply path_append.mpr
        refine ⟨middle.congr ?_ ?_, ?_, ?_⟩
        · intro z mem
          have ne : z ≠ n ∧ z ≠ y := by
            rcases List.mem_cons.mp mem with rfl | mem
            · exact ⟨fun same => outside.1 same.symm, distinct.2.1.2⟩
            · exact ⟨fun same => outside.2.1 (same ▸ mem), lastApart z mem⟩
          simp [Links.setNext_next, ne.1, ne.2]
        · intro z mem
          have ne : z ≠ n ∧ z ≠ x := by
            rcases List.mem_append.mp mem with mem | mem
            · exact ⟨fun same => outside.2.1 (same ▸ mem), fun same => distinct.2.1.1 (same ▸ mem)⟩
            · rw [List.mem_singleton.mp mem]
              exact ⟨apart, fun same => distinct.2.1.2 same.symm⟩
          simp [Links.setPrev_prev, ne.1, ne.2]
        · simp [Links.setNext_next, apart]
        · have ne : n ≠ x := outside.1
          simp [Links.setPrev_prev, ne]
      have final : ((x :: ys) ++ [y]).getLastD n = y := by
        rw [List.getLastD_concat]
      rw [final]
      exact chain

end LinkRing

end Lib
