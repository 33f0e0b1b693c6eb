import Mathlib.Data.List.Nodup

/-!
# Doubly linked chains

A chain is a list of cells, each one at an address, such that the node at the address of a
cell has its data and the addresses of the two cells beside it.  `Segment` says this of a
part of a chain, with the address in front of it and the one behind it.  Two segments that
fit together are a segment, and the links at an end of a segment can be changed on their own.
-/

namespace SysCore.Container

open Function

universe u

structure ListNode (α : Type u) where
  data : α
  next : Option Nat
  previous : Option Nat

variable {α : Type u} {node node' : Nat → Option (ListNode α)} {front rest cells : List (Nat × α)}
  {cell : Nat × α} {previous next : Option Nat}

def headOr : List (Nat × α) → Option Nat → Option Nat
  | [], next => next
  | cell :: _, _ => some cell.1

def lastOr : Option Nat → List (Nat × α) → Option Nat
  | previous, [] => previous
  | _, cell :: rest => lastOr (some cell.1) rest

@[simp]
theorem headOr_append (front rest : List (Nat × α)) (next : Option Nat) :
    headOr (front ++ rest) next = headOr front (headOr rest next) := by
  cases front <;> rfl

@[simp]
theorem lastOr_append (previous : Option Nat) (front rest : List (Nat × α)) :
    lastOr previous (front ++ rest) = lastOr (lastOr previous front) rest := by
  induction front generalizing previous with
  | nil => rfl
  | cons cell front ih => exact ih (some cell.1)

theorem lastOr_concat (previous : Option Nat) (front : List (Nat × α)) (cell : Nat × α) :
    lastOr previous (front ++ [cell]) = some cell.1 :=
  lastOr_append previous front [cell]

theorem headOr_eq_none_iff : headOr cells none = none ↔ lastOr none cells = none := by
  rcases List.eq_nil_or_concat' cells with rfl | ⟨front, cell, rfl⟩
  · exact Iff.rfl
  · rw [lastOr_concat]
    cases front <;> simp [headOr]

theorem headOr_eq_lastOr_iff (nodup : (cells.map Prod.fst).Nodup) :
    headOr cells none = lastOr none cells ↔ cells.length ≤ 1 := by
  cases cells with
  | nil => simp [headOr, lastOr]
  | cons first rest =>
    rcases List.eq_nil_or_concat' rest with rfl | ⟨middle, last, rfl⟩
    · simp [headOr, lastOr]
    · rw [← List.cons_append, lastOr_concat]
      have different : first.1 ≠ last.1 := by
        intro same
        simp [same] at nodup
      simp [headOr, different]

def Segment (node : Nat → Option (ListNode α)) : Option Nat → List (Nat × α) → Option Nat → Prop
  | _, [], _ => True
  | previous, cell :: rest, next =>
    node cell.1 = some ⟨cell.2, headOr rest next, previous⟩ ∧ Segment node (some cell.1) rest next

theorem segment_append : Segment node previous (front ++ rest) next ↔
    Segment node previous front (headOr rest next) ∧ Segment node (lastOr previous front) rest next := by
  induction front generalizing previous with
  | nil => simp [Segment, lastOr]
  | cons cell front ih => rw [List.cons_append, Segment, Segment, ih, headOr_append, and_assoc, lastOr]

theorem Segment.node_eq (segment : Segment node previous (front ++ cell :: rest) next) :
    node cell.1 = some ⟨cell.2, headOr rest next, lastOr previous front⟩ :=
  (segment_append.1 segment).2.1

theorem Segment.exists_node (segment : Segment node previous cells next) {pos : Nat}
    (mem : pos ∈ cells.map Prod.fst) : ∃ cellNode, node pos = some cellNode := by
  obtain ⟨cell, cellMem, rfl⟩ := List.mem_map.1 mem
  obtain ⟨front, rest, rfl⟩ := List.append_of_mem cellMem
  exact ⟨_, segment.node_eq⟩

theorem Segment.congr (segment : Segment node previous cells next)
    (same : ∀ pos ∈ cells.map Prod.fst, node' pos = node pos) : Segment node' previous cells next := by
  induction cells generalizing previous with
  | nil => trivial
  | cons cell rest ih =>
    rw [List.map_cons, List.forall_mem_cons] at same
    exact ⟨same.1.trans segment.1, ih segment.2 same.2⟩

theorem Segment.update (segment : Segment node previous cells next) {pos : Nat} (outside : pos ∉ cells.map Prod.fst)
    (other : Option (ListNode α)) : Segment (Function.update node pos other) previous cells next := by
  apply segment.congr
  intro id mem
  apply update_of_ne
  rintro rfl
  exact outside mem

theorem Segment.relink_first (segment : Segment node previous (cell :: rest) next)
    (nodup : ((cell :: rest).map Prod.fst).Nodup) (previous' : Option Nat) :
    Segment (Function.update node cell.1 (some ⟨cell.2, headOr rest next, previous'⟩)) previous' (cell :: rest)
      next :=
  ⟨update_self _ _ _, segment.2.update (List.nodup_cons.1 nodup).1 _⟩

theorem Segment.relink_last (segment : Segment node previous (front ++ [cell]) next)
    (nodup : ((front ++ [cell]).map Prod.fst).Nodup) (next' : Option Nat) :
    Segment (Function.update node cell.1 (some ⟨cell.2, next', lastOr previous front⟩)) previous (front ++ [cell])
      next' := by
  rw [List.map_append, List.map_singleton, List.nodup_append_comm, List.singleton_append, List.nodup_cons] at nodup
  obtain ⟨before, -⟩ := segment_append.1 segment
  exact segment_append.2 ⟨before.update nodup.1 _, update_self _ _ _, trivial⟩

end SysCore.Container
