import SysCore.Container.Chain
import SysCore.Transition.Outcome
import Mathlib.Data.List.Induction

/-!
# Doubly linked lists

A `List` has pointers to its first and its last node.  Every operation changes the links at
one place; a list that has at most one node is the case in which both pointers are the same.

The nodes are a chain after every sequence of operations, and the chain is the sequence that
the same operations make of an empty one.
-/

namespace SysCore.Stl

open Transition Container Function List

universe u

structure LinkedList (T : Type u) where
  node : Nat → Option (ListNode T)
  start : Option Nat
  end_ : Option Nat

inductive ListOp (T : Type u) where
  | pushBack (newNode : Nat) (data : T)
  | pushFront (newNode : Nat) (data : T)
  | popFront
  | popBack
  | erase (pos : Nat)

namespace LinkedList

variable {T : Type u} {previous next : Option Nat} {fuel : Nat}

def empty : LinkedList T where
  node _ := none
  start := none
  end_ := none

def get (l : LinkedList T) (pos : Nat) : Outcome (ListNode T) :=
  match l.node pos with
  | none => .error .stray
  | some node => .ok node

def put (l : LinkedList T) (pos : Nat) (node : ListNode T) : LinkedList T :=
  { l with node := update l.node pos (some node) }

def setNext (l : LinkedList T) (ptr next : Option Nat) : Outcome (LinkedList T) :=
  match ptr with
  | none => .error .stray
  | some pos => do
    let node ← l.get pos
    return l.put pos { node with next := next }

def setPrevious (l : LinkedList T) (ptr previous : Option Nat) : Outcome (LinkedList T) :=
  match ptr with
  | none => .error .stray
  | some pos => do
    let node ← l.get pos
    return l.put pos { node with previous := previous }

def delete (l : LinkedList T) (ptr : Option Nat) : Outcome (LinkedList T) :=
  match ptr with
  | none => .ok l
  | some pos => do
    let _ ← l.get pos
    return { l with node := update l.node pos none }

def pushBack (l : LinkedList T) (newNode : Nat) (data : T) : Outcome (LinkedList T) :=
  if l.start = none ∧ l.end_ = none then
    .ok { l.put newNode ⟨data, none, none⟩ with start := some newNode, end_ := some newNode }
  else do
    let linked ← (l.put newNode ⟨data, none, l.end_⟩).setNext l.end_ (some newNode)
    return { linked with end_ := some newNode }

def pushFront (l : LinkedList T) (newNode : Nat) (data : T) : Outcome (LinkedList T) :=
  if l.start = none ∧ l.end_ = none then
    .ok { l.put newNode ⟨data, none, none⟩ with start := some newNode, end_ := some newNode }
  else do
    let linked ← (l.put newNode ⟨data, l.start, none⟩).setPrevious l.start (some newNode)
    return { linked with start := some newNode }

def popFront (l : LinkedList T) : Outcome (LinkedList T) :=
  if l.start = l.end_ then
    delete { l with start := none, end_ := none } l.start
  else
    match l.start with
    | none => .error .stray
    | some firstNode => do
      let node ← l.get firstNode
      let unlinked ← setPrevious { l with start := node.next } node.next none
      unlinked.delete (some firstNode)

def popBack (l : LinkedList T) : Outcome (LinkedList T) :=
  if l.start = l.end_ then
    delete { l with start := none, end_ := none } l.start
  else
    match l.end_ with
    | none => .error .stray
    | some lastNode => do
      let node ← l.get lastNode
      let unlinked ← setNext { l with end_ := node.previous } node.previous none
      unlinked.delete (some lastNode)

def skip (l : LinkedList T) (pos : Nat) (node : ListNode T) : LinkedList T :=
  { l with
    start := if l.start = some pos then node.next else l.start
    end_ := if l.end_ = some pos then node.previous else l.end_ }

def linkBefore (l : LinkedList T) (node : ListNode T) : Outcome (LinkedList T) :=
  if node.previous = none then .ok l else l.setNext node.previous node.next

def linkBehind (l : LinkedList T) (node : ListNode T) : Outcome (LinkedList T) :=
  if node.next = none then .ok l else l.setPrevious node.next node.previous

def erase (l : LinkedList T) (pos : Nat) : Outcome (LinkedList T) := do
  let node ← l.get pos
  let before ← (l.skip pos node).linkBefore node
  let node ← before.get pos
  let behind ← before.linkBehind node
  behind.delete (some pos)

def exec (l : LinkedList T) : ListOp T → Outcome (LinkedList T)
  | .pushBack newNode data => l.pushBack newNode data
  | .pushFront newNode data => l.pushFront newNode data
  | .popFront => l.popFront
  | .popBack => l.popBack
  | .erase pos => l.erase pos

def forward (l : LinkedList T) : Nat → Option Nat → Outcome (List (Nat × T))
  | _, none => .ok []
  | 0, some _ => .error .hang
  | fuel + 1, some cnt => do
    let node ← l.get cnt
    let rest ← l.forward fuel node.next
    return (cnt, node.data) :: rest

def backward (l : LinkedList T) : Nat → Option Nat → Outcome (List (Nat × T))
  | _, none => .ok []
  | 0, some _ => .error .hang
  | fuel + 1, some cnt => do
    let node ← l.get cnt
    let rest ← l.backward fuel node.previous
    return (cnt, node.data) :: rest

def Forward (l : LinkedList T) (cells : List (Nat × T)) : Prop :=
  ∃ enough, ∀ fuel, enough ≤ fuel → l.forward fuel l.start = .ok cells

def Backward (l : LinkedList T) (cells : List (Nat × T)) : Prop :=
  ∃ enough, ∀ fuel, enough ≤ fuel → l.backward fuel l.end_ = .ok cells

def Valid (l : LinkedList T) : ListOp T → Prop
  | .pushBack newNode _ => l.node newNode = none
  | .pushFront newNode _ => l.node newNode = none
  | .popFront => True
  | .popBack => True
  | .erase pos => ∃ cells, l.Forward cells ∧ pos ∈ cells.map Prod.fst

def Step (l : LinkedList T) (op : ListOp T) (l' : LinkedList T) : Prop :=
  l.Valid op ∧ l.exec op = .ok l'

def sequence (cells : List (Nat × T)) : ListOp T → List (Nat × T)
  | .pushBack newNode data => cells ++ [(newNode, data)]
  | .pushFront newNode data => (newNode, data) :: cells
  | .popFront => cells.tail
  | .popBack => cells.dropLast
  | .erase pos => cells.filter fun cell => cell.1 ≠ pos

structure Represents (l : LinkedList T) (cells : List (Nat × T)) : Prop where
  start_eq : l.start = headOr cells none
  end_eq : l.end_ = lastOr none cells
  segment : Segment l.node none cells none
  nodup : (cells.map Prod.fst).Nodup

variable {l l' : LinkedList T} {cells front rest : List (Nat × T)} {cell : Nat × T} {pos : Nat} {node : ListNode T}

theorem get_eq (found : l.node pos = some node) : l.get pos = .ok node := by
  unfold get
  rw [found]

theorem setNext_eq (found : l.node pos = some node) (next : Option Nat) :
    l.setNext (some pos) next = .ok (l.put pos { node with next := next }) := by
  rw [setNext, get_eq found]
  rfl

theorem setPrevious_eq (found : l.node pos = some node) (previous : Option Nat) :
    l.setPrevious (some pos) previous = .ok (l.put pos { node with previous := previous }) := by
  rw [setPrevious, get_eq found]
  rfl

theorem delete_eq (found : l.node pos = some node) :
    l.delete (some pos) = .ok { l with node := update l.node pos none } := by
  rw [delete, get_eq found]
  rfl

theorem represents_empty : Represents (empty : LinkedList T) [] :=
  ⟨rfl, rfl, trivial, .nil⟩

/-! ## Traversals -/

theorem forward_eq (segment : Segment l.node previous cells none) (enough : cells.length ≤ fuel) :
    l.forward fuel (headOr cells none) = .ok cells := by
  induction cells generalizing fuel previous with
  | nil => cases fuel <;> rfl
  | cons cell rest ih =>
    obtain ⟨fuel, rfl⟩ : ∃ more, fuel = more + 1 := ⟨fuel - 1, by rw [length_cons] at enough; omega⟩
    rw [headOr, forward, get_eq segment.1, ok_bind, ih segment.2 (Nat.le_of_succ_le_succ enough), ok_bind]
    rfl

theorem backward_eq (segment : Segment l.node none cells next) (enough : cells.length ≤ fuel) :
    l.backward fuel (lastOr none cells) = .ok cells.reverse := by
  induction cells using List.reverseRecOn generalizing fuel next with
  | nil => cases fuel <;> rfl
  | append_singleton front cell ih =>
    rw [length_append, length_singleton] at enough
    obtain ⟨fuel, rfl⟩ : ∃ more, fuel = more + 1 := ⟨fuel - 1, by omega⟩
    rw [lastOr_concat, backward, get_eq segment.node_eq, ok_bind,
      ih (segment_append.1 segment).1 (Nat.le_of_succ_le_succ enough), ok_bind, reverse_append]
    rfl

theorem Forward.unique {first second : List (Nat × T)} (isFirst : l.Forward first) (isSecond : l.Forward second) :
    first = second := by
  obtain ⟨enough, first_eq⟩ := isFirst
  obtain ⟨enough', second_eq⟩ := isSecond
  exact Except.ok.inj ((first_eq _ (Nat.le_max_left enough enough')).symm.trans
    (second_eq _ (Nat.le_max_right enough enough')))

namespace Represents

variable (represents : Represents l cells)
include represents

theorem forward : l.Forward cells :=
  ⟨cells.length, fun _ enough => represents.start_eq ▸ forward_eq represents.segment enough⟩

theorem backward : l.Backward cells.reverse :=
  ⟨cells.length, fun _ enough => represents.end_eq ▸ backward_eq represents.segment enough⟩

theorem not_mem (fresh : l.node pos = none) : pos ∉ cells.map Prod.fst := by
  intro mem
  obtain ⟨node, node_eq⟩ := represents.segment.exists_node mem
  cases fresh.symm.trans node_eq

/-! ## Pushing and popping -/

theorem pushBack {newNode : Nat} (fresh : l.node newNode = none) (data : T) :
    ∃ l', l.pushBack newNode data = .ok l' ∧ Represents l' (cells ++ [(newNode, data)]) := by
  have outside := represents.not_mem fresh
  obtain ⟨start_eq, end_eq, segment, nodup⟩ := represents
  unfold LinkedList.pushBack
  rcases eq_nil_or_concat' cells with rfl | ⟨front, last, rfl⟩
  · rw [if_pos ⟨start_eq, end_eq⟩]
    exact ⟨_, rfl, rfl, rfl, ⟨update_self _ _ _, trivial⟩, nodup_singleton _⟩
  · rw [lastOr_concat] at end_eq
    have notEmpty : ¬ (l.start = none ∧ l.end_ = none) := by simp [end_eq]
    rw [if_neg notEmpty, end_eq]
    have different : last.1 ≠ newNode := by
      rintro rfl
      simp at outside
    have found : (l.put newNode ⟨data, none, some last.1⟩).node last.1 = some ⟨last.2, none, lastOr none front⟩ :=
      (update_of_ne different _ _).trans segment.node_eq
    rw [setNext_eq found, ok_bind]
    refine ⟨_, rfl, ?_, ?_, ?_, ?_⟩
    · rw [headOr_append]
      cases front <;> exact start_eq
    · rw [lastOr_concat]
    · refine segment_append.2 ⟨(segment.update outside _).relink_last nodup _, ?_, trivial⟩
      rw [lastOr_concat]
      exact (update_of_ne different.symm _ _).trans (update_self _ _ _)
    · rw [map_append, nodup_append_comm]
      exact nodup_cons.2 ⟨outside, nodup⟩

theorem pushFront {newNode : Nat} (fresh : l.node newNode = none) (data : T) :
    ∃ l', l.pushFront newNode data = .ok l' ∧ Represents l' ((newNode, data) :: cells) := by
  have outside := represents.not_mem fresh
  obtain ⟨start_eq, end_eq, segment, nodup⟩ := represents
  unfold LinkedList.pushFront
  cases cells with
  | nil =>
    rw [if_pos ⟨start_eq, end_eq⟩]
    exact ⟨_, rfl, rfl, rfl, ⟨update_self _ _ _, trivial⟩, nodup_singleton _⟩
  | cons first rest =>
    have start_eq' : l.start = some first.1 := start_eq
    have notEmpty : ¬ (l.start = none ∧ l.end_ = none) := by simp [start_eq']
    rw [if_neg notEmpty, start_eq']
    have different : first.1 ≠ newNode := by
      rintro rfl
      simp at outside
    have found : (l.put newNode ⟨data, some first.1, none⟩).node first.1 = some ⟨first.2, headOr rest none, none⟩ :=
      (update_of_ne different _ _).trans segment.1
    rw [setPrevious_eq found, ok_bind]
    refine ⟨_, rfl, rfl, end_eq, ⟨?_, (segment.update outside _).relink_first nodup _⟩, nodup_cons.2 ⟨outside, nodup⟩⟩
    exact (update_of_ne different.symm _ _).trans (update_self _ _ _)

theorem pop_short (short : cells.length ≤ 1) :
    ∃ l', delete { l with start := none, end_ := none } l.start = .ok l' ∧ Represents l' [] := by
  cases cells with
  | nil =>
    rw [represents.start_eq]
    exact ⟨_, rfl, rfl, rfl, trivial, .nil⟩
  | cons cell rest =>
    have found : ({ l with start := none, end_ := none } : LinkedList T).node cell.1 = _ := represents.segment.1
    rw [represents.start_eq, headOr, delete_eq found]
    exact ⟨_, rfl, rfl, rfl, trivial, .nil⟩

theorem popFront : ∃ l', l.popFront = .ok l' ∧ Represents l' cells.tail := by
  have ends := headOr_eq_lastOr_iff represents.nodup
  rw [← represents.start_eq, ← represents.end_eq] at ends
  unfold LinkedList.popFront
  by_cases short : cells.length ≤ 1
  · have tail_eq : cells.tail = [] := eq_nil_of_length_eq_zero (by rw [length_tail]; omega)
    rw [if_pos (ends.2 short), tail_eq]
    exact represents.pop_short short
  · rw [if_neg (mt ends.1 short)]
    obtain ⟨start_eq, end_eq, segment, nodup⟩ := represents
    rcases cells with _ | ⟨first, _ | ⟨second, rest⟩⟩
    · exact absurd (Nat.zero_le 1) short
    · exact absurd (Nat.le_refl 1) short
    obtain ⟨apart, nodup'⟩ := nodup_cons.1 nodup
    have different : first.1 ≠ second.1 := by
      intro same
      simp [same] at apart
    rw [start_eq, headOr]
    dsimp only
    rw [get_eq segment.1, ok_bind, headOr]
    dsimp only
    have found : ({ l with start := some second.1 } : LinkedList T).node second.1 = _ := segment.2.1
    rw [setPrevious_eq found, ok_bind, delete_eq ((update_of_ne different _ _).trans segment.1)]
    exact ⟨_, rfl, rfl, end_eq, (segment.2.relink_first nodup' none).update apart _, nodup'⟩

theorem popBack : ∃ l', l.popBack = .ok l' ∧ Represents l' cells.dropLast := by
  have ends := headOr_eq_lastOr_iff represents.nodup
  rw [← represents.start_eq, ← represents.end_eq] at ends
  unfold LinkedList.popBack
  by_cases short : cells.length ≤ 1
  · have init_eq : cells.dropLast = [] := eq_nil_of_length_eq_zero (by rw [length_dropLast]; omega)
    rw [if_pos (ends.2 short), init_eq]
    exact represents.pop_short short
  · rw [if_neg (mt ends.1 short)]
    obtain ⟨start_eq, end_eq, segment, nodup⟩ := represents
    rcases eq_nil_or_concat' cells with rfl | ⟨front, last, rfl⟩
    · exact absurd (Nat.zero_le 1) short
    rcases eq_nil_or_concat' front with rfl | ⟨init, previous, rfl⟩
    · exact absurd (Nat.le_refl 1) short
    have apart : last.1 ∉ (init ++ [previous]).map Prod.fst ∧ ((init ++ [previous]).map Prod.fst).Nodup := by
      rw [map_append, nodup_append_comm] at nodup
      exact nodup_cons.1 nodup
    have different : last.1 ≠ previous.1 := by
      intro same
      simp [same] at apart
    have before := (segment_append.1 segment).1
    rw [end_eq, lastOr_concat]
    dsimp only
    rw [get_eq segment.node_eq, ok_bind, lastOr_concat]
    dsimp only
    have found : ({ l with end_ := some previous.1 } : LinkedList T).node previous.1 = _ := before.node_eq
    rw [setNext_eq found, ok_bind, delete_eq ((update_of_ne different _ _).trans segment.node_eq),
      dropLast_concat]
    refine ⟨_, rfl, ?_, (lastOr_concat none init previous).symm, (before.relink_last apart.2 none).update apart.1 _,
      apart.2⟩
    rw [headOr_append] at start_eq ⊢
    cases init <;> exact start_eq

end Represents

/-! ## Erasing -/

structure Relinked (l l' : LinkedList T) (cells : List (Nat × T)) : Prop where
  start_eq : l'.start = l.start
  end_eq : l'.end_ = l.end_
  outside : ∀ id, id ∉ cells.map Prod.fst → l'.node id = l.node id

theorem Relinked.segment (relinked : Relinked l l' cells) (segment : Segment l.node previous rest next)
    (apart : List.Disjoint (cells.map Prod.fst) (rest.map Prod.fst)) :
    Segment l'.node previous rest next :=
  segment.congr fun id mem => relinked.outside id fun inside => apart inside mem

theorem relinked_put {node : ListNode T} (mem : pos ∈ cells.map Prod.fst) : Relinked l (l.put pos node) cells where
  start_eq := rfl
  end_eq := rfl
  outside id notMem := by
    apply update_of_ne
    rintro rfl
    exact notMem mem

theorem linkBefore_eq {next : Option Nat} (segment : Segment l.node none front next)
    (nodup : (front.map Prod.fst).Nodup) (data : T) (next' : Option Nat) :
    ∃ l', l.linkBefore ⟨data, next', lastOr none front⟩ = .ok l' ∧ Relinked l l' front ∧
      Segment l'.node none front next' := by
  unfold linkBefore
  rcases eq_nil_or_concat' front with rfl | ⟨init, last, rfl⟩
  · exact ⟨l, if_pos rfl, ⟨rfl, rfl, fun _ _ => rfl⟩, trivial⟩
  · rw [lastOr_concat, if_neg (Option.some_ne_none _), setNext_eq segment.node_eq]
    exact ⟨_, rfl, relinked_put (by simp), segment.relink_last nodup next'⟩

theorem linkBehind_eq (segment : Segment l.node previous rest none) (nodup : (rest.map Prod.fst).Nodup)
    (data : T) (previous' : Option Nat) :
    ∃ l', l.linkBehind ⟨data, headOr rest none, previous'⟩ = .ok l' ∧ Relinked l l' rest ∧
      Segment l'.node previous' rest none := by
  unfold linkBehind
  cases rest with
  | nil => exact ⟨l, if_pos rfl, ⟨rfl, rfl, fun _ _ => rfl⟩, trivial⟩
  | cons first rest =>
    rw [headOr, if_neg (Option.some_ne_none _), setPrevious_eq segment.1]
    exact ⟨_, rfl, relinked_put (by simp), segment.relink_first nodup previous'⟩

section Erase

variable (represents : Represents l (front ++ cell :: rest))
include represents

theorem start_skip : (if l.start = some cell.1 then headOr rest none else l.start) = headOr (front ++ rest) none := by
  have nodup := represents.nodup
  rw [represents.start_eq]
  cases front with
  | nil => exact if_pos rfl
  | cons first front =>
    have different : first.1 ≠ cell.1 := by
      intro same
      simp [same] at nodup
    exact if_neg fun same => different (Option.some.inj same)

theorem end_skip : (if l.end_ = some cell.1 then lastOr none front else l.end_) = lastOr none (front ++ rest) := by
  have nodup := represents.nodup
  rw [represents.end_eq]
  rcases eq_nil_or_concat' rest with rfl | ⟨init, last, rfl⟩
  · rw [lastOr_concat, if_pos rfl, append_nil]
  · have different : last.1 ≠ cell.1 := by
      intro same
      rw [map_append, nodup_append'] at nodup
      simp [same] at nodup
    rw [← cons_append, ← append_assoc, ← append_assoc, lastOr_concat, lastOr_concat,
      if_neg fun same => different (Option.some.inj same)]

theorem erase_eq : ∃ l', l.erase cell.1 = .ok l' ∧ Represents l' (front ++ rest) := by
  have start_eq := start_skip represents
  have end_eq := end_skip represents
  obtain ⟨-, -, segment, nodup⟩ := represents
  have found := segment.node_eq
  obtain ⟨segmentFront, -, segmentRest⟩ := segment_append.1 segment
  rw [map_append, map_cons, nodup_middle, nodup_cons, ← map_append] at nodup
  obtain ⟨notMem, nodup⟩ := nodup
  have both := nodup
  rw [map_append] at notMem both
  obtain ⟨notFront, notRest⟩ := not_or.1 (mt mem_append.2 notMem)
  obtain ⟨nodupFront, nodupRest, apart⟩ := nodup_append'.1 both
  unfold erase
  rw [get_eq found, ok_bind]
  obtain ⟨before, before_eq, relinked, segmentFront⟩ := @linkBefore_eq _
    (l.skip cell.1 ⟨cell.2, headOr rest none, lastOr none front⟩) front _ segmentFront nodupFront cell.2
    (headOr rest none)
  obtain ⟨behind, behind_eq, relinked', segmentRest⟩ := linkBehind_eq (relinked.segment segmentRest apart) nodupRest
    cell.2 (lastOr none front)
  have found' : before.node cell.1 = _ := (relinked.outside cell.1 notFront).trans found
  have found'' : behind.node cell.1 = _ := (relinked'.outside cell.1 notRest).trans found'
  rw [before_eq, ok_bind, get_eq found', ok_bind, behind_eq, ok_bind, delete_eq found'']
  refine ⟨_, rfl, ?_, ?_, ?_, nodup⟩
  · exact (relinked'.start_eq.trans relinked.start_eq).trans start_eq
  · exact (relinked'.end_eq.trans relinked.end_eq).trans end_eq
  · apply segment_append.2
    exact ⟨(relinked'.segment segmentFront fun _ inRest inFront => apart inFront inRest).update notFront none, segmentRest.update notRest none⟩

end Erase

theorem Represents.put_data (represents : Represents l (front ++ cell :: rest)) (data : T) :
    Represents (l.put cell.1 ⟨data, headOr rest none, lastOr none front⟩) (front ++ (cell.1, data) :: rest) := by
  obtain ⟨start_eq, end_eq, segment, nodup⟩ := represents
  obtain ⟨before, -, behind⟩ := segment_append.1 segment
  have keys : (front ++ (cell.1, data) :: rest).map Prod.fst = (front ++ cell :: rest).map Prod.fst := by simp
  refine ⟨?_, ?_, ?_, keys ▸ nodup⟩
  · rw [headOr_append] at start_eq ⊢
    exact start_eq
  · rw [lastOr_append] at end_eq ⊢
    exact end_eq
  · rw [map_append, map_cons, nodup_middle, nodup_cons, mem_append, not_or] at nodup
    exact segment_append.2 ⟨before.update nodup.1.1 _, update_self _ _ _, behind.update nodup.1.2 _⟩

/-! ## Runs -/

theorem filter_ne_eq (nodup : ((front ++ cell :: rest).map Prod.fst).Nodup) :
    (front ++ cell :: rest).filter (fun other => other.1 ≠ cell.1) = front ++ rest := by
  rw [map_append, map_cons, nodup_middle, nodup_cons, ← map_append] at nodup
  have kept : ∀ other ∈ front ++ rest, other.1 ≠ cell.1 := fun other mem same =>
    nodup.1 (same ▸ mem_map_of_mem mem)
  rw [filter_append, filter_cons_of_neg (by simp), ← filter_append, filter_eq_self]
  simpa using kept

theorem Represents.exec (represents : Represents l cells) {op : ListOp T} (valid : l.Valid op) :
    ∃ l', l.exec op = .ok l' ∧ Represents l' (sequence cells op) := by
  cases op with
  | pushBack newNode data => exact represents.pushBack valid data
  | pushFront newNode data => exact represents.pushFront valid data
  | popFront => exact represents.popFront
  | popBack => exact represents.popBack
  | erase pos =>
    obtain ⟨seen, isForward, mem⟩ := valid
    rw [isForward.unique represents.forward] at mem
    obtain ⟨cell, cellMem, rfl⟩ := mem_map.1 mem
    obtain ⟨front, rest, rfl⟩ := append_of_mem cellMem
    obtain ⟨l', erase_eq, represents'⟩ := erase_eq represents
    refine ⟨l', erase_eq, ?_⟩
    rwa [sequence, filter_ne_eq represents.nodup]

theorem represents_of_run {ops : List (ListOp T)} (run : Run Step empty ops l) :
    Represents l (ops.foldl sequence []) := by
  apply Run.history (fun ops l => Represents l (ops.foldl sequence [])) _ run represents_empty
  intro ops op source target represents step
  obtain ⟨l', exec_eq, represents'⟩ := represents.exec step.1
  cases exec_eq.symm.trans step.2
  rwa [foldl_append]

end LinkedList

end SysCore.Stl
