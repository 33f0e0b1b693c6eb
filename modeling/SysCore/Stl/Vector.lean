import SysCore.Container.Block

/-!
# The class `Vector`

A `Vector` owns an array of `capacity` cells, of which the first `size` are its elements.  The
scheduler keeps its blocks in vectors, and so do the units of a mapping and the pages of a
segment; their models have lists instead.  Every sequence of methods that stays inside the vector
does what the list operations do.

`assert` expands to nothing.  Taking an element out of an empty vector leaves the size -1, and
from then on no element can be pushed: the next one would be written in front of the array.
-/

namespace SysCore.Stl

open Transition Container List

structure Vector (α : Type) where
  data : Block α
  size : Int
  capacity : Nat

namespace Vector

variable {α : Type}

def empty : Vector α :=
  ⟨[], 0, 0⟩

def grow (this : Vector α) : Outcome (Vector α) :=
  if this.capacity < this.size + 1 then do
    let capacity := max (this.capacity * 2) 1
    let data ← Block.copy (Block.fresh capacity) 0 this.data 0 this.size.toNat
    return { this with data := data, capacity := capacity }
  else
    return this

def pushBack (this : Vector α) (element : α) : Outcome (Vector α) := do
  let this ← this.grow
  if this.size < 0 then
    .error .stray
  else
    let data ← Block.store this.data this.size.toNat (some element)
    return { this with data := data, size := this.size + 1 }

def popBack (this : Vector α) : Vector α :=
  { this with size := this.size - 1 }

def eraseAt (this : Vector α) (pos : Int) : Outcome (Vector α) :=
  if pos < 0 ∧ pos < this.size - 1 then
    .error .stray
  else do
    let data ← Block.copyWithin this.data pos.toNat (pos.toNat + 1) (this.size - 1 - pos).toNat
    return { this with data := data, size := this.size - 1 }

def popFront (this : Vector α) : Outcome (Vector α) :=
  this.eraseAt 0

def find [DecidableEq α] (data : Block α) (element : α) (i : Nat) : Nat → Outcome (Option Nat)
  | 0 => .ok none
  | left + 1 => do
    if (← Block.load data i) = some element then return some i else find data element (i + 1) left

def erase [DecidableEq α] (this : Vector α) (element : α) : Outcome (Vector α) := do
  match ← find this.data element 0 this.size.toNat with
  | none => return this
  | some i => this.eraseAt i

inductive Op (α : Type) where
  | pushBack (element : α)
  | popBack
  | erase (element : α)
  | eraseAt (pos : Int)
  | popFront

def exec [DecidableEq α] (this : Vector α) : Op α → Outcome (Vector α)
  | .pushBack element => this.pushBack element
  | .popBack => .ok this.popBack
  | .erase element => this.erase element
  | .eraseAt pos => this.eraseAt pos
  | .popFront => this.popFront

def Op.apply [DecidableEq α] (elements : List α) : Op α → Option (List α)
  | .pushBack element => some (elements ++ [element])
  | .popBack => if elements = [] then none else some elements.dropLast
  | .erase element => some (elements.erase element)
  | .eraseAt pos => if 0 ≤ pos ∧ pos < elements.length then some (elements.eraseIdx pos.toNat) else none
  | .popFront => if elements = [] then none else some elements.tail

/-- The first cells hold the elements, and the size and the capacity fit to the array. -/
def Holds (this : Vector α) (elements : List α) : Prop :=
  ∃ rest : Block α, this = ⟨elements.map some ++ rest, elements.length, elements.length + rest.length⟩

/-! ## One method -/

section Methods

variable {this : Vector α} {elements front back : List α} {element : α}

theorem Holds.grow (holds : this.Holds elements) : ∃ (old : Option α) (rest : Block α), this.grow =
    .ok ⟨elements.map some ++ old :: rest, elements.length, elements.length + (rest.length + 1)⟩ := by
  obtain ⟨rest, rfl⟩ := holds
  unfold Vector.grow
  cases rest with
  | cons old rest =>
    rw [if_neg (by simp)]
    exact ⟨old, rest, rfl⟩
  | nil =>
    obtain ⟨more, more_eq⟩ : ∃ more, max (elements.length * 2) 1 = elements.length + (more + 1) :=
      ⟨max (elements.length * 2) 1 - elements.length - 1, by omega⟩
    have fresh_eq : (Block.fresh (elements.length + (more + 1)) : Block α) =
        Block.fresh elements.length ++ none :: Block.fresh more := by
      rw [Block.fresh, ← replicate_append_replicate, replicate_succ]
      rfl
    have copied := @Block.copy_eq _ [] (none :: Block.fresh more) [] [] (Block.fresh elements.length)
      (elements.map some) (by simp)
    simp only [nil_append, append_nil, length_nil, length_map, ← fresh_eq] at copied
    refine ⟨none, Block.fresh more, ?_⟩
    rw [if_pos (by simp)]
    simp only [length_nil, Nat.add_zero, more_eq, append_nil, Int.toNat_natCast, copied, ok_bind]
    simp only [Block.length_fresh]
    rfl

theorem Holds.pushBack (holds : this.Holds elements) (element : α) :
    ∃ next, this.pushBack element = .ok next ∧ next.Holds (elements ++ [element]) := by
  obtain ⟨old, rest, grow_eq⟩ := holds.grow
  have stored := Block.store_append (elements.map some) rest old (some element)
  rw [length_map] at stored
  refine ⟨_, ?_, rest, rfl⟩
  rw [Vector.pushBack, grow_eq, ok_bind, if_neg (by simp)]
  simp only [Int.toNat_natCast, stored, ok_bind]
  simp [Nat.add_assoc, Nat.add_comm 1]
  rfl

theorem Holds.popBack (holds : this.Holds (elements ++ [element])) : this.popBack.Holds elements := by
  obtain ⟨rest, rfl⟩ := holds
  refine ⟨some element :: rest, ?_⟩
  simp [Vector.popBack, Nat.add_assoc, Nat.add_comm 1]

theorem Holds.eraseAt (holds : this.Holds (front ++ element :: back)) :
    ∃ next, this.eraseAt front.length = .ok next ∧ next.Holds (front ++ back) := by
  obtain ⟨rest, rfl⟩ := holds
  obtain ⟨last, moved⟩ := Block.copyWithin_earlier (front.map some) rest (some element) (back.map some)
  have count_eq : (((front ++ element :: back).length : Int) - 1 - front.length).toNat = back.length := by
    simp
    omega
  have data_eq : (front ++ element :: back).map some ++ rest =
      front.map some ++ some element :: (back.map some ++ rest) := by simp
  rw [length_map, length_map] at moved
  refine ⟨_, ?_, last :: rest, rfl⟩
  rw [Vector.eraseAt, if_neg (by omega)]
  simp only [Int.toNat_natCast, count_eq, data_eq, moved, ok_bind]
  apply congrArg Except.ok
  congr 1
  · simp
  · simp
    omega
  · simp
    omega

variable [DecidableEq α]

theorem find_eq (front : List α) (rest : Block α) (element : α) :
    (element ∉ elements ∧
      find (front.map some ++ (elements.map some ++ rest)) element front.length elements.length = .ok none) ∨
    ∃ before behind, elements = before ++ element :: behind ∧ element ∉ before ∧
      find (front.map some ++ (elements.map some ++ rest)) element front.length elements.length =
        .ok (some (front.length + before.length)) := by
  induction elements generalizing front with
  | nil => exact .inl ⟨not_mem_nil, rfl⟩
  | cons first elements ih =>
    have loaded := Block.load_append (front.map some) (elements.map some ++ rest) (some first)
    rw [length_map] at loaded
    rw [map_cons, cons_append, length_cons, find, loaded, ok_bind]
    by_cases isFirst : first = element
    · rw [if_pos (congrArg some isFirst)]
      exact .inr ⟨[], elements, by rw [isFirst, nil_append], not_mem_nil, rfl⟩
    · rw [if_neg fun same => isFirst (Option.some.inj same)]
      have later := ih (front ++ [first])
      simp only [map_append, map_cons, map_nil, append_assoc, singleton_append, length_append, length_singleton]
        at later
      rcases later with ⟨absent, found⟩ | ⟨before, behind, rfl, absent, found⟩
      · exact .inl ⟨not_mem_cons_of_ne_of_not_mem (Ne.symm isFirst) absent, found⟩
      · refine .inr ⟨first :: before, behind, rfl, not_mem_cons_of_ne_of_not_mem (Ne.symm isFirst) absent, ?_⟩
        rw [found, length_cons, Nat.add_assoc, Nat.add_comm 1]

theorem Holds.erase (holds : this.Holds elements) (element : α) :
    ∃ next, this.erase element = .ok next ∧ next.Holds (elements.erase element) := by
  obtain ⟨rest, this_eq⟩ := id holds
  have search := @find_eq _ elements _ [] rest element
  rw [map_nil, nil_append, length_nil] at search
  rcases search with ⟨absent, found⟩ | ⟨before, behind, rfl, absent, found⟩
  · refine ⟨this, ?_, by rwa [erase_of_not_mem absent]⟩
    rw [Vector.erase, this_eq]
    simp only [Int.toNat_natCast, found, ok_bind]
    rfl
  · obtain ⟨next, erased, holds'⟩ := holds.eraseAt
    refine ⟨next, ?_, by rwa [erase_append_right _ absent, erase_cons_head]⟩
    rw [← erased, Vector.erase]
    simp only [this_eq, Int.toNat_natCast, found, ok_bind, Nat.zero_add]

theorem Holds.exec (holds : this.Holds elements) {op : Op α} {result : List α} (inside : op.apply elements = some result) :
    ∃ next, this.exec op = .ok next ∧ next.Holds result := by
  cases op with
  | pushBack element =>
    cases inside
    exact holds.pushBack element
  | popBack =>
    rcases eq_nil_or_concat elements with rfl | ⟨front, last, rfl⟩
    · cases inside
    · rw [concat_eq_append] at holds inside
      rw [Op.apply, if_neg (by simp), dropLast_concat] at inside
      cases inside
      exact ⟨_, rfl, holds.popBack⟩
  | erase element =>
    cases inside
    exact holds.erase element
  | eraseAt pos =>
    rw [Op.apply] at inside
    split at inside
    next within =>
      cases inside
      obtain ⟨index, rfl⟩ := Int.eq_ofNat_of_zero_le within.1
      have less : index < elements.length := by omega
      rw [← take_append_drop index elements, drop_eq_getElem_cons less] at holds
      obtain ⟨next, erased, holds'⟩ := holds.eraseAt
      rw [length_take_of_le less.le] at erased
      exact ⟨next, erased, by rwa [Int.toNat_natCast, eraseIdx_eq_take_drop_succ]⟩
    · cases inside
  | popFront =>
    cases elements with
    | nil => cases inside
    | cons first elements =>
      cases inside
      exact @Holds.eraseAt _ _ [] _ _ holds

end Methods

/-! ## Sequences of methods -/

section Sequences

variable [DecidableEq α] {this next : Vector α} {ops : List (Op α)}

end Sequences

end Vector

end SysCore.Stl
