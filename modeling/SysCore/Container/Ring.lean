import Mathlib.Data.List.Range
import Mathlib.Data.Nat.ModEq
import Mathlib.Logic.Function.Basic

/-!
# Ring buffers with one cell kept free

A ring of `n` cells holds the elements from the back index up to the front
index, wrapping at `n`.  The ring is empty when the indices agree and full when
the cell behind the front is the back, so at most `n - 1` cells are in use.
-/

namespace SysCore.Container

open List

universe u

variable {α : Type u} {n : Nat} {back front : Nat}

def ringSize (n back front : Nat) : Nat :=
  if back ≤ front then front - back else front + n - back

def ringContents (n : Nat) (cells : Nat → α) (back front : Nat) : List α :=
  (List.range (ringSize n back front)).map fun offset => cells ((back + offset) % n)

@[simp]
theorem length_ringContents (cells : Nat → α) (back front : Nat) :
    (ringContents n cells back front).length = ringSize n back front := by
  simp [ringContents]

@[simp]
theorem ringContents_self (cells : Nat → α) (index : Nat) :
    ringContents n cells index index = [] := by
  simp [ringContents, ringSize]

theorem ringSize_lt (back_lt : back < n) (front_lt : front < n) : ringSize n back front < n := by
  unfold ringSize
  split <;> omega

theorem ringContents_eq_nil_iff {cells : Nat → α} {back front : Nat} (back_lt : back < n) :
    ringContents n cells back front = [] ↔ front = back := by
  rw [← length_eq_zero_iff, length_ringContents, ringSize]
  split <;> omega

theorem succ_mod_eq {index : Nat} (index_lt : index < n) :
    (index + 1) % n = if index + 1 = n then 0 else index + 1 := by
  split
  next wraps => rw [wraps, Nat.mod_self]
  next inside => exact Nat.mod_eq_of_lt (by omega)

variable (back_lt : back < n)
include back_lt

variable (front_lt : front < n)
include front_lt

theorem add_ringSize_mod : (back + ringSize n back front) % n = front := by
  unfold ringSize
  split
  next ordered => rw [Nat.add_sub_cancel' ordered, Nat.mod_eq_of_lt front_lt]
  next wrapped =>
    have shifted : back + (front + n - back) = front + n := by omega
    rw [shifted, Nat.add_mod_right, Nat.mod_eq_of_lt front_lt]

theorem succ_mod_eq_back_iff : (front + 1) % n = back ↔ ringSize n back front + 1 = n := by
  rw [succ_mod_eq front_lt]
  unfold ringSize
  split_ifs <;> omega

theorem ringSize_push (notFull : (front + 1) % n ≠ back) :
    ringSize n back ((front + 1) % n) = ringSize n back front + 1 := by
  rw [succ_mod_eq front_lt] at notFull ⊢
  unfold ringSize
  split_ifs at notFull ⊢ <;> omega

theorem ringSize_pop (notEmpty : back ≠ front) :
    ringSize n back front = ringSize n ((back + 1) % n) front + 1 := by
  rw [succ_mod_eq back_lt]
  unfold ringSize
  split_ifs <;> omega

theorem ringContents_push {cells : Nat → α} (notFull : (front + 1) % n ≠ back) (element : α) :
    ringContents n (Function.update cells front element) back ((front + 1) % n) =
      ringContents n cells back front ++ [element] := by
  have size_lt := ringSize_lt back_lt front_lt
  have front_eq := add_ringSize_mod back_lt front_lt
  unfold ringContents
  rw [ringSize_push back_lt front_lt notFull, range_succ, map_append]
  congr 1
  · -- an older element lies at another index
    refine map_congr_left fun offset offsetMem => ?_
    have offset_lt := mem_range.1 offsetMem
    refine Function.update_of_ne (fun same => ?_) _ _
    rw [← front_eq] at same
    have offset_eq := Nat.ModEq.add_left_cancel' back same
    rw [Nat.ModEq, Nat.mod_eq_of_lt (by omega), Nat.mod_eq_of_lt size_lt] at offset_eq
    omega
  · simp [front_eq]

theorem ringContents_pop {cells : Nat → α} (notEmpty : back ≠ front) :
    ringContents n cells back front =
      cells back :: ringContents n cells ((back + 1) % n) front := by
  unfold ringContents
  rw [ringSize_pop back_lt front_lt notEmpty, range_succ_eq_map, map_cons]
  simp only [Nat.add_zero, Nat.mod_eq_of_lt back_lt, List.map_map, List.cons.injEq, true_and]
  refine map_congr_left fun offset _ => ?_
  simp only [Function.comp_apply, Nat.mod_add_mod]
  congr 2
  omega

end SysCore.Container
