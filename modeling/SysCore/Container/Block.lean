import SysCore.Transition.Outcome

/-!
# Blocks of memory and the copy loop

A block is the memory of one object, cell by cell.  A cell that has not been written
holds no value; copying it is allowed and leaves the copy without a value as well.
Every access outside the block is stray.

The copy loop goes forwards.  Between two blocks it moves the cells as they were; inside
one block a cell that it has written is read again when the regions overlap.
-/

namespace SysCore.Container

open Transition List

universe u

abbrev Block (α : Type u) := List (Option α)

namespace Block

variable {α : Type u} {block : Block α} {pos size : Nat}

def fresh (size : Nat) : Block α :=
  List.replicate size none

def load (block : Block α) (pos : Nat) : Outcome (Option α) :=
  match block[pos]? with
  | some cell => .ok cell
  | none => .error .stray

def store (block : Block α) (pos : Nat) (cell : Option α) : Outcome (Block α) :=
  if pos < block.length then .ok (block.set pos cell) else .error .stray

def copy (target : Block α) (pos : Nat) (source : Block α) (start : Nat) : Nat → Outcome (Block α)
  | 0 => .ok target
  | size + 1 => do
    let cell ← load source start
    let target ← store target pos cell
    copy target (pos + 1) source (start + 1) size

def copyWithin (block : Block α) (pos start : Nat) : Nat → Outcome (Block α)
  | 0 => .ok block
  | size + 1 => do
    let cell ← load block start
    let block ← store block pos cell
    copyWithin block (pos + 1) (start + 1) size

@[simp]
theorem length_fresh (size : Nat) : (fresh size : Block α).length = size :=
  length_replicate

theorem load_eq {cell : Option α} (found : block[pos]? = some cell) : load block pos = .ok cell := by
  unfold load
  rw [found]

theorem store_eq (inside : pos < block.length) (cell : Option α) :
    store block pos cell = .ok (block.set pos cell) :=
  if_pos inside

theorem store_stray (outside : block.length ≤ pos) (cell : Option α) :
    store block pos cell = .error .stray :=
  if_neg (Nat.not_lt.2 outside)

theorem load_append (front rest : Block α) (cell : Option α) :
    load (front ++ cell :: rest) front.length = .ok cell :=
  load_eq (by rw [List.getElem?_append_right (Nat.le_refl _), Nat.sub_self, List.getElem?_cons_zero])

theorem store_append (front rest : Block α) (old cell : Option α) :
    store (front ++ old :: rest) front.length cell = .ok (front ++ cell :: rest) := by
  rw [store_eq (by simp), set_append_right _ _ (Nat.le_refl _), Nat.sub_self, set_cons_zero]

theorem copy_eq (front rest before behind : Block α) {old cells : Block α}
    (length_eq : old.length = cells.length) :
    copy (front ++ (old ++ rest)) front.length (before ++ (cells ++ behind)) before.length cells.length =
      .ok (front ++ (cells ++ rest)) := by
  induction cells generalizing front before old with
  | nil =>
    rw [eq_nil_of_length_eq_zero length_eq]
    rfl
  | cons cell cells ih =>
    cases old with
    | nil => exact absurd length_eq (Nat.succ_ne_zero _).symm
    | cons first old =>
      have later := ih (front ++ [cell]) (before ++ [cell]) (Nat.succ.inj length_eq)
      simp only [length_append, length_singleton, append_assoc, singleton_append] at later
      rw [length_cons, cons_append, cons_append, cons_append, copy, load_append,
        ok_bind, store_append, ok_bind, later]

theorem copyWithin_self (block : Block α) (inside : pos + size ≤ block.length) :
    copyWithin block pos pos size = .ok block := by
  induction size generalizing pos with
  | zero => rfl
  | succ size ih =>
    have less : pos < block.length := by omega
    have found : block[pos]? = some block[pos] := List.getElem?_eq_getElem less
    rw [copyWithin, load_eq found, ok_bind, store_eq less, ok_bind, set_getElem_self, ih (by omega)]

theorem copyWithin_earlier (front rest : Block α) (gap : Option α) (cells : Block α) :
    ∃ last, copyWithin (front ++ gap :: (cells ++ rest)) front.length (front.length + 1) cells.length =
      .ok (front ++ (cells ++ last :: rest)) := by
  induction cells generalizing front gap with
  | nil => exact ⟨gap, rfl⟩
  | cons cell cells ih =>
    obtain ⟨last, later⟩ := ih (front ++ [cell]) cell
    have loaded := load_append (front ++ [gap]) (cells ++ rest) cell
    simp only [length_append, length_singleton, append_assoc, singleton_append] at later loaded
    refine ⟨last, ?_⟩
    rw [length_cons, cons_append, copyWithin, loaded, ok_bind, store_append, ok_bind, later, cons_append]

structure Shifted (block result : Block α) (pos start size : Nat) : Prop where
  length_eq : result.length = block.length
  outside : ∀ index, index < pos ∨ pos + size ≤ index → result[index]? = block[index]?
  inside : ∀ offset, offset < size → result[pos + offset]? = result[start + offset]?

theorem copyWithin_later (block : Block α) {start : Nat} (later : start < pos)
    (within : pos + size ≤ block.length) :
    ∃ result, copyWithin block pos start size = .ok result ∧ Shifted block result pos start size := by
  induction size generalizing block pos start with
  | zero =>
    refine ⟨block, rfl, rfl, fun _ _ => rfl, ?_⟩
    intro offset less
    exact absurd less (Nat.not_lt_zero _)
  | succ size ih =>
    have here : pos < block.length := by omega
    have found : block[start]? = some block[start] := List.getElem?_eq_getElem (by omega)
    obtain ⟨result, copied, shifted⟩ := ih (block.set pos block[start]) (Nat.succ_lt_succ later)
      (by rw [length_set]; omega)
    refine ⟨result, ?_, ?_, ?_, ?_⟩
    · rw [copyWithin, load_eq found, ok_bind, store_eq here, ok_bind, copied]
    · rw [shifted.length_eq, length_set]
    · intro index outside
      rw [shifted.outside index (by omega), List.getElem?_set_ne (by omega)]
    · intro offset less
      cases offset with
      | zero =>
        -- the first cell is written before the rest and not again
        rw [Nat.add_zero, Nat.add_zero, shifted.outside pos (by omega), shifted.outside start (by omega),
          List.getElem?_set_self here, List.getElem?_set_ne (by omega), found]
      | succ offset =>
        have next := shifted.inside offset (Nat.lt_of_succ_lt_succ less)
        rwa [Nat.succ_add_eq_add_succ, Nat.succ_add_eq_add_succ] at next

end Block

end SysCore.Container
