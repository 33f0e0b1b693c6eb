import SysCore.Container.Block
import SysCore.Container.CString

/-!
# The class `String`

A `String` owns an array of `_capacity` characters of which the first `_length` are its
content and the next one is a zero.  The operations are modelled with the arrays they
allocate, release and copy, so that an operation whose operands are one object is told
apart from the same operation on two.

Copies, assignments and appends of another string give what the list operations give.  A
concatenation writes behind the array of its result; an assignment of a string to itself
releases the array before it reads it; an append of a string to itself within its capacity
overwrites the zero before it copies it.
-/

namespace SysCore.Stl

open Transition Container List

structure Str where
  capacity : Nat
  length : Nat
  data : Block Char
  deriving DecidableEq

inductive Operand where
  | itself
  | other (str : Str)

namespace Str

def cleared (size : Nat) : Block Char :=
  List.replicate size (some nul)

def empty : Str :=
  ⟨10, 0, cleared 10⟩

def sized (length : Nat) : Str :=
  ⟨length + 1, length, cleared (length + 1)⟩

def ofCStr (memory : List Char) : Outcome Str := do
  let length ← strlen memory
  let data ← Block.copy (Block.fresh (length + 1)) 0 (memory.map some) 0 (length + 1)
  return ⟨length + 1, length, data⟩

def copy (b : Str) : Outcome Str := do
  let data ← Block.copy (Block.fresh (b.length + 1)) 0 b.data 0 (b.length + 1)
  return ⟨b.length + 1, b.length, data⟩

def assign (this : Str) : Operand → Outcome Str
  | .other str => do
    let data ← Block.copy (Block.fresh (str.length + 1)) 0 str.data 0 (str.length + 1)
    return ⟨str.length + 1, str.length, data⟩
  | .itself => do
    let data ← Block.copyWithin (Block.fresh (this.length + 1)) 0 0 (this.length + 1)
    return ⟨this.length + 1, this.length, data⟩

def plus (this b : Str) : Outcome Str := do
  let result := sized (this.length + b.length)
  let data ← Block.copy result.data 0 this.data 0 this.length
  let data ← Block.copy data this.length b.data 0 b.length
  let data ← Block.store data (this.length + b.length + 1) (some nul)
  return { result with data := data }

def deref (this : Str) : Operand → Str
  | .itself => this
  | .other b => b

def append (this : Str) (operand : Operand) : Outcome Str := do
  let b := this.deref operand
  if this.length + b.length + 1 > this.capacity then
    let capacity := max (this.capacity * 2) (this.length + b.length + 1)
    let data ← Block.copy (Block.fresh capacity) 0 this.data 0 this.length
    let data ← Block.copy data this.length b.data 0 (b.length + 1)
    return ⟨capacity, this.length + b.length, data⟩
  else
    let data ← match operand with
      | .other b => Block.copy this.data this.length b.data 0 (b.length + 1)
      | .itself => Block.copyWithin this.data this.length 0 (this.length + 1)
    return { this with length := this.length + b.length, data := data }

def memory (str : Str) : List Char :=
  (str.data.takeWhile Option.isSome).filterMap id

structure Holds (str : Str) (chars : List Char) : Prop where
  array : str.data.length = str.capacity
  bound : str.length < str.capacity
  terminated : str.data[str.length]? = some (some nul)
  content : str.data.take str.length = chars.map some

end Str

/-! ## Operations on one and two strings -/

namespace Str

variable {str this b : Str} {chars more : List Char}

theorem Holds.cells (holds : str.Holds chars) :
    ∃ rest, str.data = chars.map some ++ some nul :: rest ∧ str.length = chars.length := by
  have length_eq : str.length = chars.length := by
    have bound := holds.bound
    have content := congrArg List.length holds.content
    rw [length_take, holds.array, length_map] at content
    omega
  obtain ⟨less, zero⟩ := List.getElem?_eq_some_iff.1 holds.terminated
  refine ⟨str.data.drop (str.length + 1), ?_, length_eq⟩
  rw [← holds.content, ← zero, ← drop_eq_getElem_cons less, take_append_drop]

theorem holds_of_cells {rest : Block Char} (array : str.data.length = str.capacity)
    (data : str.data = chars.map some ++ some nul :: rest) (length_eq : str.length = chars.length) :
    str.Holds chars := by
  have size : (chars.map some).length = str.length := by rw [length_map, length_eq]
  constructor
  · exact array
  · rw [← array, data, length_append, length_cons]
    omega
  · rw [data, ← size, List.getElem?_append_right (Nat.le_refl _), Nat.sub_self, List.getElem?_cons_zero]
  · rw [data, ← size, take_left]

theorem holds_sized (length : Nat) : (sized length).Holds (List.replicate length nul) := by
  apply @holds_of_cells _ _ []
  · exact length_replicate
  · simp only [sized, cleared, map_replicate, replicate_succ']
  · exact length_replicate.symm

theorem holds_empty : empty.Holds [] := by
  apply @holds_of_cells _ _ (List.replicate 9 (some nul))
  · rfl
  · rfl
  · rfl

theorem copy_fresh (chars : List Char) (rest : Block Char) :
    Block.copy (Block.fresh (chars.length + 1)) 0 (chars.map some ++ some nul :: rest) 0 (chars.length + 1) =
      .ok (chars.map some ++ [some nul]) := by
  have copied := @Block.copy_eq _ [] [] [] rest (Block.fresh (chars.length + 1)) (chars.map some ++ [some nul])
    (by simp)
  simpa using copied

theorem holds_exact (chars : List Char) :
    (⟨chars.length + 1, chars.length, chars.map some ++ [some nul]⟩ : Str).Holds chars :=
  @holds_of_cells _ _ [] (by simp) rfl rfl

theorem ofCStr_eq (nulFree : nul ∉ chars) (rest : List Char) :
    ∃ str, ofCStr (chars ++ nul :: rest) = .ok str ∧ str.Holds chars := by
  refine ⟨_, ?_, holds_exact chars⟩
  unfold ofCStr
  rw [strlen_text nulFree, ok_bind, map_append, map_cons, copy_fresh]
  rfl

theorem Holds.copy_eq (holds : b.Holds chars) : ∃ str, copy b = .ok str ∧ str.Holds chars := by
  obtain ⟨rest, data, length_eq⟩ := holds.cells
  refine ⟨_, ?_, holds_exact chars⟩
  unfold copy
  rw [data, length_eq, copy_fresh]
  rfl

theorem Holds.assign_eq (holds : b.Holds chars) (this : Str) :
    ∃ str, assign this (.other b) = .ok str ∧ str.Holds chars :=
  holds.copy_eq

theorem assign_itself (this : Str) :
    assign this .itself = .ok ⟨this.length + 1, this.length, Block.fresh (this.length + 1)⟩ := by
  unfold assign
  rw [Block.copyWithin_self _ (by simp)]
  rfl

theorem Holds.copy_content (holds : str.Holds chars) (front rest : Block Char) {old : Block Char}
    (size : old.length = chars.length) :
    Block.copy (front ++ (old ++ rest)) front.length str.data 0 str.length =
      .ok (front ++ (chars.map some ++ rest)) := by
  obtain ⟨behind, data, length_eq⟩ := holds.cells
  have copied := @Block.copy_eq _ front rest [] (some nul :: behind) old (chars.map some)
    (by rw [size, length_map])
  rw [length_map, nil_append, length_nil] at copied
  rw [data, length_eq, copied]

theorem Holds.copy_terminated (holds : str.Holds chars) (front rest : Block Char) {old : Block Char}
    (size : old.length = chars.length + 1) :
    Block.copy (front ++ (old ++ rest)) front.length str.data 0 (str.length + 1) =
      .ok (front ++ (chars.map some ++ some nul :: rest)) := by
  obtain ⟨behind, data, length_eq⟩ := holds.cells
  have copied := @Block.copy_eq _ front rest [] behind old (chars.map some ++ [some nul])
    (by rw [size, length_append, length_map, length_singleton])
  rw [length_append, length_map, length_singleton, nil_append, length_nil,
    append_assoc, append_assoc, singleton_append, singleton_append] at copied
  rw [data, length_eq, copied]

section

variable (holds : this.Holds chars)
include holds

theorem copy_both (holds' : b.Holds more) (room : Nat) :
    ∃ data, Block.copy (Block.fresh (chars.length + more.length + 1 + room)) 0 this.data 0 this.length = .ok data ∧
      Block.copy data this.length b.data 0 (b.length + 1) =
        .ok (chars.map some ++ (more.map some ++ some nul :: Block.fresh room)) := by
  have first := holds.copy_content [] (Block.fresh (more.length + 1 + room)) (Block.length_fresh chars.length)
  have second := holds'.copy_terminated (chars.map some) (Block.fresh room) (Block.length_fresh (more.length + 1))
  obtain ⟨rest, -, length_eq⟩ := holds.cells
  rw [length_map, ← length_eq] at second
  have parts : Block.fresh (chars.length + more.length + 1 + room) =
      Block.fresh chars.length ++ (Block.fresh (more.length + 1) ++ (Block.fresh room : Block Char)) := by
    unfold Block.fresh
    rw [replicate_append_replicate, replicate_append_replicate, Nat.add_assoc, Nat.add_assoc,
      Nat.add_assoc]
  refine ⟨_, ?_, second⟩
  rw [parts]
  unfold Block.fresh at first ⊢
  rw [← replicate_append_replicate] at first
  exact first

theorem plus_stray (holds' : b.Holds more) : plus this b = .error .stray := by
  have first := holds.copy_content [] (cleared (more.length + 1)) (@length_replicate _ chars.length (some nul))
  have second := holds'.copy_content (chars.map some) [some nul] (@length_replicate _ more.length (some nul))
  obtain ⟨rest, -, length_eq⟩ := holds.cells
  obtain ⟨rest', -, length_eq'⟩ := holds'.cells
  rw [length_map] at second
  rw [length_eq] at first
  rw [length_eq'] at second
  unfold plus sized
  dsimp only
  unfold cleared at first ⊢
  rw [length_eq, length_eq', Nat.add_assoc, ← replicate_append_replicate]
  rw [nil_append, nil_append, length_nil] at first
  rw [first, ok_bind, replicate_succ', second, ok_bind, Block.store_stray (by simp), error_bind]

theorem append_grows {operand : Operand} (holds' : (this.deref operand).Holds more)
    (grows : this.length + (this.deref operand).length + 1 > this.capacity) :
    ∃ str, append this operand = .ok str ∧ str.Holds (chars ++ more) := by
  obtain ⟨rest, data, length_eq⟩ := holds.cells
  obtain ⟨rest', -, length_eq'⟩ := holds'.cells
  obtain ⟨room, size⟩ := Nat.exists_eq_add_of_le
    (Nat.le_max_right (this.capacity * 2) (this.length + (this.deref operand).length + 1))
  obtain ⟨middle, first, second⟩ := copy_both holds holds' room
  unfold append
  dsimp only
  rw [if_pos grows, size]
  rw [length_eq, length_eq'] at *
  rw [first, ok_bind, second]
  refine ⟨_, rfl, ?_⟩
  apply @holds_of_cells _ _ (Block.fresh room)
  · simp only [length_append, length_map, length_cons, Block.length_fresh]
    omega
  · rw [map_append, append_assoc]
  · rw [length_append]

theorem append_other (holds' : b.Holds more) :
    ∃ str, append this (.other b) = .ok str ∧ str.Holds (chars ++ more) := by
  by_cases grows : this.length + b.length + 1 > this.capacity
  · exact append_grows holds holds' grows
  · obtain ⟨rest, data, length_eq⟩ := holds.cells
    obtain ⟨rest', -, length_eq'⟩ := holds'.cells
    have array := holds.array
    have size : ((some nul :: rest).take (more.length + 1)).length = more.length + 1 := by
      rw [data, length_append, length_map] at array
      rw [length_take]
      omega
    have copied := holds'.copy_terminated (chars.map some) ((some nul :: rest).drop (more.length + 1)) size
    rw [take_append_drop, length_map, ← data, ← length_eq] at copied
    unfold append
    dsimp only [deref]
    rw [if_neg grows, copied]
    refine ⟨_, rfl, ?_⟩
    apply holds_of_cells
    · rw [← array, data]
      simp only [length_append, length_map, length_cons] at size ⊢
      rw [length_drop, length_cons]
      rw [length_take, length_cons] at size
      omega
    · rw [map_append, append_assoc]
    · rw [length_append, length_eq, length_eq']

theorem append_itself_shifted (fits : ¬ this.length + this.length + 1 > this.capacity) :
    ∃ data, append this .itself = .ok { this with length := this.length + this.length, data := data } ∧
      data.length = this.data.length ∧ data[0]? = this.data[0]? ∧
      (∀ index, index < this.length → data[index]? = this.data[index]?) ∧
      ∀ offset, offset < this.length + 1 → data[this.length + offset]? = data[offset]? := by
  have array := holds.array
  unfold append
  dsimp only [deref]
  rw [if_neg fits]
  rcases Nat.eq_zero_or_pos this.length with zero | pos
  · refine ⟨this.data, ?_, rfl, rfl, fun _ _ => rfl, ?_⟩
    · rw [zero, Block.copyWithin_self _ (by omega)]
      rfl
    · intro offset _
      rw [zero, Nat.zero_add]
  · obtain ⟨result, copied, shifted⟩ := Block.copyWithin_later this.data pos
      (show this.length + (this.length + 1) ≤ this.data.length by omega)
    refine ⟨result, ?_, shifted.length_eq, shifted.outside 0 (.inl pos),
      fun index less => shifted.outside index (.inl less), ?_⟩
    · rw [copied]
      rfl
    · intro offset less
      rw [shifted.inside offset less, Nat.zero_add]

omit holds in
theorem take_congr {first second : Block Char} {size : Nat}
    (same : ∀ index, index < size → first[index]? = second[index]?) : first.take size = second.take size := by
  apply ext_getElem?
  intro index
  rw [List.getElem?_take, List.getElem?_take]
  split
  · exact same index ‹_›
  · rfl

theorem append_itself_iff (fits : ¬ this.length + this.length + 1 > this.capacity) :
    (∃ str, append this .itself = .ok str ∧ str.Holds (chars ++ chars)) ↔ this.data[0]? = some (some nul) := by
  obtain ⟨data, appended, length_eq, first, low, high⟩ := append_itself_shifted holds fits
  have last : data[this.length + this.length]? = this.data[0]? := by
    rw [high this.length (Nat.lt_succ_self _), ← first]
    exact high 0 (Nat.succ_pos _)
  constructor
  · rintro ⟨str, str_eq, holds'⟩
    rw [appended] at str_eq
    have same := Except.ok.inj str_eq
    subst same
    exact last.symm.trans holds'.terminated
  · intro zero
    refine ⟨_, appended, length_eq.trans holds.array, Nat.lt_of_succ_le (Nat.not_lt.1 fits), last.trans zero, ?_⟩
    dsimp only
    have half : data.take this.length = chars.map some := (take_congr low).trans holds.content
    have other : (data.drop this.length).take this.length = data.take this.length := by
      apply take_congr
      intro offset less
      rw [List.getElem?_drop, high offset (Nat.lt_succ_of_lt less)]
    rw [take_add, other, half, map_append]

end

theorem split_nul (chars : List Char) (rest : Block Char) :
    ∃ behind, chars.map some ++ some nul :: rest = (chars.takeWhile (· ≠ nul)).map some ++ some nul :: behind := by
  induction chars with
  | nil => exact ⟨rest, rfl⟩
  | cons char chars ih =>
    by_cases zero : char = nul
    · subst zero
      exact ⟨chars.map some ++ some nul :: rest, rfl⟩
    · rcases ih with ⟨behind, same⟩
      refine ⟨behind, ?_⟩
      rw [takeWhile_cons_of_pos (by simpa using zero), map_cons, map_cons, cons_append,
        cons_append, same]

theorem memory_cells (chars : List Char) (last : Char) (rest : Block Char) :
    ((chars.map some ++ some last :: rest).takeWhile Option.isSome).filterMap id =
      chars ++ last :: (rest.takeWhile Option.isSome).filterMap id := by
  induction chars with
  | nil => rfl
  | cons char chars ih => exact congrArg (char :: ·) ih

theorem Holds.memory_eq (holds : str.Holds chars) :
    ∃ behind, str.memory = chars.takeWhile (· ≠ nul) ++ nul :: behind := by
  rcases holds.cells with ⟨rest, data, -⟩
  rcases split_nul chars rest with ⟨behind, same⟩
  unfold memory
  rw [data, same, memory_cells]
  exact ⟨_, rfl⟩

end Str

end SysCore.Stl
