import SysCore.Stdio.Format

/-!
# The digits of a number

`__print_pos` and `sprintf__print_pos` take a number apart in the same array `sta` of a
hundred characters.  The first one sends the digits to the console, the second one stores
them in the memory behind `dist` and moves the index of its caller.

`Stdio.Format` keeps of that memory only what `sprintf` has written.  Here it is the whole
memory, with the index as it is, so that the places of the characters are part of what the
function does.
-/

namespace SysCore.Stdio

open Transition Container

structure Dist where
  chars : Int → Char
  cur : Int

namespace Dist

def store (dist : Dist) (c : Char) : Dist where
  chars := Function.update dist.chars dist.cur c
  cur := dist.cur + 1

def printPos (dist : Dist) (num base : Nat) : Outcome Dist := do
  let sta ← digits num base
  return sta.foldl store dist

structure Wrote (dist dist' : Dist) (text : List Char) : Prop where
  inside : ∀ index (_ : index < text.length), dist'.chars (dist.cur + index) = text[index]
  outside : ∀ pos, pos < dist.cur ∨ dist.cur + text.length ≤ pos → dist'.chars pos = dist.chars pos
  cur_eq : dist'.cur = dist.cur + text.length

@[simp]
theorem cur_store (dist : Dist) (c : Char) : (dist.store c).cur = dist.cur + 1 :=
  rfl

theorem chars_store_self (dist : Dist) (c : Char) : (dist.store c).chars dist.cur = c := by
  simp [store]

theorem chars_store_of_ne (dist : Dist) (c : Char) {pos : Int} (other : pos ≠ dist.cur) :
    (dist.store c).chars pos = dist.chars pos := by
  simp [store, other]

theorem wrote_foldl_store (dist : Dist) (text : List Char) : Wrote dist (text.foldl store dist) text := by
  induction text generalizing dist with
  | nil => exact ⟨fun _ less => absurd less (Nat.not_lt_zero _), fun _ _ => rfl, (Int.add_zero _).symm⟩
  | cons c text ih =>
    rw [List.foldl_cons]
    rcases ih (dist.store c) with ⟨inside, outside, cur_eq⟩
    rw [cur_store] at inside outside cur_eq
    constructor
    · intro index less
      cases index with
      | zero =>
        -- the first character is in front of everything that is stored behind it
        rw [outside _ (Or.inl (by omega)), Nat.cast_zero, Int.add_zero, chars_store_self]
        rfl
      | succ index =>
        have later := inside index (Nat.lt_of_succ_lt_succ less)
        rw [Int.add_assoc, Int.add_comm 1] at later
        exact later
    · intro pos away
      rw [List.length_cons] at away
      rw [outside pos (by omega), chars_store_of_ne dist c (by omega)]
    · rw [cur_eq, List.length_cons]
      omega

end Dist

/-! ## The numeral of a word -/

theorem length_numeral_le {num base size : Nat} (two : 1 < base) (fits : num < base ^ (size + 1)) :
    (numeral base num).length ≤ size + 1 := by
  unfold numeral
  split
  · exact Nat.succ_le_succ (Nat.zero_le size)
  · rw [List.length_reverse, List.length_map]
    exact (Nat.digits_length_le_iff two num).2 fits

def hexDigits : List Char :=
  "0123456789abcdef".toList

theorem digitChar_mem {tail : Nat} (small : tail < 16) : digitChar tail ∈ hexDigits := by
  have all : ∀ tail < 16, digitChar tail ∈ hexDigits := by decide
  exact all tail small

/-- Both functions produce the numeral of the word: it fits into `sta` with room to spare, and
read as a number in the base it is the word again. -/
theorem printPos_positional (num : BitVec 64) (base : Nat) (known : base = 2 ∨ base = 10 ∨ base = 16) :
    ∃ text : List Char,
      (∀ out, printPos out num.toNat base = .ok (out ++ text)) ∧
      (∀ dist, sprintfPrintPos dist num.toNat base = .ok (dist ++ text)) ∧
      (∀ dist, ∃ dist', Dist.printPos dist num.toNat base = .ok dist' ∧ Dist.Wrote dist dist' text) ∧
      text.length ≤ 64 ∧ text ≠ [] ∧ (text.head? = some '0' → num = 0) ∧
      (∀ digit ∈ text, digit ∈ hexDigits ∧ digitValue digit < base) ∧
      numeralValue base text = num.toNat := by
  have two : 1 < base := by omega
  have sixteen : base ≤ 16 := by omega
  have isNumeral := isNumeral_numeral two sixteen num.toNat
  have fits : num.toNat < base ^ 64 := num.isLt.trans_le (Nat.pow_le_pow_left two 64)
  refine ⟨numeral base num.toNat, printPos_eq two num.isLt, sprintfPrintPos_eq two num.isLt, ?_,
    length_numeral_le two fits, isNumeral.nonempty, ?_, ?_, isNumeral.value⟩
  · intro dist
    refine ⟨_, ?_, Dist.wrote_foldl_store dist _⟩
    rw [Dist.printPos, digits_eq two num.isLt, ok_bind]
    rfl
  · intro zero
    have value := isNumeral.value
    rw [isNumeral.noLeadingZero zero, numeralValue_zero] at value
    exact BitVec.eq_of_toNat_eq value.symm
  · intro digit mem
    rcases isNumeral.digits digit mem with ⟨tail, less, rfl⟩
    rw [digitValue_digitChar (less.trans_le sixteen)]
    exact ⟨digitChar_mem (less.trans_le sixteen), less⟩

theorem printPos_positional_allOnes :
    ∃ text : List Char, (∀ out, printPos out (BitVec.allOnes 64).toNat 16 = .ok (out ++ text)) ∧
      numeralValue 16 text = 2 ^ 64 - 1 := by
  rcases printPos_positional (BitVec.allOnes 64) 16 (Or.inr (Or.inr rfl)) with
    ⟨text, printed, _, _, _, _, _, _, value⟩
  exact ⟨text, printed, value⟩

end SysCore.Stdio
