import SysCore.Transition.Outcome
import Mathlib.Data.Nat.Digits.Lemmas

/-!
# Numerals

A numeral of a number in a base is a text of digits without a leading zero that has the
number as its value; the digits above nine are letters.  There is one for every number
(`isNumeral_numeral`) and only one (`IsNumeral.eq_numeral`).

`pushDigits` is the loop that takes a number apart from its last digit on and keeps the
digits in an array from which they are taken back in the reverse order.
-/

namespace SysCore.Container

open Transition List

def digitChar (tail : Nat) : Char :=
  if tail ≤ 9 then Char.ofNat ('0'.toNat + tail) else Char.ofNat ('a'.toNat + tail - 10)

def digitValue (digit : Char) : Nat :=
  if digit.toNat ≤ '9'.toNat then digit.toNat - '0'.toNat else digit.toNat + 10 - 'a'.toNat

def numeralValue (base : Nat) (text : List Char) : Nat :=
  text.foldl (fun value digit => value * base + digitValue digit) 0

structure IsNumeral (base num : Nat) (text : List Char) : Prop where
  digits : ∀ digit ∈ text, ∃ tail < base, digit = digitChar tail
  nonempty : text ≠ []
  noLeadingZero : text.head? = some '0' → text = ['0']
  value : numeralValue base text = num

def IsDecimal (num : Int) (text : List Char) : Prop :=
  if num < 0 then ∃ rest, text = '-' :: rest ∧ IsNumeral 10 num.natAbs rest
  else IsNumeral 10 num.natAbs text

def numeral (base num : Nat) : List Char :=
  if num = 0 then ['0'] else ((Nat.digits base num).map digitChar).reverse

def decimal (num : Int) : List Char :=
  if num < 0 then '-' :: numeral 10 num.natAbs else numeral 10 num.natAbs

def pushDigits (base : Nat) : Nat → Nat → List Char → Outcome (List Char)
  | _, 0, sta => .ok sta
  | 0, _ + 1, _ => .error .stray
  | room + 1, num + 1, sta => pushDigits base room ((num + 1) / base) (digitChar ((num + 1) % base) :: sta)

/-! ## Digits -/

variable {tail : Nat} {text : List Char}

theorem digitValue_digitChar (small : tail < 16) : digitValue (digitChar tail) = tail := by
  have all : ∀ tail < 16, digitValue (digitChar tail) = tail := by decide
  exact all tail small

theorem digitChar_eq_zero_iff (small : tail < 16) : digitChar tail = '0' ↔ tail = 0 := by
  have all : ∀ tail < 16, (digitChar tail = '0' ↔ tail = 0) := by decide
  exact all tail small

theorem pushDigits_eq {base : Nat} (two : 1 < base) {room num : Nat} (fits : num < base ^ room)
    (sta : List Char) :
    pushDigits base room num sta = .ok (((Nat.digits base num).map digitChar).reverse ++ sta) := by
  induction room generalizing num sta with
  | zero =>
    have zero : num = 0 := Nat.lt_one_iff.1 fits
    subst zero
    simp [pushDigits]
  | succ room ih =>
    cases num with
    | zero => simp [pushDigits]
    | succ num =>
      have less : (num + 1) / base < base ^ room := by
        apply Nat.div_lt_of_lt_mul
        rwa [← Nat.pow_succ']
      rw [pushDigits, ih less, Nat.digits_def' two (Nat.succ_pos num), map_cons, reverse_cons,
        append_assoc, singleton_append]

/-! ## Values -/

variable {base num : Nat}

theorem numeralValue_zero : numeralValue base ['0'] = 0 := by
  simp [numeralValue, digitValue]

theorem numeralValue_reverse (digits : List Nat) (base : Nat) (small : ∀ digit ∈ digits, digit < 16) :
    numeralValue base (digits.map digitChar).reverse = Nat.ofDigits base digits := by
  unfold numeralValue
  rw [foldl_reverse, foldr_map]
  induction digits with
  | nil => rfl
  | cons digit digits ih =>
    rw [foldr_cons, ih fun other mem => small other (mem_cons_of_mem _ mem),
      digitValue_digitChar (small digit mem_cons_self), Nat.ofDigits_cons, Nat.add_comm, Nat.mul_comm]

theorem isNumeral_numeral (two : 1 < base) (sixteen : base ≤ 16) (num : Nat) :
    IsNumeral base num (numeral base num) := by
  unfold numeral
  by_cases zero : num = 0
  · subst zero
    rw [if_pos rfl]
    refine ⟨?_, cons_ne_nil _ _, fun _ => rfl, numeralValue_zero⟩
    intro digit mem
    exact ⟨0, Nat.lt_of_succ_lt two, mem_singleton.1 mem⟩
  · rw [if_neg zero]
    have small : ∀ digit ∈ Nat.digits base num, digit < base := fun _ mem => Nat.digits_lt_base two mem
    have some_digit : Nat.digits base num ≠ [] := Nat.digits_ne_nil_iff_ne_zero.2 zero
    constructor
    · intro digit mem
      rcases mem_map.1 (mem_reverse.1 mem) with ⟨tail, tailMem, rfl⟩
      exact ⟨tail, small tail tailMem, rfl⟩
    · simpa using some_digit
    · intro head
      rw [List.head?_reverse, List.getLast?_map, List.getLast?_eq_some_getLast some_digit, Option.map_some,
        Option.some.injEq, digitChar_eq_zero_iff ((small _ (getLast_mem some_digit)).trans_le sixteen)]
        at head
      exact absurd head (Nat.getLast_digit_ne_zero base zero)
    · rw [numeralValue_reverse _ _ fun digit mem => (small digit mem).trans_le sixteen, Nat.ofDigits_digits]

theorem exists_digits (digits : ∀ digit ∈ text, ∃ tail < base, digit = digitChar tail) :
    ∃ tails : List Nat, text = (tails.map digitChar).reverse ∧ ∀ tail ∈ tails, tail < base := by
  induction text with
  | nil => exact ⟨[], rfl, fun _ mem => absurd mem not_mem_nil⟩
  | cons digit text ih =>
    rcases ih fun other mem => digits other (mem_cons_of_mem _ mem) with ⟨tails, rfl, small⟩
    rcases digits digit mem_cons_self with ⟨tail, less, rfl⟩
    refine ⟨tails ++ [tail], by simp, ?_⟩
    intro other mem
    rcases mem_append.1 mem with inTails | last
    · exact small other inTails
    · exact mem_singleton.1 last ▸ less

theorem IsNumeral.eq_numeral (two : 1 < base) (sixteen : base ≤ 16) (isNumeral : IsNumeral base num text) :
    text = numeral base num := by
  rcases isNumeral with ⟨digits, nonempty, noLeadingZero, rfl⟩
  by_cases zero : text.head? = some '0'
  · rw [noLeadingZero zero, numeralValue_zero, numeral, if_pos rfl]
  · rcases exists_digits digits with ⟨tails, rfl, small⟩
    have some_tail : tails ≠ [] := by simpa using nonempty
    have last : tails.getLast some_tail ≠ 0 := by
      intro last_eq
      apply zero
      rw [List.head?_reverse, List.getLast?_map, List.getLast?_eq_some_getLast some_tail, last_eq]
      rfl
    rw [numeralValue_reverse _ _ fun tail mem => (small tail mem).trans_le sixteen]
    have tails_eq := Nat.digits_ofDigits base two tails small fun _ => last
    have positive : Nat.ofDigits base tails ≠ 0 := by
      rw [← @Nat.digits_ne_nil_iff_ne_zero base, tails_eq]
      exact some_tail
    rw [numeral, if_neg positive, tails_eq]

theorem isNumeral_iff (two : 1 < base) (sixteen : base ≤ 16) :
    IsNumeral base num text ↔ text = numeral base num := by
  constructor
  · exact IsNumeral.eq_numeral two sixteen
  · rintro rfl
    exact isNumeral_numeral two sixteen num

theorem isDecimal_iff {num : Int} : IsDecimal num text ↔ text = decimal num := by
  unfold IsDecimal decimal
  split
  · simp only [isNumeral_iff (by decide : 1 < 10) (by decide), exists_eq_right]
  · exact isNumeral_iff (by decide) (by decide)

end SysCore.Container
