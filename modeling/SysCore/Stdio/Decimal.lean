import SysCore.Stdio.Format
import SysCore.Stl.Strings

/-!
# Decimal numerals of the renderers

The conversion `%d` negates a negative `int` and prints the result as a `size_t`; the one
`int` that has no negative is widened with its sign.  `to_string` fills a local array from
its end and makes a `String` of what it filled: there is no zero behind the last digit, so
that the length is looked for outside the array.
-/

namespace SysCore.Stdio

open Transition Container Stl List

def pushDecimal (room : Nat) (n : Int) (buf : List Char) : Outcome (List Char) :=
  if n = 0 then .ok buf
  else
    match room with
    | 0 => .error .stray
    | room + 1 => pushDecimal room (n.tdiv 10) (Char.ofNat (n.tmod 10 + '0'.toNat).toNat :: buf)

def pushSign (buf : List Char) : Outcome (List Char) :=
  if buf.length < 30 then .ok ('-' :: buf) else .error .stray

def toStringSigned (n : Int) : Outcome Str :=
  if n = 0 then Str.ofCStr ['0', nul]
  else if n > 0 then do
    let buf ← pushDecimal 30 n []
    Str.ofCStr buf
  else do
    let buf ← pushDecimal 30 ((-n).bmod (2 ^ 64)) []
    let buf ← pushSign buf
    Str.ofCStr buf

def toStringUnsigned (n : Nat) : Outcome Str :=
  if n = 0 then Str.ofCStr ['0', nul]
  else do
    let buf ← pushDigits 10 30 n []
    Str.ofCStr buf

def percentD : CText :=
  ⟨['%', 'd'], by decide⟩

def Call.int (call : Call) : Int :=
  ((call.args 0).setWidth 32).toInt

def Renders (outcome : Outcome Str) (n : Int) : Prop :=
  ∃ str text, outcome = .ok str ∧ IsDecimal n text ∧ str.Holds text

/-! ## `%d` -/

theorem printf_percentD (call : Call) :
    printf call percentD.memory = .ok (intText ((call.args 0).setWidth 32), 1) := by
  unfold printf percentD CText.memory
  simp only [cons_append, nil_append, printfLoop_conversion, printfLoop_nul]
  rfl

theorem sprintf_percentD (call : Call) :
    sprintf call percentD.memory = .ok (intText ((call.args 0).setWidth 32) ++ [nul], 1) := by
  unfold sprintf percentD CText.memory
  simp only [cons_append, nil_append, sprintfLoop_conversion, sprintConversion_eq (by decide : 'd' ∈ specs),
    ok_bind, sprintfLoop_nul]
  rfl

variable {d : BitVec 32} {memory buf : List Char} {outcome : Outcome (List Char)} {n : Int}

theorem toNat_signExtend_of_nonneg (nonneg : 0 ≤ d.toInt) : (d.signExtend 64).toNat = d.toInt.natAbs := by
  have widened := @BitVec.toInt_signExtend_of_le 32 64 d (by decide)
  have bound := (d.signExtend 64).isLt
  rw [BitVec.toInt_eq_toNat_cond] at widened
  split at widened <;> omega

theorem toInt_eq_min_iff : d.toInt = -2 ^ 31 ↔ d = BitVec.intMin 32 := by
  rw [← BitVec.toInt_inj, BitVec.toInt_intMin]
  rfl

theorem intText_eq_decimal (notMin : d.toInt ≠ -2 ^ 31) : intText d = decimal d.toInt := by
  unfold intText decimal
  by_cases zero : d = 0
  · subst zero
    rfl
  · rw [if_neg zero]
    by_cases negative : d.toInt < 0
    · have opposite := BitVec.toInt_neg_of_ne_intMin fun isMin => notMin (toInt_eq_min_iff.2 isMin)
      rw [if_pos negative, if_pos negative, toNat_signExtend_of_nonneg (by omega), opposite, Int.natAbs_neg]
    · rw [if_neg negative, if_neg negative, toNat_signExtend_of_nonneg (Int.not_lt.1 negative)]

theorem intText_min : intText (BitVec.intMin 32) = "-18446744071562067968".toList := by
  decide

theorem isDecimal_intText_iff (d : BitVec 32) : IsDecimal d.toInt (intText d) ↔ d.toInt ≠ -2 ^ 31 := by
  rw [isDecimal_iff]
  constructor
  · intro same isMin
    rw [isMin, toInt_eq_min_iff.1 isMin, intText_min] at same
    exact absurd same (by decide)
  · exact intText_eq_decimal

/-! ## `to_string` -/

theorem strlen_stray (nulFree : nul ∉ memory) : strlen memory = .error .stray := by
  induction memory with
  | nil => rfl
  | cons c memory ih =>
    have parts := not_mem_cons nulFree
    rw [strlen, if_neg parts.1, ih parts.2, error_bind]

theorem ofCStr_stray (nulFree : nul ∉ memory) : Str.ofCStr memory = .error .stray := by
  unfold Str.ofCStr
  rw [strlen_stray nulFree, error_bind]

theorem not_mem_push {c : Char} (notNul : c ≠ nul) (nulFree : nul ∉ buf) : nul ∉ c :: buf := by
  rw [mem_cons, not_or]
  exact ⟨Ne.symm notNul, nulFree⟩

theorem decimalChar_ne_nul (n : Int) : Char.ofNat (n.tmod 10 + '0'.toNat).toNat ≠ nul := by
  have high := Int.tmod_lt_of_pos n (by decide : (0 : Int) < 10)
  have low : -10 < n.tmod 10 := by
    have opposite := Int.tmod_lt_of_pos (-n) (by decide : (0 : Int) < 10)
    rw [Int.neg_tmod] at opposite
    omega
  generalize n.tmod 10 = tail at low high ⊢
  interval_cases tail <;> decide

def Fills (outcome : Outcome (List Char)) : Prop :=
  outcome = .error .stray ∨ ∃ filled, outcome = .ok filled ∧ nul ∉ filled

theorem fills_pushDecimal (room : Nat) (n : Int) (nulFree : nul ∉ buf) :
    Fills (pushDecimal room n buf) := by
  induction room generalizing n buf with
  | zero =>
    rw [pushDecimal]
    split
    · exact .inr ⟨buf, rfl, nulFree⟩
    · exact .inl rfl
  | succ room ih =>
    rw [pushDecimal]
    split
    · exact .inr ⟨buf, rfl, nulFree⟩
    · exact ih _ (not_mem_push (decimalChar_ne_nul n) nulFree)

theorem fills_pushDigits (room n : Nat) (nulFree : nul ∉ buf) : Fills (pushDigits 10 room n buf) := by
  induction room generalizing n buf with
  | zero =>
    cases n with
    | zero => exact .inr ⟨buf, rfl, nulFree⟩
    | succ n => exact .inl rfl
  | succ room ih =>
    cases n with
    | zero => exact .inr ⟨buf, rfl, nulFree⟩
    | succ n =>
      have notNul : digitChar ((n + 1) % 10) ≠ nul := by
        have small : (n + 1) % 10 < 10 := Nat.mod_lt _ (by decide)
        interval_cases (n + 1) % 10 <;> decide
      rw [pushDigits]
      exact ih _ (not_mem_push notNul nulFree)

theorem Fills.stray (fills : Fills outcome) : (outcome >>= Str.ofCStr) = .error .stray := by
  rcases fills with rfl | ⟨filled, rfl, nulFree⟩
  · rfl
  · exact ofCStr_stray nulFree

theorem Fills.sign (fills : Fills outcome) : Fills (outcome >>= pushSign) := by
  rcases fills with rfl | ⟨filled, rfl, nulFree⟩
  · exact .inl rfl
  · rw [ok_bind, pushSign]
    split
    · exact .inr ⟨_, rfl, not_mem_push (by decide) nulFree⟩
    · exact .inl rfl

theorem toStringSigned_stray (nonzero : n ≠ 0) : toStringSigned n = .error .stray := by
  unfold toStringSigned
  rw [if_neg nonzero]
  split
  · exact (fills_pushDecimal 30 n not_mem_nil).stray
  · rw [← bind_assoc]
    exact (fills_pushDecimal 30 _ not_mem_nil).sign.stray

theorem toStringUnsigned_stray {n : Nat} (nonzero : n ≠ 0) : toStringUnsigned n = .error .stray := by
  unfold toStringUnsigned
  rw [if_neg nonzero]
  exact (fills_pushDigits 30 n not_mem_nil).stray

theorem renders_zero : Renders (Str.ofCStr ['0', nul]) 0 := by
  rcases Str.ofCStr_eq (show nul ∉ ['0'] by decide) [] with ⟨str, made, holds⟩
  exact ⟨str, ['0'], made, isDecimal_iff.2 rfl, holds⟩

theorem renders_stray_iff {outcome : Outcome Str} (zero : n = 0 → outcome = Str.ofCStr ['0', nul])
    (stray : n ≠ 0 → outcome = .error .stray) : Renders outcome n ↔ n = 0 := by
  constructor
  · rintro ⟨str, text, made, -⟩
    by_contra nonzero
    rw [stray nonzero] at made
    cases made
  · intro isZero
    rw [zero isZero, isZero]
    exact renders_zero

/-- `%d` gives the numeral of every `int` but the smallest, in both functions; `to_string`
gives that of zero only, since for every other number it reads behind its array. -/
theorem renderers_iff (call : Call) (n : Int) (m : Nat) :
    (((∃ text, printf call percentD.memory = .ok (text, 1) ∧ IsDecimal call.int text) ↔ call.int ≠ -2 ^ 31) ∧
      ((∃ text, sprintf call percentD.memory = .ok (text ++ [nul], 1) ∧ IsDecimal call.int text) ↔
        call.int ≠ -2 ^ 31)) ∧
    (-2 ^ 63 ≤ n → n < 2 ^ 63 → (Renders (toStringSigned n) n ↔ n = 0)) ∧
    (m < 2 ^ 64 → (Renders (toStringUnsigned m) m ↔ m = 0)) := by
  refine ⟨?_, ?_, ?_⟩
  · have iff : IsDecimal call.int (intText ((call.args 0).setWidth 32)) ↔ call.int ≠ -2 ^ 31 :=
      isDecimal_intText_iff _
    rw [printf_percentD, sprintf_percentD, ← iff]
    constructor
    · constructor
      · rintro ⟨text, same, isDecimal⟩
        cases same
        exact isDecimal
      · exact fun isDecimal => ⟨_, rfl, isDecimal⟩
    · constructor
      · rintro ⟨text, same, isDecimal⟩
        have same_text := append_cancel_right (Prod.mk.inj (Except.ok.inj same)).1
        rw [same_text]
        exact isDecimal
      · exact fun isDecimal => ⟨_, rfl, isDecimal⟩
  · intro _ _
    exact renders_stray_iff (fun zero => if_pos zero) toStringSigned_stray
  · intro _
    rw [← @Nat.cast_eq_zero Int]
    apply renders_stray_iff
    · exact fun zero => if_pos (Nat.cast_eq_zero.1 zero)
    · exact fun nonzero => toStringUnsigned_stray (mt Nat.cast_eq_zero.2 nonzero)

theorem renderers_fail :
    (∃ call : Call, call.int = -2 ^ 31 ∧
      printf call percentD.memory = .ok ("-18446744071562067968".toList, 1) ∧
      sprintf call percentD.memory = .ok ("-18446744071562067968".toList ++ [nul], 1)) ∧
    toStringSigned 1 = .error .stray ∧ toStringUnsigned 1 = .error .stray := by
  refine ⟨⟨⟨fun _ => BitVec.ofNat 64 (2 ^ 31), fun _ => ⟨[], by decide⟩⟩, by decide, ?_, ?_⟩, ?_, ?_⟩
  · rw [printf_percentD, ← intText_min]
    rfl
  · rw [sprintf_percentD, ← intText_min]
    rfl
  · exact toStringSigned_stray (by decide)
  · exact toStringUnsigned_stray (by decide)

end SysCore.Stdio
