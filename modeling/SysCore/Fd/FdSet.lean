import SysCore.Transition.Outcome
import Mathlib.Data.List.Basic

/-!
# Descriptor sets

A program passes `pselect6` sixteen 64-bit words in which descriptor `n` is bit
`n mod 64` of word `n / 64`.  The macros of the kernel work on the same words as
if each had 32 bits: they take word `n / 32` and the `int` `1 << n mod 32`, whose
conversion to 64 bits copies its sign.

`Hits` says which descriptors of the program a macro called with a descriptor
works on.  What the macros mean follows from it, and it is the descriptor itself
for the first 31 of them only.
-/

namespace SysCore.Fd

open Transition

def fdsetLongs : Nat := 16

def fdSetsize : Nat := 1024

abbrev FdSet := Fin fdsetLongs → BitVec 64

def fdBit (fd : Nat) : BitVec 32 :=
  1 <<< (fd &&& 31)

namespace FdSet

def fdZero : FdSet :=
  fun _ => 0

variable (fd : Nat) (set : FdSet)

def word : Outcome (Fin fdsetLongs) :=
  if inRange : fd >>> 5 < fdsetLongs then .ok ⟨fd >>> 5, inRange⟩ else .error .stray

def fdSet : Outcome FdSet := do
  let word ← word fd
  return Function.update set word (set word ||| (fdBit fd).signExtend 64)

def fdClr : Outcome FdSet := do
  let word ← word fd
  return Function.update set word (set word &&& (~~~fdBit fd).signExtend 64)

def fdIsset : Outcome Bool := do
  let word ← word fd
  return set word &&& (fdBit fd).signExtend 64 != 0

def has (n : Nat) : Bool :=
  if inRange : n / 64 < fdsetLongs then (set ⟨n / 64, inRange⟩).getLsbD (n % 64) else false

def Hits (fd n : Nat) : Prop :=
  n / 64 = fd / 32 ∧ (n % 64 = fd % 32 ∨ fd % 32 = 31 ∧ 31 ≤ n % 64)

instance (fd n : Nat) : Decidable (Hits fd n) :=
  inferInstanceAs (Decidable (_ ∧ _))

def seenAs (n : Nat) : Nat :=
  32 * (n / 64) + min (n % 64) 31

end FdSet

/-! ## What the macros do -/

namespace FdSet

variable {fd : Nat}

theorem getLsbD_fdBit (fd : Nat) {bit : Nat} (bit_lt : bit < 64) :
    ((fdBit fd).signExtend 64).getLsbD bit = decide (bit = fd % 32 ∨ fd % 32 = 31 ∧ 31 ≤ bit) := by
  have low : fd &&& 31 = fd % 32 := Nat.and_two_pow_sub_one_eq_mod fd 5
  have cases : ∀ shift < 32, ∀ bit < 64,
      ((1#32 <<< shift).signExtend 64).getLsbD bit =
        decide (bit = shift ∨ shift = 31 ∧ 31 ≤ bit) := by
    decide +kernel
  rw [fdBit, low]
  exact cases _ (Nat.mod_lt _ (by decide)) _ bit_lt

theorem word_of_lt (fd_lt : fd < 512) : word fd = .ok ⟨fd / 32, by unfold fdsetLongs; omega⟩ := by
  have shifted : fd >>> 5 = fd / 32 := Nat.shiftRight_eq_div_pow fd 5
  unfold word
  rw [dif_pos (by unfold fdsetLongs; omega)]
  simp only [shifted]

theorem word_of_le (fd_le : 512 ≤ fd) : word fd = .error .stray := by
  have shifted : fd >>> 5 = fd / 32 := Nat.shiftRight_eq_div_pow fd 5
  unfold word
  rw [dif_neg (by unfold fdsetLongs; omega)]

theorem has_of_lt (set : FdSet) {n : Nat} (n_lt : n < fdSetsize) :
    set.has n = (set ⟨n / 64, by unfold fdSetsize at n_lt; unfold fdsetLongs; omega⟩).getLsbD (n % 64) := by
  unfold fdSetsize at n_lt
  unfold has
  rw [dif_pos]

theorem lt_of_has {set : FdSet} {n : Nat} (isIn : set.has n) : n < fdSetsize := by
  unfold has at isIn
  split at isIn
  next inRange =>
    unfold fdsetLongs at inRange
    unfold fdSetsize
    omega
  · cases isIn

@[simp]
theorem has_fdZero (n : Nat) : fdZero.has n = false := by
  unfold has fdZero
  split <;> simp

theorem has_update (set : FdSet) (fd_lt : fd < 512) (value : BitVec 64) {n : Nat}
    (n_lt : n < fdSetsize) :
    has (Function.update set ⟨fd / 32, by unfold fdsetLongs; omega⟩ value) n =
      if n / 64 = fd / 32 then value.getLsbD (n % 64) else set.has n := by
  rw [has_of_lt _ n_lt, has_of_lt _ n_lt, Function.update_apply]
  simp only [Fin.mk.injEq, apply_ite (BitVec.getLsbD · (n % 64))]

theorem fdSet_spec (fd_lt : fd < 512) (set : FdSet) :
    ∃ set', fdSet fd set = .ok set' ∧
      ∀ n < fdSetsize, set'.has n = (set.has n || decide (Hits fd n)) := by
  refine ⟨_, by rw [fdSet, word_of_lt fd_lt, ok_bind]; rfl, ?_⟩
  intro n n_lt
  rw [has_update set fd_lt _ n_lt]
  split
  next same =>
    have word_eq := has_of_lt set n_lt
    simp only [same] at word_eq
    rw [BitVec.getLsbD_or, getLsbD_fdBit fd (Nat.mod_lt _ (by decide)), ← word_eq]
    simp [Hits, same]
  next different => simp [Hits, different]

theorem fdClr_spec (fd_lt : fd < 512) (set : FdSet) :
    ∃ set', fdClr fd set = .ok set' ∧
      ∀ n < fdSetsize, set'.has n = (set.has n && !decide (Hits fd n)) := by
  refine ⟨_, by rw [fdClr, word_of_lt fd_lt, ok_bind]; rfl, ?_⟩
  intro n n_lt
  rw [has_update set fd_lt _ n_lt]
  split
  next same =>
    have word_eq := has_of_lt set n_lt
    have bit_lt : n % 64 < 64 := Nat.mod_lt _ (by decide)
    simp only [same] at word_eq
    rw [BitVec.signExtend_not (by decide), BitVec.getLsbD_and, BitVec.getLsbD_not,
      getLsbD_fdBit fd bit_lt, ← word_eq]
    simp [Hits, same, bit_lt]
  next different => simp [Hits, different]

theorem bne_zero_iff (word : BitVec 64) :
    (word != 0) = true ↔ ∃ bit < 64, word.getLsbD bit = true := by
  rw [bne_iff_ne, Ne, BitVec.eq_of_getLsbD_eq_iff, not_forall]
  simp

theorem fdIsset_spec (fd_lt : fd < 512) (set : FdSet) :
    ∃ found, fdIsset fd set = .ok found ∧ (found = true ↔ ∃ n, Hits fd n ∧ set.has n = true) := by
  refine ⟨_, by rw [fdIsset, word_of_lt fd_lt, ok_bind]; rfl, ?_⟩
  rw [bne_zero_iff]
  simp only [BitVec.getLsbD_and, Bool.and_eq_true]
  constructor
  · rintro ⟨bit, bit_lt, isOn, isHit⟩
    rw [getLsbD_fdBit fd bit_lt, decide_eq_true_iff] at isHit
    have quotient : (64 * (fd / 32) + bit) / 64 = fd / 32 := by omega
    have remainder : (64 * (fd / 32) + bit) % 64 = bit := by omega
    refine ⟨64 * (fd / 32) + bit, ?_, ?_⟩
    · unfold Hits
      rwa [quotient, remainder, and_iff_right rfl]
    · rw [has_of_lt set (by unfold fdSetsize; omega)]
      simpa only [quotient, remainder] using isOn
  · rintro ⟨n, ⟨word_eq, isHit⟩, isOn⟩
    rw [has_of_lt set (lt_of_has isOn)] at isOn
    refine ⟨n % 64, Nat.mod_lt _ (by decide), by simpa only [word_eq] using isOn, ?_⟩
    rwa [getLsbD_fdBit fd (Nat.mod_lt _ (by decide)), decide_eq_true_iff]

theorem fdIsset_of_le (fd_le : 512 ≤ fd) (set : FdSet) : fdIsset fd set = .error .stray := by
  rw [fdIsset, word_of_le fd_le, error_bind]

/-! ## Which descriptors they are right for -/

theorem hits_iff {n : Nat} : Hits fd n ↔ seenAs n = fd := by
  unfold Hits seenAs
  omega

theorem exists_hits (fd : Nat) : ∃ n, Hits fd n :=
  ⟨64 * (fd / 32) + fd % 32, by omega, .inl (by omega)⟩

theorem has_fdSet_fdZero (fd_lt : fd < 512) {set : FdSet} (set_eq : fdSet fd fdZero = .ok set) (n : Nat) :
    set.has n ↔ Hits fd n := by
  obtain ⟨set', set_eq', hit⟩ := fdSet_spec fd_lt fdZero
  cases set_eq.symm.trans set_eq'
  constructor
  · intro isIn
    rw [hit n (lt_of_has isIn), has_fdZero, Bool.false_or, decide_eq_true_iff] at isIn
    exact isIn
  · intro isHit
    have n_lt : n < fdSetsize := by
      have word_eq := isHit.1
      unfold fdSetsize
      omega
    rw [hit n n_lt, has_fdZero, Bool.false_or, decide_eq_true_iff]
    exact isHit

theorem seenAs_le (n : Nat) : seenAs n ≤ n := by
  unfold seenAs
  omega

theorem seenAs_mono {n m : Nat} (ordered : n ≤ m) : seenAs n ≤ seenAs m := by
  unfold seenAs
  omega

theorem hits_iff_of_lt (fd_lt : fd < 31) (n : Nat) : Hits fd n ↔ n = fd := by
  unfold Hits
  omega

theorem exists_hits_ne (fd_ge : 31 ≤ fd) (fd_lt : fd < 512) :
    ∃ n < fdSetsize, n ≠ fd ∧ Hits fd n := by
  by_cases first : fd = 31
  · subst first
    exact ⟨32, by decide, by decide, by decide⟩
  · refine ⟨64 * (fd / 32) + fd % 32, ?_, ?_, ?_, .inl ?_⟩
    · unfold fdSetsize
      omega
    · omega
    · omega
    · omega

structure Agrees (fd : Nat) : Prop where
  isset : ∀ set, fdIsset fd set = .ok (set.has fd)
  set : ∀ set, ∃ set', fdSet fd set = .ok set' ∧
    ∀ n < fdSetsize, set'.has n = (set.has n || decide (n = fd))
  clr : ∀ set, ∃ set', fdClr fd set = .ok set' ∧
    ∀ n < fdSetsize, set'.has n = (set.has n && !decide (n = fd))

theorem agrees_of_lt (fd_lt : fd < 31) : Agrees fd := by
  have inWords : fd < 512 := by omega
  constructor
  · intro set
    obtain ⟨found, found_eq, found_iff⟩ := fdIsset_spec inWords set
    simp only [hits_iff_of_lt fd_lt, exists_eq_left] at found_iff
    rw [found_eq, Bool.eq_iff_iff.2 found_iff]
  · intro set
    simpa only [hits_iff_of_lt fd_lt] using fdSet_spec inWords set
  · intro set
    simpa only [hits_iff_of_lt fd_lt] using fdClr_spec inWords set

/-- The macros are right for a descriptor of a set exactly if it is one of the
first 31. -/
theorem agrees_iff (fd : Nat) : Agrees fd ↔ fd < 31 := by
  constructor
  · intro agrees
    by_contra notLow
    by_cases inWords : fd < 512
    · obtain ⟨n, n_lt, different, isHit⟩ := exists_hits_ne (Nat.not_lt.1 notLow) inWords
      obtain ⟨set, set_eq, added⟩ := agrees.set fdZero
      obtain ⟨set', set_eq', hit⟩ := fdSet_spec inWords fdZero
      cases set_eq.symm.trans set_eq'
      have conflict := (added n n_lt).symm.trans (hit n n_lt)
      simp [different, isHit] at conflict
    · have answer := agrees.isset fdZero
      rw [fdIsset_of_le (Nat.not_lt.1 inWords)] at answer
      cases answer
  · exact agrees_of_lt

theorem not_agrees_thirtyTwo : ∃ set, fdSet 32 fdZero = .ok set ∧ set.has 32 = false ∧
    set.has 64 = true ∧ fdIsset 512 set = .error .stray :=
  ⟨_, rfl, by decide, by decide, rfl⟩

end FdSet

end SysCore.Fd
