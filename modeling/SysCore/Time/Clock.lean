import Mathlib.Algebra.Group.Nat.Defs
import Mathlib.Order.Monotone.Basic
import Mathlib.Data.Nat.Find

/-!
# The monotonic clock

`get_nsec` scales a reading of `rdtime` to nanoseconds in `uint64` arithmetic: a product,
a division by the frequency of the CPU and two further products.  `sys_clock_gettime`
writes the result as seconds and nanoseconds.

The clock runs forwards up to the first reading at which one of the products leaves the
64 bits, and at that reading it falls back.
-/

namespace SysCore.Time

def getNsec (freq time : Nat) : Nat :=
  time * 1600000 % 2 ^ 64 / freq * 50 % 2 ^ 64 * 625 % 2 ^ 64

structure Timespec where
  tvSec : Nat
  tvNsec : Nat
  deriving DecidableEq

def Timespec.NotAfter (first second : Timespec) : Prop :=
  first.tvSec < second.tvSec ∨ first.tvSec = second.tvSec ∧ first.tvNsec ≤ second.tvNsec

instance (first second : Timespec) : Decidable (first.NotAfter second) :=
  inferInstanceAs (Decidable (_ ∨ _))

def sysClockGettime (freq time : Nat) : Timespec where
  tvSec := getNsec freq time / 1000000000
  tvNsec := getNsec freq time % 1000000000

def Fits (freq time : Nat) : Prop :=
  time * 1600000 < 2 ^ 64 ∧ time * 1600000 / freq * 31250 < 2 ^ 64

instance (freq time : Nat) : Decidable (Fits freq time) :=
  inferInstanceAs (Decidable (_ ∧ _))

structure NeverBackwards (freq limit : Nat) : Prop where
  nsec : ∀ first second, first ≤ second → second ≤ limit → getNsec freq first ≤ getNsec freq second
  calls : ∀ readings : List Nat, readings.Pairwise (· ≤ ·) → (∀ time ∈ readings, time ≤ limit) →
    (readings.map (sysClockGettime freq)).Pairwise Timespec.NotAfter

section Scaling

variable {freq first second time : Nat}

theorem getNsec_eq (freq time : Nat) :
    getNsec freq time = time * 1600000 % 2 ^ 64 / freq * 31250 % 2 ^ 64 := by
  unfold getNsec
  generalize time * 1600000 % 2 ^ 64 / freq = quotient
  omega

theorem getNsec_of_fits (fits : Fits freq time) :
    getNsec freq time = time * 1600000 / freq * 31250 := by
  rw [getNsec_eq, Nat.mod_eq_of_lt fits.1, Nat.mod_eq_of_lt fits.2]

theorem scaled_mono (le : first ≤ second) :
    first * 1600000 / freq * 31250 ≤ second * 1600000 / freq * 31250 :=
  Nat.mul_le_mul_right _ (Nat.div_le_div_right (Nat.mul_le_mul_right _ le))

theorem Fits.earlier (fits : Fits freq second) (le : first ≤ second) : Fits freq first := by
  constructor
  · exact (Nat.mul_le_mul_right _ le).trans_lt fits.1
  · exact (scaled_mono le).trans_lt fits.2

theorem fits_zero (freq : Nat) : Fits freq 0 := by
  constructor
  · simp
  · simp

theorem quotient_succ_le (positive : 1 ≤ freq) :
    (time + 1) * 1600000 / freq ≤ time * 1600000 / freq + 1600000 := by
  rw [Nat.succ_mul]
  calc (time * 1600000 + 1600000) / freq
      ≤ (time * 1600000 + 1600000 * freq) / freq :=
        Nat.div_le_div_right (Nat.add_le_add_left (Nat.le_mul_of_pos_right _ positive) _)
    _ = time * 1600000 / freq + 1600000 := Nat.add_mul_div_right _ _ positive

theorem quotient_wrapped_lt (positive : 1 ≤ freq) (bounded : freq ≤ 10 ^ 9)
    (below : time * 1600000 < 2 ^ 64) (above : ¬ (time + 1) * 1600000 < 2 ^ 64) :
    (time + 1) * 1600000 % 2 ^ 64 / freq < time * 1600000 / freq := by
  have room : (time + 1) * 1600000 % 2 ^ 64 + freq ≤ time * 1600000 := by omega
  calc (time + 1) * 1600000 % 2 ^ 64 / freq
      < (time + 1) * 1600000 % 2 ^ 64 / freq + 1 := Nat.lt_succ_self _
    _ = ((time + 1) * 1600000 % 2 ^ 64 + freq) / freq := (Nat.add_div_right _ positive).symm
    _ ≤ time * 1600000 / freq := Nat.div_le_div_right room

theorem scaled_wrapped_lt {now next : Nat} (below : now * 31250 < 2 ^ 64) (above : ¬ next * 31250 < 2 ^ 64)
    (step : next ≤ now + 1600000) : next * 31250 % 2 ^ 64 < now * 31250 := by
  omega

theorem getNsec_succ_lt (positive : 1 ≤ freq) (bounded : freq ≤ 10 ^ 9) (fits : Fits freq time)
    (overflow : ¬ Fits freq (time + 1)) : getNsec freq (time + 1) < getNsec freq time := by
  rw [getNsec_of_fits fits, getNsec_eq]
  by_cases product : (time + 1) * 1600000 < 2 ^ 64
  · -- the division is exact and the second product wraps
    rw [Nat.mod_eq_of_lt product]
    apply scaled_wrapped_lt fits.2
    · exact fun less => overflow ⟨product, less⟩
    · exact quotient_succ_le positive
  · have less := quotient_wrapped_lt positive bounded fits.1 product
    exact (Nat.mod_le _ _).trans_lt (Nat.mul_lt_mul_of_pos_right less (by decide))

end Scaling

/-! ## Runs of the clock -/

theorem notAfter_of_le {freq first second : Nat} (le : getNsec freq first ≤ getNsec freq second) :
    (sysClockGettime freq first).NotAfter (sysClockGettime freq second) := by
  unfold Timespec.NotAfter sysClockGettime
  dsimp only
  omega

theorem Fits.neverBackwards {freq limit : Nat} (fits : Fits freq limit) : NeverBackwards freq limit := by
  have nsec : ∀ first second, first ≤ second → second ≤ limit →
      getNsec freq first ≤ getNsec freq second := by
    intro first second le within
    rw [getNsec_of_fits (fits.earlier within), getNsec_of_fits (fits.earlier (le.trans within))]
    exact scaled_mono le
  constructor
  · exact nsec
  · intro readings sorted within
    rw [List.pairwise_map]
    apply sorted.imp_of_mem
    intro first second _ mem le
    exact notAfter_of_le (nsec first second le (within second mem))

theorem fits_of_neverBackwards {freq limit : Nat} (positive : 1 ≤ freq) (bounded : freq ≤ 10 ^ 9)
    (forwards : NeverBackwards freq limit) : Fits freq limit := by
  have below : ∀ time, time ≤ limit → Fits freq time := by
    intro time
    induction time with
    | zero => exact fun _ => fits_zero freq
    | succ time ih =>
      intro within
      by_contra overflow
      have back := getNsec_succ_lt positive bounded (ih (Nat.le_of_succ_le within)) overflow
      exact absurd (forwards.nsec time (time + 1) (Nat.le_succ time) within) (Nat.not_le.2 back)
  exact below limit (Nat.le_refl limit)

/-- The clock never runs backwards before a reading exactly if the products fit at it. -/
theorem neverBackwards_iff {freq : Nat} (positive : 1 ≤ freq) (bounded : freq ≤ 10 ^ 9) (limit : Nat) :
    NeverBackwards freq limit ↔ Fits freq limit := by
  constructor
  · exact fits_of_neverBackwards positive bounded
  · exact Fits.neverBackwards

theorem neverBackwards_iff_cpu :
    NeverBackwards 390000000 11529215046068 ↔ Fits 390000000 11529215046068 :=
  neverBackwards_iff (by decide) (by decide) 11529215046068

theorem getNsec_falls_back : ∃ first second : Nat, first ≤ second ∧ second < 2 ^ 64 ∧
    getNsec 390000000 second < getNsec 390000000 first ∧
    ¬ (sysClockGettime 390000000 first).NotAfter (sysClockGettime 390000000 second) :=
  ⟨11529215046068, 11529215046069, by decide, by decide, by decide, by decide⟩

end SysCore.Time
