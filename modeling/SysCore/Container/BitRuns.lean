import Mathlib.Data.List.Basic
import Mathlib.Data.List.Nodup

/-!
# Maximal runs of a bit sequence

A bit sequence can store a family of blocks without their lengths when every
block is a maximal run of set bits: the start of a run determines its end.
`Represents bit blocks` is that correspondence.  The file proves it a bijection
between blocks and maximal runs and shows that filling a free window with a
clear bit on both sides, or clearing one run, keeps it.
-/

namespace SysCore.Container

open List

structure IsRun (bit : Nat → Bool) (start length : Nat) : Prop where
  nonempty : 0 < length
  set : ∀ index, start ≤ index → index < start + length → bit index = true
  after : bit (start + length) = false
  before : start = 0 ∨ bit (start - 1) = false

def fill (bit : Nat → Bool) (start length : Nat) (value : Bool) : Nat → Bool :=
  fun index => if start ≤ index ∧ index < start + length then value else bit index

variable {bit : Nat → Bool} {start length index : Nat}

theorem fill_inside (value : Bool) (lower : start ≤ index) (upper : index < start + length) :
    fill bit start length value index = value :=
  if_pos ⟨lower, upper⟩

theorem fill_outside (value : Bool) (outside : index < start ∨ start + length ≤ index) :
    fill bit start length value index = bit index :=
  if_neg (by omega)

@[simp]
theorem fill_zero (bit : Nat → Bool) (start : Nat) (value : Bool) :
    fill bit start 0 value = bit := by
  funext index
  exact fill_outside value (by omega)

theorem fill_succ (bit : Nat → Bool) (start length : Nat) (value : Bool) :
    fill (fill bit start 1 value) (start + 1) length value = fill bit start (length + 1) value := by
  funext index
  unfold fill
  split_ifs <;> first | rfl | omega

theorem fill_fill_of_clear (clear : ∀ index, start ≤ index → index < start + length → bit index = false) :
    fill (fill bit start length true) start length false = bit := by
  funext index
  by_cases inside : start ≤ index ∧ index < start + length
  · rw [fill_inside false inside.1 inside.2, clear index inside.1 inside.2]
  · rw [fill_outside false (by omega), fill_outside true (by omega)]

theorem IsRun.eq_of_common {start' length' : Nat} (first : IsRun bit start length)
    (second : IsRun bit start' length') (lower : start ≤ index) (upper : index < start + length)
    (lower' : start' ≤ index) (upper' : index < start' + length') :
    start = start' ∧ length = length' := by
  -- A run that starts strictly inside another one has a set bit before it.
  have noInner : ∀ {s l s' l' : Nat}, IsRun bit s l → IsRun bit s' l' →
      s < s' → s' ≤ index → index < s + l → False := by
    intro s l s' l' outer inner less le lt
    have set := outer.set (s' - 1) (by omega) (by omega)
    rcases inner.before with zero | clear
    · omega
    · rw [set] at clear
      contradiction
  have noLonger : ∀ {l l' : Nat}, IsRun bit start l → IsRun bit start l' → l < l' → False := by
    intro l l' short long less
    have set := long.set (start + l) (by omega) (by omega)
    rw [short.after] at set
    contradiction
  have start_eq : start = start' := by
    rcases Nat.lt_trichotomy start start' with less | equal | greater
    · exact (noInner first second less lower' upper).elim
    · exact equal
    · exact (noInner second first greater lower upper').elim
  subst start'
  refine ⟨rfl, ?_⟩
  rcases Nat.lt_trichotomy length length' with less | equal | greater
  · exact (noLonger first second less).elim
  · exact equal
  · exact (noLonger second first greater).elim

structure Represents (bit : Nat → Bool) (blocks : List (Nat × Nat)) : Prop where
  nodup : blocks.Nodup
  run : ∀ block ∈ blocks, IsRun bit block.1 block.2
  positive : ∀ block ∈ blocks, 0 < block.1
  covered : ∀ index, bit index = true →
    ∃ block ∈ blocks, block.1 ≤ index ∧ index < block.1 + block.2

namespace Represents

variable {bit : Nat → Bool} {blocks : List (Nat × Nat)}

theorem nil : Represents (fun _ => false) [] where
  nodup := nodup_nil
  run := by simp
  positive := by simp
  covered := by simp

variable (represents : Represents bit blocks)
include represents

theorem isRun_iff_mem (start length : Nat) : IsRun bit start length ↔ (start, length) ∈ blocks := by
  constructor
  · intro isRun
    have startSet := isRun.set start (Nat.le_refl _) (by have := isRun.nonempty; omega)
    obtain ⟨block, mem, lower, upper⟩ := represents.covered start startSet
    obtain ⟨start_eq, length_eq⟩ := (represents.run block mem).eq_of_common isRun
      lower upper (Nat.le_refl _) (by have := isRun.nonempty; omega)
    rw [← start_eq, ← length_eq]
    exact mem
  · exact represents.run (start, length)

theorem eq_of_common {first second : Nat × Nat} (firstMem : first ∈ blocks) (secondMem : second ∈ blocks)
    (index : Nat) (inFirst : first.1 ≤ index ∧ index < first.1 + first.2)
    (inSecond : second.1 ≤ index ∧ index < second.1 + second.2) : first = second := by
  obtain ⟨start_eq, length_eq⟩ := (represents.run first firstMem).eq_of_common
    (represents.run second secondMem) inFirst.1 inFirst.2 inSecond.1 inSecond.2
  exact Prod.ext start_eq length_eq

theorem disjoint_of_clear {block : Nat × Nat} (mem : block ∈ blocks) (start length : Nat)
    (clear : ∀ index, start ≤ index → index < start + length → bit index = false) (nonempty : 0 < length) :
    block.1 + block.2 ≤ start ∨ start + length ≤ block.1 := by
  have blockRun := represents.run block mem
  by_contra overlap
  -- The larger of the two starts lies in both ranges.
  have set := blockRun.set (max block.1 start) (Nat.le_max_left _ _) (by
    have := blockRun.nonempty; omega)
  have isClear := clear (max block.1 start) (Nat.le_max_right _ _) (by omega)
  rw [set] at isClear
  contradiction

theorem insert {start length : Nat} (positive : 0 < start) (nonempty : 0 < length)
    (clear : ∀ index, start - 1 ≤ index → index < start + length + 1 → bit index = false) :
    Represents (fill bit start length true) ((start, length) :: blocks) := by
  have apart : ∀ block ∈ blocks, block.1 + block.2 ≤ start - 1 ∨ start + length + 1 ≤ block.1 := by
    intro block mem
    have := represents.disjoint_of_clear mem (start - 1) (length + 2)
      (fun index lower upper => clear index lower (by omega)) (by omega)
    omega
  constructor
  · refine nodup_cons.mpr ⟨fun mem => ?_, represents.nodup⟩
    have := apart _ mem
    simp only at this
    omega
  · intro block mem
    rcases mem_cons.mp mem with rfl | mem
    · refine ⟨nonempty, fun index lower upper => fill_inside true lower upper, ?_, .inr ?_⟩
      · rw [fill_outside true (by simp)]
        exact clear _ (by simp only; omega) (by simp)
      · rw [fill_outside true (by simp only; omega)]
        exact clear _ (by simp) (by simp only; omega)
    · have blockRun := represents.run block mem
      have far := apart block mem
      have blockPositive := represents.positive block mem
      refine ⟨blockRun.nonempty, fun index lower upper => ?_, ?_, .inr ?_⟩
      · rw [fill_outside true (by omega)]
        exact blockRun.set index lower upper
      · rw [fill_outside true (by omega)]
        exact blockRun.after
      · rw [fill_outside true (by omega)]
        exact blockRun.before.resolve_left (by omega)
  · intro block mem
    rcases mem_cons.mp mem with rfl | mem
    · exact positive
    · exact represents.positive block mem
  · intro index set
    by_cases inside : start ≤ index ∧ index < start + length
    · exact ⟨(start, length), mem_cons_self, inside⟩
    · rw [fill_outside true (by omega)] at set
      obtain ⟨block, mem, bounds⟩ := represents.covered index set
      exact ⟨block, mem_cons_of_mem _ mem, bounds⟩

theorem erase {block : Nat × Nat} (mem : block ∈ blocks) :
    Represents (fill bit block.1 block.2 false) (blocks.erase block) := by
  -- Any other block keeps its bits and both of its clear neighbours.
  have apart : ∀ other ∈ blocks, other ≠ block →
      other.1 + other.2 < block.1 ∨ block.1 + block.2 < other.1 := by
    intro other otherMem different
    by_contra close
    have blockRun := represents.run block mem
    have otherRun := represents.run other otherMem
    by_cases overlap : other.1 + other.2 ≤ block.1 ∨ block.1 + block.2 ≤ other.1
    · rcases overlap with left | right
      · have after := otherRun.after
        rw [show other.1 + other.2 = block.1 by omega,
          blockRun.set block.1 (Nat.le_refl _) (by have := blockRun.nonempty; omega)] at after
        contradiction
      · have after := blockRun.after
        rw [show block.1 + block.2 = other.1 by omega,
          otherRun.set other.1 (Nat.le_refl _) (by have := otherRun.nonempty; omega)] at after
        contradiction
    · have := blockRun.nonempty
      have := otherRun.nonempty
      exact different (represents.eq_of_common otherMem mem
        (max other.1 block.1) ⟨by omega, by omega⟩ ⟨by omega, by omega⟩)
  have inErase : ∀ other, other ∈ blocks.erase block ↔ other ≠ block ∧ other ∈ blocks :=
    fun other => List.Nodup.mem_erase_iff represents.nodup
  constructor
  · exact represents.nodup.erase block
  · intro other otherMem
    obtain ⟨different, otherMem⟩ := (inErase other).mp otherMem
    have far := apart other otherMem different
    have otherRun := represents.run other otherMem
    have otherPositive := represents.positive other otherMem
    refine ⟨otherRun.nonempty, fun index lower upper => ?_, ?_, .inr ?_⟩
    · rw [fill_outside false (by omega)]
      exact otherRun.set index lower upper
    · rw [fill_outside false (by omega)]
      exact otherRun.after
    · rw [fill_outside false (by omega)]
      exact otherRun.before.resolve_left (by omega)
  · intro other otherMem
    exact represents.positive other ((inErase other).mp otherMem).2
  · intro index set
    by_cases inside : block.1 ≤ index ∧ index < block.1 + block.2
    · rw [fill_inside false inside.1 inside.2] at set
      contradiction
    · rw [fill_outside false (by omega)] at set
      obtain ⟨other, otherMem, bounds⟩ := represents.covered index set
      refine ⟨other, (inErase other).mpr ⟨?_, otherMem⟩, bounds⟩
      rintro rfl
      exact inside bounds

end Represents

end SysCore.Container
