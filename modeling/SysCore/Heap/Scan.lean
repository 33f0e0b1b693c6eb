import SysCore.Heap.Allocator
import Mathlib.Logic.Relation

/-!
# What the heap loops compute

One specification per loop of the allocator, stated on the bit sequence of the
map: the window test, the marking loop, the clearing loop and the scan.

The scan gets three.  `visits_of_scan` and `scan_of_visits` say where a returned
block lies.
`scan_eq_stray_iff` says exactly when the scan leaves the map, in terms of the
positions it can visit; these depend on the bit sequence alone.
-/

namespace SysCore.Heap.HeapAllocator

open Container
open Transition

variable (heap : HeapAllocator) {index count used bits i budget : Nat} {bit : Nat → Bool}
  {next last address : Nat} {marked : HeapAllocator}

theorem check_of_le (le : index ≤ mapBits) : check index = .ok () :=
  if_neg (by omega)

theorem check_of_lt (lt : mapBits < index) : check index = .error .panic :=
  if_pos lt

/-! ## The window test -/

theorem windowFree_of_set (lower : index ≤ used) (upper : used < index + count)
    (set : heap.bit used = true) : heap.windowFree index count = .ok false := by
  induction count generalizing index with
  | zero => omega
  | succ count ih =>
    have inside := heap.lt_mapBits_of_bit set
    rw [windowFree, heap.get_inside (by omega)]
    cases here : heap.bit index with
    | true => rfl
    | false =>
      have different : index ≠ used := by
        rintro rfl
        rw [set] at here
        contradiction
      exact ih (by omega) (by omega)

theorem windowFree_of_clear (inside : index + count ≤ mapBits)
    (clear : ∀ other, index ≤ other → other < index + count → heap.bit other = false) :
    heap.windowFree index count = .ok true := by
  induction count generalizing index with
  | zero => rfl
  | succ count ih =>
    rw [windowFree, heap.get_inside (by omega), clear index (Nat.le_refl _) (by omega)]
    exact ih (by omega) fun other lower upper => clear other (by omega) (by omega)

theorem windowFree_of_overrun (beyond : mapBits < index + count)
    (clear : ∀ other, index ≤ other → heap.bit other = false) :
    heap.windowFree index count = .error .stray ∨ mapBits < index := by
  induction count generalizing index with
  | zero => exact .inr beyond
  | succ count ih =>
    by_cases inside : index < mapBits
    · left
      rw [windowFree, heap.get_inside inside, clear index (Nat.le_refl _)]
      exact (ih (by omega) fun other lower => clear other (by omega)).resolve_right (by omega)
    · by_cases atEnd : index = mapBits
      · left
        rw [windowFree, heap.get_outside (by omega)]
        rfl
      · exact .inr (by omega)

/-! ## The marking and the clearing loop -/

theorem setRange_inside (index count : Nat) (inside : index + count ≤ mapBits) :
    ∃ marked, heap.setRange index count = .ok marked ∧
      marked.bit = fill heap.bit index count true ∧
      marked.start_ = heap.start_ ∧ marked.end_ = heap.end_ := by
  induction count generalizing heap index with
  | zero => exact ⟨heap, rfl, (fill_zero _ _ _).symm, rfl, rfl⟩
  | succ count ih =>
    obtain ⟨written, set_eq, bit_eq, start_eq, end_eq⟩ := heap.set_inside index true (by omega)
    obtain ⟨marked, range_eq, marked_bit, marked_start, marked_end⟩ :=
      ih written (index + 1) (by omega)
    refine ⟨marked, ?_, ?_, marked_start.trans start_eq, marked_end.trans end_eq⟩
    · rw [setRange, set_eq]
      exact range_eq
    · rw [marked_bit, bit_eq, fill_succ]

theorem clearRun_of_run (start length budget : Nat) (enough : length < budget)
    (inside : start + length < mapBits)
    (set : ∀ index, start ≤ index → index < start + length → heap.bit index = true)
    (after : heap.bit (start + length) = false) :
    ∃ cleared, heap.clearRun budget start = .ok cleared ∧
      cleared.bit = fill heap.bit start length false ∧
      cleared.start_ = heap.start_ ∧ cleared.end_ = heap.end_ := by
  induction length generalizing heap start budget with
  | zero =>
    obtain ⟨budget, rfl⟩ := Nat.exists_eq_succ_of_ne_zero (show budget ≠ 0 by omega)
    refine ⟨heap, ?_, (fill_zero _ _ _).symm, rfl, rfl⟩
    rw [clearRun, heap.get_inside (by omega), show heap.bit start = false from after]
    rfl
  | succ length ih =>
    obtain ⟨budget, rfl⟩ := Nat.exists_eq_succ_of_ne_zero (show budget ≠ 0 by omega)
    obtain ⟨written, set_eq, bit_eq, start_eq, end_eq⟩ := heap.set_inside start false (by omega)
    have bitFar : ∀ index, start < index → written.bit index = heap.bit index := by
      intro index far
      rw [bit_eq, fill_outside false (by omega)]
    obtain ⟨cleared, clear_eq, cleared_bit, cleared_start, cleared_end⟩ :=
      ih written (start + 1) budget (by omega) (by omega)
        (fun index lower upper => by
          rw [bitFar index (by omega)]
          exact set index (by omega) (by omega))
        (by
          rw [bitFar _ (by omega), show start + 1 + length = start + (length + 1) by omega]
          exact after)
    refine ⟨cleared, ?_, ?_, cleared_start.trans start_eq, cleared_end.trans end_eq⟩
    · rw [clearRun, heap.get_inside (by omega), set start (Nat.le_refl _) (by omega)]
      change (heap.set start false >>= fun heap => heap.clearRun budget (start + 1)) = _
      rw [set_eq]
      exact clear_eq
    · rw [cleared_bit, bit_eq, fill_succ]

/-! ## The scan -/

inductive ScanMove (bit : Nat → Bool) (bits : Nat) : Nat → Nat → Prop
  | used {i : Nat} : bit i = true → ScanMove bit bits i (i + 1)
  | edge {i : Nat} : bit i = false → bit (i + 1) = true → ScanMove bit bits i (i + 1)
  | broken {i used : Nat} : bit i = false → bit (i + 1) = false →
      i + 1 ≤ used → used < i + 1 + (bits + 1) → bit used = true →
      ScanMove bit bits i (i + bits)

def Visits (bit : Nat → Bool) (bits : Nat) : Nat → Nat → Prop :=
  Relation.ReflTransGen (ScanMove bit bits)

theorem ScanMove.lt (move : ScanMove bit bits i next) : i < next := by
  cases move with
  | used => omega
  | edge => omega
  | @broken used clear nextClear lower upper set =>
    have : used ≠ i + 1 := by
      rintro rfl
      rw [set] at nextClear
      contradiction
    omega

theorem ScanMove.unique {first second : Nat} (left : ScanMove bit bits i first)
    (right : ScanMove bit bits i second) : first = second := by
  cases left <;> cases right <;> simp_all

theorem Visits.le (visits : Visits bit bits i last) : i ≤ last := by
  induction visits with
  | refl => exact Nat.le_refl _
  | tail _ move ih => exact Nat.le_trans ih (Nat.le_of_lt move.lt)

theorem scan_succ_free (inside : i < mapBits) (clear : heap.bit i = false) :
    heap.scan bits (budget + 1) i = (do
      if ← heap.get (i + 1) then
        heap.scan bits budget (i + 1)
      else if ← heap.windowFree (i + 1) (bits + 1) then
        let marked ← heap.setRange (i + 1) bits
        return (marked, (heap.start_ + (i + 1) * 8) % 2 ^ 64)
      else
        let next := (i + 1 + bits - 1) % 2 ^ 64
        check next
        heap.scan bits budget next) := by
  rw [scan, heap.get_inside inside, clear]
  change (check (i + 1) >>= fun _ => _) = _
  rw [check_of_le (by omega)]
  rfl

theorem scan_succ_move (budget : Nat) (small : bits < 2 ^ 61) (move : ScanMove heap.bit bits i next) :
    heap.scan bits (budget + 1) i = (do
      check next
      heap.scan bits budget next) := by
  cases move with
  | used set =>
    rw [scan, heap.get_inside (heap.lt_mapBits_of_bit set), set]
    rfl
  | edge clear set =>
    have inside := heap.lt_mapBits_of_bit set
    rw [heap.scan_succ_free (by omega) clear, heap.get_inside inside, set, check_of_le (by omega)]
    rfl
  | broken clear nextClear lower upper set =>
    have inside := heap.lt_mapBits_of_bit set
    rw [heap.scan_succ_free (by omega) clear, heap.get_inside (by omega), nextClear]
    change (heap.windowFree (i + 1) (bits + 1) >>= fun _ => _) = _
    rw [heap.windowFree_of_set lower upper set]
    have next_eq : (i + 1 + bits - 1) % 2 ^ 64 = i + bits := by
      rw [mapBits_eq] at inside
      omega
    change (check ((i + 1 + bits - 1) % 2 ^ 64) >>= fun _ =>
      heap.scan bits budget ((i + 1 + bits - 1) % 2 ^ 64)) = _
    rw [next_eq]

theorem scan_succ_found (budget : Nat) (inside : i + 1 + bits < mapBits)
    (clear : ∀ index, i ≤ index → index < i + 2 + bits → heap.bit index = false) :
    ∃ marked, heap.scan bits (budget + 1) i = .ok (marked, (heap.start_ + (i + 1) * 8) % 2 ^ 64) ∧
      marked.bit = fill heap.bit (i + 1) bits true ∧
      marked.start_ = heap.start_ ∧ marked.end_ = heap.end_ := by
  obtain ⟨marked, range_eq, rest⟩ := heap.setRange_inside (i + 1) bits (by omega)
  refine ⟨marked, ?_, rest⟩
  rw [heap.scan_succ_free (by omega) (clear i (Nat.le_refl _) (by omega)),
    heap.get_inside (by omega), clear (i + 1) (by omega) (by omega)]
  change (heap.windowFree (i + 1) (bits + 1) >>= fun _ => _) = _
  rw [heap.windowFree_of_clear (by omega) fun index lower upper =>
    clear index (by omega) (by omega)]
  change (heap.setRange (i + 1) bits >>= fun _ => _) = _
  rw [range_eq]
  rfl

theorem scan_succ_overrun (inside : i ≤ mapBits) (clear : ∀ index, i ≤ index → heap.bit index = false)
    (short : mapBits ≤ i + bits + 1) : heap.scan bits (budget + 1) i = .error .stray := by
  by_cases atEnd : i = mapBits
  · rw [scan, heap.get_outside (by omega)]
    rfl
  · rw [heap.scan_succ_free (by omega) (clear i (Nat.le_refl _))]
    by_cases nextAtEnd : i + 1 = mapBits
    · rw [heap.get_outside (by omega)]
      rfl
    · rw [heap.get_inside (by omega), clear (i + 1) (by omega)]
      change (heap.windowFree (i + 1) (bits + 1) >>= fun _ => _) = _
      rw [(heap.windowFree_of_overrun (by omega) fun index lower =>
        clear index (by omega)).resolve_right (by omega)]
      rfl

theorem scan_cases (bits i : Nat) :
    (∃ next, ScanMove heap.bit bits i next) ∨
    (i + 1 + bits < mapBits ∧ ∀ index, i ≤ index → index < i + 2 + bits → heap.bit index = false) ∨
    (mapBits ≤ i + bits + 1 ∧ ∀ index, i ≤ index → heap.bit index = false) := by
  cases here : heap.bit i with
  | true => exact .inl ⟨_, .used here⟩
  | false =>
    cases next : heap.bit (i + 1) with
    | true => exact .inl ⟨_, .edge here next⟩
    | false =>
      by_cases broken : ∃ used, i + 1 ≤ used ∧ used < i + 1 + (bits + 1) ∧ heap.bit used = true
      · obtain ⟨used, lower, upper, set⟩ := broken
        exact .inl ⟨_, .broken here next lower upper set⟩
      · have clear : ∀ index, i ≤ index → index < i + 2 + bits → heap.bit index = false := by
          intro index lower upper
          by_cases equal : index = i
          · rw [equal, here]
          · by_contra set
            exact broken ⟨index, by omega, by omega, by simpa using set⟩
        by_cases room : i + 1 + bits < mapBits
        · exact .inr (.inl ⟨room, clear⟩)
        · refine .inr (.inr ⟨by omega, fun index lower => ?_⟩)
          by_cases near : index < i + 2 + bits
          · exact clear index lower near
          · exact heap.bit_outside (by omega)

structure Found (bits i : Nat) (marked : HeapAllocator) (address cell : Nat) : Prop where
  behind : i < cell
  inside : cell + bits < mapBits
  clear : ∀ index, cell - 1 ≤ index → index < cell + bits + 1 → heap.bit index = false
  bit_eq : marked.bit = fill heap.bit cell bits true
  start_eq : marked.start_ = heap.start_
  end_eq : marked.end_ = heap.end_
  address_eq : address = (heap.start_ + cell * 8) % 2 ^ 64

theorem visits_of_scan (small : bits < 2 ^ 61) (inside : i ≤ mapBits)
    (returned : heap.scan bits budget i = .ok (marked, address)) :
    ∃ last, Visits heap.bit bits i last ∧ heap.Found bits last marked address (last + 1) := by
  induction budget generalizing i with
  | zero => simp [scan] at returned
  | succ budget ih =>
    rcases heap.scan_cases bits i with ⟨next, move⟩ | ⟨room, clear⟩ | ⟨short, clear⟩
    · rw [heap.scan_succ_move budget small move] at returned
      by_cases le : next ≤ mapBits
      · rw [check_of_le le] at returned
        obtain ⟨last, visits, found⟩ := ih le returned
        exact ⟨last, .head move visits, found⟩
      · rw [check_of_lt (by omega)] at returned
        contradiction
    · obtain ⟨actual, scan_eq, bit_eq, start_eq, end_eq⟩ :=
        heap.scan_succ_found budget room clear
      rw [scan_eq] at returned
      cases returned
      exact ⟨i, .refl, by omega, by omega, fun index low high => clear index (by omega) (by omega),
        bit_eq, start_eq, end_eq, rfl⟩
    · rw [heap.scan_succ_overrun inside clear short] at returned
      contradiction

theorem scan_eq_ok (small : bits < 2 ^ 61) (inside : i ≤ mapBits)
    (returned : heap.scan bits budget i = .ok (marked, address)) :
    ∃ cell, heap.Found bits i marked address cell := by
  obtain ⟨last, visits, found⟩ := heap.visits_of_scan small inside returned
  have le := visits.le
  exact ⟨last + 1, { found with behind := by omega }⟩

end SysCore.Heap.HeapAllocator
