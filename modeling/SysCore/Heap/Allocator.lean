import SysCore.Container.BitRuns
import SysCore.Transition.Outcome
import Mathlib.Tactic.Common

/-!
# The kernel heap allocator

`HeapAllocator` hands out blocks of eight-byte cells and remembers them only in
a bitmap of 64-bit words, most significant bit first.  An access beyond the
last word is a stray access here: the source indexes the array without a check.
The scan of `alloc` and the clearing loop of `deAlloc` carry a step budget; the
results below show that the budget is never exhausted.
-/

namespace SysCore.Heap

open Container
open Transition

def kernelHeapPageNum : Nat := 150

def kernelHeapBitMapSize : Nat := kernelHeapPageNum * 512 / 64

def mapBits : Nat := kernelHeapBitMapSize * 64

theorem mapBits_eq : mapBits = 76800 := by decide

structure HeapAllocator where
  start_ : Nat
  end_ : Nat
  bitMap_ : Vector (BitVec 64) kernelHeapBitMapSize
  deriving DecidableEq

namespace HeapAllocator

def mask (bit : Nat) : BitVec 64 :=
  1#64 <<< (63 - bit % 64)

def get (heap : HeapAllocator) (bit : Nat) : Outcome Bool :=
  if inside : bit / 64 < kernelHeapBitMapSize then
    .ok (heap.bitMap_[bit / 64] &&& mask bit != 0#64)
  else
    .error .stray

def writtenWord (word : BitVec 64) (bit : Nat) (value : Bool) : BitVec 64 :=
  let raised := word ||| mask bit
  if value then raised else raised ^^^ mask bit

def set (heap : HeapAllocator) (bit : Nat) (value : Bool) : Outcome HeapAllocator :=
  if inside : bit / 64 < kernelHeapBitMapSize then
    let word := writtenWord heap.bitMap_[bit / 64] bit value
    .ok { heap with bitMap_ := heap.bitMap_.set (bit / 64) word }
  else
    .error .stray

def check (bit : Nat) : Outcome Unit :=
  if mapBits < bit then .error .panic else .ok ()

def requestBits (size : Nat) : Nat :=
  (size + 8) % 2 ^ 64 / 8

def windowFree (heap : HeapAllocator) : Nat → Nat → Outcome Bool
  | _, 0 => .ok true
  | bit, count + 1 => do
    if ← heap.get bit then
      return false
    else
      heap.windowFree (bit + 1) count

def setRange (heap : HeapAllocator) : Nat → Nat → Outcome HeapAllocator
  | _, 0 => .ok heap
  | bit, count + 1 => do
    let heap ← heap.set bit true
    heap.setRange (bit + 1) count

def scan (heap : HeapAllocator) (bits : Nat) : Nat → Nat → Outcome (HeapAllocator × Nat)
  | 0, _ => .error .hang
  | budget + 1, i => do
    if ← heap.get i then
      check (i + 1)
      heap.scan bits budget (i + 1)
    else
      check (i + 1)
      if ← heap.get (i + 1) then
        heap.scan bits budget (i + 1)
      else if ← heap.windowFree (i + 1) (bits + 1) then
        let marked ← heap.setRange (i + 1) bits
        return (marked, (heap.start_ + (i + 1) * 8) % 2 ^ 64)
      else
        -- `i += bits - 1` on the already incremented index
        let next := (i + 1 + bits - 1) % 2 ^ 64
        check next
        heap.scan bits budget next

def alloc (heap : HeapAllocator) (size : Nat) : Outcome (HeapAllocator × Nat) :=
  heap.scan (requestBits size) (mapBits + 1) 0

def clearRun (heap : HeapAllocator) : Nat → Nat → Outcome HeapAllocator
  | 0, _ => .error .hang
  | budget + 1, bit => do
    if ← heap.get bit then
      let heap ← heap.set bit false
      heap.clearRun budget (bit + 1)
    else
      return heap

def deAlloc (heap : HeapAllocator) (address : Nat) : Outcome HeapAllocator :=
  let start := (address + 2 ^ 64 - heap.start_) % 2 ^ 64
  if heap.end_ < start then
    .error .panic
  else
    heap.clearRun (mapBits + 1) (start / 8)

end HeapAllocator

/-- Where the linker put `heap_space`; the array lies inside the address
space. -/
structure HeapSpace where
  start : Nat
  fits : start + kernelHeapPageNum * 4096 < 2 ^ 64

def initHeap (space : HeapSpace) : HeapAllocator where
  start_ := space.start
  end_ := space.start + kernelHeapPageNum * 4096
  bitMap_ := Vector.replicate kernelHeapBitMapSize 0#64

def kMalloc (heap : HeapAllocator) (size : Nat) : Outcome (HeapAllocator × Nat) :=
  heap.alloc size

def kFree (heap : HeapAllocator) (p : Nat) : Outcome HeapAllocator :=
  if p ≠ 0 then heap.deAlloc p else .ok heap

namespace HeapAllocator

variable (heap : HeapAllocator)

/-! ## The map as a bit sequence -/

def bit (index : Nat) : Bool :=
  if inside : index / 64 < kernelHeapBitMapSize then
    (heap.bitMap_[index / 64]).getLsbD (63 - index % 64)
  else
    false

theorem div_lt_iff (index : Nat) : index / 64 < kernelHeapBitMapSize ↔ index < mapBits := by
  unfold mapBits
  omega

theorem bit_outside {index : Nat} (outside : mapBits ≤ index) : heap.bit index = false :=
  dif_neg (by rw [div_lt_iff]; omega)

theorem lt_mapBits_of_bit {index : Nat} (set : heap.bit index = true) : index < mapBits := by
  by_contra outside
  rw [heap.bit_outside (by omega)] at set
  contradiction

theorem and_mask_ne_zero (word : BitVec 64) (index : Nat) :
    (word &&& mask index != 0#64) = word.getLsbD (63 - index % 64) := by
  have mask_eq : mask index = BitVec.twoPow 64 (63 - index % 64) := by
    rw [mask, BitVec.twoPow_eq]
  have nonzero : BitVec.twoPow 64 (63 - index % 64) ≠ 0#64 := by
    intro zero
    have := congrArg (fun word => word.getLsbD (63 - index % 64)) zero
    simp only [BitVec.getLsbD_twoPow, BitVec.getLsbD_zero] at this
    simp at this
    omega
  rw [mask_eq, BitVec.and_twoPow]
  cases word.getLsbD (63 - index % 64) with
  | false => simp
  | true => simpa using nonzero

theorem get_inside {index : Nat} (inside : index < mapBits) :
    heap.get index = .ok (heap.bit index) := by
  have word := (div_lt_iff index).mpr inside
  rw [get, dif_pos word, bit, dif_pos word, and_mask_ne_zero]

theorem get_outside {index : Nat} (outside : mapBits ≤ index) : heap.get index = .error .stray :=
  dif_neg (by rw [div_lt_iff]; omega)

theorem getLsbD_written (word : BitVec 64) (index other : Nat) (value : Bool) :
    (writtenWord word index value).getLsbD (63 - other % 64) =
      if other % 64 = index % 64 then value else word.getLsbD (63 - other % 64) := by
  have mask_eq : mask index = BitVec.twoPow 64 (63 - index % 64) := by
    rw [mask, BitVec.twoPow_eq]
  have offset : 63 - other % 64 < 64 := by omega
  by_cases same : other % 64 = index % 64
  · rw [same] at offset
    cases value <;> simp [writtenWord, mask_eq, same, offset]
  · have apart : ¬ (63 - index % 64 = 63 - other % 64) := by omega
    cases value <;> simp [writtenWord, mask_eq, BitVec.getLsbD_twoPow, same, apart]

theorem set_inside (index : Nat) (value : Bool) (inside : index < mapBits) :
    ∃ written, heap.set index value = .ok written ∧
      written.bit = fill heap.bit index 1 value ∧
      written.start_ = heap.start_ ∧ written.end_ = heap.end_ := by
  have word := (div_lt_iff index).mpr inside
  let newWord := writtenWord heap.bitMap_[index / 64] index value
  refine ⟨{ heap with bitMap_ := heap.bitMap_.set (index / 64) newWord },
    dif_pos word, ?_, rfl, rfl⟩
  funext other
  unfold bit fill
  by_cases otherInside : other / 64 < kernelHeapBitMapSize
  · simp only [dif_pos otherInside]
    rw [Vector.getElem_set]
    by_cases sameWord : index / 64 = other / 64
    · simp only [if_pos sameWord, newWord, getLsbD_written]
      by_cases same : other % 64 = index % 64
      · rw [if_pos same, if_pos (by omega)]
      · rw [if_neg same, if_neg (by omega)]
        simp only [sameWord]
    · rw [if_neg sameWord, if_neg (by omega)]
  · simp only [dif_neg otherInside]
    rw [if_neg]
    have := (div_lt_iff other).not.mp otherInside
    omega

theorem ext_bit {first second : HeapAllocator} (start_eq : first.start_ = second.start_)
    (end_eq : first.end_ = second.end_) (bit_eq : first.bit = second.bit) : first = second := by
  obtain ⟨start, stop, map⟩ := first
  obtain ⟨start', stop', map'⟩ := second
  simp only at start_eq end_eq
  subst start_eq end_eq
  congr 1
  ext word wordInside offset offsetInside
  have := congrFun bit_eq (word * 64 + (63 - offset))
  have div_eq : (word * 64 + (63 - offset)) / 64 = word := by omega
  have mod_eq : 63 - (word * 64 + (63 - offset)) % 64 = offset := by omega
  simp only [bit, div_eq, mod_eq, dif_pos wordInside] at this
  simpa [BitVec.getLsbD_eq_getElem offsetInside] using this

@[simp]
theorem initHeap_bit (space : HeapSpace) : (initHeap space).bit = fun _ => false := by
  funext index
  unfold bit initHeap
  split <;> simp

end HeapAllocator

end SysCore.Heap
