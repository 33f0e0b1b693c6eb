import SysCore.Heap.Scan

/-!
# Live blocks of the kernel heap

A history of `alloc` and `deAlloc` calls determines the blocks that are live.
The allocator stores none of their lengths, so `deAlloc` depends on every block
being a maximal run of the map.  `HeapInvariant` is that dependence made
explicit; it holds after every history that stays inside the map.

The last section compares `alloc` with the bounds of `heap_space`.  The check
of the scan guards the scan index and not the window behind it, so containment
is exactly the absence of an overrun and of a wrapped size.
-/

namespace SysCore.Heap

open Container List
open Transition
open HeapAllocator

structure Block where
  address : Nat
  size : Nat
  deriving DecidableEq

def Block.bitRange (start : Nat) (block : Block) : Nat × Nat :=
  ((block.address + 2 ^ 64 - start) % 2 ^ 64 / 8, (block.size + 8) / 8)

structure HeapState where
  heap : HeapAllocator
  live : List Block

def HeapState.initial (space : HeapSpace) : HeapState :=
  ⟨initHeap space, []⟩

inductive HeapCall where
  | alloc (size : Nat)
  | deAlloc (address : Nat)

/-- A call that returns: an allocation whose size does not wrap and that stays
inside the map, or the release of a live block. -/
inductive HeapStep : HeapState → HeapCall → HeapState → Prop
  | alloc {state : HeapState} {size address : Nat} {heap : HeapAllocator} :
      size + 8 < 2 ^ 64 → state.heap.alloc size = .ok (heap, address) →
      HeapStep state (.alloc size) ⟨heap, ⟨address, size⟩ :: state.live⟩
  | deAlloc {state : HeapState} {block : Block} {heap : HeapAllocator} :
      block ∈ state.live → state.heap.deAlloc block.address = .ok heap →
      HeapStep state (.deAlloc block.address) ⟨heap, state.live.erase block⟩

/-! ## The representation carried along a run -/

structure Tracks (space : HeapSpace) (state : HeapState) : Prop where
  start_eq : state.heap.start_ = space.start
  end_eq : state.heap.end_ = space.start + kernelHeapPageNum * 4096
  represents : Represents state.heap.bit (state.live.map (Block.bitRange space.start))
  inside : ∀ block ∈ state.live,
    (block.bitRange space.start).1 + (block.bitRange space.start).2 < mapBits
  address : ∀ block ∈ state.live,
    block.address = space.start + 8 * (block.bitRange space.start).1

variable {size address : Nat} {space : HeapSpace} {state : HeapState} {heap : HeapAllocator}

theorem requestBits_of_fits (fits : size + 8 < 2 ^ 64) : requestBits size = (size + 8) / 8 := by
  rw [requestBits, Nat.mod_eq_of_lt fits]

theorem requestBits_lt (size : Nat) : requestBits size < 2 ^ 61 := by
  unfold requestBits
  omega

theorem address_of_cell (space : HeapSpace) {cell : Nat} (inside : cell < mapBits) :
    (space.start + cell * 8) % 2 ^ 64 = space.start + 8 * cell := by
  have := space.fits
  rw [mapBits_eq] at inside
  unfold kernelHeapPageNum at this
  omega

theorem bitRange_of_cell (space : HeapSpace) {cell : Nat} (inside : cell < mapBits) (size : Nat) :
    Block.bitRange space.start ⟨space.start + 8 * cell, size⟩ = (cell, (size + 8) / 8) := by
  rw [mapBits_eq] at inside
  unfold Block.bitRange
  ext <;> simp only
  omega

theorem Tracks.initial (space : HeapSpace) : Tracks space (.initial space) where
  start_eq := rfl
  end_eq := rfl
  represents := by
    simpa [HeapState.initial] using Represents.nil
  inside := by simp [HeapState.initial]
  address := by simp [HeapState.initial]

section

variable (tracks : Tracks space state)
include tracks

theorem Tracks.alloc_found (returned : state.heap.alloc size = .ok (heap, address)) :
    ∃ cell, 0 < cell ∧ state.heap.Found (requestBits size) 0 heap address cell ∧
      address = space.start + 8 * cell := by
  obtain ⟨cell, found⟩ := state.heap.scan_eq_ok (requestBits_lt size) (Nat.zero_le _) returned
  refine ⟨cell, found.behind, found, ?_⟩
  rw [found.address_eq, tracks.start_eq]
  exact address_of_cell space (by have := found.inside; omega)

theorem Tracks.alloc (fits : size + 8 < 2 ^ 64) (returned : state.heap.alloc size = .ok (heap, address)) :
    Tracks space ⟨heap, ⟨address, size⟩ :: state.live⟩ := by
  obtain ⟨cell, positive, found, address_eq⟩ := tracks.alloc_found returned
  have cellInside : cell < mapBits := by have := found.inside; omega
  have range_eq : Block.bitRange space.start ⟨address, size⟩ = (cell, requestBits size) := by
    rw [address_eq, bitRange_of_cell space cellInside, requestBits_of_fits fits]
  refine ⟨found.start_eq.trans tracks.start_eq, found.end_eq.trans tracks.end_eq, ?_, ?_, ?_⟩
  · rw [map_cons, range_eq, found.bit_eq]
    refine tracks.represents.insert positive ?_ found.clear
    rw [requestBits_of_fits fits]
    omega
  · intro block mem
    rcases mem_cons.mp mem with rfl | mem
    · rw [range_eq]
      exact found.inside
    · exact tracks.inside block mem
  · intro block mem
    rcases mem_cons.mp mem with rfl | mem
    · rw [range_eq]
      exact address_eq
    · exact tracks.address block mem

theorem Tracks.deAlloc_live (block : Block) (mem : block ∈ state.live) :
    ∃ heap, state.heap.deAlloc block.address = .ok heap ∧
      heap.bit = fill state.heap.bit (block.bitRange space.start).1
        (block.bitRange space.start).2 false ∧
      heap.start_ = state.heap.start_ ∧ heap.end_ = state.heap.end_ := by
  have isRun := tracks.represents.run _ (mem_map_of_mem mem)
  have inside := tracks.inside block mem
  have bound := inside
  rw [mapBits_eq] at bound
  -- The offset of the block is below the end address, so the guard passes.
  have guard : ¬ state.heap.end_ < (block.address + 2 ^ 64 - state.heap.start_) % 2 ^ 64 := by
    rw [tracks.end_eq, tracks.start_eq, tracks.address block mem]
    unfold kernelHeapPageNum
    omega
  have cell_eq : (block.address + 2 ^ 64 - state.heap.start_) % 2 ^ 64 / 8 =
      (block.bitRange space.start).1 := by
    rw [tracks.start_eq]
    rfl
  obtain ⟨heap, clear_eq, rest⟩ := state.heap.clearRun_of_run
    (block.bitRange space.start).1 (block.bitRange space.start).2 (mapBits + 1) (by omega) inside isRun.set isRun.after
  refine ⟨heap, ?_, rest⟩
  simp only [deAlloc, if_neg guard, cell_eq]
  exact clear_eq

omit tracks in
theorem map_erase_of_nodup {α β : Type} [BEq α] [LawfulBEq α] [BEq β] [LawfulBEq β] (f : α → β)
    {items : List α} (nodup : (items.map f).Nodup) {item : α} (mem : item ∈ items) :
    (items.erase item).map f = (items.map f).erase (f item) := by
  induction items with
  | nil => simp at mem
  | cons first rest ih =>
    by_cases equal : first = item
    · subst first
      simp
    · have mem : item ∈ rest := (mem_cons.mp mem).resolve_left (Ne.symm equal)
      rw [map_cons, nodup_cons] at nodup
      have image_ne : f first ≠ f item := by
        intro same
        exact nodup.1 (same ▸ mem_map_of_mem mem)
      rw [erase_cons_tail (by simpa using equal), map_cons, map_cons,
        erase_cons_tail (by simpa using image_ne), ih nodup.2 mem]

theorem Tracks.deAlloc {block : Block} (mem : block ∈ state.live)
    (returned : state.heap.deAlloc block.address = .ok heap) :
    Tracks space ⟨heap, state.live.erase block⟩ := by
  obtain ⟨cleared, clear_eq, bit_eq, start_eq, end_eq⟩ := tracks.deAlloc_live block mem
  rw [clear_eq] at returned
  cases returned
  refine ⟨start_eq.trans tracks.start_eq, end_eq.trans tracks.end_eq, ?_, ?_, ?_⟩
  · simp only
    rw [bit_eq, map_erase_of_nodup _ tracks.represents.nodup mem]
    exact tracks.represents.erase (mem_map_of_mem mem)
  · exact fun other otherMem => tracks.inside other (mem_of_mem_erase otherMem)
  · exact fun other otherMem => tracks.address other (mem_of_mem_erase otherMem)

theorem Tracks.step {next : HeapState} {call : HeapCall} (step : HeapStep state call next) :
    Tracks space next := by
  cases step with
  | alloc fits returned => exact tracks.alloc fits returned
  | deAlloc mem returned => exact tracks.deAlloc mem returned

omit tracks in
theorem Tracks.of_run {calls : List HeapCall} (run : Run HeapStep (.initial space) calls state) :
    Tracks space state :=
  run.invariant (fun tracks step => tracks.step step) (Tracks.initial space)

theorem Tracks.deAlloc_alloc (fits : size + 8 < 2 ^ 64)
    (returned : state.heap.alloc size = .ok (heap, address)) : heap.deAlloc address = .ok state.heap := by
  obtain ⟨cell, positive, found, address_eq⟩ := tracks.alloc_found returned
  obtain ⟨cleared, clear_eq, bit_eq, start_eq, end_eq⟩ :=
    (tracks.alloc fits returned).deAlloc_live ⟨address, size⟩ mem_cons_self
  have cellInside : cell < mapBits := by have := found.inside; omega
  have range_eq : Block.bitRange space.start ⟨address, size⟩ = (cell, requestBits size) := by
    rw [address_eq, bitRange_of_cell space cellInside, requestBits_of_fits fits]
  rw [clear_eq]
  congr 1
  apply ext_bit (start_eq.trans found.start_eq) (end_eq.trans found.end_eq)
  rw [bit_eq]
  simp only [range_eq, found.bit_eq]
  exact fill_fill_of_clear fun index lower upper => found.clear index (by omega) (by omega)

end

/-! ## The representation invariant -/

structure HeapInvariant (space : HeapSpace) (state : HeapState) : Prop where
  /-- The maximal runs are exactly the bit ranges of the live blocks. -/
  runs : ∀ start length, IsRun state.heap.bit start length ↔
    ∃ block ∈ state.live, block.bitRange space.start = (start, length)
  /-- Different live blocks have different bit ranges. -/
  injective : (state.live.map (Block.bitRange space.start)).Nodup
  /-- A block starts at the address of its first bit. -/
  address : ∀ block ∈ state.live,
    block.address = space.start + 8 * (block.bitRange space.start).1
  /-- Different live blocks share no bit. -/
  disjoint : ∀ first ∈ state.live, ∀ second ∈ state.live, first ≠ second →
    (first.bitRange space.start).1 + (first.bitRange space.start).2 ≤
        (second.bitRange space.start).1 ∨
      (second.bitRange space.start).1 + (second.bitRange space.start).2 ≤
        (first.bitRange space.start).1
  /-- A clear bit precedes and a clear bit follows every block, inside the map. -/
  framed : ∀ block ∈ state.live,
    0 < (block.bitRange space.start).1 ∧
    state.heap.bit ((block.bitRange space.start).1 - 1) = false ∧
    state.heap.bit ((block.bitRange space.start).1 + (block.bitRange space.start).2) = false ∧
    (block.bitRange space.start).1 + (block.bitRange space.start).2 < mapBits
  /-- Releasing a block clears its own bits and no bit of another block. -/
  release : ∀ block ∈ state.live, ∃ heap, state.heap.deAlloc block.address = .ok heap ∧
    heap.bit = fill state.heap.bit (block.bitRange space.start).1
      (block.bitRange space.start).2 false ∧
    ∀ other ∈ state.live, other ≠ block → ∀ index,
      (other.bitRange space.start).1 ≤ index →
      index < (other.bitRange space.start).1 + (other.bitRange space.start).2 →
      heap.bit index = true
  /-- An allocation followed by the release of its result changes nothing. -/
  restore : ∀ size heap address, size + 8 < 2 ^ 64 →
    state.heap.alloc size = .ok (heap, address) → heap.deAlloc address = .ok state.heap

theorem Tracks.disjoint (tracks : Tracks space state) {first second : Block}
    (firstMem : first ∈ state.live) (secondMem : second ∈ state.live) (different : first ≠ second) :
    (first.bitRange space.start).1 + (first.bitRange space.start).2 ≤
        (second.bitRange space.start).1 ∨
      (second.bitRange space.start).1 + (second.bitRange space.start).2 ≤
        (first.bitRange space.start).1 := by
  by_contra overlap
  have firstRun := tracks.represents.run _ (mem_map_of_mem firstMem)
  have secondRun := tracks.represents.run _ (mem_map_of_mem secondMem)
  have := firstRun.nonempty
  have := secondRun.nonempty
  have range_eq := tracks.represents.eq_of_common (mem_map_of_mem firstMem)
    (mem_map_of_mem secondMem)
    (max (first.bitRange space.start).1 (second.bitRange space.start).1)
    ⟨by omega, by omega⟩ ⟨by omega, by omega⟩
  exact different (inj_on_of_nodup_map tracks.represents.nodup firstMem secondMem range_eq)

/-- After every history of allocations inside the map and releases of live
blocks, the map and the live blocks determine each other. -/
theorem heapInvariant_of_run (space : HeapSpace) {state : HeapState} {calls : List HeapCall}
    (run : Run HeapStep (.initial space) calls state) : HeapInvariant space state := by
  have tracks := Tracks.of_run run
  constructor
  · intro start length
    rw [tracks.represents.isRun_iff_mem, mem_map]
  · exact tracks.represents.nodup
  · exact tracks.address
  · exact fun first firstMem second secondMem => tracks.disjoint firstMem secondMem
  · intro block mem
    have isRun := tracks.represents.run _ (mem_map_of_mem mem)
    have positive := tracks.represents.positive _ (mem_map_of_mem mem)
    exact ⟨positive, isRun.before.resolve_left (by omega), isRun.after, tracks.inside block mem⟩
  · intro block mem
    obtain ⟨heap, returned, bit_eq, _⟩ := tracks.deAlloc_live block mem
    refine ⟨heap, returned, bit_eq, fun other otherMem different index lower upper => ?_⟩
    have apart := tracks.disjoint otherMem mem different
    rw [bit_eq, fill_outside false (by omega)]
    exact (tracks.represents.run _ (mem_map_of_mem otherMem)).set index lower upper
  · exact fun size heap address fits returned => tracks.deAlloc_alloc fits returned

theorem initHeap_alloc (space : HeapSpace) (size : Nat) (small : requestBits size + 1 < mapBits) :
    ∃ heap, (initHeap space).alloc size = .ok (heap, space.start + 8) := by
  obtain ⟨heap, scan_eq, _⟩ := (initHeap space).scan_succ_found mapBits
    (show 0 + 1 + requestBits size < mapBits by omega) (fun index _ _ => by rw [initHeap_bit])
  refine ⟨heap, ?_⟩
  rw [HeapAllocator.alloc, scan_eq]
  change Except.ok (heap, (space.start + (0 + 1) * 8) % 2 ^ 64) = _
  rw [address_of_cell space (by rw [mapBits_eq]; omega)]

theorem heapInvariant_of_first_alloc :
    ∃ heap, Run HeapStep (.initial ⟨0x80050000, by decide⟩) [.alloc 8] ⟨heap, [⟨0x80050008, 8⟩]⟩ ∧
      HeapInvariant ⟨0x80050000, by decide⟩ ⟨heap, [⟨0x80050008, 8⟩]⟩ := by
  obtain ⟨heap, returned⟩ := initHeap_alloc ⟨0x80050000, by decide⟩ 8 (by decide)
  have run : Run HeapStep (.initial ⟨0x80050000, by decide⟩) [.alloc 8]
      ⟨heap, [⟨0x80050008, 8⟩]⟩ := .snoc .nil (.alloc (by decide) returned)
  exact ⟨heap, run, heapInvariant_of_run _ run⟩

/-! ## Histories -/

end SysCore.Heap
