import SysCore.Heap.Blocks
import SysCore.Process.World

/-!
# Addresses that do not belong to the kernel heap

`DeAlloc` compares the offset of an address, taken in 64 bits, with `end_`, which
is an address and not a length.  Below `start_` the offset wraps to a large
number, which the comparison catches unless the heap lies high in the address
space.  From the end of the heap on, addresses up to `start_ + end_` pass, and
the loop behind the comparison reads the map outside of its bounds.

The kernel does hand such addresses to `operator delete`: `~MemKeeper` and the
counted pointer to the page table delete pages of the pool.
-/

namespace SysCore.Heap

open Transition Paging Process

structure Trail where
  heap : HeapAllocator
  touched : List Nat
  halt : Option Halt

def Trail.outcome (trail : Trail) : Outcome HeapAllocator :=
  match trail.halt with
  | none => .ok trail.heap
  | some halt => .error halt

namespace HeapAllocator

def clearTrail (heap : HeapAllocator) (touched : List Nat) : Nat → Nat → Trail
  | 0, _ => ⟨heap, touched, some .hang⟩
  | budget + 1, bit =>
    match heap.get bit with
    | .error halt => ⟨heap, touched ++ [bit], some halt⟩
    | .ok false => ⟨heap, touched ++ [bit], none⟩
    | .ok true =>
      match heap.set bit false with
      | .error halt => ⟨heap, touched ++ [bit], some halt⟩
      | .ok heap => heap.clearTrail (touched ++ [bit]) budget (bit + 1)

def deAllocTrail (heap : HeapAllocator) (address : Nat) : Trail :=
  let start := (address + 2 ^ 64 - heap.start_) % 2 ^ 64
  if heap.end_ < start then
    ⟨heap, [], some .panic⟩
  else
    heap.clearTrail [] (mapBits + 1) (start / 8)

def Rejects (heap : HeapAllocator) (address : Nat) : Prop :=
  (heap.deAllocTrail address).halt = some .panic ∧ (heap.deAllocTrail address).heap = heap ∧
    ∀ bit ∈ (heap.deAllocTrail address).touched, bit < mapBits

theorem clearTrail_outcome (heap : HeapAllocator) (touched : List Nat) (budget bit : Nat) :
    (heap.clearTrail touched budget bit).outcome = heap.clearRun budget bit := by
  induction budget generalizing heap touched bit with
  | zero => rfl
  | succ budget ih =>
    rw [clearTrail, clearRun]
    cases heap.get bit with
    | error halt => rfl
    | ok value =>
      cases value with
      | false => rfl
      | true =>
        cases heap.set bit false with
        | error halt => simp [Trail.outcome]
        | ok cleared => simp [ih]

theorem deAllocTrail_outcome (heap : HeapAllocator) (address : Nat) :
    (heap.deAllocTrail address).outcome = heap.deAlloc address := by
  unfold deAllocTrail deAlloc
  dsimp only
  split
  · rfl
  · exact heap.clearTrail_outcome [] _ _

theorem deAllocTrail_of_outside (heap : HeapAllocator) {address : Nat}
    (passes : (address + 2 ^ 64 - heap.start_) % 2 ^ 64 ≤ heap.end_)
    (outside : mapBits ≤ (address + 2 ^ 64 - heap.start_) % 2 ^ 64 / 8) :
    heap.deAllocTrail address =
      ⟨heap, [(address + 2 ^ 64 - heap.start_) % 2 ^ 64 / 8], some .stray⟩ := by
  unfold deAllocTrail
  dsimp only
  rw [if_neg (Nat.not_lt.2 passes), clearTrail, heap.get_outside outside]
  rfl

theorem rejects_of_guard (heap : HeapAllocator) {address : Nat}
    (caught : heap.end_ < (address + 2 ^ 64 - heap.start_) % 2 ^ 64) : heap.Rejects address := by
  have trail_eq : heap.deAllocTrail address = ⟨heap, [], some .panic⟩ := if_pos caught
  unfold Rejects
  rw [trail_eq]
  exact ⟨rfl, rfl, fun bit bitMem => absurd bitMem List.not_mem_nil⟩

end HeapAllocator

open HeapAllocator

namespace HeapSpace

variable (space : HeapSpace)

def Foreign (address : Nat) : Prop :=
  address < 2 ^ 64 ∧ (address < space.start ∨ space.start + kernelHeapPageNum * 4096 ≤ address)

def Caught (address : Nat) : Prop :=
  2 * space.start + kernelHeapPageNum * 4096 < address ∨
    address < space.start ∧ 2 * space.start + kernelHeapPageNum * 4096 < address + 2 ^ 64

variable {space} {state : HeapState}

variable {address : Nat} (foreign : space.Foreign address)
include foreign

theorem Foreign.offset : mapBits ≤ (address + 2 ^ 64 - space.start) % 2 ^ 64 / 8 := by
  obtain ⟨address_lt, below | above⟩ := foreign
  · have fits := space.fits
    rw [mapBits_eq]
    unfold kernelHeapPageNum at fits
    omega
  · rw [mapBits_eq]
    unfold kernelHeapPageNum at above
    omega

theorem Foreign.caught_iff :
    space.Caught address ↔ space.start + kernelHeapPageNum * 4096 <
      (address + 2 ^ 64 - space.start) % 2 ^ 64 := by
  have fits := space.fits
  obtain ⟨address_lt, side⟩ := foreign
  unfold Caught kernelHeapPageNum at *
  omega

theorem Foreign.rejects_iff (tracks : Tracks space state) :
    state.heap.Rejects address ↔ space.Caught address := by
  rw [foreign.caught_iff]
  constructor
  · intro rejects
    by_contra passes
    have trail_eq := state.heap.deAllocTrail_of_outside
      (by rw [tracks.start_eq, tracks.end_eq]; exact Nat.not_lt.1 passes)
      (by rw [tracks.start_eq]; exact foreign.offset)
    have halted := rejects.1
    rw [trail_eq] at halted
    cases halted
  · intro caught
    apply rejects_of_guard
    rw [tracks.start_eq, tracks.end_eq]
    exact caught

theorem Foreign.strays (tracks : Tracks space state) (passes : ¬ space.Caught address) :
    state.heap.deAlloc address = .error .stray := by
  rw [foreign.caught_iff] at passes
  rw [← deAllocTrail_outcome, state.heap.deAllocTrail_of_outside]
  · rfl
  · rw [tracks.start_eq, tracks.end_eq]
    exact Nat.not_lt.1 passes
  · rw [tracks.start_eq]
    exact foreign.offset

end HeapSpace

/-! ## Pages of the pool -/

def baseAddress : Board → Nat
  | .k210 => 0x80020000
  | .qemu => 0x80200000

def HeapSpace.InImage (space : HeapSpace) (board : Board) : Prop :=
  baseAddress board ≤ space.start ∧ space.start + kernelHeapPageNum * 4096 ≤ board.kernelEnd

def operatorDelete (heap : HeapAllocator) (p : Nat) : Outcome HeapAllocator :=
  kFree heap p

def destroyMemKeeper : List Nat → HeapAllocator → Outcome HeapAllocator
  | [], heap => .ok heap
  | element :: rest, heap => do
    let heap ← operatorDelete heap element
    destroyMemKeeper rest heap

def destroyPageTable (pageTable : Nat) (heap : HeapAllocator) : Outcome HeapAllocator :=
  operatorDelete heap pageTable

theorem HeapSpace.InImage.page {space : HeapSpace} {board : Board} (inImage : space.InImage board)
    {page : Nat} (pageMem : page ∈ poolPages board) :
    page ≠ 0 ∧ space.Foreign page ∧ ¬ space.Caught page := by
  obtain ⟨i, i_lt, rfl⟩ := List.mem_map.1 pageMem
  rw [List.mem_range] at i_lt
  obtain ⟨lower, upper⟩ := inImage
  unfold Foreign Caught kernelHeapPageNum at *
  cases board <;> simp only [Board.pageCount, Board.kernelEnd, baseAddress] at * <;> omega

theorem operatorDelete_of_page {space : HeapSpace} {board : Board} {state : HeapState}
    (inImage : space.InImage board) (tracks : Tracks space state) {page : Nat}
    (pageMem : page ∈ poolPages board) : operatorDelete state.heap page = .error .stray := by
  obtain ⟨notNull, foreign, passes⟩ := inImage.page pageMem
  unfold operatorDelete kFree
  rw [if_pos notNull]
  exact foreign.strays tracks passes

/-- After any calls on the heap, a foreign address is rejected exactly when the
comparison catches it.  A page of the pool never is: the destructors that
delete one read the map outside of its bounds. -/
theorem rejects_iff_of_run {space : HeapSpace} {labels : List HeapCall} {state : HeapState}
    (run : Run HeapStep (.initial space) labels state) :
    (∀ address, space.Foreign address → (state.heap.Rejects address ↔ space.Caught address)) ∧
    ∀ board, space.InImage board → ∀ page ∈ poolPages board,
      space.Foreign page ∧ ¬ state.heap.Rejects page ∧
      destroyPageTable page state.heap = .error .stray ∧
      ∀ rest, destroyMemKeeper (page :: rest) state.heap = .error .stray := by
  have tracks := Tracks.of_run run
  constructor
  · intro address foreign
    exact foreign.rejects_iff tracks
  · intro board inImage page pageMem
    obtain ⟨-, foreign, passes⟩ := inImage.page pageMem
    have deleted := operatorDelete_of_page inImage tracks pageMem
    refine ⟨foreign, ?_, deleted, ?_⟩
    · rwa [foreign.rejects_iff tracks]
    · intro rest
      rw [destroyMemKeeper, deleted]
      rfl

theorem rejects_of_below : (initHeap ⟨0x80050000, by decide⟩).Rejects 0x80040000 := by
  refine ((@rejects_iff_of_run ⟨0x80050000, by decide⟩ [] _ .nil).1 0x80040000 ?_).2 ?_
  · exact ⟨by decide, .inl (by decide)⟩
  · exact .inr ⟨by decide, by decide⟩

theorem not_rejects_of_page : ¬ (initHeap ⟨0x80050000, by decide⟩).Rejects 0x80100000 ∧
    destroyMemKeeper [0x80100000] (initHeap ⟨0x80050000, by decide⟩) = .error .stray := by
  have tracks := Tracks.initial ⟨0x80050000, by decide⟩
  have inImage : HeapSpace.InImage ⟨0x80050000, by decide⟩ .k210 := ⟨by decide, by decide⟩
  have pageMem : 0x80100000 ∈ poolPages .k210 := List.mem_map.2 ⟨0, by simp [Board.pageCount], rfl⟩
  obtain ⟨-, foreign, passes⟩ := inImage.page pageMem
  constructor
  · exact fun rejects => passes ((foreign.rejects_iff tracks).1 rejects)
  · have deleted := operatorDelete_of_page inImage tracks pageMem
    rw [show HeapState.heap (.initial ⟨0x80050000, by decide⟩) = initHeap ⟨0x80050000, by decide⟩ from rfl]
      at deleted
    rw [destroyMemKeeper, deleted]
    rfl

end SysCore.Heap
