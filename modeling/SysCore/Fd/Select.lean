import SysCore.Fd.FdSet
import SysCore.Fd.Table
import SysCore.Pipe.FastPipe
import Mathlib.Data.Nat.Find
import Mathlib.Order.Bounds.Basic

/-!
# Waiting for pipes

`sys_pselect6` clears the set it is given and tests the pipes in it from the
lowest descriptor on.  `TestPipe` answers for a pipe with bytes; for an empty one
it leaves for the scheduler with the result 0, so that the pipes behind it are
never tested.  Only the first descriptor the loop finds matters, and that is the
one under which the macros see the lowest descriptor of the set.

The sets are objects of their own: the prototype of `pselect` forbids them to
overlap.
-/

namespace SysCore.Fd

open Transition Pipe Sched Container

section Calls

variable {μ : Type} (sys : System μ)

def testPipe (fd : Nat) : Outcome (Option (Scheduler μ)) := do
  let slot ← index fd
  match sys.pipes.fdToBuffAddress slot with
  | none => .error .stray
  | some pipe =>
    let data := sys.pipes.pipeData pipe
    if data.frontPointer = data.backPointer then do
      let (sched, _) ← sys.sched.yieldWithReturn 0
      return some sched
    else
      return none

structure Selected (μ : Type) where
  sched : Scheduler μ
  readFds : FdSet
  completion : Completion

def selectAt (i : Nat) (readFds : FdSet) : Option (Scheduler μ) → Outcome (Selected μ)
  | some sched => .ok ⟨sched, readFds, .short 0⟩
  | none => do
    let readFds ← readFds.fdSet i
    return ⟨returnValue sys.sched 1, readFds, .returned 1⟩

def selectLoop (given : FdSet) : (remaining i : Nat) → (readFds : FdSet) → Outcome (Selected μ)
  | 0, _, readFds => .ok ⟨returnValue sys.sched 0, readFds, .returned 0⟩
  | remaining + 1, i, readFds => do
    if ← given.fdIsset i then do
      let left ← testPipe sys i
      selectAt sys i readFds left
    else
      selectLoop given remaining (i + 1) readFds

def sysPselect6 (ndfs : Int) (readFds exceptionFds : Option FdSet) :
    Outcome (Scheduler μ × Option FdSet × Option FdSet × Completion) :=
  let exceptionFds := exceptionFds.map fun _ => FdSet.fdZero
  match readFds with
  | none => .ok (returnValue sys.sched 0, none, exceptionFds, .returned 0)
  | some given => do
    let selected ← selectLoop sys given ndfs.toNat 0 .fdZero
    return (selected.sched, some selected.readFds, exceptionFds, selected.completion)

def IsPipeEnd (fd : Nat) : Prop :=
  fd < arrayLength ∧ sys.pipes.fdToBuffAddress fd ≠ none

def Readable (fd : Nat) : Prop :=
  ∃ pipe, sys.pipes.fdToBuffAddress fd = some pipe ∧ sys.pipes.contents pipe ≠ []

def Ranged : Prop :=
  ∀ fd pipe, sys.pipes.fdToBuffAddress fd = some pipe →
    (sys.pipes.pipeData pipe).frontPointer < pipeBufLength ∧
      (sys.pipes.pipeData pipe).backPointer < pipeBufLength

structure Truthful (given readFds : FdSet) (value : Nat) : Prop where
  ready : (∃ n, given.has n ∧ Readable sys n) →
    1 ≤ value ∧ (∃ n, readFds.has n) ∧ ∀ n, readFds.has n → given.has n ∧ Readable sys n
  quiet : value = 0 → ∀ n, given.has n → ¬ Readable sys n

def Answers (ndfs : Int) (given : FdSet) (exceptionFds : Option FdSet) : Prop :=
  ∃ sched readFds exceptionFds' completion value,
    sysPselect6 sys ndfs (some given) exceptionFds =
        .ok (sched, some readFds, exceptionFds', completion) ∧
      completion.value = some value ∧ Truthful sys given readFds value

end Calls

section Loop

variable {μ : Type} {sys : System μ} {given : FdSet} {fd : Nat}

theorem readable_iff {pipe : Nat} (ranged : Ranged sys)
    (pipe_eq : sys.pipes.fdToBuffAddress fd = some pipe) :
    Readable sys fd ↔
      (sys.pipes.pipeData pipe).frontPointer ≠ (sys.pipes.pipeData pipe).backPointer := by
  have empty_iff := @ringContents_eq_nil_iff _ _
    (sys.pipes.pipeBuffer (sys.pipes.pipeData pipe).startAddress) _
    (sys.pipes.pipeData pipe).frontPointer (ranged fd pipe pipe_eq).2
  unfold Readable
  rw [pipe_eq]
  simpa [FastPipe.contents] using not_congr empty_iff

theorem testPipe_of_readable (isPipe : IsPipeEnd sys fd) (ranged : Ranged sys)
    (readable : Readable sys fd) : testPipe sys fd = .ok none := by
  obtain ⟨pipe, pipe_eq⟩ := Option.ne_none_iff_exists'.1 isPipe.2
  have different := (readable_iff ranged pipe_eq).1 readable
  rw [testPipe, index_eq_ok.2 ⟨rfl, isPipe.1⟩, ok_bind]
  simp only [pipe_eq, different, if_false]
  rfl

theorem testPipe_of_empty {ref : Nat} (running_eq : sys.sched.running = some ref)
    (isPipe : IsPipeEnd sys fd) (ranged : Ranged sys) (empty : ¬ Readable sys fd) :
    ∃ sched, testPipe sys fd = .ok (some sched) := by
  obtain ⟨pipe, pipe_eq⟩ := Option.ne_none_iff_exists'.1 isPipe.2
  have same := not_not.1 (mt (readable_iff ranged pipe_eq).2 empty)
  rw [testPipe, index_eq_ok.2 ⟨rfl, isPipe.1⟩, ok_bind]
  simp only [pipe_eq, same, if_true, Scheduler.yieldWithReturn, running_eq, ok_bind]
  exact ⟨_, rfl⟩

theorem testPipe_of_not (notPipe : ¬ IsPipeEnd sys fd) : testPipe sys fd = .error .stray := by
  unfold testPipe
  by_cases inRange : fd < arrayLength
  · have noPipe : sys.pipes.fdToBuffAddress fd = none := by
      by_contra given
      exact notPipe ⟨inRange, given⟩
    rw [index_eq_ok.2 ⟨rfl, inRange⟩, ok_bind]
    simp only [noPipe]
  · have outside : index fd = .error .stray := by
      unfold index
      exact if_neg (by omega)
    rw [outside, error_bind]

theorem selectLoop_skip (remaining : Nat) {skip i : Nat} (readFds : FdSet)
    (unseen : ∀ n, given.has n → i + skip ≤ FdSet.seenAs n) (inWords : i + skip ≤ 512) :
    selectLoop sys given (skip + remaining) i readFds =
      selectLoop sys given remaining (i + skip) readFds := by
  induction skip generalizing i with
  | zero => rw [Nat.zero_add, Nat.add_zero]
  | succ skip ih =>
    obtain ⟨found, found_eq, found_iff⟩ := FdSet.fdIsset_spec (by omega : i < 512) given
    have notFound : found = false := by
      rw [Bool.eq_false_iff, Ne, found_iff]
      rintro ⟨n, isHit, isIn⟩
      have later := unseen n isIn
      rw [FdSet.hits_iff.1 isHit] at later
      omega
    rw [Nat.add_right_comm, selectLoop, found_eq, notFound, ok_bind, if_neg Bool.false_ne_true,
      ih (fun n isIn => (by have := unseen n isIn; omega)) (by omega), Nat.add_right_comm,
      Nat.add_assoc]

theorem selectLoop_seen (remaining : Nat) {n : Nat} (readFds : FdSet) (isIn : given.has n)
    (inWords : FdSet.seenAs n < 512) :
    selectLoop sys given (remaining + 1) (FdSet.seenAs n) readFds =
      (testPipe sys (FdSet.seenAs n) >>= selectAt sys (FdSet.seenAs n) readFds) := by
  obtain ⟨found, found_eq, found_iff⟩ := FdSet.fdIsset_spec inWords given
  rw [selectLoop, found_eq, found_iff.2 ⟨n, FdSet.hits_iff.2 rfl, isIn⟩, ok_bind, if_pos rfl]

theorem answers_iff_loop (sys : System μ) (ndfs : Int) (given : FdSet) (exceptionFds : Option FdSet) :
    Answers sys ndfs given exceptionFds ↔
      ∃ selected value, selectLoop sys given ndfs.toNat 0 .fdZero = .ok selected ∧
        selected.completion.value = some value ∧ Truthful sys given selected.readFds value := by
  constructor
  · rintro ⟨sched, readFds, exceptionFds', completion, value, call_eq, value_eq, truthful⟩
    obtain ⟨selected, loop_eq, last_eq⟩ := bind_eq_ok.1 call_eq
    cases last_eq
    exact ⟨selected, value, loop_eq, value_eq, truthful⟩
  · rintro ⟨selected, value, loop_eq, value_eq, truthful⟩
    exact ⟨_, _, _, _, value, bind_eq_ok.2 ⟨selected, loop_eq, rfl⟩, value_eq, truthful⟩

def RightAt (sys : System μ) (given : FdSet) (fd : Nat) : Prop :=
  IsPipeEnd sys fd ∧ ((∀ n, given.has n → ¬ Readable sys n) ∨
    Readable sys fd ∧ ∀ n, FdSet.Hits fd n → given.has n ∧ Readable sys n)

theorem truthful_of_empty {readFds : FdSet} {value : Nat}
    (nothing : ∀ n, given.has n → ¬ Readable sys n) : Truthful sys given readFds value := by
  constructor
  · rintro ⟨n, isIn, readable⟩
    exact absurd readable (nothing n isIn)
  · intro _
    exact nothing

theorem truthful_one_iff (fd_lt : fd < 512) {readFds : FdSet}
    (set_eq : FdSet.fdZero.fdSet fd = .ok readFds) :
    Truthful sys given readFds 1 ↔ (∀ n, given.has n → ¬ Readable sys n) ∨
      ∀ n, FdSet.Hits fd n → given.has n ∧ Readable sys n := by
  have has_iff := FdSet.has_fdSet_fdZero fd_lt set_eq
  constructor
  · intro truthful
    by_cases ready : ∃ n, given.has n ∧ Readable sys n
    · right
      intro n isHit
      exact (truthful.ready ready).2.2 n ((has_iff n).2 isHit)
    · left
      intro n isIn readable
      exact ready ⟨n, isIn, readable⟩
  · rintro (nothing | right)
    · exact truthful_of_empty nothing
    · constructor
      · rintro ⟨n, isIn, readable⟩
        obtain ⟨m, isHit⟩ := FdSet.exists_hits fd
        exact ⟨Nat.le_refl 1, ⟨m, (has_iff m).2 isHit⟩, fun k isOn => right k ((has_iff k).1 isOn)⟩
      · intro isZero
        cases isZero

theorem answers_iff_rightAt {ref least : Nat} {ndfs : Int} (running_eq : sys.sched.running = some ref)
    (ranged : Ranged sys) (inRange : ∀ n, given.has n → n < ndfs ∧ IsPipeEnd sys n)
    (exceptionFds : Option FdSet) (isLeast : IsLeast {n | given.has n} least) :
    Answers sys ndfs given exceptionFds ↔ RightAt sys given (FdSet.seenAs least) := by
  have isIn : given.has least := isLeast.1
  obtain ⟨below, least_lt, -⟩ := inRange least isIn
  have seen_le := FdSet.seenAs_le least
  have inWords : FdSet.seenAs least < 512 := by
    unfold arrayLength at least_lt
    omega
  have loop_eq : selectLoop sys given ndfs.toNat 0 .fdZero =
      (testPipe sys (FdSet.seenAs least) >>= selectAt sys (FdSet.seenAs least) .fdZero) := by
    obtain ⟨rest, rest_eq⟩ : ∃ rest, ndfs.toNat = FdSet.seenAs least + (rest + 1) :=
      ⟨ndfs.toNat - FdSet.seenAs least - 1, by omega⟩
    have unseen : ∀ n, given.has n → 0 + FdSet.seenAs least ≤ FdSet.seenAs n := by
      intro n nIn
      rw [Nat.zero_add]
      exact FdSet.seenAs_mono (isLeast.2 nIn)
    rw [rest_eq, selectLoop_skip _ _ unseen (by omega), Nat.zero_add,
      selectLoop_seen _ _ isIn inWords]
  rw [answers_iff_loop, loop_eq]
  unfold RightAt
  by_cases isPipe : IsPipeEnd sys (FdSet.seenAs least)
  · rw [and_iff_right isPipe]
    by_cases readable : Readable sys (FdSet.seenAs least)
    · obtain ⟨readFds, set_eq, -⟩ := FdSet.fdSet_spec inWords .fdZero
      rw [testPipe_of_readable isPipe ranged readable, ok_bind, selectAt, set_eq, ok_bind,
        and_iff_right readable, ← truthful_one_iff inWords set_eq]
      constructor
      · rintro ⟨selected, value, selected_eq, value_eq, truthful⟩
        cases selected_eq
        cases value_eq
        exact truthful
      · intro truthful
        exact ⟨_, 1, rfl, rfl, truthful⟩
    · obtain ⟨sched, left_eq⟩ := testPipe_of_empty running_eq isPipe ranged readable
      rw [left_eq, ok_bind, selectAt]
      constructor
      · rintro ⟨selected, value, selected_eq, value_eq, truthful⟩
        cases selected_eq
        cases value_eq
        exact .inl (truthful.quiet rfl)
      · rintro (nothing | ⟨isReadable, -⟩)
        · exact ⟨_, 0, rfl, rfl, truthful_of_empty nothing⟩
        · exact absurd isReadable readable
  · rw [testPipe_of_not isPipe, error_bind]
    constructor
    · rintro ⟨selected, value, selected_eq, -⟩
      cases selected_eq
    · rintro ⟨isPipe', -⟩
      exact absurd isPipe' isPipe

theorem answers_iff_of_empty {ndfs : Int} (empty : ∀ n, ¬ given.has n) (exceptionFds : Option FdSet) :
    Answers sys ndfs given exceptionFds ↔ ndfs ≤ 512 := by
  have unseen : ∀ skip n, given.has n → 0 + skip ≤ FdSet.seenAs n := fun _ n isIn =>
    absurd isIn (empty n)
  rw [answers_iff_loop]
  constructor
  · rintro ⟨selected, value, loop_eq, -⟩
    by_contra large
    obtain ⟨rest, rest_eq⟩ : ∃ rest, ndfs.toNat = 512 + (rest + 1) := ⟨ndfs.toNat - 513, by omega⟩
    rw [rest_eq, selectLoop_skip _ _ (unseen 512) (by omega), selectLoop,
      FdSet.fdIsset_of_le (by omega), error_bind] at loop_eq
    cases loop_eq
  · intro small
    have loop_eq := @selectLoop_skip μ sys given 0 ndfs.toNat 0 .fdZero (unseen _) (by omega)
    exact ⟨_, 0, loop_eq, rfl, truthful_of_empty fun n isIn => absurd isIn (empty n)⟩

end Loop

/-- `sys_pselect6` is right about a set of pipes exactly if the set is empty and
no wider than the macros reach, or if the loop is right at the descriptor under
which it sees the lowest of them.  For a lowest descriptor below 31 that means that
its pipe holds bytes, or that no pipe of the set does. -/
theorem answers_iff {μ : Type} {sys : System μ} {given : FdSet} {ref : Nat} {ndfs : Int}
    (running_eq : sys.sched.running = some ref) (ranged : Ranged sys)
    (inRange : ∀ n, given.has n → n < ndfs ∧ IsPipeEnd sys n) (exceptionFds : Option FdSet) :
    (Answers sys ndfs given exceptionFds ↔
      (∀ n, ¬ given.has n) ∧ ndfs ≤ 512 ∨
        ∃ least, IsLeast {n | given.has n} least ∧ RightAt sys given (FdSet.seenAs least)) ∧
    ∀ least < 31, IsLeast {n | given.has n} least →
      (Answers sys ndfs given exceptionFds ↔
        (∀ n, given.has n → ¬ Readable sys n) ∨ Readable sys least) := by
  constructor
  · by_cases empty : ∀ n, ¬ given.has n
    · rw [answers_iff_of_empty empty, and_iff_right empty, or_iff_left]
      rintro ⟨least, isLeast, -⟩
      exact empty least isLeast.1
    · have nonempty : ∃ n, given.has n := not_forall_not.1 empty
      have isLeast : IsLeast {n | given.has n} (Nat.find nonempty) :=
        ⟨Nat.find_spec nonempty, fun n isIn => Nat.find_min' nonempty isIn⟩
      rw [answers_iff_rightAt running_eq ranged inRange exceptionFds isLeast,
        or_iff_right fun none => empty none.1]
      constructor
      · intro right
        exact ⟨_, isLeast, right⟩
      · rintro ⟨least, isLeast', right⟩
        rwa [isLeast.unique isLeast']
  · intro least low isLeast
    have isIn : given.has least := isLeast.1
    have seen_eq : FdSet.seenAs least = least := FdSet.hits_iff.1 ((FdSet.hits_iff_of_lt low _).2 rfl)
    rw [answers_iff_rightAt running_eq ranged inRange exceptionFds isLeast, seen_eq, RightAt,
      and_iff_right (inRange least isIn).2]
    simp only [FdSet.hits_iff_of_lt low, forall_eq, isIn, true_and, and_self]

def twoPipes : System Unit :=
  let pcb : PCB Unit :=
    { pid := 2, ppid := 1, stack := 0, stackSize := 4096, managers := (), threadContext := {} }
  { sched := { Scheduler.init (fun _ => pcb) 0 with running := some 0 }
    pipes :=
      { fdToBuffAddress := fun fd =>
          if fd = 3 ∨ fd = 4 then some 0 else if fd = 5 ∨ fd = 6 then some 1 else none
        pipeData := fun pipe => ⟨(2 * pipe + 3, 2 * pipe + 4), pipe, if pipe = 1 then 1 else 0, 0⟩
        pipeBuffer := fun _ _ => 0
        currentPipeBufferPointer := 2 } }

def lowSet (word : BitVec 64) : FdSet :=
  Function.update FdSet.fdZero ⟨0, by decide⟩ word

theorem readable_twoPipes : Readable twoPipes 5 :=
  ⟨1, rfl, by decide⟩

theorem answers_iff_twoPipes : Answers twoPipes 6 (lowSet 0b100000) none := by
  have set_eq : FdSet.fdZero.fdSet 5 = .ok (lowSet 0b100000) := rfl
  have has_iff : ∀ n, (lowSet 0b100000).has n ↔ n = 5 := fun n =>
    (FdSet.has_fdSet_fdZero (by decide) set_eq n).trans (FdSet.hits_iff_of_lt (by decide) n)
  have ranged : Ranged twoPipes := by
    intro fd pipe _
    unfold twoPipes pipeBufLength
    dsimp only
    split <;> decide
  have inRange : ∀ n, (lowSet 0b100000).has n → n < (6 : Int) ∧ IsPipeEnd twoPipes n := by
    intro n isIn
    rw [(has_iff n).1 isIn]
    exact ⟨by decide, by decide, by decide⟩
  have isLeast : IsLeast {n | (lowSet 0b100000).has n} 5 :=
    ⟨(has_iff 5).2 rfl, fun n isIn => ((has_iff n).1 isIn).ge⟩
  exact ((answers_iff rfl ranged inRange none).2 5 (by decide) isLeast).2 (.inr readable_twoPipes)

theorem not_answers_twoPipes : (lowSet 0b101000).has 5 ∧ Readable twoPipes 5 ∧
    ∃ sched, sysPselect6 twoPipes 6 (some (lowSet 0b101000)) none =
      .ok (sched, some .fdZero, none, .short 0) :=
  ⟨by decide, readable_twoPipes, _, rfl⟩

end SysCore.Fd
