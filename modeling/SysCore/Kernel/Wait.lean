import SysCore.Kernel.Wakeup
import SysCore.Syscall.Return

/-!
# The two orders of `wait4` and `exit`

A child may exit before its parent calls `wait4` or after it.  In the first order
`wait` takes the record from the list and returns, in the second the parent blocks
and `try_to_unfreeze` resumes it.  Both return the pid of the child.  Only the
second stores the exit status: in `wait` the store is commented out.  So the two
orders agree where `*wstatus` holds the status already.
-/

namespace SysCore.Kernel

open Memory Transition Paging Process Sched
open Syscall Pipe

def State.wait4 (k : State) (wstatus : Nat) : Outcome State :=
  match k.sched.running with
  | none => .error .stray
  | some ref => do
    let (sched, _) ← (Request.wait4 wstatus).exec k.sched ref
    return { k with sched := sched }

def State.answer (k : State) (ref wstatus : Nat) : Nat × List (Option UInt8) :=
  (k.sched.runningContext.a0, (List.range 4).map fun i =>
    readUser k.mem.bytes (k.spaceOf ref).pageTable (wstatus + i))

def statusBytes (exitRet : Int) : List (Option UInt8) :=
  (intBytes ((exitRet * 2 ^ 8).bmod (2 ^ 32))).map some

def SameAnswer (wstatus : Nat) (exitRet : Int) (k₁ : State) (ref₁ : Nat) (k₂ : State) (ref₂ : Nat) :
    Prop :=
  k₁.answer ref₁ wstatus = k₂.answer ref₂ wstatus ∧ (k₁.answer ref₁ wstatus).2 = statusBytes exitRet

variable {k k' : State} {ref wstatus : Nat} {pid exitRet : Int} {rest : List (Int × Int)}

theorem State.answer_eq {value : Nat} (value_eq : k'.sched.runningContext.a0 = value)
    (bytes_eq : k'.mem.bytes = k.mem.bytes) (space_eq : k'.spaceOf ref = k.spaceOf ref) :
    k'.answer ref wstatus = (value, (k.answer ref wstatus).2) := by
  unfold State.answer
  rw [value_eq, bytes_eq, space_eq]

theorem State.answer_of_wait4 (running_eq : k.sched.running = some ref)
    (list_eq : (k.sched.pcb ref).signalList = (pid, exitRet) :: rest) (wait_eq : k.wait4 wstatus = .ok k') :
    k'.answer ref wstatus = (toRegister pid, (k.answer ref wstatus).2) := by
  unfold State.wait4 Request.exec Scheduler.wait at wait_eq
  rw [running_eq] at wait_eq
  dsimp only at wait_eq
  rw [list_eq] at wait_eq
  cases wait_eq
  have managers_eq := k.sched.toPlacement.field_setPcb PCB.managers
    (show ({ k.sched.pcb ref with signalList := rest } : PCB Nat).managers = _ from rfl) ref
  exact State.answer_eq rfl rfl (congrArg k.spaces managers_eq)

theorem a0_wake (s : Scheduler Nat) (ref : Nat) (record : Int × Int) (rest : List (Int × Int)) :
    (s.wake ref record rest).1.runningContext.a0 = toRegister record.1 := by
  simp [Scheduler.wake, Scheduler.restore, Scheduler.setPcb, Placement.setPcb, Context.a0, Context.setA0]

theorem State.record_of_wakes {sched : Scheduler Nat} {events : List Event} {address : Nat} {status : Int}
    (dispatched : k.sched.dispatch = some (sched, events)) (running_eq : sched.running = some ref)
    (store_eq : State.statusStore events = some (address, status))
    (list_eq : (k.sched.pcb ref).signalList = (pid, exitRet) :: rest) :
    sched.runningContext.a0 = toRegister pid ∧ status = (exitRet * 2 ^ 8).bmod (2 ^ 32) ∧
      (sched.pcb ref).managers = (k.sched.pcb ref).managers := by
  rcases Scheduler.dispatch_cases dispatched with
    ⟨_, _, _, _, rfl⟩ | ⟨woken, record, others, _, woken_eq, wake_eq⟩
  · cases store_eq
  · cases wake_eq
    cases running_eq
    rw [list_eq] at woken_eq
    cases woken_eq
    have managers_eq := k.sched.toPlacement.field_setPcb PCB.managers
      (show ({ k.sched.pcb ref with
        threadContext := (k.sched.pcb ref).threadContext.setA0 (toRegister pid)
        signalList := rest } : PCB Nat).managers = _ from rfl) ref
    refine ⟨?_, ?_, managers_eq⟩
    · exact a0_wake k.sched.tick ref (pid, exitRet) rest
    · split at store_eq
      · cases store_eq
      · cases store_eq
        rfl

theorem SameAnswer.already {k₁ k₂ : State} {ref₁ ref₂ : Nat} (running_eq : k.sched.running = some ref₁)
    (list_eq : (k.sched.pcb ref₁).signalList = (pid, exitRet) :: rest)
    (wait_eq : k.wait4 wstatus = .ok k₁) (same : SameAnswer wstatus exitRet k₁ ref₁ k₂ ref₂) :
    (k.answer ref₁ wstatus).2 = statusBytes exitRet := by
  have stored := same.2
  rwa [State.answer_of_wait4 running_eq list_eq wait_eq] at stored

theorem answer_of_wake {board : Board} {bytes : Bytes} {pcb : Nat → PCB Nat} {spaces : Nat → AddressSpace}
    {testTotal fastSyscallPage : Nat}
    (image : fastSyscallPage % 4096 = 0 ∧ fastSyscallPage < board.kernelEnd) {calls : List Call}
    {status : Int} (run : Run (WakeStep (bootFixed board fastSyscallPage image))
      (State.init board bytes pcb spaces testTotal) calls k)
    (stepped : WakeStep (bootFixed board fastSyscallPage image) k .schedule k')
    (wakes : k.Wakes ref wstatus status) (list_eq : (k.sched.pcb ref).signalList = (pid, exitRet) :: rest) :
    k'.answer ref wstatus = (toRegister pid, statusBytes exitRet) := by
  obtain ⟨account, sound, backed⟩ := sound_of_wakeRun image run
  obtain ⟨clean, freed, schedule_eq⟩ := stepped
  have own := clean ref wstatus status wakes
  obtain ⟨⟨events, dispatched, store_eq⟩, running_eq, bytes_eq⟩ :=
    State.schedule_of_wakes wakes (sound.wake_complete wakes own) schedule_eq
  obtain ⟨value_eq, rfl, managers_eq⟩ := State.record_of_wakes dispatched running_eq store_eq list_eq
  obtain ⟨sound', spaces_eq⟩ := sound.schedule_sound (sound.clean_of_cleanWake clean).1 schedule_eq
  have rootMem := sound.keysRoots _ (sound.placedKey ref (sound.active_of_wakes wakes).1)
  have confined := sound.wakeConfined backed wakes own
  rw [← bytes_eq] at confined
  have space_eq : k'.spaceOf ref = k.spaceOf ref := by
    unfold State.spaceOf
    rw [spaces_eq, managers_eq]
  refine Prod.ext value_eq ?_
  dsimp only [State.answer, statusBytes]
  rw [space_eq]
  have length_eq : ∀ value : Int, (intBytes value).length = 4 := fun value => by simp [intBytes]
  refine List.ext_getElem (by simp [length_eq]) fun i i_lt _ => ?_
  obtain ⟨pa, attributes, translate_eq, byte_eq⟩ := confined.lands i (by simpa using i_lt)
  have after := (sound'.table _ rootMem).translate_eq (wstatus + i)
  rw [spaces_eq] at after
  have before := (sound.table _ rootMem).translate_eq (wstatus + i)
  rw [List.getElem_map, List.getElem_range, List.getElem_map, readUser]
  rw [show translate k'.mem.bytes (k.spaceOf ref).pageTable (wstatus + i) = some (pa, attributes) from
    (after.trans before.symm).trans translate_eq, Option.map_some]
  exact byte_eq.symm.trans (List.getElem?_eq_getElem _)

/-- A child with one exit status, waited for in one kernel after it has exited and
in another before: the parents find the same exactly if `*wstatus` holds the
status of the child before the first of them waits. -/
theorem sameAnswer_iff {board : Board} {bytes : Bytes} {pcb : Nat → PCB Nat}
    {spaces : Nat → AddressSpace} {testTotal fastSyscallPage : Nat}
    (image : fastSyscallPage % 4096 = 0 ∧ fastSyscallPage < board.kernelEnd)
    {wstatus : Nat} {pid exitRet status : Int} {early early' late late' : State} {ref₁ ref₂ : Nat}
    {rest₁ rest₂ : List (Int × Int)} (running_eq : early.sched.running = some ref₁)
    (early_list : (early.sched.pcb ref₁).signalList = (pid, exitRet) :: rest₁)
    (wait_eq : early.wait4 wstatus = .ok early') {calls : List Call}
    (run : Run (WakeStep (bootFixed board fastSyscallPage image))
      (State.init board bytes pcb spaces testTotal) calls late)
    (stepped : WakeStep (bootFixed board fastSyscallPage image) late .schedule late')
    (wakes : late.Wakes ref₂ wstatus status)
    (late_list : (late.sched.pcb ref₂).signalList = (pid, exitRet) :: rest₂) :
    SameAnswer wstatus exitRet early' ref₁ late' ref₂ ↔
      (early.answer ref₁ wstatus).2 = statusBytes exitRet := by
  refine ⟨fun same => same.already running_eq early_list wait_eq, fun already => ?_⟩
  unfold SameAnswer
  rw [State.answer_of_wait4 running_eq early_list wait_eq, answer_of_wake image run stepped wakes late_list,
    already]
  exact ⟨rfl, rfl⟩

theorem sameAnswer_of_zero : ∃ k₁ k₁' k₂ k₂' : State,
    k₁.wait4 0x807f2100 = .ok k₁' ∧ WakeStep sampleFixed k₂ .schedule k₂' ∧
      SameAnswer 0x807f2100 0 k₁' 0 k₂' 0 := by
  have tested : passes (sampleKernel.execAll sampleFixed [.createProcess sampleFile [] {}, .schedule, .fork,
      .yield, .schedule, .exitProcess 0, .schedule]) (fun left =>
      (left.2.sched.running == some 0 && (left.2.sched.pcb 0).signalList == [(3, 0)] &&
        (left.2.answer 0 0x807f2100).2 == statusBytes 0) &&
      passes (left.2.wait4 0x807f2100) fun _ => true) := by
    decide +kernel
  obtain ⟨⟨_, k₁⟩, _, tested⟩ := passes_iff.1 tested
  obtain ⟨found, tested⟩ := Bool.and_eq_true_iff.1 tested
  obtain ⟨k₁', wait_eq, _⟩ := passes_iff.1 tested
  simp only [Bool.and_eq_true, beq_iff_eq] at found
  obtain ⟨⟨running_eq, early_list⟩, already⟩ := found
  obtain ⟨k₂, k₂', run, stepped, wakes, late_list⟩ := wake_on_stack (.inl rfl)
  exact ⟨k₁, k₁', k₂, k₂', wait_eq, stepped,
    (sameAnswer_iff _ running_eq early_list wait_eq run stepped wakes late_list).2 already⟩

theorem not_sameAnswer_of_one : ∃ labels k labels₁ k₁ k₁' labels₂ k₂,
    sampleKernel.execAll sampleFixed [.createProcess sampleFile [] {}, .schedule, .fork] = .ok (labels, k) ∧
    k.execAll sampleFixed [.yield, .schedule, .exitProcess 1, .schedule] = .ok (labels₁, k₁) ∧
    k₁.wait4 0x807f2100 = .ok k₁' ∧
    k.execAll sampleFixed [.wait 0x807f2100, .schedule, .exitProcess 1, .schedule] = .ok (labels₂, k₂) ∧
    k₁'.answer 0 0x807f2100 = (3, [some 0, some 0, some 0, some 0]) ∧
    k₂.answer 0 0x807f2100 = (3, [some 0, some 1, some 0, some 0]) ∧
    ¬ SameAnswer 0x807f2100 1 k₁' 0 k₂ 0 := by
  have tested : passes (sampleKernel.execAll sampleFixed
      [.createProcess sampleFile [] {}, .schedule, .fork]) (fun start =>
        passes (start.2.execAll sampleFixed [.yield, .schedule, .exitProcess 1, .schedule]) fun first =>
        passes (first.2.wait4 0x807f2100) fun waited =>
        passes (start.2.execAll sampleFixed [.wait 0x807f2100, .schedule, .exitProcess 1, .schedule])
          fun second =>
            waited.answer 0 0x807f2100 == (3, [some 0, some 0, some 0, some 0]) &&
            second.2.answer 0 0x807f2100 == (3, [some 0, some 1, some 0, some 0])) := by
    decide +kernel
  obtain ⟨⟨labels, k⟩, start_eq, tested⟩ := passes_iff.1 tested
  obtain ⟨⟨labels₁, k₁⟩, first_eq, tested⟩ := passes_iff.1 tested
  obtain ⟨k₁', wait_eq, tested⟩ := passes_iff.1 tested
  obtain ⟨⟨labels₂, k₂⟩, second_eq, tested⟩ := passes_iff.1 tested
  simp only [Bool.and_eq_true, beq_iff_eq] at tested
  obtain ⟨first_answer, second_answer⟩ := tested
  refine ⟨labels, k, labels₁, k₁, k₁', labels₂, k₂, start_eq, first_eq, wait_eq, second_eq, first_answer,
    second_answer, fun same => ?_⟩
  have answers := same.1
  rw [first_answer, second_answer] at answers
  exact absurd answers (by decide)

end SysCore.Kernel
