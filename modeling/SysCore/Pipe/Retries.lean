import SysCore.Pipe.Fifo
import SysCore.Sched.Fields

/-!
# Writers that are ended

A writer that finds its pipe full yields and counts the attempt in
`pipe_write_count`; a call that writes everything or returns a short count sets
the count back.  In every run the count is at most 111.  `Write` looks at the
count before it looks at how far it has come: with 111 attempts behind it, a
writer is ended even if this call has placed some bytes.
-/

namespace SysCore.Pipe

open Transition Sched Container

variable {μ : Type} {sys : System Unit} {report : Report} {tries : Int} {stored : Nat}

/-! ## The attempts of a run -/

structure Counted (p : Placement μ) : Prop where
  accounted : Accounted p
  bounded : ∀ ref < p.nextPcb, 0 ≤ (p.pcb ref).pipeWriteCount ∧ (p.pcb ref).pipeWriteCount ≤ 111

theorem untouched_pipeWriteCount : @Untouched μ _ PCB.pipeWriteCount :=
  fun _ _ _ _ _ => rfl

theorem newborn_pipeWriteCount {block : PCB μ} (newborn : Newborn block) :
    block.pipeWriteCount = 0 := by
  cases newborn with
  | created program pid => rfl
  | cloned parent context pid kind => cases kind <;> rfl

namespace Counted

variable {s s' : Scheduler μ} {ref : Nat}

theorem init (pcb : Nat → PCB μ) (testTotal : Nat) :
    Counted (Scheduler.init pcb testTotal).toPlacement where
  accounted := ⟨[], Ledger.init pcb testTotal⟩
  bounded ref made_lt := absurd made_lt (Nat.not_lt_zero ref)

section

variable (counted : Counted s.toPlacement) {count : Nat} {stop : LoopEnd} {completion : Completion}
include counted

theorem bounded_running (running_eq : s.running = some ref) :
    0 ≤ (s.pcb ref).pipeWriteCount ∧ (s.pcb ref).pipeWriteCount ≤ 111 := by
  obtain ⟨before, ledger⟩ := counted.accounted
  exact counted.bounded ref (ledger.lt_nextPcb (by simp [Placement.placed, running_eq]))

theorem exec {op : Op μ} {events : List Event} (exec_eq : op.exec s = .ok (s', events)) :
    Counted s'.toPlacement := by
  refine ⟨counted.accounted.exec _ exec_eq, ?_⟩
  intro ref made_lt
  rcases Nat.lt_or_ge ref s.nextPcb with old | new
  · rw [(untouched_pipeWriteCount.exec exec_eq old).2]
    exact counted.bounded ref old
  · obtain ⟨block, newborn, count_eq⟩ := untouched_pipeWriteCount.newborn exec_eq new made_lt
    rw [count_eq, newborn_pipeWriteCount newborn]
    decide

theorem setPcb {block : PCB μ} (pid_eq : block.pid = (s.pcb ref).pid) (lower : 0 ≤ block.pipeWriteCount)
    (upper : block.pipeWriteCount ≤ 111) : Counted (s.setPcb ref block).toPlacement := by
  refine ⟨counted.accounted.setPcb pid_eq, ?_⟩
  intro other made_lt
  by_cases same : other = ref
  · subst same
    simpa [Scheduler.setPcb] using ⟨lower, upper⟩
  · simpa [Scheduler.setPcb, same] using counted.bounded other made_lt

omit counted in
theorem leave (counted : Counted s.toPlacement) (op : Op μ) {ending completion : Completion}
    (leave_eq : leave (op.exec s) ending = .ok (s', completion)) : Counted s'.toPlacement := by
  obtain ⟨-, events, exec_eq⟩ := leave_eq_ok leave_eq
  exact counted.exec exec_eq

theorem setReadCount (running_eq : s.running = some ref) (count : Int) :
    Counted (setReadCount s ref count).toPlacement := by
  obtain ⟨lower, upper⟩ := counted.bounded_running running_eq
  exact counted.setPcb rfl lower upper

theorem setWriteCount {count : Int} (lower : 0 ≤ count) (upper : count ≤ 111) :
    Counted (setWriteCount s ref count).toPlacement :=
  counted.setPcb rfl lower upper

theorem endRead (running_eq : s.running = some ref)
    (end_eq : endRead s ref count stop = .ok (s', completion)) : Counted s'.toPlacement := by
  cases stop with
  | finished =>
    cases end_eq
    exact counted.setReadCount running_eq 0
  | blocked i =>
    rw [Pipe.endRead] at end_eq
    split_ifs at end_eq
    · exact counted.leave (.exitProcess 0) end_eq
    · exact (counted.setReadCount running_eq _).leave .__yield end_eq
    · exact (counted.setReadCount running_eq _).leave (.yieldWithReturn i) end_eq
  | fault i => exact counted.leave (.exitProcess 1) end_eq

theorem endWrite (running_eq : s.running = some ref)
    (end_eq : endWrite s ref count stop = .ok (s', completion)) : Counted s'.toPlacement := by
  obtain ⟨lower, -⟩ := counted.bounded_running running_eq
  cases stop with
  | finished =>
    cases end_eq
    exact counted.setWriteCount (by decide) (by decide)
  | blocked i =>
    rw [Pipe.endWrite] at end_eq
    split_ifs at end_eq with tired atStart
    · exact counted.leave (.exitProcess 0) end_eq
    · exact (counted.setWriteCount (by omega) (by omega)).leave .__yield end_eq
    · exact (counted.setWriteCount (by decide) (by decide)).leave (.yieldWithReturn i) end_eq
  | fault i => exact counted.leave (.exitProcess 1) end_eq

end

theorem step {sys sys' : System μ} {label : Call μ × Report} (counted : Counted sys.sched.toPlacement)
    (stepped : PipeStep sys label sys') : Counted sys'.sched.toPlacement := by
  obtain ⟨call, report⟩ := label
  cases call with
  | createPipe fd =>
    obtain ⟨pipes, -, result_eq⟩ := bind_eq_ok.1 stepped
    cases result_eq
    exact counted
  | read fd buff mapped count =>
    have read_eq : sys.read fd buff mapped count = .ok (sys', report) := stepped
    unfold System.read at read_eq
    split at read_eq
    next ref pipe running_eq pipe_eq =>
      obtain ⟨⟨stop, loop⟩, -, rest_eq⟩ := bind_eq_ok.1 read_eq
      obtain ⟨⟨sched, completion⟩, end_eq, result_eq⟩ := bind_eq_ok.1 rest_eq
      cases result_eq
      exact counted.endRead running_eq end_eq
    · cases read_eq
  | write fd buf count =>
    have write_eq : sys.write fd buf count = .ok (sys', report) := stepped
    unfold System.write at write_eq
    split at write_eq
    next ref pipe running_eq pipe_eq =>
      obtain ⟨⟨stop, loop⟩, -, rest_eq⟩ := bind_eq_ok.1 write_eq
      obtain ⟨⟨sched, completion⟩, end_eq, result_eq⟩ := bind_eq_ok.1 rest_eq
      cases result_eq
      exact counted.endWrite running_eq end_eq
    · cases write_eq
  | other op =>
    obtain ⟨⟨sched, events⟩, exec_eq, result_eq⟩ := bind_eq_ok.1 stepped
    cases result_eq
    exact counted.exec exec_eq

theorem of_run {pcb : Nat → PCB μ} {testTotal : Nat} {pipes : FastPipe} {sys : System μ}
    {labels : List (Call μ × Report)}
    (run : Run PipeStep ⟨Scheduler.init pcb testTotal, pipes.init⟩ labels sys) :
    Counted sys.sched.toPlacement :=
  @Run.invariant _ _ PipeStep (fun sys => Counted sys.sched.toPlacement)
    (fun counted stepped => counted.step stepped) _ _ _ run (init pcb testTotal)

end Counted

/-! ## The end of a write -/

def FastPipe.writeLoop (pipes : FastPipe) (pipe : Nat) (buf : Nat → Option UInt8) (count : Nat) :
    Outcome (LoopEnd × Writing) :=
  writeBytes (pipes.pipeData pipe).backPointer buf count 0
    { front := (pipes.pipeData pipe).frontPointer
      cells := pipes.pipeBuffer (pipes.pipeData pipe).startAddress
      placed := [] }

def FastPipe.afterWrite (pipes : FastPipe) (pipe : Nat) (loop : Writing) : FastPipe :=
  { pipes.setData pipe { pipes.pipeData pipe with frontPointer := loop.front } with
    pipeBuffer := Function.update pipes.pipeBuffer (pipes.pipeData pipe).startAddress loop.cells }

section Ending

variable {sys : System μ} {ref fd pipe count i : Nat} {buf : Nat → Option UInt8} {loop : Writing}
  {stop : LoopEnd}

section

variable (running_eq : sys.sched.running = some ref)
include running_eq

variable (pipe_eq : sys.pipes.fdToBuffAddress fd = some pipe)
include pipe_eq

theorem write_of_loop (loop_eq : sys.pipes.writeLoop pipe buf count = .ok (stop, loop)) :
    sys.write fd buf count = endWrite sys.sched ref count stop >>= fun ended =>
      .ok (⟨ended.1, sys.pipes.afterWrite pipe loop⟩, .wrote pipe loop.placed ended.2) := by
  unfold System.write
  rw [running_eq, pipe_eq]
  dsimp only
  rw [show writeBytes _ buf count 0 _ = _ from loop_eq, ok_bind]
  rfl

theorem write_of_progress (loop_eq : sys.pipes.writeLoop pipe buf count = .ok (.blocked i, loop))
    (progress : 0 < i) (few : (sys.sched.pcb ref).pipeWriteCount ≤ 110) :
    sys.write fd buf count = .ok
      (⟨(setWriteCount sys.sched ref 0).park ref (sys.sched.runningContext.setA0 i).advance,
        sys.pipes.afterWrite pipe loop⟩, .wrote pipe loop.placed (.short i)) := by
  have parked : (setWriteCount sys.sched ref 0).yieldWithReturn i =
      .ok ((setWriteCount sys.sched ref 0).park ref (sys.sched.runningContext.setA0 i).advance, []) := by
    rw [Scheduler.yieldWithReturn, show (setWriteCount sys.sched ref 0).running = some ref from running_eq]
    rfl
  rw [write_of_loop running_eq pipe_eq loop_eq, endWrite, if_neg (by omega), if_neg (by omega), parked]
  rfl

theorem write_of_retry (loop_eq : sys.pipes.writeLoop pipe buf count = .ok (.blocked 0, loop))
    (few : (sys.sched.pcb ref).pipeWriteCount ≤ 110) :
    sys.write fd buf count = .ok
      (⟨(setWriteCount sys.sched ref ((sys.sched.pcb ref).pipeWriteCount + 1)).park ref
        sys.sched.runningContext, sys.pipes.afterWrite pipe loop⟩, .wrote pipe loop.placed .retry) := by
  have parked : ∀ tries : Int, (setWriteCount sys.sched ref tries).__yield =
      .ok ((setWriteCount sys.sched ref tries).park ref sys.sched.runningContext, []) := by
    intro tries
    rw [Scheduler.__yield, show (setWriteCount sys.sched ref tries).running = some ref from running_eq]
    rfl
  rw [write_of_loop running_eq pipe_eq loop_eq, endWrite, if_neg (by omega), if_pos rfl, parked]
  rfl

theorem write_of_tired (loop_eq : sys.pipes.writeLoop pipe buf count = .ok (.blocked i, loop))
    (tired : 110 < (sys.sched.pcb ref).pipeWriteCount) :
    sys.write fd buf count = .ok
      (⟨{ sys.sched.notifyParent ref 0 with running := none }, sys.pipes.afterWrite pipe loop⟩,
        .wrote pipe loop.placed .ended) := by
  have exited : sys.sched.exitProcess 0 =
      .ok ({ sys.sched.notifyParent ref 0 with running := none },
        [.exit ref (sys.sched.pcb ref).pid 0]) := by
    rw [Scheduler.exitProcess, running_eq]
  rw [write_of_loop running_eq pipe_eq loop_eq, endWrite, if_pos tired, exited]
  rfl

end

def KeepsProgress (sys : System μ) (ref fd : Nat) (buf : Nat → Option UInt8) (count i : Nat) : Prop :=
  ∃ sys' pipe placed, sys.write fd buf count = .ok (sys', .wrote pipe placed (.short i)) ∧
    (sys'.sched.pcb ref).threadContext.a0 = i ∧ (sys'.sched.pcb ref).pipeWriteCount = 0

/-- After any run a writer has made at most 111 attempts.  A write that has placed
some bytes when it finds its pipe full returns their number, unless 111 attempts
were made: then it ends the process. -/
theorem keepsProgress_iff_of_run {pcb : Nat → PCB μ} {testTotal : Nat} {pipes : FastPipe}
    {labels : List (Call μ × Report)}
    (run : Run PipeStep ⟨Scheduler.init pcb testTotal, pipes.init⟩ labels sys)
    (running_eq : sys.sched.running = some ref) (pipe_eq : sys.pipes.fdToBuffAddress fd = some pipe)
    (loop_eq : sys.pipes.writeLoop pipe buf count = .ok (.blocked i, loop)) (progress : 0 < i) :
    0 ≤ (sys.sched.pcb ref).pipeWriteCount ∧ (sys.sched.pcb ref).pipeWriteCount ≤ 111 ∧
      (KeepsProgress sys ref fd buf count i ↔ (sys.sched.pcb ref).pipeWriteCount ≠ 111) ∧
      ((∃ sys', sys.write fd buf count = .ok (sys', .wrote pipe loop.placed .ended)) ↔
        (sys.sched.pcb ref).pipeWriteCount = 111) := by
  obtain ⟨lower, upper⟩ := (Counted.of_run run).bounded_running running_eq
  refine ⟨lower, upper, ?_, ?_⟩
  · constructor
    · rintro ⟨sys', pipe', placed, write_eq, -, -⟩ most
      rw [write_of_tired running_eq pipe_eq loop_eq (by omega)] at write_eq
      cases write_eq
    · intro fewer
      refine ⟨_, pipe, loop.placed,
        write_of_progress running_eq pipe_eq loop_eq progress (by omega), ?_, ?_⟩
      · simp [Scheduler.park, Scheduler.setPcb, Context.a0, Context.setA0, Context.advance]
      · simp [Scheduler.park, Scheduler.setPcb, setWriteCount]
  · constructor
    · rintro ⟨sys', write_eq⟩
      by_contra fewer
      rw [write_of_progress running_eq pipe_eq loop_eq progress (by omega)] at write_eq
      cases write_eq
    · intro most
      exact ⟨_, write_of_tired running_eq pipe_eq loop_eq (by omega)⟩

end Ending

/-! ## A writer that comes to the last attempt -/

theorem writeBytes_until_full {back : Nat} (back_lt : back < pipeBufLength) (byte : UInt8)
    {room remaining i : Nat} {loop : Writing} (front_lt : loop.front < pipeBufLength)
    (room_eq : ringSize pipeBufLength back loop.front + room + 1 = pipeBufLength)
    (more : room < remaining) :
    ∃ loop', writeBytes back (fun _ => some byte) remaining i loop = .ok (.blocked (i + room), loop') ∧
      loop'.front < pipeBufLength ∧ ringSize pipeBufLength back loop'.front + 1 = pipeBufLength := by
  induction room generalizing remaining i loop with
  | zero =>
    obtain ⟨remaining, rfl⟩ := Nat.exists_eq_succ_of_ne_zero (Nat.ne_of_gt more)
    refine ⟨loop, ?_, front_lt, room_eq⟩
    rw [writeBytes, if_pos ((succ_mod_eq_back_iff back_lt front_lt).2 room_eq)]
    rfl
  | succ room ih =>
    obtain ⟨remaining, rfl⟩ := Nat.exists_eq_succ_of_ne_zero (Nat.ne_of_gt (Nat.zero_lt_of_lt more))
    have notFull : (loop.front + 1) % pipeBufLength ≠ back := by
      rw [Ne, succ_mod_eq_back_iff back_lt front_lt]
      omega
    have next_lt : (loop.front + 1) % pipeBufLength < pipeBufLength := Nat.mod_lt _ (by decide)
    have size_eq := ringSize_push back_lt front_lt notFull
    obtain ⟨loop', loop_eq, front_lt', full⟩ := @ih remaining (i + 1)
      ⟨(loop.front + 1) % pipeBufLength, Function.update loop.cells loop.front byte,
        loop.placed ++ [byte]⟩ next_lt (by dsimp only; omega) (by omega)
    refine ⟨loop', ?_, front_lt', full⟩
    rw [writeBytes, if_neg notFull]
    dsimp only
    rw [if_neg (Nat.not_le.2 front_lt), loop_eq, Nat.add_assoc, Nat.add_comm 1]

structure Alone (sys : System Unit) (tries : Int) (stored : Nat) : Prop where
  running : sys.sched.running = some 0
  runnable : sys.sched.runnable = []
  blocked : sys.sched.blocked = []
  tries : (sys.sched.pcb 0).pipeWriteCount = tries
  readEnd : sys.pipes.fdToBuffAddress 3 = some 0
  writeEnd : sys.pipes.fdToBuffAddress 4 = some 0
  front_lt : (sys.pipes.pipeData 0).frontPointer < pipeBufLength
  back_lt : (sys.pipes.pipeData 0).backPointer < pipeBufLength
  stored : ringSize pipeBufLength (sys.pipes.pipeData 0).backPointer
    (sys.pipes.pipeData 0).frontPointer = stored

theorem schedule_alone {s : Scheduler Unit} (test : Program Unit) (running_eq : s.running = none)
    (runnable_eq : s.runnable = [0]) (blocked_eq : s.blocked = []) :
    ∃ s', s.schedule test = .ok (s', []) ∧ s'.running = some 0 ∧ s'.runnable = [] ∧
      s'.blocked = [] ∧ s'.pcb = s.pcb := by
  have picked : s.dispatch = some (({ s.tick with runnable := [] }).restore 0, []) := by
    have unfrozen : s.tick.tryToUnfreeze = none := by
      simp [Scheduler.tryToUnfreeze, Scheduler.tick, blocked_eq]
    have next : s.tick.pickNext = some (({ s.tick with runnable := [] }).restore 0, []) := by
      simp [Scheduler.pickNext, Scheduler.tick, runnable_eq]
    unfold Scheduler.dispatch
    rw [unfrozen, next]
    exact ite_self _
  refine ⟨({ s.tick with runnable := [] }).restore 0, ?_, rfl, rfl, blocked_eq, rfl⟩
  rw [Scheduler.schedule, running_eq]
  dsimp only
  rw [picked]

def idleMachine : System Unit :=
  let pcb : PCB Unit :=
    { pid := 0, ppid := 0, stack := 0, stackSize := 0, managers := (), threadContext := {} }
  ⟨Scheduler.init (fun _ => pcb) 0,
    FastPipe.init ⟨fun _ => none, fun _ => ⟨(0, 0), 0, 0, 0⟩, fun _ _ => 0, 0⟩⟩

def Reached (sys : System Unit) : Prop :=
  ∃ labels, Run PipeStep idleMachine labels sys

theorem Reached.step {sys' : System Unit} (reached : Reached sys) (call : Call Unit)
    (exec_eq : sys.exec call = .ok (sys', report)) : Reached sys' := by
  obtain ⟨labels, run⟩ := reached
  exact ⟨labels ++ [(call, report)], run.snoc exec_eq⟩

theorem Reached.park {count : Int} {context : Context} {loop : Writing} (reached : Reached sys)
    (call : Call Unit) (alone : Alone sys tries stored) (front_lt : loop.front < pipeBufLength)
    (exec_eq : sys.exec call = .ok (⟨(setWriteCount sys.sched 0 count).park 0 context,
      sys.pipes.afterWrite 0 loop⟩, report)) :
    ∃ sys', Reached sys' ∧ Alone sys' count
      (ringSize pipeBufLength (sys.pipes.pipeData 0).backPointer loop.front) := by
  let program : Program Unit := ⟨0, (), {}⟩
  obtain ⟨sched, schedule_eq, running_eq, runnable_eq, blocked_eq, pcb_eq⟩ :=
    @schedule_alone ((setWriteCount sys.sched 0 count).park 0 context) program rfl
      (by simp [Scheduler.park, Scheduler.setPcb, setWriteCount, alone.runnable]) alone.blocked
  have picked : System.exec ⟨(setWriteCount sys.sched 0 count).park 0 context, sys.pipes.afterWrite 0 loop⟩
      (.other (.schedule program)) = .ok (⟨sched, sys.pipes.afterWrite 0 loop⟩, .quiet) := by
    rw [System.exec, Op.exec, schedule_eq]
    rfl
  refine ⟨⟨sched, sys.pipes.afterWrite 0 loop⟩, (reached.step call exec_eq).step _ picked, running_eq,
    runnable_eq, blocked_eq, ?_, alone.readEnd, alone.writeEnd, ?_, ?_, ?_⟩
  · rw [pcb_eq]
    simp [Scheduler.park, Scheduler.setPcb, setWriteCount]
  · simpa [FastPipe.afterWrite, FastPipe.setData] using front_lt
  · simpa [FastPipe.afterWrite, FastPipe.setData] using alone.back_lt
  · simp [FastPipe.afterWrite, FastPipe.setData]

theorem exists_reached_opened : ∃ sys, Reached sys ∧ Alone sys 0 0 := by
  let program : Program Unit := ⟨0, (), {}⟩
  have created : Reached _ := Reached.step ⟨[], .nil⟩ (.other (.createProcess program)) rfl
  have scheduled := created.step (.other (.schedule program)) rfl
  have opened := scheduled.step (.createPipe (3, 4)) rfl
  exact ⟨_, opened, rfl, rfl, rfl, rfl, rfl, rfl, Nat.zero_lt_succ _, Nat.zero_lt_succ _, rfl⟩

theorem exists_reached_full : ∃ sys, Reached sys ∧ Alone sys 0 (pipeBufLength - 1) := by
  obtain ⟨sys, reached, alone⟩ := exists_reached_opened
  have room_eq : 0 + (pipeBufLength - 1) + 1 = pipeBufLength := rfl
  obtain ⟨loop, loop_eq, front_lt, full⟩ := @writeBytes_until_full _ alone.back_lt 0 _ pipeBufLength 0
    ⟨_, sys.pipes.pipeBuffer (sys.pipes.pipeData 0).startAddress, []⟩ alone.front_lt
    (alone.stored.symm ▸ room_eq) (Nat.lt_succ_self _)
  have few : (sys.sched.pcb 0).pipeWriteCount ≤ 110 := by
    rw [alone.tries]
    decide
  obtain ⟨sys', reached', alone'⟩ := reached.park (.write 4 _ _) alone front_lt
    (write_of_progress alone.running alone.writeEnd loop_eq (Nat.zero_lt_succ _) few)
  exact ⟨sys', reached', Nat.eq_sub_of_add_eq full ▸ alone'⟩

theorem exists_reached_tries {tries : Nat} (few : tries ≤ 111) :
    ∃ sys, Reached sys ∧ Alone sys tries (pipeBufLength - 1) := by
  induction tries with
  | zero => exact exists_reached_full
  | succ tries ih =>
    obtain ⟨sys, reached, alone⟩ := ih (by omega)
    have room_eq : pipeBufLength - 1 + 0 + 1 = pipeBufLength := rfl
    obtain ⟨loop, loop_eq, front_lt, full⟩ := @writeBytes_until_full _ alone.back_lt 0 _ 1 0
      ⟨_, sys.pipes.pipeBuffer (sys.pipes.pipeData 0).startAddress, []⟩ alone.front_lt
      (alone.stored.symm ▸ room_eq) (Nat.lt_succ_self _)
    obtain ⟨sys', reached', alone'⟩ := reached.park (.write 4 _ _) alone front_lt
      (write_of_retry alone.running alone.writeEnd loop_eq (by rw [alone.tries]; omega))
    rw [alone.tries] at alone'
    exact ⟨sys', reached', Nat.eq_sub_of_add_eq full ▸ alone'⟩

theorem Reached.read (reached : Reached sys) (alone : Alone sys tries (stored + 1)) :
    ∃ sys', Reached sys' ∧ Alone sys' tries stored := by
  let data := sys.pipes.pipeData 0
  let byte := sys.pipes.pipeBuffer data.startAddress data.backPointer
  let buff : Nat → UInt8 := Function.update (fun _ => 0) 0 byte
  have stored_eq : ringSize pipeBufLength data.backPointer data.frontPointer = stored + 1 := alone.stored
  have notEmpty : data.backPointer ≠ data.frontPointer := by
    intro same
    rw [same, ringSize, if_pos le_rfl] at stored_eq
    omega
  have size_eq := ringSize_pop alone.back_lt alone.front_lt notEmpty
  have loop_eq : readBytes (sys.pipes.pipeBuffer data.startAddress) data.frontPointer (fun _ => true) 1 0
      ⟨data.backPointer, fun _ => 0, []⟩ =
        .ok (.finished, ⟨(data.backPointer + 1) % pipeBufLength, buff, [byte]⟩) := by
    rw [readBytes, if_neg notEmpty, if_neg (Nat.not_le.2 alone.back_lt), if_pos rfl]
    rfl
  have read_eq : sys.exec (.read 3 (fun _ => 0) (fun _ => true) 1) =
      .ok (⟨returnValue (setReadCount sys.sched 0 0) 1,
        sys.pipes.setData 0 { data with backPointer := (data.backPointer + 1) % pipeBufLength }⟩,
        .read 0 [byte] buff (.returned 1)) := by
    rw [System.exec, System.read, alone.running, alone.readEnd]
    dsimp only
    rw [loop_eq, ok_bind]
    rfl
  refine ⟨_, reached.step _ read_eq, alone.running, alone.runnable, alone.blocked, ?_, alone.readEnd,
    alone.writeEnd, ?_, ?_, ?_⟩
  · simpa [returnValue, setReadCount, Scheduler.setPcb] using alone.tries
  · simpa [FastPipe.setData] using alone.front_lt
  · simpa [FastPipe.setData] using Nat.mod_lt _ (by decide)
  · simp only [FastPipe.setData, Function.update_self]
    exact Nat.succ.inj (size_eq.symm.trans alone.stored)

theorem keepsProgress_of_first : ∃ sys, Reached sys ∧
    KeepsProgress sys 0 4 (fun _ => some 0) pipeBufLength (pipeBufLength - 1) := by
  obtain ⟨sys, ⟨labels, run⟩, alone⟩ := exists_reached_opened
  have room_eq : 0 + (pipeBufLength - 1) + 1 = pipeBufLength := rfl
  obtain ⟨loop, loop_eq, -⟩ := @writeBytes_until_full _ alone.back_lt 0 _ pipeBufLength 0
    ⟨_, sys.pipes.pipeBuffer (sys.pipes.pipeData 0).startAddress, []⟩ alone.front_lt
    (alone.stored.symm ▸ room_eq) (Nat.lt_succ_self _)
  obtain ⟨-, -, keeps_iff, -⟩ := keepsProgress_iff_of_run run alone.running alone.writeEnd loop_eq
    (Nat.zero_lt_succ _)
  rw [Nat.zero_add, alone.tries] at keeps_iff
  exact ⟨sys, ⟨labels, run⟩, keeps_iff.2 (by decide)⟩

theorem not_keepsProgress_of_tired : ∃ sys loop sys', Reached sys ∧
    sys.pipes.writeLoop 0 (fun _ => some 0) 2 = .ok (.blocked 1, loop) ∧
    sys.write 4 (fun _ => some 0) 2 = .ok (sys', .wrote 0 loop.placed .ended) := by
  obtain ⟨sys₁, reached₁, alone₁⟩ := @exists_reached_tries 111 le_rfl
  obtain ⟨sys, reached, alone⟩ := reached₁.read alone₁
  have room_eq : pipeBufLength - 2 + 1 + 1 = pipeBufLength := rfl
  obtain ⟨loop, loop_eq, -⟩ := @writeBytes_until_full _ alone.back_lt 0 1 2 0
    ⟨_, sys.pipes.pipeBuffer (sys.pipes.pipeData 0).startAddress, []⟩ alone.front_lt
    (alone.stored.symm ▸ room_eq) (by decide)
  have tired : 110 < (sys.sched.pcb 0).pipeWriteCount := by
    rw [alone.tries]
    decide
  exact ⟨sys, loop, _, reached, loop_eq, write_of_tired alone.running alone.writeEnd loop_eq tired⟩

end SysCore.Pipe
