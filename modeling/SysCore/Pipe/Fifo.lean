import SysCore.Pipe.FastPipe

/-!
# Pipes are queues

The copy loops push to and pop from the ring of their pipe, one byte per
iteration.  Over a whole run every byte placed in a pipe is handed out once and
in order: what was placed is what was handed out followed by what is stored.
A call that is issued again has moved nothing, so repeating it repeats nothing.
-/

namespace SysCore.Pipe

open Transition Sched Container Function List

def LoopEnd.index (last : Nat) : LoopEnd → Nat
  | .finished => last
  | .blocked i => i
  | .fault i => i

structure Reads (all : List UInt8) (cells : Nat → UInt8) (front : Nat) (buff : Nat → UInt8)
    (i : Nat) (loop : Reading) : Prop where
  back_lt : loop.back < pipeBufLength
  split : all = loop.handed ++ ringContents pipeBufLength cells loop.back front
  copied : loop.handed = (List.range i).map loop.buff
  rest : ∀ k, i ≤ k → loop.buff k = buff k

variable {all old : List UInt8} {cells buff : Nat → UInt8} {front i back ref count : Nat} {loop : Writing}
  {s s' : Scheduler μ} {stop : LoopEnd} {completion : Completion}

theorem Reads.next {loop : Reading} (reads : Reads all cells front buff i loop)
    (front_lt : front < pipeBufLength) (notEmpty : loop.back ≠ front) :
    Reads all cells front buff (i + 1)
      { back := (loop.back + 1) % pipeBufLength
        buff := Function.update loop.buff i (cells loop.back)
        handed := loop.handed ++ [cells loop.back] } where
  back_lt := Nat.mod_lt _ (by decide)
  split := by
    rw [reads.split, ringContents_pop reads.back_lt front_lt notEmpty]
    simp
  copied := by
    dsimp only
    rw [range_succ, map_append, reads.copied]
    congr 1
    · refine map_congr_left fun k kMem => ?_
      rw [update_of_ne (mem_range.1 kMem).ne]
    · simp
  rest k bound := by
    dsimp only
    rw [update_of_ne (by omega)]
    exact reads.rest k (by omega)

theorem readBytes_spec (mapped : Nat → Bool) (front_lt : front < pipeBufLength) (remaining : Nat)
    {loop : Reading} (reads : Reads all cells front buff i loop) :
    ∃ stop loop', readBytes cells front mapped remaining i loop = .ok (stop, loop') ∧
      Reads all cells front buff (stop.index (i + remaining)) loop' := by
  induction remaining generalizing i loop with
  | zero => exact ⟨.finished, loop, rfl, reads⟩
  | succ remaining ih =>
    unfold readBytes
    by_cases empty : loop.back = front
    · exact ⟨.blocked i, loop, by simp [empty], reads⟩
    · simp only [empty, if_false, Nat.not_le.2 reads.back_lt]
      by_cases writable : mapped i
      · obtain ⟨stop, loop', read_eq, after⟩ := ih (reads.next front_lt empty)
        refine ⟨stop, loop', by simpa [writable] using read_eq, ?_⟩
        rwa [Nat.add_right_comm] at after
      · exact ⟨.fault i, loop, by simp [writable], reads⟩

structure Writes (old : List UInt8) (back : Nat) (buf : Nat → Option UInt8) (i : Nat)
    (loop : Writing) : Prop where
  front_lt : loop.front < pipeBufLength
  split : ringContents pipeBufLength loop.cells back loop.front = old ++ loop.placed
  copied : loop.placed.map some = (List.range i).map buf

theorem Writes.next {buf : Nat → Option UInt8} (writes : Writes old back buf i loop)
    (back_lt : back < pipeBufLength) (notFull : (loop.front + 1) % pipeBufLength ≠ back) {byte : UInt8}
    (byte_eq : buf i = some byte) :
    Writes old back buf (i + 1)
      { front := (loop.front + 1) % pipeBufLength
        cells := Function.update loop.cells loop.front byte
        placed := loop.placed ++ [byte] } where
  front_lt := Nat.mod_lt _ (by decide)
  split := by
    rw [ringContents_push back_lt writes.front_lt notFull, writes.split]
    simp
  copied := by
    simp [range_succ, writes.copied, byte_eq]

theorem writeBytes_spec (buf : Nat → Option UInt8) (back_lt : back < pipeBufLength) (remaining : Nat)
    (writes : Writes old back buf i loop) :
    ∃ stop loop', writeBytes back buf remaining i loop = .ok (stop, loop') ∧
      Writes old back buf (stop.index (i + remaining)) loop' := by
  induction remaining generalizing i loop with
  | zero => exact ⟨.finished, loop, rfl, writes⟩
  | succ remaining ih =>
    unfold writeBytes
    by_cases full : (loop.front + 1) % pipeBufLength = back
    · exact ⟨.blocked i, loop, by simp [full], writes⟩
    · simp only [full, if_false, Nat.not_le.2 writes.front_lt]
      cases byte_eq : buf i with
      | none => exact ⟨.fault i, loop, rfl, writes⟩
      | some byte =>
        obtain ⟨stop, loop', write_eq, after⟩ := ih (writes.next back_lt full byte_eq)
        refine ⟨stop, loop', by simpa using write_eq, ?_⟩
        rwa [Nat.add_right_comm] at after

def Report.placed (pipe : Nat) : Report → List UInt8
  | .wrote target bytes _ => if target = pipe then bytes else []
  | _ => []

def Report.handed (pipe : Nat) : Report → List UInt8
  | .read target bytes _ _ => if target = pipe then bytes else []
  | _ => []

structure Balanced (pipes : FastPipe) (placed handed : Nat → List UInt8) : Prop where
  row : ∀ pipe < pipes.currentPipeBufferPointer, (pipes.pipeData pipe).startAddress = pipe
  known : ∀ fd pipe, pipes.fdToBuffAddress fd = some pipe → pipe < pipes.currentPipeBufferPointer
  front_lt : ∀ pipe < pipes.currentPipeBufferPointer,
    (pipes.pipeData pipe).frontPointer < pipeBufLength
  back_lt : ∀ pipe < pipes.currentPipeBufferPointer,
    (pipes.pipeData pipe).backPointer < pipeBufLength
  fifo : ∀ pipe < pipes.currentPipeBufferPointer,
    placed pipe = handed pipe ++ pipes.contents pipe
  fresh : ∀ pipe, pipes.currentPipeBufferPointer ≤ pipe → placed pipe = [] ∧ handed pipe = []

namespace Balanced

variable {pipes : FastPipe} {placed handed : Nat → List UInt8}

theorem openPipe (balanced : Balanced pipes placed handed) {fd : Nat × Nat} {pipes' : FastPipe}
    (open_eq : pipes.openPipe fd = .ok pipes') : Balanced pipes' placed handed := by
  unfold FastPipe.openPipe at open_eq
  split at open_eq
  · cases open_eq
  cases open_eq
  have older : ∀ pipe < pipes.currentPipeBufferPointer + 1,
      pipe ≠ pipes.currentPipeBufferPointer → pipe < pipes.currentPipeBufferPointer := by
    omega
  refine ⟨?_, ?_, ?_, ?_, ?_, ?_⟩
  · intro pipe bound
    by_cases new : pipe = pipes.currentPipeBufferPointer
    · simp [FastPipe.setData, new]
    · simpa [FastPipe.setData, new] using balanced.row pipe (older pipe bound new)
  · intro other pipe known
    simp only [update_apply] at known
    split_ifs at known
    · cases known
      exact Nat.lt_succ_self _
    · cases known
      exact Nat.lt_succ_self _
    · exact Nat.lt_succ_of_lt (balanced.known other pipe known)
  · intro pipe bound
    by_cases new : pipe = pipes.currentPipeBufferPointer
    · simp [FastPipe.setData, new, pipeBufLength]
    · simpa [FastPipe.setData, new] using balanced.front_lt pipe (older pipe bound new)
  · intro pipe bound
    by_cases new : pipe = pipes.currentPipeBufferPointer
    · simp [FastPipe.setData, new, pipeBufLength]
    · simpa [FastPipe.setData, new] using balanced.back_lt pipe (older pipe bound new)
  · intro pipe bound
    by_cases new : pipe = pipes.currentPipeBufferPointer
    · obtain ⟨nothingPlaced, nothingHanded⟩ := balanced.fresh pipe new.ge
      subst new
      simp [FastPipe.contents, FastPipe.setData, nothingPlaced, nothingHanded]
    · simpa [FastPipe.contents, FastPipe.setData, new] using
        balanced.fifo pipe (older pipe bound new)
  · intro pipe bound
    exact balanced.fresh pipe (Nat.le_of_succ_le bound)

theorem update (balanced : Balanced pipes placed handed) {target front back : Nat}
    {cells : Nat → UInt8} (morePlaced moreHanded : List UInt8)
    (target_lt : target < pipes.currentPipeBufferPointer) (front_lt : front < pipeBufLength)
    (back_lt : back < pipeBufLength) (moved : pipes.contents target ++ morePlaced =
      moreHanded ++ ringContents pipeBufLength cells back front) :
    Balanced
      { pipes.setData target { pipes.pipeData target with
          frontPointer := front, backPointer := back } with
        pipeBuffer := Function.update pipes.pipeBuffer target cells }
      (fun pipe => placed pipe ++ if target = pipe then morePlaced else [])
      (fun pipe => handed pipe ++ if target = pipe then moreHanded else []) := by
  refine ⟨?_, balanced.known, ?_, ?_, ?_, ?_⟩
  · intro pipe bound
    have row := balanced.row pipe bound
    by_cases same : pipe = target
    · subst same
      simpa [FastPipe.setData] using row
    · simpa [FastPipe.setData, same] using row
  · intro pipe bound
    by_cases same : pipe = target
    · simpa [FastPipe.setData, same] using front_lt
    · simpa [FastPipe.setData, same] using balanced.front_lt pipe bound
  · intro pipe bound
    by_cases same : pipe = target
    · simpa [FastPipe.setData, same] using back_lt
    · simpa [FastPipe.setData, same] using balanced.back_lt pipe bound
  · intro pipe bound
    have row := balanced.row pipe bound
    have fifo := balanced.fifo pipe bound
    by_cases same : pipe = target
    · subst same
      have after : placed pipe ++ morePlaced =
          handed pipe ++ moreHanded ++ ringContents pipeBufLength cells back front := by
        rw [fifo, append_assoc, moved, append_assoc]
      simpa [FastPipe.contents, FastPipe.setData, row] using after
    · have different : target ≠ pipe := Ne.symm same
      simpa [FastPipe.contents, FastPipe.setData, row, same, different] using fifo
  · intro pipe bound
    have different : target ≠ pipe := by
      simp only [FastPipe.setData] at bound
      omega
    simpa [different] using balanced.fresh pipe bound

end Balanced

variable {μ : Type}

def Reports (last : Nat) (stop : LoopEnd) (completion : Completion) : Prop :=
  (∀ r, completion.value = some r → r = stop.index last) ∧
    (completion = .retry → stop.index last = 0)

theorem endRead_reports (end_eq : endRead s ref count stop = .ok (s', completion)) :
    Reports count stop completion := by
  cases stop with
  | finished =>
    cases end_eq
    simp [Reports, Completion.value, LoopEnd.index]
  | blocked i =>
    simp only [endRead] at end_eq
    split_ifs at end_eq with atStart <;> cases (leave_eq_ok end_eq).1 <;>
      simp [Reports, Completion.value, LoopEnd.index, *]
  | fault i =>
    cases (leave_eq_ok end_eq).1
    simp [Reports, Completion.value]

theorem endWrite_reports (end_eq : endWrite s ref count stop = .ok (s', completion)) :
    Reports count stop completion := by
  cases stop with
  | finished =>
    cases end_eq
    simp [Reports, Completion.value, LoopEnd.index]
  | blocked i =>
    simp only [endWrite] at end_eq
    split_ifs at end_eq with _ atStart <;> cases (leave_eq_ok end_eq).1 <;>
      simp [Reports, Completion.value, LoopEnd.index, *]
  | fault i =>
    cases (leave_eq_ok end_eq).1
    simp [Reports, Completion.value]

def Faithful : Call μ → Report → Prop
  | .read _ buff _ _, .read _ handed buff' completion =>
    (∀ r, completion.value = some r →
      handed = (List.range r).map buff' ∧ ∀ k, r ≤ k → buff' k = buff k) ∧
    (completion = .retry → handed = [] ∧ buff' = buff)
  | .write _ buf _, .wrote _ placed completion =>
    (∀ r, completion.value = some r → placed.map some = (List.range r).map buf) ∧
    (completion = .retry → placed = [])
  | _, _ => True

section Step

variable {sys sys' : System μ} {report : Report} {placed handed : Nat → List UInt8}

variable (balanced : Balanced sys.pipes placed handed)
include balanced

theorem read_step {fd count : Nat} {buff : Nat → UInt8} {mapped : Nat → Bool}
    (read_eq : sys.read fd buff mapped count = .ok (sys', report)) :
    Faithful (.read fd buff mapped count : Call μ) report ∧
      Balanced sys'.pipes (fun pipe => placed pipe ++ report.placed pipe)
        (fun pipe => handed pipe ++ report.handed pipe) := by
  unfold System.read at read_eq
  split at read_eq
  next ref pipe running_eq pipe_eq =>
    have pipe_lt := balanced.known fd pipe pipe_eq
    have row := balanced.row pipe pipe_lt
    have start : Reads (sys.pipes.contents pipe)
        (sys.pipes.pipeBuffer (sys.pipes.pipeData pipe).startAddress)
        (sys.pipes.pipeData pipe).frontPointer buff 0
        ⟨(sys.pipes.pipeData pipe).backPointer, buff, []⟩ :=
      ⟨balanced.back_lt pipe pipe_lt, rfl, rfl, fun _ _ => rfl⟩
    obtain ⟨stop, loop, loop_eq, reads⟩ :=
      readBytes_spec mapped (balanced.front_lt pipe pipe_lt) count start
    obtain ⟨⟨stop', loop'⟩, loop_eq', rest_eq⟩ := bind_eq_ok.1 read_eq
    cases loop_eq.symm.trans loop_eq'
    obtain ⟨⟨sched, completion⟩, end_eq, result_eq⟩ := bind_eq_ok.1 rest_eq
    cases result_eq
    obtain ⟨value_eq, retry_eq⟩ := endRead_reports end_eq
    rw [Nat.zero_add] at reads
    refine ⟨⟨fun r isValue => ?_, fun isRetry => ?_⟩, ?_⟩
    · rw [value_eq r isValue]
      exact ⟨reads.copied, reads.rest⟩
    · rw [retry_eq isRetry] at reads
      exact ⟨reads.copied, funext fun k => reads.rest k (Nat.zero_le k)⟩
    · have moved := balanced.update [] loop.handed pipe_lt (balanced.front_lt pipe pipe_lt)
        reads.back_lt ((append_nil _).trans reads.split)
      rw [row, update_eq_self] at moved
      simpa [FastPipe.setData, Report.placed, Report.handed] using moved
  · cases read_eq

theorem write_step {fd count : Nat} {buf : Nat → Option UInt8}
    (write_eq : sys.write fd buf count = .ok (sys', report)) :
    Faithful (.write fd buf count : Call μ) report ∧
      Balanced sys'.pipes (fun pipe => placed pipe ++ report.placed pipe)
        (fun pipe => handed pipe ++ report.handed pipe) := by
  unfold System.write at write_eq
  split at write_eq
  next ref pipe running_eq pipe_eq =>
    have pipe_lt := balanced.known fd pipe pipe_eq
    have row := balanced.row pipe pipe_lt
    have back_lt := balanced.back_lt pipe pipe_lt
    have start : Writes (sys.pipes.contents pipe) (sys.pipes.pipeData pipe).backPointer buf 0
        ⟨(sys.pipes.pipeData pipe).frontPointer,
          sys.pipes.pipeBuffer (sys.pipes.pipeData pipe).startAddress, []⟩ :=
      ⟨balanced.front_lt pipe pipe_lt, (append_nil _).symm, rfl⟩
    obtain ⟨stop, loop, loop_eq, writes⟩ := writeBytes_spec buf back_lt count start
    obtain ⟨⟨stop', loop'⟩, loop_eq', rest_eq⟩ := bind_eq_ok.1 write_eq
    cases loop_eq.symm.trans loop_eq'
    obtain ⟨⟨sched, completion⟩, end_eq, result_eq⟩ := bind_eq_ok.1 rest_eq
    cases result_eq
    obtain ⟨value_eq, retry_eq⟩ := endWrite_reports end_eq
    rw [Nat.zero_add] at writes
    refine ⟨⟨fun r isValue => ?_, fun isRetry => ?_⟩, ?_⟩
    · rw [value_eq r isValue]
      exact writes.copied
    · rw [retry_eq isRetry] at writes
      simpa using writes.copied
    · have moved := balanced.update loop.placed [] pipe_lt writes.front_lt back_lt writes.split.symm
      simpa [Report.placed, Report.handed, row] using moved
  · cases write_eq

theorem exec_step {call : Call μ} (exec_eq : sys.exec call = .ok (sys', report)) :
    Faithful call report ∧
      Balanced sys'.pipes (fun pipe => placed pipe ++ report.placed pipe)
        (fun pipe => handed pipe ++ report.handed pipe) := by
  cases call with
  | createPipe fd =>
    obtain ⟨pipes, open_eq, result_eq⟩ := bind_eq_ok.1 exec_eq
    cases result_eq
    exact ⟨trivial, by simpa [Report.placed, Report.handed] using balanced.openPipe open_eq⟩
  | read fd buff mapped count => exact read_step balanced exec_eq
  | write fd buf count => exact write_step balanced exec_eq
  | other op =>
    obtain ⟨⟨sched, events⟩, _, result_eq⟩ := bind_eq_ok.1 exec_eq
    cases result_eq
    exact ⟨trivial, by simpa [Report.placed, Report.handed] using balanced⟩

end Step

def PipeStep (sys : System μ) (label : Call μ × Report) (sys' : System μ) : Prop :=
  sys.exec label.1 = .ok (sys', label.2)

def placedBytes (labels : List (Call μ × Report)) (pipe : Nat) : List UInt8 :=
  labels.flatMap fun label => label.2.placed pipe

def handedBytes (labels : List (Call μ × Report)) (pipe : Nat) : List UInt8 :=
  labels.flatMap fun label => label.2.handed pipe

theorem placedBytes_snoc (labels : List (Call μ × Report)) (label : Call μ × Report) :
    placedBytes (labels ++ [label]) = fun pipe => placedBytes labels pipe ++ label.2.placed pipe := by
  funext pipe
  simp [placedBytes]

theorem handedBytes_snoc (labels : List (Call μ × Report)) (label : Call μ × Report) :
    handedBytes (labels ++ [label]) = fun pipe => handedBytes labels pipe ++ label.2.handed pipe := by
  funext pipe
  simp [handedBytes]

theorem Balanced.init (pipes : FastPipe) : Balanced pipes.init (fun _ => []) (fun _ => []) where
  row _ bound := absurd bound (Nat.not_lt_zero _)
  known _ _ known := by simp [FastPipe.init] at known
  front_lt _ bound := absurd bound (Nat.not_lt_zero _)
  back_lt _ bound := absurd bound (Nat.not_lt_zero _)
  fifo _ bound := absurd bound (Nat.not_lt_zero _)
  fresh _ _ := ⟨rfl, rfl⟩

theorem Balanced.of_run {start sys : System μ} {labels : List (Call μ × Report)}
    (run : Run PipeStep { start with pipes := start.pipes.init } labels sys) :
    Balanced sys.pipes (placedBytes labels) (handedBytes labels) := by
  refine Run.history
    (fun labels (sys : System μ) => Balanced sys.pipes (placedBytes labels) (handedBytes labels))
    ?_ run ?_
  · intro labels label source target balanced step
    rw [placedBytes_snoc, handedBytes_snoc]
    exact (exec_step balanced step).2
  · exact Balanced.init start.pipes

structure FifoInvariant (labels : List (Call μ × Report)) (sys : System μ) (pipe : Nat) :
    Prop where
  fifo : placedBytes labels pipe = handedBytes labels pipe ++ sys.pipes.contents pipe
  front_lt : (sys.pipes.pipeData pipe).frontPointer < pipeBufLength
  back_lt : (sys.pipes.pipeData pipe).backPointer < pipeBufLength
  stored : (sys.pipes.contents pipe).length ≤ pipeBufLength - 1
  faithful : ∀ (call : Call μ) (report : Report) (sys' : System μ),
    sys.exec call = .ok (sys', report) → Faithful call report

theorem fifoInvariant_of_run {start sys : System μ} {labels : List (Call μ × Report)}
    (run : Run PipeStep { start with pipes := start.pipes.init } labels sys) (pipe : Nat)
    (created : pipe < sys.pipes.currentPipeBufferPointer) : FifoInvariant labels sys pipe := by
  have balanced := Balanced.of_run run
  have front_lt := balanced.front_lt pipe created
  have back_lt := balanced.back_lt pipe created
  refine ⟨balanced.fifo pipe created, front_lt, back_lt, ?_, ?_⟩
  · have size_lt := ringSize_lt back_lt front_lt
    rw [FastPipe.contents, length_ringContents]
    omega
  · intro call report sys' exec_eq
    exact (exec_step balanced exec_eq).1

theorem fifoInvariant_of_write_read :
    ∃ (labels : List (Call Unit × Report)) (sys : System Unit),
      placedBytes labels 0 = [7, 8] ∧ handedBytes labels 0 = [7] ∧ FifoInvariant labels sys 0 := by
  let pcb : Nat → PCB Unit := fun _ =>
    { pid := 0, ppid := 0, stack := 0, stackSize := 0, managers := (), threadContext := {} }
  let start : System Unit :=
    { sched := { Scheduler.init pcb 0 with running := some 0 }
      pipes := ⟨fun _ => none, fun _ => ⟨(0, 0), 0, 0, 0⟩, fun _ _ => 0, 0⟩ }
  have opened := Run.snoc (.nil : Run PipeStep { start with pipes := start.pipes.init } [] _)
    (show PipeStep _ (.createPipe (3, 4), .quiet) _ from rfl)
  have wrote := opened.snoc (show PipeStep _ (.write 4 (fun i => some (7 + .ofNat i)) 2,
    .wrote 0 [7, 8] (.returned 2)) _ from rfl)
  have read := wrote.snoc (show PipeStep _ (.read 3 (fun _ => 0) (fun _ => true) 1,
    .read 0 [7] _ (.returned 1)) _ from rfl)
  exact ⟨_, _, rfl, rfl, fifoInvariant_of_run read 0 (by decide)⟩

end SysCore.Pipe
