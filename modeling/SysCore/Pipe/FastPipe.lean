import SysCore.Sched.State
import SysCore.Container.Ring

/-!
# Pipes

`FastPipe` gives every pipe a row of `pipe_buffer` and a `PipeData` object that
both descriptors point to.  `Read` and `Write` copy byte by byte between the
caller's buffer and the row.  A call that cannot go on ends in the scheduler:
`__yield` lets the caller issue the same `ecall` again, `yield_with_return`
reports a short count, and `exit_process` ends a caller that has retried too
often.

The caller's buffer is an object of its own, indexed from zero.  A byte of it
that is not mapped faults in the kernel, whose trap handler ends the process.
-/

namespace SysCore.Pipe

open Transition Sched Container Function

def pipeBufLength : Nat := 4096 * 30

def maxPipeCount : Nat := 10

structure PipeData where
  fd : Nat × Nat
  startAddress : Nat
  frontPointer : Nat
  backPointer : Nat

structure FastPipe where
  fdToBuffAddress : Nat → Option Nat
  pipeData : Nat → PipeData
  pipeBuffer : Nat → Nat → UInt8
  currentPipeBufferPointer : Nat

namespace FastPipe

variable (pipes : FastPipe)

def init : FastPipe :=
  { pipes with fdToBuffAddress := fun _ => none, currentPipeBufferPointer := 0 }

def setData (pipe : Nat) (data : PipeData) : FastPipe :=
  { pipes with pipeData := update pipes.pipeData pipe data }

def openPipe (fd : Nat × Nat) : Outcome FastPipe :=
  if maxPipeCount ≤ pipes.currentPipeBufferPointer then
    .error .panic
  else
    let pipe := pipes.currentPipeBufferPointer
    let data := { fd := fd, startAddress := pipe, frontPointer := 0, backPointer := 0 }
    .ok { pipes.setData pipe data with
      currentPipeBufferPointer := pipe + 1
      fdToBuffAddress :=
        update (update pipes.fdToBuffAddress fd.1 (some pipe)) fd.2 (some pipe) }

def contents (pipe : Nat) : List UInt8 :=
  let data := pipes.pipeData pipe
  ringContents pipeBufLength (pipes.pipeBuffer data.startAddress) data.backPointer
    data.frontPointer

end FastPipe

inductive LoopEnd where
  | finished
  | blocked (i : Nat)
  | fault (i : Nat)

structure Reading where
  back : Nat
  buff : Nat → UInt8
  handed : List UInt8

def readBytes (cells : Nat → UInt8) (front : Nat) (mapped : Nat → Bool) :
    (remaining i : Nat) → Reading → Outcome (LoopEnd × Reading)
  | 0, _, loop => .ok (.finished, loop)
  | remaining + 1, i, loop =>
    if loop.back = front then
      .ok (.blocked i, loop)
    else if pipeBufLength ≤ loop.back then
      .error .stray
    else if mapped i then
      readBytes cells front mapped remaining (i + 1)
        { back := (loop.back + 1) % pipeBufLength
          buff := update loop.buff i (cells loop.back)
          handed := loop.handed ++ [cells loop.back] }
    else
      .ok (.fault i, loop)

structure Writing where
  front : Nat
  cells : Nat → UInt8
  placed : List UInt8

def writeBytes (back : Nat) (buf : Nat → Option UInt8) :
    (remaining i : Nat) → Writing → Outcome (LoopEnd × Writing)
  | 0, _, loop => .ok (.finished, loop)
  | remaining + 1, i, loop =>
    if (loop.front + 1) % pipeBufLength = back then
      .ok (.blocked i, loop)
    else
      match buf i with
      | none => .ok (.fault i, loop)
      | some byte =>
        if pipeBufLength ≤ loop.front then
          .error .stray
        else
          writeBytes back buf remaining (i + 1)
            { front := (loop.front + 1) % pipeBufLength
              cells := update loop.cells loop.front byte
              placed := loop.placed ++ [byte] }

inductive Completion where
  | returned (count : Nat)
  | retry
  | short (count : Nat)
  | ended
  deriving DecidableEq

def Completion.value : Completion → Option Nat
  | .returned count => some count
  | .short count => some count
  | .retry => none
  | .ended => none

section Endings

variable {μ : Type} (s : Scheduler μ) (ref : Nat)

def returnValue (value : Nat) : Scheduler μ :=
  { s with runningContext := (s.runningContext.setA0 value).advance }

def setReadCount (count : Int) : Scheduler μ :=
  s.setPcb ref { s.pcb ref with pipeReadCount := count }

def setWriteCount (count : Int) : Scheduler μ :=
  s.setPcb ref { s.pcb ref with pipeWriteCount := count }

def leave (outcome : Outcome (Scheduler μ × List Event)) (completion : Completion) :
    Outcome (Scheduler μ × Completion) := do
  let (s, _) ← outcome
  return (s, completion)

theorem leave_eq_ok {left : Scheduler μ} {outcome : Outcome (Scheduler μ × List Event)}
    {ending completion : Completion} (leave_eq : leave outcome ending = .ok (left, completion)) :
    completion = ending ∧ ∃ events, outcome = .ok (left, events) := by
  obtain ⟨⟨after, events⟩, outcome_eq, rest_eq⟩ := bind_eq_ok.1 leave_eq
  cases rest_eq
  exact ⟨rfl, events, outcome_eq⟩

def endRead (count : Nat) : LoopEnd → Outcome (Scheduler μ × Completion)
  | .finished => .ok (returnValue (setReadCount s ref 0) count, .returned count)
  | .blocked i =>
    if i = 0 then
      if 200 < (s.pcb ref).pipeReadCount then
        leave (s.exitProcess 0) .ended
      else
        leave (setReadCount s ref ((s.pcb ref).pipeReadCount + 1)).__yield .retry
    else
      leave ((setReadCount s ref 0).yieldWithReturn i) (.short i)
  | .fault _ => leave (s.exitProcess 1) .ended

def endWrite (count : Nat) : LoopEnd → Outcome (Scheduler μ × Completion)
  | .finished => .ok (returnValue (setWriteCount s ref 0) count, .returned count)
  | .blocked i =>
    if 110 < (s.pcb ref).pipeWriteCount then
      leave (s.exitProcess 0) .ended
    else if i = 0 then
      leave (setWriteCount s ref ((s.pcb ref).pipeWriteCount + 1)).__yield .retry
    else
      leave ((setWriteCount s ref 0).yieldWithReturn i) (.short i)
  | .fault _ => leave (s.exitProcess 1) .ended

end Endings

structure System (μ : Type) where
  sched : Scheduler μ
  pipes : FastPipe

inductive Call (μ : Type) where
  | createPipe (fd : Nat × Nat)
  | read (fd : Nat) (buff : Nat → UInt8) (mapped : Nat → Bool) (count : Nat)
  | write (fd : Nat) (buf : Nat → Option UInt8) (count : Nat)
  | other (op : Op μ)

inductive Report where
  | quiet
  | read (pipe : Nat) (handed : List UInt8) (buff : Nat → UInt8) (completion : Completion)
  | wrote (pipe : Nat) (placed : List UInt8) (completion : Completion)

namespace System

variable {μ : Type} (sys : System μ)

def read (fd : Nat) (buff : Nat → UInt8) (mapped : Nat → Bool) (count : Nat) :
    Outcome (System μ × Report) :=
  match sys.sched.running, sys.pipes.fdToBuffAddress fd with
  | some ref, some pipe => do
    let data := sys.pipes.pipeData pipe
    let (stop, loop) ← readBytes (sys.pipes.pipeBuffer data.startAddress) data.frontPointer
      mapped count 0 { back := data.backPointer, buff := buff, handed := [] }
    let pipes := sys.pipes.setData pipe { data with backPointer := loop.back }
    let (sched, completion) ← endRead sys.sched ref count stop
    return ({ sched := sched, pipes := pipes }, .read pipe loop.handed loop.buff completion)
  | _, _ => .error .stray

def write (fd : Nat) (buf : Nat → Option UInt8) (count : Nat) : Outcome (System μ × Report) :=
  match sys.sched.running, sys.pipes.fdToBuffAddress fd with
  | some ref, some pipe => do
    let data := sys.pipes.pipeData pipe
    let (stop, loop) ← writeBytes data.backPointer buf count 0
      { front := data.frontPointer
        cells := sys.pipes.pipeBuffer data.startAddress
        placed := [] }
    let pipes := { sys.pipes.setData pipe { data with frontPointer := loop.front } with
      pipeBuffer := update sys.pipes.pipeBuffer data.startAddress loop.cells }
    let (sched, completion) ← endWrite sys.sched ref count stop
    return ({ sched := sched, pipes := pipes }, .wrote pipe loop.placed completion)
  | _, _ => .error .stray

def exec : Call μ → Outcome (System μ × Report)
  | .createPipe fd => do
    let pipes ← sys.pipes.openPipe fd
    return ({ sys with pipes := pipes }, .quiet)
  | .read fd buff mapped count => sys.read fd buff mapped count
  | .write fd buf count => sys.write fd buf count
  | .other op => do
    let (sched, _) ← op.exec sys.sched
    return ({ sys with sched := sched }, .quiet)

end System

end SysCore.Pipe
