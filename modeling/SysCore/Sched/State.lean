import SysCore.Machine.Rv64
import SysCore.Transition.Outcome

/-!
# The process scheduler

The scheduler keeps process control blocks in three places: the `running`
pointer and the `runnable` and `blocked` vectors.  The vectors hold pointers,
so the model does too: `pcb` is the memory behind them and `nextPcb` the next
pointer `new PCB()` returns.  What a block owns besides its scheduling data
(page table, memory managers) is the parameter `μ`.

Every kernel path ends in `schedule`, entered with `running == nullptr` or with
the process to resume.  Here `schedule` is an operation of its own, so that the
state between a move and the next pick is a state of the model.  Operations
report what an observer of the kernel sees as a list of events.
-/

namespace SysCore.Sched

open Transition

structure Context where
  x : Fin 32 → Nat := fun _ => 0
  sstatus : Nat := 0
  sepc : Nat := 0
  stval : Nat := 0
  scause : Nat := 0
  satp : Nat := 0

namespace Context

def a0 (context : Context) : Nat := context.x 10

def sp (context : Context) : Nat := context.x 2

def setA0 (context : Context) (value : Nat) : Context :=
  { context with x := Function.update context.x 10 value }

def setSp (context : Context) (value : Nat) : Context :=
  { context with x := Function.update context.x 2 value }

def advance (context : Context) : Context :=
  { context with sepc := (context.sepc + 4) % 2 ^ 64 }

end Context

def toRegister (value : Int) : Nat :=
  (value % 2 ^ 64).toNat

structure PCB (μ : Type) where
  pid : Int
  ppid : Int
  stack : Nat
  stackSize : Nat
  managers : μ
  threadContext : Context
  cwd : List Char := []
  pipeReadCount : Int := 0
  pipeWriteCount : Int := 0
  signalList : List (Int × Int) := []
  wstatus : Nat := 0
  waitPid : Nat := 0

inductive Event where
  /-- `create_process` made the block. -/
  | create (pcb : Nat)
  /-- `clone`, called by `parent`, made `child`. -/
  | clone (parent child : Nat)
  /-- The block's process called `exit_process` and the block was deleted. -/
  | exit (pcb : Nat) (pid exitRet : Int)
  /-- `sys_kill` took the block out of a vector. -/
  | removed (pcb : Nat)
  /-- `wait` gave the block's process this pid. -/
  | waitReturn (pcb : Nat) (pid : Int)
  /-- The kernel stored an exit status through a user pointer. -/
  | storeStatus (address : Nat) (status : Int)
  deriving DecidableEq

structure Placement (μ : Type) where
  globalPid : Int
  running : Option Nat
  runnable : List Nat
  blocked : List Nat
  pcb : Nat → PCB μ
  nextPcb : Nat

structure Scheduler (μ : Type) extends Placement μ where
  runningContext : Context
  fastPid : Int
  tryUnfreezeTimes : Int
  memoryDirty : Bool
  testCnt : Nat
  testTotal : Nat

structure Program (μ : Type) where
  stack : Nat
  managers : μ
  context : Context

inductive CloneKind (μ : Type) where
  | thread (stack : Nat)
  | fork (stack pageTable : Nat) (managers : μ)

inductive Place where
  | running
  | runnable
  | blocked
  deriving DecidableEq

namespace Placement

variable {μ : Type} (p : Placement μ)

def setPcb (ref : Nat) (block : PCB μ) : Placement μ :=
  { p with pcb := Function.update p.pcb ref block }

def searchByPid (pid : Int) : Option (Place × Nat) :=
  match p.running.filter fun ref => (p.pcb ref).pid = pid with
  | some ref => some (.running, ref)
  | none =>
    match p.runnable.find? fun ref => (p.pcb ref).pid = pid with
    | some ref => some (.runnable, ref)
    | none =>
      (p.blocked.find? fun ref => (p.pcb ref).pid = pid).map fun ref => (.blocked, ref)

def pushNew (block : PCB μ) : Placement μ :=
  { p.setPcb p.nextPcb block with
    nextPcb := p.nextPcb + 1
    runnable := p.runnable ++ [p.nextPcb] }

def notifyParent (ref : Nat) (exitRet : Int) : Placement μ :=
  match p.searchByPid (p.pcb ref).ppid with
  | none => p
  | some (_, parent) =>
    p.setPcb parent { p.pcb parent with
      signalList := (p.pcb parent).signalList ++ [((p.pcb ref).pid, exitRet)] }

end Placement

namespace Scheduler

variable {μ : Type}

def init (pcb : Nat → PCB μ) (testTotal : Nat) : Scheduler μ where
  globalPid := 1
  running := none
  runnable := []
  blocked := []
  pcb := pcb
  nextPcb := 0
  runningContext := {}
  fastPid := 0
  tryUnfreezeTimes := 0
  memoryDirty := false
  testCnt := 0
  testTotal := testTotal

variable (s : Scheduler μ)

def getNewPid : Outcome (Int × Scheduler μ) :=
  if s.globalPid < 2 ^ 31 - 1 then
    .ok (s.globalPid + 1, { s with globalPid := s.globalPid + 1 })
  else
    .error .stray

def setPcb (ref : Nat) (block : PCB μ) : Scheduler μ :=
  { s with toPlacement := s.toPlacement.setPcb ref block }

def pushNew (block : PCB μ) : Scheduler μ :=
  { s with toPlacement := s.toPlacement.pushNew block }

def notifyParent (ref : Nat) (exitRet : Int) : Scheduler μ :=
  { s with toPlacement := s.toPlacement.notifyParent ref exitRet }

def createProcess (program : Program μ) : Outcome (Scheduler μ × List Event) := do
  let (pid, s) ← s.getNewPid
  let block : PCB μ :=
    { pid := pid
      ppid := 1
      stack := program.stack
      stackSize := 4096
      managers := program.managers
      threadContext := program.context
      cwd := ['/'] }
  return (s.pushNew block, [.create s.nextPcb])

def childBlock (parent : PCB μ) (context : Context) (pid : Int) : CloneKind μ → PCB μ
  | .thread stack =>
    { pid := pid
      ppid := parent.pid
      stack := parent.stack
      stackSize := parent.stackSize
      managers := parent.managers
      threadContext := ((context.setA0 0).setSp stack).advance }
  | .fork stack pageTable managers =>
    { pid := pid
      ppid := parent.pid
      stack := stack
      stackSize := parent.stackSize
      managers := managers
      threadContext :=
        { ((context.setA0 0).setSp
            ((context.sp + 2 ^ 64 - parent.stack + stack) % 2 ^ 64)).advance with
          satp := pageTable / 2 ^ 12 ||| 8 <<< 60 } }

def clone (kind : CloneKind μ) : Outcome (Scheduler μ × List Event) :=
  match s.running with
  | none => .error .stray
  | some ref => do
    let (pid, s) ← s.getNewPid
    let parent := s.pcb ref
    let context := s.runningContext.setA0 (toRegister pid)
    let child := childBlock parent s.runningContext pid kind
    let s := s.setPcb ref { parent with threadContext := context }
    return ({ s.pushNew child with runningContext := context }, [.clone ref s.nextPcb])

def park (ref : Nat) (context : Context) : Scheduler μ :=
  { s.setPcb ref { s.pcb ref with threadContext := context } with
    runnable := s.runnable ++ [ref]
    running := none }

def yieldWithReturn (a0 : Nat) : Outcome (Scheduler μ × List Event) :=
  match s.running with
  | none => .error .stray
  | some ref => .ok (s.park ref (s.runningContext.setA0 a0).advance, [])

set_option linter.style.nameCheck false in
def __yield : Outcome (Scheduler μ × List Event) :=
  match s.running with
  | none => .error .stray
  | some ref => .ok (s.park ref s.runningContext, [])

def yield : Outcome (Scheduler μ × List Event) :=
  match s.running with
  | none => .error .stray
  | some ref => .ok (s.park ref s.runningContext.advance, [])

def wait (wstatus : Nat) : Outcome (Scheduler μ × List Event) :=
  match s.running with
  | none => .error .stray
  | some ref =>
    match (s.pcb ref).signalList with
    | record :: rest =>
      .ok (s.setPcb ref { s.pcb ref with signalList := rest },
        [.waitReturn ref record.1])
    | [] =>
      let block := { s.pcb ref with
        threadContext := s.runningContext.advance
        waitPid := 0
        wstatus := wstatus }
      .ok ({ s.setPcb ref block with
        blocked := s.blocked ++ [ref]
        running := none }, [])

def exitProcess (exitRet : Int) : Outcome (Scheduler μ × List Event) :=
  match s.running with
  | none => .error .stray
  | some ref =>
    .ok ({ s.notifyParent ref exitRet with running := none },
      [.exit ref (s.pcb ref).pid exitRet])

def sysKill (pid : Int) : Outcome (Scheduler μ × List Event) :=
  match s.searchByPid pid with
  | none => .ok (s, [])
  | some (.running, ref) => .ok (s.notifyParent ref 1, [])
  | some (.runnable, ref) =>
    let s := s.notifyParent ref 1
    .ok ({ s with runnable := s.runnable.erase ref }, [.removed ref])
  | some (.blocked, ref) =>
    let s := s.notifyParent ref 1
    .ok ({ s with blocked := s.blocked.erase ref }, [.removed ref])

def restore (ref : Nat) : Scheduler μ :=
  { s with
    running := some ref
    runningContext := (s.pcb ref).threadContext
    fastPid := (s.pcb ref).pid }

def wake (ref : Nat) (record : Int × Int) (rest : List (Int × Int)) :
    Scheduler μ × List Event :=
  let block := { s.pcb ref with
    threadContext := (s.pcb ref).threadContext.setA0 (toRegister record.1)
    signalList := rest }
  let store : List Event :=
    if block.wstatus = 0 then []
    else [.storeStatus block.wstatus ((record.2 * 2 ^ 8).bmod (2 ^ 32))]
  (({ s.setPcb ref block with blocked := s.blocked.erase ref }).restore ref,
    .waitReturn ref record.1 :: store)

def tryToUnfreeze : Option (Scheduler μ × List Event) :=
  match s.blocked.find? fun ref => !(s.pcb ref).signalList.isEmpty with
  | none => none
  | some ref =>
    match (s.pcb ref).signalList with
    | [] => none
    | record :: rest => some (s.wake ref record rest)

def pickNext : Option (Scheduler μ × List Event) :=
  match s.runnable with
  | ref :: rest => some (({ s with runnable := rest }).restore ref, [])
  | [] => s.tryToUnfreeze

def tick : Scheduler μ :=
  { s with tryUnfreezeTimes := (s.tryUnfreezeTimes + 1).bmod (2 ^ 32) }

def dispatch : Option (Scheduler μ × List Event) :=
  if 100 < s.tryUnfreezeTimes then
    s.tick.tryToUnfreeze <|> s.tick.pickNext
  else
    s.tick.pickNext

def restart : Scheduler μ :=
  if s.memoryDirty then { s.tick with memoryDirty := false } else s

def startTest (test : Program μ) : Outcome (Scheduler μ × List Event) := do
  let (s, created) ← { s with testCnt := s.testCnt + 1 }.createProcess test
  match { s with memoryDirty := true }.dispatch with
  | some (s, events) => return (s, created ++ events)
  | none => .error .hang

def schedule (test : Program μ) : Outcome (Scheduler μ × List Event) :=
  match s.running with
  | some ref => .ok (s.restore ref, [])
  | none =>
    match s.dispatch with
    | some result => .ok result
    | none =>
      if !s.blocked.isEmpty then
        .error .panic
      else if s.testCnt < s.testTotal then
        s.tick.restart.startTest test
      else
        .error .panic

end Scheduler

inductive Op (μ : Type) where
  | createProcess (program : Program μ)
  | clone (kind : CloneKind μ)
  | yield
  | __yield
  | yieldWithReturn (a0 : Nat)
  | wait (wstatus : Nat)
  | exitProcess (exitRet : Int)
  | sysKill (pid : Int)
  | schedule (test : Program μ)

def Op.exec {μ : Type} (s : Scheduler μ) : Op μ → Outcome (Scheduler μ × List Event)
  | .createProcess program => s.createProcess program
  | .clone kind => s.clone kind
  | .yield => s.yield
  | .__yield => s.__yield
  | .yieldWithReturn a0 => s.yieldWithReturn a0
  | .wait wstatus => s.wait wstatus
  | .exitProcess exitRet => s.exitProcess exitRet
  | .sysKill pid => s.sysKill pid
  | .schedule test => s.schedule test

end SysCore.Sched
