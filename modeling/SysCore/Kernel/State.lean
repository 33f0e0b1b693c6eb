import SysCore.Process.Exit
import SysCore.Sched.Placement

/-!
# The kernel as one system

The scheduler, physical memory with its page pool, and the address spaces of all
processes.  A block does not hold its managers itself: `page_table`,
`elf_control`, `brk_control` and `mmap_control` are reference-counted pointers.
`clone` either copies all four or none, so one count and one key stand for them;
the text segment below an `Elf_Control` has a count of its own.

The kernel runs on the page table of the process that ran last.  `satp` changes
only when a process is resumed, and stores through user pointers go through the
table it names.
-/

namespace SysCore.Kernel

open Memory Transition Paging Process Sched Function

structure State where
  sched : Scheduler Nat
  mem : PhysMemory
  spaces : Nat → AddressSpace
  /-- The blocks that hold a space. -/
  refs : Nat → Nat
  /-- The key of the text segment of a space: the space it was loaded for. -/
  text : Nat → Nat
  /-- The spaces that hold a text segment. -/
  textRefs : Nat → Nat

def satpOf (root : Nat) : Nat :=
  root / 2 ^ 12 ||| 8 <<< 60

def rootOf (satp : Nat) : Nat :=
  satp % 2 ^ 44 * 4096

def intBytes (value : Int) : List UInt8 :=
  (List.range 4).map fun i => UInt8.ofNat ((value % 2 ^ 32).toNat / 256 ^ i)

namespace State

def init (board : Board) (bytes : Bytes) (pcb : Nat → PCB Nat) (spaces : Nat → AddressSpace)
    (testTotal : Nat) : State where
  sched := Scheduler.init pcb testTotal
  mem := bootMemory board bytes
  spaces := spaces
  refs _ := 0
  text := id
  textRefs _ := 0

variable (fixed : FixedPages) (k : State)

def activeRoot : Nat :=
  rootOf k.sched.runningContext.satp

def spaceOf (ref : Nat) : AddressSpace :=
  k.spaces (k.sched.pcb ref).managers

def addSpace (space : AddressSpace) (text textRefs : Nat) (mem : PhysMemory) : State :=
  { k with
    mem := mem
    spaces := update k.spaces k.sched.nextPcb space
    refs := update k.refs k.sched.nextPcb 1
    text := update k.text k.sched.nextPcb text
    textRefs := update k.textRefs text textRefs }

def createProcess (file : ElfFile) (stackImage : List UInt8) (context : Context) : Outcome State := do
  let (space, mem) ← createSpace fixed file stackImage k.mem
  let key := k.sched.nextPcb
  let (sched, _) ← k.sched.createProcess
    ⟨space.stack, key, { context with satp := satpOf space.pageTable }⟩
  return { k.addSpace space key 1 mem with sched := sched }

def thread (stack : Nat) : Outcome State :=
  match k.sched.running with
  | none => .error .stray
  | some ref => do
    let key := (k.sched.pcb ref).managers
    let (sched, _) ← k.sched.clone (.thread stack)
    return { k with sched := sched, refs := update k.refs key (k.refs key + 1) }

def fork : Outcome State :=
  match k.sched.running with
  | none => .error .stray
  | some ref => do
    let (child, mem) ← (k.spaceOf ref).fork fixed k.mem
    let (sched, _) ← k.sched.clone (.fork child.stack child.pageTable k.sched.nextPcb)
    let text := k.text (k.sched.pcb ref).managers
    return { k.addSpace child text (k.textRefs text + 1) mem with sched := sched }

def dropBlock (key : Nat) : Outcome (State × List Nat) :=
  let k := { k with refs := update k.refs key (k.refs key - 1) }
  if k.refs key = 0 then do
    let text := k.text key
    let k := { k with textRefs := update k.textRefs text (k.textRefs text - 1) }
    let mem ← (k.spaces key).elf.destroy (k.textRefs text = 0) k.mem
    return ({ k with mem := mem }, (k.spaces key).elf.destroyed (k.textRefs text = 0))
  else
    return (k, [])

def exitProcess (exitRet : Int) : Outcome (State × List Nat) :=
  match k.sched.running with
  | none => .error .stray
  | some ref => do
    let mem ← k.mem.deallocPage (k.sched.pcb ref).stack
    let (sched, _) ← k.sched.exitProcess exitRet
    { k with sched := sched, mem := mem }.dropBlock (k.sched.pcb ref).managers

def sysKill (pid : Int) : Outcome State :=
  match k.sched.searchByPid pid with
  | none => .ok k
  | some (_, ref) => do
    let mem ← k.mem.deallocPage (k.sched.pcb ref).stack
    let (sched, _) ← k.sched.sysKill pid
    return { k with sched := sched, mem := mem }

def memoryCall (call : MemoryCall) : Outcome (State × List Nat) :=
  match k.sched.running with
  | none => .error .stray
  | some ref => do
    let key := (k.sched.pcb ref).managers
    let (returned, space, mem) ← (k.spaces key).call k.mem call
    let k := { k with mem := mem, spaces := update k.spaces key space }
    if returned then return (k, []) else k.exitProcess 1

def wait (wstatus : Nat) : Outcome State := do
  let (sched, _) ← k.sched.wait wstatus
  return { k with sched := sched }

def yield : Outcome State := do
  let (sched, _) ← k.sched.yield
  return { k with sched := sched }

def statusStore (events : List Event) : Option (Nat × Int) :=
  events.findSome? fun
    | .storeStatus address status => some (address, status)
    | _ => none

def schedule : Outcome (State × List Nat) :=
  match k.sched.running with
  | some _ => .error .stray
  | none =>
    match k.sched.dispatch with
    | none => .error .panic
    | some (sched, events) =>
      match statusStore events with
      | none => .ok ({ k with sched := sched }, [])
      | some (address, status) =>
        let (bytes, stored) :=
          storeVirtual k.activeRoot (intBytes status) address k.mem.bytes
        let mem := { k.mem with bytes := bytes }
        if stored then
          .ok ({ k with sched := sched, mem := mem }, [])
        else
          { k with
            sched := { sched with runningContext := k.sched.runningContext }
            mem := mem }.exitProcess 1

end State

inductive Call where
  | createProcess (file : ElfFile) (stackImage : List UInt8) (context : Context)
  | fork
  | thread (stack : Nat)
  | memory (call : MemoryCall)
  | exitProcess (exitRet : Int)
  | sysKill (pid : Int)
  | yield
  | wait (wstatus : Nat)
  | schedule

def State.exec (fixed : FixedPages) (k : State) : Call → Outcome (State × List Nat)
  | .createProcess file stackImage context => do
    return (← k.createProcess fixed file stackImage context, [])
  | .fork => do return (← k.fork fixed, [])
  | .thread stack => do return (← k.thread stack, [])
  | .memory call => k.memoryCall call
  | .exitProcess exitRet => k.exitProcess exitRet
  | .sysKill pid => do return (← k.sysKill pid, [])
  | .yield => do return (← k.yield, [])
  | .wait wstatus => do return (← k.wait wstatus, [])
  | .schedule => k.schedule

theorem field_update {β : Type} (field : AddressSpace → β) {spaces : Nat → AddressSpace} {key : Nat}
    {space : AddressSpace} (field_eq : field space = field (spaces key)) (other : Nat) :
    field (update spaces key space other) = field (spaces other) := by
  by_cases same : other = key
  · subst same
    rw [Function.update_self, field_eq]
  · rw [Function.update_of_ne same]

def Step (fixed : FixedPages) (k : State) (label : Call × List Nat) (k' : State) : Prop :=
  k.exec fixed label.1 = .ok (k', label.2)

def State.execAll (fixed : FixedPages) (k : State) :
    List Call → Outcome (List (Call × List Nat) × State)
  | [] => .ok ([], k)
  | call :: calls => do
    let (k₁, freed) ← k.exec fixed call
    let (labels, k₂) ← k₁.execAll fixed calls
    return ((call, freed) :: labels, k₂)

theorem run_of_execAll {fixed : FixedPages} {start k t : State} {calls : List Call}
    {labels more : List (Call × List Nat)} (run : Run (Step fixed) start labels k)
    (exec_eq : k.execAll fixed calls = .ok (more, t)) : Run (Step fixed) start (labels ++ more) t := by
  induction calls generalizing labels more k with
  | nil =>
    cases exec_eq
    simpa using run
  | cons call calls ih =>
    obtain ⟨⟨k₁, freed⟩, step_eq, rest_eq⟩ := bind_eq_ok.1 exec_eq
    obtain ⟨⟨rest, k₂⟩, tail_eq, result_eq⟩ := bind_eq_ok.1 rest_eq
    cases result_eq
    have stepped : Step fixed k (call, freed) k₁ := step_eq
    simpa using ih (run.snoc stepped) tail_eq

structure Pushed (s s' : Scheduler Nat) (managers stack : Nat) : Prop where
  running_eq : s'.running = s.running
  placed : s'.placed.Perm (s.nextPcb :: s.placed)
  blocked_eq : s'.blocked = s.blocked
  nextPcb_eq : s'.nextPcb = s.nextPcb + 1
  newKey : (s'.pcb s.nextPcb).managers = managers
  newStack : (s'.pcb s.nextPcb).stack = stack
  oldKey : ∀ ref, ref ≠ s.nextPcb → (s'.pcb ref).managers = (s.pcb ref).managers
  oldStack : ∀ ref, ref ≠ s.nextPcb → (s'.pcb ref).stack = (s.pcb ref).stack

section Pushed

variable {s s' : Scheduler Nat} {events : List Event}

theorem placed_pushed {ref : Nat} (running_eq : s'.running = s.running)
    (runnable_eq : s'.runnable = s.runnable ++ [ref]) (blocked_eq : s'.blocked = s.blocked) :
    s'.placed.Perm (ref :: s.placed) := by
  refine List.perm_iff_count.2 fun other => ?_
  simp only [Placement.placed, running_eq, runnable_eq, blocked_eq, List.count_append, List.count_cons,
    List.count_nil]
  omega

theorem Pushed.of_createProcess {program : Program Nat}
    (create_eq : s.createProcess program = .ok (s', events)) :
    Pushed s s' program.managers program.stack := by
  obtain ⟨running_eq, runnable_eq, blocked_eq, nextPcb_eq, pcb_eq⟩ := Scheduler.createProcess_pushed create_eq
  obtain ⟨newKey, newStack, _⟩ := Scheduler.createProcess_block create_eq
  exact ⟨running_eq, placed_pushed running_eq runnable_eq blocked_eq, blocked_eq, nextPcb_eq, newKey, newStack,
    fun ref old => by rw [pcb_eq ref old], fun ref old => by rw [pcb_eq ref old]⟩

theorem Pushed.of_clone {kind : CloneKind Nat} {ref : Nat} (running_eq : s.running = some ref)
    (clone_eq : s.clone kind = .ok (s', events)) :
    Pushed s s' (Scheduler.childBlock (s.pcb ref) s.runningContext (s.globalPid + 1) kind).managers
      (Scheduler.childBlock (s.pcb ref) s.runningContext (s.globalPid + 1) kind).stack := by
  obtain ⟨running', runnable_eq, blocked_eq, nextPcb_eq, _, pcb_eq⟩ :=
    Scheduler.clone_pushed running_eq clone_eq
  have same := running'.trans running_eq.symm
  refine ⟨same, placed_pushed same runnable_eq blocked_eq, blocked_eq, nextPcb_eq, ?_, ?_, ?_, ?_⟩
  · rw [pcb_eq, Function.update_self]
  · rw [pcb_eq, Function.update_self]
  all_goals
    intro other old
    rw [pcb_eq, Function.update_of_ne old]
  · exact s.toPlacement.field_setPcb PCB.managers (by rfl) other
  · exact s.toPlacement.field_setPcb PCB.stack (by rfl) other

end Pushed

theorem plain_eq_ok {outcome : Outcome State} {k' : State} {freed : List Nat} :
    (do return (← outcome, [])) = (.ok (k', freed) : Outcome (State × List Nat)) ↔
      outcome = .ok k' ∧ freed = [] := by
  cases outcome with
  | error halt => exact ⟨nofun, fun ⟨same, _⟩ => nomatch same⟩
  | ok state => simp [eq_comm]

def sampleKernel : State :=
  State.init .k210 (fun _ => 0)
    (fun _ => { pid := 0, ppid := 0, stack := 0, stackSize := 0, managers := 0, threadContext := {} })
    (fun _ => ⟨0, 0, ⟨[], []⟩, .init 0, .init 0⟩) 1

end SysCore.Kernel
