import SysCore.Sched.Placement
import SysCore.Pipe.FastPipe

/-!
# Returning from a system call

A process enters the kernel with an `ecall` and some registers.  Most handlers
return a value to `syscall`, which stores it in `a0` and steps over the `ecall`;
the others park the process with registers of their own making and leave through
`schedule`, and a blocked `wait4` gets its value from the process that wakes it.

`Sys` adds to the scheduler a note of what every process between its `ecall` and
its next user instruction was promised.  The kernel never reads the notes; the
results compare them with the registers the process is resumed with.
-/

namespace SysCore.Syscall

open Transition Sched Pipe Function List

variable {μ : Type}

inductive Request (μ : Type) where
  /-- A handler that returns a value and does not enter the scheduler. -/
  | plain (ret : Int)
  | schedYield
  | wait4 (wstatus : Nat)
  | clone (kind : CloneKind μ)
  | kill (pid : Int)
  | exit (exitRet : Int)
  | pipeRead (count : Nat) (stop : LoopEnd)
  | pipeWrite (count : Nat) (stop : LoopEnd)
  /-- `pselect6` on a pipe that has bytes to read, or has none. -/
  | testPipe (ready : Bool)

def Request.exec (s : Scheduler μ) (ref : Nat) : Request μ → Outcome (Scheduler μ × List Event)
  | .plain ret => .ok (returnValue s (toRegister ret), [])
  | .schedYield => s.yield
  | .wait4 wstatus => do
    let (left, events) ← s.wait wstatus
    match (s.pcb ref).signalList with
    | record :: _ => return (returnValue left (toRegister record.1), events)
    | [] => return (left, events)
  | .clone kind => do
    let (left, events) ← s.clone kind
    return (returnValue left left.runningContext.a0, events)
  | .kill pid => do
    let (left, events) ← s.sysKill pid
    return (returnValue left (toRegister (if (s.searchByPid pid).isSome then 0 else -1)), events)
  | .exit exitRet => s.exitProcess exitRet
  | .pipeRead count stop => do
    let (left, _) ← endRead s ref count stop
    return (left, [])
  | .pipeWrite count stop => do
    let (left, _) ← endWrite s ref count stop
    return (left, [])
  | .testPipe ready => if ready then .ok (returnValue s 1, []) else s.yieldWithReturn 0

inductive Promise where
  /-- This value. -/
  | value (value : Nat)
  /-- The 0 of `sched_yield`. -/
  | yielded
  /-- The pid of a child that has exited. -/
  | exitedPid
  /-- To issue the call again. -/
  | retry

def pipePromise (count : Nat) : LoopEnd → Option Promise
  | .finished => some (.value count)
  | .blocked i => some (if i = 0 then .retry else .value i)
  | .fault _ => none

def Request.promise (s left : Scheduler μ) : Request μ → Option Promise
  | .plain ret => some (.value (toRegister ret))
  | .schedYield => some .yielded
  | .wait4 _ => some .exitedPid
  | .clone _ => some (.value (toRegister (left.pcb s.nextPcb).pid))
  | .kill pid => some (.value (toRegister (if (s.searchByPid pid).isSome then 0 else -1)))
  | .exit _ => none
  | .pipeRead count stop | .pipeWrite count stop => pipePromise count stop
  | .testPipe ready => some (.value (if ready then 1 else 0))

structure Sys (μ : Type) where
  sched : Scheduler μ
  notes : Nat → Option (Context × Promise)

inductive Action (μ : Type) where
  | createProcess (program : Program μ)
  | ecall (frame : Context) (request : Request μ)
  | schedule (test : Program μ)

def noted (s left : Scheduler μ) (ref : Nat) (frame : Context) (request : Request μ)
    (notes : Nat → Option (Context × Promise)) : Nat → Option (Context × Promise) :=
  let notes := update notes ref ((request.promise s left).map fun promise => (frame, promise))
  match request with
  | .clone _ => update notes s.nextPcb (some (frame, .value 0))
  | _ => notes

def Action.exec (sys : Sys μ) : Action μ → Outcome (Sys μ × List Event)
  | .createProcess program => do
    let (left, events) ← sys.sched.createProcess program
    return ({ sys with sched := left }, events)
  | .ecall frame request =>
    match sys.sched.running with
    | none => .error .stray
    | some ref => do
      let s := { sys.sched with runningContext := frame }
      let (left, events) ← request.exec s ref
      return ({ sched := left, notes := noted s left ref frame request sys.notes }, events)
  | .schedule test =>
    match sys.sched.running with
    | some _ => .error .stray
    | none => do
      let (left, events) ← sys.sched.schedule test
      return ({ sys with sched := left }, events)

def Kept (frame : Context) (promise : Promise) (ref : Nat) (events : List Event)
    (resumed : Context) : Prop :=
  match promise with
  | .value value => resumed.sepc = (frame.sepc + 4) % 2 ^ 64 ∧ resumed.a0 = value
  | .yielded => resumed.sepc = (frame.sepc + 4) % 2 ^ 64 ∧ resumed.a0 = 0
  | .exitedPid => resumed.sepc = (frame.sepc + 4) % 2 ^ 64 ∧
      ∃ pid, .waitReturn ref pid ∈ events ∧ resumed.a0 = toRegister pid
  | .retry => resumed = frame

def Saved (frame : Context) (promise : Promise) (saved : Context) : Prop :=
  match promise with
  | .value value => saved.sepc = (frame.sepc + 4) % 2 ^ 64 ∧ saved.a0 = value
  | .yielded => saved = frame.advance
  | .exitedPid => False
  | .retry => saved = frame

/-! ## How handlers end -/

section

variable {p q : Placement μ} {ref : Nat} {note : Option (Context × Promise)}

structure Untouched (p q : Placement μ) (ref : Nat) : Prop where
  runnable : ref ∈ q.runnable → ref ∈ p.runnable
  blocked : ref ∈ q.blocked → ref ∈ p.blocked
  context : (q.pcb ref).threadContext = (p.pcb ref).threadContext

structure Waits (p : Placement μ) (note : Option (Context × Promise)) (ref : Nat) : Prop where
  runnable : ref ∈ p.runnable → ∀ frame promise, note = some (frame, promise) →
    Saved frame promise (p.pcb ref).threadContext
  blocked : ref ∈ p.blocked → ∃ frame, note = some (frame, .exitedPid) ∧
    (p.pcb ref).threadContext = frame.advance

theorem Waits.of_untouched (waits : Waits p note ref) (untouched : Untouched p q ref) :
    Waits q note ref := by
  constructor
  · rw [untouched.context]
    exact fun inRunnable => waits.runnable (untouched.runnable inRunnable)
  · rw [untouched.context]
    exact fun inBlocked => waits.blocked (untouched.blocked inBlocked)

theorem running_apart (accounted : Accounted p) (running_eq : p.running = some ref) :
    ref ∉ p.runnable ∧ ref ∉ p.blocked := by
  obtain ⟨events, ledger⟩ := accounted
  have unique : p.placed.Nodup := (nodup_append.1 ledger.nodup).1
  simp only [Placement.placed, running_eq, Option.toList_some, cons_append, nil_append,
    nodup_cons, mem_append, not_or] at unique
  exact unique.1

theorem Waits.of_running (accounted : Accounted p) (running_eq : p.running = some ref) :
    Waits p note ref := by
  obtain ⟨notRunnable, notBlocked⟩ := running_apart accounted running_eq
  exact ⟨fun inRunnable => absurd inRunnable notRunnable, fun inBlocked => absurd inBlocked notBlocked⟩

end

inductive Ending (s left : Scheduler μ) (ref : Nat) (events : List Event) : Option Promise → Prop
  | returned {promise : Promise} {value : Nat} :
      left.running = some ref → left.runningContext = (s.runningContext.setA0 value).advance →
      (promise = .value value ∨
        promise = .exitedPid ∧ ∃ pid, .waitReturn ref pid ∈ events ∧ value = toRegister pid) →
      Ending s left ref events (some promise)
  | waits {promise : Option Promise} :
      left.running = none →
      Waits left.toPlacement (promise.map fun promise => (s.runningContext, promise)) ref →
      Ending s left ref events promise

structure Handled (s left : Scheduler μ) (ref : Nat) (events : List Event) (promise : Option Promise) :
    Prop where
  accounted : Accounted s.toPlacement → Accounted left.toPlacement
  nextPcb : left.nextPcb = s.nextPcb
  others : ∀ other, other ≠ ref → Untouched s.toPlacement left.toPlacement other
  ending : Ending s left ref events promise

theorem untouched_of_notified {p q : Placement μ} {ref : Nat} {exitRet : Int}
    (pcb_eq : q.pcb = (p.notifyParent ref exitRet).pcb) (runnable : q.runnable ⊆ p.runnable)
    (blocked : q.blocked ⊆ p.blocked) (other : Nat) : Untouched p q other := by
  refine ⟨fun mem => runnable mem, fun mem => blocked mem, ?_⟩
  rw [pcb_eq]
  exact p.field_notifyParent PCB.threadContext (fun _ _ => rfl) ref exitRet other

section Handlers

variable {s left : Scheduler μ} {ref : Nat} {events : List Event} {promise : Option Promise}

theorem Handled.plain (running_eq : s.running = some ref) (value : Nat) :
    Handled s (returnValue s value) ref [] (some (.value value)) where
  accounted := id
  nextPcb := rfl
  others _ _ := ⟨id, id, rfl⟩
  ending := .returned running_eq rfl (.inl rfl)

theorem Handled.park {op : Op μ} {context : Context} {promise : Promise} (reported : List Event)
    (exec_eq : op.exec s = .ok (s.park ref context, events)) (notBlocked : ref ∉ s.blocked)
    (saved : Saved s.runningContext promise context) :
    Handled s (s.park ref context) ref reported (some promise) where
  accounted accounted := accounted.exec _ exec_eq
  nextPcb := rfl
  others other different := by
    refine ⟨?_, id, congrArg PCB.threadContext (update_of_ne different ..)⟩
    simp [Scheduler.park, different]
  ending := by
    refine .waits rfl ⟨fun _ frame _ note => ?_, fun inBlocked => absurd inBlocked notBlocked⟩
    cases note
    change Saved _ _ (update s.pcb ref _ ref).threadContext
    rwa [update_self]

theorem saved_value (frame : Context) (value : Nat) :
    Saved frame (.value value) (frame.setA0 value).advance := by
  refine ⟨rfl, ?_⟩
  simp [Context.a0, Context.setA0, Context.advance]

section

variable (running_eq : s.running = some ref) (apart : ref ∉ s.runnable ∧ ref ∉ s.blocked) {count : Nat}
  {stop : LoopEnd} {completion : Completion}
include running_eq apart

theorem handled_yield (yield_eq : s.yield = .ok (left, events)) (reported : List Event) :
    Handled s left ref reported (some .yielded) := by
  have exec_eq : Op.yield.exec s = .ok (left, events) := yield_eq
  rw [Scheduler.yield, running_eq] at yield_eq
  cases yield_eq
  exact .park reported exec_eq apart.2 rfl

theorem handled_retry (yield_eq : s.__yield = .ok (left, events)) (reported : List Event) :
    Handled s left ref reported (some .retry) := by
  have exec_eq : Op.__yield.exec s = .ok (left, events) := yield_eq
  rw [Scheduler.__yield, running_eq] at yield_eq
  cases yield_eq
  exact .park reported exec_eq apart.2 rfl

theorem handled_yieldWithReturn {value : Nat} (yield_eq : s.yieldWithReturn value = .ok (left, events))
    (reported : List Event) : Handled s left ref reported (some (.value value)) := by
  have exec_eq : (Op.yieldWithReturn value).exec s = .ok (left, events) := yield_eq
  rw [Scheduler.yieldWithReturn, running_eq] at yield_eq
  cases yield_eq
  exact .park reported exec_eq apart.2 (saved_value _ value)

theorem handled_exit {exitRet : Int} (exit_eq : s.exitProcess exitRet = .ok (left, events))
    (reported : List Event) (promise : Option Promise) : Handled s left ref reported promise := by
  have exec_eq : (Op.exitProcess exitRet).exec s = .ok (left, events) := exit_eq
  rw [Scheduler.exitProcess, running_eq] at exit_eq
  cases exit_eq
  have untouched := @untouched_of_notified _ s.toPlacement
    { s.toPlacement.notifyParent ref exitRet with running := none } ref exitRet rfl (by simp) (by simp)
  refine ⟨fun accounted => accounted.exec _ exec_eq, by simp [Scheduler.notifyParent],
    fun other _ => untouched other, .waits rfl ⟨?_, ?_⟩⟩
  · exact fun inRunnable => absurd ((untouched ref).runnable inRunnable) apart.1
  · exact fun inBlocked => absurd ((untouched ref).blocked inBlocked) apart.2

theorem handled_wait {wstatus : Nat} (exec_eq : (Request.wait4 wstatus).exec s ref = .ok (left, events)) :
    Handled s left ref events (some .exitedPid) := by
  obtain ⟨⟨after, waited⟩, wait_eq, rest_eq⟩ := bind_eq_ok.1 exec_eq
  have op_eq : (Op.wait wstatus).exec s = .ok (after, waited) := wait_eq
  have kept : Accounted s.toPlacement → Accounted after.toPlacement :=
    fun accounted => accounted.exec _ op_eq
  rw [Scheduler.wait, running_eq] at wait_eq
  dsimp only at rest_eq wait_eq
  cases list_eq : (s.pcb ref).signalList with
  | cons record rest =>
    rw [list_eq] at rest_eq wait_eq
    cases wait_eq
    cases rest_eq
    refine ⟨kept, rfl, fun other different => ⟨id, id, ?_⟩, ?_⟩
    · exact congrArg PCB.threadContext (update_of_ne different ..)
    · exact .returned running_eq rfl (.inr ⟨rfl, record.1, mem_singleton_self _, rfl⟩)
  | nil =>
    rw [list_eq] at rest_eq wait_eq
    cases wait_eq
    cases rest_eq
    refine ⟨kept, rfl, fun other different => ⟨id, fun mem => ?_, ?_⟩, ?_⟩
    · exact (mem_append.1 mem).resolve_right (by simpa using different)
    · exact congrArg PCB.threadContext (update_of_ne different ..)
    · refine .waits rfl ⟨fun inRunnable => absurd inRunnable apart.1, fun _ => ⟨s.runningContext, rfl, ?_⟩⟩
      change (update s.pcb ref _ ref).threadContext = _
      rw [update_self]

omit apart in
theorem handled_kill {pid : Int} (exec_eq : (Request.kill pid).exec s ref = .ok (left, events)) :
    Handled s left ref events
      (some (.value (toRegister (if (s.searchByPid pid).isSome then 0 else -1)))) := by
  obtain ⟨⟨after, killed⟩, kill_eq, rest_eq⟩ := bind_eq_ok.1 exec_eq
  have kept : Accounted s.toPlacement → Accounted after.toPlacement := fun accounted =>
    accounted.exec (.sysKill pid) kill_eq
  cases rest_eq
  obtain ⟨running', nextPcb', context', untouched⟩ :
      after.running = s.running ∧ after.nextPcb = s.nextPcb ∧ after.runningContext = s.runningContext ∧
        ∀ other, Untouched s.toPlacement after.toPlacement other := by
    unfold Scheduler.sysKill at kill_eq
    split at kill_eq <;> cases kill_eq
    · exact ⟨rfl, rfl, rfl, fun _ => ⟨id, id, rfl⟩⟩
    all_goals
      exact ⟨by simp [Scheduler.notifyParent], by simp [Scheduler.notifyParent], rfl, untouched_of_notified rfl
        (by simp [Scheduler.notifyParent, erase_subset]) (by simp [Scheduler.notifyParent, erase_subset])⟩
  exact ⟨kept, nextPcb', fun other _ => untouched other,
    .returned (running'.trans running_eq) (by rw [← context']; rfl) (.inl rfl)⟩

omit running_eq apart in
theorem Handled.of_counter {block : PCB μ} (handled : Handled (s.setPcb ref block) left ref events promise)
    (context_eq : block.threadContext = (s.pcb ref).threadContext) (pid_eq : block.pid = (s.pcb ref).pid) :
    Handled s left ref events promise := by
  have context := s.toPlacement.field_setPcb PCB.threadContext context_eq
  refine ⟨fun accounted => handled.accounted (accounted.setPcb pid_eq), handled.nextPcb, ?_, ?_⟩
  · intro other different
    have untouched := handled.others other different
    exact ⟨untouched.runnable, untouched.blocked, untouched.context.trans (context other)⟩
  · cases handled.ending with
    | returned running' context' kept => exact .returned running' context' kept
    | waits running' waits => exact .waits running' waits

theorem handled_endRead (end_eq : endRead s ref count stop = .ok (left, completion)) :
    Handled s left ref [] (pipePromise count stop) := by
  have counted : ∀ retries, (setReadCount s ref retries).running = some ref := fun _ => running_eq
  cases stop with
  | finished =>
    cases end_eq
    exact (Handled.plain (counted 0) count).of_counter rfl rfl
  | blocked i =>
    simp only [endRead] at end_eq
    simp only [pipePromise]
    split_ifs at end_eq ⊢ with first tired
    · obtain ⟨-, events, exit_eq⟩ := leave_eq_ok end_eq
      exact handled_exit running_eq apart exit_eq [] _
    · obtain ⟨-, events, yield_eq⟩ := leave_eq_ok end_eq
      exact (handled_retry (counted _) apart yield_eq []).of_counter rfl rfl
    · obtain ⟨-, events, yield_eq⟩ := leave_eq_ok end_eq
      exact (handled_yieldWithReturn (counted _) apart yield_eq []).of_counter rfl rfl
  | fault i =>
    obtain ⟨-, events, exit_eq⟩ := leave_eq_ok end_eq
    exact handled_exit running_eq apart exit_eq [] _

theorem handled_endWrite (end_eq : endWrite s ref count stop = .ok (left, completion)) :
    Handled s left ref [] (pipePromise count stop) := by
  have counted : ∀ retries, (setWriteCount s ref retries).running = some ref := fun _ => running_eq
  cases stop with
  | finished =>
    cases end_eq
    exact (Handled.plain (counted 0) count).of_counter rfl rfl
  | blocked i =>
    simp only [endWrite] at end_eq
    simp only [pipePromise]
    by_cases tired : 110 < (s.pcb ref).pipeWriteCount
    · rw [if_pos tired] at end_eq
      obtain ⟨-, events, exit_eq⟩ := leave_eq_ok end_eq
      exact handled_exit running_eq apart exit_eq [] _
    · rw [if_neg tired] at end_eq
      split_ifs at end_eq ⊢ with first
      · obtain ⟨-, events, yield_eq⟩ := leave_eq_ok end_eq
        exact (handled_retry (counted _) apart yield_eq []).of_counter rfl rfl
      · obtain ⟨-, events, yield_eq⟩ := leave_eq_ok end_eq
        exact (handled_yieldWithReturn (counted _) apart yield_eq []).of_counter rfl rfl
  | fault i =>
    obtain ⟨-, events, exit_eq⟩ := leave_eq_ok end_eq
    exact handled_exit running_eq apart exit_eq [] _

theorem Request.handled {request : Request μ} (notClone : ∀ kind, request ≠ .clone kind)
    (exec_eq : request.exec s ref = .ok (left, events)) :
    Handled s left ref events (request.promise s left) := by
  cases request with
  | plain ret =>
    cases exec_eq
    exact .plain running_eq _
  | schedYield => exact handled_yield running_eq apart exec_eq events
  | wait4 wstatus => exact handled_wait running_eq apart exec_eq
  | clone kind => exact absurd rfl (notClone kind)
  | kill pid => exact handled_kill running_eq exec_eq
  | exit exitRet => exact handled_exit running_eq apart exec_eq events _
  | pipeRead count stop =>
    obtain ⟨⟨after, completion⟩, end_eq, rest_eq⟩ := bind_eq_ok.1 exec_eq
    cases rest_eq
    exact handled_endRead running_eq apart end_eq
  | pipeWrite count stop =>
    obtain ⟨⟨after, completion⟩, end_eq, rest_eq⟩ := bind_eq_ok.1 exec_eq
    cases rest_eq
    exact handled_endWrite running_eq apart end_eq
  | testPipe ready =>
    cases ready with
    | true =>
      cases exec_eq
      exact .plain running_eq 1
    | false => exact handled_yieldWithReturn running_eq apart exec_eq events

end

end Handlers

/-! ## Between the call and the next user instruction -/

structure Parked (sys : Sys μ) : Prop where
  accounted : Accounted sys.sched.toPlacement
  waits : ∀ ref, Waits sys.sched.toPlacement (sys.notes ref) ref
  fresh : ∀ ref, sys.sched.nextPcb ≤ ref → sys.notes ref = none

namespace Parked

variable {sys sys' : Sys μ} {ref : Nat} {s left : Scheduler μ} {events : List Event} {frame : Context}

variable (parked : Parked sys)
include parked

theorem lt_nextPcb (placed : ref ∈ sys.sched.placed) : ref < sys.sched.nextPcb := by
  obtain ⟨events, ledger⟩ := parked.accounted
  exact ledger.lt_nextPcb placed

theorem running_lt (running_eq : sys.sched.running = some ref) : ref < sys.sched.nextPcb :=
  parked.lt_nextPcb (by simp [Placement.placed, running_eq])

section Pushed

variable (runnable_eq : left.runnable = sys.sched.runnable ++ [sys.sched.nextPcb])
  (blocked_eq : left.blocked = sys.sched.blocked)
include blocked_eq

theorem new_waits {note : Option (Context × Promise)}
    (saved : ∀ frame promise, note = some (frame, promise) →
      Saved frame promise (left.pcb sys.sched.nextPcb).threadContext) :
    Waits left.toPlacement note sys.sched.nextPcb := by
  refine ⟨fun _ => saved, fun inBlocked => ?_⟩
  rw [blocked_eq] at inBlocked
  exact absurd (parked.lt_nextPcb (by simp [Placement.placed, inBlocked])) (Nat.lt_irrefl _)

include runnable_eq

theorem old_waits {other : Nat} (old : other ≠ sys.sched.nextPcb)
    (context_eq : (left.pcb other).threadContext = (sys.sched.pcb other).threadContext) :
    Waits left.toPlacement (sys.notes other) other :=
  (parked.waits other).of_untouched ⟨by simp [runnable_eq, old], by simp [blocked_eq], context_eq⟩

end Pushed

theorem created {start : Scheduler μ} {program : Program μ}
    (same : start.toPlacement = sys.sched.toPlacement)
    (create_eq : start.createProcess program = .ok (left, events)) :
    Parked { sys with sched := left } := by
  have accounted : Accounted left.toPlacement := by
    have before : Accounted start.toPlacement := same ▸ parked.accounted
    exact before.exec (.createProcess program) create_eq
  obtain ⟨_, runnable_eq, blocked_eq, nextPcb_eq, blocks⟩ := Scheduler.createProcess_pushed create_eq
  rw [same] at runnable_eq blocked_eq nextPcb_eq blocks
  refine ⟨accounted, fun other => ?_, fun other bound => parked.fresh other ?_⟩
  · by_cases isNew : other = sys.sched.nextPcb
    · rw [isNew]
      refine parked.new_waits blocked_eq fun frame promise note => ?_
      cases (parked.fresh _ (Nat.le_refl _)).symm.trans note
    · exact parked.old_waits runnable_eq blocked_eq isNew (congrArg PCB.threadContext (blocks other isNew))
  · dsimp only at bound
    omega

theorem handled {promise : Option Promise}
    (handled : Handled { sys.sched with runningContext := frame } left ref events promise)
    (running_eq : sys.sched.running = some ref) :
    Parked { sched := left,
             notes := update sys.notes ref (promise.map fun promise => (frame, promise)) } := by
  have accounted : Accounted left.toPlacement := handled.accounted parked.accounted
  refine ⟨accounted, fun other => ?_, fun other bound => ?_⟩
  · by_cases same : other = ref
    · subst same
      dsimp only
      rw [update_self]
      cases handled.ending with
      | returned running' => exact .of_running accounted running'
      | waits _ waits => exact waits
    · dsimp only
      rw [update_of_ne same]
      exact (parked.waits other).of_untouched (handled.others other same)
  · have ref_lt := parked.running_lt running_eq
    dsimp only at bound ⊢
    rw [handled.nextPcb] at bound
    dsimp only at bound
    rw [update_of_ne (by omega)]
    exact parked.fresh other bound

omit parked in
theorem saved_child (parent : PCB μ) (frame : Context) (pid : Int) (kind : CloneKind μ) :
    Saved frame (.value 0) (Scheduler.childBlock parent frame pid kind).threadContext := by
  cases kind with
  | thread stack =>
    exact ⟨rfl, by simp [Scheduler.childBlock, Context.a0, Context.setA0, Context.setSp, Context.advance]⟩
  | fork stack pageTable managers =>
    exact ⟨rfl, by simp [Scheduler.childBlock, Context.a0, Context.setA0, Context.setSp, Context.advance]⟩

theorem cloned {kind : CloneKind μ} (same : s = { sys.sched with runningContext := frame })
    (running_eq : sys.sched.running = some ref)
    (exec_eq : (Request.clone kind).exec s ref = .ok (left, events)) :
    Parked { sched := left, notes := noted s left ref frame (.clone kind) sys.notes } ∧
      left.running = some ref ∧ ref ≠ s.nextPcb ∧
      left.runningContext.sepc = (frame.sepc + 4) % 2 ^ 64 ∧
      left.runningContext.a0 = toRegister (left.pcb s.nextPcb).pid := by
  subst same
  obtain ⟨⟨after, reported⟩, clone_eq, rest_eq⟩ := bind_eq_ok.1 exec_eq
  have accounted : Accounted after.toPlacement :=
    Accounted.exec (s := { sys.sched with runningContext := frame }) parked.accounted (.clone kind) clone_eq
  have ref_lt := parked.running_lt running_eq
  obtain ⟨running', runnable', blocked', nextPcb', context', pcb'⟩ :=
    Scheduler.clone_pushed (s := { sys.sched with runningContext := frame }) running_eq clone_eq
  dsimp only at runnable' blocked' nextPcb' context' pcb'
  cases rest_eq
  have child_at : after.pcb sys.sched.nextPcb =
      Scheduler.childBlock (sys.sched.pcb ref) frame (sys.sched.globalPid + 1) kind := by
    rw [pcb', update_self]
  have apart : ref ≠ sys.sched.nextPcb := by omega
  refine ⟨⟨accounted, fun other => ?_, fun other bound => ?_⟩, running', apart, ?_, ?_⟩
  · dsimp only [noted]
    by_cases isChild : other = sys.sched.nextPcb
    · rw [isChild, update_self]
      refine parked.new_waits blocked' fun noteFrame notePromise note => ?_
      cases note
      rw [child_at]
      exact saved_child _ frame _ kind
    · rw [update_of_ne isChild]
      by_cases isCaller : other = ref
      · exact .of_running accounted (isCaller ▸ running')
      · rw [update_of_ne isCaller]
        refine parked.old_waits runnable' blocked' isChild ?_
        rw [pcb', update_of_ne isChild, update_of_ne isCaller]
  · change after.nextPcb ≤ other at bound
    dsimp only [noted]
    rw [update_of_ne (by omega), update_of_ne (by omega)]
    exact parked.fresh other (by omega)
  · change ((after.runningContext.setA0 _).advance).sepc = _
    rw [context']
    rfl
  · change ((after.runningContext.setA0 after.runningContext.a0).advance).a0 =
      toRegister (after.pcb sys.sched.nextPcb).pid
    rw [child_at, Scheduler.pid_childBlock, context']
    simp [Context.a0, Context.setA0, Context.advance]

theorem dispatched (idle : sys.sched.running = none)
    (dispatched : sys.sched.dispatch = some (left, events)) : Parked { sys with sched := left } := by
  have accounted : Accounted left.toPlacement := by
    obtain ⟨before, ledger⟩ := parked.accounted
    exact ⟨_, ledger.move (Scheduler.dispatch_move idle dispatched)⟩
  rcases Scheduler.dispatch_cases dispatched with
    ⟨ref, rest, runnable_eq, rfl, rfl⟩ | ⟨ref, record, rest, blockedMem, list_eq, woken⟩
  · refine ⟨accounted, fun other => (parked.waits other).of_untouched ⟨?_, id, rfl⟩, parked.fresh⟩
    rw [runnable_eq]
    exact mem_cons_of_mem _
  · cases woken
    refine ⟨accounted, fun other => ?_, parked.fresh⟩
    by_cases same : other = ref
    · exact .of_running accounted (congrArg some same.symm)
    · exact (parked.waits other).of_untouched
        ⟨id, mem_of_mem_erase, congrArg PCB.threadContext (update_of_ne same ..)⟩

theorem kept_of_dispatch (dispatched : sys.sched.dispatch = some (left, events))
    (running_eq : left.running = some ref) {promise : Promise}
    (note : sys.notes ref = some (frame, promise)) (earlier : List Event) :
    Kept frame promise ref (earlier ++ events) left.runningContext ↔
      (promise = .yielded → frame.a0 = 0) := by
  rcases Scheduler.dispatch_cases dispatched with
    ⟨picked, rest, runnable_eq, rfl, rfl⟩ | ⟨woken, record, rest, blockedMem, list_eq, wake_eq⟩
  · cases running_eq
    have saved := (parked.waits ref).runnable (by simp [runnable_eq]) frame promise note
    change Kept _ _ _ _ (sys.sched.pcb ref).threadContext ↔ _
    cases promise with
    | value value => exact iff_of_true saved fun isYield => by cases isYield
    | yielded =>
      change (sys.sched.pcb ref).threadContext = frame.advance at saved
      rw [saved]
      exact ⟨fun kept _ => kept.2, fun zero => ⟨rfl, zero rfl⟩⟩
    | exitedPid => exact saved.elim
    | retry => exact iff_of_true saved fun isYield => by cases isYield
  · cases wake_eq
    cases running_eq
    obtain ⟨noteFrame, noted, saved⟩ := (parked.waits ref).blocked blockedMem
    obtain ⟨rfl, rfl⟩ : noteFrame = frame ∧ Promise.exitedPid = promise := by
      simpa using noted.symm.trans note
    refine iff_of_true ?_ fun isYield => by cases isYield
    change Kept _ _ _ _ (update sys.sched.pcb ref _ ref).threadContext
    rw [update_self]
    refine ⟨?_, record.1, by simp, ?_⟩
    · change ((sys.sched.pcb ref).threadContext.setA0 _).sepc = _
      rw [saved]
      rfl
    · simp [Context.a0, Context.setA0]

theorem ecall {request : Request μ} (running_eq : sys.sched.running = some ref)
    (exec_eq : request.exec { sys.sched with runningContext := frame } ref = .ok (left, events)) :
    let notes := noted { sys.sched with runningContext := frame } left ref frame request sys.notes
    Parked { sched := left, notes := notes } ∧
      ((∀ program, Action.ecall frame request ≠ .createProcess program) →
        ∀ current noteFrame promise, left.running = some current →
          notes current = some (noteFrame, promise) →
          (Kept noteFrame promise current events left.runningContext ↔
            (promise = .yielded → noteFrame.a0 = 0))) := by
  by_cases isClone : ∃ kind, request = .clone kind
  · obtain ⟨kind, rfl⟩ := isClone
    obtain ⟨after, running', apart, sepc, a0⟩ := parked.cloned rfl running_eq exec_eq
    refine ⟨after, fun _ current noteFrame promise current_eq note => ?_⟩
    obtain rfl : ref = current := Option.some.inj (running'.symm.trans current_eq)
    simp only [noted, Request.promise, Option.map_some, update_of_ne apart, update_self] at note
    cases note
    exact iff_of_true ⟨sepc, a0⟩ fun isYield => by cases isYield
  · have handled := @Request.handled _ { sys.sched with runningContext := frame } _ _ _ running_eq
      (running_apart parked.accounted running_eq) _ (fun kind isKind => isClone ⟨kind, isKind⟩) exec_eq
    have notes_eq : noted { sys.sched with runningContext := frame } left ref frame request sys.notes =
        update sys.notes ref
          ((request.promise { sys.sched with runningContext := frame } left).map fun promise =>
            (frame, promise)) := by
      cases request with
      | clone kind => exact absurd ⟨kind, rfl⟩ isClone
      | _ => rfl
    dsimp only
    rw [notes_eq]
    refine ⟨parked.handled handled running_eq, ?_⟩
    intro _ current noteFrame promise current_eq note
    generalize request.promise { sys.sched with runningContext := frame } left = promised at handled note
    cases handled.ending with
    | @returned given value running' context' kept =>
      obtain rfl : ref = current := Option.some.inj (running'.symm.trans current_eq)
      rw [update_self] at note
      cases note
      rw [context']
      rcases kept with rfl | ⟨rfl, pid, reported, value_eq⟩
      · exact iff_of_true (saved_value frame value) fun isYield => by cases isYield
      · refine iff_of_true ⟨rfl, pid, reported, ?_⟩ fun isYield => by cases isYield
        rw [← value_eq]
        exact (saved_value frame value).2
    | waits running' => cases running'.symm.trans current_eq

end Parked

/-- An action of the kernel in which no process kills itself: `sys_kill` would
free the block's registers while the process goes on using them. -/
def Step (sys : Sys μ) (label : Action μ × List Event) (sys' : Sys μ) : Prop :=
  label.1.exec sys = .ok (sys', label.2) ∧
    ∀ frame pid, label.1 = .ecall frame (.kill pid) →
      ∀ ref, sys.sched.running = some ref → (sys.sched.pcb ref).pid ≠ pid

def boot (pcb : Nat → PCB μ) (testTotal : Nat) : Sys μ where
  sched := Scheduler.init pcb testTotal
  notes _ := none

theorem Parked.boot (pcb : Nat → PCB μ) (testTotal : Nat) : Parked (boot pcb testTotal) where
  accounted := ⟨[], Ledger.init pcb testTotal⟩
  waits _ := ⟨nofun, nofun⟩
  fresh _ _ := rfl

theorem Parked.step {sys sys' : Sys μ} {label : Action μ × List Event} (parked : Parked sys)
    (stepped : Step sys label sys') :
    Parked sys' ∧
      ((∀ program, label.1 ≠ .createProcess program) → ∀ ref frame promise,
        sys'.sched.running = some ref → sys'.notes ref = some (frame, promise) →
        (Kept frame promise ref label.2 sys'.sched.runningContext ↔
          (promise = .yielded → frame.a0 = 0))) := by
  obtain ⟨action, events⟩ := label
  obtain ⟨exec_eq, _⟩ := stepped
  cases action with
  | createProcess program =>
    obtain ⟨⟨left, made⟩, create_eq, rest_eq⟩ := bind_eq_ok.1 exec_eq
    cases rest_eq
    exact ⟨parked.created rfl create_eq, fun notCreate => absurd rfl (notCreate program)⟩
  | ecall frame request =>
    simp only [Action.exec] at exec_eq
    split at exec_eq
    · cases exec_eq
    next ref running_eq =>
      obtain ⟨⟨left, reported⟩, request_eq, rest_eq⟩ := bind_eq_ok.1 exec_eq
      cases rest_eq
      exact parked.ecall running_eq request_eq
  | schedule test =>
    simp only [Action.exec] at exec_eq
    split at exec_eq
    · cases exec_eq
    next idle =>
      obtain ⟨⟨left, reported⟩, schedule_eq, rest_eq⟩ := bind_eq_ok.1 exec_eq
      cases rest_eq
      rcases Scheduler.schedule_cases idle schedule_eq with
        dispatched | ⟨start, s₁, created, more, same, _, create_eq, dispatched, rfl⟩
      · refine ⟨parked.dispatched idle dispatched, fun _ ref frame promise running_eq note => ?_⟩
        simpa using parked.kept_of_dispatch dispatched running_eq note []
      · -- The next test is created before a process is resumed.
        have idle₁ : s₁.running = none := by
          rw [(Scheduler.createProcess_pushed create_eq).1, same, idle]
        have made : Parked { sys with sched := { s₁ with memoryDirty := true } } := by
          have made := parked.created same create_eq
          exact ⟨made.accounted, made.waits, made.fresh⟩
        refine ⟨made.dispatched idle₁ dispatched, fun _ ref frame promise running_eq note => ?_⟩
        exact made.kept_of_dispatch dispatched running_eq note created

theorem Parked.of_run {pcb : Nat → PCB μ} {testTotal : Nat} {labels : List (Action μ × List Event)}
    {sys : Sys μ} (run : Run Step (Syscall.boot pcb testTotal) labels sys) : Parked sys :=
  run.invariant (fun parked stepped => (parked.step stepped).1) (Parked.boot pcb testTotal)

/-- In every run in which no process kills itself, a process whose call is over
goes on behind its `ecall` with the documented result, or issues it again with
its registers unchanged; but `sched_yield` leaves the caller's `a0`. -/
theorem kept_iff_of_run {pcb : Nat → PCB μ} {testTotal : Nat} {labels : List (Action μ × List Event)}
    {sys sys' : Sys μ} {label : Action μ × List Event}
    (run : Run Step (boot pcb testTotal) labels sys) (stepped : Step sys label sys')
    (notCreate : ∀ program, label.1 ≠ .createProcess program) {ref : Nat} {frame : Context}
    {promise : Promise} (running_eq : sys'.sched.running = some ref)
    (note : sys'.notes ref = some (frame, promise)) :
    Kept frame promise ref label.2 sys'.sched.runningContext ↔
      (promise = .yielded → frame.a0 = 0) :=
  ((Parked.of_run run).step stepped).2 notCreate ref frame promise running_eq note

theorem yield_resumed :
    ∃ (labels : List (Action Unit × List Event)) (sys sys' : Sys Unit) (label : Action Unit × List Event)
        (frame : Context),
      Run Step (boot noBlocks 1) labels sys ∧
      Step sys label sys' ∧ (∀ program, label.1 ≠ .createProcess program) ∧
      sys'.sched.running = some 0 ∧ sys'.notes 0 = some (frame, .yielded) ∧
      sys'.sched.runningContext.a0 = 5 ∧ frame.a0 = 5 := by
  let program : Program Unit := ⟨0x80100000, (), {}⟩
  let frame : Context := { x := fun r => if r = 10 then 5 else 0, sepc := 0x1000 }
  obtain ⟨sys₁, sys₂, sys₃, sys₄, events₁, events₂, events₃, events₄, eq₁, eq₂, eq₃, eq₄, running_eq, note,
      a0_eq⟩ : ∃ sys₁ sys₂ sys₃ sys₄ events₁ events₂ events₃ events₄,
        (Action.createProcess program).exec (boot noBlocks 1) = .ok (sys₁, events₁) ∧
        (Action.schedule program).exec sys₁ = .ok (sys₂, events₂) ∧
        (Action.ecall frame .schedYield).exec sys₂ = .ok (sys₃, events₃) ∧
        (Action.schedule program).exec sys₃ = .ok (sys₄, events₄) ∧
        sys₄.sched.running = some 0 ∧ sys₄.notes 0 = some (frame, .yielded) ∧
        sys₄.sched.runningContext.a0 = 5 :=
    ⟨_, _, _, _, _, _, _, _, rfl, rfl, rfl, rfl, rfl, rfl, rfl⟩
  exact ⟨[(.createProcess program, events₁), (.schedule program, events₂), (.ecall frame .schedYield, events₃)],
    sys₃, sys₄, (.schedule program, events₄), frame,
    .snoc (.snoc (.snoc .nil ⟨eq₁, nofun⟩) ⟨eq₂, nofun⟩) ⟨eq₃, by simp⟩, ⟨eq₄, nofun⟩, nofun, running_eq,
    note, a0_eq, rfl⟩

theorem kept_iff_of_yield :
    ∃ (sys' : Sys Unit) (label : Action Unit × List Event) (frame : Context),
      sys'.notes 0 = some (frame, .yielded) ∧
      (Kept frame .yielded 0 label.2 sys'.sched.runningContext ↔
        (Promise.yielded = .yielded → frame.a0 = 0)) := by
  obtain ⟨labels, sys, sys', label, frame, run, stepped, notCreate, running_eq, note, _⟩ := yield_resumed
  exact ⟨sys', label, frame, note, kept_iff_of_run run stepped notCreate running_eq note⟩

theorem not_kept_of_yield :
    ∃ (labels : List (Action Unit × List Event)) (sys sys' : Sys Unit) (label : Action Unit × List Event)
        (frame : Context),
      Run Step (boot noBlocks 1) labels sys ∧
      Step sys label sys' ∧ sys'.sched.running = some 0 ∧ sys'.notes 0 = some (frame, .yielded) ∧
      ¬ Kept frame .yielded 0 label.2 sys'.sched.runningContext := by
  obtain ⟨labels, sys, sys', label, frame, run, stepped, _, running_eq, note, a0_eq, _⟩ := yield_resumed
  refine ⟨labels, sys, sys', label, frame, run, stepped, running_eq, note, fun kept => ?_⟩
  have zero : sys'.sched.runningContext.a0 = 0 := kept.2
  omega

end SysCore.Syscall
