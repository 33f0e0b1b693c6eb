import SysCore.Sched.State
import Mathlib.Data.List.Basic

/-!
# Moves of process control blocks

An operation of the scheduler touches registers, counters and pointers, but
only in a few ways does it change who is where.  `Move` and `Removal` list
them, with the events each reports.  `exec_moves` says that every operation is
a sequence of moves, or is `sys_kill`; the invariants of the scheduler are then
statements about single moves.
-/

namespace SysCore.Sched

open Transition Function

variable {μ : Type}

namespace Placement

variable (p : Placement μ) (ref : Nat) (block : PCB μ) (exitRet : Int) {pid : Int} {place : Place}
  {found : Nat}

def placed : List Nat :=
  p.running.toList ++ p.runnable ++ p.blocked

@[simp]
theorem setPcb_pcb : (p.setPcb ref block).pcb = update p.pcb ref block := rfl

@[simp]
theorem setPcb_running : (p.setPcb ref block).running = p.running := rfl

@[simp]
theorem setPcb_runnable : (p.setPcb ref block).runnable = p.runnable := rfl

@[simp]
theorem setPcb_blocked : (p.setPcb ref block).blocked = p.blocked := rfl

@[simp]
theorem setPcb_nextPcb : (p.setPcb ref block).nextPcb = p.nextPcb := rfl

@[simp]
theorem setPcb_globalPid : (p.setPcb ref block).globalPid = p.globalPid := rfl

@[simp]
theorem pushNew_pcb : (p.pushNew block).pcb = update p.pcb p.nextPcb block := rfl

@[simp]
theorem pushNew_running : (p.pushNew block).running = p.running := rfl

@[simp]
theorem pushNew_runnable : (p.pushNew block).runnable = p.runnable ++ [p.nextPcb] := rfl

@[simp]
theorem pushNew_blocked : (p.pushNew block).blocked = p.blocked := rfl

@[simp]
theorem pushNew_nextPcb : (p.pushNew block).nextPcb = p.nextPcb + 1 := rfl

theorem notifyParent_eq :
    p.notifyParent ref exitRet = p ∨
      ∃ place parent, p.searchByPid (p.pcb ref).ppid = some (place, parent) ∧
        p.notifyParent ref exitRet = p.setPcb parent { p.pcb parent with
          signalList := (p.pcb parent).signalList ++ [((p.pcb ref).pid, exitRet)] } := by
  cases found : p.searchByPid (p.pcb ref).ppid with
  | none => exact .inl (by simp [notifyParent, found])
  | some result => exact .inr ⟨result.1, result.2, rfl, by simp [notifyParent, found]⟩

@[simp]
theorem notifyParent_running : (p.notifyParent ref exitRet).running = p.running := by
  obtain kept | ⟨_, _, _, told⟩ := p.notifyParent_eq ref exitRet <;> simp [*]

@[simp]
theorem notifyParent_runnable : (p.notifyParent ref exitRet).runnable = p.runnable := by
  obtain kept | ⟨_, _, _, told⟩ := p.notifyParent_eq ref exitRet <;> simp [*]

@[simp]
theorem notifyParent_blocked : (p.notifyParent ref exitRet).blocked = p.blocked := by
  obtain kept | ⟨_, _, _, told⟩ := p.notifyParent_eq ref exitRet <;> simp [*]

@[simp]
theorem notifyParent_nextPcb : (p.notifyParent ref exitRet).nextPcb = p.nextPcb := by
  obtain kept | ⟨_, _, _, told⟩ := p.notifyParent_eq ref exitRet <;> simp [*]

@[simp]
theorem notifyParent_globalPid : (p.notifyParent ref exitRet).globalPid = p.globalPid := by
  obtain kept | ⟨_, _, _, told⟩ := p.notifyParent_eq ref exitRet <;> simp [*]

theorem mem_of_searchByPid (search_eq : p.searchByPid pid = some (place, found)) :
    (p.pcb found).pid = pid ∧
      match place with
      | .running => p.running = some found
      | .runnable => found ∈ p.runnable
      | .blocked => found ∈ p.blocked := by
  unfold searchByPid at search_eq
  split at search_eq
  next current filter_eq =>
    cases search_eq
    simpa [and_comm] using Option.filter_eq_some_iff.1 filter_eq
  next =>
    split at search_eq
    next current find_eq =>
      cases search_eq
      exact ⟨by simpa using List.find?_some find_eq, List.mem_of_find?_eq_some find_eq⟩
    next =>
      obtain ⟨current, find_eq, pair_eq⟩ := Option.map_eq_some_iff.1 search_eq
      cases pair_eq
      exact ⟨by simpa using List.find?_some find_eq, List.mem_of_find?_eq_some find_eq⟩

theorem mem_placed_of_searchByPid (search_eq : p.searchByPid pid = some (place, found)) :
    found ∈ p.placed := by
  have inPlace := (p.mem_of_searchByPid search_eq).2
  cases place <;> simp_all [placed]

theorem searchByPid_eq_none_iff :
    p.searchByPid pid = none ↔ ∀ other ∈ p.placed, (p.pcb other).pid ≠ pid := by
  have nowhere : p.searchByPid pid = none ↔
      (p.running.filter fun other => (p.pcb other).pid = pid) = none ∧
      (p.runnable.find? fun other => (p.pcb other).pid = pid) = none ∧
      (p.blocked.find? fun other => (p.pcb other).pid = pid) = none := by
    unfold searchByPid
    split
    next current filter_eq => simp [filter_eq]
    next filter_eq =>
      split
      next current find_eq => simp [find_eq]
      next find_eq => simp [filter_eq, find_eq]
  rw [nowhere]
  simp [placed, or_imp, forall_and, Option.filter_eq_none_iff, List.find?_eq_none]

end Placement

inductive Move (p : Placement μ) : List Event → Placement μ → Prop
  | create {block : PCB μ} :
      block.pid = p.globalPid + 1 → block.ppid = 1 → block.signalList = [] →
      Move p [.create p.nextPcb] { p.pushNew block with globalPid := p.globalPid + 1 }
  | clone {ref : Nat} {context : Context} {block : PCB μ} :
      p.running = some ref → block.pid = p.globalPid + 1 →
      block.ppid = (p.pcb ref).pid → block.signalList = [] →
      Move p [.clone ref p.nextPcb]
        { (p.setPcb ref { p.pcb ref with threadContext := context }).pushNew block with
          globalPid := p.globalPid + 1 }
  | park {ref : Nat} {context : Context} :
      p.running = some ref →
      Move p [] { p.setPcb ref { p.pcb ref with threadContext := context } with
        runnable := p.runnable ++ [ref]
        running := none }
  | collect {ref : Nat} {record : Int × Int} {rest : List (Int × Int)} :
      p.running = some ref → (p.pcb ref).signalList = record :: rest →
      Move p [.waitReturn ref record.1] (p.setPcb ref { p.pcb ref with signalList := rest })
  | block {ref wstatus : Nat} {context : Context} :
      p.running = some ref → (p.pcb ref).signalList = [] →
      Move p [] { p.setPcb ref { p.pcb ref with
          threadContext := context, waitPid := 0, wstatus := wstatus } with
        blocked := p.blocked ++ [ref]
        running := none }
  | exit {ref : Nat} (exitRet : Int) :
      p.running = some ref →
      Move p [.exit ref (p.pcb ref).pid exitRet]
        { p.notifyParent ref exitRet with running := none }
  | pick {ref : Nat} {rest : List Nat} :
      p.running = none → p.runnable = ref :: rest →
      Move p [] { p with runnable := rest, running := some ref }
  | wake {ref : Nat} {record : Int × Int} {rest : List (Int × Int)} {context : Context}
      {store : List Event} :
      p.running = none → ref ∈ p.blocked → (p.pcb ref).signalList = record :: rest →
      (∀ event ∈ store, ∃ address status, event = .storeStatus address status) →
      Move p (.waitReturn ref record.1 :: store)
        { p.setPcb ref { p.pcb ref with threadContext := context, signalList := rest } with
          blocked := p.blocked.erase ref
          running := some ref }

inductive Removal (p : Placement μ) : List Event → Placement μ → Prop
  | running {ref : Nat} :
      p.running = some ref → Removal p [] (p.notifyParent ref 1)
  | runnable {ref : Nat} :
      ref ∈ p.runnable →
      Removal p [.removed ref]
        { p.notifyParent ref 1 with runnable := p.runnable.erase ref }
  | blocked {ref : Nat} :
      ref ∈ p.blocked →
      Removal p [.removed ref]
        { p.notifyParent ref 1 with blocked := p.blocked.erase ref }

inductive Moves (p : Placement μ) : List Event → Placement μ → Prop
  | none : Moves p [] p
  | one {events : List Event} {q : Placement μ} : Move p events q → Moves p events q
  | start {events more : List Event} {q r : Placement μ} :
      p.blocked = [] → Move p events q → Move q more r → Moves p (events ++ more) r

theorem Moves.preserve (inv : List Event → Placement μ → Prop)
    (preserved : ∀ {trace events p q}, inv trace p → Move p events q → inv (trace ++ events) q)
    {trace events : List Event} {p q : Placement μ}
    (moves : Moves p events q) (before : inv trace p) : inv (trace ++ events) q := by
  cases moves with
  | none => simpa using before
  | one move => exact preserved before move
  | start _ first second => simpa using preserved (preserved before first) second

namespace Scheduler

variable {s s' : Scheduler μ} {events : List Event} {program test : Program μ}

theorem getNewPid_eq_ok {pid : Int} (new_eq : s.getNewPid = .ok (pid, s')) :
    pid = s.globalPid + 1 ∧ s' = { s with globalPid := s.globalPid + 1 } := by
  unfold getNewPid at new_eq
  split at new_eq
  · cases new_eq
    exact ⟨rfl, rfl⟩
  · cases new_eq

section

variable (create_eq : s.createProcess program = .ok (s', events))
include create_eq

theorem createProcess_move : Move s.toPlacement events s'.toPlacement ∧ s'.running = s.running := by
  obtain ⟨⟨pid, s₁⟩, new_eq, rest_eq⟩ := bind_eq_ok.1 create_eq
  obtain ⟨rfl, rfl⟩ := getNewPid_eq_ok new_eq
  cases rest_eq
  exact ⟨.create rfl rfl rfl, rfl⟩

theorem createProcess_pushed :
    s'.running = s.running ∧ s'.runnable = s.runnable ++ [s.nextPcb] ∧ s'.blocked = s.blocked ∧
      s'.nextPcb = s.nextPcb + 1 ∧ ∀ other, other ≠ s.nextPcb → s'.pcb other = s.pcb other := by
  obtain ⟨⟨pid, s₁⟩, new_eq, rest_eq⟩ := bind_eq_ok.1 create_eq
  obtain ⟨rfl, rfl⟩ := getNewPid_eq_ok new_eq
  cases rest_eq
  exact ⟨rfl, rfl, rfl, rfl, fun other different => Function.update_of_ne different ..⟩

theorem createProcess_block :
    (s'.pcb s.nextPcb).managers = program.managers ∧ (s'.pcb s.nextPcb).stack = program.stack ∧
      s'.runningContext = s.runningContext := by
  obtain ⟨⟨pid, s₁⟩, new_eq, rest_eq⟩ := bind_eq_ok.1 create_eq
  obtain ⟨rfl, rfl⟩ := getNewPid_eq_ok new_eq
  cases rest_eq
  simp [pushNew]

end

theorem clone_move {kind : CloneKind μ} (clone_eq : s.clone kind = .ok (s', events)) :
    Move s.toPlacement events s'.toPlacement := by
  unfold clone at clone_eq
  split at clone_eq
  · cases clone_eq
  next ref running_eq =>
    obtain ⟨⟨pid, s₁⟩, new_eq, rest_eq⟩ := bind_eq_ok.1 clone_eq
    obtain ⟨rfl, rfl⟩ := getNewPid_eq_ok new_eq
    cases rest_eq
    exact .clone running_eq (by cases kind <;> rfl) (by cases kind <;> rfl) (by cases kind <;> rfl)

theorem clone_pushed {kind : CloneKind μ} {ref : Nat} (running_eq : s.running = some ref)
    (clone_eq : s.clone kind = .ok (s', events)) :
    s'.running = some ref ∧ s'.runnable = s.runnable ++ [s.nextPcb] ∧ s'.blocked = s.blocked ∧
      s'.nextPcb = s.nextPcb + 1 ∧
      s'.runningContext = s.runningContext.setA0 (toRegister (s.globalPid + 1)) ∧
      s'.pcb = update
        (update s.pcb ref { s.pcb ref with
          threadContext := s.runningContext.setA0 (toRegister (s.globalPid + 1)) })
        s.nextPcb (childBlock (s.pcb ref) s.runningContext (s.globalPid + 1) kind) := by
  simp only [clone, running_eq] at clone_eq
  obtain ⟨⟨pid, s₁⟩, new_eq, made_eq⟩ := bind_eq_ok.1 clone_eq
  obtain ⟨rfl, rfl⟩ := getNewPid_eq_ok new_eq
  cases made_eq
  exact ⟨running_eq, rfl, rfl, rfl, rfl, rfl⟩

theorem pid_childBlock (parent : PCB μ) (context : Context) (pid : Int) (kind : CloneKind μ) :
    (childBlock parent context pid kind).pid = pid := by
  cases kind <;> rfl

theorem park_move (context : Context) (park_eq : (match s.running with
      | none => .error .stray
      | some ref => .ok (s.park ref context, [])) = (.ok (s', events) : Outcome _)) :
    Move s.toPlacement events s'.toPlacement := by
  split at park_eq
  · cases park_eq
  next ref running_eq =>
    cases park_eq
    exact .park running_eq

theorem wait_move {wstatus : Nat} (wait_eq : s.wait wstatus = .ok (s', events)) :
    Move s.toPlacement events s'.toPlacement := by
  unfold wait at wait_eq
  split at wait_eq
  · cases wait_eq
  next ref running_eq =>
    split at wait_eq
    next record rest list_eq =>
      cases wait_eq
      exact .collect running_eq list_eq
    next list_eq =>
      cases wait_eq
      exact .block running_eq list_eq

theorem exitProcess_move {exitRet : Int} (exit_eq : s.exitProcess exitRet = .ok (s', events)) :
    Move s.toPlacement events s'.toPlacement := by
  unfold exitProcess at exit_eq
  split at exit_eq
  · cases exit_eq
  next ref running_eq =>
    cases exit_eq
    exact .exit exitRet running_eq

theorem sysKill_moves {pid : Int} (kill_eq : s.sysKill pid = .ok (s', events)) :
    Moves s.toPlacement events s'.toPlacement ∨ Removal s.toPlacement events s'.toPlacement := by
  unfold sysKill at kill_eq
  split at kill_eq
  · cases kill_eq
    exact .inl .none
  next ref search_eq =>
    cases kill_eq
    exact .inr (.running (s.mem_of_searchByPid search_eq).2)
  next ref search_eq =>
    cases kill_eq
    have removal := Removal.runnable (s.mem_of_searchByPid search_eq).2
    simpa [notifyParent] using Or.inr removal
  next ref search_eq =>
    cases kill_eq
    have removal := Removal.blocked (s.mem_of_searchByPid search_eq).2
    simpa [notifyParent] using Or.inr removal

theorem dispatch_cases (dispatched : s.dispatch = some (s', events)) :
    (∃ ref rest, s.runnable = ref :: rest ∧
      s' = ({ s.tick with runnable := rest }).restore ref ∧ events = []) ∨
    ∃ ref record rest, ref ∈ s.blocked ∧ (s.pcb ref).signalList = record :: rest ∧
      (s', events) = s.tick.wake ref record rest := by
  have woken : s.tick.tryToUnfreeze = some (s', events) →
      ∃ ref record rest, ref ∈ s.blocked ∧ (s.pcb ref).signalList = record :: rest ∧
        (s', events) = s.tick.wake ref record rest := by
    intro woken
    unfold tryToUnfreeze at woken
    split at woken
    · cases woken
    next ref find_eq =>
      split at woken
      · cases woken
      next record rest list_eq =>
        exact ⟨ref, record, rest, List.mem_of_find?_eq_some find_eq, list_eq,
          (Option.some.inj woken).symm⟩
  have picked : s.tick.pickNext = some (s', events) →
      (∃ ref rest, s.runnable = ref :: rest ∧
        s' = ({ s.tick with runnable := rest }).restore ref ∧ events = []) ∨
      ∃ ref record rest, ref ∈ s.blocked ∧ (s.pcb ref).signalList = record :: rest ∧
        (s', events) = s.tick.wake ref record rest := by
    intro picked
    unfold pickNext at picked
    split at picked
    next ref rest runnable_eq =>
      cases picked
      exact .inl ⟨ref, rest, runnable_eq, rfl, rfl⟩
    · exact .inr (woken picked)
  unfold dispatch at dispatched
  split at dispatched
  · rcases Option.or_eq_some_iff.1 (Option.orElse_eq_or.symm.trans dispatched) with
      first | ⟨_, second⟩
    · exact .inr (woken first)
    · exact picked second
  · exact picked dispatched

theorem dispatch_move (idle : s.running = none) (dispatched : s.dispatch = some (s', events)) :
    Move s.toPlacement events s'.toPlacement := by
  rcases dispatch_cases dispatched with
    ⟨ref, rest, runnable_eq, rfl, rfl⟩ | ⟨ref, record, rest, isBlocked, list_eq, woken⟩
  · exact .pick idle runnable_eq
  · cases woken
    refine .wake idle isBlocked list_eq ?_
    intro event eventMem
    split at eventMem
    · cases eventMem
    · exact ⟨_, _, List.mem_singleton.1 eventMem⟩

theorem schedule_cases (idle : s.running = none) (schedule_eq : s.schedule test = .ok (s', events)) :
    s.dispatch = some (s', events) ∨
      ∃ (start s₁ : Scheduler μ) (created more : List Event), start.toPlacement = s.toPlacement ∧ s.blocked = [] ∧
        start.createProcess test = .ok (s₁, created) ∧
        ({ s₁ with memoryDirty := true } : Scheduler μ).dispatch = some (s', more) ∧
        events = created ++ more := by
  rw [schedule, idle] at schedule_eq
  dsimp only at schedule_eq
  split at schedule_eq
  next result dispatched =>
    cases schedule_eq
    exact .inl dispatched
  · split_ifs at schedule_eq with waiting
    obtain ⟨⟨s₁, created⟩, create_eq, rest_eq⟩ := bind_eq_ok.1 schedule_eq
    dsimp only at rest_eq
    split at rest_eq
    next s₂ more dispatched =>
      cases rest_eq
      refine .inr ⟨_, s₁, created, more, ?_, by simpa using waiting, create_eq, dispatched, rfl⟩
      simp only [restart]
      split <;> rfl
    · cases rest_eq

@[simp]
theorem tick_toPlacement : s.tick.toPlacement = s.toPlacement := rfl

@[simp]
theorem restart_toPlacement : s.restart.toPlacement = s.toPlacement := by
  unfold restart
  split <;> rfl

theorem startTest_moves (idle : s.running = none) (empty : s.blocked = [])
    (start_eq : s.startTest test = .ok (s', events)) : Moves s.toPlacement events s'.toPlacement := by
  obtain ⟨⟨s₁, created⟩, create_eq, rest_eq⟩ := bind_eq_ok.1 start_eq
  obtain ⟨made, running_eq⟩ := createProcess_move create_eq
  dsimp only at rest_eq
  split at rest_eq
  next s₂ more dispatched =>
    cases rest_eq
    have idle₁ : s₁.running = none := running_eq.trans idle
    exact .start empty made (dispatch_move (s := { s₁ with memoryDirty := true }) idle₁ dispatched)
  · cases rest_eq

theorem schedule_moves (schedule_eq : s.schedule test = .ok (s', events)) :
    Moves s.toPlacement events s'.toPlacement := by
  unfold schedule at schedule_eq
  split at schedule_eq
  next ref running_eq =>
    cases schedule_eq
    simpa [restore, ← running_eq] using Moves.none (p := s.toPlacement)
  next idle =>
    split at schedule_eq
    next result dispatched =>
      cases schedule_eq
      exact .one (dispatch_move idle dispatched)
    · split_ifs at schedule_eq with waiting
      simpa using startTest_moves (s := s.tick.restart) (by simpa using idle)
        (by simpa using waiting) schedule_eq

theorem exec_moves {op : Op μ} (exec_eq : op.exec s = .ok (s', events)) :
    Moves s.toPlacement events s'.toPlacement ∨
      (∃ pid, op = .sysKill pid) ∧ Removal s.toPlacement events s'.toPlacement := by
  cases op with
  | createProcess program => exact .inl (.one (createProcess_move exec_eq).1)
  | clone kind => exact .inl (.one (clone_move exec_eq))
  | yield => exact .inl (.one (park_move _ exec_eq))
  | __yield => exact .inl (.one (park_move _ exec_eq))
  | yieldWithReturn a0 => exact .inl (.one (park_move _ exec_eq))
  | wait wstatus => exact .inl (.one (wait_move exec_eq))
  | exitProcess exitRet => exact .inl (.one (exitProcess_move exec_eq))
  | sysKill pid => exact (sysKill_moves exec_eq).imp id fun removal => ⟨⟨pid, rfl⟩, removal⟩
  | schedule test => exact .inl (schedule_moves exec_eq)

end Scheduler

end SysCore.Sched
