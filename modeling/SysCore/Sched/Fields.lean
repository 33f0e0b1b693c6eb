import SysCore.Sched.Placement

/-!
# Fields that scheduling leaves alone

The operations of the scheduler write the registers of a block, its exit records
and what it waits for.  Every other field of a block that exists keeps its value
in every operation, and a block that an operation makes has the fields that
`create_process` or `clone` gives it.
-/

namespace SysCore.Sched

open Transition

variable {μ α : Type}

inductive Newborn : PCB μ → Prop
  | created (program : Program μ) (pid : Int) :
      Newborn { pid := pid, ppid := 1, stack := program.stack, stackSize := 4096,
                managers := program.managers, threadContext := program.context, cwd := ['/'] }
  | cloned (parent : PCB μ) (context : Context) (pid : Int) (kind : CloneKind μ) :
      Newborn (Scheduler.childBlock parent context pid kind)

section Kept

variable {field : PCB μ → α} (untouched : Untouched field) {p q : Placement μ} {events : List Event}
  {ref : Nat}

include untouched

theorem Untouched.move_old (moved : Move p events q) (made_lt : ref < p.nextPcb) :
    ref < q.nextPcb ∧ field (q.pcb ref) = field (p.pcb ref) := by
  constructor
  · exact moved.nextPcb_eq ▸ Nat.lt_add_right _ made_lt
  · exact (untouched.move moved ref).resolve_left fun new => made_lt.ne new.1

theorem Untouched.moves (moves : Moves p events q) (made_lt : ref < p.nextPcb) :
    ref < q.nextPcb ∧ field (q.pcb ref) = field (p.pcb ref) := by
  cases moves with
  | none => exact ⟨made_lt, rfl⟩
  | one moved => exact untouched.move_old moved made_lt
  | start _ first second =>
    obtain ⟨lt, first_eq⟩ := untouched.move_old first made_lt
    obtain ⟨lt', second_eq⟩ := untouched.move_old second lt
    exact ⟨lt', second_eq.trans first_eq⟩

theorem Untouched.exec {s s' : Scheduler μ} {op : Op μ} (exec_eq : op.exec s = .ok (s', events))
    (made_lt : ref < s.nextPcb) : ref < s'.nextPcb ∧ field (s'.pcb ref) = field (s.pcb ref) := by
  rcases Scheduler.exec_moves exec_eq with moves | ⟨-, removed⟩
  · exact untouched.moves moves made_lt
  · exact ⟨removed.quiet.nextPcb_eq ▸ made_lt, untouched.removal removed ref⟩

end Kept

section New

variable {s s' : Scheduler μ} {events : List Event}

theorem made_of_exec {op : Op μ} (exec_eq : op.exec s = .ok (s', events)) :
    made events = [] ∨ (∃ program, op = .createProcess program) ∨ (∃ kind, op = .clone kind) ∨
      ∃ test, op = .schedule test := by
  cases op with
  | createProcess program => exact .inr (.inl ⟨program, rfl⟩)
  | clone kind => exact .inr (.inr (.inl ⟨kind, rfl⟩))
  | schedule test => exact .inr (.inr (.inr ⟨test, rfl⟩))
  | yield | __yield | yieldWithReturn a0 | exitProcess exitRet =>
    left
    simp only [Op.exec, Scheduler.yield, Scheduler.__yield, Scheduler.yieldWithReturn,
      Scheduler.exitProcess] at exec_eq
    split at exec_eq <;> cases exec_eq
    rfl
  | wait wstatus =>
    left
    simp only [Op.exec, Scheduler.wait] at exec_eq
    split at exec_eq
    · cases exec_eq
    · split at exec_eq <;> cases exec_eq <;> rfl
  | sysKill pid =>
    left
    simp only [Op.exec, Scheduler.sysKill] at exec_eq
    split at exec_eq <;> cases exec_eq <;> rfl

theorem Moves.nextPcb_eq {p q : Placement μ} (moves : Moves p events q) :
    q.nextPcb = p.nextPcb + (made events).length := by
  cases moves with
  | none => rfl
  | one moved => exact moved.nextPcb_eq
  | start _ first second => rw [second.nextPcb_eq, first.nextPcb_eq, made_append, List.length_append, Nat.add_assoc]

theorem createProcess_newborn {program : Program μ}
    (create_eq : s.createProcess program = .ok (s', events)) :
    s'.nextPcb = s.nextPcb + 1 ∧ Newborn (s'.pcb s.nextPcb) := by
  refine ⟨(Scheduler.createProcess_pushed create_eq).2.2.2.1, ?_⟩
  obtain ⟨⟨pid, s₁⟩, new_eq, rest_eq⟩ := bind_eq_ok.1 create_eq
  obtain ⟨rfl, rfl⟩ := Scheduler.getNewPid_eq_ok new_eq
  cases rest_eq
  simpa [Scheduler.pushNew] using Newborn.created program (s.globalPid + 1)

theorem clone_newborn {kind : CloneKind μ} (clone_eq : s.clone kind = .ok (s', events)) :
    s'.nextPcb = s.nextPcb + 1 ∧
      ∃ parent context pid, s'.pcb s.nextPcb = Scheduler.childBlock parent context pid kind := by
  cases running_eq : s.running with
  | none =>
    rw [Scheduler.clone, running_eq] at clone_eq
    cases clone_eq
  | some ref =>
    obtain ⟨-, -, -, next_eq, -, pcb_eq⟩ := Scheduler.clone_pushed running_eq clone_eq
    refine ⟨next_eq, s.pcb ref, s.runningContext, s.globalPid + 1, ?_⟩
    rw [pcb_eq, Function.update_self]

theorem Untouched.newborn {field : PCB μ → α} (untouched : Untouched field) {op : Op μ}
    (exec_eq : op.exec s = .ok (s', events)) {ref : Nat} (new : s.nextPcb ≤ ref)
    (made_lt : ref < s'.nextPcb) : ∃ block, Newborn block ∧ field (s'.pcb ref) = field block := by
  rcases made_of_exec exec_eq with noneMade | ⟨program, rfl⟩ | ⟨kind, rfl⟩ | ⟨test, rfl⟩
  · have next_eq : s'.nextPcb = s.nextPcb := by
      rcases Scheduler.exec_moves exec_eq with moves | ⟨-, removed⟩
      · rw [moves.nextPcb_eq, noneMade]; rfl
      · exact removed.quiet.nextPcb_eq
    omega
  · obtain ⟨next_eq, newborn⟩ := createProcess_newborn exec_eq
    obtain rfl : ref = s.nextPcb := by omega
    exact ⟨_, newborn, rfl⟩
  · obtain ⟨next_eq, parent, context, pid, block_eq⟩ := clone_newborn exec_eq
    obtain rfl : ref = s.nextPcb := by omega
    exact ⟨_, .cloned parent context pid kind, congrArg field block_eq⟩
  · have schedule_eq : s.schedule test = .ok (s', events) := exec_eq
    cases running_eq : s.running with
    | some current =>
      rw [Scheduler.schedule, running_eq] at schedule_eq
      cases schedule_eq
      exact absurd made_lt (Nat.not_lt.2 new)
    | none =>
      have dispatch_eq : ∀ {start t : Scheduler μ} {more : List Event}, start.running = none →
          start.dispatch = some (t, more) → t.nextPcb = start.nextPcb := fun idle dispatched => by
        rw [(Scheduler.dispatch_move idle dispatched).nextPcb_eq, (Scheduler.made_gone_of_dispatch dispatched).1]
        rfl
      rcases Scheduler.schedule_cases running_eq schedule_eq with dispatched |
        ⟨start, s₁, created, more, start_eq, -, create_eq, dispatched, -⟩
      · have next_eq := dispatch_eq running_eq dispatched
        omega
      · have idle : s₁.running = none := by
          rw [(Scheduler.createProcess_move create_eq).2, start_eq, running_eq]
        have next_eq := @dispatch_eq { s₁ with memoryDirty := true } _ _ idle dispatched
        obtain ⟨create_next, newborn⟩ := createProcess_newborn create_eq
        rw [start_eq] at create_next newborn
        dsimp only at next_eq
        obtain rfl : ref = s.nextPcb := by omega
        have made_lt₁ : s.nextPcb < s₁.nextPcb := by omega
        have moved := Scheduler.dispatch_move (s := { s₁ with memoryDirty := true }) idle dispatched
        exact ⟨_, newborn, (untouched.move_old moved made_lt₁).2⟩

end New

end SysCore.Sched
