import SysCore.Sched.Placement
import SysCore.Trap.Interrupt

/-!
# The word behind the fast `getppid`

`schedule` stores the pid of the process it resumes through `fast_pid`, and two
pieces of assembly load that word in place of a system call: `__handle_getppid`
behind a trap and `fast_syscall_getppid` in user space.  `sys_getppid` returns
the parent's pid.  Pids are handed out in increasing order, so a process never
has the pid of its parent.
-/

namespace SysCore.Sched

open Transition Memory Machine

variable {μ : Type}

def fastSyscallGetppid : List Instr :=
  [.li Trap.a0 (BitVec.ofNat 64 Trap.fastPid), .lw Trap.a0 0 Trap.a0]

def HoldsFastPid (m : State) (s : Scheduler μ) : Prop :=
  readLE m.mem 4 Trap.fastPid = (s.fastPid % 2 ^ 32).toNat

def sysGetppid (s : Scheduler μ) : Option Nat :=
  s.running.map fun ref => toRegister (s.pcb ref).ppid

structure Resumed (s s' : Scheduler μ) : Prop where
  current : ∃ ref, s'.running = some ref ∧ s'.fastPid = (s'.pcb ref).pid
  globalPid : s'.globalPid = s.globalPid

namespace Scheduler

variable {s s' : Scheduler μ} {events : List Event}

theorem dispatch_resumed (dispatched : s.dispatch = some (s', events)) : Resumed s s' := by
  rcases dispatch_cases dispatched with ⟨ref, rest, -, rfl, -⟩ | ⟨ref, record, rest, -, -, woken⟩
  · exact ⟨⟨ref, rfl, rfl⟩, rfl⟩
  · cases woken
    exact ⟨⟨ref, rfl, rfl⟩, rfl⟩

theorem getNewPid_lt {pid : Int} (new_eq : s.getNewPid = .ok (pid, s')) : s'.globalPid < 2 ^ 31 := by
  unfold getNewPid at new_eq
  split at new_eq
  · cases new_eq
    dsimp only
    omega
  · cases new_eq

theorem createProcess_spec {program : Program μ}
    (create_eq : s.createProcess program = .ok (s', events)) :
    s'.running = s.running ∧ s'.fastPid = s.fastPid ∧ s'.globalPid < 2 ^ 31 := by
  obtain ⟨⟨pid, s₁⟩, new_eq, rest_eq⟩ := bind_eq_ok.1 create_eq
  have fits := getNewPid_lt new_eq
  obtain ⟨_, rfl⟩ := getNewPid_eq_ok new_eq
  cases rest_eq
  exact ⟨rfl, rfl, fits⟩

theorem clone_spec {kind : CloneKind μ} (clone_eq : s.clone kind = .ok (s', events)) :
    s'.running = s.running ∧ s'.fastPid = s.fastPid ∧ s'.globalPid < 2 ^ 31 := by
  unfold clone at clone_eq
  split at clone_eq
  · cases clone_eq
  · obtain ⟨⟨pid, s₁⟩, new_eq, rest_eq⟩ := bind_eq_ok.1 clone_eq
    have fits := getNewPid_lt new_eq
    obtain ⟨_, rfl⟩ := getNewPid_eq_ok new_eq
    cases rest_eq
    exact ⟨rfl, rfl, fits⟩

structure FastStep (s s' : Scheduler μ) : Prop where
  word : (s'.running = s.running ∧ s'.fastPid = s.fastPid) ∨ s'.running = none ∨
    ∃ ref, s'.running = some ref ∧ s'.fastPid = (s'.pcb ref).pid
  globalPid : s.globalPid < 2 ^ 31 → s'.globalPid < 2 ^ 31

theorem schedule_fastStep {test : Program μ} (schedule_eq : s.schedule test = .ok (s', events)) :
    FastStep s s' := by
  unfold schedule at schedule_eq
  split at schedule_eq
  next ref _ =>
    cases schedule_eq
    exact ⟨.inr (.inr ⟨ref, rfl, rfl⟩), id⟩
  next =>
    split at schedule_eq
    next result dispatched =>
      cases schedule_eq
      have resumed := dispatch_resumed dispatched
      exact ⟨.inr (.inr resumed.current), fun fits => resumed.globalPid.symm ▸ fits⟩
    · split_ifs at schedule_eq
      obtain ⟨⟨s₁, created⟩, create_eq, rest_eq⟩ := bind_eq_ok.1 schedule_eq
      dsimp only at rest_eq
      split at rest_eq
      next dispatched =>
        cases rest_eq
        have resumed := dispatch_resumed dispatched
        have fits := (createProcess_spec create_eq).2.2
        exact ⟨.inr (.inr resumed.current), fun _ => resumed.globalPid.symm ▸ fits⟩
      · cases rest_eq

theorem park_fastStep (context : Context) (park_eq : (match s.running with
      | none => .error .stray
      | some ref => .ok (s.park ref context, [])) = (.ok (s', events) : Outcome _)) :
    FastStep s s' := by
  split at park_eq
  · cases park_eq
  · cases park_eq
    exact ⟨.inr (.inl rfl), id⟩

theorem exec_fastStep {op : Op μ} (exec_eq : op.exec s = .ok (s', events)) : FastStep s s' := by
  cases op with
  | createProcess program =>
    obtain ⟨running_eq, word_eq, fits⟩ := createProcess_spec exec_eq
    exact ⟨.inl ⟨running_eq, word_eq⟩, fun _ => fits⟩
  | clone kind =>
    obtain ⟨running_eq, word_eq, fits⟩ := clone_spec exec_eq
    exact ⟨.inl ⟨running_eq, word_eq⟩, fun _ => fits⟩
  | yield => exact park_fastStep _ exec_eq
  | __yield => exact park_fastStep _ exec_eq
  | yieldWithReturn a0 => exact park_fastStep _ exec_eq
  | wait wstatus =>
    simp only [Op.exec, wait] at exec_eq
    split at exec_eq
    · cases exec_eq
    · split at exec_eq
      · cases exec_eq
        exact ⟨.inl ⟨rfl, rfl⟩, id⟩
      · cases exec_eq
        exact ⟨.inr (.inl rfl), id⟩
  | exitProcess exitRet =>
    simp only [Op.exec, exitProcess] at exec_eq
    split at exec_eq
    · cases exec_eq
    · cases exec_eq
      exact ⟨.inr (.inl rfl), fun fits => by simpa [notifyParent] using fits⟩
  | sysKill pid =>
    simp only [Op.exec, sysKill] at exec_eq
    split at exec_eq <;> cases exec_eq
    · exact ⟨.inl ⟨rfl, rfl⟩, id⟩
    all_goals exact ⟨.inl ⟨by simp [notifyParent], rfl⟩, fun fits => by simpa [notifyParent] using fits⟩
  | schedule test => exact schedule_fastStep exec_eq

end Scheduler

def Parented (p : Placement μ) : Prop :=
  ∀ ref < p.nextPcb, 1 ≤ (p.pcb ref).ppid ∧ (p.pcb ref).ppid < (p.pcb ref).pid

namespace Parented

variable {p q : Placement μ} {events more : List Event}

theorem of_eq (parented : Parented p) (nextPcb_eq : q.nextPcb = p.nextPcb)
    (pids : ∀ ref, (q.pcb ref).pid = (p.pcb ref).pid)
    (ppids : ∀ ref, (q.pcb ref).ppid = (p.pcb ref).ppid) : Parented q := by
  intro ref bound
  rw [pids, ppids]
  exact parented ref (nextPcb_eq ▸ bound)

theorem pushNew (parented : Parented p) {block : PCB μ} (globalPid : Int)
    (older : 1 ≤ block.ppid ∧ block.ppid < block.pid) :
    Parented { p.pushNew block with globalPid := globalPid } := by
  intro ref bound
  simp only [Placement.pushNew_nextPcb] at bound
  by_cases new : ref = p.nextPcb
  · subst new
    simpa using older
  · simpa [new] using parented ref (by omega)

theorem ppid_notifyParent (p : Placement μ) (ref : Nat) (exitRet : Int) (other : Nat) :
    ((p.notifyParent ref exitRet).pcb other).ppid = (p.pcb other).ppid :=
  p.field_notifyParent PCB.ppid (fun _ _ => rfl) ref exitRet other

theorem move (ledger : Ledger events p) (parented : Parented p) (moved : Move p more q) :
    Parented q := by
  cases moved with
  | create pid_eq ppid_eq _ =>
    refine parented.pushNew _ ?_
    rw [pid_eq, ppid_eq, ledger.counter]
    omega
  | @clone ref context block running_eq pid_eq ppid_eq _ =>
    have placed : ref ∈ p.placed := by simp [Placement.placed, running_eq]
    have ref_lt := ledger.lt_nextPcb placed
    have saved : Parented (p.setPcb ref { p.pcb ref with threadContext := context }) :=
      parented.of_eq rfl (p.field_setPcb PCB.pid rfl) (p.field_setPcb PCB.ppid rfl)
    refine saved.pushNew _ ?_
    rw [pid_eq, ppid_eq, ledger.counter, ledger.pid_eq ref ref_lt]
    omega
  | exit exitRet _ =>
    exact parented.of_eq (by simp) (p.pid_notifyParent _ _) (ppid_notifyParent p _ _)
  | pick _ _ => exact parented
  | _ => exact parented.of_eq rfl (p.field_setPcb PCB.pid (by rfl)) (p.field_setPcb PCB.ppid (by rfl))

theorem removal (parented : Parented p) (removed : Removal p more q) : Parented q := by
  cases removed <;>
    exact parented.of_eq (by simp) (p.pid_notifyParent _ _) (ppid_notifyParent p _ _)

end Parented

structure FastWord (events : List Event) (s : Scheduler μ) : Prop where
  ledger : Ledger events s.toPlacement
  parented : Parented s.toPlacement
  current : ∀ ref, s.running = some ref → s.fastPid = (ref : Int) + 2
  fits : s.globalPid < 2 ^ 31

namespace FastWord

theorem init (pcb : Nat → PCB μ) (testTotal : Nat) : FastWord [] (Scheduler.init pcb testTotal) where
  ledger := Ledger.init pcb testTotal
  parented ref bound := absurd bound (Nat.not_lt_zero ref)
  current ref running_eq := by cases running_eq
  fits := show (1 : Int) < 2 ^ 31 by decide

theorem step {events : List Event} {s s' : Scheduler μ} (fast : FastWord events s)
    {label : Op μ × List Event} (stepped : Step s label s') : FastWord (events ++ label.2) s' := by
  have ledger := fast.ledger.step stepped
  have changed := Scheduler.exec_fastStep stepped
  refine ⟨ledger, ?_, ?_, changed.globalPid fast.fits⟩
  · rcases Scheduler.exec_moves stepped with moves | ⟨_, removed⟩
    · exact (Moves.preserve (fun events p => Ledger events p ∧ Parented p)
        (fun before moved => ⟨before.1.move moved, before.2.move before.1 moved⟩) moves
        ⟨fast.ledger, fast.parented⟩).2
    · exact fast.parented.removal removed
  · intro ref running_eq
    rcases changed.word with ⟨same, word_eq⟩ | stopped | ⟨resumed, resumed_eq, word_eq⟩
    · rw [word_eq]
      exact fast.current ref (same ▸ running_eq)
    · rw [stopped] at running_eq
      cases running_eq
    · obtain rfl : resumed = ref := Option.some.inj (resumed_eq.symm.trans running_eq)
      have placed : resumed ∈ s'.placed := by simp [Placement.placed, running_eq]
      rw [word_eq, ledger.pid_eq resumed (ledger.lt_nextPcb placed)]

theorem of_run {pcb : Nat → PCB μ} {testTotal : Nat} {labels : List (Op μ × List Event)}
    {s : Scheduler μ} (run : Run Step (Scheduler.init pcb testTotal) labels s) :
    FastWord (trace labels) s := by
  refine Run.history (fun labels (s : Scheduler μ) => FastWord (trace labels) s) ?_ run
    (FastWord.init pcb testTotal)
  intro labels label source target fast stepped
  simpa using fast.step stepped

end FastWord

theorem lw_toNat {pid : Int} (nonneg : 0 ≤ pid) (fits : pid < 2 ^ 31) :
    ((BitVec.ofNat 32 (pid % 2 ^ 32).toNat).signExtend 64).toNat = toRegister pid := by
  obtain ⟨n, rfl⟩ := Int.eq_ofNat_of_zero_le nonneg
  have small : n < 2 ^ 31 := by omega
  have low : ((n : Int) % 2 ^ 32).toNat = n := by omega
  have positive : (BitVec.ofNat 32 n).msb = false := by
    rw [BitVec.msb_eq_false_iff_two_mul_lt, BitVec.toNat_ofNat]
    omega
  rw [low, BitVec.signExtend_eq_setWidth_of_msb_false positive, BitVec.toNat_setWidth,
    BitVec.toNat_ofNat, toRegister]
  omega

theorem loads_fastPid {m : State} {s : Scheduler μ} (holds : HoldsFastPid m s)
    (nonneg : 0 ≤ s.fastPid) (fits : s.fastPid < 2 ^ 31) :
    ((straight fastSyscallGetppid m).reg Trap.a0).toNat = toRegister s.fastPid ∧
      ((Trap.handleGetppid.run m).2.reg Trap.a0).toNat = toRegister s.fastPid := by
  have address : (BitVec.ofNat 64 Trap.fastPid + 0).toNat = Trap.fastPid := by decide
  have loaded : ∀ left : State, left.mem = m.mem → left.reg Trap.a0 = BitVec.ofNat 64 Trap.fastPid →
      (((Instr.lw Trap.a0 0 Trap.a0).step left).reg Trap.a0).toNat = toRegister s.fastPid := by
    intro left mem_eq base_eq
    rw [Instr.step, State.reg_setReg_self (by decide), base_eq, address, mem_eq, holds]
    exact lw_toNat nonneg fits
  exact ⟨loaded _ rfl rfl, loaded _ rfl rfl⟩

theorem toRegister_inj {first second : Int} (firstFits : 0 ≤ first ∧ first < 2 ^ 31)
    (secondFits : 0 ≤ second ∧ second < 2 ^ 31) :
    toRegister first = toRegister second ↔ first = second := by
  unfold toRegister
  omega

/-- In every reachable state with a running process, what either fast path
loads is what `sys_getppid` returns only if the process is its own parent,
and it never is. -/
theorem fastGetppid_iff_of_run {pcb : Nat → PCB μ} {testTotal : Nat}
    {labels : List (Op μ × List Event)} {s : Scheduler μ}
    (run : Run Step (Scheduler.init pcb testTotal) labels s) {ref : Nat}
    (running_eq : s.running = some ref) {m : State} (holds : HoldsFastPid m s) :
    (some ((straight fastSyscallGetppid m).reg Trap.a0).toNat = sysGetppid s ↔
      (s.pcb ref).pid = (s.pcb ref).ppid) ∧
    (some ((Trap.handleGetppid.run m).2.reg Trap.a0).toNat = sysGetppid s ↔
      (s.pcb ref).pid = (s.pcb ref).ppid) ∧
    (s.pcb ref).ppid < (s.pcb ref).pid := by
  have fast := FastWord.of_run run
  have placed : ref ∈ s.placed := by simp [Placement.placed, running_eq]
  have ref_lt := fast.ledger.lt_nextPcb placed
  have pid_eq := fast.ledger.pid_eq ref ref_lt
  have older := fast.parented ref ref_lt
  have counter := fast.ledger.counter
  have fits := fast.fits
  have word_eq : s.fastPid = (s.pcb ref).pid := by rw [fast.current ref running_eq, pid_eq]
  have pidFits : 0 ≤ (s.pcb ref).pid ∧ (s.pcb ref).pid < 2 ^ 31 := by omega
  obtain ⟨fromUser, fromTrap⟩ :=
    loads_fastPid holds (word_eq.symm ▸ pidFits.1) (word_eq.symm ▸ pidFits.2)
  have same := toRegister_inj pidFits (show 0 ≤ (s.pcb ref).ppid ∧ (s.pcb ref).ppid < 2 ^ 31 by omega)
  refine ⟨?_, ?_, older.2⟩
  · simpa [sysGetppid, running_eq, fromUser, word_eq] using same
  · simpa [sysGetppid, running_eq, fromTrap, word_eq] using same

def machineWith (pid : Nat) : State where
  x _ := 0
  csr _ := 0
  mem := writeLE (fun _ => 0) 4 Trap.fastPid pid

theorem firstTest_running :
    ∃ (labels : List (Op Unit × List Event)) (s : Scheduler Unit),
      Run Step (Scheduler.init noBlocks 1) labels s ∧
      s.running = some 0 ∧ s.fastPid = 2 ∧ (s.pcb 0).ppid = 1 := by
  let program : Program Unit := ⟨0x80100000, (), {}⟩
  obtain ⟨labels, s, exec_eq, running_eq, word_eq, ppid_eq⟩ : ∃ labels s,
      execAll (Scheduler.init noBlocks 1) [.createProcess program, .schedule program] =
        .ok (labels, s) ∧
      s.running = some 0 ∧ s.fastPid = 2 ∧ (s.pcb 0).ppid = 1 := ⟨_, _, rfl, rfl, rfl, rfl⟩
  exact ⟨labels, s, by simpa using run_of_execAll .nil exec_eq, running_eq, word_eq, ppid_eq⟩

theorem machineWith_holds {s : Scheduler μ} (word_eq : s.fastPid = 2) :
    HoldsFastPid (machineWith 2) s := by
  rw [HoldsFastPid, machineWith, readLE_writeLE, word_eq]
  decide

theorem fastGetppid_of_firstTest :
    ∃ s : Scheduler Unit, s.running = some 0 ∧ HoldsFastPid (machineWith 2) s ∧
      (some ((straight fastSyscallGetppid (machineWith 2)).reg Trap.a0).toNat = sysGetppid s ↔
        (s.pcb 0).pid = (s.pcb 0).ppid) := by
  obtain ⟨labels, s, run, running_eq, word_eq, _⟩ := firstTest_running
  have holds := machineWith_holds word_eq
  exact ⟨s, running_eq, holds, (fastGetppid_iff_of_run run running_eq holds).1⟩

theorem not_fastGetppid_of_firstTest :
    ∃ (labels : List (Op Unit × List Event)) (s : Scheduler Unit),
      Run Step (Scheduler.init noBlocks 1) labels s ∧
      s.running = some 0 ∧ HoldsFastPid (machineWith 2) s ∧
      ((straight fastSyscallGetppid (machineWith 2)).reg Trap.a0).toNat = 2 ∧
      sysGetppid s = some 1 := by
  obtain ⟨labels, s, run, running_eq, word_eq, ppid_eq⟩ := firstTest_running
  have holds := machineWith_holds word_eq
  have loaded := (loads_fastPid holds (by omega) (by omega)).1
  refine ⟨labels, s, run, running_eq, holds, ?_, ?_⟩
  · rw [loaded, word_eq]
    decide
  · simp [sysGetppid, running_eq, ppid_eq, toRegister]

end SysCore.Sched
