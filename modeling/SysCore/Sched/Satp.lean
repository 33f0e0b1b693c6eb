import SysCore.Sched.Placement

/-!
# The page table of every process

The registers of a block carry the value of `satp` with which it runs.  A block
keeps its managers, so it keeps its page table: `Tagged` says that the saved
registers of every placed block, and the live ones of the running block, name
the table its managers belong to.
-/

namespace SysCore.Sched

open Transition Function List

variable {μ : Type}

structure Tagged (tag : μ → Nat) (s : Scheduler μ) : Prop where
  saved : ∀ ref ∈ s.placed, (s.pcb ref).threadContext.satp = tag (s.pcb ref).managers
  live : ∀ ref, s.running = some ref → s.runningContext.satp = tag (s.pcb ref).managers

namespace Tagged

variable {tag : μ → Nat} {s s' : Scheduler μ} {events : List Event}

theorem init (tag : μ → Nat) (pcb : Nat → PCB μ) (testTotal : Nat) :
    Tagged tag (Scheduler.init pcb testTotal) :=
  ⟨nofun, nofun⟩

theorem placed_of_running {ref : Nat} (running_eq : s.running = some ref) : ref ∈ s.placed := by
  simp [Placement.placed, running_eq]

theorem congr (tagged : Tagged tag s) {other : μ → Nat}
    (same : ∀ ref ∈ s.placed, other (s.pcb ref).managers = tag (s.pcb ref).managers) :
    Tagged other s where
  saved ref placed := (tagged.saved ref placed).trans (same ref placed).symm
  live ref running_eq := (tagged.live ref running_eq).trans (same ref (placed_of_running running_eq)).symm

theorem new_not_placed (accounted : Accounted s.toPlacement) : s.nextPcb ∉ s.placed := by
  obtain ⟨before, ledger⟩ := accounted
  exact fun placed => Nat.lt_irrefl _ (ledger.lt_nextPcb placed)

theorem createProcess (tagged : Tagged tag s) (accounted : Accounted s.toPlacement)
    {program : Program μ} (satp_eq : program.context.satp = tag program.managers)
    (create_eq : s.createProcess program = .ok (s', events)) : Tagged tag s' := by
  obtain ⟨⟨pid, s₁⟩, new_eq, rest_eq⟩ := bind_eq_ok.1 create_eq
  obtain ⟨rfl, rfl⟩ := Scheduler.getNewPid_eq_ok new_eq
  cases rest_eq
  have different : ∀ ref ∈ s.placed, ref ≠ s.nextPcb := fun ref placed same =>
    new_not_placed accounted (same ▸ placed)
  refine ⟨fun ref placed => ?_, fun ref running_eq => ?_⟩
  · by_cases new : ref = s.nextPcb
    · subst new
      simpa [Scheduler.pushNew, Placement.pushNew, Placement.setPcb] using satp_eq
    · have old : ref ∈ s.placed := by
        simp only [Scheduler.pushNew, Placement.placed, Placement.pushNew_running,
          Placement.pushNew_runnable, Placement.pushNew_blocked, mem_append, mem_singleton] at placed ⊢
        tauto
      simpa [Scheduler.pushNew, Placement.pushNew, Placement.setPcb, new] using tagged.saved ref old
  · have new := different ref (placed_of_running running_eq)
    simpa [Scheduler.pushNew, Placement.pushNew, Placement.setPcb, new] using tagged.live ref running_eq

theorem clone (tagged : Tagged tag s) (accounted : Accounted s.toPlacement) {kind : CloneKind μ}
    (kind_eq : ∀ stack pageTable managers, kind = .fork stack pageTable managers →
      pageTable / 2 ^ 12 ||| 8 <<< 60 = tag managers) (clone_eq : s.clone kind = .ok (s', events)) :
    Tagged tag s' ∧ s'.runningContext.satp = s.runningContext.satp := by
  cases running_eq : s.running with
  | none =>
    rw [Scheduler.clone, running_eq] at clone_eq
    cases clone_eq
  | some ref =>
    obtain ⟨running', runnable', blocked', _, context', pcb'⟩ :=
      Scheduler.clone_pushed running_eq clone_eq
    have refPlaced := placed_of_running running_eq
    have refOld : ref ≠ s.nextPcb := fun same => new_not_placed accounted (same ▸ refPlaced)
    have live := tagged.live ref running_eq
    have satp_eq : s'.runningContext.satp = s.runningContext.satp := by
      rw [context']
      rfl
    have self : s'.pcb ref = { s.pcb ref with
        threadContext := s.runningContext.setA0 (toRegister (s.globalPid + 1)) } := by
      rw [pcb', update_of_ne refOld, update_self]
    have managers_eq : (s'.pcb ref).managers = (s.pcb ref).managers := by
      rw [self]
    refine ⟨⟨fun other placed => ?_, fun other other_eq => ?_⟩, satp_eq⟩
    · by_cases new : other = s.nextPcb
      · subst new
        rw [pcb', update_self]
        cases kind with
        | thread stack => exact live
        | fork stack pageTable managers => exact kind_eq stack pageTable managers rfl
      by_cases same : other = ref
      · subst same
        rw [managers_eq, self]
        exact live
      · have old : other ∈ s.placed := by
          simp only [Placement.placed, running', runnable', blocked', running_eq, mem_append,
            mem_singleton] at placed ⊢
          tauto
        rw [pcb', update_of_ne new, update_of_ne same]
        exact tagged.saved other old
    · rw [running'] at other_eq
      cases other_eq
      rw [satp_eq, managers_eq]
      exact live

theorem park (tagged : Tagged tag s) {ref : Nat} {block : PCB μ} (running_eq : s.running = some ref)
    (managers_eq : block.managers = (s.pcb ref).managers)
    (satp_eq : block.threadContext.satp = s.runningContext.satp)
    (pcb_eq : s'.pcb = update s.pcb ref block) (idle : s'.running = none)
    (placed_sub : ∀ other ∈ s'.placed, other ∈ s.placed) : Tagged tag s' where
  saved other placed := by
    by_cases same : other = ref
    · subst same
      rw [pcb_eq, update_self, satp_eq, managers_eq]
      exact tagged.live other running_eq
    · rw [pcb_eq, update_of_ne same]
      exact tagged.saved other (placed_sub other placed)
  live other running := by
    rw [idle] at running
    cases running

theorem yield (tagged : Tagged tag s) (yield_eq : s.yield = .ok (s', events)) : Tagged tag s' := by
  unfold Scheduler.yield at yield_eq
  split at yield_eq
  · cases yield_eq
  next ref running_eq =>
    cases yield_eq
    refine tagged.park running_eq ?_ ?_ rfl rfl fun other placed => ?_
    · rfl
    · rfl
    · simp [Scheduler.park, Scheduler.setPcb, Placement.placed, running_eq] at placed ⊢
      tauto

theorem wait (tagged : Tagged tag s) {wstatus : Nat} (wait_eq : s.wait wstatus = .ok (s', events)) :
    Tagged tag s' := by
  unfold Scheduler.wait at wait_eq
  split at wait_eq
  · cases wait_eq
  next ref running_eq =>
    split at wait_eq
    next record rest list_eq =>
      cases wait_eq
      have managers : ∀ other, ((s.toPlacement.setPcb ref { s.pcb ref with
          signalList := rest }).pcb other).managers = (s.pcb other).managers :=
        s.toPlacement.field_setPcb PCB.managers rfl
      have context : ∀ other, ((s.toPlacement.setPcb ref { s.pcb ref with
          signalList := rest }).pcb other).threadContext = (s.pcb other).threadContext :=
        s.toPlacement.field_setPcb PCB.threadContext rfl
      refine ⟨fun other placed => ?_, fun other other_eq => ?_⟩
      · change ((s.toPlacement.setPcb ref _).pcb other).threadContext.satp = tag _
        rw [context]
        exact (tagged.saved other placed).trans (congrArg tag (managers other).symm)
      · exact (tagged.live other other_eq).trans (congrArg tag (managers other).symm)
    next list_eq =>
      cases wait_eq
      refine tagged.park running_eq ?_ ?_ rfl rfl fun other placed => ?_
      · rfl
      · rfl
      · simp [Scheduler.setPcb, Placement.placed, running_eq] at placed ⊢
        tauto

theorem leave (tagged : Tagged tag s) {ref : Nat} {exitRet : Int}
    (pcb_eq : s'.pcb = (s.toPlacement.notifyParent ref exitRet).pcb)
    (placed_sub : ∀ other ∈ s'.placed, other ∈ s.placed) (live : ∀ other, s'.running = some other →
      s.running = some other ∧ s'.runningContext = s.runningContext) : Tagged tag s' := by
  have managers : ∀ other, (s'.pcb other).managers = (s.pcb other).managers := fun other => by
    rw [pcb_eq]
    exact s.toPlacement.field_notifyParent PCB.managers (fun _ _ => rfl) ref exitRet other
  have context : ∀ other, (s'.pcb other).threadContext = (s.pcb other).threadContext := fun other => by
    rw [pcb_eq]
    exact s.toPlacement.field_notifyParent PCB.threadContext (fun _ _ => rfl) ref exitRet other
  refine ⟨fun other placed => ?_, fun other running_eq => ?_⟩
  · rw [context, managers]
    exact tagged.saved other (placed_sub other placed)
  · obtain ⟨was, same⟩ := live other running_eq
    rw [same, managers]
    exact tagged.live other was

theorem exitProcess (tagged : Tagged tag s) {exitRet : Int}
    (exit_eq : s.exitProcess exitRet = .ok (s', events)) : Tagged tag s' := by
  unfold Scheduler.exitProcess at exit_eq
  split at exit_eq
  · cases exit_eq
  next ref running_eq =>
    cases exit_eq
    refine tagged.leave rfl (fun other placed => ?_) nofun
    simp [Scheduler.notifyParent, Placement.placed] at placed ⊢
    tauto

theorem sysKill (tagged : Tagged tag s) {pid : Int} (kill_eq : s.sysKill pid = .ok (s', events)) :
    Tagged tag s' := by
  unfold Scheduler.sysKill at kill_eq
  split at kill_eq <;> cases kill_eq
  · exact tagged
  all_goals
    refine tagged.leave rfl (fun other placed => ?_) fun other running_eq => ?_
    · simp only [Scheduler.notifyParent, Placement.placed, Placement.notifyParent_running,
        Placement.notifyParent_runnable, Placement.notifyParent_blocked, mem_append] at placed ⊢
      first
        | exact placed
        | exact placed.imp_left (Or.imp_right mem_of_mem_erase)
        | exact placed.imp_right mem_of_mem_erase
    · exact ⟨by simpa [Scheduler.notifyParent] using running_eq, rfl⟩

theorem dispatch (tagged : Tagged tag s) (dispatched : s.dispatch = some (s', events)) :
    Tagged tag s' ∧ ∃ ref, s'.running = some ref := by
  rcases Scheduler.dispatch_cases dispatched with
    ⟨ref, rest, runnable_eq, rfl, rfl⟩ | ⟨ref, record, rest, blockedMem, list_eq, wake_eq⟩
  · have refPlaced : ref ∈ s.placed := by simp [Placement.placed, runnable_eq]
    refine ⟨⟨fun other placed => tagged.saved other ?_, ?_⟩, ref, rfl⟩
    · simp [Scheduler.restore, Scheduler.tick, Placement.placed, runnable_eq] at placed ⊢
      tauto
    · rintro other other_eq
      cases other_eq
      exact tagged.saved ref refPlaced
  · have refPlaced : ref ∈ s.placed := by simp [Placement.placed, blockedMem]
    cases wake_eq
    have managers : ∀ other, ((s.toPlacement.setPcb ref { s.pcb ref with
        threadContext := (s.pcb ref).threadContext.setA0 (toRegister record.1)
        signalList := rest }).pcb other).managers = (s.pcb other).managers :=
      s.toPlacement.field_setPcb PCB.managers rfl
    have satp : ∀ other, ((s.toPlacement.setPcb ref { s.pcb ref with
        threadContext := (s.pcb ref).threadContext.setA0 (toRegister record.1)
        signalList := rest }).pcb other).threadContext.satp = (s.pcb other).threadContext.satp :=
      s.toPlacement.field_setPcb (fun block => block.threadContext.satp) rfl
    refine ⟨⟨fun other placed => ?_, ?_⟩, ref, rfl⟩
    · refine (satp other).trans ((tagged.saved other ?_).trans (congrArg tag (managers other).symm))
      simp [Scheduler.restore, Scheduler.setPcb, Scheduler.tick, Placement.placed] at placed ⊢
      rcases placed with rfl | inRunnable | inBlocked
      · exact .inr (.inr blockedMem)
      · exact .inr (.inl inRunnable)
      · exact .inr (.inr (mem_of_mem_erase inBlocked))
    · rintro other other_eq
      cases other_eq
      exact (satp ref).trans ((tagged.saved ref refPlaced).trans (congrArg tag (managers ref).symm))

end Tagged

end SysCore.Sched
