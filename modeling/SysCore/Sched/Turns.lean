import SysCore.Sched.Placement

/-!
# Turns

Who runs next is decided by the order of two vectors.  Blocks enter `runnable` at the end and are
resumed from the front, so that they get their turns in the order in which they came.  A waiter is
taken from the middle of `blocked`: the first one with an exit record.  None can be overtaken by
those behind it, so its position bounds the number of entries into `schedule` for which it waits
once waiters are woken eagerly.
-/

namespace SysCore.Sched

open Transition List

variable {μ : Type} {ref : Nat} {s s' t : Scheduler μ} {events : List Event} {p q : Placement μ}

def Placement.entered (p : Placement μ) (events : List Event) (q : Placement μ) : List Nat :=
  made events ++ p.running.toList.filter (· ∈ q.runnable)

def Placement.picked (p q : Placement μ) : List Nat :=
  if p.running = none then q.running.toList.filter (· ∉ p.blocked) else []

structure Turn (μ : Type) where
  op : Op μ
  events : List Event
  entered : List Nat
  picked : List Nat
  /-- `schedule` has been entered with nothing running. -/
  dispatches : Bool
  /-- The step is not such an entry before waiters are woken eagerly. -/
  eager : Bool

def Op.isSchedule : Op μ → Bool
  | .schedule _ => true
  | _ => false

def Turn.of (s : Scheduler μ) (op : Op μ) (events : List Event) (s' : Scheduler μ) : Turn μ where
  op := op
  events := events
  entered := s.entered events s'.toPlacement
  picked := s.picked s'.toPlacement
  dispatches := op.isSchedule && s.running.isNone
  eager := !(op.isSchedule && s.running.isNone) || decide (100 < s.tryUnfreezeTimes)

def Taken (s : Scheduler μ) (turn : Turn μ) (s' : Scheduler μ) : Prop :=
  ∃ op events, op.exec s = .ok (s', events) ∧ turn = .of s op events s'

theorem Accounted.taken {turn : Turn μ} (accounted : Accounted s.toPlacement) (taken : Taken s turn s') :
    Accounted s'.toPlacement := by
  obtain ⟨op, events, exec_eq, -⟩ := taken
  exact accounted.exec op exec_eq

theorem Accounted.of_turns {turns : List (Turn μ)} (accounted : Accounted s.toPlacement)
    (run : Run Taken s turns t) : Accounted t.toPlacement := by
  induction run with
  | nil => exact accounted
  | snoc _ taken ih => exact ih.taken taken

theorem Accounted.of_run {pcb : Nat → PCB μ} {testTotal : Nat} {labels : List (Op μ × List Event)}
    (run : Run Step (Scheduler.init pcb testTotal) labels s) : Accounted s.toPlacement :=
  ⟨_, Ledger.of_run run⟩

/-! ## The queue of runnable blocks -/

section Queue

variable (accounted : Accounted p)
include accounted

theorem Accounted.apart (running_eq : p.running = some ref) :
    ref ∉ p.runnable ∧ ref ∉ p.blocked ∧ ref ≠ p.nextPcb := by
  obtain ⟨before, ledger⟩ := accounted
  have placed : ref ∈ p.placed := by simp [Placement.placed, running_eq]
  have distinct : (ref :: (p.runnable ++ p.blocked)).Nodup := by
    simpa [Placement.placed, running_eq] using (nodup_append.1 ledger.nodup).1
  have absent := (nodup_cons.1 distinct).1
  rw [mem_append, not_or] at absent
  exact ⟨absent.1, absent.2, (ledger.lt_nextPcb placed).ne⟩

theorem Accounted.not_blocked (runnableMem : ref ∈ p.runnable) : ref ∉ p.blocked := by
  obtain ⟨before, ledger⟩ := accounted
  have distinct := (nodup_append.1 (nodup_append.1 ledger.nodup).1).2.2
  exact fun blockedMem => distinct ref (mem_append_right _ runnableMem) ref blockedMem rfl

theorem Move.queue (moved : Move p events q) :
    p.runnable ++ p.entered events q = p.picked q ++ q.runnable := by
  unfold Placement.entered Placement.picked
  cases moved with
  | create _ _ _ =>
    cases running_eq : p.running with
    | none => simp [running_eq, Event.made]
    | some current =>
      obtain ⟨notRunnable, -, old⟩ := accounted.apart running_eq
      simp [Event.made, notRunnable, old]
  | clone running_eq _ _ _ =>
    obtain ⟨notRunnable, -, old⟩ := accounted.apart running_eq
    simp [running_eq, Event.made, notRunnable, old]
  | park running_eq => simp [running_eq]
  | collect running_eq _ | block running_eq _ | exit _ running_eq =>
    simp [running_eq, Event.made, (accounted.apart running_eq).1]
  | pick idle runnable_eq =>
    have notBlocked := accounted.not_blocked (runnable_eq ▸ mem_cons_self)
    simp [idle, runnable_eq, notBlocked]
  | wake idle blockedMem _ stores => simp [idle, blockedMem, Event.made, (made_gone_of_store stores).1]

end Queue

theorem entered_of_idle (idle : p.running = none) : p.entered events q = made events := by
  simp [Placement.entered, idle]

theorem picked_of_idle (idle : p.running = none) : p.picked q = q.running.toList.filter (· ∉ p.blocked) :=
  if_pos idle

section Steps

variable (accounted : Accounted s.toPlacement)
include accounted

theorem still_queue (running_eq : s'.running = s.running) (fewer : s'.runnable ⊆ s.runnable)
    (noneMade : made events = []) :
    s.entered events s'.toPlacement = [] ∧ s.picked s'.toPlacement = [] := by
  unfold Placement.entered Placement.picked
  cases current : s.running with
  | none => simp [noneMade, running_eq, current]
  | some ref => simpa [noneMade] using fun runnableMem => (accounted.apart current).1 (fewer runnableMem)

theorem schedule_queue {test : Program μ} (schedule_eq : s.schedule test = .ok (s', events)) :
    s.runnable ++ s.entered events s'.toPlacement = s.picked s'.toPlacement ++ s'.runnable := by
  cases running_eq : s.running with
  | some ref =>
    simp only [Scheduler.schedule, running_eq] at schedule_eq
    cases schedule_eq
    obtain ⟨entered_eq, picked_eq⟩ := @still_queue _ _ (s.restore ref) [] accounted running_eq.symm
      (Subset.refl _) rfl
    rw [entered_eq, picked_eq, append_nil]
    rfl
  | none =>
    rcases Scheduler.schedule_cases running_eq schedule_eq with
      dispatched | ⟨start, s₁, created, more, start_eq, -, create_eq, dispatched, rfl⟩
    · exact (Scheduler.dispatch_move running_eq dispatched).queue accounted
    · -- the new block enters, and the first block of the queue is resumed
      have idle : start.running = none := by rw [start_eq, running_eq]
      have accounted₀ : Accounted start.toPlacement := start_eq ▸ accounted
      obtain ⟨running₁_eq, -, blocked₁_eq, -⟩ := Scheduler.createProcess_pushed create_eq
      have idle₁ : ({ s₁ with memoryDirty := true } : Scheduler μ).running = none := running₁_eq.trans idle
      have first := (Scheduler.createProcess_move create_eq).1.queue accounted₀
      have second := (Scheduler.dispatch_move idle₁ dispatched).queue (accounted₀.exec (.createProcess test) create_eq)
      rw [entered_of_idle idle, picked_of_idle idle, running₁_eq, idle] at first
      rw [entered_of_idle idle₁, picked_of_idle idle₁, blocked₁_eq] at second
      rw [entered_of_idle running_eq, picked_of_idle running_eq, ← start_eq, made_append, ← append_assoc, first]
      exact second

theorem sysKill_queue {pid : Int} (kill_eq : s.sysKill pid = .ok (s', events)) :
    s.entered events s'.toPlacement = [] ∧ s.picked s'.toPlacement = [] ∧
      ∀ alive : Nat → Bool, (∀ killed, .removed killed ∈ events → alive killed = false) →
        s.runnable.filter alive = s'.runnable.filter alive := by
  unfold Scheduler.sysKill at kill_eq
  rw [← and_assoc]
  split at kill_eq <;> cases kill_eq
  · exact ⟨still_queue accounted rfl (Subset.refl _) rfl, fun _ _ => rfl⟩
  · exact ⟨still_queue accounted (by simp [Scheduler.notifyParent]) (by simp [Scheduler.notifyParent]) rfl,
      fun _ _ => by simp [Scheduler.notifyParent]⟩
  next killed _ =>
    refine ⟨still_queue accounted (by simp [Scheduler.notifyParent])
      (by simpa [Scheduler.notifyParent] using erase_subset) rfl, fun alive dead => ?_⟩
    have absent : killed ∉ s.runnable.filter alive := by simp [dead killed mem_cons_self]
    simp [Scheduler.notifyParent, ← erase_filter, erase_of_not_mem absent]
  · exact ⟨still_queue accounted (by simp [Scheduler.notifyParent]) (by simp [Scheduler.notifyParent]) rfl,
      fun _ _ => by simp [Scheduler.notifyParent]⟩

end Steps

theorem Taken.queue {turn : Turn μ} (accounted : Accounted s.toPlacement) (taken : Taken s turn s')
    {alive : Nat → Bool} (dead : ∀ killed, .removed killed ∈ turn.events → alive killed = false) :
    (s.runnable ++ turn.entered).filter alive = (turn.picked ++ s'.runnable).filter alive := by
  obtain ⟨op, events, exec_eq, rfl⟩ := taken
  cases op with
  | createProcess program => exact congrArg _ ((Scheduler.createProcess_move exec_eq).1.queue accounted)
  | clone kind => exact congrArg _ ((Scheduler.clone_move exec_eq).queue accounted)
  | yield => exact congrArg _ ((Scheduler.park_move _ exec_eq).queue accounted)
  | __yield => exact congrArg _ ((Scheduler.park_move _ exec_eq).queue accounted)
  | yieldWithReturn a0 => exact congrArg _ ((Scheduler.park_move _ exec_eq).queue accounted)
  | wait wstatus => exact congrArg _ ((Scheduler.wait_move exec_eq).queue accounted)
  | exitProcess exitRet => exact congrArg _ ((Scheduler.exitProcess_move exec_eq).queue accounted)
  | sysKill pid =>
    obtain ⟨entered_eq, picked_eq, kept⟩ := sysKill_queue accounted exec_eq
    simpa [Turn.of, entered_eq, picked_eq] using kept alive dead
  | schedule test => exact congrArg _ (schedule_queue accounted exec_eq)

def survives (turns : List (Turn μ)) (ref : Nat) : Bool :=
  turns.all fun turn => .removed ref ∉ turn.events

theorem queue_of_run {turns : List (Turn μ)} (accounted : Accounted s.toPlacement) (run : Run Taken s turns t)
    {alive : Nat → Bool} (dead : ∀ turn ∈ turns, ∀ killed, .removed killed ∈ turn.events → alive killed = false) :
    (s.runnable ++ turns.flatMap Turn.entered).filter alive =
      (turns.flatMap Turn.picked ++ t.runnable).filter alive := by
  induction run with
  | nil => rw [flatMap_nil, flatMap_nil, append_nil, nil_append]
  | @snoc turns turn source target run taken ih =>
    have before := ih fun other otherMem => dead other (mem_append_left _ otherMem)
    have step := taken.queue (accounted.of_turns run) (dead turn (mem_append_right _ mem_cons_self))
    simp only [flatMap_append, flatMap_singleton, filter_append, ← append_assoc] at before step ⊢
    rw [before, append_assoc, step, ← append_assoc]

/-- Blocks are resumed in the order in which they have entered `runnable`: those in it at the
beginning and those that enter are, up to the killed ones, those resumed and those still in it. -/
theorem fifo_of_run {pcb : Nat → PCB μ} {testTotal : Nat} {history : List (Op μ × List Event)}
    {turns : List (Turn μ)} (reached : Run Step (Scheduler.init pcb testTotal) history s) (run : Run Taken s turns t) :
    (s.runnable ++ turns.flatMap Turn.entered).filter (survives turns) =
      (turns.flatMap Turn.picked ++ t.runnable).filter (survives turns) := by
  apply queue_of_run (.of_run reached) run
  intro turn turnMem killed isKilled
  rw [survives, all_eq_false]
  exact ⟨turn, turnMem, by simpa using isKilled⟩

theorem fifo_of_two : ∃ (turns : List (Turn Unit)) (t : Scheduler Unit),
    Run Taken (Scheduler.init noBlocks 0) turns t ∧ turns.flatMap Turn.picked = [0, 1] ∧
      ([] ++ turns.flatMap Turn.entered).filter (survives turns) =
        (turns.flatMap Turn.picked ++ t.runnable).filter (survives turns) := by
  let program : Program Unit := ⟨0x80100000, (), {}⟩
  have run : ∃ turns t, Run Taken (Scheduler.init noBlocks 0) turns t ∧ turns.flatMap Turn.picked = [0, 1] :=
    ⟨_, _, .snoc (.snoc (.snoc (.snoc (.snoc .nil ⟨.createProcess program, _, rfl, rfl⟩)
      ⟨.createProcess program, _, rfl, rfl⟩) ⟨.schedule program, _, rfl, rfl⟩) ⟨.yield, _, rfl, rfl⟩)
      ⟨.schedule program, _, rfl, rfl⟩, rfl⟩
  obtain ⟨turns, t, run, picked_eq⟩ := run
  exact ⟨turns, t, run, picked_eq, fifo_of_run .nil run⟩

/-! ## Waiters -/

section Index

variable {α : Type} [DecidableEq α] {items : List α} {item other : α}

theorem idxOf_erase_le (different : other ≠ item) : (items.erase other).idxOf item ≤ items.idxOf item := by
  induction items with
  | nil => exact Nat.le_refl _
  | cons first items ih =>
    by_cases isOther : first = other
    · rw [isOther, erase_cons_head, idxOf_cons_ne _ different]
      exact Nat.le_succ _
    · rw [erase_cons_tail (by simpa using isOther)]
      by_cases isItem : first = item
      · simp [isItem]
      · rw [idxOf_cons_ne _ isItem, idxOf_cons_ne _ isItem]
        exact Nat.succ_le_succ ih

theorem idxOf_erase_lt {fits : α → Bool} (first_eq : items.find? fits = some other) (itemFits : fits item)
    (itemMem : item ∈ items) (different : other ≠ item) :
    (items.erase other).idxOf item < items.idxOf item := by
  induction items with
  | nil => cases itemMem
  | cons first items ih =>
    cases firstFits : fits first with
    | true =>
      rw [find?_cons_of_pos firstFits] at first_eq
      cases first_eq
      rw [erase_cons_head, idxOf_cons_ne _ different]
      exact Nat.lt_succ_self _
    | false =>
      rw [find?_cons_of_neg (by simp [firstFits])] at first_eq
      have notOther : first ≠ other := by
        rintro rfl
        exact absurd (find?_some first_eq) (by simp [firstFits])
      have notItem : first ≠ item := by
        rintro rfl
        simp [firstFits] at itemFits
      rw [erase_cons_tail (by simpa using notOther), idxOf_cons_ne _ notItem, idxOf_cons_ne _ notItem]
      exact Nat.succ_lt_succ (ih first_eq (mem_of_ne_of_mem notItem.symm itemMem))

end Index

structure Waits (p : Placement μ) (ref : Nat) (ahead : Nat) : Prop where
  blocked : ref ∈ p.blocked
  signalled : (p.pcb ref).signalList ≠ []
  ahead_eq : p.blocked.idxOf ref ≤ ahead

theorem signalled_notifyParent (p : Placement μ) (other : Nat) (exitRet : Int)
    (signalled : (p.pcb ref).signalList ≠ []) : ((p.notifyParent other exitRet).pcb ref).signalList ≠ [] := by
  obtain kept | ⟨_, parent, _, told⟩ := p.notifyParent_eq other exitRet
  · rwa [kept]
  · by_cases same : ref = parent
    · simp [told, same]
    · simpa [told, same] using signalled

section Waiters

variable {ahead : Nat} (accounted : Accounted p) (waits : Waits p ref ahead)
include waits

theorem Waits.stay (blocked_eq : q.blocked = p.blocked) (signalled : (q.pcb ref).signalList ≠ []) :
    Waits q ref ahead :=
  ⟨blocked_eq ▸ waits.blocked, signalled, blocked_eq ▸ waits.ahead_eq⟩

theorem Waits.erase {other : Nat} (different : other ≠ ref) (blocked_eq : q.blocked = p.blocked.erase other)
    (signalled : (q.pcb ref).signalList ≠ []) : Waits q ref ahead := by
  constructor
  · rw [blocked_eq]
    exact (mem_erase_of_ne different.symm).2 waits.blocked
  · exact signalled
  · rw [blocked_eq]
    exact (idxOf_erase_le different).trans waits.ahead_eq

theorem Waits.removal (removed : Removal p events q) : .removed ref ∈ events ∨ Waits q ref ahead := by
  cases removed with
  | running _ => exact .inr (waits.stay (by simp) (signalled_notifyParent p _ 1 waits.signalled))
  | runnable _ => exact .inr (waits.stay (by simp) (signalled_notifyParent p _ 1 waits.signalled))
  | @blocked other _ =>
    by_cases same : other = ref
    · exact .inl (by simp [same])
    · exact .inr (waits.erase same rfl (signalled_notifyParent p _ 1 waits.signalled))

include accounted in
theorem Waits.move (moved : Move p events q) : (∃ pid, .waitReturn ref pid ∈ events) ∨ Waits q ref ahead := by
  have notRunning : ∀ {current : Nat}, p.running = some current → ref ≠ current := by
    rintro current running_eq rfl
    exact (accounted.apart running_eq).2.1 waits.blocked
  have old : ref ≠ p.nextPcb := by
    obtain ⟨before, ledger⟩ := accounted
    exact (ledger.lt_nextPcb (mem_append_right _ waits.blocked)).ne
  cases moved with
  | create _ _ _ => exact .inr (waits.stay rfl (by simpa [old] using waits.signalled))
  | clone running_eq _ _ _ =>
    exact .inr (waits.stay rfl (by simpa [old, notRunning running_eq] using waits.signalled))
  | park running_eq => exact .inr (waits.stay rfl (by simpa [notRunning running_eq] using waits.signalled))
  | collect running_eq _ => exact .inr (waits.stay rfl (by simpa [notRunning running_eq] using waits.signalled))
  | block running_eq _ =>
    refine .inr ⟨mem_append_left _ waits.blocked, by simpa [notRunning running_eq] using waits.signalled, ?_⟩
    exact (idxOf_append_of_mem waits.blocked).trans_le waits.ahead_eq
  | exit exitRet running_eq =>
    exact .inr (waits.stay (by simp) (signalled_notifyParent p _ exitRet waits.signalled))
  | pick _ _ => exact .inr (waits.stay rfl waits.signalled)
  | @wake other record _ _ _ _ _ _ _ =>
    by_cases same : other = ref
    · exact .inl ⟨record.1, by simp [same]⟩
    · exact .inr (waits.erase same rfl (by simpa [Ne.symm same] using waits.signalled))

end Waiters

theorem Waits.schedule {ahead : Nat} {test : Program μ} (waits : Waits s.toPlacement ref ahead)
    (idle : s.running = none) (eager : 100 < s.tryUnfreezeTimes) (schedule_eq : s.schedule test = .ok (s', events)) :
    (∃ pid, .waitReturn ref pid ∈ events) ∨ s'.blocked.idxOf ref < s.blocked.idxOf ref := by
  have refFits : !(s.pcb ref).signalList.isEmpty := by simpa using waits.signalled
  have found : (s.blocked.find? fun other => !(s.pcb other).signalList.isEmpty).isSome :=
    find?_isSome.2 ⟨ref, waits.blocked, refFits⟩
  obtain ⟨first, first_eq⟩ := Option.isSome_iff_exists.1 found
  cases list_eq : (s.pcb first).signalList with
  | nil => exact absurd (find?_some first_eq) (by simp [list_eq])
  | cons record rest =>
    have woken : s.tick.tryToUnfreeze = some (s.tick.wake first record rest) := by
      simp [Scheduler.tryToUnfreeze, Scheduler.tick, first_eq, list_eq]
    have dispatched : s.dispatch = some (s.tick.wake first record rest) := by
      rw [Scheduler.dispatch, if_pos eager, woken]
      rfl
    simp only [Scheduler.schedule, idle, dispatched] at schedule_eq
    cases schedule_eq
    by_cases same : first = ref
    · exact .inl ⟨record.1, by simp [same]⟩
    · exact .inr (idxOf_erase_lt first_eq refFits waits.blocked same)

theorem Waits.exec {ahead : Nat} {op : Op μ} (accounted : Accounted s.toPlacement)
    (waits : Waits s.toPlacement ref ahead) (exec_eq : op.exec s = .ok (s', events)) :
    (∃ pid, .waitReturn ref pid ∈ events) ∨ .removed ref ∈ events ∨ Waits s'.toPlacement ref ahead := by
  rcases Scheduler.exec_moves exec_eq with moves | ⟨-, removed⟩
  · generalize s'.toPlacement = q at moves ⊢
    cases moves with
    | none => exact .inr (.inr waits)
    | one moved => exact (waits.move accounted moved).imp_right .inr
    | start empty _ _ =>
      have blocked := waits.blocked
      rw [empty] at blocked
      cases blocked
  · exact .inr (waits.removal removed)

def Turn.Releases (turn : Turn μ) (ref : Nat) : Prop :=
  (∃ pid, .waitReturn ref pid ∈ turn.events) ∨ .removed ref ∈ turn.events

theorem Waits.taken {ahead : Nat} {turn : Turn μ} (accounted : Accounted s.toPlacement)
    (waits : Waits s.toPlacement ref ahead) (taken : Taken s turn s') (eager : turn.eager) :
    turn.Releases ref ∨ ∃ left, Waits s'.toPlacement ref left ∧ left + turn.dispatches.toNat = ahead := by
  obtain ⟨op, events, exec_eq, rfl⟩ := taken
  have stays := waits.exec accounted exec_eq
  rw [← or_assoc] at stays
  cases dispatches : op.isSchedule && s.running.isNone with
  | false => exact stays.imp_right fun later => ⟨ahead, later, by simp [Turn.of, dispatches]⟩
  | true =>
    obtain ⟨isSchedule, idle⟩ := Bool.and_eq_true_iff.1 dispatches
    simp only [Turn.of, dispatches] at eager
    cases op with
    | schedule test =>
      rcases waits.schedule (by simpa using idle) (by simpa using eager) exec_eq with told | nearer
      · exact .inl (.inl told)
      · refine stays.imp_right fun later => ⟨ahead - 1, ⟨later.blocked, later.signalled, ?_⟩, ?_⟩
        · have bound := waits.ahead_eq
          omega
        · have bound := waits.ahead_eq
          simp only [Turn.of, dispatches, Bool.toNat_true]
          omega
    | _ => cases isSchedule

theorem Waits.of_run {ahead : Nat} {turns : List (Turn μ)} (accounted : Accounted s.toPlacement)
    (waits : Waits s.toPlacement ref ahead) (run : Run Taken s turns t) (eager : ∀ turn ∈ turns, turn.eager) :
    (∃ turn ∈ turns, turn.Releases ref) ∨
      ∃ left, Waits t.toPlacement ref left ∧ left + turns.countP Turn.dispatches = ahead := by
  induction run with
  | nil => exact .inr ⟨ahead, waits, rfl⟩
  | @snoc turns turn source target run taken ih =>
    rcases ih fun other otherMem => eager other (mem_append_left _ otherMem) with
      ⟨other, otherMem, released⟩ | ⟨left, waits, left_eq⟩
    · exact .inl ⟨other, mem_append_left _ otherMem, released⟩
    · have last : turn ∈ turns ++ [turn] := mem_append_right _ mem_cons_self
      refine (waits.taken (accounted.of_turns run) taken (eager turn last)).imp (fun released => ⟨turn, last, released⟩) ?_
      rintro ⟨left', waits', left'_eq⟩
      refine ⟨left', waits', ?_⟩
      rw [countP_append, countP_singleton]
      cases dispatches : turn.dispatches <;> simp [dispatches] at left'_eq ⊢ <;> omega

/-- Once waiters are woken eagerly, one with an exit record is resumed or killed before `schedule`
has been entered with nothing running more often than there are waiters before it. -/
theorem released_of_run {pcb : Nat → PCB μ} {testTotal : Nat} {history : List (Op μ × List Event)}
    {turns : List (Turn μ)} (reached : Run Step (Scheduler.init pcb testTotal) history s)
    (waiting : ref ∈ s.blocked) (signalled : (s.pcb ref).signalList ≠ []) (run : Run Taken s turns t)
    (eager : ∀ turn ∈ turns, turn.eager) (often : s.blocked.idxOf ref < turns.countP Turn.dispatches) :
    ∃ turn ∈ turns, turn.Releases ref := by
  have waits : Waits s.toPlacement ref (s.blocked.idxOf ref) := ⟨waiting, signalled, Nat.le_refl _⟩
  rcases waits.of_run (.of_run reached) run eager with released | ⟨left, -, left_eq⟩
  · exact released
  · omega

theorem released_of_exit : ∃ (s t : Scheduler Unit) (turn : Turn Unit),
    Taken s turn t ∧ 0 ∈ s.blocked ∧ turn.Releases 0 := by
  let program : Program Unit := ⟨0x80100000, (), {}⟩
  let ops : List (Op Unit) := [.createProcess program] ++
    (List.replicate 100 [.schedule program, .yield]).flatten ++
    [.schedule program, .clone (.thread 0x80200000), .wait 0, .schedule program, .exitProcess 7]
  have tested : passes (execAll (Scheduler.init noBlocks 0) ops) (fun reached =>
      decide (reached.2.blocked = [0] ∧ reached.2.running = none ∧ 100 < reached.2.tryUnfreezeTimes) &&
      !(reached.2.pcb 0).signalList.isEmpty && passes (reached.2.schedule program) fun _ => true) := by
    decide +kernel
  obtain ⟨⟨labels, s⟩, exec_eq, tested⟩ := passes_iff.1 tested
  simp only [Bool.and_eq_true, decide_eq_true_eq, Bool.not_eq_true', isEmpty_eq_false_iff] at tested
  obtain ⟨⟨⟨blocked_eq, idle, eager⟩, signalled⟩, returned⟩ := tested
  obtain ⟨⟨t, events⟩, schedule_eq, -⟩ := passes_iff.1 returned
  have taken : Taken s (.of s (.schedule program) events t) t :=
    ⟨.schedule program, events, schedule_eq, rfl⟩
  have waiting : 0 ∈ s.blocked := by simp [blocked_eq]
  obtain ⟨turn, turnMem, released⟩ := released_of_run (run_of_execAll .nil exec_eq) waiting signalled (.snoc .nil taken)
    (by simp [Turn.of, eager]) (by simp [Turn.of, Op.isSchedule, blocked_eq, idle])
  rw [nil_append, mem_singleton] at turnMem
  exact ⟨s, t, _, taken, waiting, turnMem ▸ released⟩

end SysCore.Sched
