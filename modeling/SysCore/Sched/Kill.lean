import SysCore.Sched.Placement

/-!
# Killing a process

`PCB::kill` tells the parent, pushes the block's stack page to the page pool and
frees the block's registers.  `exit_process` calls it on the running block and
`sys_kill` on the block it finds.  A thread made by `clone` has its creator's
stack page, so two blocks may own one page; `Owned` keeps with every block the
block for which its stack page was allocated.

A block is rid of by one call exactly when it is not the running one, which
`sys_kill` leaves running, and no other block has its stack page.
-/

namespace SysCore.Sched

open Transition List

variable {μ : Type}

structure Owned (μ : Type) where
  sched : Scheduler μ
  owner : Nat → Nat

structure Kill where
  /-- The block whose registers are freed. -/
  ref : Nat
  /-- The block for which the pushed stack page was allocated. -/
  stack : Nat
  /-- The process that gets the record. -/
  told : Option Nat

namespace Owned

def ownerAfter (o : Owned μ) : Op μ → Nat → Nat
  | .clone (.thread _) =>
    match o.sched.running with
    | some ref => Function.update o.owner o.sched.nextPcb (o.owner ref)
    | none => o.owner
  | _ => o.owner

def target (s : Scheduler μ) : Op μ → Option Nat
  | .exitProcess _ => s.running
  | .sysKill pid => (s.searchByPid pid).map Prod.snd
  | _ => none

def killed (o : Owned μ) (op : Op μ) : List Kill :=
  (target o.sched op).toList.map fun ref =>
    { ref := ref
      stack := o.owner ref
      told := (o.sched.searchByPid (o.sched.pcb ref).ppid).map Prod.snd }

def init (pcb : Nat → PCB μ) (testTotal : Nat) : Owned μ where
  sched := Scheduler.init pcb testTotal
  owner := id

end Owned

def KillStep (o : Owned μ) (label : Op μ × List Kill) (o' : Owned μ) : Prop :=
  (∃ events, label.1.exec o.sched = .ok (o'.sched, events)) ∧
    o'.owner = o.ownerAfter label.1 ∧ label.2 = o.killed label.1

def kills (labels : List (Op μ × List Kill)) : List Kill :=
  labels.flatMap Prod.snd

def GoneOnce (o : Owned μ) (pid : Int) (ref : Nat) : Prop :=
  ∀ first killed, KillStep o (.sysKill pid, killed) first →
    ∀ labels last, Run KillStep first labels last →
      last.sched.running ≠ some ref ∧
      (killed ++ kills labels).countP (fun kill => kill.stack = o.owner ref) = 1 ∧
      (killed ++ kills labels).countP (fun kill => kill.ref = ref) = 1 ∧
      ((killed ++ kills labels).filter (fun kill => kill.ref = ref)).filterMap Kill.told =
        ((o.sched.searchByPid (o.sched.pcb ref).ppid).map Prod.snd).toList

structure Tidy (o : Owned μ) : Prop where
  accounted : Accounted o.sched.toPlacement
  owner_le : ∀ ref, o.owner ref ≤ ref
  owner_new : ∀ ref, o.sched.nextPcb ≤ ref → o.owner ref = ref

namespace Tidy

variable {o o' : Owned μ} {label : Op μ × List Kill}

theorem init (pcb : Nat → PCB μ) (testTotal : Nat) : Tidy (Owned.init pcb testTotal) where
  accounted := ⟨[], Ledger.init pcb testTotal⟩
  owner_le _ := Nat.le_refl _
  owner_new _ _ := rfl

theorem lt_nextPcb (tidy : Tidy o) {ref : Nat} (placed : ref ∈ o.sched.placed) :
    ref < o.sched.nextPcb := by
  obtain ⟨events, ledger⟩ := tidy.accounted
  exact ledger.lt_nextPcb placed

theorem ownerAfter_cases (o : Owned μ) (op : Op μ) (ref : Nat) :
    o.ownerAfter op ref = o.owner ref ∨
      ∃ stack current, op = .clone (.thread stack) ∧ o.sched.running = some current ∧
        ref = o.sched.nextPcb ∧ o.ownerAfter op ref = o.owner current := by
  unfold Owned.ownerAfter
  split
  next stack =>
    cases running_eq : o.sched.running with
    | none => exact .inl rfl
    | some current =>
      by_cases new : ref = o.sched.nextPcb
      · exact .inr ⟨stack, current, rfl, rfl, new, by rw [new]; exact Function.update_self ..⟩
      · exact .inl (Function.update_of_ne new ..)
  · exact .inl rfl

theorem step (tidy : Tidy o) (stepped : KillStep o label o') : Tidy o' := by
  obtain ⟨⟨events, exec_eq⟩, owner_eq, _⟩ := stepped
  obtain ⟨before, ledger⟩ := tidy.accounted
  have sched_step : Step o.sched (label.1, events) o'.sched := exec_eq
  have grows := ledger.nextPcb_le_of_step sched_step
  refine ⟨⟨_, ledger.step sched_step⟩, ?_, ?_⟩
  · intro ref
    rw [owner_eq]
    rcases ownerAfter_cases o label.1 ref with same | ⟨stack, current, _, running_eq, new, owned⟩
    · rw [same]
      exact tidy.owner_le ref
    · have current_lt := ledger.lt_nextPcb (show current ∈ o.sched.placed by
        simp [Placement.placed, running_eq])
      have := tidy.owner_le current
      omega
  · intro ref bound
    rw [owner_eq]
    rcases ownerAfter_cases o label.1 ref with same | ⟨stack, current, isClone, running_eq, new, _⟩
    · rw [same]
      exact tidy.owner_new ref (by omega)
    · rw [isClone] at exec_eq
      have := (Scheduler.clone_pushed running_eq exec_eq).2.2.2.1
      omega

theorem of_run {pcb : Nat → PCB μ} {testTotal : Nat} {labels : List (Op μ × List Kill)}
    (run : Run KillStep (Owned.init pcb testTotal) labels o) : Tidy o :=
  run.invariant (fun tidy stepped => tidy.step stepped) (Tidy.init pcb testTotal)

end Tidy

structure Vanished (ref : Nat) (owner : Nat) (o : Owned μ) : Prop where
  tidy : Tidy o
  made : ref < o.sched.nextPcb
  owner_le : owner ≤ ref
  absent : ref ∉ o.sched.placed
  apart : ∀ other ∈ o.sched.placed, o.owner other ≠ owner

namespace Vanished

variable {o o' : Owned μ} {label : Op μ × List Kill} {ref owner : Nat}

theorem step (vanished : Vanished ref owner o) (stepped : KillStep o label o') :
    Vanished ref owner o' := by
  have tidy' := vanished.tidy.step stepped
  obtain ⟨⟨events, exec_eq⟩, owner_eq, _⟩ := stepped
  obtain ⟨before, ledger⟩ := vanished.tidy.accounted
  have sched_step : Step o.sched (label.1, events) o'.sched := exec_eq
  refine ⟨tidy', ?_, vanished.owner_le, ?_, ?_⟩
  · exact vanished.made.trans_le (ledger.nextPcb_le_of_step sched_step)
  · exact ledger.not_placed_of_step sched_step vanished.made vanished.absent
  · intro other placed
    rw [owner_eq]
    rcases Tidy.ownerAfter_cases o label.1 other with same | ⟨_, current, _, running_eq, _, owned⟩
    · rw [same]
      by_cases old : other < o.sched.nextPcb
      · refine vanished.apart other ?_
        by_contra absent
        exact ledger.not_placed_of_step sched_step old absent placed
      · rw [vanished.tidy.owner_new other (by omega)]
        have := vanished.made
        have := vanished.owner_le
        omega
    · rw [owned]
      exact vanished.apart current (by simp [Placement.placed, running_eq])

theorem target_placed {s : Scheduler μ} {op : Op μ} {target : Nat}
    (target_eq : Owned.target s op = some target) : target ∈ s.placed := by
  cases op with
  | exitProcess exitRet => simp [Placement.placed, show s.running = some target from target_eq]
  | sysKill pid =>
    obtain ⟨⟨place, found⟩, search_eq, rfl⟩ := Option.map_eq_some_iff.1 target_eq
    exact s.mem_placed_of_searchByPid search_eq
  | _ => cases target_eq

theorem killed (vanished : Vanished ref owner o) (op : Op μ) :
    ∀ kill ∈ o.killed op, kill.stack ≠ owner ∧ kill.ref ≠ ref := by
  intro kill killMem
  obtain ⟨target, targetMem, rfl⟩ := mem_map.1 killMem
  have placed := target_placed (Option.mem_toList.1 targetMem)
  exact ⟨vanished.apart target placed, fun same => vanished.absent (same ▸ placed)⟩

theorem run {labels : List (Op μ × List Kill)} (vanished : Vanished ref owner o)
    (run : Run KillStep o labels o') :
    Vanished ref owner o' ∧ ∀ kill ∈ kills labels, kill.stack ≠ owner ∧ kill.ref ≠ ref := by
  induction run with
  | nil => exact ⟨vanished, by simp [kills]⟩
  | @snoc labels label middle target earlier last ih =>
    obtain ⟨before, none⟩ := ih
    refine ⟨before.step last, ?_⟩
    intro kill killMem
    simp only [kills, flatMap_append, flatMap_cons, flatMap_nil, append_nil, mem_append] at killMem
    rcases killMem with earlier | now
    · exact none kill earlier
    · rw [last.2.2] at now
      exact before.killed label.1 kill now

end Vanished

theorem kills_found {o : Owned μ} {pid : Int} {place : Place} {ref : Nat}
    (found : o.sched.searchByPid pid = some (place, ref)) :
    o.killed (.sysKill pid) =
      [{ ref := ref
         stack := o.owner ref
         told := (o.sched.searchByPid (o.sched.pcb ref).ppid).map Prod.snd }] := by
  simp [Owned.killed, Owned.target, found]

theorem vanished_of_sysKill {o first : Owned μ} (tidy : Tidy o) {pid : Int} {place : Place} {ref : Nat}
    (found : o.sched.searchByPid pid = some (place, ref)) (notRunning : o.sched.running ≠ some ref)
    (alone : ∀ other ∈ o.sched.placed, other ≠ ref → o.owner other ≠ o.owner ref)
    {killed : List Kill} (stepped : KillStep o (.sysKill pid, killed) first) :
    Vanished ref (o.owner ref) first := by
  have tidy' := tidy.step stepped
  obtain ⟨⟨events, exec_eq⟩, owner_eq, _⟩ := stepped
  have placed := o.sched.mem_placed_of_searchByPid found
  have inPlace := (o.sched.mem_of_searchByPid found).2
  have kill_eq := exec_eq
  obtain ⟨isGone, nextPcb_eq⟩ : (made events = [] ∧ gone events = [ref]) ∧ first.sched.nextPcb = o.sched.nextPcb := by
    simp only [Op.exec, Scheduler.sysKill, found] at kill_eq
    cases place with
    | running => exact absurd inPlace notRunning
    | runnable | blocked =>
      obtain ⟨sched_eq, rfl⟩ := Prod.mk.inj (Except.ok.inj kill_eq)
      rw [← sched_eq]
      simp [Event.made, Event.gone, Scheduler.notifyParent]
  obtain ⟨absent, shrinks⟩ := tidy.accounted.not_placed_of_gone _ exec_eq isGone.1 isGone.2
  refine ⟨tidy', nextPcb_eq ▸ tidy.lt_nextPcb placed, tidy.owner_le ref, ?_, ?_⟩
  · exact absent
  · intro other otherPlaced
    rw [owner_eq]
    exact alone other (shrinks other otherPlaced) fun same => absent (same ▸ otherPlaced)

theorem sysKill_ok (s : Scheduler μ) (pid : Int) :
    ∃ result, (Op.sysKill pid).exec s = .ok result := by
  simp only [Op.exec, Scheduler.sysKill]
  split <;> exact ⟨_, rfl⟩

theorem found_of_sysKill {o : Owned μ} (tidy : Tidy o) {pid : Int} {place : Place} {ref : Nat}
    (found : o.sched.searchByPid pid = some (place, ref)) {s' : Scheduler μ} {events : List Event}
    (kill_eq : (Op.sysKill pid).exec o.sched = .ok (s', events)) {other : Nat}
    (placed : other ∈ o.sched.placed) (different : other ≠ ref) :
    ∃ place, s'.searchByPid (other + 2) = some (place, other) := by
  obtain ⟨before, ledger⟩ := tidy.accounted
  have after := ledger.step (show Step o.sched (.sysKill pid, events) s' from kill_eq)
  have reported : gone events ⊆ [ref] := by
    simp only [Op.exec, Scheduler.sysKill, found] at kill_eq
    cases place <;> cases kill_eq <;> simp [gone, Event.gone]
  refine after.searchByPid_of_placed ((after.mem_placed_iff other).2 ?_)
  obtain ⟨isMade, notGone⟩ := (ledger.mem_placed_iff other).1 placed
  simp only [made_append, gone_append, mem_append, not_or]
  exact ⟨.inl isMade, notGone, fun isGone => different (mem_singleton.1 (reported isGone))⟩

theorem sysKill_running {s s' : Scheduler μ} {pid : Int} {events : List Event}
    (kill_eq : (Op.sysKill pid).exec s = .ok (s', events)) : s'.running = s.running := by
  simp only [Op.exec, Scheduler.sysKill] at kill_eq
  split at kill_eq <;> cases kill_eq <;> simp [Scheduler.notifyParent]

/-- A kill gets rid of its target once exactly when the target is not the
caller and shares its stack page with no other process. -/
theorem goneOnce_iff_of_run {pcb : Nat → PCB μ} {testTotal : Nat} {labels : List (Op μ × List Kill)}
    {o : Owned μ} (run : Run KillStep (Owned.init pcb testTotal) labels o) {pid : Int} {place : Place}
    {ref : Nat} (found : o.sched.searchByPid pid = some (place, ref)) :
    GoneOnce o pid ref ↔
      o.sched.running ≠ some ref ∧
        ∀ other ∈ o.sched.placed, other ≠ ref → o.owner other ≠ o.owner ref := by
  have tidy := Tidy.of_run run
  have first_kill := kills_found found
  constructor
  · intro goneOnce
    obtain ⟨⟨first, events⟩, kill_eq⟩ := sysKill_ok o.sched pid
    have stepped : KillStep o (.sysKill pid, o.killed (.sysKill pid)) ⟨first, o.owner⟩ :=
      ⟨⟨events, kill_eq⟩, rfl, rfl⟩
    constructor
    · -- The caller itself goes on running.
      intro running_eq
      refine (goneOnce _ _ stepped [] _ .nil).1 ?_
      change first.running = some ref
      rw [sysKill_running kill_eq, running_eq]
    · intro other placed different same
      -- Killing the other owner pushes the page again.
      obtain ⟨otherPlace, foundOther⟩ := found_of_sysKill tidy found kill_eq placed different
      obtain ⟨⟨second, more⟩, again_eq⟩ := sysKill_ok first ((other : Int) + 2)
      have again : KillStep ⟨first, o.owner⟩
          (.sysKill (other + 2), Owned.killed ⟨first, o.owner⟩ (.sysKill (other + 2)))
          ⟨second, o.owner⟩ := ⟨⟨more, again_eq⟩, rfl, rfl⟩
      have twice := (goneOnce _ _ stepped _ _ (Run.nil.snoc again)).2.1
      have second_kill := @kills_found _ ⟨first, o.owner⟩ _ _ _ foundOther
      simp only [kills, nil_append, flatMap_cons, flatMap_nil, append_nil] at twice
      rw [first_kill, second_kill] at twice
      simp [same] at twice
  · rintro ⟨notRunning, alone⟩ first killed stepped labels last rest
    have vanished := vanished_of_sysKill tidy found notRunning alone stepped
    obtain ⟨after, none⟩ := vanished.run rest
    have killed_eq : killed = o.killed (.sysKill pid) := stepped.2.2
    have noStack : (kills labels).countP (fun kill => kill.stack = o.owner ref) = 0 :=
      countP_eq_zero.2 fun kill killMem => by simpa using (none kill killMem).1
    have noRef : (kills labels).filter (fun kill => kill.ref = ref) = [] :=
      filter_eq_nil_iff.2 fun kill killMem => by simpa using (none kill killMem).2
    refine ⟨?_, ?_, ?_, ?_⟩
    · intro running_eq
      exact after.absent (by simp [Placement.placed, running_eq])
    · rw [killed_eq, first_kill, countP_append, noStack]
      simp
    · rw [killed_eq, first_kill, countP_eq_length_filter, filter_append, noRef]
      simp
    · rw [killed_eq, first_kill, filter_append, noRef]
      generalize (o.sched.searchByPid (o.sched.pcb ref).ppid).map Prod.snd = parent
      cases parent <;> simp

theorem twoTests_run :
    ∃ (labels : List (Op Unit × List Kill)) (o : Owned Unit),
      Run KillStep (Owned.init noBlocks 2) labels o ∧ o.sched.running = some 0 ∧
        o.sched.runnable = [1] ∧ o.sched.blocked = [] ∧ o.owner = id ∧
        o.sched.searchByPid 2 = some (.running, 0) ∧ o.sched.searchByPid 3 = some (.runnable, 1) := by
  let program : Program Unit := ⟨0x80100000, (), {}⟩
  obtain ⟨first, second, third, events₁, events₂, events₃, eq₁, eq₂, eq₃, running_eq, runnable_eq,
      blocked_eq, found₂, found₃⟩ : ∃ first second third events₁ events₂ events₃,
      (Op.createProcess program).exec (Scheduler.init noBlocks 2) = .ok (first, events₁) ∧
      (Op.createProcess program).exec first = .ok (second, events₂) ∧
      (Op.schedule program).exec second = .ok (third, events₃) ∧
      third.running = some 0 ∧ third.runnable = [1] ∧ third.blocked = [] ∧
      third.searchByPid 2 = some (.running, 0) ∧ third.searchByPid 3 = some (.runnable, 1) :=
    ⟨_, _, _, _, _, _, rfl, rfl, rfl, rfl, rfl, rfl, rfl, rfl⟩
  have step₁ : KillStep (Owned.init noBlocks 2) (.createProcess program, []) ⟨first, id⟩ :=
    ⟨⟨events₁, eq₁⟩, rfl, rfl⟩
  have step₂ : KillStep ⟨first, id⟩ (.createProcess program, []) ⟨second, id⟩ :=
    ⟨⟨events₂, eq₂⟩, rfl, rfl⟩
  have step₃ : KillStep ⟨second, id⟩ (.schedule program, []) ⟨third, id⟩ := ⟨⟨events₃, eq₃⟩, rfl, rfl⟩
  exact ⟨_, ⟨third, id⟩, ((Run.nil.snoc step₁).snoc step₂).snoc step₃, running_eq, runnable_eq,
    blocked_eq, rfl, found₂, found₃⟩

theorem goneOnce_of_other : ∃ o : Owned Unit, o.sched.running = some 0 ∧ GoneOnce o 3 1 := by
  obtain ⟨labels, o, run, running_eq, runnable_eq, blocked_eq, owner_eq, _, found⟩ := twoTests_run
  refine ⟨o, running_eq, (goneOnce_iff_of_run run found).2 ⟨by rw [running_eq]; decide, ?_⟩⟩
  rw [owner_eq]
  exact fun other _ different => different

theorem not_goneOnce_of_self :
    ∃ (labels : List (Op Unit × List Kill)) (o : Owned Unit),
      Run KillStep (Owned.init noBlocks 2) labels o ∧
        o.sched.searchByPid 2 = some (.running, 0) ∧ ¬ GoneOnce o 2 0 := by
  obtain ⟨labels, o, run, running_eq, _, _, _, found, _⟩ := twoTests_run
  refine ⟨labels, o, run, found, fun goneOnce => ?_⟩
  obtain ⟨⟨first, events⟩, kill_eq⟩ := sysKill_ok o.sched 2
  have stepped : KillStep o (.sysKill 2, o.killed (.sysKill 2)) ⟨first, o.owner⟩ :=
    ⟨⟨events, kill_eq⟩, rfl, rfl⟩
  refine (goneOnce _ _ stepped [] _ .nil).1 ?_
  change first.running = some 0
  rw [sysKill_running kill_eq, running_eq]

end SysCore.Sched
