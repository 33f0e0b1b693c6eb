import SysCore.Sched.Moves
import Mathlib.Data.List.Range
import Mathlib.Data.List.Count
import Mathlib.Data.List.Nodup
import Mathlib.Data.List.Perm.Basic

/-!
# Every process is in exactly one place

The events of a run say which blocks were made and which are gone.  The ledger
of a run balances: the placed blocks and the gone ones together are a
permutation of the blocks made, and those were made in the order of their
pointers.  Uniqueness of the place, absence of dead blocks and uniqueness of
pids all follow from that.
-/

namespace SysCore.Sched

open Transition List

variable {μ : Type} {ref : Nat} {block : PCB μ} {s s' : Scheduler μ} {events : List Event}
  {p q : Placement μ}

def Step (s : Scheduler μ) (label : Op μ × List Event) (s' : Scheduler μ) : Prop :=
  label.1.exec s = .ok (s', label.2)

def trace (labels : List (Op μ × List Event)) : List Event :=
  labels.flatMap Prod.snd

@[simp]
theorem trace_nil : trace ([] : List (Op μ × List Event)) = [] := rfl

@[simp]
theorem trace_snoc (labels : List (Op μ × List Event)) (label : Op μ × List Event) :
    trace (labels ++ [label]) = trace labels ++ label.2 := by
  simp [trace]

def execAll (s : Scheduler μ) :
    List (Op μ) → Outcome (List (Op μ × List Event) × Scheduler μ)
  | [] => .ok ([], s)
  | op :: ops => do
    let (s₁, events) ← op.exec s
    let (labels, s₂) ← execAll s₁ ops
    return ((op, events) :: labels, s₂)

theorem run_of_execAll {start s t : Scheduler μ} {ops : List (Op μ)}
    {labels more : List (Op μ × List Event)} (run : Run Step start labels s)
    (exec_eq : execAll s ops = .ok (more, t)) : Run Step start (labels ++ more) t := by
  induction ops generalizing labels more s with
  | nil =>
    cases exec_eq
    simpa using run
  | cons op ops ih =>
    obtain ⟨⟨s₁, events⟩, step_eq, rest_eq⟩ := bind_eq_ok.1 exec_eq
    obtain ⟨⟨rest, s₂⟩, tail_eq, result_eq⟩ := bind_eq_ok.1 rest_eq
    cases result_eq
    have stepped : Step s (op, events) s₁ := step_eq
    simpa using ih (run.snoc stepped) tail_eq

def Event.made : Event → Option Nat
  | .create pcb => some pcb
  | .clone _ child => some child
  | _ => none

def Event.gone : Event → Option Nat
  | .exit pcb _ _ => some pcb
  | .removed pcb => some pcb
  | _ => none

def made (events : List Event) : List Nat :=
  events.filterMap Event.made

def gone (events : List Event) : List Nat :=
  events.filterMap Event.gone

@[simp]
theorem made_nil : made [] = [] := rfl

@[simp]
theorem gone_nil : gone [] = [] := rfl

@[simp]
theorem made_cons (event : Event) (events : List Event) :
    made (event :: events) = event.made.toList ++ made events := by
  cases event <;> rfl

@[simp]
theorem gone_cons (event : Event) (events : List Event) :
    gone (event :: events) = event.gone.toList ++ gone events := by
  cases event <;> rfl

@[simp]
theorem made_append (first second : List Event) :
    made (first ++ second) = made first ++ made second :=
  filterMap_append

@[simp]
theorem gone_append (first second : List Event) :
    gone (first ++ second) = gone first ++ gone second :=
  filterMap_append

theorem made_gone_of_store {store : List Event}
    (stores : ∀ event ∈ store, ∃ address status, event = .storeStatus address status) :
    made store = [] ∧ gone store = [] := by
  constructor <;> refine filterMap_eq_nil_iff.2 fun event eventMem => ?_ <;>
    obtain ⟨_, _, rfl⟩ := stores event eventMem <;> rfl

theorem Placement.field_setPcb {α : Type} (field : PCB μ → α) (p : Placement μ)
    (field_eq : field block = field (p.pcb ref)) (other : Nat) :
    field ((p.setPcb ref block).pcb other) = field (p.pcb other) := by
  by_cases same : other = ref
  · subst same
    simpa using field_eq
  · simp [same]

theorem Placement.field_notifyParent {α : Type} (field : PCB μ → α)
    (unread : ∀ block signals, field { block with signalList := signals } = field block)
    (p : Placement μ) (ref : Nat) (exitRet : Int) (other : Nat) :
    field ((p.notifyParent ref exitRet).pcb other) = field (p.pcb other) := by
  obtain kept | ⟨_, parent, _, told⟩ := p.notifyParent_eq ref exitRet
  · rw [kept]
  · rw [told]
    exact p.field_setPcb field (unread _ _) other

theorem Placement.pid_notifyParent (p : Placement μ) (ref : Nat) (exitRet : Int) (other : Nat) :
    ((p.notifyParent ref exitRet).pcb other).pid = (p.pcb other).pid :=
  p.field_notifyParent PCB.pid (fun _ _ => rfl) ref exitRet other

structure Ledger (events : List Event) (p : Placement μ) : Prop where
  made_eq : made events = List.range p.nextPcb
  balance : (p.placed ++ gone events).Perm (List.range p.nextPcb)
  counter : p.globalPid = p.nextPcb + 1
  pid_eq : ∀ ref < p.nextPcb, (p.pcb ref).pid = ref + 2

namespace Ledger

variable {events : List Event} {p : Placement μ} {ref : Nat} {more : List Event} {q : Placement μ}

section

variable (ledger : Ledger events p)
include ledger

theorem nodup : (p.placed ++ gone events).Nodup :=
  ledger.balance.nodup_iff.2 nodup_range

theorem lt_nextPcb (placed : ref ∈ p.placed) : ref < p.nextPcb :=
  mem_range.1 (ledger.balance.subset (mem_append_left _ placed))

theorem mem_placed_iff (ref : Nat) : ref ∈ p.placed ↔ ref ∈ made events ∧ ref ∉ gone events := by
  rw [ledger.made_eq, ← ledger.balance.mem_iff, mem_append]
  have apart := (nodup_append.1 ledger.nodup).2.2
  constructor
  · exact fun placed => ⟨.inl placed, fun isGone => apart ref placed ref isGone rfl⟩
  · rintro ⟨placed | isGone, notGone⟩
    · exact placed
    · exact absurd isGone notGone

theorem eq_of_pid_eq {first second : Nat} (firstPlaced : first ∈ p.placed)
    (secondPlaced : second ∈ p.placed) (pid_eq : (p.pcb first).pid = (p.pcb second).pid) :
    first = second := by
  rw [ledger.pid_eq first (ledger.lt_nextPcb firstPlaced),
    ledger.pid_eq second (ledger.lt_nextPcb secondPlaced)] at pid_eq
  omega

theorem searchByPid_of_placed (placed : ref ∈ p.placed) :
    ∃ place, p.searchByPid (ref + 2) = some (place, ref) := by
  have pid_eq := ledger.pid_eq ref (ledger.lt_nextPcb placed)
  cases search_eq : p.searchByPid (ref + 2) with
  | none => exact absurd pid_eq (p.searchByPid_eq_none_iff.1 search_eq ref placed)
  | some result =>
    obtain ⟨place, found⟩ := result
    have foundPid := (p.mem_of_searchByPid search_eq).1
    have found_eq : found = ref :=
      ledger.eq_of_pid_eq (p.mem_placed_of_searchByPid search_eq) placed
        (foundPid.trans pid_eq.symm)
    exact ⟨place, by rw [found_eq]⟩

theorem searchByPid_of_not_placed (absent : ref ∉ p.placed) : p.searchByPid (ref + 2) = none := by
  refine p.searchByPid_eq_none_iff.2 fun other placed same => absent ?_
  rw [ledger.pid_eq other (ledger.lt_nextPcb placed)] at same
  obtain rfl : other = ref := by omega
  exact placed

theorem rearrange (pids : ∀ ref, (q.pcb ref).pid = (p.pcb ref).pid) (nextPcb_eq : q.nextPcb = p.nextPcb)
    (globalPid_eq : q.globalPid = p.globalPid) (noneMade : made more = [])
    (moved : (q.placed ++ gone more).Perm p.placed) : Ledger (events ++ more) q where
  made_eq := by simp [noneMade, nextPcb_eq, ledger.made_eq]
  balance := by
    rw [nextPcb_eq]
    refine .trans ?_ ledger.balance
    have swapped : (q.placed ++ gone (events ++ more)).Perm
        (q.placed ++ gone more ++ gone events) := by
      have comm : (gone events ++ gone more).Perm (gone more ++ gone events) := perm_append_comm
      simpa using comm.append_left q.placed
    exact swapped.trans (moved.append_right _)
  counter := by rw [globalPid_eq, nextPcb_eq, ledger.counter]
  pid_eq := by simpa [pids, nextPcb_eq] using ledger.pid_eq

theorem pushNew {block : PCB μ} {event : Event} (pids : ∀ ref, (q.pcb ref).pid = (p.pcb ref).pid)
    (placed_eq : q.placed = p.placed) (nextPcb_eq : q.nextPcb = p.nextPcb)
    (pid_eq : block.pid = p.globalPid + 1) (made_eq : event.made = some p.nextPcb)
    (gone_eq : event.gone = none) :
    Ledger (events ++ [event]) { q.pushNew block with globalPid := p.globalPid + 1 } where
  made_eq := by
    simp [made_eq, nextPcb_eq, range_succ, ← ledger.made_eq]
  balance := by
    have kept := ledger.balance
    rw [perm_iff_count, ← placed_eq] at kept
    refine perm_iff_count.2 fun ref => ?_
    have kept := kept ref
    simp [Placement.placed, gone_eq, nextPcb_eq, range_succ, count_cons] at kept ⊢
    omega
  counter := by
    simp [nextPcb_eq, ledger.counter]
  pid_eq ref bound := by
    simp only [Placement.pushNew_nextPcb, nextPcb_eq] at bound
    by_cases new : ref = p.nextPcb
    · subst new
      simp [pid_eq, nextPcb_eq, ledger.counter]
      omega
    · simpa [new, nextPcb_eq, pids] using ledger.pid_eq ref (by omega)

theorem move (moved : Move p more q) : Ledger (events ++ more) q := by
  cases moved with
  | create pid_eq _ _ => exact ledger.pushNew (fun _ => rfl) rfl rfl pid_eq rfl rfl
  | clone _ pid_eq _ _ => exact ledger.pushNew (p.field_setPcb PCB.pid (by rfl)) rfl rfl pid_eq rfl rfl
  | park running_eq =>
    refine ledger.rearrange (p.field_setPcb PCB.pid (by rfl)) rfl rfl rfl (perm_iff_count.2 ?_)
    simp [Placement.placed, running_eq, count_cons]
    omega
  | collect _ _ => exact ledger.rearrange (p.field_setPcb PCB.pid (by rfl)) rfl rfl rfl (by simp [Placement.placed, Event.gone])
  | block running_eq _ =>
    refine ledger.rearrange (p.field_setPcb PCB.pid (by rfl)) rfl rfl rfl (perm_iff_count.2 ?_)
    simp [Placement.placed, running_eq, count_cons]
    omega
  | exit exitRet running_eq =>
    refine ledger.rearrange (p.pid_notifyParent _ _) (by simp) (by simp) rfl (perm_iff_count.2 ?_)
    simp [Placement.placed, Event.gone, running_eq, count_cons]
    omega
  | pick idle runnable_eq =>
    refine ledger.rearrange (fun _ => rfl) rfl rfl rfl ?_
    simp [Placement.placed, idle, runnable_eq]
  | wake idle blockedMem _ stores =>
    obtain ⟨noneMade, noneGone⟩ := made_gone_of_store stores
    refine ledger.rearrange (p.field_setPcb PCB.pid (by rfl)) rfl rfl noneMade ?_
    have kept := (perm_cons_erase blockedMem).symm.append_left p.runnable
    simpa [Placement.placed, Event.gone, noneGone, idle] using perm_middle.symm.trans kept

theorem removal (removed : Removal p more q) : Ledger (events ++ more) q := by
  cases removed with
  | running _ =>
    exact ledger.rearrange (p.pid_notifyParent _ _) (by simp) (by simp) rfl
      (by simp [Placement.placed])
  | runnable runnableMem =>
    refine ledger.rearrange (p.pid_notifyParent _ _) (by simp) (by simp) rfl
      (perm_iff_count.2 fun other => ?_)
    have kept := (perm_cons_erase runnableMem).count_eq other
    simp [Placement.placed, Event.gone, count_cons] at kept ⊢
    omega
  | blocked blockedMem =>
    refine ledger.rearrange (p.pid_notifyParent _ _) (by simp) (by simp) rfl
      (perm_iff_count.2 fun other => ?_)
    have kept := (perm_cons_erase blockedMem).count_eq other
    simp [Placement.placed, Event.gone, count_cons] at kept ⊢
    omega

end

theorem init (pcb : Nat → PCB μ) (testTotal : Nat) :
    Ledger [] (Scheduler.init pcb testTotal).toPlacement where
  made_eq := rfl
  balance := .nil
  counter := rfl
  pid_eq ref bound := absurd bound (Nat.not_lt_zero ref)

theorem step {s s' : Scheduler μ} (ledger : Ledger events s.toPlacement) {label : Op μ × List Event}
    (stepped : Step s label s') : Ledger (events ++ label.2) s'.toPlacement := by
  rcases Scheduler.exec_moves stepped with moves | ⟨_, removed⟩
  · exact Moves.preserve Ledger (fun ledger moved => ledger.move moved) moves ledger
  · exact ledger.removal removed

theorem of_run {pcb : Nat → PCB μ} {testTotal : Nat} {labels : List (Op μ × List Event)}
    {s : Scheduler μ} (run : Run Step (Scheduler.init pcb testTotal) labels s) :
    Ledger (trace labels) s.toPlacement := by
  refine Run.history (fun labels (s : Scheduler μ) => Ledger (trace labels) s.toPlacement) ?_ run
    (Ledger.init pcb testTotal)
  intro labels label source target ledger stepped
  simpa using ledger.step stepped

end Ledger

def Accounted (p : Placement μ) : Prop :=
  ∃ events, Ledger events p

theorem Accounted.exec (accounted : Accounted s.toPlacement) (op : Op μ)
    (exec_eq : op.exec s = .ok (s', events)) : Accounted s'.toPlacement := by
  obtain ⟨before, ledger⟩ := accounted
  exact ⟨before ++ events, ledger.step (show Step s (op, events) s' from exec_eq)⟩

theorem Accounted.setPcb (accounted : Accounted p) (pid_eq : block.pid = (p.pcb ref).pid) :
    Accounted (p.setPcb ref block) := by
  obtain ⟨before, ledger⟩ := accounted
  refine ⟨before ++ [], ledger.rearrange (p.field_setPcb PCB.pid pid_eq) rfl rfl rfl ?_⟩
  simp [Placement.placed]

theorem Ledger.not_placed_of_step (ledger : Ledger events s.toPlacement) {label : Op μ × List Event}
    (stepped : Step s label s') (made_lt : ref < s.nextPcb) (absent : ref ∉ s.placed) :
    ref ∉ s'.placed := by
  have isGone : ref ∈ gone events := by
    by_contra notGone
    refine absent ((ledger.mem_placed_iff ref).2 ⟨?_, notGone⟩)
    rw [ledger.made_eq]
    exact mem_range.2 made_lt
  intro placed
  apply (((ledger.step stepped).mem_placed_iff ref).1 placed).2
  rw [gone_append]
  exact mem_append_left _ isGone

theorem Ledger.nextPcb_le_of_step (ledger : Ledger events s.toPlacement) {label : Op μ × List Event}
    (stepped : Step s label s') : s.nextPcb ≤ s'.nextPcb := by
  have before := congrArg List.length ledger.made_eq
  have after := congrArg List.length (ledger.step stepped).made_eq
  rw [length_range] at before after
  rw [made_append, length_append] at after
  omega

theorem Ledger.placed_perm {before : List Event} (ledger : Ledger before p)
    (after : Ledger (before ++ events) q) : (q.placed ++ gone events).Perm (p.placed ++ made events) := by
  refine perm_iff_count.2 fun ref => ?_
  have old := ledger.balance.count_eq ref
  have new := after.balance.count_eq ref
  rw [← ledger.made_eq] at old
  rw [← after.made_eq] at new
  simp only [made_append, gone_append, count_append] at old new ⊢
  omega

theorem Accounted.not_placed_of_gone (accounted : Accounted s.toPlacement) (op : Op μ)
    (exec_eq : op.exec s = .ok (s', events)) (noneMade : made events = []) (isGone : gone events = [ref]) :
    ref ∉ s'.placed ∧ ∀ other ∈ s'.placed, other ∈ s.placed := by
  obtain ⟨before, ledger⟩ := accounted
  have after := ledger.step (show Step s (op, events) s' from exec_eq)
  have perm := ledger.placed_perm after
  have distinct := after.nodup
  rw [noneMade, isGone, append_nil] at perm
  rw [gone_append, isGone, ← append_assoc] at distinct
  constructor
  · intro placed
    exact (nodup_append.1 distinct).2.2 ref (mem_append_left _ placed) ref (mem_singleton_self ref) rfl
  · exact fun other placed => perm.mem_iff.1 (mem_append_left _ placed)

def Untouched {α : Type} (field : PCB μ → α) : Prop :=
  ∀ (block : PCB μ) (context : Context) (signals : List (Int × Int)) (waitPid wstatus : Nat),
    field { block with threadContext := context, signalList := signals, waitPid := waitPid,
                       wstatus := wstatus } = field block

section Untouched

variable {α : Type} {field : PCB μ → α} (untouched : Untouched field)
include untouched

theorem Untouched.notifyParent (p : Placement μ) (ref : Nat) (exitRet : Int) (other : Nat) :
    field ((p.notifyParent ref exitRet).pcb other) = field (p.pcb other) :=
  p.field_notifyParent field
    (fun block signals => untouched block block.threadContext signals block.waitPid block.wstatus)
    ref exitRet other

theorem Untouched.move (moved : Move p events q) (ref : Nat) :
    (ref = p.nextPcb ∧ ref ∈ made events) ∨ field (q.pcb ref) = field (p.pcb ref) := by
  cases moved with
  | create _ _ _ =>
    by_cases new : ref = p.nextPcb
    · exact .inl (by simp [new, Event.made])
    · exact .inr (by simp [new])
  | @clone other context block _ _ _ _ =>
    have kept := p.field_setPcb field (untouched (p.pcb other) context (p.pcb other).signalList
      (p.pcb other).waitPid (p.pcb other).wstatus) ref
    by_cases new : ref = p.nextPcb
    · exact .inl (by simp [new, Event.made])
    · exact .inr (by simpa [new] using kept)
  | pick _ _ => exact .inr rfl
  | @exit other exitRet _ => exact .inr (untouched.notifyParent p other exitRet ref)
  | wake _ _ _ _ | collect _ _ | park _ | block _ _ =>
    exact .inr (p.field_setPcb field (untouched _ _ _ _ _) ref)

theorem Untouched.removal (removed : Removal p events q) (ref : Nat) :
    field (q.pcb ref) = field (p.pcb ref) := by
  cases removed <;> exact untouched.notifyParent p _ 1 ref

end Untouched

structure Quiet (p q : Placement μ) : Prop where
  nextPcb_eq : q.nextPcb = p.nextPcb
  placed : ∀ ref ∈ q.placed, ref ∈ p.placed
  managers_eq : ∀ ref, (q.pcb ref).managers = (p.pcb ref).managers
  stack_eq : ∀ ref, (q.pcb ref).stack = (p.pcb ref).stack

theorem Move.nextPcb_eq (moved : Move p events q) : q.nextPcb = p.nextPcb + (made events).length := by
  cases moved with
  | wake _ _ _ stores => simp [Event.made, (made_gone_of_store stores).1]
  | _ => simp [Event.made]

theorem Move.quiet (moved : Move p events q) (accounted : Accounted p) (noneMade : made events = []) :
    Quiet p q := by
  obtain ⟨before, ledger⟩ := accounted
  have kept : ∀ {α : Type} {field : PCB μ → α}, Untouched field → ∀ ref, field (q.pcb ref) = field (p.pcb ref) :=
    fun untouched ref => (untouched.move moved ref).resolve_left (by simp [noneMade])
  refine ⟨by rw [moved.nextPcb_eq, noneMade, length_nil, Nat.add_zero], fun ref placed => ?_,
    kept fun _ _ _ _ _ => rfl, kept fun _ _ _ _ _ => rfl⟩
  have inBoth := (ledger.placed_perm (ledger.move moved)).mem_iff.1 (mem_append_left _ placed)
  rwa [noneMade, append_nil] at inBoth

theorem Removal.quiet (removed : Removal p events q) : Quiet p q := by
  refine ⟨by cases removed <;> simp, fun ref placed => ?_,
    Untouched.removal (fun _ _ _ _ _ => rfl) removed, Untouched.removal (fun _ _ _ _ _ => rfl) removed⟩
  cases removed with
  | running _ => simpa [Placement.placed] using placed
  | runnable _ =>
    simp only [Placement.placed, Placement.notifyParent_running, Placement.notifyParent_blocked,
      mem_append] at placed ⊢
    exact placed.imp_left (Or.imp_right mem_of_mem_erase)
  | blocked _ =>
    simp only [Placement.placed, Placement.notifyParent_running, Placement.notifyParent_runnable,
      mem_append] at placed ⊢
    exact placed.imp_right mem_of_mem_erase

theorem Scheduler.made_gone_of_dispatch (dispatched : s.dispatch = some (s', events)) :
    made events = [] ∧ gone events = [] := by
  rcases Scheduler.dispatch_cases dispatched with
    ⟨_, _, _, _, rfl⟩ | ⟨ref, record, rest, _, _, wake_eq⟩
  · exact ⟨rfl, rfl⟩
  · cases wake_eq
    dsimp only
    split <;> exact ⟨rfl, rfl⟩

theorem Move.signalList_ne_nil (moved : Move p events q) (before : ref ∈ p.blocked)
    (after : ref ∉ q.blocked) : (p.pcb ref).signalList ≠ [] := by
  cases moved with
  | @wake woken record rest _ _ _ _ list_eq _ =>
    by_cases same : ref = woken
    · subst same
      simp [list_eq]
    · exact absurd ((mem_erase_of_ne same).2 before) after
  | exit exitRet _ => exact absurd (by simpa using before) after
  | block _ _ => exact absurd (mem_append_left _ before) after
  | _ => exact absurd before after

theorem Moves.signalList_ne_nil (moves : Moves p events q) (before : ref ∈ p.blocked)
    (after : ref ∉ q.blocked) : (p.pcb ref).signalList ≠ [] := by
  cases moves with
  | none => exact absurd before after
  | one moved => exact moved.signalList_ne_nil before after
  | start empty _ _ => simp [empty] at before

theorem Removal.mem_of_leaves (removed : Removal p events q) (before : ref ∈ p.blocked)
    (after : ref ∉ q.blocked) : .removed ref ∈ events := by
  cases removed with
  | running _ => exact absurd (by simpa using before) after
  | runnable _ => exact absurd (by simpa using before) after
  | @blocked target _ =>
    by_cases same : ref = target
    · simp [same]
    · exact absurd ((mem_erase_of_ne same).2 before) after

structure PlacementInvariant (events : List Event) (s : Scheduler μ) : Prop where
  /-- A block made and not gone is in one place, once. -/
  once : ∀ ref ∈ made events, ref ∉ gone events → s.placed.count ref = 1
  /-- A block deleted or removed is in no place. -/
  nowhere : ∀ ref ∈ gone events, ref ∉ s.placed
  /-- Placed blocks have different pids. -/
  pids : (s.placed.map fun ref => (s.pcb ref).pid).Nodup
  /-- A block leaves `blocked` by `sys_kill`, or with an exit record. -/
  leaves : ∀ (op : Op μ) (s' : Scheduler μ) (more : List Event), op.exec s = .ok (s', more) →
    ∀ ref ∈ s.blocked, ref ∉ s'.blocked → .removed ref ∉ more → (s.pcb ref).signalList ≠ []

theorem placementInvariant_of_run {pcb : Nat → PCB μ} {testTotal : Nat}
    {labels : List (Op μ × List Event)} {s : Scheduler μ}
    (run : Run Step (Scheduler.init pcb testTotal) labels s) :
    PlacementInvariant (trace labels) s := by
  have ledger := Ledger.of_run run
  have unique : s.placed.Nodup := (nodup_append.1 ledger.nodup).1
  refine ⟨?_, ?_, ?_, ?_⟩
  · intro ref isMade notGone
    exact count_eq_one_of_mem unique ((ledger.mem_placed_iff ref).2 ⟨isMade, notGone⟩)
  · intro ref isGone placed
    exact ((ledger.mem_placed_iff ref).1 placed).2 isGone
  · exact List.Nodup.map_on (fun first firstPlaced second secondPlaced =>
      ledger.eq_of_pid_eq firstPlaced secondPlaced) unique
  · intro op s' more exec_eq ref before after notRemoved
    rcases Scheduler.exec_moves exec_eq with moves | ⟨_, removed⟩
    · exact moves.signalList_ne_nil before after
    · exact absurd (removed.mem_of_leaves before after) notRemoved

def noBlocks : Nat → PCB Unit := fun _ =>
  { pid := 0, ppid := 0, stack := 0, stackSize := 0, managers := (), threadContext := {} }

theorem placementInvariant_of_first_exit :
    ∃ s : Scheduler Unit, PlacementInvariant [.create 0, .exit 0 2 7] s := by
  let program : Program Unit := ⟨0x80100000, (), {}⟩
  obtain ⟨labels, s, exec_eq, trace_eq⟩ : ∃ labels s, execAll (Scheduler.init noBlocks 1)
      [.createProcess program, .schedule program, .exitProcess 7] = .ok (labels, s) ∧
      trace labels = [.create 0, .exit 0 2 7] := ⟨_, _, rfl, rfl⟩
  exact ⟨s, trace_eq ▸ placementInvariant_of_run (run_of_execAll .nil exec_eq)⟩

end SysCore.Sched
