import SysCore.Sched.Placement

/-!
# Exit records reach the parent once and in order

A `Journal` is what an outside observer writes down from the events of a run:
who cloned whom, which children of a live process exited and with what code,
and which pids `wait` returned.  It never looks at a `signal_list`.  The
scheduler's lists turn out to be exactly what the journal says is still owed.
-/

namespace SysCore.Sched

open Transition Function List

variable {μ : Type}

structure Journal where
  alive : List Nat := []
  parent : Nat → Option Nat := fun _ => none
  exits : Nat → List (Int × Int) := fun _ => []
  returned : Nat → List Int := fun _ => []

namespace Journal

def noteExit (j : Journal) (parent : Nat) (record : Int × Int) : Journal :=
  { j with exits := update j.exits parent (j.exits parent ++ [record]) }

@[simp]
def record (j : Journal) : Event → Journal
  | .create pcb => { j with alive := pcb :: j.alive }
  | .clone parent child =>
    { j with
      alive := child :: j.alive
      parent := update j.parent child (some parent) }
  | .exit pcb pid exitRet =>
    let j := { j with alive := j.alive.filter (· ≠ pcb) }
    match j.parent pcb with
    | some parent => if parent ∈ j.alive then j.noteExit parent (pid, exitRet) else j
    | none => j
  | .removed pcb => { j with alive := j.alive.filter (· ≠ pcb) }
  | .waitReturn pcb pid =>
    { j with returned := update j.returned pcb (j.returned pcb ++ [pid]) }
  | .storeStatus _ _ => j

end Journal

def journal (events : List Event) : Journal :=
  events.foldl Journal.record {}

@[simp]
theorem journal_append (events more : List Event) :
    journal (events ++ more) = more.foldl Journal.record (journal events) :=
  foldl_append

structure Delivery (j : Journal) (p : Placement μ) : Prop where
  alive_iff : ∀ ref, ref ∈ j.alive ↔ ref ∈ p.placed
  parent_lt : ∀ child parent, j.parent child = some parent → parent < child
  made : ∀ child, j.parent child ≠ none → child < p.nextPcb
  ppid_eq : ∀ child < p.nextPcb,
    (p.pcb child).ppid = (j.parent child).elim 1 fun parent => (parent : Int) + 2
  owed : ∀ ref ∈ p.placed, ∃ done,
    j.exits ref = done ++ (p.pcb ref).signalList ∧ j.returned ref = done.map Prod.fst
  returned_prefix : ∀ ref, j.returned ref <+: (j.exits ref).map Prod.fst
  fresh : ∀ ref, p.nextPcb ≤ ref → j.exits ref = [] ∧ j.returned ref = []
  exited : ∀ ref, ∀ record ∈ j.exits ref,
    ∃ child < p.nextPcb, child ∉ p.placed ∧ record.1 = (child : Int) + 2
  exits_nodup : ∀ ref, ((j.exits ref).map Prod.fst).Nodup

namespace Delivery

variable {j : Journal} {p q : Placement μ}

theorem init (pcb : Nat → PCB μ) (testTotal : Nat) :
    Delivery {} (Scheduler.init pcb testTotal).toPlacement where
  alive_iff ref := by simp [Placement.placed, Scheduler.init]
  parent_lt _ _ parent_eq := by simp at parent_eq
  made _ isChild := absurd rfl isChild
  ppid_eq child bound := absurd bound (Nat.not_lt_zero child)
  owed ref placed := by simp [Placement.placed, Scheduler.init] at placed
  returned_prefix _ := prefix_rfl
  fresh _ _ := ⟨rfl, rfl⟩
  exited _ _ recordMem := by simp at recordMem
  exits_nodup _ := .nil

theorem rearrange (delivery : Delivery j p) (placed_iff : ∀ ref, ref ∈ q.placed ↔ ref ∈ p.placed)
    (nextPcb_eq : q.nextPcb = p.nextPcb) (ppids : ∀ ref, (q.pcb ref).ppid = (p.pcb ref).ppid)
    (lists : ∀ ref, (q.pcb ref).signalList = (p.pcb ref).signalList) : Delivery j q where
  alive_iff ref := (delivery.alive_iff ref).trans (placed_iff ref).symm
  parent_lt := delivery.parent_lt
  made := by simpa [nextPcb_eq] using delivery.made
  ppid_eq := by simpa [nextPcb_eq, ppids] using delivery.ppid_eq
  owed := by simpa [placed_iff, lists] using delivery.owed
  returned_prefix := delivery.returned_prefix
  fresh := by simpa [nextPcb_eq] using delivery.fresh
  exited := by simpa [nextPcb_eq, placed_iff] using delivery.exited
  exits_nodup := delivery.exits_nodup

theorem collect (delivery : Delivery j p) {ref : Nat} {record : Int × Int} {rest : List (Int × Int)}
    (placed : ref ∈ p.placed) (ref_lt : ref < p.nextPcb)
    (list_eq : (p.pcb ref).signalList = record :: rest)
    (placed_iff : ∀ ref, ref ∈ q.placed ↔ ref ∈ p.placed) (nextPcb_eq : q.nextPcb = p.nextPcb)
    (ppids : ∀ ref, (q.pcb ref).ppid = (p.pcb ref).ppid) (rest_eq : (q.pcb ref).signalList = rest)
    (lists : ∀ other ≠ ref, (q.pcb other).signalList = (p.pcb other).signalList) :
    Delivery (j.record (.waitReturn ref record.1)) q where
  alive_iff other := (delivery.alive_iff other).trans (placed_iff other).symm
  parent_lt := delivery.parent_lt
  made := by simpa [nextPcb_eq] using delivery.made
  ppid_eq := by simpa [nextPcb_eq, ppids] using delivery.ppid_eq
  owed other otherPlaced := by
    obtain ⟨done, exits_eq, returned_eq⟩ := delivery.owed other ((placed_iff other).1 otherPlaced)
    by_cases same : other = ref
    · subst same
      refine ⟨done ++ [record], ?_, ?_⟩
      · simp [Journal.record, exits_eq, list_eq, rest_eq]
      · simp [Journal.record, returned_eq]
    · refine ⟨done, ?_, ?_⟩
      · simpa [lists other same] using exits_eq
      · simpa [same] using returned_eq
  returned_prefix other := by
    by_cases same : other = ref
    · subst same
      obtain ⟨done, exits_eq, returned_eq⟩ := delivery.owed other placed
      exact ⟨rest.map Prod.fst, by simp [exits_eq, list_eq, returned_eq]⟩
    · simpa [same] using delivery.returned_prefix other
  fresh other bound := by
    have different : other ≠ ref := by omega
    simpa [different] using delivery.fresh other (nextPcb_eq ▸ bound)
  exited := by simpa [nextPcb_eq, placed_iff] using delivery.exited
  exits_nodup := delivery.exits_nodup

theorem pushNew (delivery : Delivery j p) (placed_lt : ∀ ref ∈ p.placed, ref < p.nextPcb)
    {block : PCB μ} (globalPid : Int) (parent : Option Nat)
    (parent_lt : ∀ ref, parent = some ref → ref < p.nextPcb)
    (ppid_eq : block.ppid = parent.elim 1 fun ref => (ref : Int) + 2)
    (list_eq : block.signalList = []) :
    Delivery
      { j with
        alive := p.nextPcb :: j.alive
        parent := update j.parent p.nextPcb parent }
      { p.pushNew block with globalPid := globalPid } := by
  have placed_iff : ∀ ref, ref ∈ ({ p.pushNew block with globalPid := globalPid } :
      Placement μ).placed ↔ ref = p.nextPcb ∨ ref ∈ p.placed := by
    intro ref
    simp only [Placement.placed, Placement.pushNew_running, Placement.pushNew_runnable,
      Placement.pushNew_blocked, mem_append, mem_singleton]
    tauto
  refine ⟨?_, ?_, ?_, ?_, ?_, delivery.returned_prefix, ?_, ?_, delivery.exits_nodup⟩
  · intro ref
    rw [placed_iff]
    simp [delivery.alive_iff]
  · intro child ref isParent
    by_cases new : child = p.nextPcb
    · subst new
      exact parent_lt ref (by simpa using isParent)
    · exact delivery.parent_lt child ref (by simpa [new] using isParent)
  · intro child isChild
    by_cases new : child = p.nextPcb
    · simp [new]
    · have older := delivery.made child (by simpa [new] using isChild)
      simp
      omega
  · intro child bound
    by_cases new : child = p.nextPcb
    · simp [new, ppid_eq]
    · have older : child < p.nextPcb := by
        simp only [Placement.pushNew_nextPcb] at bound
        omega
      simpa [new] using delivery.ppid_eq child older
  · intro ref placed
    rcases (placed_iff ref).1 placed with rfl | placed
    · exact ⟨[], by simp [delivery.fresh p.nextPcb le_rfl, list_eq]⟩
    · have older : ref ≠ p.nextPcb := (placed_lt ref placed).ne
      simpa [older] using delivery.owed ref placed
  · intro ref bound
    exact delivery.fresh ref (Nat.le_of_succ_le bound)
  · intro ref record recordMem
    obtain ⟨child, bound, absent, pid_eq⟩ := delivery.exited ref record recordMem
    refine ⟨child, Nat.lt_succ_of_lt bound, ?_, pid_eq⟩
    rw [placed_iff]
    rintro (rfl | placed)
    · exact lt_irrefl _ bound
    · exact absent placed

theorem leave (delivery : Delivery j p) (unique : p.placed.Nodup) {ref : Nat}
    (running_eq : p.running = some ref) :
    Delivery { j with alive := j.alive.filter (· ≠ ref) } { p with running := none } := by
  have placed_iff : ∀ other, other ∈ ({ p with running := none } : Placement μ).placed ↔
      other ∈ p.placed ∧ other ≠ ref := by
    intro other
    simp only [Placement.placed, running_eq, Option.toList_some, cons_append, nodup_cons] at unique
    simp only [Placement.placed, running_eq, Option.toList_some, Option.toList_none,
      nil_append, cons_append, mem_cons]
    constructor
    · exact fun otherMem => ⟨.inr otherMem, fun same => unique.1 (same ▸ otherMem)⟩
    · rintro ⟨same | otherMem, different⟩
      · exact absurd same different
      · exact otherMem
  refine ⟨?_, delivery.parent_lt, delivery.made, delivery.ppid_eq, ?_,
    delivery.returned_prefix, delivery.fresh, ?_, delivery.exits_nodup⟩
  · intro other
    rw [placed_iff]
    simp [delivery.alive_iff]
  · intro other placed
    exact delivery.owed other ((placed_iff other).1 placed).1
  · intro other record recordMem
    obtain ⟨child, bound, absent, pid_eq⟩ := delivery.exited other record recordMem
    exact ⟨child, bound, fun placed => absent ((placed_iff child).1 placed).1, pid_eq⟩

theorem note (delivery : Delivery j p) {parent child : Nat} (record : Int × Int)
    (parentPlaced : parent ∈ p.placed) (parent_lt : parent < p.nextPcb)
    (child_lt : child < p.nextPcb) (absent : child ∉ p.placed)
    (pid_eq : record.1 = (child : Int) + 2) (new : record.1 ∉ (j.exits parent).map Prod.fst) :
    Delivery (j.noteExit parent record)
      (p.setPcb parent { p.pcb parent with
        signalList := (p.pcb parent).signalList ++ [record] }) := by
  refine ⟨delivery.alive_iff, delivery.parent_lt, delivery.made, ?_, ?_, ?_, ?_, ?_, ?_⟩
  · intro other bound
    have ppid_eq := delivery.ppid_eq other bound
    by_cases same : other = parent
    · subst same
      simpa [Journal.noteExit] using ppid_eq
    · simpa [Journal.noteExit, same] using ppid_eq
  · intro other placed
    obtain ⟨done, exits_eq, returned_eq⟩ := delivery.owed other placed
    refine ⟨done, ?_, returned_eq⟩
    by_cases same : other = parent
    · subst same
      simp [Journal.noteExit, exits_eq]
    · simpa [Journal.noteExit, same] using exits_eq
  · intro other
    have isPrefix := delivery.returned_prefix other
    by_cases same : other = parent
    · subst same
      simpa [Journal.noteExit] using isPrefix.trans (prefix_append _ _)
    · simpa [Journal.noteExit, same] using isPrefix
  · intro other bound
    have different : other ≠ parent := by
      simp only [Placement.setPcb_nextPcb] at bound
      omega
    simpa [Journal.noteExit, different] using delivery.fresh other bound
  · intro other old oldMem
    by_cases same : other = parent
    · subst same
      simp only [Journal.noteExit, Function.update_self, mem_append, mem_singleton] at oldMem
      rcases oldMem with oldMem | rfl
      · exact delivery.exited other old oldMem
      · exact ⟨child, child_lt, absent, pid_eq⟩
    · exact delivery.exited other old (by simpa [Journal.noteExit, same] using oldMem)
  · intro other
    have unique := delivery.exits_nodup other
    by_cases same : other = parent
    · subst same
      simpa [Journal.noteExit] using List.Nodup.concat new unique
    · simpa [Journal.noteExit, same] using unique

theorem exit {events : List Event} (ledger : Ledger events p) (delivery : Delivery j p)
    {ref : Nat} (exitRet : Int) (running_eq : p.running = some ref) :
    Delivery (j.record (.exit ref (p.pcb ref).pid exitRet))
      { p.notifyParent ref exitRet with running := none } := by
  have unique : p.placed.Nodup := (nodup_append.1 ledger.nodup).1
  have placed : ref ∈ p.placed := by simp [Placement.placed, running_eq]
  have ref_lt := ledger.lt_nextPcb placed
  have left := delivery.leave unique running_eq
  have ppid_eq := delivery.ppid_eq ref ref_lt
  cases parent_eq : j.parent ref with
  | none =>
    have nobody : p.searchByPid (p.pcb ref).ppid = none := by
      refine p.searchByPid_eq_none_iff.2 fun other otherPlaced => ?_
      rw [ledger.pid_eq other (ledger.lt_nextPcb otherPlaced), ppid_eq, parent_eq]
      simp
      omega
    simpa [Placement.notifyParent, nobody, parent_eq] using left
  | some parent =>
    have parent_ne : parent ≠ ref := (delivery.parent_lt ref parent parent_eq).ne
    have parent_lt : parent < p.nextPcb := (delivery.parent_lt ref parent parent_eq).trans ref_lt
    simp only [parent_eq, Option.elim_some] at ppid_eq
    by_cases alive : parent ∈ p.placed
    · obtain ⟨place, found⟩ := ledger.searchByPid_of_placed alive
      have new : (p.pcb ref).pid ∉ (j.exits parent).map Prod.fst := by
        intro recorded
        obtain ⟨record, recordMem, pid_eq⟩ := mem_map.1 recorded
        obtain ⟨child, _, absent, child_eq⟩ := delivery.exited parent record recordMem
        rw [ledger.pid_eq ref ref_lt, child_eq] at pid_eq
        obtain rfl : child = ref := by omega
        exact absent placed
      have remaining := left.alive_iff
      have noted := left.note ((p.pcb ref).pid, exitRet)
        ((remaining parent).1 (by simp [delivery.alive_iff, alive, parent_ne])) parent_lt ref_lt
        (fun placed => by simpa using (remaining ref).2 placed) (ledger.pid_eq ref ref_lt) new
      simpa [Placement.notifyParent, Placement.setPcb, ppid_eq, found, parent_eq, parent_ne,
        delivery.alive_iff, alive] using noted
    · have nobody := ledger.searchByPid_of_not_placed alive
      simpa [Placement.notifyParent, ppid_eq, nobody, parent_eq, delivery.alive_iff, alive]
        using left

theorem foldl_store {store : List Event}
    (stores : ∀ event ∈ store, ∃ address status, event = .storeStatus address status) :
    store.foldl Journal.record j = j := by
  induction store with
  | nil => rfl
  | cons event store ih =>
    obtain ⟨_, _, rfl⟩ := stores event mem_cons_self
    exact ih fun event eventMem => stores event (mem_cons_of_mem _ eventMem)

theorem move {events more : List Event} (ledger : Ledger events p) (delivery : Delivery j p)
    (moved : Move p more q) : Delivery (more.foldl Journal.record j) q := by
  have placed_lt : ∀ ref ∈ p.placed, ref < p.nextPcb := fun ref placed => ledger.lt_nextPcb placed
  cases moved with
  | create pid_eq ppid_eq list_eq =>
    have orphan : j.parent p.nextPcb = none := by
      by_contra isChild
      exact lt_irrefl _ (delivery.made _ isChild)
    have pushed := delivery.pushNew placed_lt (p.globalPid + 1) none
      (fun ref isParent => by cases isParent) ppid_eq list_eq
    rwa [← orphan, Function.update_eq_self] at pushed
  | @clone ref context block running_eq _ ppid_eq list_eq =>
    have placed : ref ∈ p.placed := by simp [Placement.placed, running_eq]
    have saved : Delivery j (p.setPcb ref { p.pcb ref with threadContext := context }) :=
      delivery.rearrange (fun _ => Iff.rfl) rfl (p.field_setPcb PCB.ppid rfl)
        (p.field_setPcb PCB.signalList rfl)
    exact saved.pushNew placed_lt (p.globalPid + 1) (some ref)
      (fun other isParent => by cases isParent; exact placed_lt ref placed)
      (ppid_eq.trans (ledger.pid_eq ref (placed_lt ref placed))) list_eq
  | park running_eq =>
    refine delivery.rearrange (fun other => ?_) rfl (p.field_setPcb PCB.ppid (by rfl))
      (p.field_setPcb PCB.signalList (by rfl))
    simp [Placement.placed, running_eq]
    tauto
  | @collect ref record rest running_eq list_eq =>
    have placed : ref ∈ p.placed := by simp [Placement.placed, running_eq]
    exact delivery.collect placed (placed_lt ref placed) list_eq (fun _ => Iff.rfl) rfl
      (p.field_setPcb PCB.ppid (by rfl)) (by simp) (fun other different => by simp [different])
  | block running_eq list_eq =>
    refine delivery.rearrange (fun other => ?_) rfl (p.field_setPcb PCB.ppid (by rfl))
      (p.field_setPcb PCB.signalList (by rfl))
    simp [Placement.placed, running_eq]
    tauto
  | exit exitRet running_eq => exact delivery.exit ledger exitRet running_eq
  | pick idle runnable_eq =>
    refine delivery.rearrange (fun other => ?_) rfl (fun _ => rfl) (fun _ => rfl)
    simp [Placement.placed, idle, runnable_eq]
  | @wake ref record rest context store idle blockedMem list_eq stores =>
    have placed : ref ∈ p.placed := by simp [Placement.placed, blockedMem]
    rw [foldl_cons, foldl_store stores]
    refine delivery.collect placed (placed_lt ref placed) list_eq (fun other => ?_) rfl
      (p.field_setPcb PCB.ppid (by rfl)) (by simp) (fun other different => by simp [different])
    have kept := (perm_cons_erase blockedMem).mem_iff (a := other)
    simp [Placement.placed, idle] at kept ⊢
    tauto

theorem of_run {pcb : Nat → PCB μ} {testTotal : Nat} {labels : List (Op μ × List Event)}
    {s : Scheduler μ} (run : Run Step (Scheduler.init pcb testTotal) labels s)
    (noKill : ∀ label ∈ labels, ∀ pid, label.1 ≠ .sysKill pid) :
    Delivery (journal (trace labels)) s.toPlacement := by
  induction run with
  | nil => exact Delivery.init pcb testTotal
  | @snoc labels label source target earlier last ih =>
    have delivery := ih fun label labelMem => noKill label (mem_append_left _ labelMem)
    rcases Scheduler.exec_moves last with moves | ⟨⟨pid, isKill⟩, _⟩
    · have both := Moves.preserve
        (fun events p => Ledger events p ∧ Delivery (journal events) p)
        (fun before moved => ⟨before.1.move moved, by
          simpa using before.2.move before.1 moved⟩)
        moves ⟨Ledger.of_run earlier, delivery⟩
      simpa using both.2
    · exact absurd isKill (noKill label (by simp) pid)

end Delivery

/-- After any run without `sys_kill`, the pids `wait` returned to a process are
the first of the children that exited while it was alive, no child twice, and
the rest is its signal list. -/
theorem signals_delivered_once_in_order {pcb : Nat → PCB μ} {testTotal : Nat}
    {labels : List (Op μ × List Event)} {s : Scheduler μ}
    (run : Run Step (Scheduler.init pcb testTotal) labels s)
    (noKill : ∀ label ∈ labels, ∀ pid, label.1 ≠ .sysKill pid) (ref : Nat) :
    let j := journal (trace labels)
    j.returned ref <+: (j.exits ref).map Prod.fst ∧ ((j.exits ref).map Prod.fst).Nodup ∧
      (ref ∈ j.alive → (s.pcb ref).signalList = (j.exits ref).drop (j.returned ref).length) := by
  have delivery := Delivery.of_run run noKill
  refine ⟨delivery.returned_prefix ref, delivery.exits_nodup ref, fun alive => ?_⟩
  obtain ⟨done, exits_eq, returned_eq⟩ := delivery.owed ref ((delivery.alive_iff ref).1 alive)
  simp [exits_eq, returned_eq]

theorem signals_delivered_to_yielding_parent :
    ∃ (labels : List (Op Unit × List Event)) (s : Scheduler Unit),
      trace labels = [.create 0, .clone 0 1, .exit 1 3 7] ∧ (s.pcb 0).signalList = [(3, 7)] := by
  let program : Program Unit := ⟨0x80100000, (), {}⟩
  let ops : List (Op Unit) := [.createProcess program, .schedule program, .clone (.thread 0),
    .yield, .schedule program, .exitProcess 7]
  obtain ⟨labels, s, exec_eq, ops_eq, trace_eq⟩ : ∃ labels s,
      execAll (Scheduler.init noBlocks 1) ops = .ok (labels, s) ∧ labels.map Prod.fst = ops ∧
      trace labels = [.create 0, .clone 0 1, .exit 1 3 7] := ⟨_, _, rfl, rfl, rfl⟩
  have noKill : ∀ label ∈ labels, ∀ pid, label.1 ≠ .sysKill pid := by
    intro label labelMem pid isKill
    have opMem : label.1 ∈ ops := ops_eq ▸ mem_map_of_mem labelMem
    simp [ops, isKill] at opMem
  have delivered := signals_delivered_once_in_order (run_of_execAll .nil exec_eq) noKill 0
  rw [nil_append, trace_eq] at delivered
  exact ⟨labels, s, trace_eq, delivered.2.2 (by decide)⟩

end SysCore.Sched
