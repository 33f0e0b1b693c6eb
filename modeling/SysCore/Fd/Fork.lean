import SysCore.Fd.Calls

/-!
# Descriptors after a fork

`clone` leaves `fd_array` alone, so parent and child work on the same slots, and
the count of a descriptor does not grow with the number of processes that use
it.  What one of them closes or overwrites is gone for the other.
-/

namespace SysCore.Fd

open Transition Pipe List

def FileCall.gives : FileCall → List Int
  | .close fd => [fd]
  | .dup3 oldFd newFd => if oldFd = newFd then [] else [newFd]
  | _ => []

def FileCall.Takes (t : Table) (fd : Nat) : FileCall → Prop
  | .close closedFd => closedFd = fd ∧ fd ≠ 1 ∧
      ∀ describer, t.fdArray fd = some describer → describer.fdRefCount ≤ 1
  | .dup3 oldFd newFd => oldFd ≠ newFd ∧ newFd = fd ∧ ∀ source target,
      t.fdArray oldFd.toNat = some source → t.fdArray fd = some target → source.file ≠ target.file
  | _ => False

structure Fork where
  files : Files
  given : List (Bool × Int)

def Fork.Step (fork : Fork) (label : Bool × FileCall) (fork' : Fork) : Prop :=
  FileStep fork.files label.2 fork'.files ∧
    fork'.given = fork.given ++ label.2.gives.map fun fd => (label.1, fd)

def Survives (start : Table) (fork : Fork) : Prop :=
  ∀ fd describer, start.fdArray fd = some describer → ∀ side : Bool, (side, (fd : Int)) ∉ fork.given →
    (fork.files.table.fdArray fd).map FileDescriber.file = some describer.file

def Careful (start : Table) (fork : Fork) (label : Bool × FileCall) : Prop :=
  ∀ fd, (start.fdArray fd).isSome → label.2.Takes fork.files.table fd →
    (!label.1, (fd : Int)) ∈ fork.given

def CarefulForkStep (start : Table) (fork : Fork) (label : Bool × FileCall) (fork' : Fork) : Prop :=
  Careful start fork label ∧ fork.Step label fork'

theorem FileCall.gives_of_takes {call : FileCall} {t : Table} {fd : Nat} (takes : call.Takes t fd) :
    (fd : Int) ∈ call.gives := by
  cases call with
  | close closedFd => exact mem_singleton.2 takes.1.symm
  | dup3 oldFd newFd =>
    rw [gives, if_neg takes.1]
    exact mem_singleton.2 takes.2.1.symm
  | openat path res => cases takes
  | dup fd => cases takes
  | fcntl oldFd flag newFd => cases takes
  | pipe2 => cases takes

theorem Files.Effect.file_iff {t t' : Table} {pipes pipes' : FastPipe} {call : FileCall} {ret : Int}
    {closed : List Nat} (effect : Files.Effect t pipes call ret closed t' pipes') {fd : Nat}
    {describer : FileDescriber} (slot_eq : t.fdArray fd = some describer) :
    (t'.fdArray fd).map FileDescriber.file = some describer.file ↔ ¬ call.Takes t fd := by
  have ne_of_empty : ∀ {other : Nat}, t.fdArray other = none → fd ≠ other := by
    rintro other empty rfl
    cases slot_eq.symm.trans empty
  cases effect with
  | unchanged idle =>
    refine iff_of_true (by rw [slot_eq]; rfl) fun takes => ?_
    cases call with
    | close closedFd => exact idle
    | dup3 oldFd newFd => exact takes.1 idle.1
    | openat path res => cases takes
    | dup fd => cases takes
    | fcntl oldFd flag newFd => cases takes
    | pipe2 => cases takes
  | opened _ empty =>
    refine iff_of_true ?_ id
    rw [Table.put_slot, if_neg (ne_of_empty empty)]
    exact congrArg _ slot_eq
  | @closed slot found inRange found_eq =>
    by_cases same : fd = slot
    · subst same
      cases slot_eq.symm.trans found_eq
      by_cases one : fd = 1
      · subst one
        rw [Table.erase_one]
        exact iff_of_true (congrArg _ slot_eq) fun takes => takes.2.1 rfl
      · by_cases last : describer.fdRefCount ≤ 1
        · rw [Table.erase_delete one slot_eq last, Table.setSlot_slot, if_pos rfl]
          refine iff_of_false nofun fun kept => kept ⟨rfl, one, fun other other_eq => ?_⟩
          cases slot_eq.symm.trans other_eq
          exact last
        · rw [Table.erase_keep one slot_eq (by omega), Table.setSlot_slot, if_pos rfl]
          exact iff_of_true rfl fun takes => last (takes.2.2 describer slot_eq)
    · rw [Table.erase_slot _ _ _ same]
      exact iff_of_true (congrArg _ slot_eq) fun takes => same (Int.ofNat.inj takes.1).symm
  | copied isCopy _ _ _ empty =>
    refine iff_of_true ?_ ?_
    · rw [Table.put_slot, if_neg (ne_of_empty empty)]
      exact congrArg _ slot_eq
    · rcases isCopy with rfl | ⟨flag, newFd, -, rfl⟩ <;> exact id
  | @replaced source target found different _ _ source_eq =>
    rw [Table.put_slot]
    by_cases same : fd = target
    · subst same
      rw [if_pos rfl, Option.map_some, Option.some_inj]
      constructor
      · intro file_eq takes
        exact takes.2.2 found describer source_eq slot_eq file_eq
      · intro kept
        by_contra file_ne
        refine kept ⟨fun fd_eq => different (Int.ofNat.inj fd_eq), rfl, fun first second first_eq
          second_eq => ?_⟩
        cases source_eq.symm.trans first_eq
        cases slot_eq.symm.trans second_eq
        exact file_ne
    · rw [if_neg same, Table.erase_slot _ _ _ same]
      exact iff_of_true (congrArg _ slot_eq) fun takes => same (Int.ofNat.inj takes.2.1).symm
  | piped _ _ _ readEmpty writeEmpty _ =>
    refine iff_of_true ?_ id
    rw [Table.put_slot, if_neg (ne_of_empty writeEmpty), Table.put_slot,
      if_neg (ne_of_empty readEmpty)]
    exact congrArg _ slot_eq

theorem plain_of_run {files : Files} {pipes : FastPipe} {calls : List FileCall}
    (run : Run FileStep (Files.init pipes) calls files) : files.Plain :=
  @Run.invariant _ _ FileStep Files.Plain
    (fun plain step => (Files.effect_of_exec plain step.choose_spec.choose_spec).1) _ _ _ run
    (Files.Plain.init pipes)

theorem Survives.step_iff {start : Table} {fork fork' : Fork} {label : Bool × FileCall}
    (survives : Survives start fork) (plain : fork.files.Plain) (step : fork.Step label fork') :
    Survives start fork' ↔ Careful start fork label := by
  obtain ⟨side, call⟩ := label
  obtain ⟨⟨ret, closed, exec_eq⟩, given_eq⟩ := step
  obtain ⟨-, effect⟩ := Files.effect_of_exec plain exec_eq
  dsimp only at given_eq effect
  constructor
  · intro survives' fd isOpen takes
    obtain ⟨describer, start_eq⟩ := Option.isSome_iff_exists.1 isOpen
    by_contra notGiven
    -- the other process relies on the descriptor before the call and behind it
    have before := survives fd describer start_eq (!side) notGiven
    obtain ⟨found, found_eq, file_eq⟩ := Option.map_eq_some_iff.1 before
    have after := survives' fd describer start_eq (!side) (by
      rw [given_eq, mem_append]
      rintro (old | new)
      · exact notGiven old
      · obtain ⟨other, -, pair_eq⟩ := mem_map.1 new
        cases side <;> cases pair_eq)
    rw [← file_eq] at after
    exact (effect.file_iff found_eq).1 after takes
  · intro careful fd describer start_eq other notGiven'
    rw [given_eq, mem_append, not_or] at notGiven'
    obtain ⟨notGiven, notNew⟩ := notGiven'
    obtain ⟨found, found_eq, file_eq⟩ := Option.map_eq_some_iff.1 (survives fd describer start_eq other notGiven)
    rw [← file_eq]
    refine (effect.file_iff found_eq).2 fun takes => ?_
    have given := careful fd (by rw [start_eq]; rfl) takes
    have gives := FileCall.gives_of_takes takes
    by_cases same : other = side
    · subst same
      exact notNew (mem_map_of_mem gives)
    · have other_eq : other = !side := by cases other <;> cases side <;> simp_all
      rw [other_eq] at notGiven
      exact notGiven given

/-- After any careful calls behind a fork, the next call leaves both processes
their descriptors exactly when it is careful. -/
theorem survives_iff_of_run {start : Files} {pipes : FastPipe} {before : List FileCall}
    (reached : Run FileStep (Files.init pipes) before start) {labels : List (Bool × FileCall)}
    {fork fork' : Fork} (run : Run (CarefulForkStep start.table) ⟨start, []⟩ labels fork)
    {label : Bool × FileCall} (step : fork.Step label fork') :
    Survives start.table fork' ↔ Careful start.table fork label := by
  obtain ⟨plain, survives⟩ := @Run.invariant _ _ (CarefulForkStep start.table)
    (fun fork => fork.files.Plain ∧ Survives start.table fork)
    (fun inv next => ⟨(Files.effect_of_exec inv.1 next.2.1.choose_spec.choose_spec).1,
      (inv.2.step_iff inv.1 next.2).2 next.1⟩) _ _ _ run
    ⟨plain_of_run reached, fun fd describer start_eq _ _ => congrArg _ start_eq⟩
  exact survives.step_iff plain step

theorem survives_of_own_copy : ∃ fork fork' : Fork,
    Run (CarefulForkStep Table.init) ⟨Files.init noPipes, []⟩ [(true, .dup 0)] fork ∧
      fork.Step (true, .close 3) fork' ∧ Survives Table.init fork' := by
  obtain ⟨files₁, dup_eq, files₂, close_eq⟩ : ∃ files₁,
      (Files.init noPipes).exec (.dup 0) = .ok (3, files₁, []) ∧ ∃ files₂,
      files₁.exec (.close 3) = .ok (0, files₂, []) := ⟨_, rfl, _, rfl⟩
  have run : Run (CarefulForkStep Table.init) ⟨Files.init noPipes, []⟩ [(true, .dup 0)] ⟨files₁, []⟩ :=
    .snoc .nil ⟨fun _ _ takes => takes.elim, ⟨3, [], dup_eq⟩, rfl⟩
  have step : Fork.Step ⟨files₁, []⟩ (true, .close 3) ⟨files₂, [(true, 3)]⟩ :=
    ⟨⟨0, [], close_eq⟩, rfl⟩
  refine ⟨_, _, run, step, (survives_iff_of_run .nil run step).2 ?_⟩
  -- descriptor 3 was not open at the fork
  rintro fd isOpen ⟨fd_eq, -⟩
  obtain rfl : fd = 3 := (Int.ofNat.inj fd_eq).symm
  cases isOpen

theorem not_survives_of_close : ∃ (start : Files) (fork' : Fork),
    Run FileStep (Files.init noPipes) [.openat ['/', 'a'] 0] start ∧
      (start.table.fdArray 3).map FileDescriber.file = some 2 ∧
      Fork.Step ⟨start, []⟩ (true, .close 3) fork' ∧ fork'.files.table.fdArray 3 = none ∧
      ¬ Survives start.table fork' := by
  obtain ⟨files₁, open_eq, slot_eq, files₂, close_eq, gone⟩ : ∃ files₁,
      (Files.init noPipes).exec (.openat ['/', 'a'] 0) = .ok (3, files₁, []) ∧
      files₁.table.fdArray 3 = some (.new 2 .rw) ∧ ∃ files₂,
      files₁.exec (.close 3) = .ok (0, files₂, [2]) ∧ files₂.table.fdArray 3 = none :=
    ⟨_, rfl, rfl, _, rfl, rfl⟩
  refine ⟨files₁, ⟨files₂, [(true, 3)]⟩, .snoc .nil ⟨3, [], open_eq⟩, congrArg _ slot_eq,
    ⟨⟨0, [2], close_eq⟩, rfl⟩, gone, fun survives => ?_⟩
  have parent := survives 3 _ slot_eq false (by simp)
  dsimp only at parent
  rw [gone] at parent
  cases parent

end SysCore.Fd
