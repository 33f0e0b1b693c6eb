import SysCore.Fd.Fork
import SysCore.Fd.Io

/-!
# Duplicated descriptors

`CopyFd` makes a new descriptor for the same opened file.  For a file or a device
this is all that `sys_read` and `sys_write` look at.  A pipe end is more than its
opened file, which has no path: it carries the mark of `MarkPipe` and a place in
`fd_to_buff_address`, and neither is copied.
-/

namespace SysCore.Fd

open Transition Pipe Sched Fs

def FileCall.Duplicates (oldFd newFd : Nat) : FileCall → Prop
  | .dup fd => fd = oldFd
  | .dup3 fd target => fd = oldFd ∧ target = newFd ∧ oldFd ≠ newFd
  | .fcntl fd flag _ => fd = oldFd ∧ flag ≠ fGetfl
  | _ => False

namespace Io

variable {μ δ φ : Type} (ifs : Ifs δ φ)

def KeepStep (oldFd newFd : Nat) (io : Io μ δ φ) (call : IoCall μ) (io' : Io μ δ φ) : Prop :=
  io.Step ifs call io' ∧ ∀ fileCall, call.Issues fileCall →
    ¬ fileCall.Takes io.files.table oldFd ∧ ¬ fileCall.Takes io.files.table newFd

def Equivalent (io : Io μ δ φ) (oldFd newFd : Nat) : Prop :=
  ∀ calls later, Run (KeepStep ifs oldFd newFd) io calls later →
    (∀ buf mapped count,
      later.sysRead ifs newFd buf mapped count = later.sysRead ifs oldFd buf mapped count) ∧
    ∀ buf count, later.sysWrite ifs newFd buf count = later.sysWrite ifs oldFd buf count

end Io

/-! ## Pipe ends -/

namespace Files

variable {t t' : Table} {pipes pipes' : FastPipe} {call : FileCall} {ret : Int} {closed : List Nat}

def PipeEnds (t : Table) (fdToBuffAddress : Nat → Option Nat) : Prop :=
  ∀ slot describer, t.fdArray slot = some describer → describer.isPipe = true →
    fdToBuffAddress slot ≠ none ∧ t.path describer.file = [] ∧ describer.file < t.nextFile

theorem Effect.isPipe_cases (effect : Effect t pipes call ret closed t' pipes') {slot : Nat}
    {describer : FileDescriber} (slot_eq : t'.fdArray slot = some describer)
    (marked : describer.isPipe = true) :
    (∃ before, t.fdArray slot = some before ∧ before.isPipe = true ∧ before.file = describer.file) ∨
      t.fdArray slot = none ∧ pipes'.fdToBuffAddress slot ≠ none ∧ t'.path describer.file = [] ∧
        describer.file < t'.nextFile := by
  cases effect with
  | unchanged idle => exact .inl ⟨describer, slot_eq, marked, rfl⟩
  | opened inRange empty =>
    rcases Table.put_describer slot_eq with ⟨-, rfl⟩ | slot_eq
    · cases marked
    · exact .inl ⟨describer, slot_eq, marked, rfl⟩
  | closed inRange found =>
    obtain ⟨before, before_eq, file_eq, mark_eq⟩ := Table.erase_describer slot_eq
    exact .inl ⟨before, before_eq, mark_eq.trans marked, file_eq⟩
  | copied isCopy sourceRange targetRange source_eq empty =>
    rcases Table.put_describer slot_eq with ⟨-, rfl⟩ | slot_eq
    · cases marked
    · exact .inl ⟨describer, slot_eq, marked, rfl⟩
  | replaced different sourceRange targetRange source_eq =>
    rcases Table.put_describer slot_eq with ⟨-, rfl⟩ | slot_eq
    · cases marked
    · obtain ⟨before, before_eq, file_eq, mark_eq⟩ := Table.erase_describer slot_eq
      exact .inl ⟨before, before_eq, mark_eq.trans marked, file_eq⟩
  | piped readRange writeRange different readEmpty writeEmpty open_eq =>
    unfold FastPipe.openPipe at open_eq
    split at open_eq
    · cases open_eq
    cases open_eq
    have path_eq : (t.newFile []).path t.nextFile = [] := by simp [Table.newFile]
    rcases Table.put_describer slot_eq with ⟨rfl, rfl⟩ | slot_eq
    · exact .inr ⟨writeEmpty, by simp, path_eq, Nat.lt_succ_self _⟩
    · rcases Table.put_describer slot_eq with ⟨rfl, rfl⟩ | slot_eq
      · exact .inr ⟨readEmpty, by simp [different], path_eq, Nat.lt_succ_self _⟩
      · exact .inl ⟨describer, slot_eq, marked, rfl⟩

theorem PipeEnds.step (ends : PipeEnds t pipes.fdToBuffAddress)
    (effect : Effect t pipes call ret closed t' pipes') : PipeEnds t' pipes'.fdToBuffAddress := by
  intro slot describer slot_eq marked
  rcases effect.isPipe_cases slot_eq marked with
    ⟨before, before_eq, beforeMarked, file_eq⟩ | ⟨-, buffered, path_eq, made⟩
  · obtain ⟨buffered, path_eq, made⟩ := ends slot before before_eq beforeMarked
    obtain ⟨next_le, paths_eq, buffers⟩ := effect.keeps
    rw [file_eq] at path_eq made
    exact ⟨buffers slot buffered, (paths_eq _ made).trans path_eq, Nat.lt_of_lt_of_le made next_le⟩
  · exact ⟨buffered, path_eq, made⟩

end Files

namespace Io

variable {μ δ φ : Type} {ifs : Ifs δ φ} {io io' start : Io μ δ φ} {t t' : Table} {pipes pipes' : FastPipe}
  {call : FileCall} {ret : Int} {closed : List Nat} {fd file oldFd newFd : Nat}
  {describer : FileDescriber}

theorem pipeEnds_init : Files.PipeEnds .init fun _ => none := by
  intro slot describer slot_eq marked
  rcases Table.init_slot slot_eq with rfl | rfl <;> cases marked

/-! ## Two descriptors of one file -/

def Shared (io : Io μ δ φ) (file oldFd newFd : Nat) : Prop :=
  io.files.Plain ∧ ∀ fd, fd = oldFd ∨ fd = newFd → fd < arrayLength ∧ ∃ describer,
    io.files.table.fdArray fd = some describer ∧ describer.file = file ∧ describer.isPipe = false

theorem unmarked_of_effect (effect : Files.Effect t pipes call ret closed t' pipes')
    (kept : ¬ call.Takes t fd) (slot_eq : t.fdArray fd = some describer)
    (unmarked : describer.isPipe = false) : ∃ after, t'.fdArray fd = some after ∧
      after.file = describer.file ∧ after.isPipe = false := by
  obtain ⟨after, after_eq, file_eq⟩ := Option.map_eq_some_iff.1 ((effect.file_iff slot_eq).2 kept)
  refine ⟨after, after_eq, file_eq, Bool.eq_false_iff.2 fun marked => ?_⟩
  rcases effect.isPipe_cases after_eq marked with ⟨before, before_eq, beforeMarked, -⟩ | ⟨empty, -⟩
  · cases slot_eq.symm.trans before_eq
    rw [unmarked] at beforeMarked
    cases beforeMarked
  · cases slot_eq.symm.trans empty

theorem Shared.step {call : IoCall μ} (shared : io.Shared file oldFd newFd)
    (step : KeepStep ifs oldFd newFd io call io') : io'.Shared file oldFd newFd := by
  obtain ⟨plain, slots⟩ := shared
  obtain ⟨exec_eq, kept⟩ := step
  obtain ⟨plain', changed⟩ := effect_of_exec plain exec_eq
  refine ⟨plain', fun fd isOne => ?_⟩
  obtain ⟨inRange, describer, slot_eq, file_eq, unmarked⟩ := slots fd isOne
  refine ⟨inRange, ?_⟩
  rcases changed with ⟨fileCall, ret, closed, issued, effect⟩ | ⟨table_eq, -⟩
  · have notTaken : ¬ fileCall.Takes io.files.table fd := by
      rcases isOne with rfl | rfl
      · exact (kept fileCall issued).1
      · exact (kept fileCall issued).2
    obtain ⟨after, after_eq, same, unmarked⟩ := unmarked_of_effect effect notTaken slot_eq unmarked
    exact ⟨after, after_eq, same.trans file_eq, unmarked⟩
  · rw [table_eq]
    exact ⟨describer, slot_eq, file_eq, unmarked⟩

theorem Shared.equivalent (shared : io.Shared file oldFd newFd) : io.Equivalent ifs oldFd newFd := by
  intro calls later run
  have still := @Run.invariant _ _ (KeepStep ifs oldFd newFd)
    (fun io => io.Shared file oldFd newFd) (fun inv step => inv.step step) _ _ _ run shared
  obtain ⟨plain, slots⟩ := still
  obtain ⟨oldRange, oldDescriber, old_eq, oldFile, oldUnmarked⟩ := slots oldFd (.inl rfl)
  obtain ⟨newRange, newDescriber, new_eq, newFile, newUnmarked⟩ := slots newFd (.inr rfl)
  refine ⟨fun buf mapped count => ?_, fun buf count => ?_⟩
  · rw [sysRead_of_file plain oldRange old_eq oldUnmarked,
      sysRead_of_file plain newRange new_eq newUnmarked, oldFile, newFile]
  · rw [sysWrite_of_file plain oldRange old_eq oldUnmarked,
      sysWrite_of_file plain newRange new_eq newUnmarked, oldFile, newFile]

/-! ## A pipe end and its copy -/

theorem sysRead_of_pipe (plain : io.files.Plain) (inRange : fd < arrayLength)
    (slot_eq : io.files.table.fdArray fd = some describer) (marked : describer.isPipe = true)
    (buffered : io.files.pipes.fdToBuffAddress fd ≠ none) (running : io.sched.running ≠ none)
    (buf : Nat → UInt8) (mapped : Nat → Bool) :
    ∃ io', io.sysRead ifs fd buf mapped 0 = .ok (io', buf) ∧ io'.sched.runningContext.a0 = 0 := by
  obtain ⟨pipe, pipe_eq⟩ := Option.ne_none_iff_exists'.1 buffered
  obtain ⟨ref, ref_eq⟩ := Option.ne_none_iff_exists'.1 running
  have index_eq : index fd = .ok fd := index_eq_ok.2 ⟨rfl, inRange⟩
  have read_eq : io.sysRead ifs fd buf mapped 0 = io.pipeRead fd buf mapped 0 := by
    simp [sysRead, plain.real_eq, index_eq, isPipe, slot_eq, marked]
  rw [read_eq]
  unfold pipeRead System.read
  rw [show io.system.sched.running = some ref from ref_eq,
    show io.system.pipes.fdToBuffAddress fd = some pipe from pipe_eq]
  exact ⟨_, rfl, rfl⟩

theorem fileRead_of_empty {buf buf' : Nat → UInt8} {mapped : Nat → Bool} {count : Int}
    (read_eq : io.fileRead ifs [] buf mapped count = .ok (io', buf')) :
    io'.sched.runningContext.a0 = toRegister (-1) := by
  obtain ⟨⟨⟨answer, buf₁⟩, mounts⟩, adapter_eq, read_eq⟩ := bind_eq_ok.1 read_eq
  obtain ⟨io₁, settle_eq, last_eq⟩ := bind_eq_ok.1 read_eq
  cases last_eq
  rcases Mounts.adapter_eq_ok adapter_eq with ⟨-, answer_eq, -⟩ | ⟨file, data, search_eq, -⟩
  · cases answer_eq
    cases settle_eq
    rfl
  · exact absurd search_eq (Mounts.search_ne_some_of_empty _ _)

theorem not_equivalent_of_pipe (plain : io.files.Plain)
    (ends : Files.PipeEnds io.files.table io.files.pipes.fdToBuffAddress)
    (running : io.sched.running ≠ none) (oldRange : oldFd < arrayLength) (newRange : newFd < arrayLength)
    {oldDescriber newDescriber : FileDescriber}
    (old_eq : io.files.table.fdArray oldFd = some oldDescriber) (marked : oldDescriber.isPipe = true)
    (new_eq : io.files.table.fdArray newFd = some newDescriber) (unmarked : newDescriber.isPipe = false)
    (file_eq : newDescriber.file = oldDescriber.file) : ¬ io.Equivalent ifs oldFd newFd := by
  intro equivalent
  obtain ⟨buffered, path_eq, -⟩ := ends oldFd oldDescriber old_eq marked
  have same := (equivalent [] io .nil).1 (fun _ => 0) (fun _ => true) 0
  obtain ⟨io', read_eq, zero⟩ :=
    sysRead_of_pipe plain oldRange old_eq marked buffered running (fun _ => 0) fun _ => true
  rw [read_eq, sysRead_of_file plain newRange new_eq unmarked, file_eq, path_eq] at same
  have failed := fileRead_of_empty same
  rw [zero] at failed
  exact absurd failed (by decide)

/-! ## Duplicating -/

theorem duplicated_of_effect (isDup : call.Duplicates oldFd newFd)
    (effect : Files.Effect t pipes call ret closed t' pipes') (returned : ret = newFd) :
    oldFd < arrayLength ∧ newFd < arrayLength ∧ ∃ old new : FileDescriber,
      t.fdArray oldFd = some old ∧ t'.fdArray oldFd = some old ∧ t'.fdArray newFd = some new ∧
      new.file = old.file ∧ new.isPipe = false := by
  cases effect with
  | unchanged idle =>
    cases call with
    | openat path res => cases isDup
    | close fd => cases isDup
    | pipe2 => cases isDup
    | dup fd => cases idle
    | dup3 fd target =>
      obtain ⟨rfl, rfl, different⟩ := isDup
      exact absurd (Int.ofNat.inj idle.1) different
    | fcntl fd flag given => exact absurd idle.1 isDup.2
  | opened inRange empty => cases isDup
  | closed inRange found => cases isDup
  | @copied _ source target describer isCopy sourceRange targetRange source_eq empty =>
    obtain rfl : target = newFd := Int.ofNat.inj returned
    obtain rfl : source = oldFd := by
      rcases isCopy with rfl | ⟨flag, given, -, rfl⟩
      · exact Int.ofNat.inj isDup
      · exact Int.ofNat.inj isDup.1
    have different : source ≠ target := by
      rintro rfl
      cases source_eq.symm.trans empty
    refine ⟨sourceRange, targetRange, describer, .new describer.file describer.fileAccessType,
      source_eq, ?_, ?_, rfl, rfl⟩
    · rw [Table.put_slot, if_neg different]
      exact source_eq
    · rw [Table.put_slot, if_pos rfl]
  | @replaced source target describer different sourceRange targetRange source_eq =>
    obtain rfl : target = newFd := Int.ofNat.inj returned
    obtain rfl : source = oldFd := Int.ofNat.inj isDup.1
    refine ⟨sourceRange, targetRange, describer, .new describer.file describer.fileAccessType,
      source_eq, ?_, ?_, rfl, rfl⟩
    · rw [Table.put_slot, if_neg different, Table.erase_slot _ _ _ different]
      exact source_eq
    · rw [Table.put_slot, if_pos rfl]
  | piped readRange writeRange different readEmpty writeEmpty open_eq => cases isDup

/-- A duplicate does what the original does exactly if the original is not a pipe
end. -/
theorem equivalent_iff_of_run {labels : List (IoCall μ)} (initial : start.Initial)
    (run : Run (Step ifs) start labels io) (running : io.sched.running ≠ none) {call : FileCall}
    {oldFd newFd : Nat} (isDup : call.Duplicates oldFd newFd)
    (dup_eq : io.sysFile ifs call = .ok ((newFd : Int), io')) :
    io'.Equivalent ifs oldFd newFd ↔ ¬ io.isPipe oldFd := by
  obtain ⟨plain, ends⟩ :=
    invariant_of_run initial run pipeEnds_init fun effect ends => ends.step effect
  obtain ⟨closed, files_eq, -, sched_eq⟩ := sysFile_eq_ok dup_eq
  obtain ⟨plain', effect⟩ := Files.effect_of_exec plain files_eq
  obtain ⟨oldRange, newRange, old, new, before_eq, old_eq, new_eq, file_eq, unmarked⟩ :=
    duplicated_of_effect isDup effect rfl
  have isPipe_eq : io.isPipe oldFd = old.isPipe := by
    unfold isPipe
    rw [before_eq]
    rfl
  rw [isPipe_eq]
  constructor
  · intro equivalent marked
    have running' : io'.sched.running ≠ none := by
      rw [sched_eq]
      exact running
    exact not_equivalent_of_pipe plain' (ends.step effect) running' oldRange newRange old_eq marked
      new_eq unmarked file_eq equivalent
  · intro notMarked
    have oldUnmarked : old.isPipe = false := Bool.eq_false_iff.2 notMarked
    have shared : io'.Shared old.file oldFd newFd := by
      refine ⟨plain', fun fd isOne => ?_⟩
      rcases isOne with rfl | rfl
      · exact ⟨oldRange, old, old_eq, rfl, oldUnmarked⟩
      · exact ⟨newRange, new, new_eq, file_eq, unmarked⟩
    exact shared.equivalent

theorem equivalent_of_console : ∃ io,
    booted.sysFile (devices endlessFat) (.dup 1) = .ok (3, io) ∧
      io.Equivalent (devices endlessFat) 1 3 := by
  obtain ⟨io, dup_eq⟩ : ∃ io, booted.sysFile (devices endlessFat) (.dup 1) = .ok ((3 : Nat), io) :=
    ⟨_, rfl⟩
  have isDup : FileCall.Duplicates 1 3 (.dup 1) := rfl
  exact ⟨io, dup_eq, (equivalent_iff_of_run booted_initial .nil nofun isDup dup_eq).2 (by decide)⟩

theorem not_equivalent_of_pipe_end : ∃ io₁ io₂ io₃ io₄,
    booted.sysFile (devices endlessFat) .pipe2 = .ok (0, io₁) ∧
    io₁.sysFile (devices endlessFat) (.dup 3) = .ok (5, io₂) ∧
    io₂.sysRead (devices endlessFat) 3 (fun _ => 0) (fun _ => true) 0 = .ok (io₃, fun _ => 0) ∧
    io₃.sched.runningContext.a0 = 0 ∧
    io₂.sysRead (devices endlessFat) 5 (fun _ => 0) (fun _ => true) 0 = .ok (io₄, fun _ => 0) ∧
    io₄.sched.runningContext.a0 = 2 ^ 64 - 1 ∧
    ¬ io₂.Equivalent (devices endlessFat) 3 5 := by
  obtain ⟨io₁, pipe_eq, io₂, dup_eq, io₃, old_eq, zero, io₄, new_eq, failed⟩ : ∃ io₁,
      booted.sysFile (devices endlessFat) .pipe2 = .ok (0, io₁) ∧ ∃ io₂,
      io₁.sysFile (devices endlessFat) (.dup 3) = .ok (5, io₂) ∧ ∃ io₃,
      io₂.sysRead (devices endlessFat) 3 (fun _ => 0) (fun _ => true) 0 = .ok (io₃, fun _ => 0) ∧
      io₃.sched.runningContext.a0 = 0 ∧ ∃ io₄,
      io₂.sysRead (devices endlessFat) 5 (fun _ => 0) (fun _ => true) 0 = .ok (io₄, fun _ => 0) ∧
      io₄.sched.runningContext.a0 = 2 ^ 64 - 1 := ⟨_, rfl, _, rfl, _, rfl, rfl, _, rfl, rfl⟩
  refine ⟨io₁, io₂, io₃, io₄, pipe_eq, dup_eq, old_eq, zero, new_eq, failed, fun equivalent => ?_⟩
  have same := (equivalent [] io₂ .nil).1 (fun _ => 0) (fun _ => true) 0
  obtain rfl : io₄ = io₃ := congrArg Prod.fst (Except.ok.inj ((new_eq.symm.trans same).trans old_eq))
  rw [zero] at failed
  exact absurd failed (by decide)

end Io

end SysCore.Fd
