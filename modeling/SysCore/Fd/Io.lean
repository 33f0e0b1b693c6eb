import SysCore.Fd.Calls
import SysCore.Fs.Fat

/-!
# Reading and writing through descriptors

`sys_read` and `sys_write` go to `FastPipe` when the descriptor is marked as a
pipe, and otherwise to the file system that serves the path of the opened file.
The state has everything such a call can see: the descriptors and the pipes, the
file systems, and the scheduler, whose running context receives the result.
-/

namespace SysCore.Pipe

def Report.buff (given : Nat → UInt8) : Report → Nat → UInt8
  | .read _ _ buff _ => buff
  | _ => given

variable {μ : Type} {sys sys' : System μ} {fd count : Nat} {report : Report}

theorem System.read_frame {buff : Nat → UInt8} {mapped : Nat → Bool}
    (read_eq : sys.read fd buff mapped count = .ok (sys', report)) :
    sys'.pipes.fdToBuffAddress = sys.pipes.fdToBuffAddress := by
  unfold System.read at read_eq
  split at read_eq
  · obtain ⟨_, -, read_eq⟩ := Transition.bind_eq_ok.1 read_eq
    obtain ⟨_, -, last_eq⟩ := Transition.bind_eq_ok.1 read_eq
    cases last_eq
    rfl
  · cases read_eq

theorem System.write_frame {buf : Nat → Option UInt8}
    (write_eq : sys.write fd buf count = .ok (sys', report)) :
    sys'.pipes.fdToBuffAddress = sys.pipes.fdToBuffAddress := by
  unfold System.write at write_eq
  split at write_eq
  · obtain ⟨_, -, write_eq⟩ := Transition.bind_eq_ok.1 write_eq
    obtain ⟨_, -, last_eq⟩ := Transition.bind_eq_ok.1 write_eq
    cases last_eq
    rfl
  · cases write_eq

end SysCore.Pipe

namespace SysCore.Fd

open Transition Pipe Sched Fs

def Table.getFile (t : Table) (fd : Int) : Outcome Nat :=
  if fd < 0 ∨ arrayLength < fd then
    .error .panic
  else do
    let slot ← index fd
    match t.fdArray slot with
    | none => .error .panic
    | some describer => return describer.file

theorem Table.getFile_of_slot {t : Table} {fd : Nat} (inRange : fd < arrayLength)
    {describer : FileDescriber} (slot_eq : t.fdArray fd = some describer) :
    t.getFile fd = .ok describer.file := by
  unfold getFile
  rw [if_neg (by omega), index_eq_ok.2 ⟨rfl, inRange⟩, ok_bind, slot_eq]
  rfl

theorem Table.getFile_eq_ok {t : Table} {fd file : Nat} (inRange : fd < arrayLength)
    (file_eq : t.getFile fd = .ok file) :
    ∃ describer, t.fdArray fd = some describer ∧ describer.file = file := by
  unfold getFile at file_eq
  rw [if_neg (by omega), index_eq_ok.2 ⟨rfl, inRange⟩, ok_bind] at file_eq
  split at file_eq
  · cases file_eq
  next describer slot_eq =>
    cases file_eq
    exact ⟨describer, slot_eq, rfl⟩

structure Io (μ δ φ : Type) where
  files : Files
  mounts : Mounts δ φ
  sched : Scheduler μ

namespace Io

variable {μ δ φ : Type} (ifs : Ifs δ φ) (io : Io μ δ φ)

def system : System μ :=
  ⟨io.sched, io.files.pipes⟩

def withSystem (sys : System μ) : Io μ δ φ :=
  { io with files := { io.files with pipes := sys.pipes }, sched := sys.sched }

def settle : Answer → Outcome (Io μ δ φ)
  | .returned value => .ok { io with sched := returnValue io.sched (toRegister value) }
  | .fault => do
    let (sched, _) ← io.sched.exitProcess 1
    return { io with sched := sched }

def pipeRead (fd : Nat) (buf : Nat → UInt8) (mapped : Nat → Bool) (count : Int) :
    Outcome (Io μ δ φ × (Nat → UInt8)) := do
  let (sys, report) ← io.system.read fd buf mapped count.toNat
  if count < 0 then
    return ({ io.withSystem sys with sched :=
      { sys.sched with runningContext := sys.sched.runningContext.setA0 (toRegister count) } }, buf)
  else
    return (io.withSystem sys, report.buff buf)

def pipeWrite (fd : Nat) (buf : Nat → Option UInt8) (count : Int) : Outcome (Io μ δ φ) := do
  let (sys, _) ← io.system.write fd buf count.toNat
  if count < 0 then
    return { io.withSystem sys with sched :=
      { sys.sched with runningContext := sys.sched.runningContext.setA0 (toRegister count) } }
  else
    return io.withSystem sys

def fileRead (path : List Char) (buf : Nat → UInt8) (mapped : Nat → Bool) (count : Int) :
    Outcome (Io μ δ φ × (Nat → UInt8)) := do
  let ((answer, buf), mounts) ← io.mounts.read ifs path buf mapped count
  let io ← { io with mounts := mounts }.settle answer
  return (io, buf)

def fileWrite (path : List Char) (buf : Nat → Option UInt8) (count : Int) : Outcome (Io μ δ φ) := do
  let (answer, mounts) ← io.mounts.write ifs path buf count
  { io with mounts := mounts }.settle answer

def isPipe (slot : Nat) : Bool :=
  (io.files.table.fdArray slot).any FileDescriber.isPipe

def sysRead (fd : Int) (buf : Nat → UInt8) (mapped : Nat → Bool) (count : Int) :
    Outcome (Io μ δ φ × (Nat → UInt8)) := do
  let fd := io.files.sysGetRealFd fd
  let slot ← index fd
  if io.isPipe slot then
    io.pipeRead slot buf mapped count
  else do
    let file ← io.files.table.getFile fd
    io.fileRead ifs (io.files.table.path file) buf mapped count

def sysWrite (fd : Int) (buf : Nat → Option UInt8) (count : Int) : Outcome (Io μ δ φ) := do
  let fd := io.files.sysGetRealFd fd
  let slot ← index fd
  if io.isPipe slot then
    io.pipeWrite slot buf count
  else do
    let file ← io.files.table.getFile fd
    io.fileWrite ifs (io.files.table.path file) buf count

def sysLseek (fd : Int) (offset : Nat) (whence : Int) : Outcome (Io μ δ φ) := do
  let file ← io.files.table.getFile (io.files.sysGetRealFd fd)
  let (ret, mounts) ← io.mounts.lseek ifs (io.files.table.path file) offset whence
  { io with mounts := mounts }.settle (.returned ret)

def sysMkdirat (path : List Char) (mode : Nat) : Outcome (Io μ δ φ) := do
  let (_, mounts) ← io.mounts.mkdir ifs path mode (io.mounts.fs []) true
  { io with mounts := mounts }.settle (.returned 0)

def closeFiles : List (List Char) → Mounts δ φ → Outcome (Mounts δ φ)
  | [], mounts => .ok mounts
  | path :: rest, mounts => do
    let (_, mounts) ← mounts.close ifs path
    closeFiles rest mounts

def sysFile (call : FileCall) : Outcome (Int × Io μ δ φ) := do
  let (ret, files, closed) ← io.files.exec call
  let mounts ← closeFiles ifs (closed.map io.files.table.path) io.mounts
  return (ret, { files := files, mounts := mounts, sched := returnValue io.sched (toRegister ret) })

def sysOpenat (path : List Char) (flag : Nat) : Outcome (Int × Io μ δ φ) := do
  let (res, mounts) ← io.mounts.open ifs path flag
  { io with mounts := mounts }.sysFile ifs (.openat path res)

end Io

inductive IoCall (μ : Type) where
  | openat (path : List Char) (flag : Nat)
  | descriptor (call : FileCall) (notOpenat : ∀ path res, call ≠ .openat path res)
  | read (fd : Int) (buf : Nat → UInt8) (mapped : Nat → Bool) (count : Int)
  | write (fd : Int) (buf : Nat → Option UInt8) (count : Int)
  | lseek (fd : Int) (offset : Nat) (whence : Int)
  | mkdirat (path : List Char) (mode : Nat)
  | other (op : Op μ)

namespace Io

variable {μ δ φ : Type} (ifs : Ifs δ φ) (io : Io μ δ φ)

def exec : IoCall μ → Outcome (Io μ δ φ)
  | .openat path flag => do
    let (_, io) ← io.sysOpenat ifs path flag
    return io
  | .descriptor call _ => do
    let (_, io) ← io.sysFile ifs call
    return io
  | .read fd buf mapped count => do
    let (io, _) ← io.sysRead ifs fd buf mapped count
    return io
  | .write fd buf count => io.sysWrite ifs fd buf count
  | .lseek fd offset whence => io.sysLseek ifs fd offset whence
  | .mkdirat path mode => io.sysMkdirat ifs path mode
  | .other op => do
    let (sched, _) ← op.exec io.sched
    return { io with sched := sched }

def Step (io : Io μ δ φ) (call : IoCall μ) (io' : Io μ δ φ) : Prop :=
  io.exec ifs call = .ok io'

def Initial (io : Io μ δ φ) : Prop :=
  ∃ pipes, io.files = Files.init pipes

end Io

def booted : Io Unit Device (Devices Nat Unit) :=
  let pcb : PCB Unit :=
    { pid := 0, ppid := 0, stack := 0, stackSize := 0, managers := (), threadContext := {} }
  { files := .init noPipes
    mounts := mounted
    sched := { Scheduler.init (fun _ => pcb) 0 with running := some 0 } }

theorem booted_initial : booted.Initial :=
  ⟨noPipes, rfl⟩

/-! ## What the calls do to the descriptors -/

def IoCall.Issues {μ : Type} : IoCall μ → FileCall → Prop
  | .openat path _, call => ∃ res, call = .openat path res
  | .descriptor given _, call => call = given
  | _, _ => False

namespace Io

variable {μ δ φ : Type} {ifs : Ifs δ φ} {io io' : Io μ δ φ} {fd : Nat} {describer : FileDescriber}

def SameFiles (io io' : Io μ δ φ) : Prop :=
  io'.files.table = io.files.table ∧ io'.files.occupied = io.files.occupied ∧
    io'.files.pipes.fdToBuffAddress = io.files.pipes.fdToBuffAddress

theorem settle_frame {answer : Answer} (settle_eq : io.settle answer = .ok io') :
    io'.files = io.files ∧ io'.mounts = io.mounts := by
  cases answer with
  | returned value =>
    cases settle_eq
    exact ⟨rfl, rfl⟩
  | fault =>
    obtain ⟨⟨sched, events⟩, -, last_eq⟩ := bind_eq_ok.1 settle_eq
    cases last_eq
    exact ⟨rfl, rfl⟩

theorem sameFiles_of_settle {mounts : Mounts δ φ} {answer : Answer}
    (settle_eq : { io with mounts := mounts }.settle answer = .ok io') : SameFiles io io' := by
  obtain ⟨files_eq, -⟩ := settle_frame settle_eq
  unfold SameFiles
  rw [files_eq]
  exact ⟨rfl, rfl, rfl⟩

theorem sameFiles_of_sysRead {fd count : Int} {buf buf' : Nat → UInt8} {mapped : Nat → Bool}
    (read_eq : io.sysRead ifs fd buf mapped count = .ok (io', buf')) : SameFiles io io' := by
  obtain ⟨slot, -, read_eq⟩ := bind_eq_ok.1 read_eq
  split at read_eq
  · obtain ⟨⟨sys, report⟩, sys_eq, read_eq⟩ := bind_eq_ok.1 read_eq
    have kept := System.read_frame sys_eq
    dsimp only at read_eq
    split at read_eq
    · cases read_eq
      exact ⟨rfl, rfl, kept⟩
    · cases read_eq
      exact ⟨rfl, rfl, kept⟩
  · obtain ⟨file, -, read_eq⟩ := bind_eq_ok.1 read_eq
    obtain ⟨⟨⟨answer, buf₁⟩, mounts⟩, -, read_eq⟩ := bind_eq_ok.1 read_eq
    obtain ⟨io₁, settle_eq, last_eq⟩ := bind_eq_ok.1 read_eq
    cases last_eq
    exact sameFiles_of_settle settle_eq

theorem sameFiles_of_sysWrite {fd count : Int} {buf : Nat → Option UInt8}
    (write_eq : io.sysWrite ifs fd buf count = .ok io') : SameFiles io io' := by
  obtain ⟨slot, -, write_eq⟩ := bind_eq_ok.1 write_eq
  split at write_eq
  · obtain ⟨⟨sys, report⟩, sys_eq, write_eq⟩ := bind_eq_ok.1 write_eq
    have kept := System.write_frame sys_eq
    dsimp only at write_eq
    split at write_eq
    · cases write_eq
      exact ⟨rfl, rfl, kept⟩
    · cases write_eq
      exact ⟨rfl, rfl, kept⟩
  · obtain ⟨file, -, write_eq⟩ := bind_eq_ok.1 write_eq
    obtain ⟨⟨answer, mounts⟩, -, settle_eq⟩ := bind_eq_ok.1 write_eq
    exact sameFiles_of_settle settle_eq

theorem sysFile_eq_ok {call : FileCall} {ret : Int} (file_eq : io.sysFile ifs call = .ok (ret, io')) :
    ∃ closed, io.files.exec call = .ok (ret, io'.files, closed) ∧
      closeFiles ifs (closed.map io.files.table.path) io.mounts = .ok io'.mounts ∧
      io'.sched = returnValue io.sched (toRegister ret) := by
  obtain ⟨⟨ret', files, closed⟩, exec_eq, file_eq⟩ := bind_eq_ok.1 file_eq
  obtain ⟨mounts, close_eq, last_eq⟩ := bind_eq_ok.1 file_eq
  cases last_eq
  exact ⟨closed, exec_eq, close_eq, rfl⟩

theorem files_of_exec {call : IoCall μ} (exec_eq : io.exec ifs call = .ok io') :
    (∃ fileCall ret closed, call.Issues fileCall ∧
      io.files.exec fileCall = .ok (ret, io'.files, closed)) ∨
    (∀ fileCall, ¬ call.Issues fileCall) ∧ SameFiles io io' := by
  cases call with
  | openat path flag =>
    obtain ⟨⟨ret, io₁⟩, open_eq, last_eq⟩ := bind_eq_ok.1 exec_eq
    cases last_eq
    obtain ⟨⟨res, mounts⟩, -, file_eq⟩ := bind_eq_ok.1 open_eq
    obtain ⟨closed, files_eq, -⟩ := sysFile_eq_ok file_eq
    exact .inl ⟨_, ret, closed, ⟨res, rfl⟩, files_eq⟩
  | descriptor fileCall notOpenat =>
    obtain ⟨⟨ret, io₁⟩, file_eq, last_eq⟩ := bind_eq_ok.1 exec_eq
    cases last_eq
    obtain ⟨closed, files_eq, -⟩ := sysFile_eq_ok file_eq
    exact .inl ⟨fileCall, ret, closed, rfl, files_eq⟩
  | read fd buf mapped count =>
    obtain ⟨⟨io₁, buf₁⟩, read_eq, last_eq⟩ := bind_eq_ok.1 exec_eq
    cases last_eq
    exact .inr ⟨fun _ => id, sameFiles_of_sysRead read_eq⟩
  | write fd buf count => exact .inr ⟨fun _ => id, sameFiles_of_sysWrite exec_eq⟩
  | lseek fd offset whence =>
    obtain ⟨file, -, exec_eq⟩ := bind_eq_ok.1 exec_eq
    obtain ⟨⟨ret, mounts⟩, -, settle_eq⟩ := bind_eq_ok.1 exec_eq
    exact .inr ⟨fun _ => id, sameFiles_of_settle settle_eq⟩
  | mkdirat path mode =>
    obtain ⟨⟨ret, mounts⟩, -, settle_eq⟩ := bind_eq_ok.1 exec_eq
    exact .inr ⟨fun _ => id, sameFiles_of_settle settle_eq⟩
  | other op =>
    obtain ⟨⟨sched, events⟩, -, last_eq⟩ := bind_eq_ok.1 exec_eq
    cases last_eq
    exact .inr ⟨fun _ => id, rfl, rfl, rfl⟩

theorem effect_of_exec {call : IoCall μ} (plain : io.files.Plain) (exec_eq : io.exec ifs call = .ok io') :
    io'.files.Plain ∧ ((∃ fileCall ret closed, call.Issues fileCall ∧
      Files.Effect io.files.table io.files.pipes fileCall ret closed io'.files.table io'.files.pipes) ∨
    io'.files.table = io.files.table ∧
      io'.files.pipes.fdToBuffAddress = io.files.pipes.fdToBuffAddress) := by
  rcases files_of_exec exec_eq with
    ⟨fileCall, ret, closed, issued, files_eq⟩ | ⟨-, table_eq, occupied_eq, buffers_eq⟩
  · obtain ⟨plain', effect⟩ := Files.effect_of_exec plain files_eq
    exact ⟨plain', .inl ⟨fileCall, ret, closed, issued, effect⟩⟩
  · exact ⟨plain.congr occupied_eq, .inr ⟨table_eq, buffers_eq⟩⟩

theorem invariant_of_run {inv : Table → (Nat → Option Nat) → Prop} {start : Io μ δ φ}
    {labels : List (IoCall μ)} (initial : start.Initial) (run : Run (Step ifs) start labels io)
    (atInit : inv .init fun _ => none)
    (kept : ∀ {t t' pipes pipes' call ret closed}, Files.Effect t pipes call ret closed t' pipes' →
      inv t pipes.fdToBuffAddress → inv t' pipes'.fdToBuffAddress) :
    io.files.Plain ∧ inv io.files.table io.files.pipes.fdToBuffAddress := by
  refine @Run.invariant _ _ (Step ifs)
    (fun io => io.files.Plain ∧ inv io.files.table io.files.pipes.fdToBuffAddress)
    (fun {s _ t} both step => ?_) _ _ _ run ?_
  · obtain ⟨plain, ⟨_, _, _, -, effect⟩ | ⟨table_eq, buffers_eq⟩⟩ := effect_of_exec both.1 step
    · exact ⟨plain, kept effect both.2⟩
    · rw [table_eq, buffers_eq]
      exact ⟨plain, both.2⟩
  · obtain ⟨pipes, files_eq⟩ := initial
    rw [files_eq]
    exact ⟨Files.Plain.init pipes, atInit⟩

/-! ## Unmarked descriptors -/

theorem isPipe_iff {slot : Nat} : io.isPipe slot = true ↔
    ∃ describer, io.files.table.fdArray slot = some describer ∧ describer.isPipe = true :=
  Option.any_eq_true _ _

theorem not_isPipe {slot : Nat} (unmarked : ∀ describer,
    io.files.table.fdArray slot = some describer → describer.isPipe = false) : ¬ io.isPipe slot := by
  rw [isPipe_iff]
  rintro ⟨describer, slot_eq, marked⟩
  rw [unmarked describer slot_eq] at marked
  cases marked

theorem unmarked_of_slot (slot_eq : io.files.table.fdArray fd = some describer)
    (unmarked : describer.isPipe = false) :
    ∀ other, io.files.table.fdArray fd = some other → other.isPipe = false := by
  intro other other_eq
  cases slot_eq.symm.trans other_eq
  exact unmarked

theorem sysRead_of_unmarked (plain : io.files.Plain) (inRange : fd < arrayLength)
    (unmarked : ∀ describer, io.files.table.fdArray fd = some describer → describer.isPipe = false)
    (buf : Nat → UInt8) (mapped : Nat → Bool) (count : Int) :
    io.sysRead ifs fd buf mapped count = (do
      let file ← io.files.table.getFile fd
      io.fileRead ifs (io.files.table.path file) buf mapped count) := by
  unfold sysRead
  rw [plain.real_eq]
  dsimp only
  rw [index_eq_ok.2 ⟨rfl, inRange⟩, ok_bind, if_neg (not_isPipe unmarked)]

theorem sysWrite_of_unmarked (plain : io.files.Plain) (inRange : fd < arrayLength)
    (unmarked : ∀ describer, io.files.table.fdArray fd = some describer → describer.isPipe = false)
    (buf : Nat → Option UInt8) (count : Int) :
    io.sysWrite ifs fd buf count = (do
      let file ← io.files.table.getFile fd
      io.fileWrite ifs (io.files.table.path file) buf count) := by
  unfold sysWrite
  rw [plain.real_eq]
  dsimp only
  rw [index_eq_ok.2 ⟨rfl, inRange⟩, ok_bind, if_neg (not_isPipe unmarked)]

theorem sysRead_of_file (plain : io.files.Plain) (inRange : fd < arrayLength)
    (slot_eq : io.files.table.fdArray fd = some describer) (unmarked : describer.isPipe = false)
    (buf : Nat → UInt8) (mapped : Nat → Bool) (count : Int) :
    io.sysRead ifs fd buf mapped count =
      io.fileRead ifs (io.files.table.path describer.file) buf mapped count := by
  rw [sysRead_of_unmarked plain inRange (unmarked_of_slot slot_eq unmarked),
    Table.getFile_of_slot inRange slot_eq, ok_bind]

theorem sysWrite_of_file (plain : io.files.Plain) (inRange : fd < arrayLength)
    (slot_eq : io.files.table.fdArray fd = some describer) (unmarked : describer.isPipe = false)
    (buf : Nat → Option UInt8) (count : Int) :
    io.sysWrite ifs fd buf count =
      io.fileWrite ifs (io.files.table.path describer.file) buf count := by
  rw [sysWrite_of_unmarked plain inRange (unmarked_of_slot slot_eq unmarked),
    Table.getFile_of_slot inRange slot_eq, ok_bind]

end Io

end SysCore.Fd
