import SysCore.Fd.Table
import SysCore.Pipe.FastPipe

/-!
# The system calls on descriptors

`sys_openat`, `sys_close`, `sys_dup`, `sys_dup3`, `sys_fcntl` and `sys_pipe2` all
work on the one descriptor table.  A process has a map from its descriptors to
slots of the table, which its clones share; the only calls that put something
into it bind a slot to itself, so the map changes nothing.
-/

namespace SysCore.Fd

open Transition Pipe

structure Files where
  table : Table
  pipes : FastPipe
  occupied : Int → Option Int

def Files.init (pipes : FastPipe) : Files where
  table := .init
  pipes := pipes.init
  occupied _ := none

inductive FileCall where
  | openat (path : List Char) (res : Int)
  | close (fd : Int)
  | dup (fd : Int)
  | dup3 (oldFd newFd : Int)
  | fcntl (oldFd : Int) (flag : Nat) (newFd : Int)
  | pipe2

def fGetfl : Nat := 3

def oRdwr : Int := 2

namespace Files

variable (files : Files)

def sysGetRealFd (fd : Int) : Int :=
  (files.occupied fd).getD fd

def copyFd (sourceFd targetFd : Int) : Outcome (Files × List Nat) := do
  let (table, closed) ← files.table.copyFd sourceFd targetFd
  return ({ files with table := table }, closed)

def sysOpenat (path : List Char) (res : Int) : Outcome (Int × Files) := do
  let fd ← files.table.findUnUsedFd
  let (fr, table) ← files.table.openNewFile path fd res
  return (if fr ≠ 0 then -1 else fd, { files with table := table })

def sysClose (fd : Int) : Outcome (Files × List Nat) := do
  let (table, closed) ← files.table.tryCloseFile (files.sysGetRealFd fd)
  return ({ files with table := table }, closed)

def sysDup (fd : Int) : Outcome (Int × Files × List Nat) := do
  let fd := files.sysGetRealFd fd
  let newFd ← files.table.findUnUsedFd
  let files := { files with occupied := Function.update files.occupied newFd (some newFd) }
  let (files, closed) ← files.copyFd fd newFd
  return (newFd, files, closed)

def sysDup3 (oldFd newFd : Int) : Outcome (Int × Files × List Nat) := do
  let oldFd := files.sysGetRealFd oldFd
  let newFd := files.sysGetRealFd newFd
  if oldFd = newFd then
    return (-1, files, [])
  else do
    let (files, closed) ← files.copyFd oldFd newFd
    return (newFd, files, closed)

def sysFcntl (oldFd : Int) (flag : Nat) (newFd : Int) : Outcome (Int × Files × List Nat) := do
  let oldFd := files.sysGetRealFd oldFd
  if flag = fGetfl then
    return (oRdwr, files, [])
  else do
    let newFd := files.sysGetRealFd newFd
    let actualFd ← files.table.findUnusedFdBiggerOrEqual newFd
    let (files, closed) ← files.copyFd oldFd actualFd
    return (actualFd, files, closed)

def pipeEnd (file : Nat) : FileDescriber :=
  { fileAccessType := .rw, file := file, fdRefCount := 999, isPipe := true }

def createPipe : Outcome Files := do
  let readFd ← files.table.findUnUsedFd
  let writeFd ← files.table.findUnusedFdBiggerOrEqual (readFd + 1)
  let file := files.table.nextFile
  let table := ((files.table.newFile []).put readFd (pipeEnd file)).put writeFd (pipeEnd file)
  let pipes ← files.pipes.openPipe (readFd, writeFd)
  return { files with table := table, pipes := pipes }

def exec : FileCall → Outcome (Int × Files × List Nat)
  | .openat path res => do
    let (ret, files) ← files.sysOpenat path res
    return (ret, files, [])
  | .close fd => do
    let (files, closed) ← files.sysClose fd
    return (0, files, closed)
  | .dup fd => files.sysDup fd
  | .dup3 oldFd newFd => files.sysDup3 oldFd newFd
  | .fcntl oldFd flag newFd => files.sysFcntl oldFd flag newFd
  | .pipe2 => do
    let files ← files.createPipe
    return (0, files, [])

end Files

def FileStep (files : Files) (call : FileCall) (files' : Files) : Prop :=
  ∃ ret closed, files.exec call = .ok (ret, files', closed)

/-! ## What the calls do to a slot -/

namespace Table

variable {t t' : Table}

theorem findUnusedFdBiggerOrEqual_eq_ok {given : Int} {fd : Nat}
    (found : t.findUnusedFdBiggerOrEqual given = .ok fd) :
    given ≤ fd ∧ fd < arrayLength ∧ t.fdArray fd = none := by
  unfold findUnusedFdBiggerOrEqual at found
  split at found
  · cases found
  · split at found
    · cases found
    next other find_eq =>
      cases found
      have inRange := List.mem_range.1 (List.mem_of_find?_eq_some find_eq)
      have test := List.find?_some find_eq
      simp only [decide_eq_true_eq] at test
      exact ⟨test.1, inRange, test.2⟩

theorem erase_slot (t : Table) (fd other : Nat) (different : other ≠ fd) :
    (t.erase fd).1.fdArray other = t.fdArray other := by
  unfold erase
  split
  · rfl
  · split
    · rfl
    · dsimp only
      split
      · rw [setSlot_slot, if_neg different]
        rfl
      · rw [setSlot_slot, if_neg different]

theorem erase_frame (t : Table) (fd : Nat) :
    (t.erase fd).1.path = t.path ∧ (t.erase fd).1.nextFile = t.nextFile := by
  unfold erase
  split
  · exact ⟨rfl, rfl⟩
  · split
    · exact ⟨rfl, rfl⟩
    · dsimp only
      split <;> exact ⟨rfl, rfl⟩

theorem erase_describer {fd other : Nat} {describer : FileDescriber}
    (slot_eq : (t.erase fd).1.fdArray other = some describer) :
    ∃ before, t.fdArray other = some before ∧ before.file = describer.file ∧
      before.isPipe = describer.isPipe := by
  by_cases same : other = fd
  · subst same
    by_cases one : other = 1
    · rw [one, erase_one] at slot_eq
      exact ⟨describer, one ▸ slot_eq, rfl, rfl⟩
    · cases before_eq : t.fdArray other with
      | none =>
        rw [erase_none before_eq, before_eq] at slot_eq
        cases slot_eq
      | some before =>
        by_cases last : before.fdRefCount ≤ 1
        · rw [erase_delete one before_eq last, setSlot_slot, if_pos rfl] at slot_eq
          cases slot_eq
        · rw [erase_keep one before_eq (by omega), setSlot_slot, if_pos rfl] at slot_eq
          cases slot_eq
          exact ⟨before, rfl, rfl, rfl⟩
  · rw [erase_slot _ _ _ same] at slot_eq
    exact ⟨describer, slot_eq, rfl, rfl⟩

theorem put_describer {fd other : Nat} {new describer : FileDescriber}
    (slot_eq : (t.put fd new).fdArray other = some describer) :
    other = fd ∧ describer = new ∨ t.fdArray other = some describer := by
  rw [put_slot] at slot_eq
  split at slot_eq
  next same =>
    cases slot_eq
    exact .inl ⟨same, rfl⟩
  next different => exact .inr slot_eq

theorem copyFd_of_empty {sourceFd : Int} {target : Nat} {closed : List Nat}
    (empty : t.fdArray target = none) (copy_eq : t.copyFd sourceFd target = .ok (t', closed)) :
    ∃ (source : Nat) (describer : FileDescriber), source = sourceFd ∧ source < arrayLength ∧
      target < arrayLength ∧ t.fdArray source = some describer ∧
      t' = t.put target (.new describer.file describer.fileAccessType) ∧ closed = [] := by
  obtain ⟨source, target', describer, source_eq, target_eq, sourceRange, targetRange, -, describer_eq,
    rfl, rfl⟩ := copyFd_eq_ok copy_eq
  obtain rfl : target' = target := Int.ofNat.inj target_eq
  rw [erase_none empty] at describer_eq ⊢
  exact ⟨source, describer, source_eq, sourceRange, targetRange, describer_eq, rfl, rfl⟩

end Table

namespace Files

variable {files files' : Files} {ret : Int} {closed : List Nat}

def Plain (files : Files) : Prop :=
  ∀ fd real, files.occupied fd = some real → real = fd

theorem Plain.init (pipes : FastPipe) : (Files.init pipes).Plain :=
  nofun

theorem Plain.real_eq (plain : files.Plain) (fd : Int) : files.sysGetRealFd fd = fd := by
  unfold sysGetRealFd
  cases bound : files.occupied fd with
  | none => rfl
  | some real => exact plain fd real bound

theorem Plain.congr (plain : files.Plain) (occupied_eq : files'.occupied = files.occupied) :
    files'.Plain := by
  unfold Plain
  rw [occupied_eq]
  exact plain

theorem Plain.bind (plain : files.Plain) (fd : Int) :
    ({ files with occupied := Function.update files.occupied fd (some fd) } : Files).Plain := by
  intro other real bound
  by_cases same : other = fd
  · subst same
    simpa using bound.symm
  · exact plain other real (by simpa [same] using bound)

def Idle : FileCall → Int → Prop
  | .openat _ res, ret => res ≠ 0 ∧ ret = -1
  | .dup3 oldFd newFd, ret => oldFd = newFd ∧ ret = -1
  | .fcntl _ flag _, ret => flag = fGetfl ∧ ret = oRdwr
  | _, _ => False

inductive Effect (t : Table) (pipes : FastPipe) : FileCall → Int → List Nat → Table → FastPipe → Prop
  | unchanged {call : FileCall} {ret : Int} : Idle call ret → Effect t pipes call ret [] t pipes
  | opened {path : List Char} {slot : Nat} : slot < arrayLength → t.fdArray slot = none →
      Effect t pipes (.openat path 0) slot [] ((t.newFile path).put slot (.new t.nextFile .rw)) pipes
  | closed {slot : Nat} {describer : FileDescriber} : slot < arrayLength →
      t.fdArray slot = some describer →
      Effect t pipes (.close slot) 0 (t.erase slot).2 (t.erase slot).1 pipes
  | copied {call : FileCall} {source target : Nat} {describer : FileDescriber} :
      (call = .dup source ∨ ∃ flag newFd, flag ≠ fGetfl ∧ call = .fcntl source flag newFd) →
      source < arrayLength → target < arrayLength → t.fdArray source = some describer →
      t.fdArray target = none →
      Effect t pipes call target [] (t.put target (.new describer.file describer.fileAccessType)) pipes
  | replaced {source target : Nat} {describer : FileDescriber} : source ≠ target →
      source < arrayLength → target < arrayLength → t.fdArray source = some describer →
      Effect t pipes (.dup3 source target) target (t.erase target).2
        ((t.erase target).1.put target (.new describer.file describer.fileAccessType)) pipes
  | piped {readFd writeFd : Nat} {pipes' : FastPipe} : readFd < arrayLength → writeFd < arrayLength →
      readFd ≠ writeFd → t.fdArray readFd = none → t.fdArray writeFd = none →
      pipes.openPipe (readFd, writeFd) = .ok pipes' →
      Effect t pipes .pipe2 0 []
        (((t.newFile []).put readFd (pipeEnd t.nextFile)).put writeFd (pipeEnd t.nextFile)) pipes'

theorem copyFd_eq_ok {sourceFd targetFd : Int}
    (copy_eq : files.copyFd sourceFd targetFd = .ok (files', closed)) :
    files.table.copyFd sourceFd targetFd = .ok (files'.table, closed) ∧
      files'.pipes = files.pipes ∧ files'.occupied = files.occupied := by
  obtain ⟨⟨table, more⟩, table_eq, last_eq⟩ := bind_eq_ok.1 copy_eq
  cases last_eq
  exact ⟨table_eq, rfl, rfl⟩

theorem effect_of_exec (plain : files.Plain) {call : FileCall}
    (exec_eq : files.exec call = .ok (ret, files', closed)) : files'.Plain ∧
      Effect files.table files.pipes call ret closed files'.table files'.pipes := by
  cases call with
  | openat path res =>
    obtain ⟨⟨ret', files₁⟩, open_eq, last_eq⟩ := bind_eq_ok.1 exec_eq
    cases last_eq
    obtain ⟨fd, find_eq, open_eq⟩ := bind_eq_ok.1 open_eq
    obtain ⟨⟨fr, table⟩, table_eq, last_eq⟩ := bind_eq_ok.1 open_eq
    cases last_eq
    obtain ⟨rfl, ⟨rfl, failed⟩ | ⟨rfl, slot, slot_eq, inRange, empty, rfl⟩⟩ :=
      Table.openNewFile_eq_ok table_eq
    · rw [if_pos failed]
      exact ⟨plain, .unchanged ⟨failed, rfl⟩⟩
    · obtain rfl : slot = fd := Int.ofNat.inj slot_eq
      exact ⟨plain, .opened inRange empty⟩
  | close fd =>
    obtain ⟨⟨files₁, more⟩, close_eq, last_eq⟩ := bind_eq_ok.1 exec_eq
    cases last_eq
    obtain ⟨⟨table, more⟩, table_eq, last_eq⟩ := bind_eq_ok.1 close_eq
    cases last_eq
    rw [plain.real_eq] at table_eq
    obtain ⟨slot, rfl, inRange, ⟨describer, describer_eq⟩, rfl, rfl⟩ :=
      Table.tryCloseFile_eq_ok table_eq
    exact ⟨plain, .closed inRange describer_eq⟩
  | dup fd =>
    have dup_eq : files.sysDup fd = .ok (ret, files', closed) := exec_eq
    unfold sysDup at dup_eq
    rw [plain.real_eq] at dup_eq
    obtain ⟨newFd, find_eq, dup_eq⟩ := bind_eq_ok.1 dup_eq
    obtain ⟨⟨files₁, more⟩, copy_eq, last_eq⟩ := bind_eq_ok.1 dup_eq
    cases last_eq
    obtain ⟨-, inRange, empty⟩ := Table.findUnusedFdBiggerOrEqual_eq_ok find_eq
    obtain ⟨copied, pipes_eq, occupied_eq⟩ := copyFd_eq_ok copy_eq
    obtain ⟨source, describer, rfl, sourceRange, targetRange, source_eq, table_eq, rfl⟩ :=
      Table.copyFd_of_empty empty copied
    rw [table_eq, pipes_eq]
    exact ⟨(plain.bind newFd).congr occupied_eq,
      .copied (.inl rfl) sourceRange targetRange source_eq empty⟩
  | dup3 oldFd newFd =>
    have dup_eq : files.sysDup3 oldFd newFd = .ok (ret, files', closed) := exec_eq
    unfold sysDup3 at dup_eq
    rw [plain.real_eq, plain.real_eq] at dup_eq
    dsimp only at dup_eq
    split at dup_eq
    next same =>
      cases dup_eq
      exact ⟨plain, .unchanged ⟨same, rfl⟩⟩
    next different =>
      obtain ⟨⟨files₁, more⟩, copy_eq, last_eq⟩ := bind_eq_ok.1 dup_eq
      cases last_eq
      obtain ⟨copied, pipes_eq, occupied_eq⟩ := copyFd_eq_ok copy_eq
      obtain ⟨source, target, describer, rfl, rfl, sourceRange, targetRange, -, source_eq, table_eq,
        rfl⟩ := Table.copyFd_eq_ok copied
      have notSame : source ≠ target := fun same => different (congrArg Int.ofNat same)
      rw [Table.erase_slot _ _ _ notSame] at source_eq
      dsimp only
      rw [table_eq, pipes_eq]
      exact ⟨plain.congr occupied_eq, .replaced notSame sourceRange targetRange source_eq⟩
  | fcntl oldFd flag newFd =>
    have fcntl_eq : files.sysFcntl oldFd flag newFd = .ok (ret, files', closed) := exec_eq
    unfold sysFcntl at fcntl_eq
    rw [plain.real_eq, plain.real_eq] at fcntl_eq
    dsimp only at fcntl_eq
    split at fcntl_eq
    next get =>
      cases fcntl_eq
      exact ⟨plain, .unchanged ⟨get, rfl⟩⟩
    next notGet =>
      obtain ⟨actualFd, find_eq, fcntl_eq⟩ := bind_eq_ok.1 fcntl_eq
      obtain ⟨⟨files₁, more⟩, copy_eq, last_eq⟩ := bind_eq_ok.1 fcntl_eq
      cases last_eq
      obtain ⟨-, inRange, empty⟩ := Table.findUnusedFdBiggerOrEqual_eq_ok find_eq
      obtain ⟨copied, pipes_eq, occupied_eq⟩ := copyFd_eq_ok copy_eq
      obtain ⟨source, describer, rfl, sourceRange, targetRange, source_eq, table_eq, rfl⟩ :=
        Table.copyFd_of_empty empty copied
      dsimp only
      rw [table_eq, pipes_eq]
      exact ⟨plain.congr occupied_eq,
        .copied (.inr ⟨flag, newFd, notGet, rfl⟩) sourceRange targetRange source_eq empty⟩
  | pipe2 =>
    obtain ⟨files₁, create_eq, last_eq⟩ := bind_eq_ok.1 exec_eq
    cases last_eq
    obtain ⟨readFd, read_eq, create_eq⟩ := bind_eq_ok.1 create_eq
    obtain ⟨writeFd, write_eq, create_eq⟩ := bind_eq_ok.1 create_eq
    obtain ⟨pipes, pipes_eq, last_eq⟩ := bind_eq_ok.1 create_eq
    cases last_eq
    obtain ⟨-, readRange, readEmpty⟩ := Table.findUnusedFdBiggerOrEqual_eq_ok read_eq
    obtain ⟨above, writeRange, writeEmpty⟩ := Table.findUnusedFdBiggerOrEqual_eq_ok write_eq
    exact ⟨plain, .piped readRange writeRange (by omega) readEmpty writeEmpty pipes_eq⟩

variable {t t' : Table} {pipes pipes' : FastPipe} {call : FileCall}

theorem Effect.keeps (effect : Effect t pipes call ret closed t' pipes') :
    t.nextFile ≤ t'.nextFile ∧ (∀ file < t.nextFile, t'.path file = t.path file) ∧
      ∀ slot, pipes.fdToBuffAddress slot ≠ none → pipes'.fdToBuffAddress slot ≠ none := by
  have newFile_path : ∀ path file, file < t.nextFile → (t.newFile path).path file = t.path file :=
    fun path file made => by simp [Table.newFile, Nat.ne_of_lt made]
  cases effect with
  | unchanged idle => exact ⟨Nat.le_refl _, fun _ _ => rfl, fun _ => id⟩
  | opened inRange empty => exact ⟨Nat.le_succ _, newFile_path _, fun _ => id⟩
  | @closed slot found inRange found_eq =>
    obtain ⟨path_eq, next_eq⟩ := t.erase_frame slot
    exact ⟨next_eq.ge, fun file _ => congrFun path_eq file, fun _ => id⟩
  | copied isCopy sourceRange targetRange source_eq empty =>
    exact ⟨Nat.le_refl _, fun _ _ => rfl, fun _ => id⟩
  | @replaced source target found different sourceRange targetRange source_eq =>
    obtain ⟨path_eq, next_eq⟩ := t.erase_frame target
    exact ⟨next_eq.ge, fun file _ => congrFun path_eq file, fun _ => id⟩
  | piped readRange writeRange different readEmpty writeEmpty open_eq =>
    refine ⟨Nat.le_succ _, newFile_path _, fun slot given => ?_⟩
    unfold FastPipe.openPipe at open_eq
    split at open_eq
    · cases open_eq
    cases open_eq
    simp only [Function.update_apply]
    split
    · nofun
    · split
      · nofun
      · exact given

end Files

def noPipes : FastPipe :=
  ⟨fun _ => none, fun _ => ⟨(0, 0), 0, 0, 0⟩, fun _ _ => 0, 0⟩

end SysCore.Fd
