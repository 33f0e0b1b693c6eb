import SysCore.Fd.Io

/-!
# Opening a path twice

Every `sys_openat` makes an `OpenedFile` of its own, which is closed with its
last descriptor.  `FS` has one element for a path: a second open replaces the
element of the first, both descriptors move one position, and the close of
either one erases the element of both.
-/

namespace SysCore.Fd

open Transition Pipe Sched Fs

def FileCall.Uses (fd : Nat) : FileCall → Prop
  | .close given => given = fd
  | .dup given => given = fd
  | .dup3 oldFd newFd => oldFd = fd ∨ newFd = fd
  | .fcntl oldFd _ _ => oldFd = fd
  | _ => False

def IoCall.On {μ : Type} (fd : Nat) : IoCall μ → Prop
  | .read given _ _ _ => given = fd
  | .write given _ _ => given = fd
  | .lseek given _ _ => given = fd
  | .descriptor call _ => call = .close fd
  | .other _ => True
  | _ => False

namespace Io

variable {μ δ φ : Type} (ifs : Ifs δ φ)

def SpareStep (fd : Nat) (io : Io μ δ φ) (call : IoCall μ) (io' : Io μ δ φ) : Prop :=
  io.Step ifs call io' ∧ ∀ fileCall, call.Issues fileCall → ¬ fileCall.Uses fd

def OnStep (fd : Nat) (io : Io μ δ φ) (call : IoCall μ) (io' : Io μ δ φ) : Prop :=
  call.On fd ∧ io.Step ifs call io'

def Independent {Data Disk : Type} (fat : FatFs Data Disk) (io : Io μ Device (Devices Data Disk))
    (path : List Char) (f g : Nat) : Prop :=
  ∀ calls later, Run (OnStep (devices fat) f) io calls later →
    FS.tell fat later.mounts.data path = FS.tell fat io.mounts.data path ∧
      ∀ (buf : Nat → UInt8) (mapped : Nat → Bool) (count : Int), (∀ i : Nat, i < count → mapped i) →
        ∃ result, later.sysRead (devices fat) g buf mapped count = .ok result

end Io

/-! ## An opened file with one descriptor -/

namespace Table

variable {t : Table} {fd : Nat}

theorem erase_count {file : Nat}
    (other : ∀ describer, t.fdArray fd = some describer → describer.file ≠ file) :
    (t.erase fd).1.count file = t.count file := by
  unfold erase
  split
  · rfl
  · split
    · rfl
    next describer slot_eq =>
      dsimp only
      split
      · exact Function.update_of_ne (Ne.symm (other describer slot_eq)) _ _
      · rfl

theorem mem_erase_closed {file : Nat} (closed : file ∈ (t.erase fd).2) :
    ∃ describer, t.fdArray fd = some describer ∧ describer.file = file := by
  unfold erase at closed
  split at closed
  · cases closed
  · split at closed
    · cases closed
    next describer slot_eq =>
      dsimp only at closed
      split at closed
      · simp only [decrease] at closed
        split at closed
        · exact ⟨describer, slot_eq, (List.mem_singleton.1 closed).symm⟩
        · cases closed
      · cases closed

structure Sane (t : Table) : Prop where
  made : ∀ fd describer, t.fdArray fd = some describer → describer.file < t.nextFile
  one : t.fdArray 1 ≠ none

theorem Sane.init : Sane .init where
  made fd describer slot_eq := by
    rcases init_slot slot_eq with rfl | rfl <;> decide
  one := by decide

theorem Sane.newFile (sane : Sane t) (path : List Char) : Sane (t.newFile path) where
  made other describer slot_eq := Nat.lt_succ_of_lt (sane.made other describer slot_eq)
  one := sane.one

theorem Sane.put (sane : Sane t) {describer : FileDescriber} (made : describer.file < t.nextFile) :
    Sane (t.put fd describer) where
  made other found slot_eq := by
    rcases put_describer slot_eq with ⟨-, rfl⟩ | slot_eq
    · exact made
    · exact sane.made other found slot_eq
  one := by
    rw [put_slot]
    split
    · nofun
    · exact sane.one

theorem Sane.erase (sane : Sane t) : Sane (t.erase fd).1 where
  made other describer slot_eq := by
    obtain ⟨before, before_eq, file_eq, -⟩ := erase_describer slot_eq
    rw [(t.erase_frame fd).2, ← file_eq]
    exact sane.made other before before_eq
  one := by
    by_cases same : 1 = fd
    · rw [← same, erase_one]
      exact sane.one
    · rw [erase_slot _ _ _ same]
      exact sane.one

structure Sole (t : Table) (fd file : Nat) (path : List Char) : Prop where
  notOne : fd ≠ 1
  inRange : fd < arrayLength
  slot_eq : t.fdArray fd = some (.new file .rw)
  count_eq : t.count file = 1
  path_eq : t.path file = path
  made : file < t.nextFile
  sole : ∀ other describer, t.fdArray other = some describer → describer.file = file → other = fd

variable {file : Nat} {path : List Char}

theorem Sane.sole (sane : Sane t) (inRange : fd < arrayLength) (empty : t.fdArray fd = none)
    (path : List Char) : Sole ((t.newFile path).put fd (.new t.nextFile .rw)) fd t.nextFile path where
  notOne := by
    rintro rfl
    exact sane.one empty
  inRange := inRange
  slot_eq := by rw [put_slot, if_pos rfl]
  count_eq := by simp [Table.put, increase, setSlot, Table.newFile, FileDescriber.new]
  path_eq := by simp [Table.put, increase, setSlot, Table.newFile]
  made := Nat.lt_succ_self _
  sole other describer slot_eq file_eq := by
    rcases put_describer slot_eq with ⟨same, -⟩ | slot_eq
    · exact same
    · exact absurd file_eq (Nat.ne_of_lt (sane.made other describer slot_eq))

theorem Sole.newFile (sole : Sole t fd file path) (other : List Char) :
    Sole (t.newFile other) fd file path where
  notOne := sole.notOne
  inRange := sole.inRange
  slot_eq := sole.slot_eq
  count_eq := by simp [Table.newFile, Nat.ne_of_lt sole.made, sole.count_eq]
  path_eq := by simp [Table.newFile, Nat.ne_of_lt sole.made, sole.path_eq]
  made := Nat.lt_succ_of_lt sole.made
  sole := sole.sole

theorem Sole.put (sole : Sole t fd file path) {other : Nat} (notSame : other ≠ fd)
    {describer : FileDescriber} (notFile : describer.file ≠ file) :
    Sole (t.put other describer) fd file path where
  notOne := sole.notOne
  inRange := sole.inRange
  slot_eq := by
    rw [put_slot, if_neg (Ne.symm notSame)]
    exact sole.slot_eq
  count_eq := by
    rw [← sole.count_eq]
    exact Function.update_of_ne (Ne.symm notFile) _ _
  path_eq := sole.path_eq
  made := sole.made
  sole third found slot_eq file_eq := by
    rcases put_describer slot_eq with ⟨-, rfl⟩ | slot_eq
    · exact absurd file_eq notFile
    · exact sole.sole third found slot_eq file_eq

theorem Sole.erase (sole : Sole t fd file path) {other : Nat} (notSame : other ≠ fd) :
    Sole (t.erase other).1 fd file path where
  notOne := sole.notOne
  inRange := sole.inRange
  slot_eq := by
    rw [erase_slot _ _ _ (Ne.symm notSame)]
    exact sole.slot_eq
  count_eq := by
    rw [erase_count fun describer slot_eq file_eq => notSame (sole.sole other describer slot_eq file_eq)]
    exact sole.count_eq
  path_eq := (congrFun (t.erase_frame other).1 file).trans sole.path_eq
  made := (t.erase_frame other).2.symm ▸ sole.made
  sole third found slot_eq file_eq := by
    obtain ⟨before, before_eq, same, -⟩ := erase_describer slot_eq
    exact sole.sole third before before_eq (same.trans file_eq)

end Table

namespace Files

open Table

theorem exec_close_of_some {files : Files} (plain : files.Plain) {fd : Nat} (inRange : fd < arrayLength)
    {describer : FileDescriber} (slot_eq : files.table.fdArray fd = some describer) :
    files.exec (.close fd) =
      .ok (0, { files with table := (files.table.erase fd).1 }, (files.table.erase fd).2) := by
  have close_eq : files.table.tryCloseFile fd = .ok (files.table.erase fd) := by
    unfold tryCloseFile
    rw [index_eq_ok.2 ⟨rfl, inRange⟩, ok_bind, slot_eq]
    rfl
  simp [exec, sysClose, plain.real_eq, close_eq]

theorem exec_close_of_none {files : Files} (plain : files.Plain) {fd : Nat} (inRange : fd < arrayLength)
    (slot_eq : files.table.fdArray fd = none) : files.exec (.close fd) = .error .panic := by
  have close_eq : files.table.tryCloseFile fd = .error .panic := by
    unfold tryCloseFile
    rw [index_eq_ok.2 ⟨rfl, inRange⟩, ok_bind, slot_eq]
  simp [exec, sysClose, plain.real_eq, close_eq]

variable {t t' : Table} {pipes pipes' : FastPipe} {call : FileCall} {ret : Int} {closed : List Nat}

theorem Effect.sane (effect : Effect t pipes call ret closed t' pipes') (sane : Sane t) : Sane t' := by
  cases effect with
  | unchanged idle => exact sane
  | opened inRange empty => exact (sane.newFile _).put (Nat.lt_succ_self _)
  | closed inRange found => exact sane.erase
  | copied isCopy sourceRange targetRange source_eq empty =>
    have made := sane.made _ _ source_eq
    exact sane.put made
  | @replaced source target found different sourceRange targetRange source_eq =>
    have made := sane.made _ _ source_eq
    rw [← (t.erase_frame target).2] at made
    exact sane.erase.put made
  | piped readRange writeRange different readEmpty writeEmpty open_eq =>
    exact ((sane.newFile _).put (Nat.lt_succ_self _)).put (Nat.lt_succ_self _)

theorem Effect.sole (effect : Effect t pipes call ret closed t' pipes') {fd file : Nat}
    {path : List Char} (unused : ¬ call.Uses fd) (sole : Sole t fd file path) :
    Sole t' fd file path := by
  have ne_of_empty : ∀ {other : Nat}, t.fdArray other = none → other ≠ fd := by
    rintro other empty rfl
    cases sole.slot_eq.symm.trans empty
  have notNew : t.nextFile ≠ file := Nat.ne_of_gt sole.made
  cases effect with
  | unchanged idle => exact sole
  | opened inRange empty => exact (sole.newFile _).put (ne_of_empty empty) notNew
  | @closed slot found inRange found_eq =>
    exact sole.erase fun same => unused (congrArg Int.ofNat same)
  | @copied _ source target describer isCopy sourceRange targetRange source_eq empty =>
    refine sole.put (ne_of_empty empty) fun file_eq => unused ?_
    obtain rfl := sole.sole source describer source_eq file_eq
    rcases isCopy with rfl | ⟨flag, given, -, rfl⟩
    · exact rfl
    · exact rfl
  | @replaced source target describer different sourceRange targetRange source_eq =>
    have notTarget : target ≠ fd := fun same => unused (.inr (congrArg Int.ofNat same))
    refine (sole.erase notTarget).put notTarget fun file_eq => unused (.inl ?_)
    exact congrArg Int.ofNat (sole.sole source describer source_eq file_eq)
  | piped readRange writeRange different readEmpty writeEmpty open_eq =>
    exact ((sole.newFile _).put (ne_of_empty readEmpty) notNew).put (ne_of_empty writeEmpty) notNew

end Files

/-! ## The two opens -/

namespace Io

section Opens

variable {μ δ φ : Type} {ifs : Ifs δ φ} {io io' : Io μ δ φ} {path : List Char} {flag f g file : Nat}

theorem sysOpenat_eq_ok (plain : io.files.Plain)
    (open_eq : io.sysOpenat ifs path flag = .ok ((f : Int), io')) :
    io'.files.Plain ∧ f < arrayLength ∧ io.files.table.fdArray f = none ∧
      io'.files.table = (io.files.table.newFile path).put f (.new io.files.table.nextFile .rw) := by
  obtain ⟨⟨res, mounts⟩, -, file_eq⟩ := bind_eq_ok.1 open_eq
  obtain ⟨closed, files_eq, -⟩ := sysFile_eq_ok file_eq
  obtain ⟨plain', effect⟩ := Files.effect_of_exec plain files_eq
  refine ⟨plain', ?_⟩
  generalize ret_eq : (f : Int) = ret at effect
  generalize io'.files.table = t', io'.files.pipes = pipes' at effect ⊢
  cases effect with
  | unchanged idle =>
    obtain ⟨-, failed⟩ := idle
    omega
  | @opened _ slot inRange empty =>
    obtain rfl : f = slot := Int.ofNat.inj ret_eq
    exact ⟨inRange, empty, rfl⟩
  | copied isCopy => rcases isCopy with call_eq | ⟨_, _, -, call_eq⟩ <;> cases call_eq

def Holding (io : Io μ δ φ) (path : List Char) (f file : Nat) : Prop :=
  io.files.Plain ∧ io.files.table.Sane ∧ io.files.table.Sole f file path

theorem Holding.step {call : IoCall μ} (holding : io.Holding path f file)
    (step : SpareStep ifs f io call io') : io'.Holding path f file := by
  obtain ⟨plain, sane, sole⟩ := holding
  obtain ⟨exec_eq, unused⟩ := step
  obtain ⟨plain', ⟨fileCall, ret, closed, issued, effect⟩ | ⟨table_eq, -⟩⟩ := effect_of_exec plain exec_eq
  · exact ⟨plain', effect.sane sane, effect.sole (unused fileCall issued) sole⟩
  · unfold Holding
    rw [table_eq]
    exact ⟨plain', sane, sole⟩

structure Pair (io : Io μ δ φ) (path : List Char) (f g : Nat) : Prop where
  plain : io.files.Plain
  different : g ≠ f
  first : ∃ file, io.files.table.Sole f file path
  second : ∃ file, io.files.table.Sole g file path

theorem pair_of_opens {start io₁ io₂ io₃ : Io μ δ φ} {labels between : List (IoCall μ)} {flag' : Nat}
    (initial : start.Initial) (run : Run (Step ifs) start labels io)
    (first : io.sysOpenat ifs path flag = .ok ((f : Int), io₁))
    (used : Run (SpareStep ifs f) io₁ between io₂)
    (second : io₂.sysOpenat ifs path flag' = .ok ((g : Int), io₃)) : Pair io₃ path f g := by
  obtain ⟨plain, sane⟩ := @invariant_of_run _ _ _ _ _ (fun t _ => t.Sane) _ _ initial run
    Table.Sane.init fun effect sane => effect.sane sane
  obtain ⟨plain₁, inRange, empty, table_eq⟩ := sysOpenat_eq_ok plain first
  have holding₁ : io₁.Holding path f io.files.table.nextFile := by
    unfold Holding
    rw [table_eq]
    exact ⟨plain₁, (sane.newFile _).put (Nat.lt_succ_self _), sane.sole inRange empty path⟩
  obtain ⟨plain₂, sane₂, sole⟩ := @Run.invariant _ _ (SpareStep ifs f)
    (fun io => io.Holding path f _) (fun inv step => inv.step step) _ _ _ used holding₁
  obtain ⟨plain₃, inRange', empty', table_eq'⟩ := sysOpenat_eq_ok plain₂ second
  have different : g ≠ f := by
    rintro rfl
    cases sole.slot_eq.symm.trans empty'
  refine ⟨plain₃, different, ⟨io.files.table.nextFile, ?_⟩, ⟨io₂.files.table.nextFile, ?_⟩⟩
  · rw [table_eq']
    exact (sole.newFile path).put different (Nat.ne_of_gt sole.made)
  · rw [table_eq']
    exact sane₂.sole inRange' empty' path

end Opens

variable {μ Data Disk : Type} {fat : FatFs Data Disk} {io io' : Io μ Device (Devices Data Disk)}
  {path : List Char} {f g : Nat} {start : Io μ Device (Devices Data Disk)}

/-! ## A path behind `ZeroFs` -/

structure Quiet (start io : Io μ Device (Devices Data Disk)) (path : List Char) (f g : Nat) :
    Prop where
  plain : io.files.Plain
  mounts_eq : io.mounts = start.mounts
  second : ∃ describer, io.files.table.fdArray g = some describer ∧ describer.isPipe = false ∧
    io.files.table.path describer.file = path
  first : ∀ describer, io.files.table.fdArray f = some describer → describer.isPipe = false ∧
    io.files.table.path describer.file = path

theorem Quiet.same (quiet : Quiet start io path f g) (same : SameFiles io io')
    (mounts_eq : io'.mounts = io.mounts) : Quiet start io' path f g := by
  obtain ⟨table_eq, occupied_eq, -⟩ := same
  refine ⟨quiet.plain.congr occupied_eq, mounts_eq.trans quiet.mounts_eq, ?_, ?_⟩
  · rw [table_eq]
    exact quiet.second
  · rw [table_eq]
    exact quiet.first

theorem closeFiles_of_harmless {paths : List (List Char)} {m m' : Mounts Device (Devices Data Disk)}
    (harmless : m.Harmless path) (only : ∀ other ∈ paths, other = path)
    (close_eq : closeFiles (devices fat) paths m = .ok m') : m' = m := by
  induction paths generalizing m' with
  | nil =>
    cases close_eq
    rfl
  | cons other rest ih =>
    obtain ⟨⟨ret, m₁⟩, first_eq, rest_eq⟩ := bind_eq_ok.1 close_eq
    rw [only other List.mem_cons_self] at first_eq
    rw [harmless.close first_eq] at rest_eq
    exact ih (fun other mem => only other (List.mem_cons_of_mem _ mem)) rest_eq

theorem Quiet.close (quiet : Quiet start io path f g) (harmless : io.mounts.Harmless path)
    (different : g ≠ f) (files_eq : io'.files = { io.files with table := (io.files.table.erase f).1 })
    (close_eq : closeFiles (devices fat) ((io.files.table.erase f).2.map io.files.table.path)
      io.mounts = .ok io'.mounts) : Quiet start io' path f g := by
  have only : ∀ other ∈ (io.files.table.erase f).2.map io.files.table.path, other = path := by
    intro other mem
    obtain ⟨file, closed, rfl⟩ := List.mem_map.1 mem
    obtain ⟨describer, slot_eq, rfl⟩ := Table.mem_erase_closed closed
    exact (quiet.first describer slot_eq).2
  have path_eq : ∀ file, (io.files.table.erase f).1.path file = io.files.table.path file :=
    congrFun (io.files.table.erase_frame f).1
  refine ⟨quiet.plain.congr (by rw [files_eq]),
    (closeFiles_of_harmless harmless only close_eq).trans quiet.mounts_eq, ?_, ?_⟩
  · obtain ⟨describer, slot_eq, unmarked, same⟩ := quiet.second
    rw [files_eq]
    refine ⟨describer, ?_, unmarked, (path_eq _).trans same⟩
    rw [Table.erase_slot _ _ _ different]
    exact slot_eq
  · rw [files_eq]
    intro describer slot_eq
    obtain ⟨before, before_eq, file_eq, mark_eq⟩ := Table.erase_describer slot_eq
    obtain ⟨unmarked, same⟩ := quiet.first before before_eq
    exact ⟨mark_eq.symm.trans unmarked, by rw [path_eq, ← file_eq, same]⟩

theorem Quiet.step (harmless : start.mounts.Harmless path) (inRange : f < arrayLength) (different : g ≠ f)
    {call : IoCall μ} (quiet : Quiet start io path f g) (step : OnStep (devices fat) f io call io') :
    Quiet start io' path f g := by
  obtain ⟨isOn, exec_eq⟩ := step
  have harmless' : io.mounts.Harmless path := quiet.mounts_eq ▸ harmless
  have unmarked := fun describer slot_eq => (quiet.first describer slot_eq).1
  have path_of_getFile : ∀ {file}, io.files.table.getFile f = .ok file →
      io.files.table.path file = path := by
    intro file file_eq
    obtain ⟨describer, slot_eq, rfl⟩ := Table.getFile_eq_ok inRange file_eq
    exact (quiet.first describer slot_eq).2
  cases call with
  | openat path flag => cases isOn
  | mkdirat path mode => cases isOn
  | read fd buf mapped count =>
    cases isOn
    obtain ⟨⟨io₁, buf₁⟩, read_eq, last_eq⟩ := bind_eq_ok.1 exec_eq
    cases last_eq
    have same := sameFiles_of_sysRead read_eq
    rw [sysRead_of_unmarked quiet.plain inRange unmarked] at read_eq
    obtain ⟨file, file_eq, read_eq⟩ := bind_eq_ok.1 read_eq
    rw [path_of_getFile file_eq] at read_eq
    obtain ⟨⟨answer, mounts⟩, mounts_eq, read_eq⟩ := bind_eq_ok.1 read_eq
    obtain ⟨io₂, settle_eq, last_eq⟩ := bind_eq_ok.1 read_eq
    cases last_eq
    exact quiet.same same ((settle_frame settle_eq).2.trans (harmless'.read mounts_eq))
  | write fd buf count =>
    cases isOn
    have same := sameFiles_of_sysWrite exec_eq
    have write_eq : io.sysWrite (devices fat) f buf count = .ok io' := exec_eq
    rw [sysWrite_of_unmarked quiet.plain inRange unmarked] at write_eq
    obtain ⟨file, file_eq, write_eq⟩ := bind_eq_ok.1 write_eq
    rw [path_of_getFile file_eq] at write_eq
    obtain ⟨⟨answer, mounts⟩, mounts_eq, settle_eq⟩ := bind_eq_ok.1 write_eq
    exact quiet.same same ((settle_frame settle_eq).2.trans (harmless'.write mounts_eq))
  | lseek fd offset whence =>
    cases isOn
    obtain ⟨file, file_eq, lseek_eq⟩ := bind_eq_ok.1 exec_eq
    rw [quiet.plain.real_eq] at file_eq
    rw [path_of_getFile file_eq] at lseek_eq
    obtain ⟨⟨ret, mounts⟩, mounts_eq, settle_eq⟩ := bind_eq_ok.1 lseek_eq
    exact quiet.same (sameFiles_of_settle settle_eq)
      ((settle_frame settle_eq).2.trans (harmless'.lseek mounts_eq))
  | other op =>
    obtain ⟨⟨sched, events⟩, -, last_eq⟩ := bind_eq_ok.1 exec_eq
    cases last_eq
    exact quiet.same ⟨rfl, rfl, rfl⟩ rfl
  | descriptor fileCall notOpenat =>
    cases isOn
    obtain ⟨⟨ret, io₁⟩, file_eq, last_eq⟩ := bind_eq_ok.1 exec_eq
    cases last_eq
    obtain ⟨closed, files_eq, close_eq, -⟩ := sysFile_eq_ok file_eq
    cases slot_eq : io.files.table.fdArray f with
    | none =>
      rw [Files.exec_close_of_none quiet.plain inRange slot_eq] at files_eq
      cases files_eq
    | some describer =>
      rw [Files.exec_close_of_some quiet.plain inRange slot_eq] at files_eq
      obtain ⟨-, rest_eq⟩ := Prod.mk.inj (Except.ok.inj files_eq)
      obtain ⟨after_eq, rfl⟩ := Prod.mk.inj rest_eq
      exact quiet.close harmless' different after_eq.symm close_eq

/-! ## A path behind another file system -/

theorem exec_close (fat : FatFs Data Disk) (plain : io.files.Plain) {file : Nat} (sole : io.files.table.Sole f file path)
    {node : Position} (search_eq : Vfs.search io.mounts.root path = .ok (some node))
    (isFat : io.mounts.fs node = .fat) {el : FsElement Data}
    (el_eq : io.mounts.data.pathToFsEl.get? path = some el) (notOpenat) :
    ∃ later, io.exec (devices fat) (.descriptor (.close f) notOpenat) = .ok later ∧
      later.files.table = (io.files.table.erase f).1 ∧ later.files.Plain ∧
      later.mounts.root = io.mounts.root ∧ later.mounts.fs = io.mounts.fs ∧
      later.mounts.data.pathToFsEl.get? path = none := by
  have notEmpty : path ≠ [] := by
    rintro rfl
    exact Mounts.search_ne_some_of_empty _ _ search_eq
  have closed_eq : (io.files.table.erase f).2 = [file] := by
    rw [Table.erase_delete sole.notOne sole.slot_eq (Int.le_refl 1)]
    simp [Table.decrease, FileDescriber.new, sole.count_eq, sole.path_eq, notEmpty]
  have close_eq : closeFiles (devices fat) [path] io.mounts = .ok { io.mounts with
      data := { io.mounts.data with
        disk := (fat.fClose io.mounts.data.disk el.data).2
        pathToFsEl := io.mounts.data.pathToFsEl.erase path } } := by
    unfold closeFiles Mounts.close
    rw [Mounts.adapter_of_some search_eq, isFat]
    simp [devices, FS.close, FS.get, el_eq, closeFiles]
  have exec_eq : io.exec (devices fat) (.descriptor (.close f) notOpenat) = .ok
      { files := { io.files with table := (io.files.table.erase f).1 }
        mounts := { io.mounts with
          data := { io.mounts.data with
            disk := (fat.fClose io.mounts.data.disk el.data).2
            pathToFsEl := io.mounts.data.pathToFsEl.erase path } }
        sched := returnValue io.sched (toRegister 0) } := by
    simp [exec, sysFile, Files.exec_close_of_some plain sole.inRange sole.slot_eq, closed_eq,
      sole.path_eq, close_eq]
  exact ⟨_, exec_eq, rfl, plain, rfl, rfl, Container.Map.get?_erase_self _ _⟩

theorem sysRead_of_error {halt : Halt} (plain : io.files.Plain) (inRange : g < arrayLength)
    {describer : FileDescriber} (slot_eq : io.files.table.fdArray g = some describer)
    (unmarked : describer.isPipe = false) (path_eq : io.files.table.path describer.file = path)
    {buf : Nat → UInt8} {mapped : Nat → Bool} {count : Int}
    (error_eq : io.mounts.read (devices fat) path buf mapped count = .error halt) :
    io.sysRead (devices fat) g buf mapped count = .error halt := by
  rw [sysRead_of_file plain inRange slot_eq unmarked, path_eq]
  unfold fileRead
  rw [error_eq]
  rfl

theorem read_of_missing {m : Mounts Device (Devices Data Disk)} {node : Position}
    (search_eq : Vfs.search m.root path = .ok (some node)) (isFat : m.fs node = .fat)
    (missing : m.data.pathToFsEl.get? path = none) (buf : Nat → UInt8) (mapped : Nat → Bool)
    (count : Int) : m.read (devices fat) path buf mapped count = .error .panic := by
  unfold Mounts.read
  rw [Mounts.adapter_of_some search_eq, isFat]
  simp [devices, FS.read, FS.get, missing]

theorem read_cases (fat : FatFs Data Disk) (m : Mounts Device (Devices Data Disk)) (path : List Char)
    (buf : Nat → UInt8) (mapped : Nat → Bool) (count : Int) : m.Harmless path ∨
      (∃ halt, m.read (devices fat) path buf mapped count = .error halt) ∨
      ∃ node el, Vfs.search m.root path = .ok (some node) ∧ m.fs node = .fat ∧
        m.data.pathToFsEl.get? path = some el := by
  cases search_eq : Vfs.search m.root path with
  | error halt => exact .inr (.inl ⟨halt, Mounts.adapter_of_error search_eq⟩)
  | ok found =>
    cases found with
    | none => exact .inl (.inl search_eq)
    | some node =>
      cases fs_eq : m.fs node with
      | zero => exact .inl (.inr ⟨node, search_eq, fs_eq⟩)
      | stdout =>
        refine .inr (.inl ⟨.panic, ?_⟩)
        unfold Mounts.read
        rw [Mounts.adapter_of_some search_eq, fs_eq]
        rfl
      | null =>
        refine .inr (.inl ⟨.panic, ?_⟩)
        unfold Mounts.read
        rw [Mounts.adapter_of_some search_eq, fs_eq]
        rfl
      | fat =>
        cases el_eq : m.data.pathToFsEl.get? path with
        | none => exact .inr (.inl ⟨.panic, read_of_missing search_eq fs_eq el_eq buf mapped count⟩)
        | some el => exact .inr (.inr ⟨node, el, rfl, fs_eq, rfl⟩)

/-- Two opens of a path do not interfere exactly if it has no node or is behind
`ZeroFs`. -/
theorem independent_iff_of_opens {start io₁ io₂ io₃ : Io μ Device (Devices Data Disk)}
    {labels between : List (IoCall μ)} {flag flag' : Nat} (initial : start.Initial)
    (run : Run (Step (devices fat)) start labels io)
    (first : io.sysOpenat (devices fat) path flag = .ok ((f : Int), io₁))
    (used : Run (SpareStep (devices fat) f) io₁ between io₂)
    (second : io₂.sysOpenat (devices fat) path flag' = .ok ((g : Int), io₃)) :
    Independent fat io₃ path f g ↔ io₃.mounts.Harmless path := by
  obtain ⟨plain, different, ⟨file, sole⟩, ⟨file', sole'⟩⟩ := pair_of_opens initial run first used second
  constructor
  · intro independent
    rcases read_cases fat io₃.mounts path (fun _ => 0) (fun _ => true) 0 with
      harmless | ⟨halt, error_eq⟩ | ⟨node, el, search_eq, isFat, el_eq⟩
    · exact harmless
    · obtain ⟨result, read_eq⟩ := (independent [] io₃ .nil).2 (fun _ => 0) (fun _ => true) 0
        fun _ _ => rfl
      rw [sysRead_of_error plain sole'.inRange sole'.slot_eq rfl sole'.path_eq error_eq] at read_eq
      cases read_eq
    · obtain ⟨later, exec_eq, table_eq, plain', root_eq, fs_eq, missing⟩ :=
        exec_close fat plain sole search_eq isFat el_eq nofun
      have onF : Run (OnStep (devices fat) f) io₃ [.descriptor (.close f) nofun] later :=
        .snoc .nil ⟨rfl, exec_eq⟩
      obtain ⟨result, read_eq⟩ := (independent _ later onF).2 (fun _ => 0) (fun _ => true) 0
        fun _ _ => rfl
      have slot_eq : later.files.table.fdArray g = some (.new file' .rw) := by
        rw [table_eq, Table.erase_slot _ _ _ different]
        exact sole'.slot_eq
      have path_eq : later.files.table.path file' = path := by
        rw [table_eq, (Table.erase_frame _ _).1]
        exact sole'.path_eq
      rw [← root_eq] at search_eq
      rw [← fs_eq] at isFat
      rw [sysRead_of_error plain' sole'.inRange slot_eq rfl path_eq
        (read_of_missing search_eq isFat missing _ _ _)] at read_eq
      cases read_eq
  · intro harmless calls later onF
    have quiet : Quiet io₃ io₃ path f g := by
      refine ⟨plain, rfl, ⟨_, sole'.slot_eq, rfl, sole'.path_eq⟩, fun describer slot_eq => ?_⟩
      cases sole.slot_eq.symm.trans slot_eq
      exact ⟨rfl, sole.path_eq⟩
    have still := @Run.invariant _ _ (OnStep (devices fat) f) (fun io => Quiet io₃ io path f g)
      (fun inv step => inv.step harmless sole.inRange different step) _ _ _ onF quiet
    obtain ⟨describer, slot_eq, unmarked, path_eq⟩ := still.second
    refine ⟨by rw [still.mounts_eq], fun buf mapped count isMapped => ?_⟩
    have harmless' : later.mounts.Harmless path := still.mounts_eq ▸ harmless
    obtain ⟨value, buf', read_eq⟩ := harmless'.read_returns isMapped buf
    rw [sysRead_of_file still.plain sole'.inRange slot_eq unmarked, path_eq]
    unfold fileRead
    rw [read_eq]
    exact ⟨_, rfl⟩

theorem independent_of_zero : ∃ io₁ io₂,
    booted.sysOpenat (devices endlessFat) ['/', 'd', 'e', 'v', '/', 'z', 'e', 'r', 'o'] 0 =
      .ok (3, io₁) ∧
    io₁.sysOpenat (devices endlessFat) ['/', 'd', 'e', 'v', '/', 'z', 'e', 'r', 'o'] 0 =
      .ok (4, io₂) ∧
    Independent endlessFat io₂ ['/', 'd', 'e', 'v', '/', 'z', 'e', 'r', 'o'] 3 4 := by
  obtain ⟨io₁, first, io₂, second, harmless⟩ : ∃ io₁,
      booted.sysOpenat (devices endlessFat) ['/', 'd', 'e', 'v', '/', 'z', 'e', 'r', 'o'] 0 =
        .ok ((3 : Nat), io₁) ∧ ∃ io₂,
      io₁.sysOpenat (devices endlessFat) ['/', 'd', 'e', 'v', '/', 'z', 'e', 'r', 'o'] 0 =
        .ok ((4 : Nat), io₂) ∧ io₂.mounts.Harmless ['/', 'd', 'e', 'v', '/', 'z', 'e', 'r', 'o'] :=
    ⟨_, rfl, _, rfl, .inr ⟨[0, 1], rfl, rfl⟩⟩
  exact ⟨io₁, io₂, first, second,
    (independent_iff_of_opens booted_initial .nil first .nil second).2 harmless⟩

theorem not_independent_of_close : ∃ io₁ io₂ io₃,
    booted.sysOpenat (devices endlessFat) ['/', 'a'] 0 = .ok (3, io₁) ∧
    io₁.sysOpenat (devices endlessFat) ['/', 'a'] 0 = .ok (4, io₂) ∧
    io₂.exec (devices endlessFat) (.descriptor (.close 3) nofun) = .ok io₃ ∧
    io₃.sysRead (devices endlessFat) 4 (fun _ => 0) (fun _ => true) 1 = .error .panic ∧
    ¬ Independent endlessFat io₂ ['/', 'a'] 3 4 := by
  obtain ⟨io₁, first, io₂, second, io₃, close_eq, read_eq⟩ : ∃ io₁,
      booted.sysOpenat (devices endlessFat) ['/', 'a'] 0 = .ok (3, io₁) ∧ ∃ io₂,
      io₁.sysOpenat (devices endlessFat) ['/', 'a'] 0 = .ok (4, io₂) ∧ ∃ io₃,
      io₂.exec (devices endlessFat) (.descriptor (.close 3) nofun) = .ok io₃ ∧
      io₃.sysRead (devices endlessFat) 4 (fun _ => 0) (fun _ => true) 1 = .error .panic :=
    ⟨_, rfl, _, rfl, _, rfl, rfl⟩
  refine ⟨io₁, io₂, io₃, first, second, close_eq, read_eq, fun independent => ?_⟩
  have onF : Run (OnStep (devices endlessFat) 3) io₂ [.descriptor (.close 3) nofun] io₃ :=
    .snoc .nil ⟨rfl, close_eq⟩
  obtain ⟨result, returned⟩ := (independent _ io₃ onF).2 (fun _ => 0) (fun _ => true) 1 fun _ _ => rfl
  cases read_eq.symm.trans returned

end Io

end SysCore.Fd
