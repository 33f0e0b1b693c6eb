import SysCore.Fd.Io

/-!
# Descriptors outside the table

The system calls take whatever number a program passes and use it as an index of
`fd_array`.  In the model every such access is one to `index`, or a scan that
starts at the given descriptor, and it is a stray access outside the table.

`access` is the part of a call that works on the tables: what `sys_read` and
`sys_write` do before they turn to a pipe or a file system, and all that the other
calls do to descriptors.  `Allowed` says for which arguments that part stays inside
the table: some calls check nothing, and the check of `GetFile` lets one descriptor
too many pass.
-/

namespace SysCore.Fd

open Transition Pipe Sched Fs

inductive FdCall where
  | read (fd : Int)
  | write (fd : Int)
  | close (fd : Int)
  | dup (fd : Int)
  | dup3 (oldFd newFd : Int)
  | fcntl (oldFd : Int) (flag : Nat) (newFd : Int)
  | fstat (fd : Int)
  | lseek (fd : Int)

namespace FdCall

def fd : FdCall → Int
  | read fd | write fd | close fd | dup fd | dup3 fd _ | fcntl fd _ _ | fstat fd | lseek fd => fd

end FdCall

section Calls

variable (files : Files)

def Files.target (fd : Int) : Outcome (Nat ⊕ Nat) := do
  let fd := files.sysGetRealFd fd
  let slot ← index fd
  if (files.table.fdArray slot).any FileDescriber.isPipe then
    return .inl slot
  else do
    let file ← files.table.getFile fd
    return .inr file

def Files.access : FdCall → Outcome Files
  | .read fd => do
    let _ ← files.target fd
    return files
  | .write fd => do
    let _ ← files.target fd
    return files
  | .close fd => do
    let (files, _) ← files.sysClose fd
    return files
  | .dup fd => do
    let (_, files, _) ← files.sysDup fd
    return files
  | .dup3 oldFd newFd => do
    let (_, files, _) ← files.sysDup3 oldFd newFd
    return files
  | .fcntl oldFd flag newFd => do
    let (_, files, _) ← files.sysFcntl oldFd flag newFd
    return files
  | .fstat fd => do
    let _ ← files.table.getFile (files.sysGetRealFd fd)
    return files
  | .lseek fd => do
    let _ ← files.table.getFile (files.sysGetRealFd fd)
    return files

variable {μ δ φ : Type} (ifs : Ifs δ φ) (io : Io μ δ φ)

def Io.sysFstat {κ : Type} (fstat : δ → φ → List Char → κ → Outcome ((Int × κ) × φ)) (fd : Int)
    (stat : κ) : Outcome (Io μ δ φ × κ) := do
  let file ← io.files.table.getFile (io.files.sysGetRealFd fd)
  let path := io.files.table.path file
  let ((ret, stat), mounts) ← io.mounts.adapter path (-1, stat) fun fs data => fstat fs data path stat
  let io ← { io with mounts := mounts }.settle (.returned ret)
  return (io, stat)

theorem Files.target_bind {α : Type} (fd : Int) (pipe file : Nat → Outcome α) :
    files.target fd >>= Sum.elim pipe file = (do
      let slot ← index (files.sysGetRealFd fd)
      if (files.table.fdArray slot).any FileDescriber.isPipe then
        pipe slot
      else
        files.table.getFile (files.sysGetRealFd fd) >>= file) := by
  unfold target
  dsimp only
  cases index (files.sysGetRealFd fd) with
  | error halt => rfl
  | ok slot =>
    rw [ok_bind, ok_bind]
    split
    · rfl
    · cases files.table.getFile (files.sysGetRealFd fd) <;> rfl

theorem Io.sysRead_eq_target (fd : Int) (buf : Nat → UInt8) (mapped : Nat → Bool) (count : Int) :
    io.sysRead ifs fd buf mapped count = io.files.target fd >>=
      Sum.elim (fun slot => io.pipeRead slot buf mapped count)
        fun file => io.fileRead ifs (io.files.table.path file) buf mapped count :=
  (io.files.target_bind fd _ _).symm

theorem Io.sysWrite_eq_target (fd : Int) (buf : Nat → Option UInt8) (count : Int) :
    io.sysWrite ifs fd buf count = io.files.target fd >>=
      Sum.elim (fun slot => io.pipeWrite slot buf count)
        fun file => io.fileWrite ifs (io.files.table.path file) buf count :=
  (io.files.target_bind fd _ _).symm

end Calls

/-! ## Which arguments stay inside -/

def InTable (fd : Int) : Prop :=
  0 ≤ fd ∧ fd < arrayLength

def Table.Open (t : Table) (fd : Int) : Prop :=
  ∃ slot : Nat, slot = fd ∧ slot < arrayLength ∧ t.fdArray slot ≠ none

def Table.FullFrom (t : Table) (fd : Int) : Prop :=
  ∀ slot < arrayLength, fd ≤ slot → t.fdArray slot ≠ none

def FileCall.Names : FileCall → Int → Prop
  | .close slot, fd | .dup slot, fd | .dup3 slot _, fd | .fcntl slot _ _, fd => slot = fd
  | _, _ => False

def Table.Allowed (t : Table) : FdCall → Prop
  | .read fd => InTable fd
  | .write fd => InTable fd
  | .close fd => InTable fd
  | .dup fd => InTable fd ∨ t.FullFrom 0
  | .dup3 oldFd newFd => oldFd = newFd ∨ InTable oldFd ∧ (¬ t.Open oldFd ∨ InTable newFd)
  | .fcntl oldFd flag newFd => flag = fGetfl ∨ 0 ≤ newFd ∧ (InTable oldFd ∨ t.FullFrom newFd)
  | .fstat fd => fd ≠ arrayLength
  | .lseek fd => fd ≠ arrayLength

def Files.Bounded (files : Files) (call : FdCall) : Prop :=
  files.access call ≠ .error .stray ∧
    (¬ files.table.Open call.fd → ∀ files', files.access call = .ok files' → files'.table = files.table)

def Io.Strays {μ δ φ : Type} (ifs : Ifs δ φ) (io : Io μ δ φ) : FdCall → Prop
  | .read fd => ∀ buf mapped count, io.sysRead ifs fd buf mapped count = .error .stray
  | .write fd => ∀ buf count, io.sysWrite ifs fd buf count = .error .stray
  | .close fd => io.sysFile ifs (.close fd) = .error .stray
  | .dup fd => io.sysFile ifs (.dup fd) = .error .stray
  | .dup3 oldFd newFd => io.sysFile ifs (.dup3 oldFd newFd) = .error .stray
  | .fcntl oldFd flag newFd => io.sysFile ifs (.fcntl oldFd flag newFd) = .error .stray
  | .fstat fd => ∀ (κ : Type) (fstat : δ → φ → List Char → κ → Outcome ((Int × κ) × φ)) (stat : κ),
      io.sysFstat fstat fd stat = .error .stray
  | .lseek fd => ∀ offset whence, io.sysLseek ifs fd offset whence = .error .stray

section Halts

variable {α β γ : Type} {call : Outcome α} {next : α → Outcome β}

theorem bind_ne_stray_iff (quiet : ∀ result, next result ≠ .error .stray) :
    call >>= next ≠ .error .stray ↔ call ≠ .error .stray := by
  cases call with
  | ok result => exact iff_of_true (quiet result) nofun
  | error halt =>
    constructor
    · exact fun differs same => differs (by rw [same, error_bind])
    · exact fun differs same => differs (by cases same; rfl)

theorem bind_ne_stray_congr {other : α → Outcome γ}
    (same : ∀ result, next result ≠ .error .stray ↔ other result ≠ .error .stray) :
    call >>= next ≠ .error .stray ↔ call >>= other ≠ .error .stray := by
  cases call with
  | ok result => exact same result
  | error halt =>
    rw [error_bind, error_bind]
    constructor
    · exact fun differs same => differs (by cases same; rfl)
    · exact fun differs same => differs (by cases same; rfl)

theorem bind_eq_stray (stray : call = .error .stray) : call >>= next = .error .stray := by
  rw [stray, error_bind]

theorem eq_stray_of_bind (stray : call >>= next = .error .stray)
    (quiet : ∀ result, next result ≠ .error .stray) : call = .error .stray := by
  by_contra differs
  exact (bind_ne_stray_iff quiet).2 differs stray

end Halts

section Inside

variable {t : Table} {files : Files} {fd : Int} {target given newFd : Int} {call : FdCall}

theorem InTable.index_eq (inside : InTable fd) :
    ∃ slot : Nat, slot = fd ∧ slot < arrayLength ∧ index fd = .ok slot := by
  obtain ⟨slot, rfl⟩ := Int.eq_ofNat_of_zero_le inside.1
  have slot_lt : slot < arrayLength := by
    have upper := inside.2
    omega
  exact ⟨slot, rfl, slot_lt, index_eq_ok.2 ⟨rfl, slot_lt⟩⟩

theorem index_of_not (outside : ¬ InTable fd) : index fd = .error .stray :=
  if_neg outside

theorem getFile_ne_stray_iff : t.getFile fd ≠ .error .stray ↔ fd ≠ arrayLength := by
  unfold Table.getFile
  by_cases checked : fd < 0 ∨ arrayLength < fd
  · rw [if_pos checked]
    constructor
    · rintro - rfl
      omega
    · nofun
  · rw [if_neg checked]
    by_cases inside : InTable fd
    · obtain ⟨slot, rfl, slot_lt, index_eq⟩ := inside.index_eq
      rw [index_eq, ok_bind]
      refine iff_of_true ?_ (by omega)
      cases t.fdArray slot <;> nofun
    · rw [index_of_not inside, error_bind]
      refine iff_of_false (fun differs => differs rfl) ?_
      unfold InTable at inside
      omega

theorem target_ne_stray_iff (plain : files.Plain) : files.target fd ≠ .error .stray ↔ InTable fd := by
  unfold Files.target
  rw [plain.real_eq]
  dsimp only
  constructor
  · intro bounded
    by_contra outside
    rw [index_of_not outside, error_bind] at bounded
    exact bounded rfl
  · intro inside
    have notLength : fd ≠ arrayLength := by
      have upper := inside.2
      omega
    obtain ⟨slot, -, -, index_eq⟩ := inside.index_eq
    rw [index_eq, ok_bind]
    split
    · nofun
    · rw [bind_ne_stray_iff]
      · exact getFile_ne_stray_iff.2 notLength
      · intro file
        nofun

theorem tryCloseFile_ne_stray_iff : t.tryCloseFile fd ≠ .error .stray ↔ InTable fd := by
  unfold Table.tryCloseFile
  constructor
  · intro bounded
    by_contra outside
    rw [index_of_not outside, error_bind] at bounded
    exact bounded rfl
  · intro inside
    obtain ⟨slot, -, -, index_eq⟩ := inside.index_eq
    rw [index_eq, ok_bind]
    cases t.fdArray slot <;> nofun

theorem not_open_iff {slot : Nat} (slot_lt : slot < arrayLength) :
    ¬ t.Open slot ↔ t.fdArray slot = none := by
  constructor
  · intro notOpen
    by_contra isSome
    exact notOpen ⟨slot, rfl, slot_lt, isSome⟩
  · rintro empty ⟨other, other_eq, -, isSome⟩
    obtain rfl : other = slot := Int.ofNat.inj other_eq
    exact isSome empty

theorem copyFd_ne_stray_iff (different : fd ≠ target) :
    t.copyFd fd target ≠ .error .stray ↔ InTable fd ∧ (¬ t.Open fd ∨ InTable target) := by
  unfold Table.copyFd
  by_cases inside : InTable fd
  · obtain ⟨source, rfl, source_lt, index_eq⟩ := inside.index_eq
    rw [index_eq, ok_bind]
    cases source_eq : t.fdArray source with
    | none => exact iff_of_true nofun ⟨inside, .inl ((not_open_iff source_lt).2 source_eq)⟩
    | some describer =>
      have isOpen : t.Open source := ⟨source, rfl, source_lt, by rw [source_eq]; nofun⟩
      by_cases targetInside : InTable target
      · obtain ⟨slot, rfl, -, target_eq⟩ := targetInside.index_eq
        have other : source ≠ slot := fun same => different (by rw [same])
        have kept : (t.erase slot).1.fdArray source = some describer := by
          rw [Table.erase_slot t slot source other, source_eq]
        rw [target_eq, ok_bind]
        dsimp only
        rw [kept]
        exact iff_of_true nofun ⟨inside, .inr targetInside⟩
      · rw [index_of_not targetInside, error_bind]
        apply iff_of_false (fun differs => differs rfl)
        rintro ⟨-, notOpen | targetInside'⟩
        · exact notOpen isOpen
        · exact targetInside targetInside'
  · rw [index_of_not inside, error_bind]
    exact iff_of_false (fun differs => differs rfl) fun both => inside both.1

theorem find_cases (t : Table) (notNegative : 0 ≤ given) :
    t.FullFrom given ∧ t.findUnusedFdBiggerOrEqual given = .error .panic ∨
      ¬ t.FullFrom given ∧ ∃ slot : Nat, slot < arrayLength ∧ t.fdArray slot = none ∧
        t.findUnusedFdBiggerOrEqual given = .ok slot := by
  cases found_eq : t.findUnusedFdBiggerOrEqual given with
  | ok slot =>
    obtain ⟨given_le, slot_lt, empty⟩ := Table.findUnusedFdBiggerOrEqual_eq_ok found_eq
    exact .inr ⟨fun full => full slot slot_lt given_le empty, slot, slot_lt, empty, rfl⟩
  | error halt =>
    unfold Table.findUnusedFdBiggerOrEqual at found_eq
    rw [if_neg (by omega)] at found_eq
    split at found_eq
    next none_eq =>
      cases found_eq
      refine .inl ⟨fun slot slot_lt given_le empty => ?_, rfl⟩
      have tested := List.find?_eq_none.1 none_eq slot (List.mem_range.2 slot_lt)
      simp only [decide_eq_true_eq] at tested
      exact tested ⟨given_le, empty⟩
    · cases found_eq

theorem find_copy_ne_stray_iff :
    (t.findUnusedFdBiggerOrEqual given >>= fun slot => t.copyFd fd slot) ≠ .error .stray ↔
      0 ≤ given ∧ (InTable fd ∨ t.FullFrom given) := by
  by_cases notNegative : 0 ≤ given
  · rcases find_cases t notNegative with ⟨full, found_eq⟩ | ⟨notFull, slot, slot_lt, empty, found_eq⟩
    · rw [found_eq, error_bind]
      exact iff_of_true nofun ⟨notNegative, .inr full⟩
    · rw [found_eq, ok_bind]
      have slotInside : InTable slot := ⟨by omega, by omega⟩
      by_cases same : fd = slot
      · -- The free slot itself is no open descriptor to copy.
        subst same
        refine iff_of_true ?_ ⟨notNegative, .inl slotInside⟩
        unfold Table.copyFd
        rw [index_eq_ok.2 ⟨rfl, slot_lt⟩, ok_bind, empty]
        nofun
      · rw [copyFd_ne_stray_iff same]
        constructor
        · exact fun both => ⟨notNegative, .inl both.1⟩
        · rintro ⟨-, inside | full⟩
          · exact ⟨inside, .inr slotInside⟩
          · exact absurd full notFull
  · have found_eq : t.findUnusedFdBiggerOrEqual given = .error .stray := if_pos (by omega)
    rw [found_eq, error_bind]
    exact iff_of_false (fun differs => differs rfl) fun both => notNegative both.1

theorem files_copyFd_ne_stray_iff :
    files.copyFd fd target ≠ .error .stray ↔ files.table.copyFd fd target ≠ .error .stray := by
  apply bind_ne_stray_iff
  rintro ⟨table, closed⟩
  nofun

theorem sysClose_ne_stray_iff (plain : files.Plain) :
    files.sysClose fd ≠ .error .stray ↔ InTable fd := by
  unfold Files.sysClose
  rw [plain.real_eq, bind_ne_stray_iff]
  · exact tryCloseFile_ne_stray_iff
  · rintro ⟨table, closed⟩
    nofun

theorem sysDup_ne_stray_iff (plain : files.Plain) :
    files.sysDup fd ≠ .error .stray ↔ InTable fd ∨ files.table.FullFrom 0 := by
  have searched : (files.table.findUnUsedFd >>= fun slot => files.table.copyFd fd slot) ≠ .error .stray ↔
      0 ≤ (0 : Int) ∧ (InTable fd ∨ files.table.FullFrom 0) :=
    find_copy_ne_stray_iff
  apply Iff.trans _ (searched.trans (and_iff_right le_rfl))
  unfold Files.sysDup
  rw [plain.real_eq]
  apply bind_ne_stray_congr
  intro slot
  rw [bind_ne_stray_iff]
  · exact files_copyFd_ne_stray_iff
  · rintro ⟨files', closed⟩
    nofun

theorem sysDup3_ne_stray_iff (plain : files.Plain) :
    files.sysDup3 fd newFd ≠ .error .stray ↔
      fd = newFd ∨ InTable fd ∧ (¬ files.table.Open fd ∨ InTable newFd) := by
  unfold Files.sysDup3
  rw [plain.real_eq, plain.real_eq]
  dsimp only
  by_cases same : fd = newFd
  · rw [if_pos same]
    exact iff_of_true nofun (.inl same)
  · rw [if_neg same, or_iff_right same, bind_ne_stray_iff, files_copyFd_ne_stray_iff]
    · exact copyFd_ne_stray_iff same
    · rintro ⟨files', closed⟩
      nofun

theorem sysFcntl_ne_stray_iff (plain : files.Plain) {flag : Nat} :
    files.sysFcntl fd flag newFd ≠ .error .stray ↔
      flag = fGetfl ∨ 0 ≤ newFd ∧ (InTable fd ∨ files.table.FullFrom newFd) := by
  unfold Files.sysFcntl
  rw [plain.real_eq, plain.real_eq]
  dsimp only
  by_cases isGet : flag = fGetfl
  · rw [if_pos isGet]
    exact iff_of_true nofun (.inl isGet)
  · rw [if_neg isGet, or_iff_right isGet, ← find_copy_ne_stray_iff]
    apply bind_ne_stray_congr
    intro slot
    rw [bind_ne_stray_iff]
    · exact files_copyFd_ne_stray_iff
    · rintro ⟨files', closed⟩
      nofun

theorem access_ne_stray_iff (plain : files.Plain) (call : FdCall) :
    files.access call ≠ .error .stray ↔ files.table.Allowed call := by
  cases call with
  | read fd | write fd =>
    apply Iff.trans (bind_ne_stray_iff ?_) (target_ne_stray_iff plain)
    intro target
    nofun
  | close fd =>
    apply Iff.trans (bind_ne_stray_iff ?_) (sysClose_ne_stray_iff plain)
    rintro ⟨files', closed⟩
    nofun
  | dup fd =>
    apply Iff.trans (bind_ne_stray_iff ?_) (sysDup_ne_stray_iff plain)
    rintro ⟨ret, files', closed⟩
    nofun
  | dup3 oldFd newFd =>
    apply Iff.trans (bind_ne_stray_iff ?_) (sysDup3_ne_stray_iff plain)
    rintro ⟨ret, files', closed⟩
    nofun
  | fcntl oldFd flag newFd =>
    apply Iff.trans (bind_ne_stray_iff ?_) (sysFcntl_ne_stray_iff plain)
    rintro ⟨ret, files', closed⟩
    nofun
  | fstat fd | lseek fd =>
    have checked : files.table.getFile (files.sysGetRealFd fd) ≠ .error .stray ↔ fd ≠ arrayLength := by
      rw [plain.real_eq]
      exact getFile_ne_stray_iff
    apply Iff.trans (bind_ne_stray_iff ?_) checked
    intro file
    nofun

theorem effect_table_eq {t' : Table} {pipes pipes' : FastPipe} {call : FileCall} {ret : Int}
    {closed : List Nat} (effect : Files.Effect t pipes call ret closed t' pipes')
    (about : call.Names fd) (notOpen : ¬ t.Open fd) : t' = t := by
  have isOpen {slot : Nat} {describer : FileDescriber} (slot_lt : slot < arrayLength)
      (slot_eq : t.fdArray slot = some describer) : t.Open slot :=
    ⟨slot, rfl, slot_lt, by rw [slot_eq]; nofun⟩
  cases effect with
  | unchanged => rfl
  | opened => exact absurd about id
  | closed slot_lt slot_eq => exact absurd (about ▸ isOpen slot_lt slot_eq) notOpen
  | copied isCopy source_lt _ source_eq _ =>
    rcases isCopy with rfl | ⟨flag, newFd, -, rfl⟩
    · exact absurd (about ▸ isOpen source_lt source_eq) notOpen
    · exact absurd (about ▸ isOpen source_lt source_eq) notOpen
  | replaced _ source_lt _ source_eq => exact absurd (about ▸ isOpen source_lt source_eq) notOpen
  | piped => exact absurd about id

theorem access_table_eq (plain : files.Plain) (notOpen : ¬ files.table.Open call.fd) {files' : Files}
    (access_eq : files.access call = .ok files') : files'.table = files.table := by
  cases call with
  | read fd | write fd | fstat fd | lseek fd =>
    obtain ⟨_, -, last_eq⟩ := bind_eq_ok.1 access_eq
    cases last_eq
    rfl
  | close fd =>
    obtain ⟨⟨files₁, closed⟩, close_eq, last_eq⟩ := bind_eq_ok.1 access_eq
    cases last_eq
    have exec_eq : files.exec (.close fd) = .ok (0, files', closed) :=
      bind_eq_ok.2 ⟨_, close_eq, rfl⟩
    exact effect_table_eq (Files.effect_of_exec plain exec_eq).2 rfl notOpen
  | dup fd =>
    obtain ⟨⟨ret, files₁, closed⟩, dup_eq, last_eq⟩ := bind_eq_ok.1 access_eq
    cases last_eq
    exact effect_table_eq (@Files.effect_of_exec _ _ _ _ plain (.dup fd) dup_eq).2 rfl notOpen
  | dup3 oldFd newFd =>
    obtain ⟨⟨ret, files₁, closed⟩, dup_eq, last_eq⟩ := bind_eq_ok.1 access_eq
    cases last_eq
    exact effect_table_eq (@Files.effect_of_exec _ _ _ _ plain (.dup3 oldFd newFd) dup_eq).2 rfl notOpen
  | fcntl oldFd flag newFd =>
    obtain ⟨⟨ret, files₁, closed⟩, fcntl_eq, last_eq⟩ := bind_eq_ok.1 access_eq
    cases last_eq
    exact effect_table_eq (@Files.effect_of_exec _ _ _ _ plain (.fcntl oldFd flag newFd) fcntl_eq).2 rfl
      notOpen

theorem strays_of_access {μ δ φ : Type} (ifs : Ifs δ φ) {io : Io μ δ φ}
    (stray : io.files.access call = .error .stray) : io.Strays ifs call := by
  cases call with
  | read fd =>
    intro buf mapped count
    rw [Io.sysRead_eq_target]
    apply bind_eq_stray
    apply eq_stray_of_bind stray
    intro target
    nofun
  | write fd =>
    intro buf count
    rw [Io.sysWrite_eq_target]
    apply bind_eq_stray
    apply eq_stray_of_bind stray
    intro target
    nofun
  | close fd =>
    apply bind_eq_stray
    apply bind_eq_stray
    apply eq_stray_of_bind stray
    rintro ⟨files', closed⟩
    nofun
  | dup fd | dup3 oldFd newFd | fcntl oldFd flag newFd =>
    apply bind_eq_stray
    apply eq_stray_of_bind stray
    rintro ⟨ret, files', closed⟩
    nofun
  | fstat fd =>
    intro κ fstat stat
    apply bind_eq_stray
    apply eq_stray_of_bind stray
    intro file
    nofun
  | lseek fd =>
    intro offset whence
    apply bind_eq_stray
    apply eq_stray_of_bind stray
    intro file
    nofun

end Inside

namespace Io

/-- In every reachable state and with any descriptors, a call makes no access outside
the table exactly if its arguments are allowed, and the system call goes astray with all
others.  A call on a descriptor that is not open changes nothing in the table. -/
theorem bounded_iff_of_run {μ δ φ : Type} {ifs : Ifs δ φ} {start io : Io μ δ φ}
    {labels : List (IoCall μ)} (initial : start.Initial) (run : Run (Step ifs) start labels io)
    (call : FdCall) : (io.files.Bounded call ↔ io.files.table.Allowed call) ∧
      (¬ io.files.table.Allowed call → io.Strays ifs call) := by
  have plain : io.files.Plain :=
    (@invariant_of_run _ _ _ _ _ (fun _ _ => True) _ _ initial run trivial fun _ _ => trivial).1
  have inside := access_ne_stray_iff plain call
  constructor
  · constructor
    · intro bounded
      exact inside.1 bounded.1
    · intro allowed
      exact ⟨inside.2 allowed, fun notOpen files' access_eq => access_table_eq plain notOpen access_eq⟩
  · intro notAllowed
    apply strays_of_access
    by_contra differs
    exact notAllowed (inside.1 differs)

theorem bounded_of_close : booted.files.Bounded (.close 119) :=
  (bounded_iff_of_run booted_initial (@Run.nil _ _ (Step (devices endlessFat)) booted) (.close 119)).1.2
    ⟨by decide, by decide⟩

theorem not_bounded_of_outside :
    booted.sysRead (devices endlessFat) 120 (fun _ => 0) (fun _ => true) 0 = .error .stray ∧
    booted.sysRead (devices endlessFat) (-1) (fun _ => 0) (fun _ => true) 0 = .error .stray ∧
    booted.sysLseek (devices endlessFat) 120 0 0 = .error .stray ∧
    ¬ booted.files.Bounded (.close (-1)) ∧ ¬ booted.files.Bounded (.lseek 120) ∧
    ¬ booted.files.Bounded (.fstat 120) ∧ ¬ booted.files.Bounded (.dup3 1 120) ∧
    ¬ booted.files.Bounded (.fcntl 1 0 (-1)) :=
  ⟨rfl, rfl, rfl, fun bounded => bounded.1 rfl, fun bounded => bounded.1 rfl,
    fun bounded => bounded.1 rfl, fun bounded => bounded.1 rfl, fun bounded => bounded.1 rfl⟩

end Io

end SysCore.Fd
