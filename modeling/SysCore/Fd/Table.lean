import SysCore.Container.Shares
import SysCore.Transition.Outcome

/-!
# The descriptor table

`fd_array` is one table for all processes.  A slot holds a `FileDescriber`, which
points to an `OpenedFile` through a `RefCountPtr`; the last pointer to go deletes
the `OpenedFile`, and its destructor calls `fs->close` unless the path is empty.
A descriptor also has a count of its own, which every `Erase` lowers; only
descriptor 1 is left alone by `Erase`.

An opened file is named by the order in which it was made.  The operations
report the files whose destructor calls `fs->close`.
-/

namespace SysCore.Fd

open Transition Container Function

inductive AccessType where
  | read
  | write
  | rw
  deriving DecidableEq

structure FileDescriber where
  fileAccessType : AccessType
  file : Nat
  fdRefCount : Int
  isPipe : Bool
  deriving DecidableEq

def FileDescriber.new (file : Nat) (fileAccessType : AccessType) : FileDescriber :=
  { fileAccessType := fileAccessType, file := file, fdRefCount := 1, isPipe := false }

def arrayLength : Nat := 120

structure Table where
  fdArray : Nat → Option FileDescriber
  path : Nat → List Char
  count : Nat → Int
  nextFile : Nat

def consolePath : List Char :=
  ['/', 'd', 'e', 'v', '/', 'c', 'o', 'n', 's', 'o', 'l', 'e']

def Table.init : Table where
  fdArray fd :=
    if fd = 0 then some (.new 1 .read)
    else if fd = 1 ∨ fd = 2 then some (.new 0 .write)
    else none
  path file := if file = 0 then consolePath else []
  count file := if file = 0 then 2 else if file = 1 then 1 else 0
  nextFile := 2

def index (fd : Int) : Outcome Nat :=
  if 0 ≤ fd ∧ fd < arrayLength then .ok fd.toNat else .error .stray

namespace Table

variable (t : Table)

def setSlot (fd : Nat) (slot : Option FileDescriber) : Table :=
  { t with fdArray := update t.fdArray fd slot }

def increase (file : Nat) : Table :=
  { t with count := update t.count file (t.count file + 1) }

def decrease (file : Nat) : Table × List Nat :=
  let count := t.count file - 1
  ({ t with count := update t.count file count },
    if count = 0 ∧ t.path file ≠ [] then [file] else [])

def erase (fd : Nat) : Table × List Nat :=
  if fd = 1 then
    (t, [])
  else
    match t.fdArray fd with
    | none => (t, [])
    | some describer =>
      let count := describer.fdRefCount - 1
      if count ≤ 0 then
        let (t, closed) := t.decrease describer.file
        (t.setSlot fd none, closed)
      else
        (t.setSlot fd (some { describer with fdRefCount := count }), [])

def put (fd : Nat) (describer : FileDescriber) : Table :=
  (t.increase describer.file).setSlot fd (some describer)

def newFile (path : List Char) : Table :=
  { t with
    path := update t.path t.nextFile path
    count := update t.count t.nextFile 0
    nextFile := t.nextFile + 1 }

def openNewFile (path : List Char) (fd : Int) (res : Int) : Outcome (Int × Table) :=
  if res = 0 then
    if fd < 0 ∨ arrayLength < fd then
      .error .panic
    else do
      let slot ← index fd
      match t.fdArray slot with
      | some _ => .error .panic
      | none => return (res, (t.newFile path).put slot (.new t.nextFile .rw))
  else
    .ok (res, t)

def tryCloseFile (fd : Int) : Outcome (Table × List Nat) := do
  let slot ← index fd
  match t.fdArray slot with
  | none => .error .panic
  | some _ => return t.erase slot

def copyFd (sourceFd targetFd : Int) : Outcome (Table × List Nat) := do
  let source ← index sourceFd
  match t.fdArray source with
  | none => .error .panic
  | some _ => do
    let target ← index targetFd
    let (t, closed) := t.erase target
    match t.fdArray source with
    | none => .error .stray
    | some describer => return (t.put target (.new describer.file describer.fileAccessType), closed)

def findUnusedFdBiggerOrEqual (given : Int) : Outcome Nat :=
  if given < 0 then
    .error .stray
  else
    match (List.range arrayLength).find? fun fd : Nat => given ≤ fd ∧ t.fdArray fd = none with
    | none => .error .panic
    | some fd => .ok fd

def findUnUsedFd : Outcome Nat :=
  t.findUnusedFdBiggerOrEqual 0

def slotFiles (slot : Option FileDescriber) : List Nat :=
  slot.toList.map FileDescriber.file

def holders : List Nat :=
  shares (List.range arrayLength) fun fd => slotFiles (t.fdArray fd)

end Table

/-! ## Counting -/

namespace Table

variable {t : Table} {fd : Nat} {describer : FileDescriber}

theorem mem_holders {file : Nat} :
    file ∈ t.holders ↔ ∃ fd < arrayLength, ∃ describer, t.fdArray fd = some describer ∧
      describer.file = file := by
  simp [holders, slotFiles, mem_shares]

theorem count_slotFiles_none (file : Nat) : (slotFiles none).count file = 0 :=
  rfl

theorem count_slotFiles_some (describer : FileDescriber) (file : Nat) :
    (slotFiles (some describer)).count file = if describer.file = file then 1 else 0 := by
  simp [slotFiles, List.count_singleton]

theorem count_holders_setSlot {fd : Nat} (inRange : fd < arrayLength) (slot : Option FileDescriber)
    (file : Nat) :
    (t.setSlot fd slot).holders.count file + (slotFiles (t.fdArray fd)).count file =
      t.holders.count file + (slotFiles slot).count file := by
  have update_eq : (fun other => slotFiles ((t.setSlot fd slot).fdArray other)) =
      update (fun other => slotFiles (t.fdArray other)) fd (slotFiles slot) := by
    funext other
    by_cases same : other = fd
    · subst same
      simp [setSlot]
    · simp [setSlot, same]
  have counted := count_shares_update (fun other => slotFiles (t.fdArray other)) List.nodup_range
    (List.mem_range.2 inRange) (slotFiles slot) file
  rw [← update_eq] at counted
  exact counted

theorem count_holders_put {fd : Nat} (inRange : fd < arrayLength) (empty : t.fdArray fd = none)
    (describer : FileDescriber) (file : Nat) :
    (t.put fd describer).holders.count file =
      t.holders.count file + if describer.file = file then 1 else 0 := by
  have counts := @count_holders_setSlot (t.increase describer.file) fd inRange (some describer) file
  have old : (t.increase describer.file).fdArray fd = none := empty
  have same : (t.increase describer.file).holders = t.holders := rfl
  rwa [old, same, count_slotFiles_none, count_slotFiles_some] at counts

theorem count_holders_clear (inRange : fd < arrayLength) (slot_eq : t.fdArray fd = some describer)
    (file : Nat) :
    (t.setSlot fd none).holders.count file + (if describer.file = file then 1 else 0) =
      t.holders.count file := by
  have counts := @count_holders_setSlot t fd inRange none file
  rwa [slot_eq, count_slotFiles_none, count_slotFiles_some] at counts

theorem mem_holders_of_slot (inRange : fd < arrayLength) (slot_eq : t.fdArray fd = some describer) :
    describer.file ∈ t.holders :=
  mem_holders.2 ⟨fd, inRange, describer, slot_eq, rfl⟩

theorem put_slot (t : Table) (fd other : Nat) (describer : FileDescriber) :
    (t.put fd describer).fdArray other =
      if other = fd then some describer else t.fdArray other := by
  simp only [put, setSlot, increase, Function.update_apply]

theorem setSlot_slot (t : Table) (fd other : Nat) (slot : Option FileDescriber) :
    (t.setSlot fd slot).fdArray other = if other = fd then slot else t.fdArray other := by
  simp only [setSlot, Function.update_apply]

theorem init_slot (slot_eq : init.fdArray fd = some describer) :
    describer = .new 1 .read ∨ describer = .new 0 .write := by
  simp only [init] at slot_eq
  split at slot_eq
  · cases slot_eq
    exact .inl rfl
  · split at slot_eq
    · cases slot_eq
      exact .inr rfl
    · cases slot_eq

/-! ### `Erase` -/

theorem erase_one (t : Table) : t.erase 1 = (t, []) :=
  if_pos rfl

theorem erase_none (slot_eq : t.fdArray fd = none) : t.erase fd = (t, []) := by
  unfold erase
  rw [slot_eq]
  exact ite_self _

theorem erase_delete (notOne : fd ≠ 1) (slot_eq : t.fdArray fd = some describer)
    (last : describer.fdRefCount ≤ 1) :
    t.erase fd = ((t.decrease describer.file).1.setSlot fd none, (t.decrease describer.file).2) := by
  unfold erase
  rw [if_neg notOne, slot_eq]
  exact if_pos (by omega)

theorem erase_keep (notOne : fd ≠ 1) (slot_eq : t.fdArray fd = some describer)
    (more : 1 < describer.fdRefCount) :
    t.erase fd =
      (t.setSlot fd (some { describer with fdRefCount := describer.fdRefCount - 1 }), []) := by
  unfold erase
  rw [if_neg notOne, slot_eq]
  exact if_neg (by omega)

end Table

theorem index_eq_ok {fd : Int} {slot : Nat} : index fd = .ok slot ↔ (slot : Int) = fd ∧ slot < arrayLength := by
  unfold index
  split
  · rw [Except.ok.injEq]
    omega
  · constructor
    · intro failed
      cases failed
    · omega

/-! ## What the calls do -/

namespace Table

variable {t t' : Table} {closed : List Nat}

theorem openNewFile_eq_ok {path : List Char} {fd res ret : Int}
    (open_eq : t.openNewFile path fd res = .ok (ret, t')) :
    ret = res ∧ (t' = t ∧ res ≠ 0 ∨ res = 0 ∧ ∃ slot : Nat, slot = fd ∧ slot < arrayLength ∧
      t.fdArray slot = none ∧ t' = (t.newFile path).put slot (.new t.nextFile .rw)) := by
  unfold openNewFile at open_eq
  split at open_eq
  next answered =>
    split at open_eq
    · cases open_eq
    · obtain ⟨slot, slot_eq, open_eq⟩ := bind_eq_ok.1 open_eq
      obtain ⟨fd_eq, inRange⟩ := index_eq_ok.1 slot_eq
      split at open_eq
      · cases open_eq
      next empty =>
        cases open_eq
        exact ⟨rfl, .inr ⟨answered, slot, fd_eq, inRange, empty, rfl⟩⟩
  next failed =>
    cases open_eq
    exact ⟨rfl, .inl ⟨rfl, failed⟩⟩

theorem tryCloseFile_eq_ok {fd : Int} (close_eq : t.tryCloseFile fd = .ok (t', closed)) :
    ∃ slot : Nat, slot = fd ∧ slot < arrayLength ∧ (∃ describer, t.fdArray slot = some describer) ∧
      t' = (t.erase slot).1 ∧ closed = (t.erase slot).2 := by
  unfold tryCloseFile at close_eq
  obtain ⟨slot, slot_eq, close_eq⟩ := bind_eq_ok.1 close_eq
  obtain ⟨fd_eq, inRange⟩ := index_eq_ok.1 slot_eq
  split at close_eq
  · cases close_eq
  next describer describer_eq =>
    have erase_eq : t.erase slot = (t', closed) := Except.ok.inj close_eq
    refine ⟨slot, fd_eq, inRange, ⟨describer, describer_eq⟩, ?_⟩
    rw [erase_eq]
    exact ⟨rfl, rfl⟩

theorem copyFd_eq_ok {sourceFd targetFd : Int} (copy_eq : t.copyFd sourceFd targetFd = .ok (t', closed)) :
    ∃ (source target : Nat) (describer : FileDescriber), source = sourceFd ∧ target = targetFd ∧
      source < arrayLength ∧ target < arrayLength ∧ (t.fdArray source).isSome ∧
      (t.erase target).1.fdArray source = some describer ∧
      t' = (t.erase target).1.put target (.new describer.file describer.fileAccessType) ∧
      closed = (t.erase target).2 := by
  unfold copyFd at copy_eq
  obtain ⟨source, source_eq, copy_eq⟩ := bind_eq_ok.1 copy_eq
  obtain ⟨sourceFd_eq, sourceRange⟩ := index_eq_ok.1 source_eq
  split at copy_eq
  · cases copy_eq
  next found found_eq =>
    obtain ⟨target, target_eq, copy_eq⟩ := bind_eq_ok.1 copy_eq
    obtain ⟨targetFd_eq, targetRange⟩ := index_eq_ok.1 target_eq
    dsimp only at copy_eq
    split at copy_eq
    · cases copy_eq
    next describer describer_eq =>
      cases copy_eq
      exact ⟨source, target, describer, sourceFd_eq, targetFd_eq, sourceRange, targetRange,
        by rw [found_eq]; rfl, describer_eq, rfl, rfl⟩

end Table

end SysCore.Fd
