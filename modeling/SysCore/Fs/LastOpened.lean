import SysCore.Fs.Fat

/-!
# The file opened last

`FS::open` puts the element of its path and points `LastOpenedFile` to the `FIL` in
it before anyone looks at the result of `f_open`; a directory is put in the same
way, and the pointer stays.  `FS::close` deletes the node of the element, and the
pointer is left as it is.

So an open that fails is undone only where it changes nothing: the path must have
had the element already, and the pointer must have pointed to it.
-/

namespace SysCore.Fs

open Transition Container

inductive FilPointer where
  | null
  | element (path : List Char)
  | freed
  deriving DecidableEq

structure OpenFiles (Data Disk : Type) extends Devices Data Disk where
  lastOpenedFile : FilPointer

inductive FileOp where
  | «open» (path : List Char) (flag : Nat)
  | read (path : List Char) (buf : Nat → UInt8) (mapped : Nat → Bool) (count : Int)
  | write (path : List Char) (buf : Nat → Option UInt8) (count : Int)
  | lseek (path : List Char) (offset : Nat) (whence : Int)
  | close (path : List Char)

def IsRegular (path : List Char) (flag : Nat) : Prop :=
  FSUtil.addFlag path flag &&& FSUtil.sIfreg ≠ 0

instance (path : List Char) (flag : Nat) : Decidable (IsRegular path flag) :=
  inferInstanceAs (Decidable (_ ≠ _))

namespace OpenFiles

variable {Data Disk : Type} (fat : FatFs Data Disk) (s : OpenFiles Data Disk)

def init (disk : Disk) : OpenFiles Data Disk where
  disk := disk
  pathToFsEl := .empty
  console := []
  lastOpenedFile := .null

def «open» (path : List Char) (flag : Nat) : Outcome (Int × OpenFiles Data Disk) := do
  let (fr, devices) ← FS.open fat s.toDevices path flag
  return (fr, {
    toDevices := devices
    lastOpenedFile := if IsRegular path flag then .element path else s.lastOpenedFile })

def close (path : List Char) : Outcome (Int × OpenFiles Data Disk) := do
  let (fr, devices) ← FS.close fat s.toDevices path
  return (fr, {
    toDevices := devices
    lastOpenedFile := if s.lastOpenedFile = .element path then .freed else s.lastOpenedFile })

def exec : FileOp → Outcome (OpenFiles Data Disk)
  | .open path flag => do
    let (_, s) ← s.open fat path flag
    return s
  | .read path buf mapped count => do
    let (_, devices) ← FS.read fat s.toDevices path buf mapped count
    return { s with toDevices := devices }
  | .write path buf count => do
    let (_, devices) ← FS.write fat s.toDevices path buf count
    return { s with toDevices := devices }
  | .lseek path offset whence => do
    let (_, devices) ← FS.lseek fat s.toDevices path offset whence
    return { s with toDevices := devices }
  | .close path => do
    let (_, s) ← s.close fat path
    return s

def Step (s : OpenFiles Data Disk) (op : FileOp) (s' : OpenFiles Data Disk) : Prop :=
  s.exec fat op = .ok s'

def Live (s : OpenFiles Data Disk) : Prop :=
  ∀ path, s.lastOpenedFile = .element path → ∃ el, s.pathToFsEl.get? path = some el

def opened (path : List Char) (flag : Nat) : Int × FsElement Data :=
  if IsRegular path flag then
    let result := fat.fOpen s.disk path.tail (FSUtil.openModeToFatfsMode (FSUtil.addFlag path flag))
    (result.1, ⟨result.2.1, true⟩)
  else
    let result := fat.fOpendir s.disk path.tail
    (result.1, ⟨result.2.1, false⟩)

end OpenFiles

/-! ## What an open does -/

namespace FSUtil

theorem land_ne_zero {flag bit : Nat} {i : Nat} (inFlag : flag.testBit i = true) (inBit : bit.testBit i = true) :
    flag &&& bit ≠ 0 := by
  intro isZero
  have atBit := congrArg (Nat.testBit · i) isZero
  simp [inFlag, inBit] at atBit

theorem isDir_of_not_regular {path : List Char} {flag : Nat} (notRegular : ¬ IsRegular path flag) :
    addFlag path flag &&& sIfdir ≠ 0 := by
  unfold IsRegular addFlag at notRegular
  unfold addFlag
  split at notRegular
  · rename_i isDir
    rw [if_pos isDir]
    apply @land_ne_zero _ _ 14 _ (by decide)
    rw [Nat.testBit_or, Nat.testBit_or, show sIfdir.testBit 14 = true by decide, Bool.or_true, Bool.true_or]
  · refine absurd (@land_ne_zero _ _ 15 ?_ (by decide)) notRegular
    rw [Nat.testBit_or, Nat.testBit_or, show sIfreg.testBit 15 = true by decide, Bool.or_true, Bool.true_or]

end FSUtil

namespace OpenFiles

variable {Data Disk : Type} {fat : FatFs Data Disk} {s s' : OpenFiles Data Disk} {path : List Char} {flag : Nat}

theorem open_eq (fat : FatFs Data Disk) (s : OpenFiles Data Disk) (path : List Char) (flag : Nat) :
    ∃ disk, s.open fat path flag = .ok ((s.opened fat path flag).1, {
      disk := disk
      pathToFsEl := s.pathToFsEl.put path (s.opened fat path flag).2
      console := s.console
      lastOpenedFile := if IsRegular path flag then .element path else s.lastOpenedFile }) := by
  unfold OpenFiles.open opened FS.open
  by_cases regular : IsRegular path flag
  · have regular' : FSUtil.addFlag path flag &&& FSUtil.sIfreg ≠ 0 := regular
    simp only [if_pos regular, if_pos regular']
    exact ⟨_, rfl⟩
  · have notRegular : ¬ FSUtil.addFlag path flag &&& FSUtil.sIfreg ≠ 0 := regular
    simp only [if_neg regular, if_neg notRegular, if_pos (FSUtil.isDir_of_not_regular regular)]
    exact ⟨_, rfl⟩

/-- A failed open has changed nothing exactly if the path had the element already and
the pointer, for a file, pointed to it. -/
theorem failed_open_unchanged_iff {fr : Int} (open_eq : s.open fat path flag = .ok (fr, s')) (_failed : fr ≠ 0) :
    (s'.pathToFsEl = s.pathToFsEl ∧ s'.lastOpenedFile = s.lastOpenedFile) ↔
      s.pathToFsEl.get? path = some (s.opened fat path flag).2 ∧
        (IsRegular path flag → s.lastOpenedFile = .element path) := by
  obtain ⟨disk, opened_eq⟩ := OpenFiles.open_eq fat s path flag
  cases open_eq.symm.trans opened_eq
  dsimp only
  rw [Map.put_eq_self_iff]
  apply and_congr_right
  intro _
  by_cases regular : IsRegular path flag
  · rw [if_pos regular]
    constructor
    · intro same _
      exact same.symm
    · intro same
      exact (same regular).symm
  · rw [if_neg regular]
    exact ⟨fun _ isRegular => absurd isRegular regular, fun _ => rfl⟩

def twoFiles : FatFs (Option (List UInt8 × Nat)) Unit where
  fOpen _ path _ :=
    if path = ['a'] then (0, some ([1, 2, 3], 0), ())
    else if path = ['b'] then (0, some ([7, 8], 0), ())
    else (4, none, ())
  fOpendir _ _ := (5, none, ())
  fRead _ data region _ count :=
    match data with
    | none => (.done 9 0, region, none, ())
    | some (bytes, position) =>
      let given := (bytes.drop position).take count
      (.done 0 given.length, fun i => given.getD i (region i), some (bytes, position + given.length), ())
  fWrite _ data _ _ := (.done 7 0, data, ())
  fLseek _ data offset := (0, data.map fun file => (file.1, min offset file.1.length), ())
  fClose _ _ := (0, ())
  fMkdir _ _ := (8, ())
  fTell data := (data.map Prod.snd).getD 0
  fSize data := (data.map fun file => file.1.length).getD 0

theorem failed_open_unchanged_of_again : ∃ s s' : OpenFiles (Option (List UInt8 × Nat)) Unit,
    (OpenFiles.init ()).open twoFiles ['/', 'c'] 0 = .ok (4, s) ∧ s.open twoFiles ['/', 'c'] 0 = .ok (4, s') ∧
      s'.pathToFsEl = s.pathToFsEl ∧ s'.lastOpenedFile = s.lastOpenedFile := by
  obtain ⟨s, opened⟩ : ∃ s, (OpenFiles.init ()).open twoFiles ['/', 'c'] 0 = .ok (4, s) := ⟨_, rfl⟩
  obtain ⟨s', again⟩ : ∃ s', s.open twoFiles ['/', 'c'] 0 = .ok (4, s') := by
    cases opened
    exact ⟨_, rfl⟩
  refine ⟨s, s', opened, again, (failed_open_unchanged_iff again (by decide)).2 ?_⟩
  cases opened
  exact ⟨rfl, fun _ => rfl⟩

theorem failed_open_moves_pointer : ∃ s s' : OpenFiles (Option (List UInt8 × Nat)) Unit,
    Run (Step twoFiles) (init ()) [.open ['/', 'a'] 0] s ∧ s.open twoFiles ['/', 'c'] 0 = .ok (4, s') ∧
      s.lastOpenedFile = .element ['/', 'a'] ∧ s'.lastOpenedFile = .element ['/', 'c'] ∧
      s.pathToFsEl.get? ['/', 'c'] = none ∧ s'.pathToFsEl.get? ['/', 'c'] = some ⟨none, true⟩ := by
  obtain ⟨s, opened⟩ : ∃ s, (OpenFiles.init ()).exec twoFiles (.open ['/', 'a'] 0) = .ok s := ⟨_, rfl⟩
  have run : Run (Step twoFiles) (init ()) [.open ['/', 'a'] 0] s := .snoc .nil opened
  cases opened
  exact ⟨_, _, run, rfl, rfl, rfl, rfl, rfl⟩

/-! ## The pointer over runs -/

inductive Change (fat : FatFs Data Disk) (s : OpenFiles Data Disk) : OpenFiles Data Disk → Prop where
  | opened (path : List Char) (flag : Nat) (disk : Disk) : Change fat s {
      disk := disk
      pathToFsEl := s.pathToFsEl.put path (s.opened fat path flag).2
      console := s.console
      lastOpenedFile := if IsRegular path flag then .element path else s.lastOpenedFile }
  | closed (path : List Char) (disk : Disk) : Change fat s {
      disk := disk
      pathToFsEl := s.pathToFsEl.erase path
      console := s.console
      lastOpenedFile := if s.lastOpenedFile = .element path then .freed else s.lastOpenedFile }
  | stored {path : List Char} {el : FsElement Data} (found : FS.get s.toDevices path = .ok el)
      (data : Data) (disk : Disk) :
      Change fat s { s with toDevices := FS.store s.toDevices path el data disk }

theorem change_of_step {op : FileOp} (step : Step fat s op s') : Change fat s s' := by
  cases op with
  | «open» path flag =>
    obtain ⟨⟨fr, s₁⟩, opened, returned⟩ := bind_eq_ok.1 step
    cases returned
    obtain ⟨disk, opened_eq⟩ := OpenFiles.open_eq fat s path flag
    cases opened.symm.trans opened_eq
    exact .opened path flag disk
  | close path =>
    obtain ⟨⟨fr, s₁⟩, closed, returned⟩ := bind_eq_ok.1 step
    cases returned
    obtain ⟨⟨fr', devices⟩, closed, returned⟩ := bind_eq_ok.1 closed
    obtain ⟨el, -, erased⟩ := bind_eq_ok.1 closed
    cases erased
    cases returned
    exact .closed path _
  | read path buf mapped count =>
    obtain ⟨⟨answer, devices⟩, called, returned⟩ := bind_eq_ok.1 step
    obtain ⟨el, found, stored⟩ := bind_eq_ok.1 called
    cases stored
    cases returned
    exact .stored found _ _
  | write path buf count =>
    obtain ⟨⟨answer, devices⟩, called, returned⟩ := bind_eq_ok.1 step
    obtain ⟨el, found, stored⟩ := bind_eq_ok.1 called
    cases stored
    cases returned
    exact .stored found _ _
  | lseek path offset whence =>
    obtain ⟨⟨answer, devices⟩, called, returned⟩ := bind_eq_ok.1 step
    obtain ⟨el, found, stored⟩ := bind_eq_ok.1 called
    cases stored
    cases returned
    exact .stored found _ _

theorem Live.put (live : Live s) {path other : List Char} (new : FsElement Data)
    (points : other ≠ path → s.lastOpenedFile = .element other) :
    ∃ el, (s.pathToFsEl.put path new).get? other = some el := by
  by_cases same : other = path
  · rw [same]
    exact ⟨new, Map.get?_put_self _ _ _⟩
  · obtain ⟨el, found⟩ := live other (points same)
    exact ⟨el, (Map.get?_put_of_ne _ same _).trans found⟩

theorem Live.step {op : FileOp} (live : Live s) (step : Step fat s op s') : Live s' := by
  cases change_of_step step with
  | opened path flag disk =>
    intro other points
    apply live.put
    intro different
    dsimp only at points
    split at points
    · cases points
      exact absurd rfl different
    · exact points
  | closed path disk =>
    intro other points
    dsimp only at points
    split at points
    · cases points
    · rename_i notPointed
      have different : other ≠ path := by
        rintro rfl
        exact notPointed points
      obtain ⟨el, found⟩ := live other points
      exact ⟨el, (Map.get?_erase_of_ne _ different).trans found⟩
  | stored found data disk =>
    intro other points
    apply live.put
    intro _
    exact points

end OpenFiles

end SysCore.Fs
