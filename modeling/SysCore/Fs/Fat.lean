import SysCore.Container.Map
import SysCore.Fs.Mounts

/-!
# The file systems of the kernel

`FS` puts the files of the disk behind the tree.  It keeps one `FS_Element` for a
path, whoever has opened it: `open` replaces the element of its path, `close`
erases it, and the other calls shut the kernel down when there is none.  The
devices `/dev/console`, `/dev/zero` and `/dev/null` keep nothing; what they do
not implement shuts the kernel down.

The FatFs library is given by its calls.  Each works on the disk and on one
object, so calls on different objects are independent but for the disk.
-/

namespace SysCore.Fs

open Transition Container

inductive Moved where
  | done (fr : Int) (result : Nat)
  | fault

structure FatFs (Data Disk : Type) where
  fOpen : Disk → (path : List Char) → (mode : Nat) → Int × Data × Disk
  fOpendir : Disk → (path : List Char) → Int × Data × Disk
  fRead : Disk → Data → (buf : Nat → UInt8) → (mapped : Nat → Bool) → (count : Nat) →
    Moved × (Nat → UInt8) × Data × Disk
  fWrite : Disk → Data → (buf : Nat → Option UInt8) → (count : Nat) → Moved × Data × Disk
  fLseek : Disk → Data → (offset : Nat) → Int × Data × Disk
  fClose : Disk → Data → Int × Disk
  fMkdir : Disk → (path : List Char) → Int × Disk
  fTell : Data → Nat
  fSize : Data → Nat

structure FsElement (Data : Type) where
  data : Data
  isFile : Bool

structure Devices (Data Disk : Type) where
  disk : Disk
  pathToFsEl : Map (List Char) (FsElement Data)
  console : List UInt8

namespace FSUtil

def oWronly : Nat := 0x1

def oRdwr : Nat := 0x2

def oDirectory : Nat := 0x200000

def sIfreg : Nat := 0x8000

def sIfdir : Nat := 0x4000

def faRead : Nat := 0x1

def faWrite : Nat := 0x2

def faCreateAlways : Nat := 0x8

def openModeToFatfsMode (flag : Nat) : Nat :=
  (if flag &&& Vfs.oCreate ≠ 0 then faCreateAlways else 0) |||
  (if flag &&& oWronly ≠ 0 then faWrite else 0) |||
  (if flag &&& oRdwr ≠ 0 then faWrite ||| faRead else 0) |||
  (if flag = 0 then faRead else 0)

def addFlag (path : List Char) (flag : Nat) : Nat :=
  (if path.getLast? = some '/' ∨ flag &&& oDirectory ≠ 0 then flag ||| sIfdir else flag ||| sIfreg) |||
    oRdwr

end FSUtil

def asInt (result : Nat) : Int :=
  (BitVec.ofNat 32 result).toInt

section Calls

variable {Data Disk : Type} (fat : FatFs Data Disk) (s : Devices Data Disk)

namespace FS

def get (path : List Char) : Outcome (FsElement Data) :=
  match s.pathToFsEl.get? path with
  | none => .error .panic
  | some el => .ok el

def store (path : List Char) (el : FsElement Data) (data : Data) (disk : Disk) : Devices Data Disk :=
  { s with disk := disk, pathToFsEl := s.pathToFsEl.put path { el with data := data } }

def «open» (path : List Char) (flag : Nat) : Outcome (Int × Devices Data Disk) :=
  let flag := FSUtil.addFlag path flag
  if flag &&& FSUtil.sIfreg ≠ 0 then
    let (fr, data, disk) := fat.fOpen s.disk path.tail (FSUtil.openModeToFatfsMode flag)
    .ok (fr, { s with disk := disk, pathToFsEl := s.pathToFsEl.put path ⟨data, true⟩ })
  else if flag &&& FSUtil.sIfdir ≠ 0 then
    let (fr, data, disk) := fat.fOpendir s.disk path.tail
    .ok (fr, { s with disk := disk, pathToFsEl := s.pathToFsEl.put path ⟨data, false⟩ })
  else
    .ok (-1, s)

def moved : Moved → Answer
  | .done fr result => .returned (if fr ≠ 0 then -1 else asInt result)
  | .fault => .fault

def read (path : List Char) (buf : Nat → UInt8) (mapped : Nat → Bool) (count : Int) :
    Outcome ((Answer × (Nat → UInt8)) × Devices Data Disk) := do
  let el ← get s path
  let (stop, buf, data, disk) := fat.fRead s.disk el.data buf mapped (count % 2 ^ 32).toNat
  return ((moved stop, buf), store s path el data disk)

def write (path : List Char) (buf : Nat → Option UInt8) (count : Int) :
    Outcome (Answer × Devices Data Disk) := do
  let el ← get s path
  let (stop, data, disk) := fat.fWrite s.disk el.data buf (count % 2 ^ 32).toNat
  return (moved stop, store s path el data disk)

def lseek (path : List Char) (offset : Nat) (whence : Int) : Outcome (Int × Devices Data Disk) := do
  let el ← get s path
  let offset :=
    if whence = 1 then (offset + fat.fTell el.data) % 2 ^ 64
    else if whence = 2 then (offset + fat.fSize el.data) % 2 ^ 64
    else offset
  let (res, data, disk) := fat.fLseek s.disk el.data (offset % 2 ^ 32)
  return (if res ≠ 0 then -1 else asInt (fat.fTell data), store s path el data disk)

def close (path : List Char) : Outcome (Int × Devices Data Disk) := do
  let el ← get s path
  let (fr, disk) := fat.fClose s.disk el.data
  return (fr, { s with disk := disk, pathToFsEl := s.pathToFsEl.erase path })

def mkdir (path : List Char) : Int × Devices Data Disk :=
  let (fr, disk) := fat.fMkdir s.disk path
  (fr, { s with disk := disk })

def tell (path : List Char) : Option Nat :=
  (s.pathToFsEl.get? path).map fun el => fat.fTell el.data

end FS

def zeroBytes (mapped : Nat → Bool) : (remaining i : Nat) → (Nat → UInt8) → Bool × (Nat → UInt8)
  | 0, _, buf => (true, buf)
  | remaining + 1, i, buf =>
    if mapped i then zeroBytes mapped remaining (i + 1) (Function.update buf i 0) else (false, buf)

def putBytes (buf : Nat → Option UInt8) : (remaining i : Nat) → List UInt8 → Bool × List UInt8
  | 0, _, console => (true, console)
  | remaining + 1, i, console =>
    match buf i with
    | none => (false, console)
    | some byte => putBytes buf remaining (i + 1) (console ++ [byte])

end Calls

inductive Device where
  | fat
  | stdout
  | zero
  | null
  deriving DecidableEq

def devices {Data Disk : Type} (fat : FatFs Data Disk) : Ifs Device (Devices Data Disk) where
  «open»
    | .fat, s, path, flag => FS.open fat s path flag
    | .stdout, _, _, _ => .error .panic
    | .zero, s, _, _ => .ok (0, s)
    | .null, s, _, _ => .ok (0, s)
  read
    | .fat, s, path, buf, mapped, count => FS.read fat s path buf mapped count
    | .stdout, _, _, _, _, _ => .error .panic
    | .zero, s, _, buf, mapped, count =>
      let (finished, buf) := zeroBytes mapped count.toNat 0 buf
      .ok ((if finished then .returned count else .fault, buf), s)
    | .null, _, _, _, _, _ => .error .panic
  write
    | .fat, s, path, buf, count => FS.write fat s path buf count
    | .stdout, s, _, buf, count =>
      let (finished, console) := putBytes buf count.toNat 0 s.console
      .ok (if finished then .returned count else .fault, { s with console := console })
    | .zero, _, _, _, _ => .error .panic
    | .null, s, _, _, count => .ok (.returned count, s)
  lseek
    | .fat, s, path, offset, whence => FS.lseek fat s path offset whence
    | _, _, _, _, _ => .error .panic
  close
    | .fat, s, path => FS.close fat s path
    | .stdout, _, _ => .error .panic
    | .zero, s, _ => .ok (0, s)
    | .null, s, _ => .ok (0, s)
  mkdir
    | .fat, s, path, _ => .ok (FS.mkdir fat s path)
    | _, _, _, _ => .error .panic

def endlessFat : FatFs Nat Unit where
  fOpen _ _ _ := (0, 0, ())
  fOpendir _ _ := (0, 0, ())
  fRead _ position buf _ count := (.done 0 count, fun i => if i < count then 0 else buf i,
    position + count, ())
  fWrite _ position _ count := (.done 0 count, position + count, ())
  fLseek _ _ offset := (0, offset, ())
  fClose _ _ := (0, ())
  fMkdir _ _ := (0, ())
  fTell position := position
  fSize _ := 0

def mounted : Mounts Device (Devices Nat Unit) where
  root := .node ['/'] [.node ['d', 'e', 'v'] [.node ['c', 'o', 'n', 's', 'o', 'l', 'e'] [],
    .node ['z', 'e', 'r', 'o'] [], .node ['n', 'u', 'l', 'l'] []], .node ['a'] []]
  fs file :=
    if file = [0, 0] then .stdout
    else if file = [0, 1] then .zero
    else if file = [0, 2] then .null
    else .fat
  data := { disk := (), pathToFsEl := .empty, console := [] }

/-! ## What the devices leave alone -/

theorem zeroBytes_of_mapped {mapped : Nat → Bool} (remaining i : Nat) (buf : Nat → UInt8)
    (isMapped : ∀ j < i + remaining, mapped j) : (zeroBytes mapped remaining i buf).1 = true := by
  induction remaining generalizing i buf with
  | zero => rfl
  | succ remaining ih =>
    rw [zeroBytes, if_pos (isMapped i (by omega))]
    exact ih (i + 1) _ fun j inRange => isMapped j (by omega)

def Mounts.Harmless {Data Disk : Type} (m : Mounts Device (Devices Data Disk)) (path : List Char) :
    Prop :=
  Vfs.search m.root path = .ok none ∨
    ∃ file, Vfs.search m.root path = .ok (some file) ∧ m.fs file = .zero

namespace Mounts

variable {Data Disk : Type} {fat : FatFs Data Disk} {m m' : Mounts Device (Devices Data Disk)}
  {path : List Char} {mapped : Nat → Bool} {count ret : Int}

variable (harmless : m.Harmless path)
include harmless

theorem Harmless.adapter {α : Type} {missing answer : α}
    {call : Device → Devices Data Disk → Outcome (α × Devices Data Disk)}
    (kept : ∀ answer s, call .zero m.data = .ok (answer, s) → s = m.data)
    (call_eq : m.adapter path missing call = .ok (answer, m')) : m' = m := by
  rcases adapter_eq_ok call_eq with ⟨-, -, m'_eq⟩ | ⟨file, data, search_eq, device_eq, rfl⟩
  · exact m'_eq
  · rcases harmless with none_eq | ⟨file', search_eq', zero⟩
    · cases search_eq.symm.trans none_eq
    · cases search_eq.symm.trans search_eq'
      rw [zero] at device_eq
      rw [kept answer data device_eq]

theorem Harmless.read {buf : Nat → UInt8} {answer : Answer × (Nat → UInt8)}
    (read_eq : m.read (devices fat) path buf mapped count = .ok (answer, m')) : m' = m := by
  refine harmless.adapter (fun answer s zero_eq => ?_) read_eq
  cases zero_eq
  rfl

theorem Harmless.write {buf : Nat → Option UInt8} {answer : Answer}
    (write_eq : m.write (devices fat) path buf count = .ok (answer, m')) : m' = m :=
  harmless.adapter nofun write_eq

theorem Harmless.lseek {offset : Nat} {whence : Int}
    (lseek_eq : m.lseek (devices fat) path offset whence = .ok (ret, m')) : m' = m :=
  harmless.adapter nofun lseek_eq

theorem Harmless.close (close_eq : m.close (devices fat) path = .ok (ret, m')) : m' = m := by
  refine harmless.adapter (fun answer s zero_eq => ?_) close_eq
  cases zero_eq
  rfl

theorem Harmless.read_returns (isMapped : ∀ i : Nat, i < count → mapped i) (buf : Nat → UInt8) :
    ∃ value buf', m.read (devices fat) path buf mapped count = .ok ((.returned value, buf'), m) := by
  rcases harmless with search_eq | ⟨file, search_eq, zero⟩
  · exact ⟨_, _, adapter_of_none search_eq⟩
  · have finished := zeroBytes_of_mapped count.toNat 0 buf fun i inRange =>
      isMapped i (by omega)
    refine ⟨count, (zeroBytes mapped count.toNat 0 buf).2, ?_⟩
    unfold Mounts.read
    rw [adapter_of_some search_eq, zero]
    simp [devices, finished]

end Mounts

end SysCore.Fs
