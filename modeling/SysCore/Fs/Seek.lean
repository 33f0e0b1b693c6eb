import SysCore.Fs.Fat

/-!
# Seeking

`FS::lseek` adds the offset to the base as `size_t` and gives the sum to FatFs, whose
offsets have 32 bits, so that FatFs moves the file to the sum modulo `2 ^ 32`.  All
files are opened for writing, and a file that is moved behind its end is extended.

The position is the sum itself exactly if it is an offset of FatFs.  Nothing makes the
call fail otherwise.
-/

namespace SysCore.Fs

open Transition Container

structure FatFs.Seeks {Data Disk : Type} (fat : FatFs Data Disk) where
  Writable : Data → Prop
  seek : ∀ {disk data offset}, Writable data → offset < 2 ^ 32 → ∃ data' disk',
    fat.fLseek disk data offset = (0, data', disk') ∧ Writable data' ∧ fat.fTell data' = offset ∧
      fat.fSize data' = max (fat.fSize data) offset

inductive Whence where
  | set
  | cur
  | «end»

namespace Whence

def code : Whence → Int
  | set => 0
  | cur => 1
  | «end» => 2

def base {Data Disk : Type} (fat : FatFs Data Disk) (data : Data) : Whence → Nat
  | set => 0
  | cur => fat.fTell data
  | «end» => fat.fSize data

end Whence

section Seek

variable {Data Disk : Type} (fat : FatFs Data Disk) (s : Devices Data Disk) (path : List Char)

namespace FS

def size : Option Nat :=
  (s.pathToFsEl.get? path).map fun el => fat.fSize el.data

def lseekBy (d : Int) (whence : Whence) : Outcome (Int × Devices Data Disk) :=
  lseek fat s path (d % 2 ^ 64).toNat whence.code

def Leaves (d : Int) (whence : Whence) (ret : Int) (position length : Nat) : Prop :=
  ∃ s', lseekBy fat s path d whence = .ok (ret, s') ∧ tell fat s' path = some position ∧
    size fat s' path = some length

def Seeks (el : FsElement Data) (d : Int) (whence : Whence) : Prop :=
  let target := whence.base fat el.data + d
  (0 ≤ target → target ≤ fat.fSize el.data →
    ∃ s', lseekBy fat s path d whence = .ok (target, s') ∧ tell fat s' path = some target.toNat) ∧
  (target < 0 ∨ 2 ^ 32 ≤ target →
    Leaves fat s path d whence (-1) (fat.fTell el.data) (fat.fSize el.data))

end FS

end Seek

/-! ## What a seek leaves -/

theorem asInt_of_lt {n : Nat} (small : n < 2 ^ 31) : asInt n = n := by
  unfold asInt
  rw [BitVec.toInt_ofNat', Int.bmod_eq_of_le (by omega) (by omega)]

theorem asInt_eq_neg_one {n : Nat} (inRange : n < 2 ^ 32) (failed : asInt n = -1) : n = 2 ^ 32 - 1 := by
  unfold asInt at failed
  rw [BitVec.toInt_ofNat', Int.bmod_def] at failed
  split at failed <;> omega

section Seek

variable {Data Disk : Type} {fat : FatFs Data Disk} {s : Devices Data Disk} {path : List Char}
  {el : FsElement Data}

namespace FS

variable {found : FsElement Data} {data : Data} {disk : Disk}

theorem tell_store : tell fat (store s path found data disk) path = some (fat.fTell data) := by
  unfold tell store
  rw [Map.get?_put_self]
  rfl

theorem size_store : size fat (store s path found data disk) path = some (fat.fSize data) := by
  unfold size store
  rw [Map.get?_put_self]
  rfl

theorem offset_eq (data : Data) (d : Int) (whence : Whence) :
    (if whence.code = 1 then ((d % 2 ^ 64).toNat + fat.fTell data) % 2 ^ 64
      else if whence.code = 2 then ((d % 2 ^ 64).toNat + fat.fSize data) % 2 ^ 64
      else (d % 2 ^ 64).toNat) % 2 ^ 32 = ((whence.base fat data + d) % 2 ^ 32).toNat := by
  have sum_eq (base : Nat) :
      ((d % 2 ^ 64).toNat + base) % 2 ^ 64 % 2 ^ 32 = ((base + d) % 2 ^ 32).toNat := by omega
  cases whence with
  | set =>
    have offset_eq : (d % 2 ^ 64).toNat % 2 ^ 32 = (((0 : Nat) + d) % 2 ^ 32).toNat := by omega
    exact offset_eq
  | cur => exact sum_eq _
  | «end» => exact sum_eq _

theorem lseekBy_of_found (found : s.pathToFsEl.get? path = some el) (d : Int) (whence : Whence) :
    lseekBy fat s path d whence =
      let sought := fat.fLseek s.disk el.data ((whence.base fat el.data + d) % 2 ^ 32).toNat
      .ok (if sought.1 ≠ 0 then -1 else asInt (fat.fTell sought.2.1),
        store s path el sought.2.1 sought.2.2) := by
  have get_eq : get s path = .ok el := by
    unfold get
    rw [found]
  unfold lseekBy lseek
  rw [get_eq, ok_bind, ← offset_eq]
  rfl

theorem leaves_of_writable (law : fat.Seeks) (found : s.pathToFsEl.get? path = some el)
    (writable : law.Writable el.data) (d : Int) (whence : Whence) {position : Nat}
    (position_eq : position = ((whence.base fat el.data + d) % 2 ^ 32).toNat) :
    Leaves fat s path d whence (asInt position) position (max (fat.fSize el.data) position) := by
  have position_lt : position < 2 ^ 32 := by omega
  obtain ⟨data', disk', seek_eq, -, tell_eq, size_eq⟩ := @law.seek s.disk _ _ writable position_lt
  refine ⟨store s path el data' disk', ?_, ?_, ?_⟩
  · rw [lseekBy_of_found found, ← position_eq, seek_eq, ← tell_eq]
    rfl
  · rw [tell_store, tell_eq]
  · rw [size_store, size_eq]

/-- On an open file smaller than 2 GiB and with any offset, seeking is right exactly if
the target is an offset of FatFs. -/
theorem seeks_iff (law : fat.Seeks) (found : s.pathToFsEl.get? path = some el)
    (writable : law.Writable el.data) (small : fat.fSize el.data < 2 ^ 31)
    (inside : fat.fTell el.data ≤ fat.fSize el.data) (d : Int) (whence : Whence) :
    Seeks fat s path el d whence ↔
      0 ≤ whence.base fat el.data + d ∧ whence.base fat el.data + d < 2 ^ 32 := by
  obtain ⟨s', seek_eq, tell_eq, -⟩ := leaves_of_writable law found writable d whence rfl
  constructor
  · intro right
    by_contra outside
    obtain ⟨s'', failed_eq, told, -⟩ := right.2 (by omega)
    have both := Prod.mk.inj (Except.ok.inj (seek_eq.symm.trans failed_eq))
    -- The call fails only at the greatest offset, and there the file was not.
    have last := asInt_eq_neg_one (by omega) both.1
    rw [both.2, told] at tell_eq
    have same := Option.some.inj tell_eq
    omega
  · rintro ⟨notNegative, inRange⟩
    constructor
    · intro _ inFile
      refine ⟨s', ?_, ?_⟩
      · rw [seek_eq, asInt_of_lt (by omega)]
        congr 2
        omega
      · rw [tell_eq]
        congr 1
        omega
    · intro outside
      omega

end FS

end Seek

/-! ## A file of ten bytes -/

def sizedFat : FatFs (Nat × Nat) Unit where
  fOpen _ _ _ := (0, (0, 0), ())
  fOpendir _ _ := (0, (0, 0), ())
  fRead _ file buf _ count := (.done 0 (min count (file.2 - file.1)), buf,
    (file.1 + min count (file.2 - file.1), file.2), ())
  fWrite _ file _ count := (.done 0 count, (file.1 + count, max file.2 (file.1 + count)), ())
  fLseek _ file offset := (0, (offset, max file.2 offset), ())
  fClose _ _ := (0, ())
  fMkdir _ _ := (0, ())
  fTell file := file.1
  fSize file := file.2

def sizedFat_seeks : sizedFat.Seeks where
  Writable _ := True
  seek _ _ := ⟨_, _, rfl, trivial, rfl, rfl⟩

def tenBytes : Devices (Nat × Nat) Unit where
  disk := ()
  pathToFsEl := Map.empty.put ['/', 'a'] ⟨(3, 10), true⟩
  console := []

namespace FS

theorem seeks_tenBytes : Seeks sizedFat tenBytes ['/', 'a'] ⟨(3, 10), true⟩ (-2) .end :=
  (seeks_iff sizedFat_seeks rfl trivial (by decide) (by decide) (-2) .end).2 ⟨by decide, by decide⟩

theorem not_seeks_tenBytes :
    Leaves sizedFat tenBytes ['/', 'a'] (-2) .set (-2) (2 ^ 32 - 2) (2 ^ 32 - 2) ∧
    ¬ Seeks sizedFat tenBytes ['/', 'a'] ⟨(3, 10), true⟩ (-2) .set ∧
    Leaves sizedFat tenBytes ['/', 'a'] (2 ^ 32) .set 0 0 10 ∧
    ¬ Seeks sizedFat tenBytes ['/', 'a'] ⟨(3, 10), true⟩ (2 ^ 32) .set := by
  have refused {d ret : Int} {position length : Nat} {whence : Whence} (isWrong : ret ≠ -1)
      (outside : whence.base sizedFat (3, 10) + d < 0 ∨ 2 ^ 32 ≤ whence.base sizedFat (3, 10) + d)
      (leaves : Leaves sizedFat tenBytes ['/', 'a'] d whence ret position length) :
      ¬ Seeks sizedFat tenBytes ['/', 'a'] ⟨(3, 10), true⟩ d whence := by
    intro right
    obtain ⟨s', seek_eq, -⟩ := leaves
    obtain ⟨s'', failed_eq, -⟩ := right.2 outside
    exact isWrong (Prod.mk.inj (Except.ok.inj (seek_eq.symm.trans failed_eq))).1
  have before : Leaves sizedFat tenBytes ['/', 'a'] (-2) .set (-2) (2 ^ 32 - 2) (2 ^ 32 - 2) :=
    ⟨_, rfl, rfl, rfl⟩
  have behind : Leaves sizedFat tenBytes ['/', 'a'] (2 ^ 32) .set 0 0 10 := ⟨_, rfl, rfl, rfl⟩
  exact ⟨before, refused (by decide) (by decide) before, behind,
    refused (by decide) (by decide) behind⟩

end FS

end SysCore.Fs
