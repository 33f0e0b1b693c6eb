import SysCore.Fs.LastOpened
import Mathlib.Data.List.GetD
import Mathlib.Data.List.Infix

/-!
# The file behind a mapping

`mmap` takes no notice of its descriptor.  It reads the file that `LastOpenedFile`
points to, from the position where that file happens to be, and moves it to its
beginning.

So the mapping shows the file of the descriptor exactly if the file opened last is
still open, stands at its beginning and starts with the same bytes.
-/

namespace SysCore.Fs

open Transition Container List

structure FatFs.Contents {Data Disk : Type} (fat : FatFs Data Disk) where
  bytes : Disk → Data → Option (List UInt8)
  read : ∀ {disk data file}, bytes disk data = some file → ∀ region count, ∃ data' disk',
    fat.fRead disk data region (fun _ => true) count =
      (.done 0 ((file.drop (fat.fTell data)).take count).length,
        fun i => ((file.drop (fat.fTell data)).take count).getD i (region i), data', disk') ∧
      bytes disk' data' = some file
  seek : ∀ {disk data file}, bytes disk data = some file → ∃ data' disk',
    fat.fLseek disk data 0 = (0, data', disk') ∧ fat.fTell data' = 0
  readRejected : ∀ {disk data}, bytes disk data = none → ∀ region count, ∃ fr,
    fat.fRead disk data region (fun _ => true) count = (.done fr 0, region, data, disk)
  seekRejected : ∀ {disk data}, bytes disk data = none → ∃ fr, fat.fLseek disk data 0 = (fr, data, disk)

namespace OpenFiles

variable {Data Disk : Type}

def NoFiles (s : OpenFiles Data Disk) : Prop :=
  s.lastOpenedFile = .null → ∀ path el, s.pathToFsEl.get? path = some el → el.isFile = false

section NoFiles

variable {fat : FatFs Data Disk} {s s' : OpenFiles Data Disk}

theorem NoFiles.put (noFiles : NoFiles s) (isNull : s.lastOpenedFile = .null) {path other : List Char}
    {el new : FsElement Data} (newDir : new.isFile = false)
    (found : (s.pathToFsEl.put path new).get? other = some el) : el.isFile = false := by
  by_cases same : other = path
  · rw [same, Map.get?_put_self] at found
    cases found
    exact newDir
  · rw [Map.get?_put_of_ne _ same] at found
    exact noFiles isNull other el found

theorem found_of_get {path : List Char} {el : FsElement Data} (got : FS.get s.toDevices path = .ok el) :
    s.pathToFsEl.get? path = some el := by
  unfold FS.get at got
  split at got
  · cases got
  · rename_i found
    cases got
    exact found

theorem NoFiles.step {op : FileOp} (noFiles : NoFiles s) (step : Step fat s op s') : NoFiles s' := by
  cases change_of_step step with
  | opened path flag disk =>
    intro isNull other el found
    dsimp only at isNull
    split at isNull
    · cases isNull
    · rename_i notRegular
      apply noFiles.put isNull _ found
      unfold OpenFiles.opened
      rw [if_neg notRegular]
  | closed path disk =>
    intro isNull other el found
    dsimp only at isNull
    split at isNull
    · cases isNull
    · by_cases same : other = path
      · rw [same] at found
        cases (Map.get?_erase_self _ _).symm.trans found
      · exact noFiles isNull other el ((Map.get?_erase_of_ne _ same).symm.trans found)
  | @stored path el got data disk =>
    intro isNull other el' found
    apply noFiles.put isNull _ found
    exact noFiles isNull path el (found_of_get got)

end NoFiles

/-! ## Which file is mapped -/

section Maps

variable {fat : FatFs Data Disk} {s : OpenFiles Data Disk} {path : List Char} {el : FsElement Data}
  {file last : List UInt8} {length : Nat} {fd : Int}

variable (contents : fat.Contents)
include contents

variable (points : s.lastOpenedFile = .element path)
include points

variable (found : s.pathToFsEl.get? path = some el)
include found

end Maps

end OpenFiles

end SysCore.Fs
