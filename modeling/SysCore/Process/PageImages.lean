import SysCore.Process.Managers

/-!
# The images of the pages of a segment

The inner loop of `load_elf` goes through the pages of a segment.  It clears a buffer on
its stack, moves the file pointer to the part of the file that belongs to the page, reads
it into the buffer and binds the page.

The addresses and offsets are 64 bits, the position that `f_lseek` takes is 32 bits, and
a position behind the end of the file is moved to the end.  So the images are those of
the header exactly if its part of the file lies inside the file.
-/

namespace SysCore.Process

open Transition List

structure Fil where
  bytes : List UInt8
  small : bytes.length < 2 ^ 32
  fptr : Nat

namespace Fil

def lseek (fil : Fil) (ofs : Nat) : Fil :=
  { fil with fptr := min (ofs % 2 ^ 32) fil.bytes.length }

def read (fil : Fil) (btr : Nat) : List UInt8 × Fil :=
  let data := (fil.bytes.drop fil.fptr).take (btr % 2 ^ 32)
  (data, { fil with fptr := fil.fptr + data.length })

end Fil

structure ReadCall where
  index : Nat
  fptr : Nat
  btr : Nat
  deriving DecidableEq

structure PageBuf where
  vAddr : Nat
  buf : List UInt8
  reads : List ReadCall

namespace Phdr

def targetStart (phdr : Phdr) : Nat :=
  phdr.pVaddr / 4096 * 4096

def targetEnd (phdr : Phdr) : Nat :=
  ((phdr.pVaddr + phdr.pMemsz) % 2 ^ 64 + 4095) % 2 ^ 64 / 4096 * 4096

def source (phdr : Phdr) (p : Nat) : Nat :=
  (p + 2 ^ 64 - phdr.pVaddr + phdr.pOffset) % 2 ^ 64

def copyStart (phdr : Phdr) (p : Nat) : Nat :=
  max (phdr.source p) phdr.pOffset

def copyEnd (phdr : Phdr) (p : Nat) : Nat :=
  min ((phdr.source p + 4096) % 2 ^ 64) ((phdr.pOffset + phdr.pFilesz) % 2 ^ 64)

def bufIndex (phdr : Phdr) (p : Nat) : Nat :=
  (phdr.copyStart p + 2 ^ 64 - phdr.source p) % 2 ^ 64

def copySize (phdr : Phdr) (p : Nat) : Nat :=
  phdr.copyEnd p - phdr.copyStart p

/-- The headers of linked programs: the file and the memory agree on the place in a page,
the file has a part of the segment, and no sum leaves 64 bits. -/
structure Regular (phdr : Phdr) : Prop where
  congruent : phdr.pOffset % 4096 = phdr.pVaddr % 4096
  positive : 0 < phdr.pFilesz
  filesz_le : phdr.pFilesz ≤ phdr.pMemsz
  memory_fits : phdr.pVaddr + phdr.pMemsz + 4095 < 2 ^ 64
  file_fits : phdr.pOffset + phdr.pMemsz + 4096 < 2 ^ 64

def FromFile (phdr : Phdr) (address : Nat) : Prop :=
  phdr.pVaddr ≤ address ∧ address < phdr.pVaddr + phdr.pFilesz

structure Exact (phdr : Phdr) (file : List UInt8) (page : PageBuf) : Prop where
  inFile : ∀ call ∈ page.reads,
    phdr.pOffset ≤ call.fptr ∧ call.fptr + call.btr ≤ phdr.pOffset + phdr.pFilesz
  fromFile : ∀ k < 4096, phdr.FromFile (page.vAddr + k) →
    page.buf[k]? = file[phdr.pOffset + (page.vAddr + k - phdr.pVaddr)]?

end Phdr

namespace Phdr

variable {phdr : Phdr}

/-! ## Addresses and offsets -/

theorem Regular.targetEnd_eq (regular : phdr.Regular) :
    phdr.targetEnd = (phdr.pVaddr + phdr.pMemsz + 4095) / 4096 * 4096 := by
  have fits := regular.memory_fits
  unfold targetEnd
  rw [Nat.mod_eq_of_lt (Nat.lt_of_le_of_lt (Nat.le_add_right _ _) fits), Nat.mod_eq_of_lt fits]

theorem mem_pages (p : Nat) : p ∈ phdr.pages ↔ 4096 ∣ p ∧ phdr.targetStart ≤ p ∧ p < phdr.targetEnd := by
  have start_dvd : 4096 ∣ phdr.targetStart := Nat.dvd_mul_left _ _
  have end_dvd : 4096 ∣ phdr.targetEnd := Nat.dvd_mul_left _ _
  have pages_eq : phdr.pages =
      (List.range ((phdr.targetEnd - phdr.targetStart) / 4096)).map (phdr.targetStart + 4096 * ·) := rfl
  rw [pages_eq, mem_map]
  constructor
  · rintro ⟨i, inRange, rfl⟩
    rw [mem_range] at inRange
    omega
  · rintro ⟨p_dvd, start_le, lt_end⟩
    refine ⟨(p - phdr.targetStart) / 4096, ?_, ?_⟩
    · rw [mem_range]
      omega
    · omega

structure Window (phdr : Phdr) (p : Nat) : Prop where
  source_eq : phdr.source p + phdr.pVaddr = p + phdr.pOffset
  start_lt : phdr.copyStart p < phdr.source p + 4096
  end_eq : phdr.copyEnd p = min (phdr.source p + 4096) (phdr.pOffset + phdr.pFilesz)

theorem Regular.window (regular : phdr.Regular) {p : Nat} (isPage : p ∈ phdr.pages) : phdr.Window p := by
  rcases regular with ⟨congruent, positive, filesz_le, memory_fits, file_fits⟩
  rw [mem_pages, Regular.targetEnd_eq ⟨congruent, positive, filesz_le, memory_fits, file_fits⟩, targetStart] at isPage
  rcases isPage with ⟨p_dvd, start_le, lt_end⟩
  have source_eq : phdr.source p + phdr.pVaddr = p + phdr.pOffset := by
    unfold source
    omega
  constructor
  · exact source_eq
  · apply Nat.max_lt.2
    constructor
    · exact Nat.lt_add_of_pos_right (Nat.succ_pos _)
    · generalize phdr.source p = source at source_eq ⊢
      omega
  · unfold copyEnd
    rw [Nat.mod_eq_of_lt (by omega), Nat.mod_eq_of_lt (by omega)]

/-! ## One page -/

def window (phdr : Phdr) (file : List UInt8) (p : Nat) : List UInt8 :=
  (file.drop (min (phdr.copyStart p % 2 ^ 32) file.length)).take (phdr.copySize p)

def pageBuf (phdr : Phdr) (file : List UInt8) (p : Nat) : PageBuf where
  vAddr := p
  buf := List.replicate (phdr.bufIndex p) 0 ++ phdr.window file p ++
    List.replicate (4096 - (phdr.bufIndex p + (phdr.window file p).length)) 0
  reads :=
    if phdr.copyStart p < phdr.copyEnd p then
      [⟨phdr.bufIndex p, min (phdr.copyStart p % 2 ^ 32) file.length, phdr.copySize p⟩]
    else []

theorem length_window_le (file : List UInt8) (p : Nat) : (phdr.window file p).length ≤ phdr.copySize p :=
  length_take_le _ _

section Page

variable {p : Nat} (window : phdr.Window p) (file : List UInt8)

include window

theorem Window.index_add_source : phdr.bufIndex p + phdr.source p = phdr.copyStart p := by
  have start_lt := window.start_lt
  have source_le : phdr.source p ≤ phdr.copyStart p := Nat.le_max_left _ _
  unfold bufIndex
  omega

theorem Window.fits : phdr.bufIndex p + phdr.copySize p ≤ 4096 := by
  have start_lt := window.start_lt
  have index_eq := window.index_add_source
  have end_le : phdr.copyEnd p ≤ phdr.source p + 4096 := by
    rw [window.end_eq]
    exact Nat.min_le_left _ _
  unfold copySize
  omega

theorem Window.window_fits : phdr.bufIndex p + (phdr.window file p).length ≤ 4096 :=
  Nat.le_trans (Nat.add_le_add_left (length_window_le file p) _) window.fits

theorem Window.length_buf : (phdr.pageBuf file p).buf.length = 4096 := by
  unfold pageBuf
  dsimp only
  rw [length_append, length_append, length_replicate, length_replicate,
    Nat.add_sub_cancel' (window.window_fits file)]

theorem Window.fromFile_iff {k : Nat} (inPage : k < 4096) :
    phdr.FromFile (p + k) ↔ phdr.bufIndex p ≤ k ∧ k < phdr.bufIndex p + phdr.copySize p := by
  have source_eq := window.source_eq
  have index_eq := window.index_add_source
  have end_eq := window.end_eq
  unfold FromFile copySize
  unfold copyStart at index_eq ⊢
  omega

theorem Window.zero {k : Nat} (inPage : k < 4096) (outside : ¬ phdr.FromFile (p + k)) :
    (phdr.pageBuf file p).buf[k]? = some 0 := by
  rw [window.fromFile_iff inPage, not_and_or, Nat.not_le, Nat.not_lt] at outside
  have length_le := @length_window_le phdr file p
  unfold pageBuf
  dsimp only
  rcases outside with before | behind
  · rw [append_assoc, List.getElem?_append_left (by rw [length_replicate]; exact before),
      List.getElem?_replicate_of_lt before]
  · have length_eq : (List.replicate (phdr.bufIndex p) 0 ++ phdr.window file p).length =
        phdr.bufIndex p + (phdr.window file p).length := by
      rw [length_append, length_replicate]
    rw [List.getElem?_append_right (by omega), length_eq, List.getElem?_replicate_of_lt (by omega)]

end Page

section InFile

variable {p : Nat} {file : List UInt8} (window : phdr.Window p)
  (inside : phdr.pOffset + phdr.pFilesz ≤ file.length) (small : file.length < 2 ^ 32)

include window inside

theorem Window.end_le : phdr.copyEnd p ≤ file.length := by
  rw [window.end_eq]
  exact Nat.le_trans (Nat.min_le_right _ _) inside

include small

theorem Window.fptr_eq (copies : phdr.copyStart p < phdr.copyEnd p) :
    min (phdr.copyStart p % 2 ^ 32) file.length = phdr.copyStart p := by
  have start_le : phdr.copyStart p ≤ file.length :=
    Nat.le_trans (Nat.le_of_lt copies) (window.end_le inside)
  rw [Nat.mod_eq_of_lt (Nat.lt_of_le_of_lt start_le small), Nat.min_eq_left start_le]

theorem Window.window_eq (copies : phdr.copyStart p < phdr.copyEnd p) :
    phdr.window file p = (file.drop (phdr.copyStart p)).take (phdr.copySize p) := by
  unfold Phdr.window
  rw [window.fptr_eq inside small copies]

theorem Window.exact : phdr.Exact file (phdr.pageBuf file p) := by
  constructor
  · intro call isRead
    unfold pageBuf at isRead
    dsimp only at isRead
    split at isRead
    · rename_i copies
      rw [mem_singleton.1 isRead, window.fptr_eq inside small copies]
      constructor
      · exact Nat.le_max_right _ _
      · rw [copySize, Nat.add_sub_cancel' (Nat.le_of_lt copies), window.end_eq]
        exact Nat.min_le_right _ _
    · exact absurd isRead not_mem_nil
  · intro k inPage (fromFile : phdr.FromFile (p + k))
    have source_eq := window.source_eq
    have index_eq := window.index_add_source
    have end_le := window.end_le inside
    have covered := (window.fromFile_iff inPage).1 fromFile
    have size_eq : phdr.copySize p = phdr.copyEnd p - phdr.copyStart p := rfl
    have copied := window.window_eq inside small (by omega)
    have length_eq : (phdr.window file p).length = phdr.copySize p := by
      rw [copied, length_take, length_drop]
      exact Nat.min_eq_left (Nat.sub_le_sub_right end_le _)
    have position_eq : phdr.copyStart p + (k - phdr.bufIndex p) = phdr.pOffset + (p + k - phdr.pVaddr) := by
      have from_le := fromFile.1
      omega
    unfold pageBuf
    dsimp only
    rw [append_assoc, List.getElem?_append_right (by rw [length_replicate]; exact covered.1),
      length_replicate, List.getElem?_append_left (by omega), copied, List.getElem?_take_of_lt (by omega),
      List.getElem?_drop, position_eq]

end InFile

/-! ## The loop -/

theorem Window.image_eq {p : Nat} {file : List UInt8} (window : phdr.Window p)
    (inside : phdr.pOffset + phdr.pFilesz ≤ file.length) (small : file.length < 2 ^ 32) :
    (fun k => (phdr.pageBuf file p).buf.getD k 0) = phdr.image (fun i => file.getD i 0) p := by
  have index_eq := window.index_add_source
  have size_eq : phdr.copySize p = phdr.copyEnd p - phdr.copyStart p := rfl
  funext k
  rw [getD_eq_getElem?_getD]
  change _ = if phdr.copyStart p ≤ phdr.source p + k ∧ phdr.source p + k < phdr.copyEnd p then
    file.getD (phdr.source p + k) 0 else 0
  by_cases inPage : k < 4096
  · have covered : phdr.FromFile (p + k) ↔
        phdr.copyStart p ≤ phdr.source p + k ∧ phdr.source p + k < phdr.copyEnd p :=
      (window.fromFile_iff inPage).trans (by omega)
    by_cases fromFile : phdr.FromFile (p + k)
    · have position_eq : phdr.pOffset + (p + k - phdr.pVaddr) = phdr.source p + k := by
        have source_eq := window.source_eq
        have from_le := fromFile.1
        omega
      rw [(window.exact inside small).fromFile k inPage fromFile, if_pos (covered.1 fromFile), getD_eq_getElem?_getD,
        ← position_eq]
      rfl
    · rw [window.zero file inPage fromFile, if_neg fun both => fromFile (covered.2 both)]
      rfl
  · have length_le : (phdr.pageBuf file p).buf.length ≤ k := (window.length_buf file).trans_le (Nat.not_lt.1 inPage)
    have fits := window.fits
    rw [List.getElem?_eq_none length_le, if_neg (by omega)]
    rfl

end Phdr

end SysCore.Process
