import Mathlib.Data.List.Find
import Mathlib.Data.List.Pairwise
import SysCore.Paging.Stores
import SysCore.Process.World

/-!
# The image of a loaded file

The loader binds the pages of the segments in the order of the program headers.
A segment without bytes in the file is skipped, and binding a page twice keeps
the page of the first segment, which holds the bytes of that segment alone.  A
program then sees its file exactly when every page of its segments belongs to a
segment that is loaded, and a page shared by several segments has nothing but
zeros outside the first of them.
-/

namespace SysCore.Process

open Memory Transition Paging List

namespace Phdr

def Occupies (phdr : Phdr) (a : Nat) : Prop :=
  phdr.pVaddr ≤ a ∧ a < phdr.pVaddr + phdr.pMemsz

def byteAt (phdr : Phdr) (content : Nat → UInt8) (a : Nat) : UInt8 :=
  if a - phdr.pVaddr < phdr.pFilesz then content (phdr.pOffset + (a - phdr.pVaddr)) else 0

structure WellFormed (phdr : Phdr) : Prop where
  filesz_le : phdr.pFilesz ≤ phdr.pMemsz
  congruent : phdr.pOffset % 4096 = phdr.pVaddr % 4096
  vaddr_small : phdr.pVaddr + phdr.pMemsz + 4095 < 2 ^ 64
  offset_small : phdr.pOffset + phdr.pMemsz + 4095 < 2 ^ 64

variable {phdr : Phdr}

theorem loaded_iff : phdr.loaded ↔ phdr.pType = 1 ∧ phdr.pFilesz ≠ 0 := by
  simp [loaded]

theorem mem_pages_iff (wellFormed : phdr.WellFormed) {p : Nat} :
    p ∈ phdr.pages ↔ p % 4096 = 0 ∧ phdr.pVaddr < p + 4096 ∧ p < phdr.pVaddr + phdr.pMemsz := by
  have small := wellFormed.vaddr_small
  unfold pages
  rw [Nat.mod_eq_of_lt (by omega : phdr.pVaddr + phdr.pMemsz < 2 ^ 64), Nat.mod_eq_of_lt small]
  simp only [mem_map, mem_range]
  constructor
  · rintro ⟨i, below, rfl⟩
    omega
  · rintro ⟨aligned, upper, lower⟩
    exact ⟨(p - phdr.pVaddr / 4096 * 4096) / 4096, by omega, by omega⟩

theorem image_eq (wellFormed : phdr.WellFormed) (content : Nat → UInt8) {a : Nat}
    (page : pageOf a ∈ phdr.pages) :
    phdr.image content (pageOf a) (a % 4096) =
      if phdr.pVaddr ≤ a ∧ a < phdr.pVaddr + phdr.pFilesz
      then content (phdr.pOffset + (a - phdr.pVaddr)) else 0 := by
  obtain ⟨-, upper, lower⟩ := (mem_pages_iff wellFormed).1 page
  have filesz_le := wellFormed.filesz_le
  have congruent := wellFormed.congruent
  have offset_small := wellFormed.offset_small
  unfold pageOf at upper lower ⊢
  have source_eq : (a / 4096 * 4096 + 2 ^ 64 - phdr.pVaddr + phdr.pOffset) % 2 ^ 64 =
      a / 4096 * 4096 + phdr.pOffset - phdr.pVaddr := by
    omega
  have end_eq : (a / 4096 * 4096 + phdr.pOffset - phdr.pVaddr + 4096) % 2 ^ 64 =
      a / 4096 * 4096 + phdr.pOffset - phdr.pVaddr + 4096 :=
    Nat.mod_eq_of_lt (by omega)
  have file_eq : (phdr.pOffset + phdr.pFilesz) % 2 ^ 64 = phdr.pOffset + phdr.pFilesz :=
    Nat.mod_eq_of_lt (by omega)
  simp only [image, source_eq, end_eq, file_eq]
  by_cases inside : phdr.pVaddr ≤ a ∧ a < phdr.pVaddr + phdr.pFilesz
  · have offset_eq : a / 4096 * 4096 + phdr.pOffset - phdr.pVaddr + a % 4096 =
        phdr.pOffset + (a - phdr.pVaddr) := by
      omega
    rw [if_pos (by omega), if_pos inside, offset_eq]
  · rw [if_neg (by omega), if_neg inside]

end Phdr

namespace ElfFile

def owner (file : ElfFile) (a : Nat) : Option Phdr :=
  (file.phdrs.filter Phdr.loaded).find? fun phdr => pageOf a ∈ phdr.pages

structure WellFormed (file : ElfFile) (fixed : FixedPages) : Prop where
  wellFormed : ∀ phdr ∈ file.phdrs, phdr.pType = 1 → phdr.WellFormed
  disjoint : file.phdrs.Pairwise fun first second => first.pType = 1 → second.pType = 1 →
    ∀ a, first.Occupies a → ¬ second.Occupies a
  user : ∀ phdr ∈ file.phdrs, phdr.pType = 1 → ∀ a, phdr.Occupies a →
    a < 2 ^ 39 ∧ baseView fixed (vpnOf a) = none

def Seen (file : ElfFile) (bytes : Bytes) (root : Nat) : Prop :=
  ∀ phdr ∈ file.phdrs, phdr.pType = 1 → ∀ a, phdr.Occupies a →
    readUser bytes root a = some (phdr.byteAt file.content a)

def Separate (file : ElfFile) : Prop :=
  ∀ phdr ∈ file.phdrs, phdr.pType = 1 → ∀ a, phdr.Occupies a →
    ∃ first, file.owner a = some first ∧
      (first.Occupies a ∨ phdr.byteAt file.content a = 0)

def requests (loads : List ElfLoad) : List PageRequest :=
  loads.map fun load => ⟨load.vAddr, fun _ => .image load.image⟩

variable {root a : Nat} {elf : ElfImage} {mem mem' : PhysMemory} {first : Phdr}

theorem mapPages_of_bindPages {loads : List ElfLoad} {elf' : ElfImage}
    (done : ElfImage.bindPages root loads elf mem = .ok (elf', mem')) :
    ∃ pages, mapPages root (requests loads) mem = .ok (pages, mem') := by
  induction loads generalizing elf mem with
  | nil =>
    cases done
    exact ⟨[], rfl⟩
  | cons load rest ih =>
    rw [ElfImage.bindPages, bindPage_eq] at done
    obtain ⟨⟨elf₁, mem₁⟩, bound, done⟩ := bind_eq_ok.1 done
    obtain ⟨⟨page, mem₂⟩, mapped, last_eq⟩ := bind_eq_ok.1 bound
    cases last_eq
    obtain ⟨pages, pages_eq⟩ := ih done
    refine ⟨page :: pages, ?_⟩
    rw [requests, map_cons, mapPages, mapped, ok_bind]
    dsimp only
    rw [← requests, pages_eq, ok_bind]
    rfl

theorem find?_eq_ite (pages : List Nat) (p : Nat) :
    pages.find? (fun q => q = p) = if p ∈ pages then some p else none := by
  induction pages with
  | nil => rfl
  | cons q rest ih =>
    rw [List.find?_cons, ih]
    by_cases eq : q = p
    · simp [eq]
    · simp [eq, Ne.symm eq]

theorem find?_loads (file : ElfFile) (a : Nat) :
    file.loads.find? (fun load => load.vAddr = pageOf a) = (file.owner a).map fun phdr =>
      ⟨phdr.writable, pageOf a, phdr.image file.content (pageOf a)⟩ := by
  unfold loads owner
  generalize file.phdrs.filter Phdr.loaded = phdrs
  induction phdrs with
  | nil => rfl
  | cons phdr rest ih =>
    have here := find?_eq_ite phdr.pages (pageOf a)
    rw [flatMap_cons, List.find?_append, ih, List.find?_map, List.find?_cons]
    rw [show ((fun load : ElfLoad => decide (load.vAddr = pageOf a)) ∘ fun p =>
      ElfLoad.mk phdr.writable p (phdr.image file.content p)) = fun q => q = pageOf a from rfl, here]
    by_cases found : pageOf a ∈ phdr.pages <;> simp [found]

theorem find?_zip_fst {α β : Type} (p : α → Bool) (left : List α) (right : List β)
    (length_eq : right.length = left.length) :
    ((left.zip right).find? fun pair => p pair.1).map Prod.fst = left.find? p := by
  have left_eq : (left.zip right).map Prod.fst = left := map_fst_zip (by omega)
  conv_rhs => rw [← left_eq, List.find?_map]
  rfl

variable {file : ElfFile} {fixed : FixedPages}

theorem WellFormed.vpnOf_eq_iff (wellFormed : file.WellFormed fixed) {load : ElfLoad}
    (loadMem : load ∈ file.loads) (small : a < 2 ^ 39) :
    vpnOf load.vAddr = vpnOf a ↔ load.vAddr = pageOf a := by
  obtain ⟨phdr, phdrMem, loadMem⟩ := mem_flatMap.1 loadMem
  obtain ⟨p, pageMem, rfl⟩ := mem_map.1 loadMem
  obtain ⟨inFile, loaded⟩ := mem_filter.1 phdrMem
  obtain ⟨isLoad, notEmpty⟩ := Phdr.loaded_iff.1 loaded
  have phdrWellFormed := wellFormed.wellFormed phdr inFile isLoad
  have filesz_le := phdrWellFormed.filesz_le
  obtain ⟨aligned, upper, lower⟩ := (Phdr.mem_pages_iff phdrWellFormed).1 pageMem
  -- some address of the page is in the segment
  have inUser := (wellFormed.user phdr inFile isLoad (max p phdr.pVaddr) ⟨by omega, by omega⟩).1
  unfold vpnOf pageOf
  dsimp only
  omega

theorem readUser_of_loadElf (wellFormed : file.WellFormed fixed) {tables : List Nat}
    (ready : Ready mem root (baseView fixed) tables) (done : loadElf root file mem = .ok (elf, mem'))
    (small : a < 2 ^ 39) (free : baseView fixed (vpnOf a) = none) :
    readUser mem'.bytes root a = (file.owner a).map fun phdr =>
      phdr.image file.content (pageOf a) (a % 4096) := by
  obtain ⟨pages, mapped⟩ := mapPages_of_bindPages done
  have readable : ∀ request ∈ requests file.loads, ∀ bytes, request.fill bytes ≠ .unreadable := by
    intro request requestMem
    obtain ⟨load, -, rfl⟩ := mem_map.1 requestMem
    exact nofun
  obtain ⟨length_eq, news, extended⟩ := (mapPages_returns ready _ readable).1.result mapped
  dsimp only at length_eq extended
  rw [requests, length_map] at length_eq
  -- the entry of the address is the one of the first load of its page
  have view_eq : bindAll (baseView fixed) (((requests file.loads).map PageRequest.va).zip pages)
      (vpnOf a) = ((file.loads.zip pages).find? fun pair => pair.1.vAddr = pageOf a).map fun pair =>
        (userLeaf pair.2, 0) := by
    rw [bindAll_eq, free, Option.none_or, requests, List.map_map, zip_map_left, List.find?_map,
      Option.map_map]
    refine congrArg _ ?_
    refine List.find?_congr fun pair pairMem => ?_
    have loadMem := (of_mem_zip pairMem).1
    exact decide_eq_decide.2 (wellFormed.vpnOf_eq_iff loadMem small)
  have first_eq := find?_zip_fst (fun load : ElfLoad => decide (load.vAddr = pageOf a)) file.loads
    pages length_eq
  rw [find?_loads] at first_eq
  rw [readUser, extended.ready.space.translate_eq, view_eq]
  cases found : (file.loads.zip pages).find? fun pair => pair.1.vAddr = pageOf a with
  | none =>
    rw [found, Option.map_none] at first_eq
    rw [Option.map_eq_none_iff.1 first_eq.symm]
    rfl
  | some pair =>
    rw [found, Option.map_some] at first_eq
    obtain ⟨phdr, owner_eq, load_eq⟩ := Option.map_eq_some_iff.1 first_eq.symm
    have pairMem := mem_of_find?_eq_some found
    have pageMem : pair.2 ∈ mem.memoryPool :=
      extended.grown.pool.mem_iff.2 (mem_append_left _ (of_mem_zip pairMem).2)
    obtain ⟨aligned, page_lt⟩ := ready.fresh.aligned pair.2 pageMem
    have requestMem : (⟨pair.1.vAddr, fun _ => .image pair.1.image⟩, pair.2) ∈
        (requests file.loads).zip pages := by
      rw [requests, zip_map_left]
      exact mem_map_of_mem pairMem
    have byte_eq := mapPages_contents ready readable mapped requestMem (fun _ _ => rfl) rfl
      (Nat.mod_lt a (by decide : 0 < 4096))
    rw [owner_eq, Option.map_some, Option.map_some, Option.bind_some, userLeaf,
      leafTarget_small a .user aligned page_lt, Option.map_some]
    rw [byte_eq, ← load_eq]

theorem of_owner (owner_eq : file.owner a = some first) :
    first ∈ file.phdrs ∧ first.pType = 1 ∧ pageOf a ∈ first.pages := by
  have found := List.find?_some owner_eq
  obtain ⟨inFile, loaded⟩ := mem_filter.1 (mem_of_find?_eq_some owner_eq)
  exact ⟨inFile, (Phdr.loaded_iff.1 loaded).1, by simpa using found⟩

theorem WellFormed.eq_of_occupies (wellFormed : file.WellFormed fixed) {second : Phdr}
    (firstMem : first ∈ file.phdrs) (secondMem : second ∈ file.phdrs) (firstLoad : first.pType = 1)
    (secondLoad : second.pType = 1) (inFirst : first.Occupies a) (inSecond : second.Occupies a) :
    first = second := by
  by_contra different
  have symmetric : Std.Symm fun first second : Phdr => first.pType = 1 → second.pType = 1 →
      ∀ a, first.Occupies a → ¬ second.Occupies a :=
    ⟨fun _ _ apart load load' b inLeft inRight => apart load' load b inRight inLeft⟩
  exact wellFormed.disjoint.forall firstMem secondMem different firstLoad secondLoad a inFirst
    inSecond

/-- A program sees the file it was loaded from exactly when its segments are
separate. -/
theorem seen_iff_separate (wellFormed : file.WellFormed fixed) {mem mem' : PhysMemory}
    {root : Nat} {tables : List Nat} (ready : Ready mem root (baseView fixed) tables)
    {elf : ElfImage} (done : loadElf root file mem = .ok (elf, mem')) :
    file.Seen mem'.bytes root ↔ file.Separate := by
  refine forall_congr' fun phdr => forall_congr' fun inFile => forall_congr' fun isLoad =>
    forall_congr' fun a => forall_congr' fun occupies => ?_
  obtain ⟨small, free⟩ := wellFormed.user phdr inFile isLoad a occupies
  rw [readUser_of_loadElf wellFormed ready done small free]
  cases owner_eq : file.owner a with
  | none => simp
  | some first =>
    obtain ⟨firstMem, firstLoad, page⟩ := of_owner owner_eq
    have firstWellFormed := wellFormed.wellFormed first firstMem firstLoad
    rw [Option.map_some, Phdr.image_eq firstWellFormed file.content page, Option.some_inj]
    by_cases inFirst : first.Occupies a
    · obtain rfl := wellFormed.eq_of_occupies firstMem inFile firstLoad isLoad inFirst occupies
      simp only [Phdr.byteAt, inFirst, true_or, Option.some_inj, exists_eq_left']
      have lower := inFirst.1
      by_cases inFileSize : a < first.pVaddr + first.pFilesz
      · rw [if_pos ⟨lower, inFileSize⟩, if_pos (by omega)]
        simp
      · rw [if_neg (fun inside => inFileSize inside.2), if_neg (by omega)]
        simp
    · have outside : ¬ (first.pVaddr ≤ a ∧ a < first.pVaddr + first.pFilesz) := by
        have filesz_le := firstWellFormed.filesz_le
        rintro ⟨lower, upper⟩
        exact inFirst ⟨lower, by omega⟩
      rw [if_neg outside]
      simp [inFirst, eq_comm]

theorem baseView_of_low (low : a < 0x38001000) : baseView fixed (vpnOf a) = none := by
  have small : vpnOf a < 0x38001 := by
    unfold vpnOf
    omega
  exact baseView_free (.inl small)

theorem WellFormed.of_low {file : ElfFile} (wellFormed : ∀ phdr ∈ file.phdrs, phdr.WellFormed)
    (disjoint : file.phdrs.Pairwise fun first second => first.pVaddr + first.pMemsz ≤ second.pVaddr)
    (low : ∀ phdr ∈ file.phdrs, phdr.pVaddr + phdr.pMemsz ≤ 0x38001000) : file.WellFormed fixed where
  wellFormed phdr phdrMem _ := wellFormed phdr phdrMem
  disjoint := disjoint.imp fun apart _ _ a inFirst inSecond =>
    absurd (inFirst.2.trans_le apart) (not_lt.2 inSecond.1)
  user phdr phdrMem _ a occupies := by
    have small := occupies.2.trans_le (low phdr phdrMem)
    exact ⟨by omega, baseView_of_low small⟩

def separateFile : ElfFile where
  phdrs := [⟨1, 5, 0x10000, 0, 0x100, 0x100⟩, ⟨1, 6, 0x11000, 0x1000, 0x100, 0x200⟩]
  content := fun k => UInt8.ofNat k

theorem separateFile_wellFormed : separateFile.WellFormed sampleFixed := by
  refine .of_low ?_ (by decide) (by decide)
  intro phdr phdrMem
  simp only [separateFile, mem_cons, not_mem_nil, or_false] at phdrMem
  rcases phdrMem with rfl | rfl <;> constructor <;> decide

theorem separateFile_separate : separateFile.Separate := by
  rintro phdr phdrMem - a ⟨lower, upper⟩
  simp only [separateFile, mem_cons, not_mem_nil, or_false] at phdrMem
  rcases phdrMem with rfl | rfl
  · have page_eq : pageOf a = 0x10000 := (pageOf_eq_iff (by decide)).2 ⟨lower, upper.trans_le (by decide)⟩
    refine ⟨⟨1, 5, 0x10000, 0, 0x100, 0x100⟩, ?_, .inl ⟨lower, upper⟩⟩
    rw [owner, page_eq]
    rfl
  · have page_eq : pageOf a = 0x11000 := (pageOf_eq_iff (by decide)).2 ⟨lower, upper.trans_le (by decide)⟩
    refine ⟨⟨1, 6, 0x11000, 0x1000, 0x100, 0x200⟩, ?_, .inl ⟨lower, upper⟩⟩
    rw [owner, page_eq]
    rfl

theorem seen_of_separate : ∃ root mem elf mem',
    newPageTable sampleMemory sampleFixed = .ok (root, mem) ∧
      loadElf root separateFile mem = .ok (elf, mem') ∧ separateFile.Seen mem'.bytes root := by
  have tested : passes (newPageTable sampleMemory sampleFixed) (fun made =>
      passes (loadElf made.1 separateFile made.2) fun _ => true) := by
    decide +kernel
  obtain ⟨⟨root, mem⟩, made, tested⟩ := passes_iff.1 tested
  obtain ⟨⟨elf, mem'⟩, done, -⟩ := passes_iff.1 tested
  have fresh := samplePool.fresh
  rw [nil_append] at fresh
  obtain ⟨tables, ready⟩ := newPageTable_ready fresh made
  exact ⟨root, mem, elf, mem', made, done,
    (seen_iff_separate separateFile_wellFormed ready done).2 separateFile_separate⟩

def sharedFile : ElfFile where
  phdrs := [⟨1, 5, 0x10000, 0, 0x100, 0x100⟩, ⟨1, 6, 0x10800, 0x800, 0x100, 0x100⟩]
  content := fun _ => 1

theorem sharedFile_wellFormed : sharedFile.WellFormed sampleFixed := by
  refine .of_low ?_ (by decide) (by decide)
  intro phdr phdrMem
  simp only [sharedFile, mem_cons, not_mem_nil, or_false] at phdrMem
  rcases phdrMem with rfl | rfl <;> constructor <;> decide

theorem not_seen_of_shared : ∃ root mem elf mem',
    newPageTable sampleMemory sampleFixed = .ok (root, mem) ∧ sharedFile.WellFormed sampleFixed ∧
      loadElf root sharedFile mem = .ok (elf, mem') ∧
      readUser mem'.bytes root 0x10800 = some 0 ∧ ¬ sharedFile.Seen mem'.bytes root := by
  have tested : passes (newPageTable sampleMemory sampleFixed) (fun made =>
      passes (loadElf made.1 sharedFile made.2) fun loaded =>
        readUser loaded.2.bytes made.1 0x10800 == some 0) := by
    decide +kernel
  obtain ⟨⟨root, mem⟩, made, tested⟩ := passes_iff.1 tested
  obtain ⟨⟨elf, mem'⟩, done, byte_eq⟩ := passes_iff.1 tested
  rw [beq_iff_eq] at byte_eq
  refine ⟨root, mem, elf, mem', made, sharedFile_wellFormed, done, byte_eq, fun seen => ?_⟩
  have expected := seen ⟨1, 6, 0x10800, 0x800, 0x100, 0x100⟩ (by simp [sharedFile]) rfl 0x10800
    ⟨by decide, by decide⟩
  rw [byte_eq] at expected
  exact absurd expected (by decide)

end ElfFile

end SysCore.Process
