import SysCore.Paging.Mapping

/-!
# The memory managers of a process

A process owns its pages through three managers: the pages of its ELF file,
split into a text and a data segment, the pages of its heap (`BrkControl`), and
the pages of its file mappings (`MmapControl`).  `load_elf` fills the segments,
`brk`, `mmap` and `munmap` work on the other two, and a fork copies all of them
into a new page table.

The kernel reaches physical pages through the two large mappings that every
page table holds, so reads and writes of pages are reads and writes of physical
memory here; other addresses are translated by the table of the caller.
-/

namespace SysCore.Process

open Memory Transition Paging

structure ElfPage where
  vAddr : Nat
  mAddr : Nat
  deriving DecidableEq

abbrev ElfSegment := List ElfPage

def copyOf (source : Nat) (bytes : Bytes) : Fill :=
  .image fun k => if k < 4096 then bytes (source + k) else 0

namespace ElfSegment

def add (segment : ElfSegment) (pageTable targetVAddr : Nat) (source : Nat → UInt8)
    (mem : PhysMemory) : Outcome (ElfSegment × PhysMemory) := do
  let (page, mem) ← mapPage mem pageTable ⟨targetVAddr, fun _ => .image source⟩
  return (segment ++ [⟨targetVAddr, page⟩], mem)

def copy (other : ElfSegment) (pageTable : Nat) (mem : PhysMemory) :
    Outcome (ElfSegment × PhysMemory) := do
  let (pages, mem) ← mapPages pageTable (other.map fun page => ⟨page.vAddr, copyOf page.mAddr⟩) mem
  return (List.zipWith (fun page mAddr => ⟨page.vAddr, mAddr⟩) other pages, mem)

def binds (segment : ElfSegment) : List (Nat × Nat) :=
  segment.map fun page => (page.vAddr, page.mAddr)

def registerPageTable (segment : ElfSegment) (pageTable : Nat) (mem : PhysMemory) :
    Outcome PhysMemory :=
  registerPages pageTable segment.binds mem

def destroy : ElfSegment → PhysMemory → Outcome PhysMemory
  | [], mem => return mem
  | page :: rest, mem => do
    let mem ← mem.deallocPage page.mAddr
    destroy rest mem

end ElfSegment

structure ElfImage where
  text : ElfSegment
  data : ElfSegment

structure Phdr where
  pType : Nat
  pFlags : Nat
  pVaddr : Nat
  pOffset : Nat
  pFilesz : Nat
  pMemsz : Nat

structure ElfFile where
  phdrs : List Phdr
  content : Nat → UInt8

structure ElfLoad where
  writable : Bool
  vAddr : Nat
  image : Nat → UInt8

namespace Phdr

def loaded (phdr : Phdr) : Bool :=
  phdr.pType == 1 && phdr.pFilesz != 0

def writable (phdr : Phdr) : Bool :=
  phdr.pFlags / 2 % 2 == 1

def pages (phdr : Phdr) : List Nat :=
  let targetStart := phdr.pVaddr / 4096 * 4096
  let targetEnd := ((phdr.pVaddr + phdr.pMemsz) % 2 ^ 64 + 4095) % 2 ^ 64 / 4096 * 4096
  (List.range ((targetEnd - targetStart) / 4096)).map fun i => targetStart + 4096 * i

def image (phdr : Phdr) (content : Nat → UInt8) (p k : Nat) : UInt8 :=
  let source := (p + 2 ^ 64 - phdr.pVaddr + phdr.pOffset) % 2 ^ 64
  let copyStart := max source phdr.pOffset
  let copyEnd := min ((source + 4096) % 2 ^ 64) ((phdr.pOffset + phdr.pFilesz) % 2 ^ 64)
  if copyStart ≤ source + k ∧ source + k < copyEnd then content (source + k) else 0

end Phdr

def ElfFile.loads (file : ElfFile) : List ElfLoad :=
  (file.phdrs.filter Phdr.loaded).flatMap fun phdr =>
    phdr.pages.map fun p => ⟨phdr.writable, p, phdr.image file.content p⟩

def ElfImage.bindPage (elf : ElfImage) (pageTable : Nat) (load : ElfLoad) (mem : PhysMemory) :
    Outcome (ElfImage × PhysMemory) :=
  if load.writable then do
    let (data, mem) ← elf.data.add pageTable load.vAddr load.image mem
    return (⟨elf.text, data⟩, mem)
  else do
    let (text, mem) ← elf.text.add pageTable load.vAddr load.image mem
    return (⟨text, elf.data⟩, mem)

def ElfImage.bindPages (pageTable : Nat) :
    List ElfLoad → ElfImage → PhysMemory → Outcome (ElfImage × PhysMemory)
  | [], elf, mem => return (elf, mem)
  | load :: rest, elf, mem => do
    let (elf, mem) ← elf.bindPage pageTable load mem
    bindPages pageTable rest elf mem

def loadElf (pageTable : Nat) (file : ElfFile) (mem : PhysMemory) :
    Outcome (ElfImage × PhysMemory) :=
  ElfImage.bindPages pageTable file.loads ⟨[], []⟩ mem

def brkVirtBegin : Nat := 0xc0000000

def brkAddress (i : Int) : Nat :=
  ((brkVirtBegin + 4096 * i) % 2 ^ 32).toNat

def toInt (n : Nat) : Int :=
  (n + 2 ^ 31) % 2 ^ 32 - 2 ^ 31

def toSize (i : Int) : Nat :=
  (i % 2 ^ 64).toNat

structure BrkControl where
  memKeeper : List Nat
  pageTable : Nat
  brkInit : Bool
  pageCount : Nat

namespace BrkControl

def init (pageTable : Nat) : BrkControl :=
  ⟨[], pageTable, false, 0⟩

def grow (control : BrkControl) (first : Int) (count : Nat) (mem : PhysMemory) :
    Outcome (BrkControl × PhysMemory) := do
  let (pages, mem) ← mapPages control.pageTable
    ((List.range count).map fun (j : Nat) => ⟨brkAddress (first + j), fun _ => .image fun _ => 0⟩) mem
  return ({ control with memKeeper := control.memKeeper ++ pages }, mem)

def start (control : BrkControl) (mem : PhysMemory) : Outcome (BrkControl × PhysMemory) :=
  if control.brkInit then
    .ok (control, mem)
  else
    { control with brkInit := true, pageCount := 1 }.grow 0 1 mem

def needPage (p : Nat) : Int :=
  let needSpace := (p + 2 ^ 64 - brkVirtBegin) % 2 ^ 64
  toInt ((needSpace + 4095) % 2 ^ 64 / 4096)

def brk (control : BrkControl) (p : Nat) (mem : PhysMemory) :
    Outcome (Nat × BrkControl × PhysMemory) := do
  let (control, mem) ← control.start mem
  if p = 0 then
    return (brkVirtBegin, control, mem)
  else if needPage p > 2000 then
    .error .panic
  else if toSize (needPage p) > control.pageCount then
    let first := toInt control.pageCount
    let (control, mem) ← control.grow first (needPage p - first).toNat mem
    return (p, { control with pageCount := toSize (needPage p) }, mem)
  else
    return (p, control, mem)

def copies (other : BrkControl) : List PageRequest :=
  (other.memKeeper.take other.pageCount).zipIdx.map fun (page, i) => ⟨brkAddress i, copyOf page⟩

def copy (other : BrkControl) (pageTable : Nat) (mem : PhysMemory) :
    Outcome (BrkControl × PhysMemory) :=
  if other.brkInit then do
    let (pages, mem) ← mapPages pageTable other.copies mem
    if other.memKeeper.length < other.pageCount then
      .error .stray
    else
      return (⟨pages, pageTable, true, other.pageCount⟩, mem)
  else
    .ok (init pageTable, mem)

end BrkControl

def mmapVirtBegin : Nat := 0x100000000

structure MmapUnit where
  mappedTo : Nat
  sourceAddr : Nat
  deriving DecidableEq

structure MmapControl where
  memKeeper : List MmapUnit
  pageTable : Nat
  mmapStart : Nat

def InIdentityWindow (address : Nat) : Prop :=
  0x40000000 ≤ address ∧ address < 0xc0000000

instance (address : Nat) : Decidable (InIdentityWindow address) :=
  inferInstanceAs (Decidable (_ ∧ _))

def copyFrom (root source : Nat) (bytes : Bytes) : Fill :=
  if InIdentityWindow source then
    copyOf source bytes
  else if (List.range 4096).all fun k => (translate bytes root (source + k)).isSome then
    .image fun k => ((translate bytes root (source + k)).map fun target => bytes target.1).getD 0
  else
    .unreadable

def storeVirtual (root : Nat) : List UInt8 → Nat → Bytes → Bytes × Bool
  | [], _, bytes => (bytes, true)
  | byte :: rest, va, bytes =>
    match translate bytes root va with
    | some (pa, attributes) =>
      if attributes / 4 % 2 = 1 then
        storeVirtual root rest (va + 1) (Function.update bytes pa byte)
      else (bytes, false)
    | none => (bytes, false)

namespace MmapControl

def init (pageTable : Nat) : MmapControl :=
  ⟨[], pageTable, mmapVirtBegin⟩

def needPage (length : Nat) : Nat :=
  (length + 4095) % 2 ^ 64 / 4096

def pageAddress (control : MmapControl) (i : Nat) : Nat :=
  (control.mmapStart + 4096 * i) % 2 ^ 64

def newUnits (control : MmapControl) (pages : List Nat) : List MmapUnit :=
  pages.zipIdx.map fun (page, i) => ⟨control.pageAddress i, page⟩

def requests (control : MmapControl) (length : Nat) : List PageRequest :=
  (List.range (needPage length)).map fun i => ⟨control.pageAddress i, fun _ => .keep⟩

def reserve (control : MmapControl) (length : Nat) (mem : PhysMemory) :
    Outcome (MmapControl × PhysMemory) := do
  let (pages, mem) ← mapPages control.pageTable (control.requests length) mem
  return ({ control with
    memKeeper := control.memKeeper ++ control.newUnits pages
    mmapStart := control.pageAddress (needPage length) }, mem)

def mmap (control : MmapControl) (length : Nat) (file : List UInt8) (mem : PhysMemory) :
    Outcome (Option Nat × MmapControl × PhysMemory) := do
  let ret := control.mmapStart
  let (control, mem) ← control.reserve length mem
  let (bytes, stored) := storeVirtual control.pageTable (file.take (length % 2 ^ 32)) ret mem.bytes
  return (if stored then some ret else none, control, { mem with bytes := bytes })

def lastUnit (units : List MmapUnit) (p : Nat) : Option MmapUnit :=
  units.reverse.find? fun unit => unit.mappedTo = p

def eraseUnit (units : List MmapUnit) (p : Nat) : List MmapUnit :=
  (units.reverse.eraseP fun unit => unit.mappedTo = p).reverse

def release (addr : Nat) : (fuel p : Nat) → List MmapUnit → PhysMemory →
    Outcome (List MmapUnit × PhysMemory)
  | 0, _, _, _ => .error .hang
  | fuel + 1, p, units, mem =>
    if p < addr then
      .ok (units, mem)
    else
      match lastUnit units p with
      | none => .error .panic
      | some unit => do
        let mem ← mem.deallocPage unit.sourceAddr
        release addr fuel ((p + 2 ^ 64 - 4096) % 2 ^ 64) (eraseUnit units p) mem

def lastPage (addr length : Nat) : Nat :=
  (addr + length + 2 ^ 64 - 1) % 2 ^ 64 / 4096 * 4096

def munmap (control : MmapControl) (addr length : Nat) (mem : PhysMemory) :
    Outcome (MmapControl × PhysMemory) :=
  if addr % 0x1000 ≠ 0 then
    .error .panic
  else do
    let (units, mem) ← release addr (control.memKeeper.length + 1) (lastPage addr length)
      control.memKeeper mem
    return ({ control with
      memKeeper := units
      mmapStart := if units = [] then mmapVirtBegin else control.mmapStart }, mem)

def copy (other : MmapControl) (pageTable : Nat) (mem : PhysMemory) :
    Outcome (MmapControl × PhysMemory) := do
  let (pages, mem) ← mapPages pageTable
    (other.memKeeper.map fun unit => ⟨unit.mappedTo, copyFrom other.pageTable unit.sourceAddr⟩) mem
  let units := List.zipWith (fun unit page => ⟨page, unit.mappedTo⟩) other.memKeeper pages
  return (⟨units, pageTable, other.mmapStart⟩, mem)

end MmapControl

structure AddressSpace where
  stack : Nat
  pageTable : Nat
  elf : ElfImage
  brk : BrkControl
  mmap : MmapControl

def storeBytes (bytes : Bytes) (address : Nat) (image : List UInt8) : Bytes :=
  fun a => if address ≤ a then (image[a - address]?).getD (bytes a) else bytes a

def createSpace (fixed : FixedPages) (file : ElfFile) (stackImage : List UInt8)
    (mem : PhysMemory) : Outcome (AddressSpace × PhysMemory) := do
  let (pageTable, mem) ← newPageTable mem fixed
  let (elf, mem) ← loadElf pageTable file mem
  let (stack, mem) ← mem.getClearPage
  let sp := stack + 4096 - 80 - stackImage.length
  let mem := { mem with bytes := storeBytes mem.bytes sp stackImage }
  return (⟨stack, pageTable, elf, .init pageTable, .init pageTable⟩, mem)

def AddressSpace.fork (parent : AddressSpace) (fixed : FixedPages) (mem : PhysMemory) :
    Outcome (AddressSpace × PhysMemory) := do
  let (stack, mem) ← mem.allocPage
  let mem := mem.fill stack fun k => mem.bytes (parent.stack + k)
  let (pageTable, mem) ← newPageTable mem fixed
  let mem ← parent.elf.text.registerPageTable pageTable mem
  let (data, mem) ← parent.elf.data.copy pageTable mem
  let (brk, mem) ← parent.brk.copy pageTable mem
  let (mmap, mem) ← parent.mmap.copy pageTable mem
  return (⟨stack, pageTable, ⟨parent.elf.text, data⟩, brk, mmap⟩, mem)

end SysCore.Process
