import SysCore.Process.Copies
import Mathlib.Data.List.Nodup

/-!
# A process among others

A process with its address space, the page pool it shares with everything else,
and the pages that other parties hold.  The process calls `brk`, `mmap`,
`munmap` and `clone`; in between, others take pages, return them and write
them.  After a fork the run may go on with the parent or with the child.

`Core` is the invariant of such runs: the table maps what the calls have bound,
first bindings first, and the pages of the table, of the managers, of the others
and of the pool are all different.
-/

namespace SysCore.Process

open Memory Transition Paging Function List

def poolPages (board : Board) : List Nat :=
  (List.range board.pageCount).map fun i => board.kernelEnd + 4096 * i

structure PoolOf (board : Board) (fixed : FixedPages) (pages : List Nat) : Prop where
  nodup : pages.Nodup
  region : ∀ page ∈ pages, page ∈ poolPages board
  notFixed : ∀ page ∈ pages, page ∉ fixed.pages

namespace PoolOf

variable {board : Board} {fixed : FixedPages} {pages : List Nat}

theorem window (pool : PoolOf board fixed pages) {page : Nat} (pageMem : page ∈ pages) :
    page % 4096 = 0 ∧ InIdentityWindow page := by
  obtain ⟨i, i_lt, rfl⟩ := mem_map.1 (pool.region page pageMem)
  rw [mem_range] at i_lt
  cases board <;> simp only [Board.pageCount, Board.kernelEnd, InIdentityWindow] at i_lt ⊢ <;> omega

variable (pool : PoolOf board fixed pages)
include pool

theorem fresh : Fresh [] pages := by
  refine ⟨pool.nodup, fun page pageMem => ?_, nofun⟩
  obtain ⟨aligned, window⟩ := pool.window pageMem
  unfold InIdentityWindow at window
  omega

theorem length_le : pages.length ≤ 1791 := by
  have within := (subperm_of_subset pool.nodup pool.region).length_le
  rw [poolPages, length_map, length_range] at within
  cases board <;> exact within.trans (by decide)

theorem subperm {fewer : List Nat} (sub : fewer.Subperm pages) : PoolOf board fixed fewer where
  nodup := by
    obtain ⟨middle, perm, sublist⟩ := sub
    exact perm.nodup_iff.1 (sublist.nodup pool.nodup)
  region page pageMem := pool.region page (sub.subset pageMem)
  notFixed page pageMem := pool.notFixed page (sub.subset pageMem)

theorem perm {same : List Nat} (perm : pages.Perm same) : PoolOf board fixed same :=
  pool.subperm perm.symm.subperm

end PoolOf

def bootMemory (board : Board) (bytes : Bytes) : PhysMemory :=
  ⟨bytes, (PhysMemory.init board bytes).memoryPool.drop 2⟩

def bootFixed (board : Board) (fastSyscallPage : Nat)
    (image : fastSyscallPage % 4096 = 0 ∧ fastSyscallPage < board.kernelEnd) : FixedPages where
  fastSyscallPage := fastSyscallPage
  vdsoTextPage := board.kernelEnd + 4096 * (board.pageCount - 1)
  vdsoDataPage := board.kernelEnd + 4096 * (board.pageCount - 2)
  aligned := by
    simp only [mem_cons, not_mem_nil, or_false, forall_eq_or_imp, forall_eq]
    refine ⟨⟨image.1, image.2.trans ?_⟩, ?_⟩ <;> cases board <;> decide

theorem PoolOf.boot (board : Board) (bytes : Bytes) {fastSyscallPage : Nat}
    (image : fastSyscallPage % 4096 = 0 ∧ fastSyscallPage < board.kernelEnd) :
    PoolOf board (bootFixed board fastSyscallPage image) (bootMemory board bytes).memoryPool := by
  obtain ⟨rest, count_eq⟩ : ∃ rest, board.pageCount = rest + 2 := by
    cases board
    · exact ⟨1789, rfl⟩
    · exact ⟨1498, rfl⟩
  have pool_eq : (bootMemory board bytes).memoryPool =
      ((List.range rest).map fun i => board.kernelEnd + 4096 * i).reverse := by
    simp [bootMemory, PhysMemory.init, count_eq, range_succ]
  rw [pool_eq]
  refine ⟨?_, fun page pageMem => ?_, fun page pageMem isFixed => ?_⟩
  · rw [nodup_reverse]
    exact List.Nodup.map (fun i j same => by simpa using same) nodup_range
  · rw [mem_reverse] at pageMem
    obtain ⟨i, i_lt, rfl⟩ := mem_map.1 pageMem
    rw [mem_range] at i_lt
    exact mem_map.2 ⟨i, mem_range.2 (by omega), rfl⟩
  · rw [mem_reverse] at pageMem
    obtain ⟨i, i_lt, rfl⟩ := mem_map.1 pageMem
    rw [mem_range] at i_lt
    have image_lt := image.2
    simp only [FixedPages.pages, bootFixed, mem_cons, not_mem_nil, or_false] at isFixed
    omega

theorem PoolOf.created {board : Board} {fixed : FixedPages} {file : ElfFile}
    {stackImage : List UInt8} {space : AddressSpace} {mem mem' : PhysMemory} {others : List Nat}
    (pool : PoolOf board fixed (others ++ mem.memoryPool)) (fits : stackImage.length ≤ 4016)
    (returned : createSpace fixed file stackImage mem = .ok (space, mem')) :
    ∃ tables bound, Created fixed file space mem mem' tables bound := by
  have fresh : Fresh [] mem.memoryPool := pool.fresh.sublist (sublist_append_right _ _)
  exact (createSpace_holds fixed file fits fresh).result returned

def mmapVirtEnd : Nat := 0x200000000

def InMmapRegion (va : Nat) : Prop :=
  mmapVirtBegin ≤ va % 2 ^ 39 ∧ va % 2 ^ 39 < mmapVirtEnd

instance (va : Nat) : Decidable (InMmapRegion va) :=
  inferInstanceAs (Decidable (_ ∧ _))

theorem inMmapRegion_iff (va : Nat) :
    InMmapRegion va ↔ 0x100000 ≤ vpnOf va ∧ vpnOf va < 0x200000 := by
  unfold InMmapRegion mmapVirtBegin mmapVirtEnd vpnOf
  omega

def AddressSpace.pages (space : AddressSpace) : List Nat :=
  space.stack :: (space.elf.text.mAddrs ++ (space.elf.data.mAddrs ++
    (space.brk.memKeeper ++ space.mmap.memKeeper.map MmapUnit.sourceAddr)))

def AddressSpace.privatePages (space : AddressSpace) : List Nat :=
  space.stack :: (space.elf.data.mAddrs ++
    (space.brk.memKeeper ++ space.mmap.memKeeper.map MmapUnit.sourceAddr))

structure World where
  mem : PhysMemory
  space : AddressSpace
  others : List Nat

inductive Act where
  | brk (p : Nat)
  | mmap (length : Nat) (file : List UInt8)
  | munmap (addr length : Nat)
  /-- `clone` without a stack.  The run goes on with the child or the parent. -/
  | fork (follow : Bool)
  /-- Others take a page. -/
  | othersAlloc
  /-- Others return one of their pages. -/
  | othersFree (page : Nat)
  /-- Others write to one of their pages. -/
  | othersWrite (a : Nat) (byte : UInt8)

def World.exec (fixed : FixedPages) (w : World) : Act → Outcome (Option World)
  | .brk p => do
    let (_, brk, mem) ← w.space.brk.brk p w.mem
    return some { w with mem := mem, space := { w.space with brk := brk } }
  | .mmap length file => do
    let (ret, mmap, mem) ← w.space.mmap.mmap length file w.mem
    return ret.map fun _ => { w with mem := mem, space := { w.space with mmap := mmap } }
  | .munmap addr length => do
    let (mmap, mem) ← w.space.mmap.munmap addr length w.mem
    return some { w with mem := mem, space := { w.space with mmap := mmap } }
  | .fork follow => do
    let (child, mem) ← w.space.fork fixed w.mem
    return some (if follow then ⟨mem, child, w.space.privatePages ++ w.others⟩
      else ⟨mem, w.space, child.stack :: (child.elf.data.mAddrs ++ child.brk.memKeeper) ++ w.others⟩)
  | .othersAlloc => do
    let (page, mem) ← w.mem.allocPage
    return some { w with mem := mem, others := page :: w.others }
  | .othersFree page =>
    if page ∈ w.others then do
      let mem ← w.mem.deallocPage page
      return some { w with mem := mem, others := w.others.erase page }
    else return some w
  | .othersWrite a byte =>
    return some (if pageOf a ∈ w.others then
      { w with mem := { w.mem with bytes := update w.mem.bytes a byte } } else w)

structure Core (board : Board) (fixed : FixedPages) (w : World) (tables : List Nat)
    (bound : List (Bool × ElfPage)) (later : List (Nat × Nat)) : Prop where
  table : Space w.mem.bytes w.space.pageTable
    (bindAll (baseView fixed) (ElfSegment.binds (bound.map Prod.snd) ++ later)) tables
  ledger : PoolOf board fixed (tables ++ (w.space.pages ++ (w.others ++ w.mem.memoryPool)))
  elf_eq : w.space.elf = ⟨textOf bound, dataOf bound⟩
  mappable : ∀ bind ∈ ElfSegment.binds (bound.map Prod.snd), Mappable (baseView fixed) bind.1
  brkTable_eq : w.space.brk.pageTable = w.space.pageTable
  mmapTable_eq : w.space.mmap.pageTable = w.space.pageTable
  startAligned : w.space.mmap.mmapStart % 4096 = 0
  startRange : mmapVirtBegin ≤ w.space.mmap.mmapStart ∧ w.space.mmap.mmapStart ≤ mmapVirtEnd
  laterLow : ∀ bind ∈ later, bind.1 < mmapVirtEnd
  unitsHigh : ∀ unit ∈ w.space.mmap.memKeeper, mmapVirtBegin ≤ unit.mappedTo
  shape : w.space.brk.Shape (later.filter fun bind => bind.1 < 2 ^ 32)

section Steps

variable {board : Board} {fixed : FixedPages} {w : World} {tables : List Nat}
  {bound : List (Bool × ElfPage)} {later : List (Nat × Nat)}

namespace Core

section

variable (core : Core board fixed w tables bound later)
include core

theorem ready :
    Ready w.mem w.space.pageTable
      (bindAll (baseView fixed) (ElfSegment.binds (bound.map Prod.snd) ++ later)) tables := by
  have fresh := core.ledger.fresh
  obtain ⟨_, rest, apart⟩ := nodup_append.1 fresh.nodup
  refine ⟨core.table, ?_, fun page pageMem => ?_, fun page pageMem isTable => ?_⟩
  · exact (nodup_append.1 (nodup_append.1 rest).2.1).2.1
  · exact fresh.aligned page (by simp [pageMem])
  · exact apart page isTable page (by simp [pageMem]) rfl

theorem pool_length_le : w.mem.memoryPool.length + w.space.mmap.memKeeper.length ≤ 1791 := by
  have bounded := core.ledger.length_le
  simp only [AddressSpace.pages, length_append, length_cons, length_map] at bounded
  omega

theorem genuine {unit : MmapUnit} (unitMem : unit ∈ w.space.mmap.memKeeper) :
    InIdentityWindow unit.sourceAddr := by
  refine (@PoolOf.window _ _ _ core.ledger unit.sourceAddr ?_).2
  have sourceMem := mem_map_of_mem (f := MmapUnit.sourceAddr) unitMem
  simp [AddressSpace.pages, sourceMem]

omit core in
theorem allWritable (fixed : FixedPages) (binds : List (Nat × Nat)) :
    AllWritable (bindAll (baseView fixed) binds) :=
  (allWritable_baseView fixed).bindAll binds

theorem extend {mem' : PhysMemory} {binds : List (Nat × Nat)} {pages news : List Nat}
    {space' : AddressSpace} (extended : Extended w.mem mem' w.space.pageTable
      (bindAll (baseView fixed) (ElfSegment.binds (bound.map Prod.snd) ++ later)) tables binds pages
      news) (perm : space'.pages.Perm (pages ++ w.space.pages))
    (table_eq : space'.pageTable = w.space.pageTable) (elf_eq : space'.elf = w.space.elf)
    (brkTable_eq : space'.brk.pageTable = w.space.pageTable)
    (mmapTable_eq : space'.mmap.pageTable = w.space.pageTable)
    (startAligned : space'.mmap.mmapStart % 4096 = 0)
    (startRange : mmapVirtBegin ≤ space'.mmap.mmapStart ∧ space'.mmap.mmapStart ≤ mmapVirtEnd)
    (bindsLow : ∀ bind ∈ binds, bind.1 < mmapVirtEnd)
    (unitsHigh : ∀ unit ∈ space'.mmap.memKeeper, mmapVirtBegin ≤ unit.mappedTo)
    (shape : space'.brk.Shape ((later ++ binds).filter fun bind => bind.1 < 2 ^ 32)) :
    Core board fixed ⟨mem', space', w.others⟩ (news ++ tables) bound (later ++ binds) := by
  refine ⟨?_, ?_, elf_eq.trans core.elf_eq, core.mappable, brkTable_eq.trans table_eq.symm,
    mmapTable_eq.trans table_eq.symm, startAligned, startRange, ?_, unitsHigh, shape⟩
  · rw [← append_assoc, bindAll_append, table_eq]
    exact extended.ready.space
  · refine core.ledger.perm (perm_iff_count.2 fun page => ?_)
    have taken := extended.grown.pool.count_eq page
    have owned := perm.count_eq page
    simp only [count_append] at taken owned ⊢
    omega
  · intro bind bindMem
    exact (mem_append.1 bindMem).elim (core.laterLow bind) (bindsLow bind)

theorem brk_holds (p : Nat) :
    Holds (w.exec fixed (.brk p)) fun result =>
      ∃ brk mem' binds news,
        result = some { w with mem := mem', space := { w.space with brk := brk } } ∧
        Core board fixed { w with mem := mem', space := { w.space with brk := brk } }
          (news ++ tables) bound (later ++ binds) ∧
        ∀ bind ∈ binds, bind.1 < 2 ^ 32 := by
  rw [World.exec, holds_bind]
  refine (BrkControl.brk_holds w.space.brk (core.brkTable_eq ▸ core.ready) p).mono ?_
  rintro ⟨ret, brk, mem'⟩ ⟨binds, news, grows, shape⟩
  dsimp only at grows shape ⊢
  rw [holds_pure]
  refine ⟨brk, mem', binds, news, rfl, ?_, grows.low⟩
  have extended := grows.extended
  rw [core.brkTable_eq] at extended
  refine core.extend extended ?_ rfl rfl (grows.pageTable_eq.trans core.brkTable_eq)
    core.mmapTable_eq core.startAligned core.startRange ?_ core.unitsHigh ?_
  · refine perm_iff_count.2 fun page => ?_
    simp only [AddressSpace.pages, grows.memKeeper_eq, count_append, count_cons]
    omega
  · intro bind bindMem
    exact (grows.low bind bindMem).trans (by decide)
  · have kept : binds.filter (fun bind => bind.1 < 2 ^ 32) = binds :=
      filter_eq_self.2 (by simpa using grows.low)
    rw [filter_append, kept]
    exact shape _ core.shape

theorem mmap_holds {length : Nat} {file : List UInt8}
    (clean : MmapControl.needPage length ≤ w.mem.memoryPool.length →
      w.space.mmap.mmapStart + 4096 * MmapControl.needPage length ≤ mmapVirtEnd ∧
        (file = [] ∨ (length % 2 ^ 32 ≤ 4096 * MmapControl.needPage length ∧
          w.space.mmap.Fits length w.mem))) :
    Holds (w.exec fixed (.mmap length file)) fun result =>
      ∃ mmap mem' pages news,
        result = some { w with mem := mem', space := { w.space with mmap := mmap } } ∧
        pages.length = MmapControl.needPage length ∧
        mmap = { w.space.mmap with
          memKeeper := w.space.mmap.memKeeper ++ w.space.mmap.newUnits pages
          mmapStart := w.space.mmap.pageAddress (MmapControl.needPage length) } ∧
        Core board fixed { w with mem := mem', space := { w.space with mmap := mmap } }
          (news ++ tables) bound (later ++ unitBinds (w.space.mmap.newUnits pages)) := by
  rw [World.exec, holds_bind]
  have bounded := core.pool_length_le
  refine (w.space.mmap.mmap_holds (core.mmapTable_eq ▸ core.ready) (allWritable fixed _)
    core.startAligned (by omega) fun available => (clean available).2).mono ?_
  rintro ⟨ret, mmap, mem'⟩ ⟨ret_eq, pages, news, length_eq, available, mmap_eq, extended⟩
  dsimp only at ret_eq mmap_eq extended ⊢
  subst ret_eq mmap_eq
  rw [holds_pure]
  refine ⟨_, mem', pages, news, rfl, length_eq, rfl, ?_⟩
  obtain ⟨endLow, _⟩ := clean available
  obtain ⟨startLow, _⟩ := core.startRange
  have startAligned := core.startAligned
  have address_eq : ∀ i ≤ MmapControl.needPage length,
      w.space.mmap.pageAddress i = w.space.mmap.mmapStart + 4096 * i := by
    intro i i_le
    unfold mmapVirtEnd at endLow
    unfold MmapControl.pageAddress
    omega
  have bindRange : ∀ bind ∈ unitBinds (w.space.mmap.newUnits pages),
      mmapVirtBegin ≤ bind.1 ∧ bind.1 < mmapVirtEnd := by
    intro bind bindMem
    rw [MmapControl.unitBinds_newUnits] at bindMem
    obtain ⟨⟨page, i⟩, pageMem, rfl⟩ := mem_map.1 bindMem
    have i_lt := (List.getElem?_eq_some_iff.1 (mk_mem_zipIdx_iff_getElem?.1 pageMem)).1
    dsimp only
    rw [address_eq i (by omega)]
    omega
  rw [core.mmapTable_eq] at extended
  refine core.extend extended ?_ rfl rfl core.brkTable_eq core.mmapTable_eq ?_ ?_
    (fun bind bindMem => (bindRange bind bindMem).2) ?_ ?_
  · refine perm_iff_count.2 fun page => ?_
    simp only [AddressSpace.pages, map_append, MmapControl.sources_newUnits, count_append,
      count_cons]
    omega
  · dsimp only
    rw [address_eq _ le_rfl]
    omega
  · dsimp only
    rw [address_eq _ le_rfl]
    omega
  · intro unit unitMem
    rcases mem_append.1 unitMem with isOld | isNew
    · exact core.unitsHigh unit isOld
    · exact (bindRange (unit.mappedTo, unit.sourceAddr) (mem_map.2 ⟨unit, isNew, rfl⟩)).1
  · have gone : (unitBinds (w.space.mmap.newUnits pages)).filter (fun bind => bind.1 < 2 ^ 32) = [] := by
      refine filter_eq_nil_iff.2 fun bind bindMem => ?_
      have range := (bindRange bind bindMem).1
      unfold mmapVirtBegin at range
      simpa using range
    rw [filter_append, gone, append_nil]
    exact core.shape

theorem munmap_holds (addr length : Nat) :
    Holds (w.exec fixed (.munmap addr length)) fun result =>
      ∃ mmap mem' removed,
        result = some { w with mem := mem', space := { w.space with mmap := mmap } } ∧
        MmapControl.Released w.space.mmap.memKeeper mmap.memKeeper w.mem mem' addr
          (MmapControl.lastPage addr length) removed ∧
        mmap.mmapStart = (if mmap.memKeeper = [] then mmapVirtBegin else w.space.mmap.mmapStart) ∧
        Core board fixed { w with mem := mem', space := { w.space with mmap := mmap } }
          tables bound later := by
  rw [World.exec, holds_bind]
  have bounded := core.pool_length_le
  have unitsHigh : ∀ unit ∈ w.space.mmap.memKeeper, 0x1000 ≤ unit.mappedTo :=
    fun unit unitMem => le_trans (by decide) (core.unitsHigh unit unitMem)
  refine (w.space.mmap.munmap_holds addr length unitsHigh (by omega)).mono ?_
  rintro ⟨mmap, mem'⟩ ⟨removed, released, table_eq, start_eq⟩
  dsimp only at released table_eq start_eq ⊢
  rw [holds_pure]
  refine ⟨mmap, mem', removed, rfl, released, start_eq, ⟨?_, ?_, core.elf_eq, core.mappable, core.brkTable_eq,
    table_eq.trans core.mmapTable_eq, ?_, ?_, core.laterLow, ?_, core.shape⟩⟩
  · dsimp only
    rw [released.bytes_eq]
    exact core.table
  · refine core.ledger.perm (perm_iff_count.2 fun page => ?_)
    have units := (released.perm.map MmapUnit.sourceAddr).count_eq page
    simp only [AddressSpace.pages, released.pool_eq, map_append, count_append,
      count_cons, count_reverse] at units ⊢
    omega
  · dsimp only
    rw [start_eq]
    split
    · decide
    · exact core.startAligned
  · dsimp only
    rw [start_eq]
    split
    · decide
    · exact core.startRange
  · intro unit unitMem
    exact core.unitsHigh unit (released.perm.mem_iff.2 (mem_append_right _ unitMem))

theorem othersAlloc_holds :
    Holds (w.exec fixed .othersAlloc) fun result =>
      ∃ mem' others', result = some { w with mem := mem', others := others' } ∧
        Core board fixed { w with mem := mem', others := others' } tables bound later := by
  rw [World.exec, holds_bind, PhysMemory.allocPage]
  cases pool_eq : w.mem.memoryPool with
  | nil => exact holds_panic _
  | cons page rest =>
    rw [holds_ok, holds_pure]
    refine ⟨_, _, rfl, { core with table := core.table, ledger := ?_ }⟩
    refine core.ledger.perm (perm_iff_count.2 fun other => ?_)
    simp only [pool_eq, count_append, count_cons]
    omega

theorem othersFree_holds (page : Nat) :
    Holds (w.exec fixed (.othersFree page)) fun result =>
      ∃ mem' others', result = some { w with mem := mem', others := others' } ∧
        Core board fixed { w with mem := mem', others := others' } tables bound later := by
  rw [World.exec]
  split
  case isFalse => exact ⟨w.mem, w.others, rfl, core⟩
  case isTrue isOther =>
    have bounded := core.pool_length_le
    rw [holds_bind, PhysMemory.deallocPage]
    split
    · exact holds_panic _
    · rw [if_pos (by omega), holds_ok, holds_pure]
      refine ⟨_, _, rfl, { core with table := core.table, ledger := ?_ }⟩
      refine core.ledger.perm (perm_iff_count.2 fun other => ?_)
      have split_eq := (perm_cons_erase isOther).count_eq other
      simp only [count_append, count_cons] at split_eq ⊢
      omega

theorem othersWrite_holds (a : Nat) (byte : UInt8) :
    Holds (w.exec fixed (.othersWrite a byte)) fun result =>
      ∃ mem', result = some { w with mem := mem' } ∧
        Core board fixed { w with mem := mem' } tables bound later := by
  rw [World.exec, holds_pure]
  split
  case isFalse => exact ⟨w.mem, rfl, core⟩
  case isTrue isOther =>
    refine ⟨_, rfl, { core with table := ?_, ledger := core.ledger }⟩
    refine core.table.congr fun table tableMem address lower upper => update_of_ne ?_ _ _
    rintro rfl
    have page_eq := (pageOf_eq_iff (core.table.aligned tableMem).1).2 ⟨lower, upper⟩
    have apart := (nodup_append.1 core.ledger.nodup).2.2 table tableMem (pageOf address)
      (by simp [isOther])
    exact apart page_eq.symm

omit core in
theorem of_created {file : ElfFile} {space : AddressSpace} {mem mem' : PhysMemory}
    (created : Created fixed file space mem mem' tables bound) {others : List Nat}
    (pool : PoolOf board fixed (others ++ mem.memoryPool)) :
    Core board fixed ⟨mem', space, others⟩ tables bound [] := by
  have split := (perm_textOf_dataOf bound).map ElfPage.mAddr
  refine ⟨?_, ?_, created.elf_eq, created.mappable, ?_, ?_, ?_, ?_,
    fun _ bindMem => absurd bindMem not_mem_nil, ?_, ?_⟩
  · simpa using created.ready.space
  · refine pool.perm (perm_iff_count.2 fun page => ?_)
    have taken := created.grown.pool.count_eq page
    have parted := split.count_eq page
    simp only [AddressSpace.pages, created.elf_eq, created.brk_eq, created.mmap_eq, BrkControl.init,
      MmapControl.init, ElfSegment.mAddrs, map_nil, map_append, count_append,
      count_cons, count_nil] at taken parted ⊢
    omega
  · rw [created.brk_eq]
    rfl
  · rw [created.mmap_eq]
    rfl
  · rw [created.mmap_eq]
    show mmapVirtBegin % 4096 = 0
    decide
  · rw [created.mmap_eq]
    show mmapVirtBegin ≤ mmapVirtBegin ∧ mmapVirtBegin ≤ mmapVirtEnd
    decide
  · rw [created.mmap_eq]
    exact fun _ unitMem => absurd unitMem not_mem_nil
  · rw [created.brk_eq]
    exact BrkControl.shape_init _

theorem textAligned : ∀ page ∈ w.space.elf.text, page.mAddr % 4096 = 0 ∧ page.mAddr < 2 ^ 64 := by
  intro page pageMem
  refine core.ledger.fresh.aligned page.mAddr ?_
  have addressMem := mem_map_of_mem (f := ElfPage.mAddr) pageMem
  simp [AddressSpace.pages, ElfSegment.mAddrs, addressMem]

theorem fork_returns (counted : w.space.brk.pageCount ≤ w.space.brk.memKeeper.length) :
    Returns (Forkable fixed w.space ∧ w.space.forkPages ≤ w.mem.memoryPool.length)
      (w.space.fork fixed w.mem) fun result =>
        ∃ tables mmapPages, Forked fixed w.space result.1 w.mem result.2 tables mmapPages :=
  w.space.fork_returns fixed (core.ready.fresh.weaken) core.textAligned counted
    fun _ unitMem => core.genuine unitMem

theorem of_forked_parent {child : AddressSpace} {mem' : PhysMemory} {tables' mmapPages : List Nat}
    (forked : Forked fixed w.space child w.mem mem' tables' mmapPages) :
    Core board fixed ⟨mem', w.space, child.stack :: (child.elf.data.mAddrs ++ child.brk.memKeeper) ++
      w.others⟩ tables bound later := by
  refine { core with table := ?_, ledger := ?_ }
  · refine core.table.congr fun table tableMem a lower upper => ?_
    have held : Held w.mem [] table := ⟨(core.table.aligned tableMem).1,
      fun isFree => core.ready.fresh.outside table isFree tableMem, nofun⟩
    have kept := forked.grown.keeps core.ready.fresh.weaken nofun held (Nat.sub_lt_left_of_lt_add lower upper)
    rwa [Nat.add_sub_cancel' lower] at kept
  · refine core.ledger.subperm (subperm_ext_iff.2 fun page _ => ?_)
    have taken := forked.grown.pool.count_eq page
    simp only [count_append, count_cons] at taken ⊢
    omega

end

def forkBound (child : AddressSpace) : List (Bool × ElfPage) :=
  child.elf.text.map (fun page => (false, page)) ++ child.elf.data.map (fun page => (true, page))

theorem textOf_forkBound (child : AddressSpace) : textOf (forkBound child) = child.elf.text := by
  simp [textOf, forkBound, filter_append, filter_map, comp_def]

theorem dataOf_forkBound (child : AddressSpace) : dataOf (forkBound child) = child.elf.data := by
  simp [dataOf, forkBound, filter_append, filter_map, comp_def]

theorem of_forked_child (core : Core board fixed w tables bound later) {child : AddressSpace}
    {mem' : PhysMemory} {tables' mmapPages : List Nat}
    (forked : Forked fixed w.space child w.mem mem' tables' mmapPages)
    (unmapped : w.space.mmap.memKeeper = [])
    (counted : w.space.brk.pageCount ≤ w.space.brk.memKeeper.length) :
    Core board fixed ⟨mem', child, w.space.privatePages ++ w.others⟩ tables' (forkBound child)
      child.brk.binds := by
  have binds_eq : ElfSegment.binds ((forkBound child).map Prod.snd) =
      child.elf.text.binds ++ child.elf.data.binds := by
    simp [forkBound, ElfSegment.binds, List.map_map, comp_def]
  have mmap_eq := forked.mmap_eq
  rw [unmapped, zipWith_nil_left] at mmap_eq
  have ready := forked.ready
  have mappable := forked.mappable
  rw [unmapped, map_nil, zip_nil_left, append_nil, ← append_assoc,
    ← forked.text_eq, ← binds_eq] at ready mappable
  have few : child.brk.pageCount ≤ 1791 := by
    have bounded := core.ledger.length_le
    have count_eq := forked.pageCount_eq
    simp only [AddressSpace.pages, length_append, length_cons] at bounded
    split at count_eq <;> omega
  refine ⟨ready.space, ?_, ?_, ?_, forked.brkTable_eq, ?_, ?_, ?_, ?_, ?_, ?_⟩
  · refine core.ledger.subperm (subperm_ext_iff.2 fun page _ => ?_)
    have taken := forked.grown.pool.count_eq page
    simp only [AddressSpace.pages, AddressSpace.privatePages, mmap_eq, unmapped, forked.text_eq,
      map_nil, count_append, count_cons, count_nil] at taken ⊢
    omega
  · rw [textOf_forkBound, dataOf_forkBound]
  · exact fun bind bindMem => mappable bind (mem_append_left _ bindMem)
  · rw [mmap_eq]
  · rw [mmap_eq]
    exact core.startAligned
  · rw [mmap_eq]
    exact core.startRange
  · intro bind bindMem
    exact (child.brk.binds_low bind bindMem).trans (by decide)
  · rw [mmap_eq]
    exact fun _ unitMem => absurd unitMem not_mem_nil
  · have kept : child.brk.binds.filter (fun bind => bind.1 < 2 ^ 32) = child.brk.binds :=
      filter_eq_self.2 fun bind bindMem => decide_eq_true (child.brk.binds_low bind bindMem)
    rw [kept]
    refine .inl ⟨rfl, forked.brkLength_eq.symm, few.trans (by decide), fun notStarted => ?_⟩
    have count_eq := forked.pageCount_eq
    rw [forked.brkInit_eq] at notStarted
    rw [notStarted, if_neg Bool.false_ne_true, ← forked.brkLength_eq] at count_eq
    exact length_eq_zero_iff.1 count_eq

end Core

end Steps

def sampleFile : ElfFile where
  phdrs := [⟨1, 5, 0x10000, 0, 0x100, 0x100⟩, ⟨1, 6, 0x11000, 0x100, 0x100, 0x200⟩]
  content _ := 0

def sampleFixed : FixedPages :=
  bootFixed .k210 0x80021000 (by decide)

def sampleMemory : PhysMemory :=
  bootMemory .k210 fun _ => 0

theorem samplePool : PoolOf .k210 sampleFixed ([] ++ sampleMemory.memoryPool) := by
  rw [nil_append]
  exact PoolOf.boot _ _ _

end SysCore.Process
