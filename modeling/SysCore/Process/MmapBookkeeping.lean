import SysCore.Process.World

/-!
# File mappings and the page table

`MmapControl` keeps a unit for every page it has mapped.  As long as no unit is
removed, the units say exactly what the page table maps in the mmap region:
they occupy the addresses from `MMAP_VIRT_BEGIN` on without a gap, nothing else
is bound there, and the bindings of the units are the first for their addresses.

`munmap` removes a unit and leaves the leaf in the table, so the first removal
already separates the two.
-/

namespace SysCore.Process

open Memory Transition Paging List

structure Bookkept (w : World) : Prop where
  mapped : ∀ unit ∈ w.space.mmap.memKeeper,
    (translate w.mem.bytes w.space.pageTable unit.mappedTo).map Prod.fst = some unit.sourceAddr
  nothingElse : ∀ va, va % 4096 = 0 → mmapVirtBegin ≤ va → va < mmapVirtEnd →
    (∀ unit ∈ w.space.mmap.memKeeper, unit.mappedTo ≠ va) →
      translate w.mem.bytes w.space.pageTable va = none
  distinct : (w.space.mmap.memKeeper.map MmapUnit.mappedTo).Nodup

def KeepsUnits (w : World) : Act → Prop
  | .munmap addr length => ∀ unit ∈ w.space.mmap.memKeeper,
      ¬ (addr ≤ unit.mappedTo ∧ unit.mappedTo ≤ MmapControl.lastPage addr length)
  | .fork _ => False
  | _ => True

def KeepStep (fixed : FixedPages) (w : World) (act : Act) (w' : World) : Prop :=
  KeepsUnits w act ∧ w.exec fixed act = .ok (some w')

structure Recorded (w : World) (bound : List (Bool × ElfPage)) (later : List (Nat × Nat)) :
    Prop where
  elfOutside : ∀ bind ∈ ElfSegment.binds (bound.map Prod.snd), ¬ InMmapRegion bind.1
  units_eq : later.filter (fun bind => 2 ^ 32 ≤ bind.1) = unitBinds w.space.mmap.memKeeper
  addresses_eq : w.space.mmap.memKeeper.map MmapUnit.mappedTo =
    (List.range w.space.mmap.memKeeper.length).map fun i => mmapVirtBegin + 4096 * i
  start_eq : w.space.mmap.mmapStart = mmapVirtBegin + 4096 * w.space.mmap.memKeeper.length

section Region

variable {board : Board} {fixed : FixedPages} {w : World} {tables : List Nat}
  {bound : List (Bool × ElfPage)} {later : List (Nat × Nat)}

theorem Recorded.view_eq (recorded : Recorded w bound later) {vpn : Nat} (lower : 0x100000 ≤ vpn)
    (upper : vpn < 0x200000) :
    bindAll (baseView fixed) (ElfSegment.binds (bound.map Prod.snd) ++ later) vpn =
      ((unitBinds w.space.mmap.memKeeper).find? fun bind => vpnOf bind.1 = vpn).map
        fun bind => (userLeaf bind.2, 0) := by
  have noElf : (ElfSegment.binds (bound.map Prod.snd)).find? (fun bind => vpnOf bind.1 = vpn) =
      none := by
    refine List.find?_eq_none.2 fun bind bindMem same => recorded.elfOutside bind bindMem ?_
    rw [inMmapRegion_iff]
    have vpn_eq : vpnOf bind.1 = vpn := by simpa using same
    omega
  have onlyUnits : later.find? (fun bind => vpnOf bind.1 = vpn) =
      (unitBinds w.space.mmap.memKeeper).find? fun bind => vpnOf bind.1 = vpn := by
    rw [← recorded.units_eq, List.find?_filter]
    congr 1
    funext bind
    have high : vpnOf bind.1 = vpn → 2 ^ 32 ≤ bind.1 := by
      unfold vpnOf
      omega
    by_cases same : vpnOf bind.1 = vpn <;> simp [same]
    exact high same
  rw [bindAll_eq, baseView_free (by omega), Option.none_or, List.find?_append, noElf,
    Option.none_or, onlyUnits]

theorem Recorded.mappedTo_eq (recorded : Recorded w bound later) {i : Nat} {unit : MmapUnit}
    (unit_eq : w.space.mmap.memKeeper[i]? = some unit) :
    unit.mappedTo = mmapVirtBegin + 4096 * i := by
  obtain ⟨i_lt, rfl⟩ := List.getElem?_eq_some_iff.1 unit_eq
  have address := congrArg (·[i]?) recorded.addresses_eq
  simpa [i_lt] using address

theorem Recorded.bookkept (recorded : Recorded w bound later)
    (core : Core board fixed w tables bound later) : Bookkept w := by
  have bounded := core.pool_length_le
  -- positions of units are determined by their virtual pages
  have position : ∀ {i : Nat} {unit : MmapUnit}, w.space.mmap.memKeeper[i]? = some unit →
      i < 1791 ∧ vpnOf unit.mappedTo = 0x100000 + i := by
    intro i unit unit_eq
    have i_lt := (List.getElem?_eq_some_iff.1 unit_eq).1
    rw [recorded.mappedTo_eq unit_eq, mmapVirtBegin, vpnOf]
    omega
  refine ⟨?_, ?_, ?_⟩
  · intro unit unitMem
    obtain ⟨i, unit_eq⟩ := mem_iff_getElem?.1 unitMem
    obtain ⟨i_lt, vpn_eq⟩ := position unit_eq
    have found : (unitBinds w.space.mmap.memKeeper).find?
        (fun bind => vpnOf bind.1 = vpnOf unit.mappedTo) = some (unit.mappedTo, unit.sourceAddr) := by
      rw [unitBinds, List.find?_map]
      have first : w.space.mmap.memKeeper.find?
          ((fun bind : Nat × Nat => decide (vpnOf bind.1 = vpnOf unit.mappedTo)) ∘
            fun unit => (unit.mappedTo, unit.sourceAddr)) = some unit := by
        cases other_eq : w.space.mmap.memKeeper.find? _ with
        | none => exact absurd (List.find?_eq_none.1 other_eq unit unitMem) (by simp)
        | some other =>
          have same : vpnOf other.mappedTo = vpnOf unit.mappedTo := by
            simpa using List.find?_some other_eq
          obtain ⟨j, found⟩ := mem_iff_getElem?.1 (mem_of_find?_eq_some other_eq)
          have other_vpn := (position found).2
          obtain rfl : j = i := by omega
          rw [← found, unit_eq]
      rw [first]
      rfl
    obtain ⟨aligned, page_lt⟩ := core.ledger.fresh.aligned unit.sourceAddr (by
      have sourceMem := mem_map_of_mem (f := MmapUnit.sourceAddr) unitMem
      simp [AddressSpace.pages, sourceMem])
    have target := leafTarget_small unit.mappedTo .user aligned page_lt
    rw [core.table.translate_eq, recorded.view_eq (by omega) (by omega), found]
    have offset : unit.mappedTo % 4096 = 0 := by
      rw [recorded.mappedTo_eq unit_eq, mmapVirtBegin]
      omega
    rw [offset] at target
    simpa [userLeaf] using congrArg (Option.map Prod.fst) target
  · intro va va_aligned lower upper notUnit
    unfold mmapVirtBegin at lower
    unfold mmapVirtEnd at upper
    have vpn_eq : vpnOf va = va / 4096 := by
      unfold vpnOf
      omega
    have nothing : (unitBinds w.space.mmap.memKeeper).find? (fun bind => vpnOf bind.1 = vpnOf va) =
        none := by
      refine List.find?_eq_none.2 fun bind bindMem same => ?_
      obtain ⟨unit, unitMem, rfl⟩ := mem_map.1 bindMem
      obtain ⟨i, unit_eq⟩ := mem_iff_getElem?.1 unitMem
      refine notUnit unit unitMem ?_
      have same : vpnOf unit.mappedTo = vpnOf va := by simpa using same
      have address := recorded.mappedTo_eq unit_eq
      have vpn := (position unit_eq).2
      rw [mmapVirtBegin] at address
      omega
    rw [core.table.translate_eq, recorded.view_eq (by omega) (by omega), nothing]
    rfl
  · rw [recorded.addresses_eq]
    exact List.Nodup.map (fun i j same => by simpa using same) nodup_range

theorem Recorded.unmapped (recorded : Recorded w bound later) {i : Nat}
    (i_lt : w.space.mmap.memKeeper.length + i < 2 ^ 20) :
    bindAll (baseView fixed) (ElfSegment.binds (bound.map Prod.snd) ++ later)
      (vpnOf (w.space.mmap.pageAddress i)) = none := by
  have vpn_eq : vpnOf (w.space.mmap.pageAddress i) =
      0x100000 + (w.space.mmap.memKeeper.length + i) := by
    rw [MmapControl.pageAddress, recorded.start_eq, mmapVirtBegin, vpnOf]
    omega
  rw [recorded.view_eq (by omega) (by omega), Option.map_eq_none_iff, List.find?_eq_none]
  intro bind bindMem same
  obtain ⟨unit, unitMem, rfl⟩ := mem_map.1 bindMem
  obtain ⟨j, unit_eq⟩ := mem_iff_getElem?.1 unitMem
  have j_lt := (List.getElem?_eq_some_iff.1 unit_eq).1
  have same : vpnOf unit.mappedTo = vpnOf (w.space.mmap.pageAddress i) := by simpa using same
  rw [vpn_eq, recorded.mappedTo_eq unit_eq, mmapVirtBegin, vpnOf] at same
  omega

end Region

section Steps

variable {board : Board} {fixed : FixedPages} {w w' : World} {tables : List Nat}
  {bound : List (Bool × ElfPage)} {later : List (Nat × Nat)} {length : Nat} {file : List UInt8}
  {act : Act}

variable (recorded : Recorded w bound later)
include recorded

variable (core : Core board fixed w tables bound later)
include core

theorem Recorded.mmap_of_wrap (wraps : 4096 * MmapControl.needPage length < length % 2 ^ 32)
    (nonempty : file ≠ []) : w.exec fixed (.mmap length file) = .ok none := by
  have bounded := core.pool_length_le
  obtain ⟨none_needed, some_read⟩ : MmapControl.needPage length = 0 ∧ 0 < length % 2 ^ 32 := by
    unfold MmapControl.needPage at wraps ⊢
    omega
  obtain ⟨byte, rest, data_eq⟩ : ∃ byte rest, file.take (length % 2 ^ 32) = byte :: rest := by
    cases file with
    | nil => exact absurd rfl nonempty
    | cons byte rest =>
      obtain ⟨n, n_eq⟩ := Nat.exists_eq_succ_of_ne_zero (Nat.pos_iff_ne_zero.1 some_read)
      exact ⟨byte, rest.take n, by rw [n_eq, Nat.succ_eq_add_one, take_succ_cons]⟩
  have unmapped := @Recorded.unmapped fixed _ _ _ recorded 0 (by omega)
  have start_eq : w.space.mmap.pageAddress 0 = w.space.mmap.mmapStart := by
    have range := core.startRange.2
    unfold mmapVirtEnd at range
    unfold MmapControl.pageAddress
    omega
  rw [start_eq] at unmapped
  have faults := storeVirtual_of_unmapped core.table byte rest unmapped
  have data_eq : file.take (length % 4294967296) = byte :: rest := data_eq
  simp [World.exec, MmapControl.mmap, MmapControl.reserve, MmapControl.requests, none_needed,
    mapPages, data_eq, core.mmapTable_eq, faults, pure, Except.pure]

theorem Recorded.mmap_step (step : w.exec fixed (.mmap length file) = .ok (some w')) :
    ∃ tables' later', Core board fixed w' tables' bound later' ∧ Recorded w' bound later' := by
  have bounded := core.pool_length_le
  have started := recorded.start_eq
  have clean : MmapControl.needPage length ≤ w.mem.memoryPool.length →
      w.space.mmap.mmapStart + 4096 * MmapControl.needPage length ≤ mmapVirtEnd ∧
        (file = [] ∨ (length % 2 ^ 32 ≤ 4096 * MmapControl.needPage length ∧
          w.space.mmap.Fits length w.mem)) := by
    intro available
    rw [mmapVirtBegin] at started
    refine ⟨by rw [mmapVirtEnd]; omega, ?_⟩
    by_cases nonempty : file = []
    · exact .inl nonempty
    · refine .inr ⟨?_, fun i i_lt => .inl ?_⟩
      · by_contra wraps
        rw [recorded.mmap_of_wrap core (Nat.not_le.1 wraps) nonempty] at step
        cases step
      · rw [MmapControl.leafPage, core.mmapTable_eq, ← core.table.view_eq _ (vpnOf_lt _),
          recorded.unmapped (by omega)]
        rfl
  obtain ⟨mmap, mem', pages, news, world_eq, length_eq, mmap_eq, core'⟩ :=
    (core.mmap_holds clean).result step
  cases world_eq
  subst mmap_eq
  have counted : pages.length + w.space.mmap.memKeeper.length ≤ 1791 := by
    have total := core'.ledger.length_le
    simp only [AddressSpace.pages, length_append, length_cons, length_map,
      MmapControl.newUnits, length_zipIdx] at total
    omega
  have address_eq : ∀ i ≤ pages.length, w.space.mmap.pageAddress i =
      mmapVirtBegin + 4096 * (w.space.mmap.memKeeper.length + i) := by
    intro i i_le
    rw [MmapControl.pageAddress, started, mmapVirtBegin]
    omega
  have addresses : (w.space.mmap.newUnits pages).map MmapUnit.mappedTo =
      (List.range pages.length).map fun i =>
        mmapVirtBegin + 4096 * (w.space.mmap.memKeeper.length + i) := by
    apply ext_getElem
    · simp [MmapControl.newUnits]
    · intro i i_lt _
      rw [length_map, MmapControl.newUnits, length_map, length_zipIdx] at i_lt
      simpa [MmapControl.newUnits] using address_eq i i_lt.le
  refine ⟨_, _, core', recorded.elfOutside, ?_, ?_, ?_⟩
  · have kept : (unitBinds (w.space.mmap.newUnits pages)).filter (fun bind => 2 ^ 32 ≤ bind.1) =
        unitBinds (w.space.mmap.newUnits pages) := by
      refine filter_eq_self.2 fun bind bindMem => decide_eq_true ?_
      obtain ⟨unit, unitMem, rfl⟩ := mem_map.1 bindMem
      have addressMem := mem_map_of_mem (f := MmapUnit.mappedTo) unitMem
      rw [addresses] at addressMem
      obtain ⟨i, _, address⟩ := mem_map.1 addressMem
      rw [← address, mmapVirtBegin]
      omega
    rw [filter_append, kept, recorded.units_eq]
    exact map_append.symm
  · dsimp only
    rw [map_append, recorded.addresses_eq, addresses, length_append, MmapControl.newUnits,
      length_map, length_zipIdx, range_add, map_append, List.map_map]
    rfl
  · dsimp only
    rw [← length_eq, address_eq _ le_rfl, length_append, MmapControl.newUnits, length_map,
      length_zipIdx]

theorem Recorded.step (keeps : KeepsUnits w act) (step : w.exec fixed act = .ok (some w')) :
    ∃ tables' later', Core board fixed w' tables' bound later' ∧ Recorded w' bound later' := by
  cases act with
  | brk p =>
    obtain ⟨brk, mem', binds, news, world_eq, core', low⟩ := (core.brk_holds p).result step
    cases world_eq
    refine ⟨_, _, core', recorded.elfOutside, ?_, recorded.addresses_eq, recorded.start_eq⟩
    have gone : binds.filter (fun bind => 2 ^ 32 ≤ bind.1) = [] :=
      filter_eq_nil_iff.2 fun bind bindMem => by simpa using low bind bindMem
    rw [filter_append, gone, append_nil]
    exact recorded.units_eq
  | mmap length file => exact recorded.mmap_step core step
  | munmap addr length =>
    obtain ⟨mmap, mem', removed, world_eq, released, start_eq, core'⟩ :=
      (core.munmap_holds addr length).result step
    cases world_eq
    have nothing : removed = [] := by
      refine eq_nil_iff_forall_not_mem.2 fun unit unitMem => ?_
      exact keeps unit (released.perm.mem_iff.2 (mem_append_left _ unitMem))
        (released.covered unit unitMem)
    have length_eq := released.perm.length_eq
    rw [nothing, nil_append] at length_eq
    have same : mmap.memKeeper = w.space.mmap.memKeeper :=
      released.sublist.eq_of_length length_eq.symm
    refine ⟨_, _, core', recorded.elfOutside, ?_, ?_, ?_⟩
    · dsimp only
      rw [same, recorded.units_eq]
    · dsimp only
      rw [same, recorded.addresses_eq]
    · dsimp only
      rw [start_eq, same, recorded.start_eq]
      split
      case isTrue empty => rw [empty, length_nil, Nat.mul_zero, Nat.add_zero]
      case isFalse => rfl
  | fork follow => exact keeps.elim
  | othersAlloc =>
    obtain ⟨mem', others', world_eq, core'⟩ := core.othersAlloc_holds.result step
    cases world_eq
    exact ⟨_, _, core', recorded.elfOutside, recorded.units_eq, recorded.addresses_eq,
      recorded.start_eq⟩
  | othersFree page =>
    obtain ⟨mem', others', world_eq, core'⟩ := (core.othersFree_holds page).result step
    cases world_eq
    exact ⟨_, _, core', recorded.elfOutside, recorded.units_eq, recorded.addresses_eq,
      recorded.start_eq⟩
  | othersWrite a byte =>
    obtain ⟨mem', world_eq, core'⟩ := (core.othersWrite_holds a byte).result step
    cases world_eq
    exact ⟨_, _, core', recorded.elfOutside, recorded.units_eq, recorded.addresses_eq,
      recorded.start_eq⟩

omit core in
omit recorded in
theorem Bookkept.not_of_munmap (bookkept : Bookkept w) (core : Core board fixed w tables bound later)
    (recorded : Recorded w bound later) {addr : Nat} (covers : addr ≤ MmapControl.lastPage addr length)
    (step : w.exec fixed (.munmap addr length) = .ok (some w')) : ¬ Bookkept w' := by
  intro bookkept'
  obtain ⟨mmap, mem', removed, world_eq, released, _, _⟩ :=
    (core.munmap_holds addr length).result step
  cases world_eq
  obtain ⟨unit, rest, removed_eq⟩ := exists_cons_of_ne_nil (released.nonempty covers)
  subst removed_eq
  have unitMem : unit ∈ w.space.mmap.memKeeper := released.perm.mem_iff.2 (by simp)
  obtain ⟨i, unit_eq⟩ := mem_iff_getElem?.1 unitMem
  have i_lt := (List.getElem?_eq_some_iff.1 unit_eq).1
  have bounded := core.pool_length_le
  have address := recorded.mappedTo_eq unit_eq
  rw [mmapVirtBegin] at address
  have gone : ∀ other ∈ mmap.memKeeper, other.mappedTo ≠ unit.mappedTo := by
    have distinct := ((released.perm.map MmapUnit.mappedTo).nodup_iff).1 bookkept.distinct
    rw [cons_append, map_cons, nodup_cons] at distinct
    intro other otherMem same
    refine distinct.1 (same ▸ mem_map_of_mem ?_)
    exact mem_append_right _ otherMem
  have nothing := bookkept'.nothingElse unit.mappedTo (by omega) (by rw [mmapVirtBegin]; omega)
    (by rw [mmapVirtEnd]; omega) gone
  have mapped := bookkept.mapped unit unitMem
  dsimp only at nothing
  rw [released.bytes_eq] at nothing
  rw [nothing] at mapped
  cases mapped

theorem Recorded.step_iff (noFork : ∀ follow, act ≠ .fork follow)
    (step : w.exec fixed act = .ok (some w')) : Bookkept w' ↔ KeepsUnits w act := by
  constructor
  · intro bookkept'
    cases act with
    | munmap addr length =>
      intro unit _ within
      exact (recorded.bookkept core).not_of_munmap core recorded (within.1.trans within.2) step
        bookkept'
    | fork follow => exact (noFork follow rfl).elim
    | _ => trivial
  · intro keeps
    obtain ⟨tables', later', core', recorded'⟩ := recorded.step core keeps step
    exact recorded'.bookkept core'

end Steps

theorem aligned_of_mem_loads {file : ElfFile} {load : ElfLoad} (loadMem : load ∈ file.loads) :
    load.vAddr % 4096 = 0 := by
  obtain ⟨phdr, _, loadMem⟩ := mem_flatMap.1 loadMem
  obtain ⟨p, pageMem, rfl⟩ := mem_map.1 loadMem
  obtain ⟨i, _, rfl⟩ := mem_map.1 pageMem
  dsimp only
  omega

section Creation

variable {board : Board} {fixed : FixedPages} {file : ElfFile} {space : AddressSpace}
  {mem mem' : PhysMemory} {tables others : List Nat} {bound : List (Bool × ElfPage)}

theorem Created.recorded (created : Created fixed file space mem mem' tables bound)
    (outside : ∀ load ∈ file.loads, ¬ InMmapRegion load.vAddr) :
    Recorded ⟨mem', space, others⟩ bound [] := by
  refine ⟨?_, ?_, ?_, ?_⟩
  · intro bind bindMem
    obtain ⟨page, pageMem, rfl⟩ := mem_map.1 bindMem
    obtain ⟨marked, markedMem, rfl⟩ := mem_map.1 pageMem
    have flagMem : (marked.1, marked.2.vAddr) ∈ file.loads.map fun load => (load.writable, load.vAddr) := by
      rw [← created.flags_eq]
      exact mem_map.2 ⟨marked, markedMem, rfl⟩
    obtain ⟨load, loadMem, same⟩ := mem_map.1 flagMem
    rw [Prod.mk.injEq] at same
    exact same.2 ▸ outside load loadMem
  all_goals
    dsimp only
    rw [created.mmap_eq]
    rfl

theorem Created.not_bookkept (created : Created fixed file space mem mem' tables bound)
    (pool : PoolOf board fixed (others ++ mem.memoryPool))
    (core : Core board fixed ⟨mem', space, others⟩ tables bound []) {load : ElfLoad}
    (loadMem : load ∈ file.loads) (inside : InMmapRegion load.vAddr) :
    ¬ Bookkept ⟨mem', space, others⟩ := by
  intro bookkept
  have load_aligned := aligned_of_mem_loads loadMem
  have nothing := bookkept.nothingElse (load.vAddr % 2 ^ 39) (by omega) inside.1 inside.2 (by
    dsimp only
    rw [created.mmap_eq]
    exact nofun)
  have vpn_eq : vpnOf (load.vAddr % 2 ^ 39) = vpnOf load.vAddr := by
    unfold vpnOf
    omega
  obtain ⟨lower, upper⟩ := (inMmapRegion_iff load.vAddr).1 inside
  -- the page bound for the load
  have flagMem : (load.writable, load.vAddr) ∈ bound.map fun page => (page.1, page.2.vAddr) := by
    rw [created.flags_eq]
    exact mem_map.2 ⟨load, loadMem, rfl⟩
  obtain ⟨marked, markedMem, marked_eq⟩ := mem_map.1 flagMem
  rw [Prod.mk.injEq] at marked_eq
  have bindMem : (marked.2.vAddr, marked.2.mAddr) ∈ ElfSegment.binds (bound.map Prod.snd) :=
    mem_map.2 ⟨marked.2, mem_map_of_mem markedMem, rfl⟩
  rw [core.table.translate_eq, vpn_eq, append_nil, bindAll_eq, baseView_free (by omega),
    Option.none_or] at nothing
  cases found : (ElfSegment.binds (bound.map Prod.snd)).find?
      (fun bind => vpnOf bind.1 = vpnOf load.vAddr) with
  | none =>
    have different := List.find?_eq_none.1 found _ bindMem
    rw [marked_eq.2] at different
    simp at different
  | some bind =>
    have takenMem : bind.2 ∈ mem.memoryPool := by
      refine created.grown.pool.mem_iff.2 ?_
      obtain ⟨page, pageMem, rfl⟩ := mem_map.1 (mem_of_find?_eq_some found)
      have addressMem := mem_map_of_mem (f := ElfPage.mAddr) pageMem
      simp only [ElfSegment.mAddrs, mem_append]
      exact .inl (.inl addressMem)
    obtain ⟨aligned, page_lt⟩ := pool.fresh.aligned bind.2 (mem_append_right _ takenMem)
    have target := leafTarget_small (load.vAddr % 2 ^ 39) .user aligned page_lt
    rw [found] at nothing
    simp only [Option.map_some, Option.bind_some, userLeaf] at nothing
    rw [target] at nothing
    cases nothing

end Creation

section Runs

variable {board : Board} {fixed : FixedPages} {file : ElfFile} {stackImage : List UInt8}
  {space : AddressSpace} {mem mem' : PhysMemory} {others : List Nat} {acts : List Act} {w : World}

def ElfFile.OutsideMmap (file : ElfFile) : Prop :=
  ∀ load ∈ file.loads, ¬ InMmapRegion load.vAddr

def Accounted (board : Board) (fixed : FixedPages) (bound : List (Bool × ElfPage)) (w : World) :
    Prop :=
  ∃ tables later, Core board fixed w tables bound later ∧ Recorded w bound later

theorem accounted_of_run {bound : List (Bool × ElfPage)} {start : World}
    (run : Run (KeepStep fixed) start acts w) (initially : Accounted board fixed bound start) :
    Accounted board fixed bound w := by
  refine run.invariant ?_ initially
  rintro source act target ⟨tables, later, core, recorded⟩ ⟨keeps, step⟩
  exact recorded.step core keeps step

/-- In every run from a new process that removes no unit, the units and the page
table agree, and they still agree after one more call exactly if that call
removes none either. -/
theorem bookkept_iff_of_run (pool : PoolOf board fixed (others ++ mem.memoryPool))
    (fits : stackImage.length ≤ 4016)
    (created : createSpace fixed file stackImage mem = .ok (space, mem'))
    (run : Run (KeepStep fixed) ⟨mem', space, others⟩ acts w) :
    (Bookkept ⟨mem', space, others⟩ ↔ file.OutsideMmap) ∧
      (file.OutsideMmap → Bookkept w ∧ ∀ act w', (∀ follow, act ≠ .fork follow) →
        w.exec fixed act = .ok (some w') → (Bookkept w' ↔ KeepsUnits w act)) := by
  obtain ⟨tables, bound, made⟩ := pool.created fits created
  have core := Core.of_created made pool
  refine ⟨⟨fun bookkept load loadMem inside => ?_, fun outside => ?_⟩, fun outside => ?_⟩
  · exact made.not_bookkept pool core loadMem inside bookkept
  · exact (made.recorded outside).bookkept core
  · obtain ⟨tables, later, core, recorded⟩ :=
      accounted_of_run run ⟨tables, [], core, made.recorded outside⟩
    exact ⟨recorded.bookkept core, fun act w' noFork step => recorded.step_iff core noFork step⟩

end Runs

theorem sampleFile_outsideMmap : sampleFile.OutsideMmap := by
  unfold ElfFile.OutsideMmap
  decide +kernel

theorem bookkept_of_sample : ∃ space mem' w,
    createSpace sampleFixed sampleFile [] sampleMemory = .ok (space, mem') ∧
      Run (KeepStep sampleFixed) ⟨mem', space, []⟩ [.mmap 1 []] w ∧ Bookkept w := by
  have tested : passes (createSpace sampleFixed sampleFile [] sampleMemory) (fun result =>
      passes (World.exec sampleFixed ⟨result.2, result.1, []⟩ (.mmap 1 [])) Option.isSome) := by
    decide +kernel
  obtain ⟨⟨space, mem'⟩, created, tested⟩ := passes_iff.1 tested
  obtain ⟨found, step, isSome⟩ := passes_iff.1 tested
  obtain ⟨w, rfl⟩ := Option.isSome_iff_exists.1 isSome
  have run : Run (KeepStep sampleFixed) ⟨mem', space, []⟩ [.mmap 1 []] w :=
    .snoc .nil ⟨trivial, step⟩
  have bookkept := (bookkept_iff_of_run samplePool (by decide) created run).2 sampleFile_outsideMmap
  exact ⟨space, mem', w, created, run, bookkept.1⟩

theorem not_bookkept_of_munmap : ∃ space mem' w₁ w₂,
    createSpace sampleFixed sampleFile [] sampleMemory = .ok (space, mem') ∧
      World.exec sampleFixed ⟨mem', space, []⟩ (.mmap 4096 []) = .ok (some w₁) ∧
      w₁.exec sampleFixed (.munmap mmapVirtBegin 4096) = .ok (some w₂) ∧ ¬ Bookkept w₂ := by
  have tested : passes (createSpace sampleFixed sampleFile [] sampleMemory) (fun result =>
      passes (World.exec sampleFixed ⟨result.2, result.1, []⟩ (.mmap 4096 [])) fun found =>
        found.any fun w₁ => passes (w₁.exec sampleFixed (.munmap mmapVirtBegin 4096)) fun found =>
          found.any fun w₂ => w₂.space.mmap.memKeeper.isEmpty &&
            (translate w₂.mem.bytes w₂.space.pageTable mmapVirtBegin).isSome) := by
    decide +kernel
  obtain ⟨⟨space, mem'⟩, created, tested⟩ := passes_iff.1 tested
  obtain ⟨found₁, mapped, tested⟩ := passes_iff.1 tested
  obtain ⟨w₁, rfl, tested⟩ := (Option.any_eq_true _ _).1 tested
  obtain ⟨found₂, unmapped, tested⟩ := passes_iff.1 tested
  obtain ⟨w₂, rfl, tested⟩ := (Option.any_eq_true _ _).1 tested
  obtain ⟨empty, translates⟩ := Bool.and_eq_true_iff.1 tested
  refine ⟨space, mem', w₁, w₂, created, mapped, unmapped, fun bookkept => ?_⟩
  have nothing := bookkept.nothingElse mmapVirtBegin (by decide) le_rfl (by decide) (by
    rw [List.isEmpty_iff.1 empty]
    exact nofun)
  rw [nothing] at translates
  cases translates

end SysCore.Process
