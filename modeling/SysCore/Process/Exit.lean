import SysCore.Process.World

/-!
# What an exit returns to the page pool

`exit_process` calls `PCB::kill`, which returns the stack page, and deletes the
block.  With the last reference to it, `~Elf_Control` returns the pages of the
two segments.  Everything else goes elsewhere: `~MemKeeper` and the pointer to
the page table hand their pages to `operator delete`, which belongs to the
kernel heap, and the units of file mappings and the tables below the root are
forgotten.

So the page of the root table is never returned.
-/

namespace SysCore.Process

open Memory Transition Paging List

def ElfImage.destroy (elf : ElfImage) (lastUser : Bool) (mem : PhysMemory) : Outcome PhysMemory := do
  let mem ← elf.data.destroy mem
  if lastUser then elf.text.destroy mem else return mem

inductive MemoryCall where
  | brk (p : Nat)
  | mmap (length : Nat) (file : List UInt8)
  | munmap (addr length : Nat)

def AddressSpace.call (space : AddressSpace) (mem : PhysMemory) :
    MemoryCall → Outcome (Bool × AddressSpace × PhysMemory)
  | .brk p => do
    let (_, brk, mem) ← space.brk.brk p mem
    return (true, { space with brk := brk }, mem)
  | .mmap length file => do
    let (ret, mmap, mem) ← space.mmap.mmap length file mem
    return (ret.isSome, { space with mmap := mmap }, mem)
  | .munmap addr length => do
    let (mmap, mem) ← space.mmap.munmap addr length mem
    return (true, { space with mmap := mmap }, mem)

def AddressSpace.exit (space : AddressSpace) (mem : PhysMemory) : Outcome PhysMemory := do
  let mem ← mem.deallocPage space.stack
  space.elf.destroy true mem

def CallStep (state : AddressSpace × PhysMemory) (call : MemoryCall)
    (state' : AddressSpace × PhysMemory) : Prop :=
  ∃ returned, state.1.call state.2 call = .ok (returned, state')

def Returned (before after : PhysMemory) : Prop :=
  ∀ page, page ∈ after.memoryPool ↔ page ∈ before.memoryPool

/-! ## Where pages come from -/

def Drawn (mem mem' : PhysMemory) : Prop :=
  mem'.memoryPool <:+ mem.memoryPool

namespace Drawn

variable {mem mem₁ mem₂ : PhysMemory}

theorem refl (mem : PhysMemory) : Drawn mem mem :=
  suffix_rfl

theorem trans (first : Drawn mem mem₁) (second : Drawn mem₁ mem₂) : Drawn mem mem₂ :=
  List.IsSuffix.trans second first

theorem mem_of (drawn : Drawn mem mem₁) {page : Nat} (pageMem : page ∈ mem₁.memoryPool) :
    page ∈ mem.memoryPool :=
  drawn.subset pageMem

end Drawn

section Sources

variable {mem mem' : PhysMemory} {root page : Nat} {privilege : PrivilegeLevel} {va : Nat}
  {fixed : FixedPages}

theorem drawn_allocPage (alloc_eq : mem.allocPage = .ok (page, mem')) :
    mem.memoryPool = page :: mem'.memoryPool ∧ mem'.bytes = mem.bytes := by
  unfold PhysMemory.allocPage at alloc_eq
  split at alloc_eq
  · cases alloc_eq
  next first rest pool_eq =>
    cases alloc_eq
    exact ⟨pool_eq, rfl⟩

theorem drawn_getClearPage (clear_eq : mem.getClearPage = .ok (page, mem')) :
    mem.memoryPool = page :: mem'.memoryPool := by
  obtain ⟨⟨first, mem₁⟩, alloc_eq, rest_eq⟩ := bind_eq_ok.1 clear_eq
  cases rest_eq
  exact (drawn_allocPage alloc_eq).1

theorem drawn_of_pool_eq (pool_eq : mem.memoryPool = page :: mem'.memoryPool) : Drawn mem mem' := by
  rw [Drawn, pool_eq]
  exact suffix_cons page _

theorem drawn_nextTable {slot table : Nat} (next_eq : nextTable mem slot privilege = .ok (table, mem')) :
    Drawn mem mem' := by
  unfold nextTable at next_eq
  dsimp only at next_eq
  split at next_eq
  · obtain ⟨⟨page, mem₁⟩, clear_eq, rest_eq⟩ := bind_eq_ok.1 next_eq
    cases rest_eq
    have drawn : Drawn mem mem₁ := drawn_of_pool_eq (drawn_getClearPage clear_eq)
    exact drawn
  · split at next_eq <;> cases next_eq
    exact .refl mem

theorem drawn_mapLevel3 (mem : PhysMemory) (table va leaf : Nat) :
    Drawn mem (mapLevel3 mem table va leaf) := by
  unfold mapLevel3
  dsimp only
  split
  · exact suffix_rfl
  · exact .refl mem

theorem drawn_mapLevel1 {leaf : Nat} (mapped : mapLevel1 mem root va leaf privilege = .ok mem') :
    Drawn mem mem' := by
  obtain ⟨⟨second, mem₁⟩, first_eq, rest_eq⟩ := bind_eq_ok.1 mapped
  obtain ⟨⟨third, mem₂⟩, second_eq, last_eq⟩ := bind_eq_ok.1 rest_eq
  rw [← Except.ok.inj last_eq]
  exact ((drawn_nextTable first_eq).trans (drawn_nextTable second_eq)).trans
    (drawn_mapLevel3 mem₂ third va leaf)

theorem drawn_createMapping {pa : Nat} {level : PageTableLevel}
    (mapped : createMapping mem root va pa level privilege = .ok mem') : Drawn mem mem' := by
  unfold createMapping at mapped
  generalize calcPpn pa ||| leafAttributes privilege = leaf at mapped
  dsimp only at mapped
  by_cases null : va < 0x1000
  · rw [if_pos null] at mapped
    cases mapped
  by_cases aligned : (root &&& 7) ^^^ 7 ≠ 7
  · rw [if_neg null, if_pos aligned] at mapped
    cases mapped
  rw [if_neg null, if_neg aligned] at mapped
  split at mapped
  · cases mapped
  split at mapped
  · cases mapped
    exact suffix_rfl
  · exact drawn_mapLevel1 mapped

theorem drawn_mapPage {request : PageRequest} (mapped : mapPage mem root request = .ok (page, mem')) :
    (page :: mem'.memoryPool).Sublist mem.memoryPool ∧ Drawn mem mem' := by
  obtain ⟨⟨taken, mem₁⟩, alloc_eq, rest_eq⟩ := bind_eq_ok.1 mapped
  obtain ⟨mem₂, prepare_eq, rest_eq⟩ := bind_eq_ok.1 rest_eq
  obtain ⟨mem₃, mapping_eq, last_eq⟩ := bind_eq_ok.1 rest_eq
  cases last_eq
  have pool_eq := (drawn_allocPage alloc_eq).1
  have prepared : Drawn mem₁ mem₂ := by
    unfold PhysMemory.prepare at prepare_eq
    split at prepare_eq <;> cases prepare_eq <;> exact suffix_rfl
  have below := prepared.trans (drawn_createMapping mapping_eq)
  refine ⟨?_, (drawn_of_pool_eq pool_eq).trans below⟩
  rw [pool_eq]
  exact below.sublist.cons_cons page

section

variable {requests : List PageRequest} {pages : List Nat} (mapped : mapPages root requests mem = .ok (pages, mem'))
include mapped

theorem drawn_mapPages : (pages ++ mem'.memoryPool).Sublist mem.memoryPool ∧ Drawn mem mem' := by
  induction requests generalizing mem pages with
  | nil =>
    cases mapped
    exact ⟨.refl _, .refl _⟩
  | cons request rest ih =>
    obtain ⟨⟨first, mem₁⟩, first_eq, rest_eq⟩ := bind_eq_ok.1 mapped
    obtain ⟨⟨others, mem₂⟩, others_eq, last_eq⟩ := bind_eq_ok.1 rest_eq
    cases last_eq
    obtain ⟨firstTaken, drawn⟩ := drawn_mapPage first_eq
    obtain ⟨othersTaken, below⟩ := ih others_eq
    exact ⟨(othersTaken.cons_cons first).trans firstTaken, drawn.trans below⟩

theorem length_of_mapPages : pages.length = requests.length := by
  induction requests generalizing mem pages with
  | nil =>
    cases mapped
    rfl
  | cons request rest ih =>
    obtain ⟨⟨first, mem₁⟩, _, rest_eq⟩ := bind_eq_ok.1 mapped
    obtain ⟨⟨others, mem₂⟩, others_eq, last_eq⟩ := bind_eq_ok.1 rest_eq
    cases last_eq
    rw [length_cons, length_cons, ih others_eq]

end

theorem drawn_registerPages {binds : List (Nat × Nat)}
    (registered : registerPages root binds mem = .ok mem') : Drawn mem mem' := by
  induction binds generalizing mem with
  | nil =>
    cases registered
    exact .refl _
  | cons bind rest ih =>
    obtain ⟨mem₁, mapping_eq, rest_eq⟩ := bind_eq_ok.1 registered
    exact (drawn_createMapping mapping_eq).trans (ih rest_eq)

theorem drawn_initPageTable (init_eq : initPageTable mem root fixed = .ok mem') : Drawn mem mem' := by
  obtain ⟨mem₁, eq₁, init_eq⟩ := bind_eq_ok.1 init_eq
  obtain ⟨mem₂, eq₂, init_eq⟩ := bind_eq_ok.1 init_eq
  obtain ⟨mem₃, eq₃, init_eq⟩ := bind_eq_ok.1 init_eq
  obtain ⟨mem₄, eq₄, init_eq⟩ := bind_eq_ok.1 init_eq
  obtain ⟨mem₅, eq₅, init_eq⟩ := bind_eq_ok.1 init_eq
  exact ((((drawn_createMapping eq₁).trans (drawn_createMapping eq₂)).trans
    (drawn_createMapping eq₃)).trans (drawn_createMapping eq₄)).trans
      ((drawn_createMapping eq₅).trans (drawn_createMapping init_eq))

theorem drawn_newPageTable (table_eq : newPageTable mem fixed = .ok (root, mem')) :
    root ∈ mem.memoryPool ∧ (mem.memoryPool.Nodup → root ∉ mem'.memoryPool) ∧ Drawn mem mem' := by
  obtain ⟨⟨page, mem₁⟩, clear_eq, rest_eq⟩ := bind_eq_ok.1 table_eq
  obtain ⟨mem₂, init_eq, last_eq⟩ := bind_eq_ok.1 rest_eq
  cases last_eq
  have pool_eq := drawn_getClearPage clear_eq
  have drawn := drawn_initPageTable init_eq
  refine ⟨by simp [pool_eq], fun distinct rootMem => ?_, (drawn_of_pool_eq pool_eq).trans drawn⟩
  rw [pool_eq] at distinct
  exact (nodup_cons.1 distinct).1 (drawn.mem_of rootMem)

end Sources

/-! ## The page of the root table -/

def AddressSpace.returnable (space : AddressSpace) : List Nat :=
  space.stack :: (space.elf.data.mAddrs ++ (space.elf.text.mAddrs ++
    space.mmap.memKeeper.map MmapUnit.sourceAddr))

structure Lost (page : Nat) (space : AddressSpace) (mem : PhysMemory) : Prop where
  notFree : page ∉ mem.memoryPool
  notReturnable : page ∉ space.returnable

section LostPage

variable {lost : Nat} {mem mem' : PhysMemory} {root : Nat} {elf elf' : ElfImage}
  {control control' : MmapControl} {p length addr : Nat}

theorem bindPage_lost {load : ElfLoad} (notFree : lost ∉ mem.memoryPool)
    (notBound : lost ∉ elf.data.mAddrs ++ elf.text.mAddrs)
    (bound : elf.bindPage root load mem = .ok (elf', mem')) :
    lost ∉ mem'.memoryPool ∧ lost ∉ elf'.data.mAddrs ++ elf'.text.mAddrs := by
  rw [bindPage_eq] at bound
  obtain ⟨⟨page, mem₁⟩, map_eq, last_eq⟩ := bind_eq_ok.1 bound
  obtain ⟨taken, drawn⟩ := drawn_mapPage map_eq
  have different : lost ≠ page := fun same => notFree (same ▸ taken.subset mem_cons_self)
  cases last_eq
  refine ⟨fun isFree => notFree (drawn.mem_of isFree), ?_⟩
  simp only [ElfSegment.mAddrs, mem_append, not_or] at notBound ⊢
  cases load.writable <;> simp [textOf, dataOf, map_append, notBound.1, notBound.2, different]

theorem bindPages_lost {loads : List ElfLoad} (notFree : lost ∉ mem.memoryPool)
    (notBound : lost ∉ elf.data.mAddrs ++ elf.text.mAddrs)
    (bound : ElfImage.bindPages root loads elf mem = .ok (elf', mem')) :
    lost ∉ mem'.memoryPool ∧ lost ∉ elf'.data.mAddrs ++ elf'.text.mAddrs := by
  induction loads generalizing elf mem with
  | nil =>
    cases bound
    exact ⟨notFree, notBound⟩
  | cons load rest ih =>
    obtain ⟨⟨elf₁, mem₁⟩, bind_eq, rest_eq⟩ := bind_eq_ok.1 bound
    obtain ⟨notFree₁, notBound₁⟩ := bindPage_lost notFree notBound bind_eq
    exact ih notFree₁ notBound₁ rest_eq

theorem root_lost {fixed : FixedPages} {file : ElfFile} {stackImage : List UInt8}
    {space : AddressSpace} (distinct : mem.memoryPool.Nodup)
    (created : createSpace fixed file stackImage mem = .ok (space, mem')) :
    space.pageTable ∈ mem.memoryPool ∧ Lost space.pageTable space mem' := by
  obtain ⟨⟨pageTable, mem₁⟩, table_eq, rest_eq⟩ := bind_eq_ok.1 created
  obtain ⟨⟨elf, mem₂⟩, load_eq, rest_eq⟩ := bind_eq_ok.1 rest_eq
  obtain ⟨⟨stack, mem₃⟩, stack_eq, last_eq⟩ := bind_eq_ok.1 rest_eq
  obtain ⟨rootMem, notFree, _⟩ := drawn_newPageTable table_eq
  obtain ⟨notFree₂, notBound⟩ := bindPages_lost (notFree distinct) (by simp [ElfSegment.mAddrs]) load_eq
  have pool_eq := drawn_getClearPage stack_eq
  rw [pool_eq, mem_cons, not_or] at notFree₂
  rw [mem_append, not_or] at notBound
  cases last_eq
  refine ⟨rootMem, notFree₂.2, ?_⟩
  simp only [AddressSpace.returnable, MmapControl.init, map_nil, append_nil, mem_cons,
    mem_append, not_or]
  exact ⟨notFree₂.1, notBound.1, notBound.2⟩

theorem grow_drawn {control control' : BrkControl} {first : Int} {count : Nat}
    (grow_eq : control.grow first count mem = .ok (control', mem')) : Drawn mem mem' := by
  obtain ⟨⟨pages, mem₁⟩, map_eq, last_eq⟩ := bind_eq_ok.1 grow_eq
  cases last_eq
  exact (drawn_mapPages map_eq).2

theorem brk_drawn {control control' : BrkControl} {ret : Nat}
    (brk_eq : control.brk p mem = .ok (ret, control', mem')) : Drawn mem mem' := by
  obtain ⟨⟨control₁, mem₁⟩, start_eq, rest_eq⟩ := bind_eq_ok.1 brk_eq
  have started : Drawn mem mem₁ := by
    unfold BrkControl.start at start_eq
    split at start_eq
    · cases start_eq
      exact .refl mem
    · exact grow_drawn start_eq
  dsimp only at rest_eq
  split at rest_eq
  · cases rest_eq
    exact started
  split at rest_eq
  · cases rest_eq
  split at rest_eq
  · obtain ⟨⟨control₂, mem₂⟩, grow_eq, last_eq⟩ := bind_eq_ok.1 rest_eq
    cases last_eq
    exact started.trans (grow_drawn grow_eq)
  · cases rest_eq
    exact started

theorem mmap_drawn {file : List UInt8} {ret : Option Nat}
    (mmap_eq : control.mmap length file mem = .ok (ret, control', mem')) :
    Drawn mem mem' ∧ ∀ source ∈ control'.memKeeper.map MmapUnit.sourceAddr,
      source ∈ control.memKeeper.map MmapUnit.sourceAddr ∨ source ∈ mem.memoryPool := by
  obtain ⟨⟨control₁, mem₁⟩, reserve_eq, rest_eq⟩ := bind_eq_ok.1 mmap_eq
  obtain ⟨⟨pages, mem₂⟩, map_eq, last_eq⟩ := bind_eq_ok.1 reserve_eq
  obtain ⟨taken, drawn⟩ := drawn_mapPages map_eq
  cases last_eq
  cases rest_eq
  refine ⟨drawn, fun source sourceMem => ?_⟩
  rw [map_append, MmapControl.sources_newUnits, mem_append] at sourceMem
  exact sourceMem.imp_right fun isNew => taken.subset (mem_append_left _ isNew)

theorem deallocPage_pool {page : Nat} (dealloc_eq : mem.deallocPage page = .ok mem') :
    mem'.memoryPool = page :: mem.memoryPool ∧ mem'.bytes = mem.bytes := by
  unfold PhysMemory.deallocPage at dealloc_eq
  split at dealloc_eq
  · cases dealloc_eq
  split at dealloc_eq
  · cases dealloc_eq
    exact ⟨rfl, rfl⟩
  · cases dealloc_eq

theorem release_sources {fuel : Nat} {units units' : List MmapUnit}
    (release_eq : MmapControl.release addr fuel p units mem = .ok (units', mem')) :
    (∀ unit ∈ units', unit ∈ units) ∧ ∀ page ∈ mem'.memoryPool,
      page ∈ mem.memoryPool ∨ page ∈ units.map MmapUnit.sourceAddr := by
  induction fuel generalizing p units mem with
  | zero => cases release_eq
  | succ fuel ih =>
    rw [MmapControl.release] at release_eq
    split at release_eq
    · cases release_eq
      exact ⟨fun _ => id, fun _ => .inl⟩
    split at release_eq
    · cases release_eq
    next unit found =>
      obtain ⟨mem₁, dealloc_eq, rest_eq⟩ := bind_eq_ok.1 release_eq
      have perm := (MmapControl.perm_of_lastUnit found).2
      obtain ⟨unitsMem, poolMem⟩ := ih rest_eq
      have erased : ∀ other ∈ MmapControl.eraseUnit units p, other ∈ units :=
        fun other otherMem => perm.mem_iff.2 (mem_cons_of_mem _ otherMem)
      refine ⟨fun other otherMem => erased other (unitsMem other otherMem), fun page pageMem => ?_⟩
      rcases poolMem page pageMem with inPool | inUnits
      · rw [(deallocPage_pool dealloc_eq).1, mem_cons] at inPool
        rcases inPool with rfl | inPool
        · exact .inr (mem_map_of_mem (perm.mem_iff.2 mem_cons_self))
        · exact .inl inPool
      · obtain ⟨other, otherMem, rfl⟩ := mem_map.1 inUnits
        exact .inr (mem_map_of_mem (erased other otherMem))

theorem munmap_sources (munmap_eq : control.munmap addr length mem = .ok (control', mem')) :
    (∀ unit ∈ control'.memKeeper, unit ∈ control.memKeeper) ∧ ∀ page ∈ mem'.memoryPool,
      page ∈ mem.memoryPool ∨ page ∈ control.memKeeper.map MmapUnit.sourceAddr := by
  unfold MmapControl.munmap at munmap_eq
  split at munmap_eq
  · cases munmap_eq
  · obtain ⟨⟨units, mem₁⟩, release_eq, last_eq⟩ := bind_eq_ok.1 munmap_eq
    cases last_eq
    exact release_sources release_eq

theorem Lost.call {state state' : AddressSpace × PhysMemory} {call : MemoryCall}
    (isLost : Lost lost state.1 state.2) (step : CallStep state call state') :
    Lost lost state'.1 state'.2 := by
  obtain ⟨space, mem⟩ := state
  obtain ⟨notFree, notReturnable⟩ := isLost
  obtain ⟨returned, call_eq⟩ := step
  simp only [AddressSpace.returnable, mem_cons, mem_append, not_or] at notReturnable
  obtain ⟨notStack, notData, notText, notSource⟩ := notReturnable
  cases call with
  | brk p =>
    obtain ⟨⟨ret, brk, mem₁⟩, brk_eq, last_eq⟩ := bind_eq_ok.1 call_eq
    cases last_eq
    refine ⟨fun isFree => notFree ((brk_drawn brk_eq).mem_of isFree), ?_⟩
    simp only [AddressSpace.returnable, mem_cons, mem_append, not_or]
    exact ⟨notStack, notData, notText, notSource⟩
  | mmap length file =>
    obtain ⟨⟨ret, mmap, mem₁⟩, mmap_eq, last_eq⟩ := bind_eq_ok.1 call_eq
    cases last_eq
    obtain ⟨drawn, sources⟩ := mmap_drawn mmap_eq
    refine ⟨fun isFree => notFree (drawn.mem_of isFree), ?_⟩
    simp only [AddressSpace.returnable, mem_cons, mem_append, not_or]
    exact ⟨notStack, notData, notText, fun isSource => (sources lost isSource).elim notSource notFree⟩
  | munmap addr length =>
    obtain ⟨⟨mmap, mem₁⟩, munmap_eq, last_eq⟩ := bind_eq_ok.1 call_eq
    cases last_eq
    obtain ⟨units, pool⟩ := munmap_sources munmap_eq
    refine ⟨fun isFree => (pool lost isFree).elim notFree notSource, ?_⟩
    simp only [AddressSpace.returnable, mem_cons, mem_append, not_or]
    refine ⟨notStack, notData, notText, fun isSource => notSource ?_⟩
    obtain ⟨unit, unitMem, source_eq⟩ := mem_map.1 isSource
    exact mem_map.2 ⟨unit, units unit unitMem, source_eq⟩

theorem ElfSegment.destroy_pool {segment : ElfSegment} (destroy_eq : segment.destroy mem = .ok mem') :
    mem'.memoryPool = segment.mAddrs.reverse ++ mem.memoryPool ∧ mem'.bytes = mem.bytes := by
  induction segment generalizing mem with
  | nil =>
    cases destroy_eq
    exact ⟨rfl, rfl⟩
  | cons page rest ih =>
    obtain ⟨mem₁, dealloc_eq, rest_eq⟩ := bind_eq_ok.1 destroy_eq
    obtain ⟨pool_eq, bytes_eq⟩ := deallocPage_pool dealloc_eq
    obtain ⟨rest_pool, rest_bytes⟩ := ih rest_eq
    refine ⟨?_, rest_bytes.trans bytes_eq⟩
    simp [rest_pool, pool_eq, ElfSegment.mAddrs]

def ElfImage.destroyed (elf : ElfImage) (lastUser : Bool) : List Nat :=
  elf.data.mAddrs ++ if lastUser then elf.text.mAddrs else []

theorem ElfImage.destroy_pool {lastUser : Bool} (destroy_eq : elf.destroy lastUser mem = .ok mem') :
    mem'.memoryPool = (elf.destroyed lastUser).reverse ++ mem.memoryPool ∧
      mem'.bytes = mem.bytes := by
  obtain ⟨mem₁, data_eq, rest_eq⟩ := bind_eq_ok.1 destroy_eq
  obtain ⟨data_pool, data_bytes⟩ := ElfSegment.destroy_pool data_eq
  cases lastUser with
  | false =>
    cases rest_eq
    exact ⟨by simp [destroyed, data_pool], data_bytes⟩
  | true =>
    obtain ⟨text_pool, text_bytes⟩ := ElfSegment.destroy_pool rest_eq
    exact ⟨by simp [destroyed, data_pool, text_pool], text_bytes.trans data_bytes⟩

theorem Lost.exit {space : AddressSpace} (isLost : Lost lost space mem)
    (exited : space.exit mem = .ok mem') : lost ∉ mem'.memoryPool := by
  obtain ⟨mem₁, stack_eq, rest_eq⟩ := bind_eq_ok.1 exited
  obtain ⟨notFree, notReturnable⟩ := isLost
  rw [(ElfImage.destroy_pool rest_eq).1, (deallocPage_pool stack_eq).1]
  simp only [AddressSpace.returnable, ElfImage.destroyed, if_true, mem_cons, mem_append,
    mem_reverse, not_or] at notReturnable ⊢
  exact ⟨⟨notReturnable.2.1, notReturnable.2.2.1⟩, notReturnable.1, notFree⟩

end LostPage

/-- However a process has used its memory, its exit does not return all of it:
the page of its root table stays away. -/
theorem not_returned_of_exit {fixed : FixedPages} {file : ElfFile} {stackImage : List UInt8}
    {mem mem₁ mem₂ mem₃ : PhysMemory} {space space' : AddressSpace} {calls : List MemoryCall}
    (distinct : mem.memoryPool.Nodup)
    (created : createSpace fixed file stackImage mem = .ok (space, mem₁))
    (run : Run CallStep (space, mem₁) calls (space', mem₂))
    (exited : space'.exit mem₂ = .ok mem₃) : ¬ Returned mem mem₃ := by
  obtain ⟨wasFree, lostAtFirst⟩ := root_lost distinct created
  have lostAtLast : Lost space.pageTable space' mem₂ :=
    @Run.invariant _ _ CallStep (fun state => Lost space.pageTable state.1 state.2)
      (fun isLost step => isLost.call step) _ _ _ run lostAtFirst
  intro returned
  exact lostAtLast.exit exited ((returned space.pageTable).2 wasFree)

theorem not_returned_of_mmap : ∃ space mem₁ space' mem₂ mem₃,
    createSpace sampleFixed sampleFile [] sampleMemory = .ok (space, mem₁) ∧
      Run CallStep (space, mem₁) [.mmap 4096 []] (space', mem₂) ∧
      space'.exit mem₂ = .ok mem₃ ∧ ¬ Returned sampleMemory mem₃ := by
  have tested : passes (createSpace sampleFixed sampleFile [] sampleMemory) (fun result =>
      passes (result.1.call result.2 (.mmap 4096 [])) fun called =>
        passes (called.2.1.exit called.2.2) fun _ => true) := by
    decide +kernel
  obtain ⟨⟨space, mem₁⟩, created, tested⟩ := passes_iff.1 tested
  obtain ⟨⟨returned, space', mem₂⟩, called, tested⟩ := passes_iff.1 tested
  obtain ⟨mem₃, exited, _⟩ := passes_iff.1 tested
  have run : Run CallStep (space, mem₁) [.mmap 4096 []] (space', mem₂) := .snoc .nil ⟨returned, called⟩
  have distinct := samplePool.nodup
  rw [nil_append] at distinct
  exact ⟨space, mem₁, space', mem₂, mem₃, created, run, exited,
    not_returned_of_exit distinct created run exited⟩

theorem not_returned_of_contains {before after : PhysMemory} {page : Nat}
    (missing : (before.memoryPool.contains page && !after.memoryPool.contains page) = true) :
    ¬ Returned before after := by
  intro returned
  simp [returned page] at missing

theorem not_returned_of_no_call : ∃ space mem₁ mem₂,
    createSpace sampleFixed sampleFile [] sampleMemory = .ok (space, mem₁) ∧
      space.exit mem₁ = .ok mem₂ ∧ ¬ Returned sampleMemory mem₂ := by
  have tested : passes (createSpace sampleFixed sampleFile [] sampleMemory) (fun result =>
      passes (result.1.exit result.2) fun mem₂ =>
        sampleMemory.memoryPool.contains 0x807fc000 && !mem₂.memoryPool.contains 0x807fc000) := by
    decide +kernel
  obtain ⟨⟨space, mem₁⟩, created, tested⟩ := passes_iff.1 tested
  obtain ⟨mem₂, exited, tested⟩ := passes_iff.1 tested
  exact ⟨space, mem₁, mem₂, created, exited, not_returned_of_contains tested⟩

end SysCore.Process
