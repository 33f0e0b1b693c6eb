import SysCore.Process.World
import SysCore.Paging.Stores
import Mathlib.Data.List.Forall2

/-!
# What a child of `clone` inherits

A child should read in its file, heap and file mappings what its parent reads
there, and its managers should keep the same records.  This is the case exactly
if the parent has no file mapping, none of its earlier ones has left a leaf in
the page table, and `page_count` counts the pages of the heap.

The copy constructor of `MmapControl` exchanges the two fields of every unit,
and `munmap` leaves leaves behind that no manager knows about, so a child lacks
what they map.
-/

namespace SysCore.Process

open Memory Transition Paging List

def AddressSpace.InElf (space : AddressSpace) (va : Nat) : Prop :=
  ∃ page ∈ space.elf.text ++ space.elf.data, vpnOf page.vAddr = vpnOf va

def InBrkRegion (va : Nat) : Prop :=
  brkVirtBegin ≤ va % 2 ^ 39 ∧ va % 2 ^ 39 < mmapVirtBegin

def AddressSpace.InRegions (space : AddressSpace) (va : Nat) : Prop :=
  space.InElf va ∨ InBrkRegion va ∨ InMmapRegion va

structure Faithful (parent child : AddressSpace) (mem mem' : PhysMemory) : Prop where
  reads : ∀ va, parent.InRegions va → (translate mem.bytes parent.pageTable va).isSome →
    readUser mem'.bytes child.pageTable va = readUser mem.bytes parent.pageTable va
  pageCount_eq : child.brk.pageCount = parent.brk.pageCount
  length_eq : child.brk.memKeeper.length = parent.brk.memKeeper.length
  elements : ∀ i page page' : Nat, parent.brk.memKeeper[i]? = some page →
    child.brk.memKeeper[i]? = some page' → SamePage mem mem' page page'
  addresses : ∀ va, va ∈ child.mmap.memKeeper.map MmapUnit.mappedTo ↔
    va ∈ parent.mmap.memKeeper.map MmapUnit.mappedTo
  start_eq : child.mmap.mmapStart = parent.mmap.mmapStart
  munmaps : ∀ addr length, (∃ result, parent.mmap.munmap addr length mem' = .ok result) →
    ∃ result, child.mmap.munmap addr length mem' = .ok result

def ForkFaithful (fixed : FixedPages) (w : World) : Prop :=
  ∃ child mem', w.space.fork fixed w.mem = .ok (child, mem') ∧ Faithful w.space child w.mem mem'

structure ForkClean (w : World) : Prop where
  noUnits : w.space.mmap.memKeeper = []
  counted : w.space.brk.pageCount ≤ w.space.brk.memKeeper.length
  noLeftover : ∀ va, InMmapRegion va → (translate w.mem.bytes w.space.pageTable va).isSome →
    w.space.InElf va

def TextFirst (flags : List (Bool × Nat)) : Prop :=
  flags.Pairwise fun first second =>
    first.1 = true → second.1 = false → vpnOf first.2 ≠ vpnOf second.2

def ElfFile.TextFirst (file : ElfFile) : Prop :=
  Process.TextFirst (file.loads.map fun load => (load.writable, load.vAddr))

section Finding

theorem find?_of_forall₂ {test : Nat → Bool} {related : Nat → Nat → Prop}
    {first second : List (Nat × Nat)}
    (inStep : List.Forall₂ (fun bind bind' => bind'.1 = bind.1 ∧ related bind.2 bind'.2) first second)
    {bind : Nat × Nat} (found : first.find? (fun bind => test bind.1) = some bind) :
    ∃ page, second.find? (fun bind => test bind.1) = some (bind.1, page) ∧ related bind.2 page := by
  induction inStep with
  | nil => cases found
  | @cons head head' first second heads _ ih =>
    rw [List.find?_cons] at found
    rw [List.find?_cons, heads.1]
    cases tested : test head.1 with
    | true =>
      rw [tested] at found
      cases found
      exact ⟨head'.2, congrArg some (Prod.ext heads.1 rfl), heads.2⟩
    | false =>
      rw [tested] at found
      exact ih found

theorem find?_binds_of_textFirst {bound : List (Bool × ElfPage)}
    (textFirst : TextFirst (bound.map fun page => (page.1, page.2.vAddr))) (vpn : Nat) :
    (ElfSegment.binds (bound.map Prod.snd)).find? (fun bind => vpnOf bind.1 = vpn) =
      ((textOf bound).binds.find? fun bind => vpnOf bind.1 = vpn).or
        ((dataOf bound).binds.find? fun bind => vpnOf bind.1 = vpn) := by
  induction bound with
  | nil => rfl
  | cons marked bound ih =>
    obtain ⟨writable, page⟩ := marked
    obtain ⟨apart, textFirst⟩ := pairwise_cons.1 textFirst
    have ih := ih textFirst
    simp only [ElfSegment.binds, textOf, dataOf, List.map_map] at ih apart ⊢
    by_cases same : vpnOf page.vAddr = vpn
    · cases writable with
      | false => simp [same]
      | true =>
        have noText : ∀ other ∈ bound, other.1 = false → vpnOf other.2.vAddr ≠ vpn := by
          intro other otherMem isText
          have different := apart _ (mem_map.2 ⟨other, otherMem, rfl⟩) rfl isText
          exact fun other_eq => different (same.trans other_eq.symm)
        have nothing : bound.find? (fun other => !other.1 && decide (vpnOf other.2.vAddr = vpn)) =
            none := by
          simpa using noText
        simp [same, nothing]
    · cases writable <;> simpa [same] using ih

end Finding

def Allowed (w : World) : Act → Prop
  | .mmap length file =>
    w.space.mmap.mmapStart + 4096 * MmapControl.needPage length ≤ mmapVirtEnd ∧
      (file = [] ∨ (length % 2 ^ 32 ≤ 4096 * MmapControl.needPage length ∧
        w.space.mmap.Fits length w.mem))
  | .fork follow => follow = true → w.space.mmap.memKeeper = []
  | _ => True

def AllowedStep (fixed : FixedPages) (w : World) (act : Act) (w' : World) : Prop :=
  Allowed w act ∧ w.exec fixed act = .ok (some w')

section Runs

variable {board : Board} {fixed : FixedPages} {w w' : World} {tables : List Nat}
  {bound : List (Bool × ElfPage)} {later : List (Nat × Nat)}

theorem BrkControl.copy_ne_ok {other : BrkControl} (started : other.brkInit = true)
    (short : other.memKeeper.length < other.pageCount) {root : Nat} {mem : PhysMemory}
    {result : BrkControl × PhysMemory} : other.copy root mem ≠ .ok result := by
  intro copied
  rw [copy, if_pos started] at copied
  obtain ⟨middle, _, copied⟩ := bind_eq_ok.1 copied
  dsimp only at copied
  rw [if_pos short] at copied
  cases copied

theorem Core.counted_of_fork (core : Core board fixed w tables bound later)
    {result : AddressSpace × PhysMemory} (returned : w.space.fork fixed w.mem = .ok result) :
    w.space.brk.pageCount ≤ w.space.brk.memKeeper.length := by
  rcases core.shape with ⟨_, count_eq, _, _⟩ | ⟨started, corrupted⟩
  · exact count_eq.le
  · have bounded := core.ledger.length_le
    simp only [AddressSpace.pages, length_append, length_cons] at bounded
    obtain ⟨_, _, returned⟩ := bind_eq_ok.1 returned
    obtain ⟨_, _, returned⟩ := bind_eq_ok.1 returned
    obtain ⟨_, _, returned⟩ := bind_eq_ok.1 returned
    obtain ⟨_, _, returned⟩ := bind_eq_ok.1 returned
    obtain ⟨_, copied, _⟩ := bind_eq_ok.1 returned
    exact absurd copied (BrkControl.copy_ne_ok started (by omega))

theorem textFirst_forkBound (child : AddressSpace) :
    TextFirst ((Core.forkBound child).map fun page => (page.1, page.2.vAddr)) := by
  unfold TextFirst Core.forkBound
  simp only [map_append, List.map_map, pairwise_append, pairwise_map]
  refine ⟨?_, ?_, ?_⟩
  · exact pairwise_of_forall fun _ _ isData => by cases isData
  · exact pairwise_of_forall fun _ _ _ isText => by cases isText
  · intro first firstMem second _ isData
    obtain ⟨page, _, rfl⟩ := mem_map.1 firstMem
    cases isData

theorem Core.step (core : Core board fixed w tables bound later) {act : Act}
    (allowed : Allowed w act) (step : w.exec fixed act = .ok (some w')) :
    ∃ tables' bound' later', Core board fixed w' tables' bound' later' ∧
      (bound' = bound ∨ TextFirst (bound'.map fun page => (page.1, page.2.vAddr))) := by
  cases act with
  | brk p =>
    obtain ⟨brk, mem', binds, news, world_eq, core', _⟩ := (core.brk_holds p).result step
    cases world_eq
    exact ⟨_, _, _, core', .inl rfl⟩
  | mmap length file =>
    obtain ⟨mmap, mem', pages, news, world_eq, _, _, core'⟩ :=
      (core.mmap_holds fun _ => allowed).result step
    cases world_eq
    exact ⟨_, _, _, core', .inl rfl⟩
  | munmap addr length =>
    obtain ⟨mmap, mem', removed, world_eq, _, _, core'⟩ := (core.munmap_holds addr length).result step
    cases world_eq
    exact ⟨_, _, _, core', .inl rfl⟩
  | fork follow =>
    obtain ⟨⟨child, mem'⟩, returned, step⟩ := bind_eq_ok.1 step
    have counted := core.counted_of_fork returned
    obtain ⟨tables', mmapPages, forked⟩ := (core.fork_returns counted).1.result returned
    cases follow with
    | false =>
      cases step
      exact ⟨_, _, _, core.of_forked_parent forked, .inl rfl⟩
    | true =>
      cases step
      exact ⟨_, _, _, core.of_forked_child forked (allowed rfl) counted,
        .inr (textFirst_forkBound child)⟩
  | othersAlloc =>
    obtain ⟨mem', others', world_eq, core'⟩ := core.othersAlloc_holds.result step
    cases world_eq
    exact ⟨_, _, _, core', .inl rfl⟩
  | othersFree page =>
    obtain ⟨mem', others', world_eq, core'⟩ := (core.othersFree_holds page).result step
    cases world_eq
    exact ⟨_, _, _, core', .inl rfl⟩
  | othersWrite a byte =>
    obtain ⟨mem', world_eq, core'⟩ := (core.othersWrite_holds a byte).result step
    cases world_eq
    exact ⟨_, _, _, core', .inl rfl⟩

def Traced (board : Board) (fixed : FixedPages) (w : World) : Prop :=
  ∃ tables bound later, Core board fixed w tables bound later ∧
    TextFirst (bound.map fun page => (page.1, page.2.vAddr))

theorem Traced.step (traced : Traced board fixed w) {act : Act} (step : AllowedStep fixed w act w') :
    Traced board fixed w' := by
  obtain ⟨tables, bound, later, core, textFirst⟩ := traced
  obtain ⟨tables', bound', later', core', kept⟩ := core.step step.1 step.2
  refine ⟨tables', bound', later', core', ?_⟩
  rcases kept with rfl | textFirst'
  · exact textFirst
  · exact textFirst'

theorem traced_of_run {file : ElfFile} {stackImage : List UInt8} {space : AddressSpace}
    {mem mem' : PhysMemory} {others : List Nat} {acts : List Act}
    (pool : PoolOf board fixed (others ++ mem.memoryPool)) (fits : stackImage.length ≤ 4016)
    (created : createSpace fixed file stackImage mem = .ok (space, mem'))
    (textFirst : file.TextFirst) (run : Run (AllowedStep fixed) ⟨mem', space, others⟩ acts w) :
    Traced board fixed w := by
  refine run.invariant (fun traced step => Traced.step traced step) ?_
  obtain ⟨tables, bound, made⟩ := pool.created fits created
  refine ⟨tables, bound, [], Core.of_created made pool, ?_⟩
  rw [made.flags_eq]
  exact textFirst

end Runs

section Reads

variable {board : Board} {fixed : FixedPages} {w : World} {tables : List Nat}
  {bound : List (Bool × ElfPage)} {later : List (Nat × Nat)} {va : Nat}

theorem baseView_small {vpn pte : Nat} (found : baseView fixed vpn = some (pte, 0)) :
    ∃ page privilege, page ∈ 0x38001000 :: fixed.pages ∧
      pte = calcPpn page ||| leafAttributes privilege := by
  unfold baseView at found
  split at found
  · cases found
  split at found
  · cases found
  split at found
  · cases found
    exact ⟨_, .supervisor, mem_cons_self, rfl⟩
  split at found
  · cases found
    exact ⟨fixed.fastSyscallPage, .user, by simp [FixedPages.pages], rfl⟩
  split at found
  · cases found
    exact ⟨fixed.vdsoTextPage, .user, by simp [FixedPages.pages], rfl⟩
  split at found
  · cases found
    exact ⟨fixed.vdsoDataPage, .user, by simp [FixedPages.pages], rfl⟩
  · cases found

theorem baseView_high {vpn pte level : Nat} (high : 0xc0000 ≤ vpn) :
    baseView fixed vpn ≠ some (pte, level + 1) := by
  unfold baseView
  rw [if_neg (by omega), if_neg (by omega)]
  repeat' split
  all_goals simp

theorem translate_of_leaf {m : Bytes} {root page : Nat} {view : Nat → Option (Nat × Nat)}
    {privilege : PrivilegeLevel} (space : Space m root view tables)
    (view_eq : view (vpnOf va) = some (calcPpn page ||| leafAttributes privilege, 0))
    (aligned : page % 4096 = 0 ∧ page < 2 ^ 64) :
    translate m root va = some (page + va % 4096, leafAttributes privilege) := by
  rw [space.translate_eq, view_eq, Option.bind_some]
  exact leafTarget_small va privilege aligned.1 aligned.2

namespace Core

variable (core : Core board fixed w tables bound later)
include core

theorem held {page : Nat} (pageMem : page ∈ w.space.pages) : Held w.mem [] page := by
  refine ⟨(core.ledger.window (by simp [pageMem])).1, fun isFree => ?_, nofun⟩
  have apart := (nodup_append.1 (nodup_append.1 core.ledger.nodup).2.1).2.2
  exact apart page pageMem page (by simp [isFree]) rfl

theorem held_fixed {page : Nat} (pageMem : page ∈ 0x38001000 :: fixed.pages) :
    Held w.mem [] page ∧ page % 4096 = 0 ∧ page < 2 ^ 64 := by
  rcases mem_cons.1 pageMem with rfl | isFixed
  · refine ⟨⟨by decide, fun isFree => ?_, nofun⟩, by decide⟩
    have window := (@PoolOf.window _ _ _ core.ledger 0x38001000 (by simp [isFree])).2
    unfold InIdentityWindow at window
    omega
  · have aligned := fixed.aligned page isFixed
    exact ⟨⟨aligned.1, fun isFree => core.ledger.notFixed page (by simp [isFree]) isFixed, nofun⟩,
      aligned⟩

theorem inElf_iff :
    w.space.InElf va ↔ ∃ bind ∈ ElfSegment.binds (bound.map Prod.snd), vpnOf bind.1 = vpnOf va := by
  have perm := (perm_textOf_dataOf bound).symm.map fun page => (page.vAddr, page.mAddr)
  rw [AddressSpace.InElf, core.elf_eq]
  constructor
  · rintro ⟨page, pageMem, same⟩
    exact ⟨(page.vAddr, page.mAddr), perm.mem_iff.1 (mem_map_of_mem pageMem), same⟩
  · rintro ⟨bind, bindMem, same⟩
    obtain ⟨page, pageMem, rfl⟩ := mem_map.1 (perm.mem_iff.2 bindMem)
    exact ⟨page, pageMem, same⟩

theorem not_super (inRegions : w.space.InRegions va) (pte level : Nat) :
    baseView fixed (vpnOf va) ≠ some (pte, level + 1) := by
  rcases inRegions with inElf | inBrk | inMmap
  · obtain ⟨bind, bindMem, same⟩ := core.inElf_iff.1 inElf
    exact same ▸ (core.mappable bind bindMem).2 pte level
  · refine baseView_high ?_
    unfold InBrkRegion brkVirtBegin mmapVirtBegin at inBrk
    unfold vpnOf
    omega
  · refine baseView_high ?_
    have vpn_range := (inMmapRegion_iff va).1 inMmap
    omega

theorem find?_later (counted : w.space.brk.pageCount ≤ w.space.brk.memKeeper.length) {vpn : Nat}
    (low : vpn < 0x100000) :
    later.find? (fun bind => vpnOf bind.1 = vpn) =
      w.space.brk.binds.find? fun bind => vpnOf bind.1 = vpn := by
  have few := core.ledger.length_le
  simp only [AddressSpace.pages, length_append, length_cons] at few
  rcases core.shape with ⟨binds_eq, _, _, _⟩ | ⟨_, corrupted⟩
  · rw [← binds_eq, List.find?_filter, ← List.head?_filter, ← List.head?_filter]
    congr 1
    refine filter_congr fun bind bindMem => ?_
    have bind_lt := core.laterLow bind bindMem
    unfold mmapVirtEnd at bind_lt
    have isLow : vpnOf bind.1 = vpn → bind.1 < 2 ^ 32 := by
      unfold vpnOf
      omega
    by_cases same : vpnOf bind.1 = vpn <;> simp [same]
    exact isLow same
  · omega

theorem view_of_clean (textFirst : TextFirst (bound.map fun page => (page.1, page.2.vAddr)))
    (clean : ForkClean w) (inRegions : w.space.InRegions va)
    (translates : (translate w.mem.bytes w.space.pageTable va).isSome) :
    bindAll (baseView fixed) (ElfSegment.binds (bound.map Prod.snd) ++ later) (vpnOf va) =
      bindAll (baseView fixed) (w.space.elf.text.binds ++
        (w.space.elf.data.binds ++ w.space.brk.binds)) (vpnOf va) := by
  rw [bindAll_eq, bindAll_eq, List.find?_append, List.find?_append, List.find?_append,
    find?_binds_of_textFirst textFirst, core.elf_eq, Option.or_assoc]
  by_cases inElf : w.space.InElf va
  · obtain ⟨bind, bindMem, same⟩ := core.inElf_iff.1 inElf
    have found : ((ElfSegment.binds (bound.map Prod.snd)).find?
        fun bind => vpnOf bind.1 = vpnOf va).isSome := by
      rw [List.find?_isSome]
      exact ⟨bind, bindMem, by simpa using same⟩
    rw [find?_binds_of_textFirst textFirst] at found
    obtain ⟨first, first_eq⟩ := Option.isSome_iff_exists.1 found
    rw [← Option.or_assoc, ← Option.or_assoc, first_eq, Option.some_or, Option.some_or]
  · have inBrk : InBrkRegion va := by
      rcases inRegions with isElf | isBrk | isMmap
      · exact absurd isElf inElf
      · exact isBrk
      · exact absurd (clean.noLeftover va isMmap translates) inElf
    unfold InBrkRegion mmapVirtBegin at inBrk
    rw [core.find?_later clean.counted (by unfold vpnOf; omega)]

end Core

section

variable {mem' : PhysMemory} {child : AddressSpace} {parent : AddressSpace} {mmapPages : List Nat} {mem : PhysMemory} (forked : Forked fixed parent child mem mem' tables mmapPages)
include forked

theorem Forked.brk_copied (held : ∀ page ∈ parent.brk.memKeeper, Held mem [] page)
    (length_eq : child.brk.memKeeper.length = parent.brk.memKeeper.length) {i page page' : Nat}
    (found : parent.brk.memKeeper[i]? = some page) (found' : child.brk.memKeeper[i]? = some page') :
    SamePage mem mem' page page' := by
  have counted : parent.brk.memKeeper.length ≤ parent.brk.pageCount := by
    have count_eq := forked.pageCount_eq
    have brkLength_eq := forked.brkLength_eq
    split at count_eq <;> omega
  refine forked.brkCopied page page' ?_ (held page (mem_of_getElem? found))
  rw [take_of_length_le counted, mem_iff_getElem?]
  exact ⟨i, List.getElem?_zip_eq_some.2 ⟨found, found'⟩⟩

theorem Forked.brk_inStep (held : ∀ page ∈ parent.brk.memKeeper, Held mem [] page)
    (length_eq : child.brk.memKeeper.length = parent.brk.memKeeper.length) :
    List.Forall₂ (fun bind bind' => bind'.1 = bind.1 ∧ SamePage mem mem' bind.2 bind'.2)
      parent.brk.binds child.brk.binds := by
  rw [forall₂_iff_get]
  refine ⟨by simp [BrkControl.binds, length_eq], fun i lt lt' => ?_⟩
  simp only [BrkControl.binds, length_map, length_zipIdx] at lt lt'
  refine ⟨by simp [BrkControl.binds], ?_⟩
  apply @Forked.brk_copied _ _ _ _ _ _ _ forked held length_eq i <;> simp [BrkControl.binds, lt, lt']

theorem Forked.data_inStep (held : ∀ page ∈ parent.elf.data, Held mem [] page.mAddr) :
    List.Forall₂ (fun bind bind' => bind'.1 = bind.1 ∧ SamePage mem mem' bind.2 bind'.2)
      parent.elf.data.binds child.elf.data.binds := by
  have length_eq : child.elf.data.length = parent.elf.data.length := by
    simpa using congrArg List.length forked.vAddrs_eq
  rw [ElfSegment.binds, ElfSegment.binds, forall₂_map_left_iff, forall₂_map_right_iff,
    forall₂_iff_get]
  refine ⟨length_eq.symm, fun i lt lt' => ⟨?_, ?_⟩⟩
  · have same := congrArg (·[i]?) forked.vAddrs_eq
    simpa [lt, lt'] using same
  · refine forked.dataCopied _ _ ?_ (held _ (get_mem _ _))
    rw [mem_iff_getElem?]
    exact ⟨i, by simp [ElfSegment.mAddrs, lt, lt']⟩

end

def AddressSpace.recordBinds (space : AddressSpace) : List (Nat × Nat) :=
  space.elf.text.binds ++ (space.elf.data.binds ++ space.brk.binds)

theorem AddressSpace.recordBinds_pages {space : AddressSpace} {bind : Nat × Nat}
    (bindMem : bind ∈ space.recordBinds) : bind.2 ∈ space.pages := by
  unfold recordBinds at bindMem
  simp only [pages, mem_cons, mem_append] at bindMem ⊢
  rcases bindMem with isText | isData | isBrk
  · obtain ⟨page, pageMem, rfl⟩ := mem_map.1 isText
    exact .inr (.inl (mem_map_of_mem pageMem))
  · obtain ⟨page, pageMem, rfl⟩ := mem_map.1 isData
    exact .inr (.inr (.inl (mem_map_of_mem pageMem)))
  · obtain ⟨⟨page, i⟩, pageMem, rfl⟩ := mem_map.1 isBrk
    exact .inr (.inr (.inr (.inl (mem_of_getElem? (mk_mem_zipIdx_iff_getElem?.1 pageMem)))))

section Clean

variable {child : AddressSpace} {mem' : PhysMemory} {tables' mmapPages : List Nat}

variable (core : Core board fixed w tables bound later)
include core

theorem Core.records_inStep (forked : Forked fixed w.space child w.mem mem' tables' mmapPages)
    (length_eq : child.brk.memKeeper.length = w.space.brk.memKeeper.length) :
    List.Forall₂ (fun bind bind' => bind'.1 = bind.1 ∧ SamePage w.mem mem' bind.2 bind'.2)
      w.space.recordBinds child.recordBinds := by
  have fresh := core.ready.fresh.weaken
  refine rel_append ?_ (rel_append (forked.data_inStep ?_) (forked.brk_inStep ?_ length_eq))
  · rw [forked.text_eq, forall₂_same]
    intro bind bindMem
    have pageMem := @AddressSpace.recordBinds_pages w.space bind (mem_append_left _ bindMem)
    exact ⟨rfl, samePage_of_new (core.held pageMem) fresh forked.grown⟩
  · intro page pageMem
    exact core.held (by simp [AddressSpace.pages, ElfSegment.mAddrs, mem_map_of_mem pageMem])
  · intro page pageMem
    exact core.held (by simp [AddressSpace.pages, pageMem])

theorem Core.child_aligned (forked : Forked fixed w.space child w.mem mem' tables' mmapPages)
    {bind : Nat × Nat} (bindMem : bind ∈ child.recordBinds) : bind.2 % 4096 = 0 ∧ bind.2 < 2 ^ 64 := by
  have taken : ∀ page ∈ child.elf.data.mAddrs ++ child.brk.memKeeper, page ∈ w.mem.memoryPool := by
    intro page pageMem
    refine forked.grown.pool.mem_iff.2 ?_
    simp only [mem_append, mem_cons] at pageMem ⊢
    tauto
  refine core.ledger.fresh.aligned bind.2 ?_
  rcases mem_append.1 bindMem with isText | isNew
  · rw [forked.text_eq] at isText
    have pageMem := @AddressSpace.recordBinds_pages w.space bind (mem_append_left _ isText)
    simp [pageMem]
  · have pageMem : bind.2 ∈ child.elf.data.mAddrs ++ child.brk.memKeeper := by
      rcases mem_append.1 isNew with isData | isBrk
      · obtain ⟨page, pageMem, rfl⟩ := mem_map.1 isData
        exact mem_append_left _ (mem_map_of_mem pageMem)
      · obtain ⟨⟨page, i⟩, pageMem, rfl⟩ := mem_map.1 isBrk
        exact mem_append_right _ (mem_of_getElem? (mk_mem_zipIdx_iff_getElem?.1 pageMem))
    simp [taken _ pageMem]

theorem Core.reads_of_clean (textFirst : TextFirst (bound.map fun page => (page.1, page.2.vAddr)))
    (clean : ForkClean w) (forked : Forked fixed w.space child w.mem mem' tables' mmapPages)
    (length_eq : child.brk.memKeeper.length = w.space.brk.memKeeper.length)
    (inRegions : w.space.InRegions va) (translates : (translate w.mem.bytes w.space.pageTable va).isSome) :
    readUser mem'.bytes child.pageTable va = readUser w.mem.bytes w.space.pageTable va := by
  have parentView := core.view_of_clean textFirst clean inRegions translates
  have childSpace := forked.ready.space
  rw [clean.noUnits, map_nil, zip_nil_left, append_nil, ← forked.text_eq] at childSpace
  unfold readUser
  cases base : baseView fixed (vpnOf va) with
  | some leaf =>
    obtain ⟨pte, level⟩ := leaf
    obtain rfl : level = 0 := by
      cases level with
      | zero => rfl
      | succ level => exact absurd base (core.not_super inRegions pte level)
    obtain ⟨page, privilege, pageMem, rfl⟩ := baseView_small base
    obtain ⟨held, aligned⟩ := core.held_fixed pageMem
    rw [translate_of_leaf core.table (by rw [bindAll_eq, base, Option.some_or]) aligned,
      translate_of_leaf childSpace (by rw [bindAll_eq, base, Option.some_or]) aligned]
    exact congrArg some (samePage_of_new held core.ready.fresh.weaken forked.grown _
      (Nat.mod_lt _ (by decide)))
  | none =>
    have leaf_eq : ∀ binds : List (Nat × Nat), bindAll (baseView fixed) binds (vpnOf va) =
        (binds.find? fun bind => vpnOf bind.1 = vpnOf va).map fun bind => (userLeaf bind.2, 0) :=
      fun binds => by rw [bindAll_eq, base, Option.none_or]
    rw [leaf_eq (_ ++ (_ ++ _))] at parentView
    cases found : w.space.recordBinds.find? (fun bind => vpnOf bind.1 = vpnOf va) with
    | none =>
      rw [core.table.translate_eq, parentView, ← AddressSpace.recordBinds, found] at translates
      cases translates
    | some bind =>
      have bindMem := mem_of_find?_eq_some found
      rw [← AddressSpace.recordBinds, found] at parentView
      obtain ⟨page, found', same⟩ := @find?_of_forall₂ (fun key => vpnOf key = vpnOf va) _ _ _
        (core.records_inStep forked length_eq) bind found
      have childView := leaf_eq child.recordBinds
      rw [found'] at childView
      rw [translate_of_leaf core.table parentView (core.ledger.fresh.aligned bind.2 (by
          simp [AddressSpace.recordBinds_pages bindMem])),
        translate_of_leaf childSpace childView
          (core.child_aligned forked (mem_of_find?_eq_some found'))]
      exact congrArg some (same _ (Nat.mod_lt _ (by decide)))

end Clean

end Reads

namespace MmapControl

theorem munmap_ok_iff (control : MmapControl) (addr length : Nat) (mem : PhysMemory) :
    (∃ result, control.munmap addr length mem = .ok result) ↔
      addr % 0x1000 = 0 ∧ ∃ result, release addr (control.memKeeper.length + 1)
        (lastPage addr length) control.memKeeper mem = .ok result := by
  unfold munmap
  by_cases aligned : addr % 0x1000 = 0
  · rw [if_neg (not_not.2 aligned)]
    cases release addr (control.memKeeper.length + 1) (lastPage addr length) control.memKeeper mem with
    | ok result => exact ⟨fun _ => ⟨aligned, result, rfl⟩, fun _ => ⟨_, rfl⟩⟩
    | error halt => simp
  · simp [aligned]

end MmapControl

section Fidelity

variable {board : Board} {fixed : FixedPages} {w : World} {tables : List Nat}
  {bound : List (Bool × ElfPage)} {later : List (Nat × Nat)} {child : AddressSpace} {mem' : PhysMemory}
  {tables' mmapPages : List Nat}

section

variable (core : Core board fixed w tables bound later)
include core

theorem Core.forkable (noUnits : w.space.mmap.memKeeper = [])
    (counted : w.space.brk.pageCount ≤ w.space.brk.memKeeper.length) : Forkable fixed w.space := by
  have inFile : ∀ page ∈ w.space.elf.text ++ w.space.elf.data,
      Mappable (baseView fixed) page.vAddr := by
    intro page pageMem
    rw [core.elf_eq] at pageMem
    have pageMem := (perm_textOf_dataOf bound).mem_iff.2 pageMem
    exact core.mappable (page.vAddr, page.mAddr) (mem_map.2 ⟨page, pageMem, rfl⟩)
  have few := core.ledger.length_le
  simp only [AddressSpace.pages, length_append, length_cons] at few
  refine ⟨fun page pageMem => ?_, fun page pageMem => ?_, fun i i_lt => ?_, ?_⟩
  · exact inFile page (mem_append_left _ pageMem)
  · exact inFile page (mem_append_right _ pageMem)
  · have address_eq : brkAddress i = 0xc0000000 + 4096 * i := by
      unfold brkAddress brkVirtBegin
      omega
    refine ⟨by omega, fun pte level => baseView_high ?_⟩
    rw [address_eq]
    unfold vpnOf
    omega
  · rw [noUnits]
    exact fun _ unitMem => absurd unitMem not_mem_nil

theorem Core.pageCount_of_fork (counted : w.space.brk.pageCount ≤ w.space.brk.memKeeper.length)
    (forked : Forked fixed w.space child w.mem mem' tables' mmapPages) :
    child.brk.pageCount = w.space.brk.pageCount ∧
      child.brk.memKeeper.length = w.space.brk.memKeeper.length := by
  have few := core.ledger.length_le
  simp only [AddressSpace.pages, length_append, length_cons] at few
  have count_eq := forked.pageCount_eq
  have length_eq := forked.brkLength_eq
  rcases core.shape with ⟨_, own_eq, _, empty⟩ | ⟨_, corrupted⟩
  · cases started : w.space.brk.brkInit with
    | true =>
      rw [started, if_pos rfl] at count_eq
      omega
    | false =>
      have nothing := congrArg List.length (empty started)
      rw [started, if_neg Bool.false_ne_true] at count_eq
      rw [length_nil] at nothing
      omega
  · omega

theorem Core.faithful_of_clean (textFirst : TextFirst (bound.map fun page => (page.1, page.2.vAddr)))
    (clean : ForkClean w) (forked : Forked fixed w.space child w.mem mem' tables' mmapPages) :
    Faithful w.space child w.mem mem' := by
  obtain ⟨count_eq, length_eq⟩ := core.pageCount_of_fork clean.counted forked
  have units_eq : child.mmap.memKeeper = w.space.mmap.memKeeper := by
    rw [forked.mmap_eq, clean.noUnits, zipWith_nil_left]
  refine ⟨fun va => core.reads_of_clean textFirst clean forked length_eq, count_eq, length_eq,
    fun i page page' => forked.brk_copied ?_ length_eq, ?_, ?_, ?_⟩
  · intro page pageMem
    exact core.held (by simp [AddressSpace.pages, pageMem])
  · simp [units_eq]
  · rw [forked.mmap_eq]
  · intro addr length
    rw [MmapControl.munmap_ok_iff, MmapControl.munmap_ok_iff, units_eq]
    exact id

theorem Core.clean_of_faithful (counted : w.space.brk.pageCount ≤ w.space.brk.memKeeper.length)
    (forked : Forked fixed w.space child w.mem mem' tables' mmapPages)
    (faithful : Faithful w.space child w.mem mem') : ForkClean w := by
  have noUnits : w.space.mmap.memKeeper = [] := by
    refine eq_nil_iff_forall_not_mem.2 fun unit unitMem => ?_
    -- the child keeps a page of the pool where the parent keeps an address
    have inChild := (faithful.addresses unit.mappedTo).2 (mem_map_of_mem unitMem)
    rw [forked.mmap_eq] at inChild
    obtain ⟨unit', unitMem', address_eq⟩ := mem_map.1 inChild
    rw [← map_uncurry_zip_eq_zipWith] at unitMem'
    obtain ⟨⟨other, page⟩, pairMem, rfl⟩ := mem_map.1 unitMem'
    have pageMem : page ∈ w.mem.memoryPool :=
      forked.grown.pool.mem_iff.2 (by simp [(of_mem_zip pairMem).2])
    have window := (@PoolOf.window _ _ _ core.ledger page (by simp [pageMem])).2
    have high := core.unitsHigh unit unitMem
    unfold InIdentityWindow at window
    unfold mmapVirtBegin at high
    dsimp only [Function.uncurry] at address_eq
    omega
  refine ⟨noUnits, counted, fun va inMmap translates => ?_⟩
  have reads := faithful.reads va (.inr (.inr inMmap)) translates
  obtain ⟨target, target_eq⟩ := Option.isSome_iff_exists.1 translates
  obtain ⟨lower, upper⟩ := (inMmapRegion_iff va).1 inMmap
  have childSpace := forked.ready.space
  rw [noUnits, map_nil, zip_nil_left, append_nil, ← forked.text_eq] at childSpace
  rw [readUser, readUser, target_eq, childSpace.translate_eq, bindAll_eq, baseView_free (by omega),
    Option.none_or] at reads
  cases found : child.recordBinds.find? (fun bind => vpnOf bind.1 = vpnOf va) with
  | none =>
    rw [← AddressSpace.recordBinds, found] at reads
    cases reads
  | some bind =>
    have same : vpnOf bind.1 = vpnOf va := by simpa using List.find?_some found
    have bindMem := mem_of_find?_eq_some found
    unfold AddressSpace.recordBinds at bindMem
    rcases mem_append.1 bindMem with isText | isNew
    · obtain ⟨page, pageMem, rfl⟩ := mem_map.1 isText
      rw [forked.text_eq] at pageMem
      exact ⟨page, mem_append_left _ pageMem, same⟩
    rcases mem_append.1 isNew with isData | isBrk
    · obtain ⟨page, pageMem, rfl⟩ := mem_map.1 isData
      have addressMem := mem_map_of_mem (f := ElfPage.vAddr) pageMem
      rw [forked.vAddrs_eq] at addressMem
      obtain ⟨page', pageMem', address_eq⟩ := mem_map.1 addressMem
      exact ⟨page', mem_append_right _ pageMem', by rw [address_eq]; exact same⟩
    · have low := child.brk.binds_low bind isBrk
      unfold vpnOf at same lower
      omega

end

theorem Core.forkClean_of_new (core : Core board fixed w tables bound [])
    (noUnits : w.space.mmap.memKeeper = [])
    (counted : w.space.brk.pageCount ≤ w.space.brk.memKeeper.length) : ForkClean w := by
  refine ⟨noUnits, counted, fun va inMmap translates => core.inElf_iff.2 ?_⟩
  obtain ⟨lower, upper⟩ := (inMmapRegion_iff va).1 inMmap
  rw [core.table.translate_eq, append_nil, bindAll_eq, baseView_free (by omega),
    Option.none_or] at translates
  cases found : (ElfSegment.binds (bound.map Prod.snd)).find?
      (fun bind => vpnOf bind.1 = vpnOf va) with
  | none =>
    rw [found] at translates
    cases translates
  | some bind => exact ⟨bind, mem_of_find?_eq_some found, by simpa using List.find?_some found⟩

/-- In every allowed run from a new process whose file binds text before data,
a fork with enough free pages returns a faithful child exactly if the process is
clean. -/
theorem forkFaithful_iff_of_run {file : ElfFile} {stackImage : List UInt8} {space : AddressSpace}
    {mem mem' : PhysMemory} {others : List Nat} {acts : List Act}
    (pool : PoolOf board fixed (others ++ mem.memoryPool)) (fits : stackImage.length ≤ 4016)
    (created : createSpace fixed file stackImage mem = .ok (space, mem'))
    (textFirst : file.TextFirst) (run : Run (AllowedStep fixed) ⟨mem', space, others⟩ acts w)
    (enough : w.space.forkPages ≤ w.mem.memoryPool.length) :
    ForkFaithful fixed w ↔ ForkClean w := by
  obtain ⟨tables, bound, later, core, textFirst⟩ := traced_of_run pool fits created textFirst run
  constructor
  · rintro ⟨child, mem', returned, faithful⟩
    have counted := core.counted_of_fork returned
    obtain ⟨tables', mmapPages, forked⟩ := (core.fork_returns counted).1.result returned
    exact core.clean_of_faithful counted forked faithful
  · intro clean
    have forkable := core.forkable clean.noUnits clean.counted
    obtain ⟨⟨child, mem'⟩, returned, tables', mmapPages, forked⟩ :=
      (core.fork_returns clean.counted).exists_ok ⟨forkable, enough⟩
    exact ⟨child, mem', returned, core.faithful_of_clean textFirst clean forked⟩

end Fidelity

theorem sampleFile_textFirst : sampleFile.TextFirst := by
  unfold ElfFile.TextFirst TextFirst
  decide +kernel

theorem forkFaithful_of_sample : ∃ space mem',
    createSpace sampleFixed sampleFile [] sampleMemory = .ok (space, mem') ∧
      ForkFaithful sampleFixed ⟨mem', space, []⟩ := by
  have tested : passes (createSpace sampleFixed sampleFile [] sampleMemory) (fun result =>
      decide (result.1.forkPages ≤ result.2.memoryPool.length)) := by
    decide +kernel
  obtain ⟨⟨space, mem'⟩, created, enough⟩ := passes_iff.1 tested
  obtain ⟨tables, bound, made⟩ := samplePool.created (by decide) created
  have clean : ForkClean ⟨mem', space, []⟩ := by
    refine (Core.of_created made samplePool).forkClean_of_new ?_ ?_
    · dsimp only
      rw [made.mmap_eq]
      rfl
    · dsimp only
      rw [made.brk_eq]
      exact le_rfl
  exact ⟨space, mem', created, (forkFaithful_iff_of_run samplePool (by decide) created
    sampleFile_textFirst .nil (of_decide_eq_true enough)).2 clean⟩

theorem not_forkFaithful_of_mmap : ∃ space mem' w,
    createSpace sampleFixed sampleFile [] sampleMemory = .ok (space, mem') ∧
      World.exec sampleFixed ⟨mem', space, []⟩ (.mmap 4096 []) = .ok (some w) ∧
      w.space.forkPages ≤ w.mem.memoryPool.length ∧ ¬ ForkFaithful sampleFixed w := by
  have tested : passes (createSpace sampleFixed sampleFile [] sampleMemory) (fun result =>
      passes (World.exec sampleFixed ⟨result.2, result.1, []⟩ (.mmap 4096 [])) fun found =>
        found.any fun w => decide (w.space.forkPages ≤ w.mem.memoryPool.length) &&
          decide (mmapVirtBegin ∈ w.space.mmap.memKeeper.map MmapUnit.mappedTo) &&
            passes (w.space.fork sampleFixed w.mem) fun forked =>
              decide (mmapVirtBegin ∉ forked.1.mmap.memKeeper.map MmapUnit.mappedTo)) := by
    decide +kernel
  obtain ⟨⟨space, mem'⟩, created, tested⟩ := passes_iff.1 tested
  obtain ⟨found, mapped, tested⟩ := passes_iff.1 tested
  obtain ⟨w, rfl, tested⟩ := (Option.any_eq_true _ _).1 tested
  obtain ⟨tested, inChild⟩ := Bool.and_eq_true_iff.1 tested
  obtain ⟨enough, inParent⟩ := Bool.and_eq_true_iff.1 tested
  obtain ⟨forked, returned, missing⟩ := passes_iff.1 inChild
  refine ⟨space, mem', w, created, mapped, of_decide_eq_true enough, ?_⟩
  rintro ⟨child, mem'', returned', faithful⟩
  cases returned.symm.trans returned'
  exact of_decide_eq_true missing ((faithful.addresses _).2 (of_decide_eq_true inParent))

end SysCore.Process
