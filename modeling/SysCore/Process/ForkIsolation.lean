import SysCore.Process.ForkFidelity

/-!
# Parent and child after a fork

The text segment of a file is shared between a parent and its child, and every
page is mapped with the bits `W` and `U`.  So the two are isolated exactly if no
text page is mapped at all: if a file has a page of text in use, a store of one
is read by the other.

The other pages are never shared, provided that the file keeps away from the
pages that every table maps, and that `munmap` has not left leaves to pages the
process has given back.
-/

namespace SysCore.Process

open Memory Transition Paging List

def AddressSpace.party (space : AddressSpace) : Party :=
  ⟨space.pageTable, space.InRegions⟩

def family (parent child : AddressSpace) : Bool → Party
  | false => parent.party
  | true => child.party

def AddressSpace.ownPages (space : AddressSpace) : List Nat :=
  space.elf.data.mAddrs ++ (space.brk.memKeeper ++ space.mmap.memKeeper.map MmapUnit.sourceAddr)

structure Tidy (fixed : FixedPages) (w : World) : Prop where
  unreserved : ∀ page ∈ w.space.elf.text ++ w.space.elf.data,
    baseView fixed (vpnOf page.vAddr) = none
  owned : ∀ va pa attributes, InMmapRegion va → ¬ w.space.InElf va →
    translate w.mem.bytes w.space.pageTable va = some (pa, attributes) →
      pageOf pa ∈ w.space.mmap.memKeeper.map MmapUnit.sourceAddr

def TextMapped (w : World) : Prop :=
  ∃ page ∈ w.space.elf.text, ∃ pa attributes,
    translate w.mem.bytes w.space.pageTable page.vAddr = some (pa, attributes) ∧
      pageOf pa = page.mAddr

theorem pageOf_add_mod {page : Nat} (aligned : page % 4096 = 0) (va : Nat) :
    pageOf (page + va % 4096) = page :=
  (pageOf_eq_iff aligned).2 (by omega)

theorem find?_filter_of_find? {α : Type} {items : List α} {selected test : α → Bool} {item : α}
    (found : items.find? test = some item) (isSelected : selected item = true) :
    (items.filter selected).find? test = some item := by
  obtain ⟨passes, before, after, rfl, earlier⟩ := List.find?_eq_some_iff_append.1 found
  refine List.find?_eq_some_iff_append.2 ⟨passes, before.filter selected, after.filter selected, ?_, ?_⟩
  · rw [filter_append, filter_cons_of_pos isSelected]
  · exact fun other otherMem => earlier other (mem_of_mem_filter otherMem)

section Parent

variable {board : Board} {fixed : FixedPages} {w : World} {tables : List Nat}
  {bound : List (Bool × ElfPage)} {later : List (Nat × Nat)} {va : Nat}

namespace Core

theorem translate_inElf (core : Core board fixed w tables bound later) (tidy : Tidy fixed w)
    (inElf : w.space.InElf va) :
    ∃ marked, bound.find? (fun marked => vpnOf marked.2.vAddr = vpnOf va) = some marked ∧
      translate w.mem.bytes w.space.pageTable va =
        some (marked.2.mAddr + va % 4096, leafAttributes .user) ∧
      marked.2.mAddr % 4096 = 0 := by
  obtain ⟨page, pageMem, same⟩ := inElf
  have base := tidy.unreserved page pageMem
  rw [same] at base
  rw [core.elf_eq] at pageMem
  obtain ⟨marked, markedMem, rfl⟩ := mem_map.1 ((perm_textOf_dataOf bound).mem_iff.2 pageMem)
  have isSome : (bound.find? fun marked => vpnOf marked.2.vAddr = vpnOf va).isSome := by
    rw [List.find?_isSome]
    exact ⟨marked, markedMem, by simpa using same⟩
  obtain ⟨first, found⟩ := Option.isSome_iff_exists.1 isSome
  have firstMem : first.2.mAddr ∈ w.space.pages := by
    have inOrder := (perm_textOf_dataOf bound).mem_iff.1
      (mem_map_of_mem (f := Prod.snd) (mem_of_find?_eq_some found))
    simp only [AddressSpace.pages, core.elf_eq, mem_cons, mem_append, ElfSegment.mAddrs]
    rcases mem_append.1 inOrder with isText | isData
    · exact .inr (.inl (mem_map_of_mem isText))
    · exact .inr (.inr (.inl (mem_map_of_mem isData)))
  have aligned := core.ledger.fresh.aligned first.2.mAddr (by simp [firstMem])
  refine ⟨first, found, translate_of_leaf core.table ?_ aligned, aligned.1⟩
  have bind_eq : (ElfSegment.binds (bound.map Prod.snd)).find?
      (fun bind => vpnOf bind.1 = vpnOf va) = some (first.2.vAddr, first.2.mAddr) := by
    rw [ElfSegment.binds, List.map_map, List.find?_map]
    exact congrArg _ found
  rw [bindAll_eq, base, Option.none_or, List.find?_append, bind_eq]
  rfl

theorem reach (core : Core board fixed w tables bound later) (tidy : Tidy fixed w)
    (counted : w.space.brk.pageCount ≤ w.space.brk.memKeeper.length) (noText : ¬ TextMapped w)
    {pa attributes : Nat} (inRegions : w.space.InRegions va)
    (target : translate w.mem.bytes w.space.pageTable va = some (pa, attributes)) :
    pageOf pa ∈ w.space.ownPages := by
  unfold AddressSpace.ownPages
  by_cases inElf : w.space.InElf va
  · obtain ⟨marked, found, target_eq, aligned⟩ := core.translate_inElf tidy inElf
    have same : vpnOf marked.2.vAddr = vpnOf va := by simpa using List.find?_some found
    have markedMem := mem_of_find?_eq_some found
    cases target.symm.trans target_eq
    rw [pageOf_add_mod aligned]
    cases writable : marked.1 with
    | true =>
      refine mem_append_left _ (mem_map_of_mem ?_)
      rw [core.elf_eq]
      exact mem_map.2 ⟨marked, mem_filter.2 ⟨markedMem, writable⟩, rfl⟩
    | false =>
      have isText : marked.2 ∈ w.space.elf.text := by
        rw [core.elf_eq]
        exact mem_map.2 ⟨marked, mem_filter.2 ⟨markedMem, by simp [writable]⟩, rfl⟩
      obtain ⟨other, found', target_eq', _⟩ :=
        @translate_inElf _ _ _ _ _ _ marked.2.vAddr core tidy
          ⟨marked.2, mem_append_left _ isText, rfl⟩
      rw [same] at found'
      cases found.symm.trans found'
      exact absurd ⟨marked.2, isText, _, _, target_eq', pageOf_add_mod aligned _⟩ noText
  · have noBind : (ElfSegment.binds (bound.map Prod.snd)).find?
        (fun bind => vpnOf bind.1 = vpnOf va) = none := by
      refine List.find?_eq_none.2 fun bind bindMem same => inElf (core.inElf_iff.2 ?_)
      exact ⟨bind, bindMem, by simpa using same⟩
    rcases inRegions with isElf | inBrk | inMmap
    · exact absurd isElf inElf
    · unfold InBrkRegion brkVirtBegin mmapVirtBegin at inBrk
      have vpn_range : 0xc0000 ≤ vpnOf va ∧ vpnOf va < 0x100000 := by
        unfold vpnOf
        omega
      rw [core.table.translate_eq, bindAll_eq, baseView_free (by omega), Option.none_or,
        List.find?_append, noBind, Option.none_or, core.find?_later counted vpn_range.2] at target
      cases found : w.space.brk.binds.find? (fun bind => vpnOf bind.1 = vpnOf va) with
      | none =>
        rw [found] at target
        cases target
      | some bind =>
        obtain ⟨⟨page, i⟩, pageMem, rfl⟩ := mem_map.1 (mem_of_find?_eq_some found)
        have pageMem := mem_of_getElem? (mk_mem_zipIdx_iff_getElem?.1 pageMem)
        have aligned := core.ledger.fresh.aligned page (by simp [AddressSpace.pages, pageMem])
        rw [found, Option.map_some, Option.bind_some] at target
        have target_eq := leafTarget_small va .user aligned.1 aligned.2
        cases target.symm.trans target_eq
        rw [pageOf_add_mod aligned.1]
        exact mem_append_right _ (mem_append_left _ pageMem)
    · exact mem_append_right _ (mem_append_right _
        (tidy.owned va pa attributes inMmap inElf target))

end Core

end Parent

def AddressSpace.forkedPages (child : AddressSpace) (mmapPages : List Nat) : List Nat :=
  child.elf.text.mAddrs ++ (child.elf.data.mAddrs ++ (child.brk.memKeeper ++ mmapPages))

section Child

variable {board : Board} {fixed : FixedPages} {w : World} {tables tables' mmapPages : List Nat}
  {bound : List (Bool × ElfPage)} {later : List (Nat × Nat)} {child : AddressSpace}
  {mem' : PhysMemory} {va : Nat}

theorem Forked.inElf_iff {parent : AddressSpace} {mem : PhysMemory}
    (forked : Forked fixed parent child mem mem' tables' mmapPages) :
    child.InElf va ↔ parent.InElf va := by
  have vpns : child.elf.data.map (fun page => vpnOf page.vAddr) =
      parent.elf.data.map fun page => vpnOf page.vAddr := by
    simpa [List.map_map, Function.comp_def] using congrArg (List.map vpnOf) forked.vAddrs_eq
  have inSegment : ∀ space : AddressSpace, space.InElf va ↔
      vpnOf va ∈ space.elf.text.map (fun page => vpnOf page.vAddr) ++
        space.elf.data.map fun page => vpnOf page.vAddr := by
    intro space
    rw [← map_append, mem_map]
    rfl
  rw [inSegment, inSegment, vpns, forked.text_eq]

theorem Tidy.child_base (tidy : Tidy fixed w)
    (forked : Forked fixed w.space child w.mem mem' tables' mmapPages)
    (inRegions : child.InRegions va) : baseView fixed (vpnOf va) = none := by
  rcases inRegions with inElf | inBrk | inMmap
  · obtain ⟨page, pageMem, same⟩ := forked.inElf_iff.1 inElf
    exact same ▸ tidy.unreserved page pageMem
  · unfold InBrkRegion brkVirtBegin mmapVirtBegin at inBrk
    refine baseView_free ?_
    unfold vpnOf
    omega
  · obtain ⟨lower, upper⟩ := (inMmapRegion_iff va).1 inMmap
    exact baseView_free (by omega)

section

variable (core : Core board fixed w tables bound later)
include core

variable (forked : Forked fixed w.space child w.mem mem' tables' mmapPages)
include forked

theorem Core.forkedPages_aligned {page : Nat} (pageMem : page ∈ child.forkedPages mmapPages) :
    page % 4096 = 0 ∧ page < 2 ^ 64 := by
  refine core.ledger.fresh.aligned page ?_
  rcases mem_append.1 pageMem with isText | isNew
  · rw [forked.text_eq] at isText
    simp [AddressSpace.pages, isText]
  · have taken : page ∈ w.mem.memoryPool := by
      refine forked.grown.pool.mem_iff.2 ?_
      simp only [mem_append, mem_cons] at isNew ⊢
      tauto
    simp [taken]

omit forked in
theorem Core.child_confined (tidy : Tidy fixed w)
    (forked : Forked fixed w.space child w.mem mem' tables' mmapPages) :
    Confined mem'.bytes child.party tables' (child.forkedPages mmapPages) := by
  refine ⟨⟨_, forked.ready.space⟩, fun va pa attributes inRegions target => ?_⟩
  have target : translate mem'.bytes child.pageTable va = some (pa, attributes) := target
  rw [forked.ready.space.translate_eq, bindAll_eq, tidy.child_base forked inRegions,
    Option.none_or] at target
  generalize binds_eq : w.space.elf.text.binds ++ (child.elf.data.binds ++ (child.brk.binds ++
    (w.space.mmap.memKeeper.map MmapUnit.mappedTo).zip mmapPages)) = binds at target
  cases found : binds.find? (fun bind => vpnOf bind.1 = vpnOf va) with
  | none =>
    rw [found] at target
    cases target
  | some bind =>
    have pageMem : bind.2 ∈ child.forkedPages mmapPages := by
      have bindMem := mem_of_find?_eq_some found
      rw [← binds_eq] at bindMem
      simp only [AddressSpace.forkedPages, ElfSegment.mAddrs, mem_append] at bindMem ⊢
      rcases bindMem with isText | isData | isBrk | isMmap
      · obtain ⟨page, pageMem, rfl⟩ := mem_map.1 isText
        exact .inl (forked.text_eq ▸ mem_map_of_mem pageMem)
      · obtain ⟨page, pageMem, rfl⟩ := mem_map.1 isData
        exact .inr (.inl (mem_map_of_mem pageMem))
      · obtain ⟨⟨page, i⟩, pageMem, rfl⟩ := mem_map.1 isBrk
        exact .inr (.inr (.inl (mem_of_getElem? (mk_mem_zipIdx_iff_getElem?.1 pageMem))))
      · exact .inr (.inr (.inr (of_mem_zip isMmap).2))
    have aligned := core.forkedPages_aligned forked pageMem
    rw [found, Option.map_some, Option.bind_some] at target
    cases target.symm.trans (leafTarget_small va .user aligned.1 aligned.2)
    rw [pageOf_add_mod aligned.1]
    exact pageMem

theorem Core.translate_of_forked (va : Nat) :
    translate mem'.bytes w.space.pageTable va = translate w.mem.bytes w.space.pageTable va := by
  rw [(core.of_forked_parent forked).table.translate_eq, core.table.translate_eq]

omit forked in
theorem Core.parent_confined (tidy : Tidy fixed w)
    (counted : w.space.brk.pageCount ≤ w.space.brk.memKeeper.length) (noText : ¬ TextMapped w)
    (forked : Forked fixed w.space child w.mem mem' tables' mmapPages) :
    Confined mem'.bytes w.space.party tables w.space.ownPages := by
  refine ⟨⟨_, (core.of_forked_parent forked).table⟩, fun va pa attributes inRegions target => ?_⟩
  have target : translate mem'.bytes w.space.pageTable va = some (pa, attributes) := target
  rw [core.translate_of_forked forked] at target
  exact core.reach tidy counted noText inRegions target

theorem Core.family_count (page : Nat) :
    tables.count page + tables'.count page + w.space.ownPages.count page +
      (child.forkedPages mmapPages).count page ≤ 1 := by
  have once := nodup_iff_count_le_one.1 core.ledger.nodup page
  have taken := forked.grown.pool.count_eq page
  simp only [AddressSpace.pages, AddressSpace.ownPages, AddressSpace.forkedPages, forked.text_eq,
    count_append, count_cons] at once taken ⊢
  omega

end

def familyTables (tables tables' : List Nat) : Bool → List Nat
  | false => tables
  | true => tables'

def familyPages (parent child : AddressSpace) (mmapPages : List Nat) : Bool → List Nat
  | false => parent.ownPages
  | true => child.forkedPages mmapPages

theorem Core.family_apart (core : Core board fixed w tables bound later)
    (forked : Forked fixed w.space child w.mem mem' tables' mmapPages) :
    (∀ who other, ∀ page ∈ familyPages w.space child mmapPages who,
        page ∉ familyTables tables tables' other) ∧
      ∀ who, ∀ page ∈ familyPages w.space child mmapPages who,
        page ∉ familyPages w.space child mmapPages !who := by
  have counts := core.family_count forked
  refine ⟨fun who other page pageMem tableMem => ?_, fun who page pageMem pageMem' => ?_⟩
  · have once := counts page
    have inPages := count_pos_iff.2 pageMem
    have inTables := count_pos_iff.2 tableMem
    cases who <;> cases other <;> simp only [familyPages, familyTables] at inPages inTables <;> omega
  · have once := counts page
    have inPages := count_pos_iff.2 pageMem
    have inOthers := count_pos_iff.2 pageMem'
    cases who <;>
      simp only [familyPages, Bool.not_false, Bool.not_true] at inPages inOthers <;> omega

theorem Core.shared_of_textMapped (core : Core board fixed w tables bound later)
    (tidy : Tidy fixed w) (textMapped : TextMapped w)
    (forked : Forked fixed w.space child w.mem mem' tables' mmapPages) :
    ∃ va pa, w.space.InRegions va ∧ child.InRegions va ∧ pageOf pa ∈ child.elf.text.mAddrs ∧
      translate mem'.bytes w.space.pageTable va = some (pa, leafAttributes .user) ∧
      translate mem'.bytes child.pageTable va = some (pa, leafAttributes .user) := by
  obtain ⟨page, pageMem, pa, attributes, target, page_eq⟩ := textMapped
  have inElf : w.space.InElf page.vAddr := ⟨page, mem_append_left _ pageMem, rfl⟩
  have inElf' : child.InElf page.vAddr := forked.inElf_iff.2 inElf
  obtain ⟨marked, found, target_eq, aligned⟩ := core.translate_inElf tidy inElf
  cases target.symm.trans target_eq
  rw [pageOf_add_mod aligned] at page_eq
  have textMem : page.mAddr ∈ w.space.elf.text.mAddrs := mem_map_of_mem pageMem
  -- the first page bound there is the text page, so it is bound as text
  have isText : marked.1 = false := by
    by_contra isData
    have dataMem : marked.2.mAddr ∈ w.space.elf.data.mAddrs := by
      refine mem_map_of_mem ?_
      rw [core.elf_eq]
      exact mem_map.2 ⟨marked, mem_filter.2
        ⟨mem_of_find?_eq_some found, by simpa using isData⟩, rfl⟩
    have once := nodup_iff_count_le_one.1 core.ledger.nodup page.mAddr
    rw [page_eq] at dataMem
    have inText := count_pos_iff.2 textMem
    have inData := count_pos_iff.2 dataMem
    simp only [AddressSpace.pages, count_append, count_cons] at once
    omega
  have found' : w.space.elf.text.binds.find? (fun bind => vpnOf bind.1 = vpnOf page.vAddr) =
      some (marked.2.vAddr, marked.2.mAddr) := by
    rw [core.elf_eq, ElfSegment.binds, textOf, List.map_map, List.find?_map]
    exact congrArg _ (find?_filter_of_find? found (by simp [isText]))
  refine ⟨page.vAddr, _, .inl inElf, .inl inElf', ?_,
    (core.translate_of_forked forked _).trans target_eq, ?_⟩
  · rw [pageOf_add_mod aligned, page_eq, forked.text_eq]
    exact textMem
  · refine translate_of_leaf forked.ready.space ?_ ?_
    · rw [bindAll_eq, tidy.child_base forked (.inl inElf'), Option.none_or, List.find?_append, found']
      rfl
    · refine core.forkedPages_aligned forked (mem_append_left _ ?_)
      rw [page_eq, forked.text_eq]
      exact textMem

theorem Core.not_isolated_of_textMapped (core : Core board fixed w tables bound later)
    (tidy : Tidy fixed w) (textMapped : TextMapped w)
    (forked : Forked fixed w.space child w.mem mem' tables' mmapPages) :
    ¬ NonInterfering (family w.space child) mem'.bytes ∧
      ¬ SharedReadOnly (family w.space child) mem'.bytes := by
  obtain ⟨va, pa, inRegions, inRegions', inText, target, target'⟩ :=
    core.shared_of_textMapped tidy textMapped forked
  constructor
  · have notTable : pageOf pa ∉ tables' :=
      (core.family_apart forked).1 true true _ (mem_append_left _ inText)
    exact @not_nonInterfering_of_shared (family w.space child) _ va pa _ _ inRegions inRegions'
      target ⟨by decide, by decide⟩ target'
      fun byte => ((core.child_confined tidy forked).translate_update notTable va).trans target'
  · intro readOnly
    have cleared := (readOnly va va pa pa _ _ inRegions inRegions' target target' rfl).1
    exact absurd cleared (by decide)

theorem Core.tidy_of_new (core : Core board fixed w tables bound [])
    (noUnits : w.space.mmap.memKeeper = [])
    (counted : w.space.brk.pageCount ≤ w.space.brk.memKeeper.length)
    (unreserved : ∀ page ∈ w.space.elf.text ++ w.space.elf.data,
      baseView fixed (vpnOf page.vAddr) = none) : Tidy fixed w := by
  refine ⟨unreserved, fun va pa attributes inMmap notElf target => ?_⟩
  have clean := core.forkClean_of_new noUnits counted
  exact absurd (clean.noLeftover va inMmap (by rw [target]; rfl)) notElf

end Child

section Isolation

variable {board : Board} {fixed : FixedPages} {file : ElfFile} {stackImage : List UInt8}
  {space : AddressSpace} {mem mem' : PhysMemory} {others : List Nat} {acts : List Act} {w : World}

theorem core_of_run (pool : PoolOf board fixed (others ++ mem.memoryPool))
    (fits : stackImage.length ≤ 4016)
    (created : createSpace fixed file stackImage mem = .ok (space, mem'))
    (run : Run (AllowedStep fixed) ⟨mem', space, others⟩ acts w) :
    ∃ tables bound later, Core board fixed w tables bound later := by
  induction run with
  | nil =>
    obtain ⟨tables, bound, made⟩ := pool.created fits created
    exact ⟨tables, bound, [], Core.of_created made pool⟩
  | snoc _ step ih =>
    obtain ⟨tables, bound, later, core⟩ := ih
    obtain ⟨tables', bound', later', core', _⟩ := core.step step.1 step.2
    exact ⟨tables', bound', later', core'⟩

/-- In every allowed run, a tidy process and its child are isolated exactly if
no text page is in use. -/
theorem isolated_iff_of_run (pool : PoolOf board fixed (others ++ mem.memoryPool))
    (fits : stackImage.length ≤ 4016)
    (created : createSpace fixed file stackImage mem = .ok (space, mem'))
    (run : Run (AllowedStep fixed) ⟨mem', space, others⟩ acts w) (tidy : Tidy fixed w)
    {child : AddressSpace} {mem'' : PhysMemory}
    (forked : w.space.fork fixed w.mem = .ok (child, mem'')) :
    (NonInterfering (family w.space child) mem''.bytes ↔ ¬ TextMapped w) ∧
      (SharedReadOnly (family w.space child) mem''.bytes ↔ ¬ TextMapped w) := by
  obtain ⟨tables, bound, later, core⟩ := core_of_run pool fits created run
  have counted := core.counted_of_fork forked
  obtain ⟨tables', mmapPages, made⟩ := (core.fork_returns counted).1.result forked
  have childConfined := core.child_confined tidy made
  obtain ⟨apart, disjoint⟩ := core.family_apart made
  have confined : ¬ TextMapped w → ∀ who, Confined mem''.bytes (family w.space child who)
      (familyTables tables tables' who) (familyPages w.space child mmapPages who) := by
    intro noText who
    cases who with
    | false => exact core.parent_confined tidy counted noText made
    | true => exact childConfined
  refine ⟨⟨fun nonInterfering textMapped => ?_, fun noText => ?_⟩,
    ⟨fun readOnly textMapped => ?_, fun noText => ?_⟩⟩
  · exact (core.not_isolated_of_textMapped tidy textMapped made).1 nonInterfering
  · exact nonInterfering_of_confined (confined noText) apart disjoint
  · exact (core.not_isolated_of_textMapped tidy textMapped made).2 readOnly
  · exact sharedReadOnly_of_confined (confined noText) disjoint

end Isolation

section Samples

def ElfFile.Unreserved (fixed : FixedPages) (file : ElfFile) : Prop :=
  ∀ load ∈ file.loads, baseView fixed (vpnOf load.vAddr) = none

theorem Created.tidy {board : Board} {fixed : FixedPages} {file : ElfFile} {space : AddressSpace}
    {mem mem' : PhysMemory} {tables others : List Nat} {bound : List (Bool × ElfPage)}
    (created : Created fixed file space mem mem' tables bound)
    (core : Core board fixed ⟨mem', space, others⟩ tables bound [])
    (unreserved : file.Unreserved fixed) : Tidy fixed ⟨mem', space, others⟩ := by
  refine core.tidy_of_new ?_ ?_ fun page pageMem => ?_
  · dsimp only
    rw [created.mmap_eq]
    rfl
  · dsimp only
    rw [created.brk_eq]
    exact le_rfl
  · dsimp only at pageMem
    rw [created.elf_eq] at pageMem
    obtain ⟨marked, markedMem, rfl⟩ := mem_map.1 ((perm_textOf_dataOf bound).mem_iff.2 pageMem)
    have flagMem : (marked.1, marked.2.vAddr) ∈ file.loads.map fun load => (load.writable, load.vAddr) := by
      rw [← created.flags_eq]
      exact mem_map.2 ⟨marked, markedMem, rfl⟩
    obtain ⟨load, loadMem, same⟩ := mem_map.1 flagMem
    rw [Prod.mk.injEq] at same
    exact same.2 ▸ unreserved load loadMem

def writableFile : ElfFile where
  phdrs := [⟨1, 7, 0x10000, 0, 0x100, 0x1200⟩]
  content _ := 0

theorem isolated_of_writableFile : ∃ space mem' child mem'',
    createSpace sampleFixed writableFile [] sampleMemory = .ok (space, mem') ∧
      space.fork sampleFixed mem' = .ok (child, mem'') ∧
      NonInterfering (family space child) mem''.bytes ∧
      SharedReadOnly (family space child) mem''.bytes := by
  have tested : passes (createSpace sampleFixed writableFile [] sampleMemory) (fun result =>
      result.1.elf.text.isEmpty && passes (result.1.fork sampleFixed result.2) fun _ => true) := by
    decide +kernel
  obtain ⟨⟨space, mem'⟩, created, tested⟩ := passes_iff.1 tested
  obtain ⟨noText, tested⟩ := Bool.and_eq_true_iff.1 tested
  obtain ⟨⟨child, mem''⟩, forked, _⟩ := passes_iff.1 tested
  obtain ⟨tables, bound, made⟩ := samplePool.created (by decide) created
  have unreserved : writableFile.Unreserved sampleFixed := by
    unfold ElfFile.Unreserved
    decide +kernel
  have tidy := made.tidy (Core.of_created made samplePool) unreserved
  have unused : ¬ TextMapped ⟨mem', space, []⟩ := by
    rintro ⟨page, pageMem, _⟩
    dsimp only at pageMem
    rw [List.isEmpty_iff.1 noText] at pageMem
    cases pageMem
  obtain ⟨nonInterfering, readOnly⟩ :=
    isolated_iff_of_run samplePool (by decide) created .nil tidy forked
  exact ⟨space, mem', child, mem'', created, forked, nonInterfering.2 unused, readOnly.2 unused⟩

theorem not_isolated_of_text : ∃ space mem' child mem'',
    createSpace sampleFixed sampleFile [] sampleMemory = .ok (space, mem') ∧
      space.fork sampleFixed mem' = .ok (child, mem'') ∧
      ¬ NonInterfering (family space child) mem''.bytes ∧
      ¬ SharedReadOnly (family space child) mem''.bytes := by
  have tested : passes (createSpace sampleFixed sampleFile [] sampleMemory) (fun result =>
      (result.1.elf.text.any fun page =>
        (translate result.2.bytes result.1.pageTable page.vAddr).any fun target =>
          pageOf target.1 == page.mAddr) &&
      passes (result.1.fork sampleFixed result.2) fun _ => true) := by
    decide +kernel
  obtain ⟨⟨space, mem'⟩, created, tested⟩ := passes_iff.1 tested
  obtain ⟨inUse, tested⟩ := Bool.and_eq_true_iff.1 tested
  obtain ⟨⟨child, mem''⟩, forked, _⟩ := passes_iff.1 tested
  obtain ⟨tables, bound, made⟩ := samplePool.created (by decide) created
  have core := Core.of_created made samplePool
  have unreserved : sampleFile.Unreserved sampleFixed := by
    unfold ElfFile.Unreserved
    decide +kernel
  have textMapped : TextMapped ⟨mem', space, []⟩ := by
    obtain ⟨page, pageMem, inUse⟩ := any_eq_true.1 inUse
    obtain ⟨target, target_eq, same⟩ := (Option.any_eq_true _ _).1 inUse
    exact ⟨page, pageMem, target.1, target.2, target_eq, by simpa using same⟩
  obtain ⟨tables', mmapPages, copied⟩ :=
    (core.fork_returns (core.counted_of_fork forked)).1.result forked
  exact ⟨space, mem', child, mem'', created, forked,
    core.not_isolated_of_textMapped (made.tidy core unreserved) textMapped copied⟩

end Samples

end SysCore.Process
