import SysCore.Process.ManagerSpecs

/-!
# New address spaces

The two ways an address space comes into being.  `createSpace` binds the pages
of a file and a stack.  A fork is built from the copy constructors of the
managers: the pages of the data segment, the heap and the file mappings are
copied into new pages, the text pages are mapped again, and the pages of the
parent keep their contents.
-/

namespace SysCore.Process

open Memory Transition Paging Function List

def SamePage (mem mem' : PhysMemory) (page page' : Nat) : Prop :=
  ∀ k < 4096, mem'.bytes (page' + k) = mem.bytes (page + k)

section Held

variable {mem mem' : PhysMemory} {root : Nat} {view : Nat → Option (Nat × Nat)}
  {tables pages news : List Nat} {page : Nat}

theorem samePage_of_new (held : Held mem [] page) (fresh : Fresh [] mem.memoryPool)
    (grown : Grown mem mem' [] pages news) : SamePage mem mem' page page :=
  fun _ => grown.keeps fresh nofun held

theorem samePage_of_held (held : Held mem tables page) (ready : Ready mem root view tables)
    (grown : Grown mem mem' tables pages news) : SamePage mem mem' page page :=
  fun _ => ready.keeps grown held

theorem SamePage.trans {mem'' : PhysMemory} {page' page'' : Nat} (first : SamePage mem mem' page page')
    (second : SamePage mem' mem'' page' page'') : SamePage mem mem'' page page'' :=
  fun k k_lt => (second k k_lt).trans (first k k_lt)

theorem samePage_keep {before : PhysMemory} (held : Held mem tables page) (same : SamePage before mem page page)
    (ready : Ready mem root view tables) (grown : Grown mem mem' tables pages news) :
    Held mem' (news ++ tables) page ∧ SamePage before mem' page page :=
  ⟨held.later grown, same.trans (samePage_of_held held ready grown)⟩

end Held

section Copy

variable {mem : PhysMemory} {root : Nat} {view : Nat → Option (Nat × Nat)} {tables : List Nat}

theorem stable_copyOf {source : Nat} (held : Held mem tables source) :
    Stable mem tables (copyOf source) := by
  intro bytes agree
  unfold copyOf
  congr 1
  funext k
  split
  next k_lt => exact agree source held k k_lt
  · rfl

def copyRequests (sources : List (Nat × Nat)) : List PageRequest :=
  sources.map fun source => ⟨source.1, copyOf source.2⟩

theorem mapPages_copies (ready : Ready mem root view tables) (sources : List (Nat × Nat)) :
    Returns ((∀ source ∈ sources, Mappable view source.1) ∧
        3 * sources.length ≤ mem.memoryPool.length) (mapPages root (copyRequests sources) mem)
      fun result => result.1.length = sources.length ∧
        (∃ news, Extended mem result.2 root view tables ((sources.map Prod.fst).zip result.1)
          result.1 news) ∧
        ∀ page page', (page, page') ∈ (sources.map Prod.snd).zip result.1 → Held mem tables page →
          SamePage mem result.2 page page' := by
  have readable : ∀ request ∈ copyRequests sources, ∀ bytes, request.fill bytes ≠ .unreadable := by
    intro request requestMem bytes
    obtain ⟨source, _, rfl⟩ := mem_map.1 requestMem
    exact nofun
  have spec := mapPages_returns ready (copyRequests sources) readable
  refine ⟨spec.1.returned.mono ?_, fun enough => spec.2 ⟨?_, ?_⟩⟩
  · rintro ⟨pages, mem'⟩ ⟨done, length_eq, news, extended⟩
    rw [copyRequests, length_map] at length_eq
    refine ⟨length_eq, ⟨news, ?_⟩, fun page page' pairMem held k k_lt => ?_⟩
    · simpa [copyRequests, List.map_map, comp_def] using extended
    · rw [zip_map_left] at pairMem
      obtain ⟨⟨source, answer⟩, asked, ⟨⟩⟩ := mem_map.1 pairMem
      dsimp only [id]
      have pairMem' : ((⟨source.1, copyOf source.2⟩ : PageRequest), answer) ∈
          (copyRequests sources).zip pages := by
        rw [copyRequests, zip_map_left]
        exact mem_map.2 ⟨(source, answer), asked, rfl⟩
      rw [mapPages_contents ready readable done pairMem' (stable_copyOf held) rfl k_lt, if_pos k_lt]
  · intro request requestMem
    obtain ⟨source, sourceMem, rfl⟩ := mem_map.1 requestMem
    exact enough.1 source sourceMem
  · rw [copyRequests, length_map]
    exact enough.2

namespace ElfSegment

theorem zipWith_pages {other : ElfSegment} {pages : List Nat} (length_eq : pages.length = other.length) :
    (List.zipWith (fun page mAddr => (⟨page.vAddr, mAddr⟩ : ElfPage)) other pages).map ElfPage.vAddr =
        other.map ElfPage.vAddr ∧
      mAddrs (List.zipWith (fun page mAddr => ⟨page.vAddr, mAddr⟩) other pages) = pages ∧
      binds (List.zipWith (fun page mAddr => ⟨page.vAddr, mAddr⟩) other pages) =
        (other.map ElfPage.vAddr).zip pages := by
  refine ⟨?_, ?_, ?_⟩ <;> apply ext_getElem <;> simp [mAddrs, binds, length_eq]

theorem copy_returns (ready : Ready mem root view tables) (other : ElfSegment) :
    Returns ((∀ page ∈ other, Mappable view page.vAddr) ∧
        3 * other.length ≤ mem.memoryPool.length) (other.copy root mem) fun result =>
      result.1.map ElfPage.vAddr = other.map ElfPage.vAddr ∧
        (∃ news, Extended mem result.2 root view tables result.1.binds result.1.mAddrs news) ∧
        ∀ page page', (page, page') ∈ other.mAddrs.zip result.1.mAddrs → Held mem tables page →
          SamePage mem result.2 page page' := by
  have requests_eq : (other.map fun page => (⟨page.vAddr, copyOf page.mAddr⟩ : PageRequest)) =
      copyRequests other.binds := by
    simp [copyRequests, binds, List.map_map, comp_def]
  have addresses_eq : other.binds.map Prod.fst = other.map ElfPage.vAddr := by
    simp [binds, List.map_map, comp_def]
  have pages_eq : other.binds.map Prod.snd = other.mAddrs := by
    simp [binds, mAddrs, List.map_map, comp_def]
  rw [copy, requests_eq]
  refine ((mapPages_copies ready other.binds).mono ?_ fun _ => id).bind ?_
  · rintro ⟨mappable, enough⟩
    refine ⟨fun source sourceMem => ?_, by simpa [binds] using enough⟩
    obtain ⟨page, pageMem, rfl⟩ := mem_map.1 sourceMem
    exact mappable page pageMem
  rintro ⟨pages, mem'⟩ ⟨length_eq, ⟨news, extended⟩, contents⟩
  rw [binds, length_map] at length_eq
  obtain ⟨vAddrs_eq, mAddrs_eq, binds_eq⟩ := zipWith_pages length_eq
  refine .of_ok ⟨vAddrs_eq, ⟨news, ?_⟩, ?_⟩
  · rw [binds_eq, mAddrs_eq, ← addresses_eq]
    exact extended
  · rw [mAddrs_eq, ← pages_eq]
    exact contents

end ElfSegment

namespace BrkControl

theorem copy_returns (ready : Ready mem root view tables) (other : BrkControl)
    (counted : other.pageCount ≤ other.memKeeper.length) :
    Returns ((∀ i < other.pageCount, Mappable view (brkAddress i)) ∧
        3 * other.pageCount ≤ mem.memoryPool.length) (other.copy root mem) fun result =>
      result.1.pageTable = root ∧ result.1.brkInit = other.brkInit ∧
        result.1.pageCount = (if other.brkInit then other.pageCount else 0) ∧
        result.1.memKeeper.length = result.1.pageCount ∧
        (∃ news, Extended mem result.2 root view tables result.1.binds result.1.memKeeper news) ∧
        ∀ page page', (page, page') ∈ (other.memKeeper.take other.pageCount).zip result.1.memKeeper →
          Held mem tables page → SamePage mem result.2 page page' := by
  unfold copy
  split
  case isFalse notStarted =>
    refine .of_ok ⟨rfl, ?_, ?_, rfl, ⟨[], .refl ready⟩, ?_⟩
    · simpa [init] using notStarted
    · simp [init]
    · simp [init]
  case isTrue started =>
    obtain ⟨sources, sources_eq⟩ : ∃ sources, sources =
        (other.memKeeper.take other.pageCount).zipIdx.map fun entry => (brkAddress entry.2, entry.1) :=
      ⟨_, rfl⟩
    have requests_eq : other.copies = copyRequests sources := by
      simp [copies, copyRequests, sources_eq, List.map_map, comp_def]
    have sources_length : sources.length = other.pageCount := by
      simp [sources_eq, counted]
    rw [requests_eq]
    refine ((mapPages_copies ready sources).mono ?_ fun _ => id).bind ?_
    · rintro ⟨mappable, enough⟩
      refine ⟨fun source sourceMem => ?_, by rwa [sources_length]⟩
      rw [sources_eq] at sourceMem
      obtain ⟨⟨page, i⟩, pageMem, rfl⟩ := mem_map.1 sourceMem
      have i_lt := (List.getElem?_eq_some_iff.1 (mk_mem_zipIdx_iff_getElem?.1 pageMem)).1
      rw [length_take] at i_lt
      exact mappable i (by omega)
    rintro ⟨pages, mem'⟩ ⟨length_eq, ⟨news, extended⟩, contents⟩
    rw [sources_length] at length_eq
    dsimp only
    rw [if_neg (Nat.not_lt.2 counted)]
    refine .of_ok ⟨rfl, started.symm, rfl, length_eq, ⟨news, ?_⟩, ?_⟩
    · have addresses_eq : sources.map Prod.fst =
          (List.range other.pageCount).map fun (i : Nat) => brkAddress i := by
        rw [sources_eq]
        apply ext_getElem <;> simp [counted]
      have binds_eq := zip_map_range (fun (i : Nat) => brkAddress i) length_eq
      rw [addresses_eq, binds_eq] at extended
      exact extended
    · have pages_eq : sources.map Prod.snd = other.memKeeper.take other.pageCount := by
        rw [sources_eq]
        apply ext_getElem <;> simp
      rw [← pages_eq]
      exact contents

end BrkControl

theorem copyFrom_of_window {root source : Nat} (window : InIdentityWindow source) :
    copyFrom root source = copyOf source :=
  funext fun _ => if_pos window

namespace MmapControl

theorem copy_returns (ready : Ready mem root view tables) (other : MmapControl)
    (genuine : ∀ unit ∈ other.memKeeper, InIdentityWindow unit.sourceAddr) :
    Returns ((∀ unit ∈ other.memKeeper, Mappable view unit.mappedTo) ∧
        3 * other.memKeeper.length ≤ mem.memoryPool.length) (other.copy root mem) fun result =>
      ∃ pages, pages.length = other.memKeeper.length ∧
        result.1 = ⟨List.zipWith (fun unit page => ⟨page, unit.mappedTo⟩) other.memKeeper pages, root,
          other.mmapStart⟩ ∧
        ∃ news, Extended mem result.2 root view tables
          ((other.memKeeper.map MmapUnit.mappedTo).zip pages) pages news := by
  have requests_eq : (other.memKeeper.map fun unit =>
      (⟨unit.mappedTo, copyFrom other.pageTable unit.sourceAddr⟩ : PageRequest)) =
      copyRequests (unitBinds other.memKeeper) := by
    rw [copyRequests, unitBinds, List.map_map]
    refine map_congr_left fun unit unitMem => ?_
    simp [copyFrom_of_window (genuine unit unitMem)]
  have addresses_eq : (unitBinds other.memKeeper).map Prod.fst =
      other.memKeeper.map MmapUnit.mappedTo := by
    simp [unitBinds, List.map_map, comp_def]
  rw [copy, requests_eq]
  refine ((mapPages_copies ready (unitBinds other.memKeeper)).mono ?_ fun _ => id).bind ?_
  · rintro ⟨mappable, enough⟩
    refine ⟨fun source sourceMem => ?_, by simpa [unitBinds] using enough⟩
    obtain ⟨unit, unitMem, rfl⟩ := mem_map.1 sourceMem
    exact mappable unit unitMem
  rintro ⟨pages, mem'⟩ ⟨length_eq, extended, _⟩
  rw [unitBinds, length_map] at length_eq
  rw [addresses_eq] at extended
  exact .of_ok ⟨pages, length_eq, rfl, extended⟩

end MmapControl

end Copy

structure Forked (fixed : FixedPages) (parent child : AddressSpace) (mem mem' : PhysMemory)
    (tables mmapPages : List Nat) : Prop where
  ready : Ready mem' child.pageTable (bindAll (baseView fixed) (parent.elf.text.binds ++
    (child.elf.data.binds ++ (child.brk.binds ++
      (parent.mmap.memKeeper.map MmapUnit.mappedTo).zip mmapPages)))) tables
  grown : Grown mem mem' [] (child.stack :: (child.elf.data.mAddrs ++
    (child.brk.memKeeper ++ mmapPages))) tables
  mappable : ∀ bind ∈ parent.elf.text.binds ++ (child.elf.data.binds ++ (child.brk.binds ++
      (parent.mmap.memKeeper.map MmapUnit.mappedTo).zip mmapPages)),
    Mappable (baseView fixed) bind.1
  text_eq : child.elf.text = parent.elf.text
  vAddrs_eq : child.elf.data.map ElfPage.vAddr = parent.elf.data.map ElfPage.vAddr
  brkTable_eq : child.brk.pageTable = child.pageTable
  brkInit_eq : child.brk.brkInit = parent.brk.brkInit
  pageCount_eq : child.brk.pageCount = if parent.brk.brkInit then parent.brk.pageCount else 0
  brkLength_eq : child.brk.memKeeper.length = child.brk.pageCount
  mmap_eq : child.mmap = ⟨List.zipWith (fun unit page => ⟨page, unit.mappedTo⟩)
    parent.mmap.memKeeper mmapPages, child.pageTable, parent.mmap.mmapStart⟩
  mmapLength_eq : mmapPages.length = parent.mmap.memKeeper.length
  dataCopied : ∀ page page', (page, page') ∈ parent.elf.data.mAddrs.zip child.elf.data.mAddrs →
    Held mem [] page → SamePage mem mem' page page'
  brkCopied : ∀ page page',
    (page, page') ∈ (parent.brk.memKeeper.take parent.brk.pageCount).zip child.brk.memKeeper →
      Held mem [] page → SamePage mem mem' page page'

structure Forkable (fixed : FixedPages) (parent : AddressSpace) : Prop where
  text : ∀ page ∈ parent.elf.text, Mappable (baseView fixed) page.vAddr
  data : ∀ page ∈ parent.elf.data, Mappable (baseView fixed) page.vAddr
  brk : ∀ i < parent.brk.pageCount, Mappable (baseView fixed) (brkAddress i)
  mmap : ∀ unit ∈ parent.mmap.memKeeper, Mappable (baseView fixed) unit.mappedTo

def AddressSpace.forkPages (parent : AddressSpace) : Nat :=
  10 + 2 * parent.elf.text.length + 3 * parent.elf.data.length +
    3 * parent.brk.memKeeper.length + 3 * parent.mmap.memKeeper.length

section Fork

variable {mem : PhysMemory}

theorem allocFilled_returns (content : Bytes → Nat → UInt8) :
    Returns (1 ≤ mem.memoryPool.length) (do
      let (page, mem) ← mem.allocPage
      return (page, mem.fill page (content mem.bytes))) fun result =>
        Grown mem result.2 [] [result.1] [] := by
  cases pool_eq : mem.memoryPool with
  | nil =>
    rw [PhysMemory.allocPage, pool_eq]
    exact .of_panic (by simp)
  | cons page rest =>
    rw [PhysMemory.allocPage, pool_eq, ok_bind]
    refine .of_ok ⟨by rw [pool_eq]; rfl, fun a outside => ?_⟩
    exact fillPage_of_outside _ _ (outside page (by simp))

theorem AddressSpace.fork_eq (parent : AddressSpace) (fixed : FixedPages) :
    parent.fork fixed mem = ((do
      let (page, mem) ← mem.allocPage
      return (page, mem.fill page fun k => mem.bytes (parent.stack + k))) >>= fun first => do
        let (pageTable, mem) ← newPageTable first.2 fixed
        let mem ← parent.elf.text.registerPageTable pageTable mem
        let (data, mem) ← parent.elf.data.copy pageTable mem
        let (brk, mem) ← parent.brk.copy pageTable mem
        let (mmap, mem) ← parent.mmap.copy pageTable mem
        return (⟨first.1, pageTable, ⟨parent.elf.text, data⟩, brk, mmap⟩, mem)) := by
  unfold AddressSpace.fork
  cases mem.allocPage <;> rfl

theorem AddressSpace.fork_returns (parent : AddressSpace) (fixed : FixedPages)
    (fresh : Fresh [] mem.memoryPool)
    (textAligned : ∀ page ∈ parent.elf.text, page.mAddr % 4096 = 0 ∧ page.mAddr < 2 ^ 64)
    (counted : parent.brk.pageCount ≤ parent.brk.memKeeper.length)
    (genuine : ∀ unit ∈ parent.mmap.memKeeper, InIdentityWindow unit.sourceAddr) :
    Returns (Forkable fixed parent ∧ parent.forkPages ≤ mem.memoryPool.length)
      (parent.fork fixed mem) fun result =>
        ∃ tables mmapPages, Forked fixed parent result.1 mem result.2 tables mmapPages := by
  rw [parent.fork_eq]
  refine ((allocFilled_returns fun bytes k => bytes (parent.stack + k)).mono ?_ fun _ => id).bind ?_
  · rintro ⟨_, enough⟩
    unfold AddressSpace.forkPages at enough
    omega
  rintro ⟨stack, mem₁⟩ grown₁
  have length₁ := grown₁.pool.length_eq
  simp only [length_append, length_cons, length_nil] at length₁
  refine ((newPageTable_returns (grown₁.fresh fresh) fixed).mono ?_ fun _ => id).bind ?_
  · rintro ⟨_, enough⟩
    unfold AddressSpace.forkPages at enough
    dsimp only
    omega
  rintro ⟨pageTable, mem₂⟩ ⟨tables, ready₂, grown₂, used₂⟩
  dsimp only at grown₁ grown₂ ready₂ used₂ ⊢
  refine ((registerPages_returns ready₂ parent.elf.text.binds ?_).mono ?_ fun _ => id).bind ?_
  · intro bind bindMem
    obtain ⟨page, pageMem, rfl⟩ := mem_map.1 bindMem
    exact textAligned page pageMem
  · rintro ⟨forkable, enough⟩
    unfold AddressSpace.forkPages at enough
    refine ⟨fun bind bindMem => ?_, ?_⟩
    · obtain ⟨page, pageMem, rfl⟩ := mem_map.1 bindMem
      exact forkable.text page pageMem
    · rw [ElfSegment.binds, length_map]
      omega
  rintro mem₃ ⟨news₃, text₃⟩
  have cost₃ := text₃.cost
  rw [ElfSegment.binds, length_map, length_nil] at cost₃
  refine ((ElfSegment.copy_returns text₃.ready parent.elf.data).mono ?_ fun _ => id).bind ?_
  · rintro ⟨forkable, enough⟩
    unfold AddressSpace.forkPages at enough
    exact ⟨fun page pageMem => mappable_bindAll_iff.2 (forkable.data page pageMem), by omega⟩
  rintro ⟨data, mem₄⟩ ⟨vAddrs_eq, ⟨news₄, data₄⟩, dataCopied⟩
  have cost₄ := data₄.cost
  have data_length : data.length = parent.elf.data.length := by
    simpa using congrArg List.length vAddrs_eq
  rw [ElfSegment.binds, ElfSegment.mAddrs, length_map, length_map, data_length] at cost₄
  dsimp only at data₄ cost₄ dataCopied ⊢
  refine ((BrkControl.copy_returns data₄.ready parent.brk counted).mono ?_ fun _ => id).bind ?_
  · rintro ⟨forkable, enough⟩
    unfold AddressSpace.forkPages at enough
    refine ⟨fun i i_lt => mappable_bindAll_iff.2 (mappable_bindAll_iff.2 (forkable.brk i i_lt)), ?_⟩
    omega
  rintro ⟨brk, mem₅⟩ ⟨brkTable_eq, brkInit_eq, pageCount_eq, brkLength_eq, ⟨news₅, brk₅⟩, brkCopied⟩
  dsimp only at brkTable_eq brkInit_eq pageCount_eq brkLength_eq brk₅ brkCopied ⊢
  have cost₅ := brk₅.cost
  have count_le : brk.pageCount ≤ parent.brk.pageCount := by
    rw [pageCount_eq]
    split <;> omega
  rw [BrkControl.binds, length_map, length_zipIdx, brkLength_eq] at cost₅
  refine ((MmapControl.copy_returns brk₅.ready parent.mmap genuine).mono ?_ fun _ => id).bind ?_
  · rintro ⟨forkable, enough⟩
    unfold AddressSpace.forkPages at enough
    refine ⟨fun unit unitMem => mappable_bindAll_iff.2 (mappable_bindAll_iff.2
      (mappable_bindAll_iff.2 (forkable.mmap unit unitMem))), ?_⟩
    omega
  rintro ⟨mmap, mem₆⟩ ⟨mmapPages, mmapLength_eq, mmap_eq, news₆, mmap₆⟩
  dsimp only at mmap_eq mmap₆ ⊢
  -- the stages after the new table as one, and what each of them keeps
  have base : Grown mem mem₂ [] [stack] tables := by
    simpa using grown₁.onTop grown₂
  have lastTwo := brk₅.trans mmap₆
  have lastThree := data₄.trans lastTwo
  have all := text₃.trans lastThree
  have toText : ∀ page, Held mem [] page →
      Held mem₃ (news₃ ++ tables) page ∧ SamePage mem mem₃ page page := by
    intro page held
    have held₂ : Held mem₂ tables page := by
      simpa using held.later base
    exact samePage_keep held₂ (samePage_of_new held fresh base) ready₂ text₃.grown
  have toData : ∀ page, Held mem [] page →
      Held mem₄ (news₄ ++ (news₃ ++ tables)) page ∧ SamePage mem mem₄ page page := by
    intro page held
    obtain ⟨held₃, same₃⟩ := toText page held
    exact samePage_keep held₃ same₃ text₃.ready data₄.grown
  refine .of_ok ⟨_, mmapPages, all.ready, ?_, all.mappable, rfl, vAddrs_eq, brkTable_eq, brkInit_eq,
    pageCount_eq, brkLength_eq, mmap_eq, mmapLength_eq, ?_, ?_⟩
  · simpa using base.onTop all.grown
  · intro page page' pairMem held
    obtain ⟨held₃, same₃⟩ := toText page held
    have taken := data₄.grown.held text₃.ready.fresh (of_mem_zip pairMem).2
    have kept := samePage_of_held taken data₄.ready lastTwo.grown
    exact (same₃.trans (dataCopied page page' pairMem held₃)).trans kept
  · intro page page' pairMem held
    obtain ⟨held₄, same₄⟩ := toData page held
    have taken := brk₅.grown.held data₄.ready.fresh (of_mem_zip pairMem).2
    have kept := samePage_of_held taken brk₅.ready mmap₆.grown
    exact (same₄.trans (brkCopied page page' pairMem held₄)).trans kept

end Fork

structure Created (fixed : FixedPages) (file : ElfFile) (space : AddressSpace)
    (mem mem' : PhysMemory) (tables : List Nat) (bound : List (Bool × ElfPage)) : Prop where
  ready : Ready mem' space.pageTable
    (bindAll (baseView fixed) (ElfSegment.binds (bound.map Prod.snd))) tables
  grown : Grown mem mem' [] (ElfSegment.mAddrs (bound.map Prod.snd) ++ [space.stack]) tables
  mappable : ∀ bind ∈ ElfSegment.binds (bound.map Prod.snd), Mappable (baseView fixed) bind.1
  flags_eq : bound.map (fun page => (page.1, page.2.vAddr)) =
    file.loads.map (fun load => (load.writable, load.vAddr))
  elf_eq : space.elf = ⟨textOf bound, dataOf bound⟩
  brk_eq : space.brk = .init space.pageTable
  mmap_eq : space.mmap = .init space.pageTable

section Create

variable {mem : PhysMemory}

theorem storeBytes_of_outside (bytes : Bytes) {address a : Nat} {image : List UInt8}
    (outside : a < address ∨ address + image.length ≤ a) : storeBytes bytes address image a = bytes a := by
  unfold storeBytes
  split
  · rw [List.getElem?_eq_none (by omega), Option.getD_none]
  · rfl

theorem createSpace_holds (fixed : FixedPages) (file : ElfFile) {stackImage : List UInt8}
    (fits : stackImage.length ≤ 4016) (fresh : Fresh [] mem.memoryPool) :
    Holds (createSpace fixed file stackImage mem) fun result =>
      ∃ tables bound, Created fixed file result.1 mem result.2 tables bound := by
  rw [createSpace, holds_bind]
  refine (newPageTable_returns fresh fixed).1.mono ?_
  rintro ⟨pageTable, mem₁⟩ ⟨tables, ready₁, grown₁, _⟩
  dsimp only at ready₁ grown₁ ⊢
  rw [holds_bind]
  refine (loadElf_holds ready₁ file).mono ?_
  rintro ⟨elf, mem₂⟩ ⟨bound, news, flags_eq, elf_eq, extended⟩
  dsimp only at elf_eq extended ⊢
  rw [holds_bind, PhysMemory.getClearPage, PhysMemory.allocPage, holds_bind]
  cases pool_eq : mem₂.memoryPool with
  | nil => exact holds_panic _
  | cons stack rest =>
    obtain ⟨ready₃, grown₃⟩ := extended.ready.takePage pool_eq (storeBytes
      (fillPage mem₂.bytes stack fun _ => 0) (stack + 4096 - 80 - stackImage.length) stackImage) (by
        intro a outside
        rw [storeBytes_of_outside _ (by omega), fillPage_of_outside _ _ outside])
    rw [holds_ok, holds_pure, holds_pure]
    refine ⟨news ++ tables, bound, ready₃, ?_, extended.mappable, flags_eq, elf_eq, rfl, rfl⟩
    have all := grown₁.onTop extended.grown
    simpa using all.onTop grown₃

end Create

end SysCore.Process
