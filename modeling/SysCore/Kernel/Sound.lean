import SysCore.Kernel.State
import SysCore.Container.Shares
import SysCore.Sched.Satp

/-!
# The accounts of the page pool

`Books` says where every page of the pool region is: in the tables of some
address space, among the pages a space holds for itself, in a text segment, or
free, and never in two of these.  Pages that nobody will use again are left out.
The tables of a space stay what they are after its process has exited, because
no table is ever returned.

`Sound` puts the scheduler on top: every placed block has a space in the books
with its stack page, and `satp` names the table of a space whenever a process
runs.
-/

namespace SysCore.Kernel

open Memory Transition Paging Process Sched Function List
open Container

theorem rootOf_satpOf {root : Nat} (aligned : root % 4096 = 0) (small : root < 2 ^ 56) :
    rootOf (satpOf root) = root := by
  have number : root / 2 ^ 12 < 2 ^ 44 := by omega
  have satp_mod : satpOf root % 2 ^ 44 = root / 2 ^ 12 := by
    rw [satpOf, Nat.or_mod_two_pow, Nat.mod_eq_of_lt number]
    simp
  rw [rootOf, satp_mod]
  omega

def unitPage (unit : MmapUnit) : Nat :=
  if InIdentityWindow unit.sourceAddr then unit.sourceAddr else unit.mappedTo

def held (space : AddressSpace) : List Nat :=
  space.stack :: (space.elf.data.mAddrs ++
    (space.brk.memKeeper ++ space.mmap.memKeeper.map unitPage))

structure Shaped (space : AddressSpace) : Prop where
  brkTable_eq : space.brk.pageTable = space.pageTable
  mmapTable_eq : space.mmap.pageTable = space.pageTable
  startAligned : space.mmap.mmapStart % 4096 = 0
  unitsHigh : ∀ unit ∈ space.mmap.memKeeper, 0x1000 ≤ unit.mappedTo

structure Account where
  roots : List Nat
  keys : List Nat
  texts : List Nat
  tables : Nat → List Nat
  binds : Nat → List (Nat × Nat)

def Account.pages (account : Account) (spaces : Nat → AddressSpace) : List Nat :=
  shares account.roots account.tables ++
    (shares account.keys (fun key => held (spaces key)) ++
      shares account.texts fun text => (spaces text).elf.text.mAddrs)

def Account.add (account : Account) (key : Nat) (texts tables : List Nat)
    (binds : List (Nat × Nat)) : Account where
  roots := key :: account.roots
  keys := key :: account.keys
  texts := texts
  tables := Function.update account.tables key tables
  binds := Function.update account.binds key binds

structure Backed (stale : Nat → Prop) (fixed : FixedPages) (space : AddressSpace)
    (binds : List (Nat × Nat)) : Prop where
  owned : ∀ bind ∈ binds, bind.2 ∈ held space ∨ bind.2 ∈ space.elf.text.mAddrs ∨ stale bind.2
  mappable : ∀ page ∈ space.elf.text ++ space.elf.data, Mappable (baseView fixed) page.vAddr

def Account.Backed (stale : Nat → Prop) (fixed : FixedPages) (spaces : Nat → AddressSpace)
    (account : Account) : Prop :=
  ∀ key ∈ account.keys, Kernel.Backed stale fixed (spaces key) (account.binds key)

structure Books (board : Board) (fixed : FixedPages) (k : State) (account : Account) : Prop where
  table : ∀ key ∈ account.roots, Space k.mem.bytes (k.spaces key).pageTable
    (bindAll (baseView fixed) (account.binds key)) (account.tables key)
  ledger : PoolOf board fixed (account.pages k.spaces ++ k.mem.memoryPool)
  rootsNodup : account.roots.Nodup
  keysNodup : account.keys.Nodup
  textsNodup : account.texts.Nodup
  keysRoots : ∀ key ∈ account.keys, key ∈ account.roots
  textsRoots : ∀ text ∈ account.texts, text ∈ account.roots
  shaped : ∀ key ∈ account.keys, Shaped (k.spaces key)
  textMem : ∀ key ∈ account.keys, k.text key ∈ account.texts
  text_eq : ∀ key ∈ account.keys, (k.spaces key).elf.text = (k.spaces (k.text key)).elf.text
  textCount : ∀ text, (account.keys.map k.text).count text ≤ k.textRefs text

structure Sound (board : Board) (fixed : FixedPages) (k : State) (account : Account) : Prop extends
    Books board fixed k account where
  accounted : Accounted k.sched.toPlacement
  rootsOld : ∀ key ∈ account.roots, key < k.sched.nextPcb
  placedKey : ∀ ref ∈ k.sched.placed, (k.sched.pcb ref).managers ∈ account.keys
  placedStack : ∀ ref ∈ k.sched.placed, (k.sched.pcb ref).stack = (k.spaceOf ref).stack
  tagged : Tagged (fun key => satpOf (k.spaces key).pageTable) k.sched
  active : (∃ key ∈ account.roots, k.sched.runningContext.satp = satpOf (k.spaces key).pageTable) ∨
    (k.sched.running = none ∧ k.sched.blocked = [])

namespace Account.Backed

variable {stale : Nat → Prop} {fixed : FixedPages} {spaces : Nat → AddressSpace} {account : Account}
  {key : Nat} {space : AddressSpace}

variable (backed : account.Backed stale fixed spaces)
include backed

theorem mono {more : Nat → Prop}
    (sub : ∀ page, stale page → more page) : account.Backed more fixed spaces := fun key keyMem =>
  ⟨fun bind bindMem => ((backed key keyMem).owned bind bindMem).imp_right (Or.imp_right (sub _)),
    (backed key keyMem).mappable⟩

theorem grow {binds : List (Nat × Nat)} {tables : Nat → List Nat}
    (elf_eq : space.elf = (spaces key).elf)
    (kept : ∀ page ∈ held (spaces key), page ∈ held space ∨ stale page)
    (new : ∀ bind ∈ binds, bind.2 ∈ held space) :
    Account.Backed stale fixed (Function.update spaces key space)
      { account with
        tables := tables, binds := Function.update account.binds key (account.binds key ++ binds) } := by
  intro other otherMem
  by_cases same : other = key
  · subst same
    obtain ⟨owned, mappable⟩ := backed other otherMem
    simp only [update_self]
    refine ⟨fun bind bindMem => ?_, by rw [elf_eq]; exact mappable⟩
    rw [elf_eq]
    rcases mem_append.1 bindMem with isOld | isNew
    · rcases owned bind isOld with isHeld | isOther
      · exact (kept _ isHeld).imp_right .inr
      · exact .inr isOther
    · exact .inl (new bind isNew)
  · simp only [update_of_ne same]
    exact backed other otherMem

theorem add (new : key ∉ account.keys) {texts tables : List Nat}
    {binds : List (Nat × Nat)} (own : Kernel.Backed stale fixed space binds) :
    Account.Backed stale fixed (Function.update spaces key space) (account.add key texts tables binds) := by
  intro other otherMem
  rcases mem_cons.1 otherMem with rfl | otherMem
  · simpa [Account.add] using own
  · have different : other ≠ key := fun same => new (same ▸ otherMem)
    simp only [Account.add, update_of_ne different]
    exact backed other otherMem

theorem erase {texts : List Nat} :
    Account.Backed stale fixed spaces { account with keys := account.keys.erase key, texts := texts } :=
  fun other otherMem => backed other (mem_of_mem_erase otherMem)

end Account.Backed

namespace Books

variable {board : Board} {fixed : FixedPages} {k : State} {account : Account} {key page : Nat}
  {space : AddressSpace} {mem : PhysMemory}

theorem count_pages_update {account : Account} {spaces : Nat → AddressSpace}
    (distinct : account.keys.Nodup) (keyMem : key ∈ account.keys) (elf_eq : space.elf = (spaces key).elf)
    (page : Nat) :
    (account.pages (Function.update spaces key space)).count page + (held (spaces key)).count page =
      (account.pages spaces).count page + (held space).count page := by
  have texts_eq : (shares account.texts fun text => (Function.update spaces key space text).elf.text.mAddrs) =
      shares account.texts fun text => (spaces text).elf.text.mAddrs :=
    shares_congr fun text _ => by rw [field_update AddressSpace.elf elf_eq]
  have changed := count_shares_update (fun key => held (spaces key)) distinct keyMem
    (held space) page
  have moved : (fun key' => held (Function.update spaces key space key')) =
      Function.update (fun key' => held (spaces key')) key (held space) :=
    comp_update held spaces key space
  simp only [Account.pages, count_append, texts_eq, moved]
  omega

variable (books : Books board fixed k account)
include books

theorem tablesNodup : (shares account.roots account.tables).Nodup :=
  (nodup_append.1 (nodup_append.1 books.ledger.nodup).1).1

theorem table_not_free (keyMem : key ∈ account.roots) (pageMem : page ∈ account.tables key) :
    page ∉ k.mem.memoryPool := by
  intro isFree
  have isTable : page ∈ shares account.roots account.tables := mem_shares.2 ⟨key, keyMem, pageMem⟩
  exact (nodup_append.1 books.ledger.nodup).2.2 page (mem_append_left _ isTable) page isFree rfl

theorem held_apart (keyMem : key ∈ account.keys) (pageMem : page ∈ held (k.spaces key)) :
    page ∉ k.mem.memoryPool ∧ page ∉ shares account.roots account.tables := by
  have isHeld : page ∈ shares account.keys fun key => held (k.spaces key) :=
    mem_shares.2 ⟨key, keyMem, pageMem⟩
  obtain ⟨notFree, _, apart⟩ := nodup_append.1 books.ledger.nodup
  refine ⟨fun isFree => apart page (by simp [Account.pages, isHeld]) page isFree rfl, fun isTable => ?_⟩
  exact (nodup_append.1 notFree).2.2 page isTable page (mem_append_left _ isHeld) rfl

omit books in
theorem held_mem (_ : Books board fixed k account) (keyMem : key ∈ account.keys)
    (pageMem : page ∈ held (k.spaces key)) : page ∈ account.pages k.spaces :=
  mem_append_right _ (mem_append_left _ (mem_shares.2 ⟨key, keyMem, pageMem⟩))

theorem text_mem (keyMem : key ∈ account.keys) (pageMem : page ∈ (k.spaces key).elf.text.mAddrs) :
    page ∈ account.pages k.spaces := by
  rw [books.text_eq key keyMem] at pageMem
  exact mem_append_right _ (mem_append_right _
    (mem_shares.2 ⟨_, books.textMem key keyMem, pageMem⟩))

theorem not_free (pageMem : page ∈ account.pages k.spaces) :
    page ∉ k.mem.memoryPool := fun isFree =>
  (nodup_append.1 books.ledger.nodup).2.2 page pageMem page isFree rfl

theorem ready (keyMem : key ∈ account.roots) :
    Ready k.mem (k.spaces key).pageTable (bindAll (baseView fixed) (account.binds key))
      (account.tables key) := by
  have fresh := books.ledger.fresh
  refine ⟨books.table key keyMem, (nodup_append.1 fresh.nodup).2.1, ?_, ?_⟩
  · exact fun page pageMem => fresh.aligned page (mem_append_right _ pageMem)
  · exact fun page isFree isTable => books.table_not_free keyMem isTable isFree

theorem table_of_frame {key : Nat} (keyMem : key ∈ account.roots) {bytes : Bytes}
    {written : List Nat} (aligned : ∀ page ∈ written, page % 4096 = 0)
    (apart : ∀ page ∈ written, page ∉ account.tables key)
    (frame : ∀ a, Outside written a → bytes a = k.mem.bytes a) :
    Space bytes (k.spaces key).pageTable (bindAll (baseView fixed) (account.binds key))
      (account.tables key) := by
  have space := books.table key keyMem
  refine space.congr fun table tableMem a lower upper => frame a ?_
  exact outside_of_not_mem aligned (space.aligned tableMem).1 (fun isWritten => apart table isWritten tableMem)
    lower upper

theorem update {tables : Nat → List Nat} {binds : Nat → List (Nat × Nat)}
    (table : ∀ other ∈ account.roots, Space mem.bytes (Function.update k.spaces key space other).pageTable
      (bindAll (baseView fixed) (binds other)) (tables other))
    (ledger : PoolOf board fixed ({ account with tables := tables, binds := binds }.pages
      (Function.update k.spaces key space) ++ mem.memoryPool)) (elf_eq : space.elf = (k.spaces key).elf)
    (shaped : Shaped space) :
    Books board fixed { k with mem := mem, spaces := Function.update k.spaces key space }
      { account with tables := tables, binds := binds } := by
  refine ⟨table, ledger, books.rootsNodup, books.keysNodup, books.textsNodup, books.keysRoots,
    books.textsRoots, ?_, books.textMem, ?_, books.textCount⟩
  · intro other otherMem
    by_cases same : other = key
    · subst same
      simp only [update_self]
      exact shaped
    · simp only [update_of_ne same]
      exact books.shaped other otherMem
  · intro other otherMem
    simp only [field_update AddressSpace.elf elf_eq]
    exact books.text_eq other otherMem

theorem grow {key : Nat} (keyMem : key ∈ account.keys)
    {space : AddressSpace} {mem : PhysMemory} {binds : List (Nat × Nat)} {pages news : List Nat}
    (extended : Extended k.mem mem (k.spaces key).pageTable
      (bindAll (baseView fixed) (account.binds key)) (account.tables key) binds pages news)
    (perm : (held space).Perm (pages ++ held (k.spaces key)))
    (table_eq : space.pageTable = (k.spaces key).pageTable) (elf_eq : space.elf = (k.spaces key).elf)
    (shaped : Shaped space) :
    Books board fixed { k with mem := mem, spaces := Function.update k.spaces key space }
      { account with
        tables := Function.update account.tables key (news ++ account.tables key)
        binds := Function.update account.binds key (account.binds key ++ binds) } := by
  have rootMem := books.keysRoots key keyMem
  have drawn : ∀ page ∈ pages ++ news, page ∈ k.mem.memoryPool := by
    intro page pageMem
    refine extended.grown.pool.mem_iff.2 ?_
    simp only [mem_append] at pageMem ⊢
    tauto
  refine books.update ?_ ?_ elf_eq shaped
  · intro other otherMem
    by_cases same : other = key
    · subst same
      simp only [update_self]
      rw [bindAll_append, table_eq]
      exact extended.ready.space
    · simp only [update_of_ne same]
      have fresh := books.ledger.fresh
      refine @table_of_frame _ _ _ _ books _ otherMem _ (pages ++ (news ++ account.tables key)) ?_ ?_
        extended.grown.frame
      · intro page pageMem
        rw [← append_assoc, mem_append] at pageMem
        rcases pageMem with isNew | isTable
        · exact (fresh.aligned page (mem_append_right _ (drawn page isNew))).1
        · exact ((books.table key rootMem).aligned isTable).1
      · intro page pageMem
        rw [← append_assoc, mem_append] at pageMem
        rcases pageMem with isNew | isTable
        · exact fun isTable => books.table_not_free otherMem isTable (drawn page isNew)
        · exact not_mem_of_nodup_shares books.tablesNodup rootMem otherMem same isTable
  · refine books.ledger.perm (perm_iff_count.2 fun page => ?_)
    have tables := count_shares_update account.tables books.rootsNodup rootMem
      (news ++ account.tables key) page
    have spaces := count_pages_update books.keysNodup keyMem elf_eq page
    have taken := extended.grown.pool.count_eq page
    have owned := perm.count_eq page
    simp only [Account.pages, count_append] at tables spaces taken owned ⊢
    omega

theorem withSched (sched : Scheduler Nat) (refs : Nat → Nat) :
    Books board fixed { k with sched := sched, refs := refs } account :=
  ⟨books.table, books.ledger, books.rootsNodup, books.keysNodup, books.textsNodup, books.keysRoots,
    books.textsRoots, books.shaped, books.textMem, books.text_eq, books.textCount⟩

theorem count_pages_add (new : key ∉ account.roots) (space : AddressSpace) (texts tables : List Nat)
    (binds : List (Nat × Nat)) (page : Nat) :
    ((account.add key texts tables binds).pages (Function.update k.spaces key space)).count page =
      tables.count page + (shares account.roots account.tables).count page +
        ((held space).count page + (shares account.keys fun key => held (k.spaces key)).count page) +
        (shares texts fun text => (Function.update k.spaces key space text).elf.text.mAddrs).count page := by
  have keysNew : key ∉ account.keys := fun keyMem => new (books.keysRoots key keyMem)
  have moved : (fun other => held (Function.update k.spaces key space other)) =
      Function.update (fun other => held (k.spaces other)) key (held space) :=
    comp_update held k.spaces key space
  simp only [Account.pages, Account.add, count_append, moved, count_shares_cons,
    update_self, shares_update_of_not_mem _ new, shares_update_of_not_mem _ keysNew]
  omega

theorem addSpace (new : k.sched.nextPcb ∉ account.roots) {pages tables texts : List Nat}
    {binds : List (Nat × Nat)} {text textRefs : Nat}
    (table : Space mem.bytes space.pageTable (bindAll (baseView fixed) binds) tables)
    (grown : Grown k.mem mem [] pages tables)
    (ledger : PoolOf board fixed ((account.add k.sched.nextPcb texts tables binds).pages
      (Function.update k.spaces k.sched.nextPcb space) ++ mem.memoryPool)) (textsNodup : texts.Nodup)
    (textsNew : ∀ other ∈ texts, other ∈ k.sched.nextPcb :: account.roots)
    (textsOld : ∀ other ∈ account.texts, other ∈ texts) (shaped : Shaped space) (textMem : text ∈ texts)
    (text_eq : space.elf.text = (Function.update k.spaces k.sched.nextPcb space text).elf.text)
    (enough : (account.keys.map k.text).count text < textRefs) :
    Books board fixed (k.addSpace space text textRefs mem)
      (account.add k.sched.nextPcb texts tables binds) := by
  have old : ∀ key ∈ account.roots, key ≠ k.sched.nextPcb := fun key keyMem same => new (same ▸ keyMem)
  refine ⟨?_, ledger, nodup_cons.2 ⟨new, books.rootsNodup⟩, ?_, textsNodup, ?_, textsNew, ?_, ?_, ?_, ?_⟩
  · intro key keyMem
    rcases mem_cons.1 keyMem with rfl | keyMem
    · simpa [State.addSpace, Account.add] using table
    · simp only [State.addSpace, Account.add, update_of_ne (old key keyMem)]
      refine @table_of_frame _ _ _ _ books _ keyMem _ (pages ++ (tables ++ [])) ?_ ?_ grown.frame
      all_goals
        intro page pageMem
        have isFree : page ∈ k.mem.memoryPool := by
          refine grown.pool.mem_iff.2 ?_
          simp only [mem_append, not_mem_nil, or_false] at pageMem ⊢
          tauto
      · exact (books.ledger.fresh.aligned page (mem_append_right _ isFree)).1
      · exact fun isTable => books.table_not_free keyMem isTable isFree
  · exact nodup_cons.2 ⟨fun keyMem => new (books.keysRoots _ keyMem), books.keysNodup⟩
  · intro key keyMem
    rcases mem_cons.1 keyMem with rfl | keyMem
    · exact mem_cons_self
    · exact mem_cons_of_mem _ (books.keysRoots key keyMem)
  · intro key keyMem
    rcases mem_cons.1 keyMem with rfl | keyMem
    · simpa [State.addSpace] using shaped
    · simp only [State.addSpace, update_of_ne (old key (books.keysRoots key keyMem))]
      exact books.shaped key keyMem
  · intro key keyMem
    rcases mem_cons.1 keyMem with rfl | keyMem
    · simpa [State.addSpace, Account.add] using textMem
    · simp only [State.addSpace, Account.add, update_of_ne (old key (books.keysRoots key keyMem))]
      exact textsOld _ (books.textMem key keyMem)
  · intro key keyMem
    rcases mem_cons.1 keyMem with rfl | keyMem
    · simpa [State.addSpace] using text_eq
    · simp only [State.addSpace, update_of_ne (old key (books.keysRoots key keyMem)),
        update_of_ne (old _ (books.textsRoots _ (books.textMem key keyMem)))]
      exact books.text_eq key keyMem
  · intro other
    have before := books.textCount other
    have same : account.keys.map (Function.update k.text k.sched.nextPcb text) =
        account.keys.map k.text :=
      map_congr_left fun key keyMem =>
        update_of_ne (old key (books.keysRoots key keyMem)) text k.text
    simp only [State.addSpace, Account.add, map_cons, update_self, same]
    by_cases isText : other = text
    · subst isText
      rw [update_self, count_cons_self]
      exact enough
    · rw [update_of_ne isText, count_cons_of_ne (Ne.symm isText)]
      exact before

theorem shrink (keyMem : key ∈ account.keys) (bytes_eq : mem.bytes = k.mem.bytes)
    (table_eq : space.pageTable = (k.spaces key).pageTable) (elf_eq : space.elf = (k.spaces key).elf)
    (shaped : Shaped space) (counted : ∀ page, (held space).count page + mem.memoryPool.count page =
      (held (k.spaces key)).count page + k.mem.memoryPool.count page) :
    Books board fixed { k with mem := mem, spaces := Function.update k.spaces key space } account := by
  refine books.update (fun other otherMem => ?_) ?_ elf_eq shaped
  · simp only [field_update AddressSpace.pageTable table_eq, bytes_eq]
    exact books.table other otherMem
  · refine books.ledger.perm (perm_iff_count.2 fun page => ?_)
    have spaces := count_pages_update books.keysNodup keyMem elf_eq page
    have pages := counted page
    simp only [Account.pages, count_append] at spaces ⊢
    omega

theorem retire {key : Nat} (keyMem : key ∈ account.keys) {mem : PhysMemory} {textRefs : Nat → Nat}
    {texts : List Nat} (bytes_eq : mem.bytes = k.mem.bytes) (counted : ∀ page,
      (shares texts fun text => (k.spaces text).elf.text.mAddrs).count page +
          mem.memoryPool.count page ≤
        (held (k.spaces key)).count page +
          (shares account.texts fun text => (k.spaces text).elf.text.mAddrs).count page +
          k.mem.memoryPool.count page) (textsSub : texts.Sublist account.texts)
    (textMem : ∀ other ∈ account.keys.erase key, k.text other ∈ texts)
    (textCount : ∀ text, ((account.keys.erase key).map k.text).count text ≤ textRefs text) :
    Books board fixed { k with mem := mem, textRefs := textRefs }
      { account with keys := account.keys.erase key, texts := texts } := by
  refine ⟨?_, ?_, books.rootsNodup, books.keysNodup.erase key, textsSub.nodup books.textsNodup, ?_,
    fun text isText => books.textsRoots text (textsSub.subset isText), ?_, textMem, ?_, textCount⟩
  · intro other otherMem
    simp only [bytes_eq]
    exact books.table other otherMem
  · refine books.ledger.subperm (subperm_ext_iff.2 fun page _ => ?_)
    have rest := count_shares_erase (fun key => held (k.spaces key)) keyMem page
    have pages := counted page
    simp only [Account.pages, count_append] at rest ⊢
    omega
  · exact fun other otherMem => books.keysRoots other (mem_of_mem_erase otherMem)
  · exact fun other otherMem => books.shaped other (mem_of_mem_erase otherMem)
  · exact fun other otherMem => books.text_eq other (mem_of_mem_erase otherMem)

theorem store {bytes : Bytes} {written : List Nat} (aligned : ∀ page ∈ written, page % 4096 = 0)
    (apart : ∀ page ∈ written, page ∉ shares account.roots account.tables)
    (frame : ∀ a, Outside written a → bytes a = k.mem.bytes a) :
    Books board fixed { k with mem := { k.mem with bytes := bytes } } account := by
  refine { books with table := fun key keyMem => ?_ }
  exact books.table_of_frame keyMem aligned
    (fun page isWritten isTable => apart page isWritten (mem_shares.2 ⟨key, keyMem, isTable⟩)) frame

end Books

namespace Sound

variable {board : Board} {fixed : FixedPages} {k : State} {account : Account}

variable (sound : Sound board fixed k account)
include sound

theorem root_of_placed {ref : Nat}
    (placed : ref ∈ k.sched.placed) : (k.sched.pcb ref).managers ∈ account.roots :=
  sound.keysRoots _ (sound.placedKey ref placed)

theorem new_not_root : k.sched.nextPcb ∉ account.roots :=
  fun rootMem => Nat.lt_irrefl _ (sound.rootsOld _ rootMem)

theorem new_not_key : k.sched.nextPcb ∉ account.keys :=
  fun keyMem => sound.new_not_root (sound.keysRoots _ keyMem)

theorem active_of_running {ref : Nat} (running_eq : k.sched.running = some ref) :
    ∃ key ∈ account.roots, k.sched.runningContext.satp = satpOf (k.spaces key).pageTable :=
  ⟨_, sound.root_of_placed (Tagged.placed_of_running running_eq), sound.tagged.live ref running_eq⟩

theorem withSched {sched : Scheduler Nat}
    (quiet : Quiet k.sched.toPlacement sched.toPlacement) (accounted : Accounted sched.toPlacement)
    (tagged : Tagged (fun key => satpOf (k.spaces key).pageTable) sched)
    (active : (∃ key ∈ account.roots, sched.runningContext.satp = satpOf (k.spaces key).pageTable) ∨
      (sched.running = none ∧ sched.blocked = [])) :
    Sound board fixed { k with sched := sched } account where
  toBooks := sound.toBooks.withSched sched k.refs
  accounted := accounted
  rootsOld key rootMem := quiet.nextPcb_eq.symm ▸ sound.rootsOld key rootMem
  placedKey ref placed := by
    simp only [quiet.managers_eq]
    exact sound.placedKey ref (quiet.placed ref placed)
  placedStack ref placed := by
    simp only [State.spaceOf, quiet.managers_eq, quiet.stack_eq]
    exact sound.placedStack ref (quiet.placed ref placed)
  tagged := tagged
  active := active

theorem withSpace {key : Nat} {space : AddressSpace} {mem : PhysMemory} {account' : Account}
    (books : Books board fixed { k with mem := mem, spaces := Function.update k.spaces key space } account')
    (stack_eq : space.stack = (k.spaces key).stack)
    (table_eq : space.pageTable = (k.spaces key).pageTable) (keys_eq : account'.keys = account.keys)
    (roots_eq : account'.roots = account.roots) :
    Sound board fixed { k with mem := mem, spaces := Function.update k.spaces key space } account' := by
  have tables_eq := field_update AddressSpace.pageTable table_eq
  refine ⟨books, sound.accounted, ?_, ?_, ?_, ?_, ?_⟩
  · rw [roots_eq]
    exact sound.rootsOld
  · rw [keys_eq]
    exact sound.placedKey
  · intro ref placed
    rw [State.spaceOf, field_update AddressSpace.stack stack_eq]
    exact sound.placedStack ref placed
  · simp only [tables_eq]
    exact sound.tagged
  · simp only [tables_eq, roots_eq]
    exact sound.active

end Sound

end SysCore.Kernel
