import SysCore.Kernel.State
import SysCore.Container.Shares

/-!
# The lifetime of ELF pages

Blocks share an `Elf_Control` by a reference count, and the `Elf_Control` of
forked processes share a text segment by another one below it.  `ElfBooks` says
that both counts are exact and that the segments in use have no page in common.
Then `~elf_ctl_segment` returns a page exactly when its last user exits.

The counts are exact in every run.  That the segments stay apart depends on the
page pool: a new segment is apart from the others if no page is free twice and no
page of a segment in use is free.
-/

namespace SysCore.Kernel

open Memory Transition Paging Process Sched Function List
open Container

namespace State

variable (k : State)

def Reaches (page : Nat) : Prop :=
  ∃ ref ∈ k.sched.placed,
    page ∈ (k.spaceOf ref).elf.text.mAddrs ∨ page ∈ (k.spaceOf ref).elf.data.mAddrs

structure PoolApart : Prop where
  freeOnce : k.mem.memoryPool.Nodup
  notFree : ∀ page, k.Reaches page → page ∉ k.mem.memoryPool

def KeepsApart : Call → Prop
  | .createProcess _ _ _ | .fork => k.PoolApart
  | .sysKill _ => False
  | .thread _ | .memory _ | .exitProcess _ | .yield | .wait _ | .schedule => True

def holders : List Nat :=
  k.sched.placed.map fun ref => (k.sched.pcb ref).managers

end State

structure FreedOnce (k : State) (freed : List Nat) (k' : State) : Prop where
  once : ∀ page, k.Reaches page → ¬ k'.Reaches page → freed.count page = 1
  unused : ∀ page ∈ freed, k.Reaches page ∧ ¬ k'.Reaches page

def ApartStep (fixed : FixedPages) (k : State) (label : Call × List Nat) (k' : State) : Prop :=
  k.KeepsApart label.1 ∧ Step fixed k label k'

structure ElfBooks (k : State) (keys : List Nat) : Prop where
  accounted : Accounted k.sched.toPlacement
  keysNodup : keys.Nodup
  mem_keys : ∀ key, key ∈ keys ↔ key ∈ k.holders
  old : ∀ key ∈ keys, key < k.sched.nextPcb ∧ k.text key < k.sched.nextPcb
  refs_eq : ∀ key ∈ keys, k.refs key = k.holders.count key
  textRefs_eq : ∀ key ∈ keys, k.textRefs (k.text key) = (keys.map k.text).count (k.text key)
  text_eq : ∀ key ∈ keys, ∀ other ∈ keys, k.text key = k.text other →
    (k.spaces key).elf.text = (k.spaces other).elf.text
  nodup : ∀ key ∈ keys, ((k.spaces key).elf.data.mAddrs ++ (k.spaces key).elf.text.mAddrs).Nodup
  dataApart : ∀ key ∈ keys, ∀ other ∈ keys, key ≠ other → ∀ page ∈ (k.spaces key).elf.data.mAddrs,
    page ∉ (k.spaces other).elf.data.mAddrs ∧ page ∉ (k.spaces other).elf.text.mAddrs
  textApart : ∀ key ∈ keys, ∀ other ∈ keys, k.text key ≠ k.text other →
    ∀ page ∈ (k.spaces key).elf.text.mAddrs, page ∉ (k.spaces other).elf.text.mAddrs

/-! ## Pages of new segments -/

section NewPages

variable {mem mem' : PhysMemory}

theorem count_bindPages {root : Nat} {loads : List ElfLoad} {elf elf' : ElfImage}
    (bound : ElfImage.bindPages root loads elf mem = .ok (elf', mem')) (page : Nat) :
    (elf'.data.mAddrs ++ elf'.text.mAddrs).count page + mem'.memoryPool.count page ≤
      (elf.data.mAddrs ++ elf.text.mAddrs).count page + mem.memoryPool.count page := by
  induction loads generalizing elf mem with
  | nil =>
    cases bound
    exact le_rfl
  | cons load rest ih =>
    obtain ⟨⟨elf₁, mem₁⟩, bind_eq, rest_eq⟩ := bind_eq_ok.1 bound
    rw [bindPage_eq] at bind_eq
    obtain ⟨⟨new, mem₂⟩, map_eq, last_eq⟩ := bind_eq_ok.1 bind_eq
    cases last_eq
    refine (ih rest_eq).trans ?_
    have taken := (drawn_mapPage map_eq).1.count_le page
    rw [count_cons] at taken
    cases load.writable <;>
      simp only [textOf, dataOf, ElfSegment.mAddrs, filter_cons, filter_nil, Bool.not_true,
        Bool.not_false, Bool.false_eq_true, if_true, if_false, map_append, map_cons,
        map_nil, append_nil, count_append, count_cons, count_nil] <;>
      omega

theorem createSpace_elf {fixed : FixedPages} {file : ElfFile} {stackImage : List UInt8}
    {space : AddressSpace} (distinct : mem.memoryPool.Nodup)
    (created : createSpace fixed file stackImage mem = .ok (space, mem')) :
    (space.elf.data.mAddrs ++ space.elf.text.mAddrs).Nodup ∧
      ∀ page ∈ space.elf.data.mAddrs ++ space.elf.text.mAddrs, page ∈ mem.memoryPool := by
  obtain ⟨⟨pageTable, mem₁⟩, table_eq, rest_eq⟩ := bind_eq_ok.1 created
  obtain ⟨⟨elf, mem₂⟩, load_eq, rest_eq⟩ := bind_eq_ok.1 rest_eq
  obtain ⟨⟨stack, mem₃⟩, stack_eq, last_eq⟩ := bind_eq_ok.1 rest_eq
  cases last_eq
  obtain ⟨_, _, drawn⟩ := drawn_newPageTable table_eq
  have within : (elf.data.mAddrs ++ elf.text.mAddrs).Subperm mem.memoryPool := by
    refine (subperm_ext_iff.2 fun page _ => ?_).trans drawn.sublist.subperm
    have counted := count_bindPages load_eq page
    simp only [ElfSegment.mAddrs, map_nil, append_nil, count_nil] at counted ⊢
    omega
  obtain ⟨perm, perm_eq, sublist⟩ := within
  exact ⟨perm_eq.nodup_iff.1 (sublist.nodup distinct),
    fun page pageMem => sublist.subset (perm_eq.mem_iff.2 pageMem)⟩

theorem fork_elf {fixed : FixedPages} {parent child : AddressSpace}
    (forked : parent.fork fixed mem = .ok (child, mem')) :
    child.elf.text = parent.elf.text ∧ child.elf.data.mAddrs.Sublist mem.memoryPool := by
  obtain ⟨⟨stack, mem₁⟩, stack_eq, rest_eq⟩ := bind_eq_ok.1 forked
  obtain ⟨⟨pageTable, mem₂⟩, table_eq, rest_eq⟩ := bind_eq_ok.1 rest_eq
  obtain ⟨mem₃, register_eq, rest_eq⟩ := bind_eq_ok.1 rest_eq
  obtain ⟨⟨data, mem₄⟩, data_eq, rest_eq⟩ := bind_eq_ok.1 rest_eq
  obtain ⟨⟨brk, mem₅⟩, brk_eq, rest_eq⟩ := bind_eq_ok.1 rest_eq
  obtain ⟨⟨mmap, mem₆⟩, mmap_eq, last_eq⟩ := bind_eq_ok.1 rest_eq
  cases last_eq
  have drawn : Drawn mem mem₃ := ((drawn_of_pool_eq (drawn_allocPage stack_eq).1).trans
    (drawn_newPageTable table_eq).2.2).trans (drawn_registerPages register_eq)
  obtain ⟨⟨pages, mem₇⟩, map_eq, last_eq⟩ := bind_eq_ok.1 data_eq
  cases last_eq
  have length_eq : pages.length = parent.elf.data.length := by
    rw [length_of_mapPages map_eq, length_map]
  have copied : ElfSegment.mAddrs (List.zipWith (fun page mAddr => ⟨page.vAddr, mAddr⟩)
      parent.elf.data pages) = pages := by
    rw [ElfSegment.mAddrs, map_zipWith, ← map_uncurry_zip_eq_zipWith]
    exact map_snd_zip (Nat.le_of_eq length_eq)
  refine ⟨rfl, ?_⟩
  rw [copied]
  have taken := (drawn_mapPages map_eq).1
  exact ((sublist_append_left _ _).trans taken).trans drawn.sublist

end NewPages

/-! ## Steps -/

namespace ElfBooks

variable {k k' : State} {keys : List Nat} {key : Nat} {freed : List Nat} {fixed : FixedPages}

theorem reaches_iff (books : ElfBooks k keys) (page : Nat) : k.Reaches page ↔
    ∃ key ∈ keys, page ∈ (k.spaces key).elf.text.mAddrs ∨ page ∈ (k.spaces key).elf.data.mAddrs := by
  constructor
  · rintro ⟨ref, placed, inImage⟩
    exact ⟨_, (books.mem_keys _).2 (mem_map_of_mem placed), inImage⟩
  · rintro ⟨key, keyMem, inImage⟩
    obtain ⟨ref, placed, rfl⟩ := mem_map.1 ((books.mem_keys key).1 keyMem)
    exact ⟨ref, placed, inImage⟩

theorem congr (books : ElfBooks k keys) {sched : Scheduler Nat} {spaces : Nat → AddressSpace}
    (mem : PhysMemory) (accounted : Accounted sched.toPlacement) (nextPcb_eq : sched.nextPcb = k.sched.nextPcb)
    (holders : (sched.placed.map fun ref => (sched.pcb ref).managers).Perm k.holders)
    (elf_eq : ∀ key, (spaces key).elf = (k.spaces key).elf) :
    ElfBooks { k with sched := sched, mem := mem, spaces := spaces } keys := by
  refine ⟨accounted, books.keysNodup, fun key => (books.mem_keys key).trans holders.mem_iff.symm, ?_,
    fun key keyMem => (books.refs_eq key keyMem).trans (holders.count_eq key).symm, books.textRefs_eq, ?_, ?_, ?_, ?_⟩
  all_goals simp only [nextPcb_eq, elf_eq]
  · exact books.old
  · exact books.text_eq
  · exact books.nodup
  · exact books.dataApart
  · exact books.textApart

theorem freedOnce_nil (reach : ∀ page, k.Reaches page → k'.Reaches page) : FreedOnce k [] k' :=
  ⟨fun page before after => absurd (reach page before) after, nofun⟩

theorem kept (books : ElfBooks k keys) (books' : ElfBooks k' keys)
    (elf_eq : ∀ key, (k'.spaces key).elf = (k.spaces key).elf) :
    FreedOnce k [] k' ∧ ∃ keys', ElfBooks k' keys' := by
  refine ⟨freedOnce_nil fun page reaches => ?_, _, books'⟩
  rw [books'.reaches_iff]
  simp only [elf_eq]
  exact (books.reaches_iff page).1 reaches

theorem move (books : ElfBooks k keys) {sched : Scheduler Nat} {events : List Event} (mem : PhysMemory)
    (moved : Move k.sched.toPlacement events sched.toPlacement) (noneMade : made events = [])
    (noneGone : gone events = []) : ElfBooks { k with sched := sched, mem := mem } keys := by
  have quiet := moved.quiet books.accounted noneMade
  obtain ⟨before, ledger⟩ := books.accounted
  have after := ledger.move moved
  have placed : sched.placed.Perm k.sched.placed := by
    simpa [noneMade, noneGone] using ledger.placed_perm after
  refine books.congr mem ⟨_, after⟩ quiet.nextPcb_eq ?_ fun _ => rfl
  simp only [quiet.managers_eq]
  exact placed.map _

section Leaves

variable {sched : Scheduler Nat} (holders : (key :: sched.placed.map fun ref => (sched.pcb ref).managers).Perm k.holders)
include holders

theorem count_holders (other : Nat) : k.holders.count other =
    (if key = other then 1 else 0) + (sched.placed.map fun ref => (sched.pcb ref).managers).count other := by
  rw [← holders.count_eq, count_cons]
  simp only [beq_iff_eq]
  omega

theorem leaves (books : ElfBooks k keys) (mem : PhysMemory) (accounted : Accounted sched.toPlacement)
    (nextPcb_eq : sched.nextPcb = k.sched.nextPcb) (shared : k.refs key - 1 ≠ 0) :
    ElfBooks { k with sched := sched, mem := mem, refs := update k.refs key (k.refs key - 1) } keys := by
  have keyMem : key ∈ keys := (books.mem_keys key).2 (holders.mem_iff.1 mem_cons_self)
  have counts := count_holders holders
  refine ⟨accounted, books.keysNodup, fun other => ?_, ?_, fun other otherMem => ?_, books.textRefs_eq,
    books.text_eq, books.nodup, books.dataApart, books.textApart⟩
  · rw [books.mem_keys, ← holders.mem_iff, mem_cons]
    refine ⟨fun isHolder => isHolder.elim (fun same => ?_) id, .inr⟩
    have counted := books.refs_eq key keyMem
    rw [counts, if_pos rfl] at counted
    have isHeld : 0 < (sched.placed.map fun ref => (sched.pcb ref).managers).count key := by omega
    rw [same]
    exact count_pos_iff.1 isHeld
  · simp only [nextPcb_eq]
    exact books.old
  · have counted := books.refs_eq other otherMem
    rw [counts] at counted
    by_cases same : other = key
    · subst same
      rw [if_pos rfl] at counted
      simp only [update_self]
      exact Nat.sub_eq_of_eq_add' counted
    · rw [if_neg (Ne.symm same), Nat.zero_add] at counted
      simp only [update_of_ne same]
      exact counted

theorem retires (books : ElfBooks k keys) (mem : PhysMemory) (accounted : Accounted sched.toPlacement)
    (nextPcb_eq : sched.nextPcb = k.sched.nextPcb) (last : k.refs key - 1 = 0) :
    ElfBooks { k with
      sched := sched, mem := mem, refs := update k.refs key (k.refs key - 1)
      textRefs := update k.textRefs (k.text key) (k.textRefs (k.text key) - 1) } (keys.erase key) := by
  have keyMem : key ∈ keys := (books.mem_keys key).2 (holders.mem_iff.1 mem_cons_self)
  have counts := count_holders holders
  have erased : ∀ {other}, other ∈ keys.erase key ↔ other ≠ key ∧ other ∈ keys := books.keysNodup.mem_erase_iff
  refine ⟨accounted, books.keysNodup.erase key, fun other => ?_, ?_, ?_, ?_, ?_, ?_, ?_, ?_⟩
  · rw [erased, books.mem_keys, ← holders.mem_iff, mem_cons]
    refine ⟨fun ⟨different, isHolder⟩ => isHolder.resolve_left different, fun isHolder => ⟨?_, .inr isHolder⟩⟩
    rintro rfl
    have counted := books.refs_eq other keyMem
    rw [counts, if_pos rfl] at counted
    have isGone : (sched.placed.map fun ref => (sched.pcb ref).managers).count other = 0 := by omega
    exact count_eq_zero.1 isGone isHolder
  all_goals
    intro other otherErase
    obtain ⟨different, otherMem⟩ := erased.1 otherErase
  · simp only [nextPcb_eq]
    exact books.old other otherMem
  · have counted := books.refs_eq other otherMem
    rw [counts, if_neg (Ne.symm different), Nat.zero_add] at counted
    simp only [update_of_ne different]
    exact counted
  · have counted := books.textRefs_eq other otherMem
    rw [count_map_erase k.text keyMem] at counted
    by_cases same : k.text other = k.text key
    · rw [same] at counted
      rw [if_pos rfl] at counted
      simp only [same, update_self]
      omega
    · rw [if_neg (Ne.symm same)] at counted
      simp only [update_of_ne same]
      omega
  · exact fun third thirdErase => books.text_eq other otherMem third (erased.1 thirdErase).2
  · exact books.nodup other otherMem
  · exact fun third thirdErase => books.dataApart other otherMem third (erased.1 thirdErase).2
  · exact fun third thirdErase => books.textApart other otherMem third (erased.1 thirdErase).2

end Leaves

section

variable (books : ElfBooks k keys)
include books

theorem mem_erase {other : Nat} : other ∈ keys.erase key ↔ other ≠ key ∧ other ∈ keys :=
  books.keysNodup.mem_erase_iff

theorem text_users (keyMem : key ∈ keys) :
    k.textRefs (k.text key) - 1 = ((keys.erase key).map k.text).count (k.text key) := by
  have counted := books.textRefs_eq key keyMem
  rw [count_map_erase k.text keyMem, if_pos rfl] at counted
  omega

theorem freedOnce_retired (keyMem : key ∈ keys) (books' : ElfBooks k' (keys.erase key))
    (spaces_eq : k'.spaces = k.spaces) :
    FreedOnce k ((k.spaces key).elf.destroyed (k.textRefs (k.text key) - 1 = 0)) k' := by
  have users := books.text_users keyMem
  refine ⟨fun page before after => ?_, fun page isFreed => ?_⟩
  · rw [books.reaches_iff] at before
    rw [books'.reaches_iff, spaces_eq] at after
    obtain ⟨user, userMem, inImage⟩ := before
    have same : user = key := by
      by_contra different
      exact after ⟨user, books.mem_erase.2 ⟨different, userMem⟩, inImage⟩
    subst same
    have distinct := books.nodup user keyMem
    by_cases lastText : k.textRefs (k.text user) - 1 = 0
    · simp only [ElfImage.destroyed, lastText, decide_true, if_true]
      exact count_eq_one_of_mem distinct (mem_append.2 inImage.symm)
    · simp only [ElfImage.destroyed, lastText, decide_false, Bool.false_eq_true, if_false, append_nil]
      rcases inImage with isText | isData
      · -- another space has the text segment
        obtain ⟨other, otherErase, sameText⟩ := mem_map.1 (count_pos_iff.1
          (Nat.pos_of_ne_zero (users ▸ lastText)))
        have otherMem := (books.mem_erase.1 otherErase).2
        rw [← books.text_eq other otherMem user keyMem sameText] at isText
        exact absurd ⟨other, otherErase, .inl isText⟩ after
      · exact count_eq_one_of_mem (nodup_append.1 distinct).1 isData
  · rw [books.reaches_iff, books'.reaches_iff, spaces_eq]
    have source : page ∈ (k.spaces key).elf.data.mAddrs ∨
        (k.textRefs (k.text key) - 1 = 0 ∧ page ∈ (k.spaces key).elf.text.mAddrs) := by
      by_cases lastText : k.textRefs (k.text key) - 1 = 0 <;>
        simpa [ElfImage.destroyed, lastText] using isFreed
    refine ⟨⟨key, keyMem, source.symm.imp_left And.right⟩, ?_⟩
    rintro ⟨other, otherErase, inImage⟩
    obtain ⟨different, otherMem⟩ := books.mem_erase.1 otherErase
    rcases source with isData | ⟨lastText, isText⟩
    · obtain ⟨notData, notText⟩ := books.dataApart key keyMem other otherMem (Ne.symm different) page isData
      exact inImage.elim notText notData
    · have otherText : k.text other ≠ k.text key := fun same =>
        count_eq_zero.1 (users.symm.trans lastText) (mem_map.2 ⟨other, otherErase, same⟩)
      rcases inImage with inText | inData
      · exact books.textApart other otherMem key keyMem otherText page inText isText
      · exact (books.dataApart other otherMem key keyMem different page inData).2 isText

theorem exits {exitRet : Int} (exit_eq : k.exitProcess exitRet = .ok (k', freed)) :
    FreedOnce k freed k' ∧ ∃ keys', ElfBooks k' keys' := by
  unfold State.exitProcess at exit_eq
  split at exit_eq
  · cases exit_eq
  next ref running_eq =>
    obtain ⟨mem, stack_eq, rest_eq⟩ := bind_eq_ok.1 exit_eq
    obtain ⟨⟨sched, events⟩, sched_eq, drop_eq⟩ := bind_eq_ok.1 rest_eq
    have moved := Scheduler.exitProcess_move sched_eq
    obtain ⟨before, ledger⟩ := books.accounted
    have after := ledger.move moved
    have placed := ledger.placed_perm after
    have events_eq : events = [.exit ref (k.sched.pcb ref).pid exitRet] := by
      rw [Scheduler.exitProcess, running_eq] at sched_eq
      cases sched_eq
      rfl
    subst events_eq
    have quiet := moved.quiet books.accounted rfl
    have holders : ((k.sched.pcb ref).managers ::
        sched.placed.map fun other => (sched.pcb other).managers).Perm k.holders := by
      simp only [quiet.managers_eq]
      refine (perm_append_singleton _ _).symm.trans ?_
      have kept := placed.map fun other => (k.sched.pcb other).managers
      simpa [State.holders, Event.made, Event.gone] using kept
    have keyMem : (k.sched.pcb ref).managers ∈ keys :=
      (books.mem_keys _).2 (holders.mem_iff.1 mem_cons_self)
    unfold State.dropBlock at drop_eq
    simp only [update_self] at drop_eq
    split at drop_eq
    next last =>
      obtain ⟨mem', destroy_eq, last_eq⟩ := bind_eq_ok.1 drop_eq
      cases last_eq
      have books' := retires holders books mem' ⟨_, after⟩ quiet.nextPcb_eq last
      exact ⟨books.freedOnce_retired keyMem books' rfl, _, books'⟩
    next shared =>
      cases drop_eq
      exact books.kept (leaves holders books mem ⟨_, after⟩ quiet.nextPcb_eq shared) fun _ => rfl

theorem holders_pushed {sched : Scheduler Nat} {key stack : Nat} (pushed : Pushed k.sched sched key stack) :
    (sched.placed.map fun ref => (sched.pcb ref).managers).Perm (key :: k.holders) := by
  obtain ⟨before, ledger⟩ := books.accounted
  have kept : (k.sched.placed.map fun ref => (sched.pcb ref).managers) = k.holders :=
    map_congr_left fun ref isPlaced => pushed.oldKey ref (Nat.ne_of_lt (ledger.lt_nextPcb isPlaced))
  refine (pushed.placed.map fun ref => (sched.pcb ref).managers).trans ?_
  rw [map_cons, pushed.newKey, kept]

theorem threads {stack : Nat} (thread_eq : k.thread stack = .ok k') :
    FreedOnce k [] k' ∧ ∃ keys', ElfBooks k' keys' := by
  unfold State.thread at thread_eq
  split at thread_eq
  · cases thread_eq
  next ref running_eq =>
    obtain ⟨⟨sched, events⟩, sched_eq, last_eq⟩ := bind_eq_ok.1 thread_eq
    have accounted := books.accounted.exec (.clone _) sched_eq
    have pushed := Pushed.of_clone running_eq sched_eq
    have holders : (sched.placed.map fun other => (sched.pcb other).managers).Perm
        ((k.sched.pcb ref).managers :: k.holders) := books.holders_pushed pushed
    have isHolder : (k.sched.pcb ref).managers ∈ k.holders :=
      mem_map_of_mem (by simp [Placement.placed, running_eq])
    cases last_eq
    refine books.kept (⟨accounted, books.keysNodup, fun key => ?_, fun key keyMem => ?_, fun key keyMem => ?_,
      books.textRefs_eq, books.text_eq, books.nodup, books.dataApart, books.textApart⟩) fun _ => rfl
    · rw [books.mem_keys]
      refine Iff.trans ?_ holders.mem_iff.symm
      rw [mem_cons]
      exact ⟨.inr, fun either => either.elim (fun same => same ▸ isHolder) id⟩
    · have isOld := books.old key keyMem
      simp only [pushed.nextPcb_eq]
      omega
    · have counted := books.refs_eq key keyMem
      refine Eq.trans ?_ (holders.count_eq key).symm
      rw [count_cons]
      simp only [beq_iff_eq]
      by_cases same : key = (k.sched.pcb ref).managers
      · rw [same, update_self, if_pos rfl, ← same, counted]
      · rw [update_of_ne same, if_neg (Ne.symm same), counted, Nat.add_zero]

omit books in
theorem withNew (books : ElfBooks k keys) {space : AddressSpace} {mem : PhysMemory}
    {text textRefs : Nat} {sched : Scheduler Nat} (accounted : Accounted sched.toPlacement)
    (nextPcb_eq : sched.nextPcb = k.sched.nextPcb + 1)
    (holders : (sched.placed.map fun ref => (sched.pcb ref).managers).Perm (k.sched.nextPcb :: k.holders))
    (text_le : text ≤ k.sched.nextPcb)
    (nodup : (space.elf.data.mAddrs ++ space.elf.text.mAddrs).Nodup)
    (fresh : ∀ page ∈ space.elf.data.mAddrs, ¬ k.Reaches page)
    (dataText : ∀ key ∈ keys, ∀ page ∈ (k.spaces key).elf.data.mAddrs, page ∉ space.elf.text.mAddrs)
    (sameText : ∀ key ∈ keys, k.text key = text → (k.spaces key).elf.text = space.elf.text)
    (otherText : ∀ key ∈ keys, k.text key ≠ text → ∀ page ∈ (k.spaces key).elf.text.mAddrs,
      page ∉ space.elf.text.mAddrs) (counted : textRefs = (keys.map k.text).count text + 1) :
    FreedOnce k [] { k.addSpace space text textRefs mem with sched := sched } ∧
      ElfBooks { k.addSpace space text textRefs mem with sched := sched } (k.sched.nextPcb :: keys) := by
  have isOld : ∀ key ∈ keys, key ≠ k.sched.nextPcb := fun key keyMem => Nat.ne_of_lt (books.old key keyMem).1
  have new : k.sched.nextPcb ∉ keys := fun keyMem => isOld _ keyMem rfl
  have oldSpace : ∀ key ∈ keys, update k.spaces k.sched.nextPcb space key = k.spaces key :=
    fun key keyMem => update_of_ne (isOld key keyMem) ..
  have notReached : ∀ key ∈ keys, ∀ page ∈ space.elf.data.mAddrs,
      page ∉ (k.spaces key).elf.data.mAddrs ∧ page ∉ (k.spaces key).elf.text.mAddrs := by
    intro key keyMem page pageMem
    have absent := fresh page pageMem
    rw [books.reaches_iff] at absent
    exact ⟨fun isData => absent ⟨key, keyMem, .inr isData⟩, fun isText => absent ⟨key, keyMem, .inl isText⟩⟩
  have books' : ElfBooks { k.addSpace space text textRefs mem with sched := sched }
      (k.sched.nextPcb :: keys) := by
    have texts_eq : keys.map (update k.text k.sched.nextPcb text) = keys.map k.text :=
      map_congr_left fun key keyMem => update_of_ne (isOld key keyMem) ..
    have oldText : ∀ key ∈ keys, update k.text k.sched.nextPcb text key = k.text key :=
      fun key keyMem => update_of_ne (isOld key keyMem) ..
    refine ⟨accounted, nodup_cons.2 ⟨new, books.keysNodup⟩, fun key => ?_, ?_, ?_, ?_, ?_, ?_, ?_, ?_⟩
    · rw [mem_cons, books.mem_keys]
      exact (holders.mem_iff.trans mem_cons).symm
    all_goals
      -- the new space first, then the old ones
      simp +contextual only [State.addSpace, forall_mem_cons, update_self, oldText, oldSpace]
    · refine ⟨by omega, fun key keyMem => ?_⟩
      have bounds := books.old key keyMem
      omega
    · refine ⟨?_, fun key keyMem => ?_⟩
      · refine Eq.trans ?_ (holders.count_eq _).symm
        rw [count_cons_self, count_eq_zero_of_not_mem fun isHolder => new ((books.mem_keys _).2 isHolder)]
      · refine Eq.trans ?_ (holders.count_eq key).symm
        rw [update_of_ne (isOld key keyMem), count_cons_of_ne (Ne.symm (isOld key keyMem)),
          books.refs_eq key keyMem]
    · rw [map_cons, update_self, texts_eq]
      refine ⟨by rw [count_cons_self, counted], fun key keyMem => ?_⟩
      by_cases same : k.text key = text
      · rw [same, update_self, count_cons_self, counted]
      · rw [update_of_ne same, count_cons_of_ne (Ne.symm same), books.textRefs_eq key keyMem]
    · exact ⟨⟨fun _ => trivial, fun other otherMem same => (sameText other otherMem same.symm).symm⟩,
        fun key keyMem => ⟨sameText key keyMem, books.text_eq key keyMem⟩⟩
    · exact ⟨nodup, books.nodup⟩
    · refine ⟨⟨fun different => absurd rfl different, fun other otherMem _ => notReached other otherMem⟩,
        fun key keyMem => ⟨fun _ page isData => ⟨fun isNew => ?_, dataText key keyMem page isData⟩,
          books.dataApart key keyMem⟩⟩
      exact (notReached key keyMem page isNew).1 isData
    · refine ⟨⟨fun different => absurd rfl different, fun other otherMem different page isNew isText => ?_⟩,
        fun key keyMem => ⟨otherText key keyMem, books.textApart key keyMem⟩⟩
      exact otherText other otherMem (Ne.symm different) page isText isNew
  refine ⟨freedOnce_nil fun page reaches => ?_, books'⟩
  rw [books.reaches_iff] at reaches
  rw [books'.reaches_iff]
  obtain ⟨key, keyMem, inImage⟩ := reaches
  refine ⟨key, mem_cons_of_mem _ keyMem, ?_⟩
  simpa only [State.addSpace, oldSpace key keyMem] using inImage

theorem creates {file : ElfFile} {stackImage : List UInt8} {context : Context} (apart : k.PoolApart)
    (create_eq : k.createProcess fixed file stackImage context = .ok k') :
    FreedOnce k [] k' ∧ ∃ keys', ElfBooks k' keys' := by
  obtain ⟨⟨space, mem⟩, space_eq, rest_eq⟩ := bind_eq_ok.1 create_eq
  obtain ⟨⟨sched, events⟩, sched_eq, last_eq⟩ := bind_eq_ok.1 rest_eq
  cases last_eq
  have accounted := books.accounted.exec (.createProcess _) sched_eq
  have pushed := Pushed.of_createProcess sched_eq
  obtain ⟨nodup, fromPool⟩ := createSpace_elf apart.freeOnce space_eq
  have fresh : ∀ page ∈ space.elf.data.mAddrs ++ space.elf.text.mAddrs, ¬ k.Reaches page :=
    fun page pageMem reaches => apart.notFree page reaches (fromPool page pageMem)
  have newText : ∀ key ∈ keys, k.text key ≠ k.sched.nextPcb := fun key keyMem =>
    Nat.ne_of_lt (books.old key keyMem).2
  obtain ⟨freedOnce, books'⟩ := @withNew _ _ books space mem _ 1 sched accounted pushed.nextPcb_eq
    (books.holders_pushed pushed) le_rfl nodup (fun page pageMem => fresh page (mem_append_left _ pageMem))
    (fun key keyMem page isData isText => fresh page (mem_append_right _ isText)
      ((books.reaches_iff page).2 ⟨key, keyMem, .inr isData⟩))
    (fun key keyMem same => absurd same (newText key keyMem))
    (fun key keyMem _ page isText isNew => fresh page (mem_append_right _ isNew)
      ((books.reaches_iff page).2 ⟨key, keyMem, .inl isText⟩)) (by
      rw [count_eq_zero_of_not_mem]
      intro isText
      obtain ⟨key, keyMem, text_eq⟩ := mem_map.1 isText
      exact newText key keyMem text_eq)
  exact ⟨freedOnce, _, books'⟩

theorem forks (apart : k.PoolApart) (fork_eq : k.fork fixed = .ok k') :
    FreedOnce k [] k' ∧ ∃ keys', ElfBooks k' keys' := by
  unfold State.fork at fork_eq
  split at fork_eq
  · cases fork_eq
  next ref running_eq =>
    obtain ⟨⟨child, mem⟩, space_eq, rest_eq⟩ := bind_eq_ok.1 fork_eq
    obtain ⟨⟨sched, events⟩, sched_eq, last_eq⟩ := bind_eq_ok.1 rest_eq
    cases last_eq
    have accounted := books.accounted.exec (.clone _) sched_eq
    have pushed := Pushed.of_clone running_eq sched_eq
    have keyMem : (k.sched.pcb ref).managers ∈ keys :=
      (books.mem_keys _).2 (mem_map_of_mem (by simp [Placement.placed, running_eq]))
    obtain ⟨text_eq, data⟩ := fork_elf space_eq
    have parentText : child.elf.text = (k.spaces (k.sched.pcb ref).managers).elf.text := text_eq
    obtain ⟨_, textNodup, parentApart⟩ := nodup_append.1 (books.nodup _ keyMem)
    have fresh : ∀ page ∈ child.elf.data.mAddrs, ¬ k.Reaches page :=
      fun page pageMem reaches => apart.notFree page reaches (data.subset pageMem)
    obtain ⟨freedOnce, books'⟩ := @withNew _ _ books child mem _ _ sched accounted pushed.nextPcb_eq
      (books.holders_pushed pushed) (Nat.le_of_lt (books.old _ keyMem).2) (by
        rw [parentText]
        refine nodup_append.2 ⟨data.nodup apart.freeOnce, textNodup, ?_⟩
        rintro page isNew _ isText rfl
        exact fresh page isNew ((books.reaches_iff page).2 ⟨_, keyMem, .inl isText⟩)) fresh
      (by
        rw [parentText]
        intro key otherMem page isData isText
        by_cases same : key = (k.sched.pcb ref).managers
        · subst same
          exact parentApart page isData page isText rfl
        · exact (books.dataApart key otherMem _ keyMem same page isData).2 isText)
      (fun key otherMem same => by
        rw [parentText]
        exact books.text_eq key otherMem _ keyMem same)
      (fun key otherMem different => by
        rw [parentText]
        exact books.textApart key otherMem _ keyMem different)
      (congrArg (· + 1) (books.textRefs_eq _ keyMem))
    exact ⟨freedOnce, _, books'⟩

omit books in
theorem call_elf {space space' : AddressSpace} {mem mem' : PhysMemory} {call : MemoryCall}
    {returned : Bool} (call_eq : space.call mem call = .ok (returned, space', mem')) :
    space'.elf = space.elf := by
  cases call <;> (obtain ⟨_, _, last_eq⟩ := bind_eq_ok.1 call_eq; cases last_eq; rfl)

theorem exits_after {k₁ : State} (books₁ : ElfBooks k₁ keys)
    (elf_eq : ∀ key, (k₁.spaces key).elf = (k.spaces key).elf) {exitRet : Int}
    (exit_eq : k₁.exitProcess exitRet = .ok (k', freed)) :
    FreedOnce k freed k' ∧ ∃ keys', ElfBooks k' keys' := by
  have same : ∀ page, k.Reaches page ↔ k₁.Reaches page := by
    intro page
    rw [books.reaches_iff, books₁.reaches_iff]
    simp only [elf_eq]
  obtain ⟨freedOnce, kept⟩ := books₁.exits exit_eq
  refine ⟨⟨fun page before after => ?_, fun page isFreed => ?_⟩, kept⟩
  · exact freedOnce.once page ((same page).1 before) after
  · rw [same]
    exact freedOnce.unused page isFreed

theorem calls {call : MemoryCall} (call_eq : k.memoryCall call = .ok (k', freed)) :
    FreedOnce k freed k' ∧ ∃ keys', ElfBooks k' keys' := by
  unfold State.memoryCall at call_eq
  split at call_eq
  · cases call_eq
  next ref running_eq =>
    obtain ⟨⟨returned, space, mem⟩, space_eq, rest_eq⟩ := bind_eq_ok.1 call_eq
    have elf_eq := fun key => field_update AddressSpace.elf (call_elf space_eq) key
    have books₁ := books.congr mem books.accounted rfl (.refl _) elf_eq
    dsimp only at rest_eq
    split at rest_eq
    · cases rest_eq
      exact books.kept books₁ elf_eq
    · exact books.exits_after books₁ elf_eq rest_eq

theorem yields (yield_eq : k.yield = .ok k') : FreedOnce k [] k' ∧ ∃ keys', ElfBooks k' keys' := by
  obtain ⟨⟨sched, events⟩, sched_eq, last_eq⟩ := bind_eq_ok.1 yield_eq
  cases last_eq
  have move := Scheduler.park_move k.sched.runningContext.advance sched_eq
  unfold Scheduler.yield at sched_eq
  split at sched_eq
  · cases sched_eq
  · cases sched_eq
    exact books.kept (books.move k.mem move rfl rfl) fun _ => rfl

theorem waits {wstatus : Nat} (wait_eq : k.wait wstatus = .ok k') :
    FreedOnce k [] k' ∧ ∃ keys', ElfBooks k' keys' := by
  obtain ⟨⟨sched, events⟩, sched_eq, last_eq⟩ := bind_eq_ok.1 wait_eq
  cases last_eq
  have move := Scheduler.wait_move sched_eq
  have quiet : made events = [] ∧ gone events = [] := by
    unfold Scheduler.wait at sched_eq
    split at sched_eq
    · cases sched_eq
    · split at sched_eq <;> cases sched_eq <;> exact ⟨rfl, rfl⟩
  exact books.kept (books.move k.mem move quiet.1 quiet.2) fun _ => rfl

theorem schedules (schedule_eq : k.schedule = .ok (k', freed)) :
    FreedOnce k freed k' ∧ ∃ keys', ElfBooks k' keys' := by
  unfold State.schedule at schedule_eq
  split at schedule_eq
  · cases schedule_eq
  next idle =>
    split at schedule_eq
    · cases schedule_eq
    next sched events dispatched =>
      have move := Scheduler.dispatch_move idle dispatched
      obtain ⟨noneMade, noneGone⟩ := Scheduler.made_gone_of_dispatch dispatched
      split at schedule_eq
      · cases schedule_eq
        exact books.kept (books.move k.mem move noneMade noneGone) fun _ => rfl
      next address status store_eq =>
        dsimp only at schedule_eq
        split at schedule_eq
        · cases schedule_eq
          exact books.kept (books.move _ move noneMade noneGone) fun _ => rfl
        · have moved : Move k.sched.toPlacement events
            { sched with runningContext := k.sched.runningContext }.toPlacement := move
          exact books.exits_after (books.move _ moved noneMade noneGone) (fun _ => rfl) schedule_eq

theorem step {call : Call} (stepped : ApartStep fixed k (call, freed) k') :
    FreedOnce k freed k' ∧ ∃ keys', ElfBooks k' keys' := by
  obtain ⟨apart, exec_eq⟩ := stepped
  cases call with
  | createProcess file stackImage context =>
    obtain ⟨create_eq, rfl⟩ := plain_eq_ok.1 exec_eq
    exact books.creates apart create_eq
  | fork =>
    obtain ⟨fork_eq, rfl⟩ := plain_eq_ok.1 exec_eq
    exact books.forks apart fork_eq
  | thread stack =>
    obtain ⟨thread_eq, rfl⟩ := plain_eq_ok.1 exec_eq
    exact books.threads thread_eq
  | memory call => exact books.calls exec_eq
  | exitProcess exitRet => exact books.exits exec_eq
  | sysKill pid => exact apart.elim
  | yield =>
    obtain ⟨yield_eq, rfl⟩ := plain_eq_ok.1 exec_eq
    exact books.yields yield_eq
  | wait wstatus =>
    obtain ⟨wait_eq, rfl⟩ := plain_eq_ok.1 exec_eq
    exact books.waits wait_eq
  | schedule => exact books.schedules exec_eq

end

theorem init (board : Board) (bytes : Bytes) (pcb : Nat → PCB Nat) (spaces : Nat → AddressSpace)
    (testTotal : Nat) : ElfBooks (State.init board bytes pcb spaces testTotal) [] where
  accounted := ⟨[], .init pcb testTotal⟩
  keysNodup := nodup_nil
  mem_keys _ := Iff.rfl
  old := nofun
  refs_eq := nofun
  textRefs_eq := nofun
  text_eq := nofun
  nodup := nofun
  dataApart := nofun
  textApart := nofun

end ElfBooks

/-- In every run in which new processes get pages that are free once and in no
segment, ELF pages live exactly as long as their last user. -/
theorem freedOnce_of_run {fixed : FixedPages} {board : Board} {bytes : Bytes} {pcb : Nat → PCB Nat}
    {spaces : Nat → AddressSpace} {testTotal : Nat} {labels : List (Call × List Nat)} {k k' : State}
    {label : Call × List Nat}
    (run : Run (ApartStep fixed) (State.init board bytes pcb spaces testTotal) labels k)
    (stepped : ApartStep fixed k label k') : FreedOnce k label.2 k' := by
  obtain ⟨keys, books⟩ := @Run.invariant _ _ (ApartStep fixed) (fun k => ∃ keys, ElfBooks k keys)
    (fun ⟨_, books⟩ stepped => (books.step stepped).2) _ _ _ run ⟨[], .init board bytes pcb spaces testTotal⟩
  exact (books.step stepped).1

theorem freedOnce_of_last_thread : ∃ labels k freed k', Run (ApartStep sampleFixed) sampleKernel labels k ∧
    k.exec sampleFixed (.exitProcess 0) = .ok (k', freed) ∧ freed.length = 2 ∧ FreedOnce k freed k' := by
  have tested : passes (sampleKernel.exec sampleFixed (.createProcess sampleFile [] {})) (fun made =>
      passes (made.1.exec sampleFixed .schedule) fun picked =>
        passes (picked.1.exec sampleFixed (.thread 0x11000)) fun cloned =>
          passes (cloned.1.exec sampleFixed (.exitProcess 0)) fun first =>
            passes (first.1.exec sampleFixed .schedule) fun left =>
              passes (left.1.exec sampleFixed (.exitProcess 0)) fun second => second.2.length == 2) := by
    decide +kernel
  obtain ⟨⟨k₁, freed₁⟩, created, tested⟩ := passes_iff.1 tested
  obtain ⟨⟨k₂, freed₂⟩, picked, tested⟩ := passes_iff.1 tested
  obtain ⟨⟨k₃, freed₃⟩, cloned, tested⟩ := passes_iff.1 tested
  obtain ⟨⟨k₄, freed₄⟩, first, tested⟩ := passes_iff.1 tested
  obtain ⟨⟨k₅, freed₅⟩, left, tested⟩ := passes_iff.1 tested
  obtain ⟨⟨k₆, freed₆⟩, second, length_eq⟩ := passes_iff.1 tested
  have apart : sampleKernel.PoolApart := by
    refine ⟨?_, fun page reaches => ?_⟩
    · have distinct := samplePool.nodup
      rwa [nil_append] at distinct
    · obtain ⟨ref, placed, _⟩ := reaches
      cases placed
  have run : Run (ApartStep sampleFixed) sampleKernel [(.createProcess sampleFile [] {}, freed₁),
      (.schedule, freed₂), (.thread 0x11000, freed₃), (.exitProcess 0, freed₄), (.schedule, freed₅)] k₅ :=
    .snoc (.snoc (.snoc (.snoc (.snoc .nil ⟨apart, created⟩) ⟨trivial, picked⟩) ⟨trivial, cloned⟩)
      ⟨trivial, first⟩) ⟨trivial, left⟩
  have stepped : ApartStep sampleFixed k₅ (.exitProcess 0, freed₆) k₆ := ⟨trivial, second⟩
  exact ⟨_, k₅, freed₆, k₆, run, second, beq_iff_eq.1 length_eq, freedOnce_of_run run stepped⟩

def nineFile : ElfFile where
  phdrs := [⟨1, 5, 0x10000, 0, 0x100, 0x100⟩, ⟨1, 6, 0x11000, 0x100, 0x100, 0x9000⟩]
  content _ := 0

theorem not_freedOnce_of_stack : ∃ labels k freed k', sampleKernel.execAll sampleFixed
    [.createProcess nineFile [] {}, .schedule, .fork, .yield, .schedule, .thread 0x12000,
      .exitProcess 0, .schedule, .yield, .schedule, .exitProcess 0, .schedule, .fork, .yield,
      .schedule] = .ok (labels, k) ∧
    Run (Step sampleFixed) sampleKernel labels k ∧
    Step sampleFixed k (.exitProcess 0, freed) k' ∧ ¬ FreedOnce k freed k' := by
  have tested : passes (sampleKernel.execAll sampleFixed
      [.createProcess nineFile [] {}, .schedule, .fork, .yield, .schedule, .thread 0x12000,
        .exitProcess 0, .schedule, .yield, .schedule, .exitProcess 0, .schedule, .fork, .yield,
        .schedule]) (fun result =>
      passes (result.2.exec sampleFixed (.exitProcess 0)) fun exited => exited.2.count 0x807e9000 == 2) := by
    decide +kernel
  obtain ⟨⟨labels, k⟩, exec_eq, tested⟩ := passes_iff.1 tested
  obtain ⟨⟨k', freed⟩, exit_eq, twice⟩ := passes_iff.1 tested
  refine ⟨labels, k, freed, k', exec_eq, run_of_execAll .nil exec_eq, exit_eq, fun freedOnce => ?_⟩
  have twice : freed.count 0x807e9000 = 2 := beq_iff_eq.1 twice
  have isFreed : 0x807e9000 ∈ freed := count_pos_iff.1 (by omega)
  obtain ⟨before, after⟩ := freedOnce.unused _ isFreed
  have once := freedOnce.once _ before after
  omega

end SysCore.Kernel
