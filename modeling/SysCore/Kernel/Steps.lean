import SysCore.Kernel.Sound

/-!
# Clean calls keep the accounts

A call is clean if the process that exits or is killed shares its stack page with
no thread, a fork reads only what is there, and what is stored goes to the pages
it is meant for.  Every clean call keeps `Sound`, and the accounts hold in every
run of clean calls.  If no page in use is unmapped, the tables of the spaces in
use also map nothing but the pages of these spaces.
-/

namespace SysCore.Kernel

open Memory Transition Paging Process Sched Function List
open Container

def State.OwnStack (k : State) (ref : Nat) : Prop :=
  ∀ other ∈ k.sched.placed, other ≠ ref → (k.sched.pcb other).stack ≠ (k.sched.pcb ref).stack

instance (k : State) (ref : Nat) : Decidable (k.OwnStack ref) :=
  inferInstanceAs (Decidable (∀ other ∈ k.sched.placed, _))

structure CleanFork (space : AddressSpace) : Prop where
  counted : space.brk.pageCount ≤ space.brk.memKeeper.length
  genuine : ∀ unit ∈ space.mmap.memKeeper, InIdentityWindow unit.sourceAddr

instance (space : AddressSpace) : Decidable (CleanFork space) :=
  decidable_of_iff (space.brk.pageCount ≤ space.brk.memKeeper.length ∧
    ∀ unit ∈ space.mmap.memKeeper, InIdentityWindow unit.sourceAddr)
    ⟨fun ⟨counted, genuine⟩ => ⟨counted, genuine⟩, fun clean => ⟨clean.counted, clean.genuine⟩⟩

def CleanCall (space : AddressSpace) (mem : PhysMemory) : MemoryCall → Prop
  | .brk _ => True
  | .mmap length file => file = [] ∨
      (length % 2 ^ 32 ≤ 4096 * MmapControl.needPage length ∧ space.mmap.Fits length mem)
  | .munmap addr length => ∀ unit ∈ space.mmap.memKeeper, addr ≤ unit.mappedTo →
      unit.mappedTo ≤ MmapControl.lastPage addr length → InIdentityWindow unit.sourceAddr

def State.KeepsUnits (k : State) : Call → Prop
  | .memory (.munmap addr length) => ∀ ref, k.sched.running = some ref →
      ∀ unit ∈ (k.spaceOf ref).mmap.memKeeper,
        ¬ (addr ≤ unit.mappedTo ∧ unit.mappedTo ≤ MmapControl.lastPage addr length)
  | _ => True

def State.Unmaps (stale : Nat → Prop) (k : State) : Call → Prop
  | .memory (.munmap addr length) => ∀ ref, k.sched.running = some ref →
      ∀ unit ∈ (k.spaceOf ref).mmap.memKeeper, addr ≤ unit.mappedTo →
        unit.mappedTo ≤ MmapControl.lastPage addr length → stale (unitPage unit)
  | _ => True

variable {k : State} {call : Call}

theorem State.KeepsUnits.unmaps (keeps : k.KeepsUnits call) (stale : Nat → Prop) :
    k.Unmaps stale call := by
  cases call with
  | memory call =>
    cases call with
    | munmap addr length =>
      intro ref running_eq unit unitMem lower upper
      exact absurd ⟨lower, upper⟩ (keeps ref running_eq unit unitMem)
    | _ => trivial
  | _ => trivial

def State.Wakes (k : State) (ref address : Nat) (status : Int) : Prop :=
  k.sched.running = none ∧ ∃ sched events, k.sched.dispatch = some (sched, events) ∧
    sched.running = some ref ∧ State.statusStore events = some (address, status)

theorem State.wakes_iff {ref address : Nat} {status : Int} :
    k.Wakes ref address status ↔ k.sched.running = none ∧
      (k.sched.dispatch.map fun next => (next.1.running, State.statusStore next.2)) =
        some (some ref, some (address, status)) := by
  refine and_congr_right fun _ => ?_
  cases dispatched : k.sched.dispatch with
  | none => simp
  | some next => simp [Prod.ext_iff]

def State.StoresHeld (k : State) (ref address : Nat) : Prop :=
  ∀ i < 4, ∃ pa attributes, translate k.mem.bytes k.activeRoot (address + i) = some (pa, attributes) ∧
    pageOf pa ∈ held (k.spaceOf ref)

def State.Clean (k : State) : Call → Prop
  | .createProcess _ stackImage _ => stackImage.length ≤ 4016
  | .fork => ∀ ref, k.sched.running = some ref → CleanFork (k.spaceOf ref)
  | .memory call => ∀ ref, k.sched.running = some ref → CleanCall (k.spaceOf ref) k.mem call
  | .exitProcess _ => ∀ ref, k.sched.running = some ref → k.OwnStack ref
  | .sysKill pid => ∀ place ref, k.sched.searchByPid pid = some (place, ref) →
      place ≠ .running ∧ k.OwnStack ref
  | .schedule => ∀ ref address status, k.Wakes ref address status → k.StoresHeld ref address
  | .thread _ | .yield | .wait _ => True

def CleanStep (fixed : FixedPages) (k : State) (call : Call) (k' : State) : Prop :=
  k.Clean call ∧ ∃ freed, k.exec fixed call = .ok (k', freed)

def State.tidy (k : State) : Call → Bool
  | .createProcess _ stackImage _ => stackImage.length ≤ 4016
  | .fork => k.sched.running.all fun ref => CleanFork (k.spaceOf ref)
  | .exitProcess _ => k.sched.running.all fun ref => k.OwnStack ref
  | .schedule => k.sched.dispatch.all fun next => (State.statusStore next.2).isNone
  | .memory (.brk _) | .thread _ | .yield | .wait _ => true
  | _ => false

theorem State.not_wakes_of_tidy (tidy : k.tidy .schedule = true) (ref address : Nat) (status : Int) :
    ¬ k.Wakes ref address status := by
  rintro ⟨_, sched, events, dispatched, _, store_eq⟩
  rw [State.tidy, dispatched] at tidy
  simp [store_eq] at tidy

theorem State.clean_of_tidy (tidy : k.tidy call = true) : k.Clean call ∧ k.KeepsUnits call := by
  cases call with
  | createProcess file stackImage context => exact ⟨@of_decide_eq_true (_ ≤ _) _ tidy, trivial⟩
  | fork =>
    refine ⟨fun ref running_eq => ?_, trivial⟩
    rw [State.tidy, running_eq] at tidy
    exact of_decide_eq_true tidy
  | exitProcess exitRet =>
    refine ⟨fun ref running_eq => ?_, trivial⟩
    rw [State.tidy, running_eq] at tidy
    exact of_decide_eq_true tidy
  | schedule => exact ⟨fun ref address status wakes => (not_wakes_of_tidy tidy _ _ _ wakes).elim, trivial⟩
  | memory call =>
    cases call with
    | brk p => exact ⟨fun _ _ => trivial, trivial⟩
    | _ => cases tidy
  | sysKill pid => cases tidy
  | _ => exact ⟨trivial, trivial⟩

def State.tidyExec (fixed : FixedPages) (k : State) (call : Call) : Outcome State :=
  if k.tidy call then do return (← k.exec fixed call).1 else .error .panic

theorem run_of_tidy {fixed : FixedPages} {step : State → Call → State → Prop} {calls : List Call}
    {k' : State} (computed : calls.foldlM (State.tidyExec fixed) k = .ok k')
    (admits : ∀ {k call k'}, k.tidy call = true → (∃ freed, k.exec fixed call = .ok (k', freed)) →
      step k call k') : Run step k calls k' := by
  refine Run.of_foldlM (fun {source call target} exec_eq => ?_) .nil computed
  unfold State.tidyExec at exec_eq
  split at exec_eq
  next tidy =>
    obtain ⟨⟨after, freed⟩, returned, rest_eq⟩ := bind_eq_ok.1 exec_eq
    cases rest_eq
    exact admits tidy ⟨freed, returned⟩
  · cases exec_eq

namespace Sound

variable {board : Board} {fixed : FixedPages} {k : State} {account : Account} {stale : Nat → Prop}
  {k' : State} {key ref : Nat} {mem mem' : PhysMemory} {file : ElfFile}
  {freed tables mmapPages : List Nat} {child : AddressSpace} {sched : Scheduler Nat} {events : List Event}
  {call : Call} {length va address owner : Nat} {mmap : MmapControl} {space parent : AddressSpace}
  {bound : List (Bool × ElfPage)} {exitRet pid : Int}

def Carries (board : Board) (fixed : FixedPages) (k : State) (account : Account) (call : Call)
    (k' : State) : Prop :=
  ∃ account', Sound board fixed k' account' ∧
    ∀ stale : Nat → Prop, k.Unmaps stale call → account.Backed stale fixed k.spaces →
      account'.Backed stale fixed k'.spaces

theorem Carries.of_kept (kept : Sound board fixed k' account ∧ k'.spaces = k.spaces) :
    Carries board fixed k account call k' :=
  ⟨account, kept.1, fun _ _ backed => kept.2 ▸ backed⟩

theorem unitPage_of_window {unit : MmapUnit} (window : InIdentityWindow unit.sourceAddr) :
    unitPage unit = unit.sourceAddr :=
  if_pos window

variable (sound : Sound board fixed k account)
include sound

theorem brk_sound (keyMem : key ∈ account.keys) {p ret : Nat} {brk : BrkControl}
    (brk_eq : (k.spaces key).brk.brk p k.mem = .ok (ret, brk, mem)) :
    Carries board fixed k account (.memory (.brk p)) { k with
      mem := mem, spaces := update k.spaces key { k.spaces key with brk := brk } } := by
  have shaped := sound.shaped key keyMem
  have ready := sound.ready (sound.keysRoots key keyMem)
  rw [← shaped.brkTable_eq] at ready
  obtain ⟨binds, news, grows, _⟩ := (BrkControl.brk_holds (k.spaces key).brk ready p).result brk_eq
  have extended := grows.extended
  have memKeeper_eq : brk.memKeeper = _ := grows.memKeeper_eq
  rw [shaped.brkTable_eq] at extended
  have perm : (held { k.spaces key with brk := brk }).Perm (binds.map Prod.snd ++ held (k.spaces key)) := by
    refine perm_iff_count.2 fun page => ?_
    simp only [held, memKeeper_eq, count_append, count_cons]
    omega
  refine ⟨_, sound.withSpace (sound.grow keyMem extended perm rfl rfl ?_) rfl rfl rfl rfl, fun _ _ backed => ?_⟩
  · exact ⟨grows.pageTable_eq.trans shaped.brkTable_eq, shaped.mmapTable_eq, shaped.startAligned,
      shaped.unitsHigh⟩
  · refine backed.grow rfl (fun page pageMem => .inl (perm.mem_iff.2 (mem_append_right _ pageMem))) ?_
    exact fun bind bindMem => perm.mem_iff.2 (mem_append_left _ (mem_map_of_mem bindMem))

theorem pool_length_le (keyMem : key ∈ account.keys) :
    k.mem.memoryPool.length + (k.spaces key).mmap.memKeeper.length ≤ 1791 := by
  have bounded := sound.ledger.length_le
  have within : (held (k.spaces key)).length ≤
      (shares account.keys fun key => held (k.spaces key)).length :=
    (subperm_ext_iff.2 fun page _ => by
      rw [count_shares_erase _ keyMem]
      omega).length_le
  simp only [Account.pages, held, length_append, length_cons, length_map] at bounded within
  omega

theorem mmap_sound (keyMem : key ∈ account.keys) {file : List UInt8}
    (clean : CleanCall (k.spaces key) k.mem (.mmap length file)) {ret : Option Nat}
    (mmap_eq : (k.spaces key).mmap.mmap length file k.mem = .ok (ret, mmap, mem)) :
    ret.isSome ∧ Carries board fixed k account (.memory (.mmap length file)) { k with
      mem := mem, spaces := update k.spaces key { k.spaces key with mmap := mmap } } := by
  have shaped := sound.shaped key keyMem
  have ready := sound.ready (sound.keysRoots key keyMem)
  have bounded := sound.pool_length_le keyMem
  rw [← shaped.mmapTable_eq] at ready
  obtain ⟨ret_eq, pages, news, length_eq, _, result_eq, extended⟩ :=
    (MmapControl.mmap_holds (k.spaces key).mmap ready (Core.allWritable fixed _) shaped.startAligned
      (by omega) fun _ => clean).result mmap_eq
  dsimp only at ret_eq result_eq extended
  subst result_eq
  rw [shaped.mmapTable_eq] at extended
  have window : ∀ page ∈ pages, InIdentityWindow page := by
    intro page pageMem
    refine (sound.ledger.window (mem_append_right _ ?_)).2
    exact extended.grown.pool.mem_iff.2 (mem_append_left _ pageMem)
  have pages_eq : ((k.spaces key).mmap.newUnits pages).map unitPage = pages := by
    calc ((k.spaces key).mmap.newUnits pages).map unitPage
        = ((k.spaces key).mmap.newUnits pages).map MmapUnit.sourceAddr := by
          refine map_congr_left fun unit unitMem => unitPage_of_window (window _ ?_)
          rw [← MmapControl.sources_newUnits (k.spaces key).mmap pages]
          exact mem_map_of_mem unitMem
      _ = pages := MmapControl.sources_newUnits _ _
  have perm : (held { k.spaces key with mmap := { (k.spaces key).mmap with
      memKeeper := (k.spaces key).mmap.memKeeper ++ (k.spaces key).mmap.newUnits pages
      mmapStart := (k.spaces key).mmap.pageAddress (MmapControl.needPage length) } }).Perm
      (pages ++ held (k.spaces key)) := by
    refine perm_iff_count.2 fun page => ?_
    simp only [held, map_append, pages_eq, count_append, count_cons]
    omega
  refine ⟨by rw [ret_eq]; rfl, _,
    sound.withSpace (sound.grow keyMem extended perm rfl rfl ?_) rfl rfl rfl rfl, fun _ _ backed => ?_⟩
  · refine ⟨shaped.brkTable_eq, shaped.mmapTable_eq, ?_, fun unit unitMem => ?_⟩
    · have aligned := shaped.startAligned
      simp only [MmapControl.pageAddress]
      omega
    · rcases mem_append.1 unitMem with isOld | isNew
      · exact shaped.unitsHigh unit isOld
      · exact (extended.mappable (unit.mappedTo, unit.sourceAddr) (mem_map.2 ⟨unit, isNew, rfl⟩)).1
  · refine backed.grow rfl (fun page pageMem => .inl (perm.mem_iff.2 (mem_append_right _ pageMem))) ?_
    intro bind bindMem
    obtain ⟨unit, isNew, rfl⟩ := mem_map.1 bindMem
    refine perm.mem_iff.2 (mem_append_left _ ?_)
    rw [← MmapControl.sources_newUnits (k.spaces key).mmap pages]
    exact mem_map_of_mem isNew

theorem munmap_sound (keyMem : key ∈ account.keys) {addr : Nat}
    (clean : CleanCall (k.spaces key) k.mem (.munmap addr length))
    (munmap_eq : (k.spaces key).mmap.munmap addr length k.mem = .ok (mmap, mem)) :
    Sound board fixed { k with
        mem := mem, spaces := update k.spaces key { k.spaces key with mmap := mmap } } account ∧
      (∀ stale : Nat → Prop, (∀ unit ∈ (k.spaces key).mmap.memKeeper, addr ≤ unit.mappedTo →
          unit.mappedTo ≤ MmapControl.lastPage addr length → stale (unitPage unit)) →
        account.Backed stale fixed k.spaces →
        account.Backed stale fixed (update k.spaces key { k.spaces key with mmap := mmap })) := by
  have shaped := sound.shaped key keyMem
  have bounded := sound.pool_length_le keyMem
  obtain ⟨removed, released, table_eq, start_eq⟩ :=
    (MmapControl.munmap_holds (k.spaces key).mmap addr length shaped.unitsHigh (by omega)).result munmap_eq
  dsimp only at released table_eq start_eq
  have sources_eq : removed.map unitPage = removed.map MmapUnit.sourceAddr := by
    refine map_congr_left fun unit unitMem => unitPage_of_window ?_
    obtain ⟨lower, upper⟩ := released.covered unit unitMem
    exact clean unit (released.perm.mem_iff.2 (mem_append_left _ unitMem)) lower upper
  refine ⟨sound.withSpace (sound.shrink keyMem released.bytes_eq rfl rfl ?_ fun page => ?_) rfl rfl rfl rfl,
    fun stale unmapped backed => ?_⟩
  · refine ⟨shaped.brkTable_eq, table_eq.trans shaped.mmapTable_eq, ?_, fun unit unitMem =>
      shaped.unitsHigh unit (released.sublist.subset unitMem)⟩
    simp only [start_eq]
    split
    · decide
    · exact shaped.startAligned
  · have units := (released.perm.map unitPage).count_eq page
    simp only [held, released.pool_eq, ← sources_eq, map_append, count_append,
      count_cons, count_reverse] at units ⊢
    omega
  · have kept : ∀ page ∈ held (k.spaces key),
        page ∈ held { k.spaces key with mmap := mmap } ∨ stale page := by
      intro page pageMem
      by_cases isRemoved : page ∈ removed.map unitPage
      · obtain ⟨unit, unitMem, rfl⟩ := mem_map.1 isRemoved
        obtain ⟨lower, upper⟩ := released.covered unit unitMem
        exact .inr (unmapped unit (released.perm.mem_iff.2 (mem_append_left _ unitMem)) lower upper)
      · have units := (released.perm.map unitPage).mem_iff (a := page)
        simp only [map_append, mem_append, isRemoved, false_or] at units
        refine .inl ?_
        simpa only [held, mem_cons, mem_append, units] using pageMem
    simpa using @Account.Backed.grow _ _ _ _ key { k.spaces key with mmap := mmap } backed []
      account.tables rfl kept fun _ absent => absurd absent not_mem_nil

theorem memory_sound {call : MemoryCall} (clean : k.Clean (.memory call))
    (call_eq : k.memoryCall call = .ok (k', freed)) :
    Carries board fixed k account (.memory call) k' := by
  unfold State.memoryCall at call_eq
  split at call_eq
  · cases call_eq
  next ref running_eq =>
    have keyMem := sound.placedKey ref (Tagged.placed_of_running running_eq)
    have cleanCall : CleanCall (k.spaces (k.sched.pcb ref).managers) k.mem call := clean ref running_eq
    obtain ⟨⟨returned, space, mem⟩, space_eq, rest_eq⟩ := bind_eq_ok.1 call_eq
    dsimp only at rest_eq
    cases call with
    | brk p =>
      obtain ⟨⟨ret, brk, mem₁⟩, brk_eq, last_eq⟩ := bind_eq_ok.1 space_eq
      cases last_eq
      cases rest_eq
      exact sound.brk_sound keyMem brk_eq
    | mmap length file =>
      obtain ⟨⟨ret, mmap, mem₁⟩, mmap_eq, last_eq⟩ := bind_eq_ok.1 space_eq
      cases last_eq
      obtain ⟨isSome, carries⟩ := sound.mmap_sound keyMem cleanCall mmap_eq
      rw [if_pos isSome] at rest_eq
      cases rest_eq
      exact carries
    | munmap addr length =>
      obtain ⟨⟨mmap, mem₁⟩, munmap_eq, last_eq⟩ := bind_eq_ok.1 space_eq
      cases last_eq
      cases rest_eq
      obtain ⟨sound', backed⟩ := sound.munmap_sound keyMem cleanCall munmap_eq
      exact ⟨account, sound', fun stale unmaps => backed stale (unmaps ref running_eq)⟩

/-! ## New processes -/

theorem withNew {space : AddressSpace} {mem : PhysMemory}
    {account' : Account} {text textRefs : Nat} {sched : Scheduler Nat}
    (books : Books board fixed (k.addSpace space text textRefs mem) account')
    (keys_eq : account'.keys = k.sched.nextPcb :: account.keys)
    (roots_eq : account'.roots = k.sched.nextPcb :: account.roots)
    (accounted : Accounted sched.toPlacement)
    (pushed : Pushed k.sched sched k.sched.nextPcb space.stack)
    (tagged : Tagged (fun key => satpOf (update k.spaces k.sched.nextPcb space key).pageTable)
      sched) (satp_eq : sched.runningContext.satp = k.sched.runningContext.satp) :
    Sound board fixed { k.addSpace space text textRefs mem with sched := sched } account' := by
  have old : ∀ ref ∈ k.sched.placed, ref ≠ k.sched.nextPcb := fun ref placed same =>
    Tagged.new_not_placed sound.accounted (same ▸ placed)
  have oldRoot : ∀ key ∈ account.roots, key ≠ k.sched.nextPcb := fun key rootMem same =>
    sound.new_not_root (same ▸ rootMem)
  refine ⟨books.withSched sched _, accounted, ?_, ?_, ?_, tagged, ?_⟩
  · intro key rootMem
    rw [roots_eq] at rootMem
    simp only [pushed.nextPcb_eq]
    rcases mem_cons.1 rootMem with rfl | rootMem
    · exact Nat.lt_succ_self _
    · exact (sound.rootsOld key rootMem).trans (Nat.lt_succ_self _)
  · intro ref refPlaced
    rw [keys_eq]
    rcases mem_cons.1 (pushed.placed.mem_iff.1 refPlaced) with rfl | refPlaced
    · simp only [pushed.newKey]
      exact mem_cons_self
    · simp only [pushed.oldKey ref (old ref refPlaced)]
      exact mem_cons_of_mem _ (sound.placedKey ref refPlaced)
  · intro ref refPlaced
    rcases mem_cons.1 (pushed.placed.mem_iff.1 refPlaced) with rfl | refPlaced
    · simp only [State.spaceOf, State.addSpace, pushed.newKey, update_self, pushed.newStack]
    · simp only [State.spaceOf, State.addSpace, pushed.oldKey ref (old ref refPlaced),
        pushed.oldStack ref (old ref refPlaced),
        update_of_ne (oldRoot _ (sound.root_of_placed refPlaced))]
      exact sound.placedStack ref refPlaced
  · simp only [pushed.running_eq, pushed.blocked_eq, satp_eq]
    refine sound.active.imp_left ?_
    rintro ⟨key, rootMem, active⟩
    refine ⟨key, ?_, ?_⟩
    · rw [roots_eq]
      exact mem_cons_of_mem _ rootMem
    · simp only [State.addSpace, update_of_ne (oldRoot key rootMem)]
      exact active

theorem texts_update (space : AddressSpace) :
    (shares account.texts fun text =>
      (update k.spaces k.sched.nextPcb space text).elf.text.mAddrs) =
      shares account.texts fun text => (k.spaces text).elf.text.mAddrs := by
  refine shares_congr fun text textMem => ?_
  have old : text ≠ k.sched.nextPcb := fun same =>
    sound.new_not_root (same ▸ sound.textsRoots text textMem)
  rw [update_of_ne old]

theorem created_books (made : Created fixed file space k.mem mem tables bound) :
    Books board fixed (k.addSpace space k.sched.nextPcb 1 mem)
      (account.add k.sched.nextPcb (k.sched.nextPcb :: account.texts) tables
        (ElfSegment.binds (bound.map Prod.snd))) := by
  have new := sound.new_not_root
  have textsNew : k.sched.nextPcb ∉ account.texts := fun textMem => new (sound.textsRoots _ textMem)
  refine sound.toBooks.addSpace new made.ready.space made.grown ?_
    (nodup_cons.2 ⟨textsNew, sound.textsNodup⟩) ?_ (fun _ => mem_cons_of_mem _) ?_
    mem_cons_self (by rw [update_self]) ?_
  · refine sound.ledger.perm (perm_iff_count.2 fun page => ?_)
    have split := ((perm_textOf_dataOf bound).map ElfPage.mAddr).count_eq page
    have taken := made.grown.pool.count_eq page
    rw [count_append, count_append, sound.count_pages_add new, count_shares_cons,
      sound.texts_update]
    simp only [Account.pages, held, made.elf_eq, made.brk_eq, made.mmap_eq, BrkControl.init,
      MmapControl.init, update_self, ElfSegment.mAddrs, map_append, map_nil,
      append_nil, count_append, count_cons, count_nil] at split taken ⊢
    omega
  · intro other otherMem
    rcases mem_cons.1 otherMem with rfl | otherMem
    · exact mem_cons_self
    · exact mem_cons_of_mem _ (sound.textsRoots other otherMem)
  · have start_eq : space.mmap.mmapStart = mmapVirtBegin := by rw [made.mmap_eq]; rfl
    refine ⟨by rw [made.brk_eq]; rfl, by rw [made.mmap_eq]; rfl, by rw [start_eq]; decide, ?_⟩
    rw [made.mmap_eq]
    exact fun _ unitMem => absurd unitMem not_mem_nil
  · rw [count_eq_zero_of_not_mem]
    · exact Nat.zero_lt_one
    · intro isText
      obtain ⟨key, keyMem, text_eq⟩ := mem_map.1 isText
      exact textsNew (text_eq ▸ sound.textMem key keyMem)

omit sound in
theorem created_backed (made : Created fixed file space mem mem' tables bound) :
    Backed stale fixed space (ElfSegment.binds (bound.map Prod.snd)) := by
  have split := perm_textOf_dataOf bound
  refine ⟨fun bind bindMem => ?_, fun page pageMem => ?_⟩
  · obtain ⟨page, pageMem, rfl⟩ := mem_map.1 bindMem
    rw [split.mem_iff, mem_append] at pageMem
    rcases pageMem with isText | isData
    · refine .inr (.inl ?_)
      rw [made.elf_eq]
      exact mem_map_of_mem isText
    · refine .inl (mem_cons_of_mem _ (mem_append_left _ ?_))
      rw [made.elf_eq]
      exact mem_map_of_mem isData
  · rw [made.elf_eq, ← split.mem_iff] at pageMem
    exact made.mappable (page.vAddr, page.mAddr) (mem_map.2 ⟨page, pageMem, rfl⟩)

theorem tagged_update (space : AddressSpace) :
    Tagged (fun key => satpOf (update k.spaces k.sched.nextPcb space key).pageTable) k.sched := by
  refine sound.tagged.congr fun ref placed => ?_
  have old : (k.sched.pcb ref).managers ≠ k.sched.nextPcb := fun same =>
    sound.new_not_root (same ▸ sound.root_of_placed placed)
  simp only [update_of_ne old]

theorem createProcess_sound {stackImage : List UInt8} {context : Context}
    (fits : stackImage.length ≤ 4016) (create_eq : k.createProcess fixed file stackImage context = .ok k') :
    Carries board fixed k account (.createProcess file stackImage context) k' := by
  obtain ⟨⟨space, mem⟩, space_eq, rest_eq⟩ := bind_eq_ok.1 create_eq
  obtain ⟨⟨sched, events⟩, sched_eq, last_eq⟩ := bind_eq_ok.1 rest_eq
  cases last_eq
  obtain ⟨tables, bound, made⟩ := sound.ledger.created fits space_eq
  have tagged := (sound.tagged_update space).createProcess sound.accounted
    (by simp only [update_self]) sched_eq
  have accounted := sound.accounted.exec (.createProcess _) sched_eq
  obtain ⟨_, _, context_eq⟩ := Scheduler.createProcess_block sched_eq
  exact ⟨_, sound.withNew (sound.created_books made) rfl rfl accounted (.of_createProcess sched_eq) tagged
    (by rw [context_eq]), fun _ _ backed => backed.add sound.new_not_key (created_backed made)⟩

omit sound in
theorem not_window_of_mappable (mappable : Mappable (baseView fixed) va) : ¬ InIdentityWindow va := by
  rintro ⟨lower, upper⟩
  have slot : vpnOf va / 2 ^ 18 = 1 ∨ vpnOf va / 2 ^ 18 = 2 := by
    unfold vpnOf
    omega
  rcases slot with first | second
  · exact mappable.2 _ 1 (if_pos first)
  · exact mappable.2 _ 1 ((if_neg (by omega)).trans (if_pos second))

omit sound in
theorem unitPages_forked (forked : Forked fixed parent child mem mem' tables mmapPages) :
    child.mmap.memKeeper.map unitPage = mmapPages := by
  rw [forked.mmap_eq, map_zipWith]
  calc List.zipWith (fun unit page => unitPage ⟨page, unit.mappedTo⟩) parent.mmap.memKeeper mmapPages
      = (parent.mmap.memKeeper.zip mmapPages).map
          (uncurry fun unit page => unitPage ⟨page, unit.mappedTo⟩) :=
        map_uncurry_zip_eq_zipWith.symm
    _ = (parent.mmap.memKeeper.zip mmapPages).map Prod.snd := by
        refine map_congr_left fun pair pairMem => if_neg ?_
        refine not_window_of_mappable (forked.mappable (pair.1.mappedTo, pair.2) ?_)
        simp only [mem_append]
        refine .inr (.inr (.inr ?_))
        rw [zip_map_left]
        exact mem_map.2 ⟨pair, pairMem, rfl⟩
    _ = mmapPages := map_snd_zip (Nat.le_of_eq forked.mmapLength_eq)

omit sound in
theorem forked_backed (forked : Forked fixed parent child mem mem' tables mmapPages) :
    Backed stale fixed child (parent.elf.text.binds ++ (child.elf.data.binds ++ (child.brk.binds ++
      (parent.mmap.memKeeper.map MmapUnit.mappedTo).zip mmapPages))) := by
  refine ⟨fun bind bindMem => ?_, fun page pageMem => forked.mappable (page.vAddr, page.mAddr) ?_⟩
  · simp only [mem_append] at bindMem
    rcases bindMem with isText | isData | isBrk | isMmap
    · obtain ⟨page, pageMem, rfl⟩ := mem_map.1 isText
      rw [forked.text_eq]
      exact .inr (.inl (mem_map_of_mem pageMem))
    · obtain ⟨page, pageMem, rfl⟩ := mem_map.1 isData
      have pageMem : page.mAddr ∈ child.elf.data.mAddrs := mem_map_of_mem pageMem
      exact .inl (by simp [held, pageMem])
    · obtain ⟨⟨page, i⟩, pageMem, rfl⟩ := mem_map.1 isBrk
      have pageMem : page ∈ child.brk.memKeeper := (mem_zipIdx' pageMem).2 ▸ getElem_mem _
      exact .inl (by simp [held, pageMem])
    · have pageMem : bind.2 ∈ child.mmap.memKeeper.map unitPage := by
        rw [unitPages_forked forked]
        exact (of_mem_zip isMmap).2
      refine .inl ?_
      simp only [held, mem_cons, mem_append]
      exact .inr (.inr (.inr pageMem))
  · rw [forked.text_eq, mem_append] at pageMem
    simp only [mem_append]
    exact pageMem.imp (fun isText => mem_map.2 ⟨page, isText, rfl⟩)
      fun isData => .inl (mem_map.2 ⟨page, isData, rfl⟩)

theorem forked_books (keyMem : key ∈ account.keys)
    (forked : Forked fixed (k.spaces key) child k.mem mem tables mmapPages) :
    ∃ binds, Books board fixed (k.addSpace child (k.text key) (k.textRefs (k.text key) + 1) mem)
        (account.add k.sched.nextPcb account.texts tables binds) ∧
      ∀ stale : Nat → Prop, Backed stale fixed child binds := by
  have new := sound.new_not_root
  have shaped := sound.shaped key keyMem
  have unitPages_eq := unitPages_forked forked
  have textOld : k.text key ≠ k.sched.nextPcb := fun same =>
    new (same ▸ sound.textsRoots _ (sound.textMem key keyMem))
  refine ⟨_, sound.toBooks.addSpace new forked.ready.space forked.grown ?_ sound.textsNodup
    (fun other otherMem => mem_cons_of_mem _ (sound.textsRoots other otherMem)) (fun _ => id) ?_
    (sound.textMem key keyMem) ?_ (Nat.lt_succ_of_le (sound.textCount _)), fun _ => forked_backed forked⟩
  · refine sound.ledger.perm (perm_iff_count.2 fun page => ?_)
    have taken := forked.grown.pool.count_eq page
    rw [count_append, count_append, sound.count_pages_add new, sound.texts_update]
    simp only [Account.pages, held, unitPages_eq, count_append, count_cons] at taken ⊢
    omega
  · refine ⟨forked.brkTable_eq, by rw [forked.mmap_eq], by rw [forked.mmap_eq]; exact shaped.startAligned,
      fun unit unitMem => ?_⟩
    rw [forked.mmap_eq, ← map_uncurry_zip_eq_zipWith] at unitMem
    obtain ⟨⟨parentUnit, page⟩, pairMem, rfl⟩ := mem_map.1 unitMem
    have pageMem : page ∈ k.mem.memoryPool := by
      refine forked.grown.pool.mem_iff.2 (mem_append_left _ ?_)
      simp [(of_mem_zip pairMem).2]
    obtain ⟨_, lower, _⟩ := sound.ledger.window (mem_append_right _ pageMem)
    exact le_trans (by decide) lower
  · rw [update_of_ne textOld, forked.text_eq]
    exact sound.text_eq key keyMem

theorem fork_sound (clean : k.Clean .fork) (fork_eq : k.fork fixed = .ok k') :
    Carries board fixed k account .fork k' := by
  unfold State.fork at fork_eq
  split at fork_eq
  · cases fork_eq
  next ref running_eq =>
    have refPlaced := Tagged.placed_of_running running_eq
    have keyMem := sound.placedKey ref refPlaced
    obtain ⟨⟨child, mem⟩, space_eq, rest_eq⟩ := bind_eq_ok.1 fork_eq
    obtain ⟨⟨sched, events⟩, sched_eq, last_eq⟩ := bind_eq_ok.1 rest_eq
    cases last_eq
    obtain ⟨counted, genuine⟩ := clean ref running_eq
    have fresh : Fresh [] k.mem.memoryPool := sound.ledger.fresh.sublist (sublist_append_right _ _)
    have textAligned : ∀ page ∈ (k.spaceOf ref).elf.text, page.mAddr % 4096 = 0 ∧ page.mAddr < 2 ^ 64 := by
      intro page pageMem
      refine sound.ledger.fresh.aligned page.mAddr (mem_append_left _ ?_)
      refine mem_append_right _ (mem_append_right _ (mem_shares.2 ⟨_, sound.textMem _ keyMem, ?_⟩))
      rw [← sound.text_eq _ keyMem]
      exact mem_map_of_mem pageMem
    obtain ⟨tables, mmapPages, forked⟩ := ((k.spaceOf ref).fork_returns fixed fresh textAligned counted
      genuine).1.result space_eq
    obtain ⟨binds, books, own⟩ := sound.forked_books keyMem forked
    obtain ⟨tagged, satp_eq⟩ := (sound.tagged_update child).clone sound.accounted (by
      rintro stack pageTable managers same
      cases same
      simp only [update_self]
      rfl) sched_eq
    have accounted := sound.accounted.exec (.clone _) sched_eq
    exact ⟨_, sound.withNew books rfl rfl accounted (.of_clone running_eq sched_eq) tagged satp_eq,
      fun stale _ backed => backed.add sound.new_not_key (own stale)⟩

theorem thread_sound {stack : Nat} (thread_eq : k.thread stack = .ok k') :
    Sound board fixed k' account ∧ k'.spaces = k.spaces := by
  unfold State.thread at thread_eq
  split at thread_eq
  · cases thread_eq
  next ref running_eq =>
    have refPlaced := Tagged.placed_of_running running_eq
    have keyMem := sound.placedKey ref refPlaced
    obtain ⟨⟨sched, events⟩, sched_eq, last_eq⟩ := bind_eq_ok.1 thread_eq
    cases last_eq
    obtain ⟨tagged, satp_eq⟩ := sound.tagged.clone sound.accounted
      (fun _ _ _ same => by cases same) sched_eq
    have accounted := sound.accounted.exec (.clone _) sched_eq
    have pushed := Pushed.of_clone running_eq sched_eq
    have owned : ∀ other ∈ sched.placed, ∃ old ∈ k.sched.placed,
        (sched.pcb other).managers = (k.sched.pcb old).managers ∧
          (sched.pcb other).stack = (k.sched.pcb old).stack := by
      intro other placed
      rcases mem_cons.1 (pushed.placed.mem_iff.1 placed) with rfl | oldPlaced
      · exact ⟨ref, refPlaced, pushed.newKey, pushed.newStack⟩
      · have old : other ≠ k.sched.nextPcb := fun same =>
          Tagged.new_not_placed sound.accounted (same ▸ oldPlaced)
        exact ⟨other, oldPlaced, pushed.oldKey other old, pushed.oldStack other old⟩
    refine ⟨⟨sound.toBooks.withSched sched _, accounted, fun key rootMem => ?_, fun other placed => ?_,
      fun other placed => ?_, tagged, ?_⟩, rfl⟩
    · exact (sound.rootsOld key rootMem).trans (pushed.nextPcb_eq ▸ Nat.lt_succ_self _)
    · obtain ⟨old, oldPlaced, managers_eq, _⟩ := owned other placed
      simp only [managers_eq]
      exact sound.placedKey old oldPlaced
    · obtain ⟨old, oldPlaced, managers_eq, stack_eq⟩ := owned other placed
      simp only [State.spaceOf, managers_eq, stack_eq]
      exact sound.placedStack old oldPlaced
    · obtain ⟨key, rootMem, active⟩ := sound.active_of_running running_eq
      exact .inl ⟨key, rootMem, satp_eq.trans active⟩

/-! ## Processes that leave -/

theorem leave {ref : Nat} (refPlaced : ref ∈ k.sched.placed) (own : k.OwnStack ref)
    {sched : Scheduler Nat} (quiet : Quiet k.sched.toPlacement sched.toPlacement)
    (gone : ref ∉ sched.placed) (accounted : Accounted sched.toPlacement)
    (tagged : Tagged (fun key => satpOf (k.spaces key).pageTable) sched)
    (active : (∃ key ∈ account.roots, sched.runningContext.satp = satpOf (k.spaces key).pageTable) ∨
      (sched.running = none ∧ sched.blocked = [])) {mem : PhysMemory} {textRefs refs : Nat → Nat}
    {texts : List Nat} (books : Books board fixed { k with mem := mem, textRefs := textRefs }
      { account with keys := account.keys.erase (k.sched.pcb ref).managers, texts := texts }) :
    Sound board fixed { k with sched := sched, mem := mem, refs := refs, textRefs := textRefs }
      { account with keys := account.keys.erase (k.sched.pcb ref).managers, texts := texts } := by
  refine ⟨books.withSched sched refs, accounted, fun key rootMem => ?_, fun other placed => ?_,
    fun other placed => ?_, tagged, active⟩
  · exact quiet.nextPcb_eq.symm ▸ sound.rootsOld key rootMem
  · have otherPlaced := quiet.placed other placed
    have different : other ≠ ref := fun same => gone (same ▸ placed)
    simp only [quiet.managers_eq]
    refine (mem_erase_of_ne fun same => ?_).2 (sound.placedKey other otherPlaced)
    refine own other otherPlaced different ?_
    rw [sound.placedStack other otherPlaced, sound.placedStack ref refPlaced, State.spaceOf,
      State.spaceOf, same]
  · simp only [State.spaceOf, quiet.managers_eq, quiet.stack_eq]
    exact sound.placedStack other (quiet.placed other placed)

theorem killed_books (refPlaced : ref ∈ k.sched.placed)
    (stack_eq : k.mem.deallocPage (k.sched.pcb ref).stack = .ok mem) :
    Books board fixed { k with mem := mem }
      { account with keys := account.keys.erase (k.sched.pcb ref).managers } := by
  have keyMem := sound.placedKey ref refPlaced
  obtain ⟨pool_eq, bytes_eq⟩ := deallocPage_pool stack_eq
  refine @Books.retire _ _ _ _ sound.toBooks _ keyMem mem k.textRefs account.texts bytes_eq (fun page => ?_)
    (.refl _) (fun other otherMem => sound.textMem other (mem_of_mem_erase otherMem)) fun text => ?_
  · rw [pool_eq, sound.placedStack ref refPlaced]
    simp only [State.spaceOf, held, count_append, count_cons]
    omega
  · have before := sound.textCount text
    rw [count_map_erase k.text keyMem] at before
    omega

theorem destroyed_books (refPlaced : ref ∈ k.sched.placed)
    (stack_eq : k.mem.deallocPage (k.sched.pcb ref).stack = .ok mem) {text : Nat}
    (text_eq : k.text (k.sched.pcb ref).managers = text)
    (destroy_eq : (k.spaceOf ref).elf.destroy (k.textRefs text - 1 = 0) mem = .ok mem') :
    ∃ texts, Books board fixed
      { k with mem := mem', textRefs := update k.textRefs text (k.textRefs text - 1) }
      { account with keys := account.keys.erase (k.sched.pcb ref).managers, texts := texts } := by
  have keyMem := sound.placedKey ref refPlaced
  have segment_eq := sound.text_eq _ keyMem
  have textMem := sound.textMem _ keyMem
  rw [text_eq] at segment_eq textMem
  obtain ⟨pool_eq, bytes_eq⟩ := deallocPage_pool stack_eq
  obtain ⟨pool_eq', bytes_eq'⟩ := ElfImage.destroy_pool destroy_eq
  have counts : ∀ other, ((account.keys.erase (k.sched.pcb ref).managers).map k.text).count other ≤
      update k.textRefs text (k.textRefs text - 1) other := by
    intro other
    have before := sound.textCount other
    rw [count_map_erase k.text keyMem, text_eq] at before
    by_cases same : other = text
    · subst same
      rw [if_pos rfl] at before
      rw [update_self]
      omega
    · rw [update_of_ne same]
      omega
  rw [pool_eq] at pool_eq'
  by_cases last : k.textRefs text - 1 = 0
  · -- no other space in use has this text segment
    refine ⟨account.texts.erase text, @Books.retire _ _ _ _ sound.toBooks _ keyMem mem' _ _
      (bytes_eq'.trans bytes_eq) (fun page => ?_) erase_sublist (fun other otherMem => ?_) counts⟩
    · have texts := count_shares_erase (fun text => (k.spaces text).elf.text.mAddrs) textMem page
      rw [pool_eq', sound.placedStack ref refPlaced]
      simp only [State.spaceOf, held, ElfImage.destroyed, last, decide_true, if_true, segment_eq,
        reverse_append, count_append, count_cons, count_reverse] at texts ⊢
      omega
    · refine (mem_erase_of_ne fun same => ?_).2 (sound.textMem other (mem_of_mem_erase otherMem))
      have none := counts text
      rw [update_self, last] at none
      exact count_eq_zero.1 (Nat.le_zero.1 none) (mem_map.2 ⟨other, otherMem, same⟩)
  · refine ⟨account.texts, @Books.retire _ _ _ _ sound.toBooks _ keyMem mem' _ _
      (bytes_eq'.trans bytes_eq) (fun page => ?_) (.refl _)
      (fun other otherMem => sound.textMem other (mem_of_mem_erase otherMem)) counts⟩
    rw [pool_eq', sound.placedStack ref refPlaced]
    simp only [State.spaceOf, held, ElfImage.destroyed, last, decide_false, Bool.false_eq_true, if_false,
      append_nil, count_append, count_cons, count_reverse]
    omega

theorem exited (running_eq : k.sched.running = some ref)
    (exit_eq : k.sched.exitProcess exitRet = .ok (sched, events)) :
    Quiet k.sched.toPlacement sched.toPlacement ∧ ref ∉ sched.placed ∧
      sched.runningContext = k.sched.runningContext := by
  have moved := Scheduler.exitProcess_move exit_eq
  have absent := fun noneMade (isGone : gone events = [ref]) =>
    (sound.accounted.not_placed_of_gone (.exitProcess _) exit_eq noneMade isGone).1
  rw [Scheduler.exitProcess, running_eq] at exit_eq
  cases exit_eq
  exact ⟨moved.quiet sound.accounted rfl, absent rfl rfl, rfl⟩

theorem exit_sound (clean : k.Clean (.exitProcess exitRet))
    (exit_eq : k.exitProcess exitRet = .ok (k', freed)) :
    Carries board fixed k account (.exitProcess exitRet) k' := by
  unfold State.exitProcess at exit_eq
  split at exit_eq
  · cases exit_eq
  next ref running_eq =>
    have refPlaced := Tagged.placed_of_running running_eq
    obtain ⟨mem, stack_eq, rest_eq⟩ := bind_eq_ok.1 exit_eq
    obtain ⟨⟨sched, events⟩, sched_eq, drop_eq⟩ := bind_eq_ok.1 rest_eq
    obtain ⟨quiet, gone, context_eq⟩ := sound.exited running_eq sched_eq
    have accounted := sound.accounted.exec (.exitProcess _) sched_eq
    have tagged := sound.tagged.exitProcess sched_eq
    obtain ⟨key, rootMem, active⟩ := sound.active_of_running running_eq
    have active' : (∃ key ∈ account.roots, sched.runningContext.satp = satpOf (k.spaces key).pageTable) ∨
        (sched.running = none ∧ sched.blocked = []) := .inl ⟨key, rootMem, by rw [context_eq, active]⟩
    have leaves := fun {mem' textRefs refs texts} => @leave _ _ _ _ sound ref refPlaced
      (clean ref running_eq) sched quiet gone accounted tagged active' mem' textRefs refs texts
    unfold State.dropBlock at drop_eq
    simp only [update_self] at drop_eq
    split at drop_eq
    · obtain ⟨mem', destroy_eq, last_eq⟩ := bind_eq_ok.1 drop_eq
      cases last_eq
      obtain ⟨texts, books⟩ := sound.destroyed_books refPlaced stack_eq rfl destroy_eq
      exact ⟨_, leaves books, fun _ _ backed => backed.erase⟩
    · cases drop_eq
      exact ⟨_, leaves (sound.killed_books refPlaced stack_eq), fun _ _ backed => backed.erase⟩

theorem killed {place : Place} (search_eq : k.sched.searchByPid pid = some (place, ref))
    (notRunning : place ≠ .running) (kill_eq : k.sched.sysKill pid = .ok (sched, events)) :
    Quiet k.sched.toPlacement sched.toPlacement ∧ ref ∉ sched.placed ∧
      sched.running = k.sched.running ∧ (k.sched.blocked = [] → sched.blocked = []) ∧
      sched.runningContext = k.sched.runningContext := by
  obtain ⟨_, inPlace⟩ := k.sched.mem_of_searchByPid search_eq
  have absent := fun noneMade (isGone : gone events = [ref]) =>
    (sound.accounted.not_placed_of_gone (.sysKill _) kill_eq noneMade isGone).1
  rw [Scheduler.sysKill, search_eq] at kill_eq
  cases place with
  | running => exact absurd rfl notRunning
  | runnable =>
    cases kill_eq
    exact ⟨by simpa [Scheduler.notifyParent] using (Removal.runnable inPlace).quiet, absent rfl rfl,
      by simp [Scheduler.notifyParent], fun empty => by simpa [Scheduler.notifyParent] using empty, rfl⟩
  | blocked =>
    cases kill_eq
    exact ⟨by simpa [Scheduler.notifyParent] using (Removal.blocked inPlace).quiet, absent rfl rfl,
      by simp [Scheduler.notifyParent], fun empty => by simp [Scheduler.notifyParent, empty], rfl⟩

theorem kill_sound (clean : k.Clean (.sysKill pid)) (kill_eq : k.sysKill pid = .ok k') :
    Carries board fixed k account (.sysKill pid) k' := by
  unfold State.sysKill at kill_eq
  split at kill_eq
  · cases kill_eq
    exact .of_kept ⟨sound, rfl⟩
  next place ref search_eq =>
    obtain ⟨notRunning, own⟩ := clean place ref search_eq
    have refPlaced := k.sched.mem_placed_of_searchByPid search_eq
    obtain ⟨mem, stack_eq, rest_eq⟩ := bind_eq_ok.1 kill_eq
    obtain ⟨⟨sched, events⟩, sched_eq, last_eq⟩ := bind_eq_ok.1 rest_eq
    have accounted := sound.accounted.exec (.sysKill _) sched_eq
    have tagged := sound.tagged.sysKill sched_eq
    obtain ⟨quiet, gone, running_eq, blocked, context_eq⟩ := sound.killed search_eq notRunning sched_eq
    cases last_eq
    refine ⟨_, sound.leave refPlaced own quiet gone accounted tagged ?_
      (sound.killed_books refPlaced stack_eq), fun _ _ backed => backed.erase⟩
    rw [context_eq, running_eq]
    exact sound.active.imp_right (And.imp_right blocked)

/-! ## The scheduler -/

theorem yield_sound (yield_eq : k.yield = .ok k') :
    Sound board fixed k' account ∧ k'.spaces = k.spaces := by
  obtain ⟨⟨sched, events⟩, sched_eq, last_eq⟩ := bind_eq_ok.1 yield_eq
  cases last_eq
  have tagged := sound.tagged.yield sched_eq
  have accounted := sound.accounted.exec .yield sched_eq
  have moved := Scheduler.park_move k.sched.runningContext.advance sched_eq
  unfold Scheduler.yield at sched_eq
  split at sched_eq
  · cases sched_eq
  next ref running_eq =>
    cases sched_eq
    exact ⟨sound.withSched (moved.quiet sound.accounted rfl) accounted tagged (.inl (sound.active_of_running running_eq)), rfl⟩

theorem wait_sound {wstatus : Nat} (wait_eq : k.wait wstatus = .ok k') :
    Sound board fixed k' account ∧ k'.spaces = k.spaces := by
  obtain ⟨⟨sched, events⟩, sched_eq, last_eq⟩ := bind_eq_ok.1 wait_eq
  cases last_eq
  have tagged := sound.tagged.wait sched_eq
  have accounted := sound.accounted.exec (.wait wstatus) sched_eq
  have moved := Scheduler.wait_move sched_eq
  unfold Scheduler.wait at sched_eq
  split at sched_eq
  · cases sched_eq
  next ref running_eq =>
    have active := sound.active_of_running running_eq
    split at sched_eq
    all_goals
      cases sched_eq
      exact ⟨sound.withSched (moved.quiet sound.accounted rfl) accounted tagged (.inl active), rfl⟩

theorem dispatch_sound (idle : k.sched.running = none)
    (dispatched : k.sched.dispatch = some (sched, events)) :
    Sound board fixed { k with sched := sched } account := by
  have moved := Scheduler.dispatch_move idle dispatched
  obtain ⟨noneMade, _⟩ := Scheduler.made_gone_of_dispatch dispatched
  obtain ⟨tagged, ref, running_eq⟩ := sound.tagged.dispatch dispatched
  have quiet := moved.quiet sound.accounted noneMade
  obtain ⟨before, ledger⟩ := sound.accounted
  refine sound.withSched quiet ⟨_, ledger.move moved⟩ tagged (.inl ⟨_, ?_, tagged.live ref running_eq⟩)
  rw [quiet.managers_eq]
  exact sound.root_of_placed (quiet.placed ref (Tagged.placed_of_running running_eq))

theorem active_of_wakes {status : Int} (wakes : k.Wakes ref address status) :
    ref ∈ k.sched.placed ∧ ∃ key ∈ account.roots, k.activeRoot = (k.spaces key).pageTable := by
  obtain ⟨idle, sched, events, dispatched, running_eq, store_eq⟩ := wakes
  rcases Scheduler.dispatch_cases dispatched with
    ⟨_, _, _, _, rfl⟩ | ⟨ref', record, rest, blockedMem, _, wake_eq⟩
  · cases store_eq
  · cases wake_eq
    cases running_eq
    refine ⟨by simp [Placement.placed, blockedMem], ?_⟩
    rcases sound.active with ⟨key, rootMem, satp_eq⟩ | ⟨_, empty⟩
    · have space := sound.table key rootMem
      have inPool : (k.spaces key).pageTable ∈ account.pages k.spaces ++ k.mem.memoryPool :=
        mem_append_left _ (mem_append_left _ (mem_shares.2 ⟨key, rootMem, space.root_mem⟩))
      obtain ⟨aligned, _, upper⟩ := sound.ledger.window inPool
      refine ⟨key, rootMem, ?_⟩
      rw [State.activeRoot, satp_eq]
      exact rootOf_satpOf aligned (by omega)
    · rw [empty] at blockedMem
      cases blockedMem

theorem storable {pa attributes : Nat} (rootMem : key ∈ account.roots) (ownerMem : owner ∈ account.keys)
    (translate_eq : translate k.mem.bytes (k.spaces key).pageTable va = some (pa, attributes))
    (pageMem : pageOf pa ∈ held (k.spaces owner)) :
    Storable k.mem.bytes (k.spaces key).pageTable (account.tables key) va :=
  ⟨pa, attributes, translate_eq, (Core.allWritable fixed _).translate (sound.table key rootMem) translate_eq,
    fun isTable => (sound.held_apart ownerMem pageMem).2 (mem_shares.2 ⟨key, rootMem, isTable⟩)⟩

theorem store_sound {data : List UInt8} (rootMem : key ∈ account.roots) (ownerMem : owner ∈ account.keys)
    (targets : ∀ i < data.length, ∃ pa attributes,
      translate k.mem.bytes (k.spaces key).pageTable (address + i) = some (pa, attributes) ∧
        pageOf pa ∈ held (k.spaces owner)) :
    (storeVirtual (k.spaces key).pageTable data address k.mem.bytes).2 = true ∧
      Sound board fixed { k with mem := { k.mem with
        bytes := (storeVirtual (k.spaces key).pageTable data address k.mem.bytes).1 } } account := by
  obtain ⟨complete, _, frame⟩ := storeVirtual_targets data (sound.table key rootMem) fun i i_lt => by
    obtain ⟨pa, attributes, translate_eq, pageMem⟩ := targets i i_lt
    exact sound.storable rootMem ownerMem translate_eq pageMem
  have aligned : ∀ page ∈ held (k.spaces owner), page % 4096 = 0 := fun page pageMem =>
    (sound.ledger.window (mem_append_left _ (sound.held_mem ownerMem pageMem))).1
  have apart : ∀ page ∈ held (k.spaces owner), page ∉ shares account.roots account.tables :=
    fun page pageMem => (sound.held_apart ownerMem pageMem).2
  refine ⟨complete, { sound with toBooks := sound.toBooks.store aligned apart fun a outside => ?_ }⟩
  refine frame a fun i i_lt attributes hit => ?_
  obtain ⟨pa, _, translate_eq, pageMem⟩ := targets i i_lt
  cases hit.symm.trans translate_eq
  exact outside.pageOf_not_mem pageMem

theorem schedule_sound (clean : k.Clean .schedule) (schedule_eq : k.schedule = .ok (k', freed)) :
    Sound board fixed k' account ∧ k'.spaces = k.spaces := by
  unfold State.schedule at schedule_eq
  split at schedule_eq
  · cases schedule_eq
  next idle =>
    split at schedule_eq
    · cases schedule_eq
    next sched events dispatched =>
      split at schedule_eq
      · cases schedule_eq
        exact ⟨sound.dispatch_sound idle dispatched, rfl⟩
      next address status store_eq =>
        obtain ⟨_, ref, running_eq⟩ := sound.tagged.dispatch dispatched
        have wakes : k.Wakes ref address status :=
          ⟨idle, sched, events, dispatched, running_eq, store_eq⟩
        obtain ⟨refPlaced, key, rootMem, active_eq⟩ := sound.active_of_wakes wakes
        have stores := clean ref address status wakes
        rw [State.StoresHeld, active_eq] at stores
        obtain ⟨complete, stored⟩ := sound.store_sound rootMem (sound.placedKey ref refPlaced)
          (show ∀ i < (intBytes status).length, _ from fun i i_lt => stores i (by simpa [intBytes] using i_lt))
        rw [active_eq] at schedule_eq
        dsimp only at schedule_eq
        rw [if_pos complete] at schedule_eq
        cases schedule_eq
        exact ⟨stored.dispatch_sound idle dispatched, rfl⟩

theorem step (stepped : CleanStep fixed k call k') : Carries board fixed k account call k' := by
  obtain ⟨clean, freed, exec_eq⟩ := stepped
  cases call with
  | createProcess file stackImage context => exact sound.createProcess_sound clean (plain_eq_ok.1 exec_eq).1
  | fork => exact sound.fork_sound clean (plain_eq_ok.1 exec_eq).1
  | thread stack => exact .of_kept (sound.thread_sound (plain_eq_ok.1 exec_eq).1)
  | memory call => exact sound.memory_sound clean exec_eq
  | exitProcess exitRet => exact sound.exit_sound clean exec_eq
  | sysKill pid => exact sound.kill_sound clean (plain_eq_ok.1 exec_eq).1
  | yield => exact .of_kept (sound.yield_sound (plain_eq_ok.1 exec_eq).1)
  | wait wstatus => exact .of_kept (sound.wait_sound (plain_eq_ok.1 exec_eq).1)
  | schedule => exact .of_kept (sound.schedule_sound clean exec_eq)

omit sound in
theorem init {fastSyscallPage : Nat} {board : Board} {bytes : Bytes} {pcb : Nat → PCB Nat}
    {spaces : Nat → AddressSpace} {testTotal : Nat}
    (image : fastSyscallPage % 4096 = 0 ∧ fastSyscallPage < board.kernelEnd) :
    Sound board (bootFixed board fastSyscallPage image) (State.init board bytes pcb spaces testTotal)
      ⟨[], [], [], fun _ => [], fun _ => []⟩ where
  table := nofun
  ledger := PoolOf.boot board bytes image
  rootsNodup := nodup_nil
  keysNodup := nodup_nil
  textsNodup := nodup_nil
  keysRoots := nofun
  textsRoots := nofun
  shaped := nofun
  textMem := nofun
  text_eq := nofun
  textCount _ := Nat.zero_le _
  accounted := ⟨[], .init pcb testTotal⟩
  rootsOld := nofun
  placedKey := nofun
  placedStack := nofun
  tagged := .init _ pcb testTotal
  active := .inr ⟨rfl, rfl⟩

end Sound

end SysCore.Kernel
