import SysCore.Kernel.Wakeup
import SysCore.Process.Alike
import Mathlib.Data.List.Flatten

/-!
# Recycled pages

A page that is freed keeps its bytes until it is taken again.  Two kernels that
differ in the bytes of free pages only perform the same calls in the same way, and
no process ever reads a difference, as long as every mapped file covers the pages
of its mapping.  What lies behind the end of a shorter file is what the page held
when it was freed.

The calls are all calls of the kernel, not only those that take pages: processes
exit, are killed and take turns in between.
-/

namespace SysCore.Kernel

open Memory Transition Paging Process Sched List
open Container

def Twin (dirty : Nat → Prop) (k₁ k₂ : State) : Prop :=
  ∃ mem, k₂ = { k₁ with mem := mem } ∧ Alike dirty k₁.mem mem

structure State.Hides (k : State) (dirty : Nat → Prop) : Prop where
  free : ∀ page, dirty page → page ∈ k.mem.memoryPool
  unmapped : ∀ ref ∈ k.sched.placed, ∀ va pte,
    lookup k.mem.bytes (k.spaceOf ref).pageTable (indices (vpnOf va)) = some (pte, 0) →
      ¬ dirty (pteAddress pte)

def Obtained (space : AddressSpace) (va : Nat) : Prop :=
  pageOf va = space.stack ∨ ¬ InIdentityWindow (va % 2 ^ 39)

def SameReads (k₁ k₂ : State) : Prop :=
  ∀ ref ∈ k₁.sched.placed, ∀ va, Obtained (k₁.spaceOf ref) va →
    readUser k₂.mem.bytes (k₂.spaceOf ref).pageTable va =
      readUser k₁.mem.bytes (k₁.spaceOf ref).pageTable va

def State.Covered (k : State) : Call → Prop
  | .memory call => ∀ ref, k.sched.running = some ref → Covers (k.spaceOf ref) k.mem call
  | _ => True

def FilledStep (fixed : FixedPages) (k : State) (call : Call) (k' : State) : Prop :=
  k.Clean call ∧ k.Covered call ∧ ∃ freed, k.exec fixed call = .ok (k', freed)

def AnyStep (fixed : FixedPages) (k : State) (call : Call) (k' : State) : Prop :=
  ∃ freed, k.exec fixed call = .ok (k', freed)

def Trails (dirty : Nat → Prop) (k₁ k₂ : State) : Prop :=
  Twin (Left dirty [] k₁.mem) k₁ k₂

def FreesSame (dirty : Nat → Prop) (r₁ r₂ : State × List Nat) : Prop :=
  r₂.2 = r₁.2 ∧ Trails dirty r₁.1 r₂.1

section Calls

variable {dirty : Nat → Prop} {fixed : FixedPages} {k : State} {mem₂ : PhysMemory}
  (behind : Behind dirty [] k.mem mem₂)
include behind

theorem yield_follows : Follows (Trails dirty) k.yield { k with mem := mem₂ }.yield := by
  refine (Follows.refl k.sched.yield).bind ?_
  rintro ⟨sched, events⟩ _ _ rfl
  exact .of_ok ⟨mem₂, rfl, behind⟩

theorem wait_follows (wstatus : Nat) :
    Follows (Trails dirty) (k.wait wstatus) ({ k with mem := mem₂ }.wait wstatus) := by
  refine (Follows.refl (k.sched.wait wstatus)).bind ?_
  rintro ⟨sched, events⟩ _ _ rfl
  exact .of_ok ⟨mem₂, rfl, behind⟩

theorem thread_follows (stack : Nat) :
    Follows (Trails dirty) (k.thread stack) ({ k with mem := mem₂ }.thread stack) := by
  unfold State.thread
  cases k.sched.running with
  | none => exact .of_error _
  | some ref =>
    refine (Follows.refl (k.sched.clone (.thread stack))).bind ?_
    rintro ⟨sched, events⟩ _ _ rfl
    exact .of_ok ⟨mem₂, rfl, behind⟩

theorem createProcess_follows (fresh : Fresh [] k.mem.memoryPool) (file : ElfFile)
    (stackImage : List UInt8) (context : Context) :
    Follows (Trails dirty) (k.createProcess fixed file stackImage context)
      ({ k with mem := mem₂ }.createProcess fixed file stackImage context) := by
  refine (createSpace_follows fixed file stackImage behind fresh).next fun space made₁ made₂ _ behind' => ?_
  refine (Follows.refl (k.sched.createProcess
    ⟨space.stack, k.sched.nextPcb, { context with satp := satpOf space.pageTable }⟩)).bind ?_
  rintro ⟨sched, events⟩ _ _ rfl
  exact .of_ok ⟨made₂, rfl, behind'⟩

theorem fork_follows (fresh : Fresh [] k.mem.memoryPool)
    (clean : ∀ ref, k.sched.running = some ref → ForkReads dirty (k.spaceOf ref)) :
    Follows (Trails dirty) (k.fork fixed) ({ k with mem := mem₂ }.fork fixed) := by
  unfold State.fork
  cases running_eq : k.sched.running with
  | none => exact .of_error _
  | some ref =>
    refine ((k.spaceOf ref).fork_follows fixed behind fresh (clean ref running_eq)).next
      fun child forked₁ forked₂ _ behind' => ?_
    refine (Follows.refl (k.sched.clone (.fork child.stack child.pageTable k.sched.nextPcb))).bind ?_
    rintro ⟨sched, events⟩ _ _ rfl
    exact .of_ok ⟨forked₂, rfl, behind'⟩

theorem dropBlock_follows (key : Nat) :
    Follows (FreesSame dirty) (k.dropBlock key) ({ k with mem := mem₂ }.dropBlock key) := by
  unfold State.dropBlock
  dsimp only
  split
  · refine (ElfImage.destroy_follows behind _ _).bind fun freed₁ freed₂ _ behind' => ?_
    exact .of_ok ⟨rfl, freed₂, rfl, behind'⟩
  · exact .of_ok ⟨rfl, mem₂, rfl, behind⟩

theorem exitProcess_follows (exitRet : Int) :
    Follows (FreesSame dirty) (k.exitProcess exitRet) ({ k with mem := mem₂ }.exitProcess exitRet) := by
  unfold State.exitProcess
  cases k.sched.running with
  | none => exact .of_error _
  | some ref =>
    refine (deallocPage_follows behind _).bind fun freed₁ freed₂ _ behind' => ?_
    refine (Follows.refl (k.sched.exitProcess exitRet)).bind ?_
    rintro ⟨sched, events⟩ _ _ rfl
    exact @dropBlock_follows _ { k with sched := sched, mem := freed₁ } _ behind' _

theorem sysKill_follows (pid : Int) :
    Follows (Trails dirty) (k.sysKill pid) ({ k with mem := mem₂ }.sysKill pid) := by
  unfold State.sysKill
  cases k.sched.searchByPid pid with
  | none => exact .of_ok ⟨mem₂, rfl, behind⟩
  | some found =>
    refine (deallocPage_follows behind _).bind fun freed₁ freed₂ _ behind' => ?_
    refine (Follows.refl (k.sched.sysKill pid)).bind ?_
    rintro ⟨sched, events⟩ _ _ rfl
    exact .of_ok ⟨freed₂, rfl, behind'⟩

variable {board : Board} {account : Account} (sound : Sound board fixed k account)
include sound

theorem Sound.paired {key : Nat} (rootMem : key ∈ account.roots) :
    Paired dirty [] k.mem mem₂ (k.spaces key).pageTable (bindAll (baseView fixed) (account.binds key))
      (account.tables key) :=
  ⟨sound.ready rootMem, behind, nofun⟩

theorem memoryCall_follows {call : MemoryCall} (covered : k.Covered (.memory call)) :
    Follows (FreesSame dirty) (k.memoryCall call) ({ k with mem := mem₂ }.memoryCall call) := by
  unfold State.memoryCall
  cases running_eq : k.sched.running with
  | none => exact .of_error _
  | some ref =>
    have keyMem := sound.placedKey ref (Tagged.placed_of_running running_eq)
    have shaped := sound.shaped _ keyMem
    have bounded := sound.pool_length_le keyMem
    refine (AddressSpace.call_follows _ (sound.paired behind (sound.keysRoots _ keyMem))
      (Core.allWritable fixed _) shaped.brkTable_eq shaped.mmapTable_eq shaped.startAligned (by omega)
      (covered ref running_eq)).bind ?_
    rintro ⟨_, _, called₁⟩ ⟨returned, space, called₂⟩ _ ⟨rfl, rfl, behind'⟩
    dsimp only
    split
    · exact .of_ok ⟨rfl, called₂, rfl, behind'⟩
    · exact @exitProcess_follows _ { k with
        mem := called₁, spaces := Function.update k.spaces (k.sched.pcb ref).managers space } _ behind' 1

theorem Sound.store_follows {key owner address : Nat} {data : List UInt8} (rootMem : key ∈ account.roots)
    (ownerMem : owner ∈ account.keys) (stores : ∀ i < data.length, ∃ pa attributes,
      translate k.mem.bytes (k.spaces key).pageTable (address + i) = some (pa, attributes) ∧
        pageOf pa ∈ held (k.spaces owner)) :
    (storeVirtual (k.spaces key).pageTable data address k.mem.bytes).2 = true ∧
      (storeVirtual (k.spaces key).pageTable data address mem₂.bytes).2 = true ∧
      ∀ a, ¬ Left dirty [] k.mem (pageOf a) →
        (storeVirtual (k.spaces key).pageTable data address mem₂.bytes).1 a =
          (storeVirtual (k.spaces key).pageTable data address k.mem.bytes).1 a := by
  have paired := sound.paired behind rootMem
  have space₁ := paired.ready.space
  have space₂ := space_of_paired paired
  have targets : ∀ i < data.length,
      Storable k.mem.bytes (k.spaces key).pageTable (account.tables key) (address + i) := by
    intro i i_lt
    obtain ⟨pa, attributes, translate_eq, pageMem⟩ := stores i i_lt
    exact sound.storable rootMem ownerMem translate_eq pageMem
  refine ⟨(storeVirtual_targets data space₁ targets).1, (storeVirtual_targets data space₂
    fun i i_lt => (targets i i_lt).congr space₁ space₂).1, ?_⟩
  exact fun a clean => storeVirtual_agree data space₁ space₂ targets (.inl (behind.bytes_eq a clean))

theorem schedule_follows (clean : k.Clean .schedule) :
    Follows (FreesSame dirty) k.schedule { k with mem := mem₂ }.schedule := by
  unfold State.schedule
  cases idle : k.sched.running with
  | some ref => exact .of_error _
  | none =>
    dsimp only
    cases dispatched : k.sched.dispatch with
    | none => exact .of_error _
    | some next =>
      obtain ⟨sched, events⟩ := next
      dsimp only
      cases store_eq : State.statusStore events with
      | none => exact .of_ok ⟨rfl, mem₂, rfl, behind⟩
      | some store =>
        obtain ⟨address, status⟩ := store
        obtain ⟨_, ref, running_eq⟩ := sound.tagged.dispatch dispatched
        have wakes : k.Wakes ref address status :=
          ⟨idle, sched, events, dispatched, running_eq, store_eq⟩
        obtain ⟨refPlaced, key, rootMem, active_eq⟩ := sound.active_of_wakes wakes
        have stores := clean ref address status wakes
        rw [State.StoresHeld, active_eq] at stores
        obtain ⟨complete₁, complete₂, agree⟩ := sound.store_follows behind rootMem
          (sound.placedKey ref refPlaced)
          (show ∀ i < (intBytes status).length, _ from
            fun i i_lt => stores i (by simpa [intBytes] using i_lt))
        have active₂ : { k with mem := mem₂ }.activeRoot = (k.spaces key).pageTable := active_eq
        dsimp only
        rw [active_eq, active₂]
        generalize storeVirtual _ _ _ k.mem.bytes = stored₁ at complete₁ agree ⊢
        generalize storeVirtual _ _ _ mem₂.bytes = stored₂ at complete₂ agree ⊢
        rw [if_pos complete₁, if_pos complete₂]
        exact .of_ok ⟨rfl, { mem₂ with bytes := stored₂.1 }, rfl, behind.pool_eq, agree⟩

end Calls

section Runs

variable {dirty : Nat → Prop} {board : Board} {fixed : FixedPages} {k : State} {account : Account}

structure Hidden (board : Board) (fixed : FixedPages) (dirty : Nat → Prop) (k : State)
    (account : Account) : Prop extends Sound board fixed k account where
  free : ∀ page, dirty page → page ∈ k.mem.memoryPool
  backed : account.Backed (fun page => (page % 4096 = 0 ∧ page < 2 ^ 64) ∧ ¬ dirty page) fixed k.spaces

section

variable (hidden : Hidden board fixed dirty k account)
include hidden

theorem Hidden.forkReads (clean : k.Clean .fork) {ref : Nat} (running_eq : k.sched.running = some ref) :
    ForkReads dirty (k.spaceOf ref) := by
  have keyMem := hidden.placedKey ref (Tagged.placed_of_running running_eq)
  have inUse : ∀ page ∈ held (k.spaceOf ref), page % 4096 = 0 ∧ ¬ dirty page := by
    intro page pageMem
    have inPages := hidden.held_mem keyMem pageMem
    exact ⟨(hidden.ledger.fresh.aligned page (mem_append_left _ inPages)).1,
      fun isDirty => hidden.not_free inPages (hidden.free page isDirty)⟩
  refine ⟨inUse _ mem_cons_self, fun bind bindMem => ?_, fun page pageMem => inUse page ?_,
    fun page pageMem => inUse page ?_, fun unit unitMem => ?_⟩
  · obtain ⟨page, pageMem, rfl⟩ := mem_map.1 bindMem
    exact hidden.ledger.fresh.aligned page.mAddr
      (mem_append_left _ (hidden.text_mem keyMem (mem_map_of_mem pageMem)))
  · simp [held, pageMem]
  · simp [held, pageMem]
  · have window := (clean ref running_eq).genuine unit unitMem
    refine ⟨window, inUse _ ?_⟩
    rw [← Sound.unitPage_of_window window]
    have pageMem : unitPage unit ∈ (k.spaceOf ref).mmap.memKeeper.map unitPage := mem_map_of_mem unitMem
    simp only [held, mem_cons, mem_append]
    exact .inr (.inr (.inr pageMem))

theorem Hidden.behind {mem₂ : PhysMemory} (alike : Alike dirty k.mem mem₂) : Behind dirty [] k.mem mem₂ :=
  alike.mono fun page isDirty => ⟨isDirty, .inl (hidden.free page isDirty)⟩

theorem Hidden.exec_follows {mem₂ : PhysMemory} (behind : Behind dirty [] k.mem mem₂) {call : Call}
    (clean : k.Clean call) (covered : k.Covered call) :
    Follows (FreesSame dirty) (k.exec fixed call) ({ k with mem := mem₂ }.exec fixed call) := by
  have fresh : Fresh [] k.mem.memoryPool := hidden.ledger.fresh.sublist (sublist_append_right _ _)
  have plain : ∀ {first second : Outcome State}, Follows (Trails dirty) first second →
      Follows (FreesSame dirty) (do return (← first, ([] : List Nat))) (do return (← second, [])) :=
    fun follows => follows.bind fun _ _ _ twin => .of_ok ⟨rfl, twin⟩
  cases call with
  | createProcess file stackImage context =>
    exact plain (createProcess_follows behind fresh file stackImage context)
  | fork => exact plain (fork_follows behind fresh fun ref => hidden.forkReads clean)
  | thread stack => exact plain (thread_follows behind stack)
  | memory call => exact memoryCall_follows behind hidden.toSound covered
  | exitProcess exitRet => exact exitProcess_follows behind exitRet
  | sysKill pid => exact plain (sysKill_follows behind pid)
  | yield => exact plain (yield_follows behind)
  | wait wstatus => exact plain (wait_follows behind wstatus)
  | schedule => exact schedule_follows behind hidden.toSound clean

theorem Hidden.unmaps (call : Call) :
    k.Unmaps (fun page => (page % 4096 = 0 ∧ page < 2 ^ 64) ∧ ¬ dirty page) call := by
  cases call with
  | memory call =>
    cases call with
    | munmap addr length =>
      intro ref running_eq unit unitMem _ _
      have keyMem := hidden.placedKey ref (Tagged.placed_of_running running_eq)
      have pageMem : unitPage unit ∈ (k.spaceOf ref).mmap.memKeeper.map unitPage :=
        mem_map_of_mem unitMem
      have isHeld : unitPage unit ∈ held (k.spaceOf ref) := by
        simp only [held, mem_cons, mem_append]
        exact .inr (.inr (.inr pageMem))
      have inPages := hidden.held_mem keyMem isHeld
      exact ⟨hidden.ledger.fresh.aligned _ (mem_append_left _ inPages),
        fun isDirty => hidden.not_free inPages (hidden.free _ isDirty)⟩
    | _ => trivial
  | _ => trivial

theorem Hidden.step {k₂ k' : State} {call : Call} (twin : Twin dirty k k₂)
    (stepped : FilledStep fixed k call k') :
    ∃ k₂' dirty' account', AnyStep fixed k₂ call k₂' ∧ Twin dirty' k' k₂' ∧
      Hidden board fixed dirty' k' account' := by
  obtain ⟨mem₂, rfl, alike⟩ := twin
  obtain ⟨clean, covered, freed, exec_eq⟩ := stepped
  obtain ⟨⟨k₂', freed₂⟩, exec_eq₂, _, twin'⟩ := hidden.exec_follows (hidden.behind alike) clean covered _ exec_eq
  obtain ⟨account', sound', backed⟩ := hidden.toSound.step ⟨clean, freed, exec_eq⟩
  refine ⟨k₂', Left dirty [] k'.mem, account', ⟨freed₂, exec_eq₂⟩, twin', sound', ?_, ?_⟩
  · exact fun page left => left.2.resolve_right not_mem_nil
  · refine (backed _ (hidden.unmaps call) hidden.backed).mono ?_
    exact fun page stale => ⟨stale.1, fun left => stale.2 left.1⟩

theorem Hidden.sameReads {k₂ : State} (twin : Twin dirty k k₂) : SameReads k k₂ := by
  obtain ⟨mem₂, rfl, alike⟩ := twin
  intro ref placed va obtained
  have keyMem := hidden.placedKey ref placed
  have rootMem := hidden.keysRoots _ keyMem
  have paired : Paired dirty [] k.mem mem₂ (k.spaceOf ref).pageTable _ _ :=
    hidden.toSound.paired (hidden.behind alike) rootMem
  have space₁ := paired.ready.space
  have clean : ∀ page ∈ account.pages k.spaces, ¬ dirty page := fun page pageMem isDirty =>
    hidden.not_free pageMem (hidden.free page isDirty)
  have same : translate mem₂.bytes (k.spaceOf ref).pageTable va =
      translate k.mem.bytes (k.spaceOf ref).pageTable va := by
    rw [(space_of_paired paired).translate_eq, space₁.translate_eq]
  change readUser mem₂.bytes (k.spaceOf ref).pageTable va = _
  rw [readUser, readUser, same]
  cases target : translate k.mem.bytes (k.spaceOf ref).pageTable va with
  | none => rfl
  | some found =>
    obtain ⟨pa, attributes⟩ := found
    refine congrArg some (alike.bytes_eq pa ?_)
    rcases obtained with onStack | outside
    · have inPages := hidden.held_mem keyMem (mem_cons_self : (k.spaceOf ref).stack ∈ _)
      obtain ⟨aligned, lower, upper⟩ := hidden.ledger.window (mem_append_left _ inPages)
      have bounds := (pageOf_eq_iff aligned).1 onStack
      have window : InIdentityWindow va := by
        unfold InIdentityWindow
        omega
      rw [translate_window space₁ window] at target
      cases target
      rw [onStack]
      exact clean _ inPages
    · have small : ∀ pte level, baseView fixed (vpnOf va) = some (pte, level) → level = 0 := by
        intro pte level base_eq
        unfold baseView at base_eq
        unfold InIdentityWindow at outside
        have first : vpnOf va / 2 ^ 18 ≠ 1 := by unfold vpnOf; omega
        have second : vpnOf va / 2 ^ 18 ≠ 2 := by unfold vpnOf; omega
        rw [if_neg first, if_neg second] at base_eq
        split_ifs at base_eq <;> cases base_eq <;> rfl
      rcases hidden.toSound.page_of_small hidden.backed (fun _ stale => stale.1) keyMem small target with
        (isHeld | isText | isStale) | isFixed | isClint
      · exact clean _ (hidden.held_mem keyMem isHeld)
      · exact clean _ (hidden.text_mem keyMem isText)
      · exact isStale.2
      · intro isDirty
        exact hidden.ledger.notFixed _ (mem_append_right _ (hidden.free _ isDirty)) isFixed
      · intro isDirty
        obtain ⟨_, lower, _⟩ := hidden.ledger.window (mem_append_right _ (hidden.free _ isDirty))
        omega

end

def visible (fixed : FixedPages) (binds : List (Nat × Nat)) : List (Nat × Nat) :=
  binds.filter fun bind =>
    bindAll (baseView fixed) binds (vpnOf bind.1) = some (userLeaf bind.2, 0)

theorem bindAll_visible (fixed : FixedPages) (binds : List (Nat × Nat)) :
    bindAll (baseView fixed) (visible fixed binds) = bindAll (baseView fixed) binds := by
  funext vpn
  rw [bindAll_eq, bindAll_eq]
  cases base_eq : baseView fixed vpn with
  | some leaf => simp
  | none =>
    rw [Option.none_or, Option.none_or, visible, List.find?_filter]
    congr 1
    cases find_eq : binds.find? fun bind => vpnOf bind.1 = vpn with
    | none =>
      rw [List.find?_eq_none] at find_eq ⊢
      intro bind bindMem
      simpa using fun _ => by simpa using find_eq bind bindMem
    | some first =>
      have found : vpnOf first.1 = vpn := by simpa using List.find?_some find_eq
      have shown : bindAll (baseView fixed) binds vpn = some (userLeaf first.2, 0) := by
        rw [bindAll_eq, base_eq, find_eq]
        rfl
      obtain ⟨_, before, after, binds_eq, earlier⟩ := List.find?_eq_some_iff_append.1 find_eq
      refine List.find?_eq_some_iff_append.2 ⟨by simp [found, shown], before, after, binds_eq, ?_⟩
      intro bind bindMem
      have differs := earlier bind bindMem
      simp only [Bool.not_eq_true', decide_eq_false_iff_not] at differs
      simp [differs]

def Account.trim (account : Account) (fixed : FixedPages) (k : State) : Account :=
  { account with
    keys := account.keys.filter (· ∈ k.sched.placed.map fun ref => (k.sched.pcb ref).managers)
    binds := fun key => visible fixed (account.binds key) }

theorem Books.trim (books : Books board fixed k account) : Books board fixed k (account.trim fixed k) := by
  have sublist : (account.trim fixed k).keys.Sublist account.keys := filter_sublist
  refine ⟨fun key keyMem => ?_, books.ledger.subperm ?_, books.rootsNodup, sublist.nodup books.keysNodup,
    books.textsNodup, fun key keyMem => books.keysRoots key (sublist.subset keyMem), books.textsRoots,
    fun key keyMem => books.shaped key (sublist.subset keyMem),
    fun key keyMem => books.textMem key (sublist.subset keyMem),
    fun key keyMem => books.text_eq key (sublist.subset keyMem), fun text => ?_⟩
  · rw [show (account.trim fixed k).binds key = visible fixed (account.binds key) from rfl, bindAll_visible]
    exact books.table key keyMem
  · refine (List.Sublist.append ?_ (.refl _)).subperm
    refine (List.Sublist.refl _).append (List.Sublist.append ?_ (.refl _))
    exact sublist.flatMap _
  · exact ((sublist.map _).count_le text).trans (books.textCount text)

theorem Sound.hidden (sound : Sound board fixed k account)
    (backed : account.Backed (fun page => page % 4096 = 0 ∧ page < 2 ^ 64) fixed k.spaces)
    (hides : k.Hides dirty) : Hidden board fixed dirty k (account.trim fixed k) where
  toBooks := sound.toBooks.trim
  accounted := sound.accounted
  rootsOld := sound.rootsOld
  placedKey ref placed :=
    mem_filter.2 ⟨sound.placedKey ref placed, by simpa using ⟨ref, placed, rfl⟩⟩
  placedStack := sound.placedStack
  tagged := sound.tagged
  active := sound.active
  free := hides.free
  backed key keyMem := by
    obtain ⟨oldMem, isPlaced⟩ := mem_filter.1 keyMem
    obtain ⟨ref, placed, rfl⟩ : ∃ ref ∈ k.sched.placed, (k.sched.pcb ref).managers = key := by
      simpa using isPlaced
    obtain ⟨owned, mappable⟩ := backed _ oldMem
    refine ⟨fun bind bindMem => ?_, mappable⟩
    obtain ⟨bindMem, shown⟩ := mem_filter.1 bindMem
    have shown : bindAll (baseView fixed) (account.binds (k.sched.pcb ref).managers) (vpnOf bind.1) =
      some (userLeaf bind.2, 0) := by simpa using shown
    refine (owned bind bindMem).imp_right (Or.imp_right fun aligned => ⟨aligned, ?_⟩)
    have space := sound.table _ (sound.keysRoots _ oldMem)
    rw [space.view_eq _ (vpnOf_lt _)] at shown
    have notDirty := hides.unmapped ref placed bind.1 _ shown
    rwa [userLeaf, (leaf_pte .user aligned.1 aligned.2).2.1] at notDirty

theorem Sound.backed_of_run {init : State} {calls : List Call}
    (start : Sound board fixed init account)
    (backed : account.Backed (fun page => page % 4096 = 0 ∧ page < 2 ^ 64) fixed init.spaces)
    (run : Run (CleanStep fixed) init calls k) : ∃ account', Sound board fixed k account' ∧
      account'.Backed (fun page => page % 4096 = 0 ∧ page < 2 ^ 64) fixed k.spaces := by
  refine @Run.invariant _ _ _ (fun k => ∃ account', Sound board fixed k account' ∧
    account'.Backed (fun page => page % 4096 = 0 ∧ page < 2 ^ 64) fixed k.spaces) ?_ _ _ _ run
    ⟨account, start, backed⟩
  rintro k call k' ⟨account, sound, backed⟩ stepped
  obtain ⟨account', sound', kept⟩ := sound.step stepped
  refine ⟨account', sound', kept _ ?_ backed⟩
  -- nothing is dirty here: a page that is returned was in use
  have hidden : Hidden board fixed (fun _ => False) k account :=
    ⟨sound, nofun, backed.mono fun _ aligned => ⟨aligned, id⟩⟩
  cases call with
  | memory call =>
    cases call with
    | munmap addr length =>
      intro ref running_eq unit unitMem lower upper
      exact (hidden.unmaps (.memory (.munmap addr length)) ref running_eq unit unitMem lower upper).1
    | _ => trivial
  | _ => trivial

end Runs

/-- Two kernels that differ in free pages which no process maps: after the same
calls, if no file is shorter than its mapping, every process reads the same in
both. -/
theorem sameReads_of_run {board : Board} {bytes : Bytes} {pcb : Nat → PCB Nat}
    {spaces : Nat → AddressSpace} {testTotal fastSyscallPage : Nat}
    (image : fastSyscallPage % 4096 = 0 ∧ fastSyscallPage < board.kernelEnd) {before calls : List Call}
    {k₁ k₂ k₁' : State} {dirty : Nat → Prop}
    (reached : Run (CleanStep (bootFixed board fastSyscallPage image))
      (State.init board bytes pcb spaces testTotal) before k₁)
    (twin : Twin dirty k₁ k₂) (hides : k₁.Hides dirty)
    (run : Run (FilledStep (bootFixed board fastSyscallPage image)) k₁ calls k₁') :
    ∃ k₂', Run (AnyStep (bootFixed board fastSyscallPage image)) k₂ calls k₂' ∧ SameReads k₁' k₂' := by
  obtain ⟨account, sound, backed⟩ := (Sound.init image).backed_of_run nofun reached
  have followed : ∃ k₂' dirty' account', Run (AnyStep (bootFixed board fastSyscallPage image)) k₂ calls k₂' ∧
      Twin dirty' k₁' k₂' ∧ Hidden board (bootFixed board fastSyscallPage image) dirty' k₁' account' := by
    refine run.history (fun calls k => ∃ k₂' dirty' account',
      Run (AnyStep (bootFixed board fastSyscallPage image)) k₂ calls k₂' ∧ Twin dirty' k k₂' ∧
        Hidden board (bootFixed board fastSyscallPage image) dirty' k account') ?_
      ⟨k₂, dirty, _, .nil, twin, sound.hidden backed hides⟩
    rintro calls call k k' ⟨k₂', dirty', account', run₂, twin', hidden⟩ stepped
    obtain ⟨k₂'', dirty'', account'', stepped₂, twin'', hidden'⟩ := hidden.step twin' stepped
    exact ⟨k₂'', dirty'', account'', run₂.snoc stepped₂, twin'', hidden'⟩
  obtain ⟨k₂', dirty', account', run₂, twin', hidden⟩ := followed
  exact ⟨k₂', run₂, hidden.sameReads twin'⟩

def State.withData (k : State) (page : Nat) (byte : UInt8) : State :=
  { k with mem := { k.mem with bytes := fun a => if pageOf a = page then byte else k.mem.bytes a } }

theorem State.twin_withData (k : State) (page : Nat) (byte : UInt8) :
    Twin (· = page) k (k.withData page byte) :=
  ⟨_, rfl, rfl, fun _ other => if_neg other⟩

theorem State.covered_of_tidy {k : State} {call : Call} (tidy : k.tidy call = true) : k.Covered call := by
  cases call with
  | memory call =>
    cases call with
    | brk p => exact fun _ _ => trivial
    | _ => cases tidy
  | _ => trivial

theorem sampleKernel_hides : sampleKernel.Hides (· = 0x807f1000) := by
  refine ⟨?_, nofun⟩
  rintro page rfl
  exact contains_iff_mem.1 (by decide +kernel)

theorem sameReads_of_fork : ∃ k₁ k₂ : State,
    Run (FilledStep sampleFixed) sampleKernel
      [.createProcess sampleFile [] {}, .schedule, .memory (.brk 0xc0001000), .fork] k₁ ∧
    Run (AnyStep sampleFixed) (sampleKernel.withData 0x807f1000 1)
      [.createProcess sampleFile [] {}, .schedule, .memory (.brk 0xc0001000), .fork] k₂ ∧
    SameReads k₁ k₂ := by
  have tested : passes ([.createProcess sampleFile [] {}, .schedule, .memory (.brk 0xc0001000), .fork].foldlM
      (State.tidyExec sampleFixed) sampleKernel) fun _ => true := by
    decide +kernel
  obtain ⟨k, computed, _⟩ := passes_iff.1 tested
  have run : Run (FilledStep sampleFixed) sampleKernel _ k := run_of_tidy computed fun tidy returned =>
    ⟨(State.clean_of_tidy tidy).1, State.covered_of_tidy tidy, returned⟩
  obtain ⟨k', run', same⟩ := sameReads_of_run _ .nil (sampleKernel.twin_withData 0x807f1000 1) sampleKernel_hides run
  exact ⟨k, k', run, run', same⟩

theorem not_sameReads_of_short : Twin (· = 0x807f1000) sampleKernel (sampleKernel.withData 0x807f1000 1) ∧
    sampleKernel.Hides (· = 0x807f1000) ∧ ∃ labels₁ labels₂ k₁ k₂,
    sampleKernel.execAll sampleFixed
      [.createProcess sampleFile [] {}, .schedule, .memory (.mmap 4096 [7])] = .ok (labels₁, k₁) ∧
    (sampleKernel.withData 0x807f1000 1).execAll sampleFixed
      [.createProcess sampleFile [] {}, .schedule, .memory (.mmap 4096 [7])] = .ok (labels₂, k₂) ∧
    ¬ SameReads k₁ k₂ := by
  refine ⟨sampleKernel.twin_withData 0x807f1000 1, sampleKernel_hides, ?_⟩
  have tested₁ : passes (sampleKernel.execAll sampleFixed
      [.createProcess sampleFile [] {}, .schedule, .memory (.mmap 4096 [7])]) (fun result =>
        decide (0 ∈ result.2.sched.placed) &&
          readUser result.2.mem.bytes (result.2.spaceOf 0).pageTable 0x100000001 == some 0) := by
    decide +kernel
  have tested₂ : passes ((sampleKernel.withData 0x807f1000 1).execAll sampleFixed
      [.createProcess sampleFile [] {}, .schedule, .memory (.mmap 4096 [7])]) (fun result =>
        readUser result.2.mem.bytes (result.2.spaceOf 0).pageTable 0x100000001 == some 1) := by
    decide +kernel
  obtain ⟨⟨labels₁, k₁⟩, exec_eq₁, tested₁⟩ := passes_iff.1 tested₁
  obtain ⟨⟨labels₂, k₂⟩, exec_eq₂, read_eq₂⟩ := passes_iff.1 tested₂
  simp only [Bool.and_eq_true, beq_iff_eq, decide_eq_true_eq] at tested₁ read_eq₂
  refine ⟨labels₁, labels₂, k₁, k₂, exec_eq₁, exec_eq₂, fun same => ?_⟩
  have read_eq := same 0 tested₁.1 0x100000001 (.inr (by decide))
  rw [read_eq₂, tested₁.2] at read_eq
  exact absurd read_eq (by decide)

end SysCore.Kernel
