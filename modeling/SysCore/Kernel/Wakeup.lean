import SysCore.Kernel.Steps
import SysCore.Process.ForkIsolation

/-!
# Where a wake-up stores the exit status

`try_to_unfreeze` stores `*wstatus` before the woken process is resumed, through
the table of the process that ran last.  The stack of a process is mapped at its
physical address in every table, so a status on the stack of the waiting process
goes where it belongs.  Any other pointer is looked up in the table of another
process, unless the waiting process or a thread of it ran last.
-/

namespace SysCore.Kernel

open Memory Transition Paging Process Sched List
open Container

structure State.WakeConfined (k : State) (ref address : Nat) (status : Int) (bytes : Bytes) :
    Prop where
  lands : ∀ i < 4, ∃ pa attributes,
    translate k.mem.bytes (k.spaceOf ref).pageTable (address + i) = some (pa, attributes) ∧
      (intBytes status)[i]? = some (bytes pa)
  frame : ∀ a, (∀ i < 4, ∀ attributes,
    translate k.mem.bytes (k.spaceOf ref).pageTable (address + i) ≠ some (a, attributes)) →
      bytes a = k.mem.bytes a
  unseen : ∀ other ∈ k.sched.placed, (k.sched.pcb other).managers ≠ (k.sched.pcb ref).managers →
    ∀ va, (k.spaceOf other).InRegions va →
      readUser bytes (k.spaceOf other).pageTable va = readUser k.mem.bytes (k.spaceOf other).pageTable va

def State.OwnWake (k : State) (ref address : Nat) : Prop :=
  (k.activeRoot = (k.spaceOf ref).pageTable ∧ k.StoresHeld ref address) ∨
    ∀ i < 4, pageOf (address + i) = (k.spaceOf ref).stack

def State.CleanWake (k : State) : Call → Prop
  | .schedule => ∀ ref address status, k.Wakes ref address status → k.OwnWake ref address
  | call => k.Clean call ∧ k.KeepsUnits call

def WakeStep (fixed : FixedPages) (k : State) (call : Call) (k' : State) : Prop :=
  k.CleanWake call ∧ ∃ freed, k.exec fixed call = .ok (k', freed)

theorem leafTarget_large {base va : Nat} (privilege : PrivilegeLevel) (aligned : base % 2 ^ 30 = 0)
    (base_lt : base < 2 ^ 64) (lower : base ≤ va) (upper : va < base + 2 ^ 30) :
    leafTarget va (calcPpn base ||| leafAttributes privilege, 2) = some (va, leafAttributes privilege) := by
  obtain ⟨_, address_eq, low_eq, _⟩ := @leaf_pte base privilege (by omega) base_lt
  have size_eq : leafSize 2 = 2 ^ 30 := rfl
  rw [leafTarget, address_eq, low_eq, size_eq, if_pos aligned]
  congr 2
  omega

theorem translate_window {fixed : FixedPages} {bytes : Bytes} {root va : Nat}
    {binds : List (Nat × Nat)} {tables : List Nat}
    (space : Space bytes root (bindAll (baseView fixed) binds) tables) (window : InIdentityWindow va) :
    translate bytes root va =
      some (va, leafAttributes (if va < 0x80000000 then .supervisor else .user)) := by
  obtain ⟨lower, upper⟩ := window
  have slot : vpnOf va / 2 ^ 18 = va / 2 ^ 30 := by
    unfold vpnOf
    omega
  rw [space.translate_eq, bindAll_eq]
  unfold baseView
  rw [slot]
  by_cases first : va < 0x80000000
  · rw [if_pos first, if_pos (by omega), Option.some_or]
    exact leafTarget_large .supervisor (by decide) (by decide) lower (by omega)
  · rw [if_neg first, if_neg (by omega), if_pos (by omega), Option.some_or]
    exact leafTarget_large .user (by decide) (by decide) (by omega) (by omega)

namespace Sound

variable {board : Board} {fixed : FixedPages} {k : State} {account : Account} {ref address : Nat}
  {status : Int} {key va pa attributes other : Nat}

variable (sound : Sound board fixed k account)
include sound

theorem own_translate (wakes : k.Wakes ref address status) (own : k.OwnWake ref address) :
    k.StoresHeld ref address ∧ ∀ i < 4, translate k.mem.bytes k.activeRoot (address + i) =
      translate k.mem.bytes (k.spaceOf ref).pageTable (address + i) := by
  obtain ⟨placed, key, rootMem, active_eq⟩ := sound.active_of_wakes wakes
  rcases own with ⟨same, stores⟩ | onStack
  · exact ⟨stores, fun i _ => by rw [same]⟩
  · have keyMem := sound.placedKey ref placed
    have stackMem : (k.spaceOf ref).stack ∈ held (k.spaceOf ref) := mem_cons_self
    obtain ⟨aligned, lower, upper⟩ := sound.ledger.window (mem_append_left _ (mem_append_right _
      (mem_append_left _ (mem_shares.2 ⟨_, keyMem, stackMem⟩))))
    have window : ∀ i < 4, InIdentityWindow (address + i) := fun i i_lt => by
      have bounds := (pageOf_eq_iff aligned).1 (onStack i i_lt)
      exact ⟨by omega, by omega⟩
    have target := fun i i_lt => translate_window (sound.table key rootMem) (window i i_lt)
    rw [active_eq]
    refine ⟨fun i i_lt => ?_, fun i i_lt => ?_⟩
    · rw [active_eq]
      exact ⟨_, _, target i i_lt, onStack i i_lt ▸ stackMem⟩
    · rw [target i i_lt]
      exact (translate_window (sound.table _ (sound.keysRoots _ keyMem)) (window i i_lt)).symm

theorem clean_of_cleanWake {call : Call} (clean : k.CleanWake call) :
    k.Clean call ∧ k.KeepsUnits call := by
  cases call with
  | schedule =>
    refine ⟨fun ref address status wakes => ?_, trivial⟩
    exact (sound.own_translate wakes (clean ref address status wakes)).1
  | _ => exact clean

theorem page_of_small {stale : Nat → Prop} (backed : account.Backed stale fixed k.spaces)
    (aligned : ∀ page, stale page → page % 4096 = 0 ∧ page < 2 ^ 64) (keyMem : key ∈ account.keys)
    (small : ∀ pte level, baseView fixed (vpnOf va) = some (pte, level) → level = 0)
    (translate_eq : translate k.mem.bytes (k.spaces key).pageTable va = some (pa, attributes)) :
    (pageOf pa ∈ held (k.spaces key) ∨ pageOf pa ∈ (k.spaces key).elf.text.mAddrs ∨ stale (pageOf pa)) ∨
      pageOf pa ∈ fixed.pages ∨ pageOf pa = 0x38001000 := by
  have space := sound.table key (sound.keysRoots key keyMem)
  have target : ∀ {page : Nat} {privilege : PrivilegeLevel}, page % 4096 = 0 ∧ page < 2 ^ 64 →
      leafTarget va (calcPpn page ||| leafAttributes privilege, 0) = some (pa, attributes) →
        pageOf pa = page := by
    intro page privilege aligned target_eq
    rw [leafTarget_small va privilege aligned.1 aligned.2] at target_eq
    cases target_eq
    exact pageOf_add_mod aligned.1 va
  rw [space.translate_eq] at translate_eq
  obtain ⟨⟨pte, level⟩, leaf_eq, target_eq⟩ := Option.bind_eq_some_iff.1 translate_eq
  rw [bindAll_eq, Option.or_eq_some_iff] at leaf_eq
  rcases leaf_eq with base_eq | ⟨_, bind_eq⟩
  · obtain rfl := small pte level base_eq
    unfold baseView at base_eq
    split_ifs at base_eq <;> cases base_eq
    · exact .inr (.inr (target (by decide) target_eq))
    all_goals
      refine .inr (.inl ?_)
      rw [target (fixed.aligned _ (by simp)) target_eq]
      simp [FixedPages.pages]
  · obtain ⟨bind, find_eq, leaf_eq⟩ := Option.map_eq_some_iff.1 bind_eq
    cases leaf_eq
    have bindMem := mem_of_find?_eq_some find_eq
    have owned := (backed key keyMem).owned bind bindMem
    have bindAligned : bind.2 % 4096 = 0 ∧ bind.2 < 2 ^ 64 := by
      rcases owned with isHeld | isText | isStale
      · exact sound.ledger.fresh.aligned bind.2 (mem_append_left _ (sound.held_mem keyMem isHeld))
      · exact sound.ledger.fresh.aligned bind.2 (mem_append_left _ (sound.text_mem keyMem isText))
      · exact aligned _ isStale
    left
    rwa [target bindAligned target_eq]

variable (backed : account.Backed (fun _ => False) fixed k.spaces)
include backed

theorem page_of_inRegions (keyMem : key ∈ account.keys) (inRegions : (k.spaces key).InRegions va)
    (translate_eq : translate k.mem.bytes (k.spaces key).pageTable va = some (pa, attributes)) :
    pageOf pa ∈ held (k.spaces key) ∨ pageOf pa ∈ (k.spaces key).elf.text.mAddrs ∨
      pageOf pa ∈ fixed.pages ∨ pageOf pa = 0x38001000 := by
  have small : ∀ pte level, baseView fixed (vpnOf va) = some (pte, level) → level = 0 := by
    intro pte level base_eq
    rcases inRegions with ⟨page, pageMem, same⟩ | ⟨lower, upper⟩ | inMmap
    · cases level with
      | zero => rfl
      | succ level => exact absurd (same ▸ base_eq) (((backed key keyMem).mappable page pageMem).2 pte level)
    · unfold brkVirtBegin at lower
      unfold mmapVirtBegin at upper
      rw [baseView_free (by unfold vpnOf; omega)] at base_eq
      cases base_eq
    · obtain ⟨lower, upper⟩ := (inMmapRegion_iff va).1 inMmap
      rw [baseView_free (by omega)] at base_eq
      cases base_eq
  rcases sound.page_of_small backed (fun _ => False.elim) keyMem small translate_eq with
    (isHeld | isText | isStale) | isFixed
  · exact .inl isHeld
  · exact .inr (.inl isText)
  · exact isStale.elim
  · exact .inr (.inr isFixed)

omit backed in
theorem held_elsewhere {page : Nat} (keyMem : key ∈ account.keys) (otherMem : other ∈ account.keys)
    (different : other ≠ key) (pageMem : page ∈ held (k.spaces key)) :
    page ∉ held (k.spaces other) ∧ page ∉ (k.spaces other).elf.text.mAddrs ∧ page ∉ fixed.pages ∧
      page ≠ 0x38001000 := by
  obtain ⟨pagesNodup, _, _⟩ := nodup_append.1 sound.ledger.nodup
  obtain ⟨_, dataNodup, _⟩ := nodup_append.1 pagesNodup
  obtain ⟨heldNodup, _, textApart⟩ := nodup_append.1 dataNodup
  have isHeld : page ∈ shares account.keys fun key => held (k.spaces key) :=
    mem_shares.2 ⟨key, keyMem, pageMem⟩
  have inPages : page ∈ account.pages k.spaces ++ k.mem.memoryPool :=
    mem_append_left _ (mem_append_right _ (mem_append_left _ isHeld))
  refine ⟨not_mem_of_nodup_shares heldNodup keyMem otherMem different pageMem, fun isText => ?_,
    sound.ledger.notFixed page inPages, fun same => ?_⟩
  · rw [sound.text_eq other otherMem] at isText
    exact textApart page isHeld page (mem_shares.2 ⟨_, sound.textMem other otherMem, isText⟩) rfl
  · obtain ⟨_, lower, _⟩ := sound.ledger.window inPages
    omega

theorem readUser_of_frame {bytes : Bytes}
    (stored : Books board fixed { k with mem := { k.mem with bytes := bytes } } account)
    (keyMem : key ∈ account.keys) (otherMem : other ∈ account.keys) (different : other ≠ key)
    (frame : ∀ a, pageOf a ∉ held (k.spaces key) → bytes a = k.mem.bytes a)
    (inRegions : (k.spaces other).InRegions va) :
    readUser bytes (k.spaces other).pageTable va = readUser k.mem.bytes (k.spaces other).pageTable va := by
  have otherRoot := sound.keysRoots _ otherMem
  have before := (sound.table _ otherRoot).translate_eq va
  have after : translate bytes (k.spaces other).pageTable va = _ := (stored.table _ otherRoot).translate_eq va
  unfold readUser
  rw [after.trans before.symm]
  cases target_eq : translate k.mem.bytes (k.spaces other).pageTable va with
  | none => rfl
  | some target =>
    rw [Option.map_some, Option.map_some]
    refine congrArg some (frame _ fun pageMem => ?_)
    obtain ⟨notHeld, notText, notFixed, notDevice⟩ :=
      sound.held_elsewhere keyMem otherMem different pageMem
    rcases sound.page_of_inRegions backed otherMem inRegions target_eq with
      isHeld | isText | isFixed | isDevice
    · exact notHeld isHeld
    · exact notText isText
    · exact notFixed isFixed
    · exact notDevice isDevice

omit backed in
theorem wake_complete (wakes : k.Wakes ref address status) (own : k.OwnWake ref address) :
    (storeVirtual k.activeRoot (intBytes status) address k.mem.bytes).2 = true := by
  obtain ⟨stores, _⟩ := sound.own_translate wakes own
  obtain ⟨placed, key, rootMem, active_eq⟩ := sound.active_of_wakes wakes
  rw [State.StoresHeld, active_eq] at stores
  rw [active_eq]
  exact (sound.store_sound rootMem (sound.placedKey ref placed)
    (show ∀ i < (intBytes status).length, _ from fun i i_lt => stores i (by simpa [intBytes] using i_lt))).1

theorem wakeConfined (wakes : k.Wakes ref address status) (own : k.OwnWake ref address) :
    k.WakeConfined ref address status
      (storeVirtual k.activeRoot (intBytes status) address k.mem.bytes).1 := by
  obtain ⟨stores, same⟩ := sound.own_translate wakes own
  obtain ⟨placed, key, rootMem, active_eq⟩ := sound.active_of_wakes wakes
  have keyMem := sound.placedKey ref placed
  have length_eq : (intBytes status).length = 4 := by simp [intBytes]
  rw [State.StoresHeld] at stores
  rw [active_eq] at stores same ⊢
  have space := sound.table key rootMem
  have targets : ∀ i < (intBytes status).length,
      Storable k.mem.bytes (k.spaces key).pageTable (account.tables key) (address + i) := by
    intro i i_lt
    obtain ⟨pa, attributes, translate_eq, pageMem⟩ := stores i (length_eq ▸ i_lt)
    exact sound.storable rootMem keyMem translate_eq pageMem
  obtain ⟨_, _, frame⟩ := storeVirtual_targets _ space targets
  obtain ⟨_, stored⟩ := sound.store_sound rootMem keyMem fun i i_lt => stores i (length_eq ▸ i_lt)
  refine ⟨fun i i_lt => ?_, fun a untouched => frame a fun i i_lt => ?_, ?_⟩
  · obtain ⟨pa, attributes, translate_eq, _⟩ := stores i i_lt
    have byte_eq := List.getElem?_eq_getElem (length_eq.symm ▸ i_lt)
    refine ⟨pa, attributes, same i i_lt ▸ translate_eq, byte_eq.trans ?_⟩
    exact congrArg some (storeVirtual_lands _ (by omega) space targets byte_eq translate_eq).symm
  · rw [same i (length_eq ▸ i_lt)]
    exact untouched i (length_eq ▸ i_lt)
  · intro other otherPlaced different va inRegions
    refine sound.readUser_of_frame backed stored.toBooks keyMem (sound.placedKey other otherPlaced) different
      (fun a notHeld => frame a fun i i_lt attributes hit => ?_) inRegions
    obtain ⟨pa, _, translate_eq, pageMem⟩ := stores i (length_eq ▸ i_lt)
    rw [hit] at translate_eq
    cases translate_eq
    exact notHeld pageMem

end Sound

theorem State.schedule_of_wakes {k k' : State} {ref address : Nat} {status : Int} {freed : List Nat}
    (wakes : k.Wakes ref address status)
    (complete : (storeVirtual k.activeRoot (intBytes status) address k.mem.bytes).2 = true)
    (schedule_eq : k.schedule = .ok (k', freed)) :
    (∃ events, k.sched.dispatch = some (k'.sched, events) ∧
      State.statusStore events = some (address, status)) ∧ k'.sched.running = some ref ∧
      k'.mem.bytes = (storeVirtual k.activeRoot (intBytes status) address k.mem.bytes).1 := by
  obtain ⟨idle, sched, events, dispatched, running_eq, store_eq⟩ := wakes
  simp only [State.schedule, idle, dispatched, store_eq] at schedule_eq
  generalize storeVirtual k.activeRoot (intBytes status) address k.mem.bytes = stored at complete schedule_eq ⊢
  rw [if_pos complete] at schedule_eq
  cases schedule_eq
  exact ⟨⟨events, dispatched, store_eq⟩, running_eq, rfl⟩

theorem sound_of_wakeRun {board : Board} {bytes : Bytes} {pcb : Nat → PCB Nat}
    {spaces : Nat → AddressSpace} {testTotal fastSyscallPage : Nat}
    (image : fastSyscallPage % 4096 = 0 ∧ fastSyscallPage < board.kernelEnd) {calls : List Call}
    {k : State} (run : Run (WakeStep (bootFixed board fastSyscallPage image))
      (State.init board bytes pcb spaces testTotal) calls k) :
    ∃ account : Account, Sound board (bootFixed board fastSyscallPage image) k account ∧
      account.Backed (fun _ => False) (bootFixed board fastSyscallPage image) k.spaces :=
  @Run.invariant _ _ (WakeStep (bootFixed board fastSyscallPage image))
    (fun k => ∃ account : Account, Sound board (bootFixed board fastSyscallPage image) k account ∧
      account.Backed (fun _ => False) (bootFixed board fastSyscallPage image) k.spaces)
    (fun ⟨_, sound, backed⟩ ⟨clean, exec_eq⟩ => by
      obtain ⟨cleanCall, keepsUnits⟩ := sound.clean_of_cleanWake clean
      obtain ⟨account', sound', backed'⟩ := sound.step ⟨cleanCall, exec_eq⟩
      exact ⟨account', sound', backed' _ (keepsUnits.unmaps _) backed⟩) _ _ _ run
    ⟨_, Sound.init image, nofun⟩

/-- In every run whose calls are clean and store every status into the memory of
the woken process, the store stays there. -/
theorem wakeConfined_of_run {board : Board} {bytes : Bytes} {pcb : Nat → PCB Nat}
    {spaces : Nat → AddressSpace} {testTotal fastSyscallPage : Nat}
    (image : fastSyscallPage % 4096 = 0 ∧ fastSyscallPage < board.kernelEnd) {calls : List Call}
    {k k' : State} {ref address : Nat} {status : Int}
    (run : Run (WakeStep (bootFixed board fastSyscallPage image))
      (State.init board bytes pcb spaces testTotal) calls k)
    (stepped : WakeStep (bootFixed board fastSyscallPage image) k .schedule k')
    (wakes : k.Wakes ref address status) : k.WakeConfined ref address status k'.mem.bytes := by
  obtain ⟨account, sound, backed⟩ := sound_of_wakeRun image run
  obtain ⟨clean, freed, schedule_eq⟩ := stepped
  have own := clean ref address status wakes
  obtain ⟨_, _, bytes_eq⟩ := State.schedule_of_wakes wakes (sound.wake_complete wakes own) schedule_eq
  rw [bytes_eq]
  exact sound.wakeConfined backed wakes own

theorem State.cleanWake_of_tidy {k : State} {call : Call} (tidy : k.tidy call = true) : k.CleanWake call := by
  cases call with
  | schedule => exact fun ref address status wakes => (State.not_wakes_of_tidy tidy _ _ _ wakes).elim
  | _ => exact State.clean_of_tidy tidy

theorem wake_on_stack {exitRet : Int} (small : exitRet = 0 ∨ exitRet = 1) :
    ∃ k k' : State, Run (WakeStep sampleFixed) sampleKernel
      [.createProcess sampleFile [] {}, .schedule, .fork, .wait 0x807f2100, .schedule,
        .exitProcess exitRet] k ∧
      WakeStep sampleFixed k .schedule k' ∧ k.Wakes 0 0x807f2100 (exitRet * 256) ∧
      (k.sched.pcb 0).signalList = [(3, exitRet)] := by
  have tested : passes ([.createProcess sampleFile [] {}, .schedule, .fork, .wait 0x807f2100, .schedule,
      .exitProcess exitRet].foldlM (State.tidyExec sampleFixed) sampleKernel) (fun k =>
        (k.sched.running == none &&
          ((k.sched.dispatch.map fun next => (next.1.running, State.statusStore next.2)) ==
            some (some 0, some (0x807f2100, exitRet * 256))) && (k.spaceOf 0).stack == 0x807f2000 &&
          (k.sched.pcb 0).signalList == [(3, exitRet)]) &&
        passes (k.exec sampleFixed .schedule) fun _ => true) := by
    rcases small with rfl | rfl <;> decide +kernel
  obtain ⟨k, computed, tested⟩ := passes_iff.1 tested
  obtain ⟨wakes, tested⟩ := Bool.and_eq_true_iff.1 tested
  obtain ⟨⟨k', freed⟩, woken, _⟩ := passes_iff.1 tested
  simp only [Bool.and_eq_true, beq_iff_eq] at wakes
  obtain ⟨⟨⟨idle, next_eq⟩, stack_eq⟩, list_eq⟩ := wakes
  have cleanWake : k.CleanWake .schedule := by
    intro ref address status wakes
    cases next_eq.symm.trans (State.wakes_iff.1 wakes).2
    refine .inr ?_
    rw [stack_eq]
    decide
  have run : Run (WakeStep sampleFixed) sampleKernel _ k := run_of_tidy computed fun tidy returned =>
    ⟨State.cleanWake_of_tidy tidy, returned⟩
  exact ⟨k, k', run, ⟨cleanWake, freed, woken⟩, State.wakes_iff.2 ⟨idle, next_eq⟩, list_eq⟩

theorem wakeConfined_of_stack : ∃ k k' : State, Run (WakeStep sampleFixed) sampleKernel
    [.createProcess sampleFile [] {}, .schedule, .fork, .wait 0x807f2100, .schedule, .exitProcess 1] k ∧
      WakeStep sampleFixed k .schedule k' ∧ k.WakeConfined 0 0x807f2100 0x100 k'.mem.bytes := by
  obtain ⟨k, k', run, stepped, wakes, _⟩ := wake_on_stack (.inr rfl)
  exact ⟨k, k', run, stepped, wakeConfined_of_run _ run stepped wakes⟩

theorem not_wakeConfined_of_data : ∃ labels k freed, ∃ k' : State, sampleKernel.execAll sampleFixed
    [.createProcess sampleFile [] {}, .schedule, .fork, .wait 0x11000, .schedule, .exitProcess 1] =
      .ok (labels, k) ∧
    Run (Step sampleFixed) sampleKernel labels k ∧ Step sampleFixed k (.schedule, freed) k' ∧
    k.Wakes 0 0x11000 0x100 ∧ ¬ k.WakeConfined 0 0x11000 0x100 k'.mem.bytes := by
  have tested : passes (sampleKernel.execAll sampleFixed
      [.createProcess sampleFile [] {}, .schedule, .fork, .wait 0x11000, .schedule, .exitProcess 1])
      (fun result =>
        (result.2.sched.running == none &&
          ((result.2.sched.dispatch.map fun next => (next.1.running, State.statusStore next.2)) ==
            some (some 0, some (0x11000, 0x100))) &&
          ((translate result.2.mem.bytes (result.2.spaceOf 0).pageTable 0x11001).map Prod.fst ==
            some 0x807f3001)) &&
        passes (result.2.exec sampleFixed .schedule) fun woken => woken.1.mem.bytes 0x807f3001 == 0) := by
    decide +kernel
  obtain ⟨⟨labels, k⟩, exec_eq, tested⟩ := passes_iff.1 tested
  obtain ⟨wakes, tested⟩ := Bool.and_eq_true_iff.1 tested
  obtain ⟨⟨k', freed⟩, woken, byte_eq⟩ := passes_iff.1 tested
  simp only [Bool.and_eq_true, beq_iff_eq] at wakes byte_eq
  obtain ⟨⟨idle, next_eq⟩, target_eq⟩ := wakes
  refine ⟨labels, k, freed, k', exec_eq, run_of_execAll .nil exec_eq, woken,
    State.wakes_iff.2 ⟨idle, next_eq⟩, fun confined => ?_⟩
  obtain ⟨pa, attributes, translate_eq, stored⟩ := confined.lands 1 (by decide)
  rw [translate_eq] at target_eq
  cases target_eq
  rw [byte_eq] at stored
  exact absurd stored (by decide)

end SysCore.Kernel
