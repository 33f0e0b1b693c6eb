import SysCore.Kernel.Steps

/-!
# Every page has one owner

The pool holds no page twice and no page that a placed block still refers to, in
every run of clean calls.  A thread made by `clone` has the stack page of its
creator, and the first of the two to exit returns it: then it is free and in use.
-/

namespace SysCore.Kernel

open Memory Transition Paging Process Sched List
open Container

def State.Refers (k : State) (ref page : Nat) : Prop :=
  page = (k.sched.pcb ref).stack ∨
    page ∈ (k.spaceOf ref).elf.text.mAddrs ∨ page ∈ (k.spaceOf ref).elf.data.mAddrs ∨
    page ∈ (k.spaceOf ref).brk.memKeeper ∨
    page ∈ (k.spaceOf ref).mmap.memKeeper.map MmapUnit.sourceAddr ∨
    ∃ path, walk k.mem.bytes (k.spaceOf ref).pageTable path = some page

structure State.PageSafe (k : State) : Prop where
  freeOnce : k.mem.memoryPool.Nodup
  apart : ∀ ref ∈ k.sched.placed, ∀ page, k.Refers ref page → page ∉ k.mem.memoryPool

namespace Sound

variable {board : Board} {fixed : FixedPages} {k : State} {account : Account}

theorem owned_of_refers (sound : Sound board fixed k account) {ref page : Nat}
    (placed : ref ∈ k.sched.placed) (refers : k.Refers ref page) :
    page ∈ account.pages k.spaces ∨ ¬ InIdentityWindow page := by
  have keyMem := sound.placedKey ref placed
  have inHeld : page ∈ held (k.spaceOf ref) → page ∈ account.pages k.spaces := fun pageMem =>
    mem_append_right _ (mem_append_left _ (mem_shares.2 ⟨_, keyMem, pageMem⟩))
  rcases refers with rfl | isText | isData | isBrk | isSource | ⟨path, walk_eq⟩
  · refine .inl (inHeld ?_)
    rw [sound.placedStack ref placed]
    exact mem_cons_self
  · refine .inl (mem_append_right _ (mem_append_right _ (mem_shares.2 ⟨_, sound.textMem _ keyMem, ?_⟩)))
    rw [← sound.text_eq _ keyMem]
    exact isText
  · exact .inl (inHeld (by simp [held, isData]))
  · exact .inl (inHeld (by simp [held, isBrk]))
  · obtain ⟨unit, unitMem, rfl⟩ := mem_map.1 isSource
    by_cases window : InIdentityWindow unit.sourceAddr
    · refine .inl (inHeld ?_)
      have pageMem : unit.sourceAddr ∈ (k.spaceOf ref).mmap.memKeeper.map unitPage :=
        mem_map.2 ⟨unit, unitMem, unitPage_of_window window⟩
      simp [held, pageMem]
    · exact .inr window
  · have rootMem := sound.keysRoots _ keyMem
    have isTable := ((sound.table _ rootMem).mem_tables page).2 ⟨path, walk_eq⟩
    exact .inl (mem_append_left _ (mem_shares.2 ⟨_, rootMem, isTable⟩))

theorem pageSafe (sound : Sound board fixed k account) : k.PageSafe := by
  obtain ⟨_, freeOnce, disjoint⟩ := nodup_append.1 sound.ledger.nodup
  refine ⟨freeOnce, fun ref placed page refers isFree => ?_⟩
  rcases sound.owned_of_refers placed refers with isOwned | notWindow
  · exact disjoint page isOwned page isFree rfl
  · exact notWindow (sound.ledger.window (mem_append_right _ isFree)).2

end Sound

/-- Clean calls keep free pages and pages in use apart. -/
theorem pageSafe_of_run {board : Board} {bytes : Bytes} {pcb : Nat → PCB Nat}
    {spaces : Nat → AddressSpace} {testTotal fastSyscallPage : Nat}
    (image : fastSyscallPage % 4096 = 0 ∧ fastSyscallPage < board.kernelEnd) {calls : List Call}
    {k : State} (run : Run (CleanStep (bootFixed board fastSyscallPage image))
      (State.init board bytes pcb spaces testTotal) calls k) : k.PageSafe := by
  obtain ⟨account, sound⟩ := @Run.invariant _ _ (CleanStep (bootFixed board fastSyscallPage image))
    (fun k => ∃ account, Sound board (bootFixed board fastSyscallPage image) k account)
    (fun ⟨_, sound⟩ stepped => ⟨_, (sound.step stepped).choose_spec.1⟩) _ _ _ run
    ⟨_, Sound.init image⟩
  exact sound.pageSafe

theorem pageSafe_of_fork : ∃ k, Run (CleanStep sampleFixed) sampleKernel
    [.createProcess sampleFile [] {}, .schedule, .fork, .exitProcess 0] k ∧ k.PageSafe := by
  have tested : passes ([.createProcess sampleFile [] {}, .schedule, .fork, .exitProcess 0].foldlM
      (State.tidyExec sampleFixed) sampleKernel) fun _ => true := by
    decide +kernel
  obtain ⟨k, computed, _⟩ := passes_iff.1 tested
  have run : Run (CleanStep sampleFixed) sampleKernel _ k := run_of_tidy computed fun tidy returned =>
    ⟨(State.clean_of_tidy tidy).1, returned⟩
  exact ⟨k, run, pageSafe_of_run _ run⟩

theorem not_pageSafe_of_thread : ∃ labels k, sampleKernel.execAll sampleFixed
    [.createProcess sampleFile [] {}, .schedule, .thread 0x11000, .exitProcess 0] = .ok (labels, k) ∧
      Run (Step sampleFixed) sampleKernel labels k ∧ ¬ k.PageSafe := by
  have tested : passes (sampleKernel.execAll sampleFixed
      [.createProcess sampleFile [] {}, .schedule, .thread 0x11000, .exitProcess 0]) (fun result =>
        result.2.sched.placed.any fun ref =>
          result.2.mem.memoryPool.contains (result.2.sched.pcb ref).stack) := by
    decide +kernel
  obtain ⟨⟨labels, k⟩, exec_eq, tested⟩ := passes_iff.1 tested
  obtain ⟨ref, placed, isFree⟩ := any_eq_true.1 tested
  refine ⟨labels, k, exec_eq, run_of_execAll .nil exec_eq, fun safe => ?_⟩
  exact safe.apart ref placed _ (.inl rfl) (contains_iff_mem.1 isFree)

end SysCore.Kernel
