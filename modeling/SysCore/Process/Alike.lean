import SysCore.Paging.Alike
import SysCore.Process.Exit

/-!
# The memory managers on memories that differ

Every manager fills the pages it takes before a process can read them: with zeros,
with a page of the file, or with a copy of a page that is in use.  So the same call
on two memories that differ in free pages has the same result, and the pages it
takes are the same in both afterwards.  `mmap` is the exception: it maps the pages
as they come and then reads the file through the table, so the pages are the same
afterwards only if the file covers them.
-/

namespace SysCore.Process

open Memory Transition Paging Function List

variable {dirty : Nat → Prop} {mem₁ mem₂ : PhysMemory} {root : Nat} {view : Nat → Option (Nat × Nat)}
  {tables : List Nat}

section Requests

theorem blind_image (va : Nat) (content : Nat → UInt8) :
    (⟨va, fun _ => .image content⟩ : PageRequest).Blind dirty false :=
  ⟨nofun, fun _ _ _ => rfl, by simp⟩

theorem blind_copyOf (va : Nat) {source : Nat} (aligned : source % 4096 = 0) (clean : ¬ dirty source) :
    (⟨va, copyOf source⟩ : PageRequest).Blind dirty false := by
  refine ⟨nofun, fun bytes bytes' agree => ?_, by simp [copyOf]⟩
  dsimp only [copyOf]
  congr 1
  funext k
  split
  · refine agree _ ?_
    rwa [(pageOf_eq_iff aligned).2 (by omega)]
  · rfl

end Requests

section Elf

section

variable (paired : Paired dirty [] mem₁ mem₂ root view tables)
include paired

theorem mapPages_follows {requests : List PageRequest}
    (blind : ∀ request ∈ requests, request.Blind dirty false) :
    Follows (Answers (Mirrored dirty [] root)) (mapPages root requests mem₁) (mapPages root requests mem₂) :=
  paired.mapPages blind

theorem bindPages_follows (loads : List ElfLoad) (elf : ElfImage) :
    Follows (Answers (Mirrored dirty [] root)) (ElfImage.bindPages root loads elf mem₁)
      (ElfImage.bindPages root loads elf mem₂) := by
  induction loads generalizing mem₁ mem₂ view tables elf with
  | nil => exact .of_ok ⟨rfl, _, _, paired⟩
  | cons load rest ih =>
    rw [ElfImage.bindPages, ElfImage.bindPages, bindPage_eq, bindPage_eq]
    simp only [bind_assoc, ok_bind]
    refine (paired.mapPage (blind_image load.vAddr load.image)).bind ?_
    rintro ⟨_, middle₁⟩ ⟨page, middle₂⟩ _ ⟨rfl, _, _, paired'⟩
    exact ih paired' _

theorem loadElf_follows (file : ElfFile) :
    Follows (Answers (Mirrored dirty [] root)) (loadElf root file mem₁) (loadElf root file mem₂) :=
  bindPages_follows paired file.loads ⟨[], []⟩

theorem ElfSegment.copy_follows (other : ElfSegment)
    (clean : ∀ page ∈ other.mAddrs, page % 4096 = 0 ∧ ¬ dirty page) :
    Follows (Answers (Mirrored dirty [] root)) (other.copy root mem₁) (other.copy root mem₂) := by
  refine (mapPages_follows paired fun request requestMem => ?_).next
    fun pages middle₁ middle₂ _ mirrored => .of_ok ⟨rfl, mirrored⟩
  obtain ⟨page, pageMem, rfl⟩ := mem_map.1 requestMem
  obtain ⟨aligned, notDirty⟩ := clean page.mAddr (mem_map_of_mem pageMem)
  exact blind_copyOf _ aligned notDirty

end

theorem ElfSegment.destroy_follows (behind : Behind dirty [] mem₁ mem₂) (segment : ElfSegment) :
    Follows (Behind dirty []) (segment.destroy mem₁) (segment.destroy mem₂) := by
  induction segment generalizing mem₁ mem₂ with
  | nil => exact .of_ok behind
  | cons page rest ih =>
    exact (deallocPage_follows behind page.mAddr).bind fun middle₁ middle₂ _ behind' => ih behind'

theorem ElfImage.destroy_follows (behind : Behind dirty [] mem₁ mem₂) (elf : ElfImage) (lastUser : Bool) :
    Follows (Behind dirty []) (elf.destroy lastUser mem₁) (elf.destroy lastUser mem₂) := by
  refine (elf.data.destroy_follows behind).bind fun middle₁ middle₂ _ behind' => ?_
  split
  · exact elf.text.destroy_follows behind'
  · exact .of_ok behind'

end Elf

namespace BrkControl

theorem grow_follows (control : BrkControl)
    (paired : Paired dirty [] mem₁ mem₂ control.pageTable view tables) (first : Int) (count : Nat) :
    Follows (Answers (Mirrored dirty [] control.pageTable)) (control.grow first count mem₁)
      (control.grow first count mem₂) := by
  refine (mapPages_follows paired fun request requestMem => ?_).next
    fun pages middle₁ middle₂ _ mirrored => .of_ok ⟨rfl, mirrored⟩
  obtain ⟨j, _, rfl⟩ := mem_map.1 requestMem
  exact blind_image _ _

theorem start_follows (control : BrkControl)
    (paired : Paired dirty [] mem₁ mem₂ control.pageTable view tables) :
    Follows (Answers (Mirrored dirty [] control.pageTable)) (control.start mem₁) (control.start mem₂) := by
  unfold start
  split
  · exact .of_ok ⟨rfl, _, _, paired⟩
  · exact grow_follows { control with brkInit := true, pageCount := 1 } paired 0 1

theorem brk_follows (control : BrkControl)
    (paired : Paired dirty [] mem₁ mem₂ control.pageTable view tables) (p : Nat) :
    Follows (Answers (Answers (Behind dirty []))) (control.brk p mem₁) (control.brk p mem₂) := by
  refine (control.start_follows paired).next fun started middle₁ middle₂ start_eq mirrored => ?_
  obtain ⟨_, _, paired'⟩ := mirrored
  obtain ⟨binds, news, grows, _⟩ := (start_holds control paired.ready).result start_eq
  dsimp only at grows ⊢
  rw [← grows.pageTable_eq] at paired'
  split_ifs
  · exact .of_ok ⟨rfl, rfl, paired'.behind⟩
  · exact .of_error _
  · refine (grow_follows started paired' _ _).next fun control' last₁ last₂ _ mirrored => ?_
    exact .of_ok ⟨rfl, rfl, mirrored.behind⟩
  · exact .of_ok ⟨rfl, rfl, paired'.behind⟩

theorem copy_follows (other : BrkControl) (paired : Paired dirty [] mem₁ mem₂ root view tables)
    (clean : ∀ page ∈ other.memKeeper, page % 4096 = 0 ∧ ¬ dirty page) :
    Follows (Answers (Mirrored dirty [] root)) (other.copy root mem₁) (other.copy root mem₂) := by
  unfold copy
  split
  · refine (mapPages_follows paired fun request requestMem => ?_).next
      fun pages middle₁ middle₂ _ mirrored => ?_
    · obtain ⟨⟨page, i⟩, pageMem, rfl⟩ := mem_map.1 requestMem
      have takeMem := mem_of_getElem? (mk_mem_zipIdx_iff_getElem?.1 pageMem)
      obtain ⟨aligned, notDirty⟩ := clean page (mem_of_mem_take takeMem)
      exact blind_copyOf _ aligned notDirty
    · dsimp only
      split
      · exact .of_error _
      · exact .of_ok ⟨rfl, mirrored⟩
  · exact .of_ok ⟨rfl, _, _, paired⟩

end BrkControl

section Store

theorem space_of_paired {kept : List Nat} (paired : Paired dirty kept mem₁ mem₂ root view tables) :
    Space mem₂.bytes root view tables := by
  refine paired.ready.space.congr fun table tableMem a lower upper => paired.behind.bytes_eq a ?_
  rw [(pageOf_eq_iff (paired.ready.space.aligned tableMem).1).2 ⟨lower, upper⟩]
  exact paired.clean tableMem

theorem Storable.congr {bytes₁ bytes₂ : Bytes} {va : Nat} (storable : Storable bytes₁ root tables va)
    (space₁ : Space bytes₁ root view tables) (space₂ : Space bytes₂ root view tables) :
    Storable bytes₂ root tables va := by
  rw [Storable, space₂.translate_eq, ← space₁.translate_eq]
  exact storable

theorem storeVirtual_agree (data : List UInt8) {va : Nat} {bytes₁ bytes₂ : Bytes}
    (space₁ : Space bytes₁ root view tables) (space₂ : Space bytes₂ root view tables)
    (targets : ∀ i < data.length, Storable bytes₁ root tables (va + i)) {a : Nat}
    (same : bytes₂ a = bytes₁ a ∨
      ∃ i < data.length, ∃ attributes, translate bytes₁ root (va + i) = some (a, attributes)) :
    (storeVirtual root data va bytes₂).1 a = (storeVirtual root data va bytes₁).1 a := by
  induction data generalizing va bytes₁ bytes₂ with
  | nil => exact same.resolve_right (by simp)
  | cons byte rest ih =>
    obtain ⟨pa, attributes, first_eq, writable, notTable⟩ := targets 0 (Nat.zero_lt_succ _)
    rw [Nat.add_zero] at first_eq
    have first_eq₂ : translate bytes₂ root va = some (pa, attributes) := by
      rw [space₂.translate_eq, ← space₁.translate_eq, first_eq]
    obtain ⟨step₁, update₁, shift⟩ := storeVirtual_cons space₁ first_eq writable notTable byte rest
    obtain ⟨step₂, update₂, -⟩ := storeVirtual_cons space₂ first_eq₂ writable notTable byte rest
    rw [step₁, step₂]
    refine ih update₁ update₂ (fun i i_lt => ?_) ?_
    · rw [Storable, shift]
      exact targets (i + 1) (Nat.succ_lt_succ i_lt)
    · by_cases here : a = pa
      · left
        rw [here, update_self, update_self]
      · rcases same with same | ⟨i, i_lt, attributes', hit⟩
        · left
          rw [update_of_ne here, update_of_ne here, same]
        · cases i with
          | zero =>
            rw [Nat.add_zero, first_eq] at hit
            cases hit
            exact absurd rfl here
          | succ i => exact .inr ⟨i, Nat.lt_of_succ_lt_succ i_lt, attributes', by rw [shift, hit]⟩

end Store

namespace MmapControl

theorem reserve_follows (control : MmapControl)
    (paired : Paired dirty [] mem₁ mem₂ control.pageTable view tables) (length : Nat) :
    Follows (fun r₁ r₂ => r₂.1 = r₁.1 ∧ ∀ pages,
        mapPages control.pageTable (control.requests length) mem₁ = .ok (pages, r₁.2) →
          Behind dirty pages r₁.2 r₂.2)
      (control.reserve length mem₁) (control.reserve length mem₂) := by
  refine Follows.bind (@Paired.mapPages _ _ _ _ _ _ _ true paired _ ?_) ?_
  · intro request requestMem
    obtain ⟨i, _, rfl⟩ := mem_map.1 requestMem
    exact ⟨nofun, fun _ _ _ => rfl, by simp⟩
  · rintro ⟨_, middle₁⟩ ⟨pages, middle₂⟩ map_eq ⟨rfl, mirrored⟩
    refine .of_ok ⟨rfl, fun pages' map_eq' => ?_⟩
    cases map_eq.symm.trans map_eq'
    exact mirrored.behind

theorem mmap_follows (control : MmapControl)
    (paired : Paired dirty [] mem₁ mem₂ control.pageTable view tables) (writable : AllWritable view)
    (aligned : control.mmapStart % 4096 = 0) (small : mem₁.memoryPool.length ≤ 2 ^ 27) {length : Nat}
    {file : List UInt8} (within : length % 2 ^ 32 ≤ 4096 * needPage length)
    (fits : control.Fits length mem₁)
    (covers : 4096 * needPage length ≤ (file.take (length % 2 ^ 32)).length) :
    Follows (Answers (Answers (Behind dirty []))) (control.mmap length file mem₁)
      (control.mmap length file mem₂) := by
  refine (control.reserve_follows paired length).bind ?_
  rintro ⟨_, middle₁⟩ ⟨reserved, middle₂⟩ reserve_eq ⟨rfl, behindOf⟩
  obtain ⟨pages, news, reserved, rfl⟩ := (reserve_holds control paired.ready length).result reserve_eq
  dsimp only at reserved behindOf ⊢
  have behind := behindOf pages reserved.done
  have length_eq := reserved.length_eq
  have few := reserved.available.trans small
  have grown := reserved.extended.grown
  have apart : ∀ page ∈ pages, page ∉ middle₁.memoryPool ∧ page ∉ news ++ tables := by
    intro page pageMem
    have held := grown.held paired.ready.fresh pageMem
    exact ⟨held.notFree, held.notTable⟩
  have paired' : Paired dirty pages middle₁ middle₂ _ _ _ := ⟨reserved.extended.ready, behind, apart⟩
  have space₁ := paired'.ready.space
  have space₂ := space_of_paired paired'
  have targets : ∀ i < (file.take (length % 2 ^ 32)).length,
      Storable middle₁.bytes control.pageTable (news ++ tables) (control.mmapStart + i) := by
    intro i i_lt
    obtain ⟨pa, attributes, translate_eq, canWrite, -, notTable⟩ :=
      reserved.targets paired.ready fits few writable aligned within file i i_lt
    exact ⟨pa, attributes, translate_eq, canWrite, notTable⟩
  have complete₁ := (storeVirtual_targets _ space₁ targets).1
  have complete₂ := (storeVirtual_targets _ space₂ fun i i_lt => (targets i i_lt).congr space₁ space₂).1
  refine .of_ok ⟨?_, rfl, behind.pool_eq, fun a clean => ?_⟩
  · dsimp only
    rw [complete₁, complete₂]
  · refine storeVirtual_agree _ space₁ space₂ targets ?_
    by_cases isPage : pageOf a ∈ pages
    · -- the file covers this page, so the byte is stored to
      obtain ⟨j, j_lt, page_eq⟩ := getElem_of_mem isPage
      obtain ⟨lower, upper⟩ := (pageOf_eq_iff (pageOf_mod a)).1 (rfl : pageOf a = pageOf a)
      have found : pages[(4096 * j + (a - pageOf a)) / 4096]? = some (pageOf a) := by
        rw [show (4096 * j + (a - pageOf a)) / 4096 = j by omega, List.getElem?_eq_getElem j_lt, page_eq]
      obtain ⟨attributes, hit, _⟩ := reserved.translate_eq paired.ready fits few writable aligned found
      refine .inr ⟨4096 * j + (a - pageOf a), by omega, attributes, ?_⟩
      rw [hit, show pageOf a + (4096 * j + (a - pageOf a)) % 4096 = a by omega]
    · exact .inl (behind.bytes_eq a fun left => clean ⟨left.1, .inl (left.2.resolve_right isPage)⟩)

theorem release_follows (behind : Behind dirty [] mem₁ mem₂) (addr fuel p : Nat) (units : List MmapUnit) :
    Follows (Answers (Behind dirty [])) (release addr fuel p units mem₁)
      (release addr fuel p units mem₂) := by
  induction fuel generalizing mem₁ mem₂ p units with
  | zero => exact .of_error _
  | succ fuel ih =>
    unfold release
    split
    · exact .of_ok ⟨rfl, behind⟩
    · split
      · exact .of_error _
      · exact (deallocPage_follows behind _).bind fun middle₁ middle₂ _ behind' => ih behind' _ _

theorem munmap_follows (control : MmapControl) (behind : Behind dirty [] mem₁ mem₂) (addr length : Nat) :
    Follows (Answers (Behind dirty [])) (control.munmap addr length mem₁)
      (control.munmap addr length mem₂) := by
  unfold munmap
  split
  · exact .of_error _
  · exact (release_follows behind addr _ _ control.memKeeper).next
      fun units middle₁ middle₂ _ behind' => .of_ok ⟨rfl, behind'⟩

theorem copy_follows (other : MmapControl) (paired : Paired dirty [] mem₁ mem₂ root view tables)
    (clean : ∀ unit ∈ other.memKeeper, InIdentityWindow unit.sourceAddr ∧
      unit.sourceAddr % 4096 = 0 ∧ ¬ dirty unit.sourceAddr) :
    Follows (Answers (Mirrored dirty [] root)) (other.copy root mem₁) (other.copy root mem₂) := by
  refine (mapPages_follows paired fun request requestMem => ?_).next
    fun pages middle₁ middle₂ _ mirrored => .of_ok ⟨rfl, mirrored⟩
  obtain ⟨unit, unitMem, rfl⟩ := mem_map.1 requestMem
  obtain ⟨window, aligned, notDirty⟩ := clean unit unitMem
  rw [copyFrom_of_window window]
  exact blind_copyOf _ aligned notDirty

end MmapControl

theorem storeBytes_behind (behind : Behind dirty [] mem₁ mem₂) (address : Nat) (image : List UInt8) :
    Behind dirty [] { mem₁ with bytes := storeBytes mem₁.bytes address image }
      { mem₂ with bytes := storeBytes mem₂.bytes address image } := by
  refine ⟨behind.pool_eq, fun a clean => ?_⟩
  dsimp only [storeBytes]
  rw [behind.bytes_eq a clean]

theorem createSpace_follows (fixed : FixedPages) (file : ElfFile) (stackImage : List UInt8)
    (behind : Behind dirty [] mem₁ mem₂) (fresh : Fresh [] mem₁.memoryPool) :
    Follows (Answers (Behind dirty [])) (createSpace fixed file stackImage mem₁)
      (createSpace fixed file stackImage mem₂) := by
  refine (newPageTable_follows behind fresh fixed).bind ?_
  rintro ⟨_, table₁⟩ ⟨pageTable, table₂⟩ _ ⟨rfl, _, _, paired⟩
  refine (loadElf_follows paired file).next fun elf loaded₁ loaded₂ _ mirrored => ?_
  obtain ⟨_, _, paired'⟩ := mirrored
  refine (getClearPage_follows paired'.behind paired'.aligned).next fun stack cleared₁ cleared₂ _ behind' => ?_
  exact .of_ok ⟨rfl, storeBytes_behind behind' _ stackImage⟩

structure ForkReads (dirty : Nat → Prop) (parent : AddressSpace) : Prop where
  stack : parent.stack % 4096 = 0 ∧ ¬ dirty parent.stack
  text : ∀ bind ∈ parent.elf.text.binds, bind.2 % 4096 = 0 ∧ bind.2 < 2 ^ 64
  data : ∀ page ∈ parent.elf.data.mAddrs, page % 4096 = 0 ∧ ¬ dirty page
  brk : ∀ page ∈ parent.brk.memKeeper, page % 4096 = 0 ∧ ¬ dirty page
  mmap : ∀ unit ∈ parent.mmap.memKeeper, InIdentityWindow unit.sourceAddr ∧
    unit.sourceAddr % 4096 = 0 ∧ ¬ dirty unit.sourceAddr

theorem stackCopy_follows (behind : Behind dirty [] mem₁ mem₂) (fresh : Fresh [] mem₁.memoryPool)
    {stack : Nat} (clean : stack % 4096 = 0 ∧ ¬ dirty stack) :
    Follows (Answers (Behind dirty []))
      (do
        let (page, mem) ← mem₁.allocPage
        return (page, mem.fill page fun k => mem.bytes (stack + k)))
      (do
        let (page, mem) ← mem₂.allocPage
        return (page, mem.fill page fun k => mem.bytes (stack + k))) := by
  unfold PhysMemory.allocPage
  rw [behind.pool_eq]
  cases pool_eq : mem₁.memoryPool with
  | nil => exact .of_error _
  | cons page rest =>
    refine .of_ok ⟨rfl, behind.take pool_eq (fresh.aligned page (by simp [pool_eq])).1 fun k k_lt => ?_⟩
    refine behind.bytes_eq _ fun left => clean.2 ?_
    rw [← (pageOf_eq_iff clean.1).2 (show stack ≤ stack + k ∧ _ by omega)]
    exact left.1

theorem AddressSpace.fork_follows (parent : AddressSpace) (fixed : FixedPages)
    (behind : Behind dirty [] mem₁ mem₂) (fresh : Fresh [] mem₁.memoryPool)
    (clean : ForkReads dirty parent) :
    Follows (Answers (Behind dirty [])) (parent.fork fixed mem₁) (parent.fork fixed mem₂) := by
  rw [parent.fork_eq, parent.fork_eq]
  refine (stackCopy_follows behind fresh clean.stack).next fun stack stack₁ stack₂ stack_eq behind₁ => ?_
  have grown := (allocFilled_returns fun bytes k => bytes (parent.stack + k)).1.result stack_eq
  refine (newPageTable_follows behind₁ (grown.fresh fresh) fixed).bind ?_
  rintro ⟨_, table₁⟩ ⟨pageTable, table₂⟩ _ ⟨rfl, _, _, paired₂⟩
  refine (paired₂.registerPages clean.text).bind ?_
  rintro text₁ text₂ _ ⟨_, _, paired₃⟩
  refine (parent.elf.data.copy_follows paired₃ clean.data).bind ?_
  rintro ⟨_, data₁⟩ ⟨data, data₂⟩ _ ⟨rfl, _, _, paired₄⟩
  refine (parent.brk.copy_follows paired₄ clean.brk).bind ?_
  rintro ⟨_, brk₁⟩ ⟨brk, brk₂⟩ _ ⟨rfl, _, _, paired₅⟩
  refine (parent.mmap.copy_follows paired₅ clean.mmap).next fun mmap mmap₁ mmap₂ _ mirrored => ?_
  exact .of_ok ⟨rfl, mirrored.behind⟩

def Covers (space : AddressSpace) (mem : PhysMemory) : MemoryCall → Prop
  | .mmap length file => length % 2 ^ 32 ≤ 4096 * MmapControl.needPage length ∧
      space.mmap.Fits length mem ∧ 4096 * MmapControl.needPage length ≤ (file.take (length % 2 ^ 32)).length
  | _ => True

theorem AddressSpace.call_follows (space : AddressSpace)
    (paired : Paired dirty [] mem₁ mem₂ space.pageTable view tables) (writable : AllWritable view)
    (brkTable_eq : space.brk.pageTable = space.pageTable)
    (mmapTable_eq : space.mmap.pageTable = space.pageTable) (aligned : space.mmap.mmapStart % 4096 = 0)
    (small : mem₁.memoryPool.length ≤ 2 ^ 27) {call : MemoryCall} (covers : Covers space mem₁ call) :
    Follows (Answers (Answers (Behind dirty []))) (space.call mem₁ call) (space.call mem₂ call) := by
  cases call with
  | brk p =>
    refine (space.brk.brk_follows (brkTable_eq ▸ paired) p).bind ?_
    rintro ⟨ret, _, middle₁⟩ ⟨_, brk, middle₂⟩ _ ⟨_, rfl, behind⟩
    exact .of_ok ⟨rfl, rfl, behind⟩
  | mmap length file =>
    obtain ⟨within, fits, covers⟩ := covers
    refine (space.mmap.mmap_follows (mmapTable_eq ▸ paired) writable aligned small within fits covers).bind ?_
    rintro ⟨_, _, middle₁⟩ ⟨ret, mmap, middle₂⟩ _ ⟨rfl, rfl, behind⟩
    exact .of_ok ⟨rfl, rfl, behind⟩
  | munmap addr length =>
    exact (space.mmap.munmap_follows paired.behind addr length).next
      fun mmap middle₁ middle₂ _ behind => .of_ok ⟨rfl, rfl, behind⟩

end SysCore.Process
