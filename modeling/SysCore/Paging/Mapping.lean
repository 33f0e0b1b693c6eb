import SysCore.Paging.CreateMapping
import Mathlib.Data.List.Perm.Basic

/-!
# Growing an address space

The memory managers all work in the same way: take a page from the pool, put
something into it, and map it for the user.  `mapPages` is that loop, and
`initPageTable` prepares a new table with the mappings of the kernel.

`Ready` is a table next to a pool that shares no page with it, and `Grown` is
what such a loop may do to memory: the pages it has taken are split into data
pages and table pages, and nothing else is written.
-/

namespace SysCore.Paging

open Memory Transition List

structure FixedPages where
  fastSyscallPage : Nat
  vdsoTextPage : Nat
  vdsoDataPage : Nat
  aligned : ∀ page ∈ [fastSyscallPage, vdsoTextPage, vdsoDataPage],
    page % 4096 = 0 ∧ page < 2 ^ 64

def FixedPages.pages (fixed : FixedPages) : List Nat :=
  [fixed.fastSyscallPage, fixed.vdsoTextPage, fixed.vdsoDataPage]

def initPageTable (mem : PhysMemory) (root : Nat) (fixed : FixedPages) : Outcome PhysMemory := do
  let mem ← createMapping mem root 0x38001000 0x38001000 .small .supervisor
  let mem ← createMapping mem root 0x40000000 0x40000000 .large .supervisor
  let mem ← createMapping mem root 0x80000000 0x80000000 .large .user
  let mem ← createMapping mem root 0x200000000 fixed.fastSyscallPage .small .user
  let mem ← createMapping mem root 0x300000000 fixed.vdsoTextPage .small .user
  createMapping mem root 0x300001000 fixed.vdsoDataPage .small .user

inductive Fill where
  /-- It stays as it comes from the pool. -/
  | keep
  | image (content : Nat → UInt8)
  /-- The source of the copy is not mapped. -/
  | unreadable

def PhysMemory.prepare (mem : PhysMemory) (page : Nat) : Fill → Outcome PhysMemory
  | .keep => .ok mem
  | .image content => .ok (mem.fill page content)
  | .unreadable => .error .stray

structure PageRequest where
  va : Nat
  fill : Bytes → Fill

def mapPage (mem : PhysMemory) (root : Nat) (request : PageRequest) :
    Outcome (Nat × PhysMemory) := do
  let (page, mem) ← mem.allocPage
  let mem ← mem.prepare page (request.fill mem.bytes)
  let mem ← createMapping mem root request.va page .small .user
  return (page, mem)

def mapPages (root : Nat) : List PageRequest → PhysMemory → Outcome (List Nat × PhysMemory)
  | [], mem => return ([], mem)
  | request :: rest, mem => do
    let (page, mem) ← mapPage mem root request
    let (pages, mem) ← mapPages root rest mem
    return (page :: pages, mem)

def registerPages (root : Nat) : List (Nat × Nat) → PhysMemory → Outcome PhysMemory
  | [], mem => return mem
  | (va, page) :: rest, mem => do
    let mem ← createMapping mem root va page .small .user
    registerPages root rest mem

def userLeaf (page : Nat) : Nat :=
  calcPpn page ||| leafAttributes .user

def bindAll (view : Nat → Option (Nat × Nat)) (binds : List (Nat × Nat)) :
    Nat → Option (Nat × Nat) :=
  binds.foldl (fun view bind => bindLeaf view (vpnOf bind.1) (userLeaf bind.2)) view

section Views

variable {view : Nat → Option (Nat × Nat)} {vpn pte : Nat}

theorem bindLeaf_of_mapped (mapped : view vpn ≠ none) : bindLeaf view vpn pte = view :=
  if_neg mapped

theorem bindLeaf_of_ne {other : Nat} (different : other ≠ vpn) :
    bindLeaf view vpn pte other = view other := by
  unfold bindLeaf
  split
  · rw [Function.update_of_ne different]
  · rfl

theorem bindLeaf_self : bindLeaf view vpn pte vpn = (view vpn).or (some (pte, 0)) := by
  unfold bindLeaf
  cases found : view vpn <;> simp [found]

theorem bindLeaf_super_iff {other found level : Nat} :
    bindLeaf view vpn pte other = some (found, level + 1) ↔
      view other = some (found, level + 1) := by
  by_cases same : other = vpn
  · subst same
    rw [bindLeaf_self]
    cases view other <;> simp
  · rw [bindLeaf_of_ne same]

theorem bindAll_super_iff {binds : List (Nat × Nat)} {other found level : Nat} :
    bindAll view binds other = some (found, level + 1) ↔ view other = some (found, level + 1) := by
  induction binds generalizing view with
  | nil => rfl
  | cons bind binds ih => exact ih.trans bindLeaf_super_iff

theorem bindAll_append (first second : List (Nat × Nat)) :
    bindAll view (first ++ second) = bindAll (bindAll view first) second :=
  foldl_append

theorem bindAll_eq (binds : List (Nat × Nat)) (other : Nat) :
    bindAll view binds other = (view other).or
      ((binds.find? fun bind => vpnOf bind.1 = other).map fun bind => (userLeaf bind.2, 0)) := by
  induction binds generalizing view with
  | nil => simp [bindAll]
  | cons bind binds ih =>
    have unfolded : bindAll view (bind :: binds) =
        bindAll (bindLeaf view (vpnOf bind.1) (userLeaf bind.2)) binds := rfl
    rw [unfolded, ih]
    by_cases same : vpnOf bind.1 = other
    · rw [← same, bindLeaf_self]
      cases view (vpnOf bind.1) <;> simp
    · rw [bindLeaf_of_ne (Ne.symm same), List.find?_cons_of_neg (by simpa using same)]

end Views

variable {tables pages : List Nat} {a : Nat}

theorem Fresh.perm {pages' : List Nat} (fresh : Fresh tables pages) (same : pages.Perm pages') :
    Fresh tables pages' where
  nodup := same.nodup_iff.1 fresh.nodup
  aligned page pageMem := fresh.aligned page (same.mem_iff.2 pageMem)
  outside page pageMem := fresh.outside page (same.mem_iff.2 pageMem)

theorem Fresh.weaken (fresh : Fresh tables pages) : Fresh [] pages :=
  ⟨fresh.nodup, fresh.aligned, nofun⟩

theorem Fresh.shift {news : List Nat} (fresh : Fresh tables (news ++ pages)) :
    Fresh (news ++ tables) pages where
  nodup := (nodup_append.1 fresh.nodup).2.1
  aligned page pageMem := fresh.aligned page (mem_append_right _ pageMem)
  outside page pageMem := by
    rw [mem_append, not_or]
    refine ⟨fun newMem => ?_, fresh.outside page (mem_append_right _ pageMem)⟩
    exact (nodup_append.1 fresh.nodup).2.2 page newMem page pageMem rfl

structure Ready (mem : PhysMemory) (root : Nat) (view : Nat → Option (Nat × Nat))
    (tables : List Nat) : Prop where
  space : Space mem.bytes root view tables
  fresh : Fresh tables mem.memoryPool

structure Grown (mem mem' : PhysMemory) (tables pages news : List Nat) : Prop where
  pool : mem.memoryPool.Perm (pages ++ (news ++ mem'.memoryPool))
  frame : ∀ a, Outside (pages ++ (news ++ tables)) a → mem'.bytes a = mem.bytes a

theorem Outside.mono {fewer : List Nat} (outside : Outside pages a) (sub : ∀ page ∈ fewer, page ∈ pages) :
    Outside fewer a :=
  fun page pageMem => outside page (sub page pageMem)

theorem Outside.pageOf_not_mem (outside : Outside pages a) : pageOf a ∉ pages := by
  intro pageMem
  have bounds := (pageOf_eq_iff (pageOf_mod a)).1 (rfl : pageOf a = pageOf a)
  have apart := outside _ pageMem
  omega

theorem outside_of_not_mem {page : Nat} (aligned : ∀ other ∈ pages, other % 4096 = 0)
    (page_aligned : page % 4096 = 0) (notMem : page ∉ pages) (lower : page ≤ a) (upper : a < page + 4096) :
    Outside pages a := by
  intro other otherMem
  have other_aligned := aligned other otherMem
  have other_ne : other ≠ page := fun same => notMem (same ▸ otherMem)
  omega

namespace Grown

variable {mem mem₁ mem₂ : PhysMemory} {tables pages pages₁ pages₂ news news₁ news₂ : List Nat}

theorem refl (mem : PhysMemory) (tables : List Nat) : Grown mem mem tables [] [] :=
  ⟨.refl _, fun _ _ => rfl⟩

theorem trans (first : Grown mem mem₁ tables pages₁ news₁)
    (second : Grown mem₁ mem₂ (news₁ ++ tables) pages₂ news₂) :
    Grown mem mem₂ tables (pages₁ ++ pages₂) (news₂ ++ news₁) := by
  refine ⟨?_, ?_⟩
  · refine first.pool.trans (perm_iff_count.2 fun page => ?_)
    have counted := second.pool.count_eq page
    simp only [count_append] at counted ⊢
    omega
  · intro a outside
    rw [second.frame a, first.frame a]
    · exact outside.mono fun page => by simp only [mem_append]; tauto
    · exact outside.mono fun page => by simp only [mem_append]; tauto

theorem onTop (first : Grown mem mem₁ [] pages₁ tables) (second : Grown mem₁ mem₂ tables pages₂ news) :
    Grown mem mem₂ [] (pages₁ ++ pages₂) (news ++ tables) :=
  first.trans ((append_nil tables).symm ▸ second)

theorem freshAll (grown : Grown mem mem₁ tables pages news) (fresh : Fresh tables mem.memoryPool) :
    Fresh tables (pages ++ (news ++ mem₁.memoryPool)) :=
  fresh.perm grown.pool

theorem fresh (grown : Grown mem mem₁ tables pages news) (fresh : Fresh tables mem.memoryPool) :
    Fresh (news ++ tables) mem₁.memoryPool :=
  ((grown.freshAll fresh).sublist (sublist_append_right _ _)).shift

end Grown

structure Held (mem : PhysMemory) (tables : List Nat) (page : Nat) : Prop where
  aligned : page % 4096 = 0
  notFree : page ∉ mem.memoryPool
  notTable : page ∉ tables

section Held

variable {mem mem' : PhysMemory} {root page k : Nat} {view : Nat → Option (Nat × Nat)}
  {tables news : List Nat} (grown : Grown mem mem' tables pages news)
include grown

theorem Grown.keeps (fresh : Fresh tables mem.memoryPool) (aligned : ∀ table ∈ tables, table % 4096 = 0)
    (held : Held mem tables page) (k_lt : k < 4096) : mem'.bytes (page + k) = mem.bytes (page + k) := by
  have taken : ∀ other ∈ pages ++ news, other ∈ mem.memoryPool := fun other otherMem =>
    grown.pool.mem_iff.2 (by simp only [mem_append] at otherMem ⊢; tauto)
  refine grown.frame _ (outside_of_not_mem ?_ held.aligned ?_ (Nat.le_add_right page k) (by omega))
  · intro other otherMem
    rw [← append_assoc, mem_append] at otherMem
    rcases otherMem with isTaken | isTable
    · exact (fresh.aligned other (taken other isTaken)).1
    · exact aligned other isTable
  · rw [← append_assoc, mem_append, not_or]
    exact ⟨fun isTaken => held.notFree (taken page isTaken), held.notTable⟩

theorem Ready.keeps (ready : Ready mem root view tables) (held : Held mem tables page) (k_lt : k < 4096) :
    mem'.bytes (page + k) = mem.bytes (page + k) :=
  grown.keeps ready.fresh (fun _ tableMem => (ready.space.aligned tableMem).1) held k_lt

theorem Held.later (held : Held mem tables page) : Held mem' (news ++ tables) page := by
  have notTaken : ∀ taken, (taken ∈ pages ∨ taken ∈ news ∨ taken ∈ mem'.memoryPool) →
      taken ≠ page := by
    rintro taken takenMem rfl
    refine held.notFree (grown.pool.mem_iff.2 ?_)
    simpa using takenMem
  refine ⟨held.aligned, fun isFree => notTaken page (.inr (.inr isFree)) rfl, ?_⟩
  rw [mem_append, not_or]
  exact ⟨fun isNew => notTaken page (.inr (.inl isNew)) rfl, held.notTable⟩

theorem Grown.held (fresh : Fresh tables mem.memoryPool) (pageMem : page ∈ pages) :
    Held mem' (news ++ tables) page := by
  have all := grown.freshAll fresh
  have apart := (nodup_append.1 all.nodup).2.2 page pageMem
  refine ⟨(all.aligned page (mem_append_left _ pageMem)).1, ?_, ?_⟩
  · exact fun isFree => apart page (mem_append_right _ isFree) rfl
  · rw [mem_append, not_or]
    exact ⟨fun isNew => apart page (mem_append_left _ isNew) rfl,
      all.outside page (mem_append_left _ pageMem)⟩

end Held

section MapPage

variable {mem : PhysMemory} {root : Nat} {view : Nat → Option (Nat × Nat)} {tables : List Nat}
  {vpn pte va page : Nat} {mem' : PhysMemory} {news : List Nat}

theorem missing_eq_zero (space : Space mem.bytes root view tables) (vpn_lt : vpn < 2 ^ 27)
    (mapped : view vpn = some (pte, 0)) : missing mem.bytes root vpn = 0 := by
  rw [space.view_eq vpn vpn_lt] at mapped
  rw [missing, if_pos]
  simp only [indices, lookup, length_cons, length_nil] at mapped
  split at mapped
  · simp at mapped
  · obtain ⟨next, next_eq, mapped⟩ := Option.bind_eq_some_iff.1 mapped
    split at mapped
    · simp at mapped
    · obtain ⟨last, last_eq, _⟩ := Option.bind_eq_some_iff.1 mapped
      simp only [indices, take_succ_cons, take_zero, walk, next_eq, last_eq,
        Option.bind_some, Option.isSome_some]

theorem missing_le (m : Bytes) (root vpn : Nat) : missing m root vpn ≤ 2 := by
  unfold missing
  split
  · omega
  · split <;> omega

theorem Mapped.grown (mapped : Mapped mem mem' root view tables news vpn pte) :
    Grown mem mem' tables [] news :=
  ⟨by rw [mapped.pool_eq]; rfl, mapped.frame⟩

theorem Mapped.ready (mapped : Mapped mem mem' root view tables news vpn pte)
    (ready : Ready mem root view tables) : Ready mem' root (bindLeaf view vpn pte) (news ++ tables) :=
  ⟨mapped.space, mapped.grown.fresh ready.fresh⟩

def Mappable (view : Nat → Option (Nat × Nat)) (va : Nat) : Prop :=
  0x1000 ≤ va ∧ ∀ pte level, view (vpnOf va) ≠ some (pte, level + 1)

theorem Mappable.of_unmapped (notNull : 0x1000 ≤ va) (unmapped : view (vpnOf va) = none) :
    Mappable view va :=
  ⟨notNull, fun _ _ super => by simp [unmapped] at super⟩

theorem mappable_bindLeaf_iff : Mappable (bindLeaf view vpn pte) va ↔ Mappable view va := by
  simp only [Mappable, ne_eq, bindLeaf_super_iff]

theorem mappable_bindAll_iff {binds : List (Nat × Nat)} :
    Mappable (bindAll view binds) va ↔ Mappable view va := by
  simp only [Mappable, ne_eq, bindAll_super_iff]

structure PageMapped (mem mem' : PhysMemory) (root : Nat) (view : Nat → Option (Nat × Nat))
    (tables : List Nat) (request : PageRequest) (page : Nat) (news : List Nat) : Prop where
  ready : Ready mem' root (bindLeaf view (vpnOf request.va) (userLeaf page)) (news ++ tables)
  mappable : Mappable view request.va
  pool_eq : mem.memoryPool = page :: (news ++ mem'.memoryPool)
  news_le : news.length ≤ 2
  news_of_mapped : view (vpnOf request.va) ≠ none → news = []
  filled : ∀ content, request.fill mem.bytes = .image content →
    ∀ k < 4096, mem'.bytes (page + k) = content k
  frame : ∀ a, Outside (page :: (news ++ tables)) a → mem'.bytes a = mem.bytes a

theorem PageMapped.grown {request : PageRequest}
    (mapped : PageMapped mem mem' root view tables request page news) :
    Grown mem mem' tables [page] news :=
  ⟨by rw [mapped.pool_eq]; rfl, mapped.frame⟩

variable (ready : Ready mem root view tables)
include ready

theorem Ready.prepare {rest : List Nat} (pool_eq : mem.memoryPool = page :: rest) {fill : Fill}
    (readable : fill ≠ .unreadable) :
    ∃ mem', PhysMemory.prepare ⟨mem.bytes, rest⟩ page fill = .ok mem' ∧
      mem'.memoryPool = rest ∧ Ready mem' root view tables ∧
      (∀ content, fill = .image content → ∀ k < 4096, mem'.bytes (page + k) = content k) ∧
      ∀ a, (a < page ∨ page + 4096 ≤ a) → mem'.bytes a = mem.bytes a := by
  have fresh := ready.fresh
  rw [pool_eq] at fresh
  have rest_fresh : Fresh tables rest := fresh.sublist (sublist_cons_self _ _)
  cases fill with
  | keep => exact ⟨_, rfl, rfl, ⟨ready.space, rest_fresh⟩, nofun, fun _ _ => rfl⟩
  | image content =>
    refine ⟨_, rfl, rfl, ⟨ready.space.congr ?_, rest_fresh⟩, ?_, ?_⟩
    · intro table tableMem a lower upper
      have table_aligned := (ready.space.aligned tableMem).1
      have page_aligned := (fresh.aligned page mem_cons_self).1
      have table_ne : table ≠ page := fun same => fresh.outside page mem_cons_self (same ▸ tableMem)
      exact fillPage_of_outside _ _ (by omega)
    · intro content' isImage k k_lt
      cases isImage
      exact fillPage_inside _ _ k_lt
    · intro a outside
      exact fillPage_of_outside _ _ outside
  | unreadable => exact absurd rfl readable

theorem Ready.takePage {rest : List Nat} (pool_eq : mem.memoryPool = page :: rest) (bytes : Bytes)
    (agree : ∀ a, (a < page ∨ page + 4096 ≤ a) → bytes a = mem.bytes a) :
    Ready ⟨bytes, rest⟩ root view tables ∧ Grown mem ⟨bytes, rest⟩ tables [page] [] := by
  have fresh := ready.fresh
  rw [pool_eq] at fresh
  have page_aligned := (fresh.aligned page mem_cons_self).1
  refine ⟨⟨ready.space.congr fun table tableMem a lower upper => agree a ?_, ?_⟩, ⟨?_, ?_⟩⟩
  · have table_aligned := (ready.space.aligned tableMem).1
    have table_ne : table ≠ page := fun same => fresh.outside page mem_cons_self (same ▸ tableMem)
    omega
  · exact fresh.sublist (sublist_cons_self _ _)
  · rw [pool_eq]
    rfl
  · exact fun a outside => agree a (outside page mem_cons_self)

theorem Ready.createMapping_returns {pa : Nat} (privilege : PrivilegeLevel) (aligned : pa % 4096 = 0)
    (pa_lt : pa < 2 ^ 64) :
    Returns (Mappable view va ∧ 2 ≤ mem.memoryPool.length)
      (createMapping mem root va pa .small privilege) fun mem' =>
        ∃ news : List Nat, Mappable view va ∧ news.length ≤ 2 ∧ (view (vpnOf va) ≠ none → news = []) ∧
          Mapped mem mem' root view tables news (vpnOf va)
            (calcPpn pa ||| leafAttributes privilege) := by
  by_cases notNull : 0x1000 ≤ va
  · rcases createMapping_small ready.space va privilege aligned pa_lt notNull
        (ready.fresh.sublist (take_sublist _ _)) with
      ⟨refused, panics⟩ | ⟨accepted, mem', news, done, length_eq, mapped⟩
    · rw [panics]
      refine .of_panic ?_
      rintro ⟨⟨_, notSuper⟩, enough⟩
      rcases refused with ⟨pte, level, super⟩ | short
      · exact notSuper pte level super
      · have few := missing_le mem.bytes root (vpnOf va)
        omega
    · rw [done]
      have mappable : Mappable view va :=
        ⟨notNull, fun pte level super => accepted (.inl ⟨pte, level, super⟩)⟩
      refine .of_ok ⟨news, mappable, length_eq.trans_le (missing_le _ _ _), fun isMapped => ?_, mapped⟩
      obtain ⟨⟨pte, level⟩, found⟩ := Option.ne_none_iff_exists'.1 isMapped
      cases level with
      | zero =>
        rw [missing_eq_zero ready.space (vpnOf_lt _) found] at length_eq
        exact length_eq_zero_iff.1 length_eq
      | succ level => exact absurd found (mappable.2 pte level)
  · rw [createMapping, if_pos (Nat.lt_of_not_le notNull)]
    exact .of_panic fun enough => notNull enough.1.1

theorem mapPage_returns (request : PageRequest) (readable : request.fill mem.bytes ≠ .unreadable) :
    Returns (Mappable view request.va ∧ 3 ≤ mem.memoryPool.length) (mapPage mem root request)
      fun result => ∃ news, PageMapped mem result.2 root view tables request result.1 news := by
  cases pool_eq : mem.memoryPool with
  | nil =>
    rw [mapPage, PhysMemory.allocPage, pool_eq]
    exact .of_panic fun enough => by simp at enough
  | cons page rest =>
    obtain ⟨middle, prepare_eq, rest_eq, ready', content_eq, kept⟩ := ready.prepare pool_eq readable
    obtain ⟨page_aligned, page_lt⟩ := ready.fresh.aligned page (by simp [pool_eq])
    have start : mapPage mem root request =
        (createMapping middle root request.va page .small .user >>= fun mem' =>
          .ok (page, mem')) := by
      simp only [mapPage, PhysMemory.allocPage, pool_eq, ok_bind, prepare_eq]
      rfl
    rw [start]
    refine ((ready'.createMapping_returns .user page_aligned page_lt).mono ?_ fun _ => id).bind ?_
    · rintro ⟨mappable, enough⟩
      exact ⟨mappable, by simp only [length_cons] at enough; rw [rest_eq]; omega⟩
    rintro mem' ⟨news, mappable, news_le, news_of_mapped, mapped⟩
    have fresh := ready.fresh
    rw [pool_eq, ← rest_eq, mapped.pool_eq] at fresh
    refine .of_ok ⟨news, mapped.ready ready', mappable, ?_, news_le, news_of_mapped, ?_, ?_⟩
    · rw [pool_eq, ← rest_eq, mapped.pool_eq]
    · -- the tables taken for the mapping are other pages than the new one
      intro content isImage k k_lt
      rw [mapped.frame, content_eq content isImage k k_lt]
      refine outside_of_not_mem ?_ page_aligned ?_ (Nat.le_add_right _ _) (by omega)
      · intro other otherMem
        rcases mem_append.1 otherMem with isNew | isTable
        · exact (fresh.aligned other (by simp [isNew])).1
        · exact (ready.space.aligned isTable).1
      · rw [mem_append, not_or]
        refine ⟨fun isNew => (nodup_cons.1 fresh.nodup).1 ?_, ?_⟩
        · exact mem_append_left _ isNew
        · exact fresh.outside page mem_cons_self
    · intro a outside
      rw [mapped.frame a (outside.mono fun _ => mem_cons_of_mem _),
        kept a (outside page mem_cons_self)]

end MapPage

section Loops

variable {mem : PhysMemory} {root : Nat} {view : Nat → Option (Nat × Nat)} {tables : List Nat}
  {mem' : PhysMemory} {news : List Nat} {requests : List PageRequest}

structure Extended (mem mem' : PhysMemory) (root : Nat) (view : Nat → Option (Nat × Nat))
    (tables : List Nat) (binds : List (Nat × Nat)) (pages news : List Nat) : Prop where
  ready : Ready mem' root (bindAll view binds) (news ++ tables)
  grown : Grown mem mem' tables pages news
  mappable : ∀ bind ∈ binds, Mappable view bind.1
  news_le : news.length ≤ 2 * binds.length

namespace Extended

variable {mem₁ mem₂ : PhysMemory} {binds binds₁ binds₂ : List (Nat × Nat)}
  {pages pages₁ pages₂ news news₁ news₂ : List Nat}

theorem refl (ready : Ready mem root view tables) : Extended mem mem root view tables [] [] [] :=
  ⟨ready, .refl mem tables, nofun, le_rfl⟩

theorem trans (first : Extended mem mem₁ root view tables binds₁ pages₁ news₁)
    (second : Extended mem₁ mem₂ root (bindAll view binds₁) (news₁ ++ tables) binds₂ pages₂ news₂) :
    Extended mem mem₂ root view tables (binds₁ ++ binds₂) (pages₁ ++ pages₂) (news₂ ++ news₁) := by
  refine ⟨?_, first.grown.trans second.grown, ?_, ?_⟩
  · rw [bindAll_append, append_assoc]
    exact second.ready
  · intro bind bindMem
    rcases mem_append.1 bindMem with inFirst | inSecond
    · exact first.mappable bind inFirst
    · exact mappable_bindAll_iff.1 (second.mappable bind inSecond)
  · have few₁ := first.news_le
    have few₂ := second.news_le
    rw [length_append, length_append]
    omega

theorem cost (extended : Extended mem mem₁ root view tables binds pages news) :
    mem.memoryPool.length = pages.length + news.length + mem₁.memoryPool.length ∧
      news.length ≤ 2 * binds.length := by
  have counted := extended.grown.pool.length_eq
  have few := extended.news_le
  simp only [length_append] at counted
  omega

end Extended

theorem PageMapped.extended {request : PageRequest} {page : Nat}
    (mapped : PageMapped mem mem' root view tables request page news) :
    Extended mem mem' root view tables [(request.va, page)] [page] news :=
  ⟨mapped.ready, mapped.grown, by simpa using mapped.mappable, mapped.news_le⟩

theorem mapPages_returns (ready : Ready mem root view tables) (requests : List PageRequest)
    (readable : ∀ request ∈ requests, ∀ bytes, request.fill bytes ≠ .unreadable) :
    Returns ((∀ request ∈ requests, Mappable view request.va) ∧
        3 * requests.length ≤ mem.memoryPool.length) (mapPages root requests mem) fun result =>
      result.1.length = requests.length ∧
        ∃ news, Extended mem result.2 root view tables
          ((requests.map PageRequest.va).zip result.1) result.1 news := by
  induction requests generalizing mem view tables with
  | nil => exact .of_ok ⟨rfl, [], .refl ready⟩
  | cons request rest ih =>
    rw [mapPages]
    refine ((mapPage_returns ready request (readable request mem_cons_self mem.bytes)).mono
      ?_ fun _ => id).bind ?_
    · rintro ⟨mappable, enough⟩
      rw [length_cons] at enough
      exact ⟨mappable request mem_cons_self, by omega⟩
    rintro ⟨page, mem₁⟩ ⟨news₁, mapped⟩
    have cost := mapped.extended.cost
    refine ((ih mapped.ready fun other otherMem =>
      readable other (mem_cons_of_mem _ otherMem)).mono ?_ fun _ => id).bind ?_
    · rintro ⟨mappable, enough⟩
      rw [length_cons] at enough
      simp only [length_singleton] at cost
      refine ⟨fun other otherMem => ?_, by dsimp only; omega⟩
      exact mappable_bindLeaf_iff.2 (mappable other (mem_cons_of_mem _ otherMem))
    rintro ⟨pages, mem₂⟩ ⟨pages_eq, news₂, below⟩
    exact .of_ok ⟨congrArg (· + 1) pages_eq, news₂ ++ news₁, mapped.extended.trans below⟩

def Stable (mem : PhysMemory) (tables : List Nat) (fill : Bytes → Fill) : Prop :=
  ∀ bytes, (∀ page, Held mem tables page → ∀ k < 4096, bytes (page + k) = mem.bytes (page + k)) →
    fill bytes = fill mem.bytes

theorem Stable.grown {fill : Bytes → Fill} {pages : List Nat} (stable : Stable mem tables fill)
    (ready : Ready mem root view tables) (grown : Grown mem mem' tables pages news) :
    fill mem'.bytes = fill mem.bytes ∧ Stable mem' (news ++ tables) fill := by
  have kept : fill mem'.bytes = fill mem.bytes :=
    stable mem'.bytes fun page held k k_lt => ready.keeps grown held k_lt
  refine ⟨kept, fun bytes agree => ?_⟩
  rw [kept]
  refine stable bytes fun page held k k_lt => ?_
  rw [agree page (held.later grown) k k_lt, ready.keeps grown held k_lt]

theorem mapPages_contents (ready : Ready mem root view tables)
    (readable : ∀ request ∈ requests, ∀ bytes, request.fill bytes ≠ .unreadable) {pages : List Nat}
    (done : mapPages root requests mem = .ok (pages, mem')) {asked : PageRequest} {answer : Nat}
    (pairMem : (asked, answer) ∈ requests.zip pages) (stable : Stable mem tables asked.fill)
    {content : Nat → UInt8} (isImage : asked.fill mem.bytes = .image content) {k : Nat} (k_lt : k < 4096) :
    mem'.bytes (answer + k) = content k := by
  induction requests generalizing mem view tables pages with
  | nil => simp at pairMem
  | cons request rest ih =>
    rw [mapPages] at done
    obtain ⟨⟨page, mem₁⟩, first_eq, done⟩ := bind_eq_ok.1 done
    obtain ⟨⟨pages', mem₂⟩, rest_eq, last_eq⟩ := bind_eq_ok.1 done
    cases last_eq
    obtain ⟨news₁, mapped⟩ := (mapPage_returns ready request
      (readable request mem_cons_self mem.bytes)).1.result first_eq
    have restReadable : ∀ other ∈ rest, ∀ bytes, other.fill bytes ≠ .unreadable :=
      fun other otherMem => readable other (mem_cons_of_mem _ otherMem)
    rw [zip_cons_cons, mem_cons, Prod.mk.injEq] at pairMem
    rcases pairMem with ⟨rfl, rfl⟩ | pairMem
    · obtain ⟨_, news₂, below⟩ := (mapPages_returns mapped.ready rest restReadable).1.result rest_eq
      rw [mapped.ready.keeps below.grown (mapped.grown.held ready.fresh mem_cons_self) k_lt]
      exact mapped.filled content isImage k k_lt
    · obtain ⟨same, stable⟩ := stable.grown ready mapped.grown
      exact ih mapped.ready restReadable rest_eq pairMem stable (same.trans isImage)

theorem mapPages_getElem? (ready : Ready mem root view tables)
    (readable : ∀ request ∈ requests, ∀ bytes, request.fill bytes ≠ .unreadable) {pages : List Nat}
    (done : mapPages root requests mem = .ok (pages, mem')) {i : Nat} (i_lt : i < requests.length)
    (mapped : ∀ request ∈ requests.take i, view (vpnOf request.va) ≠ none) :
    pages[i]? = mem.memoryPool[i]? := by
  induction requests generalizing mem view tables pages i with
  | nil => simp at i_lt
  | cons request rest ih =>
    rw [mapPages] at done
    obtain ⟨⟨page, mem₁⟩, first_eq, done⟩ := bind_eq_ok.1 done
    obtain ⟨⟨pages', mem₂⟩, rest_eq, last_eq⟩ := bind_eq_ok.1 done
    cases last_eq
    obtain ⟨news₁, first⟩ := (mapPage_returns ready request
      (readable request mem_cons_self mem.bytes)).1.result first_eq
    rw [first.pool_eq]
    cases i with
    | zero => rfl
    | succ i =>
      rw [take_succ_cons] at mapped
      have isMapped := mapped request mem_cons_self
      have ready₁ := first.ready
      rw [bindLeaf_of_mapped isMapped] at ready₁
      rw [first.news_of_mapped isMapped, List.getElem?_cons_succ, List.getElem?_cons_succ,
        nil_append]
      exact ih ready₁ (fun other otherMem => readable other (mem_cons_of_mem _ otherMem))
        rest_eq (Nat.lt_of_succ_lt_succ i_lt)
        fun other otherMem => mapped other (mem_cons_of_mem _ otherMem)

theorem registerPages_returns (ready : Ready mem root view tables) (binds : List (Nat × Nat))
    (aligned : ∀ bind ∈ binds, bind.2 % 4096 = 0 ∧ bind.2 < 2 ^ 64) :
    Returns ((∀ bind ∈ binds, Mappable view bind.1) ∧ 2 * binds.length ≤ mem.memoryPool.length)
      (registerPages root binds mem) fun mem' =>
        ∃ news, Extended mem mem' root view tables binds [] news := by
  induction binds generalizing mem view tables with
  | nil => exact .of_ok ⟨[], .refl ready⟩
  | cons bind rest ih =>
    obtain ⟨page_aligned, page_lt⟩ := aligned bind mem_cons_self
    rw [registerPages]
    refine ((ready.createMapping_returns .user page_aligned page_lt).mono ?_ fun _ => id).bind ?_
    · rintro ⟨mappable, enough⟩
      rw [length_cons] at enough
      exact ⟨mappable bind mem_cons_self, by omega⟩
    rintro mem₁ ⟨news₁, mappable₁, news_le, _, mapped⟩
    have first : Extended mem mem₁ root view tables [bind] [] news₁ :=
      ⟨mapped.ready ready, mapped.grown, by simpa using mappable₁, news_le⟩
    have cost := first.cost
    refine (ih (mapped.ready ready) fun other otherMem =>
      aligned other (mem_cons_of_mem _ otherMem)).mono ?_ ?_
    · rintro ⟨mappable, enough⟩
      rw [length_cons] at enough
      rw [length_nil, length_singleton] at cost
      refine ⟨fun other otherMem => ?_, by omega⟩
      exact mappable_bindLeaf_iff.2 (mappable other (mem_cons_of_mem _ otherMem))
    · rintro mem₂ ⟨news₂, below⟩
      exact ⟨news₂ ++ news₁, first.trans below⟩

end Loops

def baseView (fixed : FixedPages) (vpn : Nat) : Option (Nat × Nat) :=
  if vpn / 2 ^ 18 = 1 then some (calcPpn 0x40000000 ||| leafAttributes .supervisor, 2)
  else if vpn / 2 ^ 18 = 2 then some (calcPpn 0x80000000 ||| leafAttributes .user, 2)
  else if vpn = 0x38001 then some (calcPpn 0x38001000 ||| leafAttributes .supervisor, 0)
  else if vpn = 0x200000 then some (userLeaf fixed.fastSyscallPage, 0)
  else if vpn = 0x300000 then some (userLeaf fixed.vdsoTextPage, 0)
  else if vpn = 0x300001 then some (userLeaf fixed.vdsoDataPage, 0)
  else none

def newPageTable (mem : PhysMemory) (fixed : FixedPages) : Outcome (Nat × PhysMemory) := do
  let (root, mem) ← mem.getClearPage
  let mem ← initPageTable mem root fixed
  return (root, mem)

section NewTable

variable {mem : PhysMemory} {root : Nat} {view : Nat → Option (Nat × Nat)} {tables : List Nat}

theorem Ready.createMapping_large (ready : Ready mem root view tables) (va pa : Nat)
    (index : Fin 512) (privilege : PrivilegeLevel) (notNull : 0x1000 ≤ va)
    (aligned : pa % 4096 = 0) (pa_lt : pa < 2 ^ 64) (index_eq : getPpn1 va = index)
    (unmapped : view (index * 2 ^ 18) = none) (noTable : walk mem.bytes root [index] = none) :
    ∃ mem', createMapping mem root va pa .large privilege = .ok mem' ∧
      Ready mem' root (fun vpn => if vpn / 2 ^ 18 = index then
        some (calcPpn pa ||| leafAttributes privilege, 2) else view vpn) tables ∧
      Grown mem mem' tables [] [] ∧
      ∀ path, walk mem'.bytes root path = walk mem.bytes root path := by
  have index_lt := index.isLt
  have empty : entryAt mem.bytes root index = 0 :=
    ready.space.root_slot_empty (by omega) (by omega) unmapped noTable
  obtain ⟨leaf, _, _, pte_lt⟩ := leaf_pte privilege aligned pa_lt
  have root_aligned := (ready.space.aligned ready.space.root_mem).1
  have base_ok : (root &&& 7) ^^^ 7 = 7 := (check_table_base_iff root).2 (by omega)
  have slot_eq : readWord mem.bytes (root + 8 * index) = 0 := empty
  have planted : Plant mem.bytes (writeWord mem.bytes (root + 8 * index)
      (calcPpn pa ||| leafAttributes privilege)) root [] root index
      (calcPpn pa ||| leafAttributes privilege) := by
    refine ⟨rfl, empty, leaf, ?_, readWord_writeWord _ _ pte_lt⟩
    intro path other other_eq index' elsewhere
    have other_aligned := (ready.space.wellFormed.aligned path other other_eq).1
    have index_ne : other = root → (index' : Nat) ≠ index := fun same eq =>
      elsewhere ⟨same, Fin.ext eq⟩
    have index_lt' := index'.isLt
    rw [entryAt, readWord_writeWord_of_disjoint _ _ (by omega), entryAt]
  refine ⟨mem.setWord (root + 8 * index) (calcPpn pa ||| leafAttributes privilege), ?_,
    ⟨ready.space.plantRoot planted, ready.fresh⟩, ⟨.refl _, fun a outside => ?_⟩,
    fun path => planted.walk_from path (show walk mem.bytes root [] = some root from rfl)⟩
  · simp [createMapping, Nat.not_lt.2 notNull, base_ok, index_eq, slot_eq]
  · have fromRoot := outside root (by simp [ready.space.root_mem])
    exact writeWord_of_outside _ _ (by omega)

def fixedBinds (fixed : FixedPages) : List (Nat × Nat) :=
  [(0x200000000, fixed.fastSyscallPage), (0x300000000, fixed.vdsoTextPage),
    (0x300001000, fixed.vdsoDataPage)]

theorem initPageTable_eq (mem : PhysMemory) (root : Nat) (fixed : FixedPages) :
    initPageTable mem root fixed = (do
      let mem ← createMapping mem root 0x38001000 0x38001000 .small .supervisor
      let mem ← createMapping mem root 0x40000000 0x40000000 .large .supervisor
      let mem ← createMapping mem root 0x80000000 0x80000000 .large .user
      registerPages root (fixedBinds fixed) mem) := by
  simp only [initPageTable, fixedBinds, registerPages, bind_pure]

theorem baseView_free {fixed : FixedPages} {vpn : Nat}
    (free : vpn < 0x38001 ∨ 0xc0000 ≤ vpn ∧ vpn < 0x200000) : baseView fixed vpn = none := by
  unfold baseView
  rw [if_neg (by omega), if_neg (by omega), if_neg (by omega), if_neg (by omega),
    if_neg (by omega), if_neg (by omega)]

theorem baseView_eq (fixed : FixedPages) :
    bindAll (fun vpn => if vpn / 2 ^ 18 = 2 then some (calcPpn 0x80000000 ||| leafAttributes .user, 2)
      else if vpn / 2 ^ 18 = 1 then some (calcPpn 0x40000000 ||| leafAttributes .supervisor, 2)
      else bindLeaf (fun _ => none) 0x38001 (calcPpn 0x38001000 ||| leafAttributes .supervisor) vpn)
      (fixedBinds fixed) = baseView fixed := by
  funext vpn
  have fast : vpnOf 0x200000000 = 0x200000 := rfl
  have text : vpnOf 0x300000000 = 0x300000 := rfl
  have data : vpnOf 0x300001000 = 0x300001 := rfl
  rw [bindAll_eq, baseView]
  by_cases first : vpn / 2 ^ 18 = 1
  · have second : vpn / 2 ^ 18 ≠ 2 := by omega
    rw [if_neg second, if_pos first, if_pos first, Option.some_or]
  · by_cases second : vpn / 2 ^ 18 = 2
    · rw [if_pos second, if_neg first, if_pos second, Option.some_or]
    · rw [if_neg second, if_neg first, if_neg first, if_neg second]
      by_cases device : vpn = 0x38001
      · subst device
        simp [bindLeaf_self]
      · rw [bindLeaf_of_ne device, if_neg device, Option.none_or]
        simp only [fixedBinds, List.find?_cons, List.find?_nil, fast, text, data]
        by_cases isFast : vpn = 0x200000
        · simp [isFast]
        · by_cases isText : vpn = 0x300000
          · simp [isText]
          · by_cases isData : vpn = 0x300001
            · simp [isData]
            · simp [isFast, isText, isData, Ne.symm isFast, Ne.symm isText, Ne.symm isData]

theorem walk_eq_none_of_single (space : Space mem.bytes root view [root]) (index : Fin 512) :
    walk mem.bytes root [index] = none := by
  cases walk_eq : walk mem.bytes root [index] with
  | none => rfl
  | some table =>
    have isRoot := mem_singleton.1 ((space.mem_tables table).2 ⟨_, walk_eq⟩)
    cases space.wellFormed.distinct _ [] _ walk_eq (isRoot ▸ rfl)

theorem Mapped.large {mem₁ : PhysMemory} {news : List Nat}
    (mapped : Mapped mem mem₁ root (fun _ => none) [root] news (vpnOf 0x38001000)
      (calcPpn 0x38001000 ||| leafAttributes .supervisor))
    (ready : Ready mem root (fun _ => none) [root]) :
    ∃ mem₂ mem₃, createMapping mem₁ root 0x40000000 0x40000000 .large .supervisor = .ok mem₂ ∧
      createMapping mem₂ root 0x80000000 0x80000000 .large .user = .ok mem₃ ∧
      Ready mem₂ root (fun vpn => if vpn / 2 ^ 18 = 1 then
          some (calcPpn 0x40000000 ||| leafAttributes .supervisor, 2)
        else bindLeaf (fun _ => none) 0x38001 (calcPpn 0x38001000 ||| leafAttributes .supervisor) vpn)
        (news ++ [root]) ∧
      Ready mem₃ root (fun vpn => if vpn / 2 ^ 18 = 2 then
          some (calcPpn 0x80000000 ||| leafAttributes .user, 2)
        else if vpn / 2 ^ 18 = 1 then some (calcPpn 0x40000000 ||| leafAttributes .supervisor, 2)
        else bindLeaf (fun _ => none) 0x38001 (calcPpn 0x38001000 ||| leafAttributes .supervisor) vpn)
        (news ++ [root]) ∧
      Grown mem₁ mem₂ (news ++ [root]) [] [] ∧ Grown mem₂ mem₃ (news ++ [root]) [] [] := by
  have noTable : ∀ index : Fin 512, index ≠ 0 → walk mem₁.bytes root [index] = none := by
    intro index nonzero
    rw [mapped.walks, walk_eq_none_of_single ready.space]
    simpa [indices, cons_prefix_cons, vpnOf] using nonzero
  have second_unmapped : bindLeaf (fun _ => none) (vpnOf 0x38001000)
      (calcPpn 0x38001000 ||| leafAttributes .supervisor) ((1 : Fin 512) * 2 ^ 18) = none :=
    bindLeaf_of_ne (by decide)
  obtain ⟨mem₂, second_eq, ready₂, grown₂, walks₂⟩ :=
    (mapped.ready ready).createMapping_large 0x40000000 0x40000000 1 .supervisor (by decide) (by decide)
      (by decide) (by decide) second_unmapped (noTable 1 (by decide))
  have third_unmapped : bindLeaf (fun _ => none) (vpnOf 0x38001000)
      (calcPpn 0x38001000 ||| leafAttributes .supervisor) ((2 : Fin 512) * 2 ^ 18) = none :=
    bindLeaf_of_ne (by decide)
  obtain ⟨mem₃, third_eq, ready₃, grown₃, _⟩ :=
    ready₂.createMapping_large 0x80000000 0x80000000 2 .user (by decide) (by decide)
      (by decide) (by decide) ((if_neg (by decide)).trans third_unmapped)
      ((walks₂ [2]).trans (noTable 2 (by decide)))
  exact ⟨mem₂, mem₃, second_eq, third_eq, ready₂, ready₃, grown₂, grown₃⟩

theorem fixedBinds_aligned (fixed : FixedPages) :
    ∀ bind ∈ fixedBinds fixed, bind.2 % 4096 = 0 ∧ bind.2 < 2 ^ 64 := by
  intro bind bindMem
  simp only [fixedBinds, mem_cons, not_mem_nil, or_false] at bindMem
  exact fixed.aligned bind.2 (by rcases bindMem with rfl | rfl | rfl <;> simp)

theorem initPageTable_returns (ready : Ready mem root (fun _ => none) [root]) (fixed : FixedPages) :
    Returns (8 ≤ mem.memoryPool.length) (initPageTable mem root fixed) fun mem' =>
      ∃ news, Ready mem' root (baseView fixed) (news ++ [root]) ∧ Grown mem mem' [root] [] news ∧
        mem.memoryPool.length ≤ 8 + mem'.memoryPool.length := by
  rw [initPageTable_eq]
  refine ((ready.createMapping_returns .supervisor (by decide) (by decide)).mono
    (fun enough => ⟨⟨by decide, nofun⟩, by omega⟩) fun _ => id).bind ?_
  rintro mem₁ ⟨news₁, _, news_le, _, mapped⟩
  have length_eq := congrArg List.length mapped.pool_eq
  rw [length_append] at length_eq
  obtain ⟨mem₂, mem₃, second_eq, third_eq, _, ready₃, grown₂, grown₃⟩ := mapped.large ready
  have pool₂ := grown₂.pool.length_eq
  have pool₃ := grown₃.pool.length_eq
  rw [second_eq, ok_bind, third_eq, ok_bind]
  refine (registerPages_returns ready₃ (fixedBinds fixed) (fixedBinds_aligned fixed)).mono ?_ ?_
  · intro enough
    refine ⟨fun bind bindMem => ?_, ?_⟩
    · simp only [fixedBinds, mem_cons, not_mem_nil, or_false] at bindMem
      have address : bind.1 ∈ [0x200000000, 0x300000000, 0x300001000] := by
        rcases bindMem with rfl | rfl | rfl <;> simp
      have free : ∀ va ∈ [0x200000000, 0x300000000, 0x300001000], 0x1000 ≤ va ∧
          vpnOf va / 2 ^ 18 ≠ (2 : Fin 512) ∧ vpnOf va / 2 ^ 18 ≠ (1 : Fin 512) ∧
          vpnOf va ≠ vpnOf 0x38001000 := by decide
      obtain ⟨notNull, notSecond, notFirst, notDevice⟩ := free bind.1 address
      refine .of_unmapped notNull ?_
      exact (if_neg notSecond).trans ((if_neg notFirst).trans (bindLeaf_of_ne notDevice))
    · simp [fixedBinds] at pool₂ pool₃ ⊢
      omega
  · rintro mem₄ ⟨news₄, registered⟩
    have cost := registered.cost
    refine ⟨news₄ ++ news₁, ?_, ?_, ?_⟩
    · rw [append_assoc, ← baseView_eq]
      exact registered.ready
    · simpa using ((mapped.grown.trans grown₂).trans grown₃).trans registered.grown
    · simp [fixedBinds] at pool₂ pool₃ cost
      omega

theorem getClearPage_ready (fresh : Fresh [] mem.memoryPool) {cleared : PhysMemory}
    (clear_eq : mem.getClearPage = .ok (root, cleared)) :
    Ready cleared root (fun _ => none) [root] ∧ Grown mem cleared [] [] [root] ∧
      mem.memoryPool = root :: cleared.memoryPool := by
  unfold PhysMemory.getClearPage PhysMemory.allocPage at clear_eq
  cases pool_eq : mem.memoryPool with
  | nil =>
    rw [pool_eq] at clear_eq
    cases clear_eq
  | cons page rest =>
    rw [pool_eq] at clear_eq fresh
    cases clear_eq
    obtain ⟨root_aligned, root_lt⟩ := fresh.aligned root mem_cons_self
    refine ⟨⟨.of_empty root_aligned root_lt fun index => ?_, fresh.tail⟩, ⟨?_, fun a outside => ?_⟩, rfl⟩
    · have index_lt := index.isLt
      rw [entryAt]
      exact readWord_fillPage_zero _ (by omega) (by omega)
    · rw [pool_eq]
      rfl
    · rw [PhysMemory.clearPage_bytes]
      exact fillPage_of_outside _ _ (outside root (by simp))

theorem newPageTable_returns (fresh : Fresh [] mem.memoryPool) (fixed : FixedPages) :
    Returns (9 ≤ mem.memoryPool.length) (newPageTable mem fixed) fun result =>
      ∃ tables, Ready result.2 result.1 (baseView fixed) tables ∧
        Grown mem result.2 [] [] tables ∧
        mem.memoryPool.length ≤ 9 + result.2.memoryPool.length := by
  rw [newPageTable]
  cases clear_eq : mem.getClearPage with
  | error halt =>
    unfold PhysMemory.getClearPage PhysMemory.allocPage at clear_eq
    cases pool_eq : mem.memoryPool with
    | nil =>
      rw [pool_eq] at clear_eq
      cases clear_eq
      exact .of_panic fun enough => by simp at enough
    | cons page rest =>
      rw [pool_eq] at clear_eq
      cases clear_eq
  | ok result =>
    obtain ⟨root, cleared⟩ := result
    obtain ⟨ready, taken, pool_eq⟩ := getClearPage_ready fresh clear_eq
    rw [ok_bind, pool_eq]
    refine ((initPageTable_returns ready fixed).mono ?_ fun _ => id).bind ?_
    · intro enough
      rw [length_cons] at enough
      omega
    rintro mem' ⟨news, ready', grown, used⟩
    refine .of_ok ⟨news ++ [root], ready', taken.trans grown, ?_⟩
    simp only [length_cons]
    omega

theorem newPageTable_ready {mem' : PhysMemory} {fixed : FixedPages} {root : Nat}
    (fresh : Fresh [] mem.memoryPool) (made : newPageTable mem fixed = .ok (root, mem')) :
    ∃ tables, Ready mem' root (baseView fixed) tables := by
  obtain ⟨tables, ready, _⟩ := (newPageTable_returns fresh fixed).1.result made
  exact ⟨tables, ready⟩

end NewTable

end SysCore.Paging
