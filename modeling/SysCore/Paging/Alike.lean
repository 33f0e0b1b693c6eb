import SysCore.Paging.Mapping

/-!
# Memories that differ in some pages

The same code on two memories that differ in a set of dirty pages.  Code that
reads no dirty page goes the same way in both, and the pages it takes from the
pool are no longer dirty when it has filled them.  `CreateMapping` reads and
writes the pages of a table only, and every table page it takes is cleared first,
so it is such code for every table without dirty pages.
-/

namespace SysCore.Paging

open Memory Transition List

structure Alike (dirty : Nat → Prop) (mem₁ mem₂ : PhysMemory) : Prop where
  pool_eq : mem₂.memoryPool = mem₁.memoryPool
  bytes_eq : ∀ a, ¬ dirty (pageOf a) → mem₂.bytes a = mem₁.bytes a

def Left (dirty : Nat → Prop) (kept : List Nat) (mem : PhysMemory) (page : Nat) : Prop :=
  dirty page ∧ (page ∈ mem.memoryPool ∨ page ∈ kept)

def Behind (dirty : Nat → Prop) (kept : List Nat) (mem₁ mem₂ : PhysMemory) : Prop :=
  Alike (Left dirty kept mem₁) mem₁ mem₂

structure Paired (dirty : Nat → Prop) (kept : List Nat) (mem₁ mem₂ : PhysMemory) (root : Nat)
    (view : Nat → Option (Nat × Nat)) (tables : List Nat) : Prop where
  ready : Ready mem₁ root view tables
  behind : Behind dirty kept mem₁ mem₂
  apart : ∀ page ∈ kept, page ∉ mem₁.memoryPool ∧ page ∉ tables

def Mirrored (dirty : Nat → Prop) (kept : List Nat) (root : Nat) (mem₁ mem₂ : PhysMemory) : Prop :=
  ∃ view tables, Paired dirty kept mem₁ mem₂ root view tables

variable {dirty : Nat → Prop} {mem mem₁ mem₂ : PhysMemory} {kept : List Nat} {root : Nat}

theorem Mirrored.behind (mirrored : Mirrored dirty kept root mem₁ mem₂) : Behind dirty kept mem₁ mem₂ := by
  obtain ⟨_, _, paired⟩ := mirrored
  exact paired.behind

namespace Alike

theorem mono {fewer : Nat → Prop} (alike : Alike fewer mem₁ mem₂)
    (sub : ∀ page, fewer page → dirty page) : Alike dirty mem₁ mem₂ :=
  ⟨alike.pool_eq, fun a clean => alike.bytes_eq a fun isFewer => clean (sub _ isFewer)⟩

theorem readWord_eq (alike : Alike dirty mem₁ mem₂) {table index : Nat} (clean : ¬ dirty table)
    (aligned : table % 4096 = 0) (index_lt : index < 512) :
    readWord mem₂.bytes (table + 8 * index) = readWord mem₁.bytes (table + 8 * index) := by
  refine readWord_congr fun a lower upper => alike.bytes_eq a ?_
  rwa [(pageOf_eq_iff aligned).2 (by omega)]

end Alike

namespace Behind

variable (behind : Behind dirty kept mem₁ mem₂)
include behind

theorem setWord (address value : Nat) :
    Behind dirty kept (mem₁.setWord address value) (mem₂.setWord address value) := by
  refine ⟨behind.pool_eq, fun a clean => ?_⟩
  rw [PhysMemory.setWord_bytes, PhysMemory.setWord_bytes]
  exact writeWord_congr (behind.bytes_eq a clean)

variable {page : Nat} {rest : List Nat} (pool_eq : mem₁.memoryPool = page :: rest)
include pool_eq

theorem take (aligned : page % 4096 = 0) {content content' : Nat → UInt8}
    (same : ∀ k < 4096, content' k = content k) :
    Behind dirty kept (PhysMemory.fill ⟨mem₁.bytes, rest⟩ page content)
      (PhysMemory.fill ⟨mem₂.bytes, rest⟩ page content') := by
  refine ⟨rfl, fun a clean => ?_⟩
  rw [PhysMemory.fill_bytes, PhysMemory.fill_bytes]
  by_cases inside : page ≤ a ∧ a < page + 4096
  · obtain ⟨k, rfl⟩ := Nat.exists_eq_add_of_le inside.1
    rw [fillPage_inside _ _ (by omega), fillPage_inside _ _ (by omega), same k (by omega)]
  · rw [fillPage_of_outside _ _ (by omega), fillPage_of_outside _ _ (by omega)]
    refine behind.bytes_eq a fun left => clean ⟨left.1, left.2.imp_left fun isFree => ?_⟩
    rw [pool_eq] at isFree
    refine (mem_cons.1 isFree).resolve_left fun samePage => inside ?_
    exact (pageOf_eq_iff aligned).1 samePage

theorem keep : Behind dirty (kept ++ [page]) ⟨mem₁.bytes, rest⟩ ⟨mem₂.bytes, rest⟩ := by
  refine ⟨rfl, fun a clean => behind.bytes_eq a fun left => clean ⟨left.1, ?_⟩⟩
  have isLeft := left.2
  rw [pool_eq] at isLeft
  simp only [mem_cons, mem_append] at isLeft ⊢
  tauto

end Behind

theorem getClearPage_follows (behind : Behind dirty kept mem₁ mem₂)
    (aligned : ∀ page ∈ mem₁.memoryPool, page % 4096 = 0) :
    Follows (Answers (Behind dirty kept)) mem₁.getClearPage mem₂.getClearPage := by
  unfold PhysMemory.getClearPage PhysMemory.allocPage
  rw [behind.pool_eq]
  cases pool_eq : mem₁.memoryPool with
  | nil => exact .of_error _
  | cons page rest =>
    exact .of_ok ⟨rfl, behind.take pool_eq (aligned page (by simp [pool_eq])) fun _ _ => rfl⟩

theorem deallocPage_follows (behind : Behind dirty kept mem₁ mem₂) (page : Nat) :
    Follows (Behind dirty kept) (mem₁.deallocPage page) (mem₂.deallocPage page) := by
  unfold PhysMemory.deallocPage
  rw [behind.pool_eq]
  split
  · exact .of_error _
  · split
    · refine .of_ok ⟨rfl, fun a clean => behind.bytes_eq a fun left => clean ⟨left.1, ?_⟩⟩
      exact left.2.imp_left (mem_cons_of_mem _)
    · exact .of_error _

theorem nextTable_follows (behind : Behind dirty kept mem₁ mem₂)
    (aligned : ∀ page ∈ mem₁.memoryPool, page % 4096 = 0) {table : Nat}
    (clean : ¬ Left dirty kept mem₁ table) (table_aligned : table % 4096 = 0) (index : Fin 512)
    (privilege : PrivilegeLevel) :
    Follows (Answers (Behind dirty kept)) (nextTable mem₁ (table + 8 * index) privilege)
      (nextTable mem₂ (table + 8 * index) privilege) := by
  unfold nextTable
  rw [behind.readWord_eq clean table_aligned index.isLt]
  dsimp only
  split
  · refine (getClearPage_follows behind aligned).next fun page middle₁ middle₂ _ behind' => ?_
    exact .of_ok ⟨rfl, behind'.setWord _ _⟩
  · split
    · exact .of_error _
    · exact .of_ok ⟨rfl, behind⟩

namespace Paired

variable {view : Nat → Option (Nat × Nat)} {tables : List Nat}

variable (paired : Paired dirty kept mem₁ mem₂ root view tables)
include paired

theorem aligned : ∀ page ∈ mem₁.memoryPool, page % 4096 = 0 :=
  fun page pageMem => (paired.ready.fresh.aligned page pageMem).1

theorem clean {table : Nat} (tableMem : table ∈ tables) : ¬ Left dirty kept mem₁ table := by
  rintro ⟨_, isFree | isKept⟩
  · exact paired.ready.fresh.outside table isFree tableMem
  · exact (paired.apart table isKept).2 tableMem

section

variable {table : Nat} {path : Path} (walk_eq : walk mem₁.bytes root path = some table)
include walk_eq

theorem readWord_eq (index : Fin 512) :
    readWord mem₂.bytes (table + 8 * index) = readWord mem₁.bytes (table + 8 * index) := by
  have tableMem : table ∈ tables := (paired.ready.space.mem_tables table).2 ⟨path, walk_eq⟩
  exact paired.behind.readWord_eq (paired.clean tableMem) (paired.ready.space.aligned tableMem).1 index.isLt

omit walk_eq in
theorem grow {mem₁' mem₂' : PhysMemory} {view' : Nat → Option (Nat × Nat)} {pages news : List Nat}
    (ready : Ready mem₁' root view' (news ++ tables)) (grown : Grown mem₁ mem₁' tables pages news)
    (behind : Behind dirty kept mem₁' mem₂') :
    Paired dirty kept mem₁' mem₂' root view' (news ++ tables) := by
  refine ⟨ready, behind, fun page keptMem => ?_⟩
  obtain ⟨notFree, notTable⟩ := paired.apart page keptMem
  rw [grown.pool.mem_iff] at notFree
  simp only [mem_append, not_or] at notFree ⊢
  exact ⟨notFree.2.2, notFree.2.1, notTable⟩

theorem nextTable (shallow : path.length < 2) (index : Fin 512) (privilege : PrivilegeLevel) :
    Follows (fun r₁ r₂ => r₂.1 = r₁.1 ∧ walk r₁.2.bytes root (path ++ [index]) = some r₁.1 ∧
        ∃ news, Paired dirty kept r₁.2 r₂.2 root view (news ++ tables))
      (Paging.nextTable mem₁ (table + 8 * index) privilege)
      (Paging.nextTable mem₂ (table + 8 * index) privilege) := by
  have tableMem : table ∈ tables := (paired.ready.space.mem_tables table).2 ⟨path, walk_eq⟩
  refine (nextTable_follows paired.behind paired.aligned (paired.clean tableMem)
    (paired.ready.space.aligned tableMem).1 index privilege).mono ?_
  rintro ⟨_, mem₁'⟩ ⟨found, mem₂'⟩ returned ⟨rfl, behind⟩
  rcases nextTable_cases paired.ready.space walk_eq shallow index privilege with
    ⟨_, step_eq⟩ | ⟨next', next_eq, step_eq⟩ | ⟨_, _, step_eq⟩ |
    ⟨page, rest, _, pool_eq, mem', step_eq, descends⟩
  · cases returned.symm.trans step_eq
  · cases returned.symm.trans step_eq
    exact ⟨rfl, next_eq, [], paired.grow paired.ready (.refl _ _) behind⟩
  · cases returned.symm.trans step_eq
  · cases returned.symm.trans step_eq
    have fresh := paired.ready.fresh
    rw [pool_eq] at fresh
    obtain ⟨_, descended⟩ := descends (fresh.sublist (by simp))
    have grown : Grown mem₁ mem₁' tables [] [found] := ⟨by rw [descended.pool_eq]; rfl, descended.frame⟩
    exact ⟨rfl, descended.walk_eq, [found],
      paired.grow ⟨descended.space, grown.fresh paired.ready.fresh⟩ grown behind⟩

theorem mapLevel3 (va leaf : Nat) :
    Behind dirty kept (Paging.mapLevel3 mem₁ table va leaf) (Paging.mapLevel3 mem₂ table va leaf) := by
  obtain ⟨_, _, third, _, _, _, ppn3_eq⟩ := indices_vpnOf va
  unfold Paging.mapLevel3
  dsimp only
  rw [ppn3_eq, paired.readWord_eq walk_eq]
  split
  · exact paired.behind.setWord _ _
  · exact paired.behind

end

theorem mapLevel2 {index : Fin 512} {table : Nat} (walk_eq : walk mem₁.bytes root [index] = some table)
    (va leaf : Nat) (privilege : PrivilegeLevel) :
    Follows (Behind dirty kept) (Paging.mapLevel2 mem₁ table va leaf privilege)
      (Paging.mapLevel2 mem₂ table va leaf privilege) := by
  obtain ⟨_, second, _, _, _, ppn2_eq, _⟩ := indices_vpnOf va
  unfold Paging.mapLevel2
  rw [ppn2_eq]
  refine (paired.nextTable walk_eq (Nat.lt_succ_self 1) second privilege).bind ?_
  rintro ⟨last, middle₁⟩ ⟨_, middle₂⟩ _ ⟨rfl, last_eq, news, paired'⟩
  exact .of_ok (paired'.mapLevel3 last_eq va leaf)

theorem createMapping (va pa : Nat) (level : PageTableLevel) (privilege : PrivilegeLevel) :
    Follows (Behind dirty kept) (Paging.createMapping mem₁ root va pa level privilege)
      (Paging.createMapping mem₂ root va pa level privilege) := by
  obtain ⟨first, _, _, _, ppn1_eq, _, _⟩ := indices_vpnOf va
  have root_eq : walk mem₁.bytes root [] = some root := rfl
  unfold Paging.createMapping
  dsimp only
  rw [ppn1_eq, paired.readWord_eq root_eq]
  split_ifs
  · exact .of_error _
  · exact .of_error _
  · exact .of_error _
  · exact .of_ok (paired.behind.setWord _ _)
  · unfold Paging.mapLevel1
    rw [ppn1_eq]
    refine (paired.nextTable root_eq Nat.two_pos first privilege).bind ?_
    rintro ⟨table, middle₁⟩ ⟨_, middle₂⟩ _ ⟨rfl, table_eq, news, paired'⟩
    exact paired'.mapLevel2 table_eq va _ privilege

theorem mapSmall (va : Nat) {pa : Nat} (privilege : PrivilegeLevel)
    (aligned : pa % 4096 = 0 ∧ pa < 2 ^ 64) :
    Follows (Mirrored dirty kept root) (Paging.createMapping mem₁ root va pa .small privilege)
      (Paging.createMapping mem₂ root va pa .small privilege) := by
  refine (paired.createMapping va pa .small privilege).mono fun middle₁ middle₂ map_eq behind => ?_
  obtain ⟨news, _, _, _, mapped⟩ :=
    (paired.ready.createMapping_returns privilege aligned.1 aligned.2).1.result map_eq
  exact ⟨_, _, paired.grow (mapped.ready paired.ready) mapped.grown behind⟩

end Paired

structure PageRequest.Blind (dirty : Nat → Prop) (keep : Bool) (request : PageRequest) : Prop where
  readable : ∀ bytes, request.fill bytes ≠ .unreadable
  unread : ∀ bytes bytes' : Bytes, (∀ a, ¬ dirty (pageOf a) → bytes' a = bytes a) →
    request.fill bytes' = request.fill bytes
  keeps : ∀ bytes, request.fill bytes = .keep ↔ keep = true

def keptPages (keep : Bool) (pages : List Nat) : List Nat :=
  if keep then pages else []

theorem keptPages_cons (keep : Bool) (page : Nat) (pages : List Nat) :
    keptPages keep (page :: pages) = keptPages keep [page] ++ keptPages keep pages := by
  cases keep <;> rfl

namespace Paired

variable {view : Nat → Option (Nat × Nat)} {tables : List Nat} {keep : Bool}

theorem mapPage (paired : Paired dirty kept mem₁ mem₂ root view tables) {request : PageRequest}
    (blind : request.Blind dirty keep) :
    Follows (fun r₁ r₂ => r₂.1 = r₁.1 ∧ Mirrored dirty (kept ++ keptPages keep [r₁.1]) root r₁.2 r₂.2)
      (Paging.mapPage mem₁ root request) (Paging.mapPage mem₂ root request) := by
  unfold Paging.mapPage PhysMemory.allocPage
  rw [paired.behind.pool_eq]
  cases pool_eq : mem₁.memoryPool with
  | nil => exact .of_error _
  | cons page rest =>
    have page_aligned := paired.ready.fresh.aligned page (by simp [pool_eq])
    simp only [ok_bind]
    rw [blind.unread mem₁.bytes mem₂.bytes fun a clean => paired.behind.bytes_eq a fun left => clean left.1]
    cases fill_eq : request.fill mem₁.bytes with
    | keep =>
      obtain ⟨ready, _⟩ := paired.ready.takePage pool_eq mem₁.bytes fun _ _ => rfl
      have paired' : Paired dirty (kept ++ [page]) ⟨mem₁.bytes, rest⟩ ⟨mem₂.bytes, rest⟩ root view tables := by
        refine ⟨ready, paired.behind.keep pool_eq, fun other otherMem => ?_⟩
        rcases mem_append.1 otherMem with isKept | isPage
        · obtain ⟨notFree, notTable⟩ := paired.apart other isKept
          exact ⟨fun inRest => notFree (pool_eq ▸ mem_cons_of_mem _ inRest), notTable⟩
        · rw [mem_singleton.1 isPage]
          exact ⟨(nodup_cons.1 (pool_eq ▸ paired.ready.fresh.nodup)).1,
            paired.ready.fresh.outside page (by simp [pool_eq])⟩
      refine (paired'.mapSmall request.va .user page_aligned).bind fun mem₁' mem₂' _ mirrored => ?_
      rw [(blind.keeps _).1 fill_eq]
      exact .of_ok ⟨rfl, mirrored⟩
    | image content =>
      have filled := paired.behind.take pool_eq page_aligned.1 fun k _ => Eq.refl (content k)
      obtain ⟨ready, grown⟩ := paired.ready.takePage pool_eq (fillPage mem₁.bytes page content)
        fun a outside => fillPage_of_outside _ _ outside
      have paired' := paired.grow ready grown filled
      refine (paired'.mapSmall request.va .user page_aligned).bind fun mem₁' mem₂' _ mirrored => ?_
      rw [Bool.eq_false_of_not_eq_true fun keeps => nomatch fill_eq.symm.trans ((blind.keeps _).2 keeps)]
      exact .of_ok ⟨rfl, by simpa [keptPages] using mirrored⟩
    | unreadable => exact .of_error _

theorem mapPages (paired : Paired dirty kept mem₁ mem₂ root view tables) {requests : List PageRequest}
    (blind : ∀ request ∈ requests, request.Blind dirty keep) :
    Follows (fun r₁ r₂ => r₂.1 = r₁.1 ∧ Mirrored dirty (kept ++ keptPages keep r₁.1) root r₁.2 r₂.2)
      (Paging.mapPages root requests mem₁) (Paging.mapPages root requests mem₂) := by
  induction requests generalizing kept mem₁ mem₂ view tables with
  | nil => exact .of_ok ⟨rfl, _, _, by simpa [keptPages] using paired⟩
  | cons request rest ih =>
    refine (paired.mapPage (blind request mem_cons_self)).bind ?_
    rintro ⟨_, middle₁⟩ ⟨page, middle₂⟩ _ ⟨rfl, _, _, paired'⟩
    refine (ih paired' fun other otherMem => blind other (mem_cons_of_mem _ otherMem)).bind ?_
    rintro ⟨_, last₁⟩ ⟨pages, last₂⟩ _ ⟨rfl, mirrored⟩
    rw [append_assoc, ← keptPages_cons] at mirrored
    exact .of_ok ⟨rfl, mirrored⟩

theorem registerPages (paired : Paired dirty kept mem₁ mem₂ root view tables) {binds : List (Nat × Nat)}
    (aligned : ∀ bind ∈ binds, bind.2 % 4096 = 0 ∧ bind.2 < 2 ^ 64) :
    Follows (Mirrored dirty kept root) (Paging.registerPages root binds mem₁)
      (Paging.registerPages root binds mem₂) := by
  induction binds generalizing mem₁ mem₂ view tables with
  | nil => exact .of_ok ⟨_, _, paired⟩
  | cons bind rest ih =>
    refine (paired.mapSmall bind.1 .user (aligned bind mem_cons_self)).bind ?_
    rintro middle₁ middle₂ _ ⟨_, _, paired'⟩
    exact ih paired' fun other otherMem => aligned other (mem_cons_of_mem _ otherMem)

theorem initPageTable (paired : Paired dirty kept mem₁ mem₂ root (fun _ => none) [root]) (fixed : FixedPages) :
    Follows (Mirrored dirty kept root) (Paging.initPageTable mem₁ root fixed)
      (Paging.initPageTable mem₂ root fixed) := by
  rw [initPageTable_eq, initPageTable_eq]
  refine (paired.createMapping 0x38001000 0x38001000 .small .supervisor).bind
    fun device₁ device₂ device_eq behind₁ => ?_
  obtain ⟨news, _, _, _, mapped⟩ :=
    (paired.ready.createMapping_returns .supervisor (by decide) (by decide)).1.result device_eq
  have paired₁ := paired.grow (mapped.ready paired.ready) mapped.grown behind₁
  obtain ⟨second, third, second_eq, third_eq, ready₂, ready₃, grown₂, grown₃⟩ := mapped.large paired.ready
  refine (paired₁.createMapping 0x40000000 0x40000000 .large .supervisor).bind
    fun large₁ large₂ large_eq behind₂ => ?_
  cases large_eq.symm.trans second_eq
  have paired₂ := paired₁.grow ready₂ grown₂ behind₂
  refine (paired₂.createMapping 0x80000000 0x80000000 .large .user).bind
    fun last₁ last₂ last_eq behind₃ => ?_
  cases last_eq.symm.trans third_eq
  exact (paired₂.grow ready₃ grown₃ behind₃).registerPages (fixedBinds_aligned fixed)

end Paired

theorem newPageTable_follows (behind : Behind dirty [] mem₁ mem₂) (fresh : Fresh [] mem₁.memoryPool)
    (fixed : FixedPages) :
    Follows (fun r₁ r₂ => r₂.1 = r₁.1 ∧ Mirrored dirty [] r₁.1 r₁.2 r₂.2) (newPageTable mem₁ fixed)
      (newPageTable mem₂ fixed) := by
  unfold newPageTable
  refine (getClearPage_follows behind fun page pageMem => (fresh.aligned page pageMem).1).next
    fun root cleared₁ cleared₂ clear_eq behind' => ?_
  obtain ⟨ready, _, _⟩ := getClearPage_ready fresh clear_eq
  have paired : Paired dirty [] cleared₁ cleared₂ root (fun _ => none) [root] := ⟨ready, behind', nofun⟩
  exact (paired.initPageTable fixed).bind fun last₁ last₂ _ mirrored => .of_ok ⟨rfl, mirrored⟩

end SysCore.Paging
