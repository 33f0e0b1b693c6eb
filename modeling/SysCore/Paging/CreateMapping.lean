import SysCore.Paging.Sv39
import SysCore.Transition.Outcome

/-!
# The page pool and `CreateMapping`

Pages are handed out from a stack of free page addresses.  `CreateMapping`
walks a page table in memory, takes cleared pages from the pool for the levels
that are missing, and writes a leaf into the last slot if the slot is empty: an
address that is mapped already silently keeps its mapping.
-/

namespace SysCore.Paging

open Memory Transition List

inductive Board where
  | k210
  | qemu
  deriving DecidableEq

def Board.kernelEnd : Board → Nat
  | .k210 => 0x80100000
  | .qemu => 0x84000000

def Board.pageCount : Board → Nat
  | .k210 => 1791
  | .qemu => 1500

structure PhysMemory where
  bytes : Bytes
  memoryPool : List Nat

namespace PhysMemory

def init (board : Board) (bytes : Bytes) : PhysMemory where
  bytes := bytes
  memoryPool :=
    ((List.range board.pageCount).map fun i => board.kernelEnd + 4096 * i).reverse

variable (mem : PhysMemory)

def allocPage : Outcome (Nat × PhysMemory) :=
  match mem.memoryPool with
  | [] => .error .panic
  | page :: rest => .ok (page, { mem with memoryPool := rest })

def deallocPage (page : Nat) : Outcome PhysMemory :=
  if page % 0x1000 ≠ 0 then
    .error .panic
  else if mem.memoryPool.length < 2048 then
    .ok { mem with memoryPool := page :: mem.memoryPool }
  else
    .error .stray

def fill (page : Nat) (image : Nat → UInt8) : PhysMemory :=
  { mem with bytes := fillPage mem.bytes page image }

def setWord (address value : Nat) : PhysMemory :=
  { mem with bytes := writeWord mem.bytes address value }

def clearPage (page : Nat) : PhysMemory :=
  mem.fill page fun _ => 0

def getClearPage : Outcome (Nat × PhysMemory) := do
  let (page, mem) ← mem.allocPage
  return (page, mem.clearPage page)

@[simp]
theorem fill_bytes (page : Nat) (image : Nat → UInt8) :
    (mem.fill page image).bytes = fillPage mem.bytes page image := rfl

@[simp]
theorem fill_memoryPool (page : Nat) (image : Nat → UInt8) :
    (mem.fill page image).memoryPool = mem.memoryPool := rfl

@[simp]
theorem setWord_bytes (address value : Nat) :
    (mem.setWord address value).bytes = writeWord mem.bytes address value := rfl

@[simp]
theorem setWord_memoryPool (address value : Nat) :
    (mem.setWord address value).memoryPool = mem.memoryPool := rfl

@[simp]
theorem clearPage_bytes (page : Nat) :
    (mem.clearPage page).bytes = fillPage mem.bytes page fun _ => 0 := rfl

@[simp]
theorem clearPage_memoryPool (page : Nat) : (mem.clearPage page).memoryPool = mem.memoryPool := rfl

end PhysMemory

inductive PageTableLevel where
  | large
  | middle
  | small
  deriving DecidableEq

inductive PrivilegeLevel where
  | supervisor
  | user
  deriving DecidableEq

def nonLeafAttributes (_ : PrivilegeLevel) : Nat := 0xd1

def leafAttributes : PrivilegeLevel → Nat
  | .supervisor => 0xcf
  | .user => 0xdf

def calcPpn (physicalAddress : Nat) : Nat :=
  physicalAddress >>> 12 <<< 10

def isEfficient (pte : Nat) : Bool :=
  pte &&& 1 != 0

def isLeaf (pte : Nat) : Bool :=
  isEfficient pte && (pte &&& 7 <<< 1) ^^^ 7 <<< 1 != 7 <<< 1

def getPpn1 (virtualAddress : Nat) : Nat :=
  (virtualAddress &&& 0b111111111 <<< 30) >>> 30

def getPpn2 (virtualAddress : Nat) : Nat :=
  (virtualAddress &&& 0b111111111 <<< 21) >>> 21

def getPpn3 (virtualAddress : Nat) : Nat :=
  (virtualAddress &&& 0b111111111 <<< 12) >>> 12

def nextTable (mem : PhysMemory) (slot : Nat) (privilege : PrivilegeLevel) :
    Outcome (Nat × PhysMemory) :=
  let pte := readWord mem.bytes slot
  if pte = 0 then do
    let (page, mem) ← mem.getClearPage
    return (page, mem.setWord slot (calcPpn page ||| nonLeafAttributes privilege))
  else if isLeaf pte then
    .error .panic
  else
    .ok (pte >>> 10 <<< 12 % 2 ^ 64, mem)

def mapLevel3 (mem : PhysMemory) (tableBase virtualAddress leaf : Nat) : PhysMemory :=
  let slot := tableBase + 8 * getPpn3 virtualAddress
  if readWord mem.bytes slot = 0 then mem.setWord slot leaf else mem

def mapLevel2 (mem : PhysMemory) (tableBase virtualAddress leaf : Nat)
    (privilege : PrivilegeLevel) : Outcome PhysMemory := do
  let (table, mem) ← nextTable mem (tableBase + 8 * getPpn2 virtualAddress) privilege
  return mapLevel3 mem table virtualAddress leaf

def mapLevel1 (mem : PhysMemory) (tableBase virtualAddress leaf : Nat)
    (privilege : PrivilegeLevel) : Outcome PhysMemory := do
  let (table, mem) ← nextTable mem (tableBase + 8 * getPpn1 virtualAddress) privilege
  mapLevel2 mem table virtualAddress leaf privilege

def createMapping (mem : PhysMemory) (tableBase virtualAddress physicalAddress : Nat)
    (level : PageTableLevel) (privilege : PrivilegeLevel) : Outcome PhysMemory :=
  let leaf := calcPpn physicalAddress ||| leafAttributes privilege
  let slot := tableBase + 8 * getPpn1 virtualAddress
  if virtualAddress < 0x1000 then
    .error .panic
  else if (tableBase &&& 7) ^^^ 7 ≠ 7 then
    .error .panic
  else if level = .middle then
    .error .panic
  else if level = .large ∧ readWord mem.bytes slot = 0 then
    .ok (mem.setWord slot leaf)
  else
    mapLevel1 mem tableBase virtualAddress leaf privilege

section Encoding

theorem isLeaf_iff (pte : Nat) : isLeaf pte = true ↔ IsLeaf pte := by
  have bounded : pte &&& 14 = (pte % 16) &&& 14 := by
    have cut := Nat.and_mod_two_pow (a := pte) (b := 14) (n := 4)
    rwa [Nat.mod_eq_of_lt (lt_of_le_of_lt Nat.and_le_right (by decide))] at cut
  have cases : ∀ r < 16, ((r &&& 14) ^^^ 14 ≠ 14 ↔ r / 2 % 8 ≠ 0) := by decide
  have small := cases (pte % 16) (Nat.mod_lt _ (by decide))
  have shifted : pte % 16 / 2 % 8 = pte / 2 % 8 := by omega
  simp only [isLeaf, isEfficient, IsLeaf, Nat.and_one_is_mod, Bool.and_eq_true, bne_iff_ne]
  rw [show (7 <<< 1 : Nat) = 14 from rfl, bounded, small, shifted]
  constructor <;> rintro ⟨odd, rwx⟩ <;> exact ⟨by omega, rwx⟩

theorem check_table_base_iff (base : Nat) : (base &&& 7) ^^^ 7 = 7 ↔ base % 8 = 0 := by
  have low : base &&& 7 = base % 8 := Nat.and_two_pow_sub_one_eq_mod base 3
  have cases : ∀ r < 8, (r ^^^ 7 = 7 ↔ r = 0) := by decide
  rw [low]
  exact cases _ (Nat.mod_lt _ (by decide))

theorem slice_eq (va n : Nat) : (va &&& 0b111111111 <<< n) >>> n = va / 2 ^ n % 512 := by
  have mask : (0b111111111 <<< n) >>> n = 2 ^ 9 - 1 := by
    rw [Nat.shiftLeft_eq, Nat.shiftRight_eq_div_pow, Nat.mul_div_cancel _ (Nat.two_pow_pos n)]
    rfl
  rw [Nat.shiftRight_and_distrib, mask, Nat.and_two_pow_sub_one_eq_mod, Nat.shiftRight_eq_div_pow]

theorem indices_vpnOf (va : Nat) :
    ∃ first second third : Fin 512, indices (vpnOf va) = [first, second, third] ∧
      getPpn1 va = first ∧ getPpn2 va = second ∧ getPpn3 va = third := by
  refine ⟨_, _, _, rfl, ?_, ?_, ?_⟩
  · rw [getPpn1, slice_eq, Fin.val_ofNat, vpnOf]
    omega
  · rw [getPpn2, slice_eq, Fin.val_ofNat, vpnOf]
    omega
  · rw [getPpn3, slice_eq, Fin.val_ofNat, vpnOf]
    omega

theorem calcPpn_or {page attributes : Nat} (attributes_lt : attributes < 2 ^ 10) :
    calcPpn page ||| attributes = page / 2 ^ 12 * 2 ^ 10 + attributes := by
  rw [calcPpn, ← Nat.shiftLeft_add_eq_or_of_lt attributes_lt, Nat.shiftLeft_eq,
    Nat.shiftRight_eq_div_pow]

variable {page : Nat}

theorem nonLeaf_pte (privilege : PrivilegeLevel) (aligned : page % 4096 = 0)
    (page_lt : page < 2 ^ 64) :
    IsPointer (calcPpn page ||| nonLeafAttributes privilege) ∧
      pteAddress (calcPpn page ||| nonLeafAttributes privilege) = page ∧
      calcPpn page ||| nonLeafAttributes privilege < 2 ^ 64 := by
  rw [calcPpn_or (show nonLeafAttributes privilege < 2 ^ 10 by cases privilege <;> decide)]
  simp only [IsPointer, pteAddress, nonLeafAttributes]
  omega

theorem leaf_pte (privilege : PrivilegeLevel) (aligned : page % 4096 = 0) (page_lt : page < 2 ^ 64) :
    IsLeaf (calcPpn page ||| leafAttributes privilege) ∧
      pteAddress (calcPpn page ||| leafAttributes privilege) = page ∧
      (calcPpn page ||| leafAttributes privilege) % 2 ^ 10 = leafAttributes privilege ∧
      calcPpn page ||| leafAttributes privilege < 2 ^ 64 := by
  rw [calcPpn_or (show leafAttributes privilege < 2 ^ 10 by cases privilege <;> decide)]
  cases privilege <;> simp only [IsLeaf, pteAddress, leafAttributes] <;> omega

end Encoding

structure Fresh (tables pages : List Nat) : Prop where
  nodup : pages.Nodup
  aligned : ∀ page ∈ pages, page % 4096 = 0 ∧ page < 2 ^ 64
  outside : ∀ page ∈ pages, page ∉ tables

theorem Fresh.sublist {tables pages fewer : List Nat} (fresh : Fresh tables pages)
    (sub : fewer.Sublist pages) : Fresh tables fewer where
  nodup := sub.nodup fresh.nodup
  aligned page pageMem := fresh.aligned page (sub.subset pageMem)
  outside page pageMem := fresh.outside page (sub.subset pageMem)

theorem Fresh.tail {tables pages : List Nat} {page : Nat} (fresh : Fresh tables (page :: pages)) :
    Fresh (page :: tables) pages where
  nodup := (nodup_cons.1 fresh.nodup).2
  aligned other otherMem := fresh.aligned other (mem_cons_of_mem _ otherMem)
  outside other otherMem := by
    rw [mem_cons, not_or]
    refine ⟨?_, fresh.outside other (mem_cons_of_mem _ otherMem)⟩
    rintro rfl
    exact (nodup_cons.1 fresh.nodup).1 otherMem

def Outside (pages : List Nat) (a : Nat) : Prop :=
  ∀ page ∈ pages, a < page ∨ page + 4096 ≤ a

section NextTable

variable {mem : PhysMemory} {root table page : Nat} {view : Nat → Option (Nat × Nat)}
  {tables : List Nat} {path : Path} {index : Fin 512}

theorem graft_of_empty (privilege : PrivilegeLevel) (space : Space mem.bytes root view tables)
    (walk_eq : walk mem.bytes root path = some table) (shallow : path.length < 2)
    (empty : entryAt mem.bytes table index = 0) (aligned : page % 4096 = 0)
    (page_lt : page < 2 ^ 64) (outside : page ∉ tables) :
    Graft mem.bytes
      (writeWord (fillPage mem.bytes page fun _ => 0) (table + 8 * index)
        (calcPpn page ||| nonLeafAttributes privilege))
      root path table index page := by
  obtain ⟨pointer, address_eq, pte_lt⟩ := nonLeaf_pte privilege aligned page_lt
  have tableMem : table ∈ tables := (space.mem_tables table).2 ⟨path, walk_eq⟩
  have table_ne : table ≠ page := fun same => outside (same ▸ tableMem)
  have table_aligned := (space.aligned tableMem).1
  refine ⟨walk_eq, shallow, empty, ?_, ⟨aligned, page_lt⟩, ?_, ?_, ?_⟩
  · rintro path' other other_eq rfl
    exact outside ((space.mem_tables other).2 ⟨path', other_eq⟩)
  · intro path' other other_eq index' elsewhere
    have otherMem : other ∈ tables := (space.mem_tables other).2 ⟨path', other_eq⟩
    have other_ne : other ≠ page := fun same => outside (same ▸ otherMem)
    have other_aligned := (space.aligned otherMem).1
    have index_ne : other = table → (index' : Nat) ≠ index := fun same eq =>
      elsewhere ⟨same, Fin.ext eq⟩
    have index_lt := index.isLt
    have index_lt' := index'.isLt
    rw [entryAt, readWord_writeWord_of_disjoint _ _ (by omega)]
    refine readWord_congr fun a lower upper => fillPage_of_outside _ _ (by omega)
  · rw [child, entryAt, readWord_writeWord _ _ pte_lt, if_pos pointer, address_eq]
  · intro index'
    have index_lt := index.isLt
    have index_lt' := index'.isLt
    rw [entryAt, readWord_writeWord_of_disjoint _ _ (by omega)]
    exact readWord_fillPage_zero _ (by omega) (by omega)

structure Descended (mem mem' : PhysMemory) (root : Nat) (view : Nat → Option (Nat × Nat))
    (tables news : List Nat) (path : Path) (next : Nat) : Prop where
  space : Space mem'.bytes root view (news ++ tables)
  walk_eq : walk mem'.bytes root path = some next
  walks : ∀ other, other ≠ path → walk mem'.bytes root other = walk mem.bytes root other
  pool_eq : mem.memoryPool = news ++ mem'.memoryPool
  frame : ∀ a, Outside (news ++ tables) a → mem'.bytes a = mem.bytes a

theorem nextTable_cases (space : Space mem.bytes root view tables)
    (walk_eq : walk mem.bytes root path = some table) (shallow : path.length < 2)
    (index : Fin 512) (privilege : PrivilegeLevel) :
    (IsLeaf (entryAt mem.bytes table index) ∧
        nextTable mem (table + 8 * index) privilege = .error .panic) ∨
      (∃ next, walk mem.bytes root (path ++ [index]) = some next ∧
        nextTable mem (table + 8 * index) privilege = .ok (next, mem)) ∨
      (entryAt mem.bytes table index = 0 ∧ mem.memoryPool = [] ∧
        nextTable mem (table + 8 * index) privilege = .error .panic) ∨
      (∃ page rest, entryAt mem.bytes table index = 0 ∧ mem.memoryPool = page :: rest ∧
        ∃ mem', nextTable mem (table + 8 * index) privilege = .ok (page, mem') ∧
          (Fresh tables [page] → (∀ index', entryAt mem'.bytes page index' = 0) ∧
            Descended mem mem' root view tables [page] (path ++ [index]) page)) := by
  rcases space.wellFormed.entries path table index walk_eq with empty | leaf | ⟨pointer, _⟩
  · right; right
    have slot_eq : readWord mem.bytes (table + 8 * index) = 0 := empty
    cases pool_eq : mem.memoryPool with
    | nil =>
      refine .inl ⟨empty, rfl, ?_⟩
      simp [nextTable, slot_eq, PhysMemory.getClearPage, PhysMemory.allocPage, pool_eq]
    | cons page rest =>
      refine .inr ⟨page, rest, empty, rfl, (PhysMemory.clearPage ⟨mem.bytes, rest⟩ page).setWord
        (table + 8 * index) (calcPpn page ||| nonLeafAttributes privilege), ?_, fun fresh => ?_⟩
      · simp [nextTable, slot_eq, PhysMemory.getClearPage, PhysMemory.allocPage, pool_eq]
      · obtain ⟨aligned, page_lt⟩ := fresh.aligned page (by simp)
        have grafted := graft_of_empty privilege space walk_eq shallow empty aligned page_lt
          (fresh.outside page (by simp))
        have tableMem : table ∈ tables := (space.mem_tables table).2 ⟨path, walk_eq⟩
        refine ⟨grafted.cleared, space.graft grafted, ?_, ?_, by simp [pool_eq], ?_⟩
        · exact (grafted.walk_eq_ite space.wellFormed _).trans (if_pos rfl)
        · intro other different
          exact (grafted.walk_eq_ite space.wellFormed other).trans (if_neg different)
        · intro a outside
          have index_lt := index.isLt
          have fromPage := outside page (by simp)
          have fromTable := outside table (by simp [tableMem])
          rw [PhysMemory.setWord_bytes, writeWord_of_outside _ _ (by omega),
            PhysMemory.clearPage_bytes, fillPage_of_outside _ _ fromPage]
  · left
    have slot_ne : readWord mem.bytes (table + 8 * index) ≠ 0 := fun zero =>
      not_isLeaf_zero (zero ▸ leaf)
    have isLeaf_eq : isLeaf (readWord mem.bytes (table + 8 * index)) = true := (isLeaf_iff _).2 leaf
    exact ⟨leaf, by simp [nextTable, slot_ne, isLeaf_eq]⟩
  · right; left
    have slot_ne : readWord mem.bytes (table + 8 * index) ≠ 0 := fun zero =>
      not_isPointer_zero (zero ▸ pointer)
    have notLeaf : isLeaf (readWord mem.bytes (table + 8 * index)) = false :=
      Bool.eq_false_iff.2 fun isLeaf_eq => pointer.not_isLeaf ((isLeaf_iff _).1 isLeaf_eq)
    refine ⟨pteAddress (entryAt mem.bytes table index), ?_, ?_⟩
    · rw [walk_concat walk_eq, child, if_pos pointer]
    · simp [nextTable, slot_ne, notLeaf, pteAddress, entryAt, Nat.shiftLeft_eq,
        Nat.shiftRight_eq_div_pow]

end NextTable

def missing (m : Bytes) (root vpn : Nat) : Nat :=
  if (walk m root ((indices vpn).take 2)).isSome then 0
  else if (walk m root ((indices vpn).take 1)).isSome then 1
  else 2

def bindLeaf (view : Nat → Option (Nat × Nat)) (vpn pte : Nat) : Nat → Option (Nat × Nat) :=
  if view vpn = none then Function.update view vpn (some (pte, 0)) else view

structure Mapped (mem mem' : PhysMemory) (root : Nat) (view : Nat → Option (Nat × Nat))
    (tables news : List Nat) (vpn pte : Nat) : Prop where
  space : Space mem'.bytes root (bindLeaf view vpn pte) (news ++ tables)
  walks : ∀ other, ¬ other <+: indices vpn →
    walk mem'.bytes root other = walk mem.bytes root other
  pool_eq : mem.memoryPool = news ++ mem'.memoryPool
  frame : ∀ a, Outside (news ++ tables) a → mem'.bytes a = mem.bytes a

def Refused (mem : PhysMemory) (view : Nat → Option (Nat × Nat)) (vpn needed : Nat) : Prop :=
  (∃ pte level, view vpn = some (pte, level + 1)) ∨ mem.memoryPool.length < needed

def MapsUnlessRefused (mem : PhysMemory) (root : Nat) (view : Nat → Option (Nat × Nat))
    (tables : List Nat) (vpn pte needed : Nat) (outcome : Outcome PhysMemory) : Prop :=
  (Refused mem view vpn needed ∧ outcome = .error .panic) ∨
    (¬ Refused mem view vpn needed ∧
      ∃ mem' news, outcome = .ok mem' ∧ news.length = needed ∧
        Mapped mem mem' root view tables news vpn pte)

section Small

variable {mem : PhysMemory} {root table va pte : Nat} {view : Nat → Option (Nat × Nat)}
  {tables : List Nat} {first second third : Fin 512}

theorem mapLevel3_spec (space : Space mem.bytes root view tables)
    (indices_eq : indices (vpnOf va) = [first, second, third]) (ppn3_eq : getPpn3 va = third)
    (walk_eq : walk mem.bytes root [first, second] = some table)
    (leaf : IsLeaf pte) (pte_lt : pte < 2 ^ 64) :
    (∀ found level, view (vpnOf va) ≠ some (found, level + 1)) ∧
      Mapped mem (mapLevel3 mem table va pte) root view tables [] (vpnOf va) pte := by
  have view_eq : view (vpnOf va) = lookup mem.bytes table [third] := by
    rw [space.view_eq _ (vpnOf_lt va), indices_eq,
      show [first, second, third] = [first, second] ++ [third] from rfl, lookup_append walk_eq]
  have tableMem : table ∈ tables := (space.mem_tables table).2 ⟨_, walk_eq⟩
  rw [mapLevel3, ppn3_eq]
  rcases space.wellFormed.entries _ table third walk_eq with empty | isLeaf | ⟨_, shallow⟩
  · have unmapped : view (vpnOf va) = none := by
      simp [view_eq, lookup, child, empty, not_isLeaf_zero, not_isPointer_zero]
    have slot_eq : readWord mem.bytes (table + 8 * third) = 0 := empty
    rw [if_pos slot_eq]
    have table_aligned := (space.aligned tableMem).1
    have third_lt := third.isLt
    have planted : Plant mem.bytes (writeWord mem.bytes (table + 8 * third) pte) root
        [first, second] table third pte := by
      refine ⟨walk_eq, empty, leaf, ?_, readWord_writeWord _ _ pte_lt⟩
      intro path' other other_eq index' elsewhere
      have other_aligned := (space.wellFormed.aligned path' other other_eq).1
      have index_ne : other = table → (index' : Nat) ≠ third := fun same eq =>
        elsewhere ⟨same, Fin.ext eq⟩
      have index_lt := index'.isLt
      rw [entryAt, readWord_writeWord_of_disjoint _ _ (by omega), entryAt]
    refine ⟨by simp [unmapped], ?_, ?_, rfl, ?_⟩
    · simpa [bindLeaf, unmapped] using space.plant planted (vpnOf_lt va) indices_eq
    · intro other _
      exact planted.walk_from other (show walk mem.bytes root [] = some root from rfl)
    · intro a outside
      have fromTable := outside table tableMem
      exact writeWord_of_outside _ _ (by omega)
  · have mapped : view (vpnOf va) = some (entryAt mem.bytes table third, 0) := by
      simp [view_eq, lookup, isLeaf]
    have slot_ne : readWord mem.bytes (table + 8 * third) ≠ 0 := fun zero =>
      not_isLeaf_zero (zero ▸ isLeaf)
    rw [if_neg slot_ne]
    refine ⟨by simp [mapped], ?_, fun _ _ => rfl, rfl, fun _ _ => rfl⟩
    simpa [bindLeaf, mapped] using space
  · simp at shallow

theorem view_of_leaf (space : Space mem.bytes root view tables) {path rest : Path}
    {index : Fin 512} (indices_eq : indices (vpnOf va) = path ++ index :: rest)
    (walk_eq : walk mem.bytes root path = some table)
    (leaf : IsLeaf (entryAt mem.bytes table index)) :
    view (vpnOf va) = some (entryAt mem.bytes table index, rest.length) := by
  rw [space.view_eq _ (vpnOf_lt va), indices_eq, lookup_append walk_eq]
  simp [lookup, leaf]

theorem Descended.mapped {mem' mem'' : PhysMemory} {news more : List Nat} {path : Path}
    {next vpn : Nat} (descended : Descended mem mem' root view tables news path next)
    (onPath : path <+: indices vpn)
    (mapped : Mapped mem' mem'' root view (news ++ tables) more vpn pte) :
    Mapped mem mem'' root view tables (news ++ more) vpn pte := by
  have same : ∀ t, t ∈ news ++ more ++ tables ↔ t ∈ more ++ (news ++ tables) := by
    simp only [mem_append]
    tauto
  refine ⟨mapped.space.of_mem_iff same, ?_, ?_, ?_⟩
  · intro other off
    rw [mapped.walks other off, descended.walks other fun eq => off (eq ▸ onPath)]
  · rw [descended.pool_eq, mapped.pool_eq, append_assoc]
  · intro a outside
    rw [mapped.frame a fun t tMem => outside t ((same t).2 tMem)]
    exact descended.frame a fun t tMem => outside t ((same t).2 (mem_append_right _ tMem))

theorem walk_second_eq_none {m : Bytes} (walk_eq : walk m root [first] = some table)
    (empty : entryAt m table second = 0) : walk m root [first, second] = none := by
  have next_eq := walk_concat walk_eq second
  rw [child, empty, if_neg not_isPointer_zero] at next_eq
  exact next_eq

theorem mapLevel2_spec (space : Space mem.bytes root view tables) (privilege : PrivilegeLevel)
    (indices_eq : indices (vpnOf va) = [first, second, third]) (ppn2_eq : getPpn2 va = second)
    (ppn3_eq : getPpn3 va = third) (walk_eq : walk mem.bytes root [first] = some table)
    (leaf : IsLeaf pte) (pte_lt : pte < 2 ^ 64) {needed : Nat}
    (needed_eq : needed = if (walk mem.bytes root [first, second]).isSome then 0 else 1)
    (fresh : Fresh tables (mem.memoryPool.take needed)) :
    MapsUnlessRefused mem root view tables (vpnOf va) pte needed
      (mapLevel2 mem table va pte privilege) := by
  rw [mapLevel2, ppn2_eq]
  rcases nextTable_cases space walk_eq (Nat.lt_succ_self 1) second privilege with
    ⟨isLeaf, step_eq⟩ | ⟨next, next_eq, step_eq⟩ | ⟨empty, pool_eq, step_eq⟩ |
    ⟨page, rest, empty, pool_eq, mem', step_eq, descends⟩
  · have found := view_of_leaf space
      (show indices (vpnOf va) = [first] ++ second :: [third] from indices_eq) walk_eq isLeaf
    exact .inl ⟨.inl ⟨_, _, found⟩, by rw [step_eq, error_bind]⟩
  · have next_eq : walk mem.bytes root [first, second] = some next := next_eq
    have needed_zero : needed = 0 := by
      rw [needed_eq, next_eq]
      rfl
    obtain ⟨notSuper, mapped⟩ := mapLevel3_spec space indices_eq ppn3_eq next_eq leaf pte_lt
    refine .inr ⟨?_, _, [], by rw [step_eq, ok_bind]; rfl, needed_zero.symm, mapped⟩
    rintro (⟨found, level, super⟩ | short)
    · exact notSuper found level super
    · omega
  · have needed_one : needed = 1 := by
      rw [needed_eq, walk_second_eq_none walk_eq empty]
      rfl
    exact .inl ⟨.inr (by simp [pool_eq, needed_one]), by rw [step_eq, error_bind]⟩
  · have needed_one : needed = 1 := by
      rw [needed_eq, walk_second_eq_none walk_eq empty]
      rfl
    obtain ⟨_, descended⟩ := descends (by simpa [pool_eq, needed_one] using fresh)
    obtain ⟨notSuper, mapped⟩ := mapLevel3_spec descended.space indices_eq ppn3_eq
      descended.walk_eq leaf pte_lt
    refine .inr ⟨?_, _, [page], by rw [step_eq, ok_bind]; rfl, needed_one.symm,
      descended.mapped (indices_eq ▸ ⟨[third], rfl⟩) mapped⟩
    rintro (⟨found, level, super⟩ | short)
    · exact notSuper found level super
    · simp [pool_eq, needed_one] at short

theorem missing_eq_two {m : Bytes} (empty : entryAt m root first = 0) :
    (if (walk m root [first, second]).isSome then 0
      else if (walk m root [first]).isSome then 1 else 2) = 2 := by
  simp [walk, child, empty, not_isPointer_zero]

theorem mapLevel1_spec (space : Space mem.bytes root view tables) (va : Nat)
    (privilege : PrivilegeLevel) (leaf : IsLeaf pte) (pte_lt : pte < 2 ^ 64)
    (fresh : Fresh tables (mem.memoryPool.take (missing mem.bytes root (vpnOf va)))) :
    MapsUnlessRefused mem root view tables (vpnOf va) pte (missing mem.bytes root (vpnOf va))
      (mapLevel1 mem root va pte privilege) := by
  obtain ⟨first, second, third, indices_eq, ppn1_eq, ppn2_eq, ppn3_eq⟩ := indices_vpnOf va
  have needed_eq : missing mem.bytes root (vpnOf va) =
      if (walk mem.bytes root [first, second]).isSome then 0
      else if (walk mem.bytes root [first]).isSome then 1 else 2 := by
    rw [missing, indices_eq]
    rfl
  have root_eq : walk mem.bytes root [] = some root := rfl
  have start : mapLevel1 mem root va pte privilege =
      (nextTable mem (root + 8 * first) privilege >>= fun result =>
        mapLevel2 result.2 result.1 va pte privilege) := by
    rw [mapLevel1, ppn1_eq]
  rw [start]
  rcases nextTable_cases space root_eq Nat.two_pos first privilege with
    ⟨isLeaf, step_eq⟩ | ⟨next, next_eq, step_eq⟩ | ⟨empty, pool_eq, step_eq⟩ |
    ⟨page, rest, empty, pool_eq, mem', step_eq, descends⟩
  · have found := view_of_leaf space
      (show indices (vpnOf va) = [] ++ first :: [second, third] from indices_eq) root_eq isLeaf
    exact .inl ⟨.inl ⟨_, _, found⟩, by rw [step_eq, error_bind]⟩
  · have next_eq : walk mem.bytes root [first] = some next := next_eq
    have spec := mapLevel2_spec space privilege indices_eq ppn2_eq ppn3_eq next_eq leaf pte_lt
      (by rw [needed_eq, next_eq]; rfl) fresh
    rwa [step_eq, ok_bind]
  · have needed_two := needed_eq.trans (missing_eq_two empty)
    refine .inl ⟨.inr (by simp [pool_eq, needed_two]), by rw [step_eq, error_bind]⟩
  · have needed_two := needed_eq.trans (missing_eq_two empty)
    rw [needed_two, pool_eq, show List.take 2 (page :: rest) = page :: rest.take 1 from rfl] at fresh
    obtain ⟨cleared, descended⟩ := descends (fresh.sublist (singleton_sublist.2 mem_cons_self))
    have rest_eq : mem'.memoryPool = rest := by
      simpa [pool_eq] using descended.pool_eq.symm
    have stuck := walk_second_eq_none descended.walk_eq (cleared second)
    have spec := mapLevel2_spec descended.space privilege indices_eq ppn2_eq ppn3_eq
      descended.walk_eq leaf pte_lt (show 1 = _ by rw [stuck]; rfl) (rest_eq ▸ fresh.tail)
    rw [step_eq, needed_two, ok_bind]
    rcases spec with ⟨refused, panics⟩ | ⟨accepted, mem'', news, done, length_eq, mapped⟩
    · refine .inl ⟨refused.imp id fun short => ?_, panics⟩
      rw [rest_eq] at short
      rw [pool_eq, length_cons]
      omega
    · refine .inr ⟨fun refused => accepted (refused.imp id fun short => ?_), mem'', _, done, ?_,
        descended.mapped (indices_eq ▸ ⟨[second, third], rfl⟩) mapped⟩
      · rw [pool_eq, length_cons] at short
        rw [rest_eq]
        omega
      · simp [length_eq]

theorem createMapping_small (space : Space mem.bytes root view tables) {pa : Nat} (va : Nat)
    (privilege : PrivilegeLevel) (aligned : pa % 4096 = 0) (pa_lt : pa < 2 ^ 64)
    (notNull : 0x1000 ≤ va)
    (fresh : Fresh tables (mem.memoryPool.take (missing mem.bytes root (vpnOf va)))) :
    MapsUnlessRefused mem root view tables (vpnOf va) (calcPpn pa ||| leafAttributes privilege)
      (missing mem.bytes root (vpnOf va))
      (createMapping mem root va pa .small privilege) := by
  obtain ⟨leaf, _, _, pte_lt⟩ := leaf_pte privilege aligned pa_lt
  have base_ok : (root &&& 7) ^^^ 7 = 7 := by
    have root_aligned := (space.aligned space.root_mem).1
    exact (check_table_base_iff root).2 (by omega)
  have notNull : ¬ va < 0x1000 := Nat.not_lt.2 notNull
  have start : createMapping mem root va pa .small privilege =
      mapLevel1 mem root va (calcPpn pa ||| leafAttributes privilege) privilege := by
    simp [createMapping, notNull, base_ok]
  rw [start]
  exact mapLevel1_spec space va privilege leaf pte_lt fresh

end Small

theorem leafTarget_small {pa : Nat} (va : Nat) (privilege : PrivilegeLevel)
    (aligned : pa % 4096 = 0) (pa_lt : pa < 2 ^ 64) :
    leafTarget va (calcPpn pa ||| leafAttributes privilege, 0) =
      some (pa + va % 4096, leafAttributes privilege) := by
  obtain ⟨_, address_eq, attributes_eq, _⟩ := leaf_pte privilege aligned pa_lt
  rw [leafTarget, address_eq, attributes_eq, leafSize, pow_zero, mul_one, if_pos aligned]

/-- Mapping an unmapped small page in a well-formed table, with pages for the
missing tables from outside the tree, keeps the table well formed, maps the page
with its attributes and changes no other translation. -/
theorem createMapping_maps_and_frames {mem : PhysMemory} {root va pa : Nat}
    (privilege : PrivilegeLevel) (wellFormed : WellFormed mem.bytes root)
    (notNull : 0x1000 ≤ va) (aligned : pa % 4096 = 0) (pa_lt : pa < 2 ^ 64)
    (unmapped : lookup mem.bytes root (indices (vpnOf va)) = none)
    (enough : missing mem.bytes root (vpnOf va) ≤ mem.memoryPool.length)
    (fresh : Fresh (tablePages mem.bytes root)
      (mem.memoryPool.take (missing mem.bytes root (vpnOf va)))) :
    ∃ mem', createMapping mem root va pa .small privilege = .ok mem' ∧
      WellFormed mem'.bytes root ∧
      translate mem'.bytes root va = some (pa + va % 4096, leafAttributes privilege) ∧
      ∀ va', vpnOf va' ≠ vpnOf va →
        translate mem'.bytes root va' = translate mem.bytes root va' := by
  have space := wellFormed.space
  rcases createMapping_small space va privilege aligned pa_lt notNull fresh with
    ⟨refused, _⟩ | ⟨_, mem', news, done, _, mapped⟩
  · rcases refused with ⟨pte, level, super⟩ | short
    · cases unmapped.symm.trans super
    · omega
  · refine ⟨mem', done, mapped.space.wellFormed, ?_, ?_⟩
    · rw [mapped.space.translate_eq, bindLeaf, if_pos unmapped, Function.update_self]
      exact leafTarget_small va privilege aligned pa_lt
    · intro va' different
      rw [mapped.space.translate_eq, space.translate_eq, bindLeaf, if_pos unmapped,
        Function.update_of_ne different]

theorem createMapping_maps_and_frames_empty :
    ∃ mem', createMapping ⟨fun _ => 0, [0x2000, 0x3000]⟩ 0x1000 0x40001234 0x5000 .small .user =
        .ok mem' ∧
      translate mem'.bytes 0x1000 0x40001234 = some (0x5234, 0xdf) := by
  have empty : ∀ index, entryAt (fun _ => 0) 0x1000 index = 0 := fun index =>
    readLE_eq_zero fun _ _ _ => rfl
  have space : Space (fun _ => 0) 0x1000 (fun _ => none) [0x1000] :=
    Space.of_empty (by decide) (by decide) empty
  have needed : missing (fun _ => 0) 0x1000 (vpnOf 0x40001234) = 2 := missing_eq_two (empty _)
  have fresh : Fresh (tablePages (fun _ => 0) 0x1000) [0x2000, 0x3000] := by
    refine ⟨by decide, by decide, fun page pageMem inTables => ?_⟩
    have isTable := (space.wellFormed.space.mem_tables page).1 inTables
    rw [mem_singleton.1 ((space.mem_tables page).2 isTable)] at pageMem
    revert pageMem
    decide
  obtain ⟨mem', done, _, mapped, _⟩ := @createMapping_maps_and_frames
    ⟨fun _ => 0, [0x2000, 0x3000]⟩ 0x1000 0x40001234 0x5000 .user space.wellFormed
    (by decide) (by decide) (by decide) (space.view_eq _ (vpnOf_lt _)).symm needed.le
    (by rw [needed]; exact fresh)
  exact ⟨mem', done, mapped⟩

end SysCore.Paging
