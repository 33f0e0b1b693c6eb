import SysCore.Paging.EraseEntry
import Mathlib.Data.List.Nodup
import Mathlib.Data.List.FinRange

/-!
# `ErasePageTable`

`ErasePageTable` goes through the slots of a table, clears its leaves, erases the tables
below it and puts its own page back into the pool.  `release_physical_page` says whether
the pages of the leaves are put back as well.  `erase_entry` does not pass it on to the
tables below: their leaves are cleared, and their pages are in no list any more.
-/

namespace SysCore.Paging

open Memory Transition List

def calculateTableBaseBySatp (satp : Nat) : Nat :=
  satp <<< 12 % 2 ^ 64

def eraseEntryAt (board : Board) (erase : Nat → PhysMemory → Outcome PhysMemory)
    (releasePhysicalPage : Bool) (entryAddress : Nat) (mem : PhysMemory) : Outcome PhysMemory :=
  let entry := readWord mem.bytes entryAddress
  let page := pageOfEntry entry
  if isLeaf entry then do
    let mem ← releaseLeaf board releasePhysicalPage page mem
    return mem.setWord entryAddress 0
  else
    erase page mem

def eraseSlot (board : Board) (erase : Nat → PhysMemory → Outcome PhysMemory)
    (releasePhysicalPage : Bool) (pageTableBase : Nat) (mem : PhysMemory) (i : Fin 512) :
    Outcome PhysMemory :=
  if readWord mem.bytes (pageTableBase + 8 * i) ≠ 0 then
    eraseEntryAt board erase releasePhysicalPage (pageTableBase + 8 * i) mem
  else
    .ok mem

def erasePageTable (board : Board) (satp : Nat) :
    (fuel pageTableBase : Nat) → (releasePhysicalPage : Bool) → PhysMemory → Outcome PhysMemory
  | 0, _, _, _ => .error .hang
  | fuel + 1, pageTableBase, releasePhysicalPage, mem =>
    if (pageTableBase &&& 7) ^^^ 7 ≠ 7 then
      .error .panic
    else if pageTableBase = calculateTableBaseBySatp satp then
      .error .panic
    else do
      let mem ← (List.finRange 512).foldlM
        -- `erase_entry` calls with the default value of `release_physical_page`.
        (eraseSlot board (fun page => erasePageTable board satp fuel page false) releasePhysicalPage
          pageTableBase) mem
      releasePage board pageTableBase mem

/-! ## Pieces of an erasure -/

def PhysMemory.Fits (mem : PhysMemory) (pages : List Nat) : Prop :=
  pages ≠ [] → mem.memoryPool.length + pages.length ≤ 2048

inductive Settles (mem : PhysMemory) (blocked : Prop) (pages : List Nat) (region : Nat → Prop) :
    Outcome PhysMemory → Prop
  | returns {mem' : PhysMemory} (free : ¬ blocked) (fits : mem.Fits pages)
      (pool_eq : mem'.memoryPool = pages.reverse ++ mem.memoryPool)
      (frame : ∀ a, ¬ region a → mem'.bytes a = mem.bytes a) :
      Settles mem blocked pages region (.ok mem')
  | stops (halt : Halt) (stuck : mem.Fits pages → blocked) :
      Settles mem blocked pages region (.error halt)

section Pieces

variable {mem : PhysMemory} {blocked blocked' : Prop} {pages pages' : List Nat}
  {region region' : Nat → Prop}

theorem PhysMemory.Fits.left (fits : mem.Fits (pages ++ pages')) : mem.Fits pages := by
  intro nonempty
  have all := fits (append_ne_nil_of_left_ne_nil nonempty pages')
  rw [length_append] at all
  omega

theorem PhysMemory.fits_append {mem' : PhysMemory}
    (pool_eq : mem'.memoryPool = pages.reverse ++ mem.memoryPool) :
    mem.Fits (pages ++ pages') ↔ mem.Fits pages ∧ mem'.Fits pages' := by
  have length_eq : mem'.memoryPool.length = pages.length + mem.memoryPool.length := by
    rw [pool_eq, length_append, length_reverse]
  constructor
  · intro fits
    refine ⟨fits.left, fun nonempty => ?_⟩
    have all := fits (append_ne_nil_of_right_ne_nil pages nonempty)
    rw [length_append] at all
    omega
  · rintro ⟨first, second⟩ nonempty
    rw [length_append]
    by_cases isNil : pages' = []
    · subst isNil
      rw [append_nil] at nonempty
      exact first nonempty
    · have room := second isNil
      omega

namespace Settles

variable {outcome : Outcome PhysMemory} {next : PhysMemory → Outcome PhysMemory}

theorem nothing (mem : PhysMemory) (region : Nat → Prop) : Settles mem False [] region (.ok mem) :=
  .returns not_false (fun nonempty => absurd rfl nonempty) rfl fun _ _ => rfl

theorem setWord (mem : PhysMemory) (address value : Nat)
    (inside : ∀ a, address ≤ a → a < address + 8 → region a) :
    Settles mem False [] region (.ok (mem.setWord address value)) := by
  refine .returns not_false (fun nonempty => absurd rfl nonempty) rfl fun a outside => ?_
  apply writeWord_of_outside
  by_contra within
  exact outside (inside a (by omega) (by omega))

theorem mono (settles : Settles mem blocked pages region outcome) (blocked_iff : blocked ↔ blocked')
    (pages_eq : pages = pages') (larger : ∀ a, region a → region' a) :
    Settles mem blocked' pages' region' outcome := by
  subst pages_eq
  cases settles with
  | returns free fits pool_eq frame =>
    exact .returns (blocked_iff.not.1 free) fits pool_eq fun a outside =>
      frame a fun inside => outside (larger a inside)
  | stops halt stuck => exact .stops halt fun fits => blocked_iff.1 (stuck fits)

theorem bind (first : Settles mem blocked pages region outcome)
    (second : ∀ mem', (∀ a, ¬ region a → mem'.bytes a = mem.bytes a) →
      Settles mem' blocked' pages' region' (next mem')) :
    Settles mem (blocked ∨ blocked') (pages ++ pages') (fun a => region a ∨ region' a)
      (outcome >>= next) := by
  cases first with
  | stops halt stuck => exact .stops halt fun fits => .inl (stuck fits.left)
  | @returns mem' free fits pool_eq frame =>
    have rest := second mem' frame
    rw [ok_bind]
    generalize next mem' = outcome at rest ⊢
    cases rest with
    | stops halt stuck =>
      exact .stops halt fun all => .inr (stuck ((PhysMemory.fits_append pool_eq).1 all).2)
    | returns free' fits' pool_eq' frame' =>
      refine .returns (not_or.2 ⟨free, free'⟩) ((PhysMemory.fits_append pool_eq).2 ⟨fits, fits'⟩) ?_ ?_
      · rw [pool_eq', pool_eq, reverse_append, append_assoc]
      · intro a outside
        obtain ⟨notFirst, notSecond⟩ := not_or.1 outside
        rw [frame' a notSecond, frame a notFirst]

theorem foldlM {ι : Type} {step : PhysMemory → ι → Outcome PhysMemory} {blocked : ι → Prop}
    {pages : ι → List Nat} {region : ι → Nat → Prop} (m : Bytes) (items : List ι)
    (apart : items.Pairwise fun i j => ∀ a, region i a → ¬ region j a)
    (steps : ∀ i ∈ items, ∀ mem, (∀ a, region i a → mem.bytes a = m a) →
      Settles mem (blocked i) (pages i) (region i) (step mem i))
    (agrees : ∀ i ∈ items, ∀ a, region i a → mem.bytes a = m a) :
    Settles mem (∃ i ∈ items, blocked i) (items.flatMap pages) (fun a => ∃ i ∈ items, region i a)
      (items.foldlM step mem) := by
  induction items generalizing mem with
  | nil => exact (nothing mem _).mono (by simp) rfl fun a => id
  | cons i items ih =>
    rw [pairwise_cons] at apart
    rw [forall_mem_cons] at steps agrees
    rw [foldlM_cons, flatMap_cons]
    have first := steps.1 mem agrees.1
    -- The regions of the other items are not touched by this one.
    have rest := first.bind fun mem' frame => ih apart.2 steps.2 fun j jMem a inside =>
      (frame a fun here => apart.1 j jMem a here inside).trans (agrees.2 j jMem a inside)
    exact rest.mono (by simp) rfl fun a inside => by simpa using inside

end Settles

end Pieces

/-! ## The bytes of a tree -/

def Owns (m : Bytes) (table a : Nat) : Prop :=
  ∃ path page, walk m table path = some page ∧ page ≤ a ∧ a < page + 4096

def OwnsSlot (m : Bytes) (table : Nat) (index : Fin 512) (a : Nat) : Prop :=
  (table + 8 * index ≤ a ∧ a < table + 8 * index + 8) ∨
    ∃ next, child m table index = some next ∧ Owns m next a

theorem walk_cons_eq_some {m : Bytes} {table page : Nat} {index : Fin 512} {path : Path} :
    walk m table (index :: path) = some page ↔
      ∃ next, child m table index = some next ∧ walk m next path = some page := by
  rw [walk]
  exact Option.bind_eq_some_iff

theorem owns_of_slot {m : Bytes} {table a : Nat} {index : Fin 512} (inside : OwnsSlot m table index a) :
    Owns m table a := by
  rcases inside with ⟨lower, upper⟩ | ⟨next, child_eq, path, page, walk_eq, bounds⟩
  · have index_lt := index.isLt
    exact ⟨[], table, rfl, by omega, by omega⟩
  · exact ⟨index :: path, page, walk_cons_eq_some.2 ⟨next, child_eq, walk_eq⟩, bounds⟩

namespace WellFormed

variable {m : Bytes} {root table a : Nat} {path path' : Path}

theorem path_of_byte (wellFormed : WellFormed m root) {page page' : Nat}
    (walk_eq : walk m root path = some page) (walk_eq' : walk m root path' = some page')
    (inside : page ≤ a ∧ a < page + 4096) (inside' : page' ≤ a ∧ a < page' + 4096) : path = path' := by
  have aligned := (wellFormed.aligned path page walk_eq).1
  have aligned' := (wellFormed.aligned path' page' walk_eq').1
  obtain rfl : page = page' := by omega
  exact wellFormed.distinct path path' page walk_eq walk_eq'

theorem walk_below (walk_eq : walk m root path = some table) {rest : Path} {page : Nat}
    (below_eq : walk m table rest = some page) : walk m root (path ++ rest) = some page := by
  rw [walk_append, walk_eq]
  exact below_eq

theorem slots_apart (wellFormed : WellFormed m root) (walk_eq : walk m root path = some table)
    {index index' : Fin 512} (different : index ≠ index') (inside : OwnsSlot m table index a) :
    ¬ OwnsSlot m table index' a := by
  have own : walk m root (path ++ []) = some table := by rwa [append_nil]
  have index_lt := index.isLt
  have index_lt' := index'.isLt
  have behind : ∀ {i next rest page}, child m table i = some next → walk m next rest = some page →
      walk m root (path ++ i :: rest) = some page := fun child_eq rest_eq =>
    walk_below walk_eq (walk_cons_eq_some.2 ⟨_, child_eq, rest_eq⟩)
  intro inside'
  rcases inside with ⟨lower, upper⟩ | ⟨next, child_eq, rest, page, rest_eq, bounds⟩
  · rcases inside' with ⟨lower', upper'⟩ | ⟨next', child_eq', rest', page', rest_eq', bounds'⟩
    · exact different (Fin.ext (by omega))
    · have same := wellFormed.path_of_byte own (behind child_eq' rest_eq') ⟨by omega, by omega⟩ bounds'
      cases append_cancel_left same
  · rcases inside' with ⟨lower', upper'⟩ | ⟨next', child_eq', rest', page', rest_eq', bounds'⟩
    · have same := wellFormed.path_of_byte own (behind child_eq rest_eq) ⟨by omega, by omega⟩ bounds
      cases append_cancel_left same
    · have same := wellFormed.path_of_byte (behind child_eq rest_eq) (behind child_eq' rest_eq')
        bounds bounds'
      exact different (List.cons.inj (append_cancel_left same)).1

end WellFormed

/-! ## What an erasure does -/

def Board.InPool (board : Board) (page : Nat) : Prop :=
  board.kernelEnd ≤ page ∧ page ≤ board.kernelEnd + 4096 * (board.pageCount - 1)

instance (board : Board) (page : Nat) : Decidable (board.InPool page) :=
  inferInstanceAs (Decidable (_ ∧ _))

def Board.pooled (board : Board) (page : Nat) : List Nat :=
  if board.InPool page then [page] else []

def slotDues (board : Board) (m : Bytes) (below : Nat → List Nat) (releasePhysicalPage : Bool)
    (table : Nat) (index : Fin 512) : List Nat :=
  if IsLeaf (entryAt m table index) then
    if releasePhysicalPage then board.pooled (pteAddress (entryAt m table index)) else []
  else
    (child m table index).elim [] below

def dues (board : Board) (m : Bytes) :
    (fuel : Nat) → (releasePhysicalPage : Bool) → (table : Nat) → List Nat
  | 0, _, _ => []
  | fuel + 1, releasePhysicalPage, table =>
    (List.finRange 512).flatMap (slotDues board m (dues board m fuel false) releasePhysicalPage table) ++
      board.pooled table

def Busy (m : Bytes) (satp table : Nat) : Prop :=
  ∃ path, walk m table path = some (calculateTableBaseBySatp satp)

theorem busy_iff {m : Bytes} {satp table : Nat} :
    Busy m satp table ↔ table = calculateTableBaseBySatp satp ∨
      ∃ index next, child m table index = some next ∧ Busy m satp next := by
  constructor
  · rintro ⟨_ | ⟨index, path⟩, walk_eq⟩
    · exact .inl (Option.some.inj walk_eq)
    · obtain ⟨next, child_eq, rest_eq⟩ := walk_cons_eq_some.1 walk_eq
      exact .inr ⟨index, next, child_eq, path, rest_eq⟩
  · rintro (rfl | ⟨index, next, child_eq, path, walk_eq⟩)
    · exact ⟨[], rfl⟩
    · exact ⟨index :: path, walk_cons_eq_some.2 ⟨next, child_eq, walk_eq⟩⟩

section Erasure

variable {board : Board} {m : Bytes} {mem : PhysMemory} {table : Nat} {index : Fin 512}
  {releasePhysicalPage : Bool} {erase : Nat → PhysMemory → Outcome PhysMemory} {below : Nat → List Nat}

theorem releasePage_settles (board : Board) (mem : PhysMemory) {page : Nat} (aligned : page % 4096 = 0)
    (region : Nat → Prop) : Settles mem False (board.pooled page) region (releasePage board page mem) := by
  have answer : board.isPageAlloced page = .ok (decide (board.InPool page)) :=
    if_neg (not_not.2 aligned)
  rw [releasePage, answer, ok_bind, Board.pooled]
  by_cases inPool : board.InPool page
  · rw [if_pos (decide_eq_true inPool), if_pos inPool, PhysMemory.deallocPage, if_neg (not_not.2 aligned)]
    split
    next room => exact .returns not_false (fun _ => room) rfl fun _ _ => rfl
    next full => exact .stops .stray fun fits => full (fits (cons_ne_nil _ _))
  · rw [if_neg (mt of_decide_eq_true inPool), if_neg inPool]
    exact .nothing mem region

theorem releaseLeaf_settles (board : Board) (releasePhysicalPage : Bool) (mem : PhysMemory) (entry : Nat)
    (region : Nat → Prop) :
    Settles mem False (if releasePhysicalPage then board.pooled (pteAddress entry) else []) region
      (releaseLeaf board releasePhysicalPage (pteAddress entry) mem) := by
  cases releasePhysicalPage with
  | false => exact .nothing mem region
  | true =>
    have aligned : pteAddress entry % 4096 = 0 := by
      unfold pteAddress
      omega
    exact releasePage_settles board mem aligned region

theorem eraseSlot_settles {satp : Nat} (agrees : ∀ a, OwnsSlot m table index a → mem.bytes a = m a)
    (entries : entryAt m table index = 0 ∨ IsLeaf (entryAt m table index) ∨
      IsPointer (entryAt m table index))
    (erases : ∀ next, child m table index = some next → ∀ mem, (∀ a, Owns m next a → mem.bytes a = m a) →
      Settles mem (Busy m satp next) (below next) (Owns m next) (erase next mem)) :
    Settles mem (∃ next, child m table index = some next ∧ Busy m satp next)
      (slotDues board m below releasePhysicalPage table index) (OwnsSlot m table index)
      (eraseSlot board erase releasePhysicalPage table mem index) := by
  have entry_eq : readWord mem.bytes (table + 8 * index) = entryAt m table index :=
    readWord_congr fun a lower upper => agrees a (.inl ⟨lower, upper⟩)
  rw [eraseSlot, eraseEntryAt, entry_eq, pageOfEntry_eq, slotDues]
  rcases entries with empty | leaf | pointer
  · have stuck : child m table index = none := if_neg (by rw [empty]; exact not_isPointer_zero)
    rw [if_neg (not_not.2 empty), if_neg (by rw [empty]; exact not_isLeaf_zero), stuck]
    exact (Settles.nothing mem _).mono (by simp) rfl fun a => id
  · have stuck : child m table index = none := if_neg leaf.not_isPointer
    have used : entryAt m table index ≠ 0 := fun empty => not_isLeaf_zero (empty ▸ leaf)
    rw [if_pos used, if_pos ((isLeaf_iff _).2 leaf), if_pos leaf, stuck]
    have released := releaseLeaf_settles board releasePhysicalPage mem (entryAt m table index)
      (OwnsSlot m table index)
    have clears (mem' : PhysMemory) :
        Settles mem' False [] (OwnsSlot m table index) (.ok (mem'.setWord (table + 8 * index) 0)) :=
      .setWord mem' _ 0 fun a lower upper => .inl ⟨lower, upper⟩
    have both := released.bind fun mem' _ => clears mem'
    exact both.mono (by simp) (append_nil _) fun a => or_self_iff.1
  · have child_eq : child m table index = some (pteAddress (entryAt m table index)) := if_pos pointer
    have used : entryAt m table index ≠ 0 := fun empty => not_isPointer_zero (empty ▸ pointer)
    rw [if_pos used, if_neg (Bool.eq_false_iff.1 (isLeaf_eq_false pointer.not_isLeaf)),
      if_neg pointer.not_isLeaf, child_eq]
    have agrees' : ∀ a, Owns m (pteAddress (entryAt m table index)) a → mem.bytes a = m a :=
      fun a inside => agrees a (.inr ⟨_, child_eq, inside⟩)
    exact (erases _ child_eq mem agrees').mono (by simp) rfl fun a inside => .inr ⟨_, child_eq, inside⟩

theorem erasePageTable_settles {root satp : Nat} (board : Board) (wellFormed : WellFormed m root)
    (fuel : Nat) {path : Path} (walk_eq : walk m root path = some table)
    (enough : 3 ≤ fuel + path.length) (releasePhysicalPage : Bool) {mem : PhysMemory}
    (agrees : ∀ a, Owns m table a → mem.bytes a = m a) :
    Settles mem (Busy m satp table) (dues board m fuel releasePhysicalPage table) (Owns m table)
      (erasePageTable board satp fuel table releasePhysicalPage mem) := by
  induction fuel generalizing path table releasePhysicalPage mem with
  | zero =>
    have short := wellFormed.length_le walk_eq
    omega
  | succ fuel ih =>
    have aligned := (wellFormed.aligned path table walk_eq).1
    have base_ok : (table &&& 7) ^^^ 7 = 7 := (check_table_base_iff table).2 (by omega)
    rw [erasePageTable, if_neg (not_not.2 base_ok), dues]
    split
    next inUse => exact .stops .panic fun _ => busy_iff.2 (.inl inUse)
    next notInUse =>
      have slot (index : Fin 512) (mem : PhysMemory)
          (agrees : ∀ a, OwnsSlot m table index a → mem.bytes a = m a) :
          Settles mem (∃ next, child m table index = some next ∧ Busy m satp next)
            (slotDues board m (dues board m fuel false) releasePhysicalPage table index)
            (OwnsSlot m table index)
            (eraseSlot board (fun page => erasePageTable board satp fuel page false)
              releasePhysicalPage table mem index) := by
        apply eraseSlot_settles agrees
        · exact (wellFormed.entries path table index walk_eq).imp_right (Or.imp_right And.left)
        · intro next child_eq mem agrees
          have next_eq : walk m root (path ++ [index]) = some next :=
            (walk_concat walk_eq index).trans child_eq
          exact ih next_eq (by rw [length_append, length_singleton]; omega) false agrees
      have slots := Settles.foldlM m (List.finRange 512)
        ((nodup_finRange 512).imp fun different a => wellFormed.slots_apart walk_eq different)
        (fun index _ => slot index) fun index _ a inside => agrees a (owns_of_slot inside)
      have whole := slots.bind fun mem' _ => releasePage_settles board mem' aligned (Owns m table)
      refine whole.mono ?_ rfl ?_
      · rw [busy_iff]
        simp [notInUse]
      · rintro a (⟨index, -, inside⟩ | inside)
        · exact owns_of_slot inside
        · exact inside

theorem erasePageTable_root {root fuel : Nat} (board : Board) (satp : Nat)
    (wellFormed : WellFormed mem.bytes root) (enough : 3 ≤ fuel) (releasePhysicalPage : Bool) :
    Settles mem (Busy mem.bytes satp root) (dues board mem.bytes fuel releasePhysicalPage root)
      (Owns mem.bytes root) (erasePageTable board satp fuel root releasePhysicalPage mem) := by
  have root_eq : walk mem.bytes root [] = some root := rfl
  exact erasePageTable_settles board wellFormed fuel root_eq enough releasePhysicalPage fun _ _ => rfl

end Erasure

/-! ## The pages of a tree -/

inductive Holder where
  | table (path : Path)
  | leaf (path : Path) (index : Fin 512)

namespace Holder

def page (m : Bytes) (root : Nat) : Holder → Option Nat
  | table path => walk m root path
  | leaf path index => (walk m root path).bind fun table =>
    if IsLeaf (entryAt m table index) then some (pteAddress (entryAt m table index)) else none

def below (index : Fin 512) : Holder → Holder
  | table path => table (index :: path)
  | leaf path index' => leaf (index :: path) index'

def slot : Holder → Option (Fin 512)
  | table path => path.head?
  | leaf path index => some (path.headD index)

def Released (releasePhysicalPage : Bool) : Holder → Prop
  | table _ => True
  | leaf path _ => releasePhysicalPage = true ∧ path = []

variable {m : Bytes} {table next : Nat} {index : Fin 512}

theorem page_below (child_eq : child m table index = some next) (holder : Holder) :
    (holder.below index).page m table = holder.page m next := by
  cases holder with
  | table path => simp only [below, page, walk, child_eq, Option.bind_some]
  | leaf path index' => simp only [below, page, walk, child_eq, Option.bind_some]

theorem below_injective (index : Fin 512) : Function.Injective (below index) := by
  rintro (path | ⟨path, i⟩) (path' | ⟨path', i'⟩) same
  · cases same
    rfl
  · cases same
  · cases same
  · cases same
    rfl

theorem slot_below (index : Fin 512) (holder : Holder) : (holder.below index).slot = some index := by
  cases holder with
  | table path => rfl
  | leaf path index' => rfl

theorem page_leaf_eq_some {path : Path} {root page : Nat} :
    (leaf path index).page m root = some page ↔ ∃ table, walk m root path = some table ∧
      IsLeaf (entryAt m table index) ∧ pteAddress (entryAt m table index) = page := by
  rw [Holder.page, Option.bind_eq_some_iff]
  simp only [Option.ite_none_right_eq_some, Option.some.injEq]

end Holder

def Due (board : Board) (m : Bytes) (root page : Nat) : Prop :=
  board.InPool page ∧ ∃ holder : Holder, holder.page m root = some page

def Separate (board : Board) (m : Bytes) (root : Nat) : Prop :=
  ∀ (holder holder' : Holder) page, board.InPool page → holder.page m root = some page →
    holder'.page m root = some page → holder = holder'

section Dues

variable {board : Board} {m : Bytes} {root table next page : Nat} {index : Fin 512} {fuel : Nat}
  {releasePhysicalPage : Bool}

theorem Separate.below (separate : Separate board m table) (child_eq : child m table index = some next) :
    Separate board m next := by
  intro holder holder' page inPool page_eq page_eq'
  rw [← Holder.page_below child_eq] at page_eq page_eq'
  exact Holder.below_injective index (separate _ _ page inPool page_eq page_eq')

theorem Board.mem_pooled {page' : Nat} : page' ∈ board.pooled page ↔ board.InPool page ∧ page' = page := by
  unfold Board.pooled
  split
  next inPool => simp [inPool]
  next outside => simp [outside]

theorem Board.nodup_pooled (board : Board) (page : Nat) : (board.pooled page).Nodup := by
  unfold Board.pooled
  split
  · exact nodup_singleton page
  · exact nodup_nil

theorem held_of_slotDues {below : Nat → List Nat}
    (held : ∀ next page, page ∈ below next → board.InPool page ∧
      ∃ holder : Holder, holder.page m next = some page ∧ holder.Released false)
    (pageMem : page ∈ slotDues board m below releasePhysicalPage table index) :
    board.InPool page ∧ ∃ holder : Holder, holder.page m table = some page ∧ holder.slot = some index ∧
      holder.Released releasePhysicalPage := by
  unfold slotDues at pageMem
  split at pageMem
  next leaf =>
    split at pageMem
    next release =>
      obtain ⟨inPool, rfl⟩ := Board.mem_pooled.1 pageMem
      exact ⟨inPool, .leaf [] index, Holder.page_leaf_eq_some.2 ⟨table, rfl, leaf, rfl⟩, rfl, release, rfl⟩
    · cases pageMem
  · cases child_eq : child m table index with
    | none =>
      rw [child_eq] at pageMem
      cases pageMem
    | some next =>
      rw [child_eq] at pageMem
      obtain ⟨inPool, holder, page_eq, released⟩ := held next page pageMem
      refine ⟨inPool, holder.below index, (Holder.page_below child_eq holder).trans page_eq,
        Holder.slot_below index holder, ?_⟩
      cases holder with
      | table path => trivial
      | leaf path index' => cases released.1

theorem held_of_dues (pageMem : page ∈ dues board m fuel releasePhysicalPage table) :
    board.InPool page ∧ ∃ holder : Holder, holder.page m table = some page ∧
      holder.Released releasePhysicalPage := by
  induction fuel generalizing table page releasePhysicalPage with
  | zero => cases pageMem
  | succ fuel ih =>
    rcases mem_append.1 pageMem with inSlot | isTable
    · obtain ⟨index, -, inSlot⟩ := mem_flatMap.1 inSlot
      obtain ⟨inPool, holder, page_eq, -, released⟩ := held_of_slotDues (fun next page => ih) inSlot
      exact ⟨inPool, holder, page_eq, released⟩
    · obtain ⟨inPool, rfl⟩ := Board.mem_pooled.1 isTable
      exact ⟨inPool, .table [], rfl, trivial⟩

theorem due_of_mem_dues (pageMem : page ∈ dues board m fuel releasePhysicalPage table) :
    Due board m table page := by
  obtain ⟨inPool, holder, page_eq, -⟩ := held_of_dues pageMem
  exact ⟨inPool, holder, page_eq⟩

theorem nodup_dues (separate : Separate board m table) :
    (dues board m fuel releasePhysicalPage table).Nodup := by
  induction fuel generalizing table releasePhysicalPage with
  | zero => exact nodup_nil
  | succ fuel ih =>
    have held {index page} := @held_of_slotDues board m table page index releasePhysicalPage
      (dues board m fuel false) fun next page => held_of_dues
    refine nodup_append'.2 ⟨nodup_flatMap.2 ⟨?_, ?_⟩, board.nodup_pooled table, ?_⟩
    · intro index _
      unfold slotDues
      split
      · split
        · exact board.nodup_pooled _
        · exact nodup_nil
      · cases child_eq : child m table index with
        | none => exact nodup_nil
        | some next => exact ih (separate.below child_eq)
    · refine (nodup_finRange 512).imp fun different page first second => ?_
      obtain ⟨inPool, holder, page_eq, slot_eq, -⟩ := held first
      obtain ⟨-, holder', page_eq', slot_eq', -⟩ := held second
      obtain rfl := separate holder holder' page inPool page_eq page_eq'
      exact different (Option.some.inj (slot_eq.symm.trans slot_eq'))
    · intro page inSlots isTable
      obtain ⟨inPool, rfl⟩ := Board.mem_pooled.1 isTable
      obtain ⟨index, -, inSlot⟩ := mem_flatMap.1 inSlots
      obtain ⟨-, holder, page_eq, slot_eq, -⟩ := held inSlot
      obtain rfl := separate holder (.table []) page inPool page_eq rfl
      cases slot_eq

theorem mem_dues_of_slot
    (pageMem : page ∈ slotDues board m (dues board m fuel false) releasePhysicalPage table index) :
    page ∈ dues board m (fuel + 1) releasePhysicalPage table :=
  mem_append_left _ (mem_flatMap.2 ⟨index, mem_finRange index, pageMem⟩)

theorem table_mem_dues (wellFormed : WellFormed m root) {front path : Path}
    (walk_eq : walk m root front = some table) (enough : 3 ≤ fuel + front.length)
    (path_eq : walk m table path = some page) (inPool : board.InPool page) :
    page ∈ dues board m fuel releasePhysicalPage table := by
  induction fuel generalizing front path table releasePhysicalPage with
  | zero =>
    have short := wellFormed.length_le walk_eq
    omega
  | succ fuel ih =>
    cases path with
    | nil =>
      cases path_eq
      exact mem_append_right _ (Board.mem_pooled.2 ⟨inPool, rfl⟩)
    | cons index path =>
      obtain ⟨next, child_eq, rest_eq⟩ := walk_cons_eq_some.1 path_eq
      have next_eq : walk m root (front ++ [index]) = some next :=
        (walk_concat walk_eq index).trans child_eq
      have deep : 3 ≤ fuel + (front ++ [index]).length := by
        rw [length_append, length_singleton]
        omega
      apply @mem_dues_of_slot _ _ _ _ index
      rw [slotDues, if_neg (child_eq_some child_eq).1, child_eq]
      exact ih next_eq deep rest_eq

theorem leaf_mem_dues (leaf : IsLeaf (entryAt m table index))
    (inPool : board.InPool (pteAddress (entryAt m table index))) :
    pteAddress (entryAt m table index) ∈ dues board m (fuel + 1) true table := by
  apply @mem_dues_of_slot _ _ _ _ index
  rw [slotDues, if_pos leaf, if_pos rfl]
  exact Board.mem_pooled.2 ⟨inPool, rfl⟩

end Dues

/-! ## Releasing a tree -/

/-- `ErasePageTable` with release returns, and puts the pages that are due into the pool,
each of them once. -/
def Releases (board : Board) (satp fuel : Nat) (mem : PhysMemory) (root : Nat) : Prop :=
  ∃ mem' released, erasePageTable board satp fuel root true mem = .ok mem' ∧
    mem'.memoryPool = released ++ mem.memoryPool ∧ released.Nodup ∧
    ∀ page, page ∈ released ↔ Due board mem.bytes root page

def HasRoom (board : Board) (mem : PhysMemory) (root : Nat) : Prop :=
  ∀ pages : List Nat, pages.Nodup → (∀ page ∈ pages, Due board mem.bytes root page) → mem.Fits pages

section Release

variable {board : Board} {satp fuel : Nat} {mem : PhysMemory} {root : Nat}

section

variable (wellFormed : WellFormed mem.bytes root)
include wellFormed

theorem mem_dues_iff (enough : 3 ≤ fuel)
    (shallow : ∀ path table index, walk mem.bytes root path = some table →
      IsLeaf (entryAt mem.bytes table index) → board.InPool (pteAddress (entryAt mem.bytes table index)) →
      path = []) (page : Nat) :
    page ∈ dues board mem.bytes fuel true root ↔ Due board mem.bytes root page := by
  constructor
  · exact due_of_mem_dues
  · rintro ⟨inPool, path | ⟨path, index⟩, page_eq⟩
    · have root_eq : walk mem.bytes root [] = some root := rfl
      exact table_mem_dues wellFormed root_eq enough page_eq inPool
    · obtain ⟨table, walk_eq, leaf, rfl⟩ := Holder.page_leaf_eq_some.1 page_eq
      obtain rfl := shallow path table index walk_eq leaf inPool
      cases walk_eq
      obtain ⟨fuel, rfl⟩ : ∃ rest, fuel = rest + 1 := ⟨fuel - 1, by omega⟩
      exact leaf_mem_dues leaf inPool

theorem dues_of_releases (enough : 3 ≤ fuel) (releases : Releases board satp fuel mem root) :
    ¬ Busy mem.bytes satp root ∧ mem.Fits (dues board mem.bytes fuel true root) ∧
      ∀ page, Due board mem.bytes root page → page ∈ dues board mem.bytes fuel true root := by
  obtain ⟨mem', released, erased, pool_eq, -, released_iff⟩ := releases
  have settles := erasePageTable_root board satp wellFormed enough true
  rw [erased] at settles
  cases settles with
  | returns free fits pool_eq' frame =>
    obtain rfl := append_cancel_right (pool_eq.symm.trans pool_eq')
    exact ⟨free, fits, fun page due => mem_reverse.1 ((released_iff page).2 due)⟩

theorem shallow_of_releases (separate : Separate board mem.bytes root) (enough : 3 ≤ fuel)
    (releases : Releases board satp fuel mem root) {path : Path} {table : Nat} {index : Fin 512}
    (walk_eq : walk mem.bytes root path = some table) (leaf : IsLeaf (entryAt mem.bytes table index))
    (inPool : board.InPool (pteAddress (entryAt mem.bytes table index))) : path = [] := by
  obtain ⟨-, -, all⟩ := dues_of_releases wellFormed enough releases
  have page_eq := Holder.page_leaf_eq_some.2 ⟨table, walk_eq, leaf, rfl⟩
  obtain ⟨-, holder, page_eq', released⟩ := held_of_dues (all _ ⟨inPool, _, page_eq⟩)
  obtain rfl := separate holder _ _ inPool page_eq' page_eq
  exact released.2

theorem hasRoom_of_releases (enough : 3 ≤ fuel) (releases : Releases board satp fuel mem root) :
    HasRoom board mem root := by
  obtain ⟨-, fits, all⟩ := dues_of_releases wellFormed enough releases
  intro pages nodup allDue nonempty
  have fewer := nodup.length_le_of_subset fun page pageMem => all page (allDue page pageMem)
  have room := fits (ne_nil_of_length_pos (lt_of_lt_of_le (length_pos_of_ne_nil nonempty) fewer))
  omega

omit wellFormed in
theorem Board.length_le_pageCount (board : Board) {pages : List Nat} (nodup : pages.Nodup)
    (pooled : ∀ page ∈ pages, board.InPool page ∧ page % 4096 = 0) : pages.length ≤ board.pageCount := by
  have subset : pages ⊆ (List.range board.pageCount).map fun i => board.kernelEnd + 4096 * i := by
    intro page pageMem
    obtain ⟨⟨lower, upper⟩, aligned⟩ := pooled page pageMem
    rw [mem_map]
    refine ⟨(page - board.kernelEnd) / 4096, mem_range.2 ?_, ?_⟩
    · cases board <;> simp only [Board.kernelEnd, Board.pageCount] at lower upper ⊢ <;> omega
    · cases board <;> simp only [Board.kernelEnd] at lower ⊢ <;> omega
  have fewer := nodup.length_le_of_subset subset
  rwa [length_map, length_range] at fewer

theorem Due.aligned {page : Nat} (due : Due board mem.bytes root page) : page % 4096 = 0 := by
  obtain ⟨-, path | ⟨path, index⟩, page_eq⟩ := due
  · exact (wellFormed.aligned path page page_eq).1
  · obtain ⟨table, -, -, rfl⟩ := Holder.page_leaf_eq_some.1 page_eq
    unfold pteAddress
    omega

theorem hasRoom_of_allocated (free : mem.memoryPool.Nodup)
    (pooled : ∀ page ∈ mem.memoryPool, board.InPool page ∧ page % 4096 = 0)
    (allocated : ∀ page ∈ mem.memoryPool, ¬ Due board mem.bytes root page) : HasRoom board mem root := by
  intro pages nodup allDue _
  have apart : (mem.memoryPool ++ pages).Nodup := nodup_append'.2
    ⟨free, nodup, fun page isFree pageMem => allocated page isFree (allDue page pageMem)⟩
  have few := board.length_le_pageCount apart fun page pageMem => by
    rcases mem_append.1 pageMem with isFree | isDue
    · exact pooled page isFree
    · exact ⟨(allDue page isDue).1, (allDue page isDue).aligned wellFormed⟩
  have bound : board.pageCount ≤ 2048 := by cases board <;> decide
  rw [length_append] at few
  omega

theorem erasePageTable_returns (separate : Separate board mem.bytes root) (enough : 3 ≤ fuel)
    (free : ∀ path, walk mem.bytes root path ≠ some (calculateTableBaseBySatp satp))
    (room : HasRoom board mem root) :
    ∃ mem', erasePageTable board satp fuel root true mem = .ok mem' ∧
      mem'.memoryPool = (dues board mem.bytes fuel true root).reverse ++ mem.memoryPool := by
  have settles := erasePageTable_root board satp wellFormed enough true
  generalize erasePageTable board satp fuel root true mem = outcome at settles ⊢
  cases settles with
  | stops halt stuck =>
    have fits : mem.Fits (dues board mem.bytes fuel true root) :=
      room _ (nodup_dues separate) fun _ => due_of_mem_dues
    exact absurd (stuck fits) (not_exists.2 free)
  | returns _ _ pool_eq frame => exact ⟨_, rfl, pool_eq⟩

end

/-- A tree is released exactly if no table of it is in use, no leaf below the root maps
a page of the pool, and `memory_pool` has room for the pages. -/
theorem releases_iff (wellFormed : WellFormed mem.bytes root) (separate : Separate board mem.bytes root)
    (satp : Nat) (enough : 3 ≤ fuel) :
    Releases board satp fuel mem root ↔
      (∀ path, walk mem.bytes root path ≠ some (calculateTableBaseBySatp satp)) ∧
      (∀ path table index, walk mem.bytes root path = some table → IsLeaf (entryAt mem.bytes table index) →
        board.InPool (pteAddress (entryAt mem.bytes table index)) → path = []) ∧
      HasRoom board mem root := by
  constructor
  · intro releases
    refine ⟨not_exists.1 (dues_of_releases wellFormed enough releases).1, ?_,
      hasRoom_of_releases wellFormed enough releases⟩
    intro path table index walk_eq leaf inPool
    exact shallow_of_releases wellFormed separate enough releases walk_eq leaf inPool
  · rintro ⟨free, shallow, room⟩
    obtain ⟨mem', erased, pool_eq⟩ := erasePageTable_returns wellFormed separate enough free room
    refine ⟨mem', _, erased, pool_eq, nodup_reverse.2 (nodup_dues separate), fun page => ?_⟩
    rw [mem_reverse]
    exact mem_dues_iff wellFormed enough shallow page

end Release

/-! ## One mapping -/

def oneMapping (page : Nat) : PhysMemory where
  bytes :=
    writeWord (writeWord (writeWord (fun _ => 0)
      0x80200008 (calcPpn 0x80201000 ||| nonLeafAttributes .user))
      0x80201000 (calcPpn 0x80202000 ||| nonLeafAttributes .user))
      0x80202008 (calcPpn page ||| leafAttributes .user)
  memoryPool := [0x80100000]

def oneTables : List (Path × Nat) :=
  [([], 0x80200000), ((indices 0x40001).take 1, 0x80201000), ((indices 0x40001).take 2, 0x80202000)]

theorem oneTables_eq : oneTables = [([], 0x80200000), ([1], 0x80201000), ([1, 0], 0x80202000)] := rfl

section Mapping

theorem readWord_writeWord_of_aligned (m : Bytes) {address other value : Nat} (value_lt : value < 2 ^ 64)
    (aligned : address % 8 = 0) (aligned' : other % 8 = 0) :
    readWord (writeWord m address value) other = if other = address then value else readWord m other := by
  split
  next same => rw [same, readWord_writeWord m address value_lt]
  next different => exact readWord_writeWord_of_disjoint m value (by omega)

variable {page table : Nat} {path : Path} (sample : page = 0x38001000 ∨ page = 0x80203000)
include sample

theorem entryAt_oneMapping (aligned : table % 4096 = 0) (index : Fin 512) :
    entryAt (oneMapping page).bytes table index =
      if table + 8 * index = 0x80202008 then calcPpn page ||| leafAttributes .user
      else if table + 8 * index = 0x80201000 then calcPpn 0x80202000 ||| nonLeafAttributes .user
      else if table + 8 * index = 0x80200008 then calcPpn 0x80201000 ||| nonLeafAttributes .user
      else 0 := by
  have slot_aligned : (table + 8 * index) % 8 = 0 := by omega
  unfold entryAt oneMapping
  dsimp only
  rw [readWord_writeWord_of_aligned _ (leaf_pte .user (by omega) (by omega)).2.2.2 rfl slot_aligned,
    readWord_writeWord_of_aligned _ (by decide) rfl slot_aligned,
    readWord_writeWord_of_aligned _ (by decide) rfl slot_aligned,
    show readWord (fun _ => 0) (table + 8 * index) = 0 from readLE_eq_zero fun _ _ _ => rfl]

theorem oneMapping_entries : ∀ node ∈ oneTables, ∀ index : Fin 512,
    let entry := entryAt (oneMapping page).bytes node.2 index
    entry = 0 ∨ (IsLeaf entry ∧ pteAddress entry = page ∧ node.1 = [1, 0] ∧ index = 1) ∨
      (IsPointer entry ∧ (node.1 ++ [index], pteAddress entry) ∈ oneTables) := by
  intro node tabled index
  have index_lt := index.isLt
  have shapes : ∀ node ∈ oneTables, node.2 % 4096 = 0 := by decide
  rw [entryAt_oneMapping sample (shapes node tabled)]
  simp only [oneTables_eq, mem_cons, not_mem_nil, or_false] at tabled
  rcases tabled with rfl | rfl | rfl <;> dsimp only
  · rw [if_neg (by omega), if_neg (by omega)]
    split
    next here =>
      obtain rfl : index = 1 := Fin.ext (by omega)
      exact .inr (.inr (by decide))
    · exact .inl rfl
  · rw [if_neg (by omega)]
    split
    next here =>
      obtain rfl : index = 0 := Fin.ext (by omega)
      exact .inr (.inr (by decide))
    · exact .inl (if_neg (by omega))
  · split
    next here =>
      obtain rfl : index = 1 := Fin.ext (by omega)
      exact .inr (.inl (by rcases sample with rfl | rfl <;> decide))
    · exact .inl ((if_neg (by omega)).trans (if_neg (by omega)))

theorem oneTables_of_walk {front : Path} {other : Nat} (tabled : (front, table) ∈ oneTables)
    (walk_eq : walk (oneMapping page).bytes table path = some other) : (front ++ path, other) ∈ oneTables := by
  induction path generalizing front table with
  | nil =>
    cases walk_eq
    rwa [append_nil]
  | cons index path ih =>
    obtain ⟨next, child_eq, rest_eq⟩ := walk_cons_eq_some.1 walk_eq
    obtain ⟨notLeaf, rfl⟩ := child_eq_some child_eq
    rcases oneMapping_entries sample _ tabled index with empty | ⟨leaf, -⟩ | ⟨-, tabled'⟩
    · dsimp only at empty
      rw [child, empty, if_neg not_isPointer_zero] at child_eq
      cases child_eq
    · exact absurd leaf notLeaf
    · rw [append_cons]
      exact ih tabled' rest_eq

theorem oneMapping_tables (walk_eq : walk (oneMapping page).bytes 0x80200000 path = some table) :
    (path, table) ∈ oneTables :=
  oneTables_of_walk sample (mem_cons_self : ([], 0x80200000) ∈ oneTables) walk_eq

omit sample in
theorem path_of_oneTables : ∀ node ∈ oneTables, ∀ node' ∈ oneTables, node.2 = node'.2 → node.1 = node'.1 := by
  decide

theorem oneMapping_wellFormed : WellFormed (oneMapping page).bytes 0x80200000 := by
  have shapes : ∀ node ∈ oneTables, (node.2 % 4096 = 0 ∧ node.2 < 2 ^ 64) ∧ node.1.length ≤ 2 := by decide
  refine ⟨?_, ?_, ?_⟩
  · intro path table walk_eq
    exact (shapes _ (oneMapping_tables sample walk_eq)).1
  · intro path path' table walk_eq walk_eq'
    exact path_of_oneTables _ (oneMapping_tables sample walk_eq) _ (oneMapping_tables sample walk_eq') rfl
  · intro path table index walk_eq
    rcases oneMapping_entries sample _ (oneMapping_tables sample walk_eq) index with
      empty | ⟨leaf, -⟩ | ⟨pointer, tabled⟩
    · exact .inl empty
    · exact .inr (.inl leaf)
    · have short := (shapes _ tabled).2
      rw [length_append, length_singleton] at short
      exact .inr (.inr ⟨pointer, Nat.lt_of_succ_le short⟩)

theorem oneMapping_holders {holder : Holder} {held : Nat}
    (page_eq : holder.page (oneMapping page).bytes 0x80200000 = some held) :
    (∃ path, holder = .table path ∧ (path, held) ∈ oneTables) ∨ (holder = .leaf [1, 0] 1 ∧ held = page) := by
  cases holder with
  | table path => exact .inl ⟨path, rfl, oneMapping_tables sample page_eq⟩
  | leaf path index =>
    obtain ⟨table, walk_eq, leaf, rfl⟩ := Holder.page_leaf_eq_some.1 page_eq
    rcases oneMapping_entries sample _ (oneMapping_tables sample walk_eq) index with
      empty | ⟨-, address_eq, path_eq, rfl⟩ | ⟨pointer, -⟩
    · rw [empty] at leaf
      exact absurd leaf not_isLeaf_zero
    · exact .inr ⟨congrArg (Holder.leaf · 1) path_eq, address_eq⟩
    · exact absurd leaf pointer.not_isLeaf

theorem oneMapping_apart : (path, page) ∉ oneTables := by
  rcases sample with rfl | rfl <;> simp [oneTables_eq]

theorem oneMapping_separate (board : Board) : Separate board (oneMapping page).bytes 0x80200000 := by
  intro holder holder' held _ page_eq page_eq'
  rcases oneMapping_holders sample page_eq with ⟨path, rfl, tabled⟩ | ⟨rfl, rfl⟩
  · rcases oneMapping_holders sample page_eq' with ⟨path', rfl, tabled'⟩ | ⟨rfl, rfl⟩
    · exact congrArg _ (path_of_oneTables _ tabled _ tabled' rfl)
    · exact absurd tabled (oneMapping_apart sample)
  · rcases oneMapping_holders sample page_eq' with ⟨path', rfl, tabled'⟩ | ⟨rfl, -⟩
    · exact absurd tabled' (oneMapping_apart sample)
    · rfl

theorem oneMapping_room : HasRoom .k210 (oneMapping page) 0x80200000 := by
  have isFree : ∀ free ∈ (oneMapping page).memoryPool, free = 0x80100000 := fun free => mem_singleton.1
  apply hasRoom_of_allocated (oneMapping_wellFormed sample) (nodup_singleton _)
  · intro free freeMem
    rw [isFree free freeMem]
    decide
  · rintro free freeMem ⟨-, holder, page_eq⟩
    rw [isFree free freeMem] at page_eq
    rcases oneMapping_holders sample page_eq with ⟨path, -, tabled⟩ | ⟨-, same⟩
    · simp [oneTables_eq] at tabled
    · omega

theorem oneMapping_idle (path : Path) :
    walk (oneMapping page).bytes 0x80200000 path ≠ some (calculateTableBaseBySatp 0) := by
  intro inUse
  have tabled := oneMapping_tables sample inUse
  simp [oneTables_eq, calculateTableBaseBySatp] at tabled

omit sample

theorem releases_oneMapping : Releases .k210 0 3 (oneMapping 0x38001000) 0x80200000 := by
  have sample : 0x38001000 = 0x38001000 ∨ 0x38001000 = 0x80203000 := .inl rfl
  refine (releases_iff (oneMapping_wellFormed sample) (oneMapping_separate sample .k210) 0 (le_refl 3)).2
    ⟨oneMapping_idle sample, ?_, oneMapping_room sample⟩
  intro path table index walk_eq leaf inPool
  rcases oneMapping_holders sample (Holder.page_leaf_eq_some.2 ⟨table, walk_eq, leaf, rfl⟩) with
    ⟨_, isTable, -⟩ | ⟨-, page_eq⟩
  · cases isTable
  · rw [page_eq] at inPool
    exact absurd inPool (by decide)

theorem not_releases_oneMapping :
    WellFormed (oneMapping 0x80203000).bytes 0x80200000 ∧
    Separate .k210 (oneMapping 0x80203000).bytes 0x80200000 ∧
    Due .k210 (oneMapping 0x80203000).bytes 0x80200000 0x80203000 ∧
    (∀ fuel, 3 ≤ fuel → ∃ mem',
      erasePageTable .k210 0 fuel 0x80200000 true (oneMapping 0x80203000) = .ok mem' ∧
        0x80203000 ∉ mem'.memoryPool) ∧
    ∀ fuel, 3 ≤ fuel → ¬ Releases .k210 0 fuel (oneMapping 0x80203000) 0x80200000 := by
  have sample : 0x80203000 = 0x38001000 ∨ 0x80203000 = 0x80203000 := .inr rfl
  have wellFormed := oneMapping_wellFormed sample
  have separate := oneMapping_separate sample .k210
  have walk_eq : walk (oneMapping 0x80203000).bytes 0x80200000 [1, 0] = some 0x80202000 := by decide
  have entry_eq : entryAt (oneMapping 0x80203000).bytes 0x80202000 1 = 0x20080cdf := by decide
  have leaf : IsLeaf (entryAt (oneMapping 0x80203000).bytes 0x80202000 1) := by
    rw [entry_eq]
    decide
  have address_eq : pteAddress (entryAt (oneMapping 0x80203000).bytes 0x80202000 1) = 0x80203000 := by
    rw [entry_eq]
    rfl
  have due : Due .k210 (oneMapping 0x80203000).bytes 0x80200000 0x80203000 :=
    ⟨by decide, .leaf [1, 0] 1, Holder.page_leaf_eq_some.2 ⟨_, walk_eq, leaf, address_eq⟩⟩
  refine ⟨wellFormed, separate, due, ?_, ?_⟩
  · intro fuel enough
    obtain ⟨mem', erased, pool_eq⟩ := erasePageTable_returns wellFormed separate enough
      (oneMapping_idle sample) (oneMapping_room sample)
    refine ⟨mem', erased, fun pageMem => ?_⟩
    rw [pool_eq, mem_append, mem_reverse] at pageMem
    rcases pageMem with isDue | isFree
    · obtain ⟨-, holder, page_eq, released⟩ := held_of_dues isDue
      rcases oneMapping_holders sample page_eq with ⟨path, -, tabled⟩ | ⟨rfl, -⟩
      · exact absurd tabled (oneMapping_apart sample)
      · cases released.2
    · exact absurd (mem_singleton.1 isFree) (by decide)
  · intro fuel enough releases
    cases shallow_of_releases wellFormed separate enough releases walk_eq leaf (by rw [address_eq]; decide)

end Mapping

end SysCore.Paging
