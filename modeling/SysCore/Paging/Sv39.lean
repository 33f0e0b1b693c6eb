import SysCore.Memory.Bytes
import Mathlib.Data.List.Basic

/-!
# Three-level page tables

Sv39 page tables as the hardware reads them from byte memory.  `walk` follows
pointer entries along a path of indices, `lookup` stops at the first leaf and
says how many levels it skipped, and `translate` turns that into a physical
address.

A well-formed table is a tree: different paths lead to different table pages.
Two edits keep it one, hanging an empty table page into an empty slot
(`Graft`), and filling an empty slot of the last level (`Plant`).  `Space`
packages what a table maps and which pages it consists of.
-/

namespace SysCore.Paging

open Memory List

def pteAddress (pte : Nat) : Nat :=
  pte / 2 ^ 10 * 2 ^ 12 % 2 ^ 64

def IsLeaf (pte : Nat) : Prop :=
  pte % 2 = 1 ∧ pte / 2 % 8 ≠ 0

def IsPointer (pte : Nat) : Prop :=
  pte % 2 = 1 ∧ pte / 2 % 8 = 0

instance (pte : Nat) : Decidable (IsLeaf pte) :=
  inferInstanceAs (Decidable (_ ∧ _))

instance (pte : Nat) : Decidable (IsPointer pte) :=
  inferInstanceAs (Decidable (_ ∧ _))

theorem not_isPointer_zero : ¬ IsPointer 0 := by decide

theorem not_isLeaf_zero : ¬ IsLeaf 0 := by decide

theorem IsLeaf.not_isPointer {pte : Nat} (leaf : IsLeaf pte) : ¬ IsPointer pte :=
  fun pointer => leaf.2 pointer.2

theorem IsPointer.not_isLeaf {pte : Nat} (pointer : IsPointer pte) : ¬ IsLeaf pte :=
  fun leaf => leaf.2 pointer.2

abbrev Path := List (Fin 512)

section Reading

variable (m : Bytes)

def entryAt (table : Nat) (index : Fin 512) : Nat :=
  readWord m (table + 8 * index)

def child (table : Nat) (index : Fin 512) : Option Nat :=
  if IsPointer (entryAt m table index) then some (pteAddress (entryAt m table index)) else none

def walk : (table : Nat) → Path → Option Nat
  | table, [] => some table
  | table, index :: path => (child m table index).bind fun next => walk next path

def lookup : (table : Nat) → Path → Option (Nat × Nat)
  | _, [] => none
  | table, index :: path =>
    if IsLeaf (entryAt m table index) then
      some (entryAt m table index, path.length)
    else
      (child m table index).bind fun next => lookup next path

end Reading

def vpnOf (va : Nat) : Nat :=
  va / 2 ^ 12 % 2 ^ 27

def indices (vpn : Nat) : Path :=
  [Fin.ofNat 512 (vpn / 2 ^ 18), Fin.ofNat 512 (vpn / 2 ^ 9), Fin.ofNat 512 vpn]

@[simp]
theorem length_indices (vpn : Nat) : (indices vpn).length = 3 := rfl

theorem eq_of_indices_eq {first second : Nat} (first_lt : first < 2 ^ 27)
    (second_lt : second < 2 ^ 27) (indices_eq : indices first = indices second) :
    first = second := by
  simp only [indices, List.cons.injEq, Fin.ext_iff, Fin.val_ofNat, and_true] at indices_eq
  omega

theorem vpnOf_lt (va : Nat) : vpnOf va < 2 ^ 27 :=
  Nat.mod_lt _ (by decide)

def leafSize (level : Nat) : Nat :=
  4096 * 512 ^ level

def leafTarget (va : Nat) (leaf : Nat × Nat) : Option (Nat × Nat) :=
  if pteAddress leaf.1 % leafSize leaf.2 = 0 then
    some (pteAddress leaf.1 + va % leafSize leaf.2, leaf.1 % 2 ^ 10)
  else
    none

def translate (m : Bytes) (root va : Nat) : Option (Nat × Nat) :=
  (lookup m root (indices (vpnOf va))).bind (leafTarget va)

theorem translate_mod {m : Bytes} {root va pa attributes : Nat}
    (translate_eq : translate m root va = some (pa, attributes)) : pa % 4096 = va % 4096 := by
  obtain ⟨⟨pte, level⟩, _, target_eq⟩ := Option.bind_eq_some_iff.1 translate_eq
  unfold leafTarget at target_eq
  split at target_eq
  next aligned =>
    cases target_eq
    have unit : 4096 ∣ leafSize level := Nat.dvd_mul_right 4096 _
    have page : pteAddress pte % 4096 = 0 :=
      Nat.mod_eq_zero_of_dvd (unit.trans (Nat.dvd_of_mod_eq_zero aligned))
    have offset : va % leafSize level % 4096 = va % 4096 := Nat.mod_mod_of_dvd va unit
    dsimp only
    omega
  · cases target_eq

section Walk

variable {m : Bytes} {root : Nat}

theorem walk_append (path rest : Path) :
    walk m root (path ++ rest) = (walk m root path).bind fun table => walk m table rest := by
  induction path generalizing root with
  | nil => rfl
  | cons index path ih =>
    cases next_eq : child m root index with
    | none => simp [walk, next_eq]
    | some next => simp [walk, next_eq, ih]

theorem walk_concat {path : Path} {table : Nat} (walk_eq : walk m root path = some table)
    (index : Fin 512) : walk m root (path ++ [index]) = child m table index := by
  cases next_eq : child m table index <;> simp [walk_append, walk_eq, walk, next_eq]

theorem lookup_append {path rest : Path} {table : Nat} (walk_eq : walk m root path = some table) :
    lookup m root (path ++ rest) = lookup m table rest := by
  induction path generalizing root with
  | nil =>
    cases walk_eq
    rfl
  | cons index path ih =>
    obtain ⟨next, next_eq, rest_eq⟩ := Option.bind_eq_some_iff.1 walk_eq
    have notLeaf : ¬ IsLeaf (entryAt m root index) := by
      intro leaf
      simp [child, leaf.not_isPointer] at next_eq
    simpa [lookup, notLeaf, next_eq] using ih rest_eq

theorem ne_of_stuck {front path : Path} (rest : Path) {other table : Nat} {index index' : Fin 512}
    (front_eq : walk m root front = some other) (stuck : child m other index' = none)
    (walk_eq : walk m root path = some table) (elsewhere : ¬ (other = table ∧ index' = index)) :
    front ++ index' :: rest ≠ path ++ [index] := by
  intro same
  rcases eq_nil_or_concat rest with rfl | ⟨middle, last, rfl⟩
  · obtain ⟨rfl, last_eq⟩ := append_inj' same rfl
    have other_eq := Option.some.inj (front_eq.symm.trans walk_eq)
    exact elsewhere ⟨other_eq, by simpa using last_eq⟩
  · have regrouped : (front ++ index' :: middle) ++ [last] = path ++ [index] := by
      simpa using same
    rw [← (append_inj' regrouped rfl).1, walk_append, front_eq] at walk_eq
    simp [walk, stuck] at walk_eq

theorem walk_lookup_congr {m' : Bytes} (agree : ∀ path table, walk m root path = some table →
      ∀ index, entryAt m' table index = entryAt m table index) (path : Path) :
    walk m' root path = walk m root path ∧ lookup m' root path = lookup m root path := by
  induction path generalizing root with
  | nil => exact ⟨rfl, rfl⟩
  | cons index path ih =>
    have entry_eq := agree [] root rfl index
    have child_eq : child m' root index = child m root index := by
      simp [child, entry_eq]
    cases next_eq : child m root index with
    | none => simp [walk, lookup, child_eq, entry_eq, next_eq]
    | some next =>
      have below := @ih next fun path table walk_eq =>
        agree (index :: path) table (by simpa [walk, next_eq] using walk_eq)
      simp [walk, lookup, child_eq, entry_eq, next_eq, below.1, below.2]

end Walk

structure WellFormed (m : Bytes) (root : Nat) : Prop where
  aligned : ∀ path table, walk m root path = some table → table % 4096 = 0 ∧ table < 2 ^ 64
  distinct : ∀ path path' table,
    walk m root path = some table → walk m root path' = some table → path = path'
  entries : ∀ path table index, walk m root path = some table →
    entryAt m table index = 0 ∨ IsLeaf (entryAt m table index) ∨
      (IsPointer (entryAt m table index) ∧ path.length < 2)

namespace WellFormed

variable {m m' : Bytes} {root : Nat}

theorem length_le (wellFormed : WellFormed m root) {path : Path} {table : Nat}
    (walk_eq : walk m root path = some table) : path.length ≤ 2 := by
  rcases eq_nil_or_concat path with rfl | ⟨front, index, rfl⟩
  · simp
  · rw [concat_eq_append, walk_append] at walk_eq
    obtain ⟨parent, parent_eq, child_eq⟩ := Option.bind_eq_some_iff.1 walk_eq
    rcases wellFormed.entries front parent index parent_eq with empty | leaf | ⟨_, shallow⟩
    · simp [walk, child, empty, not_isPointer_zero] at child_eq
    · simp [walk, child, leaf.not_isPointer] at child_eq
    · simp
      omega

theorem congr (wellFormed : WellFormed m root)
    (agree : ∀ path table, walk m root path = some table →
      ∀ index, entryAt m' table index = entryAt m table index) : WellFormed m' root := by
  have same := fun path => (walk_lookup_congr agree path).1
  refine ⟨?_, ?_, ?_⟩
  · intro path table walk_eq
    exact wellFormed.aligned path table (same path ▸ walk_eq)
  · intro path path' table walk_eq walk_eq'
    exact wellFormed.distinct path path' table (same path ▸ walk_eq) (same path' ▸ walk_eq')
  · intro path table index walk_eq
    rw [same path] at walk_eq
    rw [agree path table walk_eq index]
    exact wellFormed.entries path table index walk_eq

end WellFormed

structure Graft (m m' : Bytes) (root : Nat) (path : Path) (table : Nat) (index : Fin 512)
    (page : Nat) : Prop where
  walk_eq : walk m root path = some table
  shallow : path.length < 2
  empty : entryAt m table index = 0
  fresh : ∀ path table, walk m root path = some table → table ≠ page
  aligned : page % 4096 = 0 ∧ page < 2 ^ 64
  others : ∀ path' other, walk m root path' = some other → ∀ index',
    ¬ (other = table ∧ index' = index) → entryAt m' other index' = entryAt m other index'
  pointer : child m' table index = some page
  cleared : ∀ index', entryAt m' page index' = 0

namespace Graft

variable {m m' : Bytes} {root table page : Nat} {path : Path} {index : Fin 512}

variable (graft : Graft m m' root path table index page)
include graft

theorem child_eq_none : child m table index = none := by
  simp [child, graft.empty, not_isPointer_zero]

theorem walk_from (wellFormed : WellFormed m root) (rest : Path) {front : Path} {other : Nat}
    (front_eq : walk m root front = some other) :
    walk m' other rest = if front ++ rest = path ++ [index] then some page
      else walk m other rest := by
  induction rest generalizing front other with
  | nil =>
    have different : front ≠ path ++ [index] := by
      rintro rfl
      rw [walk_concat graft.walk_eq, graft.child_eq_none] at front_eq
      cases front_eq
    simp [walk, different]
  | cons index' rest ih =>
    by_cases here : other = table ∧ index' = index
    · -- the slot that was empty
      obtain ⟨rfl, rfl⟩ := here
      obtain rfl : front = path := wellFormed.distinct _ _ _ front_eq graft.walk_eq
      cases rest with
      | nil => simp [walk, graft.pointer]
      | cons next rest =>
        have stuck : child m' page next = none := by
          simp [child, graft.cleared, not_isPointer_zero]
        simp [walk, graft.pointer, stuck, graft.child_eq_none]
    · have entry_eq := graft.others front other front_eq index' here
      have child_eq : child m' other index' = child m other index' := by
        simp [child, entry_eq]
      cases next_eq : child m other index' with
      | none =>
        have different := ne_of_stuck rest front_eq next_eq graft.walk_eq here
        simp [walk, child_eq, next_eq, different]
      | some next =>
        have next_walk : walk m root (front ++ [index']) = some next := by
          rw [walk_concat front_eq, next_eq]
        simpa [walk, child_eq, next_eq] using ih next_walk

theorem walk_eq_ite (wellFormed : WellFormed m root) (other : Path) :
    walk m' root other = if other = path ++ [index] then some page else walk m root other := by
  simpa using graft.walk_from wellFormed other (show walk m root [] = some root from rfl)

theorem lookup_from (rest : Path) {front : Path} {other : Nat} (front_eq : walk m root front = some other) :
    lookup m' other rest = lookup m other rest := by
  induction rest generalizing front other with
  | nil => rfl
  | cons index' rest ih =>
    by_cases here : other = table ∧ index' = index
    · obtain ⟨rfl, rfl⟩ := here
      have notLeaf : ¬ IsLeaf (entryAt m' other index') := by
        intro leaf
        have pointer := graft.pointer
        simp [child, leaf.not_isPointer] at pointer
      have nothing : lookup m' page rest = none := by
        cases rest with
        | nil => rfl
        | cons next rest => simp [lookup, child, graft.cleared, not_isPointer_zero, not_isLeaf_zero]
      simp [lookup, notLeaf, graft.pointer, nothing, graft.empty, not_isLeaf_zero,
        graft.child_eq_none]
    · have entry_eq := graft.others front other front_eq index' here
      have child_eq : child m' other index' = child m other index' := by
        simp [child, entry_eq]
      cases next_eq : child m other index' with
      | none => simp [lookup, child_eq, entry_eq, next_eq]
      | some next =>
        have next_walk : walk m root (front ++ [index']) = some next := by
          rw [walk_concat front_eq, next_eq]
        simp [lookup, child_eq, entry_eq, next_eq, ih next_walk]

theorem wellFormed (before : WellFormed m root) : WellFormed m' root := by
  have walks := graft.walk_eq_ite before
  refine ⟨?_, ?_, ?_⟩
  · intro other reached reach_eq
    rw [walks other] at reach_eq
    split at reach_eq
    · cases reach_eq
      exact graft.aligned
    · exact before.aligned other reached reach_eq
  · intro first second reached first_eq second_eq
    rw [walks first] at first_eq
    rw [walks second] at second_eq
    split at first_eq <;> split at second_eq
    next isFirst isSecond => rw [isFirst, isSecond]
    next => exact absurd (Option.some.inj first_eq).symm (graft.fresh second reached second_eq)
    next => exact absurd (Option.some.inj second_eq).symm (graft.fresh first reached first_eq)
    next => exact before.distinct first second reached first_eq second_eq
  · intro other reached index' reach_eq
    rw [walks other] at reach_eq
    split at reach_eq
    · cases reach_eq
      exact .inl (graft.cleared index')
    · by_cases here : reached = table ∧ index' = index
      · obtain ⟨rfl, rfl⟩ := here
        obtain rfl : other = path := before.distinct _ _ _ reach_eq graft.walk_eq
        have pointer : IsPointer (entryAt m' reached index') := by
          by_contra notPointer
          have pointer := graft.pointer
          simp [child, notPointer] at pointer
        exact .inr (.inr ⟨pointer, graft.shallow⟩)
      · rw [graft.others other reached reach_eq index' here]
        exact before.entries other reached index' reach_eq

end Graft

structure Plant (m m' : Bytes) (root : Nat) (path : Path) (table : Nat) (index : Fin 512)
    (pte : Nat) : Prop where
  walk_eq : walk m root path = some table
  empty : entryAt m table index = 0
  leaf : IsLeaf pte
  others : ∀ path' other, walk m root path' = some other → ∀ index',
    ¬ (other = table ∧ index' = index) → entryAt m' other index' = entryAt m other index'
  planted : entryAt m' table index = pte

namespace Plant

variable {m m' : Bytes} {root table pte : Nat} {path : Path} {index : Fin 512} {other : Nat}
  {front : Path}

variable (plant : Plant m m' root path table index pte)
include plant

theorem child_eq (front_eq : walk m root front = some other) (index' : Fin 512) :
    child m' other index' = child m other index' := by
  by_cases here : other = table ∧ index' = index
  · obtain ⟨rfl, rfl⟩ := here
    simp [child, plant.planted, plant.empty, plant.leaf.not_isPointer, not_isPointer_zero]
  · simp [child, plant.others front other front_eq index' here]

theorem walk_from (rest : Path) (front_eq : walk m root front = some other) :
    walk m' other rest = walk m other rest := by
  induction rest generalizing front other with
  | nil => rfl
  | cons index' rest ih =>
    have same := plant.child_eq front_eq index'
    cases next_eq : child m other index' with
    | none => simp [walk, same, next_eq]
    | some next =>
      have next_walk : walk m root (front ++ [index']) = some next := by
        rw [walk_concat front_eq, next_eq]
      simp [walk, same, next_eq, ih next_walk]

theorem lookup_from (wellFormed : WellFormed m root) (deep : path.length = 2) (rest : Path)
    (front_eq : walk m root front = some other) (full : front.length + rest.length = 3) :
    lookup m' other rest = if front ++ rest = path ++ [index] then some (pte, 0)
      else lookup m other rest := by
  induction rest generalizing front other with
  | nil =>
    have short := wellFormed.length_le front_eq
    simp at full
    omega
  | cons index' rest ih =>
    by_cases here : other = table ∧ index' = index
    · obtain ⟨rfl, rfl⟩ := here
      obtain rfl : front = path := wellFormed.distinct _ _ _ front_eq plant.walk_eq
      obtain rfl : rest = [] := by
        simp only [length_cons] at full
        exact length_eq_zero_iff.1 (by omega)
      simp [lookup, plant.planted, plant.leaf]
    · have entry_eq := plant.others front other front_eq index' here
      have same := plant.child_eq front_eq index'
      cases next_eq : child m other index' with
      | none =>
        have different := ne_of_stuck rest front_eq next_eq plant.walk_eq here
        simp [lookup, same, entry_eq, next_eq, different]
      | some next =>
        have next_walk : walk m root (front ++ [index']) = some next := by
          rw [walk_concat front_eq, next_eq]
        have notLeaf : ¬ IsLeaf (entryAt m other index') := by
          intro leaf
          simp [child, leaf.not_isPointer] at next_eq
        have below := ih next_walk (by simpa [Nat.add_assoc, Nat.add_comm 1] using full)
        simpa [lookup, same, entry_eq, next_eq, notLeaf] using below

omit plant in
theorem lookup_root (plant : Plant m m' root [] root index pte) (wellFormed : WellFormed m root)
    (index' : Fin 512) (rest : Path) :
    lookup m' root (index' :: rest) = if index' = index then some (pte, rest.length)
      else lookup m root (index' :: rest) := by
  by_cases same : index' = index
  · subst same
    simp [lookup, plant.planted, plant.leaf]
  · have entry_eq := plant.others [] root rfl index' fun here => same here.2
    have child_eq := plant.child_eq (show walk m root [] = some root from rfl) index'
    cases next_eq : child m root index' with
    | none => simp [lookup, child_eq, entry_eq, next_eq, same]
    | some next =>
      -- no table below is the root, so all of their entries are kept
      have kept : ∀ path table, walk m next path = some table →
          ∀ index, entryAt m' table index = entryAt m table index := by
        intro path table walk_eq index''
        have from_root : walk m root (index' :: path) = some table := by
          simp [walk, next_eq, walk_eq]
        refine plant.others _ table from_root index'' fun here => ?_
        cases wellFormed.distinct _ [] _ from_root (here.1 ▸ rfl)
      simp [lookup, child_eq, entry_eq, next_eq, same, (walk_lookup_congr kept rest).2]

theorem wellFormed (before : WellFormed m root) : WellFormed m' root := by
  have walks : ∀ other, walk m' root other = walk m root other := fun other =>
    plant.walk_from other (show walk m root [] = some root from rfl)
  refine ⟨?_, ?_, ?_⟩
  · intro other reached reach_eq
    exact before.aligned other reached (walks other ▸ reach_eq)
  · intro first second reached first_eq second_eq
    exact before.distinct first second reached (walks first ▸ first_eq) (walks second ▸ second_eq)
  · intro other reached index' reach_eq
    rw [walks other] at reach_eq
    by_cases here : reached = table ∧ index' = index
    · obtain ⟨rfl, rfl⟩ := here
      exact .inr (.inl (plant.planted ▸ plant.leaf))
    · rw [plant.others other reached reach_eq index' here]
      exact before.entries other reached index' reach_eq

end Plant

structure Space (m : Bytes) (root : Nat) (view : Nat → Option (Nat × Nat)) (tables : List Nat) :
    Prop where
  wellFormed : WellFormed m root
  mem_tables : ∀ table, table ∈ tables ↔ ∃ path, walk m root path = some table
  view_eq : ∀ vpn < 2 ^ 27, view vpn = lookup m root (indices vpn)

namespace Space

variable {m m' : Bytes} {root : Nat} {view : Nat → Option (Nat × Nat)} {tables : List Nat} {table : Nat}
  {index : Fin 512}

section

variable (space : Space m root view tables)
include space

theorem aligned (tableMem : table ∈ tables) : table % 4096 = 0 ∧ table < 2 ^ 64 := by
  obtain ⟨path, walk_eq⟩ := (space.mem_tables table).1 tableMem
  exact space.wellFormed.aligned path table walk_eq

theorem root_mem : root ∈ tables :=
  (space.mem_tables root).2 ⟨[], rfl⟩

theorem of_mem_iff {tables' : List Nat} (same : ∀ table, table ∈ tables' ↔ table ∈ tables) :
    Space m root view tables' :=
  ⟨space.wellFormed, fun table => (same table).trans (space.mem_tables table), space.view_eq⟩

theorem translate_eq (va : Nat) : translate m root va = (view (vpnOf va)).bind (leafTarget va) := by
  rw [space.view_eq _ (vpnOf_lt va), translate]

theorem congr (agree : ∀ table ∈ tables, ∀ a, table ≤ a → a < table + 4096 → m' a = m a) :
    Space m' root view tables := by
  have entries : ∀ path table, walk m root path = some table →
      ∀ index, entryAt m' table index = entryAt m table index := by
    intro path table walk_eq index
    refine readWord_congr fun a lower upper => ?_
    have index_lt := index.isLt
    exact agree table ((space.mem_tables table).2 ⟨path, walk_eq⟩) a (by omega) (by omega)
  have same := walk_lookup_congr entries
  refine ⟨space.wellFormed.congr entries, ?_, ?_⟩
  · intro table
    simp only [space.mem_tables, (same _).1]
  · intro vpn bound
    rw [space.view_eq vpn bound, (same _).2]

theorem update {a : Nat} {byte : UInt8} (notTable : pageOf a ∉ tables) :
    Space (Function.update m a byte) root view tables := by
  refine space.congr fun table tableMem address lower upper => Function.update_of_ne ?_ _ _
  rintro rfl
  rw [(pageOf_eq_iff (space.aligned tableMem).1).2 ⟨lower, upper⟩] at notTable
  exact notTable tableMem

theorem graft {path : Path} {page : Nat} (grafted : Graft m m' root path table index page) :
    Space m' root view (page :: tables) := by
  have walks := grafted.walk_eq_ite space.wellFormed
  refine ⟨grafted.wellFormed space.wellFormed, ?_, ?_⟩
  · intro other
    rw [mem_cons, space.mem_tables]
    constructor
    · rintro (rfl | ⟨path', walk_eq⟩)
      · exact ⟨path ++ [index], by rw [walks, if_pos rfl]⟩
      · refine ⟨path', ?_⟩
        rw [walks, if_neg ?_, walk_eq]
        rintro rfl
        rw [walk_concat grafted.walk_eq, grafted.child_eq_none] at walk_eq
        cases walk_eq
    · rintro ⟨path', walk_eq⟩
      rw [walks] at walk_eq
      split at walk_eq
      · exact .inl (Option.some.inj walk_eq).symm
      · exact .inr ⟨path', walk_eq⟩
  · intro vpn bound
    rw [space.view_eq vpn bound]
    exact (grafted.lookup_from _ (show walk m root [] = some root from rfl)).symm

theorem plant {path : Path} {pte vpn : Nat} (planted : Plant m m' root path table index pte)
    (vpn_lt : vpn < 2 ^ 27) (indices_eq : indices vpn = path ++ [index]) :
    Space m' root (Function.update view vpn (some (pte, 0))) tables := by
  have deep : path.length = 2 := by
    simpa using (congrArg List.length indices_eq).symm
  refine ⟨planted.wellFormed space.wellFormed, ?_, ?_⟩
  · intro other
    rw [space.mem_tables]
    simp only [planted.walk_from _ (show walk m root [] = some root from rfl)]
  · intro other bound
    have found := planted.lookup_from space.wellFormed deep (indices other)
      (show walk m root [] = some root from rfl) rfl
    rw [found, nil_append, ← indices_eq]
    by_cases same : other = vpn
    · subst same
      simp
    · have different : indices other ≠ indices vpn := fun eq =>
        same (eq_of_indices_eq bound vpn_lt eq)
      simp [same, different, space.view_eq other bound]

theorem plantRoot {pte : Nat} (planted : Plant m m' root [] root index pte) :
    Space m' root (fun vpn => if vpn / 2 ^ 18 = index then some (pte, 2) else view vpn) tables := by
  refine ⟨planted.wellFormed space.wellFormed, ?_, ?_⟩
  · intro other
    rw [space.mem_tables]
    simp only [planted.walk_from _ (show walk m root [] = some root from rfl)]
  · intro vpn bound
    have same : vpn / 2 ^ 18 = index ↔ Fin.ofNat 512 (vpn / 2 ^ 18) = index := by
      rw [Fin.ext_iff, Fin.val_ofNat, Nat.mod_eq_of_lt (by omega)]
    rw [indices, planted.lookup_root space.wellFormed, space.view_eq vpn bound, indices]
    simp only [same, length_cons, length_nil]

theorem root_slot_empty {vpn : Nat} (vpn_lt : vpn < 2 ^ 27) (index_eq : vpn / 2 ^ 18 = index)
    (unmapped : view vpn = none) (noTable : walk m root [index] = none) : entryAt m root index = 0 := by
  have first_eq : Fin.ofNat 512 (vpn / 2 ^ 18) = index := by
    rw [Fin.ext_iff, Fin.val_ofNat, index_eq, Nat.mod_eq_of_lt index.isLt]
  rcases space.wellFormed.entries [] root index rfl with empty | leaf | ⟨pointer, _⟩
  · exact empty
  · rw [space.view_eq vpn vpn_lt, indices, first_eq, lookup, if_pos leaf] at unmapped
    cases unmapped
  · simp [walk, child, pointer] at noTable

end

theorem of_empty (aligned : root % 4096 = 0) (root_lt : root < 2 ^ 64)
    (empty : ∀ index, entryAt m root index = 0) : Space m root (fun _ => none) [root] := by
  have stuck : ∀ index, child m root index = none := fun index => by
    simp [child, empty, not_isPointer_zero]
  have walks : ∀ path table, walk m root path = some table → path = [] ∧ table = root := by
    intro path table walk_eq
    cases path with
    | nil => exact ⟨rfl, (Option.some.inj walk_eq).symm⟩
    | cons index path => simp [walk, stuck] at walk_eq
  refine ⟨⟨?_, ?_, ?_⟩, ?_, ?_⟩
  · intro path table walk_eq
    obtain ⟨rfl, rfl⟩ := walks path table walk_eq
    exact ⟨aligned, root_lt⟩
  · intro path path' table walk_eq walk_eq'
    rw [(walks path table walk_eq).1, (walks path' table walk_eq').1]
  · intro path table index walk_eq
    obtain ⟨rfl, rfl⟩ := walks path table walk_eq
    exact .inl (empty index)
  · intro table
    rw [mem_singleton]
    constructor
    · rintro rfl
      exact ⟨[], rfl⟩
    · rintro ⟨path, walk_eq⟩
      exact (walks path table walk_eq).2
  · intro vpn _
    simp [indices, lookup, empty, not_isLeaf_zero, stuck]

end Space

def tablePaths : List Path :=
  [] :: (List.finRange 512).flatMap fun first =>
    [first] :: (List.finRange 512).map fun second => [first, second]

theorem mem_tablePaths {path : Path} (short : path.length ≤ 2) : path ∈ tablePaths := by
  match path with
  | [] => simp [tablePaths]
  | [first] => simp [tablePaths]
  | [first, second] => simp [tablePaths]
  | _ :: _ :: _ :: _ => simp at short

def tablePages (m : Bytes) (root : Nat) : List Nat :=
  tablePaths.filterMap (walk m root)

theorem WellFormed.space {m : Bytes} {root : Nat} (wellFormed : WellFormed m root) :
    Space m root (fun vpn => lookup m root (indices vpn)) (tablePages m root) := by
  refine ⟨wellFormed, ?_, fun _ _ => rfl⟩
  intro table
  rw [tablePages, mem_filterMap]
  constructor
  · rintro ⟨path, _, walk_eq⟩
    exact ⟨path, walk_eq⟩
  · rintro ⟨path, walk_eq⟩
    exact ⟨path, mem_tablePaths (wellFormed.length_le walk_eq), walk_eq⟩

end SysCore.Paging
