import SysCore.Paging.CreateMapping

/-!
# `EraseEntry`

`EraseEntry` goes down three levels, as `CreateMapping` does, and clears the first leaf
it meets.  It does not look whether an entry is there: behind an empty slot it goes on
at address 0 as if a table were there.

Clearing a leaf of the last level is the opposite of filling an empty slot with it, so
an address that was not mapped is back where it was after it has been mapped and
erased.
-/

namespace SysCore.Paging

open Memory Transition Function

def Board.isPageAlloced (board : Board) (p : Nat) : Outcome Bool :=
  if p % 0x1000 ≠ 0 then
    .error .panic
  else
    .ok (board.kernelEnd ≤ p ∧ p ≤ board.kernelEnd + 4096 * (board.pageCount - 1))

def pageOfEntry (entry : Nat) : Nat :=
  entry >>> 10 <<< 12 % 2 ^ 64

def releasePage (board : Board) (page : Nat) (mem : PhysMemory) : Outcome PhysMemory := do
  let alloced ← board.isPageAlloced page
  if alloced then mem.deallocPage page else return mem

def releaseLeaf (board : Board) (releasePhysicalPage : Bool) (page : Nat) (mem : PhysMemory) :
    Outcome PhysMemory :=
  if releasePhysicalPage then releasePage board page mem else .ok mem

def innerEraseEntry (board : Board) (releasePhysicalPage : Bool) (tableBase ppn : Nat) (mem : PhysMemory) :
    Outcome (Option Nat × PhysMemory) :=
  let entry := readWord mem.bytes (tableBase + 8 * ppn)
  let page := pageOfEntry entry
  if isLeaf entry then do
    let mem ← releaseLeaf board releasePhysicalPage page mem
    return (none, mem.setWord (tableBase + 8 * ppn) 0)
  else
    .ok (some page, mem)

def innerEraseEntries (board : Board) (releasePhysicalPage : Bool) :
    List Nat → (tableBase : Nat) → PhysMemory → Outcome (PhysMemory × List Nat)
  | [], _, mem => .ok (mem, [])
  | ppn :: ppns, tableBase, mem => do
    let (next, mem) ← innerEraseEntry board releasePhysicalPage tableBase ppn mem
    match next with
    | none => return (mem, [tableBase + 8 * ppn])
    | some page => do
      let (mem, reads) ← innerEraseEntries board releasePhysicalPage ppns page mem
      return (mem, (tableBase + 8 * ppn) :: reads)

def eraseEntry (board : Board) (mem : PhysMemory) (pageTableBase virtualAddress : Nat)
    (releasePhysicalPage : Bool) : Outcome (PhysMemory × List Nat) :=
  if (pageTableBase &&& 7) ^^^ 7 ≠ 7 then
    .error .panic
  else if virtualAddress < 0x1000 then
    .error .panic
  else
    innerEraseEntries board releasePhysicalPage
      [getPpn1 virtualAddress, getPpn2 virtualAddress, getPpn3 virtualAddress] pageTableBase mem

/-! ## Clearing a leaf -/

structure Uproot (m m' : Bytes) (root : Nat) (path : Path) (table : Nat) (index : Fin 512) : Prop where
  walk_eq : walk m root path = some table
  leaf : IsLeaf (entryAt m table index)
  others : ∀ path' other, walk m root path' = some other → ∀ index',
    ¬ (other = table ∧ index' = index) → entryAt m' other index' = entryAt m other index'
  cleared : entryAt m' table index = 0

namespace Uproot

variable {m m' : Bytes} {root table : Nat} {path : Path} {index : Fin 512}

variable (uproot : Uproot m m' root path table index)
include uproot

theorem walk_from (rest : Path) {front : Path} {other : Nat} (front_eq : walk m root front = some other) :
    walk m' other rest = walk m other rest := by
  induction rest generalizing front other with
  | nil => rfl
  | cons index' rest ih =>
    have same : child m' other index' = child m other index' := by
      by_cases here : other = table ∧ index' = index
      · obtain ⟨rfl, rfl⟩ := here
        rw [child, child, uproot.cleared, if_neg not_isPointer_zero, if_neg uproot.leaf.not_isPointer]
      · rw [child, child, uproot.others front other front_eq index' here]
    rw [walk, walk, same]
    cases next_eq : child m other index' with
    | none => rfl
    | some next =>
      have next_walk : walk m root (front ++ [index']) = some next := by
        rw [walk_concat front_eq, next_eq]
      exact ih next_walk

theorem walks (other : Path) : walk m' root other = walk m root other :=
  uproot.walk_from other (show walk m root [] = some root from rfl)

theorem wellFormed (before : WellFormed m root) : WellFormed m' root := by
  refine ⟨?_, ?_, ?_⟩
  · intro other reached reach_eq
    exact before.aligned other reached (uproot.walks other ▸ reach_eq)
  · intro first second reached first_eq second_eq
    exact before.distinct first second reached (uproot.walks first ▸ first_eq)
      (uproot.walks second ▸ second_eq)
  · intro other reached index' reach_eq
    rw [uproot.walks other] at reach_eq
    by_cases here : reached = table ∧ index' = index
    · obtain ⟨rfl, rfl⟩ := here
      exact .inl uproot.cleared
    · rw [uproot.others other reached reach_eq index' here]
      exact before.entries other reached index' reach_eq

theorem plant : Plant m' m root path table index (entryAt m table index) where
  walk_eq := (uproot.walks path).trans uproot.walk_eq
  empty := uproot.cleared
  leaf := uproot.leaf
  others path' other other_eq index' elsewhere :=
    (uproot.others path' other (uproot.walks path' ▸ other_eq) index' elsewhere).symm
  planted := rfl

end Uproot

theorem Space.uproot {m m' : Bytes} {root table vpn : Nat} {view : Nat → Option (Nat × Nat)}
    {tables : List Nat} {path : Path} {index : Fin 512} (space : Space m root view tables)
    (uprooted : Uproot m m' root path table index) (vpn_lt : vpn < 2 ^ 27)
    (indices_eq : indices vpn = path ++ [index]) :
    Space m' root (Function.update view vpn none) tables := by
  have wellFormed := uprooted.wellFormed space.wellFormed
  have deep : path.length = 2 := by
    simpa using (congrArg List.length indices_eq).symm
  refine ⟨wellFormed, ?_, ?_⟩
  · intro other
    rw [space.mem_tables]
    simp only [uprooted.walks]
  · intro other bound
    by_cases same : other = vpn
    · subst same
      rw [update_self, indices_eq, lookup_append ((uprooted.walks path).trans uprooted.walk_eq)]
      simp [lookup, child, uprooted.cleared, not_isLeaf_zero, not_isPointer_zero]
    · have found := uprooted.plant.lookup_from wellFormed deep (indices other)
        (show walk m' root [] = some root from rfl) rfl
      rw [List.nil_append, ← indices_eq, if_neg fun eq => same (eq_of_indices_eq bound vpn_lt eq)] at found
      rw [update_of_ne same, space.view_eq other bound, found]

/-! ## Going down -/

section Down

variable {board : Board} {mem : PhysMemory} {root table : Nat} {path : Path} {index : Fin 512}

theorem pageOfEntry_eq (entry : Nat) : pageOfEntry entry = pteAddress entry := by
  rw [pageOfEntry, pteAddress, Nat.shiftLeft_eq, Nat.shiftRight_eq_div_pow]

theorem isLeaf_eq_false {entry : Nat} (notLeaf : ¬ IsLeaf entry) : isLeaf entry = false :=
  Bool.eq_false_iff.2 fun leaf => notLeaf ((isLeaf_iff entry).1 leaf)

theorem innerEraseEntry_of_not_leaf {releasePhysicalPage : Bool}
    (notLeaf : ¬ IsLeaf (entryAt mem.bytes table index)) :
    innerEraseEntry board releasePhysicalPage table index mem =
      .ok (some (pteAddress (entryAt mem.bytes table index)), mem) := by
  unfold innerEraseEntry
  rw [← pageOfEntry_eq]
  exact if_neg (Bool.eq_false_iff.1 (isLeaf_eq_false notLeaf))

theorem innerEraseEntry_of_leaf (leaf : IsLeaf (entryAt mem.bytes table index)) :
    innerEraseEntry board false table index mem = .ok (none, mem.setWord (table + 8 * index) 0) :=
  if_pos ((isLeaf_iff _).2 leaf)

def InTables (m : Bytes) (root a : Nat) : Prop :=
  ∃ path table, walk m root path = some table ∧ table ≤ a ∧ a + 8 ≤ table + 4096

theorem InTables.slot {m : Bytes} (walk_eq : walk m root path = some table) (index : Fin 512) :
    InTables m root (table + 8 * index) := by
  have index_lt := index.isLt
  exact ⟨path, table, walk_eq, by omega, by omega⟩

theorem InTables.of_child {m : Bytes} {next a : Nat} (child_eq : child m root index = some next)
    (inTables : InTables m next a) : InTables m root a := by
  obtain ⟨path, table, walk_eq, bounds⟩ := inTables
  exact ⟨index :: path, table, by rw [walk, child_eq]; exact walk_eq, bounds⟩

theorem child_eq_some {m : Bytes} {next : Nat} (child_eq : child m table index = some next) :
    ¬ IsLeaf (entryAt m table index) ∧ pteAddress (entryAt m table index) = next := by
  unfold child at child_eq
  split at child_eq
  next pointer => exact ⟨pointer.not_isLeaf, Option.some.inj child_eq⟩
  · cases child_eq

theorem innerEraseEntries_of_walk (board : Board) (walk_eq : walk mem.bytes root path = some table)
    (rest : List Nat) :
    ∃ reads, (∀ a ∈ reads, InTables mem.bytes root a) ∧
      ∀ mem' more, innerEraseEntries board false rest table mem = .ok (mem', more) →
        innerEraseEntries board false (path.map Fin.val ++ rest) root mem = .ok (mem', reads ++ more) := by
  induction path generalizing root with
  | nil =>
    cases walk_eq
    exact ⟨[], nofun, fun _ _ erased_eq => erased_eq⟩
  | cons index path ih =>
    obtain ⟨next, child_eq, rest_eq⟩ := Option.bind_eq_some_iff.1 walk_eq
    obtain ⟨notLeaf, next_eq⟩ := child_eq_some child_eq
    obtain ⟨reads, inTables, erases⟩ := ih rest_eq
    refine ⟨(root + 8 * index) :: reads, ?_, ?_⟩
    · rw [List.forall_mem_cons]
      exact ⟨.slot (show walk mem.bytes root [] = some root from rfl) index,
        fun a aMem => (inTables a aMem).of_child child_eq⟩
    · intro mem' more erased_eq
      rw [List.map_cons, List.cons_append, innerEraseEntries, innerEraseEntry_of_not_leaf notLeaf, next_eq,
        ok_bind]
      dsimp only
      rw [erases mem' more erased_eq]
      rfl

theorem innerEraseEntries_eq_ok (board : Board) (ppn : Nat) (ppns : List Nat) (tableBase : Nat)
    (mem : PhysMemory) :
    ∃ mem' reads, innerEraseEntries board false (ppn :: ppns) tableBase mem = .ok (mem', reads) ∧
      tableBase + 8 * ppn ∈ reads := by
  induction ppns generalizing ppn tableBase with
  | nil =>
    unfold innerEraseEntries innerEraseEntry
    dsimp only
    split
    · exact ⟨_, _, rfl, List.mem_singleton_self _⟩
    · exact ⟨_, _, rfl, List.mem_singleton_self _⟩
  | cons next ppns ih =>
    rw [innerEraseEntries, innerEraseEntry]
    dsimp only
    split
    · exact ⟨_, _, rfl, List.mem_singleton_self _⟩
    · obtain ⟨mem', reads, rest_eq, -⟩ := ih next (pageOfEntry (readWord mem.bytes (tableBase + 8 * ppn)))
      rw [ok_bind]
      dsimp only
      rw [rest_eq]
      exact ⟨_, _, rfl, List.mem_cons_self⟩

end Down

/-! ## Erasing a page -/

section Erase

variable {board : Board} {mem : PhysMemory} {root va pte : Nat} {view : Nat → Option (Nat × Nat)}
  {tables : List Nat}

theorem eraseEntry_eq (board : Board) (mem : PhysMemory) (releasePhysicalPage : Bool)
    (aligned : root % 4096 = 0) (notNull : 0x1000 ≤ va) :
    eraseEntry board mem root va releasePhysicalPage =
      innerEraseEntries board releasePhysicalPage ((indices (vpnOf va)).map Fin.val) root mem := by
  obtain ⟨first, second, third, indices_eq, ppn1_eq, ppn2_eq, ppn3_eq⟩ := indices_vpnOf va
  have base_ok : (root &&& 7) ^^^ 7 = 7 := (check_table_base_iff root).2 (by omega)
  unfold eraseEntry
  rw [if_neg (not_not.2 base_ok), if_neg (Nat.not_lt.2 notNull), indices_eq, ppn1_eq, ppn2_eq, ppn3_eq]
  rfl

theorem walk_of_lookup {m : Bytes} {first second third : Fin 512}
    (found : lookup m root [first, second, third] = some (pte, 0)) :
    ∃ table, walk m root [first, second] = some table ∧ IsLeaf (entryAt m table third) := by
  unfold lookup at found
  split at found
  · exact absurd (congrArg Prod.snd (Option.some.inj found)) (Nat.succ_ne_zero 1)
  · obtain ⟨middle, middle_eq, found⟩ := Option.bind_eq_some_iff.1 found
    unfold lookup at found
    split at found
    · exact absurd (congrArg Prod.snd (Option.some.inj found)) (Nat.succ_ne_zero 0)
    · obtain ⟨table, table_eq, found⟩ := Option.bind_eq_some_iff.1 found
      unfold lookup at found
      split at found
      next leaf => exact ⟨table, by simp [walk, middle_eq, table_eq], leaf⟩
      · simp [lookup] at found

theorem uproot_of_leaf {path : Path} {table : Nat} {index : Fin 512} (wellFormed : WellFormed mem.bytes root)
    (walk_eq : walk mem.bytes root path = some table) (leaf : IsLeaf (entryAt mem.bytes table index)) :
    Uproot mem.bytes (mem.setWord (table + 8 * index) 0).bytes root path table index := by
  have aligned := (wellFormed.aligned path table walk_eq).1
  have index_lt := index.isLt
  refine ⟨walk_eq, leaf, ?_, readWord_writeWord _ _ (by decide)⟩
  intro path' other other_eq index' elsewhere
  have other_aligned := (wellFormed.aligned path' other other_eq).1
  have index_ne : other = table → (index' : Nat) ≠ index := fun same eq => elsewhere ⟨same, Fin.ext eq⟩
  have index_lt' := index'.isLt
  exact readWord_writeWord_of_disjoint _ _ (by omega)

theorem eraseEntry_of_mapped (board : Board) (space : Space mem.bytes root view tables)
    (notNull : 0x1000 ≤ va) (mapped : view (vpnOf va) = some (pte, 0)) :
    ∃ mem' reads, eraseEntry board mem root va false = .ok (mem', reads) ∧
      Space mem'.bytes root (Function.update view (vpnOf va) none) tables := by
  obtain ⟨first, second, third, indices_eq, -⟩ := indices_vpnOf va
  rw [space.view_eq _ (vpnOf_lt va), indices_eq] at mapped
  obtain ⟨table, walk_eq, leaf⟩ := walk_of_lookup mapped
  obtain ⟨reads, -, erases⟩ := innerEraseEntries_of_walk board walk_eq [third.val]
  have last_eq : innerEraseEntries board false [third.val] table mem =
      .ok (mem.setWord (table + 8 * third) 0, [table + 8 * third]) := by
    rw [innerEraseEntries, innerEraseEntry_of_leaf leaf]
    rfl
  have erased_eq := erases _ _ last_eq
  have start := eraseEntry_eq board mem false (space.aligned space.root_mem).1 notNull
  rw [indices_eq] at start
  exact ⟨_, _, start.trans erased_eq,
    space.uproot (uproot_of_leaf space.wellFormed walk_eq leaf) (vpnOf_lt va) indices_eq⟩

theorem leafTarget_ne_none (va pte : Nat) : leafTarget va (pte, 0) ≠ none := by
  have aligned : pteAddress pte % leafSize 0 = 0 := by
    unfold pteAddress leafSize
    omega
  rw [leafTarget, if_pos aligned]
  exact Option.some_ne_none _

theorem level_of_accepted {needed : Nat} {leaf : Nat × Nat}
    (accepted : ¬ Refused mem view (vpnOf va) needed) (view_eq : view (vpnOf va) = some leaf) :
    leaf.2 = 0 := by
  obtain ⟨found, _ | level⟩ := leaf
  · rfl
  · exact absurd (.inl ⟨found, level, view_eq⟩) accepted

theorem bindLeaf_of_accepted {needed : Nat} (accepted : ¬ Refused mem view (vpnOf va) needed) (pte : Nat) :
    ∃ found, bindLeaf view (vpnOf va) pte (vpnOf va) = some (found, 0) := by
  unfold bindLeaf
  cases view_eq : view (vpnOf va) with
  | none =>
    rw [if_pos rfl, update_self]
    exact ⟨pte, rfl⟩
  | some leaf =>
    rw [if_neg (Option.some_ne_none leaf), view_eq, ← level_of_accepted accepted view_eq]
    exact ⟨leaf.1, rfl⟩

theorem update_bindLeaf {vpn : Nat} (unmapped : view vpn = none) (pte : Nat) :
    Function.update (bindLeaf view vpn pte) vpn none = view := by
  rw [bindLeaf, if_pos unmapped, update_idem, ← unmapped, update_eq_self]

theorem eraseEntry_of_created {pa : Nat} {mem' : PhysMemory} (board : Board) (privilege : PrivilegeLevel)
    (space : Space mem.bytes root view tables) (notNull : 0x1000 ≤ va) (aligned : pa % 4096 = 0)
    (pa_lt : pa < 2 ^ 64)
    (fresh : Fresh tables (mem.memoryPool.take (missing mem.bytes root (vpnOf va))))
    (created : createMapping mem root va pa .small privilege = .ok mem') :
    ∃ mem'' reads, eraseEntry board mem' root va false = .ok (mem'', reads) ∧
      ((∀ va', translate mem''.bytes root va' = translate mem.bytes root va') ↔
        translate mem.bytes root va = none) := by
  rcases createMapping_small space va privilege aligned pa_lt notNull fresh with
    ⟨-, panics⟩ | ⟨accepted, mem₁, news, done, -, mapped⟩
  · exact absurd (created.symm.trans panics) nofun
  · obtain rfl := Except.ok.inj (created.symm.trans done)
    obtain ⟨found, found_eq⟩ := bindLeaf_of_accepted accepted (calcPpn pa ||| leafAttributes privilege)
    obtain ⟨mem₂, reads, erased, erasedSpace⟩ := eraseEntry_of_mapped board mapped.space notNull found_eq
    refine ⟨mem₂, reads, erased, ?_⟩
    constructor
    · intro same
      rw [← same va, erasedSpace.translate_eq, update_self]
      rfl
    · intro untranslated va'
      have unmapped : view (vpnOf va) = none := by
        cases view_eq : view (vpnOf va) with
        | none => rfl
        | some leaf =>
          obtain ⟨pte, level⟩ := leaf
          obtain rfl : level = 0 := level_of_accepted accepted view_eq
          rw [space.translate_eq, view_eq] at untranslated
          exact absurd untranslated (leafTarget_ne_none va pte)
      rw [erasedSpace.translate_eq, space.translate_eq, update_bindLeaf unmapped]

/-! ## Erasing what is not mapped -/

def EraseHarmless (board : Board) (mem : PhysMemory) (root va : Nat) : Prop :=
  ∃ reads, eraseEntry board mem root va false = .ok (mem, reads) ∧
    ∀ a ∈ reads, InTables mem.bytes root a

theorem eraseHarmless_of_walk (board : Board) (wellFormed : WellFormed mem.bytes root)
    (notNull : 0x1000 ≤ va) (untranslated : translate mem.bytes root va = none)
    (tables : (walk mem.bytes root ((indices (vpnOf va)).take 2)).isSome) :
    EraseHarmless board mem root va := by
  obtain ⟨first, second, third, indices_eq, -⟩ := indices_vpnOf va
  rw [indices_eq] at tables
  obtain ⟨table, walk_eq⟩ := Option.isSome_iff_exists.1 tables
  have walk_eq : walk mem.bytes root [first, second] = some table := walk_eq
  have lookup_eq : lookup mem.bytes root [first, second, third] = lookup mem.bytes table [third] :=
    @lookup_append _ _ [first, second] [third] _ walk_eq
  have notLeaf : ¬ IsLeaf (entryAt mem.bytes table third) := by
    intro leaf
    rw [translate, indices_eq, lookup_eq, lookup, if_pos leaf] at untranslated
    exact leafTarget_ne_none va _ untranslated
  obtain ⟨reads, inTables, erases⟩ := innerEraseEntries_of_walk board walk_eq [third.val]
  have last_eq : innerEraseEntries board false [third.val] table mem = .ok (mem, [table + 8 * third]) := by
    rw [innerEraseEntries, innerEraseEntry_of_not_leaf notLeaf]
    rfl
  have start := eraseEntry_eq board mem false (wellFormed.aligned [] root rfl).1 notNull
  rw [indices_eq] at start
  refine ⟨_, start.trans (erases _ _ last_eq), ?_⟩
  intro a aMem
  rcases List.mem_append.1 aMem with earlier | isLast
  · exact inTables a earlier
  · rw [List.mem_singleton.1 isLast]
    exact .slot walk_eq third

theorem not_eraseHarmless_of_stuck {front : Path} {table : Nat} {index next : Fin 512} {rest : Path}
    (wellFormed : WellFormed mem.bytes root) (notNull : 0x1000 ≤ va)
    (noPageZero : ∀ path, walk mem.bytes root path ≠ some 0)
    (indices_eq : indices (vpnOf va) = front ++ index :: next :: rest)
    (front_eq : walk mem.bytes root front = some table) (stuck : child mem.bytes table index = none) :
    ¬ EraseHarmless board mem root va := by
  rintro ⟨reads, erased_eq, inTables⟩
  rw [eraseEntry_eq board mem false (wellFormed.aligned [] root rfl).1 notNull, indices_eq,
    List.map_append] at erased_eq
  obtain ⟨before, -, erases⟩ :=
    innerEraseEntries_of_walk board front_eq ((index :: next :: rest).map Fin.val)
  rcases wellFormed.entries front table index front_eq with empty | leaf | ⟨pointer, -⟩
  · obtain ⟨mem', later, later_eq, firstRead⟩ :=
      innerEraseEntries_eq_ok board next.val (rest.map Fin.val) 0 mem
    have step_eq : innerEraseEntries board false ((index :: next :: rest).map Fin.val) table mem =
        .ok (mem', (table + 8 * index) :: later) := by
      rw [List.map_cons, List.map_cons, innerEraseEntries,
        innerEraseEntry_of_not_leaf (by rw [empty]; exact not_isLeaf_zero), empty, ok_bind]
      dsimp only
      rw [show pteAddress 0 = 0 from rfl, later_eq]
      rfl
    cases erased_eq.symm.trans (erases _ _ step_eq)
    -- The word is in page 0, which no table is.
    obtain ⟨path, page, walk_eq, lower, -⟩ := inTables (0 + 8 * next.val)
      (List.mem_append_right _ (List.mem_cons_of_mem _ firstRead))
    have aligned := (wellFormed.aligned path page walk_eq).1
    have next_lt := next.isLt
    obtain rfl : page = 0 := by omega
    exact noPageZero path walk_eq
  · have step_eq : innerEraseEntries board false ((index :: next :: rest).map Fin.val) table mem =
        .ok (mem.setWord (table + 8 * index) 0, [table + 8 * index]) := by
      rw [List.map_cons, innerEraseEntries, innerEraseEntry_of_leaf leaf]
      rfl
    have same := congrArg Prod.fst (Except.ok.inj (erased_eq.symm.trans (erases _ _ step_eq)))
    have cleared : entryAt mem.bytes table index = 0 := by
      rw [congrArg PhysMemory.bytes same]
      exact readWord_writeWord _ _ (by decide)
    rw [cleared] at leaf
    exact not_isLeaf_zero leaf
  · rw [child, if_pos pointer] at stuck
    cases stuck

theorem walk_of_eraseHarmless (wellFormed : WellFormed mem.bytes root) (notNull : 0x1000 ≤ va)
    (noPageZero : ∀ path, walk mem.bytes root path ≠ some 0) (harmless : EraseHarmless board mem root va) :
    (walk mem.bytes root ((indices (vpnOf va)).take 2)).isSome := by
  obtain ⟨first, second, third, indices_eq, -⟩ := indices_vpnOf va
  rw [indices_eq]
  cases first_eq : child mem.bytes root first with
  | none =>
    exact absurd harmless (not_eraseHarmless_of_stuck wellFormed notNull noPageZero
      (show indices (vpnOf va) = [] ++ first :: second :: [third] from indices_eq) rfl first_eq)
  | some table =>
    have walk_eq : walk mem.bytes root [first] = some table := by
      rw [walk, first_eq]
      rfl
    cases second_eq : child mem.bytes table second with
    | none =>
      exact absurd harmless (not_eraseHarmless_of_stuck wellFormed notNull noPageZero
        (show indices (vpnOf va) = [first] ++ second :: third :: [] from indices_eq) walk_eq second_eq)
    | some last =>
      have found : walk mem.bytes root [first, second] = some last := by
        rw [← second_eq]
        exact walk_concat walk_eq second
      exact Option.isSome_iff_exists.2 ⟨last, found⟩

/-- In a well-formed table: a page mapped by a leaf of the last level is erased and no
other; mapping and erasing gives back the translation exactly if the page was not
mapped; and erasing what does not translate is harmless if both lower tables are there,
and without page 0 among the tables only then. -/
theorem eraseEntry_undoes_iff (board : Board) (wellFormed : WellFormed mem.bytes root)
    (notNull : 0x1000 ≤ va) :
    (∀ pte, lookup mem.bytes root (indices (vpnOf va)) = some (pte, 0) →
      ∃ mem' reads, eraseEntry board mem root va false = .ok (mem', reads) ∧
        translate mem'.bytes root va = none ∧
        ∀ va', vpnOf va' ≠ vpnOf va → translate mem'.bytes root va' = translate mem.bytes root va') ∧
    (∀ pa privilege mem', pa % 4096 = 0 → pa < 2 ^ 64 →
      Fresh (tablePages mem.bytes root) (mem.memoryPool.take (missing mem.bytes root (vpnOf va))) →
      createMapping mem root va pa .small privilege = .ok mem' →
      ∃ mem'' reads, eraseEntry board mem' root va false = .ok (mem'', reads) ∧
        ((∀ va', translate mem''.bytes root va' = translate mem.bytes root va') ↔
          translate mem.bytes root va = none)) ∧
    (translate mem.bytes root va = none →
      ((walk mem.bytes root ((indices (vpnOf va)).take 2)).isSome → EraseHarmless board mem root va) ∧
      ((∀ path, walk mem.bytes root path ≠ some 0) → EraseHarmless board mem root va →
        (walk mem.bytes root ((indices (vpnOf va)).take 2)).isSome)) := by
  have space := wellFormed.space
  refine ⟨?_, ?_, ?_⟩
  · intro pte mapped
    obtain ⟨mem', reads, erased, erasedSpace⟩ := eraseEntry_of_mapped board space notNull mapped
    refine ⟨mem', reads, erased, ?_, ?_⟩
    · rw [erasedSpace.translate_eq, update_self]
      rfl
    · intro va' different
      rw [erasedSpace.translate_eq, space.translate_eq, update_of_ne different]
  · intro pa privilege mem' aligned pa_lt fresh created
    exact eraseEntry_of_created board privilege space notNull aligned pa_lt fresh created
  · intro untranslated
    exact ⟨eraseHarmless_of_walk board wellFormed notNull untranslated,
      fun noPageZero => walk_of_eraseHarmless wellFormed notNull noPageZero⟩

def emptyTable : PhysMemory :=
  ⟨fun a => if a = 0 then 0xf else 0, [0x2000, 0x3000]⟩

theorem emptyTable_entries (index : Fin 512) : entryAt emptyTable.bytes 0x1000 index = 0 :=
  readLE_eq_zero fun _ lower _ => if_neg (by omega)

theorem emptyTable_space : Space emptyTable.bytes 0x1000 (fun _ => none) [0x1000] :=
  Space.of_empty (by decide) (by decide) emptyTable_entries

theorem eraseEntry_undoes_first : ∃ mem' mem'' reads,
    createMapping emptyTable 0x1000 0x40001234 0x5000 .small .user = .ok mem' ∧
    eraseEntry .k210 mem' 0x1000 0x40001234 false = .ok (mem'', reads) ∧
    ∀ va', translate mem''.bytes 0x1000 va' = translate emptyTable.bytes 0x1000 va' := by
  have wellFormed := emptyTable_space.wellFormed
  have needed : missing emptyTable.bytes 0x1000 (vpnOf 0x40001234) = 2 :=
    missing_eq_two (emptyTable_entries _)
  have fresh : Fresh (tablePages emptyTable.bytes 0x1000)
      (emptyTable.memoryPool.take (missing emptyTable.bytes 0x1000 (vpnOf 0x40001234))) := by
    rw [needed]
    refine ⟨by decide, by decide, fun page pageMem inTables => ?_⟩
    have isTable := (wellFormed.space.mem_tables page).1 inTables
    rw [List.mem_singleton.1 ((emptyTable_space.mem_tables page).2 isTable)] at pageMem
    revert pageMem
    decide
  rcases @createMapping_small emptyTable 0x1000 _ _ wellFormed.space 0x5000 0x40001234 .user
      (by decide) (by decide) (by decide) fresh with ⟨refused, -⟩ | ⟨-, mem', -, created, -⟩
  · rcases refused with ⟨pte, level, super⟩ | short
    · exact absurd ((emptyTable_space.view_eq _ (vpnOf_lt _)).trans super) nofun
    · rw [needed] at short
      exact absurd short (by decide)
  · obtain ⟨mem'', reads, erased, back⟩ := (@eraseEntry_undoes_iff emptyTable 0x1000
      0x40001234 .k210 wellFormed (by decide)).2.1 0x5000 .user mem' (by decide) (by decide) fresh created
    refine ⟨mem', mem'', reads, created, erased, back.2 ?_⟩
    rw [emptyTable_space.translate_eq]
    rfl

theorem not_eraseHarmless_emptyTable : ∃ mem' reads,
    translate emptyTable.bytes 0x1000 0x40001234 = none ∧
    eraseEntry .k210 emptyTable 0x1000 0x40001234 false = .ok (mem', reads) ∧
    reads = [0x1008, 0] ∧ emptyTable.bytes 0 = 0xf ∧ mem'.bytes 0 = 0 ∧
    ¬ EraseHarmless .k210 emptyTable 0x1000 0x40001234 := by
  have erased : eraseEntry .k210 emptyTable 0x1000 0x40001234 false =
      .ok (emptyTable.setWord 0 0, [0x1008, 0]) := rfl
  refine ⟨_, _, ?_, erased, rfl, rfl, rfl, ?_⟩
  · rw [emptyTable_space.translate_eq]
    rfl
  · rintro ⟨reads, harmless_eq, -⟩
    have same : emptyTable.setWord 0 0 = emptyTable :=
      congrArg Prod.fst (Except.ok.inj (erased.symm.trans harmless_eq))
    have cleared : (emptyTable.setWord 0 0).bytes 0 = emptyTable.bytes 0 := by rw [same]
    exact absurd cleared (by decide)

end Erase

end SysCore.Paging
