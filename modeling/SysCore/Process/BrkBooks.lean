import SysCore.Process.ForkIsolation

/-!
# The books of `brk`

`brk` computes the number of pages as an `int` and compares it with `page_count`
as a `size_t`.  For an argument in the heap, or less than a page below it, the
number is right.  Below that it is negative: the loop maps nothing and
`page_count` becomes a number near `2 ^ 64`.  Far above the heap it is cut off to 32
bits, and the call can return its argument without having mapped the pages.
-/

namespace SysCore.Process.BrkControl

open Memory Transition Paging List

structure Booked (control : BrkControl) (mem : PhysMemory) (p ret : Nat) : Prop where
  counted : control.pageCount = control.memKeeper.length
  few : control.pageCount ≤ 2000
  mapped : ∀ i < control.pageCount, ∃ page attributes, control.memKeeper[i]? = some page ∧
    translate mem.bytes control.pageTable (brkVirtBegin + 4096 * i) = some (page, attributes)
  reached : ret = p → brkVirtBegin < p → ∀ a, brkVirtBegin ≤ a → a < p →
    (translate mem.bytes control.pageTable a).isSome

def InHeap (p : Nat) : Prop :=
  p = 0 ∨ (brkVirtBegin < p + 4096 ∧ p ≤ brkVirtBegin + 4096 * 2000)

instance (p : Nat) : Decidable (InHeap p) :=
  inferInstanceAs (Decidable (_ ∨ _))

def HeapStep (state : BrkControl × PhysMemory) (p : Nat) (state' : BrkControl × PhysMemory) : Prop :=
  InHeap p ∧ ∃ ret, state.1.brk p state.2 = .ok (ret, state')

/-! ## The number of pages -/

theorem toSize_needPage {p : Nat} (inHeap : InHeap p) (positive : p ≠ 0) :
    toSize (needPage p) = (p + 4095 - brkVirtBegin) / 4096 ∧
      (p + 4095 - brkVirtBegin) / 4096 ≤ 2000 := by
  obtain ⟨lower, upper⟩ := inHeap.resolve_left positive
  unfold brkVirtBegin at lower upper
  unfold toSize needPage toInt brkVirtBegin
  dsimp only
  omega

theorem needPage_neg_of_low {p : Nat} (low : p + 4096 ≤ brkVirtBegin) : needPage p < 0 := by
  unfold brkVirtBegin at low
  unfold needPage toInt brkVirtBegin
  dsimp only
  omega

theorem brk_pageCount {control control' : BrkControl} {p ret : Nat} {mem mem' : PhysMemory}
    (brk_eq : control.brk p mem = .ok (ret, control', mem')) :
    (p = 0 ∧ control'.pageCount = (if control.brkInit then control.pageCount else 1)) ∨
      (p ≠ 0 ∧ ret = p ∧ needPage p ≤ 2000 ∧
        control'.pageCount = max (if control.brkInit then control.pageCount else 1) (toSize (needPage p))) := by
  obtain ⟨⟨c₁, mem₁⟩, start_eq, rest_eq⟩ := bind_eq_ok.1 brk_eq
  have count_eq : c₁.pageCount = if control.brkInit then control.pageCount else 1 := by
    unfold start at start_eq
    split at start_eq
    next started =>
      cases start_eq
      rw [if_pos started]
    next notStarted =>
      obtain ⟨⟨pages, _⟩, _, last_eq⟩ := bind_eq_ok.1 start_eq
      cases last_eq
      rw [if_neg notStarted]
  rw [← count_eq]
  dsimp only at rest_eq
  generalize needPage p = needed at rest_eq ⊢
  split at rest_eq
  next zero =>
    cases rest_eq
    exact .inl ⟨zero, rfl⟩
  next positive =>
    split at rest_eq
    · cases rest_eq
    next few =>
      split at rest_eq
      next more =>
        obtain ⟨⟨c₂, mem₂⟩, grow_eq, last_eq⟩ := bind_eq_ok.1 rest_eq
        cases last_eq
        exact .inr ⟨positive, rfl, Int.not_lt.1 few, (max_eq_right (Nat.le_of_lt more)).symm⟩
      next enough =>
        cases rest_eq
        exact .inr ⟨positive, rfl, Int.not_lt.1 few, (max_eq_left (Nat.not_lt.1 enough)).symm⟩

/-! ## The books along a run -/

structure Normal (control : BrkControl) (mem : PhysMemory) (root : Nat) : Prop where
  pageTable_eq : control.pageTable = root
  counted : control.pageCount = control.memKeeper.length
  few : control.pageCount ≤ 2000
  empty : control.brkInit = false → control.memKeeper = []
  aligned : ∀ page ∈ control.memKeeper, page % 4096 = 0 ∧ page < 2 ^ 64
  ready : ∃ view tables, Ready mem root (bindAll view control.binds) tables ∧
    ∀ vpn, 0xc0000 ≤ vpn → vpn < 0x100000 → view vpn = none

theorem normal_init {mem : PhysMemory} {root : Nat} {view : Nat → Option (Nat × Nat)}
    {tables : List Nat} (ready : Ready mem root view tables)
    (vacant : ∀ vpn, 0xc0000 ≤ vpn → vpn < 0x100000 → view vpn = none) :
    Normal (init root) mem root :=
  ⟨rfl, rfl, Nat.zero_le _, fun _ => rfl, nofun, view, tables, ready, vacant⟩

theorem vpnOf_brkAddress {i : Nat} (small : i < 0x40000) : vpnOf (brkAddress i) = 0xc0000 + i := by
  unfold vpnOf brkAddress brkVirtBegin
  omega

theorem find?_binds {control : BrkControl} (few : control.memKeeper.length ≤ 2000) (i : Nat) :
    control.binds.find? (fun bind => vpnOf bind.1 = 0xc0000 + i) =
      control.memKeeper[i]?.map fun page => (brkAddress i, page) := by
  have vpn_eq : ∀ j < control.memKeeper.length, vpnOf (brkAddress j) = 0xc0000 + j :=
    fun j j_lt => vpnOf_brkAddress (by omega)
  by_cases i_lt : i < control.memKeeper.length
  · rw [List.getElem?_eq_getElem i_lt, Option.map_some, List.find?_eq_some_iff_getElem]
    refine ⟨by simpa using vpn_eq i i_lt, i, by simpa [binds] using i_lt, by simp [binds], fun j j_lt => ?_⟩
    have differs : 0xc0000 + j ≠ 0xc0000 + i := by omega
    simpa [binds, vpn_eq j (by omega)] using differs
  · rw [List.getElem?_eq_none (by omega), Option.map_none, List.find?_eq_none]
    intro bind bindMem
    obtain ⟨⟨page, j⟩, pageMem, rfl⟩ := mem_map.1 bindMem
    have j_lt := snd_lt_of_mem_zipIdx pageMem
    have differs : 0xc0000 + j ≠ 0xc0000 + i := by omega
    simpa [vpn_eq j (by omega)] using differs

namespace Normal

variable {control control' : BrkControl} {mem mem' : PhysMemory} {root p ret : Nat}

variable (normal : Normal control mem root)
include normal

theorem translate_eq {a : Nat} (lower : brkVirtBegin ≤ a) (upper : a < mmapVirtBegin) :
    translate mem.bytes root a = control.memKeeper[(a - brkVirtBegin) / 4096]?.map fun page =>
      (page + a % 4096, leafAttributes .user) := by
  obtain ⟨view, tables, ready, vacant⟩ := normal.ready
  have few := normal.few
  rw [normal.counted] at few
  unfold brkVirtBegin at lower ⊢
  unfold mmapVirtBegin at upper
  have vpn_eq : vpnOf a = 0xc0000 + (a - 0xc0000000) / 4096 := by
    unfold vpnOf
    omega
  rw [ready.space.translate_eq, bindAll_eq, vacant _ (by omega) (by omega), Option.none_or, vpn_eq,
    find?_binds few]
  cases page_eq : control.memKeeper[(a - 0xc0000000) / 4096]? with
  | none => rfl
  | some page =>
    obtain ⟨aligned, small⟩ := normal.aligned page (mem_of_getElem? page_eq)
    exact leafTarget_small a .user aligned small

theorem step (brk_eq : control.brk p mem = .ok (ret, control', mem')) (few : control'.pageCount ≤ 2000) :
    Normal control' mem' root := by
  obtain ⟨view, tables, ready, vacant⟩ := normal.ready
  rw [← normal.pageTable_eq] at ready
  obtain ⟨binds, news, grows, shape⟩ := (control.brk_holds ready p).result brk_eq
  dsimp only at grows shape
  rcases shape control.binds (.inl ⟨rfl, normal.counted, normal.few, normal.empty⟩) with
    ⟨binds_eq, counted, _, empty⟩ | ⟨_, corrupted⟩
  · refine ⟨grows.pageTable_eq.trans normal.pageTable_eq, counted, few, empty, fun page pageMem => ?_,
      view, news ++ tables, ?_, vacant⟩
    · rw [grows.memKeeper_eq] at pageMem
      rcases mem_append.1 pageMem with isOld | isNew
      · exact normal.aligned page isOld
      · exact ready.fresh.aligned page (grows.extended.grown.pool.mem_iff.2 (mem_append_left _ isNew))
    · have extended := grows.extended.ready
      rwa [← bindAll_append, binds_eq, normal.pageTable_eq] at extended
  · omega

theorem booked (enough : p ≠ 0 → (p + 4095 - brkVirtBegin) / 4096 ≤ control.pageCount) :
    Booked control mem p ret := by
  have counted := normal.counted
  have few := normal.few
  refine ⟨counted, few, fun i i_lt => ?_, fun _ above a lower upper => ?_⟩
  · have i_lt' : i < control.memKeeper.length := by omega
    refine ⟨control.memKeeper[i], leafAttributes .user, List.getElem?_eq_getElem i_lt', ?_⟩
    rw [normal.pageTable_eq, normal.translate_eq (by omega) (by unfold brkVirtBegin mmapVirtBegin; omega),
      show (brkVirtBegin + 4096 * i - brkVirtBegin) / 4096 = i by omega, List.getElem?_eq_getElem i_lt']
    have aligned : (brkVirtBegin + 4096 * i) % 4096 = 0 := by
      unfold brkVirtBegin
      omega
    rw [Option.map_some, aligned, Nat.add_zero]
  · have pages := enough (by omega)
    have a_lt : (a - brkVirtBegin) / 4096 < control.memKeeper.length := by
      rw [← counted]
      refine lt_of_lt_of_le ?_ pages
      unfold brkVirtBegin at lower above ⊢
      omega
    rw [normal.pageTable_eq, normal.translate_eq lower (by unfold brkVirtBegin at *; unfold mmapVirtBegin; omega),
      List.getElem?_eq_getElem a_lt]
    rfl

theorem of_run {ps : List Nat} {state : BrkControl × PhysMemory}
    (run : Run HeapStep (control, mem) ps state) : Normal state.1 state.2 root := by
  refine @Run.invariant _ _ HeapStep (fun state => Normal state.1 state.2 root) ?_ _ _ _ run normal
  rintro ⟨control, mem⟩ p ⟨control', mem'⟩ normal ⟨inHeap, ret, brk_eq⟩
  refine normal.step brk_eq ?_
  have few := normal.few
  have count_le : (if control.brkInit then control.pageCount else 1) ≤ 2000 := by split <;> omega
  rcases brk_pageCount brk_eq with ⟨_, count_eq⟩ | ⟨positive, _, needed, count_eq⟩
  · rw [count_eq]
    exact count_le
  · obtain ⟨size_eq, size_le⟩ := toSize_needPage inHeap positive
    rw [size_eq] at count_eq
    rw [count_eq]
    exact max_le count_le size_le

end Normal

/-- In every run of calls in the heap, the next call keeps its promise exactly when it
is in the heap as well. -/
theorem booked_iff_of_run {mem : PhysMemory} {root : Nat} {view : Nat → Option (Nat × Nat)}
    {tables : List Nat} (ready : Ready mem root view tables)
    (vacant : ∀ vpn, 0xc0000 ≤ vpn → vpn < 0x100000 → view vpn = none) {ps : List Nat}
    {control control' : BrkControl} {mem₁ mem₂ : PhysMemory}
    (run : Run HeapStep (init root, mem) ps (control, mem₁)) {p ret : Nat}
    (brk_eq : control.brk p mem₁ = .ok (ret, control', mem₂)) :
    Booked control' mem₂ p ret ↔ InHeap p := by
  have normal := (normal_init ready vacant).of_run run
  have count_eq := brk_pageCount brk_eq
  constructor
  · intro booked
    have few := booked.few
    have normal' := normal.step brk_eq few
    by_contra outside
    have positive : p ≠ 0 := fun zero => outside (.inl zero)
    obtain ⟨_, rfl, needed, count_eq⟩ := count_eq.resolve_left fun zero => positive zero.1
    have notNeg : ¬ needPage ret < 0 := by
      intro negative
      have large := le_toSize_of_neg negative (needPage_bounds ret).1
      omega
    by_cases low : ret + 4096 ≤ brkVirtBegin
    · exact notNeg (needPage_neg_of_low low)
    · -- the page behind the largest heap is below the argument, and not mapped
      have high : brkVirtBegin + 4096 * 2000 < ret := by
        by_contra upper
        exact outside (.inr ⟨by omega, by omega⟩)
      have above : brkVirtBegin < ret := lt_of_le_of_lt (Nat.le_add_right _ _) high
      have missing := booked.reached rfl above (brkVirtBegin + 4096 * 2000) (Nat.le_add_right _ _) high
      have length_le : control'.memKeeper.length ≤ 2000 := by
        rw [← booked.counted]
        exact few
      rw [normal'.pageTable_eq, normal'.translate_eq (by omega) (by unfold brkVirtBegin mmapVirtBegin; omega),
        List.getElem?_eq_none (by unfold brkVirtBegin; omega)] at missing
      cases missing
  · intro inHeap
    have few : control'.pageCount ≤ 2000 := (normal.of_run (.snoc .nil ⟨inHeap, ret, brk_eq⟩)).few
    refine (normal.step brk_eq few).booked fun positive => ?_
    obtain ⟨_, _, _, count_eq⟩ := count_eq.resolve_left fun zero => positive zero.1
    rw [count_eq, (toSize_needPage inHeap positive).1]
    exact le_max_right _ _

theorem booked_of_growth : ∃ root mem control mem₁ control' mem₂,
    newPageTable sampleMemory sampleFixed = .ok (root, mem) ∧
      Run HeapStep (init root, mem) [0] (control, mem₁) ∧
      control.brk 0xc0002000 mem₁ = .ok (0xc0002000, control', mem₂) ∧
      Booked control' mem₂ 0xc0002000 0xc0002000 := by
  have tested : passes (newPageTable sampleMemory sampleFixed) (fun made =>
      passes ((init made.1).brk 0 made.2) fun first =>
        passes (first.2.1.brk 0xc0002000 first.2.2) fun second => second.1 == 0xc0002000) := by
    decide +kernel
  obtain ⟨⟨root, mem⟩, made, tested⟩ := passes_iff.1 tested
  obtain ⟨⟨ret, control, mem₁⟩, first, tested⟩ := passes_iff.1 tested
  obtain ⟨⟨ret', control', mem₂⟩, second, ret_eq⟩ := passes_iff.1 tested
  obtain rfl : ret' = 0xc0002000 := by simpa using ret_eq
  have fresh := samplePool.fresh
  rw [nil_append] at fresh
  obtain ⟨tables, ready⟩ := newPageTable_ready fresh made
  have run : Run HeapStep (init root, mem) [0] (control, mem₁) := .snoc .nil ⟨.inl rfl, ret, first⟩
  have inHeap : InHeap 0xc0002000 := by decide
  exact ⟨root, mem, control, mem₁, control', mem₂, made, run, second,
    (booked_iff_of_run ready (fun vpn lower upper => baseView_free (by omega)) run second).2 inHeap⟩

theorem not_booked_of_low : ∃ root mem control mem₁,
    newPageTable sampleMemory sampleFixed = .ok (root, mem) ∧
      (init root).brk 0xbffff000 mem = .ok (0xbffff000, control, mem₁) ∧
      control.pageCount = 2 ^ 64 - 1 ∧ ¬ Booked control mem₁ 0xbffff000 0xbffff000 := by
  have tested : passes (newPageTable sampleMemory sampleFixed) (fun made =>
      passes ((init made.1).brk 0xbffff000 made.2) fun result =>
        result.1 == 0xbffff000 && result.2.1.pageCount == 2 ^ 64 - 1) := by
    decide +kernel
  obtain ⟨⟨root, mem⟩, made, tested⟩ := passes_iff.1 tested
  obtain ⟨⟨ret, control, mem₁⟩, brk_eq, tested⟩ := passes_iff.1 tested
  simp only [Bool.and_eq_true, beq_iff_eq] at tested
  obtain ⟨rfl, count_eq⟩ := tested
  refine ⟨root, mem, control, mem₁, made, brk_eq, count_eq, fun booked => ?_⟩
  have few := booked.few
  omega

end SysCore.Process.BrkControl
