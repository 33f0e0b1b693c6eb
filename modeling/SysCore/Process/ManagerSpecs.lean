import SysCore.Process.Managers

/-!
# What the memory managers do

One specification for each operation of `SysCore.Process.Managers`, in terms of
the bindings it adds to the page table and the pages it takes from the pool or
returns to it.
-/

namespace SysCore.Process

open Memory Transition Paging Function List

section Elf

variable {mem : PhysMemory} {root : Nat} {view : Nat → Option (Nat × Nat)} {tables : List Nat}

def textOf (bound : List (Bool × ElfPage)) : ElfSegment :=
  (bound.filter fun page => !page.1).map Prod.snd

def dataOf (bound : List (Bool × ElfPage)) : ElfSegment :=
  (bound.filter fun page => page.1).map Prod.snd

def ElfSegment.mAddrs (segment : ElfSegment) : List Nat :=
  segment.map ElfPage.mAddr

theorem bindPage_eq (elf : ElfImage) (root : Nat) (load : ElfLoad) (mem : PhysMemory) :
    elf.bindPage root load mem = (mapPage mem root ⟨load.vAddr, fun _ => .image load.image⟩ >>=
      fun result => .ok (⟨elf.text ++ textOf [(load.writable, ⟨load.vAddr, result.1⟩)],
        elf.data ++ dataOf [(load.writable, ⟨load.vAddr, result.1⟩)]⟩, result.2)) := by
  unfold ElfImage.bindPage ElfSegment.add
  cases mapPage mem root ⟨load.vAddr, fun _ => .image load.image⟩ with
  | error halt => cases load.writable <;> rfl
  | ok result => cases writable_eq : load.writable <;> simp [textOf, dataOf, pure, Except.pure]

theorem bindPages_holds (ready : Ready mem root view tables) (loads : List ElfLoad) (elf : ElfImage) :
    Holds (ElfImage.bindPages root loads elf mem) fun result =>
      ∃ bound news, bound.map (fun page : Bool × ElfPage => (page.1, page.2.vAddr)) =
          loads.map (fun load => (load.writable, load.vAddr)) ∧
        result.1 = ⟨elf.text ++ textOf bound, elf.data ++ dataOf bound⟩ ∧
        Extended mem result.2 root view tables (ElfSegment.binds (bound.map Prod.snd))
          (ElfSegment.mAddrs (bound.map Prod.snd)) news := by
  induction loads generalizing mem view tables elf with
  | nil => exact ⟨[], [], rfl, by simp [textOf, dataOf], .refl ready⟩
  | cons load rest ih =>
    rw [ElfImage.bindPages, holds_bind, bindPage_eq, holds_bind]
    refine (mapPage_returns ready ⟨load.vAddr, fun _ => .image load.image⟩ nofun).1.mono ?_
    rintro ⟨page, mem₁⟩ ⟨news₁, mapped⟩
    refine (ih mapped.ready _).mono ?_
    rintro ⟨elf', mem₂⟩ ⟨bound, news₂, flags_eq, elf_eq, below⟩
    refine ⟨(load.writable, ⟨load.vAddr, page⟩) :: bound, news₂ ++ news₁, ?_, ?_, ?_⟩
    · rw [map_cons, flags_eq, map_cons]
    · rw [elf_eq]
      cases writable_eq : load.writable <;> simp [textOf, dataOf]
    · exact mapped.extended.trans below

theorem loadElf_holds (ready : Ready mem root view tables) (file : ElfFile) :
    Holds (loadElf root file mem) fun result =>
      ∃ bound news, bound.map (fun page : Bool × ElfPage => (page.1, page.2.vAddr)) =
          file.loads.map (fun load => (load.writable, load.vAddr)) ∧
        result.1 = ⟨textOf bound, dataOf bound⟩ ∧
        Extended mem result.2 root view tables (ElfSegment.binds (bound.map Prod.snd))
          (ElfSegment.mAddrs (bound.map Prod.snd)) news := by
  refine (bindPages_holds ready file.loads ⟨[], []⟩).mono ?_
  rintro result ⟨bound, news, flags_eq, elf_eq, extended⟩
  exact ⟨bound, news, flags_eq, by simpa using elf_eq, extended⟩

theorem perm_textOf_dataOf (bound : List (Bool × ElfPage)) :
    (bound.map Prod.snd).Perm (textOf bound ++ dataOf bound) := by
  rw [textOf, dataOf, ← map_append]
  refine List.Perm.map _ ?_
  have split := filter_append_perm (fun page : Bool × ElfPage => !page.1) bound
  simpa using split.symm

end Elf

theorem toInt_bounds (n : Nat) : -2 ^ 31 ≤ toInt n ∧ toInt n < 2 ^ 31 := by
  unfold toInt
  omega

theorem toInt_of_small {n : Nat} (small : n < 2 ^ 31) : toInt n = n := by
  unfold toInt
  omega

variable {i : Int} {view : Nat → Option (Nat × Nat)}

theorem toSize_of_nonneg (nonneg : 0 ≤ i) (small : i < 2 ^ 31) : toSize i = i.toNat := by
  unfold toSize
  omega

theorem le_toSize_of_neg (negative : i < 0) (bounded : -2 ^ 31 ≤ i) : 2 ^ 63 ≤ toSize i := by
  unfold toSize
  omega

theorem brkAddress_lt (i : Int) : brkAddress i < 2 ^ 32 := by
  unfold brkAddress
  omega

theorem zip_map_range {α β : Type} (f : Nat → α) {count : Nat} {values : List β}
    (length_eq : values.length = count) :
    ((List.range count).map f).zip values = values.zipIdx.map fun (value, i) => (f i, value) := by
  subst length_eq
  apply ext_getElem
  · simp
  · simp

namespace BrkControl

variable {mem : PhysMemory} {view : Nat → Option (Nat × Nat)} {tables : List Nat}

def binds (control : BrkControl) : List (Nat × Nat) :=
  control.memKeeper.zipIdx.map fun (page, i) => (brkAddress i, page)

theorem binds_low (control : BrkControl) : ∀ bind ∈ control.binds, bind.1 < 2 ^ 32 := by
  intro bind bindMem
  obtain ⟨⟨page, i⟩, _, rfl⟩ := mem_map.1 bindMem
  exact brkAddress_lt i

def Shape (control : BrkControl) (added : List (Nat × Nat)) : Prop :=
  (added = control.binds ∧ control.pageCount = control.memKeeper.length ∧
      control.pageCount ≤ 2000 ∧ (control.brkInit = false → control.memKeeper = [])) ∨
    (control.brkInit = true ∧ 2 ^ 63 ≤ control.pageCount)

theorem shape_init (root : Nat) : (init root).Shape [] :=
  .inl ⟨rfl, rfl, Nat.zero_le _, fun _ => rfl⟩

structure Grows (control control' : BrkControl) (mem mem' : PhysMemory)
    (view : Nat → Option (Nat × Nat)) (tables : List Nat) (binds : List (Nat × Nat))
    (news : List Nat) : Prop where
  extended : Extended mem mem' control.pageTable view tables binds (binds.map Prod.snd) news
  memKeeper_eq : control'.memKeeper = control.memKeeper ++ binds.map Prod.snd
  pageTable_eq : control'.pageTable = control.pageTable
  low : ∀ bind ∈ binds, bind.1 < 2 ^ 32

theorem Grows.trans {c₀ c₁ c₂ : BrkControl} {mem₁ mem₂ : PhysMemory}
    {binds₁ binds₂ : List (Nat × Nat)} {news₁ news₂ : List Nat}
    (first : Grows c₀ c₁ mem mem₁ view tables binds₁ news₁)
    (second : Grows c₁ c₂ mem₁ mem₂ (bindAll view binds₁) (news₁ ++ tables) binds₂ news₂) :
    Grows c₀ c₂ mem mem₂ view tables (binds₁ ++ binds₂) (news₂ ++ news₁) := by
  refine ⟨?_, ?_, second.pageTable_eq.trans first.pageTable_eq, ?_⟩
  · rw [map_append]
    exact first.extended.trans (first.pageTable_eq ▸ second.extended)
  · rw [second.memKeeper_eq, first.memKeeper_eq, map_append, append_assoc]
  · intro bind bindMem
    exact (mem_append.1 bindMem).elim (first.low bind) (second.low bind)

theorem Grows.recount {control control' : BrkControl} {mem' : PhysMemory}
    {binds : List (Nat × Nat)} {news : List Nat}
    (grows : Grows control control' mem mem' view tables binds news) (pageCount : Nat) :
    Grows control { control' with pageCount := pageCount } mem mem' view tables binds news :=
  ⟨grows.extended, grows.memKeeper_eq, grows.pageTable_eq, grows.low⟩

theorem grow_holds (control : BrkControl) (ready : Ready mem control.pageTable view tables)
    (first : Int) (count : Nat) :
    Holds (control.grow first count mem) fun result =>
      ∃ pages news, pages.length = count ∧
        Grows control result.1 mem result.2 view tables
          (pages.zipIdx.map fun (page, i) => (brkAddress (first + (i : Nat)), page)) news ∧
        result.1 = { control with memKeeper := control.memKeeper ++ pages } := by
  rw [grow, holds_bind]
  refine (mapPages_returns ready _ ?_).1.mono ?_
  · intro request requestMem bytes
    obtain ⟨j, _, rfl⟩ := mem_map.1 requestMem
    exact nofun
  rintro ⟨pages, mem'⟩ ⟨length_eq, news, extended⟩
  rw [length_map, length_range] at length_eq
  have pages_eq : (pages.zipIdx.map fun (page, i) => (brkAddress (first + (i : Nat)), page)).map
      Prod.snd = pages := by
    rw [List.map_map]
    exact zipIdx_map_fst 0 pages
  refine ⟨pages, news, length_eq, ⟨?_, ?_, rfl, ?_⟩, rfl⟩
  · rw [pages_eq, ← zip_map_range (fun i : Nat => brkAddress (first + (i : Nat))) length_eq]
    simpa [List.map_map, comp_def] using extended
  · rw [pages_eq]
  · intro bind bindMem
    obtain ⟨_, _, rfl⟩ := mem_map.1 bindMem
    exact brkAddress_lt _

theorem binds_append {control control' : BrkControl} {pages : List Nat}
    (memKeeper_eq : control'.memKeeper = control.memKeeper ++ pages) (first : Int)
    (first_eq : first = control.memKeeper.length) :
    control'.binds =
      control.binds ++ pages.zipIdx.map fun (page, i) => (brkAddress (first + (i : Nat)), page) := by
  subst first_eq
  simp only [binds, memKeeper_eq, zipIdx_append, map_append]
  congr 1
  apply ext_getElem
  · simp
  · intro i _ _
    simp

theorem start_holds (control : BrkControl) (ready : Ready mem control.pageTable view tables) :
    Holds (control.start mem) fun result =>
      ∃ binds news, Grows control result.1 mem result.2 view tables binds news ∧
        result.1.brkInit = true ∧
        ∀ added, control.Shape added → result.1.Shape (added ++ binds) := by
  unfold start
  split
  case isTrue started =>
    exact ⟨[], [], ⟨.refl ready, by simp, rfl, nofun⟩, started, fun added shape => by simpa using shape⟩
  case isFalse notStarted =>
    refine (grow_holds { control with brkInit := true, pageCount := 1 } ready 0 1).mono ?_
    rintro ⟨control', mem'⟩ ⟨pages, news, length_eq, grows, result_eq⟩
    dsimp only at result_eq
    subst result_eq
    refine ⟨_, news, ⟨grows.extended, grows.memKeeper_eq, grows.pageTable_eq, grows.low⟩, rfl, ?_⟩
    rintro added (⟨added_eq, count_eq, _, empty⟩ | ⟨started, _⟩)
    · have nothing := empty (by simpa using notStarted)
      refine .inl ⟨?_, by simp [nothing, length_eq], by simp, by simp⟩
      rw [added_eq]
      exact (@binds_append control _ pages rfl 0 (by simp [nothing])).symm
    · exact absurd started notStarted

theorem needPage_bounds (p : Nat) : -2 ^ 31 ≤ needPage p ∧ needPage p < 2 ^ 31 := by
  rw [needPage]
  exact toInt_bounds _

theorem Shape.grow {control : BrkControl} {added : List (Nat × Nat)} (shape : control.Shape added)
    (started : control.brkInit = true) {needPage : Int} (lower : -2 ^ 31 ≤ needPage)
    (upper : needPage < 2 ^ 31) (few : needPage ≤ 2000) (more : control.pageCount < toSize needPage)
    {pages : List Nat} (length_eq : pages.length = (needPage - toInt control.pageCount).toNat) :
    Shape { control with
        memKeeper := control.memKeeper ++ pages
        pageCount := toSize needPage }
      (added ++ pages.zipIdx.map fun (page, i) =>
        (brkAddress (toInt control.pageCount + (i : Nat)), page)) := by
  rcases shape with ⟨added_eq, count_eq, small, _⟩ | ⟨_, corrupted⟩
  · by_cases negative : needPage < 0
    · exact .inr ⟨started, le_toSize_of_neg negative lower⟩
    · have size_eq := toSize_of_nonneg (Int.not_lt.1 negative) upper
      have first_eq : toInt control.pageCount = control.memKeeper.length := by
        rw [toInt_of_small (by omega), count_eq]
      refine .inl ⟨?_, ?_, ?_, ?_⟩
      · rw [added_eq]
        exact (binds_append rfl _ first_eq).symm
      · simp only [length_append, length_eq, first_eq]
        omega
      · simp only
        omega
      · simp [started]
  · exact .inr ⟨started, corrupted.trans (Nat.le_of_lt more)⟩

theorem brk_holds (control : BrkControl) (ready : Ready mem control.pageTable view tables) (p : Nat) :
    Holds (control.brk p mem) fun result =>
      ∃ binds news, Grows control result.2.1 mem result.2.2 view tables binds news ∧
        ∀ added, control.Shape added → result.2.1.Shape (added ++ binds) := by
  rw [brk, holds_bind]
  refine (start_holds control ready).mono ?_
  rintro ⟨c₁, mem₁⟩ ⟨binds₁, news₁, grows₁, started, shape₁⟩
  dsimp only at grows₁ started shape₁ ⊢
  have ready₁ : Ready mem₁ c₁.pageTable (bindAll view binds₁) (news₁ ++ tables) :=
    grows₁.pageTable_eq ▸ grows₁.extended.ready
  obtain ⟨lower, upper⟩ := needPage_bounds p
  generalize needPage p = needPage at lower upper ⊢
  split
  · rw [holds_pure]
    exact ⟨binds₁, news₁, grows₁, shape₁⟩
  split
  · exact holds_panic _
  split
  case isFalse =>
    rw [holds_pure]
    exact ⟨binds₁, news₁, grows₁, shape₁⟩
  case isTrue few more =>
    rw [holds_bind]
    refine (grow_holds c₁ ready₁ _ _).mono ?_
    rintro ⟨c₂, mem₂⟩ ⟨pages, news₂, length_eq, grows₂, result_eq⟩
    dsimp only at result_eq
    subst result_eq
    dsimp only at grows₂ ⊢
    rw [holds_pure]
    refine ⟨_, _, (grows₁.trans grows₂).recount (toSize needPage), ?_⟩
    intro added shape
    rw [← append_assoc]
    exact (shape₁ added shape).grow started lower upper (Int.not_lt.1 few) more length_eq

end BrkControl

section Store

variable {root : Nat} {view : Nat → Option (Nat × Nat)} {tables : List Nat} {va : Nat} {bytes : Bytes}
  {pa attributes i : Nat} {byte : UInt8}

def Storable (bytes : Bytes) (root : Nat) (tables : List Nat) (va : Nat) : Prop :=
  ∃ pa attributes, translate bytes root va = some (pa, attributes) ∧ attributes / 4 % 2 = 1 ∧
    pageOf pa ∉ tables

theorem storeVirtual_cons (space : Space bytes root view tables)
    (first_eq : translate bytes root va = some (pa, attributes)) (writable : attributes / 4 % 2 = 1)
    (notTable : pageOf pa ∉ tables) (byte : UInt8) (rest : List UInt8) :
    storeVirtual root (byte :: rest) va bytes = storeVirtual root rest (va + 1) (update bytes pa byte) ∧
      Space (update bytes pa byte) root view tables ∧
      ∀ i, translate (update bytes pa byte) root (va + 1 + i) = translate bytes root (va + (i + 1)) := by
  have space' : Space (update bytes pa byte) root view tables := space.update notTable
  refine ⟨?_, space', fun i => ?_⟩
  · rw [storeVirtual, first_eq]
    simp only [writable, if_true]
  · rw [space'.translate_eq, space.translate_eq, Nat.add_assoc, Nat.add_comm 1 i]

theorem storeVirtual_targets (data : List UInt8) (space : Space bytes root view tables)
    (targets : ∀ i < data.length, Storable bytes root tables (va + i)) :
    (storeVirtual root data va bytes).2 = true ∧
      Space (storeVirtual root data va bytes).1 root view tables ∧
      ∀ a, (∀ i < data.length, ∀ attributes, translate bytes root (va + i) ≠ some (a, attributes)) →
        (storeVirtual root data va bytes).1 a = bytes a := by
  induction data generalizing va bytes with
  | nil => exact ⟨rfl, space, fun _ _ => rfl⟩
  | cons byte rest ih =>
    obtain ⟨pa, attributes, first_eq, writable, notTable⟩ := targets 0 (Nat.zero_lt_succ _)
    rw [Nat.add_zero] at first_eq
    obtain ⟨step, space₁, same⟩ := storeVirtual_cons space first_eq writable notTable byte rest
    obtain ⟨complete, space', frame⟩ := @ih (va + 1) _ space₁ fun i i_lt => by
      rw [Storable, same]
      exact targets (i + 1) (Nat.succ_lt_succ i_lt)
    rw [step]
    refine ⟨complete, space', fun a untouched => ?_⟩
    rw [frame a fun i i_lt attributes => by
      rw [same]
      exact untouched (i + 1) (Nat.succ_lt_succ i_lt) attributes]
    have different : a ≠ pa := by
      rintro rfl
      exact untouched 0 (Nat.zero_lt_succ _) attributes first_eq
    exact update_of_ne different _ _

theorem storeVirtual_lands_of_distinct (data : List UInt8) (space : Space bytes root view tables)
    (targets : ∀ i < data.length, Storable bytes root tables (va + i))
    (distinct : ∀ {i j pa attributes attributes'}, i < j → j < data.length →
      translate bytes root (va + i) = some (pa, attributes) →
      translate bytes root (va + j) ≠ some (pa, attributes')) (byte_eq : data[i]? = some byte)
    (translate_eq : translate bytes root (va + i) = some (pa, attributes)) :
    (storeVirtual root data va bytes).1 pa = byte := by
  induction data generalizing va bytes i with
  | nil => simp at byte_eq
  | cons first rest ih =>
    obtain ⟨pa₀, attributes₀, first_eq, writable, notTable⟩ := targets 0 (Nat.zero_lt_succ _)
    rw [Nat.add_zero] at first_eq
    obtain ⟨step, space₁, same⟩ := storeVirtual_cons space first_eq writable notTable first rest
    have targets₁ : ∀ i < rest.length, Storable (update bytes pa₀ first) root tables (va + 1 + i) := by
      intro i i_lt
      rw [Storable, same]
      exact targets (i + 1) (Nat.succ_lt_succ i_lt)
    rw [step]
    cases i with
    | zero =>
      have untouched := (storeVirtual_targets rest space₁ targets₁).2.2 pa fun j j_lt attributes hit => by
        rw [same] at hit
        exact distinct (Nat.zero_lt_succ j) (Nat.succ_lt_succ j_lt) translate_eq hit
      rw [Nat.add_zero, first_eq] at translate_eq
      cases translate_eq
      cases byte_eq
      rw [untouched, update_self]
    | succ i =>
      refine ih space₁ targets₁ ?_ byte_eq ?_
      · intro i j pa attributes attributes' lt j_lt
        rw [same, same]
        exact distinct (Nat.succ_lt_succ lt) (Nat.succ_lt_succ j_lt)
      · rw [same]
        exact translate_eq

theorem storeVirtual_lands (data : List UInt8) (short : data.length ≤ 4096)
    (space : Space bytes root view tables)
    (targets : ∀ i < data.length, Storable bytes root tables (va + i)) (byte_eq : data[i]? = some byte)
    (translate_eq : translate bytes root (va + i) = some (pa, attributes)) :
    (storeVirtual root data va bytes).1 pa = byte := by
  refine storeVirtual_lands_of_distinct data space targets ?_ byte_eq translate_eq
  intro i j pa attributes attributes' lt j_lt first_eq second_eq
  have offset := translate_mod first_eq
  have offset' := translate_mod second_eq
  omega

theorem storeVirtual_of_unmapped (space : Space bytes root view tables) (byte : UInt8) (rest : List UInt8)
    (unmapped : view (vpnOf va) = none) : storeVirtual root (byte :: rest) va bytes = (bytes, false) := by
  rw [storeVirtual, space.translate_eq, unmapped]
  rfl

end Store

def unitBinds (units : List MmapUnit) : List (Nat × Nat) :=
  units.map fun unit => (unit.mappedTo, unit.sourceAddr)

def AllWritable (view : Nat → Option (Nat × Nat)) : Prop :=
  ∀ vpn pte level, view vpn = some (pte, level) → pte / 4 % 2 = 1

theorem leaf_writable (page : Nat) (privilege : PrivilegeLevel) :
    (calcPpn page ||| leafAttributes privilege) / 4 % 2 = 1 := by
  rw [calcPpn_or (show leafAttributes privilege < 2 ^ 10 by cases privilege <;> decide)]
  cases privilege <;> simp only [leafAttributes] <;> omega

theorem allWritable_baseView (fixed : FixedPages) : AllWritable (baseView fixed) := by
  intro vpn pte level found
  unfold baseView at found
  split_ifs at found <;> cases found <;> exact leaf_writable _ _

theorem AllWritable.translate (writable : AllWritable view) {bytes : Bytes} {root va pa attributes : Nat}
    {tables : List Nat} (space : Space bytes root view tables)
    (translate_eq : translate bytes root va = some (pa, attributes)) : attributes / 4 % 2 = 1 := by
  rw [space.translate_eq] at translate_eq
  obtain ⟨⟨pte, level⟩, view_eq, target_eq⟩ := Option.bind_eq_some_iff.1 translate_eq
  have bit := writable _ pte level view_eq
  unfold leafTarget at target_eq
  split at target_eq
  · cases target_eq
    dsimp only
    omega
  · cases target_eq

theorem AllWritable.bindAll (writable : AllWritable view) (binds : List (Nat × Nat)) :
    AllWritable (bindAll view binds) := by
  intro vpn pte level found
  rw [bindAll_eq, Option.or_eq_some_iff] at found
  rcases found with found | ⟨_, found⟩
  · exact writable vpn pte level found
  · obtain ⟨bind, _, leaf_eq⟩ := Option.map_eq_some_iff.1 found
    cases leaf_eq
    exact leaf_writable _ _

namespace MmapControl

variable {mem : PhysMemory} {view : Nat → Option (Nat × Nat)} {tables : List Nat}

theorem unitBinds_newUnits (control : MmapControl) (pages : List Nat) :
    unitBinds (control.newUnits pages) =
      pages.zipIdx.map fun (page, i) => (control.pageAddress i, page) := by
  simp [unitBinds, newUnits, List.map_map, comp_def]

theorem sources_newUnits (control : MmapControl) (pages : List Nat) :
    (control.newUnits pages).map MmapUnit.sourceAddr = pages := by
  rw [newUnits, List.map_map]
  exact zipIdx_map_fst 0 pages

theorem requests_readable (control : MmapControl) (length : Nat) :
    ∀ request ∈ control.requests length, ∀ bytes, request.fill bytes ≠ .unreadable := by
  intro request requestMem bytes
  obtain ⟨i, _, rfl⟩ := mem_map.1 requestMem
  exact nofun

structure Reserved (control : MmapControl) (length : Nat) (mem mem' : PhysMemory)
    (view : Nat → Option (Nat × Nat)) (tables pages news : List Nat) : Prop where
  done : mapPages control.pageTable (control.requests length) mem = .ok (pages, mem')
  length_eq : pages.length = needPage length
  extended : Extended mem mem' control.pageTable view tables (unitBinds (control.newUnits pages)) pages news

theorem reserve_holds (control : MmapControl) (ready : Ready mem control.pageTable view tables)
    (length : Nat) :
    Holds (control.reserve length mem) fun result =>
      ∃ pages news, Reserved control length mem result.2 view tables pages news ∧
        result.1 = { control with
          memKeeper := control.memKeeper ++ control.newUnits pages
          mmapStart := control.pageAddress (needPage length) } := by
  rw [reserve, holds_bind]
  refine (mapPages_returns ready _ (control.requests_readable length)).1.returned.mono ?_
  rintro ⟨pages, mem'⟩ ⟨done, length_eq, news, extended⟩
  rw [requests, length_map, length_range] at length_eq
  refine ⟨pages, news, ⟨done, length_eq, ?_⟩, rfl⟩
  rw [unitBinds_newUnits, ← zip_map_range control.pageAddress length_eq]
  simpa [requests, List.map_map, comp_def] using extended

def leafPage (bytes : Bytes) (root va : Nat) : Option Nat :=
  (lookup bytes root (indices (vpnOf va))).map fun leaf => pteAddress leaf.1

def Fits (control : MmapControl) (length : Nat) (mem : PhysMemory) : Prop :=
  ∀ i < needPage length,
    leafPage mem.bytes control.pageTable (control.pageAddress i) = none ∨
      ((∀ j < i, leafPage mem.bytes control.pageTable (control.pageAddress j) ≠ none) ∧
        leafPage mem.bytes control.pageTable (control.pageAddress i) = mem.memoryPool[i]?)

theorem vpnOf_pageAddress_ne (control : MmapControl) {i j : Nat} (lt : j < i) (i_lt : i < 2 ^ 27) :
    vpnOf (control.pageAddress j) ≠ vpnOf (control.pageAddress i) := by
  unfold vpnOf pageAddress
  omega

theorem vpnOf_mmapStart_add (control : MmapControl) (aligned : control.mmapStart % 4096 = 0)
    (k : Nat) : vpnOf (control.mmapStart + k) = vpnOf (control.pageAddress (k / 4096)) := by
  unfold vpnOf pageAddress
  omega

namespace Reserved

variable {control : MmapControl} {length : Nat} {mem' : PhysMemory} {pages news : List Nat}
  (reserved : Reserved control length mem mem' view tables pages news)
include reserved

theorem available : needPage length ≤ mem.memoryPool.length := by
  have cost := reserved.extended.cost
  have length_eq := reserved.length_eq
  omega

variable (ready : Ready mem control.pageTable view tables) (fits : control.Fits length mem)
  (few : needPage length ≤ 2 ^ 27)
include ready fits few

theorem leaf {i page : Nat} (page_eq : pages[i]? = some page) :
    ∃ pte, bindAll view (unitBinds (control.newUnits pages)) (vpnOf (control.pageAddress i)) =
      some (pte, 0) ∧ pteAddress pte = page := by
  have i_lt : i < pages.length := (List.getElem?_eq_some_iff.1 page_eq).1
  have leaf_eq : ∀ j, leafPage mem.bytes control.pageTable (control.pageAddress j) =
      (view (vpnOf (control.pageAddress j))).map fun leaf => pteAddress leaf.1 := fun j => by
    rw [leafPage, ready.space.view_eq _ (vpnOf_lt _)]
  have bindMem : (control.pageAddress i, page) ∈ unitBinds (control.newUnits pages) := by
    rw [unitBinds_newUnits]
    exact mem_map.2 ⟨(page, i), mk_mem_zipIdx_iff_getElem?.2 page_eq, rfl⟩
  rw [bindAll_eq]
  cases found : view (vpnOf (control.pageAddress i)) with
  | none =>
    have first : (unitBinds (control.newUnits pages)).find? (fun bind =>
        vpnOf bind.1 = vpnOf (control.pageAddress i)) = some (control.pageAddress i, page) := by
      rw [List.find?_eq_some_iff_getElem]
      refine ⟨by simp, i, by simpa [unitBinds, newUnits] using i_lt, ?_, ?_⟩
      · simpa [unitBinds, newUnits] using (List.getElem?_eq_some_iff.1 page_eq).2
      · intro j j_lt
        simpa [unitBinds, newUnits] using
          control.vpnOf_pageAddress_ne j_lt (Nat.lt_of_lt_of_le (reserved.length_eq ▸ i_lt) few)
    obtain ⟨page_aligned, page_lt⟩ := (reserved.extended.grown.freshAll ready.fresh).aligned page
      (mem_append_left _ (mem_of_getElem? page_eq))
    exact ⟨userLeaf page, by rw [first]; rfl, (leaf_pte .user page_aligned page_lt).2.1⟩
  | some leaf =>
    obtain ⟨pte, level⟩ := leaf
    have small : level = 0 := by
      cases level with
      | zero => rfl
      | succ level => exact absurd found ((reserved.extended.mappable _ bindMem).2 pte level)
    subst small
    refine ⟨pte, rfl, ?_⟩
    rcases fits i (reserved.length_eq ▸ i_lt) with unmapped | ⟨earlier, same⟩
    · rw [leaf_eq, found] at unmapped
      cases unmapped
    · have from_pool : pages[i]? = mem.memoryPool[i]? := by
        refine mapPages_getElem? ready (control.requests_readable length) reserved.done
          (by simpa [requests, ← reserved.length_eq] using i_lt) ?_
        intro request requestMem unmapped
        obtain ⟨j, j_lt, request_eq⟩ := getElem_of_mem requestMem
        rw [length_take] at j_lt
        rw [getElem_take] at request_eq
        refine earlier j (by omega) ?_
        rw [leaf_eq, ← show request.va = control.pageAddress j by simp [← request_eq, requests],
          unmapped]
        rfl
      rw [leaf_eq, found, ← from_pool, page_eq] at same
      exact Option.some.inj same

variable (writable : AllWritable view) (aligned : control.mmapStart % 4096 = 0)
include writable aligned

theorem translate_eq {i page : Nat} (page_eq : pages[i / 4096]? = some page) :
    ∃ attributes, translate mem'.bytes control.pageTable (control.mmapStart + i) =
        some (page + i % 4096, attributes) ∧ attributes / 4 % 2 = 1 ∧
      pageOf (page + i % 4096) = page ∧ page ∉ news ++ tables := by
  obtain ⟨pte, found, address_eq⟩ := reserved.leaf ready fits few page_eq
  have extended := reserved.extended
  obtain ⟨page_aligned, -, notTable⟩ := extended.grown.held ready.fresh (mem_of_getElem? page_eq)
  have translate_eq : translate mem'.bytes control.pageTable (control.mmapStart + i) =
      some (page + i % 4096, pte % 2 ^ 10) := by
    have offset : (control.mmapStart + i) % 4096 = i % 4096 := by omega
    rw [extended.ready.space.translate_eq, control.vpnOf_mmapStart_add aligned, found]
    simp [leafTarget, leafSize, address_eq, page_aligned, offset]
  refine ⟨_, translate_eq, (writable.bindAll _).translate extended.ready.space translate_eq, ?_, notTable⟩
  exact (pageOf_eq_iff page_aligned).2 (by omega)

theorem targets (within : length % 2 ^ 32 ≤ 4096 * needPage length) (file : List UInt8) :
    ∀ i < (file.take (length % 2 ^ 32)).length, ∃ pa attributes,
      translate mem'.bytes control.pageTable (control.mmapStart + i) = some (pa, attributes) ∧
        attributes / 4 % 2 = 1 ∧ pageOf pa ∈ pages ∧ pageOf pa ∉ news ++ tables := by
  intro i i_lt
  rw [length_take] at i_lt
  have i_within : i / 4096 < pages.length := by
    have length_eq := reserved.length_eq
    omega
  obtain ⟨attributes, translate_eq, canWrite, page_eq, notTable⟩ :=
    reserved.translate_eq ready fits few writable aligned (List.getElem?_eq_getElem i_within)
  refine ⟨_, attributes, translate_eq, canWrite, ?_⟩
  rw [page_eq]
  exact ⟨getElem_mem i_within, notTable⟩

end Reserved

theorem mmap_holds (control : MmapControl) (ready : Ready mem control.pageTable view tables)
    (writable : AllWritable view) (aligned : control.mmapStart % 4096 = 0)
    (small : mem.memoryPool.length ≤ 2 ^ 27) {length : Nat} {file : List UInt8}
    (clean : needPage length ≤ mem.memoryPool.length →
      file = [] ∨ (length % 2 ^ 32 ≤ 4096 * needPage length ∧ control.Fits length mem)) :
    Holds (control.mmap length file mem) fun result =>
      result.1 = some control.mmapStart ∧
        ∃ pages news, pages.length = needPage length ∧
          needPage length ≤ mem.memoryPool.length ∧
          result.2.1 = { control with
            memKeeper := control.memKeeper ++ control.newUnits pages
            mmapStart := control.pageAddress (needPage length) } ∧
          Extended mem result.2.2 control.pageTable view tables
            (unitBinds (control.newUnits pages)) pages news := by
  rw [mmap, holds_bind]
  refine (reserve_holds control ready length).mono ?_
  rintro ⟨control', mem'⟩ ⟨pages, news, reserved, result_eq⟩
  dsimp only at reserved result_eq ⊢
  subst result_eq
  have extended := reserved.extended
  have few := reserved.available.trans small
  have targets : ∀ i < (file.take (length % 2 ^ 32)).length, ∃ pa attributes,
      translate mem'.bytes control.pageTable (control.mmapStart + i) = some (pa, attributes) ∧
        attributes / 4 % 2 = 1 ∧ pageOf pa ∈ pages ∧ pageOf pa ∉ news ++ tables := by
    rcases clean reserved.available with rfl | ⟨covered, fits⟩
    · simp
    · exact reserved.targets ready fits few writable aligned covered file
  obtain ⟨complete, space, frame⟩ := storeVirtual_targets _ extended.ready.space fun i i_lt => by
    obtain ⟨pa, attributes, translate_eq, canWrite, -, notTable⟩ := targets i i_lt
    exact ⟨pa, attributes, translate_eq, canWrite, notTable⟩
  rw [holds_pure]
  refine ⟨if_pos complete, pages, news, reserved.length_eq, reserved.available, rfl,
    ⟨⟨space, extended.ready.fresh⟩, ⟨extended.grown.pool, fun a outside => ?_⟩, extended.mappable,
      extended.news_le⟩⟩
  rw [← extended.grown.frame a outside]
  refine frame a fun i i_lt attributes hit => ?_
  obtain ⟨pa, _, translate_eq, -, pageMem, -⟩ := targets i i_lt
  cases hit.symm.trans translate_eq
  exact outside.pageOf_not_mem (mem_append_left _ pageMem)

theorem perm_of_lastUnit {units : List MmapUnit} {p : Nat} {unit : MmapUnit}
    (found : lastUnit units p = some unit) :
    unit.mappedTo = p ∧ units.Perm (unit :: eraseUnit units p) := by
  rw [lastUnit, List.find?_eq_some_iff_append] at found
  obtain ⟨matches_, front, back, split_eq, before⟩ := found
  have mapped_eq : unit.mappedTo = p := by simpa using matches_
  have erase_eq : units.reverse.eraseP (fun unit => unit.mappedTo = p) = front ++ back := by
    rw [split_eq, eraseP_append_right _ (by simpa using before),
      eraseP_cons_of_pos (by simpa using mapped_eq)]
  refine ⟨mapped_eq, ?_⟩
  calc units.Perm units.reverse := (reverse_perm units).symm
    _ = front ++ unit :: back := split_eq
    _ |>.Perm (unit :: (front ++ back)) := perm_middle
    _ |>.Perm (unit :: eraseUnit units p) := by
        rw [eraseUnit, erase_eq]
        exact (reverse_perm _).symm.cons _

theorem eraseUnit_sublist (units : List MmapUnit) (p : Nat) : (eraseUnit units p).Sublist units := by
  have erased := (eraseP_sublist (p := fun unit => decide (unit.mappedTo = p))
    (l := units.reverse)).reverse
  rwa [reverse_reverse] at erased

structure Released (units units' : List MmapUnit) (mem mem' : PhysMemory) (addr last : Nat)
    (removed : List MmapUnit) : Prop where
  perm : units.Perm (removed ++ units')
  sublist : units'.Sublist units
  bytes_eq : mem'.bytes = mem.bytes
  pool_eq : mem'.memoryPool = (removed.map MmapUnit.sourceAddr).reverse ++ mem.memoryPool
  covered : ∀ unit ∈ removed, addr ≤ unit.mappedTo ∧ unit.mappedTo ≤ last
  nonempty : addr ≤ last → removed ≠ []

theorem release_holds (addr : Nat) {fuel p : Nat} {units : List MmapUnit} {mem : PhysMemory}
    (enough : units.length < fuel) (p_lt : p < 2 ^ 64)
    (high : ∀ unit ∈ units, 0x1000 ≤ unit.mappedTo)
    (room : mem.memoryPool.length + units.length ≤ 2048) :
    Holds (release addr fuel p units mem) fun result =>
      ∃ removed, Released units result.1 mem result.2 addr p removed := by
  induction fuel generalizing p units mem with
  | zero => omega
  | succ fuel ih =>
    rw [release]
    split
    case isTrue before =>
      exact ⟨[], .refl _, .refl _, rfl, rfl, nofun, fun reached => absurd before (Nat.not_lt.2 reached)⟩
    case isFalse reached =>
      cases found : lastUnit units p with
      | none => exact holds_panic _
      | some unit =>
        obtain ⟨mapped_eq, perm⟩ := perm_of_lastUnit found
        have length_eq := perm.length_eq
        rw [length_cons] at length_eq
        have above := high unit (perm.mem_iff.2 mem_cons_self)
        simp only [holds_bind]
        unfold PhysMemory.deallocPage
        split
        · exact holds_panic _
        · rw [if_pos (by omega), holds_ok]
          have next_eq : (p + 2 ^ 64 - 4096) % 2 ^ 64 = p - 4096 := by omega
          rw [next_eq]
          refine (@ih (p - 4096) (eraseUnit units p) _ (by omega) (by omega) ?_ ?_).mono ?_
          · exact fun other otherMem => high other (perm.mem_iff.2 (mem_cons_of_mem _ otherMem))
          · simp only [length_cons]
            omega
          · rintro ⟨units', mem'⟩ ⟨removed, released⟩
            refine ⟨unit :: removed, ?_, ?_, released.bytes_eq, ?_, ?_, fun _ => cons_ne_nil _ _⟩
            · exact perm.trans (released.perm.cons unit)
            · exact released.sublist.trans (eraseUnit_sublist units p)
            · rw [released.pool_eq, map_cons, reverse_cons, append_assoc]
              rfl
            · intro other otherMem
              rcases mem_cons.1 otherMem with rfl | inRest
              · omega
              · have bounds := released.covered other inRest
                omega

theorem lastPage_lt (addr length : Nat) : lastPage addr length < 2 ^ 64 := by
  unfold lastPage
  omega

theorem munmap_holds (control : MmapControl) {mem : PhysMemory} (addr length : Nat)
    (high : ∀ unit ∈ control.memKeeper, 0x1000 ≤ unit.mappedTo)
    (room : mem.memoryPool.length + control.memKeeper.length ≤ 2048) :
    Holds (control.munmap addr length mem) fun result =>
      ∃ removed, Released control.memKeeper result.1.memKeeper mem result.2 addr
          (lastPage addr length) removed ∧
        result.1.pageTable = control.pageTable ∧
        result.1.mmapStart =
          if result.1.memKeeper = [] then mmapVirtBegin else control.mmapStart := by
  unfold munmap
  split
  · exact holds_panic _
  · rw [holds_bind]
    refine (release_holds addr (Nat.lt_succ_self _) (lastPage_lt addr length) high room).mono ?_
    rintro ⟨units, mem'⟩ ⟨removed, released⟩
    rw [holds_pure]
    exact ⟨removed, released, rfl, rfl⟩

end MmapControl

end SysCore.Process
