import SysCore.Fs.Disk
import SysCore.Sched.Fields

/-!
# Working directories

Every block has a working directory of at most 31 characters, which `sys_chdir`
sets and `getAbsolutePath` puts in front of relative paths.  `create_process`
starts a block at the root; `clone` makes the child's block from nothing and
copies no directory into it, so that a child has the empty directory, whatever
its parent had.  An empty directory is resolved like the root.
-/

namespace SysCore.Sched

open Transition Fs List

variable {μ : Type} {units : List Name} {cwd : List Char} {s s' : Scheduler μ} {events : List Event}
  {ref : Nat}

/-- The loop of `getAbsolutePath` over the units of a path: the units kept, or
none above the root or with 16 units. -/
def resolve : List Name → List Name → Option (List Name)
  | [], res => some res
  | unit :: rest, res =>
    if unit = ['.'] then
      resolve rest res
    else if unit = ['.', '.'] then
      if res = [] then none else resolve rest res.dropLast
    else if 16 ≤ res.length + 1 then
      none
    else
      resolve rest (res ++ [unit])

def pathBuffer (path : List Char) : Option (List Char) → List Char
  | none => path
  | some cwd =>
    if path.head? = some '/' then path
    else if cwd.getLast? = some '/' then cwd ++ path
    else cwd ++ '/' :: path

def getAbsolutePath (path : List Char) (cwd : Option (List Char)) :
    Outcome (Option (List Char)) :=
  let strBuff := pathBuffer path cwd
  if 512 ≤ strBuff.length ∨ 16 < (components strBuff).length then
    .error .stray
  else
    match resolve (components strBuff) [] with
    | none => .ok none
    | some [] => .ok (some ['/'])
    | some res =>
      let result := strBuff.takeWhile (· ≠ '/') ++ joinAbsolutePath res
      if 512 ≤ result.length then .error .stray else .ok (some result)

/-- `sys_chdir`.  `cwd` holds 31 characters, and the absolute path is copied
into it without a look at the pointer. -/
def Scheduler.sysChdir (s : Scheduler μ) (path : List Char) : Outcome (Scheduler μ) :=
  match s.running with
  | none => .error .stray
  | some ref => do
    match ← getAbsolutePath path (some (s.pcb ref).cwd) with
    | none => .error .stray
    | some target =>
      if 32 ≤ target.length then
        .error .stray
      else
        return { s with
          toPlacement := s.toPlacement.setPcb ref { s.pcb ref with cwd := target } }

inductive CwdOp (μ : Type) where
  | sched (op : Op μ)
  | chdir (path : List Char)

def CwdStep (s : Scheduler μ) (label : CwdOp μ) (s' : Scheduler μ) : Prop :=
  match label with
  | .sched op => ∃ events, op.exec s = .ok (s', events)
  | .chdir path => s.sysChdir path = .ok s'

def SameResolution (first second : PCB μ) : Prop :=
  ∀ path, getAbsolutePath path (some first.cwd) = getAbsolutePath path (some second.cwd)

inductive Descends (s : Scheduler μ) (ref : Nat) : Scheduler μ → Nat → Prop
  | clone {kind : CloneKind μ} {s' : Scheduler μ} {events : List Event} :
      s.running = some ref → s.clone kind = .ok (s', events) → Descends s ref s' s.nextPcb
  | wait {t t' : Scheduler μ} {child : Nat} {label : CwdOp μ} :
      Descends s ref t child → CwdStep t label t' →
      (∀ path, label = .chdir path → t.running ≠ some child) → Descends s ref t' child
  | again {t t' : Scheduler μ} {child : Nat} {kind : CloneKind μ} {events : List Event} :
      Descends s ref t child → t.running = some child → t.clone kind = .ok (t', events) →
      Descends s ref t' t.nextPcb

/-! ## Directories in use -/

def Ordinary (unit : Name) : Prop :=
  ValidName unit ∧ unit ≠ ['.'] ∧ unit ≠ ['.', '.']

def Rooted (cwd : List Char) : Prop :=
  cwd = [] ∨ cwd = ['/'] ∨ ∃ units : List Name, units ≠ [] ∧ units.length < 16 ∧
    (∀ unit ∈ units, Ordinary unit) ∧ cwd = joinAbsolutePath units ∧ cwd.length < 32

theorem resolve_append {units res : List Name} (ordinary : ∀ unit ∈ units, Ordinary unit)
    (few : res.length + units.length < 16) (rest : List Name) :
    resolve (units ++ rest) res = resolve rest (res ++ units) := by
  induction units generalizing res with
  | nil => rw [nil_append, append_nil]
  | cons unit units ih =>
    obtain ⟨-, notDot, notDots⟩ := ordinary unit mem_cons_self
    rw [length_cons] at few
    rw [cons_append, resolve, if_neg notDot, if_neg notDots, if_neg (by omega),
      ih (fun other otherMem => ordinary other (mem_cons_of_mem _ otherMem))
        (by rw [length_append, length_singleton]; omega)]
    rw [append_assoc, singleton_append]

theorem unit_of_resolve {res kept : List Name} (valid : ∀ unit ∈ units, ValidName unit)
    (ordinary : ∀ unit ∈ res, Ordinary unit) (few : res.length < 16)
    (resolved : resolve units res = some kept) : (∀ unit ∈ kept, Ordinary unit) ∧ kept.length < 16 := by
  induction units generalizing res with
  | nil =>
    cases resolved
    exact ⟨ordinary, few⟩
  | cons unit rest ih =>
    have restValid : ∀ other ∈ rest, ValidName other := fun other otherMem =>
      valid other (mem_cons_of_mem _ otherMem)
    rw [resolve] at resolved
    split at resolved
    · exact ih restValid ordinary few resolved
    · rename_i notDot
      split at resolved
      · split at resolved
        · cases resolved
        · refine ih restValid (fun other otherMem => ordinary other ((dropLast_sublist res).subset otherMem))
            ?_ resolved
          rw [length_dropLast]
          omega
      · rename_i notDots
        split at resolved
        · cases resolved
        · refine ih restValid (fun other otherMem => ?_) ?_ resolved
          · rcases mem_append.1 otherMem with isOld | isNew
            · exact ordinary other isOld
            · rw [mem_singleton.1 isNew]
              exact ⟨valid unit mem_cons_self, notDot, notDots⟩
          · rw [length_append, length_singleton]
            omega

theorem head?_joinAbsolutePath (notEmpty : units ≠ []) : (joinAbsolutePath units).head? = some '/' := by
  cases units with
  | nil => exact absurd rfl notEmpty
  | cons unit rest => rfl

theorem pathBuffer_head_of_head (head : cwd = [] ∨ cwd.head? = some '/') (path : List Char) :
    (pathBuffer path (some cwd)).head? = some '/' := by
  unfold pathBuffer
  dsimp only
  split
  · assumption
  · rcases head with rfl | head
    · rfl
    · split <;> rw [List.head?_append, head] <;> rfl

theorem pathBuffer_head (rooted : Rooted cwd) (path : List Char) :
    (pathBuffer path (some cwd)).head? = some '/' := by
  apply pathBuffer_head_of_head
  rcases rooted with rfl | rfl | ⟨units, notEmpty, -, -, rfl, -⟩
  · exact .inl rfl
  · exact .inr rfl
  · exact .inr (head?_joinAbsolutePath notEmpty)

theorem takeWhile_of_head {buffer : List Char} (head : buffer.head? = some '/') :
    buffer.takeWhile (· ≠ '/') = [] := by
  cases buffer with
  | nil => rfl
  | cons letter rest =>
    cases head
    rfl

theorem rooted_of_getAbsolutePath {path target : List Char} (rooted : Rooted cwd)
    (absolute : getAbsolutePath path (some cwd) = .ok (some target)) (short : target.length < 32) :
    Rooted target ∧ resolve (components (pathBuffer path (some cwd))) [] = some (components target) := by
  unfold getAbsolutePath at absolute
  dsimp only at absolute
  simp only [takeWhile_of_head (pathBuffer_head rooted path), nil_append] at absolute
  split at absolute
  · cases absolute
  · have valid : ∀ unit ∈ components (pathBuffer path (some cwd)), ValidName unit := fun unit unitMem =>
      valid_of_mem_components unitMem
    split at absolute
    · cases absolute
    next resolved =>
      cases absolute
      exact ⟨.inr (.inl rfl), resolved⟩
    next res notEmpty resolved =>
      split at absolute
      · cases absolute
      · cases absolute
        obtain ⟨ordinary, few⟩ := unit_of_resolve valid (by simp) (by decide) resolved
        rw [components_joinAbsolutePath fun unit unitMem => (ordinary unit unitMem).1]
        exact ⟨.inr (.inr ⟨res, notEmpty, few, ordinary, rfl, short⟩), resolved⟩

theorem getAbsolutePath_empty (path : List Char) :
    getAbsolutePath path (some []) = getAbsolutePath path (some ['/']) := by
  have buffer_eq : pathBuffer path (some []) = pathBuffer path (some ['/']) := by
    unfold pathBuffer
    simp
  unfold getAbsolutePath
  rw [buffer_eq]

theorem joinAbsolutePath_append (front rest : List Name) :
    joinAbsolutePath (front ++ rest) = joinAbsolutePath front ++ joinAbsolutePath rest := by
  induction front with
  | nil => rfl
  | cons unit front ih => simp [joinAbsolutePath, ih]

theorem getLast?_joinAbsolutePath (notEmpty : units ≠ []) (ordinary : ∀ unit ∈ units, Ordinary unit) :
    (joinAbsolutePath units).getLast? ≠ some '/' := by
  obtain ⟨front, last, rfl⟩ := (eq_nil_or_concat' units).resolve_left notEmpty
  obtain ⟨⟨lastNotEmpty, noSlash⟩, -⟩ := ordinary last mem_concat_self
  have last_eq : (joinAbsolutePath (front ++ [last])).getLast? = last.getLast? := by
    rw [joinAbsolutePath_append, joinAbsolutePath, joinAbsolutePath, append_nil,
      List.getLast?_append_cons, List.getLast?_cons_of_ne_nil lastNotEmpty]
  rw [last_eq]
  exact fun isSlash => noSlash (mem_of_getLast? isSlash)

theorem getAbsolutePath_dot (notEmpty : units ≠ []) (few : units.length < 16)
    (ordinary : ∀ unit ∈ units, Ordinary unit) (short : (joinAbsolutePath units).length < 32) :
    getAbsolutePath ['.'] (some (joinAbsolutePath units)) = .ok (some (joinAbsolutePath units)) := by
  have rooted : Rooted (joinAbsolutePath units) :=
    .inr (.inr ⟨units, notEmpty, few, ordinary, rfl, short⟩)
  have head := takeWhile_of_head (pathBuffer_head rooted ['.'])
  have buffer_eq : pathBuffer ['.'] (some (joinAbsolutePath units)) =
      joinAbsolutePath units ++ ['/', '.'] := by
    unfold pathBuffer
    dsimp only
    rw [if_neg (by decide), if_neg (getLast?_joinAbsolutePath notEmpty ordinary)]
  rw [buffer_eq] at head
  have components_eq : components (joinAbsolutePath units ++ ['/', '.']) = units ++ [['.']] := by
    rw [components_append_cons, components_joinAbsolutePath fun unit unitMem => (ordinary unit unitMem).1]
    rfl
  have resolved : resolve (units ++ [['.']]) [] = some units := by
    rw [resolve_append ordinary (by simpa using few), nil_append, resolve, if_pos rfl, resolve]
  have fits : ¬ (512 ≤ (joinAbsolutePath units ++ ['/', '.']).length ∨
      16 < (units ++ [['.']]).length) := by
    simp only [length_append, length_cons, length_nil]
    omega
  unfold getAbsolutePath
  dsimp only
  rw [buffer_eq, components_eq, if_neg fits, resolved, head]
  cases units with
  | nil => exact absurd rfl notEmpty
  | cons unit rest =>
    dsimp only
    rw [nil_append, if_neg (by omega)]

theorem joinAbsolutePath_ne_root (notEmpty : units ≠ []) (ordinary : ∀ unit ∈ units, Ordinary unit) :
    joinAbsolutePath units ≠ ['/'] := by
  intro same
  have last_ne := getLast?_joinAbsolutePath notEmpty ordinary
  rw [same] at last_ne
  exact last_ne rfl

theorem resolves_empty_iff (rooted : Rooted cwd) :
    (∀ path, getAbsolutePath path (some []) = getAbsolutePath path (some cwd)) ↔
      cwd = ['/'] ∨ cwd = [] := by
  constructor
  · intro same
    rcases rooted with rfl | rfl | ⟨units, notEmpty, few, ordinary, rfl, short⟩
    · exact .inr rfl
    · exact .inl rfl
    · have dot := same ['.']
      rw [getAbsolutePath_dot notEmpty few ordinary short] at dot
      have root_eq : getAbsolutePath ['.'] (some []) = .ok (some ['/']) := rfl
      rw [root_eq] at dot
      exact absurd (Option.some.inj (Except.ok.inj dot)).symm
        (joinAbsolutePath_ne_root notEmpty ordinary)
  · rintro (rfl | rfl) path
    · exact getAbsolutePath_empty path
    · rfl

/-! ## Directories in a run -/

def Keeps (p q : Placement μ) (ref : Nat) : Prop :=
  ref < q.nextPcb ∧ (q.pcb ref).cwd = (p.pcb ref).cwd

theorem untouched_cwd : @Untouched μ _ PCB.cwd :=
  fun _ _ _ _ _ => rfl

theorem exec_keeps {op : Op μ} (exec_eq : op.exec s = .ok (s', events)) (made_lt : ref < s.nextPcb) :
    Keeps s.toPlacement s'.toPlacement ref :=
  untouched_cwd.exec exec_eq made_lt

theorem clone_cwd {kind : CloneKind μ} (clone_eq : s.clone kind = .ok (s', events)) :
    s'.nextPcb = s.nextPcb + 1 ∧ (s'.pcb s.nextPcb).cwd = [] := by
  obtain ⟨next_eq, parent, context, pid, block_eq⟩ := clone_newborn clone_eq
  rw [block_eq]
  exact ⟨next_eq, by cases kind <;> rfl⟩

theorem exec_new {op : Op μ} (exec_eq : op.exec s = .ok (s', events)) (new : s.nextPcb ≤ ref)
    (made_lt : ref < s'.nextPcb) : (s'.pcb ref).cwd = ['/'] ∨ (s'.pcb ref).cwd = [] := by
  obtain ⟨block, newborn, cwd_eq⟩ := untouched_cwd.newborn exec_eq new made_lt
  rw [cwd_eq]
  cases newborn with
  | created program pid => exact .inl rfl
  | cloned parent context pid kind => exact .inr (by cases kind <;> rfl)

theorem sysChdir_eq_ok {path : List Char} (chdir_eq : s.sysChdir path = .ok s') :
    ∃ ref target, s.running = some ref ∧ getAbsolutePath path (some (s.pcb ref).cwd) = .ok (some target) ∧
      target.length < 32 ∧
      s'.toPlacement = s.toPlacement.setPcb ref { s.pcb ref with cwd := target } := by
  unfold Scheduler.sysChdir at chdir_eq
  split at chdir_eq
  · cases chdir_eq
  next ref running_eq =>
    obtain ⟨absolute, absolute_eq, chdir_eq⟩ := bind_eq_ok.1 chdir_eq
    cases absolute with
    | none => cases chdir_eq
    | some target =>
      dsimp only at chdir_eq
      split at chdir_eq
      · cases chdir_eq
      next short =>
        cases chdir_eq
        exact ⟨ref, target, running_eq, absolute_eq, Nat.lt_of_not_le short, rfl⟩

structure InUse (s : Scheduler μ) : Prop where
  accounted : Accounted s.toPlacement
  rooted : ∀ ref < s.nextPcb, Rooted (s.pcb ref).cwd

namespace InUse

variable {s s' : Scheduler μ}

theorem lt_of_running (inUse : InUse s) {ref : Nat} (running_eq : s.running = some ref) :
    ref < s.nextPcb := by
  obtain ⟨before, ledger⟩ := inUse.accounted
  exact ledger.lt_nextPcb (by simp [Placement.placed, running_eq])

theorem init (pcb : Nat → PCB μ) (testTotal : Nat) : InUse (Scheduler.init pcb testTotal) where
  accounted := ⟨[], Ledger.init pcb testTotal⟩
  rooted ref made_lt := absurd made_lt (Nat.not_lt_zero ref)

theorem step (inUse : InUse s) {label : CwdOp μ} (stepped : CwdStep s label s') : InUse s' := by
  cases label with
  | sched op =>
    obtain ⟨events, exec_eq⟩ := stepped
    refine ⟨inUse.accounted.exec _ exec_eq, fun ref made_lt => ?_⟩
    rcases Nat.lt_or_ge ref s.nextPcb with old | new
    · rw [(exec_keeps exec_eq old).2]
      exact inUse.rooted ref old
    · rcases exec_new exec_eq new made_lt with root | empty
      · exact .inr (.inl root)
      · exact .inl empty
  | chdir path =>
    obtain ⟨ref, target, running_eq, absolute_eq, short, placement_eq⟩ := sysChdir_eq_ok stepped
    have rooted := inUse.rooted ref (inUse.lt_of_running running_eq)
    constructor
    · rw [placement_eq]
      exact inUse.accounted.setPcb rfl
    · intro other made_lt
      rw [placement_eq] at made_lt ⊢
      by_cases same : other = ref
      · subst same
        simpa using (rooted_of_getAbsolutePath rooted absolute_eq short).1
      · simpa [same] using inUse.rooted other made_lt

theorem of_run {pcb : Nat → PCB μ} {testTotal : Nat} {labels : List (CwdOp μ)}
    (run : Run CwdStep (Scheduler.init pcb testTotal) labels s) : InUse s :=
  @Run.invariant _ _ CwdStep InUse (fun inUse stepped => inUse.step stepped) _ _ _ run
    (init pcb testTotal)

end InUse

theorem Descends.cwd_eq {t : Scheduler μ} {child : Nat} (descends : Descends s ref t child) :
    child < t.nextPcb ∧ (t.pcb child).cwd = [] := by
  induction descends with
  | clone _ clone_eq =>
    obtain ⟨next_eq, cwd_eq⟩ := clone_cwd clone_eq
    exact ⟨by omega, cwd_eq⟩
  | again _ _ clone_eq _ =>
    obtain ⟨next_eq, cwd_eq⟩ := clone_cwd clone_eq
    exact ⟨by omega, cwd_eq⟩
  | @wait t t' child label _ stepped others ih =>
    obtain ⟨made_lt, cwd_eq⟩ := ih
    cases label with
    | sched op =>
      obtain ⟨events, exec_eq⟩ := stepped
      obtain ⟨lt, kept⟩ := exec_keeps exec_eq made_lt
      exact ⟨lt, kept.trans cwd_eq⟩
    | chdir path =>
      obtain ⟨other, target, running_eq, -, -, placement_eq⟩ := sysChdir_eq_ok stepped
      have different : child ≠ other := fun same => others path rfl (same ▸ running_eq)
      rw [placement_eq]
      exact ⟨made_lt, by simpa [different] using cwd_eq⟩

/-- After any run, a child and whoever comes from it by clones resolve paths like
the block that was cloned exactly when that block is at the root or has
the empty directory. -/
theorem sameResolution_iff_of_run {pcb : Nat → PCB μ} {testTotal : Nat} {labels : List (CwdOp μ)}
    {s t : Scheduler μ} (run : Run CwdStep (Scheduler.init pcb testTotal) labels s) {ref child : Nat}
    (running_eq : s.running = some ref) (descends : Descends s ref t child) :
    SameResolution (t.pcb child) (s.pcb ref) ↔ (s.pcb ref).cwd = ['/'] ∨ (s.pcb ref).cwd = [] := by
  have inUse := InUse.of_run run
  unfold SameResolution
  rw [descends.cwd_eq.2]
  exact resolves_empty_iff (inUse.rooted ref (inUse.lt_of_running running_eq))

theorem sameResolution_of_root : ∃ (labels : List (CwdOp Unit)) (s s' : Scheduler Unit),
    Run CwdStep (Scheduler.init noBlocks 1) labels s ∧ s.running = some 0 ∧
    (∃ events, s.clone (.thread 0x80200000) = .ok (s', events)) ∧
    SameResolution (s'.pcb s.nextPcb) (s.pcb 0) := by
  let program : Program Unit := ⟨0x80100000, (), {}⟩
  obtain ⟨s₁, create_eq, s₂, schedule_eq, running_eq, cwd_eq, s₃, events, clone_eq⟩ : ∃ s₁,
      (∃ events, (Scheduler.init noBlocks 1).createProcess program = .ok (s₁, events)) ∧ ∃ s₂,
      (∃ events, s₁.schedule program = .ok (s₂, events)) ∧ s₂.running = some 0 ∧
      (s₂.pcb 0).cwd = ['/'] ∧ ∃ s₃ events, s₂.clone (.thread 0x80200000) = .ok (s₃, events) :=
    ⟨_, ⟨_, rfl⟩, _, ⟨_, rfl⟩, rfl, rfl, _, _, rfl⟩
  have run : Run CwdStep (Scheduler.init noBlocks 1)
      [.sched (.createProcess program), .sched (.schedule program)] s₂ :=
    .snoc (.snoc .nil create_eq) schedule_eq
  exact ⟨_, s₂, s₃, run, running_eq, ⟨events, clone_eq⟩,
    (sameResolution_iff_of_run run running_eq (.clone running_eq clone_eq)).2 (.inl cwd_eq)⟩

theorem not_sameResolution_of_chdir : ∃ (labels : List (CwdOp Unit)) (s s' : Scheduler Unit),
    Run CwdStep (Scheduler.init noBlocks 1) labels s ∧ s.running = some 0 ∧
    (∃ events, s.clone (.thread 0x80200000) = .ok (s', events)) ∧
    getAbsolutePath ['.'] (some (s.pcb 0).cwd) = .ok (some ['/', 'a']) ∧
    getAbsolutePath ['.'] (some (s'.pcb s.nextPcb).cwd) = .ok (some ['/']) ∧
    ¬ SameResolution (s'.pcb s.nextPcb) (s.pcb 0) := by
  let program : Program Unit := ⟨0x80100000, (), {}⟩
  obtain ⟨s₁, create_eq, s₂, schedule_eq, s₃, chdir_eq, running_eq, parent_eq, s₄, events, clone_eq,
      child_eq⟩ : ∃ s₁,
      (∃ events, (Scheduler.init noBlocks 1).createProcess program = .ok (s₁, events)) ∧ ∃ s₂,
      (∃ events, s₁.schedule program = .ok (s₂, events)) ∧ ∃ s₃,
      s₂.sysChdir ['a'] = .ok s₃ ∧ s₃.running = some 0 ∧
      getAbsolutePath ['.'] (some (s₃.pcb 0).cwd) = .ok (some ['/', 'a']) ∧
      ∃ s₄ events, s₃.clone (.thread 0x80200000) = .ok (s₄, events) ∧
        getAbsolutePath ['.'] (some (s₄.pcb s₃.nextPcb).cwd) = .ok (some ['/']) :=
    ⟨_, ⟨_, rfl⟩, _, ⟨_, rfl⟩, _, rfl, rfl, rfl, _, _, rfl, rfl⟩
  refine ⟨[.sched (.createProcess program), .sched (.schedule program), .chdir ['a']], s₃, s₄,
    .snoc (.snoc (.snoc .nil create_eq) schedule_eq) chdir_eq, running_eq, ⟨events, clone_eq⟩,
    parent_eq, child_eq, fun same => ?_⟩
  have dot := same ['.']
  rw [parent_eq, child_eq] at dot
  cases dot

end SysCore.Sched
