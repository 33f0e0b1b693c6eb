import SysCore.Path.Normal

/-!
# Changing the directory

`sys_chdir` copies what `getAbsolutePath` returns into the 32 characters of
`cwd`, without a look at the pointer or at the length.  A longer path runs on into
the fields behind `cwd`, and beyond those out of the block.  The call never fails.

Where the path fits, the call does to the block what
`SysCore.Sched.Scheduler.sysChdir` says.
-/

namespace SysCore.Path

open Transition Container Fs Sched

/-- The end of a `PCB`: 32 bytes of `cwd`, the counters `pipe_read_count` and
`pipe_write_count` of 4 bytes each, the 16 bytes of `occupied_file_describer`, of
`occupied_kernel_heap`, of `occupied_pages` and of `signal_list`, and the 8 bytes of
`wstatus` and of `wait_pid`. -/
abbrev PcbTail := Buffer 120

structure PcbTail.HasCwd (tail : PcbTail) (cwd : List Char) : Prop where
  text : tail.Text cwd
  fits : cwd.length < 32

def PcbTail.fields (tail : PcbTail) : List Char :=
  tail.behind 32

def sysChdir (tables : PathTables) (tail : PcbTail) (path : CText) : Outcome (Int × PcbTail × PathTables) := do
  let cwd ← readText tail.chars
  let (absolute, tables) ← tables.getAbsolutePath (some path) (some cwd)
  match absolute with
  | none => .error .stray
  | some memory => do
    let tail ← tail.strcpy 0 memory
    return (0, tail, tables)

structure ChangesOnlyCwd (tail : PcbTail) (absolute : Outcome (Option (List Char)))
    (outcome : Outcome (Int × PcbTail × PathTables)) : Prop where
  changes : ∀ target, absolute = .ok (some target) → target.length < 32 →
    ∃ tail' tables', outcome = .ok (0, tail', tables') ∧ PcbTail.HasCwd tail' target ∧
      PcbTail.fields tail' = PcbTail.fields tail
  fails : (¬ ∃ target, absolute = .ok (some target) ∧ target.length < 32) →
    ∃ tables', outcome = .ok (-1, tail, tables')

section Chdir

variable {tail : PcbTail} {cwd path : CText} {target : List Char}

theorem sysChdir_eq (hasCwd : PcbTail.HasCwd tail cwd.chars) (tables : PathTables) (path : CText) :
    sysChdir tables tail path = tables.getAbsolutePath (some path) (some cwd) >>= fun absolute =>
      absolute.1.elim (.error .stray) fun memory => tail.strcpy 0 memory >>= fun tail => .ok (0, tail, absolute.2) := by
  obtain ⟨nulFree, rest, chars_eq⟩ := hasCwd.text
  unfold sysChdir
  rw [chars_eq, readText_text nulFree, ok_bind]
  apply bind_congr
  rintro ⟨absolute, tables'⟩
  cases absolute <;> rfl

theorem sysChdir_of_target (hasCwd : PcbTail.HasCwd tail cwd.chars) (tables : PathTables)
    (absolute : Sched.getAbsolutePath path.chars (some cwd.chars) = .ok (some target))
    (inside : target.length < 120) :
    ∃ tail' tables', sysChdir tables tail path = .ok (0, tail', tables') ∧ nul ∉ target ∧
      tail'.chars = target ++ nul :: tail.behind (target.length + 1) := by
  have refined := getAbsolutePath_refines tables path (some cwd)
  rw [show (some cwd).map CText.chars = some cwd.chars from rfl, absolute] at refined
  obtain ⟨nulFree, rest, tables', returned⟩ := refined
  have inside' : ([] : List Char).length + target.length < 120 := by simpa using inside
  obtain ⟨tail', copied, chars_eq⟩ := Buffer.strcpy_eq (List.nil_append tail.chars).symm nulFree inside' rest
  refine ⟨tail', tables', ?_, nulFree, chars_eq⟩
  rw [List.length_nil] at copied
  rw [sysChdir_eq hasCwd, returned, ok_bind, Option.elim_some, copied]
  rfl

theorem sysChdir_returns_zero (hasCwd : PcbTail.HasCwd tail cwd.chars) {tables tables' : PathTables}
    {ret : Int} {tail' : PcbTail} (returned : sysChdir tables tail path = .ok (ret, tail', tables')) : ret = 0 := by
  rw [sysChdir_eq hasCwd] at returned
  obtain ⟨⟨absolute, tables''⟩, -, returned⟩ := bind_eq_ok.1 returned
  cases absolute with
  | none => cases returned
  | some memory =>
    obtain ⟨tail'', -, returned⟩ := bind_eq_ok.1 returned
    cases returned
    rfl

theorem hasCwd_of_copy {tail' : PcbTail} (nulFree : nul ∉ target) (fits : target.length < 32)
    (chars_eq : tail'.chars = target ++ nul :: tail.behind (target.length + 1)) :
    PcbTail.HasCwd tail' target ∧ PcbTail.fields tail' = PcbTail.fields tail := by
  refine ⟨⟨⟨nulFree, _, chars_eq⟩, fits⟩, ?_⟩
  unfold PcbTail.fields Buffer.behind at *
  obtain ⟨more, more_eq⟩ : ∃ more, 32 = (target ++ [nul]).length + more :=
    ⟨31 - target.length, by simp; omega⟩
  have split_eq : tail'.chars = (target ++ [nul]) ++ tail.chars.drop (target.length + 1) := by
    rw [chars_eq]
    simp
  rw [split_eq, more_eq, List.drop_length_add_append, List.drop_drop, List.length_append]
  rfl

/-- The call does what it should exactly if there is a path that has room in `cwd`. -/
theorem sysChdir_changesOnlyCwd_iff (tables : PathTables) (hasCwd : PcbTail.HasCwd tail cwd.chars) (path : CText) :
    ChangesOnlyCwd tail (Sched.getAbsolutePath path.chars (some cwd.chars)) (sysChdir tables tail path) ↔
      ∃ target, Sched.getAbsolutePath path.chars (some cwd.chars) = .ok (some target) ∧ target.length < 32 := by
  constructor
  · intro meets
    by_contra noRoom
    obtain ⟨tables', returned⟩ := meets.fails noRoom
    exact absurd (sysChdir_returns_zero hasCwd returned) (by decide)
  · intro hasRoom
    constructor
    · intro target absolute fits
      obtain ⟨tail', tables', returned, nulFree, chars_eq⟩ := sysChdir_of_target hasCwd tables absolute (by omega)
      exact ⟨tail', tables', returned, hasCwd_of_copy nulFree fits chars_eq⟩
    · intro noRoom
      exact absurd hasRoom noRoom

def rootTail : PcbTail :=
  ⟨'/' :: List.replicate 119 nul, rfl⟩

theorem rootTail_hasCwd : PcbTail.HasCwd rootTail slash.chars :=
  ⟨⟨slash.nulFree, List.replicate 118 nul, rfl⟩, by decide⟩

theorem sysChdir_changesOnlyCwd_of_short :
    ChangesOnlyCwd rootTail (.ok (some ['/', 'a']))
      (sysChdir zeroTables rootTail ⟨['a'], by decide⟩) :=
  (sysChdir_changesOnlyCwd_iff zeroTables rootTail_hasCwd ⟨['a'], by decide⟩).2 ⟨['/', 'a'], rfl, by decide⟩

def longName : CText := ⟨List.replicate 32 'a', by decide⟩

theorem sysChdir_overwrites_fields :
    ∃ tail' tables', sysChdir zeroTables rootTail longName = .ok (0, tail', tables') ∧
      PcbTail.fields tail' = 'a' :: nul :: List.replicate 86 nul ∧
      PcbTail.fields rootTail = nul :: nul :: List.replicate 86 nul := by
  obtain ⟨tail', tables', returned, -, chars_eq⟩ :=
    @sysChdir_of_target _ _ longName ('/' :: List.replicate 32 'a') rootTail_hasCwd zeroTables rfl (by decide)
  refine ⟨tail', tables', returned, ?_, rfl⟩
  unfold PcbTail.fields Buffer.behind
  rw [chars_eq]
  rfl

end Chdir

/-! ## The scheduler's view -/

section Calls

variable {μ : Type} {s s' : Scheduler μ} {ref : Nat} {tail : PcbTail}

theorem sysChdir_of_scheduler {path : CText} (running : s.running = some ref)
    (hasCwd : PcbTail.HasCwd tail (s.pcb ref).cwd) (called : s.sysChdir path.chars = .ok s') (tables : PathTables) :
    ∃ tail' tables', sysChdir tables tail path = .ok (0, tail', tables') ∧
      PcbTail.HasCwd tail' (s'.pcb ref).cwd ∧ PcbTail.fields tail' = PcbTail.fields tail := by
  obtain ⟨other, target, other_eq, absolute_eq, short, placement_eq⟩ := sysChdir_eq_ok called
  cases running.symm.trans other_eq
  obtain ⟨tail', tables', returned, nulFree, chars_eq⟩ :=
    @sysChdir_of_target tail ⟨_, hasCwd.text.1⟩ path target hasCwd tables absolute_eq (by omega)
  refine ⟨tail', tables', returned, ?_⟩
  rw [placement_eq]
  simpa using hasCwd_of_copy nulFree short chars_eq

theorem components_pathBuffer {path : List Char} (relative : path.head? ≠ some '/') (cwd : List Char) :
    components (pathBuffer path (some cwd)) = components cwd ++ components path := by
  rw [pathBuffer, if_neg relative]
  split
  next ends =>
    obtain ⟨front, rfl⟩ := List.getLast?_eq_some_iff.1 ends
    rw [List.append_assoc, List.singleton_append, components_append_cons, components_append_cons, components_nil,
      List.append_nil]
  · exact components_append_cons cwd path

theorem resolve_append_eq (first rest res : List Name) :
    resolve (first ++ rest) res = (resolve first res).bind (resolve rest) := by
  induction first generalizing res with
  | nil => rfl
  | cons unit first ih =>
    rw [List.cons_append, resolve, resolve]
    split_ifs
    · exact ih res
    · rfl
    · exact ih _
    · rfl
    · exact ih _

theorem resolve_components {cwd : List Char} (rooted : Rooted cwd) : resolve (components cwd) [] = some (components cwd) := by
  rcases rooted with rfl | rfl | ⟨units, -, few, ordinary, rfl, -⟩
  · rfl
  · rfl
  · rw [components_joinAbsolutePath fun unit unitMem => (ordinary unit unitMem).1]
    have appended := @resolve_append units [] ordinary (by simpa using few) []
    rwa [List.append_nil, List.nil_append] at appended

theorem resolve_of_sysChdir {path : List Char} (inUse : InUse s) (running : s.running = some ref)
    (relative : path.head? ≠ some '/') (called : s.sysChdir path = .ok s') :
    s'.running = some ref ∧ resolve (components path) (components (s.pcb ref).cwd) = some (components (s'.pcb ref).cwd) := by
  obtain ⟨other, target, other_eq, absolute_eq, short, placement_eq⟩ := sysChdir_eq_ok called
  cases running.symm.trans other_eq
  have rooted := inUse.rooted ref (inUse.lt_of_running running)
  have resolved := (rooted_of_getAbsolutePath rooted absolute_eq short).2
  rw [components_pathBuffer relative, resolve_append_eq, resolve_components rooted, Option.bind_some] at resolved
  rw [placement_eq]
  exact ⟨running, by simpa using resolved⟩

def sysChdirs (state : PcbTail × PathTables) (paths : List CText) : Outcome (PcbTail × PathTables) :=
  paths.foldlM (fun state path => do
    let result ← sysChdir state.2 state.1 path
    return result.2) state

/-- Calls with relative paths lead where one walk over the units of all of them leads, and change
nothing but the directory. -/
theorem sysChdirs_resolve {pcb : Nat → PCB μ} {testTotal : Nat} {labels : List (CwdOp μ)}
    (run : Run CwdStep (Scheduler.init pcb testTotal) labels s) (running : s.running = some ref) {paths : List CText}
    (relative : ∀ path ∈ paths, path.chars.head? ≠ some '/')
    (called : paths.foldlM (fun s path => s.sysChdir path.chars) s = .ok s')
    (hasCwd : PcbTail.HasCwd tail (s.pcb ref).cwd) (tables : PathTables) :
    resolve (paths.flatMap fun path => components path.chars) (components (s.pcb ref).cwd) =
        some (components (s'.pcb ref).cwd) ∧
      ∃ tail' tables', sysChdirs (tail, tables) paths = .ok (tail', tables') ∧
        PcbTail.HasCwd tail' (s'.pcb ref).cwd ∧ PcbTail.fields tail' = PcbTail.fields tail := by
  have inUse := InUse.of_run run
  clear run
  induction paths generalizing s tail tables with
  | nil =>
    cases called
    exact ⟨rfl, tail, tables, rfl, hasCwd, rfl⟩
  | cons path paths ih =>
    obtain ⟨s₁, first, rest⟩ := bind_eq_ok.1 (List.foldlM_cons.symm.trans called)
    obtain ⟨running₁, resolved⟩ := resolve_of_sysChdir inUse running (relative path List.mem_cons_self) first
    obtain ⟨tail₁, tables₁, returned, hasCwd₁, fields₁⟩ := sysChdir_of_scheduler running hasCwd first tables
    obtain ⟨all, tail', tables', returned', hasCwd', fields'⟩ :=
      ih running₁ (fun other otherMem => relative other (List.mem_cons_of_mem _ otherMem)) rest hasCwd₁ tables₁
        (inUse.step (show CwdStep s (.chdir path.chars) s₁ from first))
    constructor
    · rw [List.flatMap_cons, resolve_append_eq, resolved, Option.bind_some, all]
    · refine ⟨tail', tables', ?_, hasCwd', fields'.trans fields₁⟩
      rw [sysChdirs, List.foldlM_cons, returned]
      exact returned'

def thereAndBack : List CText :=
  [⟨['a', '/', 'b'], by decide⟩, dotDot]

theorem sysChdirs_resolve_of_first : ∃ tail' tables',
    sysChdirs (rootTail, zeroTables) thereAndBack = .ok (tail', tables') ∧ PcbTail.HasCwd tail' ['/', 'a'] := by
  let program : Program Unit := ⟨0x80100000, (), {}⟩
  obtain ⟨s₁, create_eq, s₂, schedule_eq, s₃, chdir_eq, running_eq, cwd_eq, target_eq⟩ : ∃ s₁,
      (∃ events, (Scheduler.init noBlocks 1).createProcess program = .ok (s₁, events)) ∧ ∃ s₂,
      (∃ events, s₁.schedule program = .ok (s₂, events)) ∧ ∃ s₃,
      thereAndBack.foldlM (fun s path => s.sysChdir path.chars) s₂ = .ok s₃ ∧ s₂.running = some 0 ∧
        (s₂.pcb 0).cwd = slash.chars ∧ (s₃.pcb 0).cwd = ['/', 'a'] :=
    ⟨_, ⟨_, rfl⟩, _, ⟨_, rfl⟩, _, rfl, rfl, rfl, rfl⟩
  have run : Run CwdStep (Scheduler.init noBlocks 1)
      [.sched (.createProcess program), .sched (.schedule program)] s₂ := .snoc (.snoc .nil create_eq) schedule_eq
  obtain ⟨-, tail', tables', returned, hasCwd, -⟩ := sysChdirs_resolve run running_eq (by decide) chdir_eq
    (cwd_eq ▸ rootTail_hasCwd) zeroTables
  exact ⟨tail', tables', returned, target_eq ▸ hasCwd⟩

end Calls

end SysCore.Path
