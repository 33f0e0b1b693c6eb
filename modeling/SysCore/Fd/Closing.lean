import SysCore.Fd.Table

/-!
# Closing opened files

As long as no descriptor is put over descriptor 1, the count of an opened file is
the number of slots that refer to it.  Its destructor runs when the last of them
goes, and calls `fs->close` if the file has a path.  A descriptor put over
descriptor 1 is different: `Erase` does nothing there, so the old descriptor is
lost and its pointer is never given back.
-/

namespace SysCore.Fd

open Transition Container List

inductive Call where
  | openNewFile (path : List Char) (fd : Int) (res : Int)
  | copyFd (sourceFd targetFd : Int)
  | tryCloseFile (fd : Int)

def Call.exec (t : Table) : Call → Outcome (Table × List Nat)
  | .openNewFile path fd res => do
    let (_, t) ← t.openNewFile path fd res
    return (t, [])
  | .copyFd sourceFd targetFd => t.copyFd sourceFd targetFd
  | .tryCloseFile fd => t.tryCloseFile fd

def NamedIfLast (t : Table) (fd : Int) : Prop :=
  ∀ describer, t.fdArray fd.toNat = some describer → t.holders.count describer.file = 1 →
    t.path describer.file ≠ []

def Call.Careful (t : Table) : Call → Prop
  | .openNewFile .. => True
  | .copyFd _ targetFd => targetFd ≠ 1 ∧ NamedIfLast t targetFd
  | .tryCloseFile fd => NamedIfLast t fd

def CarefulStep (t : Table) (label : Call × List Nat) (t' : Table) : Prop :=
  label.1.Careful t ∧ label.1.exec t = .ok (t', label.2)

def closes (labels : List (Call × List Nat)) : List Nat :=
  labels.flatMap Prod.snd

def ClosedOnce (closed : List Nat) (t : Table) : Prop :=
  ∀ file < t.nextFile, closed.count file = if file ∈ t.holders then 0 else 1

/-! ## One call -/

structure Counted (t : Table) : Prop where
  count_eq : ∀ file, t.count file = t.holders.count file
  held_lt : ∀ file ∈ t.holders, file < t.nextFile
  single : ∀ fd describer, t.fdArray fd = some describer → describer.fdRefCount = 1

def Settles (t : Table) (closed : List Nat) (t' : Table) : Prop :=
  ∀ file, closed.count file = if file ∈ t.holders ∧ file ∉ t'.holders ∧ t.path file ≠ [] then 1 else 0

namespace Counted

variable {t t' : Table} {fd : Nat}

theorem put (counted : Counted t) (inRange : fd < arrayLength) (empty : t.fdArray fd = none)
    {file : Nat} (made : file < t.nextFile) (accessType : AccessType) :
    Counted (t.put fd (.new file accessType)) where
  count_eq other := by
    rw [Table.count_holders_put inRange empty]
    have count_eq := counted.count_eq other
    by_cases same : file = other
    · subst same
      simp [Table.put, Table.increase, Table.setSlot, FileDescriber.new, count_eq]
    · simp [Table.put, Table.increase, Table.setSlot, FileDescriber.new, count_eq, same, Ne.symm same]
  held_lt other held := by
    rw [← count_pos_iff, Table.count_holders_put inRange empty] at held
    by_cases same : file = other
    · exact same ▸ made
    · refine counted.held_lt other (count_pos_iff.1 ?_)
      simpa [FileDescriber.new, same] using held
  single other describer slot_eq := by
    rw [Table.put_slot] at slot_eq
    split at slot_eq
    · cases slot_eq
      rfl
    · exact counted.single other describer slot_eq

theorem newFile (counted : Counted t) (path : List Char) : Counted (t.newFile path) where
  count_eq other := by
    have same : (t.newFile path).holders = t.holders := rfl
    rw [same]
    by_cases new : other = t.nextFile
    · subst new
      have absent : t.nextFile ∉ t.holders := fun held => Nat.lt_irrefl _ (counted.held_lt _ held)
      simp [Table.newFile, count_eq_zero.2 absent]
    · simp [Table.newFile, new, counted.count_eq other]
  held_lt other held := Nat.lt_succ_of_lt (counted.held_lt other held)
  single := counted.single

theorem delete (counted : Counted t) (inRange : fd < arrayLength) {describer : FileDescriber}
    (slot_eq : t.fdArray fd = some describer) :
    Counted ((t.decrease describer.file).1.setSlot fd none) ∧
      Settles t (t.decrease describer.file).2 ((t.decrease describer.file).1.setSlot fd none) := by
  have held := Table.mem_holders_of_slot inRange slot_eq
  have holders_eq : ∀ file, ((t.decrease describer.file).1.setSlot fd none).holders.count file +
      (if describer.file = file then 1 else 0) = t.holders.count file :=
    Table.count_holders_clear inRange slot_eq
  have closed_eq : (t.decrease describer.file).2 =
      if t.count describer.file - 1 = 0 ∧ t.path describer.file ≠ [] then [describer.file] else [] :=
    rfl
  have count_eq : ∀ file, ((t.decrease describer.file).1.setSlot fd none).count file =
      t.count file - if describer.file = file then 1 else 0 := by
    intro file
    by_cases same : describer.file = file
    · subst same
      simp [Table.decrease, Table.setSlot]
    · simp [Table.decrease, Table.setSlot, same, Ne.symm same]
  have slots_eq : ∀ other, ((t.decrease describer.file).1.setSlot fd none).fdArray other =
      if other = fd then none else t.fdArray other := fun other => Table.setSlot_slot _ _ _ _
  have next_eq : ((t.decrease describer.file).1.setSlot fd none).nextFile = t.nextFile := rfl
  generalize (t.decrease describer.file).1.setSlot fd none = t' at *
  rw [closed_eq]
  refine ⟨⟨fun file => ?_, fun file isHeld => ?_, fun other found found_eq => ?_⟩, fun file => ?_⟩
  · have counts := holders_eq file
    rw [count_eq, counted.count_eq]
    split at counts <;> simp only [*, if_true, if_false] <;> omega
  · have counts := holders_eq file
    have positive := count_pos_iff.2 isHeld
    rw [next_eq]
    exact counted.held_lt file (count_pos_iff.1 (by omega))
  · rw [slots_eq] at found_eq
    split at found_eq
    · cases found_eq
    · exact counted.single other found found_eq
  · have counts := holders_eq file
    have before := counted.count_eq describer.file
    by_cases same : describer.file = file
    · subst same
      rw [if_pos rfl] at counts
      have last_iff : t.count describer.file - 1 = 0 ↔ describer.file ∉ t'.holders := by
        rw [← count_eq_zero]
        omega
      simp only [last_iff, held, true_and]
      split <;> simp
    · rw [if_neg same, Nat.add_zero] at counts
      have kept : file ∈ t'.holders ↔ file ∈ t.holders := by
        rw [← count_pos_iff, ← count_pos_iff, counts]
      have notLost : ¬ (file ∈ t.holders ∧ file ∉ t'.holders ∧ t.path file ≠ []) := fun lost =>
        lost.2.1 (kept.2 lost.1)
      rw [if_neg notLost]
      split <;> simp [same]

theorem erase (counted : Counted t) (inRange : fd < arrayLength) (notOne : fd ≠ 1) :
    Counted (t.erase fd).1 ∧ Settles t (t.erase fd).2 (t.erase fd).1 ∧
      (t.erase fd).1.path = t.path ∧ (t.erase fd).1.nextFile = t.nextFile ∧
      ∀ other, (t.erase fd).1.fdArray other = if other = fd then none else t.fdArray other := by
  cases slot_eq : t.fdArray fd with
  | none =>
    rw [Table.erase_none slot_eq]
    refine ⟨counted, fun file => ?_, rfl, rfl, fun other => ?_⟩
    · rw [if_neg (fun lost => lost.2.1 lost.1), count_nil]
    · split
      · rename_i same
        rw [same, slot_eq]
      · rfl
  | some describer =>
    have single := counted.single fd describer slot_eq
    rw [Table.erase_delete notOne slot_eq (by omega)]
    obtain ⟨after, settles⟩ := counted.delete inRange slot_eq
    exact ⟨after, settles, rfl, rfl, fun other => Table.setSlot_slot _ _ _ _⟩

end Counted

namespace ClosedOnce

variable {t t' : Table} {closed more : List Nat}

theorem settle (closedOnce : ClosedOnce closed t) (settles : Settles t more t')
    (next_eq : t'.nextFile = t.nextFile) (subset : ∀ file ∈ t'.holders, file ∈ t.holders)
    (named : ∀ file ∈ t.holders, file ∉ t'.holders → t.path file ≠ []) :
    ClosedOnce (closed ++ more) t' := by
  intro file made
  rw [next_eq] at made
  have before := closedOnce file made
  have now := settles file
  rw [count_append, before, now]
  by_cases held : file ∈ t.holders
  · by_cases held' : file ∈ t'.holders
    · simp [held, held']
    · simp [held, held', named file held held']
  · have notHeld : file ∉ t'.holders := fun held' => held (subset file held')
    simp [held, notHeld]

theorem opened (closedOnce : ClosedOnce closed t) (unclosed : closed.count t.nextFile = 0)
    (next_eq : t'.nextFile = t.nextFile + 1)
    (holders_iff : ∀ file, file ∈ t'.holders ↔ file ∈ t.holders ∨ file = t.nextFile) :
    ClosedOnce closed t' := by
  intro file made
  rw [next_eq] at made
  rcases Nat.lt_succ_iff_lt_or_eq.1 made with old | rfl
  · have different : file ≠ t.nextFile := Nat.ne_of_lt old
    rw [closedOnce file old]
    simp [holders_iff, different]
  · rw [unclosed]
    simp [holders_iff]

end ClosedOnce

structure Kept (closed : List Nat) (t : Table) : Prop where
  counted : Counted t
  closedOnce : ClosedOnce closed t
  closed_lt : ∀ file ∈ closed, file < t.nextFile

theorem init_holders : Table.init.holders = [1, 0, 0] := by
  decide

theorem Kept.init : Kept [] Table.init := by
  refine ⟨⟨fun file => ?_, fun file held => ?_, fun fd describer slot_eq => ?_⟩, fun file made => ?_,
    nofun⟩
  · rw [init_holders]
    by_cases first : file = 0
    · subst first
      rfl
    · by_cases second : file = 1
      · subst second
        rfl
      · simp [Table.init, first, second, Ne.symm first, Ne.symm second]
  · rw [init_holders] at held
    change file < 2
    simp only [mem_cons, not_mem_nil, or_false] at held
    omega
  · rcases Table.init_slot slot_eq with rfl | rfl <;> rfl
  · have small : file < 2 := made
    rw [init_holders]
    have held : file ∈ [1, 0, 0] := by
      simp only [mem_cons, not_mem_nil, or_false]
      omega
    rw [if_pos held]
    rfl

theorem Settles.held {t t' : Table} {closed : List Nat} (settles : Settles t closed t') {file : Nat}
    (isClosed : file ∈ closed) : file ∈ t.holders := by
  have counted := settles file
  have positive := count_pos_iff.2 isClosed
  by_contra notHeld
  rw [if_neg fun lost => notHeld lost.1] at counted
  omega

namespace Kept

variable {closed : List Nat} {t t' : Table}

theorem erase (kept : Kept closed t) {fd : Nat} (inRange : fd < arrayLength) (notOne : fd ≠ 1)
    (named : NamedIfLast t fd) : Kept (closed ++ (t.erase fd).2) (t.erase fd).1 := by
  obtain ⟨counted, settles, -, next_eq, slots_eq⟩ := kept.counted.erase inRange notOne
  have holders_eq : (t.erase fd).1.holders = (t.setSlot fd none).holders := by
    refine shares_congr fun other _ => ?_
    rw [slots_eq, Table.setSlot_slot]
  have counts := fun file => @Table.count_holders_setSlot t fd inRange none file
  simp only [← holders_eq, Table.count_slotFiles_none, Nat.add_zero] at counts
  have subset : ∀ file ∈ (t.erase fd).1.holders, file ∈ t.holders := by
    intro file held
    have positive := count_pos_iff.2 held
    exact count_pos_iff.1 (by have := counts file; omega)
  refine ⟨counted, kept.closedOnce.settle settles next_eq subset ?_, fun file isClosed => ?_⟩
  · intro file held lost
    have absent := count_eq_zero.2 lost
    have positive := count_pos_iff.2 held
    have count_eq := counts file
    cases slot_eq : t.fdArray fd with
    | none =>
      rw [slot_eq, Table.count_slotFiles_none] at count_eq
      omega
    | some describer =>
      rw [slot_eq, Table.count_slotFiles_some] at count_eq
      split at count_eq
      · rename_i same
        subst same
        exact named describer slot_eq (by omega)
      · omega
  · rw [next_eq]
    rcases mem_append.1 isClosed with old | new
    · exact kept.closed_lt file old
    · exact kept.counted.held_lt file (settles.held new)

theorem put (kept : Kept closed t) {fd : Nat} (inRange : fd < arrayLength)
    (empty : t.fdArray fd = none) {file : Nat} (held : file ∈ t.holders) (accessType : AccessType) :
    Kept closed (t.put fd (.new file accessType)) := by
  refine ⟨kept.counted.put inRange empty (kept.counted.held_lt file held) accessType,
    fun other made => ?_, kept.closed_lt⟩
  have holders_iff : other ∈ (t.put fd (.new file accessType)).holders ↔ other ∈ t.holders := by
    rw [← count_pos_iff, Table.count_holders_put inRange empty, ← count_pos_iff]
    by_cases same : file = other
    · subst same
      have positive := count_pos_iff.2 held
      omega
    · simp [FileDescriber.new, same]
  simpa [holders_iff] using kept.closedOnce other made

theorem newFile (kept : Kept closed t) {fd : Nat} (inRange : fd < arrayLength)
    (empty : t.fdArray fd = none) (path : List Char) :
    Kept closed ((t.newFile path).put fd (.new t.nextFile .rw)) := by
  have unclosed : closed.count t.nextFile = 0 :=
    count_eq_zero.2 fun isClosed => Nat.lt_irrefl _ (kept.closed_lt _ isClosed)
  refine ⟨(kept.counted.newFile path).put inRange empty (Nat.lt_succ_self _) .rw,
    kept.closedOnce.opened unclosed rfl fun file => ?_,
    fun file isClosed => Nat.lt_succ_of_lt (kept.closed_lt file isClosed)⟩
  have same : (t.newFile path).holders = t.holders := rfl
  rw [← count_pos_iff, @Table.count_holders_put (t.newFile path) fd inRange empty, same,
    ← count_pos_iff]
  by_cases new : t.nextFile = file
  · simp [FileDescriber.new, new]
  · simp [FileDescriber.new, new, Ne.symm new]

theorem step {label : Call × List Nat} (kept : Kept closed t) (stepped : CarefulStep t label t') :
    Kept (closed ++ label.2) t' := by
  obtain ⟨call, more⟩ := label
  obtain ⟨careful, exec_eq⟩ := stepped
  dsimp only at careful exec_eq ⊢
  cases call with
  | openNewFile path fd res =>
    obtain ⟨⟨ret, t₁⟩, open_eq, last_eq⟩ := bind_eq_ok.1 exec_eq
    cases last_eq
    rw [append_nil]
    obtain ⟨-, ⟨rfl, -⟩ | ⟨-, slot, -, inRange, empty, rfl⟩⟩ := Table.openNewFile_eq_ok open_eq
    · exact kept
    · exact kept.newFile inRange empty path
  | tryCloseFile fd =>
    obtain ⟨slot, rfl, inRange, -, rfl, rfl⟩ := Table.tryCloseFile_eq_ok exec_eq
    by_cases one : slot = 1
    · subst one
      rw [Table.erase_one, append_nil]
      exact kept
    · exact kept.erase inRange one careful
  | copyFd sourceFd targetFd =>
    obtain ⟨source, target, describer, -, rfl, sourceRange, targetRange, -, describer_eq, rfl, rfl⟩ :=
      Table.copyFd_eq_ok exec_eq
    have notOne : target ≠ 1 := fun one => careful.1 (by rw [one]; rfl)
    have slots_eq := (kept.counted.erase targetRange notOne).2.2.2.2
    have empty : (t.erase target).1.fdArray target = none := by rw [slots_eq, if_pos rfl]
    exact (kept.erase targetRange notOne careful.2).put targetRange empty
      (Table.mem_holders_of_slot sourceRange describer_eq) _

end Kept

/-- In every run that puts nothing over descriptor 1, every file is closed once,
when its last slot goes. -/
theorem closedOnce_of_run {labels : List (Call × List Nat)} {t : Table}
    (run : Run CarefulStep Table.init labels t) : ClosedOnce (closes labels) t := by
  have kept : Kept (closes labels) t := by
    refine Run.history (fun labels t => Kept (closes labels) t) ?_ run Kept.init
    intro labels label source target kept stepped
    simpa [closes] using kept.step stepped
  exact kept.closedOnce

theorem closedOnce_of_open_close : ∃ t : Table, 2 ∉ t.holders ∧
    Run CarefulStep Table.init [(.openNewFile ['/', 'a'] 3 0, []), (.tryCloseFile 3, [2])] t ∧
      ClosedOnce (closes [(.openNewFile ['/', 'a'] 3 0, []), (.tryCloseFile 3, [2])]) t := by
  obtain ⟨t₁, open_eq, slot_eq, named, t₂, close_eq, absent⟩ : ∃ t₁,
      Call.exec Table.init (.openNewFile ['/', 'a'] 3 0) = .ok (t₁, []) ∧
      t₁.fdArray 3 = some (.new 2 .rw) ∧ t₁.path 2 ≠ [] ∧
      ∃ t₂, Call.exec t₁ (.tryCloseFile 3) = .ok (t₂, [2]) ∧ 2 ∉ t₂.holders :=
    ⟨_, rfl, rfl, by decide, _, rfl, by decide⟩
  have run : Run CarefulStep Table.init
      [(.openNewFile ['/', 'a'] 3 0, []), (.tryCloseFile 3, [2])] t₂ := by
    refine .snoc (.snoc .nil ⟨trivial, open_eq⟩) ⟨fun describer found _ => ?_, close_eq⟩
    cases slot_eq.symm.trans found
    exact named
  exact ⟨t₂, absent, run, closedOnce_of_run run⟩

theorem not_closedOnce_of_copy : ∃ t t' : Table, Table.init.copyFd 0 1 = .ok (t, []) ∧
    t.tryCloseFile 2 = .ok (t', []) ∧ 0 ∉ t'.holders ∧ ¬ ClosedOnce [] t' := by
  obtain ⟨t, copy_eq, t', close_eq, absent, made⟩ : ∃ t, Table.init.copyFd 0 1 = .ok (t, []) ∧
      ∃ t', t.tryCloseFile 2 = .ok (t', []) ∧ 0 ∉ t'.holders ∧ 0 < t'.nextFile :=
    ⟨_, rfl, _, rfl, by decide, by decide⟩
  refine ⟨t, t', copy_eq, close_eq, absent, fun closedOnce => ?_⟩
  have console := closedOnce 0 made
  rw [if_neg absent] at console
  cases console

end SysCore.Fd
