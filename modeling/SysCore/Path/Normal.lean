import SysCore.Path.Tables

/-!
# Normal paths

The reference for `getAbsolutePath` is a stack: `.` is ignored, `..` takes the
last unit off, and everything else is put on top.  On the tables the same is
computed for every directory that is empty or starts at the root, as long as
there are at most 16 units.

With more units than that the first table is overrun, however small the depth
stays: only the second one is checked.
-/

namespace SysCore.Path

open Transition Container Fs Sched List

def push (stack : List Name) (unit : Name) : Option (List Name) :=
  if unit = ['.'] then some stack
  else if unit = ['.', '.'] then (if stack = [] then none else some stack.tail)
  else if (unit :: stack).length = 16 then none
  else some (unit :: stack)

def render (stack : List Name) : List Char :=
  if stack = [] then ['/'] else joinAbsolutePath stack.reverse

def normalForm (text : List Char) : Option (List Char) :=
  ((components text).foldlM push []).map render

def FromRoot (cwd : CText) : Prop :=
  cwd.chars = [] ∨ cwd.chars.head? = some '/'

/-! ## The stack -/

theorem foldlM_push (units : List Name) {stack : List Name} (few : stack.length < 16) :
    units.foldlM push stack = (resolve units stack.reverse).map List.reverse := by
  induction units generalizing stack with
  | nil =>
    rw [resolve, Option.map_some, reverse_reverse]
    rfl
  | cons unit units ih =>
    rw [foldlM_cons, resolve, push]
    by_cases isDot : unit = ['.']
    · rw [if_pos isDot, if_pos isDot]
      exact ih few
    rw [if_neg isDot, if_neg isDot]
    by_cases isDotDot : unit = ['.', '.']
    · rw [if_pos isDotDot, if_pos isDotDot]
      cases stack with
      | nil => rfl
      | cons top stack =>
        rw [length_cons] at few
        rw [if_neg (cons_ne_nil top stack), if_neg (by simp), reverse_cons, dropLast_concat,
          tail_cons]
        exact ih (by omega)
    · rw [if_neg isDotDot, if_neg isDotDot, length_reverse, length_cons]
      by_cases full : stack.length + 1 = 16
      · rw [if_pos full, if_pos (by omega)]
        rfl
      · rw [if_neg full, if_neg (by omega), ← reverse_cons]
        exact ih (by rw [length_cons]; omega)

theorem normalForm_eq (text : List Char) :
    normalForm text = (resolve (components text) []).map fun kept =>
      if kept = [] then ['/'] else joinAbsolutePath kept := by
  unfold normalForm
  rw [foldlM_push (components text) (by decide), reverse_nil, Option.map_map]
  congr 1
  funext kept
  simp [render]

/-! ## Lengths -/

theorem length_joinAbsolutePath_append (front rest : List Name) :
    (joinAbsolutePath (front ++ rest)).length =
      (joinAbsolutePath front).length + (joinAbsolutePath rest).length := by
  rw [joinAbsolutePath_append, length_append]

theorem length_components_le (text : List Char) :
    (joinAbsolutePath (components text)).length ≤ text.length + 1 := by
  induction length_eq : text.length using Nat.strongRecOn generalizing text with
  | ind length ih =>
    by_cases hasSlash : '/' ∈ text
    · obtain ⟨unit, more, rfl, -⟩ := eq_append_cons_of_mem hasSlash
      rw [length_append, length_cons] at length_eq
      have first := ih unit.length (by omega) unit rfl
      have later := ih more.length (by omega) more rfl
      rw [components_append_cons, length_joinAbsolutePath_append]
      omega
    · rw [components_of_not_mem hasSlash]
      split
      · exact Nat.zero_le _
      · simp [joinAbsolutePath, ← length_eq]

theorem length_dropLast_le (units : List Name) :
    (joinAbsolutePath units.dropLast).length ≤ (joinAbsolutePath units).length := by
  rcases eq_nil_or_concat' units with rfl | ⟨front, last, rfl⟩
  · exact Nat.le_refl _
  · rw [dropLast_concat, length_joinAbsolutePath_append]
    omega

theorem length_resolve_le {units res kept : List Name} (resolved : resolve units res = some kept) :
    (joinAbsolutePath kept).length ≤ (joinAbsolutePath res).length + (joinAbsolutePath units).length := by
  induction units generalizing res with
  | nil =>
    cases resolved
    exact Nat.le_add_right ..
  | cons unit units ih =>
    have cons_eq : (joinAbsolutePath (unit :: units)).length =
        (joinAbsolutePath [unit]).length + (joinAbsolutePath units).length :=
      length_joinAbsolutePath_append [unit] units
    rw [resolve] at resolved
    split at resolved
    · have later := ih resolved
      omega
    · split at resolved
      · split at resolved
        · cases resolved
        · have later := ih resolved
          have shorter := length_dropLast_le res
          omega
      · split at resolved
        · cases resolved
        · have later := ih resolved
          rw [length_joinAbsolutePath_append] at later
          omega

/-! ## What the tables compute -/

section Reference

variable {path cwd : CText} {text result : List Char}

theorem joined_head (fromRoot : FromRoot cwd) (path : CText) : (joined path (some cwd)).head? = some '/' :=
  pathBuffer_head_of_head fromRoot path.chars

theorem length_normalForm_le (head : text.head? = some '/') (normal : normalForm text = some result) :
    result.length ≤ text.length := by
  obtain ⟨rest, rfl⟩ := List.head?_eq_some_iff.1 head
  rw [normalForm_eq, Option.map_eq_some_iff] at normal
  obtain ⟨kept, resolved, rfl⟩ := normal
  split
  · simp
  · have kept_le := length_resolve_le resolved
    have units_le := length_components_le rest
    have components_eq : components ('/' :: rest) = components rest := components_append_cons [] rest
    rw [components_eq] at kept_le
    rw [length_cons]
    exact Nat.le_trans kept_le (by simpa [joinAbsolutePath] using units_le)

theorem getAbsolutePath_of_fromRoot (fromRoot : FromRoot cwd) (fits : (joined path (some cwd)).length ≤ 511)
    (few : (components (joined path (some cwd))).length ≤ 16) :
    Sched.getAbsolutePath path.chars (some cwd.chars) = .ok (normalForm (joined path (some cwd))) := by
  have head := joined_head fromRoot path
  have texts := getAbsolutePath_eq path (some cwd)
  rw [if_neg (by omega), takeWhile_of_head head] at texts
  rw [show some cwd.chars = (some cwd).map CText.chars from rfl, texts]
  cases resolved : resolve (components (joined path (some cwd))) [] with
  | none =>
    rw [normalForm_eq, resolved]
    rfl
  | some kept =>
    have normal : normalForm (joined path (some cwd)) =
        some (if kept = [] then ['/'] else joinAbsolutePath kept) := by
      rw [normalForm_eq, resolved]
      rfl
    have short := length_normalForm_le head normal
    rw [normal]
    by_cases isEmpty : kept = []
    · simp [isEmpty]
    · rw [if_neg isEmpty] at short ⊢
      rw [Option.elim_some, nil_append, if_neg isEmpty, if_neg (by omega)]

theorem normalForm_of_normalForm (normal : normalForm text = some result) :
    normalForm result = some result ∧ result.head? = some '/' ∧ (components result).length ≤ 16 := by
  rw [normalForm_eq, Option.map_eq_some_iff] at normal
  obtain ⟨kept, resolved, rfl⟩ := normal
  obtain ⟨ordinary, few⟩ := unit_of_resolve (fun unit unitMem => valid_of_mem_components unitMem) (by simp)
    (by decide) resolved
  by_cases isEmpty : kept = []
  · rw [if_pos isEmpty]
    exact ⟨rfl, rfl, by decide⟩
  · rw [if_neg isEmpty]
    have components_eq := components_joinAbsolutePath fun unit unitMem => (ordinary unit unitMem).1
    have kept_eq : resolve kept [] = some kept := by
      have appended := @resolve_append kept [] ordinary (by simpa using few) []
      rwa [append_nil, nil_append] at appended
    refine ⟨?_, head?_joinAbsolutePath isEmpty, ?_⟩
    · rw [normalForm_eq, components_eq, kept_eq, Option.map_some, if_neg isEmpty]
    · rw [components_eq]
      omega

end Reference

/-- `getAbsolutePath` returns the normal form of the joined text, and a normal form
is returned as it is. -/
theorem getAbsolutePath_returns_normalForm (tables : PathTables) {path cwd : CText} (fromRoot : FromRoot cwd)
    (fits : (joined path (some cwd)).length ≤ 511)
    (few : (components (joined path (some cwd))).length ≤ 16) :
    Returns (tables.getAbsolutePath (some path) (some cwd)) (.ok (normalForm (joined path (some cwd)))) ∧
      ∀ result : CText, normalForm (joined path (some cwd)) = some result.chars →
        ∀ (tables' : PathTables) (cwd' : CText), FromRoot cwd' →
          Returns (tables'.getAbsolutePath (some result) (some cwd')) (.ok (some result.chars)) := by
  constructor
  · rw [← getAbsolutePath_of_fromRoot fromRoot fits few]
    exact getAbsolutePath_refines tables path (some cwd)
  · intro result normal tables' cwd' fromRoot'
    obtain ⟨again, head, few'⟩ := normalForm_of_normalForm normal
    have joined_eq : joined result (some cwd') = result.chars := if_pos head
    have fits' := length_normalForm_le (joined_head fromRoot path) normal
    have texts : Sched.getAbsolutePath result.chars (some cwd'.chars) = .ok (normalForm result.chars) := by
      have given := @getAbsolutePath_of_fromRoot result cwd' fromRoot'
      rw [joined_eq] at given
      exact given (by omega) few'
    rw [again] at texts
    rw [← texts]
    exact getAbsolutePath_refines tables' result (some cwd')

def zeroTables : PathTables where
  strBuff := Buffer.zero 512
  units _ := Buffer.zero 512
  res _ := Buffer.zero 512

theorem getAbsolutePath_returns_of_dots :
    Returns (zeroTables.getAbsolutePath (some ⟨['a', '/', '/', '.', '/', 'b', '/', '.', '.'], by decide⟩) (some slash))
      (.ok (some ['/', 'a'])) :=
  (getAbsolutePath_returns_normalForm zeroTables (.inr rfl) (by decide) (by decide)).1

/-- The call stays inside its tables exactly if there are at most 16 units. -/
theorem getAbsolutePath_returns_iff (tables : PathTables) {path cwd : CText} (fromRoot : FromRoot cwd)
    (fits : (joined path (some cwd)).length ≤ 511) :
    (∃ result tables', tables.getAbsolutePath (some path) (some cwd) = .ok (result, tables')) ↔
      (components (joined path (some cwd))).length ≤ 16 := by
  have refined := getAbsolutePath_refines tables path (some cwd)
  constructor
  · rintro ⟨result, tables', returned⟩
    by_contra many
    rw [getAbsolutePath_eq, if_pos (.inr (by omega))] at refined
    cases refined.symm.trans returned
  · intro few
    rw [show (some cwd).map CText.chars = some cwd.chars from rfl,
      getAbsolutePath_of_fromRoot fromRoot fits few] at refined
    cases normal : normalForm (joined path (some cwd)) with
    | none =>
      rw [normal] at refined
      obtain ⟨tables', returned⟩ := refined
      exact ⟨none, tables', returned⟩
    | some text =>
      rw [normal] at refined
      obtain ⟨-, rest, tables', returned⟩ := refined
      exact ⟨_, tables', returned⟩

theorem getAbsolutePath_returns_of_single :
    ∃ result tables', zeroTables.getAbsolutePath (some dot) (some slash) = .ok (result, tables') :=
  (getAbsolutePath_returns_iff zeroTables (.inr rfl) (by decide)).2 (by decide)

def manyDots : CText := ⟨(List.replicate 17 ['.', '/']).flatten, by decide⟩

theorem getAbsolutePath_strays_of_manyDots :
    zeroTables.getAbsolutePath (some manyDots) (some slash) = .error .stray :=
  getAbsolutePath_refines zeroTables manyDots (some slash)

end SysCore.Path
