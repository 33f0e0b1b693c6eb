import SysCore.Stl.Strings
import SysCore.Path.Tables

/-!
# Splitting and joining paths

`PathUtil::split` walks through the array of its argument with `strsep`, which ends each
unit with a zero, and makes a `String` of every unit that is not empty.
`PathUtil::joinAbsolutePath` appends the units behind separators.

The units are the components of the path, so that joining them gives the path with one
separator in front of each component and none elsewhere.
-/

namespace SysCore.Stl

open Transition Container Fs Path List

namespace PathUtil

def readable (data : Block Char) (pos : Nat) : List Char :=
  ((data.drop pos).takeWhile Option.isSome).filterMap id

def strsep (data : Block Char) : Option Nat → Outcome (Option Nat × Option Nat × Block Char)
  | none => .ok (none, none, data)
  | some start => do
    match ← strpbrk ['/'] (readable data start) with
    | none => return (some start, none, data)
    | some offset => do
      let data ← Block.store data (start + offset) (some nul)
      return (some start, some (start + offset + 1), data)

/-- `push_back` of a `char*`: the argument is a new `String` and is assigned to that of
the node. -/
def pushBack (res : List Str) (unit : List Char) : Outcome (List Str) := do
  let data ← Str.ofCStr unit
  let node ← Str.empty.assign (.other data)
  return res ++ [node]

def splitLoop : Nat → Block Char → Option Nat → List Str → Outcome (List Str × Block Char)
  | 0, _, _, _ => .error .hang
  | fuel + 1, data, cStr, res => do
    let (unit, cStr, data) ← strsep data cStr
    match unit with
    | none => return (res, data)
    | some unit =>
      if (readable data unit).head? = some nul then
        splitLoop fuel data cStr res
      else do
        let res ← pushBack res (readable data unit)
        splitLoop fuel data cStr res

def split (path : Str) : Outcome (List Str × Str) := do
  let (res, data) ← splitLoop (path.data.length + 1) path.data (some 0) []
  return (res, { path with data := data })

def joinLoop (res : Str) : List Str → Outcome Str
  | [] => .ok res
  | unit :: pathList => do
    let slash ← Str.ofCStr ['/', nul]
    let res ← res.append (.other slash)
    let res ← res.append (.other unit)
    joinLoop res pathList

def joinAbsolutePath (pathList : List Str) : Outcome Str :=
  joinLoop Str.empty pathList

abbrev Hold (strs : List Str) (texts : List (List Char)) : Prop :=
  List.Forall₂ Str.Holds strs texts

def Reads (data : Block Char) (text : List Char) : Prop :=
  nul ∉ text ∧ ∃ rest, data = text.map some ++ some nul :: rest

def squeeze : List Char → List Char
  | [] => []
  | c :: rest => if c = '/' ∧ (rest = [] ∨ rest.head? = some '/') then squeeze rest else c :: squeeze rest

/-! ## One unit -/

section Units

variable {text : List Char}

theorem readable_eq (front : Block Char) (text : List Char) (last : Char) (rest : Block Char) :
    readable (front ++ (text.map some ++ some last :: rest)) front.length =
      text ++ last :: (rest.takeWhile Option.isSome).filterMap id := by
  unfold readable
  rw [drop_left, Str.memory_cells]

theorem strsep_last (front rest : Block Char) (nulFree : nul ∉ text) (noSlash : '/' ∉ text) :
    strsep (front ++ (text.map some ++ some nul :: rest)) (some front.length) =
      .ok (some front.length, none, front ++ (text.map some ++ some nul :: rest)) := by
  rw [strsep, readable_eq, strpbrk_none nulFree (not_mem_separators noSlash)]
  rfl

theorem strsep_unit (front rest : Block Char) (nulFree : nul ∉ text) (noSlash : '/' ∉ text) :
    strsep (front ++ (text.map some ++ some '/' :: rest)) (some front.length) =
      .ok (some front.length, some (front.length + text.length + 1),
        front ++ (text.map some ++ some nul :: rest)) := by
  have stored := Block.store_append (front ++ text.map some) rest (some '/') (some nul)
  rw [length_append, length_map, append_assoc, append_assoc] at stored
  rw [strsep, readable_eq, strpbrk_some nulFree (not_mem_separators noSlash) mem_cons_self (by decide), ok_bind]
  dsimp only
  rw [stored]
  rfl

theorem pushBack_eq (nulFree : nul ∉ text) (res : List Str) (behind : List Char) :
    ∃ str, pushBack res (text ++ nul :: behind) = .ok (res ++ [str]) ∧ str.Holds text := by
  rcases Str.ofCStr_eq nulFree behind with ⟨data, made, holds⟩
  rcases holds.assign_eq Str.empty with ⟨node, assigned, holds'⟩
  refine ⟨node, ?_, holds'⟩
  rw [pushBack, made, ok_bind, assigned]
  rfl

theorem unit_eq {β : Type} (nulFree : nul ∉ text) (noSlash : '/' ∉ text) (res : List Str) (behind : List Char)
    (next : List Str → Outcome β) :
    ∃ units, Hold units (components text) ∧
      (if (text ++ nul :: behind).head? = some nul then next res
        else pushBack res (text ++ nul :: behind) >>= next) = next (res ++ units) := by
  cases text with
  | nil => exact ⟨[], .nil, by rw [append_nil]; rfl⟩
  | cons c text =>
    have notNul : ¬ (c :: text ++ nul :: behind).head? = some nul :=
      fun same => nulFree (Option.some.inj same ▸ mem_cons_self)
    rcases pushBack_eq nulFree res behind with ⟨str, pushed, holds⟩
    refine ⟨[str], ?_, ?_⟩
    · rw [components_name ⟨cons_ne_nil _ _, noSlash⟩]
      exact .cons holds .nil
    · rw [if_neg notNul, pushed, ok_bind]

end Units

/-! ## The loops -/

section Rounds

variable {text : List Char} (fuel : Nat) (front rest : Block Char) (res : List Str)

theorem splitLoop_last (nulFree : nul ∉ text) (noSlash : '/' ∉ text) :
    ∃ units, Hold units (components text) ∧
      splitLoop (fuel + 1) (front ++ (text.map some ++ some nul :: rest)) (some front.length) res =
        splitLoop fuel (front ++ (text.map some ++ some nul :: rest)) none (res ++ units) := by
  rcases unit_eq nulFree noSlash res ((rest.takeWhile Option.isSome).filterMap id)
    (splitLoop fuel (front ++ (text.map some ++ some nul :: rest)) none) with ⟨units, holds, kept⟩
  refine ⟨units, holds, ?_⟩
  rw [splitLoop, strsep_last front rest nulFree noSlash, ok_bind]
  dsimp only
  rw [readable_eq]
  exact kept

theorem splitLoop_unit (nulFree : nul ∉ text) (noSlash : '/' ∉ text) :
    ∃ units, Hold units (components text) ∧
      splitLoop (fuel + 1) (front ++ (text.map some ++ some '/' :: rest)) (some front.length) res =
        splitLoop fuel (front ++ (text.map some ++ some nul :: rest)) (some (front.length + text.length + 1))
          (res ++ units) := by
  rcases unit_eq nulFree noSlash res ((rest.takeWhile Option.isSome).filterMap id)
    (splitLoop fuel (front ++ (text.map some ++ some nul :: rest)) (some (front.length + text.length + 1)))
    with ⟨units, holds, kept⟩
  refine ⟨units, holds, ?_⟩
  rw [splitLoop, strsep_unit front rest nulFree noSlash, ok_bind]
  dsimp only
  rw [readable_eq]
  exact kept

end Rounds

variable {text chars : List Char} {pathList : List Str} {names : List Name} {path : Str}

theorem splitLoop_eq {fuel : Nat} (nulFree : nul ∉ text) (enough : text.length + 2 ≤ fuel)
    (front rest : Block Char) (res : List Str) :
    ∃ units, Hold units (components text) ∧
      splitLoop fuel (front ++ (text.map some ++ some nul :: rest)) (some front.length) res =
        .ok (res ++ units, front ++ ((text.map blank).map some ++ some nul :: rest)) := by
  induction fuel generalizing front text res with
  | zero => exact absurd enough (Nat.not_succ_le_zero _)
  | succ fuel ih =>
    by_cases hasSlash : '/' ∈ text
    · rcases eq_append_cons_of_mem hasSlash with ⟨unit, more, rfl, noSlash⟩
      rw [mem_append, mem_cons, not_or, not_or] at nulFree
      rw [length_append, length_cons] at enough
      rcases splitLoop_unit fuel front (more.map some ++ some nul :: rest) res nulFree.1 noSlash with
        ⟨units, holds, first⟩
      rcases ih nulFree.2.2 (by omega) (front ++ (unit.map some ++ [some nul])) (res ++ units) with
        ⟨units', holds', later⟩
      refine ⟨units ++ units', ?_, ?_⟩
      · rw [components_append_cons]
        exact rel_append holds holds'
      · have blanks : (unit ++ '/' :: more).map blank = unit ++ nul :: more.map blank := by
          rw [map_append, map_blank_of_not_mem noSlash]
          rfl
        simp only [length_append, length_map, length_singleton, append_assoc,
          singleton_append, ← Nat.add_assoc] at later
        rw [map_append, map_cons, append_assoc, cons_append, first, later, blanks]
        simp only [map_append, map_cons, append_assoc, cons_append]
    · rcases fuel with _ | fuel
      · omega
      rcases splitLoop_last (fuel + 1) front rest res nulFree hasSlash with ⟨units, holds, last⟩
      refine ⟨units, holds, ?_⟩
      rw [last, map_blank_of_not_mem hasSlash]
      rfl

theorem joinLoop_eq (hold : Hold pathList names) {res : Str} (holds : res.Holds chars) :
    ∃ str, joinLoop res pathList = .ok str ∧ str.Holds (chars ++ Fs.joinAbsolutePath names) := by
  induction hold generalizing res chars with
  | nil =>
    refine ⟨res, rfl, ?_⟩
    rw [Fs.joinAbsolutePath, append_nil]
    exact holds
  | cons unit _ ih =>
    rcases Str.ofCStr_eq (show nul ∉ ['/'] by decide) [] with ⟨slash, made, slashHolds⟩
    rcases Str.append_other holds slashHolds with ⟨behind, appended, behindHolds⟩
    rcases Str.append_other behindHolds unit with ⟨joined, appended', joinedHolds⟩
    rcases ih joinedHolds with ⟨str, loop, strHolds⟩
    refine ⟨str, ?_, ?_⟩
    · rw [joinLoop, show Str.ofCStr ['/', nul] = .ok slash from made, ok_bind, appended, ok_bind, appended',
        ok_bind, loop]
    · rw [append_assoc, append_assoc, singleton_append] at strHolds
      exact strHolds

/-! ## Split and join -/

theorem reads_of_holds (holds : path.Holds chars) : Reads path.data (chars.takeWhile (· ≠ nul)) := by
  rcases holds.cells with ⟨rest, data, -⟩
  constructor
  · intro zero
    have notNul := mem_takeWhile_imp zero
    exact absurd rfl (of_decide_eq_true notNul)
  · rw [data]
    exact Str.split_nul chars rest

theorem split_eq (reads : Reads path.data text) :
    ∃ units rest, Hold units (components text) ∧ path.data = text.map some ++ some nul :: rest ∧
      split path = .ok (units, { path with data := (text.map blank).map some ++ some nul :: rest }) := by
  rcases reads with ⟨nulFree, rest, data⟩
  have enough : text.length + 2 ≤ path.data.length + 1 := by
    rw [data, length_append, length_map, length_cons]
    omega
  rcases splitLoop_eq nulFree enough [] rest [] with ⟨units, hold, looped⟩
  refine ⟨units, rest, hold, data, ?_⟩
  rw [nil_append, ← data] at looped
  unfold split
  rw [show splitLoop _ _ (some 0) [] = _ from looped]
  rfl

theorem joinAbsolutePath_eq (hold : Hold pathList names) :
    ∃ str, joinAbsolutePath pathList = .ok str ∧ str.Holds (Fs.joinAbsolutePath names) :=
  joinLoop_eq hold Str.holds_empty

theorem squeeze_append {front : List Char} (noSlash : '/' ∉ front) (rest : List Char) :
    squeeze (front ++ rest) = front ++ squeeze rest := by
  induction front with
  | nil => rfl
  | cons c front ih =>
    rw [mem_cons, not_or] at noSlash
    rw [cons_append, squeeze, if_neg fun cond => noSlash.1 cond.1.symm, ih noSlash.2]
    rfl

theorem squeeze_slash {c : Char} (notSlash : c ≠ '/') (rest : List Char) :
    squeeze ('/' :: c :: rest) = '/' :: squeeze (c :: rest) := by
  rw [squeeze, if_neg]
  rintro ⟨-, isNil | isSlash⟩
  · exact absurd isNil (cons_ne_nil _ _)
  · exact notSlash (Option.some.inj isSlash)

theorem join_components (text : List Char) :
    Fs.joinAbsolutePath (components text) = squeeze ('/' :: text) := by
  induction length_eq : text.length using Nat.strongRecOn generalizing text with
  | ind length ih =>
    by_cases hasSlash : '/' ∈ text
    · rcases eq_append_cons_of_mem hasSlash with ⟨unit, more, rfl, noSlash⟩
      rw [length_append, length_cons] at length_eq
      have later := ih more.length (by omega) more rfl
      rw [components_append_cons]
      cases unit with
      | nil =>
        rw [components_nil, nil_append, nil_append, later, squeeze.eq_def ('/' :: '/' :: more)]
        exact (if_pos ⟨rfl, .inr rfl⟩).symm
      | cons c unit =>
        have notSlash : c ≠ '/' := fun isSlash => noSlash (isSlash ▸ mem_cons_self)
        have squeezed : squeeze ('/' :: (c :: unit ++ '/' :: more)) =
            '/' :: (c :: unit ++ squeeze ('/' :: more)) :=
          (squeeze_slash notSlash (unit ++ '/' :: more)).trans
            (congrArg ('/' :: ·) (squeeze_append noSlash ('/' :: more)))
        rw [components_name ⟨cons_ne_nil _ _, noSlash⟩, singleton_append, Fs.joinAbsolutePath, later,
          squeezed]
        rfl
    · cases text with
      | nil => rfl
      | cons c text =>
        have notSlash : c ≠ '/' := fun isSlash => hasSlash (isSlash ▸ mem_cons_self)
        have whole := squeeze_append hasSlash []
        rw [append_nil] at whole
        rw [components_name ⟨cons_ne_nil _ _, hasSlash⟩, squeeze_slash notSlash, whole]
        rfl

theorem nulFree_join (nulFree : ∀ name ∈ names, nul ∉ name) : nul ∉ Fs.joinAbsolutePath names := by
  induction names with
  | nil => exact not_mem_nil
  | cons name names ih =>
    have later := ih fun other mem => nulFree other (mem_cons_of_mem _ mem)
    rw [Fs.joinAbsolutePath, cons_append, mem_cons, mem_append, not_or, not_or]
    exact ⟨by decide, nulFree name mem_cons_self, later⟩

theorem takeWhile_nulFree (nulFree : nul ∉ text) : text.takeWhile (· ≠ nul) = text := by
  rw [takeWhile_eq_self_iff]
  intro c mem
  exact decide_eq_true fun isNul => nulFree (isNul ▸ mem)

/-- Splitting what was joined gives the names back, and joining what was split gives the
path with one separator in front of each component and none elsewhere. -/
theorem split_join :
    (∀ (pathList : List Str) (names : List Name), Hold pathList names →
      (∀ name ∈ names, ValidName name ∧ nul ∉ name) →
      ∃ path units path', joinAbsolutePath pathList = .ok path ∧ split path = .ok (units, path') ∧
        Hold units names) ∧
    ∀ (path : Str) (chars : List Char), path.Holds chars →
      ∃ units path' joined, split path = .ok (units, path') ∧
        Hold units (components (chars.takeWhile (· ≠ nul))) ∧ joinAbsolutePath units = .ok joined ∧
        joined.Holds (squeeze ('/' :: chars.takeWhile (· ≠ nul))) := by
  constructor
  · intro pathList names hold valid
    rcases joinAbsolutePath_eq hold with ⟨path, joined, holds⟩
    have reads := reads_of_holds holds
    rw [takeWhile_nulFree (nulFree_join fun name mem => (valid name mem).2)] at reads
    rcases split_eq reads with ⟨units, rest, hold', -, split⟩
    rw [components_joinAbsolutePath fun name mem => (valid name mem).1] at hold'
    exact ⟨path, units, _, joined, split, hold'⟩
  · intro path chars holds
    rcases split_eq (reads_of_holds holds) with ⟨units, rest, hold, -, split⟩
    rcases joinAbsolutePath_eq hold with ⟨str, joined, strHolds⟩
    rw [join_components] at strHolds
    exact ⟨units, _, str, split, hold, joined, strHolds⟩

end PathUtil

end SysCore.Stl
