import SysCore.Stl.PathUtil
import SysCore.Fs.Tree

/-!
# What splitting leaves of its argument

The parameter of `PathUtil::split` is a constant reference, but `c_str` gives the array of
the string itself, in which every separator becomes a zero.  `File::search` splits its
argument in the same way.

The string is left as it was exactly if it has no separator, and the second call on the
same string finds what the first one has found exactly if there is no component behind the
first separator.
-/

namespace SysCore.Stl

open Transition Container Fs Path List

def Str.chars (str : Str) : List Char :=
  (str.data.take str.length).filterMap id

namespace PathUtil

def splitNames (path : Str) : Outcome (List Name × Str) := do
  let (units, path) ← split path
  return (units.map Str.chars, path)

def search (siblings : List File) (path : Str) : Outcome (Option Position × Str) := do
  let (names, path) ← splitNames path
  return (File.search siblings names, path)

section Twice

variable {α : Type} (run : Str → Outcome (α × Str)) (path : Str)

def Keeps : Prop :=
  ∃ result, run path = .ok (result, path)

def SameTwice : Prop :=
  ∃ result path' path'', run path = .ok (result, path') ∧ run path' = .ok (result, path'')

end Twice

/-! ## The first and the second call -/

theorem chars_of_holds {str : Str} {chars : List Char} (holds : str.Holds chars) : str.chars = chars := by
  unfold Str.chars
  rw [holds.content, filterMap_map, Function.id_comp, filterMap_some]

variable {names names' : List Name} {path : Str} {text : List Char}

theorem map_chars_of_hold {units : List Str} (hold : Hold units names) : units.map Str.chars = names := by
  induction hold with
  | nil => rfl
  | cons holds _ ih => rw [map_cons, ih, chars_of_holds holds]

def zeroed (path : Str) (text : List Char) (rest : Block Char) : Str :=
  { path with data := (text.map blank).map some ++ some nul :: rest }

theorem splitNames_eq (reads : Reads path.data text) :
    ∃ rest, path.data = text.map some ++ some nul :: rest ∧
      splitNames path = .ok (components text, zeroed path text rest) := by
  rcases split_eq reads with ⟨units, rest, hold, data, split⟩
  refine ⟨rest, data, ?_⟩
  unfold splitNames
  rw [split, ok_bind]
  dsimp only
  rw [map_chars_of_hold hold]
  rfl

theorem reads_zeroed (nulFree : nul ∉ text) (path : Str) (rest : Block Char) :
    Reads (zeroed path text rest).data (text.takeWhile (· ≠ '/')) := by
  unfold zeroed
  by_cases hasSlash : '/' ∈ text
  · rcases eq_append_cons_of_mem hasSlash with ⟨unit, more, rfl, noSlash⟩
    have before : (unit ++ '/' :: more).takeWhile (· ≠ '/') = unit := by
      rw [takeWhile_append_of_pos, takeWhile_cons_of_neg (by decide), append_nil]
      intro c mem
      exact decide_eq_true fun isSlash => noSlash (isSlash ▸ mem)
    rw [before]
    rw [mem_append, not_or] at nulFree
    refine ⟨nulFree.1, (more.map blank).map some ++ some nul :: rest, ?_⟩
    rw [map_append, map_blank_of_not_mem noSlash, map_append, append_assoc]
    rfl
  · have whole : text.takeWhile (· ≠ '/') = text := by
      rw [takeWhile_eq_self_iff]
      intro c mem
      exact decide_eq_true fun isSlash => hasSlash (isSlash ▸ mem)
    rw [whole, map_blank_of_not_mem hasSlash]
    exact ⟨nulFree, rest, rfl⟩

theorem zeroed_eq_iff {rest : Block Char} (data : path.data = text.map some ++ some nul :: rest) :
    zeroed path text rest = path ↔ '/' ∉ text := by
  constructor
  · intro same hasSlash
    have cells : (text.map blank).map some ++ some nul :: rest = path.data := congrArg Str.data same
    rw [data] at cells
    have blanks := map_injective_iff.2 (Option.some_injective Char) (append_cancel_right cells)
    rw [← blanks] at hasSlash
    rcases mem_map.1 hasSlash with ⟨c, -, isSlash⟩
    unfold blank at isSlash
    split at isSlash
    · exact absurd isSlash (by decide)
    · contradiction
  · intro noSlash
    unfold zeroed
    rw [map_blank_of_not_mem noSlash, ← data]

def Splits {α : Type} (next : List Name → α) (run : Str → Outcome (α × Str)) : Prop :=
  ∀ (path : Str) (text : List Char), Reads path.data text → ∃ rest,
    path.data = text.map some ++ some nul :: rest ∧
      run path = .ok (next (components text), zeroed path text rest)

theorem splits_splitNames : Splits id splitNames :=
  fun _ _ => splitNames_eq

theorem splits_search (siblings : List File) : Splits (File.search siblings) (search siblings) := by
  intro path text reads
  rcases splitNames_eq reads with ⟨rest, data, split⟩
  refine ⟨rest, data, ?_⟩
  unfold search
  rw [split]
  rfl

section Calls

variable {α : Type} {next : List Name → α} {run : Str → Outcome (α × Str)} {path : Str} {text : List Char}

theorem Splits.keeps_iff (splits : Splits next run) (reads : Reads path.data text) :
    Keeps run path ↔ '/' ∉ text := by
  rcases splits path text reads with ⟨rest, data, returned⟩
  rw [← zeroed_eq_iff data]
  unfold Keeps
  rw [returned]
  constructor
  · rintro ⟨result, same⟩
    exact (Prod.mk.inj (Except.ok.inj same)).2
  · intro same
    exact ⟨_, by rw [same]⟩

theorem Splits.sameTwice_iff (splits : Splits next run) (reads : Reads path.data text) :
    SameTwice run path ↔ next (components text) = next (components (text.takeWhile (· ≠ '/'))) := by
  rcases splits path text reads with ⟨rest, -, returned⟩
  rcases splits _ _ (reads_zeroed reads.1 path rest) with ⟨rest', -, again⟩
  constructor
  · rintro ⟨result, path', path'', first, second⟩
    rw [returned] at first
    cases first
    rw [again] at second
    exact (Prod.mk.inj (Except.ok.inj second)).1.symm
  · intro same
    exact ⟨_, _, _, returned, again.trans (by rw [same])⟩

end Calls

/-! ## Trees that tell lists of names apart -/

def chain : List Name → List File
  | [] => []
  | name :: names => [.node name (chain names)]

theorem search_single (file : File) (filename : Name) (rest : List Name) :
    File.search [file] (filename :: rest) =
      if file.name = filename then
        if rest = [] then some [0] else (File.search file.children rest).map (0 :: ·)
      else none := by
  rw [File.search, List.findIdx?_cons]
  by_cases same : file.name = filename
  · cases rest with
    | nil => simp [same]
    | cons name rest =>
      simp only [same, beq_self_eq_true, if_true, reduceCtorEq, if_false, Option.bind_eq_bind, Option.bind_some,
        isEmpty_cons, Bool.false_eq_true, List.getElem?_cons_zero]
      cases File.search file.children (name :: rest) <;> rfl
  · simp [same]

theorem search_chain_self (nonempty : names ≠ []) :
    File.search (chain names) names = some (List.replicate names.length 0) := by
  induction names with
  | nil => exact absurd rfl nonempty
  | cons name names ih =>
    rw [chain, search_single, File.name, if_pos rfl]
    by_cases last : names = []
    · subst last
      rfl
    · rw [if_neg last]
      exact congrArg (Option.map (0 :: ·)) (ih last)

theorem eq_of_search_chain (nonempty : names ≠ [])
    (found : File.search (chain names) names' = some (List.replicate names.length 0)) :
    names' = names := by
  induction names generalizing names' with
  | nil => exact absurd rfl nonempty
  | cons name names ih =>
    cases names' with
    | nil => cases found
    | cons name' names' =>
      rw [chain, search_single] at found
      split at found
      · rename_i same
        split at found
        · rename_i last
          have lengths := congrArg List.length (Option.some.inj found)
          rw [length_replicate] at lengths
          have none_left : names = [] := eq_nil_of_length_eq_zero (Nat.succ.inj lengths).symm
          rw [last, none_left]
          exact congrArg (· :: []) same.symm
        · rename_i more
          rcases Option.map_eq_some_iff.1 found with ⟨below, found', same'⟩
          have below_eq : below = List.replicate names.length 0 := (List.cons.inj same').2
          subst below_eq
          have some_left : names ≠ [] := by
            rintro rfl
            cases names' <;> simp [chain, File.search] at found'
          rw [ih some_left found']
          exact congrArg (· :: names) same.symm
      · cases found

theorem eq_of_search_eq (same : ∀ siblings, File.search siblings names = File.search siblings names') :
    names = names' := by
  cases names with
  | nil =>
    cases names' with
    | nil => rfl
    | cons name names' =>
      have found := search_chain_self (cons_ne_nil name names')
      rw [← same] at found
      exact absurd found.symm (Option.some_ne_none _)
  | cons name names =>
    have nonempty := cons_ne_nil name names
    exact (eq_of_search_chain nonempty ((same _).symm.trans (search_chain_self nonempty))).symm

/-- A string keeps its bytes exactly if it has no separator; two calls agree exactly if
the text before the first separator has the same components as the whole.  The same is
true of a search, where the second part needs all trees. -/
theorem split_modifies_iff {path : Str} {chars : List Char} (holds : path.Holds chars) :
    (Keeps splitNames path ↔ '/' ∉ chars.takeWhile (· ≠ nul)) ∧
    (SameTwice splitNames path ↔ components (chars.takeWhile (· ≠ nul)) =
      components ((chars.takeWhile (· ≠ nul)).takeWhile (· ≠ '/'))) ∧
    (∀ siblings, Keeps (search siblings) path ↔ '/' ∉ chars.takeWhile (· ≠ nul)) ∧
    ((∀ siblings, SameTwice (search siblings) path) ↔ components (chars.takeWhile (· ≠ nul)) =
      components ((chars.takeWhile (· ≠ nul)).takeWhile (· ≠ '/'))) := by
  have reads := reads_of_holds holds
  refine ⟨splits_splitNames.keeps_iff reads, splits_splitNames.sameTwice_iff reads,
    fun siblings => (splits_search siblings).keeps_iff reads, ?_⟩
  constructor
  · intro same
    apply eq_of_search_eq
    intro siblings
    exact ((splits_search siblings).sameTwice_iff reads).1 (same siblings)
  · intro same siblings
    rw [(splits_search siblings).sameTwice_iff reads, same]

theorem split_keeps_name : Keeps splitNames ⟨2, 1, [some 'a', some nul]⟩ :=
  (split_modifies_iff (Str.holds_exact ['a'])).1.2 (by decide)

theorem split_loses_path : ∃ path path' path'' : Str, path.Holds ['/', 'a'] ∧
    splitNames path = .ok ([['a']], path') ∧ path'.data = [some nul, some 'a', some nul] ∧
    splitNames path' = .ok ([], path'') ∧
    search (chain [['a']]) path = .ok (some [0], path') ∧ search (chain [['a']]) path' = .ok (none, path'') := by
  refine ⟨⟨3, 2, [some '/', some 'a', some nul]⟩, ⟨3, 2, [some nul, some 'a', some nul]⟩,
    ⟨3, 2, [some nul, some 'a', some nul]⟩, Str.holds_exact ['/', 'a'], rfl, rfl, rfl, rfl, rfl⟩

end PathUtil

end SysCore.Stl
