import SysCore.Fs.Scan

/-!
# Names in the file tree

The file tree after `VFS::init` grows by `open` with `O_CREATE` and by `mkdir`.
A node is found by walking the sibling lists name by name and is identified
here by its position, the indices of the children on the way to it.  What the
underlying file system answers is part of a call.

`mkdir` looks for the new name among all siblings.  `open` leaves the check to
`appendChild`, which skips the last sibling, so a second node of the same name
appears exactly when the file to be created is the last one of its directory.
-/

namespace SysCore.Fs

open Transition List

abbrev Position := List Nat

namespace File

def at? : File → Position → Option File
  | file, [] => some file
  | file, i :: rest => file.children[i]?.bind fun child => child.at? rest

def modify (f : File → File) : Position → File → File
  | [], file => f file
  | i :: rest, file => .node file.name (file.children.modify i (modify f rest))

def search (siblings : List File) : List Name → Option Position
  | [] => none
  | filename :: rest => do
    let i ← siblings.findIdx? fun file => file.name == filename
    if rest.isEmpty then
      return [i]
    let searchObj ← siblings[i]?
    let below ← search searchObj.children rest
    return i :: below

def Distinct (root : File) : Prop :=
  ∀ pos node, root.at? pos = some node → (node.children.map name).Nodup

end File

namespace Vfs

open File

def oCreate : Nat := 0x40

/-- `VFS::search`.  Without a first child it calls a member through a null
pointer. -/
def search (file : File) (path : List Char) : Outcome (Option Position) :=
  if path = ['/'] then
    .ok (some [])
  else
    match file.children with
    | [] => .error .stray
    | siblings => .ok (File.search siblings (components path))

def searchFather (file : File) (path : List Char) : Outcome (Option Position) :=
  match components path with
  | [] => .ok none
  | [_] => .ok (some [])
  | names => search file (joinAbsolutePath names.dropLast)

def «open» (root : File) (path : List Char) (flag : Nat) (fr : Int) : Outcome (Int × File) :=
  if flag &&& oCreate ≠ 0 then do
    match (components path).getLast? with
    | none => .error .stray
    | some fileName =>
      match ← searchFather root path with
      | none => return (-1, root)
      | some father =>
        if fr = 0 then
          return (fr, root.modify (fun dir => (dir.appendChild (.new fileName)).2) father)
        else
          return (fr, root)
  else do
    match ← search root path with
    | none => return (-1, root)
    | some _ => return (fr, root)

def mkdir (root : File) (path : List Char) (realCreatedByFather : Bool) (created : Int) :
    Outcome (Int × File) := do
  match ← searchFather root path with
  | none => return (-1, root)
  | some father =>
    let res := if realCreatedByFather then created else 0
    if res = 0 then
      match (components path).getLast? with
      | none => .error .stray
      | some fileName =>
        let siblings := (root.at? father).elim [] children
        match File.search siblings (components fileName) with
        | none => return (0, root.modify (fun dir => (dir.appendChild (.new fileName)).2) father)
        | some _ => return (0, root)
    else
      return (-1, root)

inductive Call where
  | open (path : List Char) (flag : Nat) (fr : Int)
  | mkdir (path : List Char) (realCreatedByFather : Bool) (created : Int)

def Call.exec (root : File) : Call → Outcome (Int × File)
  | .open path flag fr => Vfs.open root path flag fr
  | .mkdir path real created => Vfs.mkdir root path real created

def Call.Careful (root : File) : Call → Prop
  | .open path flag fr => flag &&& oCreate ≠ 0 → fr = 0 → ∀ father dir,
      searchFather root path = .ok (some father) → root.at? father = some dir →
        dir.children.getLast?.map name ≠ (components path).getLast?
  | .mkdir .. => True

def Step (root : File) (call : Call) (root' : File) : Prop :=
  ∃ ret, call.exec root = .ok (ret, root')

def CarefulStep (root : File) (call : Call) (root' : File) : Prop :=
  call.Careful root ∧ Step root call root'

end Vfs

namespace File

/-! ## Positions -/

variable {root file dir : File} {pos : Position} {siblings : List File} {names : List Name}
  {f : File → File} {childFile : File}

@[simp]
theorem at?_nil (file : File) : file.at? [] = some file := by
  cases file
  rfl

theorem at?_cons (file : File) (i : Nat) (rest : Position) :
    file.at? (i :: rest) = file.children[i]?.bind fun child => child.at? rest := by
  cases file
  rfl

theorem distinct_iff : file.Distinct ↔
    (file.children.map name).Nodup ∧ ∀ child ∈ file.children, child.Distinct := by
  constructor
  · refine fun distinct => ⟨distinct [] file (at?_nil file), fun child childMem pos node found => ?_⟩
    obtain ⟨i, child_eq⟩ := mem_iff_getElem?.1 childMem
    exact distinct (i :: pos) node (by rw [at?_cons, child_eq, Option.bind_some, found])
  · rintro ⟨nodup, below⟩ pos node found
    cases pos with
    | nil =>
      rw [at?_nil, Option.some_inj] at found
      rwa [← found]
    | cons i rest =>
      rw [at?_cons] at found
      obtain ⟨child, child_eq, found⟩ := Option.bind_eq_some_iff.1 found
      exact below child (mem_of_getElem? child_eq) rest node found

theorem exists_at?_of_search (found : File.search siblings names = some pos) (name : Name) :
    ∃ node, (File.node name siblings).at? pos = some node := by
  induction names generalizing siblings pos name with
  | nil => cases found
  | cons filename rest ih =>
    simp only [File.search, Option.bind_eq_bind, Option.bind_eq_some_iff] at found
    obtain ⟨i, index_eq, found⟩ := found
    obtain ⟨inRange, -, -⟩ := List.findIdx?_eq_some_iff_getElem.1 index_eq
    split at found
    · cases found
      refine ⟨siblings[i], ?_⟩
      rw [at?_cons, children_node, List.getElem?_eq_getElem inRange, Option.bind_some, at?_nil]
    · obtain ⟨searchObj, child_eq, below, below_eq, last_eq⟩ := by
        simpa only [Option.bind_eq_some_iff] using found
      cases last_eq
      obtain ⟨node, node_eq⟩ := ih below_eq searchObj.name
      refine ⟨node, ?_⟩
      rw [at?_cons, children_node, child_eq, Option.bind_some]
      cases searchObj
      exact node_eq

theorem search_ne_nil (found : File.search siblings names = some pos) : pos ≠ [] := by
  cases names with
  | nil => cases found
  | cons filename rest =>
    simp only [File.search, Option.bind_eq_bind, Option.bind_eq_some_iff] at found
    obtain ⟨i, -, found⟩ := found
    split at found
    · cases found
      exact cons_ne_nil i []
    · obtain ⟨searchObj, -, below, -, pos_eq⟩ := by
        simpa only [Option.bind_eq_some_iff] using found
      cases pos_eq
      exact cons_ne_nil i below

theorem search_dropLast {last : Name} (notEmpty : names ≠ [])
    (found : File.search siblings (names ++ [last]) = some pos) :
    File.search siblings names = some pos.dropLast := by
  induction names generalizing siblings pos with
  | nil => exact absurd rfl notEmpty
  | cons filename rest ih =>
    rw [cons_append] at found
    simp only [File.search, Option.bind_eq_bind, Option.bind_eq_some_iff] at found ⊢
    obtain ⟨i, index_eq, found⟩ := found
    refine ⟨i, index_eq, ?_⟩
    have more : (rest ++ [last]).isEmpty = false := by cases rest <;> rfl
    rw [more, if_neg Bool.false_ne_true] at found
    obtain ⟨searchObj, child_eq, below, below_eq, pos_eq⟩ := by
      simpa only [Option.bind_eq_some_iff] using found
    cases pos_eq
    cases rest with
    | nil =>
      rw [nil_append, File.search] at below_eq
      obtain ⟨j, -, pos_eq⟩ := Option.bind_eq_some_iff.1 below_eq
      cases pos_eq
      rfl
    | cons next rest =>
      rw [dropLast_cons_of_ne_nil (search_ne_nil below_eq), isEmpty_cons,
        if_neg Bool.false_ne_true, child_eq, Option.bind_some, ih (cons_ne_nil next rest) below_eq]
      rfl

theorem search_singleton (siblings : List File) (filename : Name) :
    File.search siblings [filename] =
      (siblings.findIdx? fun file => file.name == filename).map fun i => [i] := by
  cases found : siblings.findIdx? fun file => file.name == filename <;> simp [File.search, found]

theorem search_singleton_eq_none {filename : Name} :
    File.search siblings [filename] = none ↔ filename ∉ siblings.map File.name := by
  rw [search_singleton, Option.map_eq_none_iff, List.findIdx?_eq_none_iff]
  simp

theorem name_modify (found : root.at? pos = some dir) (name_eq : (f dir).name = dir.name) :
    (root.modify f pos).name = root.name := by
  cases pos with
  | nil =>
    rw [at?_nil, Option.some_inj] at found
    subst found
    exact name_eq
  | cons i rest => rfl

theorem modify_congr {g : File → File} (found : root.at? pos = some dir) (same : f dir = g dir) :
    root.modify f pos = root.modify g pos := by
  induction pos generalizing root with
  | nil =>
    rw [at?_nil, Option.some_inj] at found
    subst found
    exact same
  | cons i rest ih =>
    rw [at?_cons] at found
    obtain ⟨child, child_eq, found⟩ := Option.bind_eq_some_iff.1 found
    rw [modify, modify]
    congr 1
    refine ext_getElem? fun j => ?_
    rw [List.getElem?_modify, List.getElem?_modify]
    by_cases here : i = j
    · subst here
      simp [child_eq, ih found]
    · simp [here]

theorem modify_id (root : File) (pos : Position) : root.modify id pos = root := by
  induction pos generalizing root with
  | nil => rfl
  | cons i rest ih =>
    have same : modify id rest = id := funext ih
    rw [modify, same, List.modify_id]
    cases root
    rfl

theorem mem_modify {children : List File} {i : Nat} {child other : File}
    (child_eq : children[i]? = some child) (otherMem : other ∈ children.modify i f) :
    other = f child ∨ other ∈ children := by
  obtain ⟨j, other_eq⟩ := mem_iff_getElem?.1 otherMem
  rw [List.getElem?_modify] at other_eq
  by_cases same : i = j
  · subst same
    simp only [child_eq, Option.map_eq_map, Option.map_some, if_true, Option.some_inj] at other_eq
    exact .inl other_eq.symm
  · simp only [same, if_false, Option.map_eq_map, Option.map_id'] at other_eq
    exact .inr (mem_of_getElem? other_eq)

theorem distinct_modify_iff (distinct : root.Distinct) (found : root.at? pos = some dir)
    (name_eq : (f dir).name = dir.name)
    (added : ∀ child ∈ (f dir).children, child ∈ dir.children ∨ child.children = []) :
    (root.modify f pos).Distinct ↔ ((f dir).children.map File.name).Nodup := by
  induction pos generalizing root with
  | nil =>
    rw [at?_nil, Option.some_inj] at found
    subst found
    refine (@distinct_iff (f root)).trans ⟨fun both => both.1, fun nodup => ⟨nodup, ?_⟩⟩
    intro child childMem
    rcases added child childMem with isOld | empty
    · exact (distinct_iff.1 distinct).2 child isOld
    · refine distinct_iff.2 ⟨?_, ?_⟩ <;> simp [empty]
  | cons i rest ih =>
    rw [at?_cons] at found
    obtain ⟨child, child_eq, found⟩ := Option.bind_eq_some_iff.1 found
    obtain ⟨nodup, below⟩ := distinct_iff.1 distinct
    have inner := ih (below child (mem_of_getElem? child_eq)) found
    have names_eq : (root.children.modify i (modify f rest)).map File.name =
        root.children.map File.name := by
      refine ext_getElem? fun j => ?_
      rw [List.getElem?_map, List.getElem?_map, List.getElem?_modify]
      by_cases same : i = j
      · subst same
        simp [child_eq, name_modify found name_eq]
      · simp [same]
    rw [modify, distinct_iff, children_node, names_eq, ← inner]
    constructor
    · rintro ⟨-, all⟩
      refine all _ (mem_iff_getElem?.2 ⟨i, ?_⟩)
      simp [child_eq]
    · refine fun changed => ⟨nodup, fun other otherMem => ?_⟩
      rcases mem_modify child_eq otherMem with rfl | isOld
      · exact changed
      · exact below other isOld

theorem appendChild_concat {front : List File} {last : File}
    (children_eq : dir.children = front ++ [last]) :
    dir.appendChild childFile = if front.any fun sibling => sibling.name == childFile.name
      then (false, dir) else (true, .node dir.name (dir.children ++ [childFile])) := by
  unfold appendChild
  rw [children_eq]
  cases front with
  | nil => rfl
  | cons first rest =>
    simp only [cons_append]
    rw [← cons_append, dropLast_concat]

theorem appendChild_eq (dir childFile : File) : dir.appendChild childFile =
    if dir.children.dropLast.any fun sibling => sibling.name == childFile.name
      then (false, dir) else (true, .node dir.name (dir.children ++ [childFile])) := by
  cases dir.children.eq_nil_or_concat' with
  | inl empty => simp [appendChild, empty]
  | inr split =>
    obtain ⟨front, last, children_eq⟩ := split
    rw [appendChild_concat children_eq]
    simp [children_eq]

theorem name_appendChild (dir childFile : File) : (dir.appendChild childFile).2.name = dir.name := by
  unfold appendChild
  split
  · rfl
  · split <;> rfl

theorem mem_appendChild {child : File} (childMem : child ∈ (dir.appendChild childFile).2.children) :
    child ∈ dir.children ∨ child = childFile := by
  cases dir.children.eq_nil_or_concat' with
  | inl empty =>
    right
    simpa [appendChild, empty] using childMem
  | inr split =>
    obtain ⟨front, last, children_eq⟩ := split
    rw [appendChild_concat children_eq] at childMem
    split at childMem
    · exact .inl childMem
    · simpa using childMem

theorem last_name_ne {front : List File} {last sibling : File}
    (nodup : ((front ++ [last]).map File.name).Nodup) (siblingMem : sibling ∈ front) :
    last.name ≠ sibling.name := by
  rw [map_append, nodup_append] at nodup
  exact (nodup.2.2 _ (mem_map_of_mem siblingMem) _ (mem_singleton_self _)).symm

theorem appendChild_nodup_iff (nodup : (dir.children.map File.name).Nodup) (childFile : File) :
    ((dir.appendChild childFile).2.children.map File.name).Nodup ↔
      dir.children.getLast?.map File.name ≠ some childFile.name := by
  cases dir.children.eq_nil_or_concat' with
  | inl empty => simp [appendChild, empty]
  | inr split =>
    obtain ⟨front, last, children_eq⟩ := split
    have last_eq : dir.children.getLast?.map File.name = some last.name := by
      rw [children_eq, List.getLast?_concat, Option.map_some]
    rw [appendChild_concat children_eq, last_eq]
    by_cases seen : front.any fun sibling => sibling.name == childFile.name
    · obtain ⟨sibling, siblingMem, name_eq⟩ := any_eq_true.1 seen
      rw [if_pos seen]
      refine iff_of_true nodup fun same => ?_
      rw [children_eq] at nodup
      exact last_name_ne nodup siblingMem
        ((Option.some_inj.1 same).trans (beq_iff_eq.1 name_eq).symm)
    · rw [if_neg seen, children_node, map_append, nodup_append]
      simp only [any_eq_true, beq_iff_eq, not_exists, not_and] at seen
      constructor
      · rintro ⟨-, -, apart⟩ same
        refine apart last.name ?_ childFile.name (mem_singleton_self _) (Option.some_inj.1 same)
        rw [children_eq]
        exact mem_map_of_mem mem_concat_self
      · refine fun different => ⟨nodup, nodup_singleton _, ?_⟩
        intro name nameMem name' name'Mem
        obtain ⟨sibling, siblingMem, rfl⟩ := mem_map.1 nameMem
        obtain rfl := mem_singleton.1 name'Mem
        rw [children_eq] at siblingMem
        rcases mem_append.1 siblingMem with inFront | isLast
        · exact seen sibling inFront
        · rw [mem_singleton.1 isLast]
          exact fun same => different (congrArg some same)

theorem appendChild_refuses_iff (nodup : (dir.children.map File.name).Nodup)
    (taken : childFile.name ∈ dir.children.map File.name) :
    dir.appendChild childFile = (false, dir) ↔
      dir.children.getLast?.map File.name ≠ some childFile.name := by
  rw [← appendChild_nodup_iff nodup]
  constructor
  · intro refused
    rwa [refused]
  · intro kept
    obtain ⟨sibling, siblingMem, name_eq⟩ := mem_map.1 taken
    obtain ⟨front, last, children_eq⟩ :=
      (dir.children.eq_nil_or_concat').resolve_left (ne_nil_of_mem siblingMem)
    rw [appendChild_concat children_eq] at kept ⊢
    split
    · rfl
    · rename_i seen
      rw [if_neg seen, children_node, map_append, nodup_append] at kept
      exact absurd rfl (kept.2.2 _ taken _ (mem_singleton_self _))

end File

namespace Vfs

open File

variable {root root' dir : File} {path : List Char} {father : Position} {ret : Int}

theorem exists_at?_of_vfsSearch (found : Vfs.search root path = .ok (some father)) :
    ∃ dir, root.at? father = some dir := by
  unfold Vfs.search at found
  split at found
  · cases found
    exact ⟨root, at?_nil root⟩
  · split at found
    · cases found
    · rename_i siblings _ children_eq
      obtain ⟨dir, dir_eq⟩ := exists_at?_of_search (Except.ok.inj found) root.name
      refine ⟨dir, ?_⟩
      cases root
      exact dir_eq

theorem exists_at?_of_searchFather (found : searchFather root path = .ok (some father)) :
    ∃ dir, root.at? father = some dir := by
  unfold searchFather at found
  split at found
  · cases found
  · cases found
    exact ⟨root, at?_nil root⟩
  · exact exists_at?_of_vfsSearch found

theorem search_of_children (notSlash : path ≠ ['/']) (children_ne : root.children ≠ []) :
    Vfs.search root path = .ok (File.search root.children (components path)) := by
  unfold Vfs.search
  rw [if_neg notSlash]
  cases children_eq : root.children with
  | nil => exact absurd children_eq children_ne
  | cons first rest => rfl

theorem search_of_leaf (notSlash : path ≠ ['/']) (children_eq : root.children = []) :
    Vfs.search root path = .error .stray := by
  unfold Vfs.search
  rw [if_neg notSlash, children_eq]

theorem searchFather_of_names {names : List Name} {last : Name} (notEmpty : names ≠ [])
    (names_eq : components path = names ++ [last]) :
    searchFather root path = Vfs.search root (joinAbsolutePath names) := by
  unfold searchFather
  rw [names_eq]
  cases names with
  | nil => exact absurd rfl notEmpty
  | cons filename rest =>
    cases rest with
    | nil => rfl
    | cons next rest =>
      rw [cons_append, cons_append]
      dsimp only
      rw [← cons_append, ← cons_append, dropLast_concat]

theorem search_joinAbsolutePath {names : List Name} (notEmpty : names ≠ [])
    (valid : ∀ name ∈ names, ValidName name) (children_ne : root.children ≠ []) :
    Vfs.search root (joinAbsolutePath names) = .ok (File.search root.children names) := by
  have split_eq := components_joinAbsolutePath valid
  have notSlash : joinAbsolutePath names ≠ ['/'] := by
    intro slash
    rw [slash] at split_eq
    exact notEmpty split_eq.symm
  rw [search_of_children notSlash children_ne, split_eq]

theorem searchFather_of_search {pos : Position} (notRoot : components path ≠ [])
    (found : Vfs.search root path = .ok (some pos)) :
    searchFather root path = .ok (some pos.dropLast) ∧ pos ≠ [] := by
  have notSlash : path ≠ ['/'] := by
    rintro rfl
    exact notRoot rfl
  have children_ne : root.children ≠ [] := by
    intro children_eq
    rw [search_of_leaf notSlash children_eq] at found
    cases found
  have found' : File.search root.children (components path) = some pos := by
    rw [search_of_children notSlash children_ne] at found
    exact Except.ok.inj found
  refine ⟨?_, search_ne_nil found'⟩
  obtain ⟨names, last, names_eq⟩ := (eq_nil_or_concat' (components path)).resolve_left notRoot
  rw [names_eq] at found'
  by_cases single : names = []
  · subst single
    rw [nil_append, File.search_singleton] at found'
    obtain ⟨i, -, rfl⟩ := Option.map_eq_some_iff.1 found'
    unfold searchFather
    rw [names_eq]
    rfl
  · have valid : ∀ name ∈ names, ValidName name := by
      intro name nameMem
      apply @valid_of_mem_components path
      rw [names_eq]
      exact mem_append_left _ nameMem
    rw [searchFather_of_names single names_eq, search_joinAbsolutePath single valid children_ne,
      search_dropLast single found']

abbrev grown (root : File) (father : Position) (fileName : Name) : File :=
  root.modify (fun dir => (dir.appendChild (.new fileName)).2) father

theorem open_cases {flag : Nat} {fr : Int} (done : Vfs.open root path flag fr = .ok (ret, root')) :
    (root' = root ∧ (flag &&& oCreate ≠ 0 → fr = 0 → searchFather root path = .ok none)) ∨
      ∃ father dir fileName, flag &&& oCreate ≠ 0 ∧ fr = 0 ∧
        searchFather root path = .ok (some father) ∧ root.at? father = some dir ∧
        (components path).getLast? = some fileName ∧ root' = grown root father fileName := by
  unfold Vfs.open at done
  split at done
  · rename_i create
    split at done
    · cases done
    · rename_i fileName last_eq
      obtain ⟨found, found_eq, done⟩ := bind_eq_ok.1 done
      cases found with
      | none =>
        cases done
        exact .inl ⟨rfl, fun _ _ => found_eq⟩
      | some father =>
        dsimp only at done
        split at done
        · rename_i answered
          cases done
          obtain ⟨dir, dir_eq⟩ := exists_at?_of_searchFather found_eq
          exact .inr ⟨father, dir, fileName, create, answered, found_eq, dir_eq, last_eq, rfl⟩
        · rename_i failed
          cases done
          exact .inl ⟨rfl, fun _ answered => absurd answered failed⟩
  · rename_i noCreate
    obtain ⟨found, found_eq, done⟩ := bind_eq_ok.1 done
    cases found <;> cases done <;> exact .inl ⟨rfl, fun create => absurd create noCreate⟩

theorem mkdir_cases {real : Bool} {created : Int}
    (done : Vfs.mkdir root path real created = .ok (ret, root')) :
    root' = root ∨ ∃ father dir fileName, root.at? father = some dir ∧
      (components path).getLast? = some fileName ∧ fileName ∉ dir.children.map File.name ∧
      root' = grown root father fileName := by
  unfold Vfs.mkdir at done
  obtain ⟨found, found_eq, done⟩ := bind_eq_ok.1 done
  cases found with
  | none =>
    cases done
    exact .inl rfl
  | some father =>
    dsimp only at done
    generalize (if real = true then created else 0) = res at done
    split at done
    · split at done
      · cases done
      · rename_i fileName last_eq
        obtain ⟨dir, dir_eq⟩ := exists_at?_of_searchFather found_eq
        rw [dir_eq, Option.elim_some] at done
        split at done
        · rename_i unseen
          cases done
          have valid := valid_of_mem_components (mem_of_getLast? last_eq)
          rw [components_name valid] at unseen
          exact .inr ⟨father, dir, fileName, dir_eq, last_eq, search_singleton_eq_none.1 unseen, rfl⟩
        · cases done
          exact .inl rfl
    · cases done
      exact .inl rfl

theorem distinct_grown_iff (distinct : root.Distinct) (found : root.at? father = some dir)
    (fileName : Name) : (grown root father fileName).Distinct ↔
      dir.children.getLast?.map File.name ≠ some fileName := by
  refine (distinct_modify_iff distinct found (name_appendChild dir _) ?_).trans
    (appendChild_nodup_iff (distinct father dir found) (.new fileName))
  intro child childMem
  exact (mem_appendChild childMem).imp_right fun new => by rw [new]; rfl

theorem distinct_iff_careful (distinct : root.Distinct) {call : Call}
    (done : call.exec root = .ok (ret, root')) : root'.Distinct ↔ call.Careful root := by
  cases call with
  | «open» path flag fr =>
    rcases open_cases done with ⟨rfl, noFather⟩ | ⟨father, dir, fileName, create, answered, father_eq, dir_eq, last_eq, rfl⟩
    · refine iff_of_true distinct fun create answered father dir father_eq => ?_
      rw [noFather create answered] at father_eq
      cases father_eq
    · rw [distinct_grown_iff distinct dir_eq, ← last_eq]
      constructor
      · intro different _ _ father' dir' father_eq' dir_eq'
        cases father_eq.symm.trans father_eq'
        cases dir_eq.symm.trans dir_eq'
        exact different
      · exact fun careful => careful create answered father dir father_eq dir_eq
  | mkdir path real created =>
    refine iff_of_true ?_ trivial
    rcases mkdir_cases done with rfl | ⟨father, dir, fileName, dir_eq, -, unseen, rfl⟩
    · exact distinct
    · refine (distinct_grown_iff distinct dir_eq fileName).2 fun same => unseen ?_
      obtain ⟨last, last_eq, name_eq⟩ := Option.map_eq_some_iff.1 same
      exact mem_map.2 ⟨last, mem_of_getLast? last_eq, name_eq⟩

/-- After any careful calls on a tree of distinct names, the next call keeps them
distinct exactly when it is careful; a node whose name is taken is refused
unless the sibling that has it is the last. -/
theorem distinct_iff_of_run {start : File} (distinct : start.Distinct) :
    (∀ calls root call ret root', Run CarefulStep start calls root →
      Call.exec root call = .ok (ret, root') → (root'.Distinct ↔ call.Careful root)) ∧
    ∀ dir childFile : File, (dir.children.map File.name).Nodup →
      childFile.name ∈ dir.children.map File.name → (dir.appendChild childFile = (false, dir) ↔
        dir.children.getLast?.map File.name ≠ some childFile.name) := by
  refine ⟨fun calls root call ret root' run done => ?_, fun dir childFile nodup taken =>
    appendChild_refuses_iff nodup taken⟩
  have kept : root.Distinct := @Run.invariant _ _ CarefulStep File.Distinct
    (fun rootDistinct step => (distinct_iff_careful rootDistinct step.2.choose_spec).2 step.1)
    _ _ _ run distinct
  exact distinct_iff_careful kept done

theorem distinct_flat_iff (name : Name) (names : List Name) :
    (File.node name (names.map File.new)).Distinct ↔ names.Nodup := by
  have names_eq : (names.map File.new).map File.name = names := by
    rw [List.map_map]
    exact map_id names
  rw [distinct_iff, children_node, names_eq]
  refine and_iff_left fun child childMem => ?_
  obtain ⟨fileName, -, rfl⟩ := mem_map.1 childMem
  exact distinct_iff.2 ⟨nodup_nil, nofun⟩

theorem distinct_of_other_name :
    Call.exec (.node ['/'] [.new ['a']]) (.open ['/', 'b'] oCreate 0) =
      .ok (0, .node ['/'] [.new ['a'], .new ['b']]) ∧
    (File.node ['/'] [.new ['a'], .new ['b']]).Distinct := by
  have empty : (File.new ['/']).Distinct := (distinct_flat_iff ['/'] []).2 nodup_nil
  have run : Run CarefulStep (.new ['/']) [.mkdir ['/', 'a'] true 0] (.node ['/'] [.new ['a']]) :=
    .snoc .nil ⟨trivial, 0, rfl⟩
  have done : Call.exec (.node ['/'] [.new ['a']]) (.open ['/', 'b'] oCreate 0) =
      .ok (0, .node ['/'] [.new ['a'], .new ['b']]) := rfl
  refine ⟨done, ((distinct_iff_of_run empty).1 _ _ _ _ _ run done).2 ?_⟩
  intro _ _ father dir father_eq dir_eq
  have root_eq : searchFather (.node ['/'] [.new ['a']]) ['/', 'b'] = .ok (some []) := rfl
  cases root_eq.symm.trans father_eq
  cases dir_eq
  decide

theorem not_distinct_of_open : ∃ root root',
    Call.exec (.new ['/']) (.open ['/', 'a'] oCreate 0) = .ok (0, root) ∧ root.Distinct ∧
      Call.exec root (.open ['/', 'a'] oCreate 0) = .ok (0, root') ∧ ¬ root'.Distinct := by
  refine ⟨.node ['/'] [.new ['a']], .node ['/'] [.new ['a'], .new ['a']], rfl, ?_, rfl, ?_⟩
  · exact (distinct_flat_iff ['/'] [['a']]).2 (by decide)
  · exact fun distinct => absurd ((distinct_flat_iff ['/'] [['a'], ['a']]).1 distinct) (by decide)

end Vfs

end SysCore.Fs
