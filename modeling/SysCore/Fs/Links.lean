import SysCore.Fs.Tree

/-!
# Paths of nodes

`GetPathByFile` puts the names of a node and of its parents together, without
separators in between; `ReadLink` follows the soft links of a node and returns
the path of the last one.  Names below the root have no separator in them, so
looking such a path up finds the node exactly when it is the root or one of its
children.
-/

namespace SysCore.Fs

open Transition List

namespace Vfs

open File

def getPathByFile : File → Position → List Char
  | file, [] => file.name
  | file, i :: rest => file.name ++ file.children[i]?.elim [] fun child => getPathByFile child rest

def followLinks (softLink : Position → Option Position) : Nat → Position → Outcome Position
  | 0, _ => .error .hang
  | fuel + 1, file =>
    match softLink file with
    | none => .ok file
    | some target => followLinks softLink fuel target

def readLink (root : File) (softLink : Position → Option Position) (fuel : Nat) (path : List Char) :
    Outcome (List Char) := do
  match ← search root path with
  | none => .error .panic
  | some file =>
    let file ← followLinks softLink fuel file
    return getPathByFile root file

def Initial (root : File) : Prop :=
  root = .new ['/'] ∨ ∃ disk fuel s s', WellFormed disk ∧ '/' ∉ s.fname ∧
    init disk fuel s = .ok (root, s')

def Direct (root : File) (pos : Position) : Prop :=
  pos = [] ∨ ∃ i child, pos = [i] ∧ root.children[i]? = some child ∧ child.name ≠ []

end Vfs

namespace File

def Plain (file : File) : Prop :=
  ∀ i pos node, file.at? (i :: pos) = some node → '/' ∉ node.name

variable {root file dir : File} {pos : Position}

theorem plain_iff : file.Plain ↔ ∀ child ∈ file.children, '/' ∉ child.name ∧ child.Plain := by
  constructor
  · intro plain child childMem
    obtain ⟨i, child_eq⟩ := mem_iff_getElem?.1 childMem
    have at_eq : ∀ pos, file.at? (i :: pos) = child.at? pos := fun pos => by
      rw [at?_cons, child_eq, Option.bind_some]
    exact ⟨plain i [] child ((at_eq []).trans (at?_nil child)), fun j pos node found =>
      plain i (j :: pos) node ((at_eq _).trans found)⟩
  · intro below i pos node found
    rw [at?_cons] at found
    obtain ⟨child, child_eq, found⟩ := Option.bind_eq_some_iff.1 found
    obtain ⟨noSlash, plain⟩ := below child (mem_of_getElem? child_eq)
    cases pos with
    | nil =>
      rw [at?_nil, Option.some_inj] at found
      rwa [← found]
    | cons j pos => exact plain j pos node found

theorem plain_new (fileName : Name) : (File.new fileName).Plain :=
  plain_iff.2 nofun

theorem plain_modify (plain : root.Plain) (found : root.at? pos = some dir) {f : File → File}
    (name_eq : (f dir).name = dir.name)
    (added : ∀ child ∈ (f dir).children, child ∈ dir.children ∨ '/' ∉ child.name ∧ child.Plain) :
    (root.modify f pos).Plain := by
  induction pos generalizing root with
  | nil =>
    rw [at?_nil, Option.some_inj] at found
    subst found
    refine (@plain_iff (f root)).2 fun child childMem => ?_
    exact (added child childMem).elim (plain_iff.1 plain child) id
  | cons i rest ih =>
    rw [at?_cons] at found
    obtain ⟨child, child_eq, found⟩ := Option.bind_eq_some_iff.1 found
    have below := plain_iff.1 plain
    rw [modify, plain_iff, children_node]
    intro other otherMem
    rcases mem_modify child_eq otherMem with rfl | isOld
    · obtain ⟨noSlash, childPlain⟩ := below child (mem_of_getElem? child_eq)
      rw [name_modify found name_eq]
      exact ⟨noSlash, ih childPlain found⟩
    · exact below other isOld

theorem plain_appendChild (plain : dir.Plain) {fileName : Name} (noSlash : '/' ∉ fileName) :
    (dir.appendChild (.new fileName)).2.Plain := by
  refine plain_iff.2 fun child childMem => ?_
  rcases mem_appendChild childMem with isOld | rfl
  · exact plain_iff.1 plain child isOld
  · exact ⟨noSlash, plain_new fileName⟩

end File

/-! ## Names from the disk -/

section Scan

variable {disk : List Entry} {s s' : ScanState} {str : List Char}

def Clean (s : ScanState) : Prop :=
  '/' ∉ s.fname ∧ ∀ entries, s.lastDir = some entries → ∀ entry ∈ entries, '/' ∉ entry.name

theorem clean_readNext (clean : Clean s) : Clean (readNext s).2 := by
  unfold readNext
  split
  · rename_i entry rest listing
    refine ⟨clean.2 _ listing entry mem_cons_self, fun entries entries_eq other otherMem => ?_⟩
    cases entries_eq
    exact clean.2 _ listing other (mem_cons_of_mem _ otherMem)
  · exact ⟨clean.1, nofun⟩

variable (wellFormed : WellFormed disk)
include wellFormed

theorem clean_opened (named : '/' ∉ s.fname) {path : List Char} {entries : List Entry}
    (opened : fOpendir disk path = some entries) :
    Clean { s with hasLastDir := true, lastDir := some entries } := by
  refine ⟨named, fun entries' entries_eq entry entryMem => ?_⟩
  cases entries_eq
  exact ((wellFormed _ _ opened).2 entry entryMem).2

theorem clean_readDir (clean : Clean s) (path : List Char) (newRequest : Bool) :
    Clean (readDir disk path newRequest s).2 := by
  unfold readDir
  split
  · split
    · exact ⟨clean.1, nofun⟩
    · rename_i entries opened
      exact clean_readNext (clean_opened wellFormed clean.1 opened)
  · exact clean_readNext clean

theorem clean_readDir_new (named : '/' ∉ s.fname) (path : List Char) :
    Clean (readDir disk path true s).2 := by
  have forgets : readDir disk path true s = readDir disk path true { s with lastDir := none } := by
    simp [readDir]
  have clean : Clean { s with lastDir := none } := ⟨named, fun _ listing => by cases listing⟩
  rw [forgets]
  exact clean_readDir wellFormed clean path true

theorem readAll_plain {fuel : Nat} {res res' : ReadResult} {dir dir' : File} (plain : dir.Plain)
    (clean : Clean s) (done : readAll disk str fuel res dir s = .ok (res', dir', s')) :
    dir'.name = dir.name ∧ dir'.Plain ∧ '/' ∉ s'.fname := by
  induction fuel generalizing res dir s with
  | zero => cases done
  | succ fuel ih =>
    have next := clean_readDir wellFormed clean str false
    rw [readAll] at done
    dsimp only at done
    split at done
    · cases done
      exact ⟨rfl, plain, clean.1⟩
    · split at done
      · cases done
        exact ⟨rfl, plain, next.1⟩
      · obtain ⟨name_eq, plain', named⟩ := ih (File.plain_appendChild plain next.1) next done
        exact ⟨name_eq.trans (File.name_appendChild _ _), plain', named⟩

omit wellFormed in
theorem scanAll_plain {visit : List Char → File → ScanState → Outcome (File × ScanState)}
    (visits : ∀ {str file s file' s'}, file.Plain → '/' ∉ s.fname →
      visit str file s = .ok (file', s') →
        file'.name = file.name ∧ file'.Plain ∧ '/' ∉ s'.fname) {files files' : List File}
    (plain : ∀ file ∈ files, '/' ∉ file.name ∧ file.Plain) (named : '/' ∉ s.fname)
    (done : scanAll visit str files s = .ok (files', s')) :
    (∀ file ∈ files', '/' ∉ file.name ∧ file.Plain) ∧ '/' ∉ s'.fname := by
  induction files generalizing s files' with
  | nil =>
    cases done
    exact ⟨nofun, named⟩
  | cons file rest ih =>
    obtain ⟨fileNamed, filePlain⟩ := plain file mem_cons_self
    rw [scanAll] at done
    obtain ⟨⟨visited, s₁⟩, visit_eq, done⟩ := bind_eq_ok.1 done
    obtain ⟨⟨others, s₂⟩, others_eq, done⟩ := bind_eq_ok.1 done
    cases done
    obtain ⟨name_eq, visitedPlain, named₁⟩ := visits filePlain named visit_eq
    obtain ⟨othersPlain, named₂⟩ :=
      ih (fun other otherMem => plain other (mem_cons_of_mem _ otherMem)) named₁ others_eq
    refine ⟨fun other otherMem => ?_, named₂⟩
    rcases mem_cons.1 otherMem with rfl | later
    · exact ⟨name_eq ▸ fileNamed, visitedPlain⟩
    · exact othersPlain other later

theorem scan_plain {fuel : Nat} {dir dir' : File} (plain : dir.Plain) (named : '/' ∉ s.fname)
    (done : scan disk fuel str dir s = .ok (dir', s')) :
    dir'.name = dir.name ∧ dir'.Plain ∧ '/' ∉ s'.fname := by
  induction fuel generalizing str dir s dir' s' with
  | zero => cases done
  | succ fuel ih =>
    have first := clean_readDir_new wellFormed named str
    rw [scan] at done
    dsimp only at done
    split at done
    · cases done
      exact ⟨rfl, plain, first.1⟩
    · obtain ⟨⟨res, dir₁, s₁⟩, read_eq, done⟩ := bind_eq_ok.1 done
      obtain ⟨name_eq, plain₁, named₁⟩ :=
        readAll_plain wellFormed (File.plain_appendChild plain first.1) first read_eq
      rw [File.name_appendChild] at name_eq
      dsimp only at done
      split at done
      · cases done
        exact ⟨name_eq, plain₁, named₁⟩
      · obtain ⟨⟨children, s₂⟩, children_eq, done⟩ := bind_eq_ok.1 done
        cases done
        obtain ⟨childrenPlain, named₂⟩ :=
          scanAll_plain ih (File.plain_iff.1 plain₁) named₁ children_eq
        exact ⟨name_eq, File.plain_iff.2 childrenPlain, named₂⟩

end Scan

namespace Vfs

open File

variable {root root' node : File} {pos : Position}

theorem Initial.plain (initial : Initial root) : root.name = ['/'] ∧ root.Plain := by
  rcases initial with rfl | ⟨disk, fuel, s, s', wellFormed, named, done⟩
  · exact ⟨rfl, plain_new _⟩
  · obtain ⟨name_eq, plain, -⟩ := scan_plain wellFormed (plain_new _) named done
    exact ⟨name_eq, plain⟩

theorem plain_grown (plain : root.Plain) {dir : File} (found : root.at? pos = some dir)
    {fileName : Name} (noSlash : '/' ∉ fileName) : (grown root pos fileName).Plain := by
  refine plain_modify plain found (name_appendChild dir _) fun child childMem => ?_
  refine (mem_appendChild childMem).imp_right fun new => ?_
  rw [new]
  exact ⟨noSlash, plain_new fileName⟩

theorem Step.plain {call : Call} (step : Step root call root') (plain : root.name = ['/'] ∧ root.Plain) :
    root'.name = ['/'] ∧ root'.Plain := by
  obtain ⟨ret, done⟩ := step
  have grows : ∀ path father dir fileName, root.at? father = some dir →
      (components path).getLast? = some fileName →
      (grown root father fileName).name = ['/'] ∧ (grown root father fileName).Plain := by
    intro path father dir fileName dir_eq last_eq
    have valid := valid_of_mem_components (mem_of_getLast? last_eq)
    exact ⟨(name_modify dir_eq (name_appendChild dir _)).trans plain.1,
      plain_grown plain.2 dir_eq valid.2⟩
  cases call with
  | «open» path flag fr =>
    rcases open_cases done with ⟨rfl, -⟩ | ⟨father, dir, fileName, -, -, -, dir_eq, last_eq, rfl⟩
    · exact plain
    · exact grows path father dir fileName dir_eq last_eq
  | mkdir path real created =>
    rcases mkdir_cases done with rfl | ⟨father, dir, fileName, dir_eq, last_eq, -, rfl⟩
    · exact plain
    · exact grows path father dir fileName dir_eq last_eq

theorem getPathByFile_noSlash {file : File} (plain : file.Plain) (named : '/' ∉ file.name)
    (pos : Position) : '/' ∉ getPathByFile file pos := by
  induction pos generalizing file with
  | nil =>
    rw [getPathByFile]
    exact named
  | cons i rest ih =>
    rw [getPathByFile, mem_append]
    rintro (inName | inRest)
    · exact named inName
    · cases child_eq : file.children[i]? with
      | none =>
        rw [child_eq] at inRest
        cases inRest
      | some child =>
        rw [child_eq] at inRest
        obtain ⟨childNamed, childPlain⟩ := plain_iff.1 plain child (mem_of_getElem? child_eq)
        exact ih childPlain childNamed inRest

theorem findIdx?_name {siblings : List File} (nodup : (siblings.map File.name).Nodup) {i : Nat}
    {child : File} (child_eq : siblings[i]? = some child) :
    siblings.findIdx? (fun file => file.name == child.name) = some i := by
  obtain ⟨inRange, rfl⟩ := List.getElem?_eq_some_iff.1 child_eq
  refine List.findIdx?_eq_some_iff_getElem.2 ⟨inRange, by simp, fun j earlier same => ?_⟩
  have names_eq : (siblings.map File.name)[j]? = (siblings.map File.name)[i]? := by
    rw [List.getElem?_map, List.getElem?_map, child_eq, List.getElem?_eq_getElem (by omega)]
    simpa using same
  have index_eq := (List.getElem?_inj (by rw [length_map]; omega) nodup).1 names_eq
  omega

theorem search_getPathByFile (named : root.name = ['/']) (plain : root.Plain)
    (distinct : root.Distinct) (found : root.at? pos = some node) :
    search root (getPathByFile root pos) = .ok (some pos) ↔ Direct root pos := by
  cases pos with
  | nil =>
    rw [getPathByFile, named, search, if_pos rfl]
    exact iff_of_true rfl (.inl rfl)
  | cons i rest =>
    rw [at?_cons] at found
    obtain ⟨child, child_eq, -⟩ := Option.bind_eq_some_iff.1 found
    have childMem := mem_of_getElem? child_eq
    obtain ⟨childNamed, childPlain⟩ := plain_iff.1 plain child childMem
    have noSlash := getPathByFile_noSlash childPlain childNamed rest
    rw [getPathByFile, named, child_eq, Option.elim_some]
    by_cases empty : getPathByFile child rest = []
    · rw [empty, search, append_nil, if_pos rfl]
      refine iff_of_false (fun same => ?_) ?_
      · cases same
      · rintro (isRoot | ⟨j, other, pos_eq, other_eq, notEmpty⟩)
        · cases isRoot
        · cases pos_eq
          cases child_eq.symm.trans other_eq
          exact notEmpty empty
    · have path_ne : ['/'] ++ getPathByFile child rest ≠ ['/'] := by simpa using empty
      have components_eq : components (['/'] ++ getPathByFile child rest) =
          [getPathByFile child rest] := by
        have split := components_append_cons [] (getPathByFile child rest)
        rwa [components_nil, nil_append, nil_append, components_name ⟨empty, noSlash⟩] at split
      rw [search, if_neg path_ne]
      split
      · rename_i noChild
        rw [noChild] at childMem
        cases childMem
      · rw [components_eq, search_singleton, Except.ok.injEq]
        cases rest with
        | nil =>
          rw [getPathByFile] at empty ⊢
          have nodup := (distinct_iff.1 distinct).1
          rw [findIdx?_name nodup child_eq, Option.map_some, Option.some_inj]
          exact iff_of_true rfl (.inr ⟨i, child, rfl, child_eq, empty⟩)
        | cons j rest =>
          refine iff_of_false (fun same => ?_) ?_
          · obtain ⟨k, -, pos_eq⟩ := Option.map_eq_some_iff.1 same
            cases pos_eq
          · rintro (isRoot | ⟨k, other, pos_eq, -⟩)
            · cases isRoot
            · cases pos_eq

/-- Of the nodes of a tree of distinct names, the root and its children are
those that their path leads back to, and `ReadLink` of a node without a soft
link returns that path. -/
theorem search_getPathByFile_iff_of_run {start : File} (initial : Initial start) {calls : List Call}
    (run : Run Step start calls root) (distinct : root.Distinct) (found : root.at? pos = some node) :
    (search root (getPathByFile root pos) = .ok (some pos) ↔ Direct root pos) ∧
    ∀ softLink fuel path, search root path = .ok (some pos) → softLink pos = none →
      ((∃ linked, readLink root softLink (fuel + 1) path = .ok linked ∧
        search root linked = .ok (some pos)) ↔ Direct root pos) := by
  obtain ⟨named, plain⟩ := @Run.invariant _ _ Step (fun root => root.name = ['/'] ∧ root.Plain)
    (fun plain step => step.plain plain) _ _ _ run initial.plain
  have direct := search_getPathByFile named plain distinct found
  refine ⟨direct, fun softLink fuel path path_eq noLink => ?_⟩
  have linked_eq : readLink root softLink (fuel + 1) path = .ok (getPathByFile root pos) := by
    rw [readLink, path_eq, ok_bind]
    dsimp only
    rw [followLinks, noLink]
    rfl
  rw [linked_eq, ← direct]
  constructor
  · rintro ⟨linked, same, back⟩
    cases same
    exact back
  · exact fun back => ⟨_, rfl, back⟩

theorem search_getPathByFile_of_child :
    Call.exec (.new ['/']) (.mkdir ['/', 'a'] true 0) = .ok (0, .node ['/'] [.new ['a']]) ∧
      search (.node ['/'] [.new ['a']]) (getPathByFile (.node ['/'] [.new ['a']]) [0]) =
        .ok (some [0]) := by
  have run : Run Step (.new ['/']) [.mkdir ['/', 'a'] true 0] (.node ['/'] [.new ['a']]) :=
    .snoc .nil ⟨0, rfl⟩
  have distinct : (File.node ['/'] [.new ['a']]).Distinct :=
    (distinct_flat_iff ['/'] [['a']]).2 (by decide)
  have found : (File.node ['/'] [.new ['a']]).at? [0] = some (.new ['a']) := rfl
  exact ⟨rfl, (search_getPathByFile_iff_of_run (.inl rfl) run distinct found).1.2
    (.inr ⟨0, .new ['a'], rfl, rfl, by decide⟩)⟩

theorem not_search_getPathByFile_of_deep : ∃ root,
    Run Step (.new ['/']) [.mkdir ['/', 'a'] true 0, .mkdir ['/', 'a', '/', 'b'] true 0] root ∧
      root.Distinct ∧ root.at? [0, 0] = some (.new ['b']) ∧
      getPathByFile root [0, 0] = ['/', 'a', 'b'] ∧
      search root (getPathByFile root [0, 0]) = .ok none := by
  refine ⟨.node ['/'] [.node ['a'] [.new ['b']]], .snoc (.snoc .nil ⟨0, rfl⟩) ⟨0, rfl⟩, ?_, rfl, rfl,
    rfl⟩
  refine distinct_iff.2 ⟨by decide, fun child childMem => ?_⟩
  rw [mem_singleton.1 childMem]
  exact (distinct_flat_iff ['a'] [['b']]).2 (by decide)

end Vfs

end SysCore.Fs
