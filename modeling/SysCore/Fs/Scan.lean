import SysCore.Fs.Disk
import SysCore.Transition.Outcome

/-!
# Building the file tree from the disk

`VFS::init` reads the whole disk into a tree of `File` nodes.  `scan` lists one
directory through the single open-directory handle of `FS::read_dir` and a
static `DirInfo` buffer, appends a node for the name in the buffer after every
call, the last one included, and then visits the children in order.

The last call finds no further entry and leaves the buffer as it was, so a
directory that lists something gets a second node for its last entry
(`appendChild` compares a new name with all children but the last), and a
directory that lists nothing gets a node named after whatever was read before.
-/

namespace SysCore.Fs

open Transition List

/-- A node of the file tree with its children in the order of the sibling
links. -/
inductive File where
  | node (name : Name) (children : List File)

namespace File

def name : File → Name
  | .node name _ => name

def children : File → List File
  | .node _ children => children

def new (fileName : Name) : File :=
  .node fileName []

@[simp]
theorem name_node (name : Name) (children : List File) : (File.node name children).name = name :=
  rfl

@[simp]
theorem children_node (name : Name) (children : List File) :
    (File.node name children).children = children :=
  rfl

@[simp]
theorem name_new (fileName : Name) : (new fileName).name = fileName :=
  rfl

def appendChild (file childFile : File) : Bool × File :=
  match file.children with
  | [] => (true, .node file.name [childFile])
  | first :: rest =>
    if (first :: rest).dropLast.any fun sibling => sibling.name == childFile.name then
      (false, file)
    else
      (true, .node file.name (first :: rest ++ [childFile]))

end File

mutual

def File.paths : File → List (List Name)
  | .node name children => [name] :: (nodePaths children).map (List.cons name)

def nodePaths : List File → List (List Name)
  | [] => []
  | file :: rest => file.paths ++ nodePaths rest

end

structure ScanState where
  hasLastDir : Bool
  lastDir : Option (List Entry)
  fname : Name

inductive ReadResult where
  /-- The directory cannot be opened, -1. -/
  | failed
  /-- There is no further entry, 0. -/
  | finished
  /-- An entry is in the buffer, 1. -/
  | entry
  deriving DecidableEq, Repr

def readNext (s : ScanState) : ReadResult × ScanState :=
  match s.lastDir with
  | some (entry :: rest) => (.entry, { s with lastDir := some rest, fname := entry.name })
  | _ => (.finished, { s with hasLastDir := false, lastDir := none })

def readDir (disk : List Entry) (path : List Char) (newRequest : Bool) (s : ScanState) :
    ReadResult × ScanState :=
  if !s.hasLastDir || newRequest then
    match fOpendir disk path with
    | none => (.failed, { s with hasLastDir := true, lastDir := none })
    | some entries => readNext { s with hasLastDir := true, lastDir := some entries }
  else
    readNext s

def childPath (str : List Char) (name : Name) : List Char :=
  if str = ['/'] then str ++ name else str ++ '/' :: name

def readAll (disk : List Entry) (str : List Char) :
    Nat → ReadResult → File → ScanState → Outcome (ReadResult × File × ScanState)
  | 0, _, _, _ => .error .hang
  | fuel + 1, res, dir, s =>
    if res = .finished then
      .ok (res, dir, s)
    else
      let (res, s) := readDir disk str false s
      if res = .failed then
        .ok (res, dir, s)
      else
        readAll disk str fuel res (dir.appendChild (.new s.fname)).2 s

def scanAll (visit : List Char → File → ScanState → Outcome (File × ScanState)) (str : List Char) :
    List File → ScanState → Outcome (List File × ScanState)
  | [], s => .ok ([], s)
  | file :: rest, s => do
    let (file, s) ← visit (childPath str file.name) file s
    let (rest, s) ← scanAll visit str rest s
    return (file :: rest, s)

def scan (disk : List Entry) :
    Nat → List Char → File → ScanState → Outcome (File × ScanState)
  | 0, _, _, _ => .error .hang
  | fuel + 1, str, dir, s => do
    let (res, s) := readDir disk str true s
    if res = .failed then
      return (dir, s)
    let dir := (dir.appendChild (.new s.fname)).2
    let (res, dir, s) ← readAll disk str fuel res dir s
    if res = .failed then
      return (dir, s)
    let (children, s) ← scanAll (scan disk fuel) str dir.children s
    return (.node dir.name children, s)

def init (disk : List Entry) (fuel : Nat) (s : ScanState) : Outcome (File × ScanState) :=
  scan disk fuel ['/'] (.new ['/']) s

/-! ## One directory -/

def doubled {α : Type} (list : List α) : List α :=
  list ++ list.getLast?.toList

theorem mem_doubled {α : Type} {list : List α} {a : α} : a ∈ doubled list ↔ a ∈ list := by
  simp only [doubled, mem_append, Option.mem_toList, or_iff_left_iff_imp]
  exact mem_of_getLast?

theorem map_doubled {α β : Type} (f : α → β) (list : List α) :
    (doubled list).map f = doubled (list.map f) := by
  cases list.eq_nil_or_concat with
  | inl empty => subst empty; rfl
  | inr split => obtain ⟨front, last, rfl⟩ := split; simp [doubled]

theorem doubled_not_nodup {α : Type} {list : List α} (nonempty : list ≠ []) :
    ¬ (doubled list).Nodup := by
  rw [doubled, List.getLast?_eq_some_getLast nonempty, Option.toList_some]
  exact fun nodup => (nodup_append.1 nodup).2.2 _ (getLast_mem nonempty) _ mem_cons_self rfl

theorem appendChild_of_fresh {file childFile : File}
    (fresh : ∀ sibling ∈ file.children.dropLast, sibling.name ≠ childFile.name) :
    (file.appendChild childFile).2 = .node file.name (file.children ++ [childFile]) := by
  unfold File.appendChild
  split
  · rename_i none
    rw [none]
    rfl
  · rename_i first rest some
    rw [some] at fresh ⊢
    have unseen : ¬ (first :: rest).dropLast.any (fun sibling => sibling.name == childFile.name) := by
      simpa using fresh
    rw [if_neg unseen]

theorem appendChild_new {file : File} {earlier : List Name} {last name : Name}
    (children : file.children = (earlier ++ [last]).map File.new) (fresh : name ∉ earlier) :
    (file.appendChild (.new name)).2 =
      .node file.name ((earlier ++ [last, name]).map File.new) := by
  rw [appendChild_of_fresh]
  · simp [children]
  · intro sibling inFront
    rw [children, ← map_dropLast, dropLast_concat] at inFront
    obtain ⟨other, inEarlier, rfl⟩ := mem_map.1 inFront
    intro same
    rw [File.name_new, File.name_new] at same
    exact fresh (same ▸ inEarlier)

theorem readAll_open (disk : List Entry) (str : List Char) {rest : List Entry} {fuel : Nat}
    (enough : rest.length + 1 < fuel) {earlier : List Name} {dir : File} {s : ScanState}
    (opened : s.hasLastDir = true) (listing : s.lastDir = some rest)
    (children : dir.children = (earlier ++ [s.fname]).map File.new)
    (distinct : (earlier ++ s.fname :: rest.map Entry.name).Nodup) :
    ∃ s', readAll disk str fuel .entry dir s =
        .ok (.finished,
          .node dir.name ((doubled (earlier ++ s.fname :: rest.map Entry.name)).map File.new), s') ∧
      s'.fname ∈ s.fname :: rest.map Entry.name := by
  induction rest generalizing fuel earlier dir s with
  | nil =>
    obtain ⟨fuel, rfl⟩ : ∃ more, fuel = more + 2 := ⟨fuel - 2, by simp at enough; omega⟩
    have unseen : s.fname ∉ earlier := fun seen =>
      (nodup_append.1 distinct).2.2 _ seen _ mem_cons_self rfl
    -- The buffer still holds the last entry.
    have ended : readDir disk str false s =
        (.finished, { s with hasLastDir := false, lastDir := none }) := by
      simp [readDir, opened, readNext, listing]
    refine ⟨{ s with hasLastDir := false, lastDir := none }, ?_, mem_cons_self⟩
    simp only [readAll, reduceCtorEq, if_false, ended]
    rw [appendChild_new children unseen]
    simp [doubled]
  | cons entry rest ih =>
    obtain ⟨fuel, rfl⟩ : ∃ more, fuel = more + 1 := ⟨fuel - 1, by omega⟩
    have read : readDir disk str false s =
        (.entry, { s with lastDir := some rest, fname := entry.name }) := by
      simp [readDir, opened, readNext, listing]
    have unseen : entry.name ∉ earlier := fun seen =>
      (nodup_append.1 distinct).2.2 _ seen _ (by simp) rfl
    obtain ⟨s', done, named⟩ := @ih fuel (by simp at enough; omega) (earlier ++ [s.fname])
      (.node dir.name ((earlier ++ [s.fname, entry.name]).map File.new))
      { s with lastDir := some rest, fname := entry.name } opened rfl (by simp)
      (by simpa using distinct)
    refine ⟨s', ?_, mem_cons_of_mem _ named⟩
    simp only [readAll, reduceCtorEq, if_false, read]
    rw [appendChild_new children unseen, done]
    simp

theorem components_childPath (str : List Char) {name : Name} (valid : ValidName name) :
    components (childPath str name) = components str ++ [name] := by
  unfold childPath
  split
  · rename_i isRoot
    rw [isRoot, singleton_append, ← nil_append ('/' :: name), components_append_cons,
      components_name valid]
    rfl
  · rw [components_append_cons, components_name valid]

theorem fOpendir_childPath {disk entries : List Entry} {str : List Char} {entry : Entry}
    (wellFormed : WellFormed disk) (opens : fOpendir disk str = some entries)
    (inEntries : entry ∈ entries) : fOpendir disk (childPath str entry.name) = entry.listing? := by
  have inside := wellFormed.sub opens
  unfold fOpendir at opens ⊢
  rw [components_childPath str (inside.valid inEntries), lookup_append, opens, Option.bind_some,
    lookup_name inside.distinct inEntries]
  cases entry.listing? <;> rfl

theorem scan_of_not_dir {disk : List Entry} {str : List Char} (closed : fOpendir disk str = none)
    (fuel : Nat) (dir : File) (s : ScanState) :
    scan disk (fuel + 1) str dir s = .ok (dir, { s with hasLastDir := true, lastDir := none }) := by
  simp [scan, readDir, closed, pure, Except.pure]

/-! ## Whole trees -/

theorem mem_nodePaths {files : List File} {path : List Name} :
    path ∈ nodePaths files ↔ ∃ file ∈ files, path ∈ file.paths := by
  induction files with
  | nil => simp [nodePaths]
  | cons first rest ih => simp [nodePaths, ih]

theorem mem_filePaths {file : File} {path : List Name} :
    path ∈ file.paths ↔
      path = [file.name] ∨ ∃ below ∈ nodePaths file.children, path = file.name :: below := by
  cases file with
  | node name children =>
    simp only [File.paths, File.name_node, File.children_node, mem_cons, mem_map]
    grind

structure Reflects (entries : List Entry) (children : List File) : Prop where
  covers : ∀ path ∈ diskPaths entries, path ∈ nodePaths children
  sound : ∀ path ∈ nodePaths children, path ∈ diskPaths entries ∨
    ∃ names name, lookup entries names = some [] ∧ path = names ++ [name]
  stale : ∀ names, lookup entries names = some [] →
    ∃ name, ValidName name ∧ names ++ [name] ∈ nodePaths children
  twice : entries ≠ [] → children.map File.name = doubled (entries.map Entry.name)

structure Visited (entry : Entry) (file : File) : Prop where
  name : file.name = entry.name
  leaf : entry.listing? = none → file.children = []
  below : ∀ found, entry.listing? = some found → Reflects found file.children

theorem Visited.mem_paths {entry : Entry} {file : File} (visited : Visited entry file)
    {path : List Name} (onDisk : path ∈ entry.paths) : path ∈ file.paths := by
  rw [mem_filePaths, visited.name]
  rcases mem_entryPaths.1 onDisk with itself | ⟨found, below, lists, inFound, split⟩
  · exact Or.inl itself
  · exact Or.inr ⟨below, (visited.below found lists).covers below inFound, split⟩

theorem Visited.of_mem_paths {entry : Entry} {file : File} (visited : Visited entry file)
    {path : List Name} (inTree : path ∈ file.paths) :
    path ∈ entry.paths ∨
      ∃ found names name, entry.listing? = some found ∧ lookup found names = some [] ∧
        path = entry.name :: names ++ [name] := by
  rw [mem_entryPaths]
  rcases mem_filePaths.1 inTree with itself | ⟨below, inChildren, split⟩
  · exact Or.inl (Or.inl (visited.name ▸ itself))
  · rw [visited.name] at split
    cases lists : entry.listing? with
    | none =>
      rw [visited.leaf lists] at inChildren
      cases inChildren
    | some found =>
      rcases (visited.below found lists).sound below inChildren with onDisk | ⟨names, name, empty, rfl⟩
      · exact Or.inl (Or.inr ⟨found, below, rfl, onDisk, split⟩)
      · exact Or.inr ⟨found, names, name, rfl, empty, split⟩

theorem reflects_of_visited {entries : List Entry} {children : List File} (nonempty : entries ≠ [])
    (wellFormed : WellFormed entries)
    (named : children.map File.name = (doubled entries).map Entry.name)
    (all : ∀ entry ∈ entries, ∃ file ∈ children, Visited entry file)
    (only : ∀ file ∈ children, ∃ entry ∈ entries, Visited entry file) :
    Reflects entries children where
  covers path onDisk := by
    obtain ⟨entry, inEntries, inPaths⟩ := mem_diskPaths.1 onDisk
    obtain ⟨file, inChildren, visited⟩ := all entry inEntries
    exact mem_nodePaths.2 ⟨file, inChildren, visited.mem_paths inPaths⟩
  sound path inTree := by
    obtain ⟨file, inChildren, inPaths⟩ := mem_nodePaths.1 inTree
    obtain ⟨entry, inEntries, visited⟩ := only file inChildren
    rcases visited.of_mem_paths inPaths with onDisk | ⟨found, names, name, lists, empty, split⟩
    · exact Or.inl (mem_diskPaths.2 ⟨entry, inEntries, onDisk⟩)
    · refine Or.inr ⟨entry.name :: names, name, ?_, split⟩
      rw [lookup_name wellFormed.distinct inEntries, lists, Option.bind_some, empty]
  stale names empty := by
    cases names with
    | nil => exact absurd (Option.some.inj empty) nonempty
    | cons first names =>
      obtain ⟨entry, inEntries, rfl⟩ := exists_of_lookup_cons empty
      rw [lookup_name wellFormed.distinct inEntries, Option.bind_eq_some_iff] at empty
      obtain ⟨found, lists, emptyBelow⟩ := empty
      obtain ⟨file, inChildren, visited⟩ := all entry inEntries
      obtain ⟨name, valid, inTree⟩ := (visited.below found lists).stale names emptyBelow
      refine ⟨name, valid, mem_nodePaths.2 ⟨file, inChildren, mem_filePaths.2 (Or.inr ?_)⟩⟩
      exact ⟨names ++ [name], inTree, by rw [visited.name]; rfl⟩
  twice _ := by rw [named, map_doubled]

theorem reflects_empty {name : Name} (valid : ValidName name) : Reflects [] [.new name] where
  covers path onDisk := by cases onDisk
  sound path inTree := by
    have single : path = [name] := by
      simpa [nodePaths, File.paths, File.new] using inTree
    exact Or.inr ⟨[], name, rfl, single⟩
  stale names empty := by
    cases names with
    | nil => exact ⟨name, valid, by simp [nodePaths, File.paths, File.new]⟩
    | cons first names => cases empty
  twice nonempty := absurd rfl nonempty

theorem scanAll_visited {visit : List Char → File → ScanState → Outcome (File × ScanState)}
    {str : List Char} {entries : List Entry}
    (visits : ∀ entry ∈ entries, ∀ s : ScanState, ValidName s.fname →
      ∃ file s', visit (childPath str entry.name) (.new entry.name) s = .ok (file, s') ∧
        Visited entry file ∧ ValidName s'.fname) (s : ScanState) (valid : ValidName s.fname) :
    ∃ children s',
      scanAll visit str ((entries.map Entry.name).map File.new) s = .ok (children, s') ∧
      children.map File.name = entries.map Entry.name ∧
      (∀ entry ∈ entries, ∃ file ∈ children, Visited entry file) ∧
      (∀ file ∈ children, ∃ entry ∈ entries, Visited entry file) ∧
      ValidName s'.fname := by
  induction entries generalizing s with
  | nil => exact ⟨[], s, rfl, rfl, by simp, by simp, valid⟩
  | cons entry rest ih =>
    obtain ⟨file, s₁, visitedFile, visited, valid₁⟩ := visits entry mem_cons_self s valid
    obtain ⟨children, s₂, done, named, all, only, valid₂⟩ :=
      ih (fun other inRest => visits other (mem_cons_of_mem _ inRest)) s₁ valid₁
    refine ⟨file :: children, s₂, ?_, ?_, ?_, ?_, valid₂⟩
    · simp only [map_cons, scanAll, File.name_new, visitedFile, ok_bind, done]
      rfl
    · rw [map_cons, map_cons, visited.name, named]
    · rw [forall_mem_cons]
      refine ⟨⟨file, mem_cons_self, visited⟩, fun other inRest => ?_⟩
      obtain ⟨child, inChildren, visitedChild⟩ := all other inRest
      exact ⟨child, mem_cons_of_mem _ inChildren, visitedChild⟩
    · rw [forall_mem_cons]
      refine ⟨⟨entry, mem_cons_self, visited⟩, fun child inChildren => ?_⟩
      obtain ⟨other, inRest, visitedChild⟩ := only child inChildren
      exact ⟨other, mem_cons_of_mem _ inRest, visitedChild⟩

theorem length_le_diskPaths (entries : List Entry) : entries.length ≤ (diskPaths entries).length := by
  induction entries with
  | nil => exact Nat.le_refl 0
  | cons entry rest ih =>
    have here : 1 ≤ entry.paths.length := by cases entry <;> simp [Entry.paths]
    simp only [diskPaths, length_cons, length_append]
    omega

theorem diskPaths_listing_lt {entries found : List Entry} {entry : Entry} (inEntries : entry ∈ entries)
    (lists : entry.listing? = some found) : (diskPaths found).length < (diskPaths entries).length := by
  induction entries with
  | nil => cases inEntries
  | cons first rest ih =>
    simp only [diskPaths, length_append]
    rcases mem_cons.1 inEntries with rfl | later
    · cases entry with
      | file name => cases lists
      | dir name inside =>
        cases lists
        simp only [Entry.paths, length_cons, length_map]
        omega
    · have below := ih later
      omega

theorem scan_empty {disk : List Entry} {str : List Char} (opens : fOpendir disk str = some [])
    (fuel : Nat) (name : Name) {s : ScanState} (valid : ValidName s.fname) :
    ∃ s', scan disk (fuel + 2) str (.new name) s = .ok (.node name [.new s.fname], s') ∧
      s'.fname = s.fname := by
  have first : readDir disk str true s =
      (.finished, { s with hasLastDir := false, lastDir := none }) := by
    simp [readDir, opens, readNext]
  have appended : ((File.new name).appendChild (.new s.fname)).2 = .node name [.new s.fname] := rfl
  -- The child is no directory: nothing can be opened below an empty listing.
  have closed : fOpendir disk (childPath str s.fname) = none := by
    unfold fOpendir at opens ⊢
    rw [components_childPath str valid, lookup_append, opens]
    rfl
  refine ⟨{ s with hasLastDir := true, lastDir := none }, ?_, rfl⟩
  have visit := scan_of_not_dir closed fuel (.new s.fname)
    { s with hasLastDir := false, lastDir := none }
  rw [scan]
  simp only [first, appended, readAll, reduceCtorEq, if_false, if_true, ok_bind, File.children_node,
    File.name_node, scanAll, File.name_new, visit]
  rfl

theorem scan_nonempty {disk : List Entry} {str : List Char} {entry : Entry} {rest : List Entry}
    (opens : fOpendir disk str = some (entry :: rest))
    (distinct : ((entry :: rest).map Entry.name).Nodup) {fuel : Nat}
    (enough : rest.length + 1 < fuel) (name : Name) (s : ScanState) :
    ∃ s₁ : ScanState, s₁.fname ∈ (entry :: rest).map Entry.name ∧
      scan disk (fuel + 1) str (.new name) s =
        (scanAll (scan disk fuel) str (((doubled (entry :: rest)).map Entry.name).map File.new) s₁ >>=
          fun result => .ok (.node name result.1, result.2)) := by
  have first : readDir disk str true s =
      (.entry, { s with hasLastDir := true, lastDir := some rest, fname := entry.name }) := by
    simp [readDir, opens, readNext]
  have appended : ((File.new name).appendChild (.new entry.name)).2 =
      .node name [.new entry.name] := rfl
  obtain ⟨s₁, listed, named⟩ := @readAll_open disk str rest fuel enough []
    (.node name [.new entry.name])
    { s with hasLastDir := true, lastDir := some rest, fname := entry.name } rfl rfl rfl distinct
  refine ⟨s₁, named, ?_⟩
  rw [scan]
  simp only [first, appended, reduceCtorEq, if_false, listed, ok_bind, map_doubled]
  rfl

theorem scan_reflects {disk : List Entry} (wellFormed : WellFormed disk) {fuel : Nat} {str : List Char}
    {entries : List Entry} (opens : fOpendir disk str = some entries)
    (enough : (diskPaths entries).length + 1 < fuel) (name : Name) {s : ScanState}
    (valid : ValidName s.fname ∨ entries ≠ []) :
    ∃ children s', scan disk fuel str (.new name) s = .ok (.node name children, s') ∧
      Reflects entries children ∧ ValidName s'.fname := by
  induction fuel generalizing str entries name s with
  | zero => exact absurd enough (Nat.not_lt_zero _)
  | succ fuel ih =>
    have inside := wellFormed.sub opens
    cases entries with
    | nil =>
      have buffer : ValidName s.fname := valid.resolve_right fun nonempty => nonempty rfl
      obtain ⟨fuel, rfl⟩ : ∃ more, fuel = more + 1 :=
        ⟨fuel - 1, by simp [diskPaths] at enough; omega⟩
      obtain ⟨s', done, kept⟩ := scan_empty opens fuel name buffer
      exact ⟨_, s', done, reflects_empty buffer, kept ▸ buffer⟩
    | cons entry rest =>
      have room := length_le_diskPaths (entry :: rest)
      rw [length_cons] at room
      obtain ⟨s₁, named, scanned⟩ :=
        @scan_nonempty _ _ _ _ opens inside.distinct fuel (by omega) name s
      have valid₁ : ValidName s₁.fname := by
        obtain ⟨other, inEntries, same⟩ := mem_map.1 named
        exact same ▸ inside.valid inEntries
      -- Files are left alone, and directories list fewer paths than this one.
      have visits : ∀ other ∈ doubled (entry :: rest), ∀ s : ScanState, ValidName s.fname →
          ∃ file s', scan disk fuel (childPath str other.name) (.new other.name) s =
              .ok (file, s') ∧ Visited other file ∧ ValidName s'.fname := by
        intro other inDoubled s buffer
        have inEntries := mem_doubled.1 inDoubled
        have opensChild := fOpendir_childPath wellFormed opens inEntries
        cases lists : other.listing? with
        | none =>
          obtain ⟨fuel, rfl⟩ : ∃ more, fuel = more + 1 := ⟨fuel - 1, by omega⟩
          refine ⟨_, _, scan_of_not_dir (opensChild.trans lists) fuel _ s, ⟨rfl, ?_, ?_⟩, buffer⟩
          · exact fun _ => rfl
          · intro found lists'
            cases lists.symm.trans lists'
        | some found =>
          have fewer := diskPaths_listing_lt inEntries lists
          obtain ⟨children, s', done, reflects, valid'⟩ :=
            ih (opensChild.trans lists) (by omega) other.name (Or.inl buffer)
          refine ⟨_, s', done, ⟨rfl, ?_, ?_⟩, valid'⟩
          · exact fun none => by cases lists.symm.trans none
          · intro found' lists'
            cases lists.symm.trans lists'
            exact reflects
      obtain ⟨children, s', done, names, all, only, valid'⟩ := scanAll_visited visits s₁ valid₁
      refine ⟨children, s', by rw [scanned, done]; rfl, ?_, valid'⟩
      apply reflects_of_visited (cons_ne_nil _ _) inside names
      · exact fun other inEntries => all other (mem_doubled.2 inEntries)
      · intro file inChildren
        obtain ⟨other, inDoubled, visited⟩ := only file inChildren
        exact ⟨other, mem_doubled.1 inDoubled, visited⟩

/-! ## The tree and the disk -/

def treePaths (root : File) : List (List Char) :=
  (nodePaths root.children).map joinAbsolutePath

def absolutePaths (disk : List Entry) : List (List Char) :=
  (diskPaths disk).map joinAbsolutePath

def SamePaths (root : File) (disk : List Entry) : Prop :=
  ∀ path, path ∈ treePaths root ↔ path ∈ absolutePaths disk

theorem Reflects.samePaths {disk : List Entry} {root : File} (reflects : Reflects disk root.children)
    (full : ∀ path, fOpendir disk path ≠ some []) (wellFormed : WellFormed disk) :
    SamePaths root disk := by
  intro path
  constructor
  · intro inTree
    obtain ⟨names, inNodes, rfl⟩ := mem_map.1 inTree
    rcases reflects.sound names inNodes with onDisk | ⟨above, name, empty, _⟩
    · exact mem_map_of_mem onDisk
    · exact absurd (wellFormed.fOpendir_joinAbsolutePath empty).2 (full _)
  · intro onDisk
    obtain ⟨names, inDisk, rfl⟩ := mem_map.1 onDisk
    exact mem_map_of_mem (reflects.covers names inDisk)

theorem Reflects.full_of_samePaths {disk : List Entry} {root : File}
    (reflects : Reflects disk root.children) (same : SamePaths root disk)
    (wellFormed : WellFormed disk) (path : List Char) : fOpendir disk path ≠ some [] := by
  intro empty
  obtain ⟨name, valid, inNodes⟩ := reflects.stale (components path) empty
  obtain ⟨names, onDisk, joined⟩ := mem_map.1 ((same _).1 (mem_map_of_mem inNodes))
  have validStale : ∀ other ∈ components path ++ [name], ValidName other := by
    intro other inPath
    rcases mem_append.1 inPath with above | last
    · exact (wellFormed.fOpendir_joinAbsolutePath empty).1 other above
    · exact mem_singleton.1 last ▸ valid
  have unjoined := congrArg components joined
  rw [components_joinAbsolutePath (wellFormed.validPath onDisk),
    components_joinAbsolutePath validStale] at unjoined
  exact wellFormed.not_below_empty empty name (unjoined ▸ onDisk)

theorem Reflects.treePaths_not_nodup {disk : List Entry} {root : File}
    (reflects : Reflects disk root.children) (nonempty : disk ≠ []) : ¬ (treePaths root).Nodup := by
  have named := reflects.twice nonempty
  have repeated : ¬ (root.children.map File.name).Nodup := by
    rw [named]
    exact doubled_not_nodup (by simpa using nonempty)
  have sub : ∀ files : List File, (files.map fun file => [file.name]).Sublist (nodePaths files) := by
    intro files
    induction files with
    | nil => exact List.Sublist.refl _
    | cons file rest ih =>
      cases file with
      | node name children => exact List.Sublist.cons_cons _ (ih.trans (sublist_append_right _ _))
  intro nodup
  have nodes := (sub root.children).nodup nodup.of_map
  exact repeated (List.Nodup.of_map (fun name => [name]) (by simpa [Function.comp_def] using nodes))

/-- The tree after `init` has exactly the paths of the disk when no directory
lists nothing, and never one node per path. -/
theorem init_samePaths_iff {disk : List Entry} (wellFormed : WellFormed disk) (nonempty : disk ≠ [])
    (s : ScanState) {fuel : Nat} (enough : (diskPaths disk).length + 1 < fuel) :
    ∃ root s', init disk fuel s = .ok (root, s') ∧
      (SamePaths root disk ↔ ∀ path, fOpendir disk path ≠ some []) ∧
      ¬ (treePaths root).Nodup := by
  have opens : fOpendir disk ['/'] = some disk := rfl
  obtain ⟨children, s', done, reflects, _⟩ :=
    scan_reflects wellFormed opens enough ['/'] (Or.inr nonempty)
  have ofRoot : Reflects disk (File.node ['/'] children).children := reflects
  refine ⟨.node ['/'] children, s', done, ⟨?_, ?_⟩, ?_⟩
  · exact fun same => ofRoot.full_of_samePaths same wellFormed
  · exact fun full => ofRoot.samePaths full wellFormed
  · exact ofRoot.treePaths_not_nodup nonempty

def bootScan : ScanState :=
  { hasLastDir := false, lastDir := none, fname := [] }

def sampleDisk : List Entry :=
  [.file ['a'], .dir ['d'] [.file ['b']]]

theorem sampleDisk_wellFormed : WellFormed sampleDisk := by
  have inner : WellFormed [.file ['b']] := by
    refine WellFormed.intro (by decide) (by decide) ?_
    intro entry inDisk found lists
    rw [mem_singleton.1 inDisk] at lists
    cases lists
  refine WellFormed.intro (by decide) (by decide) ?_
  intro entry inDisk found lists
  rcases mem_pair.1 inDisk with rfl | rfl
  · cases lists
  · cases lists
    exact inner

theorem init_of_sampleDisk :
    ∃ root s', init sampleDisk 5 bootScan = .ok (root, s') ∧
      (SamePaths root sampleDisk ↔ ∀ path, fOpendir sampleDisk path ≠ some []) ∧
      ¬ (treePaths root).Nodup :=
  init_samePaths_iff sampleDisk_wellFormed (cons_ne_nil _ _) bootScan (by decide)

theorem init_of_emptyDir :
    ∃ root s', init [.dir ['d'] []] 5 bootScan = .ok (root, s') ∧
      treePaths root = [['/', 'd'], ['/', 'd', '/', 'd'], ['/', 'd'], ['/', 'd', '/', 'd']] ∧
      absolutePaths [.dir ['d'] []] = [['/', 'd']] :=
  ⟨_, _, rfl, rfl, rfl⟩

/-! ## Disks on which the scan ends -/

theorem scan_emptyRoot (fuel : Nat) (name : Name) {s : ScanState} (zeroed : s.fname = []) :
    scan [] fuel ['/'] (.new name) s = .error .hang := by
  induction fuel generalizing name s with
  | zero => rfl
  | succ fuel ih =>
    have first : readDir [] ['/'] true s =
        (.finished, { s with hasLastDir := false, lastDir := none }) := by
      unfold readDir
      rw [Bool.or_true, if_pos rfl]
      rfl
    have appended : ((File.new name).appendChild (.new s.fname)).2 = .node name [.new []] := by
      rw [zeroed]
      rfl
    rw [scan]
    simp only [first, appended, reduceCtorEq, if_false]
    cases fuel with
    | zero => rfl
    | succ fuel =>
      have again := @ih [] { s with hasLastDir := false, lastDir := none } zeroed
      have path_eq : childPath ['/'] [] = ['/'] := rfl
      simp only [readAll, if_true, ok_bind, reduceCtorEq, if_false, File.children_node, scanAll]
      rw [File.name_new, path_eq, again]
      rfl

/-- The recursion of `init` ends exactly on the disks with something in the root
directory. -/
theorem init_returns_iff {disk : List Entry} (wellFormed : WellFormed disk) :
    (∃ fuel root s', init disk fuel bootScan = .ok (root, s')) ↔ disk ≠ [] := by
  constructor
  · rintro ⟨fuel, root, s', done⟩ rfl
    have endless : init [] fuel bootScan = .error .hang := scan_emptyRoot fuel ['/'] rfl
    rw [endless] at done
    cases done
  · intro nonempty
    have opens : fOpendir disk ['/'] = some disk := rfl
    obtain ⟨children, s', done, -⟩ :=
      scan_reflects wellFormed opens (Nat.lt_succ_self _) ['/'] (Or.inr nonempty)
    exact ⟨(diskPaths disk).length + 2, .node ['/'] children, s', done⟩

theorem init_returns_of_sampleDisk :
    ∃ fuel root s', init sampleDisk fuel bootScan = .ok (root, s') :=
  (init_returns_iff sampleDisk_wellFormed).2 (cons_ne_nil _ _)

theorem init_hangs_of_emptyDisk : WellFormed [] ∧ ∀ fuel, init [] fuel bootScan = .error .hang := by
  constructor
  · apply @WellFormed.intro [] nodup_nil
    · intro entry entryMem
      cases entryMem
    · intro entry entryMem
      cases entryMem
  · intro fuel
    exact scan_emptyRoot fuel ['/'] rfl

end SysCore.Fs
