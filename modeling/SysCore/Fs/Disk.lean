import Mathlib.Data.List.Basic
import Mathlib.Data.List.Nodup

/-!
# Directory trees and path names

The disk as the FAT driver presents it to `FS::read_dir`: a finite tree of
named files and directories, in which `f_opendir` follows the components of a
path text and `f_readdir` then lists the entries of the directory found, each
once.  A path below the root is a list of names; `joinAbsolutePath` and
`components` pass between such lists and texts, and are inverse to each other
on names a directory entry can have.
-/

namespace SysCore.Fs

open List

abbrev Name := List Char

def ValidName (name : Name) : Prop :=
  name ≠ [] ∧ '/' ∉ name

instance (name : Name) : Decidable (ValidName name) :=
  inferInstanceAs (Decidable (_ ∧ _))

def components (path : List Char) : List Name :=
  (path.splitOn '/').filter fun name => !name.isEmpty

def joinAbsolutePath : List Name → List Char
  | [] => []
  | name :: names => '/' :: name ++ joinAbsolutePath names

theorem components_nil : components [] = [] :=
  rfl

theorem components_name {name : Name} (valid : ValidName name) : components name = [name] := by
  have single : name.splitOn '/' = [name] := by
    apply splitOnP_eq_singleton
    intro letter inName
    exact beq_false_of_ne fun slash => valid.2 (slash ▸ inName)
  simp [components, single, valid.1]

theorem components_append_cons (path rest : List Char) :
    components (path ++ '/' :: rest) = components path ++ components rest := by
  have split := @splitOnP_append_cons _ (fun letter => letter == '/') path rest '/' rfl
  simp only [components, List.splitOn, split, filter_append]

theorem valid_of_mem_components {path : List Char} {name : Name} (isComponent : name ∈ components path) :
    ValidName name := by
  induction length_eq : path.length using Nat.strongRecOn generalizing path with
  | ind length ih =>
    by_cases slash : '/' ∈ path
    · obtain ⟨front, rest, rfl, noSlash⟩ := eq_append_cons_of_mem slash
      rw [components_append_cons] at isComponent
      rw [length_append, length_cons] at length_eq
      rcases mem_append.1 isComponent with inFront | inRest
      · exact ih front.length (by omega) inFront rfl
      · exact ih rest.length (by omega) inRest rfl
    · cases path with
      | nil => cases isComponent
      | cons letter rest =>
        have valid : ValidName (letter :: rest) := ⟨cons_ne_nil _ _, slash⟩
        rw [components_name valid, mem_singleton] at isComponent
        rwa [isComponent]

theorem components_joinAbsolutePath {names : List Name} (valid : ∀ name ∈ names, ValidName name) :
    components (joinAbsolutePath names) = names := by
  suffices behind : ∀ front : List Char,
      components (front ++ joinAbsolutePath names) = components front ++ names by
    simpa [components_nil] using behind []
  induction names with
  | nil => intro front; simp [joinAbsolutePath]
  | cons name names ih =>
    intro front
    have rest := ih (fun other inNames => valid other (mem_cons_of_mem _ inNames)) name
    rw [components_name (valid name mem_cons_self)] at rest
    rw [joinAbsolutePath, cons_append, components_append_cons, rest]
    rfl

inductive Entry where
  | file (name : Name)
  | dir (name : Name) (entries : List Entry)

namespace Entry

def name : Entry → Name
  | .file name => name
  | .dir name _ => name

def listing? : Entry → Option (List Entry)
  | .file _ => none
  | .dir _ entries => some entries

end Entry

def lookup : List Entry → List Name → Option (List Entry)
  | entries, [] => some entries
  | entries, name :: names =>
    ((entries.find? fun entry => entry.name == name).bind Entry.listing?).bind fun found =>
      lookup found names

def fOpendir (disk : List Entry) (path : List Char) : Option (List Entry) :=
  lookup disk (components path)

mutual

def Entry.paths : Entry → List (List Name)
  | .file name => [[name]]
  | .dir name entries => [name] :: (diskPaths entries).map (List.cons name)

def diskPaths : List Entry → List (List Name)
  | [] => []
  | entry :: rest => entry.paths ++ diskPaths rest

end

def WellFormed (disk : List Entry) : Prop :=
  ∀ names entries, lookup disk names = some entries →
    (entries.map Entry.name).Nodup ∧ ∀ entry ∈ entries, ValidName entry.name

theorem lookup_append (disk : List Entry) (names more : List Name) :
    lookup disk (names ++ more) = (lookup disk names).bind fun entries => lookup entries more := by
  induction names generalizing disk with
  | nil => rfl
  | cons name names ih =>
    simp only [cons_append, lookup]
    cases (disk.find? fun entry => entry.name == name).bind Entry.listing? with
    | none => rfl
    | some found => exact ih found

theorem lookup_name {entries : List Entry} {entry : Entry}
    (distinct : (entries.map Entry.name).Nodup) (inEntries : entry ∈ entries) (names : List Name) :
    lookup entries (entry.name :: names) = entry.listing?.bind fun found => lookup found names := by
  have found : entries.find? (fun other => other.name == entry.name) = some entry := by
    induction entries with
    | nil => cases inEntries
    | cons first rest ih =>
      rw [map_cons, nodup_cons] at distinct
      rcases mem_cons.1 inEntries with rfl | later
      · simp
      · have other : first.name ≠ entry.name := fun same =>
          distinct.1 (same ▸ mem_map_of_mem later)
        simp [other, ih distinct.2 later]
  simp [lookup, found]

theorem exists_of_lookup_cons {entries found : List Entry} {name : Name} {names : List Name}
    (leads : lookup entries (name :: names) = some found) :
    ∃ entry ∈ entries, entry.name = name := by
  simp only [lookup, Option.bind_eq_some_iff] at leads
  obtain ⟨_, ⟨entry, isFound, _⟩, _⟩ := leads
  have hasName := List.find?_some isFound
  exact ⟨entry, mem_of_find?_eq_some isFound, by simpa using hasName⟩

theorem WellFormed.sub {disk entries : List Entry} {names : List Name} (wellFormed : WellFormed disk)
    (leads : lookup disk names = some entries) : WellFormed entries := by
  intro more found leadsOn
  apply wellFormed (names ++ more)
  rw [lookup_append, leads, Option.bind_some, leadsOn]

theorem WellFormed.distinct {disk : List Entry} (wellFormed : WellFormed disk) :
    (disk.map Entry.name).Nodup :=
  (wellFormed [] disk rfl).1

theorem WellFormed.valid {disk : List Entry} (wellFormed : WellFormed disk) {entry : Entry}
    (inDisk : entry ∈ disk) : ValidName entry.name :=
  (wellFormed [] disk rfl).2 entry inDisk

theorem WellFormed.listing {disk found : List Entry} {entry : Entry} (wellFormed : WellFormed disk)
    (inDisk : entry ∈ disk) (lists : entry.listing? = some found) : WellFormed found :=
  @WellFormed.sub _ _ [entry.name] wellFormed
    (by rw [lookup_name wellFormed.distinct inDisk, lists]; rfl)

theorem WellFormed.intro {disk : List Entry} (distinct : (disk.map Entry.name).Nodup)
    (valid : ∀ entry ∈ disk, ValidName entry.name)
    (below : ∀ entry ∈ disk, ∀ found, entry.listing? = some found → WellFormed found) :
    WellFormed disk := by
  intro names entries leads
  cases names with
  | nil =>
    cases leads
    exact ⟨distinct, valid⟩
  | cons name names =>
    obtain ⟨entry, inDisk, rfl⟩ := exists_of_lookup_cons leads
    rw [lookup_name distinct inDisk, Option.bind_eq_some_iff] at leads
    obtain ⟨found, lists, leadsOn⟩ := leads
    exact below entry inDisk found lists names entries leadsOn

theorem mem_entryPaths {entry : Entry} {path : List Name} :
    path ∈ entry.paths ↔
      path = [entry.name] ∨
        ∃ found below, entry.listing? = some found ∧ below ∈ diskPaths found ∧
          path = entry.name :: below := by
  cases entry with
  | file name => simp [Entry.paths, Entry.name, Entry.listing?]
  | dir name entries =>
    simp only [Entry.paths, Entry.name, Entry.listing?, mem_cons, mem_map, Option.some.injEq]
    grind

theorem mem_diskPaths {entries : List Entry} {path : List Name} :
    path ∈ diskPaths entries ↔ ∃ entry ∈ entries, path ∈ entry.paths := by
  induction entries with
  | nil => simp [diskPaths]
  | cons first rest ih => simp [diskPaths, ih]

theorem WellFormed.validPath {disk : List Entry} (wellFormed : WellFormed disk) {path : List Name}
    (onDisk : path ∈ diskPaths disk) : ∀ name ∈ path, ValidName name := by
  induction path generalizing disk with
  | nil => simp
  | cons name below ih =>
    obtain ⟨entry, inDisk, inPaths⟩ := mem_diskPaths.1 onDisk
    rcases mem_entryPaths.1 inPaths with itself | ⟨found, later, lists, inFound, split⟩
    · obtain ⟨rfl, rfl⟩ := cons_eq_cons.1 itself
      simpa using wellFormed.valid inDisk
    · obtain ⟨rfl, rfl⟩ := cons_eq_cons.1 split
      intro other inPath
      rcases mem_cons.1 inPath with rfl | deeper
      · exact wellFormed.valid inDisk
      · exact ih (wellFormed.listing inDisk lists) inFound other deeper

theorem WellFormed.fOpendir_joinAbsolutePath {disk entries : List Entry}
    (wellFormed : WellFormed disk) {names : List Name} (leads : lookup disk names = some entries) :
    (∀ name ∈ names, ValidName name) ∧ fOpendir disk (joinAbsolutePath names) = some entries := by
  have valid : ∀ name ∈ names, ValidName name := by
    induction names generalizing disk with
    | nil => simp
    | cons first names ih =>
      obtain ⟨entry, inDisk, rfl⟩ := exists_of_lookup_cons leads
      rw [lookup_name wellFormed.distinct inDisk, Option.bind_eq_some_iff] at leads
      obtain ⟨found, lists, leadsOn⟩ := leads
      intro name inNames
      rcases mem_cons.1 inNames with rfl | later
      · exact wellFormed.valid inDisk
      · exact ih (wellFormed.listing inDisk lists) leadsOn name later
  refine ⟨valid, ?_⟩
  rw [fOpendir, components_joinAbsolutePath valid, leads]

theorem WellFormed.not_below_empty {disk : List Entry} (wellFormed : WellFormed disk)
    {names : List Name} (empty : lookup disk names = some []) (name : Name) :
    names ++ [name] ∉ diskPaths disk := by
  induction names generalizing disk with
  | nil =>
    obtain rfl : disk = [] := by simpa [lookup] using empty
    simp [diskPaths]
  | cons first names ih =>
    intro onDisk
    obtain ⟨entry, inDisk, inPaths⟩ := mem_diskPaths.1 onDisk
    rcases mem_entryPaths.1 inPaths with itself | ⟨found, later, lists, inFound, split⟩
    · simp at itself
    · obtain ⟨rfl, rfl⟩ := cons_eq_cons.1 split
      rw [lookup_name wellFormed.distinct inDisk, lists, Option.bind_some] at empty
      exact ih (wellFormed.listing inDisk lists) empty inFound

end SysCore.Fs
