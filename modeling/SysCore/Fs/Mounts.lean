import SysCore.Fs.Tree

/-!
# The file systems behind the tree

Every node of the tree points to the file system that serves it.  `VFS` passes a
call on a path on to the file system of the node found there, and answers -1
itself when there is none.  A file to be created goes to the file system of its
directory, which the new node then points to as well.
-/

namespace SysCore.Fs

open Transition

inductive Answer where
  | returned (value : Int)
  | fault

structure Ifs (δ φ : Type) where
  «open» : δ → φ → (path : List Char) → (flag : Nat) → Outcome (Int × φ)
  read : δ → φ → (path : List Char) → (buf : Nat → UInt8) → (mapped : Nat → Bool) → (count : Int) →
    Outcome ((Answer × (Nat → UInt8)) × φ)
  write : δ → φ → (path : List Char) → (buf : Nat → Option UInt8) → (count : Int) →
    Outcome (Answer × φ)
  lseek : δ → φ → (path : List Char) → (offset : Nat) → (whence : Int) → Outcome (Int × φ)
  close : δ → φ → (path : List Char) → Outcome (Int × φ)
  mkdir : δ → φ → (path : List Char) → (flag : Nat) → Outcome (Int × φ)

structure Mounts (δ φ : Type) where
  root : File
  fs : Position → δ
  data : φ

namespace Mounts

variable {δ φ : Type} (ifs : Ifs δ φ) (m : Mounts δ φ)

def adapter {α : Type} (path : List Char) (missing : α) (call : δ → φ → Outcome (α × φ)) :
    Outcome (α × Mounts δ φ) := do
  match ← Vfs.search m.root path with
  | none => return (missing, m)
  | some file => do
    let (answer, data) ← call (m.fs file) m.data
    return (answer, { m with data := data })

def fsWithChild (father : Position) (ifs : δ) : Position → δ :=
  Function.update m.fs (father ++ [((m.root.at? father).elim [] File.children).length]) ifs

def «open» (path : List Char) (flag : Nat) : Outcome (Int × Mounts δ φ) :=
  if flag &&& Vfs.oCreate ≠ 0 then do
    if components path = [] then
      .error .stray
    else
      match ← Vfs.searchFather m.root path with
      | none => return (-1, m)
      | some father => do
        let (fr, data) ← ifs.open (m.fs father) m.data path flag
        let (fr, root) ← Vfs.open m.root path flag fr
        return (fr, { root := root, fs := m.fsWithChild father (m.fs father), data := data })
  else
    m.adapter path (-1) fun fs data => ifs.open fs data path flag

def read (path : List Char) (buf : Nat → UInt8) (mapped : Nat → Bool) (count : Int) :
    Outcome ((Answer × (Nat → UInt8)) × Mounts δ φ) :=
  m.adapter path (.returned (-1), buf) fun fs data => ifs.read fs data path buf mapped count

def write (path : List Char) (buf : Nat → Option UInt8) (count : Int) :
    Outcome (Answer × Mounts δ φ) :=
  m.adapter path (.returned (-1)) fun fs data => ifs.write fs data path buf count

def lseek (path : List Char) (offset : Nat) (whence : Int) : Outcome (Int × Mounts δ φ) :=
  m.adapter path (-1) fun fs data => ifs.lseek fs data path offset whence

def close (path : List Char) : Outcome (Int × Mounts δ φ) :=
  m.adapter path (-1) fun fs data => ifs.close fs data path

def mkdir (path : List Char) (flag : Nat) (device : δ) (realCreatedByFather : Bool) :
    Outcome (Int × Mounts δ φ) := do
  match ← Vfs.searchFather m.root path with
  | none => return (-1, m)
  | some father => do
    let (created, data) ←
      if realCreatedByFather then ifs.mkdir (m.fs father) m.data path flag else .ok (0, m.data)
    let (ret, root) ← Vfs.mkdir m.root path realCreatedByFather created
    return (ret, { root := root, fs := m.fsWithChild father device, data := data })

end Mounts

namespace Mounts

variable {δ φ : Type} {m : Mounts δ φ} {path : List Char} {α : Type} {missing : α}
  {call : δ → φ → Outcome (α × φ)}

theorem adapter_of_none (search_eq : Vfs.search m.root path = .ok none) :
    m.adapter path missing call = .ok (missing, m) := by
  unfold adapter
  rw [search_eq]
  rfl

theorem adapter_of_some {file : Position} (search_eq : Vfs.search m.root path = .ok (some file)) :
    m.adapter path missing call = (do
      let (answer, data) ← call (m.fs file) m.data
      return (answer, { m with data := data })) := by
  unfold adapter
  rw [search_eq]
  rfl

theorem adapter_of_error {halt : Halt} (search_eq : Vfs.search m.root path = .error halt) :
    m.adapter path missing call = .error halt := by
  unfold adapter
  rw [search_eq]
  rfl

theorem adapter_eq_ok {answer : α} {m' : Mounts δ φ} (call_eq : m.adapter path missing call = .ok (answer, m')) :
    Vfs.search m.root path = .ok none ∧ answer = missing ∧ m' = m ∨
      ∃ file data, Vfs.search m.root path = .ok (some file) ∧ call (m.fs file) m.data = .ok (answer, data) ∧
        m' = { m with data := data } := by
  obtain ⟨found, search_eq, call_eq⟩ := bind_eq_ok.1 call_eq
  cases found with
  | none =>
    cases call_eq
    exact .inl ⟨search_eq, rfl, rfl⟩
  | some file =>
    obtain ⟨⟨answer', data⟩, device_eq, last_eq⟩ := bind_eq_ok.1 call_eq
    cases last_eq
    exact .inr ⟨file, data, search_eq, device_eq, rfl⟩

theorem search_ne_some_of_empty (root : File) (file : Position) :
    Vfs.search root [] ≠ .ok (some file) := by
  intro found
  unfold Vfs.search at found
  rw [if_neg nofun] at found
  split at found
  · cases found
  · rw [show components [] = [] from rfl] at found
    cases found

end Mounts

end SysCore.Fs
