import SysCore.Container.Forest
import SysCore.Fs.Tree
import Mathlib.Data.List.Induction
import Mathlib.Data.List.Perm.Subperm

/-!
# The file tree in memory

A `File` has pointers to its parent, its first child and its two neighbours.
`appendChild` follows the neighbours to the last child and links the new node
there; the searches follow first children and neighbours.

The children of every node are a list here, and `Linked` says that the pointers
of the nodes are those lists.  A search then looks names up in the lists, and
`appendChild` puts the new node at the end of one of them.
-/

namespace SysCore.Fs

open Transition Container Function List

structure Node where
  name : Name
  parent : Option Nat := none
  firstChild : Option Nat := none
  previous : Option Nat := none
  next : Option Nat := none

/-- The nodes by address; there is none where nothing was made or it was deleted. -/
structure Nodes where
  node : Nat → Option Node
  nextNode : Nat

namespace Nodes

variable (h : Nodes)

def get (id : Nat) : Outcome Node :=
  match h.node id with
  | none => .error .stray
  | some node => .ok node

def put (id : Nat) (node : Node) : Nodes :=
  { h with node := update h.node id (some node) }

def new (fileName : Name) : Nodes :=
  { node := update h.node h.nextNode (some { name := fileName })
    nextNode := h.nextNode + 1 }

def setNext (this nextFile : Nat) : Outcome Nodes := do
  let node ← h.get this
  let h := h.put this { node with next := some nextFile }
  let nextNode ← h.get nextFile
  return h.put nextFile { nextNode with previous := some this, parent := node.parent }

def lastSibling (name : Name) : Nat → Nat → Outcome (Option Nat)
  | 0, _ => .error .hang
  | fuel + 1, p => do
    let node ← h.get p
    match node.next with
    | none => return some p
    | some next => if node.name = name then return none else lastSibling name fuel next

def appendChild (this childFile : Nat) : Outcome (Bool × Nodes) := do
  let dir ← h.get this
  match dir.firstChild with
  | none => do
    let h := h.put this { dir with firstChild := some childFile }
    let child ← h.get childFile
    return (true, h.put childFile { child with parent := some this })
  | some first => do
    let child ← h.get childFile
    match ← h.lastSibling child.name (h.nextNode + 1) first with
    | none => return (false, h)
    | some last => do
      let h ← h.setNext last childFile
      return (true, h)

def findSibling (filename : Name) : Nat → Option Nat → Outcome (Option Nat)
  | _, none => .ok none
  | 0, some _ => .error .hang
  | fuel + 1, some searchObj => do
    let node ← h.get searchObj
    if node.name = filename then
      return some searchObj
    else
      findSibling filename fuel node.next

def searchNames : List Name → Option Nat → Outcome (Option Nat)
  | [], _ => .ok none
  | filename :: rest, searchObj => do
    match ← h.findSibling filename (h.nextNode + 1) searchObj with
    | none => return none
    | some found =>
      if rest.isEmpty then
        return some found
      else do
        let node ← h.get found
        searchNames rest node.firstChild

def search (file : Nat) (path : List Char) : Outcome (Option Nat) :=
  if path = ['/'] then
    .ok (some file)
  else do
    let node ← h.get file
    match node.firstChild with
    | none => .error .stray
    | some first => h.searchNames (components path) (some first)

def searchFather (file : Nat) (path : List Char) : Outcome (Option Nat) :=
  match components path with
  | [] => .ok none
  | [_] => .ok (some file)
  | names => h.search file (joinAbsolutePath names.dropLast)

def root (name : Name) : Nodes where
  node id := if id = 0 then some { name := name } else none
  nextNode := 1

def BuildStep (h : Nodes) (label : Nat × Name) (h' : Nodes) : Prop :=
  (∃ dir, h.node label.1 = some dir) ∧
    ∃ ret, (h.new label.2).appendChild label.1 h.nextNode = .ok (ret, h')

inductive ChildOf (h : Nodes) (id : Nat) : Nat → Prop
  | first {dir : Node} {child : Nat} :
      h.node id = some dir → dir.firstChild = some child → ChildOf h id child
  | next {child sibling : Nat} {node : Node} :
      ChildOf h id child → h.node child = some node → node.next = some sibling → ChildOf h id sibling

/-- Children point to their parent, neighbours point to each other, and nothing is
in front of the first child. -/
structure Consistent (h : Nodes) : Prop where
  parent : ∀ {id child}, ChildOf h id child → ∃ node, h.node child = some node ∧ node.parent = some id
  neighbour : ∀ {id child node sibling}, ChildOf h id child → h.node child = some node →
    node.next = some sibling → ∃ other, h.node sibling = some other ∧ other.previous = some child
  first : ∀ {id dir child}, h.node id = some dir → dir.firstChild = some child →
    ∃ node, h.node child = some node ∧ node.previous = none

/-! ## Lists of children -/

structure Linked (h : Nodes) (kids : Nat → List Nat) : Prop where
  made : ∀ {id}, h.nextNode ≤ id → h.node id = none
  leaf : ∀ {id}, h.node id = none → kids id = []
  first : ∀ {id node}, h.node id = some node → node.firstChild = (kids id).head?
  link : ∀ {id child front rest}, kids id = front ++ child :: rest →
    ∃ node, h.node child = some node ∧ node.parent = some id ∧
      node.previous = front.getLast? ∧ node.next = rest.head?
  grounded : ∃ rank : Nat → Nat, ∀ id, ∀ child ∈ kids id, rank child < rank id

def named (name : Name) (id : Nat) : Bool :=
  (h.node id).any fun node => node.name = name

end Nodes

namespace Nodes

variable {h h' : Nodes} {kids : Nat → List Nat} {id child : Nat} {node : Node} {name : Name}

theorem get_of_node (node_eq : h.node id = some node) : h.get id = .ok node := by
  unfold get
  rw [node_eq]

theorem node_of_get (got : h.get id = .ok node) : h.node id = some node := by
  unfold get at got
  split at got
  · cases got
  · cases got
    assumption

@[simp]
theorem put_node (h : Nodes) (id : Nat) (node : Node) :
    (h.put id node).node = update h.node id (some node) :=
  rfl

theorem named_of_node (node_eq : h.node id = some node) : h.named name id = decide (node.name = name) := by
  unfold named
  rw [node_eq]
  rfl

namespace Linked

theorem node_of_mem (linked : Linked h kids) (childMem : child ∈ kids id) :
    ∃ node, h.node child = some node ∧ node.parent = some id := by
  obtain ⟨front, rest, kids_eq⟩ := append_of_mem childMem
  obtain ⟨node, node_eq, parent_eq, -⟩ := linked.link kids_eq
  exact ⟨node, node_eq, parent_eq⟩

variable (linked : Linked h kids)
include linked

theorem forest : Forest kids where
  parent {first second child} firstMem secondMem := by
    obtain ⟨node, node_eq, parent_eq⟩ := linked.node_of_mem firstMem
    obtain ⟨node', node_eq', parent_eq'⟩ := linked.node_of_mem secondMem
    cases node_eq.symm.trans node_eq'
    exact Option.some.inj (parent_eq.symm.trans parent_eq')
  grounded := linked.grounded

theorem not_mem_front {front rest : List Nat} (kids_eq : kids id = front ++ child :: rest) :
    child ∉ front := by
  induction length_eq : front.length using Nat.strongRecOn generalizing front child rest with
  | ind length ih =>
    intro seen
    obtain ⟨early, middle, rfl⟩ := append_of_mem seen
    -- The two places have the same neighbour in front of them, which is then
    -- there twice itself.
    obtain ⟨node, node_eq, -, previous_eq, -⟩ := linked.link kids_eq
    have kids_eq' : kids id = early ++ child :: (middle ++ child :: rest) := by
      rw [kids_eq, append_assoc, cons_append]
    obtain ⟨node', node_eq', -, previous_eq', -⟩ := linked.link kids_eq'
    cases node_eq.symm.trans node_eq'
    have same := previous_eq.symm.trans previous_eq'
    obtain ⟨init, last, split_eq⟩ : ∃ init last, child :: middle = init ++ [last] :=
      (eq_nil_or_concat' (child :: middle)).resolve_left (cons_ne_nil _ _)
    rw [split_eq, ← append_assoc, List.getLast?_concat] at same
    obtain ⟨earlier, rfl⟩ := List.getLast?_eq_some_iff.1 same.symm
    have kids_eq'' : kids id = (earlier ++ [last] ++ init) ++ last :: child :: rest := by
      rw [kids_eq, split_eq]
      simp
    refine ih _ ?_ kids_eq'' rfl (by simp)
    have lengths := congrArg List.length split_eq
    simp only [length_append, length_cons, length_nil] at lengths length_eq ⊢
    omega

theorem nodup (id : Nat) : (kids id).Nodup := by
  have behind : ∀ front rest, kids id = front ++ rest → rest.Nodup := by
    intro front rest kids_eq
    induction rest generalizing front with
    | nil => exact .nil
    | cons child rest ih =>
      rw [nodup_cons]
      constructor
      · intro again
        obtain ⟨middle, later, rfl⟩ := append_of_mem again
        have kids_eq' : kids id = (front ++ child :: middle) ++ child :: later := by
          rw [kids_eq]
          simp
        exact linked.not_mem_front kids_eq' (by simp)
      · exact ih (front ++ [child]) (by rw [kids_eq]; simp)
  exact behind [] (kids id) rfl

theorem lt_nextNode (node_eq : h.node id = some node) : id < h.nextNode := by
  by_contra outside
  rw [linked.made (Nat.not_lt.1 outside)] at node_eq
  cases node_eq

theorem length_le (id : Nat) : (kids id).length ≤ h.nextNode := by
  have within : kids id ⊆ List.range h.nextNode := by
    intro child childMem
    obtain ⟨node, node_eq, -⟩ := linked.node_of_mem childMem
    exact mem_range.2 (linked.lt_nextNode node_eq)
  simpa using (subperm_of_subset (linked.nodup id) within).length_le

/-! ## Children -/

theorem mem_of_childOf (isChild : ChildOf h id child) : child ∈ kids id := by
  induction isChild with
  | first dir_eq first_eq =>
    rw [linked.first dir_eq] at first_eq
    exact mem_of_head? first_eq
  | next _ node_eq next_eq ih =>
    obtain ⟨front, rest, kids_eq⟩ := append_of_mem ih
    obtain ⟨node', node_eq', -, -, next_eq'⟩ := linked.link kids_eq
    cases node_eq.symm.trans node_eq'
    rw [kids_eq]
    exact mem_append_right _ (mem_cons_of_mem _ (mem_of_head? (next_eq'.symm.trans next_eq)))

theorem childOf_of_kids {front rest : List Nat} (kids_eq : kids id = front ++ child :: rest) :
    ChildOf h id child := by
  induction front using List.reverseRecOn generalizing child rest with
  | nil =>
    cases node_eq : h.node id with
    | none => simp [linked.leaf node_eq] at kids_eq
    | some node => exact .first node_eq (by rw [linked.first node_eq, kids_eq]; rfl)
  | append_singleton front last ih =>
    have kids_eq' : kids id = front ++ last :: child :: rest := by
      rw [kids_eq, append_assoc, singleton_append]
    obtain ⟨node, node_eq, -, -, next_eq⟩ := linked.link kids_eq'
    exact .next (ih kids_eq') node_eq next_eq

theorem childOf_iff : ChildOf h id child ↔ child ∈ kids id := by
  constructor
  · exact linked.mem_of_childOf
  · intro childMem
    obtain ⟨front, rest, kids_eq⟩ := append_of_mem childMem
    exact linked.childOf_of_kids kids_eq

/-! ## The searches -/

theorem findSibling_eq (filename : Name) {fuel : Nat} {front rest : List Nat}
    (kids_eq : kids id = front ++ rest) (enough : rest.length ≤ fuel) :
    h.findSibling filename fuel rest.head? = .ok (rest.find? (h.named filename)) := by
  induction rest generalizing fuel front with
  | nil => cases fuel <;> rfl
  | cons child rest ih =>
    obtain ⟨fuel, rfl⟩ : ∃ more, fuel = more + 1 := ⟨fuel - 1, by simp at enough; omega⟩
    obtain ⟨node, node_eq, -, -, next_eq⟩ := linked.link kids_eq
    have later := @ih fuel (front ++ [child]) (by rw [kids_eq]; simp) (by simpa using enough)
    rw [List.head?_cons, findSibling, get_of_node node_eq, ok_bind, List.find?_cons, named_of_node node_eq,
      next_eq]
    by_cases same : node.name = filename
    · rw [if_pos same, decide_eq_true same]
      rfl
    · rw [if_neg same, decide_eq_false same]
      exact later

theorem findSibling_kids (filename : Name) (id : Nat) :
    h.findSibling filename (h.nextNode + 1) (kids id).head? =
      .ok ((kids id).find? (h.named filename)) :=
  linked.findSibling_eq filename (nil_append _).symm (Nat.le_succ_of_le (linked.length_le id))

end Linked

def lookup (h : Nodes) (kids : Nat → List Nat) : List Name → Nat → Option Nat
  | [], id => some id
  | filename :: rest, id => ((kids id).find? (h.named filename)).bind (h.lookup kids rest)

theorem Linked.searchNames_eq (linked : Linked h kids) {names : List Name} (notEmpty : names ≠ []) (id : Nat) :
    h.searchNames names (kids id).head? = .ok (h.lookup kids names id) := by
  induction names generalizing id with
  | nil => exact absurd rfl notEmpty
  | cons filename rest ih =>
    rw [searchNames, linked.findSibling_kids, ok_bind, lookup]
    cases found_eq : (kids id).find? (h.named filename) with
    | none => rfl
    | some found =>
      obtain ⟨node, node_eq, -⟩ := linked.node_of_mem (mem_of_find?_eq_some found_eq)
      cases rest with
      | nil => rfl
      | cons next rest =>
        have below := ih (cons_ne_nil next rest) found
        rw [← linked.first node_eq] at below
        simpa [get_of_node node_eq] using below

/-! ## Appending -/

namespace Linked

theorem lastSibling_eq (linked : Linked h kids) (name : Name) {fuel : Nat} {front rest : List Nat}
    (kids_eq : kids id = front ++ child :: rest) (enough : rest.length < fuel) :
    h.lastSibling name fuel child = .ok
      (if (child :: rest).dropLast.any (h.named name) then none else (child :: rest).getLast?) := by
  induction rest generalizing fuel front child with
  | nil =>
    obtain ⟨fuel, rfl⟩ : ∃ more, fuel = more + 1 := ⟨fuel - 1, by omega⟩
    obtain ⟨node, node_eq, -, -, next_eq⟩ := linked.link kids_eq
    rw [lastSibling, get_of_node node_eq, ok_bind, next_eq]
    rfl
  | cons sibling rest ih =>
    obtain ⟨fuel, rfl⟩ : ∃ more, fuel = more + 1 := ⟨fuel - 1, by omega⟩
    obtain ⟨node, node_eq, -, -, next_eq⟩ := linked.link kids_eq
    have later := @ih sibling fuel (front ++ [child]) (by rw [kids_eq]; simp) (by simpa using enough)
    rw [lastSibling, get_of_node node_eq, ok_bind, next_eq, dropLast_cons_cons, any_cons,
      named_of_node node_eq, List.getLast?_cons_cons]
    by_cases same : node.name = name
    · rw [decide_eq_true same, Bool.true_or, if_pos rfl]
      exact if_pos same
    · rw [decide_eq_false same, Bool.false_or, ← later]
      exact if_neg same

theorem ne_of_mem (linked : Linked h kids) (childMem : child ∈ kids id) : child ≠ id := by
  rintro rfl
  exact linked.forest.not_below_child childMem (below_refl child)

theorem add (linked : Linked h kids) {node : Node} (leaf : node.firstChild = none) :
    Linked { node := update h.node h.nextNode (some node), nextNode := h.nextNode + 1 } kids := by
  have none_eq : h.node h.nextNode = none := linked.made (Nat.le_refl _)
  have other : ∀ {id before}, h.node id = some before →
      update h.node h.nextNode (some node) id = some before := by
    intro id before before_eq
    have different : id ≠ h.nextNode := by
      rintro rfl
      cases none_eq.symm.trans before_eq
    exact (update_of_ne different _ _).trans before_eq
  constructor
  · intro id outside
    have outside' : h.nextNode + 1 ≤ id := outside
    exact (update_of_ne (by omega) _ _).trans (linked.made (by omega))
  · intro id missing
    cases node_eq : h.node id with
    | none => exact linked.leaf node_eq
    | some before => cases (other node_eq).symm.trans missing
  · intro id before before_eq
    by_cases same : id = h.nextNode
    · subst same
      cases (update_self h.nextNode (some node) h.node).symm.trans before_eq
      rw [linked.leaf none_eq, leaf]
      rfl
    · exact linked.first ((update_of_ne same _ _).symm.trans before_eq)
  · intro id child front rest kids_eq
    obtain ⟨before, before_eq, links⟩ := linked.link kids_eq
    exact ⟨before, other before_eq, links⟩
  · exact linked.grounded

theorem new (linked : Linked h kids) (name : Name) : Linked (h.new name) kids :=
  linked.add rfl

end Linked

structure Appended (h h' : Nodes) (kids : Nat → List Nat) (dir child : Nat) : Prop where
  nextNode_eq : h'.nextNode = h.nextNode
  detached : ∀ id, child ∉ kids id
  apart : ¬ Below kids child dir
  atChild : ∃ node, h.node child = some node ∧ node.next = none ∧
    h'.node child = some { node with parent := some dir, previous := (kids dir).getLast? }
  atDir : ∃ node, h.node dir = some node ∧
    h'.node dir = some { node with firstChild := (kids dir ++ [child]).head? }
  atLast : ∀ last, (kids dir).getLast? = some last → ∃ node, h.node last = some node ∧
    h'.node last = some { node with next := some child }
  others : ∀ id, id ≠ child → id ≠ dir → (kids dir).getLast? ≠ some id → h'.node id = h.node id

namespace Appended

variable {dir : Nat}

variable (appended : Appended h h' kids dir child)
include appended

theorem different : child ≠ dir := by
  rintro rfl
  exact appended.apart (below_refl child)

theorem cases (id : Nat) :
    id = child ∨ id = dir ∨ (kids dir).getLast? = some id ∨ h'.node id = h.node id := by
  by_cases isChild : id = child
  · exact .inl isChild
  by_cases isDir : id = dir
  · exact .inr (.inl isDir)
  by_cases isLast : (kids dir).getLast? = some id
  · exact .inr (.inr (.inl isLast))
  · exact .inr (.inr (.inr (appended.others id isChild isDir isLast)))

theorem name_eq (id : Nat) : (h'.node id).map Node.name = (h.node id).map Node.name := by
  rcases appended.cases id with rfl | rfl | isLast | same
  · obtain ⟨node, node_eq, -, after_eq⟩ := appended.atChild
    rw [node_eq, after_eq]
    rfl
  · obtain ⟨node, node_eq, after_eq⟩ := appended.atDir
    rw [node_eq, after_eq]
    rfl
  · obtain ⟨node, node_eq, after_eq⟩ := appended.atLast id isLast
    rw [node_eq, after_eq]
    rfl
  · rw [same]

theorem node_eq_none (id : Nat) : h'.node id = none ↔ h.node id = none := by
  rw [← Option.map_eq_none_iff, appended.name_eq, Option.map_eq_none_iff]

theorem firstChild_eq (linked : Linked h kids) (node_eq : h'.node id = some node) :
    node.firstChild = (update kids dir (kids dir ++ [child]) id).head? := by
  by_cases isDir : id = dir
  · subst isDir
    obtain ⟨before, -, after_eq⟩ := appended.atDir
    cases after_eq.symm.trans node_eq
    rw [update_self]
  · rw [update_of_ne isDir]
    rcases appended.cases id with rfl | isDir' | isLast | same
    · obtain ⟨before, before_eq, -, after_eq⟩ := appended.atChild
      cases after_eq.symm.trans node_eq
      have first_eq := linked.first before_eq
      exact first_eq
    · exact absurd isDir' isDir
    · obtain ⟨before, before_eq, after_eq⟩ := appended.atLast id isLast
      cases after_eq.symm.trans node_eq
      have first_eq := linked.first before_eq
      exact first_eq
    · exact linked.first (same.symm.trans node_eq)

theorem link_other (linked : Linked h kids) (isOther : id ≠ dir) {other : Nat} {front rest : List Nat}
    (kids_eq : kids id = front ++ other :: rest) :
    ∃ node, h'.node other = some node ∧ node.parent = some id ∧
      node.previous = front.getLast? ∧ node.next = rest.head? := by
  obtain ⟨node, node_eq, links⟩ := linked.link kids_eq
  have otherMem : other ∈ kids id := by simp [kids_eq]
  rcases appended.cases other with rfl | rfl | isLast | same
  · exact absurd otherMem (appended.detached id)
  · obtain ⟨before, before_eq, after_eq⟩ := appended.atDir
    cases node_eq.symm.trans before_eq
    exact ⟨_, after_eq, links⟩
  · exact absurd (linked.forest.parent otherMem (mem_of_getLast? isLast)) isOther
  · exact ⟨node, same.trans node_eq, links⟩

theorem link_dir (linked : Linked h kids) {other : Nat} {front rest : List Nat}
    (kids_eq : kids dir ++ [child] = front ++ other :: rest) :
    ∃ node, h'.node other = some node ∧ node.parent = some dir ∧
      node.previous = front.getLast? ∧ node.next = rest.head? := by
  rcases eq_nil_or_concat' rest with rfl | ⟨init, final, rfl⟩
  · obtain ⟨rfl, last_eq⟩ := append_inj' kids_eq rfl
    cases last_eq
    obtain ⟨before, -, noNext, after_eq⟩ := appended.atChild
    exact ⟨_, after_eq, rfl, rfl, noNext⟩
  · have split_eq : kids dir ++ [child] = (front ++ other :: init) ++ [final] := by
      rw [kids_eq]
      simp
    obtain ⟨old_eq, final_eq⟩ := append_inj' split_eq rfl
    cases final_eq
    obtain ⟨node, node_eq, parent_eq, previous_eq, next_eq⟩ := linked.link old_eq
    have otherMem : other ∈ kids dir := by simp [old_eq]
    cases init with
    | nil =>
      have isLast : (kids dir).getLast? = some other := by
        rw [old_eq]
        simp
      obtain ⟨before, before_eq, after_eq⟩ := appended.atLast other isLast
      cases node_eq.symm.trans before_eq
      exact ⟨_, after_eq, parent_eq, previous_eq, rfl⟩
    | cons second init =>
      have notLast : (kids dir).getLast? ≠ some other := by
        intro isLast
        rw [old_eq, List.getLast?_append_cons, List.getLast?_cons_cons] at isLast
        have nodup := linked.nodup dir
        rw [old_eq, nodup_append, nodup_cons] at nodup
        exact nodup.2.1.1 (mem_of_getLast? isLast)
      have notChild : other ≠ child := by
        rintro rfl
        exact appended.detached dir otherMem
      refine ⟨node, ?_, parent_eq, previous_eq, next_eq⟩
      rw [appended.others other notChild (linked.ne_of_mem otherMem) notLast, node_eq]

theorem linked (linked : Linked h kids) : Linked h' (update kids dir (kids dir ++ [child])) where
  made {id} outside := by
    rw [appended.nextNode_eq] at outside
    exact (appended.node_eq_none id).2 (linked.made outside)
  leaf {id} missing := by
    have none_eq := (appended.node_eq_none id).1 missing
    obtain ⟨node, node_eq, -⟩ := appended.atDir
    have notDir : id ≠ dir := by
      rintro rfl
      cases none_eq.symm.trans node_eq
    rw [update_of_ne notDir]
    exact linked.leaf none_eq
  first node_eq := appended.firstChild_eq linked node_eq
  link {id other front rest} kids_eq := by
    by_cases isDir : id = dir
    · subst isDir
      rw [update_self] at kids_eq
      exact appended.link_dir linked kids_eq
    · rw [update_of_ne isDir] at kids_eq
      exact appended.link_other linked isDir kids_eq
  grounded := by
    -- everything outside the subtree of the child is raised above it
    classical
    obtain ⟨rank, descends⟩ := linked.grounded
    refine ⟨fun id => if Below kids child id then rank id else rank id + rank child + 1, fun id other otherMem => ?_⟩
    dsimp only
    by_cases isOld : other ∈ kids id
    · have less := descends id other isOld
      by_cases inside : Below kids child id
      · have below : Below kids child other := inside.tail isOld
        rwa [if_pos inside, if_pos below]
      · rw [if_neg inside]
        split <;> omega
    · have isNew : id = dir ∧ other = child := by
        by_cases isDir : id = dir
        · subst isDir
          rw [update_self, mem_append, mem_singleton] at otherMem
          exact ⟨rfl, otherMem.resolve_left isOld⟩
        · rw [update_of_ne isDir] at otherMem
          exact absurd otherMem isOld
      rw [isNew.1, isNew.2, if_neg appended.apart, if_pos (below_refl child)]
      omega

end Appended

theorem setNext_eq {this nextFile : Nat} {next : Node} (this_eq : h.node this = some node)
    (next_eq : h.node nextFile = some next) (different : nextFile ≠ this) :
    h.setNext this nextFile = .ok ((h.put this { node with next := some nextFile }).put nextFile
      { next with previous := some this, parent := node.parent }) := by
  have next_eq' : (h.put this { node with next := some nextFile }).node nextFile = some next :=
    (update_of_ne different _ _).trans next_eq
  unfold setNext
  rw [get_of_node this_eq, ok_bind]
  dsimp only
  rw [get_of_node next_eq']
  rfl

theorem new_node_of_ne (h : Nodes) (name : Name) (different : id ≠ h.nextNode) :
    (h.new name).node id = h.node id :=
  update_of_ne different _ _

theorem new_node_self (h : Nodes) (name : Name) : (h.new name).node h.nextNode = some { name := name } :=
  update_self _ _ _

namespace Linked

theorem ne_nextNode (linked : Linked h kids) (node_eq : h.node id = some node) : id ≠ h.nextNode :=
  Nat.ne_of_lt (linked.lt_nextNode node_eq)

theorem new_detached (linked : Linked h kids) (id : Nat) : h.nextNode ∉ kids id := by
  intro childMem
  obtain ⟨node, node_eq, -⟩ := linked.node_of_mem childMem
  exact linked.ne_nextNode node_eq rfl

theorem new_kids (linked : Linked h kids) : kids h.nextNode = [] :=
  linked.leaf (linked.made (Nat.le_refl _))

theorem any_named_new (linked : Linked h kids) (name other : Name) {children : List Nat}
    (sub : children ⊆ kids id) :
    children.any ((h.new name).named other) = children.any (h.named other) := by
  rw [Bool.eq_iff_iff, any_eq_true, any_eq_true]
  refine exists_congr fun child => and_congr_right fun childMem => ?_
  have different : child ≠ h.nextNode := by
    rintro rfl
    exact linked.new_detached id (sub childMem)
  unfold named
  rw [h.new_node_of_ne name different]

variable {dir : Nat} {dirNode childNode : Node}

structure Loose (h : Nodes) (kids : Nat → List Nat) (dir child : Nat) (childNode : Node) : Prop where
  child_eq : h.node child = some childNode
  noNext : childNode.next = none
  noPrevious : childNode.previous = none
  detached : ∀ id, child ∉ kids id
  apart : ¬ Below kids child dir

theorem Loose.different (loose : Loose h kids dir child childNode) : child ≠ dir := by
  rintro rfl
  exact loose.apart (below_refl child)

variable (dir_eq : h.node dir = some dirNode) (loose : Loose h kids dir child childNode)
include dir_eq loose

theorem Loose.appended_first (kids_eq : kids dir = []) :
    Appended h ((h.put dir { dirNode with firstChild := some child }).put child
      { childNode with parent := some dir }) kids dir child := by
  refine ⟨rfl, loose.detached, loose.apart, ?_, ?_, ?_, ?_⟩
  · refine ⟨childNode, loose.child_eq, loose.noNext, ?_⟩
    rw [put_node, update_self, kids_eq, List.getLast?_nil, ← loose.noPrevious]
  · refine ⟨dirNode, dir_eq, ?_⟩
    rw [put_node, update_of_ne loose.different.symm, put_node, update_self, kids_eq]
    rfl
  · intro last isLast
    rw [kids_eq] at isLast
    cases isLast
  · intro id notChild notDir _
    rw [put_node, update_of_ne notChild, put_node, update_of_ne notDir]

variable (linked : Linked h kids)
include linked

theorem appended_behind {last : Nat} {lastNode : Node} (isLast : (kids dir).getLast? = some last)
    (last_eq : h.node last = some lastNode) :
    Appended h ((h.put last { lastNode with next := some child }).put child
      { childNode with previous := some last, parent := some dir }) kids dir child := by
  have lastMem := mem_of_getLast? isLast
  have notChild : last ≠ child := by
    rintro rfl
    exact loose.detached dir lastMem
  refine ⟨rfl, loose.detached, loose.apart, ?_, ?_, ?_, ?_⟩
  · refine ⟨childNode, loose.child_eq, loose.noNext, ?_⟩
    rw [put_node, update_self, isLast]
  · refine ⟨dirNode, dir_eq, ?_⟩
    rw [put_node, update_of_ne loose.different.symm, put_node,
      update_of_ne (linked.ne_of_mem lastMem).symm, dir_eq,
      List.head?_append_of_ne_nil _ (ne_nil_of_mem lastMem), ← linked.first dir_eq]
  · intro other isLast'
    cases isLast.symm.trans isLast'
    refine ⟨lastNode, last_eq, ?_⟩
    rw [put_node, update_of_ne notChild, put_node, update_self]
  · intro id notNew _ notLast
    have notLast' : id ≠ last := by
      rintro rfl
      exact notLast isLast
    rw [put_node, update_of_ne notNew, put_node, update_of_ne notLast']

theorem appendChild_eq :
    ∃ h', h.appendChild dir child = .ok (!(kids dir).dropLast.any (h.named childNode.name), h') ∧
      if (kids dir).dropLast.any (h.named childNode.name) then h' = h else Appended h h' kids dir child := by
  unfold appendChild
  rw [get_of_node dir_eq, ok_bind, linked.first dir_eq]
  cases kids_eq : kids dir with
  | nil =>
    have child_eq : (h.put dir { dirNode with firstChild := some child }).node child = some childNode :=
      (update_of_ne loose.different _ _).trans loose.child_eq
    refine ⟨(h.put dir { dirNode with firstChild := some child }).put child
      { childNode with parent := some dir }, ?_, ?_⟩
    · rw [List.head?_nil]
      dsimp only
      rw [get_of_node child_eq, ok_bind]
      rfl
    · rw [dropLast_nil, any_nil, if_neg Bool.false_ne_true]
      exact loose.appended_first dir_eq kids_eq
  | cons first rest =>
    have enough : rest.length < h.nextNode + 1 := by
      have length_le := linked.length_le dir
      rw [kids_eq, length_cons] at length_le
      omega
    rw [List.head?_cons]
    dsimp only
    rw [get_of_node loose.child_eq, ok_bind,
      @lastSibling_eq _ _ dir first linked childNode.name (h.nextNode + 1) [] rest kids_eq enough, ok_bind]
    by_cases seen : (first :: rest).dropLast.any (h.named childNode.name) = true
    · refine ⟨h, ?_, ?_⟩
      · rw [if_pos seen, seen]
        rfl
      · rw [if_pos seen]
    · obtain ⟨last, isLast⟩ : ∃ last, (kids dir).getLast? = some last :=
        ⟨_, List.getLast?_eq_some_getLast (kids_eq ▸ cons_ne_nil first rest)⟩
      have lastMem := mem_of_getLast? isLast
      obtain ⟨lastNode, last_eq, parent_eq⟩ := linked.node_of_mem lastMem
      have notLast : child ≠ last := by
        rintro rfl
        exact loose.detached dir lastMem
      refine ⟨(h.put last { lastNode with next := some child }).put child
        { childNode with previous := some last, parent := some dir }, ?_, ?_⟩
      · rw [Bool.eq_false_iff.2 seen, if_neg Bool.false_ne_true, ← kids_eq, isLast]
        dsimp only
        rw [setNext_eq last_eq loose.child_eq notLast, ok_bind, parent_eq]
        rfl
      · rw [if_neg seen]
        exact linked.appended_behind dir_eq loose isLast last_eq

omit loose

theorem appendChild_new (name : Name) :
    ∃ h', (h.new name).appendChild dir h.nextNode =
        .ok (!(kids dir).dropLast.any (h.named name), h') ∧
      if (kids dir).dropLast.any (h.named name) then h' = h.new name
      else Appended (h.new name) h' kids dir h.nextNode := by
  have different := linked.ne_nextNode dir_eq
  have loose : Loose (h.new name) kids dir h.nextNode { name := name } := by
    refine ⟨h.new_node_self name, rfl, rfl, linked.new_detached, fun below => ?_⟩
    rcases below_iff.1 below with same | ⟨other, isChild, -⟩
    · exact different same
    · rw [linked.new_kids] at isChild
      cases isChild
  have names : (kids dir).dropLast.any ((h.new name).named name) = (kids dir).dropLast.any (h.named name) :=
    linked.any_named_new name name (dropLast_subset _)
  rw [← names]
  exact (linked.new name).appendChild_eq ((h.new_node_of_ne name different).trans dir_eq) loose

end Linked

end Nodes

end SysCore.Fs
