import SysCore.Fs.NodeTree
import Mathlib.Data.List.Find

/-!
# Removing a child

`deleteChild` looks for a child with the name of the one it is given, links its
neighbours to each other and deletes it with everything below it.

The first child has no neighbour in front of it.  Then the parent loses its
pointer to the children, and with it all the others.
-/

namespace SysCore.Fs

open Transition Container List

namespace Nodes

section Model

variable (h : Nodes)

def modify (id : Nat) (f : Node → Node) : Outcome Nodes := do
  let node ← h.get id
  return h.put id (f node)

def delete (id : Nat) : Outcome Nodes := do
  let _ ← h.get id
  return { h with node := Function.update h.node id none }

def deleteTree : Nat → Option Nat → Nodes → Outcome Nodes
  | _, none, h => .ok h
  | 0, some _, _ => .error .hang
  | fuel + 1, some file, h => do
    let node ← h.get file
    let h ← deleteTree fuel node.next h
    let node ← h.get file
    let h ← deleteTree fuel node.firstChild h
    h.delete file

def linkFront (p : Nat) : Outcome Nodes := do
  let node ← h.get p
  match node.previous, node.parent with
  | some previous, _ => h.modify previous fun before => { before with next := node.next }
  | none, some parent => h.modify parent fun dir => { dir with firstChild := none }
  | none, none => return h

def linkBehind (p : Nat) : Outcome Nodes := do
  let node ← h.get p
  match node.next with
  | none => return h
  | some next => h.modify next fun behind => { behind with previous := node.previous }

def deleteChild (fuel this : Nat) (childFile : Option Nat) : Outcome Nodes :=
  match childFile with
  | none => .ok h
  | some child => do
    let dir ← h.get this
    match dir.firstChild with
    | none => return h
    | some first => do
      let childNode ← h.get child
      match ← h.findSibling childNode.name (h.nextNode + 1) (some first) with
      | none => return h
      | some p => do
        let h ← h.linkFront p
        let h ← h.linkBehind p
        let node ← h.get p
        let h ← deleteTree fuel node.firstChild h
        h.delete p

def searchBelow (dir : Nat) (names : List Name) : Outcome (Option Nat) := do
  let node ← h.get dir
  h.searchNames names node.firstChild

structure ChildList (dir : Nat) (children : List Nat) : Prop where
  first : ∃ node, h.node dir = some node ∧ node.firstChild = children.head?
  link : ∀ {front child rest}, children = front ++ child :: rest →
    ∃ node, h.node child = some node ∧ node.parent = some dir ∧
      node.previous = front.getLast? ∧ node.next = rest.head?

end Model

structure Removed (h h' : Nodes) (kids : Nat → List Nat) (dir child : Nat) (name : Name) : Prop where
  children : ChildList h' dir ((kids dir).erase child)
  nodes : ∀ id, (∃ node, h'.node id = some node) ↔
    ¬ Below kids child id ∧ ∃ node, h.node id = some node
  kept : ∀ names, names ≠ [] → names.head? ≠ some name →
    h'.searchBelow dir names = h.searchBelow dir names
  gone : ∀ names, names.head? = some name → h'.searchBelow dir names = .ok none

variable {h h' : Nodes} {kids : Nat → List Nat} {dir child id : Nat} {node : Node} {name : Name}
  {front rest : List Nat}

/-! ## Deleting a subtree -/

open Classical in
noncomputable def without (h : Nodes) (dead : Nat → Prop) : Nodes :=
  { h with node := fun id => if dead id then none else h.node id }

section Without

variable {dead dead' : Nat → Prop}

theorem without_node_of_dead (isDead : dead id) : (h.without dead).node id = none :=
  if_pos isDead

theorem without_node_of_not (alive : ¬ dead id) : (h.without dead).node id = h.node id :=
  if_neg alive

theorem without_eq_some : (h.without dead).node id = some node ↔ ¬ dead id ∧ h.node id = some node := by
  by_cases isDead : dead id
  · simp [without_node_of_dead isDead, isDead]
  · simp [without_node_of_not isDead, isDead]

theorem without_without (h : Nodes) (dead dead' : Nat → Prop) :
    (h.without dead).without dead' = h.without fun id => dead id ∨ dead' id := by
  unfold without
  congr 1
  funext id
  by_cases isDead : dead' id
  · rw [if_pos isDead, if_pos (.inr isDead)]
  · rw [if_neg isDead]
    dsimp only
    by_cases isDead' : dead id
    · rw [if_pos isDead', if_pos (.inl isDead')]
    · rw [if_neg isDead', if_neg (not_or_intro isDead' isDead)]

theorem without_false (h : Nodes) (none_dead : ∀ id, ¬ dead id) : h.without dead = h := by
  unfold without
  congr 1
  funext id
  exact if_neg (none_dead id)

theorem without_congr (h : Nodes) (same : ∀ id, dead id ↔ dead' id) : h.without dead = h.without dead' := by
  rw [show dead = dead' from funext fun id => propext (same id)]

theorem delete_of_node (node_eq : h.node id = some node) :
    h.delete id = .ok (h.without fun other => other = id) := by
  unfold delete without
  rw [get_of_node node_eq, ok_bind]
  congr 2
  funext other
  by_cases same : other = id
  · rw [if_pos same, same, Function.update_self]
  · rw [if_neg same, Function.update_of_ne same]

end Without

namespace Linked

theorem not_below_behind (linked : Linked h kids) (kids_eq : kids dir = front ++ child :: rest)
    (below : Below kids child id) : ¬ ∃ sibling ∈ rest, Below kids sibling id := by
  rintro ⟨sibling, siblingMem, below'⟩
  have childMem : child ∈ kids dir := by simp [kids_eq]
  have siblingMem' : sibling ∈ kids dir := by simp [kids_eq, siblingMem]
  have same := linked.forest.siblings_apart childMem siblingMem' below below'
  have nodup := linked.nodup dir
  rw [kids_eq, nodup_append, nodup_cons] at nodup
  exact nodup.2.1.1 (same ▸ siblingMem)

theorem deleteTree_eq (linked : Linked h kids) (kids_eq : kids dir = front ++ rest) :
    ∃ enough, ∀ fuel ≥ enough, ∀ g : Nodes,
      (∀ sibling ∈ rest, ∀ id, Below kids sibling id → g.node id = h.node id) →
      deleteTree fuel rest.head? g = .ok (g.without fun id => ∃ sibling ∈ rest, Below kids sibling id) := by
  induction dir using linked.forest.induct generalizing front rest with
  | inherited dir ih =>
  induction rest generalizing front with
  | nil =>
    refine ⟨0, fun fuel _ g _ => ?_⟩
    rw [without_false g (by simp)]
    cases fuel <;> rfl
  | cons child rest ihRest =>
    obtain ⟨node, node_eq, -, -, next_eq⟩ := linked.link kids_eq
    obtain ⟨enoughRest, atRest⟩ := @ihRest (front ++ [child]) (by rw [kids_eq]; simp)
    obtain ⟨enoughKids, atKids⟩ := ih child (by simp [kids_eq]) (nil_append (kids child)).symm
    refine ⟨max enoughRest enoughKids + 1, fun fuel enough g agrees => ?_⟩
    obtain ⟨fuel, rfl⟩ : ∃ more, fuel = more + 1 := ⟨fuel - 1, by omega⟩
    have node_eq₀ : g.node child = some node :=
      (agrees child (mem_cons_self ..) child (below_refl child)).trans node_eq
    -- The siblings behind are deleted first, then what is below; the node itself is
    -- read again after each.
    have deleted := atRest fuel (by omega) g fun sibling siblingMem =>
      agrees sibling (mem_cons_of_mem _ siblingMem)
    have stays : ∀ {id}, Below kids child id →
        (g.without fun id => ∃ sibling ∈ rest, Below kids sibling id).node id = h.node id := by
      intro id below
      rw [without_node_of_not (linked.not_below_behind kids_eq below)]
      exact agrees child (mem_cons_self ..) id below
    have node_eq₁ := (stays (below_refl child)).trans node_eq
    have deletedKids := atKids fuel (by omega) _ fun grandchild grandchildMem id below =>
      stays (below_iff.2 (.inr ⟨grandchild, grandchildMem, below⟩))
    have notOwn : ¬ ∃ grandchild ∈ kids child, Below kids grandchild child := by
      rintro ⟨grandchild, grandchildMem, below⟩
      exact linked.forest.not_below_child grandchildMem below
    have node_eq₂ := (@without_node_of_not _ child (fun id => ∃ grandchild ∈ kids child, Below kids grandchild id)
      notOwn).trans node_eq₁
    rw [List.head?_cons, deleteTree, get_of_node node_eq₀, ok_bind, next_eq, deleted, ok_bind,
      get_of_node node_eq₁, ok_bind, linked.first node_eq, deletedKids, ok_bind, delete_of_node node_eq₂,
      without_without, without_without]
    congr 1
    apply without_congr
    intro id
    rw [exists_mem_cons_iff, @below_iff _ kids child id, or_comm, @or_comm (id = child)]

end Linked

/-! ## The links of the neighbours -/

def map (h : Nodes) (f : Nat → Node → Node) : Nodes :=
  { h with node := fun id => (h.node id).map (f id) }

theorem map_node (node_eq : h.node id = some node) (f : Nat → Node → Node) :
    (h.map f).node id = some (f id node) := by
  unfold map
  dsimp only
  rw [node_eq]
  rfl

theorem node_of_map {f : Nat → Node → Node} (after_eq : (h.map f).node id = some node) :
    ∃ before, h.node id = some before ∧ f id before = node :=
  Option.map_eq_some_iff.1 after_eq

theorem map_map (h : Nodes) (f g : Nat → Node → Node) :
    (h.map f).map g = h.map fun id node => g id (f id node) := by
  unfold map
  congr 1
  funext id
  exact Option.map_map (g id) (f id) (h.node id)

theorem modify_eq_map (node_eq : h.node id = some node) (f : Node → Node) :
    h.modify id f = .ok (h.map fun other node => if other = id then f node else node) := by
  unfold modify put map
  rw [get_of_node node_eq, ok_bind]
  congr 2
  funext other
  by_cases same : other = id
  · subst same
    simp [node_eq]
  · simp [same]

def relinkFront (dir : Nat) (front rest : List Nat) (id : Nat) (node : Node) : Node :=
  { node with
    next := if front.getLast? = some id then rest.head? else node.next
    firstChild := if id = dir ∧ front = [] then none else node.firstChild }

def relinkBehind (front rest : List Nat) (id : Nat) (node : Node) : Node :=
  { node with previous := if rest.head? = some id then front.getLast? else node.previous }

def relink (dir : Nat) (front rest : List Nat) (id : Nat) (node : Node) : Node :=
  relinkBehind front rest id (relinkFront dir front rest id node)

theorem relinkFront_eq_self (notFirst : ¬ (id = dir ∧ front = [])) (notLast : id ∉ front) :
    relinkFront dir front rest id node = node := by
  unfold relinkFront
  rw [if_neg fun isLast => notLast (mem_of_getLast? isLast), if_neg notFirst]

theorem relinkBehind_eq_self (notRest : id ∉ rest) : relinkBehind front rest id node = node := by
  unfold relinkBehind
  rw [if_neg fun isHead => notRest (mem_of_head? isHead)]

namespace Linked

theorem apart (linked : Linked h kids) (kids_eq : kids dir = front ++ child :: rest) :
    child ∉ front ∧ child ∉ rest ∧ (∀ other ∈ front, other ∉ rest) ∧ dir ∉ front ∧ dir ∉ rest ∧ child ≠ dir := by
  have nodup := linked.nodup dir
  have notOwn : dir ∉ kids dir := fun own => linked.ne_of_mem own rfl
  rw [kids_eq, nodup_append, nodup_cons] at nodup
  obtain ⟨-, ⟨notRest, -⟩, apart⟩ := nodup
  rw [kids_eq, mem_append, mem_cons, not_or, not_or] at notOwn
  refine ⟨linked.not_mem_front kids_eq, notRest, ?_, notOwn.1, notOwn.2.2, Ne.symm notOwn.2.1⟩
  intro other inFront inRest
  exact apart other inFront other (mem_cons_of_mem _ inRest) rfl

theorem dir_of_kids (linked : Linked h kids) (kids_eq : kids dir = front ++ child :: rest) :
    ∃ node, h.node dir = some node := by
  cases node_eq : h.node dir with
  | none =>
    rw [linked.leaf node_eq] at kids_eq
    cases front <;> cases kids_eq
  | some node => exact ⟨node, rfl⟩

theorem linkFront_eq (linked : Linked h kids) (kids_eq : kids dir = front ++ child :: rest) :
    h.linkFront child = .ok (h.map (relinkFront dir front rest)) := by
  obtain ⟨node, node_eq, parent_eq, previous_eq, next_eq⟩ := linked.link kids_eq
  unfold linkFront
  rw [get_of_node node_eq, ok_bind, previous_eq, parent_eq, next_eq]
  rcases eq_nil_or_concat' front with rfl | ⟨init, last, rfl⟩
  · obtain ⟨dirNode, dir_eq⟩ := linked.dir_of_kids kids_eq
    simp only [List.getLast?_nil]
    rw [modify_eq_map dir_eq]
    congr 2
    funext id other
    by_cases isDir : id = dir
    · simp [relinkFront, isDir]
    · simp [relinkFront, isDir]
  · obtain ⟨lastNode, last_eq, -⟩ := @node_of_mem _ _ dir last linked (by simp [kids_eq])
    simp only [List.getLast?_concat]
    rw [modify_eq_map last_eq]
    congr 2
    funext id other
    by_cases isLast : id = last
    · simp [relinkFront, isLast]
    · simp [relinkFront, isLast, Ne.symm isLast]

theorem linkBehind_eq (linked : Linked h kids) (kids_eq : kids dir = front ++ child :: rest) :
    (h.map (relinkFront dir front rest)).linkBehind child = .ok (h.map (relink dir front rest)) := by
  obtain ⟨node, node_eq, -, previous_eq, next_eq⟩ := linked.link kids_eq
  obtain ⟨notFront, -, -, -, -, notDir⟩ := linked.apart kids_eq
  have child_eq : (h.map (relinkFront dir front rest)).node child = some node := by
    rw [map_node node_eq, relinkFront_eq_self (fun both => notDir both.1) notFront]
  have composed : h.map (relink dir front rest) =
      (h.map (relinkFront dir front rest)).map (relinkBehind front rest) :=
    (map_map h (relinkFront dir front rest) (relinkBehind front rest)).symm
  unfold linkBehind
  rw [get_of_node child_eq, ok_bind, next_eq, previous_eq, composed]
  cases rest with
  | nil =>
    have same : relinkBehind front [] = fun _ node => node :=
      funext fun id => funext fun other => relinkBehind_eq_self not_mem_nil
    rw [same, map_map]
    rfl
  | cons next more =>
    obtain ⟨nextNode, next_eq, -⟩ := @node_of_mem _ _ dir next linked (by simp [kids_eq])
    simp only [List.head?_cons]
    rw [modify_eq_map (map_node next_eq _)]
    congr 2
    funext id other
    by_cases isNext : id = next
    · simp [relinkBehind, isNext]
    · simp [relinkBehind, isNext, Ne.symm isNext]

end Linked

/-! ## What is left -/

open Classical in
noncomputable def remaining (kids : Nat → List Nat) (dir child : Nat) (front rest : List Nat) (id : Nat) :
    List Nat :=
  if Below kids child id then [] else
    if id = dir then (if front = [] then [] else front ++ rest) else kids id

section Remaining

theorem remaining_of_below (below : Below kids child id) : remaining kids dir child front rest id = [] :=
  if_pos below

theorem remaining_of_other (notBelow : ¬ Below kids child id) (notDir : id ≠ dir) :
    remaining kids dir child front rest id = kids id :=
  (if_neg notBelow).trans (if_neg notDir)

theorem remaining_dir (notBelow : ¬ Below kids child dir) :
    remaining kids dir child front rest dir = if front = [] then [] else front ++ rest :=
  (if_neg notBelow).trans (if_pos rfl)

end Remaining

namespace Linked

variable (linked : Linked h kids) {other : Nat} {before behind : List Nat}
include linked

variable (kids_eq : kids dir = front ++ child :: rest)
include kids_eq

theorem link_remaining_other (notBelow : ¬ Below kids child id) (notDir : id ≠ dir)
    (other_eq : kids id = before ++ other :: behind) :
    ∃ node, ((h.map (relink dir front rest)).without (Below kids child)).node other = some node ∧
      node.parent = some id ∧ node.previous = before.getLast? ∧ node.next = behind.head? := by
  obtain ⟨node, node_eq, parent_eq, previous_eq, next_eq⟩ := linked.link other_eq
  have otherMem : other ∈ kids id := by simp [other_eq]
  have notMem : other ∉ kids dir := fun inDir => notDir (linked.forest.parent otherMem inDir)
  rw [kids_eq, mem_append, mem_cons, not_or, not_or] at notMem
  have alive : ¬ Below kids child other := by
    intro below
    obtain ⟨parent, isChild, above⟩ := below.parent notMem.2.1
    rw [linked.forest.parent isChild otherMem] at above
    exact notBelow above
  refine ⟨_, (without_node_of_not alive).trans (map_node node_eq _), parent_eq, ?_, ?_⟩
  · rw [← previous_eq]
    exact if_neg fun isHead => notMem.2.2 (mem_of_head? isHead)
  · rw [← next_eq]
    exact if_neg fun isLast => notMem.1 (mem_of_getLast? isLast)

omit kids_eq in
theorem link_remaining_front {middle : List Nat}
    (kids_eq : kids dir = (before ++ other :: middle) ++ child :: rest) :
    ∃ node, h.node other = some node ∧ node.parent = some dir ∧
      (relink dir (before ++ other :: middle) rest other node).previous = before.getLast? ∧
      (relink dir (before ++ other :: middle) rest other node).next = (middle ++ rest).head? := by
  have other_eq : kids dir = before ++ other :: (middle ++ child :: rest) := by rw [kids_eq]; simp
  obtain ⟨node, node_eq, parent_eq, previous_eq, next_eq⟩ := linked.link other_eq
  obtain ⟨-, -, apart, -⟩ := linked.apart kids_eq
  have notRest : other ∉ rest := apart other (by simp)
  refine ⟨node, node_eq, parent_eq, ?_, ?_⟩
  · rw [← previous_eq]
    exact if_neg fun isHead => notRest (mem_of_head? isHead)
  · rw [relink, relinkBehind_eq_self notRest]
    cases middle with
    | nil => exact if_pos List.getLast?_concat
    | cons next middle =>
      have notLast : (before ++ other :: next :: middle).getLast? ≠ some other := by
        intro isLast
        rw [List.getLast?_append_cons, List.getLast?_cons_cons] at isLast
        obtain ⟨-, notBehind, -⟩ := linked.apart other_eq
        exact notBehind (mem_append_left _ (mem_of_getLast? isLast))
      exact (if_neg notLast).trans next_eq

omit kids_eq in
omit linked in
theorem link_remaining_behind (linked : Linked h kids) {other : Nat} {middle behind : List Nat}
    (kids_eq : kids dir = front ++ child :: (middle ++ other :: behind)) :
    ∃ node, h.node other = some node ∧ node.parent = some dir ∧
      (relink dir front (middle ++ other :: behind) other node).previous = (front ++ middle).getLast? ∧
      (relink dir front (middle ++ other :: behind) other node).next = behind.head? := by
  have other_eq : kids dir = (front ++ child :: middle) ++ other :: behind := by rw [kids_eq]; simp
  obtain ⟨node, node_eq, parent_eq, previous_eq, next_eq⟩ := linked.link other_eq
  obtain ⟨-, -, apart, -⟩ := linked.apart kids_eq
  have notFront : other ∉ front := fun inFront => apart other inFront (by simp)
  refine ⟨node, node_eq, parent_eq, ?_, ?_⟩
  · cases middle with
    | nil =>
      rw [append_nil]
      exact if_pos rfl
    | cons next middle =>
      have notHead : (next :: middle ++ other :: behind).head? ≠ some other := by
        intro isHead
        cases isHead
        obtain ⟨notBefore, -⟩ := linked.apart other_eq
        exact notBefore (by simp)
      rw [List.getLast?_append_cons, List.getLast?_cons_cons] at previous_eq
      rw [List.getLast?_append_cons, ← previous_eq]
      exact if_neg notHead
  · rw [← next_eq]
    exact if_neg fun isLast => notFront (mem_of_getLast? isLast)

omit linked in
theorem mem_of_sibling (otherMem : other ∈ front ++ rest) : other ∈ kids dir := by
  rw [kids_eq, mem_append, mem_cons]
  rw [mem_append] at otherMem
  exact otherMem.imp_right .inr

theorem not_below_sibling (otherMem : other ∈ front ++ rest) (below : Below kids other id) :
    ¬ Below kids child id := by
  intro below'
  have same := linked.forest.siblings_apart (by rw [kids_eq]; simp) (mem_of_sibling kids_eq otherMem) below' below
  obtain ⟨notFront, notRest, -⟩ := linked.apart kids_eq
  rw [← same, mem_append] at otherMem
  exact otherMem.elim notFront notRest

theorem link_remaining_dir (left_eq : front ++ rest = before ++ other :: behind) :
    ∃ node, ((h.map (relink dir front rest)).without (Below kids child)).node other = some node ∧
      node.parent = some dir ∧ node.previous = before.getLast? ∧ node.next = behind.head? := by
  have otherMem : other ∈ front ++ rest := by simp [left_eq]
  have alive := linked.not_below_sibling kids_eq otherMem (below_refl other)
  have links : ∃ node, h.node other = some node ∧ node.parent = some dir ∧
      (relink dir front rest other node).previous = before.getLast? ∧
      (relink dir front rest other node).next = behind.head? := by
    rcases append_eq_append_iff.1 left_eq with ⟨middle, rfl, rest_eq⟩ | ⟨middle, rfl, behind_eq⟩
    · subst rest_eq
      exact linked.link_remaining_behind kids_eq
    · cases middle with
      | nil =>
        subst behind_eq
        have found := @link_remaining_behind _ _ _ _ _ linked other [] behind (by simpa using kids_eq)
        simpa using found
      | cons first middle =>
        cases behind_eq
        exact linked.link_remaining_front kids_eq
  obtain ⟨node, node_eq, parent_eq, previous_eq, next_eq⟩ := links
  exact ⟨_, (without_node_of_not alive).trans (map_node node_eq _), parent_eq, previous_eq, next_eq⟩

theorem not_below_dir : ¬ Below kids child dir :=
  linked.forest.not_below_child (by rw [kids_eq]; simp)

omit linked in
theorem mem_of_remaining (otherMem : other ∈ remaining kids dir child front rest id) :
    other ∈ kids id := by
  unfold remaining at otherMem
  split at otherMem
  · cases otherMem
  split at otherMem
  · rename_i isDir
    split at otherMem
    · cases otherMem
    · rw [isDir]
      exact mem_of_sibling kids_eq otherMem
  · exact otherMem

theorem first_remaining (notBelow : ¬ Below kids child id) (node_eq : h.node id = some node) :
    (relink dir front rest id node).firstChild = (remaining kids dir child front rest id).head? := by
  by_cases isDir : id = dir
  · subst isDir
    rw [remaining_dir notBelow]
    by_cases isFirst : front = []
    · rw [if_pos isFirst]
      exact if_pos ⟨rfl, isFirst⟩
    · rw [if_neg isFirst, List.head?_append_of_ne_nil _ isFirst,
        ← @List.head?_append_of_ne_nil _ front (child :: rest) isFirst, ← kids_eq, ← linked.first node_eq]
      exact if_neg fun both => isFirst both.2
  · rw [remaining_of_other notBelow isDir, ← linked.first node_eq]
    exact if_neg fun both => isDir both.1

theorem remains :
    Linked ((h.map (relink dir front rest)).without (Below kids child))
      (remaining kids dir child front rest) where
  made {id} outside := by
    by_cases below : Below kids child id
    · exact without_node_of_dead below
    · rw [without_node_of_not below]
      exact Option.map_eq_none_iff.2 (linked.made outside)
  leaf {id} missing := by
    by_cases below : Below kids child id
    · exact remaining_of_below below
    · rw [without_node_of_not below] at missing
      have none_eq : h.node id = none := Option.map_eq_none_iff.1 missing
      have notDir : id ≠ dir := by
        rintro rfl
        obtain ⟨node, node_eq⟩ := linked.dir_of_kids kids_eq
        cases none_eq.symm.trans node_eq
      rw [remaining_of_other below notDir]
      exact linked.leaf none_eq
  first {id node} node_eq := by
    obtain ⟨notBelow, after_eq⟩ := without_eq_some.1 node_eq
    obtain ⟨before, before_eq, rfl⟩ := node_of_map after_eq
    exact linked.first_remaining kids_eq notBelow before_eq
  link {id other before behind} left_eq := by
    have notBelow : ¬ Below kids child id := by
      intro below
      rw [remaining_of_below below] at left_eq
      cases before <;> cases left_eq
    by_cases isDir : id = dir
    · subst isDir
      rw [remaining_dir notBelow] at left_eq
      split at left_eq
      · cases before <;> cases left_eq
      · exact linked.link_remaining_dir kids_eq left_eq
    · rw [remaining_of_other notBelow isDir] at left_eq
      exact linked.link_remaining_other kids_eq notBelow isDir left_eq
  grounded := by
    obtain ⟨rank, descends⟩ := linked.grounded
    exact ⟨rank, fun id other otherMem => descends id other (mem_of_remaining kids_eq otherMem)⟩

theorem relink_of_below (below : Below kids child id) (node : Node) :
    relink dir front rest id node = node := by
  have notSibling : id ∉ front ++ rest := by
    intro isSibling
    exact linked.not_below_sibling kids_eq isSibling (below_refl id) below
  rw [mem_append, not_or] at notSibling
  rw [relink, relinkFront_eq_self, relinkBehind_eq_self]
  · exact notSibling.2
  · rintro ⟨rfl, -⟩
    exact linked.not_below_dir kids_eq below
  · exact notSibling.1

theorem deleteChild_eq {file : Nat} {fileNode : Node} (file_eq : h.node file = some fileNode)
    (isFirst : (kids dir).find? (h.named fileNode.name) = some child) :
    ∃ enough, ∀ fuel ≥ enough, h.deleteChild fuel dir (some file) =
      .ok ((h.map (relink dir front rest)).without (Below kids child)) := by
  obtain ⟨dirNode, dir_eq⟩ := linked.dir_of_kids kids_eq
  obtain ⟨node, node_eq, -⟩ := linked.link kids_eq
  obtain ⟨enough, deletes⟩ := linked.deleteTree_eq (nil_append (kids child)).symm
  refine ⟨enough, fun fuel isEnough => ?_⟩
  obtain ⟨first, first_eq⟩ : ∃ first, (kids dir).head? = some first := by
    rw [kids_eq]
    cases front with
    | nil => exact ⟨_, rfl⟩
    | cons first front => exact ⟨_, rfl⟩
  have found := linked.findSibling_kids fileNode.name dir
  rw [first_eq, isFirst] at found
  have child_eq : (h.map (relink dir front rest)).node child = some node := by
    rw [map_node node_eq, linked.relink_of_below kids_eq (below_refl child)]
  have deleted := deletes fuel isEnough (h.map (relink dir front rest)) (by
    intro grandchild grandchildMem id below
    have below' := below_iff.2 (.inr ⟨grandchild, grandchildMem, below⟩)
    unfold map
    dsimp only
    rw [funext fun node => linked.relink_of_below kids_eq below' node, Option.map_id'])
  have notOwn : ¬ ∃ grandchild ∈ kids child, Below kids grandchild child := by
    rintro ⟨grandchild, grandchildMem, below⟩
    exact linked.forest.not_below_child grandchildMem below
  have child_eq' := (@without_node_of_not _ child (fun id => ∃ grandchild ∈ kids child, Below kids grandchild id)
    notOwn).trans child_eq
  unfold deleteChild
  dsimp only
  rw [get_of_node dir_eq, ok_bind, linked.first dir_eq, first_eq]
  dsimp only
  rw [get_of_node file_eq, ok_bind, found, ok_bind]
  dsimp only
  rw [linked.linkFront_eq kids_eq, ok_bind, linked.linkBehind_eq kids_eq, ok_bind, get_of_node child_eq,
    ok_bind, linked.first node_eq, deleted, ok_bind, delete_of_node child_eq', without_without]
  congr 1
  apply without_congr
  intro id
  rw [@below_iff _ kids child id, or_comm]

end Linked

/-! ## The searches after a removal -/

theorem lookup_congr {kids' : Nat → List Nat}
    (kids_eq : ∀ other, Below kids id other → kids' other = kids other)
    (named_eq : ∀ other, Below kids id other → ∀ name, h'.named name other = h.named name other)
    (names : List Name) : h'.lookup kids' names id = h.lookup kids names id := by
  induction names generalizing id with
  | nil => rfl
  | cons filename names ih =>
    have children : ∀ {other}, other ∈ kids id → ∀ {below}, Below kids other below → Below kids id below := by
      intro other otherMem below isBelow
      exact below_iff.2 (.inr ⟨other, otherMem, isBelow⟩)
    have found_eq : (kids id).find? (h'.named filename) = (kids id).find? (h.named filename) := by
      apply List.find?_congr
      intro other otherMem
      exact named_eq other (children otherMem (below_refl other)) filename
    rw [lookup, lookup, kids_eq id (below_refl id), found_eq]
    cases isFound : (kids id).find? (h.named filename) with
    | none => rfl
    | some found =>
      have foundMem := mem_of_find?_eq_some isFound
      apply ih
      · intro other below
        exact kids_eq other (children foundMem below)
      · intro other below
        exact named_eq other (children foundMem below)

theorem named_remains (alive : ¬ Below kids child id) (name : Name) :
    ((h.map (relink dir front rest)).without (Below kids child)).named name id = h.named name id := by
  unfold named
  rw [without_node_of_not alive]
  cases node_eq : h.node id with
  | none => rw [show (h.map (relink dir front rest)).node id = none from Option.map_eq_none_iff.2 node_eq]
  | some node =>
    rw [map_node node_eq]
    rfl

theorem name_of_named (isNamed : h.named name id = true) : (h.node id).map Node.name = some name := by
  unfold named at isNamed
  cases node_eq : h.node id with
  | none =>
    rw [node_eq] at isNamed
    cases isNamed
  | some node =>
    rw [node_eq] at isNamed
    exact congrArg some (of_decide_eq_true isNamed)

namespace Linked

variable (linked : Linked h kids)
include linked

theorem searchBelow_eq (node_eq : h.node dir = some node) {names : List Name} (notEmpty : names ≠ []) :
    h.searchBelow dir names = .ok (h.lookup kids names dir) := by
  unfold searchBelow
  rw [get_of_node node_eq, ok_bind, linked.first node_eq, linked.searchNames_eq notEmpty]

theorem childList (node_eq : h.node dir = some node) : ChildList h dir (kids dir) where
  first := ⟨node, node_eq, linked.first node_eq⟩
  link kids_eq := linked.link kids_eq

variable (kids_eq : kids dir = front ++ child :: rest)
include kids_eq

theorem erase_child : (kids dir).erase child = front ++ rest := by
  rw [kids_eq, erase_append_right _ (linked.not_mem_front kids_eq), erase_cons_head]

theorem lookup_remaining (keeps : front = [] → rest = []) {filename : Name}
    (other_name : h.named filename child = false) (names : List Name) :
    ((h.map (relink dir front rest)).without (Below kids child)).lookup (remaining kids dir child front rest)
      (filename :: names) dir = h.lookup kids (filename :: names) dir := by
  have left_eq : remaining kids dir child front rest dir = front ++ rest := by
    rw [remaining_dir (linked.not_below_dir kids_eq)]
    split
    · rename_i isFirst
      rw [isFirst, keeps isFirst]
      rfl
    · rfl
  have found_eq : (front ++ rest).find?
      (((h.map (relink dir front rest)).without (Below kids child)).named filename) =
        (kids dir).find? (h.named filename) := by
    rw [kids_eq, @List.find?_append _ _ front (child :: rest), List.find?_cons_of_neg (by simp [other_name]),
      ← List.find?_append]
    apply List.find?_congr
    intro other otherMem
    exact named_remains (linked.not_below_sibling kids_eq otherMem (below_refl other)) filename
  rw [lookup, lookup, left_eq, found_eq]
  cases isFound : (kids dir).find? (h.named filename) with
  | none => rfl
  | some found =>
    have foundMem : found ∈ front ++ rest := mem_of_find?_eq_some (found_eq.trans isFound)
    have inDir : found ∈ kids dir := mem_of_find?_eq_some isFound
    apply lookup_congr
    · intro other below
      apply remaining_of_other (linked.not_below_sibling kids_eq foundMem below)
      rintro rfl
      exact linked.forest.not_below_child inDir below
    · intro other below name
      exact named_remains (linked.not_below_sibling kids_eq foundMem below) name

theorem lookup_removed (noOther : ∀ other ∈ front ++ rest, h.named name other = false) (names : List Name) :
    ((h.map (relink dir front rest)).without (Below kids child)).lookup (remaining kids dir child front rest)
      (name :: names) dir = none := by
  have noneFound : (remaining kids dir child front rest dir).find?
      (((h.map (relink dir front rest)).without (Below kids child)).named name) = none := by
    rw [List.find?_eq_none, remaining_dir (linked.not_below_dir kids_eq)]
    intro other otherMem
    split at otherMem
    · cases otherMem
    · rw [named_remains (linked.not_below_sibling kids_eq otherMem (below_refl other)), noOther other otherMem]
      exact Bool.false_ne_true
  rw [lookup, noneFound]
  rfl

theorem removed (keeps : front = [] → rest = []) (node_eq : h.node child = some node)
    (noOther : ∀ other ∈ front ++ rest, h.named node.name other = false) :
    Removed h ((h.map (relink dir front rest)).without (Below kids child)) kids dir child node.name := by
  have remains := linked.remains kids_eq
  have notBelow := linked.not_below_dir kids_eq
  obtain ⟨dirNode, dir_eq⟩ := linked.dir_of_kids kids_eq
  have dir_eq' : ((h.map (relink dir front rest)).without (Below kids child)).node dir = some _ :=
    (without_node_of_not notBelow).trans (map_node dir_eq _)
  constructor
  · have left_eq : remaining kids dir child front rest dir = (kids dir).erase child := by
      rw [linked.erase_child kids_eq, remaining_dir notBelow]
      split
      · rename_i isFirst
        rw [isFirst, keeps isFirst]
        rfl
      · rfl
    rw [← left_eq]
    exact remains.childList dir_eq'
  · intro id
    constructor
    · rintro ⟨after, after_eq⟩
      obtain ⟨alive, mapped_eq⟩ := without_eq_some.1 after_eq
      obtain ⟨before, before_eq, -⟩ := node_of_map mapped_eq
      exact ⟨alive, before, before_eq⟩
    · rintro ⟨alive, before, before_eq⟩
      exact ⟨_, (without_node_of_not alive).trans (map_node before_eq _)⟩
  · intro names notEmpty otherName
    rw [remains.searchBelow_eq dir_eq' notEmpty, linked.searchBelow_eq dir_eq notEmpty]
    cases names with
    | nil => exact absurd rfl notEmpty
    | cons filename names =>
      have notNamed : h.named filename child = false := by
        rw [named_of_node node_eq]
        exact decide_eq_false fun same => otherName (congrArg some same.symm)
      rw [linked.lookup_remaining kids_eq keeps notNamed]
  · intro names sameName
    cases names with
    | nil => cases sameName
    | cons filename names =>
      cases sameName
      rw [remains.searchBelow_eq dir_eq' (cons_ne_nil node.name names), linked.lookup_removed kids_eq noOther]

end Linked

/-! ## Runs of edits -/

inductive Edit where
  | append (dir : Nat) (name : Name)
  | delete (dir file : Nat)

inductive EditStep : Nodes → Edit → Nodes → Prop
  | append {h h' : Nodes} {dir : Nat} {name : Name} :
      BuildStep h (dir, name) h' → EditStep h (.append dir name) h'
  | delete {h h' : Nodes} {dir file : Nat} {dirNode fileNode : Node} :
      h.node dir = some dirNode → h.node file = some fileNode →
      (∃ enough, ∀ fuel ≥ enough, h.deleteChild fuel dir (some file) = .ok h') →
      EditStep h (.delete dir file) h'

theorem Linked.deleteChild_of_missing (linked : Linked h kids) {dirNode fileNode : Node} {file : Nat}
    (dir_eq : h.node dir = some dirNode) (file_eq : h.node file = some fileNode)
    (missing : (kids dir).find? (h.named fileNode.name) = none) (fuel : Nat) :
    h.deleteChild fuel dir (some file) = .ok h := by
  have found := linked.findSibling_kids fileNode.name dir
  rw [missing] at found
  unfold deleteChild
  dsimp only
  rw [get_of_node dir_eq, ok_bind, linked.first dir_eq]
  cases first_eq : (kids dir).head? with
  | none => rfl
  | some first =>
    rw [first_eq] at found
    dsimp only
    rw [get_of_node file_eq, ok_bind, found]
    rfl

theorem Linked.edit (linked : Linked h kids) {edit : Edit} (step : EditStep h edit h') :
    ∃ kids', Linked h' kids' := by
  cases step with
  | append built => exact linked.step built
  | @delete _ dir file dirNode fileNode dir_eq file_eq returns =>
    obtain ⟨enough, returns⟩ := returns
    cases isFound : (kids dir).find? (h.named fileNode.name) with
    | none =>
      have same := linked.deleteChild_of_missing dir_eq file_eq isFound enough
      cases (returns enough (Nat.le_refl _)).symm.trans same
      exact ⟨kids, linked⟩
    | some child =>
      obtain ⟨front, rest, kids_eq⟩ := append_of_mem (mem_of_find?_eq_some isFound)
      obtain ⟨enough', deletes⟩ := linked.deleteChild_eq kids_eq file_eq isFound
      have deleted := deletes (max enough enough') (Nat.le_max_right ..)
      cases (returns (max enough enough') (Nat.le_max_left ..)).symm.trans deleted
      exact ⟨_, linked.remains kids_eq⟩

/-- The links stay consistent whatever is appended and deleted, and every deletion returns. -/
theorem consistent_of_edits {edits : List Edit} (run : Run EditStep (root name) edits h) :
    Consistent h ∧ ∀ dir file dirNode fileNode, h.node dir = some dirNode → h.node file = some fileNode →
      ∃ h', EditStep h (.delete dir file) h' := by
  obtain ⟨kids, linked⟩ := @Run.invariant _ _ EditStep (fun h => ∃ kids, Linked h kids)
    (fun linked step => linked.choose_spec.edit step) _ _ _ run ⟨_, Linked.root name⟩
  refine ⟨linked.consistent, fun dir file dirNode fileNode dir_eq file_eq => ?_⟩
  cases isFound : (kids dir).find? (h.named fileNode.name) with
  | none => exact ⟨h, .delete dir_eq file_eq ⟨0, fun fuel _ => linked.deleteChild_of_missing dir_eq file_eq isFound fuel⟩⟩
  | some child =>
    obtain ⟨front, rest, kids_eq⟩ := append_of_mem (mem_of_find?_eq_some isFound)
    exact ⟨_, .delete dir_eq file_eq (linked.deleteChild_eq kids_eq file_eq isFound)⟩

theorem consistent_of_pair : ∃ h, Run EditStep (root ['/']) [.append 0 ['a'], .delete 0 1] h ∧ Consistent h := by
  obtain ⟨h₁, built, dir, dir_eq, file, file_eq⟩ : ∃ h₁, BuildStep (root ['/']) (0, ['a']) h₁ ∧
      ∃ dir, h₁.node 0 = some dir ∧ ∃ file, h₁.node 1 = some file := ⟨_, ⟨⟨_, rfl⟩, _, rfl⟩, _, rfl, _, rfl⟩
  have appended : Run EditStep (root ['/']) [.append 0 ['a']] h₁ := .snoc .nil (.append built)
  obtain ⟨h₂, deleted⟩ := (consistent_of_edits appended).2 0 1 dir file dir_eq file_eq
  have run : Run EditStep (root ['/']) [.append 0 ['a'], .delete 0 1] h₂ := appended.snoc deleted
  exact ⟨h₂, run, (consistent_of_edits run).1⟩

/-! ## Which removals are exact -/

/-- Exactly the child and what is below it are removed, unless it is the first of
several children. -/
theorem deleteChild_removed_iff (linked : Linked h kids) (childMem : child ∈ kids dir)
    (node_eq : h.node child = some node)
    (distinct : ((kids dir).map fun id => (h.node id).map Node.name).Nodup) :
    ∃ enough, ∀ fuel ≥ enough, ∃ h', h.deleteChild fuel dir (some child) = .ok h' ∧
      (Removed h h' kids dir child node.name ↔ ((kids dir).head? = some child → kids dir = [child])) := by
  obtain ⟨front, rest, kids_eq⟩ := append_of_mem childMem
  have noOther : ∀ other ∈ front ++ rest, h.named node.name other = false := by
    intro other otherMem
    rw [Bool.eq_false_iff]
    intro sameName
    have inDir := Linked.mem_of_sibling kids_eq otherMem
    have name_eq : (h.node other).map Node.name = (h.node child).map Node.name := by
      rw [name_of_named sameName, node_eq]
      rfl
    have same := inj_on_of_nodup_map distinct inDir childMem name_eq
    exact linked.not_below_sibling kids_eq otherMem (below_refl other) (same ▸ below_refl other)
  have isFound : (kids dir).find? (h.named node.name) = some child := by
    rw [kids_eq, List.find?_append, List.find?_eq_none.2, Option.none_or, List.find?_cons_of_pos]
    · rw [named_of_node node_eq, decide_eq_true rfl]
    · intro other inFront
      rw [noOther other (mem_append_left _ inFront)]
      exact Bool.false_ne_true
  obtain ⟨enough, deletes⟩ := linked.deleteChild_eq kids_eq node_eq isFound
  refine ⟨enough, fun fuel isEnough => ⟨_, deletes fuel isEnough, ?_⟩⟩
  constructor
  · intro removed isHead
    have isFirst : front = [] := by
      cases front with
      | nil => rfl
      | cons first front =>
        rw [kids_eq] at isHead
        cases isHead
        exact absurd (mem_cons_self ..) (linked.not_mem_front kids_eq)
    obtain ⟨after, after_eq, first_eq⟩ := removed.children.first
    obtain ⟨-, mapped_eq⟩ := without_eq_some.1 after_eq
    obtain ⟨before, -, rfl⟩ := node_of_map mapped_eq
    have noFirst : (relink dir front rest dir before).firstChild = none := if_pos ⟨rfl, isFirst⟩
    rw [noFirst, linked.erase_child kids_eq, isFirst, nil_append] at first_eq
    rw [kids_eq, isFirst, List.head?_eq_none_iff.1 first_eq.symm]
    rfl
  · intro keeps
    apply linked.removed kids_eq ?_ node_eq noOther
    rintro rfl
    have only := keeps (by rw [kids_eq]; rfl)
    rw [kids_eq] at only
    simpa using only

def pair : Nodes where
  node id := [{ name := [], firstChild := some 1 },
    { name := ['a'], parent := some 0, next := some 2 },
    { name := ['b'], parent := some 0, previous := some 1 }][id]?
  nextNode := 3

def pairKids (id : Nat) : List Nat :=
  if id = 0 then [1, 2] else []

theorem pair_linked : Linked pair pairKids where
  made outside := List.getElem?_eq_none outside
  leaf {id} missing := by
    apply if_neg
    rintro rfl
    cases missing
  first {id node} node_eq := by
    rcases id with _ | _ | _ | id <;> cases node_eq <;> rfl
  link {id child front rest} kids_eq := by
    by_cases isRoot : id = 0
    · subst isRoot
      rcases front with _ | ⟨first, _ | ⟨second, front⟩⟩
      · cases kids_eq
        exact ⟨_, rfl, rfl, rfl, rfl⟩
      · cases kids_eq
        exact ⟨_, rfl, rfl, rfl, rfl⟩
      · simp [pairKids] at kids_eq
    · simp [pairKids, isRoot] at kids_eq
  grounded := by
    refine ⟨fun id => if id = 0 then 1 else 0, fun id child childMem => ?_⟩
    by_cases isRoot : id = 0
    · subst isRoot
      have notRoot : child ≠ 0 := by
        rintro rfl
        simp [pairKids] at childMem
      simp [notRoot]
    · simp [pairKids, isRoot] at childMem

theorem deleteChild_removed_of_second : ∃ enough, ∀ fuel ≥ enough, ∃ h',
    pair.deleteChild fuel 0 (some 2) = .ok h' ∧ Removed pair h' pairKids 0 2 ['b'] := by
  have childMem : 2 ∈ pairKids 0 := by decide
  have distinct : ((pairKids 0).map fun id => (pair.node id).map Node.name).Nodup := by decide
  obtain ⟨enough, deletes⟩ := deleteChild_removed_iff pair_linked childMem rfl distinct
  refine ⟨enough, fun fuel isEnough => ?_⟩
  obtain ⟨h', deleted, removed_iff⟩ := deletes fuel isEnough
  exact ⟨h', deleted, removed_iff.2 (by decide)⟩

theorem deleteChild_loses_second : pair.searchBelow 0 [['b']] = .ok (some 2) ∧
    ∃ h', pair.deleteChild 1 0 (some 1) = .ok h' ∧ h'.searchBelow 0 [['b']] = .ok none ∧
      ∃ node, h'.node 2 = some node :=
  ⟨rfl, _, rfl, rfl, _, rfl⟩

end Nodes

end SysCore.Fs
