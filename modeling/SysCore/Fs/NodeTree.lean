import SysCore.Fs.Nodes

/-!
# Names and nodes

What linked nodes show is the tree of names of `SysCore.Fs.Tree`: the searches find
the node at the position found there, and `appendChild` appends the same child.

So what holds of positions holds of nodes.  In every tree that `appendChild`
builds the links are consistent, and the node that `searchFather` finds is the
parent of the node that `search` finds.
-/

namespace SysCore.Fs

open Transition Container Function

namespace Nodes

variable {h h' : Nodes} {kids : Nat → List Nat} {id child : Nat} {node : Node} {name : Name} {file : File}
  {pos : Position}

/-! ## The tree that the nodes show -/

def nodeAt (kids : Nat → List Nat) : Position → Nat → Option Nat
  | [], id => some id
  | i :: rest, id => (kids id)[i]?.bind (nodeAt kids rest)

/-- At every position there is a node with the same name and number of children. -/
def Shows (h : Nodes) (kids : Nat → List Nat) (id : Nat) (file : File) : Prop :=
  ∀ pos, (nodeAt kids pos id).map (fun node => ((h.node node).map Node.name, (kids node).length)) =
    (file.at? pos).map fun sub => (some sub.name, sub.children.length)

theorem shows_iff : Shows h kids id file ↔
    (h.node id).map Node.name = some file.name ∧
      List.Forall₂ (Shows h kids) (kids id) file.children := by
  constructor
  · intro shown
    have here := shown []
    rw [File.at?_nil] at here
    obtain ⟨name_eq, length_eq⟩ := Prod.mk.inj (Option.some.inj here)
    refine ⟨name_eq, List.forall₂_iff_get.2 ⟨length_eq, fun i inKids inChildren pos => ?_⟩⟩
    have below := shown (i :: pos)
    rw [nodeAt, File.at?_cons, List.getElem?_eq_getElem inKids, List.getElem?_eq_getElem inChildren] at below
    exact below
  · rintro ⟨name_eq, below⟩ pos
    obtain ⟨length_eq, children⟩ := List.forall₂_iff_get.1 below
    cases pos with
    | nil => rw [File.at?_nil, nodeAt, Option.map_some, Option.map_some, name_eq, length_eq]
    | cons i rest =>
      rw [nodeAt, File.at?_cons]
      by_cases inKids : i < (kids id).length
      · have inChildren : i < file.children.length := length_eq ▸ inKids
        rw [List.getElem?_eq_getElem inKids, List.getElem?_eq_getElem inChildren]
        exact children i inKids inChildren rest
      · rw [List.getElem?_eq_none (Nat.not_lt.1 inKids),
          List.getElem?_eq_none (length_eq ▸ Nat.not_lt.1 inKids)]
        rfl

theorem Linked.exists_shows (linked : Linked h kids) (node_eq : h.node id = some node) :
    ∃ file, Shows h kids id file := by
  refine @Forest.induct _ _ linked.forest (fun id => ∀ node, h.node id = some node →
    ∃ file, Shows h kids id file) (fun id inherited node node_eq => ?_) id node node_eq
  have chosen : ∀ children ⊆ kids id, ∃ files, List.Forall₂ (Shows h kids) children files := by
    intro children sub
    induction children with
    | nil => exact ⟨[], .nil⟩
    | cons child rest ih =>
      obtain ⟨childMem, sub⟩ := List.cons_subset.1 sub
      obtain ⟨childNode, child_eq, -⟩ := linked.node_of_mem childMem
      obtain ⟨file, shown⟩ := inherited child childMem childNode child_eq
      obtain ⟨files, below⟩ := ih sub
      exact ⟨file :: files, .cons shown below⟩
  obtain ⟨files, below⟩ := chosen (kids id) (List.Subset.refl _)
  exact ⟨.node node.name files, shows_iff.2 ⟨by rw [node_eq]; rfl, below⟩⟩

theorem Shows.named_eq (shown : Shows h kids id file) (name : Name) :
    h.named name id = (file.name == name) := by
  obtain ⟨node, node_eq, name_eq⟩ := Option.map_eq_some_iff.1 (shows_iff.1 shown).1
  rw [named_of_node node_eq, name_eq, beq_eq_decide]

theorem find?_eq_of_shows {children : List Nat} {files : List File}
    (below : List.Forall₂ (Shows h kids) children files) (name : Name) :
    children.find? (h.named name) =
      (files.findIdx? fun file => file.name == name).bind fun i => children[i]? := by
  induction below with
  | nil => rfl
  | @cons child file children files shown _ ih =>
    rw [List.find?_cons, List.findIdx?_cons, shown.named_eq, ih]
    cases file.name == name with
    | true => rfl
    | false => cases files.findIdx? fun file => file.name == name <;> rfl

theorem Shows.lookup_eq (shown : Shows h kids id file) {names : List Name} (notEmpty : names ≠ []) :
    h.lookup kids names id = (File.search file.children names).bind fun pos => nodeAt kids pos id := by
  induction names generalizing id file with
  | nil => exact absurd rfl notEmpty
  | cons filename rest ih =>
    obtain ⟨-, below⟩ := shows_iff.1 shown
    rw [lookup, find?_eq_of_shows below filename, File.search]
    cases index_eq : file.children.findIdx? fun sub => sub.name == filename with
    | none => rfl
    | some i =>
      obtain ⟨length_eq, children⟩ := List.forall₂_iff_get.1 below
      obtain ⟨inChildren, -, -⟩ := List.findIdx?_eq_some_iff_getElem.1 index_eq
      have inKids : i < (kids id).length := length_eq ▸ inChildren
      cases rest with
      | nil => simp [lookup, nodeAt, List.getElem?_eq_getElem inKids]
      | cons next rest =>
        have shown' := children i inKids inChildren
        have later := ih shown' (List.cons_ne_nil next rest)
        simp only [List.get_eq_getElem] at later
        simp only [Option.bind_some, List.getElem?_eq_getElem inKids, later, List.isEmpty_cons,
          Bool.false_eq_true, if_false, List.getElem?_eq_getElem inChildren, Option.bind_eq_bind,
          Option.pure_def, Option.bind_assoc, nodeAt]

theorem Linked.search_eq (linked : Linked h kids) (shown : Shows h kids id file) (path : List Char) :
    h.search id path = Vfs.search file path >>= fun found =>
      .ok (found.bind fun pos => nodeAt kids pos id) := by
  obtain ⟨name_eq, below⟩ := shows_iff.1 shown
  obtain ⟨node, node_eq, -⟩ := Option.map_eq_some_iff.1 name_eq
  by_cases slash : path = ['/']
  · unfold search Vfs.search
    rw [if_pos slash, if_pos slash]
    rfl
  · unfold search
    rw [if_neg slash, get_of_node node_eq, ok_bind, linked.first node_eq]
    cases kids_eq : kids id with
    | nil =>
      rw [kids_eq, List.forall₂_nil_left_iff] at below
      rw [Vfs.search_of_leaf slash below]
      rfl
    | cons first rest =>
      have children_ne : file.children ≠ [] := by
        intro empty
        rw [kids_eq, empty] at below
        cases below
      rw [Vfs.search_of_children slash children_ne, ok_bind, List.head?_cons]
      dsimp only
      by_cases empty : components path = []
      · rw [empty]
        rfl
      · rw [← @List.head?_cons _ first rest, ← kids_eq, linked.searchNames_eq empty, shown.lookup_eq empty]

theorem Linked.searchFather_eq (linked : Linked h kids) (shown : Shows h kids id file) (path : List Char) :
    h.searchFather id path = Vfs.searchFather file path >>= fun found =>
      .ok (found.bind fun pos => nodeAt kids pos id) := by
  unfold searchFather Vfs.searchFather
  cases components path with
  | nil => rfl
  | cons first rest =>
    cases rest with
    | nil => rfl
    | cons second rest => exact linked.search_eq shown _

theorem nodeAt_append (kids : Nat → List Nat) (first second : Position) (id : Nat) :
    nodeAt kids (first ++ second) id = (nodeAt kids first id).bind (nodeAt kids second) := by
  induction first generalizing id with
  | nil => rfl
  | cons i rest ih =>
    rw [List.cons_append, nodeAt, nodeAt]
    cases (kids id)[i]? with
    | none => rfl
    | some child => exact ih child

theorem mem_of_nodeAt (notRoot : pos ≠ []) (at_eq : nodeAt kids pos id = some child) :
    ∃ parent, nodeAt kids pos.dropLast id = some parent ∧ child ∈ kids parent := by
  obtain ⟨front, i, rfl⟩ := (List.eq_nil_or_concat' pos).resolve_left notRoot
  rw [nodeAt_append] at at_eq
  obtain ⟨parent, parent_eq, last_eq⟩ := Option.bind_eq_some_iff.1 at_eq
  rw [List.dropLast_concat]
  refine ⟨parent, parent_eq, ?_⟩
  obtain ⟨other, other_eq, same⟩ := Option.bind_eq_some_iff.1 last_eq
  cases same
  exact List.mem_of_getElem? other_eq

theorem below_of_nodeAt {other : Nat} (at_eq : nodeAt kids pos id = some other) :
    Below kids id other := by
  induction pos generalizing id with
  | nil =>
    cases at_eq
    exact below_refl _
  | cons i rest ih =>
    obtain ⟨child, child_eq, at_eq⟩ := Option.bind_eq_some_iff.1 at_eq
    exact below_iff.2 (.inr ⟨child, List.mem_of_getElem? child_eq, ih at_eq⟩)

/-! ## A new child in the tree -/

theorem nodeAt_congr {kids' : Nat → List Nat} (kids_eq : ∀ other, Below kids id other → kids' other = kids other)
    (pos : Position) : nodeAt kids' pos id = nodeAt kids pos id := by
  induction pos generalizing id with
  | nil => rfl
  | cons i rest ih =>
    rw [nodeAt, nodeAt, kids_eq id (below_refl id)]
    cases child_eq : (kids id)[i]? with
    | none => rfl
    | some child =>
      apply ih
      intro other below
      exact kids_eq other (below_iff.2 (.inr ⟨child, List.mem_of_getElem? child_eq, below⟩))

theorem Shows.congr {kids' : Nat → List Nat} (shown : Shows h kids id file)
    (kids_eq : ∀ other, Below kids id other → kids' other = kids other)
    (name_eq : ∀ other, Below kids id other → (h'.node other).map Node.name = (h.node other).map Node.name) :
    Shows h' kids' id file := by
  intro pos
  rw [nodeAt_congr kids_eq, ← shown pos]
  cases found : nodeAt kids pos id with
  | none => rfl
  | some other =>
    have below := below_of_nodeAt found
    rw [Option.map_some, Option.map_some, kids_eq other below, name_eq other below]

structure Grown (h h' : Nodes) (kids kids' : Nat → List Nat) (dir child : Nat) (name : Name) : Prop where
  linked : Linked h kids
  kids_eq : kids' = Function.update kids dir (kids dir ++ [child])
  detached : ∀ id, child ∉ kids id
  noKids : kids child = []
  different : child ≠ dir
  name_eq : ∀ other, other ≠ child → (h'.node other).map Node.name = (h.node other).map Node.name
  child_eq : (h'.node child).map Node.name = some name

namespace Grown

variable {kids' : Nat → List Nat} {dir : Nat}

variable (grown : Grown h h' kids kids' dir child name)
include grown

theorem elsewhere {file : File} (shown : Shows h kids id file) (notBelow : ¬ Below kids id dir)
    (notNew : id ≠ child) : Shows h' kids' id file := by
  apply shown.congr
  · intro other below
    have notDir : other ≠ dir := by
      rintro rfl
      exact notBelow below
    rw [grown.kids_eq, update_of_ne notDir]
  · intro other below
    apply grown.name_eq
    rintro rfl
    obtain ⟨parent, isChild, -⟩ := below.parent notNew.symm
    exact grown.detached parent isChild

theorem atDir {file : File} (shown : Shows h kids dir file) :
    Shows h' kids' dir (.node file.name (file.children ++ [.new name])) := by
  obtain ⟨here, below⟩ := shows_iff.1 shown
  refine shows_iff.2 ⟨(grown.name_eq dir grown.different.symm).trans here, ?_⟩
  rw [grown.kids_eq, update_self, File.children_node, ← grown.kids_eq]
  apply List.rel_append
  · have inDir := (List.forall₂_and_left _ _).2 ⟨fun other (otherMem : other ∈ kids dir) => otherMem, below⟩
    refine inDir.imp fun other file both => ?_
    apply grown.elsewhere both.2 (grown.linked.forest.not_below_child both.1)
    rintro rfl
    exact grown.detached dir both.1
  · refine .cons (shows_iff.2 ⟨grown.child_eq, ?_⟩) .nil
    rw [grown.kids_eq, update_of_ne grown.different, grown.noKids]
    exact .nil

theorem shows {pos : Position} (at_eq : nodeAt kids pos id = some dir) (notNew : id ≠ child) {file : File}
    (shown : Shows h kids id file) :
    Shows h' kids' id
      (file.modify (fun sub => .node sub.name (sub.children ++ [.new name])) pos) := by
  induction pos generalizing id file with
  | nil =>
    cases at_eq
    exact grown.atDir shown
  | cons i rest ih =>
    obtain ⟨next, next_eq, at_eq⟩ := Option.bind_eq_some_iff.1 at_eq
    have nextMem := List.mem_of_getElem? next_eq
    have belowDir := below_of_nodeAt at_eq
    have notDir : id ≠ dir := by
      rintro rfl
      exact grown.linked.forest.not_below_child nextMem belowDir
    have isNew : ∀ other ∈ kids id, other ≠ child := by
      rintro other otherMem rfl
      exact grown.detached id otherMem
    obtain ⟨here, below⟩ := shows_iff.1 shown
    obtain ⟨length_eq, children⟩ := List.forall₂_iff_get.1 below
    refine shows_iff.2 ⟨(grown.name_eq id notNew).trans here, ?_⟩
    rw [grown.kids_eq, update_of_ne notDir, ← grown.kids_eq]
    refine List.forall₂_iff_get.2 ⟨?_, fun j inKids inFiles => ?_⟩
    · rw [length_eq]
      exact (List.length_modify ..).symm
    · have inChildren : j < file.children.length := length_eq ▸ inKids
      have shown' := children j inKids inChildren
      have otherMem : (kids id).get ⟨j, inKids⟩ ∈ kids id := List.get_mem _ _
      have file_eq : List.get _ ⟨j, inFiles⟩ =
          if i = j then File.modify (fun sub => .node sub.name (sub.children ++ [.new name])) rest
            (file.children.get ⟨j, inChildren⟩) else file.children.get ⟨j, inChildren⟩ :=
        List.getElem_modify ..
      rw [file_eq]
      by_cases same : i = j
      · subst same
        rw [if_pos rfl]
        have next_eq' : (kids id).get ⟨i, inKids⟩ = next :=
          Option.some.inj ((List.getElem?_eq_getElem inKids).symm.trans next_eq)
        rw [next_eq'] at shown' ⊢
        exact ih at_eq (isNew next nextMem) shown'
      · rw [if_neg same]
        apply grown.elsewhere shown' _ (isNew _ otherMem)
        intro belowOther
        have equal := grown.linked.forest.siblings_apart nextMem otherMem belowDir belowOther
        have index_eq := (List.getElem?_eq_getElem inKids).trans (congrArg some equal.symm)
        exact same ((List.getElem?_inj inKids (grown.linked.nodup id)).1
          (index_eq.trans next_eq.symm)).symm

end Grown

theorem Appended.grown {dir : Nat} (linked : Linked h kids)
    (appended : Appended (h.new name) h' kids dir h.nextNode) :
    Grown h h' kids (Function.update kids dir (kids dir ++ [h.nextNode])) dir h.nextNode name where
  linked := linked
  kids_eq := rfl
  detached := appended.detached
  noKids := linked.new_kids
  different := appended.different
  name_eq other notNew := by rw [appended.name_eq, h.new_node_of_ne name notNew]
  child_eq := by
    rw [appended.name_eq, new_node_self]
    rfl

theorem any_dropLast_of_shows (shown : Shows h kids id file) (name : Name) :
    (kids id).dropLast.any (h.named name) =
      file.children.dropLast.any fun sibling => sibling.name == name := by
  obtain ⟨-, below⟩ := shows_iff.1 shown
  have front := List.forall₂_take ((kids id).length - 1) below
  rw [List.dropLast_eq_take, List.dropLast_eq_take, ← below.length_eq]
  generalize (kids id).take ((kids id).length - 1) = children at front
  generalize file.children.take ((kids id).length - 1) = files at front
  induction front with
  | nil => rfl
  | cons shown _ ih => rw [List.any_cons, List.any_cons, shown.named_eq, ih]

theorem Shows.at (shown : Shows h kids id file) (at_eq : nodeAt kids pos id = some child) :
    ∃ sub, file.at? pos = some sub ∧ Shows h kids child sub := by
  induction pos generalizing id file with
  | nil =>
    cases at_eq
    exact ⟨file, File.at?_nil file, shown⟩
  | cons i rest ih =>
    obtain ⟨next, next_eq, at_eq⟩ := Option.bind_eq_some_iff.1 at_eq
    obtain ⟨length_eq, children⟩ := List.forall₂_iff_get.1 (shows_iff.1 shown).2
    obtain ⟨inKids, get_eq⟩ := List.getElem?_eq_some_iff.1 next_eq
    have shown' := children i inKids (length_eq ▸ inKids)
    rw [List.get_eq_getElem, get_eq] at shown'
    obtain ⟨sub, sub_eq, shownSub⟩ := ih shown' at_eq
    refine ⟨sub, ?_, shownSub⟩
    rw [File.at?_cons, List.getElem?_eq_getElem (length_eq ▸ inKids)]
    exact sub_eq

theorem Linked.appendChild_shows (linked : Linked h kids) (shown : Shows h kids id file) {dir : Nat}
    (at_eq : nodeAt kids pos id = some dir) (name : Name) :
    ∃ sub h' kids', file.at? pos = some sub ∧
      (h.new name).appendChild dir h.nextNode = .ok ((sub.appendChild (.new name)).1, h') ∧
      Linked h' kids' ∧ Shows h' kids' id (Vfs.grown file pos name) := by
  obtain ⟨sub, sub_eq, shownSub⟩ := shown.at at_eq
  obtain ⟨dirNode, dir_eq, -⟩ := Option.map_eq_some_iff.1 (shows_iff.1 shownSub).1
  obtain ⟨node, node_eq, -⟩ := Option.map_eq_some_iff.1 (shows_iff.1 shown).1
  obtain ⟨h', append_eq, effect⟩ := linked.appendChild_new dir_eq name
  have seen_eq := any_dropLast_of_shows shownSub name
  rw [seen_eq] at append_eq effect
  have ret_eq : (sub.appendChild (.new name)).1 =
      !sub.children.dropLast.any fun sibling => sibling.name == name := by
    rw [File.appendChild_eq, File.name_new]
    cases sub.children.dropLast.any fun sibling => sibling.name == name <;> rfl
  rw [← ret_eq] at append_eq
  by_cases seen : (sub.children.dropLast.any fun sibling => sibling.name == name) = true
  · rw [if_pos seen] at effect
    subst effect
    refine ⟨sub, _, kids, sub_eq, append_eq, linked.new name, ?_⟩
    have unchanged : Vfs.grown file pos name = file := by
      refine (File.modify_congr sub_eq ?_).trans (File.modify_id file pos)
      rw [File.appendChild_eq, File.name_new, if_pos seen]
      rfl
    rw [unchanged]
    apply shown.congr
    · exact fun other _ => rfl
    · intro other below
      rw [h.new_node_of_ne name]
      rintro rfl
      by_cases same : h.nextNode = id
      · exact linked.ne_nextNode node_eq same.symm
      · obtain ⟨parent, isChild, -⟩ := below.parent same
        exact linked.new_detached parent isChild
  · rw [if_neg seen] at effect
    refine ⟨sub, h', _, sub_eq, append_eq, effect.linked (linked.new name), ?_⟩
    have appended_eq : Vfs.grown file pos name =
        file.modify (fun sub => .node sub.name (sub.children ++ [.new name])) pos := by
      refine File.modify_congr sub_eq ?_
      rw [File.appendChild_eq, File.name_new, if_neg seen]
    rw [appended_eq]
    exact (effect.grown linked).shows at_eq (linked.ne_nextNode node_eq) shown

/-! ## Trees built by `appendChild` -/

theorem Linked.root (name : Name) : Linked (root name) fun _ => [] where
  made {id} outside := if_neg (Nat.ne_of_gt outside)
  leaf _ := rfl
  first {id node} node_eq := by
    by_cases isRoot : id = 0
    · cases (if_pos isRoot).symm.trans node_eq
      rfl
    · cases (if_neg isRoot).symm.trans node_eq
  link kids_eq := by
    have lengths := congrArg List.length kids_eq
    simp at lengths
  grounded := ⟨fun _ => 0, fun _ _ childMem => absurd childMem List.not_mem_nil⟩

theorem Linked.step (linked : Linked h kids) {label : Nat × Name} (step : BuildStep h label h') :
    ∃ kids', Linked h' kids' := by
  obtain ⟨⟨dir, dir_eq⟩, ret, append_eq⟩ := step
  obtain ⟨h₁, append_eq', effect⟩ := linked.appendChild_new dir_eq label.2
  cases append_eq.symm.trans append_eq'
  split at effect
  · rw [effect]
    exact ⟨kids, linked.new label.2⟩
  · exact ⟨_, effect.linked (linked.new label.2)⟩

theorem linked_of_run {name : Name} {labels : List (Nat × Name)} (run : Run BuildStep (root name) labels h) :
    ∃ kids, Linked h kids :=
  @Run.invariant _ _ BuildStep (fun h => ∃ kids, Linked h kids)
    (fun linked step => linked.choose_spec.step step) _ _ _ run ⟨_, Linked.root name⟩

theorem Linked.consistent (linked : Linked h kids) : Consistent h where
  parent isChild := linked.node_of_mem (linked.mem_of_childOf isChild)
  neighbour {id child node sibling} isChild node_eq next_eq := by
    obtain ⟨front, rest, kids_eq⟩ := List.append_of_mem (linked.mem_of_childOf isChild)
    obtain ⟨node', node_eq', -, -, next_eq'⟩ := linked.link kids_eq
    cases node_eq.symm.trans node_eq'
    obtain ⟨later, rfl⟩ := List.head?_eq_some_iff.1 (next_eq'.symm.trans next_eq)
    have kids_eq' : kids id = (front ++ [child]) ++ sibling :: later := by
      rw [kids_eq]
      simp
    obtain ⟨other, other_eq, -, previous_eq, -⟩ := linked.link kids_eq'
    exact ⟨other, other_eq, by rw [previous_eq, List.getLast?_concat]⟩
  first {id dir child} dir_eq first_eq := by
    rw [linked.first dir_eq] at first_eq
    obtain ⟨rest, kids_eq⟩ := List.head?_eq_some_iff.1 first_eq
    obtain ⟨node, node_eq, -, previous_eq, -⟩ := @Linked.link _ _ linked id child [] rest kids_eq
    exact ⟨node, node_eq, previous_eq⟩

theorem Linked.searchFather_of_search (linked : Linked h kids) (node_eq : h.node id = some node)
    {path : List Char} (notRoot : components path ≠ []) (found : h.search id path = .ok (some child)) :
    ∃ node, h.node child = some node ∧ h.searchFather id path = .ok node.parent := by
  obtain ⟨file, shown⟩ := linked.exists_shows node_eq
  rw [linked.search_eq shown, bind_eq_ok] at found
  obtain ⟨pos?, found, at_eq⟩ := found
  obtain ⟨pos, rfl, child_at⟩ := Option.bind_eq_some_iff.1 (Except.ok.inj at_eq)
  obtain ⟨father_eq, notNil⟩ := Vfs.searchFather_of_search notRoot found
  obtain ⟨parent, parent_eq, childMem⟩ := mem_of_nodeAt notNil child_at
  obtain ⟨childNode, child_eq, points⟩ := linked.node_of_mem childMem
  refine ⟨childNode, child_eq, ?_⟩
  rw [linked.searchFather_eq shown, father_eq, ok_bind, Option.bind_some, parent_eq, points]

/-- In every tree that `appendChild` builds from a root the links are consistent, and
the father of a node that is found is its parent. -/
theorem consistent_of_run {name : Name} {labels : List (Nat × Name)}
    (run : Run BuildStep (root name) labels h) :
    Consistent h ∧ ∀ path child, components path ≠ [] → h.search 0 path = .ok (some child) →
      ∃ node, h.node child = some node ∧ h.searchFather 0 path = .ok node.parent := by
  obtain ⟨kids, linked⟩ := linked_of_run run
  refine ⟨linked.consistent, fun path child notRoot found => ?_⟩
  have notSlash : path ≠ ['/'] := by
    rintro rfl
    exact notRoot rfl
  obtain ⟨rootNode, root_eq⟩ : ∃ node, h.node 0 = some node := by
    have got := found
    rw [search, if_neg notSlash, bind_eq_ok] at got
    obtain ⟨node, node_eq, -⟩ := got
    exact ⟨node, node_of_get node_eq⟩
  exact linked.searchFather_of_search root_eq notRoot found

theorem consistent_of_three : ∃ h node, Consistent h ∧ h.search 0 ['/', 'a', '/', 'c'] = .ok (some 3) ∧
    h.node 3 = some node ∧ h.searchFather 0 ['/', 'a', '/', 'c'] = .ok node.parent := by
  obtain ⟨h₁, first_eq, h₂, second_eq, h₃, third_eq, live₁, live₂, live₃, found⟩ : ∃ h₁,
      ((root ['/']).new ['a']).appendChild 0 1 = .ok (true, h₁) ∧ ∃ h₂,
      (h₁.new ['b']).appendChild 0 h₁.nextNode = .ok (true, h₂) ∧ ∃ h₃,
      (h₂.new ['c']).appendChild 1 h₂.nextNode = .ok (true, h₃) ∧
      (∃ dir, (root ['/']).node 0 = some dir) ∧ (∃ dir, h₁.node 0 = some dir) ∧
      (∃ dir, h₂.node 1 = some dir) ∧ h₃.search 0 ['/', 'a', '/', 'c'] = .ok (some 3) :=
    ⟨_, rfl, _, rfl, _, rfl, ⟨_, rfl⟩, ⟨_, rfl⟩, ⟨_, rfl⟩, rfl⟩
  have run : Run BuildStep (root ['/']) [(0, ['a']), (0, ['b']), (1, ['c'])] h₃ :=
    .snoc (.snoc (.snoc .nil ⟨live₁, true, first_eq⟩) ⟨live₂, true, second_eq⟩) ⟨live₃, true, third_eq⟩
  obtain ⟨consistent, fathers⟩ := consistent_of_run run
  obtain ⟨node, node_eq, father_eq⟩ := fathers _ 3 (by decide) found
  exact ⟨h₃, node, consistent, found, node_eq, father_eq⟩

inductive Grows (name : Name) : File → Prop
  | root : Grows name (.new name)
  | append {file dir : File} {pos : Position} (child : Name) :
      Grows name file → file.at? pos = some dir → Grows name (Vfs.grown file pos child)

/-- Whatever is appended to a tree of names can be appended to nodes, which then show that tree:
every search finds the node at the position found there. -/
theorem shows_of_grows (grows : Grows name file) :
    ∃ labels h kids, Run BuildStep (root name) labels h ∧ Linked h kids ∧ Shows h kids 0 file ∧
      ∀ path, h.search 0 path = Vfs.search file path >>= fun found =>
        .ok (found.bind fun pos => nodeAt kids pos 0) := by
  suffices shown : ∃ labels h kids, Run BuildStep (root name) labels h ∧ Linked h kids ∧ Shows h kids 0 file by
    obtain ⟨labels, h, kids, run, linked, shown⟩ := shown
    exact ⟨labels, h, kids, run, linked, shown, linked.search_eq shown⟩
  induction grows with
  | root => exact ⟨[], root name, fun _ => [], .nil, .root name, shows_iff.2 ⟨rfl, .nil⟩⟩
  | @append file dir pos child grows dir_eq ih =>
    obtain ⟨labels, h, kids, run, linked, shown⟩ := ih
    have here := shown pos
    rw [dir_eq] at here
    obtain ⟨id, at_eq, -⟩ := Option.map_eq_some_iff.1 here
    obtain ⟨sub, h', kids', -, append_eq, linked', shown'⟩ := linked.appendChild_shows shown at_eq child
    obtain ⟨shownFile, -, shownSub⟩ := shown.at at_eq
    obtain ⟨node, node_eq, -⟩ := Option.map_eq_some_iff.1 (shows_iff.1 shownSub).1
    exact ⟨labels ++ [(id, child)], h', kids', run.snoc ⟨⟨node, node_eq⟩, _, append_eq⟩, linked', shown'⟩

theorem shows_of_one : ∃ labels h kids, Run BuildStep (root ['/']) labels h ∧
    Shows h kids 0 (Vfs.grown (.new ['/']) [] ['a']) := by
  obtain ⟨labels, h, kids, run, -, shown, -⟩ := shows_of_grows (.append ['a'] (@Grows.root ['/']) (File.at?_nil _))
  exact ⟨labels, h, kids, run, shown⟩

end Nodes

end SysCore.Fs
