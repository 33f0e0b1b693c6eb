import SysCore.Fs.Nodes

/-!
# Numbers of files

Every `File` takes its number from a counter that `File::init` sets to zero.  A lookup by
number goes through the neighbours behind a node before it goes through the children.

Files are made on their own and put into a directory later, so that a subtree may be
built before it has a place.  A file that stands in a directory is not put into another one.
-/

namespace SysCore.Fs

open Transition Container Function List

structure Files extends Nodes where
  ino : Nat → BitVec 64
  globalIno : BitVec 64

namespace Files

def init : Files where
  node _ := none
  nextNode := 0
  ino _ := 0
  globalIno := 0

def create (s : Files) (fileName : Name) (parentFile : Option Nat) : Outcome Files :=
  if s.nextNode < 2 ^ 64 then .ok
    { node := update s.node s.nextNode (some { name := fileName, parent := parentFile })
      nextNode := s.nextNode + 1
      ino := update s.ino s.nextNode s.globalIno
      globalIno := s.globalIno + 1 }
  else .error .panic

def innerSearch (s : Files) (iNo : BitVec 64) : Nat → Option Nat → Outcome (Option Nat)
  | _, none => .ok none
  | 0, some _ => .error .hang
  | depth + 1, some file => do
    let node ← s.get file
    if s.ino file = iNo then return some file
    match ← s.innerSearch iNo depth node.next with
    | some res => return some res
    | none => s.innerSearch iNo depth node.firstChild

def search (s : Files) (depth this : Nat) (iNo : BitVec 64) : Outcome (Option Nat) :=
  s.innerSearch iNo depth (some this)

def Returns (s : Files) (iNo : BitVec 64) (start res : Option Nat) : Prop :=
  ∃ enough, ∀ depth, enough ≤ depth → s.innerSearch iNo depth start = .ok res

def InTree (s : Files) : Nat → Nat → Prop :=
  Relation.ReflTransGen (Nodes.ChildOf s.toNodes)

inductive Op
  | create (fileName : Name) (parentFile : Option Nat)
  | append (this childFile : Nat)

/-- A file is made, or one that is in no directory is appended to a file of another tree. -/
inductive Step (s : Files) : Op → Files → Prop
  | create {fileName : Name} {parentFile : Option Nat} {s' : Files} :
      s.create fileName parentFile = .ok s' → Step s (.create fileName parentFile) s'
  | append {this childFile : Nat} {dir child : Node} {ret : Bool} {h : Nodes} :
      s.node this = some dir → s.node childFile = some child →
      (∀ id, ¬ Nodes.ChildOf s.toNodes id childFile) → ¬ s.InTree childFile this →
      s.appendChild this childFile = .ok (ret, h) → Step s (.append this childFile) { s with toNodes := h }

/-! ## What every step keeps -/

structure Sound (s : Files) (kids : Nat → List Nat) : Prop where
  linked : Nodes.Linked s.toNodes kids
  alone : ∀ {id node}, s.node id = some node → (∀ dir, id ∉ kids dir) →
    node.next = none ∧ node.previous = none
  ino_eq : ∀ {id node}, s.node id = some node → s.ino id = BitVec.ofNat 64 id
  globalIno_eq : s.globalIno = BitVec.ofNat 64 s.nextNode
  addresses : s.nextNode ≤ 2 ^ 64

variable {s s' : Files} {kids : Nat → List Nat} {id : Nat} {node : Node}

theorem sound_init : Sound init fun _ => [] where
  linked := {
    made := fun _ => rfl
    leaf := fun _ => rfl
    first := fun node_eq => nomatch node_eq
    link := fun kids_eq => absurd kids_eq.symm (append_ne_nil_of_right_ne_nil _ (cons_ne_nil _ _))
    grounded := ⟨fun _ => 0, fun _ _ childMem => absurd childMem not_mem_nil⟩ }
  alone node_eq := nomatch node_eq
  ino_eq node_eq := nomatch node_eq
  globalIno_eq := rfl
  addresses := Nat.zero_le _

namespace Sound

variable (sound : Sound s kids)
include sound

theorem inTree_eq : s.InTree = Below kids := by
  have same : Nodes.ChildOf s.toNodes = fun id child => child ∈ kids id := by
    funext id child
    exact propext sound.linked.childOf_iff
  unfold InTree Below
  rw [same]

theorem create {fileName : Name} {parentFile : Option Nat} (made : s.create fileName parentFile = .ok s') :
    Sound s' kids := by
  unfold Files.create at made
  split at made
  case isFalse => cases made
  case isTrue room =>
    cases made
    constructor
    · exact sound.linked.add rfl
    · intro id node node_eq nowhere
      by_cases same : id = s.nextNode
      · subst same
        cases (update_self s.nextNode _ s.node).symm.trans node_eq
        exact ⟨rfl, rfl⟩
      · exact sound.alone ((update_of_ne same _ s.node).symm.trans node_eq) nowhere
    · intro id node node_eq
      by_cases same : id = s.nextNode
      · subst same
        exact (update_self s.nextNode _ s.ino).trans sound.globalIno_eq
      · exact (update_of_ne same _ s.ino).trans
          (sound.ino_eq ((update_of_ne same _ s.node).symm.trans node_eq))
    · rw [BitVec.ofNat_add, ← sound.globalIno_eq]
      rfl
    · exact room

theorem loose {this childFile : Nat} {child : Node} (child_eq : s.node childFile = some child)
    (nowhere : ∀ id, ¬ Nodes.ChildOf s.toNodes id childFile) (apart : ¬ s.InTree childFile this) :
    Nodes.Linked.Loose s.toNodes kids this childFile child := by
  have detached : ∀ dir, childFile ∉ kids dir := fun dir childMem => nowhere dir (sound.linked.childOf_iff.2 childMem)
  rw [sound.inTree_eq] at apart
  exact ⟨child_eq, (sound.alone child_eq detached).1, (sound.alone child_eq detached).2, detached, apart⟩

theorem appended {dir child : Nat} {h : Nodes} (appended : Nodes.Appended s.toNodes h kids dir child) :
    Sound { s with toNodes := h } (update kids dir (kids dir ++ [child])) where
  linked := appended.linked sound.linked
  alone {id node} node_eq nowhere := by
    have notHere := nowhere dir
    rw [update_self, mem_append, mem_singleton, not_or] at notHere
    have before : ∀ other, id ∉ kids other := by
      intro other
      by_cases isDir : other = dir
      · exact isDir ▸ notHere.1
      · have away := nowhere other
        rwa [update_of_ne isDir] at away
    rcases appended.cases id with isChild | rfl | isLast | same
    · exact absurd isChild notHere.2
    · obtain ⟨old, old_eq, after_eq⟩ := appended.atDir
      cases after_eq.symm.trans node_eq
      have links := sound.alone old_eq before
      exact links
    · exact absurd (mem_of_getLast? isLast) notHere.1
    · exact sound.alone (same.symm.trans node_eq) before
  ino_eq {id node} node_eq := by
    cases old_eq : s.node id with
    | none => cases ((appended.node_eq_none id).2 old_eq).symm.trans node_eq
    | some old => exact sound.ino_eq old_eq
  globalIno_eq := by
    have nextNode_eq : h.nextNode = s.nextNode := appended.nextNode_eq
    rw [nextNode_eq]
    exact sound.globalIno_eq
  addresses := appended.nextNode_eq.trans_le sound.addresses

theorem step {op : Op} (step : Step s op s') : ∃ kids', Sound s' kids' := by
  cases step with
  | create made => exact ⟨kids, sound.create made⟩
  | append this_eq child_eq nowhere apart append_eq =>
    obtain ⟨h, append_eq', effect⟩ := sound.linked.appendChild_eq this_eq (sound.loose child_eq nowhere apart)
    cases append_eq.symm.trans append_eq'
    split at effect
    · subst effect
      exact ⟨kids, sound⟩
    · exact ⟨_, sound.appended effect⟩

theorem not_mem_kids (node_eq : s.node id = some node) (noParent : node.parent = none) (dir : Nat) :
    id ∉ kids dir := by
  intro childMem
  obtain ⟨node', node_eq', parent_eq⟩ := sound.linked.node_of_mem childMem
  cases node_eq.symm.trans node_eq'
  cases noParent.symm.trans parent_eq

theorem step_append {this childFile : Nat} {dir child : Node} {ret : Bool} {h : Nodes}
    (this_eq : s.node this = some dir) (child_eq : s.node childFile = some child)
    (atTop : dir.parent = none) (noParent : child.parent = none) (different : this ≠ childFile)
    (append_eq : s.appendChild this childFile = .ok (ret, h)) :
    Step s (.append this childFile) { s with toNodes := h } := by
  apply Step.append this_eq child_eq _ _ append_eq
  · intro id isChild
    exact sound.not_mem_kids child_eq noParent id (sound.linked.mem_of_childOf isChild)
  · intro inTree
    rw [sound.inTree_eq] at inTree
    obtain ⟨parent, isChild, -⟩ := inTree.parent different
    exact sound.not_mem_kids this_eq atTop parent isChild

theorem ino_inj {other : Nat} {otherNode : Node} (node_eq : s.node id = some node)
    (other_eq : s.node other = some otherNode) (same : s.ino id = s.ino other) : id = other := by
  have small : ∀ {file fileNode}, s.node file = some fileNode → file < 2 ^ 64 := fun file_eq =>
    (sound.linked.lt_nextNode file_eq).trans_le sound.addresses
  rw [sound.ino_eq node_eq, sound.ino_eq other_eq] at same
  have values := congrArg BitVec.toNat same
  rwa [BitVec.toNat_ofNat, BitVec.toNat_ofNat, Nat.mod_eq_of_lt (small node_eq),
    Nat.mod_eq_of_lt (small other_eq)] at values

end Sound

theorem sound_of_run {ops : List Op} (run : Run Step init ops s) : ∃ kids, Sound s kids :=
  @Run.invariant _ _ Step (fun s => ∃ kids, Sound s kids) (fun sound step => sound.choose_spec.step step) _ _ _ run
    ⟨_, sound_init⟩

/-! ## The search -/

def Finds (s : Files) (iNo : BitVec 64) (start : Option Nat) (reached : Nat → Prop) : Prop :=
  ∃ res, s.Returns iNo start res ∧ (∀ file, res = some file → reached file ∧ s.ino file = iNo) ∧
    (res = none → ∀ file, reached file → s.ino file ≠ iNo)

theorem finds_null (s : Files) (iNo : BitVec 64) : s.Finds iNo none fun _ => False := by
  refine ⟨none, ⟨0, fun depth _ => ?_⟩, fun _ found => absurd found.symm (Option.some_ne_none _), fun _ _ no => no.elim⟩
  cases depth <;> rfl

theorem finds_file {iNo : BitVec 64} (node_eq : s.node id = some node) {behind below : Nat → Prop}
    (next : s.Finds iNo node.next behind) (child : s.Finds iNo node.firstChild below) :
    s.Finds iNo (some id) fun file => file = id ∨ behind file ∨ below file := by
  by_cases same : s.ino id = iNo
  · refine ⟨some id, ⟨1, fun depth enough => ?_⟩, ?_, fun no => absurd no (Option.some_ne_none _)⟩
    · obtain ⟨depth, rfl⟩ : ∃ more, depth = more + 1 := ⟨depth - 1, by omega⟩
      rw [innerSearch, Nodes.get_of_node node_eq, ok_bind, if_pos same]
      rfl
    · rintro file ⟨⟩
      exact ⟨.inl rfl, same⟩
  · obtain ⟨behindRes, ⟨enough, behind_eq⟩, behindFound, behindNone⟩ := next
    obtain ⟨belowRes, ⟨enough', below_eq⟩, belowFound, belowNone⟩ := child
    have unfolded : ∀ depth, max enough enough' + 1 ≤ depth →
        s.innerSearch iNo depth (some id) = .ok (behindRes.or belowRes) := by
      intro depth deep
      obtain ⟨depth, rfl⟩ : ∃ more, depth = more + 1 := ⟨depth - 1, by omega⟩
      rw [innerSearch, Nodes.get_of_node node_eq, ok_bind, if_neg same, behind_eq depth (by omega), ok_bind]
      cases behindRes with
      | some res => rfl
      | none => exact below_eq depth (by omega)
    refine ⟨behindRes.or belowRes, ⟨_, unfolded⟩, ?_, ?_⟩
    · intro file found
      cases behindRes with
      | some res =>
        obtain ⟨reached, ino_eq⟩ := behindFound file found
        exact ⟨.inr (.inl reached), ino_eq⟩
      | none =>
        obtain ⟨reached, ino_eq⟩ := belowFound file found
        exact ⟨.inr (.inr reached), ino_eq⟩
    · intro nothing file reached
      obtain ⟨noneBehind, noneBelow⟩ := Option.or_eq_none_iff.1 nothing
      rcases reached with rfl | isBehind | isBelow
      · exact same
      · exact behindNone noneBehind file isBehind
      · exact belowNone noneBelow file isBelow

theorem Finds.congr {iNo : BitVec 64} {start : Option Nat} {reached reached' : Nat → Prop}
    (finds : s.Finds iNo start reached) (same : ∀ file, reached file ↔ reached' file) :
    s.Finds iNo start reached' := by
  have equal : reached = reached' := funext fun file => propext (same file)
  rwa [← equal]

theorem Sound.finds_kids (sound : Sound s kids) (iNo : BitVec 64) (id : Nat) :
    s.Finds iNo (kids id).head? fun file => ∃ child ∈ kids id, Below kids child file := by
  induction id using sound.linked.forest.induct with
  | inherited id inherited =>
    -- the search goes along the children, from each of them to the rest of the list
    have behind : ∀ front rest, kids id = front ++ rest →
        s.Finds iNo rest.head? fun file => ∃ child ∈ rest, Below kids child file := by
      intro front rest kids_eq
      induction rest generalizing front with
      | nil =>
        refine (s.finds_null iNo).congr fun file => ⟨False.elim, ?_⟩
        rintro ⟨child, childMem, -⟩
        cases childMem
      | cons child rest ih =>
        obtain ⟨node, node_eq, -, -, next_eq⟩ := sound.linked.link kids_eq
        have next := ih (front ++ [child]) (by rw [kids_eq, append_assoc, singleton_append])
        have below := inherited child (by rw [kids_eq]; exact mem_append_right _ mem_cons_self)
        rw [← next_eq] at next
        rw [← sound.linked.first node_eq] at below
        refine (finds_file node_eq next below).congr fun file => ?_
        rw [exists_mem_cons_iff, @below_iff _ kids child file, or_assoc, or_congr_right or_comm]
    exact behind [] (kids id) rfl

theorem Sound.finds_tree (sound : Sound s kids) (iNo : BitVec 64) (node_eq : s.node id = some node)
    (top : ∀ dir, ¬ Nodes.ChildOf s.toNodes dir id) : s.Finds iNo (some id) (s.InTree id) := by
  have noNext := (sound.alone node_eq fun dir childMem => top dir (sound.linked.childOf_iff.2 childMem)).1
  have next := s.finds_null iNo
  have below := sound.finds_kids iNo id
  rw [← noNext] at next
  rw [← sound.linked.first node_eq] at below
  refine (finds_file node_eq next below).congr fun file => ?_
  rw [sound.inTree_eq, below_iff, false_or]

theorem Sound.node_of_inTree (sound : Sound s kids) (node_eq : s.node id = some node) {file : Nat}
    (inTree : s.InTree id file) : ∃ fileNode, s.node file = some fileNode := by
  by_cases same : file = id
  · exact ⟨node, same ▸ node_eq⟩
  · rw [sound.inTree_eq] at inTree
    obtain ⟨parent, isChild, -⟩ := inTree.parent same
    obtain ⟨fileNode, file_eq, -⟩ := sound.linked.node_of_mem isChild
    exact ⟨fileNode, file_eq⟩

/-- In a tree that was put together after `File::init` the numbers are different, the lookup of
the number of a file finds this file, and the lookup of any other number finds nothing. -/
theorem search_of_run {ops : List Op} (run : Run Step init ops s) {root : Nat} {rootNode : Node}
    (root_eq : s.node root = some rootNode) (top : ∀ dir, ¬ Nodes.ChildOf s.toNodes dir root) :
    (∀ first second, s.InTree root first → s.InTree root second → s.ino first = s.ino second →
      first = second) ∧
    (∀ file, s.InTree root file → ∃ enough, ∀ depth, enough ≤ depth →
      s.search depth root (s.ino file) = .ok (some file)) ∧
    ∀ iNo, (∀ file, s.InTree root file → s.ino file ≠ iNo) → ∃ enough, ∀ depth, enough ≤ depth →
      s.search depth root iNo = .ok none := by
  obtain ⟨kids, sound⟩ := sound_of_run run
  have distinct : ∀ first second, s.InTree root first → s.InTree root second → s.ino first = s.ino second →
      first = second := by
    intro first second inFirst inSecond same
    obtain ⟨firstNode, first_eq⟩ := sound.node_of_inTree root_eq inFirst
    obtain ⟨secondNode, second_eq⟩ := sound.node_of_inTree root_eq inSecond
    exact sound.ino_inj first_eq second_eq same
  refine ⟨distinct, ?_, ?_⟩
  · intro file inTree
    obtain ⟨res, returns, found, missing⟩ := sound.finds_tree (s.ino file) root_eq top
    cases res with
    | none => exact absurd rfl (missing rfl file inTree)
    | some other =>
      obtain ⟨reached, ino_eq⟩ := found other rfl
      rwa [distinct other file reached inTree ino_eq] at returns
  · intro iNo nobody
    obtain ⟨res, returns, found, -⟩ := sound.finds_tree iNo root_eq top
    cases res with
    | none => exact returns
    | some other =>
      obtain ⟨reached, ino_eq⟩ := found other rfl
      exact absurd ino_eq (nobody other reached)

theorem search_of_bottomUp : ∃ s : Files, s.InTree 0 2 ∧ s.ino 2 = 2 ∧
    ∃ enough, ∀ depth, enough ≤ depth → s.search depth 0 2 = .ok (some 2) := by
  obtain ⟨s₁, made₁, s₂, made₂, s₃, made₃, h₄, inner, h₅, outer, dir, file, top, dir', root, dir'', facts⟩ :
      ∃ s₁, init.create ['/'] none = .ok s₁ ∧ ∃ s₂, s₁.create ['a'] none = .ok s₂ ∧
      ∃ s₃, s₂.create ['c'] none = .ok s₃ ∧ ∃ h₄, s₃.appendChild 1 2 = .ok (true, h₄) ∧
      ∃ h₅, h₄.appendChild 0 1 = .ok (true, h₅) ∧ ∃ dir file top dir' root dir'',
      (s₃.node 1 = some dir ∧ dir.parent = none) ∧ (s₃.node 2 = some file ∧ file.parent = none) ∧
      (h₄.node 0 = some top ∧ top.parent = none) ∧ (h₄.node 1 = some dir' ∧ dir'.parent = none) ∧
      (h₅.node 0 = some root ∧ root.firstChild = some 1 ∧ root.parent = none) ∧
      (h₅.node 1 = some dir'' ∧ dir''.firstChild = some 2) ∧ s₃.ino 2 = 2 :=
    ⟨_, rfl, _, rfl, _, rfl, _, rfl, _, rfl, _, _, _, _, _, _, ⟨rfl, rfl⟩, ⟨rfl, rfl⟩, ⟨rfl, rfl⟩, ⟨rfl, rfl⟩,
      ⟨rfl, rfl, rfl⟩, ⟨rfl, rfl⟩, rfl⟩
  obtain ⟨dir_eq, file_eq, top_eq, dir_eq', ⟨root_eq, first_eq, noParent⟩, ⟨dir_eq'', second_eq⟩, ino_eq⟩ := facts
  have run₃ : Run Step init _ s₃ := .snoc (.snoc (.snoc .nil (.create made₁)) (.create made₂)) (.create made₃)
  have run₄ := run₃.snoc ((sound_of_run run₃).choose_spec.step_append dir_eq.1 file_eq.1 dir_eq.2 file_eq.2
    (by decide) inner)
  have run₅ := run₄.snoc ((sound_of_run run₄).choose_spec.step_append top_eq.1 dir_eq'.1 top_eq.2 dir_eq'.2
    (by decide) outer)
  have atTop : ∀ dir, ¬ Nodes.ChildOf h₅ dir 0 := by
    obtain ⟨kids, sound⟩ := sound_of_run run₅
    intro dir isChild
    exact sound.not_mem_kids root_eq noParent dir (sound.linked.mem_of_childOf isChild)
  have inTree : Relation.ReflTransGen (Nodes.ChildOf h₅) 0 2 :=
    .tail (.single (.first root_eq first_eq)) (.first dir_eq'' second_eq)
  have found := (search_of_run run₅ root_eq atTop).2.1 2 inTree
  rw [ino_eq] at found
  exact ⟨{ s₃ with toNodes := h₅ }, inTree, ino_eq, found⟩

end Files

end SysCore.Fs
