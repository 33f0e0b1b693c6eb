import Mathlib.Logic.Relation
import Mathlib.Tactic.Common

/-!
# Forests

A forest is given by the list of children of every node.  Nobody is a child of
two nodes, and there is no endless descent; then two subtrees of siblings have
no node in common.
-/

namespace SysCore.Container

variable {α : Type} {kids : α → List α}

def Below (kids : α → List α) : α → α → Prop :=
  Relation.ReflTransGen fun node child => child ∈ kids node

structure Forest (kids : α → List α) : Prop where
  parent : ∀ {first second child : α}, child ∈ kids first → child ∈ kids second → first = second
  grounded : ∃ rank : α → Nat, ∀ node, ∀ child ∈ kids node, rank child < rank node

theorem below_refl (node : α) : Below kids node node :=
  .refl

theorem below_iff {node other : α} :
    Below kids node other ↔ other = node ∨ ∃ child ∈ kids node, Below kids child other := by
  unfold Below
  rw [Relation.ReflTransGen.cases_head_iff]
  constructor
  · rintro (same | ⟨child, childMem, below⟩)
    · exact .inl same.symm
    · exact .inr ⟨child, childMem, below⟩
  · rintro (same | ⟨child, childMem, below⟩)
    · exact .inl same.symm
    · exact .inr ⟨child, childMem, below⟩

theorem Below.parent {node other : α} (below : Below kids node other) (different : other ≠ node) :
    ∃ parent, other ∈ kids parent ∧ Below kids node parent := by
  rcases Relation.ReflTransGen.cases_tail below with same | ⟨parent, above, isChild⟩
  · exact absurd same different
  · exact ⟨parent, isChild, above⟩

namespace Forest

theorem induct (forest : Forest kids) {motive : α → Prop}
    (inherited : ∀ node, (∀ child ∈ kids node, motive child) → motive node) (node : α) :
    motive node := by
  obtain ⟨rank, descends⟩ := forest.grounded
  induction rank_eq : rank node using Nat.strongRecOn generalizing node with
  | ind size ih =>
    apply inherited
    intro child isChild
    exact ih (rank child) (rank_eq ▸ descends node child isChild) child rfl

theorem not_below_child (forest : Forest kids) {node child : α} (isChild : child ∈ kids node) :
    ¬ Below kids child node := by
  obtain ⟨rank, descends⟩ := forest.grounded
  have rank_le : ∀ {first second : α}, Below kids first second → rank second ≤ rank first := by
    intro first second below
    induction below with
    | refl => exact Nat.le_refl _
    | tail _ isChild ih => exact Nat.le_trans (Nat.le_of_lt (descends _ _ isChild)) ih
  intro below
  exact absurd (rank_le below) (Nat.not_le.2 (descends node child isChild))

theorem below_comparable (forest : Forest kids) {first second node : α}
    (belowFirst : Below kids first node) (belowSecond : Below kids second node) :
    Below kids first second ∨ Below kids second first := by
  induction belowFirst with
  | refl => exact .inr belowSecond
  | @tail parent node above isChild ih =>
    by_cases same : node = second
    · subst same
      exact .inl (above.tail isChild)
    · obtain ⟨other, isChild', below⟩ := belowSecond.parent same
      rw [forest.parent isChild' isChild] at below
      exact ih below

theorem siblings_apart (forest : Forest kids) {parent first second node : α}
    (firstMem : first ∈ kids parent) (secondMem : second ∈ kids parent)
    (belowFirst : Below kids first node) (belowSecond : Below kids second node) : first = second := by
  have nested : ∀ {upper lower : α}, upper ∈ kids parent → lower ∈ kids parent →
      Below kids upper lower → upper = lower := by
    intro upper lower upperMem lowerMem below
    by_contra different
    obtain ⟨other, isChild, above⟩ := below.parent (Ne.symm different)
    rw [forest.parent isChild lowerMem] at above
    exact forest.not_below_child upperMem above
  rcases forest.below_comparable belowFirst belowSecond with below | below
  · exact nested firstMem secondMem below
  · exact (nested secondMem firstMem below).symm

end Forest

end SysCore.Container
