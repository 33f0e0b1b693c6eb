import Mathlib.Data.List.Count
import Mathlib.Data.List.Nodup
import Mathlib.Logic.Function.Basic

/-!
# Shares

Holders of lists, and all that they hold together.  The lemmas say how often an
item is held when a share changes, a holder comes, or a holder leaves; with them
a ledger over many holders is kept by counting.
-/

namespace SysCore.Container

open List

variable {κ α : Type}

def shares (holders : List κ) (share : κ → List α) : List α :=
  holders.flatMap share

theorem mem_shares {holders : List κ} {share : κ → List α} {item : α} :
    item ∈ shares holders share ↔ ∃ holder ∈ holders, item ∈ share holder :=
  mem_flatMap

theorem shares_congr {holders : List κ} {share share' : κ → List α}
    (same : ∀ holder ∈ holders, share' holder = share holder) :
    shares holders share' = shares holders share :=
  flatMap_congr same

section Counts

variable {holders : List κ} (share : κ → List α) {holder : κ} [DecidableEq α]

theorem count_shares_cons (item : α) :
    (shares (holder :: holders) share).count item =
      (share holder).count item + (shares holders share).count item := by
  rw [shares, flatMap_cons, count_append, shares]

variable [DecidableEq κ]

theorem count_shares_erase (holderMem : holder ∈ holders) (item : α) :
    (shares holders share).count item =
      (share holder).count item + (shares (holders.erase holder) share).count item := by
  rw [← count_shares_cons]
  exact ((perm_cons_erase holderMem).flatMap_right share).count_eq item

theorem count_map_erase (label : κ → α) (holderMem : holder ∈ holders) (item : α) :
    (holders.map label).count item =
      (if label holder = item then 1 else 0) + ((holders.erase holder).map label).count item := by
  rw [((perm_cons_erase holderMem).map label).count_eq item, map_cons, count_cons]
  simp only [beq_iff_eq]
  omega

omit [DecidableEq α] in
theorem shares_update_of_not_mem (absent : holder ∉ holders) (items : List α) :
    shares holders (Function.update share holder items) = shares holders share := by
  refine shares_congr fun other otherMem => ?_
  have different : other ≠ holder := fun same => absent (same ▸ otherMem)
  rw [Function.update_of_ne different]

theorem count_shares_update (distinct : holders.Nodup) (holderMem : holder ∈ holders)
    (items : List α) (item : α) :
    (shares holders (Function.update share holder items)).count item + (share holder).count item =
      (shares holders share).count item + items.count item := by
  rw [count_shares_erase _ holderMem, count_shares_erase share holderMem, Function.update_self,
    shares_update_of_not_mem share distinct.not_mem_erase items]
  omega

variable {share} in
theorem not_mem_of_nodup_shares (distinct : (shares holders share).Nodup)
    (holderMem : holder ∈ holders) {other : κ} (otherMem : other ∈ holders) (different : other ≠ holder)
    {item : α} (held : item ∈ share holder) : item ∉ share other := by
  intro heldAgain
  have once := nodup_iff_count_le_one.1 distinct item
  have inRest : item ∈ shares (holders.erase holder) share :=
    mem_shares.2 ⟨other, (mem_erase_of_ne different).2 otherMem, heldAgain⟩
  have first := count_pos_iff.2 held
  have second := count_pos_iff.2 inRest
  rw [count_shares_erase share holderMem] at once
  omega

end Counts

end SysCore.Container
