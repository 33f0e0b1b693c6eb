import SysCore.Transition.Outcome
import SysCore.Container.Shares

/-!
# Reference-counted pointers

A `RefCountPtr` is a handle with a pointer to an `AtomicCount`, which has the object and
the number of its handles.  Copies and assignments of handles change the numbers; the one
that makes a number zero deletes the `AtomicCount` and the object.  The objects have no
handles themselves.

The count of an object is the number of its live handles over every sequence of
operations, and an object is deleted by the operation after which it has no handle.
-/

namespace SysCore.Stl

open Transition Function List

structure AtomicCount where
  ptr : Nat
  count : Int

structure Pointers where
  live : List Nat
  atomicCount : Nat → Option Nat
  counts : Nat → Option AtomicCount
  next : Nat
  deleted : List Nat

inductive PtrOp where
  | default (handle : Nat)
  | ofPtr (handle ptr : Nat)
  | copy (handle other : Nat)
  | assign (handle other : Nat)
  | destroy (handle : Nat)

namespace Pointers

def deref (s : Pointers) (id : Nat) : Outcome AtomicCount :=
  match s.counts id with
  | some c => .ok c
  | none => .error .stray

def increase (s : Pointers) (handle : Nat) : Outcome Pointers :=
  match s.atomicCount handle with
  | none => .ok s
  | some id => do
    let c ← s.deref id
    return { s with counts := update s.counts id (some { c with count := c.count + 1 }) }

def decrease (s : Pointers) (handle : Nat) : Outcome Pointers :=
  match s.atomicCount handle with
  | none => .ok s
  | some id => do
    let c ← s.deref id
    if c.count - 1 = 0 then
      return { s with counts := update s.counts id none, deleted := s.deleted ++ [c.ptr] }
    else
      return { s with counts := update s.counts id (some { c with count := c.count - 1 }) }

def point (s : Pointers) (handle : Nat) (target : Option Nat) : Pointers :=
  { s with atomicCount := update s.atomicCount handle target }

def exec (s : Pointers) : PtrOp → Outcome Pointers
  | .default handle => .ok { s.point handle none with live := handle :: s.live }
  | .ofPtr handle ptr =>
    .ok { s.point handle (some s.next) with
      live := handle :: s.live
      counts := update s.counts s.next (some ⟨ptr, 1⟩)
      next := s.next + 1 }
  | .copy handle other => increase { s.point handle (s.atomicCount other) with live := handle :: s.live } handle
  | .assign handle other =>
    if handle = other then .ok s
    else do
      let s ← s.decrease handle
      (s.point handle (s.atomicCount other)).increase handle
  | .destroy handle => do
    let s ← s.decrease handle
    return { s with live := s.live.erase handle }

def Ready (s : Pointers) : PtrOp → Prop
  | .default handle => handle ∉ s.live
  | .ofPtr handle ptr => handle ∉ s.live ∧ (∀ id c, s.counts id = some c → c.ptr ≠ ptr) ∧ ptr ∉ s.deleted
  | .copy handle other => handle ∉ s.live ∧ other ∈ s.live
  | .assign handle other => handle ∈ s.live ∧ other ∈ s.live
  | .destroy handle => handle ∈ s.live

def Step (s : Pointers) (op : PtrOp) (s' : Pointers) : Prop :=
  s.Ready op ∧ s.exec op = .ok s'

def init : Pointers :=
  ⟨[], fun _ => none, fun _ => none, 0, []⟩

def held (s : Pointers) (handles : List Nat) (id : Nat) : Nat :=
  (handles.map s.atomicCount).count (some id)

end Pointers

def Tallied : Option AtomicCount → (handles : Nat) → Prop
  | none, handles => handles = 0
  | some c, handles => c.count = handles ∧ 0 < handles

structure Ledger (counts : Nat → Option AtomicCount) (next : Nat) (deleted : List Nat) (held : Nat → Nat) :
    Prop where
  tallied : ∀ id, Tallied (counts id) (held id)
  below_next : ∀ id c, counts id = some c → id < next
  apart : ∀ id id' c c', counts id = some c → counts id' = some c' → c.ptr = c'.ptr → id = id'
  nodup : deleted.Nodup
  not_deleted : ∀ id c, counts id = some c → c.ptr ∉ deleted

/-! ## Changes of the ledger -/

namespace Ledger

variable {counts : Nat → Option AtomicCount} {next next' : Nat} {deleted deleted' : List Nat}
  {held held' : Nat → Nat} {id : Nat} {c : AtomicCount} {value : Option AtomicCount}

variable (ledger : Ledger counts next deleted held)
include ledger

theorem congr (same : ∀ id, held id = held' id) : Ledger counts next deleted held' := by
  rw [← funext same]
  exact ledger

theorem counted (found : counts id = some c) : c.count = held id ∧ 0 < held id := by
  have tallied := ledger.tallied id
  rwa [found] at tallied

theorem exists_count (some_handle : 0 < held id) : ∃ c, counts id = some c := by
  have tallied := ledger.tallied id
  cases found : counts id with
  | none =>
    rw [found] at tallied
    exact absurd tallied (Nat.ne_of_gt some_handle)
  | some c => exact ⟨c, rfl⟩

theorem write (here : Tallied value (held' id)) (elsewhere : ∀ other, other ≠ id → held' other = held other)
    (grows : next ≤ next') (below : id < next')
    (apart : ∀ c other d, value = some c → other ≠ id → counts other = some d → d.ptr ≠ c.ptr)
    (nodup : deleted'.Nodup) (kept : ∀ c, value = some c → c.ptr ∉ deleted')
    (others : ∀ other d, other ≠ id → counts other = some d → d.ptr ∉ deleted') :
    Ledger (update counts id value) next' deleted' held' := by
  have cases_update : ∀ {other d}, update counts id value other = some d →
      (other = id ∧ value = some d) ∨ (other ≠ id ∧ counts other = some d) := by
    intro other d found
    rw [update_apply] at found
    split at found
    · exact .inl ⟨‹_›, found⟩
    · exact .inr ⟨‹_›, found⟩
  constructor
  · apply (forall_update_iff counts fun other value => Tallied value (held' other)).2
    refine ⟨here, fun other different => ?_⟩
    rw [elsewhere other different]
    exact ledger.tallied other
  · intro other d found
    rcases cases_update found with ⟨rfl, -⟩ | ⟨-, same⟩
    · exact below
    · exact (ledger.below_next other d same).trans_le grows
  · intro first second d d' found₁ found₂ ptr_eq
    rcases cases_update found₁ with ⟨rfl, same⟩ | ⟨different, same⟩
    · rcases cases_update found₂ with ⟨rfl, -⟩ | ⟨different', same'⟩
      · rfl
      · exact absurd ptr_eq.symm (apart d second d' same different' same')
    · rcases cases_update found₂ with ⟨rfl, same'⟩ | ⟨-, same'⟩
      · exact absurd ptr_eq (apart d' first d same' different same)
      · exact ledger.apart first second d d' same same' ptr_eq
  · exact nodup
  · intro other d found
    rcases cases_update found with ⟨-, same⟩ | ⟨different, same⟩
    · exact kept d same
    · exact others other d different same

theorem recount (found : counts id = some c) {count : Int} (here : count = held' id)
    (positive : 0 < held' id) (elsewhere : ∀ other, other ≠ id → held' other = held other) :
    Ledger (update counts id (some { c with count := count })) next deleted held' := by
  have tallied : Tallied (some { c with count := count }) (held' id) := ⟨here, positive⟩
  apply ledger.write tallied elsewhere le_rfl (ledger.below_next id c found)
  · rintro _ other d ⟨⟩ different same ptr_eq
    exact different (ledger.apart other id d c same found ptr_eq)
  · exact ledger.nodup
  · rintro _ ⟨⟩
    exact ledger.not_deleted id c found
  · exact fun other d _ => ledger.not_deleted other d

theorem remove (found : counts id = some c) (here : held' id = 0)
    (elsewhere : ∀ other, other ≠ id → held' other = held other) :
    Ledger (update counts id none) next (deleted ++ [c.ptr]) held' := by
  have fresh := ledger.not_deleted id c found
  have tallied : Tallied none (held' id) := here
  apply ledger.write tallied elsewhere le_rfl (ledger.below_next id c found)
  · rintro _ _ _ ⟨⟩
  · exact nodup_append.2 ⟨ledger.nodup, nodup_singleton _, by grind⟩
  · rintro _ ⟨⟩
  · intro other d different same
    rw [mem_append, mem_singleton, not_or]
    exact ⟨ledger.not_deleted other d same, fun ptr_eq => different (ledger.apart other id d c same found ptr_eq)⟩

theorem held_next : held next = 0 := by
  by_contra some_handle
  rcases ledger.exists_count (Nat.pos_of_ne_zero some_handle) with ⟨c, found⟩
  exact absurd (ledger.below_next next c found) (Nat.lt_irrefl next)

theorem new {ptr : Nat} (freshPtr : ∀ id c, counts id = some c → c.ptr ≠ ptr) (notDeleted : ptr ∉ deleted)
    (here : held' next = 1) (elsewhere : ∀ other, other ≠ next → held' other = held other) :
    Ledger (update counts next (some ⟨ptr, 1⟩)) (next + 1) deleted held' := by
  have tallied : Tallied (some ⟨ptr, 1⟩) (held' next) := by
    rw [here]
    exact ⟨rfl, Nat.one_pos⟩
  apply ledger.write tallied elsewhere (Nat.le_succ next) (Nat.lt_succ_self next)
  · rintro _ other d ⟨⟩ - same
    exact freshPtr other d same
  · exact ledger.nodup
  · rintro _ ⟨⟩
    exact notDeleted
  · exact fun other d _ => ledger.not_deleted other d

end Ledger

/-! ## Handles -/

namespace Pointers

variable {s : Pointers} {handle : Nat} {handles : List Nat} {id other : Nat} {s' : Pointers} {op : PtrOp}

def Balanced (s : Pointers) (handles : List Nat) : Prop :=
  Ledger s.counts s.next s.deleted (s.held handles)

structure Sound (s : Pointers) : Prop where
  nodup : s.live.Nodup
  balanced : s.Balanced s.live

structure Deletes (s s' : Pointers) : Prop where
  exactly : ∀ id c, s.counts id = some c → (c.ptr ∈ s'.deleted ↔ s'.held s'.live id = 0)
  only : ∀ ptr ∈ s'.deleted, ptr ∈ s.deleted ∨ ∃ id c, s.counts id = some c ∧ c.ptr = ptr

theorem held_cons (s : Pointers) (handle : Nat) (handles : List Nat) (id : Nat) :
    s.held (handle :: handles) id = (if s.atomicCount handle = some id then 1 else 0) + s.held handles id := by
  unfold held
  rw [map_cons, count_cons, Nat.add_comm]
  simp only [beq_iff_eq]

theorem held_cons_null (null : s.atomicCount handle = none) (id : Nat) :
    s.held (handle :: handles) id = s.held handles id := by
  rw [held_cons, null, if_neg (Option.some_ne_none id).symm, Nat.zero_add]

theorem held_cons_self (points : s.atomicCount handle = some id) :
    s.held (handle :: handles) id = s.held handles id + 1 := by
  rw [held_cons, points, if_pos rfl, Nat.add_comm]

theorem held_cons_of_ne (points : s.atomicCount handle = some id) (different : other ≠ id) :
    s.held (handle :: handles) other = s.held handles other := by
  rw [held_cons, points, if_neg fun same => different (Option.some.inj same).symm, Nat.zero_add]

theorem held_erase (isLive : handle ∈ handles) (s : Pointers) (id : Nat) :
    s.held (handle :: handles.erase handle) id = s.held handles id :=
  (((perm_cons_erase isLive).map s.atomicCount).count_eq (some id)).symm

theorem held_pos (isLive : handle ∈ handles) (points : s.atomicCount handle = some id) :
    0 < s.held handles id := by
  rw [← held_erase isLive, held_cons_self points]
  exact Nat.succ_pos _

theorem held_point (absent : handle ∉ handles) (target : Option Nat) (id : Nat) :
    (s.point handle target).held handles id = s.held handles id := by
  unfold held point
  dsimp only
  rw [map_congr_left]
  intro other isOther
  apply update_of_ne
  rintro rfl
  exact absent isOther

theorem decrease_eq (balanced : s.Balanced (handle :: handles)) :
    ∃ counts deleted, s.decrease handle = .ok { s with counts := counts, deleted := deleted } ∧
      Ledger counts s.next deleted (s.held handles) ∧
      (∀ id c, s.counts id = some c → (c.ptr ∈ deleted ↔ s.held handles id = 0)) ∧
      ∀ ptr ∈ deleted, ptr ∈ s.deleted ∨ ∃ id c, s.counts id = some c ∧ c.ptr = ptr := by
  unfold decrease
  cases points : s.atomicCount handle with
  | none =>
    have same := @held_cons_null s handle handles points
    refine ⟨s.counts, s.deleted, rfl, balanced.congr same, ?_, fun ptr mem => .inl mem⟩
    intro id c found
    have positive := (balanced.counted found).2
    rw [same] at positive
    exact iff_of_false (balanced.not_deleted id c found) (Nat.ne_of_gt positive)
  | some id =>
    have self : s.held (handle :: handles) id = s.held handles id + 1 := held_cons_self points
    have elsewhere : ∀ other, other ≠ id → s.held handles other = s.held (handle :: handles) other :=
      fun other different => (held_cons_of_ne points different).symm
    rcases balanced.exists_count (self.trans_gt (Nat.succ_pos _)) with ⟨c, found⟩
    have count_eq := (balanced.counted found).1
    rw [self] at count_eq
    dsimp only
    rw [deref, found, ok_bind]
    -- the handles of the other entries have not changed
    have others : ∀ other d, other ≠ id → s.counts other = some d → 0 < s.held handles other := by
      intro other d different found'
      rw [elsewhere other different]
      exact (balanced.counted found').2
    by_cases last : c.count - 1 = 0
    · have none_left : s.held handles id = 0 := by omega
      rw [if_pos last]
      refine ⟨_, _, rfl, balanced.remove found none_left elsewhere, ?_, ?_⟩
      · intro other d found'
        rw [mem_append, mem_singleton]
        by_cases same : other = id
        · subst same
          cases Option.some.inj (found.symm.trans found')
          exact iff_of_true (.inr rfl) none_left
        · apply iff_of_false
          · rintro (mem | ptr_eq)
            · exact balanced.not_deleted other d found' mem
            · exact same (balanced.apart other id d c found' found ptr_eq)
          · exact Nat.ne_of_gt (others other d same found')
      · intro ptr mem
        rcases mem_append.1 mem with mem | mem
        · exact .inl mem
        · exact .inr ⟨id, c, found, (mem_singleton.1 mem).symm⟩
    · have some_left : 0 < s.held handles id := by omega
      rw [if_neg last]
      refine ⟨_, _, rfl, balanced.recount found (by omega) some_left elsewhere, ?_, fun ptr mem => .inl mem⟩
      intro other d found'
      apply iff_of_false (balanced.not_deleted other d found')
      by_cases same : other = id
      · rw [same]
        exact Nat.ne_of_gt some_left
      · exact Nat.ne_of_gt (others other d same found')

theorem increase_eq (balanced : s.Balanced handles)
    (target : ∀ id, s.atomicCount handle = some id → 0 < s.held handles id) :
    ∃ counts, s.increase handle = .ok { s with counts := counts } ∧
      Ledger counts s.next s.deleted (s.held (handle :: handles)) := by
  unfold increase
  cases points : s.atomicCount handle with
  | none => exact ⟨s.counts, rfl, balanced.congr fun id => (held_cons_null points id).symm⟩
  | some id =>
    rcases balanced.exists_count (target id points) with ⟨c, found⟩
    have count_eq := (balanced.counted found).1
    have self : s.held (handle :: handles) id = s.held handles id + 1 := held_cons_self points
    refine ⟨update s.counts id (some { c with count := c.count + 1 }), ?_, balanced.recount found ?_ ?_ ?_⟩
    · dsimp only
      rw [deref, found]
      rfl
    · omega
    · omega
    · exact fun other different => held_cons_of_ne points different

/-! ## Operations -/

theorem deletes_nothing (sound : s.Sound) (same : s'.deleted = s.deleted)
    (keeps : ∀ id, 0 < s.held s.live id → 0 < s'.held s'.live id) : s.Deletes s' := by
  constructor
  · intro id c found
    rw [same]
    apply iff_of_false (sound.balanced.not_deleted id c found)
    exact Nat.ne_of_gt (keeps id (sound.balanced.counted found).2)
  · intro ptr mem
    rw [same] at mem
    exact .inl mem

theorem Sound.balanced_point (sound : s.Sound) (absent : handle ∉ s.live) (target : Option Nat) :
    ({ s.point handle target with live := handle :: s.live } : Pointers).Balanced s.live :=
  sound.balanced.congr fun id => (held_point absent target id).symm

theorem Sound.exec_default (sound : s.Sound) (absent : handle ∉ s.live) :
    ∃ s', s.exec (.default handle) = .ok s' ∧ s'.Sound ∧ s.Deletes s' := by
  have held_eq : ∀ id, ({ s.point handle none with live := handle :: s.live } : Pointers).held
      (handle :: s.live) id = s.held s.live id := by
    intro id
    rw [held_cons_null (update_self ..)]
    exact held_point absent none id
  refine ⟨_, rfl, ⟨nodup_cons.2 ⟨absent, sound.nodup⟩, ?_⟩, deletes_nothing sound rfl ?_⟩
  · exact sound.balanced.congr fun id => (held_eq id).symm
  · intro id some_handle
    rwa [held_eq]

theorem Sound.exec_ofPtr {ptr : Nat} (sound : s.Sound) (absent : handle ∉ s.live)
    (freshPtr : ∀ id c, s.counts id = some c → c.ptr ≠ ptr) (notDeleted : ptr ∉ s.deleted) :
    ∃ s', s.exec (.ofPtr handle ptr) = .ok s' ∧ s'.Sound ∧ s.Deletes s' := by
  have points : (s.point handle (some s.next)).atomicCount handle = some s.next := update_self ..
  have here : (s.point handle (some s.next)).held (handle :: s.live) s.next = 1 := by
    rw [held_cons_self points, held_point absent, sound.balanced.held_next]
  have elsewhere : ∀ other, other ≠ s.next →
      (s.point handle (some s.next)).held (handle :: s.live) other = s.held s.live other := by
    intro other different
    rw [held_cons_of_ne points different, held_point absent]
  refine ⟨_, rfl, ⟨nodup_cons.2 ⟨absent, sound.nodup⟩, ?_⟩, deletes_nothing sound rfl ?_⟩
  · exact sound.balanced.new freshPtr notDeleted here elsewhere
  · intro id some_handle
    have different : id ≠ s.next := by
      rintro rfl
      exact absurd sound.balanced.held_next (Nat.ne_of_gt some_handle)
    exact (elsewhere id different).symm ▸ some_handle

theorem held_le_cons (s : Pointers) (handle : Nat) (handles : List Nat) (id : Nat) :
    s.held handles id ≤ s.held (handle :: handles) id := by
  rw [held_cons]
  exact Nat.le_add_left _ _

theorem held_pos_of_point (isOther : other ∈ handles)
    (points : (s.point handle (s.atomicCount other)).atomicCount handle = some id) :
    0 < s.held handles id := by
  apply held_pos isOther
  rw [← points]
  exact (update_self handle (s.atomicCount other) s.atomicCount).symm

theorem held_point_eq_zero {other : Nat} (absent : handle ∉ handles) (isOther : other ∈ handles) (id : Nat) :
    (s.point handle (s.atomicCount other)).held (handle :: handles) id = 0 ↔ s.held handles id = 0 := by
  rw [← held_point absent (s.atomicCount other)]
  constructor
  · intro none_left
    exact Nat.eq_zero_of_le_zero ((held_le_cons _ _ _ _).trans_eq none_left)
  · intro none_left
    rw [held_cons, none_left, if_neg]
    intro points
    rw [held_point absent] at none_left
    exact absurd none_left (Nat.ne_of_gt (held_pos_of_point isOther points))

theorem Sound.exec_copy (sound : s.Sound) (absent : handle ∉ s.live) (isLive : other ∈ s.live) :
    ∃ s', s.exec (.copy handle other) = .ok s' ∧ s'.Sound ∧ s.Deletes s' := by
  have balanced := sound.balanced_point absent (s.atomicCount other)
  have held_eq := @held_point s handle s.live absent (s.atomicCount other)
  rcases increase_eq balanced fun id points => (held_pos_of_point isLive points).trans_eq (held_eq id).symm
    with ⟨counts, increased, ledger⟩
  refine ⟨_, increased, ⟨nodup_cons.2 ⟨absent, sound.nodup⟩, ledger⟩, deletes_nothing sound rfl ?_⟩
  intro id some_handle
  rw [← held_eq] at some_handle
  exact some_handle.trans_le (held_le_cons _ _ _ _)

theorem Sound.exec_assign (sound : s.Sound) (isLive : handle ∈ s.live) (otherLive : other ∈ s.live) :
    ∃ s', s.exec (.assign handle other) = .ok s' ∧ s'.Sound ∧ s.Deletes s' := by
  by_cases same : handle = other
  · exact ⟨s, if_pos same, sound, deletes_nothing sound rfl fun _ some_handle => some_handle⟩
  have absent : handle ∉ s.live.erase handle := sound.nodup.not_mem_erase
  have remains : other ∈ s.live.erase handle := (mem_erase_of_ne (Ne.symm same)).2 otherLive
  have balanced : s.Balanced (handle :: s.live.erase handle) :=
    sound.balanced.congr fun id => (held_erase isLive s id).symm
  rcases decrease_eq balanced with ⟨counts, deleted, decreased, ledger, exactly, only⟩
  have held_eq := @held_point { s with counts := counts, deleted := deleted } handle _ absent (s.atomicCount other)
  rcases @increase_eq (point { s with counts := counts, deleted := deleted } handle (s.atomicCount other)) handle _
    (ledger.congr fun id => (held_eq id).symm)
    (fun id points => (held_pos_of_point remains points).trans_eq (held_eq id).symm)
    with ⟨counts', increased, ledger'⟩
  have executed : s.exec (.assign handle other) =
      (point { s with counts := counts, deleted := deleted } handle (s.atomicCount other)).increase handle := by
    rw [exec, if_neg same, decreased, ok_bind]
  refine ⟨_, executed.trans increased, ⟨sound.nodup, ?_⟩, ?_, only⟩
  · exact ledger'.congr fun id => held_erase isLive _ id
  · intro id c found
    have none_left := @held_point_eq_zero s handle _ other absent remains id
    rw [held_erase isLive] at none_left
    exact (exactly id c found).trans none_left.symm

theorem Sound.exec_destroy (sound : s.Sound) (isLive : handle ∈ s.live) :
    ∃ s', s.exec (.destroy handle) = .ok s' ∧ s'.Sound ∧ s.Deletes s' := by
  have balanced : s.Balanced (handle :: s.live.erase handle) :=
    sound.balanced.congr fun id => (held_erase isLive s id).symm
  rcases decrease_eq balanced with ⟨counts, deleted, decreased, ledger, exactly, only⟩
  refine ⟨{ s with counts := counts, deleted := deleted, live := s.live.erase handle }, ?_, ?_, exactly, only⟩
  · rw [exec, decreased]
    rfl
  · exact ⟨sound.nodup.erase handle, ledger⟩

theorem Sound.exec_eq (sound : s.Sound) (ready : s.Ready op) :
    ∃ s', s.exec op = .ok s' ∧ s'.Sound ∧ s.Deletes s' := by
  cases op with
  | default handle => exact sound.exec_default ready
  | ofPtr handle ptr => exact sound.exec_ofPtr ready.1 ready.2.1 ready.2.2
  | copy handle other => exact sound.exec_copy ready.1 ready.2
  | assign handle other => exact sound.exec_assign ready.1 ready.2
  | destroy handle => exact sound.exec_destroy ready

theorem sound_init : init.Sound := by
  have no_count : ∀ id c, init.counts id ≠ some c := fun _ c => (Option.some_ne_none c).symm
  constructor
  · exact nodup_nil
  · constructor
    · exact fun _ => rfl
    · exact fun id c found => absurd found (no_count id c)
    · exact fun id _ c _ found => absurd found (no_count id c)
    · exact nodup_nil
    · exact fun id c found => absurd found (no_count id c)

theorem Sound.step (sound : s.Sound) (step : Step s op s') : s'.Sound := by
  rcases step with ⟨ready, executed⟩
  rcases sound.exec_eq ready with ⟨t, executed', sound', -⟩
  cases executed.symm.trans executed'
  exact sound'

theorem Sound.run {ops : List PtrOp} {s' : Pointers} (run : Run Step init ops s') : s'.Sound :=
  Run.invariant (fun sound step => sound.step step) run sound_init

/-- After every sequence of operations the counts are the numbers of the live handles, no
object was deleted twice, and every operation that may follow runs and deletes the objects
that it leaves without a handle, and no others. -/
theorem counts_held_and_deletes {ops : List PtrOp} (run : Run Step init ops s) :
    (∀ id c, s.counts id = some c → c.count = s.held s.live id) ∧
      (∀ id, 0 < s.held s.live id → ∃ c, s.counts id = some c ∧ c.ptr ∉ s.deleted) ∧
      s.deleted.Nodup ∧
      ∀ op, s.Ready op → ∃ s', s.exec op = .ok s' ∧ s.Deletes s' := by
  have sound := Sound.run run
  refine ⟨fun _ _ found => (sound.balanced.counted found).1, ?_, sound.balanced.nodup, ?_⟩
  · intro id some_handle
    rcases sound.balanced.exists_count some_handle with ⟨c, found⟩
    exact ⟨c, found, sound.balanced.not_deleted id c found⟩
  · intro op ready
    rcases sound.exec_eq ready with ⟨s', executed, -, deletes⟩
    exact ⟨s', executed, deletes⟩

theorem counts_held_and_deletes_shared :
    ∃ s, Run Step init [.ofPtr 0 7, .copy 1 0] s ∧ s.held s.live 0 = 2 ∧
      (∃ c, s.counts 0 = some c ∧ c.count = 2 ∧ c.ptr ∉ s.deleted) ∧
      ∃ s', s.exec (.destroy 0) = .ok s' ∧ s.Deletes s' := by
  have run : ∃ s, Run Step init [.ofPtr 0 7, .copy 1 0] s ∧ s.live = [1, 0] ∧ s.held s.live 0 = 2 := by
    have ready : init.Ready (.ofPtr 0 7) :=
      ⟨not_mem_nil, fun id c found => absurd found (Option.some_ne_none c).symm, not_mem_nil⟩
    refine ⟨_, .snoc (.snoc .nil ⟨ready, rfl⟩) ⟨?_, rfl⟩, rfl, rfl⟩
    constructor
    · exact (by decide : 1 ∉ [0])
    · exact mem_cons_self
  rcases run with ⟨s, run, live, two⟩
  rcases counts_held_and_deletes run with ⟨counted, present, -, deletes⟩
  rcases present 0 (two ▸ Nat.two_pos) with ⟨c, found, notDeleted⟩
  refine ⟨s, run, two, ⟨c, found, ?_, notDeleted⟩, deletes (.destroy 0) ?_⟩
  · rw [counted 0 c found, two]
    rfl
  · exact (live ▸ (by decide : 0 ∈ [1, 0]) : 0 ∈ s.live)

end Pointers

end SysCore.Stl
