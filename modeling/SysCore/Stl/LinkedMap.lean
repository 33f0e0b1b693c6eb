import SysCore.Container.Map
import SysCore.Stl.LinkedList

/-!
# Maps on linked lists

A `Map` is a `List` of pairs.  Each of its operations goes through the list up to the first
pair with the key; a new key is pushed to the front.  So the list is the association list of
`Container.Map`, in which every key is there once, and what is looked up in it is what the
operations have put there.
-/

namespace SysCore.Stl

open Transition Container Function List

universe u

abbrev LinkedMap (κ ν : Type) := LinkedList (κ × ν)

inductive MapOp (κ ν : Type) where
  | put (newNode : Nat) (key : κ) (value : ν)
  | erase (key : κ)

def MapOp.key {κ ν : Type} : MapOp κ ν → κ
  | .put _ key _ => key
  | .erase key => key

namespace LinkedMap

variable {κ ν : Type} [DecidableEq κ]

def seek (data : LinkedMap κ ν) (key : κ) : Nat → Option Nat → Outcome (Option Nat)
  | _, none => .ok none
  | 0, some _ => .error .hang
  | fuel + 1, some cnt => do
    let node ← data.get cnt
    if node.data.1 = key then return some cnt
    seek data key fuel node.next

def put (data : LinkedMap κ ν) (fuel newNode : Nat) (key : κ) (value : ν) : Outcome (LinkedMap κ ν) := do
  match ← seek data key fuel data.start with
  | some cnt => do
    let node ← data.get cnt
    return LinkedList.put data cnt { node with data := (node.data.1, value) }
  | none => data.pushFront newNode (key, value)

def erase (data : LinkedMap κ ν) (fuel : Nat) (key : κ) : Outcome (LinkedMap κ ν) := do
  match ← seek data key fuel data.start with
  | some i => LinkedList.erase data i
  | none => return data

def exists_ (data : LinkedMap κ ν) (fuel : Nat) (key : κ) : Outcome Bool := do
  match ← seek data key fuel data.start with
  | some _ => return true
  | none => return false

def get (data : LinkedMap κ ν) (fuel : Nat) (key : κ) : Outcome ν := do
  match ← seek data key fuel data.start with
  | some cnt => do
    let node ← LinkedList.get data cnt
    return node.data.2
  | none => .error .panic

def exec (data : LinkedMap κ ν) (fuel : Nat) : MapOp κ ν → Outcome (LinkedMap κ ν)
  | .put newNode key value => put data fuel newNode key value
  | .erase key => erase data fuel key

def Valid (data : LinkedMap κ ν) : MapOp κ ν → Prop
  | .put newNode _ _ => data.node newNode = none
  | .erase _ => True

def Step (data : LinkedMap κ ν) (op : MapOp κ ν) (data' : LinkedMap κ ν) : Prop :=
  Valid data op ∧ ∃ enough, ∀ fuel, enough ≤ fuel → exec data fuel op = .ok data'

def meaning (map : κ → Option ν) : MapOp κ ν → κ → Option ν
  | .put _ key value => update map key (some value)
  | .erase key => update map key none

def Refines (data : LinkedMap κ ν) (map : Container.Map κ ν) : Prop :=
  ∃ cells, LinkedList.Represents data cells ∧ cells.map Prod.snd = map.data

variable {data data' : LinkedMap κ ν} {map : Container.Map κ ν} {cells : List (Nat × κ × ν)}

theorem seek_eq {previous : Option Nat} (segment : Segment data.node previous cells none) (key : κ) :
    (∃ front cell rest, cells = front ++ cell :: rest ∧ cell.2.1 = key ∧ (∀ other ∈ front, other.2.1 ≠ key) ∧
      ∀ fuel, cells.length ≤ fuel → seek data key fuel (headOr cells none) = .ok (some cell.1)) ∨
    (∀ cell ∈ cells, cell.2.1 ≠ key) ∧
      ∀ fuel, cells.length ≤ fuel → seek data key fuel (headOr cells none) = .ok none := by
  induction cells generalizing previous with
  | nil =>
    refine .inr ⟨fun _ mem => absurd mem not_mem_nil, fun fuel _ => ?_⟩
    cases fuel <;> rfl
  | cons cell rest ih =>
    have unfolded : ∀ fuel, (cell :: rest).length ≤ fuel → seek data key fuel (some cell.1) =
        if cell.2.1 = key then .ok (some cell.1) else seek data key (fuel - 1) (headOr rest none) := by
      intro fuel enough
      obtain ⟨fuel, rfl⟩ : ∃ more, fuel = more + 1 := ⟨fuel - 1, by rw [length_cons] at enough; omega⟩
      rw [seek, LinkedList.get_eq segment.1, ok_bind]
      rfl
    by_cases same : cell.2.1 = key
    · refine .inl ⟨[], cell, rest, rfl, same, fun _ mem => absurd mem not_mem_nil, fun fuel enough => ?_⟩
      rw [headOr, unfolded fuel enough, if_pos same]
    · rcases ih segment.2 with ⟨front, found, behind, rfl, isKey, unseen, seeks⟩ | ⟨unseen, seeks⟩
      · refine .inl ⟨cell :: front, found, behind, rfl, isKey, forall_mem_cons.2 ⟨same, unseen⟩,
          fun fuel enough => ?_⟩
        rw [headOr, unfolded fuel enough, if_neg same, seeks (fuel - 1) (Nat.le_sub_one_of_lt enough)]
      · refine .inr ⟨forall_mem_cons.2 ⟨same, unseen⟩, fun fuel enough => ?_⟩
        rw [headOr, unfolded fuel enough, if_neg same, seeks (fuel - 1) (Nat.le_sub_one_of_lt enough)]

/-! ## Operations -/

section Operations

variable (refines : Refines data map)
include refines

theorem Refines.seek_cases (key : κ) :
    (∃ front cell rest, LinkedList.Represents data (front ++ cell :: rest) ∧ cell.2.1 = key ∧
      (∀ other ∈ front.map Prod.snd, other.1 ≠ key) ∧
      map.data = front.map Prod.snd ++ cell.2 :: rest.map Prod.snd ∧
      ∀ fuel, map.data.length ≤ fuel → seek data key fuel data.start = .ok (some cell.1)) ∨
    (∀ other ∈ map.data, other.1 ≠ key) ∧
      ∀ fuel, map.data.length ≤ fuel → seek data key fuel data.start = .ok none := by
  obtain ⟨cells, represents, cells_eq⟩ := refines
  rw [represents.start_eq, ← cells_eq, length_map]
  rcases seek_eq represents.segment key with ⟨front, cell, rest, rfl, isKey, unseen, seeks⟩ | ⟨unseen, seeks⟩
  · refine .inl ⟨front, cell, rest, represents, isKey, forall_mem_map.2 unseen, ?_, seeks⟩
    rw [map_append, map_cons]
  · exact .inr ⟨forall_mem_map.2 unseen, seeks⟩

theorem Refines.put {newNode : Nat} (fresh : data.node newNode = none) (key : κ) (value : ν) :
    ∃ data', (∀ fuel, map.data.length ≤ fuel → LinkedMap.put data fuel newNode key value = .ok data') ∧
      Refines data' (map.put key value) := by
  rcases refines.seek_cases key with ⟨front, cell, rest, represents, isKey, unseen, data_eq, seeks⟩ | ⟨unseen, seeks⟩
  · refine ⟨_, fun fuel enough => ?_, _, represents.put_data (cell.2.1, value), ?_⟩
    · rw [LinkedMap.put, seeks fuel enough, ok_bind]
      dsimp only
      rw [LinkedList.get_eq represents.segment.node_eq, ok_bind]
      rfl
    · rw [map.data_put_of_mem (by simp [data_eq, isKey]), data_eq, map_append, map_cons,
        Container.Map.replace_append unseen, Container.Map.replace_cons_self isKey]
  · obtain ⟨cells, represents, cells_eq⟩ := refines
    obtain ⟨data', push_eq, represents'⟩ := represents.pushFront fresh (key, value)
    have unknown : key ∉ map.data.map Prod.fst := by
      intro mem
      obtain ⟨pair, pairMem, isKey⟩ := mem_map.1 mem
      exact unseen pair pairMem isKey
    refine ⟨data', fun fuel enough => ?_, _, represents', ?_⟩
    · rw [LinkedMap.put, seeks fuel enough, ok_bind]
      exact push_eq
    · rw [map.data_put_of_not_mem unknown, map_cons, cells_eq]

theorem Refines.erase (key : κ) :
    ∃ data', (∀ fuel, map.data.length ≤ fuel → LinkedMap.erase data fuel key = .ok data') ∧
      Refines data' (map.erase key) := by
  rcases refines.seek_cases key with ⟨front, cell, rest, represents, isKey, unseen, data_eq, seeks⟩ | ⟨unseen, seeks⟩
  · obtain ⟨data', erase_eq, represents'⟩ := LinkedList.erase_eq represents
    refine ⟨data', fun fuel enough => ?_, _, represents', ?_⟩
    · rw [LinkedMap.erase, seeks fuel enough, ok_bind]
      exact erase_eq
    · rw [map.data_erase, data_eq, map_append, eraseP_append_right _ (by simpa using unseen),
        eraseP_cons_of_pos (by simpa using isKey)]
  · obtain ⟨cells, represents, cells_eq⟩ := refines
    refine ⟨data, fun fuel enough => ?_, cells, represents, ?_⟩
    · rw [LinkedMap.erase, seeks fuel enough, ok_bind]
      rfl
    · rw [map.data_erase, cells_eq, eraseP_of_forall_not (by simpa using unseen)]

theorem Refines.lookup (key : κ) {fuel : Nat} (enough : map.data.length ≤ fuel) :
    exists_ data fuel key = .ok (map.get? key).isSome ∧
      LinkedMap.get data fuel key = (map.get? key).elim (.error .panic) .ok := by
  unfold exists_ LinkedMap.get Container.Map.get?
  rcases refines.seek_cases key with ⟨front, cell, rest, represents, isKey, unseen, data_eq, seeks⟩ | ⟨unseen, seeks⟩
  · have found : map.data.find? (fun pair => pair.1 = key) = some cell.2 := by
      rw [data_eq, List.find?_append, List.find?_eq_none.2 (by simpa using unseen), Option.none_or,
        List.find?_cons_of_pos (by simpa using isKey)]
    rw [seeks fuel enough, ok_bind, ok_bind, found]
    dsimp only
    rw [LinkedList.get_eq represents.segment.node_eq]
    exact ⟨rfl, rfl⟩
  · rw [seeks fuel enough, ok_bind, ok_bind, List.find?_eq_none.2 (by simpa using unseen)]
    exact ⟨rfl, rfl⟩

theorem Refines.exec {op : MapOp κ ν} (valid : Valid data op) :
    ∃ data' map', Step data op data' ∧ Refines data' map' ∧ map'.get? = meaning map.get? op := by
  cases op with
  | put newNode key value =>
    obtain ⟨data', put_eq, refines'⟩ := refines.put valid key value
    refine ⟨data', _, ⟨valid, _, put_eq⟩, refines', ?_⟩
    funext other
    by_cases same : other = key
    · rw [same, map.get?_put_self, meaning, update_self]
    · rw [map.get?_put_of_ne same, meaning, update_of_ne same]
  | erase key =>
    obtain ⟨data', erase_eq, refines'⟩ := refines.erase key
    refine ⟨data', _, ⟨valid, _, erase_eq⟩, refines', ?_⟩
    funext other
    by_cases same : other = key
    · rw [same, map.get?_erase_self, meaning, update_self]
    · rw [map.get?_erase_of_ne same, meaning, update_of_ne same]

end Operations

/-! ## Runs -/

theorem Step.unique {op : MapOp κ ν} {first second : LinkedMap κ ν} (isFirst : Step data op first)
    (isSecond : Step data op second) : first = second := by
  obtain ⟨-, enough, first_eq⟩ := isFirst
  obtain ⟨-, enough', second_eq⟩ := isSecond
  exact Except.ok.inj ((first_eq _ (Nat.le_max_left enough enough')).symm.trans
    (second_eq _ (Nat.le_max_right enough enough')))

theorem Refines.step (refines : Refines data map) {op : MapOp κ ν} (step : Step data op data') :
    ∃ map', Refines data' map' ∧ map'.get? = meaning map.get? op := by
  obtain ⟨target, map', taken, refines', meaning_eq⟩ := refines.exec step.1
  rw [taken.unique step] at refines'
  exact ⟨map', refines', meaning_eq⟩

theorem refines_of_run {ops : List (MapOp κ ν)} (run : Run Step LinkedList.empty ops data) :
    ∃ map, Refines data map ∧ map.get? = ops.foldl meaning fun _ => none := by
  apply Run.history (fun ops data => ∃ map, Refines data map ∧ map.get? = ops.foldl meaning fun _ => none) _ run
  · exact ⟨Container.Map.empty, ⟨[], LinkedList.represents_empty, rfl⟩, rfl⟩
  · rintro ops op source target ⟨map, refines, meaning_eq⟩ step
    obtain ⟨map', refines', meaning_eq'⟩ := refines.step step
    refine ⟨map', refines', ?_⟩
    rw [meaning_eq', meaning_eq, foldl_append]
    rfl

theorem meaning_of_ne (map : κ → Option ν) {op : MapOp κ ν} {other : κ} (different : other ≠ op.key) :
    meaning map op other = map other := by
  cases op <;> exact update_of_ne different _ _

def Answers (data : LinkedMap κ ν) (key : κ) (answer : Option ν) : Prop :=
  ∃ enough, ∀ fuel, enough ≤ fuel → exists_ data fuel key = .ok answer.isSome ∧
    LinkedMap.get data fuel key = answer.elim (.error .panic) .ok

theorem Refines.answers (refines : Refines data map) (key : κ) : Answers data key (map.get? key) :=
  ⟨_, fun _ enough => refines.lookup key enough⟩

/-- A list is the sequence that the operations make, in both directions, and an operation on
it returns.  A map on such a list has every key once, answers as the finite map that the
operations make, and answers as before for every key but that of an operation. -/
theorem list_map_of_runs {T : Type u} :
    (∀ (ops : List (ListOp T)) (l : LinkedList T), Run LinkedList.Step .empty ops l →
      (l.start = none ↔ l.end_ = none) ∧ l.Forward (ops.foldl LinkedList.sequence []) ∧
      l.Backward (ops.foldl LinkedList.sequence []).reverse ∧
      ∀ op, l.Valid op → ∃ l', l.exec op = .ok l') ∧
    ∀ (ops : List (MapOp κ ν)) (data : LinkedMap κ ν), Run Step LinkedList.empty ops data →
      (∃ cells, data.Forward cells ∧ (cells.map fun cell => cell.2.1).Nodup) ∧
      (∀ key, Answers data key (ops.foldl meaning (fun _ => none) key)) ∧
      (∀ op, Valid data op → ∃ data', Step data op data') ∧
      ∀ op data', Step data op data' → ∀ other, other ≠ op.key →
        ∃ answer, Answers data other answer ∧ Answers data' other answer := by
  constructor
  · intro ops l run
    have represents := LinkedList.represents_of_run run
    refine ⟨?_, represents.forward, represents.backward, ?_⟩
    · rw [represents.start_eq, represents.end_eq]
      exact headOr_eq_none_iff
    · intro op valid
      obtain ⟨l', exec_eq, -⟩ := represents.exec valid
      exact ⟨l', exec_eq⟩
  · intro ops data run
    obtain ⟨map, refines, meaning_eq⟩ := refines_of_run run
    refine ⟨?_, ?_, ?_, ?_⟩
    · obtain ⟨cells, represents, cells_eq⟩ := refines
      have nodup := map.nodup
      rw [← cells_eq, List.map_map] at nodup
      exact ⟨cells, represents.forward, nodup⟩
    · intro key
      rw [← meaning_eq]
      exact refines.answers key
    · intro op valid
      obtain ⟨data', -, step, -⟩ := refines.exec valid
      exact ⟨data', step⟩
    · intro op data' step other different
      obtain ⟨map', refines', meaning_eq'⟩ := refines.step step
      refine ⟨map.get? other, refines.answers other, ?_⟩
      rw [← meaning_of_ne map.get? different, ← meaning_eq']
      exact refines'.answers other

end LinkedMap

end SysCore.Stl
