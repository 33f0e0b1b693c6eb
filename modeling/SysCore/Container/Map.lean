import Mathlib.Data.List.Nodup

/-!
# Association lists

A map is a list of pairs in which every key occurs once.  A new key goes to the
front, and a known one keeps its place.
-/

namespace SysCore.Container

open List

structure Map (κ ν : Type) where
  data : List (κ × ν)
  nodup : (data.map Prod.fst).Nodup

namespace Map

variable {κ ν : Type} [DecidableEq κ]

def empty : Map κ ν where
  data := []
  nodup := .nil

def replace (data : List (κ × ν)) (key : κ) (value : ν) : List (κ × ν) :=
  data.replaceF fun pair => if pair.1 = key then some (pair.1, value) else none

omit [DecidableEq κ] in
theorem map_fst_replaceF {data : List (κ × ν)} {change : κ × ν → Option (κ × ν)}
    (keeps : ∀ pair changed, change pair = some changed → changed.1 = pair.1) :
    (data.replaceF change).map Prod.fst = data.map Prod.fst := by
  induction data with
  | nil => rfl
  | cons pair rest ih =>
    cases changed_eq : change pair with
    | none => simp [changed_eq, ih]
    | some changed => simp [changed_eq, keeps pair changed changed_eq]

theorem map_fst_replace (data : List (κ × ν)) (key : κ) (value : ν) :
    (replace data key value).map Prod.fst = data.map Prod.fst := by
  refine map_fst_replaceF fun pair changed changed_eq => ?_
  split at changed_eq
  · cases changed_eq
    rfl
  · cases changed_eq

def put (map : Map κ ν) (key : κ) (value : ν) : Map κ ν :=
  if known : key ∈ map.data.map Prod.fst then
    { data := replace map.data key value
      nodup := (map_fst_replace map.data key value).symm ▸ map.nodup }
  else
    { data := (key, value) :: map.data
      nodup := nodup_cons.2 ⟨known, map.nodup⟩ }

def erase (map : Map κ ν) (key : κ) : Map κ ν where
  data := map.data.eraseP fun pair => pair.1 = key
  nodup := map.nodup.sublist (eraseP_sublist.map _)

def get? (map : Map κ ν) (key : κ) : Option ν :=
  (map.data.find? fun pair => pair.1 = key).map Prod.snd

theorem get?_erase_self (map : Map κ ν) (key : κ) : (map.erase key).get? key = none := by
  obtain ⟨data, nodup⟩ := map
  unfold erase get?
  induction data with
  | nil => rfl
  | cons pair rest ih =>
    obtain ⟨notMem, nodup⟩ := nodup_cons.1 nodup
    by_cases same : pair.1 = key
    · have absent : rest.find? (fun other => other.1 = key) = none := by
        rw [List.find?_eq_none]
        intro other mem isKey
        refine notMem (mem_map.2 ⟨other, mem, ?_⟩)
        exact (of_decide_eq_true isKey).trans same.symm
      simp [same, absent]
    · simpa [same] using ih nodup

section Lookup

variable {data : List (κ × ν)} {pair : κ × ν} {key other : κ} {value : ν}

theorem replace_cons_self (same : pair.1 = key) (rest : List (κ × ν)) (value : ν) :
    replace (pair :: rest) key value = (pair.1, value) :: rest :=
  replaceF_cons_of_some _ (if_pos same)

theorem replace_cons_of_ne (different : pair.1 ≠ key) (rest : List (κ × ν)) (value : ν) :
    replace (pair :: rest) key value = pair :: replace rest key value :=
  replaceF_cons_of_none _ (if_neg different)

theorem replace_append {front : List (κ × ν)} (unseen : ∀ pair ∈ front, pair.1 ≠ key) (rest : List (κ × ν))
    (value : ν) : replace (front ++ rest) key value = front ++ replace rest key value := by
  induction front with
  | nil => rfl
  | cons pair front ih =>
    rw [forall_mem_cons] at unseen
    rw [cons_append, replace_cons_of_ne unseen.1, ih unseen.2, cons_append]

theorem find?_replace_self (known : key ∈ data.map Prod.fst) (value : ν) :
    (replace data key value).find? (fun pair => pair.1 = key) = some (key, value) := by
  induction data with
  | nil => cases known
  | cons pair rest ih =>
    by_cases same : pair.1 = key
    · rw [replace_cons_self same, List.find?_cons_of_pos (by simpa using same), same]
    · have later : key ∈ rest.map Prod.fst := (mem_cons.1 known).resolve_left (Ne.symm same)
      rw [replace_cons_of_ne same, List.find?_cons_of_neg (by simpa using same), ih later]

theorem find?_replace_of_ne (different : other ≠ key) (data : List (κ × ν)) (value : ν) :
    (replace data key value).find? (fun pair => pair.1 = other) =
      data.find? (fun pair => pair.1 = other) := by
  induction data with
  | nil => rfl
  | cons pair rest ih =>
    by_cases same : pair.1 = key
    · have notOther : pair.1 ≠ other := fun isOther => different (isOther.symm.trans same)
      rw [replace_cons_self same, List.find?_cons_of_neg (by simpa using notOther),
        List.find?_cons_of_neg (by simpa using notOther)]
    · rw [replace_cons_of_ne same, List.find?_cons, List.find?_cons, ih]

theorem find?_eraseP_of_ne (different : other ≠ key) (data : List (κ × ν)) :
    (data.eraseP fun pair => pair.1 = key).find? (fun pair => pair.1 = other) =
      data.find? (fun pair => pair.1 = other) := by
  induction data with
  | nil => rfl
  | cons pair rest ih =>
    by_cases same : pair.1 = key
    · have notOther : pair.1 ≠ other := fun isOther => different (isOther.symm.trans same)
      rw [eraseP_cons_of_pos (by simpa using same), List.find?_cons_of_neg (by simpa using notOther)]
    · rw [eraseP_cons_of_neg (by simpa using same), List.find?_cons, List.find?_cons, ih]

theorem replace_eq_self (found : data.find? (fun pair => pair.1 = key) = some (key, value)) :
    replace data key value = data := by
  induction data with
  | nil => rfl
  | cons pair rest ih =>
    by_cases same : pair.1 = key
    · rw [List.find?_cons_of_pos (by simpa using same)] at found
      cases found
      exact replace_cons_self same rest value
    · rw [List.find?_cons_of_neg (by simpa using same)] at found
      rw [replace_cons_of_ne same, ih found]

end Lookup

variable (map : Map κ ν) {key other : κ} {value : ν}

theorem data_put_of_mem (known : key ∈ map.data.map Prod.fst) :
    (map.put key value).data = replace map.data key value := by
  unfold put
  rw [dif_pos known]

theorem data_put_of_not_mem (unknown : key ∉ map.data.map Prod.fst) :
    (map.put key value).data = (key, value) :: map.data := by
  unfold put
  rw [dif_neg unknown]

theorem data_erase : (map.erase key).data = map.data.eraseP fun pair => pair.1 = key :=
  rfl

theorem get?_put_self (key : κ) (value : ν) : (map.put key value).get? key = some value := by
  unfold put
  split
  · rename_i known
    exact congrArg (Option.map Prod.snd) (find?_replace_self known value)
  · simp [get?]

theorem get?_put_of_ne (different : other ≠ key) (value : ν) : (map.put key value).get? other = map.get? other := by
  unfold put
  split
  · exact congrArg (Option.map Prod.snd) (find?_replace_of_ne different map.data value)
  · simp [get?, Ne.symm different]

theorem get?_erase_of_ne (different : other ≠ key) : (map.erase key).get? other = map.get? other := by
  unfold erase get?
  rw [find?_eraseP_of_ne different]

theorem put_eq_self_iff : map.put key value = map ↔ map.get? key = some value := by
  constructor
  · intro same
    rw [← same, get?_put_self]
  · intro found
    obtain ⟨pair, isFound, rfl⟩ := Option.map_eq_some_iff.1 found
    have isKey : pair.1 = key := by simpa using List.find?_some isFound
    have known : key ∈ map.data.map Prod.fst := isKey ▸ mem_map_of_mem (mem_of_find?_eq_some isFound)
    unfold put
    rw [dif_pos known]
    have found' : map.data.find? (fun pair => pair.1 = key) = some (key, pair.2) := by
      rw [isFound, ← isKey]
    obtain ⟨data, nodup⟩ := map
    congr 1
    exact replace_eq_self found'

end Map

end SysCore.Container
