import Mathlib.Data.List.Infix

/-!
# The trie

A node has the unit that leads to it, the data of the word that ends in it and the list of
its children, in which a child is looked for from the start.  The words are lists of units
of any type with an equality.

After any sequence of insertions `fullMatch` is the map of the last insertions, and
`firstMatch` finds the shortest word but the empty one that its argument begins with and
takes it off.
-/

namespace SysCore.Stl

open List

universe u v

inductive Trie (U : Type u) (T : Type v) where
  | node (character : U) (data : Option T) (isEnd : Bool) (children : List (Trie U T))

namespace Trie

variable {U : Type u} {T : Type v}

def character : Trie U T → U
  | .node character _ _ _ => character

def data : Trie U T → Option T
  | .node _ data _ _ => data

def isEnd : Trie U T → Bool
  | .node _ _ isEnd _ => isEnd

def children : Trie U T → List (Trie U T)
  | .node _ _ _ children => children

def new (c : U) : Trie U T :=
  .node c none false []

def empty [Inhabited U] : Trie U T :=
  new default

variable [DecidableEq U]

def findChild (children : List (Trie U T)) (c : U) : Option (Trie U T) :=
  children.find? fun child => c = child.character

def pushMissing (children : List (Trie U T)) (c : U) : List (Trie U T) :=
  match findChild children c with
  | some _ => children
  | none => children ++ [new c]

def modifyChild (f : Trie U T → Trie U T) (c : U) : List (Trie U T) → List (Trie U T)
  | [] => []
  | child :: children =>
    if c = child.character then f child :: children else child :: modifyChild f c children

def insert : List U → T → Trie U T → Trie U T
  | [], endData, .node character _ _ children => .node character (some endData) true children
  | c :: word, endData, .node character data isEnd children =>
    .node character data isEnd (modifyChild (insert word endData) c (pushMissing children c))

def firstMatchLoop (node : Trie U T) : List U → Nat → List U → Option T × List U
  | [], _, word => (none, word)
  | c :: wordHead, count, word =>
    match findChild node.children c with
    | none => (none, word)
    | some target =>
      if target.isEnd then (target.data, word.drop (count + 1))
      else firstMatchLoop target wordHead (count + 1) word

def firstMatch (node : Trie U T) (word : List U) : Option T × List U :=
  firstMatchLoop node word 0 word

def fullMatch (node : Trie U T) : List U → Option T
  | [] => node.data
  | c :: word =>
    match findChild node.children c with
    | none => none
    | some target => fullMatch target word

def build [Inhabited U] (inserts : List (List U × T)) : Trie U T :=
  inserts.foldl (fun node word => insert word.1 word.2 node) empty

/-! ## The map -/

def lastInsert (inserts : List (List U × T)) (word : List U) : Option T :=
  (inserts.reverse.find? fun entry => entry.1 = word).map Prod.snd

def IsFirstMatch (map : List U → Option T) (word : List U) (result : Option T × List U) : Prop :=
  (∃ front rest found, word = front ++ rest ∧ front ≠ [] ∧ map front = some found ∧ result = (some found, rest) ∧
    ∀ shorter, shorter <+: front → shorter ≠ [] → shorter ≠ front → map shorter = none) ∨
  ((∀ front, front <+: word → front ≠ [] → map front = none) ∧ result = (none, word))

def endsAt (node : Trie U T) : List U → Bool
  | [] => node.isEnd
  | c :: word =>
    match findChild node.children c with
    | none => false
    | some target => endsAt target word

/-! ## One insertion -/

omit [DecidableEq U] in
theorem character_new (c : U) : (new c : Trie U T).character = c :=
  rfl

theorem character_insert (word : List U) (endData : T) (node : Trie U T) :
    (insert word endData node).character = node.character := by
  cases node
  cases word <;> rfl

def childOrNew (children : List (Trie U T)) (c : U) : Trie U T :=
  (findChild children c).getD (new c)

theorem findChild_pushMissing (children : List (Trie U T)) (c other : U) :
    findChild (pushMissing children c) other =
      if other = c then some (childOrNew children c) else findChild children other := by
  unfold pushMissing childOrNew
  cases found : findChild children c with
  | some child =>
    by_cases same : other = c
    · rw [if_pos same, same]
      exact found
    · rw [if_neg same]
  | none =>
    by_cases same : other = c
    · subst same
      unfold findChild at found ⊢
      rw [if_pos rfl, List.find?_append, found]
      simp [character_new]
    · unfold findChild
      rw [if_neg same, List.find?_append]
      simp [character_new, same]

theorem findChild_cons (child : Trie U T) (children : List (Trie U T)) (c : U) :
    findChild (child :: children) c = if c = child.character then some child else findChild children c := by
  unfold findChild
  rw [List.find?_cons]
  by_cases here : c = child.character
  · simp [here]
  · simp [here]

theorem findChild_modifyChild {f : Trie U T → Trie U T} (keeps : ∀ node, (f node).character = node.character)
    (children : List (Trie U T)) (c other : U) :
    findChild (modifyChild f c children) other =
      if other = c then (findChild children c).map f else findChild children other := by
  induction children with
  | nil => simp [modifyChild, findChild]
  | cons child children ih =>
    rw [modifyChild]
    by_cases here : c = child.character
    · subst here
      rw [if_pos rfl, findChild_cons, findChild_cons, findChild_cons, keeps, if_pos rfl]
      by_cases same : other = child.character
      · rw [if_pos same, if_pos same]
        rfl
      · rw [if_neg same, if_neg same, if_neg same]
    · rw [if_neg here, findChild_cons, findChild_cons, findChild_cons, if_neg here, ih]
      by_cases same : other = c
      · subst same
        rw [if_neg here, if_pos rfl, if_pos rfl]
      · rw [if_neg same, if_neg same]

theorem findChild_insert (word : List U) (endData : T) (children : List (Trie U T)) (c other : U) :
    findChild (modifyChild (insert word endData) c (pushMissing children c)) other =
      if other = c then some (insert word endData (childOrNew children c)) else findChild children other := by
  rw [findChild_modifyChild (character_insert word endData), findChild_pushMissing, findChild_pushMissing,
    if_pos rfl]
  by_cases same : other = c
  · rw [if_pos same, if_pos same]
    rfl
  · rw [if_neg same, if_neg same, if_neg same]

theorem fullMatch_new (c : U) (word : List U) : (new c : Trie U T).fullMatch word = none := by
  cases word <;> rfl

theorem endsAt_new (c : U) (word : List U) : (new c : Trie U T).endsAt word = false := by
  cases word <;> rfl

theorem fullMatch_cons (node : Trie U T) (c : U) (word : List U) :
    node.fullMatch (c :: word) = (childOrNew node.children c).fullMatch word := by
  rw [fullMatch, childOrNew]
  cases findChild node.children c with
  | none => exact (fullMatch_new c word).symm
  | some target => rfl

theorem endsAt_cons (node : Trie U T) (c : U) (word : List U) :
    node.endsAt (c :: word) = (childOrNew node.children c).endsAt word := by
  rw [endsAt, childOrNew]
  cases findChild node.children c with
  | none => exact (endsAt_new c word).symm
  | some target => rfl

theorem childOrNew_insert (node : Trie U T) (c other : U) (word : List U) (endData : T) :
    childOrNew (insert (c :: word) endData node).children other =
      if other = c then insert word endData (childOrNew node.children c) else childOrNew node.children other := by
  cases node with
  | node character data isEnd children =>
    rw [insert, childOrNew, Trie.children, findChild_insert]
    by_cases same : other = c
    · rw [if_pos same, if_pos same]
      rfl
    · rw [if_neg same, if_neg same]
      rfl

theorem fullMatch_insert (word : List U) (endData : T) (node : Trie U T) (query : List U) :
    (insert word endData node).fullMatch query = if query = word then some endData else node.fullMatch query := by
  induction word generalizing node query with
  | nil =>
    cases node
    cases query <;> simp [insert, fullMatch, data, children]
  | cons c word ih =>
    cases query with
    | nil =>
      cases node
      simp [insert, fullMatch, data]
    | cons other query =>
      rw [fullMatch_cons, fullMatch_cons, childOrNew_insert]
      by_cases same : other = c
      · subst same
        rw [if_pos rfl, ih]
        simp
      · rw [if_neg same, if_neg fun equal => same (List.cons.inj equal).1]

theorem endsAt_insert (word : List U) (endData : T) (node : Trie U T) (query : List U) :
    (insert word endData node).endsAt query = if query = word then true else node.endsAt query := by
  induction word generalizing node query with
  | nil =>
    cases node
    cases query <;> simp [insert, endsAt, isEnd, children]
  | cons c word ih =>
    cases query with
    | nil =>
      cases node
      simp [insert, endsAt, isEnd]
    | cons other query =>
      rw [endsAt_cons, endsAt_cons, childOrNew_insert]
      by_cases same : other = c
      · subst same
        rw [if_pos rfl, ih]
        simp
      · rw [if_neg same, if_neg fun equal => same (List.cons.inj equal).1]

/-! ## Sequences of insertions -/

section Build

variable [Inhabited U]

variable (inserts : List (List U × T))
include inserts

theorem build_append (entry : List U × T) :
    build (inserts ++ [entry]) = insert entry.1 entry.2 (build inserts) := by
  unfold build
  rw [foldl_append]
  rfl

omit [Inhabited U] in
theorem lastInsert_append (entry : List U × T) (word : List U) :
    lastInsert (inserts ++ [entry]) word = if word = entry.1 then some entry.2 else lastInsert inserts word := by
  unfold lastInsert
  rw [reverse_append, reverse_singleton, singleton_append, List.find?_cons]
  by_cases same : word = entry.1
  · simp [same]
  · simp [same, Ne.symm same]

theorem fullMatch_build (word : List U) : (build inserts).fullMatch word = lastInsert inserts word := by
  induction inserts using List.reverseRecOn with
  | nil => exact fullMatch_new default word
  | append_singleton inserts entry ih => rw [build_append, fullMatch_insert, lastInsert_append, ih]

theorem endsAt_build (word : List U) :
    (build inserts).endsAt word = (lastInsert inserts word).isSome := by
  induction inserts using List.reverseRecOn with
  | nil => exact endsAt_new default word
  | append_singleton inserts entry ih =>
    rw [build_append, endsAt_insert, lastInsert_append, ih]
    split <;> rfl

end Build

/-! ## The first match -/

theorem endsAt_of_findChild {node target : Trie U T} {c : U} (found : findChild node.children c = some target)
    (word : List U) : node.endsAt (c :: word) = target.endsAt word := by
  rw [endsAt, found]

theorem endsAt_shorter {node target : Trie U T} {c : U} (found : findChild node.children c = some target)
    (unmarked : target.isEnd = false) {front : List U} {P : List U → Prop}
    (below : ∀ shorter, shorter <+: front → shorter ≠ [] → P (c :: shorter) → target.endsAt shorter = false)
    (shorter : List U) (isFront : shorter <+: c :: front) (nonempty : shorter ≠ []) (holds : P shorter) :
    node.endsAt shorter = false := by
  cases shorter with
  | nil => exact absurd rfl nonempty
  | cons other shorter =>
    rcases cons_prefix_cons.1 isFront with ⟨rfl, behind⟩
    rw [endsAt_of_findChild found]
    by_cases last : shorter = []
    · rw [last]
      exact unmarked
    · exact below shorter behind last holds

theorem firstMatchLoop_cases (node : Trie U T) (wordHead : List U) (count : Nat) (word : List U) :
    (∃ front rest, wordHead = front ++ rest ∧ front ≠ [] ∧ node.endsAt front = true ∧
      firstMatchLoop node wordHead count word = (node.fullMatch front, word.drop (count + front.length)) ∧
      ∀ shorter, shorter <+: front → shorter ≠ [] → shorter ≠ front → node.endsAt shorter = false) ∨
    ((∀ front, front <+: wordHead → front ≠ [] → node.endsAt front = false) ∧
      firstMatchLoop node wordHead count word = (none, word)) := by
  induction wordHead generalizing node count with
  | nil =>
    right
    constructor
    · intro front isFront nonempty
      exact absurd (prefix_nil.1 isFront) nonempty
    · rfl
  | cons c wordHead ih =>
    rw [firstMatchLoop]
    cases found : findChild node.children c with
    | none =>
      right
      refine ⟨?_, rfl⟩
      intro front isFront nonempty
      cases front with
      | nil => exact absurd rfl nonempty
      | cons other front => rw [(cons_prefix_cons.1 isFront).1, endsAt, found]
    | some target =>
      dsimp only
      by_cases marked : target.isEnd = true
      · left
        refine ⟨[c], wordHead, rfl, cons_ne_nil _ _, ?_, ?_, ?_⟩
        · rw [endsAt_of_findChild found]
          exact marked
        · rw [if_pos marked, fullMatch, found]
          rfl
        · intro shorter isFront nonempty proper
          cases shorter with
          | nil => exact absurd rfl nonempty
          | cons other shorter =>
            rcases cons_prefix_cons.1 isFront with ⟨rfl, behind⟩
            exact absurd (congrArg (other :: ·) (prefix_nil.1 behind)) proper
      · rw [if_neg marked]
        have unmarked : target.isEnd = false := Bool.not_eq_true _ ▸ marked
        rcases ih target (count + 1) with ⟨front, rest, split, nonempty, ends, loop, first⟩ | ⟨never, loop⟩
        · left
          refine ⟨c :: front, rest, congrArg (c :: ·) split, cons_ne_nil _ _, ?_, ?_, ?_⟩
          · rw [endsAt_of_findChild found]
            exact ends
          · rw [loop, fullMatch, found, length_cons, Nat.add_right_comm, Nat.add_assoc]
          · apply endsAt_shorter found unmarked
            intro shorter isFront some_unit proper
            exact first shorter isFront some_unit fun same => proper (congrArg (c :: ·) same)
        · right
          refine ⟨?_, loop⟩
          intro front isFront nonempty
          exact @endsAt_shorter _ _ _ node target c found unmarked wordHead (fun _ => True)
            (fun shorter isFront some_unit _ => never shorter isFront some_unit) front isFront nonempty trivial

/-- The trie is a finite map with a lookup of the shortest word that a word begins with. -/
theorem matches_lastInsert [Inhabited U] (inserts : List (List U × T)) (word : List U) :
    (build inserts).fullMatch word = lastInsert inserts word ∧
      IsFirstMatch (lastInsert inserts) word ((build inserts).firstMatch word) := by
  constructor
  · exact fullMatch_build inserts word
  · unfold firstMatch
    have unmarked : ∀ other, (build inserts).endsAt other = false → lastInsert inserts other = none := by
      intro other ends
      rw [endsAt_build] at ends
      exact Option.isSome_eq_false_iff.1 ends |> Option.isNone_iff_eq_none.1
    rcases firstMatchLoop_cases (build inserts) word 0 word with
      ⟨front, rest, split, nonempty, ends, loop, first⟩ | ⟨never, loop⟩
    · left
      rw [endsAt_build] at ends
      rcases Option.isSome_iff_exists.1 ends with ⟨found, found_eq⟩
      refine ⟨front, rest, found, split, nonempty, found_eq, ?_, ?_⟩
      · rw [loop, fullMatch_build, found_eq, split, Nat.zero_add, drop_left]
      · intro shorter isFront some_unit proper
        exact unmarked shorter (first shorter isFront some_unit proper)
    · right
      refine ⟨?_, loop⟩
      intro front isFront nonempty
      exact unmarked front (never front isFront nonempty)

end Trie

end SysCore.Stl
