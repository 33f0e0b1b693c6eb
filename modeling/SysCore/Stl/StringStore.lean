import SysCore.Stl.Strings
import Mathlib.Logic.Function.Basic

/-!
# Sequences of operations on strings

A store of strings follows the contents that a list model gives as long as no operation
of four kinds is executed: a concatenation; an assignment of a string to itself, by
`String` or by `c_str`; and an append of a string to itself within its capacity.
-/

namespace SysCore.Stl

open Transition Container Function

abbrev Strings := Nat → Option Str

abbrev Contents := Nat → Option (List Char)

inductive Pointer where
  | text (text : CText)
  | cStr (id : Nat)

/-- A construction, an operation or the end of a string; the address of the string that
is constructed or changed comes first. -/
inductive Op where
  | empty (id : Nat)
  | sized (id length : Nat)
  | ofCStr (id : Nat) (pointer : Pointer)
  | copy (id source : Nat)
  | move (id source : Nat)
  | assign (id source : Nat)
  | assignCStr (id : Nat) (pointer : Pointer)
  | append (id source : Nat)
  | plus (id first second : Nat)
  | destroy (id : Nat)

namespace Strings

def Follow (s : Strings) (contents : Contents) : Prop :=
  ∀ id, Option.Rel Str.Holds (s id) (contents id)

def live (s : Strings) (id : Nat) : Outcome Str :=
  match s id with
  | some str => .ok str
  | none => .error .stray

def behind (s : Strings) : Pointer → Outcome (List Char)
  | .text text => .ok text.memory
  | .cStr id => do
    let str ← s.live id
    return str.memory

def put (s : Strings) (id : Nat) (str : Str) : Strings :=
  update s id (some str)

def operand (id source : Nat) (str : Str) : Operand :=
  if id = source then .itself else .other str

def exec (s : Strings) : Op → Outcome Strings
  | .empty id => .ok (s.put id Str.empty)
  | .sized id length => .ok (s.put id (Str.sized length))
  | .ofCStr id pointer => do
    let memory ← s.behind pointer
    let str ← Str.ofCStr memory
    return s.put id str
  | .copy id source => do
    let b ← s.live source
    let str ← b.copy
    return s.put id str
  | .move id source => do
    let b ← s.live source
    return (s.put id b).put source Str.empty
  | .assign id source => do
    let this ← s.live id
    let b ← s.live source
    let str ← this.assign (operand id source b)
    return s.put id str
  | .assignCStr id pointer => do
    -- the array is released before the pointer is read
    let memory ← behind (update s id none) pointer
    let str ← Str.ofCStr memory
    return s.put id str
  | .append id source => do
    let this ← s.live id
    let b ← s.live source
    let str ← this.append (operand id source b)
    return s.put id str
  | .plus id first second => do
    let this ← s.live first
    let b ← s.live second
    let str ← this.plus b
    return s.put id str
  | .destroy id => do
    let _ ← s.live id
    return update s id none

end Strings

namespace Contents

def behind (contents : Contents) : Pointer → Option (List Char)
  | .text text => some text.chars
  | .cStr id => (contents id).map (List.takeWhile (· ≠ nul))

def exec (contents : Contents) : Op → Contents
  | .empty id => update contents id (some [])
  | .sized id length => update contents id (some (List.replicate length nul))
  | .ofCStr id pointer => update contents id (contents.behind pointer)
  | .copy id source => update contents id (contents source)
  | .move id source => update (update contents id (contents source)) source (some [])
  | .assign id source => update contents id (contents source)
  | .assignCStr id pointer => update contents id (contents.behind pointer)
  | .append id source =>
    update contents id (do return (← contents id) ++ (← contents source))
  | .plus id first second =>
    update contents id (do return (← contents first) ++ (← contents second))
  | .destroy id => update contents id none

def Ready (contents : Contents) : Op → Prop
  | .empty id => contents id = none
  | .sized id _ => contents id = none
  | .ofCStr id pointer => contents id = none ∧ (contents.behind pointer).isSome
  | .copy id source => contents id = none ∧ (contents source).isSome
  | .move id source => contents id = none ∧ (contents source).isSome
  | .assign id source => (contents id).isSome ∧ (contents source).isSome
  | .assignCStr id pointer => (contents id).isSome ∧ (contents.behind pointer).isSome
  | .append id source => (contents id).isSome ∧ (contents source).isSome
  | .plus id first second => contents id = none ∧ (contents first).isSome ∧ (contents second).isSome
  | .destroy id => (contents id).isSome

end Contents

namespace Strings

def Safe (s : Strings) : Op → Prop
  | .assign id source => id ≠ source
  | .assignCStr id pointer => pointer ≠ .cStr id
  | .append id source => id = source → ∃ str, s id = some str ∧
      (str.length + str.length + 1 > str.capacity ∨ str.data[0]? = some (some nul))
  | .plus _ _ _ => False
  | _ => True

def Faithful (s : Strings) (contents : Contents) (op : Op) : Prop :=
  ∃ s', s.exec op = .ok s' ∧ s'.Follow (contents.exec op)

end Strings

/-! ## One operation -/

namespace Strings

variable {s : Strings} {contents : Contents} {id source : Nat} {str : Str} {chars : List Char}
  {pointer : Pointer} {chars' : List Char}

variable (follow : s.Follow contents)
include follow

theorem Follow.exists_str (found : contents id = some chars) :
    ∃ str, s id = some str ∧ str.Holds chars := by
  have related := follow id
  rw [found] at related
  generalize s id = object at related ⊢
  cases related with
  | some holds => exact ⟨_, rfl, holds⟩

theorem Follow.live (found : contents id = some chars) :
    ∃ str, s.live id = .ok str ∧ str.Holds chars := by
  rcases follow.exists_str found with ⟨str, object, holds⟩
  refine ⟨str, ?_, holds⟩
  unfold Strings.live
  rw [object]

theorem Follow.put (holds : str.Holds chars) :
    (s.put id str).Follow (update contents id (some chars)) := by
  intro other
  unfold Strings.put
  by_cases same : other = id
  · subst same
    rw [update_self, update_self]
    exact .some holds
  · rw [update_of_ne same, update_of_ne same]
    exact follow other

theorem Follow.erase : Follow (update s id none) (update contents id none) := by
  intro other
  by_cases same : other = id
  · subst same
    rw [update_self, update_self]
    exact .none
  · rw [update_of_ne same, update_of_ne same]
    exact follow other

omit follow in
theorem Follow.holds_put {s' : Strings} (follow : (s'.put id str).Follow contents)
    (found : contents id = some chars) : str.Holds chars := by
  rcases follow.exists_str found with ⟨object, object_eq, holds⟩
  unfold Strings.put at object_eq
  rw [update_self] at object_eq
  exact Option.some.inj object_eq ▸ holds

theorem Follow.behind (found : contents.behind pointer = some chars) :
    ∃ rest, s.behind pointer = .ok (chars ++ nul :: rest) ∧ nul ∉ chars := by
  cases pointer with
  | text text =>
    cases found
    exact ⟨[], rfl, text.nulFree⟩
  | cStr id =>
    rcases Option.map_eq_some_iff.1 found with ⟨content, content_eq, rfl⟩
    rcases follow.live content_eq with ⟨str, live, holds⟩
    rcases holds.memory_eq with ⟨rest, memory⟩
    refine ⟨rest, ?_, ?_⟩
    · rw [Strings.behind, live, ok_bind, memory]
      rfl
    · intro zero
      have notNul := List.mem_takeWhile_imp zero
      exact absurd rfl (of_decide_eq_true notNul)

theorem Follow.faithful_ofCStr (found : contents.behind pointer = some chars) :
    s.Faithful contents (.ofCStr id pointer) := by
  rcases follow.behind found with ⟨rest, read, nulFree⟩
  rcases Str.ofCStr_eq nulFree rest with ⟨str, made, holds⟩
  refine ⟨s.put id str, ?_, ?_⟩
  · rw [exec, read, ok_bind, made]
    rfl
  · rw [Contents.exec, found]
    exact follow.put holds

theorem Follow.faithful_copy (found : contents source = some chars) :
    s.Faithful contents (.copy id source) := by
  rcases follow.live found with ⟨b, live, holds⟩
  rcases holds.copy_eq with ⟨str, copied, holds'⟩
  refine ⟨s.put id str, ?_, ?_⟩
  · rw [exec, live, ok_bind, copied]
    rfl
  · rw [Contents.exec, found]
    exact follow.put holds'

theorem Follow.faithful_move (found : contents source = some chars) :
    s.Faithful contents (.move id source) := by
  rcases follow.live found with ⟨b, live, holds⟩
  refine ⟨(s.put id b).put source Str.empty, ?_, ?_⟩
  · rw [exec, live, ok_bind]
    rfl
  · rw [Contents.exec, found]
    exact (follow.put holds).put Str.holds_empty

theorem Follow.faithful_destroy (found : contents id = some chars) :
    s.Faithful contents (.destroy id) := by
  rcases follow.live found with ⟨str, live, -⟩
  refine ⟨update s id none, ?_, ?_⟩
  · rw [exec, live, ok_bind]
    rfl
  · exact follow.erase

theorem Follow.faithful_assign_iff (found : contents id = some chars)
    (found' : contents source = some chars') : s.Faithful contents (.assign id source) ↔ id ≠ source := by
  rcases follow.live found with ⟨this, live, -⟩
  rcases follow.live found' with ⟨b, live', holds'⟩
  constructor
  · rintro ⟨s', done, follow'⟩ same
    subst same
    rw [exec, live, ok_bind, ok_bind, operand, if_pos rfl, Str.assign_itself] at done
    have put_eq : s.put id _ = s' := Except.ok.inj done
    subst put_eq
    -- the zero at the end of the new array was never written
    have lost := (follow'.holds_put ((update_self ..).trans found)).terminated
    exact absurd lost (by simp [Block.fresh])
  · intro apart
    rcases holds'.assign_eq this with ⟨str, assigned, holds⟩
    refine ⟨s.put id str, ?_, ?_⟩
    · rw [exec, live, ok_bind, live', ok_bind, operand, if_neg apart, assigned]
      rfl
    · rw [Contents.exec, found']
      exact follow.put holds

theorem Follow.faithful_assignCStr_iff (found : contents.behind pointer = some chars) :
    s.Faithful contents (.assignCStr id pointer) ↔ pointer ≠ .cStr id := by
  constructor
  · rintro ⟨s', done, -⟩ same
    subst same
    rw [exec, Strings.behind, Strings.live, update_self] at done
    cases done
  · intro apart
    have found' : Contents.behind (update contents id none) pointer = some chars := by
      cases pointer with
      | text text => exact found
      | cStr other =>
        have differs : other ≠ id := fun same => apart (congrArg Pointer.cStr same)
        rw [Contents.behind, update_of_ne differs]
        exact found
    rcases follow.erase.behind found' with ⟨rest, read, nulFree⟩
    rcases Str.ofCStr_eq nulFree rest with ⟨str, made, holds⟩
    refine ⟨s.put id str, ?_, ?_⟩
    · rw [exec, read, ok_bind, made]
      rfl
    · rw [Contents.exec, found]
      exact follow.put holds

theorem Follow.faithful_append_iff (found : contents id = some chars)
    (found' : contents source = some chars') :
    s.Faithful contents (.append id source) ↔ s.Safe (.append id source) := by
  rcases follow.exists_str found with ⟨this, object, holds⟩
  rcases follow.exists_str found' with ⟨b, object', holds'⟩
  have run : s.exec (.append id source) = do
      let str ← this.append (operand id source b)
      return s.put id str := by
    rw [exec, Strings.live, object, ok_bind, Strings.live, object', ok_bind]
  have target : contents.exec (.append id source) = update contents id (some (chars ++ chars')) := by
    rw [Contents.exec, found, found']
    rfl
  -- both sides say that the method returns a string with the joined content
  have iff : s.Faithful contents (.append id source) ↔
      ∃ str, this.append (operand id source b) = .ok str ∧ str.Holds (chars ++ chars') := by
    unfold Faithful
    rw [run, target]
    constructor
    · rintro ⟨s', done, follow'⟩
      rcases bind_eq_ok.1 done with ⟨str, appended, done⟩
      have put_eq : s.put id str = s' := Except.ok.inj done
      subst put_eq
      exact ⟨str, appended, follow'.holds_put (update_self ..)⟩
    · rintro ⟨str, appended, holds''⟩
      refine ⟨s.put id str, ?_, follow.put holds''⟩
      rw [appended]
      rfl
  rw [iff]
  unfold operand
  by_cases same : id = source
  · subst same
    cases Option.some.inj (object.symm.trans object')
    cases Option.some.inj (found.symm.trans found')
    rw [if_pos rfl]
    have safe : s.Safe (.append id id) ↔
        (this.length + this.length + 1 > this.capacity ∨ this.data[0]? = some (some nul)) := by
      constructor
      · intro safe
        rcases safe rfl with ⟨str, str_eq, cond⟩
        cases Option.some.inj (object.symm.trans str_eq)
        exact cond
      · exact fun cond _ => ⟨this, object, cond⟩
    rw [safe]
    by_cases grows : this.length + this.length + 1 > this.capacity
    · exact iff_of_true (Str.append_grows holds holds grows) (.inl grows)
    · rw [Str.append_itself_iff holds grows, or_iff_right grows]
  · rw [if_neg same]
    exact iff_of_true (Str.append_other holds holds') fun equal => absurd equal same

theorem Follow.not_faithful_plus {first second : Nat} (found : contents first = some chars)
    (found' : contents second = some chars') : ¬ s.Faithful contents (.plus id first second) := by
  rcases follow.live found with ⟨this, live, holds⟩
  rcases follow.live found' with ⟨b, live', holds'⟩
  rintro ⟨s', done, -⟩
  rw [exec, live, ok_bind, live', ok_bind, Str.plus_stray holds holds', error_bind] at done
  cases done

theorem Follow.faithful_iff {op : Op} (ready : contents.Ready op) :
    s.Faithful contents op ↔ s.Safe op := by
  cases op with
  | empty id => exact iff_of_true ⟨_, rfl, follow.put Str.holds_empty⟩ trivial
  | sized id length => exact iff_of_true ⟨_, rfl, follow.put (Str.holds_sized length)⟩ trivial
  | ofCStr id pointer =>
    rcases Option.isSome_iff_exists.1 ready.2 with ⟨chars, found⟩
    exact iff_of_true (follow.faithful_ofCStr found) trivial
  | copy id source =>
    rcases Option.isSome_iff_exists.1 ready.2 with ⟨chars, found⟩
    exact iff_of_true (follow.faithful_copy found) trivial
  | move id source =>
    rcases Option.isSome_iff_exists.1 ready.2 with ⟨chars, found⟩
    exact iff_of_true (follow.faithful_move found) trivial
  | assign id source =>
    rcases Option.isSome_iff_exists.1 ready.1 with ⟨chars, found⟩
    rcases Option.isSome_iff_exists.1 ready.2 with ⟨chars', found'⟩
    exact follow.faithful_assign_iff found found'
  | assignCStr id pointer =>
    rcases Option.isSome_iff_exists.1 ready.2 with ⟨chars, found⟩
    exact follow.faithful_assignCStr_iff found
  | append id source =>
    rcases Option.isSome_iff_exists.1 ready.1 with ⟨chars, found⟩
    rcases Option.isSome_iff_exists.1 ready.2 with ⟨chars', found'⟩
    exact follow.faithful_append_iff found found'
  | plus id first second =>
    rcases Option.isSome_iff_exists.1 ready.2.1 with ⟨chars, found⟩
    rcases Option.isSome_iff_exists.1 ready.2.2 with ⟨chars', found'⟩
    exact iff_of_false (follow.not_faithful_plus found found') fun safe => safe
  | destroy id =>
    rcases Option.isSome_iff_exists.1 ready with ⟨chars, found⟩
    exact iff_of_true (follow.faithful_destroy found) trivial

end Strings

/-! ## Sequences of operations -/

def SafeStep (source : Strings × Contents) (op : Op) (target : Strings × Contents) : Prop :=
  source.2.Ready op ∧ source.1.Safe op ∧ source.1.exec op = .ok target.1 ∧ target.2 = source.2.exec op

def noStrings : Strings × Contents :=
  (fun _ => none, fun _ => none)

theorem SafeStep.follow {source target : Strings × Contents} {op : Op} (follow : source.1.Follow source.2)
    (step : SafeStep source op target) : target.1.Follow target.2 := by
  rcases step with ⟨ready, safe, executed, contents⟩
  rcases (follow.faithful_iff ready).2 safe with ⟨s', executed', follow'⟩
  rw [executed] at executed'
  rw [contents, Except.ok.inj executed']
  exact follow'

/-- After every sequence of safe operations each string is well formed and has the content
that the list operations give, and from there on an operation is right exactly if it is
safe. -/
theorem strings_faithful_iff {ops : List Op} {s : Strings} {contents : Contents}
    (run : Run SafeStep noStrings ops (s, contents)) :
    s.Follow contents ∧ ∀ op, contents.Ready op → (s.Faithful contents op ↔ s.Safe op) := by
  have follow : s.Follow contents :=
    run.invariant (fun {source _ _} (follow : source.1.Follow source.2) step => step.follow follow)
      fun _ => .none
  constructor
  · exact follow
  · intro op ready
    exact follow.faithful_iff ready

def oneString : Strings × Contents :=
  (noStrings.1.put 0 ⟨3, 2, [some 'a', some 'b', some nul]⟩, update noStrings.2 0 (some ['a', 'b']))

def twoStrings : Strings × Contents :=
  (oneString.1.put 1 Str.empty, update oneString.2 1 (some []))

def equalStrings : Strings × Contents :=
  (twoStrings.1.put 1 ⟨10, 2, some 'a' :: some 'b' :: List.replicate 8 (some nul)⟩,
    update twoStrings.2 1 (some ['a', 'b']))

theorem run_equalStrings : Run SafeStep noStrings
    [.ofCStr 0 (.text ⟨['a', 'b'], by decide⟩), .empty 1, .append 1 0] equalStrings := by
  have one : Run SafeStep noStrings [.ofCStr 0 (.text ⟨['a', 'b'], by decide⟩)] oneString :=
    .snoc .nil ⟨⟨rfl, rfl⟩, trivial, rfl, rfl⟩
  have two : Run SafeStep noStrings [.ofCStr 0 (.text ⟨['a', 'b'], by decide⟩), .empty 1] twoStrings :=
    .snoc one ⟨rfl, trivial, rfl, rfl⟩
  exact .snoc two ⟨⟨rfl, rfl⟩, fun same => absurd same (by decide), rfl, rfl⟩

theorem strings_faithful_iff_equal : equalStrings.1.Follow equalStrings.2 ∧
    ∀ op, equalStrings.2.Ready op → (equalStrings.1.Faithful equalStrings.2 op ↔ equalStrings.1.Safe op) :=
  strings_faithful_iff run_equalStrings

theorem strings_lose_content : Run SafeStep noStrings
      [.ofCStr 0 (.text ⟨['a', 'b'], by decide⟩), .empty 1, .append 1 0] equalStrings ∧
    equalStrings.1.exec (.plus 2 0 1) = .error .stray ∧
    (∃ s str, equalStrings.1.exec (.assign 0 0) = .ok s ∧ s 0 = some str ∧ str.data = [none, none, none]) ∧
    equalStrings.1.exec (.assignCStr 0 (.cStr 0)) = .error .stray ∧
    ∃ s str, equalStrings.1.exec (.append 1 1) = .ok s ∧ s 1 = some str ∧ str.length = 4 ∧
      str.data[4]? = some (some 'a') := by
  refine ⟨run_equalStrings, rfl, ?_, rfl, ?_⟩
  · exact ⟨_, ⟨3, 2, [none, none, none]⟩, rfl, rfl, rfl⟩
  · exact ⟨_, ⟨10, 4, [some 'a', some 'b', some 'a', some 'b', some 'a', some nul, some nul, some nul, some nul, some nul]⟩,
      rfl, rfl, rfl, rfl⟩

end SysCore.Stl
