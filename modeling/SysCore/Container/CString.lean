import SysCore.Transition.Outcome
import Mathlib.Data.List.TakeWhile

/-!
# Zero-terminated strings in buffers

A string is read from the memory behind a pointer, up to the first zero; reading
past the end of that memory is a stray access.  A buffer keeps its size, and a
write that does not fit into it is a stray access as well.
-/

namespace SysCore.Container

open Transition List

def nul : Char := '\x00'

structure CText where
  chars : List Char
  nulFree : nul ∉ chars

def CText.memory (text : CText) : List Char :=
  text.chars ++ [nul]

def readText (memory : List Char) : Outcome CText :=
  if nul ∈ memory then
    .ok ⟨memory.takeWhile (· ≠ nul), by
      intro isNul
      have notNul := mem_takeWhile_imp isNul
      exact absurd rfl (of_decide_eq_true notNul)⟩
  else
    .error .stray

def strlen : List Char → Outcome Nat
  | [] => .error .stray
  | char :: memory => if char = nul then .ok 0 else do
      let length ← strlen memory
      return length + 1

def strcmp : List Char → List Char → Outcome Int
  | first :: memory, second :: memory' =>
    if first ≠ second then .ok (if first < second then -1 else 1)
    else if first = nul then .ok 0
    else strcmp memory memory'
  | _, _ => .error .stray

def strpbrk (set : List Char) : List Char → Outcome (Option Nat)
  | [] => .error .stray
  | char :: memory =>
    if char = nul then .ok none
    else if char ∈ set then .ok (some 0)
    else do
      let found ← strpbrk set memory
      return found.map (· + 1)

structure Buffer (size : Nat) where
  chars : List Char
  length_eq : chars.length = size

namespace Buffer

variable {size : Nat}

def zero (size : Nat) : Buffer size :=
  ⟨List.replicate size nul, length_replicate⟩

def behind (buffer : Buffer size) (pos : Nat) : List Char :=
  buffer.chars.drop pos

def write (buffer : Buffer size) (pos : Nat) (chars : List Char) : Outcome (Buffer size) :=
  if fits : pos + chars.length ≤ size then
    .ok ⟨buffer.chars.take pos ++ chars ++ buffer.chars.drop (pos + chars.length), by
      have length_eq := buffer.length_eq
      simp only [length_append, length_take, length_drop]
      omega⟩
  else
    .error .stray

def strcpy (buffer : Buffer size) (pos : Nat) (source : List Char) : Outcome (Buffer size) := do
  let length ← strlen source
  let buffer ← buffer.write pos (source.take length)
  buffer.write (pos + length) [nul]

def append (buffer : Buffer size) (source : List Char) : Outcome (Buffer size) := do
  let length ← strlen buffer.chars
  buffer.strcpy length source

def strsep (buffer : Buffer size) (set : List Char) :
    Option Nat → Outcome (Option Nat × Option Nat × Buffer size)
  | none => .ok (none, none, buffer)
  | some start => do
    match ← strpbrk set (buffer.behind start) with
    | none => return (some start, none, buffer)
    | some offset => do
      let buffer ← buffer.write (start + offset) [nul]
      return (some start, some (start + offset + 1), buffer)

end Buffer

/-! ## Strings in memory -/

section Strings

variable {text other rest rest' : List Char}

variable (nulFree : nul ∉ text)
include nulFree

theorem strlen_text (rest : List Char) : strlen (text ++ nul :: rest) = .ok text.length := by
  induction text with
  | nil => rfl
  | cons char text ih =>
    rw [mem_cons, not_or] at nulFree
    rw [cons_append, strlen, if_neg (Ne.symm nulFree.1), ih nulFree.2]
    rfl

theorem readText_text (rest : List Char) : readText (text ++ nul :: rest) = .ok ⟨text, nulFree⟩ := by
  have kept : ∀ char ∈ text, decide (char ≠ nul) = true := by
    intro char charMem
    exact decide_eq_true fun isNul => nulFree (isNul ▸ charMem)
  unfold readText
  rw [if_pos (by simp)]
  congr 2
  rw [takeWhile_append_of_pos kept, takeWhile_cons_of_neg (by decide), append_nil]

theorem strcmp_text (nulFree' : nul ∉ other) (rest rest' : List Char) :
    ∃ order, strcmp (text ++ nul :: rest) (other ++ nul :: rest') = .ok order ∧ (order = 0 ↔ text = other) := by
  induction text generalizing other with
  | nil =>
    cases other with
    | nil => exact ⟨0, rfl, by simp⟩
    | cons char other =>
      rw [mem_cons, not_or] at nulFree'
      refine ⟨_, if_pos nulFree'.1, ?_⟩
      split <;> simp
  | cons char text ih =>
    rw [mem_cons, not_or] at nulFree
    cases other with
    | nil =>
      refine ⟨_, if_pos (Ne.symm nulFree.1), ?_⟩
      split <;> simp
    | cons char' other =>
      rw [mem_cons, not_or] at nulFree'
      by_cases same : char = char'
      · subst same
        obtain ⟨order, order_eq, order_iff⟩ := ih nulFree.2 nulFree'.2
        refine ⟨order, ?_, ?_⟩
        · rw [cons_append, cons_append, strcmp, if_neg (not_not_intro rfl),
            if_neg (Ne.symm nulFree.1), order_eq]
        · rw [order_iff, List.cons.injEq, and_iff_right rfl]
      · refine ⟨_, if_pos same, ?_⟩
        split <;> simp [same]

theorem strpbrk_none {set : List Char} (noneIn : ∀ char ∈ text, char ∉ set) (rest : List Char) :
    strpbrk set (text ++ nul :: rest) = .ok none := by
  induction text with
  | nil => rfl
  | cons char text ih =>
    rw [mem_cons, not_or] at nulFree
    have later := ih nulFree.2 fun other otherMem => noneIn other (mem_cons_of_mem _ otherMem)
    rw [cons_append, strpbrk, if_neg (Ne.symm nulFree.1), if_neg (noneIn char mem_cons_self), later]
    rfl

theorem strpbrk_some {set : List Char} {found : Char} (noneIn : ∀ char ∈ text, char ∉ set)
    (foundIn : found ∈ set) (notNul : found ≠ nul) (rest : List Char) :
    strpbrk set (text ++ found :: rest) = .ok (some text.length) := by
  induction text with
  | nil => rw [nil_append, strpbrk, if_neg notNul, if_pos foundIn, length_nil]
  | cons char text ih =>
    rw [mem_cons, not_or] at nulFree
    have later := ih nulFree.2 fun other otherMem => noneIn other (mem_cons_of_mem _ otherMem)
    rw [cons_append, strpbrk, if_neg (Ne.symm nulFree.1), if_neg (noneIn char mem_cons_self), later]
    rfl

end Strings

/-! ## Strings in buffers -/

namespace Buffer

variable {size : Nat} {buffer : Buffer size} {front text more rest source : List Char}

def Text (buffer : Buffer size) (text : List Char) : Prop :=
  nul ∉ text ∧ ∃ rest, buffer.chars = text ++ nul :: rest

theorem Text.length_lt (holds : buffer.Text text) : text.length < size := by
  obtain ⟨-, rest, chars_eq⟩ := holds
  have length_eq := buffer.length_eq
  rw [chars_eq, length_append, length_cons] at length_eq
  omega

theorem zero_text (pos : 0 < size) : (zero size).Text [] := by
  obtain ⟨size, rfl⟩ : ∃ less, size = less + 1 := ⟨size - 1, by omega⟩
  exact ⟨not_mem_nil, List.replicate size nul, rfl⟩

theorem behind_eq (chars_eq : buffer.chars = front ++ rest) : buffer.behind front.length = rest := by
  unfold behind
  rw [chars_eq, drop_left]

theorem write_eq (chars_eq : buffer.chars = front ++ text ++ rest) {chars : List Char}
    (length_eq : chars.length = text.length) :
    ∃ buffer', buffer.write front.length chars = .ok buffer' ∧ buffer'.chars = front ++ chars ++ rest := by
  have size_eq := buffer.length_eq
  rw [chars_eq, length_append, length_append] at size_eq
  have fits : front.length + chars.length ≤ size := by omega
  refine ⟨_, dif_pos fits, ?_⟩
  have front_eq : buffer.chars.take front.length = front := by rw [chars_eq, append_assoc, take_left]
  have rest_eq : buffer.chars.drop (front.length + chars.length) = rest := by
    rw [chars_eq, length_eq, ← length_append, drop_left]
  dsimp only
  rw [front_eq, rest_eq]

theorem strcpy_eq (chars_eq : buffer.chars = front ++ rest) (nulFree : nul ∉ text)
    (fits : front.length + text.length < size) (behind : List Char) :
    ∃ buffer', buffer.strcpy front.length (text ++ nul :: behind) = .ok buffer' ∧
      buffer'.chars = front ++ text ++ nul :: rest.drop (text.length + 1) := by
  have size_eq := buffer.length_eq
  rw [chars_eq, length_append] at size_eq
  obtain ⟨old, last, rest_eq, length_eq⟩ : ∃ old last, rest = old ++ last :: rest.drop (text.length + 1) ∧
      text.length = old.length := by
    refine ⟨rest.take text.length, rest.get ⟨text.length, by omega⟩, ?_, ?_⟩
    · rw [get_eq_getElem, ← drop_eq_getElem_cons, take_append_drop]
    · rw [length_take]
      omega
  have old_eq : buffer.chars = front ++ old ++ last :: rest.drop (text.length + 1) := by
    rw [chars_eq, append_assoc, ← rest_eq]
  obtain ⟨middle, middle_eq, middle_chars⟩ := write_eq old_eq length_eq
  have last_eq : middle.chars = (front ++ text) ++ [last] ++ rest.drop (text.length + 1) := by
    rw [middle_chars]
    simp
  obtain ⟨final, final_eq, final_chars⟩ := @write_eq _ _ _ _ _ last_eq [nul] rfl
  refine ⟨final, ?_, by rw [final_chars]; simp⟩
  unfold strcpy
  rw [strlen_text nulFree, ok_bind, take_left, middle_eq, ok_bind, ← length_append, final_eq]

theorem strcpy_stray (buffer : Buffer size) {pos : Nat} (nulFree : nul ∉ text)
    (tooLong : size ≤ pos + text.length) (behind : List Char) :
    buffer.strcpy pos (text ++ nul :: behind) = .error .stray := by
  unfold strcpy
  rw [strlen_text nulFree, ok_bind, take_left]
  unfold write
  split
  · rw [ok_bind, dif_neg]
    rw [length_singleton]
    omega
  · rfl

theorem strcpy_text (buffer : Buffer size) (nulFree : nul ∉ text) (fits : text.length < size)
    (behind : List Char) :
    ∃ buffer', buffer.strcpy 0 (text ++ nul :: behind) = .ok buffer' ∧ buffer'.Text text := by
  have fits' : ([] : List Char).length + text.length < size := by simpa using fits
  obtain ⟨buffer', copied, chars_eq⟩ := strcpy_eq (nil_append buffer.chars).symm nulFree fits' behind
  exact ⟨buffer', copied, nulFree, _, chars_eq⟩

theorem Text.append_eq (holds : buffer.Text text) (nulFree : nul ∉ more)
    (fits : text.length + more.length < size) (behind : List Char) :
    ∃ buffer', buffer.append (more ++ nul :: behind) = .ok buffer' ∧ buffer'.Text (text ++ more) := by
  obtain ⟨nulFree', rest, chars_eq⟩ := holds
  obtain ⟨buffer', copied, chars_eq'⟩ := strcpy_eq chars_eq nulFree fits behind
  refine ⟨buffer', ?_, ?_, _, chars_eq'⟩
  · unfold Buffer.append
    rw [chars_eq, strlen_text nulFree', ok_bind, copied]
  · rw [mem_append, not_or]
    exact ⟨nulFree', nulFree⟩

theorem Text.append_stray (holds : buffer.Text text) (nulFree : nul ∉ more)
    (tooLong : size ≤ text.length + more.length) (behind : List Char) :
    buffer.append (more ++ nul :: behind) = .error .stray := by
  obtain ⟨nulFree', rest, chars_eq⟩ := holds
  unfold Buffer.append
  rw [chars_eq, strlen_text nulFree', ok_bind, strcpy_stray buffer nulFree tooLong]

theorem Text.append_memory (holds : buffer.Text text) (more : CText) :
    if (text ++ more.chars).length < size then
      ∃ buffer', buffer.append more.memory = .ok buffer' ∧ buffer'.Text (text ++ more.chars)
    else buffer.append more.memory = .error .stray := by
  rw [length_append]
  split
  · rename_i fits
    exact holds.append_eq more.nulFree fits []
  · rename_i tooLong
    exact holds.append_stray more.nulFree (Nat.not_lt.1 tooLong) []

theorem strsep_last (chars_eq : buffer.chars = front ++ text ++ nul :: rest) {set : List Char}
    (nulFree : nul ∉ text) (noneIn : ∀ char ∈ text, char ∉ set) :
    buffer.strsep set (some front.length) = .ok (some front.length, none, buffer) := by
  rw [append_assoc] at chars_eq
  unfold strsep
  dsimp only
  rw [behind_eq chars_eq, strpbrk_none nulFree noneIn]
  rfl

theorem strsep_unit {sep : Char} (chars_eq : buffer.chars = front ++ text ++ sep :: rest) {set : List Char}
    (nulFree : nul ∉ text) (noneIn : ∀ char ∈ text, char ∉ set) (sepIn : sep ∈ set) (notNul : sep ≠ nul) :
    ∃ buffer', buffer.strsep set (some front.length) =
        .ok (some front.length, some (front ++ text ++ [nul]).length, buffer') ∧
      buffer'.chars = front ++ text ++ nul :: rest := by
  have chars_eq' : buffer.chars = (front ++ text) ++ [sep] ++ rest := by
    rw [chars_eq]
    simp
  rw [append_assoc] at chars_eq
  obtain ⟨buffer', written, chars_eq''⟩ := @write_eq _ _ _ _ _ chars_eq' [nul] rfl
  refine ⟨buffer', ?_, by rw [chars_eq'']; simp⟩
  unfold strsep
  dsimp only
  rw [behind_eq chars_eq, strpbrk_some nulFree noneIn sepIn notNul, ok_bind]
  dsimp only
  rw [← length_append, written, ok_bind, length_append, length_append, length_append]
  rfl

end Buffer

end SysCore.Container
