import SysCore.Memory.Bytes
import SysCore.Transition.Outcome

/-!
# Stacks in byte memory

A stack has a region of memory and a pointer that moves down in it.  The pointer is
a 64-bit number and may leave the region; a store outside the region is a stray access.

What is pushed stays where it is: later pushes change bytes below it only, and so the
words pushed one after the other are read back upwards in the opposite order.
-/

namespace SysCore.Memory

open Transition List

/-! ## Rows of bytes and words -/

def copyBytes (m : Bytes) : (address : Nat) → List UInt8 → Bytes
  | _, [] => m
  | address, byte :: row => copyBytes (Function.update m address byte) (address + 1) row

def Carries (m : Bytes) (address : Nat) (row : List UInt8) : Prop :=
  ∀ i byte, row[i]? = some byte → m (address + i) = byte

def Spells (m : Bytes) : (address : Nat) → List Nat → Prop
  | _, [] => True
  | address, word :: words => readWord m address = word ∧ Spells m (address + 8) words

section Rows

variable {m m' : Bytes} {address : Nat}

theorem copyBytes_of_outside (m : Bytes) {address a : Nat} (row : List UInt8)
    (outside : a < address ∨ address + row.length ≤ a) : copyBytes m address row a = m a := by
  induction row generalizing m address with
  | nil => rfl
  | cons byte row ih =>
    rw [length_cons] at outside
    rw [copyBytes, ih _ (by omega), Function.update_of_ne (by omega)]

theorem carries_copyBytes (m : Bytes) (address : Nat) (row : List UInt8) :
    Carries (copyBytes m address row) address row := by
  induction row generalizing m address with
  | nil =>
    intro i byte stored
    cases stored
  | cons first row ih =>
    intro i byte stored
    rw [copyBytes]
    cases i with
    | zero =>
      rw [copyBytes_of_outside _ _ (by omega)]
      simpa using stored
    | succ i =>
      rw [List.getElem?_cons_succ] at stored
      rw [show address + (i + 1) = address + 1 + i by omega]
      exact ih _ _ i byte stored

theorem Carries.congr {row : List UInt8} (carries : Carries m address row)
    (agree : ∀ a, address ≤ a → m' a = m a) : Carries m' address row := by
  intro i byte stored
  rw [agree _ (by omega)]
  exact carries i byte stored

theorem Spells.congr {words : List Nat} (spells : Spells m address words)
    (agree : ∀ a, address ≤ a → m' a = m a) : Spells m' address words := by
  induction words generalizing address with
  | nil => trivial
  | cons word words ih =>
    constructor
    · rw [← spells.1]
      exact readWord_congr fun a lower _ => agree a lower
    · exact ih spells.2 fun a lower => agree a (by omega)

end Rows

structure Stack where
  low : Nat
  high : Nat
  sp : Nat
  bytes : Bytes

namespace Stack

def descend (s : Stack) (length : Int) : Stack :=
  { s with sp := ((s.sp - length) % 2 ^ 64).toNat }

def store (s : Stack) (count : Nat) (write : Bytes → Nat → Bytes) : Outcome Stack :=
  if count = 0 ∨ s.low ≤ s.sp ∧ s.sp + count ≤ s.high then
    .ok { s with bytes := write s.bytes s.sp }
  else
    .error .stray

def push (s : Stack) (count : Nat) (write : Bytes → Nat → Bytes) : Outcome Stack :=
  (s.descend count).store count write

def pushWord (s : Stack) (word : Nat) : Outcome Stack :=
  s.push 8 fun m a => writeWord m a word

def pushWords : List Nat → Stack → Outcome Stack
  | [], s => .ok s
  | word :: words, s => do
    let s ← s.pushWord word
    pushWords words s

def pushBelow (words : List Nat) (s : Stack) : Outcome Stack :=
  pushWords words (s.descend 8)

/-! ## What pushing changes -/

structure Grown (s s' : Stack) : Prop where
  low_eq : s'.low = s.low
  high_eq : s'.high = s.high
  sp_le : s'.sp ≤ s.sp
  frame : ∀ a, a < s'.sp ∨ s.sp ≤ a → s'.bytes a = s.bytes a

structure Ready (s : Stack) : Prop where
  margin : 16 ≤ s.low
  lower : s.low ≤ s.sp + 8
  upper : s.sp ≤ s.high
  bound : s.high ≤ 2 ^ 64

def Clear (s : Stack) : Prop :=
  ∀ a, s.low ≤ a → a < s.sp → s.bytes a = 0

section Grown

variable {s s' s'' : Stack}

theorem Grown.refl (s : Stack) : s.Grown s :=
  ⟨rfl, rfl, le_rfl, fun _ _ => rfl⟩

theorem Grown.trans (first : s.Grown s') (second : s'.Grown s'') : s.Grown s'' := by
  have lower := first.sp_le
  have lower' := second.sp_le
  refine ⟨second.low_eq.trans first.low_eq, second.high_eq.trans first.high_eq, lower'.trans lower, ?_⟩
  intro a outside
  rw [second.frame a (by omega), first.frame a (by omega)]

theorem Grown.of_le {sp : Nat} (sp_le : sp ≤ s.sp) : s.Grown { s with sp := sp } :=
  ⟨rfl, rfl, sp_le, fun _ _ => rfl⟩

theorem Grown.clear (grown : s.Grown s') (clear : s.Clear) : s'.Clear := by
  intro a lower upper
  have sp_le := grown.sp_le
  rw [grown.frame a (.inl upper)]
  exact clear a (grown.low_eq ▸ lower) (by omega)

theorem Grown.carries (grown : s.Grown s') {address : Nat} {row : List UInt8} (above : s.sp ≤ address)
    (carries : Carries s.bytes address row) : Carries s'.bytes address row :=
  carries.congr fun a lower => grown.frame a (.inr (above.trans lower))

theorem Grown.spells (grown : s.Grown s') {words : List Nat} (spells : Spells s.bytes s.sp words) :
    Spells s'.bytes s.sp words :=
  spells.congr fun a lower => grown.frame a (.inr lower)

end Grown

section Push

variable {s s' : Stack} {count : Nat} {words : List Nat}

section

variable (ready : s.Ready)
include ready

theorem descend_word (lower : s.low ≤ s.sp) :
    s.descend 8 = { s with sp := s.sp - 8 } ∧ (s.descend 8).Ready := by
  obtain ⟨margin, -, upper, bound⟩ := ready
  have descend_eq : s.descend 8 = { s with sp := s.sp - 8 } := by
    unfold descend
    congr 1
    omega
  rw [descend_eq]
  refine ⟨rfl, margin, ?_, ?_, bound⟩
  · dsimp only
    omega
  · dsimp only
    omega

theorem push_eq (pos : 0 < count) (count_le : count ≤ 2 ^ 64) (write : Bytes → Nat → Bytes) :
    s.push count write =
      if s.low + count ≤ s.sp then
        .ok { s with sp := s.sp - count, bytes := write s.bytes (s.sp - count) }
      else
        .error .stray := by
  obtain ⟨margin, lower, upper, bound⟩ := ready
  unfold push store descend
  by_cases room : s.low + count ≤ s.sp
  · have sp_eq : (((s.sp : Int) - count) % 2 ^ 64).toNat = s.sp - count := by omega
    rw [if_pos room, if_pos (by dsimp only; omega)]
    dsimp only
    rw [sp_eq]
  · -- Below zero the pointer comes out at the end of memory, outside of the region.
    rw [if_neg room, if_neg (by dsimp only; omega)]

theorem room_of_push (pos : 0 < count) (count_le : count ≤ 2 ^ 64) {write : Bytes → Nat → Bytes}
    (push_ok : s.push count write = .ok s') : s.low + count ≤ s.sp := by
  by_contra noRoom
  rw [push_eq ready pos count_le, if_neg noRoom] at push_ok
  cases push_ok

theorem push_of_room (pos : 0 < count) {write : Bytes → Nat → Bytes}
    (narrow : ∀ m a b, b < a ∨ a + count ≤ b → write m a b = m b) (room : s.low + count ≤ s.sp) :
    ∃ s', s.push count write = .ok s' ∧ s.Grown s' ∧ s'.Ready ∧ s'.sp + count = s.sp ∧
      s'.bytes = write s.bytes s'.sp := by
  have upper := ready.upper
  have bound := ready.bound
  have push_ok := push_eq ready pos (by omega) write
  rw [if_pos room] at push_ok
  obtain ⟨margin, lower, -, -⟩ := ready
  refine ⟨_, push_ok, ⟨rfl, rfl, Nat.sub_le _ _, ?_⟩, ⟨margin, ?_, ?_, bound⟩, ?_, rfl⟩
  · intro a outside
    dsimp only at outside
    exact narrow _ _ a (by omega)
  · dsimp only
    omega
  · dsimp only
    omega
  · dsimp only
    omega

omit ready in
theorem spells_skip (clear : s.Clear) (room : s.low + 8 ≤ s.sp) (spells : Spells s.bytes s.sp words) :
    Spells s.bytes (s.sp - 8) (0 :: words) := by
  constructor
  · exact readLE_eq_zero fun a lower upper => clear a (by omega) (by omega)
  · rw [show s.sp - 8 + 8 = s.sp by omega]
    exact spells

omit ready in
theorem pushWords_append (words more : List Nat) (s : Stack) :
    pushWords (words ++ more) s = pushWords words s >>= pushWords more := by
  induction words generalizing s with
  | nil => rfl
  | cons word words ih =>
    rw [cons_append, pushWords, pushWords]
    cases s.pushWord word with
    | error halt => rfl
    | ok s' => exact ih s'

theorem pushWord_of_room {word : Nat} (inRange : word < 2 ^ 64) (room : s.low + 8 ≤ s.sp) :
    ∃ s', s.pushWord word = .ok s' ∧ s.Grown s' ∧ s'.Ready ∧ s'.sp + 8 = s.sp ∧
      ∀ rest, Spells s.bytes s.sp rest → Spells s'.bytes s'.sp (word :: rest) := by
  obtain ⟨s', push_ok, grown, ready', sp_eq, bytes_eq⟩ := push_of_room ready (by omega)
    (fun m a b outside => writeWord_of_outside m word outside) room
  refine ⟨s', push_ok, grown, ready', sp_eq, ?_⟩
  intro rest spells
  constructor
  · rw [bytes_eq]
    exact readWord_writeWord _ _ inRange
  · rw [sp_eq]
    exact grown.spells spells

theorem pushWords_of_room (inRange : ∀ word ∈ words, word < 2 ^ 64)
    (room : words = [] ∨ s.low + 8 * words.length ≤ s.sp) :
    ∃ s', pushWords words s = .ok s' ∧ s.Grown s' ∧ s'.Ready ∧ s'.sp + 8 * words.length = s.sp ∧
      ∀ rest, Spells s.bytes s.sp rest → Spells s'.bytes s'.sp (words.reverse ++ rest) := by
  induction words generalizing s with
  | nil => exact ⟨s, rfl, .refl s, ready, rfl, fun _ spells => spells⟩
  | cons word words ih =>
    rw [length_cons] at room ⊢
    replace room : s.low + 8 * (words.length + 1) ≤ s.sp := room.resolve_left (cons_ne_nil _ _)
    obtain ⟨s₁, push_ok, grown₁, ready₁, sp_eq₁, spells₁⟩ :=
      pushWord_of_room ready (inRange word mem_cons_self) (by omega)
    have low_eq := grown₁.low_eq
    obtain ⟨s₂, pushWords_ok, grown₂, ready₂, sp_eq₂, spells₂⟩ :=
      ih ready₁ (fun other otherMem => inRange other (mem_cons_of_mem _ otherMem)) (.inr (by omega))
    refine ⟨s₂, ?_, grown₁.trans grown₂, ready₂, by omega, ?_⟩
    · rw [pushWords, push_ok]
      exact pushWords_ok
    · intro rest spells
      rw [reverse_cons, append_assoc]
      exact spells₂ (word :: rest) (spells₁ rest spells)

theorem room_of_pushWords (inRange : ∀ word ∈ words, word < 2 ^ 64)
    (pushWords_ok : pushWords words s = .ok s') :
    (words = [] ∨ s.low + 8 * words.length ≤ s.sp) ∧ s.Grown s' ∧ s'.Ready ∧
      s'.sp + 8 * words.length = s.sp := by
  have room : words = [] ∨ s.low + 8 * words.length ≤ s.sp := by
    induction words generalizing s with
    | nil => exact .inl rfl
    | cons word words ih =>
      obtain ⟨s₁, push_ok, rest_ok⟩ := bind_eq_ok.1 pushWords_ok
      have room := room_of_push ready (by omega) (by omega) push_ok
      obtain ⟨s₁', push_ok', grown, ready₁, sp_eq, -⟩ :=
        pushWord_of_room ready (inRange word mem_cons_self) room
      cases push_ok.symm.trans push_ok'
      have low_eq := grown.low_eq
      rw [length_cons]
      rcases ih ready₁ (fun other otherMem => inRange other (mem_cons_of_mem _ otherMem)) rest_ok with
        rfl | restRoom
      · exact .inr (by simpa using room)
      · exact .inr (by omega)
  obtain ⟨s'', pushWords_ok', grown, ready', sp_eq, -⟩ := pushWords_of_room ready inRange room
  cases pushWords_ok.symm.trans pushWords_ok'
  exact ⟨room, grown, ready', sp_eq⟩

theorem pushBelow_of_room (inRange : ∀ word ∈ words, word < 2 ^ 64)
    (room : s.low + 8 * (words.length + 1) ≤ s.sp) :
    ∃ s', pushBelow words s = .ok s' ∧ s.Grown s' ∧ s'.Ready ∧ s'.sp + 8 * (words.length + 1) = s.sp ∧
      (s.Clear → ∀ rest, Spells s.bytes s.sp rest → Spells s'.bytes s'.sp (words.reverse ++ 0 :: rest)) := by
  obtain ⟨descend_eq, ready'⟩ := descend_word ready (by omega)
  unfold pushBelow
  rw [descend_eq] at ready' ⊢
  obtain ⟨s', pushWords_ok, grown, ready'', sp_eq, spells⟩ :=
    pushWords_of_room ready' inRange (.inr (by dsimp only; omega))
  dsimp only at sp_eq
  refine ⟨s', pushWords_ok, (Grown.of_le (Nat.sub_le _ _)).trans grown, ready'', by omega, ?_⟩
  intro clear rest above
  exact spells (0 :: rest) (spells_skip clear (by omega) above)

theorem room_of_pushBelow (lower : s.low ≤ s.sp) (inRange : ∀ word ∈ words, word < 2 ^ 64)
    (nonempty : words ≠ []) (pushBelow_ok : pushBelow words s = .ok s') :
    s.low + 8 * (words.length + 1) ≤ s.sp ∧ s.Grown s' ∧ s'.Ready ∧
      s'.sp + 8 * (words.length + 1) = s.sp := by
  obtain ⟨descend_eq, ready'⟩ := descend_word ready lower
  have margin := ready.margin
  have room := (room_of_pushWords ready' inRange pushBelow_ok).1.resolve_left nonempty
  rw [descend_eq] at room
  dsimp only at room
  replace room : s.low + 8 * (words.length + 1) ≤ s.sp := by omega
  obtain ⟨s'', pushBelow_ok', grown, ready'', sp_eq, -⟩ := pushBelow_of_room ready inRange room
  cases pushBelow_ok.symm.trans pushBelow_ok'
  exact ⟨room, grown, ready'', sp_eq⟩

end

theorem sp_mod_of_pushWords (pushWords_ok : pushWords words s = .ok s') :
    s'.sp % 16 = (s.sp + 8 * words.length) % 16 := by
  induction words generalizing s with
  | nil =>
    cases pushWords_ok
    rfl
  | cons word words ih =>
    obtain ⟨s₁, push_ok, rest_ok⟩ := bind_eq_ok.1 pushWords_ok
    have sp_eq : s₁.sp = ((s.sp - 8) % 2 ^ 64 : Int).toNat := by
      unfold pushWord push store at push_ok
      split at push_ok
      · cases push_ok
        rfl
      · cases push_ok
    rw [ih rest_ok, length_cons]
    omega

theorem sp_mod_of_pushBelow (pushBelow_ok : pushBelow words s = .ok s') :
    s'.sp % 16 = (s.sp + 8 * (words.length + 1)) % 16 := by
  rw [sp_mod_of_pushWords pushBelow_ok]
  unfold descend
  dsimp only
  omega

end Push

end Stack

end SysCore.Memory
