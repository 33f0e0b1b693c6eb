import Mathlib.Logic.Function.Basic
import Mathlib.Algebra.Order.Ring.Nat

/-!
# Byte memory

Physical memory as a function from addresses to bytes, with little-endian words
and whole pages on top.  Reads depend on the bytes they cover only, so every
write comes with the range outside which it changes nothing.
-/

namespace SysCore.Memory

open Function

abbrev Bytes := Nat → UInt8

def readLE (m : Bytes) : (n address : Nat) → Nat
  | 0, _ => 0
  | n + 1, address => (m address).toNat + 256 * readLE m n (address + 1)

def writeLE (m : Bytes) : (n address value : Nat) → Bytes
  | 0, _, _ => m
  | n + 1, address, value =>
    update (writeLE m n (address + 1) (value / 256)) address (UInt8.ofNat value)

variable {m m' : Bytes} {n address a value page : Nat}

theorem readLE_congr (agree : ∀ a, address ≤ a → a < address + n → m a = m' a) :
    readLE m n address = readLE m' n address := by
  induction n generalizing address with
  | zero => rfl
  | succ n ih =>
    rw [readLE, readLE, agree address le_rfl (by omega), ih]
    intro a lower upper
    exact agree a (by omega) (by omega)

theorem writeLE_of_outside (m : Bytes) (value : Nat) (outside : a < address ∨ address + n ≤ a) :
    writeLE m n address value a = m a := by
  induction n generalizing address value with
  | zero => rfl
  | succ n ih =>
    rw [writeLE, update_of_ne (by omega)]
    exact ih _ (by omega)

theorem readLE_writeLE (m : Bytes) (n address value : Nat) :
    readLE (writeLE m n address value) n address = value % 256 ^ n := by
  induction n generalizing address value with
  | zero => simp [readLE, Nat.mod_one]
  | succ n ih =>
    have rest : readLE (writeLE m (n + 1) address value) n (address + 1) =
        readLE (writeLE m n (address + 1) (value / 256)) n (address + 1) := by
      refine readLE_congr fun a lower upper => ?_
      rw [writeLE, update_of_ne (by omega)]
    rw [readLE, rest, ih]
    simp only [writeLE, update_self, UInt8.toNat_ofNat']
    calc value % 2 ^ 8 + 256 * (value / 256 % 256 ^ n) = value % (256 * 256 ^ n) := Nat.mod_mul.symm
      _ = value % 256 ^ (n + 1) := by rw [pow_succ']

def readWord (m : Bytes) (address : Nat) : Nat :=
  readLE m 8 address

def writeWord (m : Bytes) (address value : Nat) : Bytes :=
  writeLE m 8 address value

theorem readWord_congr (agree : ∀ a, address ≤ a → a < address + 8 → m a = m' a) :
    readWord m address = readWord m' address :=
  readLE_congr agree

theorem writeWord_of_outside (m : Bytes) (value : Nat) (outside : a < address ∨ address + 8 ≤ a) :
    writeWord m address value a = m a :=
  writeLE_of_outside m value outside

theorem writeLE_congr (same : m a = m' a) :
    writeLE m n address value a = writeLE m' n address value a := by
  induction n generalizing address value with
  | zero => exact same
  | succ n ih => rw [writeLE, writeLE, update_apply, update_apply, ih]

theorem writeWord_congr (same : m a = m' a) :
    writeWord m address value a = writeWord m' address value a :=
  writeLE_congr same

theorem readWord_writeWord (m : Bytes) (address : Nat) (value_lt : value < 2 ^ 64) :
    readWord (writeWord m address value) address = value := by
  rw [readWord, writeWord, readLE_writeLE]
  exact Nat.mod_eq_of_lt value_lt

theorem readWord_writeWord_of_disjoint (m : Bytes) {other : Nat} (value : Nat)
    (disjoint : other + 8 ≤ address ∨ address + 8 ≤ other) :
    readWord (writeWord m address value) other = readWord m other := by
  refine readWord_congr fun a lower upper => ?_
  exact writeWord_of_outside m value (by omega)

def writeWords (m : Bytes) : (address : Nat) → List Nat → Bytes
  | _, [] => m
  | address, value :: values => writeWords (writeWord m address value) (address + 8) values

theorem writeWords_of_outside (m : Bytes) (values : List Nat)
    (outside : a < address ∨ address + 8 * values.length ≤ a) : writeWords m address values a = m a := by
  induction values generalizing m address with
  | nil => rfl
  | cons value values ih =>
    rw [List.length_cons] at outside
    rw [writeWords, ih _ (by omega), writeWord_of_outside m value (by omega)]

theorem writeWords_append (m : Bytes) (address : Nat) (values more : List Nat) :
    writeWords m address (values ++ more) =
      writeWords (writeWords m address values) (address + 8 * values.length) more := by
  induction values generalizing m address with
  | nil => rfl
  | cons value values ih =>
    rw [List.cons_append, writeWords, ih, writeWords, List.length_cons]
    congr 1
    omega

theorem readWord_writeWords (m : Bytes) (address : Nat) {values : List Nat} {i : Nat}
    (stored : values[i]? = some value) (value_lt : value < 2 ^ 64) :
    readWord (writeWords m address values) (address + 8 * i) = value := by
  induction values generalizing m address i with
  | nil => cases stored
  | cons first rest ih =>
    cases i with
    | zero =>
      obtain rfl : first = value := by simpa using stored
      have kept : readWord (writeWords m address (first :: rest)) address =
          readWord (writeWord m address first) address := by
        refine readWord_congr fun a lower upper => ?_
        rw [writeWords, writeWords_of_outside _ _ (by omega)]
      rw [Nat.mul_zero, Nat.add_zero, kept, readWord_writeWord m address value_lt]
    | succ i =>
      rw [List.getElem?_cons_succ] at stored
      have later := ih (writeWord m address first) (address + 8) stored
      rw [writeWords, show address + 8 * (i + 1) = address + 8 + 8 * i by omega, later]

def fillPage (m : Bytes) (page : Nat) (image : Nat → UInt8) : Bytes :=
  fun a => if page ≤ a ∧ a < page + 4096 then image (a - page) else m a

theorem fillPage_of_outside (m : Bytes) (image : Nat → UInt8) (outside : a < page ∨ page + 4096 ≤ a) :
    fillPage m page image a = m a :=
  if_neg (by omega)

theorem fillPage_inside (m : Bytes) {offset : Nat} (image : Nat → UInt8) (offset_lt : offset < 4096) :
    fillPage m page image (page + offset) = image offset := by
  rw [fillPage, if_pos (by omega), Nat.add_sub_cancel_left]

theorem readLE_eq_zero (zero : ∀ a, address ≤ a → a < address + n → m a = 0) :
    readLE m n address = 0 := by
  induction n generalizing address with
  | zero => rfl
  | succ n ih =>
    rw [readLE, zero address le_rfl (by omega), ih fun a lower upper => zero a (by omega) (by omega)]
    rfl

theorem readWord_fillPage_zero (m : Bytes) (lower : page ≤ address) (upper : address + 8 ≤ page + 4096) :
    readWord (fillPage m page fun _ => 0) address = 0 := by
  refine readLE_eq_zero fun a above below => ?_
  exact if_pos (by omega)

def pageOf (address : Nat) : Nat :=
  address / 4096 * 4096

theorem pageOf_eq_iff (aligned : page % 4096 = 0) :
    pageOf address = page ↔ page ≤ address ∧ address < page + 4096 := by
  unfold pageOf
  omega

@[simp]
theorem pageOf_mod (address : Nat) : pageOf address % 4096 = 0 := by
  unfold pageOf
  omega

end SysCore.Memory
