import SysCore.Container.CString
import SysCore.Container.Numeral

/-!
# `printf` and `sprintf`

Both functions go through the format with a switch on the character behind a `%`.  They
are two texts in the source: `printf` sends its characters to the console, `sprintf`
stores them behind one another and ends with a zero, and they differ in what they do
when the switch has no case for the character.

The format is the memory behind its pointer, of which each step takes what it reads.  The
arguments are the words behind the last named parameter.
-/

namespace SysCore.Stdio

open Transition Container List

structure Call where
  args : Nat → BitVec 64
  strings : BitVec 64 → CText

abbrev Written := List Char × Nat

def digits (num base : Nat) : Outcome (List Char) :=
  if num = 0 then pushDigits base 99 num ['0'] else pushDigits base 100 num []

/-! ## `printf` -/

def putchar (out : List Char) (c : Char) : List Char :=
  out ++ [c]

def puts (out : List Char) (str : List Char) : List Char :=
  putchar (str.foldl putchar out) '\n'

def printPos (out : List Char) (num base : Nat) : Outcome (List Char) := do
  let sta ← digits num base
  return sta.foldl putchar out

def printInt (out : List Char) (d : BitVec 32) : Outcome (List Char) :=
  if d = 0 then .ok (putchar out '0')
  else if d.toInt < 0 then printPos (putchar out '-') ((-d).signExtend 64).toNat 10
  else printPos out (d.signExtend 64).toNat 10

def printConversion (call : Call) (spec : Char) (out : List Char) (used : Nat) : Outcome Written :=
  match spec with
  | 'c' => .ok (putchar out (Char.ofNat ((call.args used).toNat % 256)), used + 1)
  | 'd' => do
    let out ← printInt out ((call.args used).setWidth 32)
    return (out, used + 1)
  | 'x' => do
    let out ← printPos out (call.args used).toNat 16
    return (out, used + 1)
  | 'b' => do
    let out ← printPos out (call.args used).toNat 2
    return (out, used + 1)
  | 's' => .ok ((call.strings (call.args used)).chars.foldl putchar out, used + 1)
  | _ => .ok (puts out "!!! unsupport %".toList, used)

def printfLoop (call : Call) : List Char → List Char → Nat → Outcome Written
  | [], _, _ => .error .stray
  | ret :: format, out, used =>
    if ret = nul then .ok (out, used)
    else if ret = '%' then
      match format with
      | [] => .error .stray
      | spec :: format => do
        let written ← printConversion call spec out used
        printfLoop call format written.1 written.2
    else printfLoop call format (putchar out ret) used

def printf (call : Call) (format : List Char) : Outcome Written :=
  printfLoop call format [] 0

/-! ## `sprintf` -/

def store (dist : List Char) (c : Char) : List Char :=
  dist ++ [c]

def sprintfPrintPos (dist : List Char) (num base : Nat) : Outcome (List Char) := do
  let sta ← digits num base
  return sta.foldl store dist

def sprintInt (dist : List Char) (d : BitVec 32) : Outcome (List Char) :=
  if d = 0 then .ok (store dist '0')
  else if d.toInt < 0 then sprintfPrintPos (store dist '-') ((-d).signExtend 64).toNat 10
  else sprintfPrintPos dist (d.signExtend 64).toNat 10

def sprintConversion (call : Call) (spec : Char) (dist : List Char) (used : Nat) : Outcome Written :=
  match spec with
  | 'c' => .ok (store dist (Char.ofNat ((call.args used).toNat % 256)), used + 1)
  | 'd' => do
    let dist ← sprintInt dist ((call.args used).setWidth 32)
    return (dist, used + 1)
  | 'x' => do
    let dist ← sprintfPrintPos dist (call.args used).toNat 16
    return (dist, used + 1)
  | 'b' => do
    let dist ← sprintfPrintPos dist (call.args used).toNat 2
    return (dist, used + 1)
  | 's' => .ok ((call.strings (call.args used)).chars.foldl store dist, used + 1)
  | _ => .error .panic

def sprintfLoop (call : Call) : List Char → List Char → Nat → Outcome Written
  | [], _, _ => .error .stray
  | ret :: format, dist, used =>
    if ret = nul then .ok (dist ++ [nul], used)
    else if ret = '%' then
      match format with
      | [] => .error .stray
      | spec :: format => do
        let written ← sprintConversion call spec dist used
        sprintfLoop call format written.1 written.2
    else sprintfLoop call format (store dist ret) used

def sprintf (call : Call) (format : List Char) : Outcome Written :=
  sprintfLoop call format [] 0

/-! ## Formats -/

def specs : List Char :=
  ['c', 'd', 'x', 'b', 's']

def WellSpecified (format : List Char) : Prop :=
  ∀ front rest, format = front ++ '%' :: rest →
    ∃ spec rest', rest = spec :: rest' ∧ spec ∈ specs

def intText (d : BitVec 32) : List Char :=
  if d = 0 then ['0']
  else if d.toInt < 0 then '-' :: numeral 10 ((-d).signExtend 64).toNat
  else numeral 10 (d.signExtend 64).toNat

def shown (call : Call) (spec : Char) (used : Nat) : List Char :=
  match spec with
  | 'c' => [Char.ofNat ((call.args used).toNat % 256)]
  | 'd' => intText ((call.args used).setWidth 32)
  | 'x' => numeral 16 (call.args used).toNat
  | 'b' => numeral 2 (call.args used).toNat
  | 's' => (call.strings (call.args used)).chars
  | _ => "!!! unsupport %".toList ++ ['\n']

def takes (spec : Char) : Nat :=
  if spec ∈ specs then 1 else 0

theorem digits_eq {num base : Nat} (two : 1 < base) (word : num < 2 ^ 64) :
    digits num base = .ok (numeral base num) := by
  unfold digits numeral
  by_cases zero : num = 0
  · subst zero
    rw [if_pos rfl, if_pos rfl, pushDigits]
  · have fits : num < base ^ 100 :=
      (word.trans (by decide : 2 ^ 64 < 2 ^ 100)).trans_le (Nat.pow_le_pow_left two 100)
    rw [if_neg zero, if_neg zero, pushDigits_eq two fits, append_nil]

theorem foldl_putchar (out text : List Char) : text.foldl putchar out = out ++ text := by
  induction text generalizing out with
  | nil => rw [foldl_nil, append_nil]
  | cons c text ih => rw [foldl_cons, ih, putchar, append_assoc, singleton_append]

theorem foldl_store (dist text : List Char) : text.foldl store dist = dist ++ text :=
  foldl_putchar dist text

theorem printPos_eq {num base : Nat} (two : 1 < base) (word : num < 2 ^ 64) (out : List Char) :
    printPos out num base = .ok (out ++ numeral base num) := by
  unfold printPos
  rw [digits_eq two word, ok_bind, foldl_putchar]
  rfl

theorem sprintfPrintPos_eq {num base : Nat} (two : 1 < base) (word : num < 2 ^ 64) (dist : List Char) :
    sprintfPrintPos dist num base = .ok (dist ++ numeral base num) := by
  unfold sprintfPrintPos
  rw [digits_eq two word, ok_bind, foldl_store]
  rfl

theorem printInt_eq (out : List Char) (d : BitVec 32) : printInt out d = .ok (out ++ intText d) := by
  unfold printInt intText
  split
  · rfl
  · split
    · rw [printPos_eq (by decide) (BitVec.isLt _), putchar, append_assoc, singleton_append]
    · rw [printPos_eq (by decide) (BitVec.isLt _)]

theorem sprintInt_eq (dist : List Char) (d : BitVec 32) : sprintInt dist d = .ok (dist ++ intText d) := by
  unfold sprintInt intText
  split
  · rfl
  · split
    · rw [sprintfPrintPos_eq (by decide) (BitVec.isLt _), store, append_assoc, singleton_append]
    · rw [sprintfPrintPos_eq (by decide) (BitVec.isLt _)]

theorem printConversion_eq (call : Call) (spec : Char) (out : List Char) (used : Nat) :
    printConversion call spec out used = .ok (out ++ shown call spec used, used + takes spec) := by
  unfold printConversion shown
  split
  · rfl
  · rw [printInt_eq]
    rfl
  · rw [printPos_eq (by decide) (BitVec.isLt _)]
    rfl
  · rw [printPos_eq (by decide) (BitVec.isLt _)]
    rfl
  · rw [foldl_putchar]
    rfl
  · rename_i c d x b s
    have unknown : spec ∉ specs := by
      intro mem
      simp only [specs, mem_cons, not_mem_nil, or_false] at mem
      rcases mem with h | h | h | h | h
      exacts [c h, d h, x h, b h, s h]
    rw [takes, if_neg unknown, puts, foldl_putchar, putchar, append_assoc]
    rfl

theorem sprintConversion_eq {spec : Char} (known : spec ∈ specs) (call : Call) (dist : List Char) (used : Nat) :
    sprintConversion call spec dist used = .ok (dist ++ shown call spec used, used + takes spec) := by
  simp only [specs, mem_cons, not_mem_nil, or_false] at known
  rcases known with rfl | rfl | rfl | rfl | rfl
  · rfl
  · rw [sprintConversion, sprintInt_eq]
    rfl
  · rw [sprintConversion, sprintfPrintPos_eq (by decide) (BitVec.isLt _)]
    rfl
  · rw [sprintConversion, sprintfPrintPos_eq (by decide) (BitVec.isLt _)]
    rfl
  · rw [sprintConversion, foldl_store]
    rfl

/-! ## One round of the loops -/

section Rounds

variable (call : Call) {c : Char} (spec : Char) (format out : List Char) (used : Nat)

theorem printfLoop_nul : printfLoop call (nul :: format) out used = .ok (out, used) := by
  rw [printfLoop.eq_def]
  exact if_pos rfl

theorem printfLoop_conversion : printfLoop call ('%' :: spec :: format) out used =
    printfLoop call format (out ++ shown call spec used) (used + takes spec) := by
  rw [printfLoop, if_neg (by decide), if_pos rfl, printConversion_eq, ok_bind]

theorem sprintfLoop_nul : sprintfLoop call (nul :: format) out used = .ok (out ++ [nul], used) := by
  rw [sprintfLoop.eq_def]
  exact if_pos rfl

theorem sprintfLoop_conversion : sprintfLoop call ('%' :: spec :: format) out used =
    sprintConversion call spec out used >>= fun written => sprintfLoop call format written.1 written.2 := by
  rw [sprintfLoop, if_neg (by decide), if_pos rfl]

end Rounds

theorem not_mem_cons {c : Char} {rest : List Char} (nulFree : nul ∉ c :: rest) : c ≠ nul ∧ nul ∉ rest := by
  rw [mem_cons, not_or] at nulFree
  exact ⟨Ne.symm nulFree.1, nulFree.2⟩

/-! ## The end of the format -/

section Stops

variable (call : Call) {chars : List Char}

end Stops

/-! ## The two functions side by side -/

theorem WellSpecified.rest {c : Char} {format : List Char} (good : WellSpecified (c :: format)) :
    WellSpecified format := by
  intro front rest split
  exact good (c :: front) rest (congrArg (c :: ·) split)

theorem WellSpecified.spec {spec : Char} {format : List Char} (good : WellSpecified ('%' :: spec :: format)) :
    spec ∈ specs := by
  rcases good [] (spec :: format) rfl with ⟨_, _, same, known⟩
  exact (List.cons.inj same).1 ▸ known

end SysCore.Stdio
