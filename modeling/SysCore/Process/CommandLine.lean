import SysCore.Process.InitialStack

/-!
# Splitting a command line

`create_process` of a command copies it and scans the copy once.  It keeps a pointer to
every place where a word begins, and writes a zero over the space behind a word and
over the quote that closes a quoted section.

An opening quote is not overwritten, so that a word directly before one does not end
there, and a quote that is never closed makes the scan run past the end of the copy.
`Splits` says what the words of a command are, without reference to the scan.
-/

namespace SysCore.Process

open Transition Memory List

def space : UInt8 := 32

def quote : UInt8 := 34

inductive Quoting where
  | outside (inSpace : Bool)
  | quoted

def scan : Quoting → (p : Nat) → List UInt8 → Outcome (List Nat × List UInt8)
  | _, _, [] => .error .stray
  | .outside inSpace, p, char :: rest =>
    if char = 0 then
      .ok ([], char :: rest)
    else if char = quote then do
      let (splits, memory) ← scan .quoted (p + 1) rest
      return ((p + 1) :: splits, char :: memory)
    else if char = space then do
      let (splits, memory) ← scan (.outside true) (p + 1) rest
      return (splits, (if inSpace then char else 0) :: memory)
    else do
      let (splits, memory) ← scan (.outside false) (p + 1) rest
      return (if inSpace then p :: splits else splits, char :: memory)
  | .quoted, p, char :: rest =>
    if char = quote then do
      let (splits, memory) ← scan (.outside true) (p + 1) rest
      return (splits, 0 :: memory)
    else do
      let (splits, memory) ← scan .quoted (p + 1) rest
      return (splits, char :: memory)

def stringOf (memory : List UInt8) : List UInt8 :=
  memory.takeWhile (· ≠ 0)

def denoted (p : Nat) (memory : List UInt8) (splits : List Nat) : List (List UInt8) :=
  splits.map fun pointer => stringOf (memory.drop (pointer - p))

def splitCommand (command : Text) : Outcome (List UInt8 × List (List UInt8)) := do
  let (splits, memory) ← scan (.outside true) 0 command.memory
  match denoted 0 memory splits with
  | [] => .error .stray
  | elf :: argv => return (elf, argv)

/-! ## The words of a command -/

def IsPlain (char : UInt8) : Prop :=
  char ≠ space ∧ char ≠ quote

inductive Splits : List UInt8 → List (List UInt8) → Prop
  | nil : Splits [] []
  | space {rest : List UInt8} {words : List (List UInt8)} : Splits rest words → Splits (space :: rest) words
  | run {run rest : List UInt8} {words : List (List UInt8)} : run ≠ [] → (∀ char ∈ run, IsPlain char) →
      (∀ char ∈ rest.head?, ¬ IsPlain char) → Splits rest words → Splits (run ++ rest) (run :: words)
  | quoted {content rest : List UInt8} {words : List (List UInt8)} : quote ∉ content → Splits rest words →
      Splits (quote :: content ++ quote :: rest) (content :: words)
  | unterminated {content : List UInt8} : quote ∉ content → Splits (quote :: content) [content]

def SplitsRight (command : Text) : Prop :=
  ∃ splits memory, scan (.outside true) 0 command.memory = .ok (splits, memory) ∧
    Splits command.bytes (denoted 0 memory splits)

def separated : Quoting → List UInt8 → Bool
  | .outside _, [] => true
  | .quoted, [] => false
  | .outside inSpace, char :: rest =>
    if char = quote then
      inSpace && separated .quoted rest
    else
      separated (.outside (char = space)) rest
  | .quoted, char :: rest =>
    if char = quote then
      separated (.outside true) rest
    else
      separated .quoted rest

def words : Quoting → List UInt8 → List UInt8 × List (List UInt8)
  | _, [] => ([], [])
  | .outside inSpace, char :: rest =>
    if char = quote then
      ([], (words .quoted rest).1 :: (words .quoted rest).2)
    else if char = space then
      ([], (words (.outside true) rest).2)
    else if inSpace then
      ([], (char :: (words (.outside false) rest).1) :: (words (.outside false) rest).2)
    else
      (char :: (words (.outside false) rest).1, (words (.outside false) rest).2)
  | .quoted, char :: rest =>
    if char = quote then
      ([], (words (.outside true) rest).2)
    else
      (char :: (words .quoted rest).1, (words .quoted rest).2)

section Words

variable {rest : List UInt8} {char : UInt8} {text : List UInt8} {found : List (List UInt8)}

theorem words_run {run : List UInt8} (plain : ∀ char ∈ run, IsPlain char)
    (boundary : ∀ char ∈ rest.head?, ¬ IsPlain char) :
    words (.outside false) (run ++ rest) = (run, (words (.outside true) rest).2) := by
  induction run with
  | nil =>
    cases rest with
    | nil => rfl
    | cons char rest =>
      rw [nil_append, words, words]
      by_cases isQuote : char = quote
      · rw [if_pos isQuote, if_pos isQuote]
      · have isSpace : char = space := by
          by_contra notSpace
          exact boundary char rfl ⟨notSpace, isQuote⟩
        rw [if_neg isQuote, if_neg isQuote, if_pos isSpace, if_pos isSpace]
  | cons char run ih =>
    obtain ⟨notSpace, notQuote⟩ := plain char mem_cons_self
    rw [cons_append, words, if_neg notQuote, if_neg notSpace, if_neg Bool.false_ne_true,
      ih fun other otherMem => plain other (mem_cons_of_mem _ otherMem)]

theorem words_quoted {content : List UInt8} (noQuote : quote ∉ content) :
    words .quoted (content ++ quote :: rest) = (content, (words (.outside true) rest).2) ∧
      words .quoted content = (content, []) := by
  induction content with
  | nil => exact ⟨if_pos rfl, rfl⟩
  | cons char content ih =>
    rw [mem_cons, not_or] at noQuote
    obtain ⟨closed, open_⟩ := ih noQuote.2
    rw [cons_append, words, words, if_neg (Ne.symm noQuote.1), if_neg (Ne.symm noQuote.1), closed, open_]
    exact ⟨rfl, rfl⟩

theorem words_eq_of_splits (splits : Splits text found) : (words (.outside true) text).2 = found := by
  induction splits with
  | nil => rfl
  | space _ ih => exact ih
  | @run run rest found nonempty plain boundary _ ih =>
    cases run with
    | nil => exact absurd rfl nonempty
    | cons char run =>
      obtain ⟨notSpace, notQuote⟩ := plain char mem_cons_self
      rw [cons_append, words, if_neg notQuote, if_neg notSpace, if_pos rfl,
        words_run (fun other otherMem => plain other (mem_cons_of_mem _ otherMem)) boundary, ih]
  | quoted noQuote _ ih => rw [cons_append, words, if_pos rfl, (words_quoted noQuote).1, ih]
  | unterminated noQuote => rw [words, if_pos rfl, (@words_quoted [] _ noQuote).2]

def EndsWord : Quoting → List UInt8 → Prop
  | .outside true, text => Splits text (words (.outside true) text).2
  | .outside false, text => ∃ run rest found, words (.outside false) text = (run, found) ∧ text = run ++ rest ∧
      (∀ char ∈ run, IsPlain char) ∧ (∀ char ∈ rest.head?, ¬ IsPlain char) ∧ Splits rest found
  | .quoted, text => ∃ content found, words .quoted text = (content, found) ∧ quote ∉ content ∧
      ((∃ rest, text = content ++ quote :: rest ∧ Splits rest found) ∨ text = content ∧ found = [])

theorem splits_of_quote (ends : EndsWord .quoted rest) :
    Splits (quote :: rest) ((words .quoted rest).1 :: (words .quoted rest).2) := by
  obtain ⟨content, found, words_eq, noQuote, ⟨rest', rfl, splits⟩ | ⟨rfl, rfl⟩⟩ := ends
  · rw [words_eq]
    exact .quoted noQuote splits
  · rw [words_eq]
    exact .unterminated noQuote

namespace EndsWord

theorem quoted (ends : EndsWord .quoted rest) (notQuote : char ≠ quote) : EndsWord .quoted (char :: rest) := by
  obtain ⟨content, found, words_eq, noQuote, ends⟩ := ends
  have noQuote' : quote ∉ char :: content := by
    rw [mem_cons, not_or]
    exact ⟨Ne.symm notQuote, noQuote⟩
  refine ⟨char :: content, found, by rw [words, if_neg notQuote, words_eq], noQuote', ?_⟩
  rcases ends with ⟨rest', rfl, splits⟩ | ⟨rfl, rfl⟩
  · exact .inl ⟨rest', rfl, splits⟩
  · exact .inr ⟨rfl, rfl⟩

theorem begun (ends : EndsWord (.outside false) rest) (isPlain : IsPlain char) :
    EndsWord (.outside true) (char :: rest) := by
  obtain ⟨run, rest', found, words_eq, rfl, plain, boundary, splits⟩ := ends
  rw [EndsWord, words, if_neg isPlain.2, if_neg isPlain.1, if_pos rfl, words_eq]
  exact .run (cons_ne_nil char run) (forall_mem_cons.2 ⟨isPlain, plain⟩) boundary splits

theorem continued (ends : EndsWord (.outside false) rest) (isPlain : IsPlain char) :
    EndsWord (.outside false) (char :: rest) := by
  obtain ⟨run, rest', found, words_eq, rfl, plain, boundary, splits⟩ := ends
  rw [EndsWord, words, if_neg isPlain.2, if_neg isPlain.1, if_neg Bool.false_ne_true, words_eq]
  exact ⟨char :: run, rest', found, rfl, rfl, forall_mem_cons.2 ⟨isPlain, plain⟩, boundary, splits⟩

theorem ended {found : List (List UInt8)} (notPlain : ¬ IsPlain char)
    (words_eq : words (.outside false) (char :: rest) = ([], found)) (splits : Splits (char :: rest) found) :
    EndsWord (.outside false) (char :: rest) := by
  refine ⟨[], char :: rest, found, words_eq, rfl, nofun, ?_, splits⟩
  rintro _ ⟨⟩
  exact notPlain

end EndsWord

theorem endsWord (place : Quoting) (text : List UInt8) : EndsWord place text := by
  induction text generalizing place with
  | nil =>
    cases place with
    | outside inSpace =>
      cases inSpace with
      | true => exact .nil
      | false => exact ⟨[], [], [], rfl, rfl, nofun, nofun, .nil⟩
    | quoted => exact ⟨[], [], rfl, not_mem_nil, .inr ⟨rfl, rfl⟩⟩
  | cons char rest ih =>
    cases place with
    | outside inSpace =>
      by_cases isQuote : char = quote
      · subst isQuote
        have splits := splits_of_quote (ih .quoted)
        cases inSpace with
        | true => exact splits
        | false => exact .ended (fun isPlain => isPlain.2 rfl) rfl splits
      · by_cases isSpace : char = space
        · subst isSpace
          have splits : Splits (space :: rest) (words (.outside true) rest).2 := .space (ih (.outside true))
          cases inSpace with
          | true => exact splits
          | false => exact .ended (fun isPlain => isPlain.1 rfl) rfl splits
        · cases inSpace with
          | true => exact (ih (.outside false)).begun ⟨isSpace, isQuote⟩
          | false => exact (ih (.outside false)).continued ⟨isSpace, isQuote⟩
    | quoted =>
      by_cases isQuote : char = quote
      · subst isQuote
        exact ⟨[], _, rfl, not_mem_nil, .inl ⟨rest, rfl, ih (.outside true)⟩⟩
      · exact (ih .quoted).quoted isQuote

theorem splits_iff : Splits text found ↔ (words (.outside true) text).2 = found := by
  constructor
  · exact words_eq_of_splits
  · rintro rfl
    exact endsWord (.outside true) text

end Words

/-! ## One character of the scan -/

namespace Quoting

def next : Quoting → UInt8 → Quoting
  | .outside _, char => if char = quote then .quoted else .outside (char = space)
  | .quoted, char => if char = quote then .outside true else .quoted

def pushed : Quoting → (p : Nat) → UInt8 → List Nat
  | .outside inSpace, p, char =>
    if char = quote then [p + 1] else if char = space then [] else if inSpace then [p] else []
  | .quoted, _, _ => []

def left : Quoting → UInt8 → UInt8
  | .outside inSpace, char => if char = space ∧ inSpace = false then 0 else char
  | .quoted, char => if char = quote then 0 else char

end Quoting

section Scan

variable {place : Quoting} {p : Nat} {char : UInt8} {text rest memory : List UInt8} {splits : List Nat}

theorem scan_cons (notEnd : char ≠ 0) (place : Quoting) (p : Nat) (rest : List UInt8) :
    scan place p (char :: rest) = scan (place.next char) (p + 1) rest >>= fun later =>
      .ok (place.pushed p char ++ later.1, place.left char :: later.2) := by
  cases place with
  | outside inSpace =>
    rw [scan, if_neg notEnd, Quoting.next, Quoting.pushed, Quoting.left]
    by_cases isQuote : char = quote
    · have notSpace : char ≠ space := by
        rw [isQuote]
        decide
      rw [if_pos isQuote, if_pos isQuote, if_pos isQuote, if_neg fun both => notSpace both.1]
      rfl
    · rw [if_neg isQuote, if_neg isQuote, if_neg isQuote]
      by_cases isSpace : char = space
      · subst isSpace
        cases inSpace with
        | true => rfl
        | false => rfl
      · have kept : ¬ (char = space ∧ inSpace = false) := fun both => isSpace both.1
        rw [if_neg isSpace, if_neg isSpace, if_neg kept, decide_eq_false isSpace]
        cases inSpace with
        | true => rfl
        | false => rfl
  | quoted =>
    rw [scan, Quoting.next, Quoting.pushed, Quoting.left]
    by_cases isQuote : char = quote
    · rw [if_pos isQuote, if_pos isQuote, if_pos isQuote]
      rfl
    · rw [if_neg isQuote, if_neg isQuote, if_neg isQuote]
      rfl

theorem le_of_pushed : ∀ pointer ∈ place.pushed p char, p ≤ pointer := by
  intro pointer pointerMem
  cases place with
  | outside inSpace =>
    rw [Quoting.pushed] at pointerMem
    split at pointerMem
    · rw [mem_singleton.1 pointerMem]
      omega
    · split at pointerMem
      · cases pointerMem
      · split at pointerMem
        · rw [mem_singleton.1 pointerMem]
        · cases pointerMem
  | quoted => cases pointerMem

theorem le_of_scan (nulFree : 0 ∉ text) (scan_eq : scan place p (text ++ [0]) = .ok (splits, memory)) :
    ∀ pointer ∈ splits, p ≤ pointer := by
  induction text generalizing place p splits memory with
  | nil =>
    cases place with
    | outside inSpace =>
      cases scan_eq
      nofun
    | quoted => cases scan_eq
  | cons char text ih =>
    rw [mem_cons, not_or] at nulFree
    rw [cons_append, scan_cons (Ne.symm nulFree.1)] at scan_eq
    obtain ⟨⟨later, memory'⟩, later_eq, last_eq⟩ := bind_eq_ok.1 scan_eq
    cases last_eq
    intro pointer pointerMem
    rcases mem_append.1 pointerMem with isNew | isLater
    · exact le_of_pushed pointer isNew
    · have below := ih nulFree.2 later_eq pointer isLater
      omega

theorem stringOf_zero : stringOf (0 :: memory) = [] :=
  rfl

theorem stringOf_cons (notEnd : char ≠ 0) : stringOf (char :: memory) = char :: stringOf memory :=
  takeWhile_cons_of_pos (decide_eq_true notEnd)

theorem denoted_cons (char : UInt8) (memory : List UInt8) (above : ∀ pointer ∈ splits, p + 1 ≤ pointer) :
    denoted p (char :: memory) splits = denoted (p + 1) memory splits := by
  apply map_congr_left
  intro pointer pointerMem
  have lower := above pointer pointerMem
  rw [show pointer - p = pointer - (p + 1) + 1 by omega, drop_succ_cons]

def Agrees (place : Quoting) (p : Nat) (text : List UInt8) (splits : List Nat) (memory : List UInt8) : Prop :=
  denoted p memory splits = (words place text).2 ∧
    (place = .outside true ∨ stringOf memory = (words place text).1)

theorem agrees_cons (notEnd : char ≠ 0) (above : ∀ pointer ∈ splits, p + 1 ≤ pointer) :
    Agrees place p (char :: text) (place.pushed p char ++ splits) (place.left char :: memory) ↔
      (place = .outside false → char ≠ quote) ∧ Agrees (place.next char) (p + 1) text splits memory := by
  unfold Agrees
  cases place with
  | outside inSpace =>
    rw [words, Quoting.next, Quoting.pushed, Quoting.left]
    by_cases isQuote : char = quote
    · -- The quote stays, so that a word before it does not end there.
      have notSpace : char ≠ space := by
        rw [isQuote]
        decide
      rw [if_pos isQuote, if_pos isQuote, if_pos isQuote, if_neg fun both => notSpace both.1,
        singleton_append, stringOf_cons notEnd]
      have denoted_eq : denoted p (char :: memory) ((p + 1) :: splits) =
          stringOf memory :: denoted (p + 1) memory splits := by
        rw [← denoted_cons char memory above]
        unfold denoted
        rw [map_cons, Nat.add_sub_cancel_left, drop_one, tail_cons]
      rw [denoted_eq, List.cons.injEq]
      cases inSpace <;> simp [isQuote, and_comm]
    · rw [if_neg isQuote, if_neg isQuote, if_neg isQuote]
      by_cases isSpace : char = space
      · rw [if_pos isSpace, if_pos isSpace, nil_append, denoted_cons _ memory above, decide_eq_true isSpace]
        cases inSpace with
        | true =>
          constructor
          · rintro ⟨same, -⟩
            exact ⟨fun _ => isQuote, same, .inl rfl⟩
          · rintro ⟨-, same, -⟩
            exact ⟨same, .inl rfl⟩
        | false =>
          rw [if_pos ⟨isSpace, rfl⟩, stringOf_zero]
          constructor
          · rintro ⟨same, -⟩
            exact ⟨fun _ => isQuote, same, .inl rfl⟩
          · rintro ⟨-, same, -⟩
            exact ⟨same, .inr rfl⟩
      · have notBoth : ¬ (char = space ∧ inSpace = false) := fun both => isSpace both.1
        rw [if_neg isSpace, if_neg isSpace, if_neg notBoth, stringOf_cons notEnd, decide_eq_false isSpace]
        cases inSpace with
        | true =>
          have denoted_eq : denoted p (char :: memory) ([p] ++ splits) =
              (char :: stringOf memory) :: denoted (p + 1) memory splits := by
            rw [← denoted_cons char memory above, ← stringOf_cons notEnd]
            unfold denoted
            rw [singleton_append, map_cons, Nat.sub_self, drop_zero]
          rw [if_pos rfl, if_pos rfl, denoted_eq]
          simp [isQuote, and_comm]
        | false =>
          rw [if_neg Bool.false_ne_true, if_neg Bool.false_ne_true, nil_append,
            denoted_cons _ memory above]
          simp [isQuote]
  | quoted =>
    rw [words, Quoting.next, Quoting.pushed, Quoting.left, nil_append, denoted_cons _ memory above]
    by_cases isQuote : char = quote
    · rw [if_pos isQuote, if_pos isQuote, if_pos isQuote, stringOf_zero]
      simp
    · rw [if_neg isQuote, if_neg isQuote, if_neg isQuote, stringOf_cons notEnd]
      simp

theorem separated_cons (place : Quoting) (char : UInt8) (text : List UInt8) :
    separated place (char :: text) ↔
      (place = .outside false → char ≠ quote) ∧ separated (place.next char) text := by
  cases place with
  | outside inSpace =>
    rw [separated, Quoting.next]
    by_cases isQuote : char = quote
    · cases inSpace <;> simp [isQuote]
    · simp [isQuote]
  | quoted =>
    rw [separated, Quoting.next]
    by_cases isQuote : char = quote
    · simp [isQuote]
    · simp [isQuote]

theorem scan_agrees_iff (nulFree : 0 ∉ text) :
    (∃ splits memory, scan place p (text ++ [0]) = .ok (splits, memory) ∧ Agrees place p text splits memory) ↔
      separated place text := by
  induction text generalizing place p with
  | nil =>
    cases place with
    | outside inSpace => exact iff_of_true ⟨[], [0], rfl, rfl, .inr rfl⟩ rfl
    | quoted =>
      -- The loop for the closing quote takes no notice of the terminating zero.
      apply iff_of_false
      · rintro ⟨splits, memory, scan_eq, -⟩
        cases scan_eq
      · exact Bool.false_ne_true
  | cons char text ih =>
    rw [mem_cons, not_or] at nulFree
    have notEnd : char ≠ 0 := Ne.symm nulFree.1
    rw [separated_cons, ← ih nulFree.2, cons_append, scan_cons notEnd]
    constructor
    · rintro ⟨splits, memory, scan_eq, agrees⟩
      obtain ⟨⟨later, memory'⟩, later_eq, last_eq⟩ := bind_eq_ok.1 scan_eq
      cases last_eq
      obtain ⟨apart, agrees'⟩ := (agrees_cons notEnd (le_of_scan nulFree.2 later_eq)).1 agrees
      exact ⟨apart, later, memory', later_eq, agrees'⟩
    · rintro ⟨apart, later, memory', later_eq, agrees'⟩
      refine ⟨_, _, bind_eq_ok.2 ⟨_, later_eq, rfl⟩, ?_⟩
      exact (agrees_cons notEnd (le_of_scan nulFree.2 later_eq)).2 ⟨apart, agrees'⟩

end Scan

/-! ## The words of the copied command -/

/-- The scan reads no byte behind the end and finds the words of a command exactly if
every quote of the command stands apart from the word before it and is closed. -/
theorem splitsRight_iff (command : Text) : SplitsRight command ↔ separated (.outside true) command.bytes := by
  rw [← @scan_agrees_iff (.outside true) 0 _ command.nulFree]
  apply exists_congr
  intro splits
  apply exists_congr
  intro memory
  apply and_congr_right
  intro _
  rw [splits_iff]
  constructor
  · intro words_eq
    exact ⟨words_eq.symm, .inl rfl⟩
  · intro agrees
    exact agrees.1.symm

theorem splitsRight_of_apart : SplitsRight ⟨bytesOf "a \"b c\"", by decide⟩ :=
  (splitsRight_iff _).2 (by decide)

theorem not_splitsRight_of_quote :
    (∃ splits memory, scan (.outside true) 0 (bytesOf "ab\"cd\"" ++ [0]) = .ok (splits, memory) ∧
      denoted 0 memory splits = [bytesOf "ab\"cd", bytesOf "cd"]) ∧
    ¬ SplitsRight ⟨bytesOf "ab\"cd\"", by decide⟩ ∧
    scan (.outside true) 0 (bytesOf "\"ab" ++ [0]) = .error .stray ∧
    ¬ SplitsRight ⟨bytesOf "\"ab", by decide⟩ := by
  have joined : scan (.outside true) 0 (bytesOf "ab\"cd\"" ++ [0]) =
      .ok ([0, 3], bytesOf "ab\"cd" ++ [0, 0]) := by decide
  have unclosed : scan (.outside true) 0 (bytesOf "\"ab" ++ [0]) = .error .stray := by decide
  refine ⟨⟨_, _, joined, by decide⟩, ?_, unclosed, ?_⟩
  · rintro ⟨splits, memory, scan_eq, found⟩
    cases joined.symm.trans scan_eq
    have words_eq := splits_iff.1 found
    revert words_eq
    decide
  · rintro ⟨splits, memory, scan_eq, -⟩
    cases unclosed.symm.trans scan_eq

theorem splitCommand_eq {command : Text} (apart : separated (.outside true) command.bytes)
    {elf : List UInt8} {argv : List (List UInt8)} (found : Splits command.bytes (elf :: argv)) :
    splitCommand command = .ok (elf, argv) := by
  obtain ⟨splits, memory, scan_eq, agrees, -⟩ := (@scan_agrees_iff (.outside true) 0 _ command.nulFree).2 apart
  have scan_eq' : scan (.outside true) 0 command.memory = .ok (splits, memory) := scan_eq
  unfold splitCommand
  rw [scan_eq', ok_bind]
  dsimp only
  rw [agrees, splits_iff.1 found]
  rfl

end SysCore.Process
