import SysCore.Container.CString
import SysCore.Sched.Cwd

/-!
# The tables of `getAbsolutePath`

`getAbsolutePath` joins the path to the working directory in one static buffer,
copies the units between the separators into a table of 16 rows, keeps in a
second table those that are left of the path, and puts these together in the
first buffer, whose separators have become zeros by then.

The calls in `test_getAbsolutePath` stand in assertions, which expand to nothing.

For texts the result is that of `SysCore.Sched.getAbsolutePath`, whatever the
tables held before.
-/

namespace SysCore.Path

open Transition Container Fs Sched List

abbrev Rows := Fin 16 → Buffer 512

namespace Rows

def strcpy (rows : Rows) (i : Nat) (source : List Char) : Outcome Rows :=
  if lt : i < 16 then do
    let row ← (rows ⟨i, lt⟩).strcpy 0 source
    return Function.update rows ⟨i, lt⟩ row
  else
    .error .stray

def row (rows : Rows) (i : Nat) : Outcome (List Char) :=
  if lt : i < 16 then .ok (rows ⟨i, lt⟩).chars else .error .stray

end Rows

structure PathTables where
  strBuff : Buffer 512
  units : Rows
  res : Rows

def slash : CText := ⟨['/'], by decide⟩

def dot : CText := ⟨['.'], by decide⟩

def dotDot : CText := ⟨['.', '.'], by decide⟩

def putCwd (path : Option CText) : Option CText → Outcome (Buffer 512)
  | none => .ok (Buffer.zero 512)
  | some cwd =>
    match path with
    | none => .error .stray
    | some path =>
      if path.chars.head? = some '/' then
        .ok (Buffer.zero 512)
      else do
        let strBuff ← (Buffer.zero 512).strcpy 0 cwd.memory
        if cwd.chars.length = 0 ∨ cwd.chars.getLast? ≠ some '/' then
          strBuff.append slash.memory
        else
          return strBuff

def copyUnit (units : Rows) (curUnit : Nat) (unit : List Char) : Outcome (Nat × Rows) :=
  if unit.head? = some nul then
    .ok (curUnit, units)
  else do
    let units ← units.strcpy curUnit unit
    return (curUnit + 1, units)

def splitUnits : Nat → Buffer 512 → Option Nat → Nat → Rows → Outcome (Buffer 512 × Nat × Rows)
  | 0, _, _, _, _ => .error .hang
  | fuel + 1, strBuff, bufPointer, curUnit, units => do
    let (unit, bufPointer, strBuff) ← strBuff.strsep ['/'] bufPointer
    match unit with
    | none => return (strBuff, curUnit, units)
    | some unit => do
      let (curUnit, units) ← copyUnit units curUnit (strBuff.behind unit)
      splitUnits fuel strBuff bufPointer curUnit units

def resolveUnits (units : Rows) : Nat → Nat → Nat → Rows → Outcome (Option Nat × Rows)
  | 0, _, cur, res => .ok (some cur, res)
  | left + 1, curUnit, cur, res => do
    let unit ← units.row curUnit
    let isDot ← strcmp unit dot.memory
    if isDot = 0 then
      resolveUnits units left (curUnit + 1) cur res
    else do
      let isDotDot ← strcmp unit dotDot.memory
      if isDotDot = 0 then
        if cur = 0 then return (none, res)
        else resolveUnits units left (curUnit + 1) (cur - 1) res
      else do
        let res ← res.strcpy cur unit
        if 16 ≤ cur + 1 then return (none, res)
        else resolveUnits units left (curUnit + 1) (cur + 1) res

def assemble (res : Rows) : Nat → Nat → Buffer 512 → Outcome (Buffer 512)
  | 0, _, strBuff => .ok strBuff
  | left + 1, i, strBuff => do
    let strBuff ← strBuff.append slash.memory
    let unit ← res.row i
    let strBuff ← strBuff.append unit
    assemble res left (i + 1) strBuff

def finish (strBuff : Buffer 512) (cur : Nat) (res : Rows) : Outcome (Buffer 512) := do
  let strBuff ← assemble res cur 0 strBuff
  if cur = 0 then strBuff.strcpy 0 slash.memory else return strBuff

def PathTables.getAbsolutePath (tables : PathTables) (path cwd : Option CText) :
    Outcome (Option (List Char) × PathTables) := do
  let strBuff ← putCwd path cwd
  match path with
  | none => return (none, { tables with strBuff := strBuff })
  | some path => do
    let strBuff ← strBuff.append path.memory
    let (strBuff, unitCount, units) ← splitUnits 513 strBuff (some 0) 0 tables.units
    let (cur, res) ← resolveUnits units unitCount 0 0 tables.res
    match cur with
    | none => return (none, { strBuff := strBuff, units := units, res := res })
    | some cur => do
      let strBuff ← finish strBuff cur res
      return (some strBuff.chars, { strBuff := strBuff, units := units, res := res })

/-! ## Rows -/

namespace Rows

variable {rows : Rows} {texts : List Name} {text : Name}

def Holds (rows : Rows) (texts : List Name) : Prop :=
  ∀ i text, texts[i]? = some text → ∃ lt : i < 16, (rows ⟨i, lt⟩).Text text

theorem holds_nil (rows : Rows) : rows.Holds [] := by
  intro i text isUnit
  cases isUnit

theorem Holds.length_le (holds : rows.Holds texts) : texts.length ≤ 16 := by
  by_contra tooMany
  obtain ⟨text, isUnit⟩ : ∃ text, texts[16]? = some text := ⟨_, List.getElem?_eq_getElem (by omega)⟩
  obtain ⟨lt, -⟩ := holds 16 text isUnit
  exact absurd lt (by decide)

theorem Holds.dropLast (holds : rows.Holds texts) : rows.Holds texts.dropLast := by
  intro i text isUnit
  rw [List.getElem?_dropLast] at isUnit
  split at isUnit
  · exact holds i text isUnit
  · cases isUnit

theorem Holds.row_eq (holds : rows.Holds texts) {i : Nat} (isUnit : texts[i]? = some text) :
    ∃ rest, rows.row i = .ok (text ++ nul :: rest) ∧ nul ∉ text := by
  obtain ⟨lt, nulFree, rest, chars_eq⟩ := holds i text isUnit
  refine ⟨rest, ?_, nulFree⟩
  unfold row
  rw [dif_pos lt, chars_eq]

theorem Holds.strcpy_eq (holds : rows.Holds texts) (few : texts.length < 16) (nulFree : nul ∉ text)
    (fits : text.length < 512) (rest : List Char) :
    ∃ rows', rows.strcpy texts.length (text ++ nul :: rest) = .ok rows' ∧ Holds rows' (texts ++ [text]) := by
  obtain ⟨row, copied, holdsRow⟩ := (rows ⟨texts.length, few⟩).strcpy_text nulFree fits rest
  refine ⟨Function.update rows ⟨texts.length, few⟩ row, ?_, ?_⟩
  · unfold Rows.strcpy
    rw [dif_pos few, copied]
    rfl
  · intro i other isUnit
    by_cases isNew : i = texts.length
    · subst isNew
      rw [List.getElem?_concat_length] at isUnit
      cases isUnit
      exact ⟨few, by rw [Function.update_self]; exact holdsRow⟩
    · have isOld : texts[i]? = some other := by
        have lt := (List.getElem?_eq_some_iff.1 isUnit).1
        rw [length_append, length_singleton] at lt
        rwa [List.getElem?_append_left (by omega)] at isUnit
      obtain ⟨lt, holdsOld⟩ := holds i other isOld
      have different : (⟨i, lt⟩ : Fin 16) ≠ ⟨texts.length, few⟩ := fun same => isNew (Fin.mk.inj same)
      exact ⟨lt, by rw [Function.update_of_ne different]; exact holdsOld⟩

theorem strcpy_stray (rows : Rows) {i : Nat} (outside : 16 ≤ i) (source : List Char) :
    rows.strcpy i source = .error .stray :=
  dif_neg (Nat.not_lt.2 outside)

end Rows

/-! ## The loops -/

def blank (char : Char) : Char :=
  if char = '/' then nul else char

variable {text : List Char} {path : CText} {strBuff : Buffer 512}

theorem map_blank_of_not_mem (noSlash : '/' ∉ text) : text.map blank = text := by
  have same : ∀ char ∈ text, blank char = char := by
    intro char charMem
    apply if_neg
    rintro rfl
    exact noSlash charMem
  rw [map_congr_left same, map_id']

theorem components_of_not_mem (noSlash : '/' ∉ text) :
    components text = if text = [] then [] else [text] := by
  split
  · rename_i isEmpty
    rw [isEmpty, components_nil]
  · rename_i notEmpty
    exact components_name ⟨notEmpty, noSlash⟩

section Loops

variable {strBuff : Buffer 512} {units res : Rows} {done : List Name} {front text rest : List Char}

theorem copyUnit_eq (nulFree : nul ∉ text) (noSlash : '/' ∉ text) (fits : text.length < 512)
    (holds : units.Holds done) (rest : List Char) :
    if (done ++ components text).length ≤ 16 then
      ∃ units', copyUnit units done.length (text ++ nul :: rest) =
        .ok ((done ++ components text).length, units') ∧ units'.Holds (done ++ components text)
    else copyUnit units done.length (text ++ nul :: rest) = .error .stray := by
  have few := holds.length_le
  unfold copyUnit
  rw [components_of_not_mem noSlash]
  cases text with
  | nil =>
    rw [if_pos rfl, append_nil, if_pos few]
    exact ⟨units, rfl, holds⟩
  | cons char text =>
    have notNul : ((char :: text) ++ nul :: rest).head? ≠ some nul := by
      intro isNul
      cases isNul
      exact nulFree mem_cons_self
    rw [if_neg (cons_ne_nil char text), if_neg notNul, length_append, length_singleton]
    split
    · rename_i free
      obtain ⟨units', copied, holds'⟩ := holds.strcpy_eq (by omega) nulFree fits rest
      refine ⟨units', ?_, holds'⟩
      rw [copied]
      rfl
    · rename_i full
      rw [units.strcpy_stray (by omega)]
      rfl

theorem not_mem_separators (noSlash : '/' ∉ text) : ∀ char ∈ text, char ∉ ['/'] := by
  intro char charMem isSlash
  exact noSlash (mem_singleton.1 isSlash ▸ charMem)

theorem splitUnits_last {fuel : Nat} (chars_eq : strBuff.chars = front ++ text ++ nul :: rest)
    (nulFree : nul ∉ text) (noSlash : '/' ∉ text) (curUnit : Nat) (units : Rows) :
    splitUnits (fuel + 1) strBuff (some front.length) curUnit units =
      copyUnit units curUnit (text ++ nul :: rest) >>= fun copied =>
        splitUnits fuel strBuff none copied.1 copied.2 := by
  rw [splitUnits, Buffer.strsep_last chars_eq nulFree (not_mem_separators noSlash), ok_bind]
  dsimp only
  rw [append_assoc] at chars_eq
  rw [Buffer.behind_eq chars_eq]

theorem splitUnits_unit {fuel : Nat} (chars_eq : strBuff.chars = front ++ text ++ '/' :: rest)
    (nulFree : nul ∉ text) (noSlash : '/' ∉ text) (curUnit : Nat) (units : Rows) :
    ∃ strBuff' : Buffer 512, strBuff'.chars = front ++ text ++ nul :: rest ∧
      splitUnits (fuel + 1) strBuff (some front.length) curUnit units =
        copyUnit units curUnit (text ++ nul :: rest) >>= fun copied =>
          splitUnits fuel strBuff' (some (front ++ text ++ [nul]).length) copied.1 copied.2 := by
  obtain ⟨strBuff', separated, chars_eq'⟩ :=
    Buffer.strsep_unit chars_eq nulFree (not_mem_separators noSlash) mem_cons_self (by decide)
  refine ⟨strBuff', chars_eq', ?_⟩
  rw [splitUnits, separated, ok_bind]
  dsimp only
  rw [append_assoc] at chars_eq'
  rw [Buffer.behind_eq chars_eq']

theorem splitUnits_eq {fuel : Nat} (chars_eq : strBuff.chars = front ++ text ++ nul :: rest)
    (nulFree : nul ∉ text) (holds : units.Holds done) (enough : text.length + 2 ≤ fuel) :
    if (done ++ components text).length ≤ 16 then
      ∃ strBuff' units', splitUnits fuel strBuff (some front.length) done.length units =
          .ok (strBuff', (done ++ components text).length, units') ∧
        strBuff'.chars = front ++ text.map blank ++ nul :: rest ∧ units'.Holds (done ++ components text)
    else splitUnits fuel strBuff (some front.length) done.length units = .error .stray := by
  induction fuel generalizing strBuff front text done units with
  | zero => omega
  | succ fuel ih =>
    have size_eq := strBuff.length_eq
    rw [chars_eq, length_append, length_append, length_cons] at size_eq
    by_cases hasSlash : '/' ∈ text
    · obtain ⟨unit, more, rfl, noSlash⟩ := eq_append_cons_of_mem hasSlash
      rw [mem_append, mem_cons, not_or, not_or] at nulFree
      rw [length_append, length_cons] at size_eq enough
      have unit_eq : strBuff.chars = front ++ unit ++ '/' :: (more ++ nul :: rest) := by
        rw [chars_eq]
        simp
      obtain ⟨strBuff', zeroed_eq, split_eq⟩ :=
        @splitUnits_unit _ _ _ _ fuel unit_eq nulFree.1 noSlash done.length units
      have more_eq : strBuff'.chars = (front ++ unit ++ [nul]) ++ more ++ nul :: rest := by
        rw [zeroed_eq]
        simp
      have copied := copyUnit_eq nulFree.1 noSlash (by omega) holds (more ++ nul :: rest)
      rw [components_append_cons, ← append_assoc, split_eq]
      split at copied
      · obtain ⟨units', copied, holds'⟩ := copied
        have later := ih more_eq nulFree.2.2 holds' (by omega)
        rw [copied, ok_bind]
        dsimp only
        split at later
        · rename_i few
          obtain ⟨strBuff'', units'', later, final_eq, holds''⟩ := later
          rw [if_pos few]
          refine ⟨strBuff'', units'', later, ?_, holds''⟩
          rw [final_eq, map_append, map_blank_of_not_mem noSlash, map_cons]
          simp [blank]
        · rename_i many
          rw [if_neg many]
          exact later
      · rename_i many
        have many' : ¬ (done ++ components unit ++ components more).length ≤ 16 := by
          rw [length_append]
          omega
        rw [copied, if_neg many']
        rfl
    · have copied := copyUnit_eq nulFree hasSlash (by omega) holds rest
      obtain ⟨fuel, rfl⟩ : ∃ less, fuel = less + 1 := ⟨fuel - 1, by omega⟩
      rw [splitUnits_last chars_eq nulFree hasSlash]
      split at copied
      · rename_i few
        obtain ⟨units', copied, holds'⟩ := copied
        rw [if_pos few, copied]
        refine ⟨strBuff, units', rfl, ?_, holds'⟩
        rw [chars_eq, map_blank_of_not_mem hasSlash]
      · rename_i many
        rw [if_neg many, copied]
        rfl

theorem resolveUnits_eq {texts kept : List Name} (holds : units.Holds texts) (holdsRes : res.Holds kept)
    (few : kept.length < 16) {before after : List Name} (texts_eq : texts = before ++ after) :
    ∃ res', resolveUnits units after.length before.length kept.length res =
        .ok ((resolve after kept).map List.length, res') ∧
      ∀ kept', resolve after kept = some kept' → res'.Holds kept' := by
  induction after generalizing before kept res with
  | nil =>
    refine ⟨res, rfl, ?_⟩
    rintro kept' ⟨⟩
    exact holdsRes
  | cons unit after ih =>
    have isUnit : texts[before.length]? = some unit := by
      rw [texts_eq, List.getElem?_append_right (Nat.le_refl _), Nat.sub_self]
      rfl
    have next_eq : texts = (before ++ [unit]) ++ after := by
      rw [texts_eq]
      simp
    have length_eq : (before ++ [unit]).length = before.length + 1 := length_append
    obtain ⟨rest, row_eq, nulFree⟩ := holds.row_eq isUnit
    have fits : unit.length < 512 := (holds _ _ isUnit).2.length_lt
    obtain ⟨isDot, isDot_eq, isDot_iff⟩ := strcmp_text nulFree dot.nulFree rest []
    obtain ⟨isDotDot, isDotDot_eq, isDotDot_iff⟩ := strcmp_text nulFree dotDot.nulFree rest []
    rw [length_cons, resolveUnits, row_eq, ok_bind, CText.memory, isDot_eq, ok_bind, resolve]
    by_cases same : unit = ['.']
    · rw [if_pos (isDot_iff.2 same), if_pos same, ← length_eq]
      exact ih holdsRes few next_eq
    · rw [if_neg (mt isDot_iff.1 same), if_neg same, CText.memory, isDotDot_eq, ok_bind]
      by_cases same' : unit = ['.', '.']
      · rw [if_pos (isDotDot_iff.2 same'), if_pos same']
        by_cases isEmpty : kept = []
        · rw [if_pos isEmpty, if_pos (by rw [isEmpty]; rfl)]
          exact ⟨res, rfl, by simp⟩
        · have notZero : kept.length ≠ 0 := mt length_eq_zero_iff.1 isEmpty
          rw [if_neg isEmpty, if_neg notZero, ← length_eq, ← length_dropLast]
          exact ih holdsRes.dropLast (by rw [length_dropLast]; omega) next_eq
      · rw [if_neg (mt isDotDot_iff.1 same'), if_neg same']
        obtain ⟨res', copied, holdsRes'⟩ := holdsRes.strcpy_eq few nulFree fits rest
        rw [copied, ok_bind]
        by_cases full : 16 ≤ kept.length + 1
        · rw [if_pos full, if_pos full]
          exact ⟨res', rfl, by simp⟩
        · rw [if_neg full, if_neg full, ← length_eq]
          have length_eq' : (kept ++ [unit]).length = kept.length + 1 := length_append
          rw [← length_eq'] at full ⊢
          exact ih holdsRes' (by omega) next_eq

theorem assemble_eq {kept : List Name} (holds : res.Holds kept) (textHeld : strBuff.Text text)
    {before after : List Name} (kept_eq : kept = before ++ after) :
    if (text ++ joinAbsolutePath after).length < 512 then
      ∃ strBuff', assemble res after.length before.length strBuff = .ok strBuff' ∧
        strBuff'.Text (text ++ joinAbsolutePath after)
    else assemble res after.length before.length strBuff = .error .stray := by
  induction after generalizing before text strBuff with
  | nil =>
    rw [joinAbsolutePath, append_nil, if_pos textHeld.length_lt]
    exact ⟨strBuff, rfl, textHeld⟩
  | cons unit after ih =>
    have isUnit : kept[before.length]? = some unit := by
      rw [kept_eq, List.getElem?_append_right (Nat.le_refl _), Nat.sub_self]
      rfl
    have next_eq : kept = (before ++ [unit]) ++ after := by
      rw [kept_eq]
      simp
    have length_eq : (before ++ [unit]).length = before.length + 1 := length_append
    have text_eq : text ++ joinAbsolutePath (unit :: after) = text ++ ['/'] ++ unit ++ joinAbsolutePath after := by
      simp [joinAbsolutePath]
    obtain ⟨rest, row_eq, nulFree⟩ := holds.row_eq isUnit
    rw [length_cons, assemble, text_eq]
    by_cases fitsSlash : text.length + slash.chars.length < 512
    · obtain ⟨strBuff₁, appended, textHeld₁⟩ := textHeld.append_eq slash.nulFree fitsSlash []
      rw [CText.memory, appended, ok_bind, row_eq, ok_bind]
      by_cases fitsUnit : (text ++ slash.chars).length + unit.length < 512
      · obtain ⟨strBuff₂, appended', textHeld₂⟩ := textHeld₁.append_eq nulFree fitsUnit rest
        rw [appended', ok_bind, ← length_eq]
        exact ih textHeld₂ next_eq
      · rw [textHeld₁.append_stray nulFree (by omega), if_neg]
        · rfl
        · rw [length_append, length_append]
          exact fun fits => fitsUnit (by change (text ++ ['/']).length + _ < _; omega)
    · rw [CText.memory, textHeld.append_stray slash.nulFree (by omega), if_neg]
      · rfl
      · rw [length_append, length_append, length_append]
        exact fun fits => fitsSlash (by change text.length + ['/'].length < _; omega)

theorem finish_eq {kept : List Name} (holds : res.Holds kept) (textHeld : strBuff.Text text) :
    if kept = [] then ∃ strBuff', finish strBuff kept.length res = .ok strBuff' ∧ strBuff'.Text ['/']
    else if (text ++ joinAbsolutePath kept).length < 512 then
      ∃ strBuff', finish strBuff kept.length res = .ok strBuff' ∧
        strBuff'.Text (text ++ joinAbsolutePath kept)
    else finish strBuff kept.length res = .error .stray := by
  have assembled := assemble_eq holds textHeld (nil_append kept).symm
  unfold finish
  cases kept with
  | nil =>
    obtain ⟨strBuff', copied, textHeld'⟩ := strBuff.strcpy_text slash.nulFree (by decide) []
    exact ⟨strBuff', copied, textHeld'⟩
  | cons unit kept =>
    rw [if_neg (cons_ne_nil unit kept)]
    rw [length_nil] at assembled
    split at assembled
    · rename_i fits
      obtain ⟨strBuff', assembled, textHeld'⟩ := assembled
      rw [if_pos fits, assembled]
      exact ⟨strBuff', rfl, textHeld'⟩
    · rename_i tooLong
      rw [if_neg tooLong, assembled]
      rfl

end Loops

/-! ## The whole function -/

def Returns (outcome : Outcome (Option (List Char) × PathTables)) : Outcome (Option (List Char)) → Prop
  | .error halt => outcome = .error halt
  | .ok none => ∃ tables, outcome = .ok (none, tables)
  | .ok (some text) => nul ∉ text ∧ ∃ rest tables, outcome = .ok (some (text ++ nul :: rest), tables)

def joined (path : CText) (cwd : Option CText) : List Char :=
  pathBuffer path.chars (cwd.map CText.chars)

def PutsJoined (path : CText) (cwd : Option CText) : Prop :=
  if (joined path cwd).length < 512 then
    ∃ strBuff strBuff', putCwd (some path) cwd = .ok strBuff ∧
      strBuff.append path.memory = .ok strBuff' ∧ strBuff'.Text (joined path cwd)
  else putCwd (some path) cwd = .error .stray ∨ ∃ strBuff, putCwd (some path) cwd = .ok strBuff ∧
    strBuff.append path.memory = .error .stray

theorem putsJoined_of_front {cwd : Option CText} {front : List Char}
    (put_eq : putCwd (some path) cwd = .ok strBuff) (held : strBuff.Text front)
    (joined_eq : joined path cwd = front ++ path.chars) : PutsJoined path cwd := by
  have appended := held.append_memory path
  unfold PutsJoined
  rw [joined_eq]
  split at appended
  · rename_i fits
    obtain ⟨strBuff', appended, held'⟩ := appended
    rw [if_pos fits]
    exact ⟨strBuff, strBuff', put_eq, appended, held'⟩
  · rename_i tooLong
    rw [if_neg tooLong]
    exact .inr ⟨strBuff, put_eq, appended⟩

theorem putsJoined_of_stray {cwd : Option CText} (put_eq : putCwd (some path) cwd = .error .stray)
    (tooLong : 512 ≤ (joined path cwd).length) : PutsJoined path cwd := by
  unfold PutsJoined
  rw [if_neg (by omega)]
  exact .inl put_eq

theorem putsJoined_of_relative {cwd : CText} (relative : path.chars.head? ≠ some '/') :
    PutsJoined path (some cwd) := by
  have put_eq : putCwd (some path) (some cwd) = (do
      let strBuff ← (Buffer.zero 512).strcpy 0 cwd.memory
      if cwd.chars.length = 0 ∨ cwd.chars.getLast? ≠ some '/' then strBuff.append slash.memory
      else return strBuff) := if_neg relative
  have joined_eq : joined path (some cwd) = if cwd.chars.getLast? = some '/' then cwd.chars ++ path.chars
      else cwd.chars ++ '/' :: path.chars := if_neg relative
  by_cases fits : cwd.chars.length < 512
  · obtain ⟨strBuff, copied, held⟩ := (Buffer.zero 512).strcpy_text cwd.nulFree fits []
    rw [show cwd.memory = cwd.chars ++ [nul] from rfl, copied, ok_bind] at put_eq
    by_cases ends : cwd.chars.getLast? = some '/'
    · have notEmpty : ¬ (cwd.chars.length = 0 ∨ cwd.chars.getLast? ≠ some '/') := by
        rw [length_eq_zero_iff]
        rintro (isEmpty | notEnds)
        · rw [isEmpty] at ends
          cases ends
        · exact notEnds ends
      rw [if_neg notEmpty] at put_eq
      exact putsJoined_of_front put_eq held (joined_eq.trans (if_pos ends))
    · rw [if_pos (.inr ends)] at put_eq
      have appended := held.append_memory slash
      split at appended
      · obtain ⟨strBuff', appended, held'⟩ := appended
        rw [appended] at put_eq
        apply putsJoined_of_front put_eq held'
        rw [joined_eq, if_neg ends, append_assoc]
        rfl
      · rename_i tooLong
        rw [appended] at put_eq
        apply putsJoined_of_stray put_eq
        rw [joined_eq, if_neg ends, length_append, length_cons]
        rw [length_append, show slash.chars.length = 1 from rfl] at tooLong
        omega
  · rw [show cwd.memory = cwd.chars ++ [nul] from rfl,
      (Buffer.zero 512).strcpy_stray cwd.nulFree (by omega)] at put_eq
    apply putsJoined_of_stray put_eq
    rw [joined_eq]
    split
    · rw [length_append]
      omega
    · rw [length_append]
      omega

theorem putCwd_eq (path : CText) (cwd : Option CText) : PutsJoined path cwd := by
  cases cwd with
  | none => exact putsJoined_of_front rfl (Buffer.zero_text (by decide)) rfl
  | some cwd =>
    by_cases absolute : path.chars.head? = some '/'
    · exact putsJoined_of_front (if_pos absolute) (Buffer.zero_text (by decide)) (if_pos absolute)
    · exact putsJoined_of_relative absolute

theorem text_of_split {rest : List Char} (nulFree : nul ∉ text)
    (chars_eq : strBuff.chars = text.map blank ++ nul :: rest) :
    strBuff.Text (text.takeWhile (· ≠ '/')) := by
  refine ⟨fun isNul => nulFree ((takeWhile_sublist _).subset isNul), ?_⟩
  have kept : ∀ {unit : List Char}, '/' ∉ unit → ∀ char ∈ unit, decide (char ≠ '/') = true := by
    intro unit noSlash char charMem
    exact decide_eq_true fun isSlash => noSlash (isSlash ▸ charMem)
  by_cases hasSlash : '/' ∈ text
  · obtain ⟨unit, more, rfl, noSlash⟩ := eq_append_cons_of_mem hasSlash
    refine ⟨more.map blank ++ nul :: rest, ?_⟩
    rw [chars_eq, takeWhile_append_of_pos (kept noSlash), takeWhile_cons_of_neg (by decide),
      map_append, map_blank_of_not_mem noSlash]
    simp [blank]
  · refine ⟨rest, ?_⟩
    rw [chars_eq, takeWhile_eq_self_iff.2 (kept hasSlash), map_blank_of_not_mem hasSlash]

theorem finish_returns {res : Rows} {kept : List Name} (holds : res.Holds kept)
    (textHeld : strBuff.Text text) (units : Rows) :
    Returns (finish strBuff kept.length res >>= fun strBuff =>
        .ok (some strBuff.chars, { strBuff := strBuff, units := units, res := res }))
      (if kept = [] then .ok (some ['/'])
      else if 512 ≤ (text ++ joinAbsolutePath kept).length then .error .stray
      else .ok (some (text ++ joinAbsolutePath kept))) := by
  have finished := finish_eq holds textHeld
  have returned : ∀ {strBuff' : Buffer 512} {text' : List Char}, finish strBuff kept.length res = .ok strBuff' →
      strBuff'.Text text' → Returns (finish strBuff kept.length res >>= fun strBuff =>
        .ok (some strBuff.chars, { strBuff := strBuff, units := units, res := res })) (.ok (some text')) := by
    intro strBuff' text' finish_eq held
    obtain ⟨notNul, rest, chars_eq⟩ := held
    refine ⟨notNul, rest, { strBuff := strBuff', units := units, res := res }, ?_⟩
    rw [finish_eq, ok_bind, chars_eq]
  split at finished
  · rename_i isEmpty
    obtain ⟨strBuff', finish_eq, held⟩ := finished
    rw [if_pos isEmpty]
    exact returned finish_eq held
  · rename_i notEmpty
    rw [if_neg notEmpty]
    split at finished
    · rename_i short
      obtain ⟨strBuff', finish_eq, held⟩ := finished
      rw [if_neg (Nat.not_le.2 short)]
      exact returned finish_eq held
    · rename_i long
      rw [if_pos (Nat.not_lt.1 long), finished]
      rfl

theorem getAbsolutePath_eq (path : CText) (cwd : Option CText) :
    Sched.getAbsolutePath path.chars (cwd.map CText.chars) =
      if 512 ≤ (joined path cwd).length ∨ 16 < (components (joined path cwd)).length then .error .stray
      else (resolve (components (joined path cwd)) []).elim (.ok none) fun kept =>
        if kept = [] then .ok (some ['/'])
        else if 512 ≤ ((joined path cwd).takeWhile (· ≠ '/') ++ joinAbsolutePath kept).length then .error .stray
        else .ok (some ((joined path cwd).takeWhile (· ≠ '/') ++ joinAbsolutePath kept)) := by
  unfold Sched.getAbsolutePath joined
  dsimp only
  split
  · rfl
  · cases resolve (components (pathBuffer path.chars (cwd.map CText.chars))) [] with
    | none => rfl
    | some kept => cases kept <;> rfl

theorem getAbsolutePath_refines (tables : PathTables) (path : CText) (cwd : Option CText) :
    Returns (tables.getAbsolutePath (some path) cwd)
      (Sched.getAbsolutePath path.chars (cwd.map CText.chars)) := by
  have put := putCwd_eq path cwd
  unfold PutsJoined at put
  rw [getAbsolutePath_eq]
  unfold PathTables.getAbsolutePath
  split at put
  · rename_i fits
    obtain ⟨strBuff, strBuff₁, put_eq, appended, nulFree, rest, chars_eq⟩ := put
    have split := @splitUnits_eq strBuff₁ tables.units [] [] (joined path cwd) rest 513 chars_eq nulFree
      (Rows.holds_nil _) (by omega)
    simp only [length_nil, nil_append] at split
    rw [put_eq, ok_bind]
    dsimp only
    rw [appended, ok_bind]
    split at split
    · rename_i few
      obtain ⟨strBuff₂, units, split_eq, chars_eq₂, holds⟩ := split
      obtain ⟨res, resolve_eq, holdsRes⟩ := @resolveUnits_eq units tables.res _ [] holds (Rows.holds_nil _)
        (by decide) [] (components (joined path cwd)) rfl
      simp only [length_nil] at resolve_eq
      rw [if_neg (by omega), split_eq, ok_bind]
      dsimp only
      rw [resolve_eq, ok_bind]
      cases resolved : resolve (components (joined path cwd)) [] with
      | none => exact ⟨_, rfl⟩
      | some kept => exact finish_returns (holdsRes kept resolved) (text_of_split nulFree chars_eq₂) units
    · rename_i many
      rw [if_pos (.inr (by omega)), split]
      rfl
  · rename_i tooLong
    rw [if_pos (.inl (by omega))]
    rcases put with put_eq | ⟨strBuff, put_eq, appended⟩
    · rw [put_eq]
      rfl
    · rw [put_eq, ok_bind]
      dsimp only
      rw [appended]
      rfl

end SysCore.Path
