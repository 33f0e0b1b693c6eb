import SysCore.Memory.Stack
import SysCore.Process.Managers
import Mathlib.Algebra.Order.BigOperators.Group.List
import Mathlib.Data.List.Forall2

/-!
# The stack a process starts with

`create_process` takes a page for the stack, clears it and fills it downwards from 80
bytes below its end: the name of the file, the strings of the environment and of the
arguments, then from an aligned pointer on the auxiliary vector and the pointers to
the strings, each row ended by a zero word, and the number of arguments.

Behind the aligning, 63 words and one more for every argument are put, so that the
pointer ends at a multiple of 16 only with an odd number of arguments.
-/

namespace SysCore.Process

open Transition Memory List

structure Text where
  bytes : List UInt8
  nulFree : 0 ∉ bytes

namespace Text

def memory (text : Text) : List UInt8 :=
  text.bytes ++ [0]

def size (text : Text) : Nat :=
  text.bytes.length + 1

def sizes (texts : List Text) : Nat :=
  (texts.map size).sum

def At (text : Text) (m : Bytes) (address : Nat) : Prop :=
  Carries m address text.memory

end Text

def bytesOf (literal : String) : List UInt8 :=
  literal.toList.map fun char => UInt8.ofNat char.toNat

/-! ## The functions of the scheduler -/

def copyToStack (s : Stack) (source : List UInt8) (length : Int) : Outcome Stack :=
  if source.length < length.toNat then
    .error .stray
  else
    (s.descend length).store length.toNat fun m a => copyBytes m a (source.take length.toNat)

def putAux (s : Stack) (auxId auxVal : Nat) : Outcome Stack := do
  let s ← s.pushWord auxVal
  s.pushWord auxId

def putEnvp (s : Stack) (auxVal : Nat) : Outcome Stack :=
  s.pushWord auxVal

inductive AuxId where
  | null
  | phdr
  | phent
  | phnum
  | pagesz
  | base
  | flags
  | entry
  | uid
  | euid
  | gid
  | egid
  | hwcap
  | clktck
  | random
  | execfn
  | sysinfoEhdr
  | unnamed (code : Nat)

def AuxId.code : AuxId → Nat
  | null => 0
  | phdr => 3
  | phent => 4
  | phnum => 5
  | pagesz => 6
  | base => 7
  | flags => 8
  | entry => 9
  | uid => 11
  | euid => 12
  | gid => 13
  | egid => 14
  | hwcap => 16
  | clktck => 17
  | random => 25
  | execfn => 31
  | sysinfoEhdr => 33
  | unnamed code => code

def env : List Text :=
  [⟨bytesOf "SHELL=ash", by decide⟩,
   ⟨bytesOf "PWD=/", by decide⟩,
   ⟨bytesOf "HOME=/", by decide⟩,
   ⟨bytesOf "USER=root", by decide⟩,
   ⟨bytesOf "MOTD_SHOWN=pam", by decide⟩,
   ⟨bytesOf "LANG=C.UTF-8", by decide⟩,
   ⟨bytesOf "INVOCATION_ID=e9500a871cf044d9886a157f53826684", by decide⟩,
   ⟨bytesOf "TERM=vt220", by decide⟩,
   ⟨bytesOf "SHLVL=2", by decide⟩,
   ⟨bytesOf "JOURNAL_STREAM=8:9265", by decide⟩,
   ⟨bytesOf "PATH=/", by decide⟩,
   ⟨bytesOf "OLDPWD=/", by decide⟩,
   ⟨bytesOf "_=busybox", by decide⟩]

def filename : Text :=
  ⟨bytesOf "busybox", by decide⟩

structure Loaded where
  kernelPhdr : UInt64
  entry : UInt64
  phNum : Int
  rrr : UInt64

def Loaded.auxEnvironment (elf : Loaded) (filenameAddr : Nat) : List (AuxId × Nat) :=
  [(.null, 0),
   (.unnamed 0x28, 0),
   (.unnamed 0x29, 0),
   (.unnamed 0x2a, 0),
   (.unnamed 0x2b, 0),
   (.unnamed 0x2c, 0),
   (.unnamed 0x2d, 0),
   (.phdr, elf.kernelPhdr.toNat),
   (.phent, 56),
   (.phnum, toSize elf.phNum),
   (.pagesz, 0x1000),
   (.base, 0),
   (.flags, 0),
   (.entry, elf.entry.toNat),
   (.uid, 0),
   (.euid, 0),
   (.gid, 0),
   (.egid, 0),
   (.hwcap, 0x112d),
   (.clktck, 64),
   (.random, elf.rrr.toNat),
   (.execfn, filenameAddr),
   (.sysinfoEhdr, 0x300000000)]

def copyStrings : List Text → Stack → Outcome (List Nat × Stack)
  | [], s => .ok ([], s)
  | text :: texts, s => do
    let s ← copyToStack s text.memory (toInt text.size)
    let (addresses, s') ← copyStrings texts s
    return (s.sp :: addresses, s')

def putAuxs : List (AuxId × Nat) → Stack → Outcome Stack
  | [], s => .ok s
  | (auxId, auxVal) :: rest, s => do
    let s ← putAux s auxId.code auxVal
    putAuxs rest s

def putEnvps : List Nat → Stack → Outcome Stack
  | [], s => .ok s
  | address :: rest, s => do
    let s ← putEnvp s address
    putEnvps rest s

def align (s : Stack) : Stack :=
  { s with sp := s.sp - s.sp % 16 }

structure StackPage where
  address : Nat
  aligned : address % 4096 = 0
  lower : 4096 ≤ address
  upper : address + 4096 ≤ 2 ^ 64

def StackPage.empty (stackPage : StackPage) (m : Bytes) : Stack :=
  { low := stackPage.address, high := stackPage.address + 4096
    sp := stackPage.address + 4096 - 10 * 8
    bytes := fillPage m stackPage.address fun _ => 0 }

def putPointers (elf : Loaded) (filenameAddr : Nat) (envpStrings argvStrings : List Nat) (s : Stack) :
    Outcome Stack := do
  let s ← putAuxs (elf.auxEnvironment filenameAddr) s
  let s := s.descend 8
  let s ← putEnvps envpStrings s
  let s := s.descend 8
  let s ← putEnvps argvStrings s
  let s ← putEnvp s filenameAddr
  putEnvp s (toSize (toInt argvStrings.length + 1))

def createStack (m : Bytes) (stackPage : StackPage) (elf : Loaded) (argv : Option (List Text)) :
    Outcome Stack := do
  let s ← copyToStack (stackPage.empty m) filename.memory (toInt filename.size)
  let filenameAddr := s.sp
  let (envpStrings, s) ← copyStrings env s
  let (copied, s) ← copyStrings (argv.getD []) s
  let argvStrings := copied.reverse
  putPointers elf filenameAddr envpStrings argvStrings (align s)

/-! ## Strings on the stack -/

section Strings

variable {s s' : Stack} {text : Text} {texts : List Text}

theorem toInt_of_lt {n : Nat} (small : n < 2 ^ 31) : toInt n = n := by
  unfold toInt
  omega

theorem Text.length_memory (text : Text) : text.memory.length = text.size := by
  simp [Text.memory, Text.size]

theorem Text.size_pos (text : Text) : 0 < text.size :=
  Nat.succ_pos _

theorem copyToStack_text (s : Stack) (small : text.size < 2 ^ 31) :
    copyToStack s text.memory (toInt text.size) =
      s.push text.size fun m a => copyBytes m a text.memory := by
  unfold copyToStack Stack.push
  rw [toInt_of_lt small, Int.toNat_natCast, if_neg (by rw [text.length_memory]; omega), ← text.length_memory,
    take_length]

theorem copyToStack_of_room (text : Text) (ready : s.Ready) (small : text.size < 2 ^ 31)
    (room : s.low + text.size ≤ s.sp) :
    ∃ s', copyToStack s text.memory (toInt text.size) = .ok s' ∧ s.Grown s' ∧ s'.Ready ∧
      s'.sp + text.size = s.sp ∧ text.At s'.bytes s'.sp := by
  have narrow (m : Bytes) (a b : Nat) (outside : b < a ∨ a + text.size ≤ b) :
      copyBytes m a text.memory b = m b :=
    copyBytes_of_outside m _ (by rw [text.length_memory]; exact outside)
  obtain ⟨s', push_ok, grown, ready', sp_eq, bytes_eq⟩ :=
    Stack.push_of_room ready text.size_pos narrow room
  refine ⟨s', ?_, grown, ready', sp_eq, ?_⟩
  · rw [copyToStack_text s small, push_ok]
  · unfold Text.At
    rw [bytes_eq]
    exact carries_copyBytes _ _ _

theorem room_of_copyToStack (ready : s.Ready) (small : text.size < 2 ^ 31)
    (copy_ok : copyToStack s text.memory (toInt text.size) = .ok s') :
    s.low + text.size ≤ s.sp ∧ s.Grown s' ∧ s'.Ready ∧ s'.sp + text.size = s.sp := by
  have push_ok := copy_ok
  rw [copyToStack_text s small] at push_ok
  have room := Stack.room_of_push ready text.size_pos (by omega) push_ok
  obtain ⟨s'', copy_ok', grown, ready', sp_eq, -⟩ := copyToStack_of_room text ready small room
  cases copy_ok.symm.trans copy_ok'
  exact ⟨room, grown, ready', sp_eq⟩

theorem Text.sizes_cons (text : Text) (texts : List Text) :
    Text.sizes (text :: texts) = text.size + Text.sizes texts :=
  sum_cons

def Text.Above (s : Stack) (text : Text) (address : Nat) : Prop :=
  s.sp ≤ address ∧ text.At s.bytes address

theorem Text.Above.grown {address : Nat} (grown : s.Grown s') (above : text.Above s address) :
    text.Above s' address :=
  ⟨grown.sp_le.trans above.1, grown.carries above.1 above.2⟩

theorem le_of_above {addresses : List Nat} (above : List.Forall₂ (Text.Above s) texts addresses) :
    ∀ address ∈ addresses, s.sp ≤ address := by
  induction above with
  | nil => nofun
  | cons first _ ih => exact forall_mem_cons.2 ⟨first.1, ih⟩

theorem copyStrings_of_room (ready : s.Ready) (small : ∀ text ∈ texts, text.size < 2 ^ 31)
    (room : texts = [] ∨ s.low + Text.sizes texts ≤ s.sp) :
    ∃ addresses s', copyStrings texts s = .ok (addresses, s') ∧ s.Grown s' ∧ s'.Ready ∧
      s'.sp + Text.sizes texts = s.sp ∧ (∀ address ∈ addresses, address < s.sp) ∧
      List.Forall₂ (Text.Above s') texts addresses := by
  induction texts generalizing s with
  | nil => exact ⟨[], s, rfl, .refl s, ready, rfl, nofun, .nil⟩
  | cons text texts ih =>
    replace room := room.resolve_left (cons_ne_nil _ _)
    rw [Text.sizes_cons] at room ⊢
    obtain ⟨s₁, copy_ok, grown₁, ready₁, sp_eq₁, isAt⟩ :=
      copyToStack_of_room text ready (small text mem_cons_self) (by omega)
    have low_eq := grown₁.low_eq
    obtain ⟨addresses, s₂, rest_ok, grown₂, ready₂, sp_eq₂, below, above⟩ :=
      ih ready₁ (fun other otherMem => small other (mem_cons_of_mem _ otherMem)) (.inr (by omega))
    have size_pos := text.size_pos
    refine ⟨s₁.sp :: addresses, s₂, ?_, grown₁.trans grown₂, ready₂, by omega, ?_, .cons ?_ above⟩
    · rw [copyStrings, copy_ok, ok_bind, rest_ok]
      rfl
    · intro address addressMem
      rcases mem_cons.1 addressMem with rfl | later
      · omega
      · have := below address later
        omega
    · exact Text.Above.grown grown₂ ⟨le_rfl, isAt⟩

theorem length_of_copyStrings {addresses : List Nat} (copy_ok : copyStrings texts s = .ok (addresses, s')) :
    addresses.length = texts.length := by
  induction texts generalizing s addresses s' with
  | nil =>
    cases copy_ok
    rfl
  | cons text texts ih =>
    obtain ⟨s₁, -, copy_ok⟩ := bind_eq_ok.1 copy_ok
    obtain ⟨⟨rest, s₂⟩, rest_ok, last_eq⟩ := bind_eq_ok.1 copy_ok
    cases last_eq
    rw [length_cons, length_cons, ih rest_ok]

theorem room_of_copyStrings {addresses : List Nat} (ready : s.Ready)
    (small : ∀ text ∈ texts, text.size < 2 ^ 31) (copy_ok : copyStrings texts s = .ok (addresses, s')) :
    (texts = [] ∨ s.low + Text.sizes texts ≤ s.sp) ∧ s.Grown s' ∧ s'.Ready ∧
      s'.sp + Text.sizes texts = s.sp ∧ ∀ address ∈ addresses, address < s.sp := by
  have room : texts = [] ∨ s.low + Text.sizes texts ≤ s.sp := by
    induction texts generalizing s addresses s' with
    | nil => exact .inl rfl
    | cons text texts ih =>
      obtain ⟨s₁, first_ok, copy_ok⟩ := bind_eq_ok.1 copy_ok
      obtain ⟨⟨rest, s₂⟩, rest_ok, -⟩ := bind_eq_ok.1 copy_ok
      obtain ⟨room, grown, ready₁, sp_eq⟩ :=
        room_of_copyToStack ready (small text mem_cons_self) first_ok
      have low_eq := grown.low_eq
      rw [Text.sizes_cons]
      rcases ih ready₁ (fun other otherMem => small other (mem_cons_of_mem _ otherMem)) rest_ok with
        rfl | restRoom
      · exact .inr (by simpa [Text.sizes] using room)
      · exact .inr (by omega)
  obtain ⟨addresses', s'', copy_ok', grown, ready', sp_eq, below, -⟩ := copyStrings_of_room ready small room
  cases copy_ok.symm.trans copy_ok'
  exact ⟨room, grown, ready', sp_eq, below⟩

end Strings

/-! ## Words on the stack -/

section Words

variable {s s' : Stack}

def auxWords (aux : List (AuxId × Nat)) : List Nat :=
  aux.flatMap fun pair => [pair.2, pair.1.code]

theorem putAuxs_eq (aux : List (AuxId × Nat)) (s : Stack) : putAuxs aux s = Stack.pushWords (auxWords aux) s := by
  induction aux generalizing s with
  | nil => rfl
  | cons pair aux ih =>
    rw [auxWords, flatMap_cons, Stack.pushWords_append, putAuxs, putAux, Stack.pushWords]
    cases s.pushWord pair.2 with
    | error halt => rfl
    | ok s₁ =>
      rw [ok_bind, ok_bind, Stack.pushWords]
      cases s₁.pushWord pair.1.code with
      | error halt => rfl
      | ok s₂ => exact ih s₂

theorem putEnvps_eq (addresses : List Nat) (s : Stack) : putEnvps addresses s = Stack.pushWords addresses s := by
  induction addresses generalizing s with
  | nil => rfl
  | cons address rest ih =>
    rw [putEnvps, Stack.pushWords, putEnvp]
    cases s.pushWord address with
    | error halt => rfl
    | ok s' => exact ih s'

theorem putPointers_eq (elf : Loaded) (filenameAddr : Nat) (envpStrings argvStrings : List Nat) (s : Stack) :
    putPointers elf filenameAddr envpStrings argvStrings s =
      Stack.pushWords (auxWords (elf.auxEnvironment filenameAddr)) s >>= fun s =>
      Stack.pushBelow envpStrings s >>= fun s =>
      Stack.pushBelow (argvStrings ++ [filenameAddr, toSize (toInt argvStrings.length + 1)]) s := by
  unfold putPointers Stack.pushBelow
  rw [putAuxs_eq]
  apply bind_congr
  intro s₁
  dsimp only
  rw [putEnvps_eq]
  apply bind_congr
  intro s₂
  rw [putEnvps_eq, Stack.pushWords_append]
  apply bind_congr
  intro s₃
  rw [putEnvp, Stack.pushWords]
  apply bind_congr
  intro s₄
  rw [putEnvp, Stack.pushWords]
  cases s₄.pushWord (toSize (toInt argvStrings.length + 1)) <;> rfl

theorem toSize_lt (i : Int) : toSize i < 2 ^ 64 := by
  unfold toSize
  omega

theorem auxWords_lt (elf : Loaded) {filenameAddr : Nat} (filenameAddr_lt : filenameAddr < 2 ^ 64) :
    ∀ word ∈ auxWords (elf.auxEnvironment filenameAddr), word < 2 ^ 64 := by
  have phdr_lt := elf.kernelPhdr.toNat_lt
  have entry_lt := elf.entry.toNat_lt
  have rrr_lt := elf.rrr.toNat_lt
  have phNum_lt := toSize_lt elf.phNum
  have pairs_lt : ∀ pair ∈ elf.auxEnvironment filenameAddr, pair.2 < 2 ^ 64 ∧ pair.1.code < 2 ^ 64 := by
    simp only [Loaded.auxEnvironment, mem_cons, not_mem_nil, or_false, Nat.reducePow, AuxId.code,
      forall_eq_or_imp, Nat.zero_lt_succ, and_self, Nat.reduceLT, and_true, forall_eq, true_and]
    omega
  intro word wordMem
  obtain ⟨pair, pairMem, isOne⟩ := mem_flatMap.1 wordMem
  rcases mem_pair.1 isOne with rfl | rfl
  · exact (pairs_lt pair pairMem).1
  · exact (pairs_lt pair pairMem).2

theorem length_auxWords (aux : List (AuxId × Nat)) : (auxWords aux).length = 2 * aux.length := by
  induction aux with
  | nil => rfl
  | cons pair aux ih =>
    rw [auxWords, flatMap_cons, length_append, ← auxWords, ih]
    simp only [length_cons, length_nil]
    omega

theorem length_auxEnvironment (elf : Loaded) (filenameAddr : Nat) :
    (elf.auxEnvironment filenameAddr).length = 23 :=
  rfl

theorem reverse_auxWords (aux : List (AuxId × Nat)) :
    (auxWords aux).reverse = aux.reverse.flatMap fun pair => [pair.1.code, pair.2] := by
  unfold auxWords
  rw [reverse_flatMap]
  rfl

def pointerWords (envpStrings argvStrings : List Nat) : Nat :=
  2 * 23 + (envpStrings.length + 1) + (argvStrings.length + 3)

variable {filenameAddr : Nat} {envpStrings argvStrings : List Nat}

theorem length_last :
    (argvStrings ++ [filenameAddr, toSize (toInt argvStrings.length + 1)]).length = argvStrings.length + 2 :=
  length_append

theorem last_lt (filenameAddr_lt : filenameAddr < 2 ^ 64) (argv_lt : ∀ address ∈ argvStrings, address < 2 ^ 64) :
    ∀ word ∈ argvStrings ++ [filenameAddr, toSize (toInt argvStrings.length + 1)], word < 2 ^ 64 := by
  intro word wordMem
  rcases mem_append.1 wordMem with isArgv | isLast
  · exact argv_lt word isArgv
  · rcases mem_pair.1 isLast with word_eq | word_eq
    · rw [word_eq]
      exact filenameAddr_lt
    · rw [word_eq]
      exact toSize_lt _

theorem putPointers_of_room (elf : Loaded) (ready : s.Ready) (clear : s.Clear)
    (filenameAddr_lt : filenameAddr < 2 ^ 64)
    (envp_lt : ∀ address ∈ envpStrings, address < 2 ^ 64) (argv_lt : ∀ address ∈ argvStrings, address < 2 ^ 64)
    (room : s.low + 8 * pointerWords envpStrings argvStrings ≤ s.sp) :
    ∃ s', putPointers elf filenameAddr envpStrings argvStrings s = .ok s' ∧ s.Grown s' ∧
      s'.sp + 8 * pointerWords envpStrings argvStrings = s.sp ∧
      Spells s'.bytes s'.sp (toSize (toInt argvStrings.length + 1) :: filenameAddr :: argvStrings.reverse ++
        0 :: (envpStrings.reverse ++ 0 :: ((elf.auxEnvironment filenameAddr).reverse.flatMap fun pair =>
          [pair.1.code, pair.2]))) := by
  have aux_length := length_auxWords (elf.auxEnvironment filenameAddr)
  rw [length_auxEnvironment] at aux_length
  unfold pointerWords at room ⊢
  obtain ⟨s₁, aux_ok, grown₁, ready₁, sp_eq₁, spells₁⟩ :=
    Stack.pushWords_of_room ready (auxWords_lt elf filenameAddr_lt) (.inr (by omega))
  have low_eq₁ := grown₁.low_eq
  obtain ⟨s₂, envp_ok, grown₂, ready₂, sp_eq₂, spells₂⟩ :=
    Stack.pushBelow_of_room ready₁ envp_lt (by omega)
  have low_eq₂ := grown₂.low_eq
  obtain ⟨s₃, argv_ok, grown₃, -, sp_eq₃, spells₃⟩ :=
    Stack.pushBelow_of_room ready₂ (last_lt filenameAddr_lt argv_lt) (by rw [length_last]; omega)
  rw [length_last] at sp_eq₃
  refine ⟨s₃, ?_, (grown₁.trans grown₂).trans grown₃, by omega, ?_⟩
  · rw [putPointers_eq, aux_ok, ok_bind, envp_ok, ok_bind, argv_ok]
  · have clear₁ := grown₁.clear clear
    have all := spells₃ (grown₂.clear clear₁) _ (spells₂ clear₁ _ (spells₁ [] trivial))
    rw [append_nil, reverse_auxWords] at all
    simpa using all

theorem room_of_putPointers {elf : Loaded} (ready : s.Ready) (filenameAddr_lt : filenameAddr < 2 ^ 64)
    (envp_lt : ∀ address ∈ envpStrings, address < 2 ^ 64) (argv_lt : ∀ address ∈ argvStrings, address < 2 ^ 64)
    (envpNonempty : envpStrings ≠ []) (put_ok : putPointers elf filenameAddr envpStrings argvStrings s = .ok s') :
    s.low + 8 * pointerWords envpStrings argvStrings ≤ s.sp := by
  have aux_length := length_auxWords (elf.auxEnvironment filenameAddr)
  rw [length_auxEnvironment] at aux_length
  have aux_lt := auxWords_lt elf filenameAddr_lt
  rw [putPointers_eq] at put_ok
  obtain ⟨s₁, aux_ok, put_ok⟩ := bind_eq_ok.1 put_ok
  obtain ⟨s₂, envp_ok, argv_ok⟩ := bind_eq_ok.1 put_ok
  obtain ⟨auxRoom, grown₁, ready₁, sp_eq₁⟩ := Stack.room_of_pushWords ready aux_lt aux_ok
  replace auxRoom : s.low + 8 * (2 * 23) ≤ s.sp := by
    rcases auxRoom with isNil | auxRoom
    · rw [isNil] at aux_length
      cases aux_length
    · omega
  have low_eq₁ := grown₁.low_eq
  obtain ⟨envpRoom, grown₂, ready₂, sp_eq₂⟩ :=
    Stack.room_of_pushBelow ready₁ (by omega) envp_lt envpNonempty envp_ok
  have low_eq₂ := grown₂.low_eq
  obtain ⟨argvRoom, -⟩ := Stack.room_of_pushBelow ready₂ (by omega) (last_lt filenameAddr_lt argv_lt)
    (append_ne_nil_of_right_ne_nil _ (cons_ne_nil _ _)) argv_ok
  rw [length_last] at argvRoom
  unfold pointerWords
  omega

theorem sp_mod_of_putPointers {elf : Loaded}
    (put_ok : putPointers elf filenameAddr envpStrings argvStrings s = .ok s') :
    s'.sp % 16 = (s.sp + 8 * pointerWords envpStrings argvStrings) % 16 := by
  have aux_length := length_auxWords (elf.auxEnvironment filenameAddr)
  rw [length_auxEnvironment] at aux_length
  rw [putPointers_eq] at put_ok
  obtain ⟨s₁, aux_ok, put_ok⟩ := bind_eq_ok.1 put_ok
  obtain ⟨s₂, envp_ok, argv_ok⟩ := bind_eq_ok.1 put_ok
  have mod₁ := Stack.sp_mod_of_pushWords aux_ok
  have mod₂ := Stack.sp_mod_of_pushBelow envp_ok
  have mod₃ := Stack.sp_mod_of_pushBelow argv_ok
  rw [length_last] at mod₃
  unfold pointerWords
  omega

end Words

/-! ## The whole stack -/

def stringBytes (argv : List Text) : Nat :=
  filename.size + Text.sizes env + Text.sizes argv

def Fits (argv : List Text) : Prop :=
  stringBytes argv + (4016 - stringBytes argv) % 16 + 8 * (63 + argv.length) ≤ 4016

section Whole

variable {m : Bytes} {stackPage : StackPage} {elf : Loaded} {argv : Option (List Text)} {s : Stack}

theorem StackPage.empty_ready (m : Bytes) (stackPage : StackPage) : (stackPage.empty m).Ready := by
  have lower := stackPage.lower
  constructor
  · unfold StackPage.empty
    dsimp only
    omega
  · unfold StackPage.empty
    dsimp only
    omega
  · unfold StackPage.empty
    dsimp only
    omega
  · exact stackPage.upper

theorem StackPage.empty_clear (m : Bytes) (stackPage : StackPage) : (stackPage.empty m).Clear := by
  intro a lower upper
  have upper' : a < stackPage.address + 4096 - 10 * 8 := upper
  exact if_pos ⟨lower, by omega⟩

theorem Text.size_le_sizes {text : Text} {texts : List Text} (textMem : text ∈ texts) :
    text.size ≤ Text.sizes texts :=
  single_le_sum (fun _ _ => Nat.zero_le _) _ (mem_map_of_mem textMem)

theorem sizes_env : Text.sizes env = 175 := by
  decide

theorem env_small : ∀ text ∈ env, text.size < 2 ^ 31 := by
  intro text textMem
  have size_le := Text.size_le_sizes textMem
  rw [sizes_env] at size_le
  omega

theorem stringBytes_eq (argv : List Text) : stringBytes argv = 8 + 175 + Text.sizes argv := by
  rw [stringBytes, sizes_env]
  rfl

theorem align_spec (stackPage : StackPage) (ready : s.Ready) (low_eq : s.low = stackPage.address)
    (lower : s.low ≤ s.sp) : s.Grown (align s) ∧ (align s).Ready ∧ s.low ≤ (align s).sp := by
  have aligned := stackPage.aligned
  obtain ⟨margin, -, upper, bound⟩ := ready
  have sp_eq : (align s).sp = s.sp - s.sp % 16 := rfl
  refine ⟨.of_le (Nat.sub_le _ _), ⟨margin, ?_, ?_, bound⟩, ?_⟩
  · rw [sp_eq]
    change s.low ≤ _
    omega
  · rw [sp_eq]
    change _ ≤ s.high
    omega
  · rw [sp_eq]
    omega

theorem pointerWords_eq {envpStrings copied : List Nat} {texts : List Text}
    (envp_length : envpStrings.length = env.length) (copied_length : copied.length = texts.length) :
    pointerWords envpStrings copied.reverse = 63 + texts.length := by
  have thirteen : env.length = 13 := rfl
  unfold pointerWords
  rw [length_reverse]
  omega

theorem createStack_of_fits (m : Bytes) (stackPage : StackPage) (elf : Loaded) {argv : Option (List Text)}
    (fits : Fits (argv.getD [])) :
    ∃ s filenameAddr envpStrings copied, createStack m stackPage elf argv = .ok s ∧
      (stackPage.empty m).Grown s ∧ s.low ≤ s.sp ∧ filename.Above s filenameAddr ∧
      List.Forall₂ (Text.Above s) env envpStrings ∧ List.Forall₂ (Text.Above s) (argv.getD []) copied ∧
      Spells s.bytes s.sp ((filenameAddr :: copied).length :: filenameAddr :: copied ++
        0 :: (envpStrings.reverse ++ 0 :: ((elf.auxEnvironment filenameAddr).reverse.flatMap fun pair =>
          [pair.1.code, pair.2]))) := by
  have aligned := stackPage.aligned
  have bound := stackPage.upper
  have empty_low : (stackPage.empty m).low = stackPage.address := rfl
  have empty_sp : (stackPage.empty m).sp = stackPage.address + 4096 - 10 * 8 := rfl
  unfold Fits stringBytes at fits
  obtain ⟨s₁, filename_ok, grown₁, ready₁, sp_eq₁, isAt⟩ :=
    copyToStack_of_room filename (stackPage.empty_ready m) (by decide) (by omega)
  have low_eq₁ := grown₁.low_eq
  obtain ⟨envpStrings, s₂, envp_ok, grown₂, ready₂, sp_eq₂, envp_lt, envp_above⟩ :=
    copyStrings_of_room ready₁ env_small (.inr (by omega))
  have low_eq₂ := grown₂.low_eq
  have argv_small : ∀ text ∈ argv.getD [], text.size < 2 ^ 31 := by
    intro text textMem
    have size_le := Text.size_le_sizes textMem
    omega
  obtain ⟨copied, s₃, argv_ok, grown₃, ready₃, sp_eq₃, argv_lt, argv_above⟩ :=
    copyStrings_of_room ready₂ argv_small (.inr (by omega))
  have low_eq₃ := grown₃.low_eq
  obtain ⟨grown₄, ready₄, lower₄⟩ := align_spec stackPage ready₃ (by omega) (by omega)
  have low_eq₄ := grown₄.low_eq
  have sp_eq₄ : (align s₃).sp = s₃.sp - s₃.sp % 16 := rfl
  have words_eq := pointerWords_eq envp_above.length_eq.symm argv_above.length_eq.symm
  have clear := grown₄.clear (grown₃.clear (grown₂.clear (grown₁.clear (stackPage.empty_clear m))))
  have filename_lt : s₁.sp < 2 ^ 64 := by omega
  have envp_lt' : ∀ address ∈ envpStrings, address < 2 ^ 64 := by
    intro address addressMem
    have below := envp_lt address addressMem
    omega
  have argv_lt' : ∀ address ∈ copied.reverse, address < 2 ^ 64 := by
    intro address addressMem
    have below := argv_lt address (mem_reverse.1 addressMem)
    omega
  obtain ⟨s₅, pointers_ok, grown₅, sp_eq₅, spells⟩ :=
    putPointers_of_room elf ready₄ clear filename_lt envp_lt' argv_lt' (by omega)
  have low_eq₅ := grown₅.low_eq
  have later := (grown₂.trans grown₃).trans (grown₄.trans grown₅)
  refine ⟨s₅, s₁.sp, envpStrings, copied, ?_, grown₁.trans later, by omega, ?_, ?_, ?_, ?_⟩
  · unfold createStack
    rw [filename_ok, ok_bind, envp_ok, ok_bind]
    dsimp only
    rw [argv_ok, ok_bind]
    exact pointers_ok
  · exact Text.Above.grown later ⟨le_rfl, isAt⟩
  · exact envp_above.imp fun _ _ => Text.Above.grown (grown₃.trans (grown₄.trans grown₅))
  · exact argv_above.imp fun _ _ => Text.Above.grown (grown₄.trans grown₅)
  · have argc_eq : toSize (toInt copied.reverse.length + 1) = (s₁.sp :: copied).length := by
      have copied_length := argv_above.length_eq
      rw [length_reverse, toInt_of_lt (by omega), length_cons]
      unfold toSize
      omega
    rw [argc_eq, reverse_reverse] at spells
    exact spells

def firstPage : StackPage :=
  ⟨0x80100000, by decide, by decide, by decide⟩

def someElf : Loaded :=
  { kernelPhdr := 0x80200000, entry := 0x10000, phNum := 4, rrr := 0x80050000 }

def ls : Text :=
  ⟨bytesOf "ls", by decide⟩

/-! ## The pointer of the new thread -/

def StackSound (m : Bytes) (stackPage : StackPage) (elf : Loaded) (argv : Option (List Text)) : Prop :=
  ∃ s, createStack m stackPage elf argv = .ok s ∧ s.sp % 16 = 0

theorem createStack_eq_ok (create_ok : createStack m stackPage elf argv = .ok s) :
    ∃ s₁ envpStrings s₂ copied s₃,
      copyToStack (stackPage.empty m) filename.memory (toInt filename.size) = .ok s₁ ∧
      copyStrings env s₁ = .ok (envpStrings, s₂) ∧ copyStrings (argv.getD []) s₂ = .ok (copied, s₃) ∧
      putPointers elf s₁.sp envpStrings copied.reverse (align s₃) = .ok s := by
  obtain ⟨s₁, filename_ok, create_ok⟩ := bind_eq_ok.1 create_ok
  obtain ⟨⟨envpStrings, s₂⟩, envp_ok, create_ok⟩ := bind_eq_ok.1 create_ok
  obtain ⟨⟨copied, s₃⟩, argv_ok, create_ok⟩ := bind_eq_ok.1 create_ok
  exact ⟨s₁, envpStrings, s₂, copied, s₃, filename_ok, envp_ok, argv_ok, create_ok⟩

theorem sp_mod_of_createStack (create_ok : createStack m stackPage elf argv = .ok s) :
    s.sp % 16 = 8 * (63 + (argv.getD []).length) % 16 := by
  obtain ⟨s₁, envpStrings, s₂, copied, s₃, -, envp_ok, argv_ok, pointers_ok⟩ := createStack_eq_ok create_ok
  have sp_mod := sp_mod_of_putPointers pointers_ok
  have sp_eq : (align s₃).sp = s₃.sp - s₃.sp % 16 := rfl
  rw [pointerWords_eq (length_of_copyStrings envp_ok) (length_of_copyStrings argv_ok)] at sp_mod
  omega

theorem fits_of_createStack (small : ∀ text ∈ argv.getD [], text.size < 2 ^ 31)
    (create_ok : createStack m stackPage elf argv = .ok s) : Fits (argv.getD []) := by
  obtain ⟨s₁, envpStrings, s₂, copied, s₃, filename_ok, envp_ok, argv_ok, pointers_ok⟩ :=
    createStack_eq_ok create_ok
  have aligned := stackPage.aligned
  have bound := stackPage.upper
  have empty_low : (stackPage.empty m).low = stackPage.address := rfl
  have empty_sp : (stackPage.empty m).sp = stackPage.address + 4096 - 10 * 8 := rfl
  obtain ⟨room₁, grown₁, ready₁, sp_eq₁⟩ :=
    room_of_copyToStack (stackPage.empty_ready m) (by decide) filename_ok
  have low_eq₁ := grown₁.low_eq
  obtain ⟨room₂, grown₂, ready₂, sp_eq₂, envp_lt⟩ := room_of_copyStrings ready₁ env_small envp_ok
  replace room₂ := room₂.resolve_left (cons_ne_nil _ _)
  have low_eq₂ := grown₂.low_eq
  obtain ⟨room₃, grown₃, ready₃, sp_eq₃, argv_lt⟩ := room_of_copyStrings ready₂ small argv_ok
  have low_eq₃ := grown₃.low_eq
  have lower₃ : s₃.low ≤ s₃.sp := by
    rcases room₃ with isNil | room₃
    · rw [isNil] at sp_eq₃
      change s₃.sp + 0 = s₂.sp at sp_eq₃
      omega
    · omega
  obtain ⟨grown₄, ready₄, -⟩ := align_spec stackPage ready₃ (by omega) lower₃
  have low_eq₄ := grown₄.low_eq
  have sp_eq₄ : (align s₃).sp = s₃.sp - s₃.sp % 16 := rfl
  have filename_lt : s₁.sp < 2 ^ 64 := by omega
  have envp_lt' : ∀ address ∈ envpStrings, address < 2 ^ 64 := by
    intro address addressMem
    have below := envp_lt address addressMem
    omega
  have argv_lt' : ∀ address ∈ copied.reverse, address < 2 ^ 64 := by
    intro address addressMem
    have below := argv_lt address (mem_reverse.1 addressMem)
    omega
  have envp_ne : envpStrings ≠ [] := by
    intro isNil
    have envp_length := length_of_copyStrings envp_ok
    rw [isNil] at envp_length
    cases envp_length
  have words := room_of_putPointers ready₄ filename_lt envp_lt' argv_lt' envp_ne pointers_ok
  rw [pointerWords_eq (length_of_copyStrings envp_ok) (length_of_copyStrings argv_ok)] at words
  unfold Fits stringBytes
  omega

/-- The pointer is a multiple of 16 exactly behind an odd number of argument strings.
Strings whose length is an `int` are written inside the page exactly if they fit. -/
theorem stackSound_iff (m : Bytes) (stackPage : StackPage) (elf : Loaded) (argv : Option (List Text)) :
    (StackSound m stackPage elf argv → (argv.getD []).length % 2 = 1) ∧
    ((∀ text ∈ argv.getD [], text.size < 2 ^ 31) →
      (StackSound m stackPage elf argv ↔ (argv.getD []).length % 2 = 1 ∧ Fits (argv.getD []))) := by
  have odd_of_sound : StackSound m stackPage elf argv → (argv.getD []).length % 2 = 1 := by
    rintro ⟨s, create_ok, aligned⟩
    have sp_mod := sp_mod_of_createStack create_ok
    omega
  refine ⟨odd_of_sound, fun small => ?_⟩
  constructor
  · intro sound
    obtain ⟨s, create_ok, -⟩ := id sound
    exact ⟨odd_of_sound sound, fits_of_createStack small create_ok⟩
  · rintro ⟨isOdd, fits⟩
    obtain ⟨s, -, -, -, create_ok, -⟩ := createStack_of_fits m stackPage elf fits
    have sp_mod := sp_mod_of_createStack create_ok
    exact ⟨s, create_ok, by omega⟩

theorem fits_ls : Fits [ls] := by
  rw [Fits, stringBytes_eq]
  decide

theorem stackSound_ls : StackSound (fun _ => 7) firstPage someElf (some [ls]) :=
  ((stackSound_iff (fun _ => 7) firstPage someElf (some [ls])).2 (by decide)).2 ⟨rfl, fits_ls⟩

def longArgument : Text :=
  ⟨List.replicate 4000 97, fun isNul => absurd (eq_of_mem_replicate isNul) (by decide)⟩

theorem size_longArgument : longArgument.size = 4001 := by
  unfold Text.size longArgument
  dsimp only
  rw [length_replicate]

theorem not_fits_longArgument : ¬ Fits [longArgument] := by
  rw [Fits, stringBytes_eq, Text.sizes_cons, size_longArgument]
  omega

theorem not_stackSound_null :
    (∃ s, createStack (fun _ => 7) firstPage someElf none = .ok s ∧ s.sp % 16 = 8) ∧
    ¬ StackSound (fun _ => 7) firstPage someElf none ∧
    ¬ ∃ s, createStack (fun _ => 7) firstPage someElf (some [longArgument]) = .ok s := by
  have fits : Fits [] := by
    rw [Fits, stringBytes_eq]
    decide
  obtain ⟨s, -, -, -, create_ok, -⟩ := @createStack_of_fits (fun _ => 7) firstPage someElf none fits
  have sp_mod : s.sp % 16 = 8 := sp_mod_of_createStack create_ok
  refine ⟨⟨s, create_ok, sp_mod⟩, ?_, ?_⟩
  · rintro ⟨s', create_ok', aligned⟩
    cases create_ok.symm.trans create_ok'
    omega
  · rintro ⟨s', create_ok'⟩
    have small : ∀ text ∈ [longArgument], text.size < 2 ^ 31 := by
      rw [forall_mem_singleton, size_longArgument]
      decide
    exact not_fits_longArgument (@fits_of_createStack _ _ _ (some [longArgument]) _ small create_ok')

end Whole

end SysCore.Process
