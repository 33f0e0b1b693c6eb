import SysCore.Process.InitialStack

/-!
# Reading the initial stack

`check_stack_preparation` walks upwards from the pointer a process starts with: over
the number of arguments and their pointers, the pointers to the environment and the
pairs of the auxiliary vector.

The rows of words were put one below the other, and so the walk finds them in the
opposite order, with every string behind its pointer as it was copied.
-/

namespace SysCore.Process

open Transition Memory List

/-! ## The walk over the stack -/

structure StackView where
  argc : Int
  argv : List Nat
  zeroArgv : Nat
  envp : List Nat
  zeroEnvp : Nat
  aux : List (Nat × Nat)

def readArgv (m : Bytes) : (argc sp : Nat) → List Nat
  | 0, _ => []
  | argc + 1, sp => readWord m sp :: readArgv m argc (sp + 8)

def readEnvp (m : Bytes) : (fuel sp : Nat) → Outcome (List Nat × Nat)
  | 0, _ => .error .hang
  | fuel + 1, sp =>
    if readWord m sp ≠ 0 then do
      let (rest, stop) ← readEnvp m fuel (sp + 8)
      return (readWord m sp :: rest, stop)
    else
      return ([], sp)

def readAux (m : Bytes) : (fuel sp : Nat) → Outcome (List (Nat × Nat))
  | 0, _ => .error .hang
  | fuel + 1, sp =>
    if readWord m sp ≠ 0 then do
      let rest ← readAux m fuel (sp + 16)
      return (readWord m sp, readWord m (sp + 8)) :: rest
    else
      return []

def checkStackPreparation (fuel : Nat) (m : Bytes) (st : Nat) : Outcome StackView := do
  let argc := toInt (readWord m st)
  let argv := readArgv m argc.toNat (st + 8)
  let sp := st + 8 + 8 * argc.toNat
  let (envp, stop) ← readEnvp m fuel (sp + 8)
  let aux ← readAux m fuel (stop + 8)
  return ⟨argc, argv, readWord m sp, envp, readWord m stop, aux⟩

/-! ## Walking over rows of words -/

section Walk

variable {m : Bytes} {sp : Nat} {words rest : List Nat} {fuel : Nat} {pairs : List (Nat × Nat)}

theorem readArgv_of_spells (spells : Spells m sp (words ++ rest)) :
    readArgv m words.length sp = words ∧ Spells m (sp + 8 * words.length) rest := by
  induction words generalizing sp with
  | nil => exact ⟨rfl, spells⟩
  | cons word words ih =>
    obtain ⟨read_eq, above⟩ := ih spells.2
    rw [length_cons, readArgv, spells.1, read_eq, show sp + 8 * (words.length + 1) =
      sp + 8 + 8 * words.length by omega]
    exact ⟨rfl, above⟩

theorem readEnvp_of_spells (spells : Spells m sp (words ++ 0 :: rest))
    (nonzero : ∀ word ∈ words, word ≠ 0) (enough : words.length < fuel) :
    readEnvp m fuel sp = .ok (words, sp + 8 * words.length) ∧
      Spells m (sp + 8 * words.length) (0 :: rest) := by
  induction words generalizing sp fuel with
  | nil =>
    obtain ⟨fuel, rfl⟩ := Nat.exists_eq_add_one.2 enough
    rw [readEnvp, if_neg (not_not.2 spells.1)]
    exact ⟨rfl, spells⟩
  | cons word words ih =>
    rw [length_cons] at enough
    obtain ⟨fuel, rfl⟩ := Nat.exists_eq_add_one.2 (Nat.zero_lt_of_lt enough)
    obtain ⟨read_eq, above⟩ := ih spells.2 (fun other otherMem => nonzero other (mem_cons_of_mem _ otherMem))
      (show words.length < fuel by omega)
    have address_eq : sp + 8 * (word :: words).length = sp + 8 + 8 * words.length := by
      rw [length_cons]
      omega
    rw [readEnvp, if_pos (by rw [spells.1]; exact nonzero word mem_cons_self), read_eq, spells.1,
      address_eq]
    exact ⟨rfl, above⟩

theorem readAux_of_spells
    (spells : Spells m sp ((pairs.flatMap fun pair => [pair.1, pair.2]) ++ 0 :: rest))
    (nonzero : ∀ pair ∈ pairs, pair.1 ≠ 0) (enough : pairs.length < fuel) :
    readAux m fuel sp = .ok pairs := by
  induction pairs generalizing sp fuel with
  | nil =>
    obtain ⟨fuel, rfl⟩ := Nat.exists_eq_add_one.2 enough
    rw [readAux, if_neg (not_not.2 spells.1)]
    rfl
  | cons pair pairs ih =>
    rw [length_cons] at enough
    obtain ⟨fuel, rfl⟩ := Nat.exists_eq_add_one.2 (Nat.zero_lt_of_lt enough)
    rw [flatMap_cons] at spells
    obtain ⟨first, second, above⟩ := spells
    have read_eq := ih above (fun other otherMem => nonzero other (mem_cons_of_mem _ otherMem))
      (show pairs.length < fuel by omega)
    rw [readAux, if_pos (by rw [first]; exact nonzero pair mem_cons_self), read_eq, first, second]
    rfl

theorem checkStackPreparation_of_spells {argv envp : List Nat}
    (spells : Spells m sp (argv.length :: argv ++ 0 :: (envp ++ 0 ::
      ((pairs.flatMap fun pair => [pair.1, pair.2]) ++ 0 :: rest)))) (argvSmall : argv.length < 2 ^ 31)
    (envpNonzero : ∀ address ∈ envp, address ≠ 0) (pairsNonzero : ∀ pair ∈ pairs, pair.1 ≠ 0)
    (envpEnough : envp.length < fuel) (pairsEnough : pairs.length < fuel) :
    checkStackPreparation fuel m sp = .ok ⟨argv.length, argv, 0, envp, 0, pairs⟩ := by
  obtain ⟨argc_eq, spells⟩ := spells
  obtain ⟨argv_eq, zero_eq, spells⟩ := readArgv_of_spells spells
  obtain ⟨envp_eq, stop_eq, spells⟩ := readEnvp_of_spells spells envpNonzero envpEnough
  have aux_eq := readAux_of_spells spells pairsNonzero pairsEnough
  unfold checkStackPreparation
  dsimp only
  rw [argc_eq, toInt_of_lt argvSmall, Int.toNat_natCast, argv_eq, envp_eq, ok_bind]
  dsimp only
  rw [aux_eq, zero_eq, stop_eq]
  rfl

end Walk

/-! ## The rows of the initial stack -/

def Loaded.auxPairs (elf : Loaded) (filenameAddr : Nat) : List (Nat × Nat) :=
  (elf.auxEnvironment filenameAddr).tail.reverse.map fun pair => (pair.1.code, pair.2)

theorem flatMap_auxEnvironment (elf : Loaded) (filenameAddr : Nat) :
    ((elf.auxEnvironment filenameAddr).reverse.flatMap fun pair => [pair.1.code, pair.2]) =
      ((elf.auxPairs filenameAddr).flatMap fun pair => [pair.1, pair.2]) ++ [0, 0] := by
  have endMark : elf.auxEnvironment filenameAddr = (.null, 0) :: (elf.auxEnvironment filenameAddr).tail := rfl
  rw [endMark, reverse_cons, flatMap_append, Loaded.auxPairs, flatMap_map]
  rfl

theorem auxPairs_ne (elf : Loaded) (filenameAddr : Nat) : ∀ pair ∈ elf.auxPairs filenameAddr, pair.1 ≠ 0 := by
  intro pair pairMem
  obtain ⟨source, sourceMem, rfl⟩ := mem_map.1 pairMem
  rw [mem_reverse] at sourceMem
  revert source
  simp [Loaded.auxEnvironment, AuxId.code]

structure Decodes (argv : List Text) (elf : Loaded) (m : Bytes) (view : StackView) : Prop where
  argc_eq : view.argc = argv.length + 1
  argv_at : List.Forall₂ (fun text address => text.At m address) (filename :: argv) view.argv
  zeroArgv_eq : view.zeroArgv = 0
  envp_ne : ∀ address ∈ view.envp, address ≠ 0
  envp_at : List.Forall₂ (fun text address => text.At m address) env.reverse view.envp
  zeroEnvp_eq : view.zeroEnvp = 0
  aux_eq : ∃ filenameAddr, view.argv.head? = some filenameAddr ∧ view.aux = elf.auxPairs filenameAddr

/-- The arguments, the environment and the auxiliary vector are read back from the stack
whenever they fit into it. -/
theorem createStack_decodes (m : Bytes) (stackPage : StackPage) (elf : Loaded) (argv : Option (List Text))
    (fits : Fits (argv.getD [])) :
    ∃ s view, createStack m stackPage elf argv = .ok s ∧
      (∀ fuel, 23 ≤ fuel → checkStackPreparation fuel s.bytes s.sp = .ok view) ∧
      Decodes (argv.getD []) elf s.bytes view := by
  obtain ⟨s, filenameAddr, envpStrings, copied, create_ok, grown, lower, filename_above, envp_above, argv_above,
    spells⟩ := createStack_of_fits m stackPage elf fits
  have page_lower := stackPage.lower
  have low_eq : s.low = stackPage.address := grown.low_eq
  have envp_ne : ∀ address ∈ envpStrings.reverse, address ≠ 0 := by
    intro address addressMem
    have above := le_of_above envp_above address (mem_reverse.1 addressMem)
    omega
  have copied_length := argv_above.length_eq
  have envp_length : env.length = envpStrings.length := envp_above.length_eq
  rw [flatMap_auxEnvironment] at spells
  refine ⟨s, ⟨(filenameAddr :: copied).length, filenameAddr :: copied, 0, envpStrings.reverse, 0,
    elf.auxPairs filenameAddr⟩, create_ok, ?_, ?_⟩
  · intro fuel enough
    unfold Fits at fits
    have thirteen : env.length = 13 := rfl
    have pairs_length : (elf.auxPairs filenameAddr).length = 22 := rfl
    apply checkStackPreparation_of_spells spells
    · rw [length_cons]
      omega
    · exact envp_ne
    · exact auxPairs_ne elf filenameAddr
    · rw [length_reverse]
      omega
    · omega
  · constructor
    · dsimp only
      rw [length_cons, copied_length]
      rfl
    · exact .cons filename_above.2 (argv_above.imp fun _ _ above => above.2)
    · rfl
    · exact envp_ne
    · exact forall₂_reverse_iff.2 (envp_above.imp fun _ _ above => above.2)
    · rfl
    · exact ⟨filenameAddr, rfl, rfl⟩

theorem createStack_decodes_ls : Fits [ls] ∧ ∃ s view,
    createStack (fun _ => 7) firstPage someElf (some [ls]) = .ok s ∧
      (∀ fuel, 23 ≤ fuel → checkStackPreparation fuel s.bytes s.sp = .ok view) ∧
      Decodes [ls] someElf s.bytes view :=
  ⟨fits_ls, createStack_decodes (fun _ => 7) firstPage someElf (some [ls]) fits_ls⟩

end SysCore.Process
