import SysCore.Paging.Sv39
import SysCore.Transition.Outcome

/-!
# Stores through page tables

Two parties share one byte memory, each behind a page table of its own.  A party
may store where its entries permit user writes.  If the pages each of them
reaches are disjoint from the pages of the other and from all table pages, no
store of one changes what the other reads.
-/

namespace SysCore.Paging

open Memory Transition

def readUser (bytes : Bytes) (root va : Nat) : Option UInt8 :=
  (translate bytes root va).map fun target => bytes target.1

def UserWritable (attributes : Nat) : Prop :=
  attributes / 4 % 2 = 1 ∧ attributes / 16 % 2 = 1

structure Party where
  root : Nat
  region : Nat → Prop

def StoreStep (parties : Bool → Party) (bytes : Bytes) (store : Bool × Nat × UInt8)
    (bytes' : Bytes) : Prop :=
  (parties store.1).region store.2.1 ∧
    ∃ pa attributes, translate bytes (parties store.1).root store.2.1 = some (pa, attributes) ∧
      UserWritable attributes ∧ bytes' = Function.update bytes pa store.2.2

def NonInterfering (parties : Bool → Party) (bytes : Bytes) : Prop :=
  ∀ stores bytes₁ store bytes₂, Run (StoreStep parties) bytes stores bytes₁ →
    StoreStep parties bytes₁ store bytes₂ → ∀ va, (parties !store.1).region va →
      readUser bytes₂ (parties !store.1).root va = readUser bytes₁ (parties !store.1).root va

def SharedReadOnly (parties : Bool → Party) (bytes : Bytes) : Prop :=
  ∀ va va' pa pa' attributes attributes', (parties false).region va → (parties true).region va' →
    translate bytes (parties false).root va = some (pa, attributes) →
    translate bytes (parties true).root va' = some (pa', attributes') → pageOf pa = pageOf pa' →
      attributes / 4 % 2 = 0 ∧ attributes' / 4 % 2 = 0

structure Confined (bytes : Bytes) (party : Party) (tables pages : List Nat) : Prop where
  space : ∃ view, Space bytes party.root view tables
  reach : ∀ va pa attributes, party.region va →
    translate bytes party.root va = some (pa, attributes) → pageOf pa ∈ pages

namespace Confined

variable {bytes : Bytes} {party : Party} {tables pages : List Nat} {a : Nat} {byte : UInt8}

theorem translate_update (confined : Confined bytes party tables pages)
    (notTable : pageOf a ∉ tables) (va : Nat) :
    translate (Function.update bytes a byte) party.root va = translate bytes party.root va := by
  obtain ⟨view, space⟩ := confined.space
  rw [space.translate_eq, (space.update notTable).translate_eq]

theorem update (confined : Confined bytes party tables pages) (notTable : pageOf a ∉ tables) :
    Confined (Function.update bytes a byte) party tables pages := by
  refine ⟨?_, fun va pa attributes inRegion target => ?_⟩
  · obtain ⟨view, space⟩ := confined.space
    exact ⟨view, space.update notTable⟩
  · rw [confined.translate_update notTable] at target
    exact confined.reach va pa attributes inRegion target

theorem readUser_update (confined : Confined bytes party tables pages)
    (notTable : pageOf a ∉ tables) (notReached : pageOf a ∉ pages) {va : Nat}
    (inRegion : party.region va) :
    readUser (Function.update bytes a byte) party.root va = readUser bytes party.root va := by
  unfold readUser
  rw [confined.translate_update notTable]
  cases target : translate bytes party.root va with
  | none => rfl
  | some found =>
    have reached := confined.reach va found.1 found.2 inRegion target
    have different : found.1 ≠ a := by
      rintro rfl
      exact notReached reached
    rw [Option.map_some, Option.map_some, Function.update_of_ne different]

end Confined

section TwoParties

variable {parties : Bool → Party} {bytes bytes' : Bytes} {tables pages : Bool → List Nat}

theorem StoreStep.confined (confined : ∀ who, Confined bytes (parties who) (tables who) (pages who))
    (apart : ∀ who other, ∀ page ∈ pages who, page ∉ tables other) {store : Bool × Nat × UInt8}
    (step : StoreStep parties bytes store bytes') :
    ∀ who, Confined bytes' (parties who) (tables who) (pages who) := by
  obtain ⟨inRegion, pa, attributes, target, _, rfl⟩ := step
  intro who
  have reached := (confined store.1).reach _ pa attributes inRegion target
  exact (confined who).update (apart store.1 who _ reached)

theorem nonInterfering_of_confined
    (confined : ∀ who, Confined bytes (parties who) (tables who) (pages who))
    (apart : ∀ who other, ∀ page ∈ pages who, page ∉ tables other)
    (disjoint : ∀ who, ∀ page ∈ pages who, page ∉ pages !who) : NonInterfering parties bytes := by
  intro stores bytes₁ store bytes₂ run step va inRegion
  have confined₁ : ∀ who, Confined bytes₁ (parties who) (tables who) (pages who) :=
    run.invariant (fun confined step => StoreStep.confined confined apart step) confined
  obtain ⟨storeRegion, pa, attributes, target, _, rfl⟩ := step
  have reached := (confined₁ store.1).reach _ pa attributes storeRegion target
  exact (confined₁ !store.1).readUser_update (apart _ _ _ reached) (disjoint _ _ reached) inRegion

theorem sharedReadOnly_of_confined
    (confined : ∀ who, Confined bytes (parties who) (tables who) (pages who))
    (disjoint : ∀ who, ∀ page ∈ pages who, page ∉ pages !who) : SharedReadOnly parties bytes := by
  intro va va' pa pa' attributes attributes' inRegion inRegion' target target' same
  have reached := (confined false).reach va pa attributes inRegion target
  have reached' := (confined true).reach va' pa' attributes' inRegion' target'
  rw [same] at reached
  exact absurd reached' (disjoint false _ reached)

theorem not_nonInterfering_of_shared {va pa attributes attributes' : Nat}
    (inRegion : (parties false).region va) (inRegion' : (parties true).region va)
    (target : translate bytes (parties false).root va = some (pa, attributes))
    (writable : UserWritable attributes)
    (target' : translate bytes (parties true).root va = some (pa, attributes'))
    (kept : ∀ byte, translate (Function.update bytes pa byte) (parties true).root va =
      some (pa, attributes')) : ¬ NonInterfering parties bytes := by
  intro nonInterfering
  have unseen := nonInterfering [] bytes (false, va, bytes pa + 1) _ .nil
    ⟨inRegion, pa, attributes, target, writable, rfl⟩ va inRegion'
  simp only [Bool.not_false, readUser, target', kept, Option.map_some, Function.update_self,
    Option.some.injEq] at unseen
  have changed : bytes pa + 1 ≠ bytes pa := by
    intro same
    have sums := congrArg UInt8.toNat same
    rw [UInt8.toNat_add, UInt8.toNat_one] at sums
    omega
  exact changed unseen

end TwoParties

end SysCore.Paging
