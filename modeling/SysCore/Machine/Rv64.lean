import SysCore.Memory.Bytes
import Mathlib.Data.List.Range

/-!
# A fragment of RV64

Enough of the instruction set for trap code: moves between registers,
supervisor registers and memory, some arithmetic, and blocks that end in a
branch, a jump or `sret`.  Straight-line code is a list of instructions, so its
effect composes along `++`, and the two loops trap code is made of (saving and
loading consecutive registers) have closed forms.
-/

namespace SysCore.Machine

open Memory Function

abbrev Word := BitVec 64

abbrev Reg := Fin 32

instance neZero_reg : NeZero 32 :=
  ⟨by decide⟩

inductive Csr where
  | sstatus
  | sepc
  | stval
  | scause
  | satp
  | sscratch
  deriving DecidableEq, Repr

structure State where
  x : Reg → Word
  csr : Csr → Word
  mem : Bytes

namespace State

def reg (m : State) (r : Reg) : Word :=
  if r = 0 then 0 else m.x r

def setReg (m : State) (r : Reg) (value : Word) : State :=
  { m with x := update m.x r value }

def setCsr (m : State) (c : Csr) (value : Word) : State :=
  { m with csr := update m.csr c value }

def word (m : State) (address : Word) : Word :=
  BitVec.ofNat 64 (readWord m.mem address.toNat)

def setWord (m : State) (address value : Word) : State :=
  { m with mem := writeWord m.mem address.toNat value.toNat }

@[simp]
theorem reg_setReg_self {m : State} {r : Reg} {value : Word} (nonzero : r ≠ 0) :
    (m.setReg r value).reg r = value := by
  simp [reg, setReg, nonzero]

theorem reg_setReg_of_ne {m : State} {r r' : Reg} {value : Word} (other : r' ≠ r) :
    (m.setReg r value).reg r' = m.reg r' := by
  simp [reg, setReg, other]

theorem csr_setCsr_of_ne {m : State} {c c' : Csr} {value : Word} (other : c' ≠ c) :
    (m.setCsr c value).csr c' = m.csr c' :=
  update_of_ne other ..

end State

inductive Instr where
  | li (rd : Reg) (imm : Word)
  | addi (rd rs : Reg) (imm : Word)
  | or (rd rs rt : Reg)
  | sd (rs : Reg) (offset : Word) (base : Reg)
  | ld (rd : Reg) (offset : Word) (base : Reg)
  | lw (rd : Reg) (offset : Word) (base : Reg)
  | csrr (rd : Reg) (c : Csr)
  | csrw (c : Csr) (rs : Reg)
  /-- `sfence.vma`; the model has no cached translations. -/
  | sfenceVma

def Instr.step (m : State) : Instr → State
  | .li rd imm => m.setReg rd imm
  | .addi rd rs imm => m.setReg rd (m.reg rs + imm)
  | .or rd rs rt => m.setReg rd (m.reg rs ||| m.reg rt)
  | .sd rs offset base => m.setWord (m.reg base + offset) (m.reg rs)
  | .ld rd offset base => m.setReg rd (m.word (m.reg base + offset))
  | .lw rd offset base =>
    m.setReg rd ((BitVec.ofNat 32 (readLE m.mem 4 (m.reg base + offset).toNat)).signExtend 64)
  | .csrr rd c => m.setReg rd (m.csr c)
  | .csrw c rs => m.setCsr c (m.reg rs)
  | .sfenceVma => m

def straight (code : List Instr) (m : State) : State :=
  code.foldl Instr.step m

@[simp]
theorem straight_nil (m : State) : straight [] m = m :=
  rfl

@[simp]
theorem straight_cons (instr : Instr) (code : List Instr) (m : State) :
    straight (instr :: code) m = straight code (instr.step m) :=
  rfl

theorem straight_append (code more : List Instr) (m : State) :
    straight (code ++ more) m = straight more (straight code m) :=
  List.foldl_append

inductive Terminator (ι : Type) where
  /-- `bne` to the first label, followed by a jump to the second. -/
  | bne (rs rt : Reg) (taken other : ι)
  | jr (rs : Reg)
  | sret

inductive Exit (ι : Type) where
  | goto (label : ι)
  | jump (address : Word)
  | sret

structure Block (ι : Type) where
  body : List Instr
  terminator : Terminator ι

def Block.run {ι : Type} (block : Block ι) (m : State) : Exit ι × State :=
  let m := straight block.body m
  match block.terminator with
  | .bne rs rt taken other => (.goto (if m.reg rs ≠ m.reg rt then taken else other), m)
  | .jr rs => (.jump (m.reg rs), m)
  | .sret => (.sret, m)

/-! ## Saving and loading consecutive registers -/

def regNo (n : Nat) : Reg :=
  Fin.ofNat 32 n

theorem val_regNo {n : Nat} (inside : n < 32) : (regNo n).val = n :=
  Nat.mod_eq_of_lt inside

theorem regNo_ne {n : Nat} {r : Reg} (inside : n < 32) (other : n ≠ r.val) : regNo n ≠ r :=
  fun same => other ((val_regNo inside).symm.trans (congrArg Fin.val same))

def save (base r : Reg) (slot : Nat) : Instr :=
  .sd r (BitVec.ofNat 64 (8 * slot)) base

def load (base r : Reg) (slot : Nat) : Instr :=
  .ld r (BitVec.ofNat 64 (8 * slot)) base

theorem slot_toNat {frame slot : Nat} (fits : frame + 8 * slot < 2 ^ 64) :
    (BitVec.ofNat 64 frame + BitVec.ofNat 64 (8 * slot)).toNat = frame + 8 * slot := by
  rw [BitVec.toNat_add, BitVec.toNat_ofNat, BitVec.toNat_ofNat]
  omega

theorem step_save {m : State} {base r : Reg} {frame slot : Nat}
    (based : m.reg base = BitVec.ofNat 64 frame) (fits : frame + 8 * slot < 2 ^ 64) :
    (save base r slot).step m =
      { m with mem := writeWord m.mem (frame + 8 * slot) (m.reg r).toNat } := by
  simp only [save, Instr.step, State.setWord, based, slot_toNat fits]

theorem step_load {m : State} {base r : Reg} {frame slot : Nat}
    (based : m.reg base = BitVec.ofNat 64 frame) (fits : frame + 8 * slot < 2 ^ 64) :
    (load base r slot).step m =
      m.setReg r (BitVec.ofNat 64 (readWord m.mem (frame + 8 * slot))) := by
  simp only [load, Instr.step, State.word, based, slot_toNat fits]

theorem straight_saves {m : State} {base : Reg} {frame n count : Nat}
    (based : m.reg base = BitVec.ofNat 64 frame) (fits : frame + 8 * (n + count) ≤ 2 ^ 64) :
    straight ((List.range' n count).map fun i => save base (regNo i) i) m =
      { m with
        mem := writeWords m.mem (frame + 8 * n)
          ((List.range' n count).map fun i => (m.reg (regNo i)).toNat) } := by
  induction count generalizing m n with
  | zero => rfl
  | succ count ih =>
    have rest := @ih { m with mem := writeWord m.mem (frame + 8 * n) (m.reg (regNo n)).toNat }
      (n + 1) based (by omega)
    rw [List.range'_succ, List.map_cons, List.map_cons, straight_cons,
      step_save based (by omega), rest]
    rfl

theorem straight_loads {m : State} {base : Reg} {frame n count : Nat}
    (based : m.reg base = BitVec.ofNat 64 frame) (fits : frame + 8 * (n + count) ≤ 2 ^ 64)
    (inside : n + count ≤ 32) (below : base.val < n) :
    straight ((List.range' n count).map fun i => load base (regNo i) i) m =
      { m with
        x := fun r =>
          if n ≤ r.val ∧ r.val < n + count then
            BitVec.ofNat 64 (readWord m.mem (frame + 8 * r.val))
          else
            m.x r } := by
  induction count generalizing m n with
  | zero =>
    have none : (fun r : Reg => if n ≤ r.val ∧ r.val < n + 0 then
        BitVec.ofNat 64 (readWord m.mem (frame + 8 * r.val)) else m.x r) = m.x :=
      funext fun r => if_neg (by omega)
    rw [none]
    rfl
  | succ count ih =>
    have number : (regNo n).val = n := val_regNo (by omega)
    have other : base ≠ regNo n := (regNo_ne (by omega) (by omega)).symm
    rw [List.range'_succ, List.map_cons, straight_cons, step_load based (by omega),
      ih ((State.reg_setReg_of_ne other).trans based) (by omega) (by omega) (by omega)]
    simp only [State.setReg]
    congr 1
    funext r
    by_cases here : r = regNo n
    · subst here
      rw [number, if_neg (by omega), if_pos (by omega), update_self]
    · have apart : r.val ≠ n := fun same => here (Fin.ext (same.trans number.symm))
      rw [update_of_ne here]
      by_cases later : n + 1 ≤ r.val ∧ r.val < n + 1 + count
      · rw [if_pos later, if_pos (by omega)]
      · rw [if_neg later, if_neg (by omega)]

end SysCore.Machine
