import SysCore.Machine.Rv64
import SysCore.Paging.CreateMapping
import SysCore.Sched.State

/-!
# Trap entry and return

The assembly around `handle_interrupt`: `__interrupt`, where every trap starts,
the shortcut `__handle_getppid` in front of it, `__real_interrupt`, which saves
the user's registers as a `Context` at a fixed address, and `__restore`, which
loads them back.  Between the two runs compiled code; what it leaves in
registers and in memory outside the `Context` is unknown, so the way back is
stated for every such state.

The shortcut looks at `a7` only, before the cause of the trap is known.
-/

namespace SysCore.Trap

open Machine Memory Sched List
open Paging (Board)

inductive Label where
  | realInterrupt
  | handleGetppid

def sp : Reg := 2
def t0 : Reg := 5
def t2 : Reg := 7
def s1 : Reg := 9
def a0 : Reg := 10
def a1 : Reg := 11
def a2 : Reg := 12
def a7 : Reg := 17
def s2 : Reg := 18
def s3 : Reg := 19
def s4 : Reg := 20
def s5 : Reg := 21

def frameEnd : Board → Nat
  | .k210 => 0x80000000 + 8 * 1024 * 1024 - 8
  | .qemu => 0x89000000 + 8 * 1024 * 1024 - 8

def frame (board : Board) : Nat :=
  frameEnd board - 37 * 8

def fastPid : Nat :=
  0x80000000 + 8 * 1024 * 1024 - 4

def interrupt : Block Label where
  body := [.csrw .sscratch a0, .li a0 173]
  terminator := .bne a0 a7 .realInterrupt .handleGetppid

def openFrame (board : Board) : List Instr :=
  [.li sp (BitVec.ofNat 64 (frameEnd board)), .addi sp sp (-BitVec.ofNat 64 (37 * 8))]

def realInterrupt (board : Board) (kernelContext : Word) : Block Label where
  body :=
    [.csrr a0 .sscratch, .csrw .sscratch sp] ++ openFrame board ++
    [save sp 1 1, .csrr 1 .sscratch, save sp 1 2] ++
    ((List.range' 3 29).map fun n => save sp (regNo n) n) ++
    [.csrr s1 .sstatus, .csrr s2 .sepc, .csrr s3 .stval, .csrr s4 .scause, .csrr s5 .satp,
      save sp s1 32, save sp s2 33, save sp s3 34, save sp s4 35,
      .li s4 0x8000000000000000, .or s5 s5 s4, save sp s5 36] ++
    [.li t0 kernelContext, .ld t2 16 t0, .addi a0 sp 0, .csrr a1 .scause, .csrr a2 .stval]
  terminator := .jr t2

def restore (board : Board) : Block Label where
  body :=
    openFrame board ++
    [load sp s1 32, load sp s2 33, load sp s3 34, load sp s4 35, load sp s5 36,
      .csrw .sstatus s1, .csrw .sepc s2, .csrw .stval s3, .csrw .scause s4, .csrw .satp s5] ++
    (match board with
      | .k210 => [.sfenceVma]
      | .qemu => []) ++
    [load sp 1 1] ++
    ((List.range' 3 29).map fun n => load sp (regNo n) n) ++
    [load sp 2 2]
  terminator := .sret

def handleGetppid : Block Label where
  body :=
    [.csrr a0 .sepc, .addi a0 a0 4, .csrw .sepc a0, .li a0 (BitVec.ofNat 64 fastPid), .lw a0 0 a0]
  terminator := .sret

def code (board : Board) (kernelContext : Word) : Label → Block Label
  | .realInterrupt => realInterrupt board kernelContext
  | .handleGetppid => handleGetppid

def trapEntry (board : Board) (kernelContext : Word) (m : State) : Exit Label × State :=
  match interrupt.run m with
  | (.goto label, m) => (code board kernelContext label).run m
  | other => other

/-! ## The handler -/

def contextAt (m : Bytes) (address : Nat) : Context where
  x i := readWord m (address + 8 * i.val)
  sstatus := readWord m (address + 8 * 32)
  sepc := readWord m (address + 8 * 33)
  stval := readWord m (address + 8 * 34)
  scause := readWord m (address + 8 * 35)
  satp := readWord m (address + 8 * 36)

structure Clock where
  ticks : Nat
  timer : Nat

def interval : Nat := 100000

inductive Handled where
  /-- `__restore` with this `Context` in the frame. -/
  | restore (clock : Clock) (context : Context) (printed : List String)
  /-- `syscall(context)` is called. -/
  | syscall (context : Context)
  /-- `exit_process` is called. -/
  | exit (exitRet : Int) (printed : List String)
  | panic (message : String)
  | shutdown (printed : List String)

def hex (n : Nat) : String :=
  String.ofList (Nat.toDigits 16 n)

def tick (now : Nat) (clock : Clock) (context : Context) : Handled :=
  let ticks := (clock.ticks + 1) % 2 ^ 64
  .restore { ticks := ticks, timer := (now + interval) % 2 ^ 64 } context
    (if ticks % 100 = 0 ∧ ticks ≤ 1000 then ["[TICK] " ++ toString ticks ++ " tick\n"] else [])

def breakpoint (clock : Clock) (context : Context) : Handled :=
  .restore clock context.advance ["Breakpoint at 0x" ++ hex context.sepc ++ "\n"]

def pageFault (context : Context) (stval : Nat) : Handled :=
  .exit 1
    ["[Page fault] trying to access address 0x" ++ hex stval ++ "  pc=0x" ++ hex context.sepc ++ "\n"]

def handleInterrupt (now : Nat) (clock : Clock) (context : Context) (scause stval : Nat) : Handled :=
  let isInterrupt : Bool := scause / 2 ^ 63 ≠ 0
  match scause % 32 with
  | 8 => .syscall context
  | 1 =>
    if isInterrupt then .shutdown ["s-mode software interrupt\n"]
    else pageFault context stval
  | 2 => if isInterrupt then .shutdown ["unknown interrupt\n"] else .panic "illegal ins"
  | 3 => breakpoint clock context
  | 5 =>
    if isInterrupt then tick now clock context
    else pageFault context stval
  | 7 =>
    if isInterrupt then .shutdown ["machine timer interrupt interrupt\n"]
    else pageFault context stval
  | 12 | 13 | 15 => pageFault context stval
  | code =>
    .shutdown ["scause: " ++ toString code ++ "\n", "sepc: 0x" ++ hex context.sepc ++ "\n",
      "Interrupt scause wrong, shutdown!.\n"]

/-! ## Saving the registers -/

theorem frame_fits (board : Board) : frame board + 8 * 37 < 2 ^ 64 := by
  cases board <;> decide

section OpenFrame

variable (board : Board) (m : State)

theorem openFrame_sp : (straight (openFrame board) m).reg sp = BitVec.ofNat 64 (frame board) := by
  have nonzero : sp ≠ 0 := by decide
  simp only [openFrame, straight_cons, straight_nil, Instr.step, State.reg_setReg_self nonzero]
  cases board <;> decide

theorem openFrame_reg {r : Reg} (other : r ≠ sp) : (straight (openFrame board) m).reg r = m.reg r := by
  simp only [openFrame, straight_cons, straight_nil, Instr.step, State.reg_setReg_of_ne other]

end OpenFrame

def savedWords (m : State) : List Nat :=
  ((List.range' 1 31).map fun n =>
    (if n = 10 then m.csr .sscratch else m.reg (regNo n)).toNat) ++
  [(m.csr .sstatus).toNat, (m.csr .sepc).toNat, (m.csr .stval).toNat, (m.csr .scause).toNat,
    (m.csr .satp ||| 0x8000000000000000).toNat]

section Save

variable {m : State} {board : Board}

variable (based : m.reg sp = BitVec.ofNat 64 (frame board))
include based

theorem straight_savePair :
    ∃ m', straight [save sp 1 1, .csrr 1 .sscratch, save sp 1 2] m = m' ∧
      m'.mem = writeWords m.mem (frame board + 8) [(m.reg 1).toNat, (m.csr .sscratch).toNat] ∧
      m'.csr = m.csr ∧ ∀ r, r ≠ 1 → m'.reg r = m.reg r := by
  have fits := frame_fits board
  refine ⟨{ m.setReg 1 (m.csr .sscratch) with
    mem := writeWords m.mem (frame board + 8) [(m.reg 1).toNat, (m.csr .sscratch).toNat] },
    ?_, rfl, rfl, fun r other => State.reg_setReg_of_ne other⟩
  rw [straight_cons, step_save based (by omega), straight_cons, Instr.step, straight_cons,
    step_save (by rw [State.reg_setReg_of_ne (by decide)]; exact based) (by omega),
    State.reg_setReg_self (by decide)]
  rfl

theorem straight_saveRegs :
    ∃ m', straight ((List.range' 3 29).map fun n => save sp (regNo n) n) m = m' ∧
      m'.mem = writeWords m.mem (frame board + 8 * 3)
        ((List.range' 3 29).map fun n => (m.reg (regNo n)).toNat) ∧
      m'.csr = m.csr ∧ ∀ r, m'.reg r = m.reg r := by
  have fits := frame_fits board
  exact ⟨_, straight_saves based (by omega), rfl, rfl, fun _ => rfl⟩

theorem straight_saveCsrs :
    ∃ m', straight
        [.csrr s1 .sstatus, .csrr s2 .sepc, .csrr s3 .stval, .csrr s4 .scause, .csrr s5 .satp,
          save sp s1 32, save sp s2 33, save sp s3 34, save sp s4 35,
          .li s4 0x8000000000000000, .or s5 s5 s4, save sp s5 36] m = m' ∧
      m'.mem = writeWords m.mem (frame board + 8 * 32)
        [(m.csr .sstatus).toNat, (m.csr .sepc).toNat, (m.csr .stval).toNat, (m.csr .scause).toNat,
          (m.csr .satp ||| 0x8000000000000000).toNat] ∧
      m'.csr = m.csr ∧ m'.reg sp = BitVec.ofNat 64 (frame board) := by
  have fits := frame_fits board
  -- The registers the five values pass through.
  let read := straight [.csrr s1 .sstatus, .csrr s2 .sepc, .csrr s3 .stval, .csrr s4 .scause,
    .csrr s5 .satp] m
  have readSp : read.reg sp = BitVec.ofNat 64 (frame board) := based
  refine ⟨_, rfl, ?_, rfl, based⟩
  change (straight [save sp s1 32, save sp s2 33, save sp s3 34, save sp s4 35,
    .li s4 0x8000000000000000, .or s5 s5 s4, save sp s5 36] read).mem = _
  rw [straight_cons, step_save readSp (by omega), straight_cons, @step_save _ _ _ (frame board),
    straight_cons, @step_save _ _ _ (frame board), straight_cons, @step_save _ _ _ (frame board),
    straight_cons, straight_cons, straight_cons, @step_save _ _ _ (frame board)]
  · rfl
  all_goals first | exact readSp | omega

end Save

def opened (board : Board) (m : State) : State :=
  straight (openFrame board) (straight [.csrr a0 .sscratch, .csrw .sscratch sp] m)

section Opened

variable (board : Board) (m : State)

theorem opened_sp : (opened board m).reg sp = BitVec.ofNat 64 (frame board) :=
  openFrame_sp board _

theorem opened_a0 : (opened board m).reg a0 = m.csr .sscratch :=
  openFrame_reg board _ (by decide)

theorem opened_reg {r : Reg} (notSp : r ≠ sp) (notA0 : r ≠ a0) : (opened board m).reg r = m.reg r :=
  (openFrame_reg board _ notSp).trans (State.reg_setReg_of_ne notA0)

theorem opened_sscratch : (opened board m).csr .sscratch = m.reg sp :=
  rfl

theorem opened_csr {c : Csr} (other : c ≠ .sscratch) : (opened board m).csr c = m.csr c :=
  State.csr_setCsr_of_ne other

theorem opened_regs :
    (List.range' 3 29).map (fun n => ((opened board m).reg (regNo n)).toNat) =
      (List.range' 3 29).map fun n =>
        (if n = 10 then m.csr .sscratch else m.reg (regNo n)).toNat := by
  apply map_congr_left
  intro n inRange
  have bounds := mem_range'_1.1 inRange
  by_cases isA0 : n = 10
  · rw [if_pos isA0, isA0]
    exact congrArg BitVec.toNat (opened_a0 board m)
  · rw [if_neg isA0, opened_reg board m (regNo_ne (by omega) (by change n ≠ 2; omega))
      (regNo_ne (by omega) (by change n ≠ 10; omega))]

end Opened

theorem realInterrupt_run (board : Board) (kernelContext : Word) (m : State) :
    ∃ target m', (realInterrupt board kernelContext).run m = (.jump target, m') ∧
      m'.mem = writeWords m.mem (frame board + 8) (savedWords m) ∧
      m'.reg a0 = BitVec.ofNat 64 (frame board) ∧
      m'.reg a1 = m.csr .scause ∧ m'.reg a2 = m.csr .stval := by
  obtain ⟨m₂, done₂, mem₂, csr₂, reg₂⟩ := straight_savePair (opened_sp board m)
  have based₂ := (reg₂ sp (by decide)).trans (opened_sp board m)
  obtain ⟨m₃, done₃, mem₃, csr₃, reg₃⟩ := straight_saveRegs based₂
  obtain ⟨m₄, done₄, mem₄, csr₄, based₄⟩ := straight_saveCsrs ((reg₃ sp).trans based₂)
  have body : straight (realInterrupt board kernelContext).body m =
      straight [.li t0 kernelContext, .ld t2 16 t0, .addi a0 sp 0, .csrr a1 .scause, .csrr a2 .stval]
        m₄ := by
    simp only [realInterrupt]
    rw [straight_append, straight_append, straight_append, straight_append, straight_append]
    change straight _ (straight _ (straight _ (straight _ (opened board m)))) = _
    rw [done₂, done₃, done₄]
  have csrs : ∀ c, c ≠ .sscratch → m₃.csr c = m.csr c := fun c other => by
    rw [csr₃, csr₂, opened_csr board m other]
  refine ⟨_, straight (realInterrupt board kernelContext).body m, rfl, ?_, ?_, ?_, ?_⟩
  · have regs : (List.range' 3 29).map (fun n => (m₂.reg (regNo n)).toNat) =
        (List.range' 3 29).map fun n => ((opened board m).reg (regNo n)).toNat := by
      apply map_congr_left
      intro n inRange
      have bounds := mem_range'_1.1 inRange
      rw [reg₂ _ (regNo_ne (by omega) (by change n ≠ 1; omega))]
    rw [body]
    change m₄.mem = _
    rw [mem₄, mem₃, mem₂, regs, opened_regs, opened_sscratch, opened_reg board m (by decide) (by decide),
      csrs _ (by decide), csrs _ (by decide), csrs _ (by decide), csrs _ (by decide),
      csrs _ (by decide), savedWords, writeWords_append,
      show List.range' 1 31 = [1, 2] ++ List.range' 3 29 from rfl, map_append,
      writeWords_append]
    simp only [map_cons, map_nil, length_append, length_map, length_range', length_cons, length_nil]
    generalize frame board = base
    rw [show base + 8 * 3 = base + 8 + 8 * (0 + 1 + 1) by omega,
      show base + 8 * 32 = base + 8 + 8 * (0 + 1 + 1 + 29) by omega]
    rfl
  · rw [body]
    change m₄.reg sp + 0 = _
    rw [based₄]
    exact BitVec.add_zero _
  · rw [body]
    change m₄.csr .scause = _
    rw [csr₄, csrs _ (by decide)]
  · rw [body]
    change m₄.csr .stval = _
    rw [csr₄, csrs _ (by decide)]

/-! ## Loading the registers -/

def slot (m : State) (board : Board) (n : Nat) : Word :=
  BitVec.ofNat 64 (readWord m.mem (frame board + 8 * n))

section Load

variable {m : State} {board : Board}

theorem straight_loadCsrs (based : m.reg sp = BitVec.ofNat 64 (frame board)) :
    ∃ m', straight
        [load sp s1 32, load sp s2 33, load sp s3 34, load sp s4 35, load sp s5 36,
          .csrw .sstatus s1, .csrw .sepc s2, .csrw .stval s3, .csrw .scause s4, .csrw .satp s5] m =
        m' ∧
      m'.mem = m.mem ∧ m'.reg sp = BitVec.ofNat 64 (frame board) ∧
      m'.csr .sstatus = slot m board 32 ∧ m'.csr .sepc = slot m board 33 ∧
      m'.csr .satp = slot m board 36 := by
  have fits := frame_fits board
  refine ⟨_, rfl, ?_⟩
  rw [straight_cons, step_load based (by omega), straight_cons, @step_load _ _ _ (frame board),
    straight_cons, @step_load _ _ _ (frame board), straight_cons, @step_load _ _ _ (frame board),
    straight_cons, @step_load _ _ _ (frame board)]
  · exact ⟨rfl, based, rfl, rfl, rfl⟩
  all_goals first | exact based | omega

theorem straight_fence (m : State) :
    straight (match board with
      | .k210 => [.sfenceVma]
      | .qemu => []) m = m := by
  cases board <;> rfl

theorem straight_loadRegs (based : m.reg sp = BitVec.ofNat 64 (frame board)) :
    ∃ m', straight ([load sp 1 1] ++ ((List.range' 3 29).map fun n => load sp (regNo n) n) ++
        [load sp 2 2]) m = m' ∧
      m'.csr = m.csr ∧ ∀ r : Reg, r ≠ 0 → m'.reg r = slot m board r.val := by
  have fits := frame_fits board
  have first : straight [load sp 1 1] m = m.setReg 1 (slot m board 1) := step_load based (by omega)
  obtain ⟨m₁, done₁, mem₁, reg₁, csr₁⟩ : ∃ m₁, m.setReg 1 (slot m board 1) = m₁ ∧ m₁.mem = m.mem ∧
      (∀ r, m₁.reg r = if r = 1 then slot m board 1 else m.reg r) ∧ m₁.csr = m.csr := by
    refine ⟨_, rfl, rfl, fun r => ?_, rfl⟩
    by_cases isRa : r = 1
    · rw [isRa, if_pos rfl, State.reg_setReg_self (by decide)]
    · rw [if_neg isRa, State.reg_setReg_of_ne isRa]
  have based₁ : m₁.reg sp = BitVec.ofNat 64 (frame board) := by
    rw [reg₁, if_neg (by decide), based]
  obtain ⟨m₂, done₂, mem₂, reg₂, csr₂⟩ : ∃ m₂,
      straight ((List.range' 3 29).map fun n => load sp (regNo n) n) m₁ = m₂ ∧ m₂.mem = m.mem ∧
      (∀ r, m₂.reg r = if 3 ≤ r.val then slot m board r.val else m₁.reg r) ∧ m₂.csr = m.csr := by
    refine ⟨_, straight_loads based₁ (by omega) (by decide) (by decide), mem₁, fun r => ?_, csr₁⟩
    by_cases large : 3 ≤ r.val
    · have nonzero : r ≠ 0 := fun zero => by simp [zero] at large
      have inside : 3 ≤ r.val ∧ r.val < 3 + 29 := ⟨large, r.isLt⟩
      simp only [State.reg, if_neg nonzero, if_pos inside, if_pos large, mem₁]
      rfl
    · have outside : ¬ (3 ≤ r.val ∧ r.val < 3 + 29) := fun both => large both.1
      simp only [State.reg, if_neg outside, if_neg large]
  have based₂ : m₂.reg sp = BitVec.ofNat 64 (frame board) := by
    rw [reg₂, if_neg (by decide), based₁]
  refine ⟨m₂.setReg 2 (slot m board 2), ?_, csr₂, ?_⟩
  · rw [straight_append, straight_append, first, done₁, done₂, straight_cons,
      step_load based₂ (by omega), straight_nil, mem₂]
    rfl
  · intro r nonzero
    by_cases isSp : r = 2
    · rw [isSp, State.reg_setReg_self (by decide)]
      rfl
    · rw [State.reg_setReg_of_ne isSp, reg₂, reg₁]
      by_cases isRa : r = 1
      · rw [isRa, if_neg (by decide), if_pos rfl]
        rfl
      · have apart : r.val ≠ 0 ∧ r.val ≠ 1 ∧ r.val ≠ 2 :=
          ⟨fun same => nonzero (Fin.ext same), fun same => isRa (Fin.ext same),
            fun same => isSp (Fin.ext same)⟩
        rw [if_pos (by omega)]

end Load

structure User where
  pc : Word
  x : Reg → Word

def userOf (m : State) : User where
  pc := m.csr .sepc
  x := m.reg

def userOfContext (context : Context) : User where
  pc := BitVec.ofNat 64 context.sepc
  x r := if r = 0 then 0 else BitVec.ofNat 64 (context.x r)

theorem restore_run (board : Board) (m : State) :
    ∃ m', (restore board).run m = (.sret, m') ∧
      userOf m' = userOfContext (contextAt m.mem (frame board)) := by
  obtain ⟨m₁, done₁, mem₁, based₁, _, sepc₁, _⟩ := straight_loadCsrs (openFrame_sp board m)
  obtain ⟨m₂, done₂, csr₂, reg₂⟩ := straight_loadRegs based₁
  have body : straight (restore board).body m = m₂ := by
    rw [straight_append, straight_append] at done₂
    simp only [restore]
    rw [straight_append, straight_append, straight_append, straight_append, straight_append, done₁,
      straight_fence, done₂]
  refine ⟨m₂, by rw [← body]; rfl, ?_⟩
  have slots : ∀ n, slot m₁ board n = slot m board n := fun n => by rw [slot, mem₁]; rfl
  simp only [userOf, userOfContext, User.mk.injEq]
  constructor
  · rw [csr₂, sepc₁]
    rfl
  · funext r
    by_cases zero : r = 0
    · rw [if_pos zero, zero]
      rfl
    · rw [if_neg zero, reg₂ r zero, slots]
      rfl

/-! ## Whole traps -/

def TakesShortcut (board : Board) (kernelContext : Word) (m : State) : Prop :=
  (trapEntry board kernelContext m).1 = .sret

def Resumes (board : Board) (kernelContext : Word) (now : Nat) (clock : Clock) (m : State)
    (user : User) : Prop :=
  match trapEntry board kernelContext m with
  | (.sret, back) => user = userOf back
  | (.jump _, call) =>
    ∃ clock' context printed left,
      handleInterrupt now clock (contextAt call.mem (call.reg a0).toNat) (call.reg a1).toNat
          (call.reg a2).toNat = .restore clock' context printed ∧
        contextAt left.mem (frame board) = context ∧ user = userOf ((restore board).run left).2
  | (.goto _, _) => False

def Transparent (board : Board) (kernelContext : Word) (now : Nat) (clock : Clock) (m : State) : Prop :=
  (∃ user, Resumes board kernelContext now clock m user) ∧
    ∀ user, Resumes board kernelContext now clock m user → user = userOf m

def IsTimer (scause : Word) : Prop :=
  scause.toNat / 2 ^ 63 ≠ 0 ∧ scause.toNat % 32 = 5

def IsUserEcall (scause : Word) : Prop :=
  scause = 8

def entered (m : State) : State :=
  (m.setCsr .sscratch (m.reg a0)).setReg a0 173

theorem entered_a7 (m : State) : (entered m).reg a7 = m.reg a7 :=
  State.reg_setReg_of_ne (by decide)

theorem interrupt_run (m : State) :
    interrupt.run m =
      (.goto (if m.reg a7 = 173 then .handleGetppid else .realInterrupt), entered m) := by
  have a0_eq : (entered m).reg a0 = 173 := State.reg_setReg_self (by decide)
  have left : straight interrupt.body m = entered m := rfl
  simp only [Block.run, left]
  simp only [interrupt, a0_eq, entered_a7]
  by_cases getppid : m.reg a7 = 173
  · rw [if_pos getppid, if_neg (by rw [getppid]; exact fun other => other rfl)]
  · rw [if_neg getppid, if_pos (Ne.symm getppid)]

theorem trapEntry_of_getppid {board : Board} {kernelContext : Word} {m : State}
    (getppid : m.reg a7 = 173) :
    ∃ back, trapEntry board kernelContext m = (.sret, back) ∧ (userOf back).pc = m.csr .sepc + 4 := by
  refine ⟨straight handleGetppid.body (entered m), ?_, rfl⟩
  rw [trapEntry, interrupt_run, if_pos getppid]
  rfl

theorem savedWords_reg (m : State) {n : Nat} (lower : 1 ≤ n) (upper : n < 32) :
    (savedWords m)[n - 1]? = some (if n = 10 then m.csr .sscratch else m.reg (regNo n)).toNat := by
  have inside : n - 1 < ((List.range' 1 31).map fun n =>
      (if n = 10 then m.csr .sscratch else m.reg (regNo n)).toNat).length := by
    rw [length_map, length_range']
    omega
  rw [savedWords, List.getElem?_append_left inside, List.getElem?_map,
    List.getElem?_range' (by omega), Option.map_some, show 1 + 1 * (n - 1) = n by omega]

theorem contextAt_saved (board : Board) (m : State) :
    userOfContext (contextAt (writeWords m.mem (frame board + 8) (savedWords (entered m))) (frame board)) =
      userOf m := by
  simp only [userOfContext, contextAt, userOf, User.mk.injEq]
  constructor
  · have stored : (savedWords (entered m))[32]? = some (m.csr .sepc).toNat := rfl
    have read := readWord_writeWords m.mem (frame board + 8) stored (BitVec.isLt _)
    rw [show frame board + 8 * 33 = frame board + 8 + 8 * 32 by omega, read]
    rw [BitVec.ofNat_toNat, BitVec.setWidth_eq]
  · funext r
    by_cases zero : r = 0
    · rw [if_pos zero, zero]
      rfl
    · have lower : 1 ≤ r.val := Nat.pos_of_ne_zero fun same => zero (Fin.ext same)
      have stored := savedWords_reg (entered m) lower r.isLt
      have read := readWord_writeWords m.mem (frame board + 8) stored (BitVec.isLt _)
      rw [if_neg zero, show frame board + 8 * r.val = frame board + 8 + 8 * (r.val - 1) by omega, read,
        BitVec.ofNat_toNat, BitVec.setWidth_eq]
      by_cases isA0 : r.val = 10
      · obtain rfl : r = a0 := Fin.ext isA0
        rfl
      · have same : regNo r.val = r := Fin.ext (val_regNo r.isLt)
        rw [if_neg isA0, same]
        exact State.reg_setReg_of_ne fun wrong => isA0 (congrArg Fin.val wrong)

theorem handleInterrupt_of_timer {scause : Word} (timer : IsTimer scause) (now : Nat) (clock : Clock)
    (context : Context) (stval : Nat) :
    handleInterrupt now clock context scause.toNat stval = tick now clock context := by
  simp only [handleInterrupt, timer.2]
  rw [if_pos (decide_eq_true timer.1)]

theorem trapEntry_of_ne {board : Board} {kernelContext : Word} {m : State} (other : m.reg a7 ≠ 173) :
    ∃ target call, trapEntry board kernelContext m = (.jump target, call) ∧
      userOfContext (contextAt call.mem (frame board)) = userOf m ∧
      (call.reg a0).toNat = frame board ∧
      call.reg a1 = m.csr .scause ∧ call.reg a2 = m.csr .stval := by
  obtain ⟨target, call, run, mem, frameAt, cause, value⟩ :=
    realInterrupt_run board kernelContext (entered m)
  refine ⟨target, call, ?_, ?_, ?_, cause, value⟩
  · rw [trapEntry, interrupt_run, if_neg other]
    exact run
  · rw [mem]
    exact contextAt_saved board m
  · rw [frameAt]
    cases board <;> decide

theorem takesShortcut_iff (board : Board) (kernelContext : Word) (m : State) :
    TakesShortcut board kernelContext m ↔ m.reg a7 = 173 := by
  unfold TakesShortcut
  constructor
  · intro shortcut
    by_contra other
    obtain ⟨target, call, entry, _⟩ := @trapEntry_of_ne board kernelContext m other
    rw [entry] at shortcut
    cases shortcut
  · intro getppid
    obtain ⟨back, entry, _⟩ := @trapEntry_of_getppid board kernelContext m getppid
    rw [entry]

theorem transparent_iff {board : Board} {kernelContext : Word} {now : Nat} {clock : Clock} {m : State}
    (timer : IsTimer (m.csr .scause)) :
    Transparent board kernelContext now clock m ↔ m.reg a7 ≠ 173 := by
  constructor
  · rintro ⟨_, back⟩ getppid
    obtain ⟨left, entry, skipped⟩ := @trapEntry_of_getppid board kernelContext m getppid
    have same := back (userOf left) (by rw [Resumes, entry])
    have pc : m.csr .sepc + 4 = m.csr .sepc := by
      rw [← skipped, same]
      rfl
    exact absurd pc (by bv_omega)
  · intro other
    obtain ⟨target, call, entry, saved, frameAt, cause, _⟩ :=
      @trapEntry_of_ne board kernelContext m other
    have handled : ∀ stval, handleInterrupt now clock (contextAt call.mem (call.reg a0).toNat)
        (call.reg a1).toNat stval = tick now clock (contextAt call.mem (frame board)) := fun stval => by
      rw [cause, handleInterrupt_of_timer timer, frameAt]
    constructor
    · refine ⟨userOf ((restore board).run call).2, ?_⟩
      rw [Resumes, entry]
      exact ⟨_, _, _, call, handled _, rfl, rfl⟩
    · intro user resumes
      rw [Resumes, entry] at resumes
      obtain ⟨clock', context, printed, left, handledTo, inFrame, rfl⟩ := resumes
      rw [handled] at handledTo
      obtain ⟨left', run, resumed⟩ := restore_run board left
      have kept : contextAt call.mem (frame board) = context := (Handled.restore.inj handledTo).2.1
      rw [run, resumed, inFrame, ← kept, saved]

/-- Every trap other than a system call stays clear of the shortcut, and every
timer interrupt is transparent, exactly when `a7` is not the number of
`getppid`. -/
theorem trap_transparent_iff (board : Board) (kernelContext : Word) (now : Nat) (clock : Clock)
    (m : State) :
    (IsTimer (m.csr .scause) → (Transparent board kernelContext now clock m ↔ m.reg a7 ≠ 173)) ∧
    (¬ IsUserEcall (m.csr .scause) → (¬ TakesShortcut board kernelContext m ↔ m.reg a7 ≠ 173)) :=
  ⟨transparent_iff, fun _ => not_congr (takesShortcut_iff board kernelContext m)⟩

def timerAtGetppid : State where
  x := Function.update (fun _ => 0) a7 173
  csr
    | .sepc => 0x1000
    | .scause => 0x8000000000000005
    | _ => 0
  mem := fun _ => 0

theorem not_transparent_of_getppid :
    IsTimer (timerAtGetppid.csr .scause) ∧ ¬ IsUserEcall (timerAtGetppid.csr .scause) ∧
      TakesShortcut .k210 0x80020000 timerAtGetppid ∧
      ∃ user, Resumes .k210 0x80020000 0 { ticks := 0, timer := 0 } timerAtGetppid user ∧
        user.pc = 0x1004 := by
  have getppid : timerAtGetppid.reg a7 = 173 := rfl
  obtain ⟨back, entry, pc⟩ := @trapEntry_of_getppid .k210 0x80020000 timerAtGetppid getppid
  refine ⟨by unfold IsTimer; decide, by unfold IsUserEcall; decide, ?_, userOf back, ?_, pc⟩
  · exact (takesShortcut_iff ..).2 getppid
  · rw [Resumes, entry]

end SysCore.Trap
