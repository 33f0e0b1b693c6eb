import SysCore.Fd.Duplicates

/-!
# Vectored and bulk transfers

`sys_readv`, `sys_writev` and `sys_sendfile` do not go through `sys_read` and
`sys_write`.  They call the file system of the descriptor's path themselves, also
for a pipe, and the first two take the number of bytes it answers for a status
code.  `sys_writev` also prints every segment.

The three are put beside the plain transfers they stand for.  A transfer works on
the file systems, the pipes and the memory of the process; `none` as its value
says that the process does not come back from it, because it waits or is ended.
-/

namespace SysCore.Fs

open Transition

def Answer.value : Answer → Option Int
  | .returned value => some value
  | .fault => none

namespace Mounts

variable {Data Disk : Type} {fat : FatFs Data Disk} {m m' : Mounts Device (Devices Data Disk)}
  {path : List Char} {buf : Nat → Option UInt8} {count : Int} {answer : Answer}

end Mounts

end SysCore.Fs

namespace SysCore.Fd

open Transition Pipe Sched Fs

structure Iovec where
  base : Nat
  len : Int

/-! ## The two loops

Both take one transfer per segment.  The vector is read before the first of them:
it does not lie in the memory they fill. -/

section Loops

variable {σ : Type} (call : σ → Iovec → Outcome (Option Int × σ))

def vectorLoop : (bytes : Int) → List Iovec → σ → Outcome (Option Int × σ)
  | bytes, [], s => .ok (some bytes, s)
  | bytes, seg :: rest, s => do
    let (res, s) ← call s seg
    match res with
    | none => return (none, s)
    | some res => if res ≠ 0 then return (some (-1), s) else vectorLoop (bytes + res) rest s

def inOrder : (failed total : Int) → List Iovec → σ → Outcome (Option Int × σ)
  | _, total, [], s => .ok (some total, s)
  | failed, total, seg :: rest, s => do
    let (moved, s) ← call s seg
    match moved with
    | none => return (none, s)
    | some moved =>
      if moved < 0 then return (some failed, s)
      else if moved < seg.len then return (some (total + moved), s)
      else inOrder (total + moved) (total + moved) rest s

inductive Idle : List Iovec → σ → Prop where
  | nil {s : σ} : Idle [] s
  | halts {seg : Iovec} {rest : List Iovec} {s : σ} {halt : Halt}
      (call_eq : call s seg = .error halt) : Idle (seg :: rest) s
  | leaves {seg : Iovec} {rest : List Iovec} {s s' : σ} (call_eq : call s seg = .ok (none, s')) :
      Idle (seg :: rest) s
  | empty {seg : Iovec} {rest : List Iovec} {s s' : σ} (call_eq : call s seg = .ok (some 0, s'))
      (nothing : seg.len ≤ 0) (others : Idle rest s') : Idle (seg :: rest) s
  | short {seg : Iovec} {rest : List Iovec} {s s' : σ} (call_eq : call s seg = .ok (some 0, s'))
      (wanted : 0 < seg.len) (others : vectorLoop call 0 rest s' = .ok (some 0, s')) :
      Idle (seg :: rest) s

end Loops

section LoopSteps

variable {σ : Type} {call : σ → Iovec → Outcome (Option Int × σ)} {bytes failed total moved : Int}
  {seg : Iovec} {rest iov : List Iovec} {s s' : σ} {value : Option Int} {result : Int}

end LoopSteps

/-! ## The transfers -/

/-- What a transfer works on.  The last field is `pipe_write_count` of the running
process, which decides whether a write to a full pipe ends it. -/
structure Store (δ φ : Type) where
  mounts : Mounts δ φ
  pipes : FastPipe
  mem : Nat → UInt8
  pipeWriteCount : Int

def readValue (len : Int) : LoopEnd → Option Int
  | .finished => some len
  | .blocked i => if i = 0 then none else some i
  | .fault _ => none

def writeValue (len tries : Int) : LoopEnd → Option Int
  | .finished => some len
  | .blocked i => if 110 < tries then none else if i = 0 then none else some i
  | .fault _ => none

def triesAfter (tries : Int) : LoopEnd → Int
  | .finished => 0
  | .blocked i => if 110 < tries then tries else if i = 0 then tries + 1 else 0
  | .fault _ => tries

namespace Store

variable {δ φ : Type} (ifs : Ifs δ φ) (mapped : Nat → Bool) (st : Store δ φ)

def bytesAt (base : Nat) : Nat → Option UInt8 :=
  fun i => if mapped (base + i) then some (st.mem (base + i)) else none

def fill (base : Nat) (buf : Nat → UInt8) : Nat → UInt8 :=
  fun address => if base ≤ address then buf (address - base) else st.mem address

def fileRead (path : List Char) (seg : Iovec) : Outcome (Option Int × Store δ φ) := do
  let ((answer, buf), mounts) ← st.mounts.read ifs path (fun i => st.mem (seg.base + i))
    (fun i => mapped (seg.base + i)) seg.len
  return (answer.value, { st with mounts := mounts, mem := st.fill seg.base buf })

def fileWrite (path : List Char) (seg : Iovec) : Outcome (Option Int × Store δ φ) := do
  let (answer, mounts) ← st.mounts.write ifs path (st.bytesAt mapped seg.base) seg.len
  return (answer.value, { st with mounts := mounts })

def pipeRead (slot : Nat) (seg : Iovec) : Outcome (Option Int × Store δ φ) :=
  match st.pipes.fdToBuffAddress slot with
  | none => .error .stray
  | some pipe => do
    let data := st.pipes.pipeData pipe
    let (stop, loop) ← readBytes (st.pipes.pipeBuffer data.startAddress) data.frontPointer
      (fun i => mapped (seg.base + i)) seg.len.toNat 0
      { back := data.backPointer, buff := fun i => st.mem (seg.base + i), handed := [] }
    return (readValue seg.len stop,
      { st with
        pipes := st.pipes.setData pipe { data with backPointer := loop.back }
        mem := st.fill seg.base loop.buff })

def pipeWrite (slot : Nat) (seg : Iovec) : Outcome (Option Int × Store δ φ) :=
  match st.pipes.fdToBuffAddress slot with
  | none => .error .stray
  | some pipe => do
    let data := st.pipes.pipeData pipe
    let (stop, loop) ← writeBytes data.backPointer (st.bytesAt mapped seg.base) seg.len.toNat 0
      { front := data.frontPointer
        cells := st.pipes.pipeBuffer data.startAddress
        placed := [] }
    return (writeValue seg.len st.pipeWriteCount stop,
      { st with
        pipes := { st.pipes.setData pipe { data with frontPointer := loop.front } with
          pipeBuffer := Function.update st.pipes.pipeBuffer data.startAddress loop.cells }
        pipeWriteCount := triesAfter st.pipeWriteCount stop })

end Store

section Calls

variable {δ φ : Type} (ifs : Ifs δ φ) (files : Files) (mapped : Nat → Bool)

end Calls

section Printing

variable {Data Disk : Type} (mapped : Nat → Bool)

end Printing

/-! ## The plain transfers are those of `sys_read` and `sys_write` -/

def Io.store {μ δ φ : Type} (io : Io μ δ φ) (mem : Nat → UInt8) : Store δ φ where
  mounts := io.mounts
  pipes := io.files.pipes
  mem := mem
  pipeWriteCount := io.sched.running.elim 0 fun ref => (io.sched.pcb ref).pipeWriteCount

section Refines

variable {μ δ φ : Type} {ifs : Ifs δ φ} {mapped : Nat → Bool} {io io' : Io μ δ φ}
  {mem : Nat → UInt8} {seg : Iovec} {fd : Int}

end Refines

/-! ## Open descriptors -/

section Open

variable {δ φ : Type} {ifs : Ifs δ φ} {files : Files} {mapped : Nat → Bool} {fd : Nat}
  {describer : FileDescriber}

variable (plain : files.Plain) (inRange : fd < arrayLength)
  (slot_eq : files.table.fdArray fd = some describer)
include plain inRange slot_eq

end Open

/-! ## Writing from a vector -/

section Console

variable {Data Disk : Type} {fat : FatFs Data Disk} {files : Files} {mapped : Nat → Bool}
  {st st' : Store Device (Devices Data Disk)} {seg : Iovec} {fuel : Nat} {finished : Bool}
  {value : Option Int} {fd : Int}

end Console

/-! ## The three calls -/

section Agreement

variable {μ Data Disk : Type} {fat : FatFs Data Disk}
  {start io : Io μ Device (Devices Data Disk)} {labels : List (IoCall μ)}

end Agreement

end SysCore.Fd
