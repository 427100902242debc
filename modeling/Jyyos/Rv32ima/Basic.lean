import Mathlib.Data.BitVec
import Mathlib.Logic.Function.Basic

/-!
# The RISC-V emulator

`rv32ima_step` of `lecture_1/mini-rv32ima/mini-rv32ima.h`.  A `uint32_t` is a `BitVec 32`; where the
source looks at it as an `int32_t`, the signed operations are used.  The register number in an
instruction has five bits.

The memory is the array `mem` of `mem_size` bytes; an access of several bytes is little-endian and
need not be aligned.  C leaves undefined what happens outside of the array, and so an access there
is a `Fault`.
-/

namespace Jyyos.Rv32ima

abbrev Word := BitVec 32

abbrev Byte := BitVec 8

abbrev Reg := BitVec 5

/-- An access outside of the array `mem`. -/
inductive Fault where
  | outOfBounds
deriving DecidableEq, Repr

/-- The registers of `enum RV32IMA_CSR`. -/
structure Csrs where
  pc : Word
  mstatus : Word
  cyclel : Word
  cycleh : Word
  timerl : Word
  timerh : Word
  timermatchl : Word
  timermatchh : Word
  mscratch : Word
  mtvec : Word
  mie : Word
  mip : Word
  mepc : Word
  mtval : Word
  mcause : Word
  extraflags : Word
deriving DecidableEq, Repr

structure CPUState where
  regs : Reg → Word
  csrs : Csrs
  mem : ℕ → Byte
  memOffset : Word
  memSize : Word

/-! ### Memory -/

/-- The number in `n` bytes, the lowest first. -/
def littleEndian (mem : ℕ → Byte) (p : ℕ) : ℕ → Word
  | 0 => 0
  | n + 1 => (mem p).setWidth 32 ||| (littleEndian mem (p + 1) n <<< 8)

/-- Bytes stored from `p` on. -/
def setBytes (mem : ℕ → Byte) (p n : ℕ) (v : Word) : ℕ → Byte := fun i =>
  if p ≤ i ∧ i < p + n then (v >>> (8 * (i - p))).setWidth 8 else mem i

namespace CPUState

/-- The `n` bytes at `MEM(x)`. -/
def read (s : CPUState) (x : Word) (n : ℕ) : Except Fault Word :=
  if x.toNat + n ≤ s.memSize.toNat then .ok (littleEndian s.mem x.toNat n)
  else .error .outOfBounds

/-- A store of `n` bytes at `MEM(x)`. -/
def write (s : CPUState) (x : Word) (n : ℕ) (v : Word) : Except Fault CPUState :=
  if x.toNat + n ≤ s.memSize.toNat then .ok { s with mem := setBytes s.mem x.toNat n v }
  else .error .outOfBounds

/-! ### The parts of an instruction -/

def rd (ir : Word) : Reg := ((ir >>> 7) &&& 0x1f).setWidth 5

def rs1 (ir : Word) : Reg := ((ir >>> 15) &&& 0x1f).setWidth 5

def rs2 (ir : Word) : Reg := ((ir >>> 20) &&& 0x1f).setWidth 5

/-- The field that selects the operation. -/
def funct3 (ir : Word) : ℕ := ((ir >>> 12) &&& 0x7).toNat

/-- The upper 12 bits with their sign. -/
def immSe (ir : Word) : Word :=
  let imm := ir >>> 20
  imm ||| (if imm &&& 0x800 ≠ 0 then 0xfffff000 else 0)

/-! ### The cases of the `switch` -/

/-- The local variables after the `switch`. -/
structure Locals where
  state : CPUState
  pc : Word
  rdid : Reg
  rval : Word
  trap : Word

/-- The `switch` is left, or the function returns from it. -/
inductive Switch where
  | leave (l : Locals)
  | ret (value : Word) (state : CPUState)

/-- The result goes into the register `rd`. -/
def result (s : CPUState) (pc ir rval : Word) : Locals := ⟨s, pc, rd ir, rval, 0⟩

/-- Nothing goes into a register. -/
def noResult (s : CPUState) (pc : Word) : Locals := ⟨s, pc, 0, 0, 0⟩

/-- A trap; `rval` may have been set before. -/
def trapped (s : CPUState) (pc ir rval trap : Word) : Locals := ⟨s, pc, rd ir, rval, trap⟩

/-- JAL. -/
def jal (s : CPUState) (pc ir : Word) : Locals :=
  let reladdy := ((ir &&& 0x80000000) >>> 11) ||| ((ir &&& 0x7fe00000) >>> 20) |||
    ((ir &&& 0x00100000) >>> 9) ||| (ir &&& 0x000ff000)
  let reladdy := if reladdy &&& 0x00100000 ≠ 0 then reladdy ||| 0xffe00000 else reladdy
  result s (pc + reladdy - 4) ir (pc + 4)

/-- JALR. -/
def jalr (s : CPUState) (pc ir : Word) : Locals :=
  result s (((s.regs (rs1 ir) + immSe ir) &&& ~~~1) - 4) ir (pc + 4)

/-- The target of a branch, 4 too low. -/
def branchTarget (pc ir : Word) : Word :=
  let immm4 := ((ir &&& 0xf00) >>> 7) ||| ((ir &&& 0x7e000000) >>> 20) ||| ((ir &&& 0x80) <<< 4) |||
    ((ir >>> 31) <<< 12)
  let immm4 := if immm4 &&& 0x1000 ≠ 0 then immm4 ||| 0xffffe000 else immm4
  pc + immm4 - 4

/-- Branches. -/
def branch (s : CPUState) (pc ir : Word) : Locals :=
  let a := s.regs (rs1 ir)
  let b := s.regs (rs2 ir)
  let jumpIf (taken : Bool) := noResult s (if taken then branchTarget pc ir else pc)
  match funct3 ir with
  | 0 => jumpIf (a == b)
  | 1 => jumpIf (a != b)
  | 4 => jumpIf (a.slt b)
  | 5 => jumpIf (!a.slt b)
  | 6 => jumpIf (a.ult b)
  | 7 => jumpIf (!a.ult b)
  | _ => { noResult s pc with trap := 3 }

/-- Loads. -/
def load (s : CPUState) (pc ir : Word) : Except Fault Locals :=
  let rsval := s.regs (rs1 ir) + immSe ir - s.memOffset
  if s.memSize - 3 ≤ rsval then
    let rsval := rsval + s.memOffset
    if 0x10000000 ≤ rsval ∧ rsval < 0x12000000 then
      .ok (result s pc ir (if rsval = 0x1100bffc then s.csrs.timerh
        else if rsval = 0x1100bff8 then s.csrs.timerl else 0))
    else .ok (trapped s pc ir rsval 6)
  else
    match funct3 ir with
    | 0 => do return result s pc ir (((← s.read rsval 1).setWidth 8).signExtend 32)
    | 1 => do return result s pc ir (((← s.read rsval 2).setWidth 16).signExtend 32)
    | 2 => do return result s pc ir (← s.read rsval 4)
    | 4 => do return result s pc ir (← s.read rsval 1)
    | 5 => do return result s pc ir (← s.read rsval 2)
    | _ => .ok (trapped s pc ir 0 3)

/-- The immediate of a store with its sign. -/
def storeImm (ir : Word) : Word :=
  let addy := ((ir >>> 7) &&& 0x1f) ||| ((ir &&& 0xfe000000) >>> 20)
  if addy &&& 0x800 ≠ 0 then addy ||| 0xfffff000 else addy

/-- Stores. -/
def store (s : CPUState) (pc ir : Word) : Except Fault Switch :=
  let v := s.regs (rs2 ir)
  let addy := storeImm ir + (s.regs (rs1 ir) - s.memOffset)
  if s.memSize - 3 ≤ addy then
    let addy := addy + s.memOffset
    if 0x10000000 ≤ addy ∧ addy < 0x12000000 then
      if addy = 0x11004004 then
        .ok (.leave (noResult { s with csrs.timermatchh := v } pc))
      else if addy = 0x11004000 then
        .ok (.leave (noResult { s with csrs.timermatchl := v } pc))
      else if addy = 0x11100000 then .ok (.ret v { s with csrs.pc := pc + 4 })
      else .ok (.leave (noResult s pc))
    else .ok (.leave { noResult s pc with rval := addy, trap := 8 })
  else
    match funct3 ir with
    | 0 => do return .leave (noResult (← s.write addy 1 v) pc)
    | 1 => do return .leave (noResult (← s.write addy 2 v) pc)
    | 2 => do return .leave (noResult (← s.write addy 4 v) pc)
    | _ => .ok (.leave { noResult s pc with trap := 3 })

/-- RV32M. -/
def muldiv (op : ℕ) (a b : Word) : Word :=
  match op with
  | 0 => a * b
  | 1 => ((a.signExtend 64 * b.signExtend 64).sshiftRight 32).setWidth 32
  | 2 => ((a.signExtend 64 * b.setWidth 64) >>> 32).setWidth 32
  | 3 => ((a.setWidth 64 * b.setWidth 64) >>> 32).setWidth 32
  | 4 => if b = 0 then -1 else if a = BitVec.intMin 32 ∧ b = -1 then a else a.sdiv b
  | 5 => if b = 0 then 0xffffffff else a / b
  | 6 => if b = 0 then a else if a = BitVec.intMin 32 ∧ b = -1 then 0 else a.srem b
  | _ => if b = 0 then a else a % b

/-- The other operations; `isReg` says whether the second operand is a register. -/
def alu (op : ℕ) (isReg : Bool) (ir a b : Word) : Word :=
  match op with
  | 0 => if isReg ∧ ir &&& 0x40000000 ≠ 0 then a - b else a + b
  | 1 => a <<< (b &&& 0x1f)
  | 2 => if a.slt b then 1 else 0
  | 3 => if a.ult b then 1 else 0
  | 4 => a ^^^ b
  | 5 =>
    if ir &&& 0x40000000 ≠ 0 then a.sshiftRight (b &&& 0x1f).toNat else a >>> (b &&& 0x1f)
  | 6 => a ||| b
  | _ => a &&& b

/-- Op-immediate and Op. -/
def op (s : CPUState) (pc ir : Word) : Locals :=
  let imm := immSe ir
  let a := s.regs (rs1 ir)
  let isReg : Bool := ir &&& 0x20 ≠ 0
  let b := if isReg then s.regs ((imm &&& 0x1f).setWidth 5) else imm
  result s pc ir (if isReg ∧ ir &&& 0x02000000 ≠ 0 then muldiv (funct3 ir) a b
    else alu (funct3 ir) isReg ir a b)

/-- The value of the register with the number `csrno`. -/
def readCsr (s : CPUState) (cycle csrno : Word) : Word :=
  match csrno.toNat with
  | 0x340 => s.csrs.mscratch
  | 0x305 => s.csrs.mtvec
  | 0x304 => s.csrs.mie
  | 0xC00 => cycle
  | 0x344 => s.csrs.mip
  | 0x341 => s.csrs.mepc
  | 0x300 => s.csrs.mstatus
  | 0x342 => s.csrs.mcause
  | 0x343 => s.csrs.mtval
  | 0xf11 => 0xff0ff0ff
  | 0x301 => 0x40401101
  | _ => 0

def writeCsr (s : CPUState) (csrno writeval : Word) : CPUState :=
  match csrno.toNat with
  | 0x340 => { s with csrs.mscratch := writeval }
  | 0x305 => { s with csrs.mtvec := writeval }
  | 0x304 => { s with csrs.mie := writeval }
  | 0x344 => { s with csrs.mip := writeval }
  | 0x341 => { s with csrs.mepc := writeval }
  | 0x300 => { s with csrs.mstatus := writeval }
  | 0x342 => { s with csrs.mcause := writeval }
  | 0x343 => { s with csrs.mtval := writeval }
  | _ => s

/-- Zicsr. -/
def zicsr (s : CPUState) (pc cycle ir : Word) : Locals :=
  let csrno := ir >>> 20
  let rs1imm := (ir >>> 15) &&& 0x1f
  let a := s.regs (rs1 ir)
  let rval := readCsr s cycle csrno
  let writeval :=
    match funct3 ir with
    | 2 => rval ||| a
    | 3 => rval &&& ~~~a
    | 5 => rs1imm
    | 6 => rval ||| rs1imm
    | 7 => rval &&& ~~~rs1imm
    | _ => a
  result (writeCsr s csrno writeval) pc ir rval

/-- MRET. -/
def mret (s : CPUState) : Locals :=
  let startmstatus := s.csrs.mstatus
  let startextraflags := s.csrs.extraflags
  noResult { s with
    csrs.mstatus := ((startmstatus &&& 0x80) >>> 4) ||| ((startextraflags &&& 3) <<< 11) ||| 0x80
    csrs.extraflags := (startextraflags &&& ~~~(3 : Word)) ||| ((startmstatus >>> 11) &&& 3) }
    (s.csrs.mepc - 4)

/-- The instructions of the opcode `SYSTEM`. -/
def system (s : CPUState) (pc cycle ir : Word) : Switch :=
  let csrno := ir >>> 20
  let microop := funct3 ir
  if microop % 4 ≠ 0 then .leave (zicsr s pc cycle ir)
  else if microop = 0 then
    if csrno = 0x105 then
      .ret 1 { s with
        csrs.mstatus := s.csrs.mstatus ||| 8
        csrs.extraflags := s.csrs.extraflags ||| 4
        csrs.pc := pc + 4 }
    else if csrno &&& 0xff = 0x02 then .leave (mret s)
    else if csrno = 0 then
      .leave { noResult s pc with trap := if s.csrs.extraflags &&& 3 ≠ 0 then 12 else 9 }
    else if csrno = 1 then .leave { noResult s pc with trap := 4 }
    else .leave { noResult s pc with trap := 3 }
  else .leave (trapped s pc ir 0 3)

/-- What an RV32A instruction other than LR.W and SC.W stores, if it is supported. -/
def amo (irmid : ℕ) (old v : Word) : Option Word :=
  match irmid with
  | 1 => some v
  | 0 => some (v + old)
  | 4 => some (v ^^^ old)
  | 12 => some (v &&& old)
  | 8 => some (v ||| old)
  | 16 => some (if v.slt old then v else old)
  | 20 => some (if old.slt v then v else old)
  | 24 => some (if v.ult old then v else old)
  | 28 => some (if old.ult v then v else old)
  | _ => none

/-- RV32A. -/
def atomic (s : CPUState) (pc ir : Word) : Except Fault Locals :=
  let addr := s.regs (rs1 ir) - s.memOffset
  let v := s.regs (rs2 ir)
  let irmid := ((ir >>> 27) &&& 0x1f).toNat
  if s.memSize - 3 ≤ addr then .ok (trapped s pc ir (addr + s.memOffset) 8)
  else do
    let old ← s.read addr 4
    if irmid = 2 then
      return result
        { s with csrs.extraflags := (s.csrs.extraflags &&& 0x07) ||| (addr <<< 3) } pc ir old
    else if irmid = 3 then
      if s.csrs.extraflags >>> 3 ≠ addr &&& 0x1fffffff then return result s pc ir 1
      else return result (← s.write addr 4 v) pc ir 0
    else
      match amo irmid old v with
      | some new => return result (← s.write addr 4 new) pc ir old
      | none => return trapped s pc ir old 3

/-- The `switch` over the opcode. -/
def execute (s : CPUState) (pc cycle ir : Word) : Except Fault Switch :=
  match (ir &&& 0x7f).toNat with
  | 0x37 => .ok (.leave (result s pc ir (ir &&& 0xfffff000)))
  | 0x17 => .ok (.leave (result s pc ir (pc + (ir &&& 0xfffff000))))
  | 0x6F => .ok (.leave (jal s pc ir))
  | 0x67 => .ok (.leave (jalr s pc ir))
  | 0x63 => .ok (.leave (branch s pc ir))
  | 0x03 => (load s pc ir).map .leave
  | 0x23 => store s pc ir
  | 0x13 => .ok (.leave (op s pc ir))
  | 0x33 => .ok (.leave (op s pc ir))
  | 0x0f => .ok (.leave (noResult s pc))
  | 0x73 => .ok (system s pc cycle ir)
  | 0x2f => (atomic s pc ir).map .leave
  | _ => .ok (.leave (trapped s pc ir 0 3))

/-! ### The step -/

/-- The time goes on at the beginning of a step. -/
def advanceTimer (s : CPUState) (elapsedUs : Word) : CPUState :=
  let newTimer := s.csrs.timerl + elapsedUs
  let s := if newTimer < s.csrs.timerl then { s with csrs.timerh := s.csrs.timerh + 1 } else s
  { s with csrs.timerl := newTimer }

/-- The comparison of the timer: an interrupt becomes pending, and ends WFI. -/
def compareTimer (s : CPUState) : CPUState :=
  let timer := s.csrs.timerh ++ s.csrs.timerl
  let timermatch := s.csrs.timermatchh ++ s.csrs.timermatchl
  if (s.csrs.timermatchh ≠ 0 ∨ s.csrs.timermatchl ≠ 0) ∧ timermatch < timer then
    { s with
      csrs.extraflags := s.csrs.extraflags &&& ~~~(4 : Word)
      csrs.mip := s.csrs.mip ||| ((1 : Word) <<< 7) }
  else { s with csrs.mip := s.csrs.mip &&& ~~~((1 : Word) <<< 7) }

/-- The timer. -/
def tick (s : CPUState) (elapsedUs : Word) : CPUState := (s.advanceTimer elapsedUs).compareTimer

/-- The traps and interrupts at `cycle_end`: the state and the new `pc`. -/
def enterTrap (s : CPUState) (trap rval pc : Word) : CPUState × Word :=
  let interrupt : Bool := trap &&& 0x80000000 ≠ 0
  let pc := if interrupt then pc + 4 else pc
  ({ s with
    csrs.mcause := if interrupt then trap else trap - 1
    csrs.mtval := if interrupt then 0 else if 5 < trap ∧ trap ≤ 8 then rval else pc
    csrs.mepc := pc
    csrs.mstatus := ((s.csrs.mstatus &&& 0x08) <<< 4) ||| ((s.csrs.extraflags &&& 3) <<< 11)
    csrs.extraflags := s.csrs.extraflags ||| 3 }, s.csrs.mtvec - 4 + 4)

/-- What follows the label `cycle_end`. -/
def cycleEnd (s : CPUState) (trap rval pc cycle : Word) : CPUState :=
  let (s, pc) := if trap ≠ 0 then enterTrap s trap rval pc else (s, pc)
  let s := if cycle < s.csrs.cyclel then { s with csrs.cycleh := s.csrs.cycleh + 1 } else s
  { s with csrs.cyclel := cycle, csrs.pc := pc }

/-- A timer interrupt is pending and enabled. -/
def timerInterrupt (s : CPUState) : Bool :=
  s.csrs.mip &&& ((1 : Word) <<< 7) ≠ 0 && s.csrs.mie &&& ((1 : Word) <<< 7) ≠ 0 &&
    s.csrs.mstatus &&& 0x8 ≠ 0

/-- The write to the register, unless there was a trap, and the rest of the step. -/
def finish (l : Locals) (cycle : Word) : CPUState :=
  if l.trap ≠ 0 then cycleEnd l.state l.trap l.rval l.pc cycle
  else
    let s := if l.rdid ≠ 0 then { l.state with regs := Function.update l.state.regs l.rdid l.rval }
      else l.state
    cycleEnd s 0 l.rval (l.pc + 4) cycle

/-- `rv32ima_step`: the value that is returned, and the state. -/
def rv32imaStep (s : CPUState) (elapsedUs : Word) : Except Fault (Word × CPUState) := do
  let s := s.tick elapsedUs
  if s.csrs.extraflags &&& 4 ≠ 0 then return (1, s)
  let pc := s.csrs.pc
  let cycle := s.csrs.cyclel
  if s.timerInterrupt then return (0, cycleEnd s 0x80000007 0 (pc - 4) cycle)
  let cycle := cycle + 1
  let ofsPc := pc - s.memOffset
  if s.memSize ≤ ofsPc then return (0, cycleEnd s 2 0 pc cycle)
  else if ofsPc &&& 3 ≠ 0 then return (0, cycleEnd s 1 0 pc cycle)
  else
    let ir ← s.read ofsPc 4
    match ← execute s pc cycle ir with
    | .ret value s => return (value, s)
    | .leave l => return (0, finish l cycle)

/-- Steps one after the other; each is given the time since the last one.  The result has the times
together with what the steps returned. -/
def run (s : CPUState) : List Word → Except Fault (List (Word × Word) × CPUState)
  | [] => .ok ([], s)
  | us :: rest => do
    let (value, s) ← s.rv32imaStep us
    let (trace, s) ← s.run rest
    return ((us, value) :: trace, s)

end CPUState

end Jyyos.Rv32ima
