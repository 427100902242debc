import Jyyos.Rv32ima.Basic
import Mathlib.Algebra.Group.Int.Defs

/-!
# The instruction set

What the emulator is for: the instructions of RV32IMA with the machine-mode registers, their
encodings, and their meaning on a `Hart`.  The arithmetic is that of ℤ and ℕ, the counters have
64 bits, and the register `x0` has no storage.

The RAM lies at the addresses of a `MemoryMap`; an access to it needs room for four bytes, whatever
its width is.  Outside of it, the addresses from `0x10000000` to `0x12000000` belong to devices.

Where the emulator is not a RISC-V machine to the letter, the hart follows the emulator: `sc.w`
leaves the reservation, `lr.w` outside of the RAM has the cause 7, `mret` puts the mode that it
leaves into `MPP`, a register that is missing reads as 0, `wfi` enables the interrupts, and `ecall`
sets `mtval`.
-/

namespace Jyyos.Rv32ima

/-! ### Instructions -/

inductive Cond where
  | eq | ne | lt | ge | ltu | geu
deriving DecidableEq, Repr

inductive LoadOp where
  | lb | lh | lw | lbu | lhu
deriving DecidableEq, Repr

inductive StoreOp where
  | sb | sh | sw
deriving DecidableEq, Repr

/-- The operations that also have a form with an immediate of 12 bits. -/
inductive ImmOp where
  | add | slt | sltu | xor | or | and
deriving DecidableEq, Repr

inductive ShiftOp where
  | sll | srl | sra
deriving DecidableEq, Repr

inductive MulDivOp where
  | mul | mulh | mulhsu | mulhu | div | divu | rem | remu
deriving DecidableEq, Repr

inductive CsrOp where
  | rw | rs | rc
deriving DecidableEq, Repr

inductive AmoOp where
  | swap | add | xor | and | or | min | max | minu | maxu
deriving DecidableEq, Repr

/-- The offsets of jumps and branches are in units of two bytes. -/
inductive Instr where
  | lui (rd : Reg) (imm : BitVec 20)
  | auipc (rd : Reg) (imm : BitVec 20)
  | jal (rd : Reg) (offset : BitVec 20)
  | jalr (rd rs1 : Reg) (imm : BitVec 12)
  | branch (c : Cond) (rs1 rs2 : Reg) (offset : BitVec 12)
  | load (o : LoadOp) (rd rs1 : Reg) (imm : BitVec 12)
  | store (o : StoreOp) (rs1 rs2 : Reg) (imm : BitVec 12)
  | opImm (o : ImmOp) (rd rs1 : Reg) (imm : BitVec 12)
  | shiftImm (o : ShiftOp) (rd rs1 : Reg) (shamt : BitVec 5)
  | op (o : ImmOp) (rd rs1 rs2 : Reg)
  | sub (rd rs1 rs2 : Reg)
  | shift (o : ShiftOp) (rd rs1 rs2 : Reg)
  | mulDiv (o : MulDivOp) (rd rs1 rs2 : Reg)
  | fence (imm : BitVec 12)
  | fenceI
  | ecall
  | ebreak
  | mret
  | wfi
  | csr (o : CsrOp) (rd rs1 : Reg) (number : BitVec 12)
  | csrImm (o : CsrOp) (rd : Reg) (imm : BitVec 5) (number : BitVec 12)
  | lr (aqrl : BitVec 2) (rd rs1 : Reg)
  | sc (aqrl : BitVec 2) (rd rs1 rs2 : Reg)
  | amo (o : AmoOp) (aqrl : BitVec 2) (rd rs1 rs2 : Reg)
deriving DecidableEq, Repr

/-! ### Encodings -/

def rType (funct7 : BitVec 7) (rs2 rs1 : Reg) (funct3 : BitVec 3) (rd : Reg) (opcode : BitVec 7) :
    Word :=
  (funct7 ++ rs2 ++ rs1 ++ funct3 ++ rd ++ opcode : BitVec (7 + 5 + 5 + 3 + 5 + 7))

def iType (imm : BitVec 12) (rs1 : Reg) (funct3 : BitVec 3) (rd : Reg) (opcode : BitVec 7) :
    Word :=
  (imm ++ rs1 ++ funct3 ++ rd ++ opcode : BitVec (12 + 5 + 3 + 5 + 7))

def sType (imm : BitVec 12) (rs2 rs1 : Reg) (funct3 : BitVec 3) (opcode : BitVec 7) : Word :=
  rType (imm.extractLsb' 5 7) rs2 rs1 funct3 (imm.extractLsb' 0 5) opcode

/-- The offset without its bit 0: the bits 12, 10 to 5, then 4 to 1 and 11. -/
def bType (offset : BitVec 12) (rs2 rs1 : Reg) (funct3 : BitVec 3) (opcode : BitVec 7) : Word :=
  rType (offset.extractLsb' 11 1 ++ offset.extractLsb' 4 6 : BitVec (1 + 6)) rs2 rs1 funct3
    (offset.extractLsb' 0 4 ++ offset.extractLsb' 10 1 : BitVec (4 + 1)) opcode

def uType (imm : BitVec 20) (rd : Reg) (opcode : BitVec 7) : Word :=
  (imm ++ rd ++ opcode : BitVec (20 + 5 + 7))

/-- The offset without its bit 0: the bits 20, 10 to 1, 11 and 19 to 12. -/
def jType (offset : BitVec 20) (rd : Reg) (opcode : BitVec 7) : Word :=
  uType (offset.extractLsb' 19 1 ++ offset.extractLsb' 0 10 ++ offset.extractLsb' 10 1 ++
    offset.extractLsb' 11 8 : BitVec (1 + 10 + 1 + 8)) rd opcode

def Cond.funct3 : Cond → BitVec 3
  | eq => 0b000 | ne => 0b001 | lt => 0b100 | ge => 0b101 | ltu => 0b110 | geu => 0b111

def LoadOp.funct3 : LoadOp → BitVec 3
  | lb => 0b000 | lh => 0b001 | lw => 0b010 | lbu => 0b100 | lhu => 0b101

def StoreOp.funct3 : StoreOp → BitVec 3
  | sb => 0b000 | sh => 0b001 | sw => 0b010

def ImmOp.funct3 : ImmOp → BitVec 3
  | add => 0b000 | slt => 0b010 | sltu => 0b011 | xor => 0b100 | or => 0b110 | and => 0b111

def ShiftOp.funct3 : ShiftOp → BitVec 3
  | sll => 0b001 | srl => 0b101 | sra => 0b101

def ShiftOp.funct7 : ShiftOp → BitVec 7
  | sll => 0b0000000 | srl => 0b0000000 | sra => 0b0100000

def MulDivOp.funct3 : MulDivOp → BitVec 3
  | mul => 0b000 | mulh => 0b001 | mulhsu => 0b010 | mulhu => 0b011
  | div => 0b100 | divu => 0b101 | rem => 0b110 | remu => 0b111

/-- The form with an immediate has the bit 2 as well. -/
def CsrOp.funct2 : CsrOp → BitVec 2
  | rw => 0b01 | rs => 0b10 | rc => 0b11

def AmoOp.funct5 : AmoOp → BitVec 5
  | swap => 0b00001 | add => 0b00000 | xor => 0b00100 | and => 0b01100 | or => 0b01000
  | min => 0b10000 | max => 0b10100 | minu => 0b11000 | maxu => 0b11100

def Instr.encode : Instr → Word
  | lui rd imm => uType imm rd 0b0110111
  | auipc rd imm => uType imm rd 0b0010111
  | jal rd offset => jType offset rd 0b1101111
  | jalr rd rs1 imm => iType imm rs1 0b000 rd 0b1100111
  | branch c rs1 rs2 offset => bType offset rs2 rs1 c.funct3 0b1100011
  | load o rd rs1 imm => iType imm rs1 o.funct3 rd 0b0000011
  | store o rs1 rs2 imm => sType imm rs2 rs1 o.funct3 0b0100011
  | opImm o rd rs1 imm => iType imm rs1 o.funct3 rd 0b0010011
  | shiftImm o rd rs1 shamt => rType o.funct7 shamt rs1 o.funct3 rd 0b0010011
  | op o rd rs1 rs2 => rType 0b0000000 rs2 rs1 o.funct3 rd 0b0110011
  | sub rd rs1 rs2 => rType 0b0100000 rs2 rs1 0b000 rd 0b0110011
  | shift o rd rs1 rs2 => rType o.funct7 rs2 rs1 o.funct3 rd 0b0110011
  | mulDiv o rd rs1 rs2 => rType 0b0000001 rs2 rs1 o.funct3 rd 0b0110011
  | fence imm => iType imm 0 0b000 0 0b0001111
  | fenceI => iType 0 0 0b001 0 0b0001111
  | ecall => iType 0x000 0 0b000 0 0b1110011
  | ebreak => iType 0x001 0 0b000 0 0b1110011
  | mret => iType 0x302 0 0b000 0 0b1110011
  | wfi => iType 0x105 0 0b000 0 0b1110011
  | csr o rd rs1 number => iType number rs1 (0#1 ++ o.funct2 : BitVec (1 + 2)) rd 0b1110011
  | csrImm o rd imm number => iType number imm (1#1 ++ o.funct2 : BitVec (1 + 2)) rd 0b1110011
  | lr aqrl rd rs1 => rType (0b00010#5 ++ aqrl : BitVec (5 + 2)) 0 rs1 0b010 rd 0b0101111
  | sc aqrl rd rs1 rs2 => rType (0b00011#5 ++ aqrl : BitVec (5 + 2)) rs2 rs1 0b010 rd 0b0101111
  | amo o aqrl rd rs1 rs2 =>
    rType (o.funct5 ++ aqrl : BitVec (5 + 2)) rs2 rs1 0b010 rd 0b0101111

/-! ### Arithmetic -/

def Cond.holds : Cond → Word → Word → Bool
  | eq, a, b => a == b
  | ne, a, b => a != b
  | lt, a, b => a.toInt < b.toInt
  | ge, a, b => b.toInt ≤ a.toInt
  | ltu, a, b => a.toNat < b.toNat
  | geu, a, b => b.toNat ≤ a.toNat

def ImmOp.value : ImmOp → Word → Word → Word
  | add, a, b => a + b
  | slt, a, b => if a.toInt < b.toInt then 1 else 0
  | sltu, a, b => if a.toNat < b.toNat then 1 else 0
  | xor, a, b => a ^^^ b
  | or, a, b => a ||| b
  | and, a, b => a &&& b

/-- Only the lowest five bits of the second operand count. -/
def ShiftOp.value : ShiftOp → Word → BitVec 5 → Word
  | sll, a, n => BitVec.ofNat 32 (a.toNat * 2 ^ n.toNat)
  | srl, a, n => BitVec.ofNat 32 (a.toNat / 2 ^ n.toNat)
  | sra, a, n => BitVec.ofInt 32 (a.toInt / 2 ^ n.toNat)

/-- The quotient of the smallest number and -1 does not fit, and wraps around. -/
def MulDivOp.value : MulDivOp → Word → Word → Word
  | mul, a, b => a * b
  | mulh, a, b => BitVec.ofInt 32 (a.toInt * b.toInt / 2 ^ 32)
  | mulhsu, a, b => BitVec.ofInt 32 (a.toInt * b.toNat / 2 ^ 32)
  | mulhu, a, b => BitVec.ofNat 32 (a.toNat * b.toNat / 2 ^ 32)
  | div, a, b => if b = 0 then -1 else BitVec.ofInt 32 (a.toInt.tdiv b.toInt)
  | divu, a, b => if b = 0 then -1 else BitVec.ofNat 32 (a.toNat / b.toNat)
  | rem, a, b => if b = 0 then a else BitVec.ofInt 32 (a.toInt.tmod b.toInt)
  | remu, a, b => if b = 0 then a else BitVec.ofNat 32 (a.toNat % b.toNat)

/-- The value that is written, from the value before and the operand. -/
def CsrOp.value : CsrOp → Word → Word → Word
  | rw, _, v => v
  | rs, old, v => old ||| v
  | rc, old, v => old &&& ~~~v

/-- The value that is stored, from the value in memory and the operand. -/
def AmoOp.value : AmoOp → Word → Word → Word
  | swap, _, v => v
  | add, old, v => old + v
  | xor, old, v => old ^^^ v
  | and, old, v => old &&& v
  | or, old, v => old ||| v
  | min, old, v => if v.toInt < old.toInt then v else old
  | max, old, v => if old.toInt < v.toInt then v else old
  | minu, old, v => if v.toNat < old.toNat then v else old
  | maxu, old, v => if old.toNat < v.toNat then v else old

/-! ### The hart -/

/-- The addresses of the RAM. -/
structure MemoryMap where
  offset : Word
  size : Word
deriving DecidableEq, Repr

structure Hart where
  x : { r : Reg // r ≠ 0 } → Word
  pc : Word
  ram : Word → Byte
  mode : BitVec 2
  waiting : Bool
  reservation : BitVec 29
  cycle : BitVec 64
  time : BitVec 64
  timecmp : BitVec 64
  mstatus : Word
  mscratch : Word
  mtvec : Word
  mie : Word
  mip : Word
  mepc : Word
  mtval : Word
  mcause : Word

/-- Four bytes fit into the RAM. -/
def MemoryMap.InRam (m : MemoryMap) (a : Word) : Prop :=
  (a - m.offset).toNat + 4 ≤ m.size.toNat

instance (m : MemoryMap) (a : Word) : Decidable (m.InRam a) := inferInstanceAs (Decidable (_ ≤ _))

/-- The address belongs to a device, if it is not in the RAM. -/
def IsDevice (a : Word) : Prop := 0x10000000 ≤ a ∧ a < 0x12000000

instance (a : Word) : Decidable (IsDevice a) := inferInstanceAs (Decidable (_ ∧ _))

/-- The fields of `mstatus` that are kept over a trap: the mode before it, and whether interrupts
were and are enabled. -/
def status (mpp : BitVec 2) (mpie mie : Bool) : Word :=
  (0#19 ++ mpp ++ 0#3 ++ BitVec.ofBool mpie ++ 0#3 ++ BitVec.ofBool mie ++ 0#3 :
    BitVec (19 + 2 + 3 + 1 + 3 + 1 + 3))

namespace Hart

def get (h : Hart) (r : Reg) : Word := if hr : r ≠ 0 then h.x ⟨r, hr⟩ else 0

def set (h : Hart) (r : Reg) (v : Word) : Hart :=
  if hr : r ≠ 0 then { h with x := Function.update h.x ⟨r, hr⟩ v } else h

def jump (h : Hart) (target : Word) : Hart := { h with pc := target }

def advance (h : Hart) : Hart := h.jump (h.pc + 4)

def loadWord (h : Hart) (a : Word) : Word :=
  (h.ram (a + 3) ++ h.ram (a + 2) ++ h.ram (a + 1) ++ h.ram a : BitVec (8 + 8 + 8 + 8))

def loadRam (h : Hart) (a : Word) : LoadOp → Word
  | .lb => (h.ram a).signExtend 32
  | .lh => (h.ram (a + 1) ++ h.ram a : BitVec (8 + 8)).signExtend 32
  | .lw => h.loadWord a
  | .lbu => (h.ram a).setWidth 32
  | .lhu => (h.ram (a + 1) ++ h.ram a : BitVec (8 + 8)).setWidth 32

/-- The lowest `n` bytes of `v` at the addresses from `a` on. -/
def storeRam (h : Hart) (a : Word) (n : ℕ) (v : Word) : Hart :=
  { h with ram := fun b =>
      if (b - a).toNat < n then (v >>> (8 * (b - a).toNat)).setWidth 8 else h.ram b }

/-- The time is read in two halves; the other devices read as 0. -/
def loadDevice (h : Hart) (a : Word) : Word :=
  if a = 0x1100bffc then h.time.extractLsb' 32 32
  else if a = 0x1100bff8 then h.time.extractLsb' 0 32
  else 0

/-- The interrupts are enabled, by the bit 3 of `mstatus`. -/
def interruptsEnabled (h : Hart) : Bool := h.mstatus.getLsbD 3

/-- A trap, from the instruction at `pc`. -/
def takeTrap (h : Hart) (cause tval : Word) : Hart :=
  { h with
    pc := h.mtvec
    mepc := h.pc
    mcause := cause
    mtval := tval
    mstatus := status h.mode h.interruptsEnabled false
    mode := 3 }

/-- The return from a trap. -/
def returnFromTrap (h : Hart) : Hart :=
  { h with
    pc := h.mepc
    mstatus := status h.mode true (h.mstatus.getLsbD 7)
    mode := h.mstatus.extractLsb' 11 2 }

/-- The registers that do not exist read as 0. -/
def readCsr (h : Hart) (csr : BitVec 12) : Word :=
  if csr = 0x300 then h.mstatus
  else if csr = 0x301 then 0x40401101
  else if csr = 0x304 then h.mie
  else if csr = 0x305 then h.mtvec
  else if csr = 0x340 then h.mscratch
  else if csr = 0x341 then h.mepc
  else if csr = 0x342 then h.mcause
  else if csr = 0x343 then h.mtval
  else if csr = 0x344 then h.mip
  else if csr = 0xc00 then h.cycle.extractLsb' 0 32
  else if csr = 0xf11 then 0xff0ff0ff
  else 0

/-- Writing to a register that cannot be written does nothing. -/
def writeCsr (h : Hart) (csr : BitVec 12) (v : Word) : Hart :=
  if csr = 0x300 then { h with mstatus := v }
  else if csr = 0x304 then { h with mie := v }
  else if csr = 0x305 then { h with mtvec := v }
  else if csr = 0x340 then { h with mscratch := v }
  else if csr = 0x341 then { h with mepc := v }
  else if csr = 0x342 then { h with mcause := v }
  else if csr = 0x343 then { h with mtval := v }
  else if csr = 0x344 then { h with mip := v }
  else h

end Hart

/-! ### Instructions on the hart -/

/-- An instruction goes on to the next one, causes a trap, or stops the machine with a value. -/
inductive Outcome where
  | next (h : Hart)
  | trap (cause tval : Word)
  | stop (value : Word) (h : Hart)

def StoreOp.bytes : StoreOp → ℕ
  | sb => 1
  | sh => 2
  | sw => 4

namespace Hart

def execLoad (m : MemoryMap) (h : Hart) (o : LoadOp) (rd : Reg) (a : Word) : Outcome :=
  if m.InRam a then .next (h.set rd (h.loadRam a o)).advance
  else if IsDevice a then .next (h.set rd (h.loadDevice a)).advance
  else .trap 5 a

/-- The comparison register of the timer is written in two halves; a third register switches the
machine off. -/
def execStore (m : MemoryMap) (h : Hart) (o : StoreOp) (a v : Word) : Outcome :=
  if m.InRam a then .next (h.storeRam a o.bytes v).advance
  else if IsDevice a then
    if a = 0x11004004 then
      .next { h with timecmp := v ++ h.timecmp.extractLsb' 0 32 }.advance
    else if a = 0x11004000 then
      .next { h with timecmp := h.timecmp.extractLsb' 32 32 ++ v }.advance
    else if a = 0x11100000 then .stop v h.advance
    else .next h.advance
  else .trap 7 a

def execCsr (h : Hart) (o : CsrOp) (rd : Reg) (v : Word) (csr : BitVec 12) : Hart :=
  ((h.writeCsr csr (o.value (h.readCsr csr) v)).set rd (h.readCsr csr)).advance

/-- The reservation is an offset into the RAM. -/
def reserve (m : MemoryMap) (a : Word) : BitVec 29 := (a - m.offset).setWidth 29

/-- The meaning of an instruction at `pc`. -/
def exec (m : MemoryMap) (h : Hart) : Instr → Outcome
  | .lui rd imm => .next (h.set rd (imm ++ 0#12)).advance
  | .auipc rd imm => .next (h.set rd (h.pc + (imm ++ 0#12))).advance
  | .jal rd offset =>
    .next ((h.set rd (h.pc + 4)).jump (h.pc + (offset ++ 0#1).signExtend 32))
  | .jalr rd rs1 imm =>
    .next ((h.set rd (h.pc + 4)).jump ((h.get rs1 + imm.signExtend 32) &&& ~~~1))
  | .branch c rs1 rs2 offset =>
    .next (if c.holds (h.get rs1) (h.get rs2) then h.jump (h.pc + (offset ++ 0#1).signExtend 32)
      else h.advance)
  | .load o rd rs1 imm => h.execLoad m o rd (h.get rs1 + imm.signExtend 32)
  | .store o rs1 rs2 imm => h.execStore m o (h.get rs1 + imm.signExtend 32) (h.get rs2)
  | .opImm o rd rs1 imm => .next (h.set rd (o.value (h.get rs1) (imm.signExtend 32))).advance
  | .shiftImm o rd rs1 shamt => .next (h.set rd (o.value (h.get rs1) shamt)).advance
  | .op o rd rs1 rs2 => .next (h.set rd (o.value (h.get rs1) (h.get rs2))).advance
  | .sub rd rs1 rs2 => .next (h.set rd (h.get rs1 - h.get rs2)).advance
  | .shift o rd rs1 rs2 =>
    .next (h.set rd (o.value (h.get rs1) ((h.get rs2).setWidth 5))).advance
  | .mulDiv o rd rs1 rs2 => .next (h.set rd (o.value (h.get rs1) (h.get rs2))).advance
  | .fence _ => .next h.advance
  | .fenceI => .next h.advance
  | .ecall => .trap (if h.mode = 0 then 8 else 11) h.pc
  | .ebreak => .trap 3 h.pc
  | .mret => .next h.returnFromTrap
  | .wfi => .stop 1 { h with mstatus := h.mstatus ||| 8, waiting := true }.advance
  | .csr o rd rs1 number => .next (h.execCsr o rd (h.get rs1) number)
  | .csrImm o rd imm number => .next (h.execCsr o rd (imm.setWidth 32) number)
  | .lr _ rd rs1 =>
    let a := h.get rs1
    if m.InRam a then .next ({ h with reservation := reserve m a }.set rd (h.loadWord a)).advance
    else .trap 7 a
  | .sc _ rd rs1 rs2 =>
    let a := h.get rs1
    if m.InRam a then
      .next (if h.reservation = reserve m a then ((h.storeRam a 4 (h.get rs2)).set rd 0).advance
        else (h.set rd 1).advance)
    else .trap 7 a
  | .amo o _ rd rs1 rs2 =>
    let a := h.get rs1
    if m.InRam a then
      .next ((h.storeRam a 4 (o.value (h.loadWord a) (h.get rs2))).set rd (h.loadWord a)).advance
    else .trap 7 a

/-! ### Steps -/

/-- The clock of the hart; an interrupt that becomes pending ends the waiting. -/
def tick (h : Hart) (elapsedUs : Word) : Hart :=
  let time := h.time + elapsedUs.setWidth 64
  if h.timecmp ≠ 0 ∧ h.timecmp < time then
    { h with time := time, mip := h.mip ||| 0x80, waiting := false }
  else { h with time := time, mip := h.mip &&& ~~~0x80 }

/-- The timer interrupt is pending and enabled. -/
def interrupted (h : Hart) : Bool :=
  h.mip.getLsbD 7 && h.mie.getLsbD 7 && h.interruptsEnabled

def countCycle (h : Hart) : Hart := { h with cycle := h.cycle + 1 }

/-- The value that a step returns, and the hart after it.  An instruction that stops the machine is
not counted. -/
def retire (h : Hart) : Outcome → Word × Hart
  | .next h' => (0, h')
  | .trap cause tval => (0, h.countCycle.takeTrap cause tval)
  | .stop value h' => (value, { h' with cycle := h.cycle })

/-- The steps of the hart, after its clock. -/
inductive Step (m : MemoryMap) (h : Hart) : Word × Hart → Prop
  | sleep (hwait : h.waiting = true) : Step m h (1, h)
  | interrupt (hwait : h.waiting = false) (hint : h.interrupted = true) :
      Step m h (0, h.takeTrap 0x80000007 0)
  | fetchFault (hwait : h.waiting = false) (hint : h.interrupted = false)
      (hpc : m.size ≤ h.pc - m.offset) : Step m h (0, h.countCycle.takeTrap 1 h.pc)
  | misaligned (hwait : h.waiting = false) (hint : h.interrupted = false)
      (hpc : h.pc - m.offset < m.size) (halign : (h.pc - m.offset).toNat % 4 ≠ 0) :
      Step m h (0, h.countCycle.takeTrap 0 h.pc)
  | exec (hwait : h.waiting = false) (hint : h.interrupted = false)
      (hpc : h.pc - m.offset < m.size) (halign : (h.pc - m.offset).toNat % 4 = 0) (i : Instr)
      (hfetch : h.loadWord h.pc = i.encode) : Step m h (h.retire (h.countCycle.exec m i))

/-- A run: what each step is given as the elapsed time, and what it returns. -/
inductive Run (m : MemoryMap) : Hart → List (Word × Word) → Hart → Prop
  | nil (h : Hart) : Run m h [] h
  | cons {h h' h'' : Hart} {us value : Word} {trace : List (Word × Word)}
      (hstep : Step m (h.tick us) (value, h')) (hrest : Run m h' trace h'') :
      Run m h ((us, value) :: trace) h''

end Hart

end Jyyos.Rv32ima
