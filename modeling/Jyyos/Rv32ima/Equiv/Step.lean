import Jyyos.Rv32ima.Equiv.Alu
import Jyyos.Rv32ima.Equiv.Decode
import Jyyos.Rv32ima.Equiv.Hart

/-!
# A step of the emulator is a step of the hart

`Follows s o sw`: when the emulator leaves its `switch` with `sw`, the step ends as the outcome `o`
of an instruction says.  There is one lemma for each way in which the `switch` is left, and one for
each kind of instruction.  `execute_encode` puts them together.
-/

namespace Jyyos.Rv32ima

theorem Hart.countCycle_set (h : Hart) (r : Reg) (v : Word) :
    (h.set r v).countCycle = h.countCycle.set r v := by
  by_cases hr : r = 0
  · rw [set, set, dif_neg (not_not.mpr hr), dif_neg (not_not.mpr hr)]
  · rw [set, set, dif_pos hr, dif_pos hr]
    rfl

theorem Hart.advance_set (h : Hart) (r : Reg) (v : Word) :
    (h.set r v).advance = (h.set r v).jump (h.pc + 4) := by
  by_cases hr : r = 0
  · rw [set, dif_neg (not_not.mpr hr)]
    rfl
  · rw [set, dif_pos hr]
    rfl

namespace CPUState

/-- What the step returns, and the state after it. -/
def Switch.done (cycle : Word) : Switch → Word × CPUState
  | .leave l => (0, finish l cycle)
  | .ret value s => (value, s)

/-- The step ends as the instruction says. -/
structure Follows (s : CPUState) (o : Outcome) (sw : Switch) : Prop where
  hart : ((sw.done (s.csrs.cyclel + 1)).1, (sw.done (s.csrs.cyclel + 1)).2.hart) = s.hart.retire o
  memoryMap : (sw.done (s.csrs.cyclel + 1)).2.memoryMap = s.memoryMap
  zero : (sw.done (s.csrs.cyclel + 1)).2.regs 0 = 0

/-- A change of the state that leaves the registers, the counter and the place of the memory. -/
structure Inner (s t : CPUState) : Prop where
  regs : t.regs = s.regs
  cyclel : t.csrs.cyclel = s.csrs.cyclel
  memoryMap : t.memoryMap = s.memoryMap

theorem Inner.refl (s : CPUState) : Inner s s := ⟨rfl, rfl, rfl⟩

variable {s t : CPUState}

/-! ### The end of the step -/

@[simp]
theorem memoryMap_cycleEnd (s : CPUState) (trap rval pc cycle : Word) :
    (cycleEnd s trap rval pc cycle).memoryMap = s.memoryMap := by
  simp only [cycleEnd, enterTrap]
  split_ifs <;> rfl

@[simp]
theorem regs_cycleEnd (s : CPUState) (trap rval pc cycle : Word) :
    (cycleEnd s trap rval pc cycle).regs = s.regs := by
  simp only [cycleEnd, enterTrap]
  split_ifs <;> rfl

/-- The state with a register written. -/
def setReg (s : CPUState) (r : Reg) (v : Word) : CPUState :=
  if r ≠ 0 then { s with regs := Function.update s.regs r v } else s

theorem Inner.setReg (hin : Inner s t) (r : Reg) (v : Word) :
    (t.setReg r v).csrs = t.csrs ∧ (t.setReg r v).memoryMap = s.memoryMap ∧
      (t.setReg r v).regs 0 = s.regs 0 := by
  by_cases hr : r = 0
  · rw [CPUState.setReg, if_neg (not_not.mpr hr)]
    exact ⟨rfl, hin.memoryMap, congrFun hin.regs 0⟩
  · rw [CPUState.setReg, if_pos hr]
    refine ⟨rfl, hin.memoryMap, ?_⟩
    show Function.update t.regs r v 0 = s.regs 0
    rw [Function.update_of_ne (Ne.symm hr), hin.regs]

theorem finish_leave (hin : Inner s t) (pc rval : Word) (r : Reg) :
    finish ⟨t, pc, r, rval, 0⟩ (s.csrs.cyclel + 1) =
      cycleEnd (t.setReg r rval) 0 rval (pc + 4) ((t.setReg r rval).csrs.cyclel + 1) := by
  rw [(hin.setReg r rval).1, hin.cyclel, finish, if_neg (not_not.mpr rfl)]
  rfl

/-- The `switch` is left with a value for a register, or for none. -/
theorem follows_leave (hzero : s.regs 0 = 0) (hin : Inner s t) (pc rval : Word) (r : Reg) :
    Follows s (.next ((t.hart.countCycle.set r rval).jump (pc + 4)))
      (.leave ⟨t, pc, r, rval, 0⟩) := by
  refine ⟨?_, ?_, ?_⟩
  · show ((0 : Word), (finish ⟨t, pc, r, rval, 0⟩ (s.csrs.cyclel + 1)).hart) = (0, _)
    rw [finish_leave hin, hart_cycleEnd, setReg, hart_setReg, Hart.countCycle_set]
  · show (finish ⟨t, pc, r, rval, 0⟩ (s.csrs.cyclel + 1)).memoryMap = _
    rw [finish_leave hin, memoryMap_cycleEnd, (hin.setReg r rval).2.1]
  · show (finish ⟨t, pc, r, rval, 0⟩ (s.csrs.cyclel + 1)).regs 0 = 0
    rw [finish_leave hin, regs_cycleEnd, (hin.setReg r rval).2.2, hzero]

/-- The next instruction follows. -/
theorem follows_result (hzero : s.regs 0 = 0) (hin : Inner s t) (hpc : t.csrs.pc = s.csrs.pc)
    (rval : Word) (r : Reg) :
    Follows s (.next (t.hart.countCycle.set r rval).advance)
      (.leave ⟨t, s.csrs.pc, r, rval, 0⟩) := by
  have hadvance : (t.hart.countCycle.set r rval).advance =
      (t.hart.countCycle.set r rval).jump (s.csrs.pc + 4) := by
    rw [Hart.advance_set, ← hpc]
    rfl
  rw [hadvance]
  exact follows_leave hzero hin _ _ _

theorem follows_noResult (hzero : s.regs 0 = 0) (hin : Inner s t)
    (hpc : t.csrs.pc = s.csrs.pc) :
    Follows s (.next t.hart.countCycle.advance) (.leave (noResult t s.csrs.pc)) :=
  follows_result hzero hin hpc 0 0

/-- A jump. -/
theorem follows_jump (hzero : s.regs 0 = 0) (hin : Inner s t) (target rval : Word) (r : Reg) :
    Follows s (.next ((t.hart.countCycle.set r rval).jump target))
      (.leave ⟨t, target - 4, r, rval, 0⟩) := by
  have h := follows_leave hzero hin (target - 4) rval r
  rwa [BitVec.sub_add_cancel] at h

theorem follows_trap (hzero : s.regs 0 = 0) (trap : Word) (htrap : trap ≠ 0)
    (hint : trap &&& 0x80000000 = 0) (rval : Word) (r : Reg) :
    Follows s (.trap (trap - 1) (if 5 < trap ∧ trap ≤ 8 then rval else s.csrs.pc))
      (.leave ⟨s, s.csrs.pc, r, rval, trap⟩) := by
  have hfinish : finish ⟨s, s.csrs.pc, r, rval, trap⟩ (s.csrs.cyclel + 1) =
      cycleEnd s trap rval s.csrs.pc (s.csrs.cyclel + 1) := if_pos htrap
  refine ⟨?_, ?_, ?_⟩
  · show ((0 : Word), (finish ⟨s, s.csrs.pc, r, rval, trap⟩ (s.csrs.cyclel + 1)).hart) = (0, _)
    rw [hfinish, hart_cycleEnd_trap s trap htrap hint]
    rfl
  · show (finish ⟨s, s.csrs.pc, r, rval, trap⟩ (s.csrs.cyclel + 1)).memoryMap = _
    rw [hfinish, memoryMap_cycleEnd]
  · show (finish ⟨s, s.csrs.pc, r, rval, trap⟩ (s.csrs.cyclel + 1)).regs 0 = 0
    rw [hfinish, regs_cycleEnd, hzero]

theorem follows_ret (hzero : s.regs 0 = 0) (hin : Inner s t) {value : Word} {h : Hart}
    (hhart : t.hart = { h with cycle := s.hart.cycle }) :
    Follows s (.stop value h) (.ret value t) :=
  ⟨congrArg (Prod.mk value) hhart, hin.memoryMap, (congrFun hin.regs 0).trans hzero⟩

/-! ### Instructions -/

theorem get_countCycle (hzero : s.regs 0 = 0) (r : Reg) : s.hart.countCycle.get r = s.regs r :=
  get_hart hzero r

theorem opcode_toNat {funct7 : BitVec 7} {r2 r1 d : Reg} {f3 : BitVec 3} {opcode : BitVec 7} :
    (rType funct7 r2 r1 f3 d opcode &&& 0x7f).toNat = opcode.toNat := by
  rw [opcode_rType, BitVec.toNat_setWidth]
  exact Nat.mod_eq_of_lt (by omega)

/-- The emulator does what the instruction says. -/
def Conforms (s : CPUState) (i : Instr) : Prop :=
  ∃ sw, execute s s.csrs.pc (s.csrs.cyclel + 1) i.encode = .ok sw ∧
    Follows s (s.hart.countCycle.exec s.memoryMap i) sw

theorem conforms_lui (hzero : s.regs 0 = 0) (d : Reg) (imm : BitVec 20) :
    Conforms s (.lui d imm) := by
  refine ⟨.leave ⟨s, s.csrs.pc, d, imm ++ 0#12, 0⟩, ?_, ?_⟩
  · rw [← @upper_uType d 0b0110111, Instr.encode, execute, uType_eq_rType,
      opcode_toNat]
    show Except.ok (Switch.leave (result _ _ _ _)) = _
    rw [result, rd_rType]
  · exact follows_result hzero (Inner.refl s) rfl _ _

theorem conforms_auipc (hzero : s.regs 0 = 0) (d : Reg) (imm : BitVec 20) :
    Conforms s (.auipc d imm) := by
  refine ⟨.leave ⟨s, s.csrs.pc, d, s.csrs.pc + (imm ++ 0#12), 0⟩, ?_, ?_⟩
  · rw [← @upper_uType d 0b0010111, Instr.encode, execute, uType_eq_rType,
      opcode_toNat]
    show Except.ok (Switch.leave (result _ _ _ _)) = _
    rw [result, rd_rType]
  · exact follows_result hzero (Inner.refl s) rfl _ _

theorem conforms_jal (hzero : s.regs 0 = 0) (d : Reg) (offset : BitVec 20) :
    Conforms s (.jal d offset) := by
  refine ⟨.leave ⟨s, s.csrs.pc + (offset ++ 0#1).signExtend 32 - 4, d, s.csrs.pc + 4, 0⟩, ?_, ?_⟩
  · have hrd : rd (jType offset d 0b1101111) = d := by rw [jType, uType_eq_rType, rd_rType]
    rw [Instr.encode, execute, jType, uType_eq_rType, opcode_toNat, ← uType_eq_rType, ← jType]
    show Except.ok (Switch.leave (jal _ _ _)) = _
    rw [jal, reladdy_jType, signExtend_twentyone, result, hrd]
  · exact follows_jump hzero (Inner.refl s) _ _ _

theorem conforms_jalr (hzero : s.regs 0 = 0) (d r1 : Reg) (imm : BitVec 12) :
    Conforms s (.jalr d r1 imm) := by
  have himm := @immSe_iType r1 d 0b000 0b1100111 imm
  rw [iType_eq_rType] at himm
  refine ⟨.leave ⟨s, ((s.regs r1 + imm.signExtend 32) &&& ~~~1) - 4, d, s.csrs.pc + 4, 0⟩, ?_, ?_⟩
  · rw [Instr.encode, execute, iType_eq_rType, opcode_toNat]
    show Except.ok (Switch.leave (jalr _ _ _)) = _
    rw [jalr, himm, result, rd_rType, rs1_rType]
  · rw [← get_countCycle hzero r1]
    exact follows_jump hzero (Inner.refl s) _ _ _

theorem conforms_branch (hzero : s.regs 0 = 0) (c : Cond) (r1 r2 : Reg) (offset : BitVec 12) :
    Conforms s (.branch c r1 r2 offset) := by
  have htarget : branchTarget s.csrs.pc (bType offset r2 r1 c.funct3 0b1100011) =
      s.csrs.pc + (offset ++ 0#1).signExtend 32 - 4 := by
    rw [branchTarget, immm4_bType, signExtend_thirteen]
  have hfunct : funct3 (bType offset r2 r1 c.funct3 0b1100011) = c.funct3.toNat := by
    rw [bType, funct3_rType]
  refine ⟨.leave (noResult s (if c.holds (s.regs r1) (s.regs r2) then
    s.csrs.pc + (offset ++ 0#1).signExtend 32 - 4 else s.csrs.pc)), ?_, ?_⟩
  · rw [Instr.encode, execute, bType, opcode_toNat, ← bType]
    show Except.ok (Switch.leave (branch _ _ _)) = _
    rw [branch_eq s s.csrs.pc c hfunct, htarget, bType, rs1_rType, rs2_rType]
  · rw [← get_countCycle hzero r1, ← get_countCycle hzero r2, Hart.exec]
    split_ifs
    · exact follows_jump hzero (Inner.refl s) _ 0 0
    · exact follows_noResult hzero (Inner.refl s) rfl

/-! ### Memory instructions -/

theorem upperHalf_append (hi lo : Word) : (hi ++ lo).extractLsb' 32 32 = hi := by
  apply BitVec.eq_of_getLsbD_eq
  intro i hi'
  rw [BitVec.getLsbD_extractLsb', BitVec.getLsbD_append]
  simp [hi']

theorem lowerHalf_append (hi lo : Word) : (hi ++ lo).extractLsb' 0 32 = lo := by
  apply BitVec.eq_of_getLsbD_eq
  intro i hi'
  rw [BitVec.getLsbD_extractLsb', BitVec.getLsbD_append]
  simp [hi']

theorem load_ram {ir a : Word} {o : LoadOp} (hsize : 4 ≤ s.memSize.toNat)
    (ha : s.regs (rs1 ir) + immSe ir = a) (hram : s.memoryMap.InRam a)
    (hfunct : funct3 ir = o.funct3.toNat) (pc : Word) :
    load s pc ir = .ok (result s pc ir (s.hart.loadRam a o)) := by
  simp only [load, ha, if_neg ((inRam_iff hsize).mpr hram), hfunct]
  cases o with
  | lb =>
    show (do return result s pc ir (((← s.read (a - s.memOffset) 1).setWidth 8).signExtend 32) :
      Except Fault Locals) = _
    rw [read_byte hram]
    show Except.ok (result s pc ir ((((s.hart.ram a).setWidth 32).setWidth 8).signExtend 32)) = _
    rw [BitVec.setWidth_setWidth_of_le _ (by decide), BitVec.setWidth_eq]
    rfl
  | lh =>
    show (do return result s pc ir (((← s.read (a - s.memOffset) 2).setWidth 16).signExtend 32) :
      Except Fault Locals) = _
    rw [read_half hram]
    show Except.ok (result s pc ir
      ((((s.hart.ram (a + 1) ++ s.hart.ram a).setWidth 32).setWidth 16).signExtend 32)) = _
    rw [BitVec.setWidth_setWidth_of_le _ (by decide), BitVec.setWidth_eq]
    rfl
  | lw =>
    show (do return result s pc ir (← s.read (a - s.memOffset) 4) : Except Fault Locals) = _
    rw [read_word hram]
    rfl
  | lbu =>
    show (do return result s pc ir (← s.read (a - s.memOffset) 1) : Except Fault Locals) = _
    rw [read_byte hram]
    rfl
  | lhu =>
    show (do return result s pc ir (← s.read (a - s.memOffset) 2) : Except Fault Locals) = _
    rw [read_half hram]
    rfl

theorem load_device {ir a : Word} (hsize : 4 ≤ s.memSize.toNat)
    (ha : s.regs (rs1 ir) + immSe ir = a) (hram : ¬ s.memoryMap.InRam a) (pc : Word) :
    load s pc ir = if IsDevice a then .ok (result s pc ir (s.hart.loadDevice a))
      else .ok (trapped s pc ir a 6) := by
  have hdevice : s.hart.loadDevice a =
      if a = 0x1100bffc then s.csrs.timerh else if a = 0x1100bff8 then s.csrs.timerl else 0 := by
    rw [Hart.loadDevice]
    show (if a = 0x1100bffc then (s.csrs.timerh ++ s.csrs.timerl).extractLsb' 32 32
      else if a = 0x1100bff8 then (s.csrs.timerh ++ s.csrs.timerl).extractLsb' 0 32 else 0) = _
    rw [upperHalf_append, lowerHalf_append]
  rw [hdevice]
  simp only [load, ha, if_pos (not_not.mp (mt (inRam_iff hsize).mp hram)), BitVec.sub_add_cancel]
  rfl

theorem conforms_load (hzero : s.regs 0 = 0) (hsize : 4 ≤ s.memSize.toNat) (o : LoadOp)
    (d r1 : Reg) (imm : BitVec 12) : Conforms s (.load o d r1 imm) := by
  have hrd : rd (iType imm r1 o.funct3 d 0b0000011) = d := by rw [iType_eq_rType, rd_rType]
  have hfunct : funct3 (iType imm r1 o.funct3 d 0b0000011) = o.funct3.toNat := by
    rw [iType_eq_rType, funct3_rType]
  have ha : s.regs (rs1 (iType imm r1 o.funct3 d 0b0000011)) +
      immSe (iType imm r1 o.funct3 d 0b0000011) = s.regs r1 + imm.signExtend 32 := by
    rw [immSe_iType, iType_eq_rType, rs1_rType]
  have hload : execute s s.csrs.pc (s.csrs.cyclel + 1) (Instr.load o d r1 imm).encode =
      (load s s.csrs.pc (iType imm r1 o.funct3 d 0b0000011)).map .leave := by
    rw [Instr.encode, execute, iType_eq_rType, opcode_toNat]
    rfl
  have hexec : s.hart.countCycle.exec s.memoryMap (.load o d r1 imm) =
      s.hart.countCycle.execLoad s.memoryMap o d (s.regs r1 + imm.signExtend 32) := by
    rw [Hart.exec, get_countCycle hzero]
  rw [Conforms, hload, hexec, Hart.execLoad]
  by_cases hram : s.memoryMap.InRam (s.regs r1 + imm.signExtend 32)
  · rw [load_ram hsize ha hram hfunct, result, hrd, if_pos hram]
    exact ⟨_, rfl, follows_result hzero (Inner.refl s) rfl _ _⟩
  · rw [load_device hsize ha hram, result, hrd, if_neg hram]
    split_ifs with hdevice
    · exact ⟨_, rfl, follows_result hzero (Inner.refl s) rfl _ _⟩
    · exact ⟨_, rfl, follows_trap hzero 6 (by decide) (by decide) _ _⟩

theorem inner_stored (s : CPUState) (a : Word) (n : ℕ) (v : Word) : Inner s (s.stored a n v) :=
  ⟨rfl, rfl, rfl⟩

/-- The address of a store. -/
theorem store_addy (s : CPUState) (r1 r2 : Reg) (o : StoreOp) (imm : BitVec 12) :
    storeImm (sType imm r2 r1 o.funct3 0b0100011) +
      (s.regs (rs1 (sType imm r2 r1 o.funct3 0b0100011)) - s.memOffset) =
      s.regs r1 + imm.signExtend 32 - s.memOffset := by
  rw [storeImm, addy_sType, signExtend_twelve, sType, rs1_rType, ← add_sub_assoc, add_comm]

theorem store_ram {r1 r2 : Reg} {o : StoreOp} {imm : BitVec 12} (hsize : 4 ≤ s.memSize.toNat)
    (hram : s.memoryMap.InRam (s.regs r1 + imm.signExtend 32)) (pc : Word) :
    store s pc (sType imm r2 r1 o.funct3 0b0100011) =
      .ok (.leave (noResult
        (s.stored (s.regs r1 + imm.signExtend 32) o.bytes (s.regs r2)) pc)) := by
  have haddy := store_addy s r1 r2 o imm
  have hrs2 : rs2 (sType imm r2 r1 o.funct3 0b0100011) = r2 := by rw [sType, rs2_rType]
  have hfunct : funct3 (sType imm r2 r1 o.funct3 0b0100011) = o.funct3.toNat := by
    rw [sType, funct3_rType]
  simp only [store, haddy, hrs2, hfunct, if_neg ((inRam_iff hsize).mpr hram)]
  cases o with
  | sb =>
    show (do return Switch.leave (noResult (← s.write _ 1 _) pc) : Except Fault Switch) = _
    rw [write_eq hram (by decide)]
    rfl
  | sh =>
    show (do return Switch.leave (noResult (← s.write _ 2 _) pc) : Except Fault Switch) = _
    rw [write_eq hram (by decide)]
    rfl
  | sw =>
    show (do return Switch.leave (noResult (← s.write _ 4 _) pc) : Except Fault Switch) = _
    rw [write_eq hram (by decide)]
    rfl

theorem store_device {r1 r2 : Reg} {o : StoreOp} {imm : BitVec 12} (hsize : 4 ≤ s.memSize.toNat)
    {a : Word} (ha : s.regs r1 + imm.signExtend 32 = a) (hram : ¬ s.memoryMap.InRam a)
    (pc : Word) :
    store s pc (sType imm r2 r1 o.funct3 0b0100011) =
      if IsDevice a then
        if a = 0x11004004 then
          .ok (.leave (noResult { s with csrs.timermatchh := s.regs r2 } pc))
        else if a = 0x11004000 then
          .ok (.leave (noResult { s with csrs.timermatchl := s.regs r2 } pc))
        else if a = 0x11100000 then .ok (.ret (s.regs r2) { s with csrs.pc := pc + 4 })
        else .ok (.leave (noResult s pc))
      else .ok (.leave ⟨s, pc, 0, a, 8⟩) := by
  have haddy := store_addy s r1 r2 o imm
  have hrs2 : rs2 (sType imm r2 r1 o.funct3 0b0100011) = r2 := by rw [sType, rs2_rType]
  rw [ha] at haddy
  simp only [store, haddy, hrs2, if_pos (not_not.mp (mt (inRam_iff hsize).mp hram)),
    BitVec.sub_add_cancel]
  rfl

theorem conforms_store (hzero : s.regs 0 = 0) (hsize : 4 ≤ s.memSize.toNat) (o : StoreOp)
    (r1 r2 : Reg) (imm : BitVec 12) : Conforms s (.store o r1 r2 imm) := by
  have hstore : execute s s.csrs.pc (s.csrs.cyclel + 1) (Instr.store o r1 r2 imm).encode =
      store s s.csrs.pc (sType imm r2 r1 o.funct3 0b0100011) := by
    rw [Instr.encode, execute, sType, opcode_toNat]
    rfl
  have hexec : s.hart.countCycle.exec s.memoryMap (.store o r1 r2 imm) =
      s.hart.countCycle.execStore s.memoryMap o (s.regs r1 + imm.signExtend 32) (s.regs r2) := by
    rw [Hart.exec, get_countCycle hzero, get_countCycle hzero]
  rw [Conforms, hstore, hexec, Hart.execStore]
  by_cases hram : s.memoryMap.InRam (s.regs r1 + imm.signExtend 32)
  · have hhart := hart_stored hram (n := o.bytes) (by cases o <;> decide) (s.regs r2)
    rw [store_ram hsize hram, if_pos hram]
    refine ⟨_, rfl, ?_⟩
    have h := follows_noResult hzero
      (inner_stored s (s.regs r1 + imm.signExtend 32) o.bytes (s.regs r2)) rfl
    rw [hhart] at h
    exact h
  · rw [store_device hsize rfl hram, if_neg hram]
    split_ifs with hdevice hhigh hlow hoff
    · have hlower : s.hart.countCycle.timecmp.extractLsb' 0 32 = s.csrs.timermatchl :=
        lowerHalf_append _ _
      rw [hlower]
      exact ⟨_, rfl, follows_noResult hzero
        (t := { s with csrs.timermatchh := s.regs r2 }) ⟨rfl, rfl, rfl⟩ rfl⟩
    · have hupper : s.hart.countCycle.timecmp.extractLsb' 32 32 = s.csrs.timermatchh :=
        upperHalf_append _ _
      rw [hupper]
      exact ⟨_, rfl, follows_noResult hzero
        (t := { s with csrs.timermatchl := s.regs r2 }) ⟨rfl, rfl, rfl⟩ rfl⟩
    · exact ⟨_, rfl, follows_ret hzero
        (t := { s with csrs.pc := s.csrs.pc + 4 }) ⟨rfl, rfl, rfl⟩ rfl⟩
    · exact ⟨_, rfl, follows_noResult hzero (Inner.refl s) rfl⟩
    · exact ⟨_, rfl, follows_trap hzero 8 (by decide) (by decide) _ _⟩

/-! ### Arithmetic instructions -/

section Arithmetic

variable {funct7 : BitVec 7} {r2 r1 d : Reg} {f3 : BitVec 3}

/-- The second operand is a register. -/
theorem op_reg (pc : Word) :
    op s pc (rType funct7 r2 r1 f3 d 0b0110011) =
      ⟨s, pc, d, if funct7.getLsbD 0 then muldiv f3.toNat (s.regs r1) (s.regs r2)
        else alu f3.toNat true (rType funct7 r2 r1 f3 d 0b0110011) (s.regs r1) (s.regs r2), 0⟩ := by
  have hreg : decide (rType funct7 r2 r1 f3 d 0b0110011 &&& 0x20 ≠ 0) = true :=
    decide_eq_true (bit5_rType.mpr (by decide))
  have hshamt : (BitVec.setWidth 32 r2).setWidth 5 = r2 := by
    rw [BitVec.setWidth_setWidth_of_le _ (by decide), BitVec.setWidth_eq]
  simp only [op, hreg, if_true, rs1_rType, shamt_rType, funct3_rType, hshamt, bit25_rType,
    true_and, result, rd_rType]

/-- The second operand is an immediate. -/
theorem op_imm (pc : Word) :
    op s pc (rType funct7 r2 r1 f3 d 0b0010011) =
      ⟨s, pc, d, alu f3.toNat false (rType funct7 r2 r1 f3 d 0b0010011) (s.regs r1)
        (immSe (rType funct7 r2 r1 f3 d 0b0010011)), 0⟩ := by
  have hreg : ¬ (rType funct7 r2 r1 f3 d 0b0010011 &&& 0x20 ≠ 0) :=
    fun h => absurd (bit5_rType.mp h) (by decide)
  simp only [op, hreg, decide_false, Bool.false_eq_true, if_false, rs1_rType, funct3_rType,
    false_and, result, rd_rType]

/-- An arithmetic instruction puts its value into a register. -/
theorem conforms_of_value (hzero : s.regs 0 = 0) {i : Instr} {v : Word}
    (hexecute : execute s s.csrs.pc (s.csrs.cyclel + 1) i.encode =
      .ok (.leave ⟨s, s.csrs.pc, d, v, 0⟩))
    (hexec : s.hart.countCycle.exec s.memoryMap i = .next (s.hart.countCycle.set d v).advance) :
    Conforms s i := by
  rw [Conforms, hexecute, hexec]
  exact ⟨_, rfl, follows_result hzero (Inner.refl s) rfl _ _⟩

theorem execute_op_reg (s : CPUState) :
    execute s s.csrs.pc (s.csrs.cyclel + 1) (rType funct7 r2 r1 f3 d 0b0110011) =
      .ok (.leave (op s s.csrs.pc (rType funct7 r2 r1 f3 d 0b0110011))) := by
  rw [execute, opcode_toNat]
  rfl

theorem execute_op_imm (s : CPUState) :
    execute s s.csrs.pc (s.csrs.cyclel + 1) (rType funct7 r2 r1 f3 d 0b0010011) =
      .ok (.leave (op s s.csrs.pc (rType funct7 r2 r1 f3 d 0b0010011))) := by
  rw [execute, opcode_toNat]
  rfl

theorem conforms_opImm (hzero : s.regs 0 = 0) (o : ImmOp) (imm : BitVec 12) :
    Conforms s (.opImm o d r1 imm) := by
  apply conforms_of_value hzero (v := o.value (s.regs r1) (imm.signExtend 32))
  · rw [Instr.encode, iType_eq_rType, execute_op_imm, op_imm, ← iType_eq_rType, immSe_iType,
      alu_eq _ _ _ _ _ (by simp)]
  · rw [Hart.exec, get_countCycle hzero]

theorem conforms_shiftImm (hzero : s.regs 0 = 0) (o : ShiftOp) (shamt : BitVec 5) :
    Conforms s (.shiftImm o d r1 shamt) := by
  apply conforms_of_value hzero (v := o.value (s.regs r1) shamt)
  · rw [Instr.encode, execute_op_imm, op_imm, alu_shift_eq _ _ _ _ shamt_rType
      (by rw [bit30_rType]; cases o <;> decide)]
  · rw [Hart.exec, get_countCycle hzero]

theorem conforms_op (hzero : s.regs 0 = 0) (o : ImmOp) : Conforms s (.op o d r1 r2) := by
  apply conforms_of_value hzero (v := o.value (s.regs r1) (s.regs r2))
  · rw [Instr.encode, execute_op_reg, op_reg, if_neg (by decide),
      alu_eq _ _ _ _ _ (by rw [bit30_rType]; decide)]
  · rw [Hart.exec, get_countCycle hzero, get_countCycle hzero]

theorem conforms_sub (hzero : s.regs 0 = 0) : Conforms s (.sub d r1 r2) := by
  apply conforms_of_value hzero (v := s.regs r1 - s.regs r2)
  · rw [Instr.encode, execute_op_reg, op_reg, if_neg (by decide)]
    show Except.ok (Switch.leave (Locals.mk s s.csrs.pc d (if _ then _ else _) 0)) = _
    rw [if_pos ⟨rfl, bit30_rType.mpr (by decide)⟩]
  · rw [Hart.exec, get_countCycle hzero, get_countCycle hzero]

theorem conforms_shift (hzero : s.regs 0 = 0) (o : ShiftOp) : Conforms s (.shift o d r1 r2) := by
  apply conforms_of_value hzero (v := o.value (s.regs r1) ((s.regs r2).setWidth 5))
  · have hlow : s.regs r2 &&& 0x1f = ((s.regs r2).setWidth 5).setWidth 32 := by
      apply BitVec.eq_of_getLsbD_eq
      intro i hi
      simp only [BitVec.getLsbD_and, BitVec.getLsbD_setWidth]
      interval_cases i <;> simp
    rw [Instr.encode, execute_op_reg, op_reg, if_neg (by cases o <;> decide),
      alu_shift_eq _ _ _ _ hlow (by rw [bit30_rType]; cases o <;> decide)]
  · rw [Hart.exec, get_countCycle hzero, get_countCycle hzero]

theorem conforms_mulDiv (hzero : s.regs 0 = 0) (o : MulDivOp) :
    Conforms s (.mulDiv o d r1 r2) := by
  apply conforms_of_value hzero (v := o.value (s.regs r1) (s.regs r2))
  · rw [Instr.encode, execute_op_reg, op_reg, if_pos (by decide), muldiv_eq]
  · rw [Hart.exec, get_countCycle hzero, get_countCycle hzero]

end Arithmetic

/-! ### System instructions -/

theorem conforms_fence (hzero : s.regs 0 = 0) (imm : BitVec 12) : Conforms s (.fence imm) := by
  refine ⟨.leave (noResult s s.csrs.pc), ?_, follows_noResult hzero (Inner.refl s) rfl⟩
  rw [Instr.encode, execute, iType_eq_rType, opcode_toNat]
  rfl

theorem conforms_fenceI (hzero : s.regs 0 = 0) : Conforms s .fenceI := by
  refine ⟨.leave (noResult s s.csrs.pc), ?_, follows_noResult hzero (Inner.refl s) rfl⟩
  rw [Instr.encode, execute, iType_eq_rType, opcode_toNat]
  rfl

theorem execute_system (s : CPUState) {imm : BitVec 12} {r1 d : Reg} {f3 : BitVec 3} :
    execute s s.csrs.pc (s.csrs.cyclel + 1) (iType imm r1 f3 d 0b1110011) =
      .ok (system s s.csrs.pc (s.csrs.cyclel + 1) (iType imm r1 f3 d 0b1110011)) := by
  rw [execute, iType_eq_rType, opcode_toNat]
  rfl

/-- The instructions without operands are told apart by their immediate. -/
theorem system_iType (s : CPUState) (imm : BitVec 12) (cycle : Word) :
    system s s.csrs.pc cycle (iType imm 0 0b000 0 0b1110011) =
      if imm.setWidth 32 = 0x105 then
        .ret 1 { s with
          csrs.mstatus := s.csrs.mstatus ||| 8
          csrs.extraflags := s.csrs.extraflags ||| 4
          csrs.pc := s.csrs.pc + 4 }
      else if imm.setWidth 32 &&& 0xff = 0x02 then .leave (mret s)
      else if imm.setWidth 32 = 0 then
        .leave ⟨s, s.csrs.pc, 0, 0, if s.csrs.extraflags &&& 3 ≠ 0 then 12 else 9⟩
      else if imm.setWidth 32 = 1 then .leave ⟨s, s.csrs.pc, 0, 0, 4⟩
      else .leave ⟨s, s.csrs.pc, 0, 0, 3⟩ := by
  have hfunct : funct3 (iType imm 0 0b000 0 0b1110011) = 0 := by
    rw [iType_eq_rType, funct3_rType]
    rfl
  simp only [system, hfunct, ushiftRight_iType]
  rfl

theorem conforms_ecall (hzero : s.regs 0 = 0) : Conforms s .ecall := by
  have hmode : s.csrs.extraflags &&& 3 ≠ 0 ↔ ¬ s.hart.countCycle.mode = 0 :=
    not_congr (flagsMode_eq_zero_iff s.csrs.extraflags)
  rw [Conforms, Instr.encode, execute_system, system_iType, if_neg (by decide), if_neg (by decide),
    if_pos (by decide), Hart.exec]
  refine ⟨_, rfl, ?_⟩
  by_cases huser : s.hart.countCycle.mode = 0
  · rw [if_pos huser, if_neg (fun h => hmode.mp h huser)]
    exact follows_trap hzero 9 (by decide) (by decide) _ _
  · rw [if_neg huser, if_pos (hmode.mpr huser)]
    exact follows_trap hzero 12 (by decide) (by decide) _ _

theorem conforms_ebreak (hzero : s.regs 0 = 0) : Conforms s .ebreak := by
  rw [Conforms, Instr.encode, execute_system, system_iType, if_neg (by decide), if_neg (by decide),
    if_neg (by decide), if_pos (by decide)]
  exact ⟨_, rfl, follows_trap hzero 4 (by decide) (by decide) _ _⟩

theorem conforms_wfi (hzero : s.regs 0 = 0) : Conforms s .wfi := by
  rw [Conforms, Instr.encode, execute_system, system_iType, if_pos (by decide)]
  refine ⟨_, rfl, follows_ret hzero (t := { s with
    csrs.mstatus := s.csrs.mstatus ||| 8
    csrs.extraflags := s.csrs.extraflags ||| 4
    csrs.pc := s.csrs.pc + 4 }) ⟨rfl, rfl, rfl⟩ ?_⟩
  simp only [hart, flags_wfi, flagsMode_packFlags, flagsWaiting_packFlags,
    flagsReservation_packFlags]
  rfl

theorem conforms_mret (hzero : s.regs 0 = 0) : Conforms s .mret := by
  rw [Conforms, Instr.encode, execute_system, system_iType, if_neg (by decide), if_pos (by decide)]
  refine ⟨_, rfl, ?_⟩
  have h := follows_jump hzero (t := (mret s).state) ⟨rfl, rfl, rfl⟩ s.csrs.mepc 0 0
  simp only [mret, noResult, status_mret, flags_mret] at h
  simp only [hart, flagsMode_packFlags, flagsWaiting_packFlags, flagsReservation_packFlags] at h
  simp only [mret, noResult, status_mret, flags_mret]
  exact h

/-! ### Zicsr -/

theorem toNat_number (number : BitVec 12) : (number.setWidth 32 : Word).toNat = number.toNat := by
  rw [BitVec.toNat_setWidth]
  exact Nat.mod_eq_of_lt (by omega)

theorem eq_ofNat_of_toNat {number : BitVec 12} {n : ℕ} (h : number.toNat = n) :
    number = BitVec.ofNat 12 n := by
  rw [← h, BitVec.ofNat_toNat, BitVec.setWidth_eq]

theorem ne_of_toNat {number n : BitVec 12} (h : number.toNat = n.toNat → False) : ¬ number = n :=
  fun heq => h (congrArg BitVec.toNat heq)

theorem readCsr_eq (s : CPUState) (number : BitVec 12) :
    readCsr s (s.csrs.cyclel + 1) (number.setWidth 32) = s.hart.countCycle.readCsr number := by
  have hcycle : s.hart.countCycle.cycle.extractLsb' 0 32 = s.csrs.cyclel + 1 := by
    show ((s.csrs.cycleh ++ s.csrs.cyclel) + (1 : Word).setWidth (32 + 32)).extractLsb' 0 32 = _
    rw [← Bits.carry_append, lowerHalf_append]
  rw [readCsr, toNat_number]
  split
  case h_12 h₁ h₂ h₃ h₄ h₅ h₆ h₇ h₈ h₉ h₁₀ h₁₁ =>
    rw [Hart.readCsr, if_neg (ne_of_toNat (n := 0x300) h₇), if_neg (ne_of_toNat (n := 0x301) h₁₁),
      if_neg (ne_of_toNat (n := 0x304) h₃), if_neg (ne_of_toNat (n := 0x305) h₂),
      if_neg (ne_of_toNat (n := 0x340) h₁), if_neg (ne_of_toNat (n := 0x341) h₆),
      if_neg (ne_of_toNat (n := 0x342) h₈), if_neg (ne_of_toNat (n := 0x343) h₉),
      if_neg (ne_of_toNat (n := 0x344) h₅), if_neg (ne_of_toNat (n := 0xc00) h₄),
      if_neg (ne_of_toNat (n := 0xf11) h₁₀)]
  all_goals
    rename_i h
    obtain rfl := eq_ofNat_of_toNat h
    first | rfl | exact hcycle.symm

theorem hart_writeCsr (s : CPUState) (number : BitVec 12) (v : Word) :
    (writeCsr s (number.setWidth 32) v).hart.countCycle = s.hart.countCycle.writeCsr number v := by
  rw [writeCsr, toNat_number]
  split
  case h_9 h₁ h₂ h₃ h₄ h₅ h₆ h₇ h₈ =>
    rw [Hart.writeCsr, if_neg (ne_of_toNat (n := 0x300) h₆), if_neg (ne_of_toNat (n := 0x304) h₃),
      if_neg (ne_of_toNat (n := 0x305) h₂), if_neg (ne_of_toNat (n := 0x340) h₁),
      if_neg (ne_of_toNat (n := 0x341) h₅), if_neg (ne_of_toNat (n := 0x342) h₇),
      if_neg (ne_of_toNat (n := 0x343) h₈), if_neg (ne_of_toNat (n := 0x344) h₄)]
  all_goals
    rename_i h
    obtain rfl := eq_ofNat_of_toNat h
    rfl

theorem inner_writeCsr (s : CPUState) (csrno v : Word) :
    Inner s (writeCsr s csrno v) ∧ (writeCsr s csrno v).csrs.pc = s.csrs.pc := by
  rw [writeCsr]
  split <;> exact ⟨⟨rfl, rfl, rfl⟩, rfl⟩

/-- The value that is written depends on the field `funct3`. -/
theorem zicsr_eq {ir v : Word} {number : BitVec 12} {d : Reg} (o : CsrOp) (cycle : Word)
    (hrd : rd ir = d) (hnumber : ir >>> 20 = number.setWidth 32)
    (hv : funct3 ir = o.funct2.toNat ∧ s.regs (rs1 ir) = v ∨
      funct3 ir = 4 + o.funct2.toNat ∧ (ir >>> 15) &&& 0x1f = v) :
    zicsr s s.csrs.pc cycle ir =
      ⟨writeCsr s (number.setWidth 32) (o.value (readCsr s cycle (number.setWidth 32)) v),
        s.csrs.pc, d, readCsr s cycle (number.setWidth 32), 0⟩ := by
  simp only [zicsr, hnumber, result, hrd]
  obtain ⟨hfunct, rfl⟩ | ⟨hfunct, rfl⟩ := hv
  · rw [hfunct]
    cases o <;> rfl
  · rw [hfunct]
    cases o <;> rfl

/-- The instructions of Zicsr, with a register or an immediate as the operand. -/
theorem follows_zicsr (hzero : s.regs 0 = 0) (o : CsrOp) (d : Reg) (v : Word)
    (number : BitVec 12) :
    Follows s (.next (s.hart.countCycle.execCsr o d v number))
      (.leave ⟨writeCsr s (number.setWidth 32)
        (o.value (readCsr s (s.csrs.cyclel + 1) (number.setWidth 32)) v), s.csrs.pc, d,
        readCsr s (s.csrs.cyclel + 1) (number.setWidth 32), 0⟩) := by
  rw [readCsr_eq, Hart.execCsr, ← hart_writeCsr]
  have hinner := inner_writeCsr s (number.setWidth 32)
    (o.value (s.hart.countCycle.readCsr number) v)
  exact follows_result hzero hinner.1 hinner.2 _ _

theorem conforms_csr (hzero : s.regs 0 = 0) (o : CsrOp) (d r1 : Reg) (number : BitVec 12) :
    Conforms s (.csr o d r1 number) := by
  have hfunct : funct3 (Instr.csr o d r1 number).encode = o.funct2.toNat := by
    rw [Instr.encode, iType_eq_rType, funct3_rType]
    cases o <;> rfl
  have hregs : rs1 (Instr.csr o d r1 number).encode = r1 ∧
      rd (Instr.csr o d r1 number).encode = d := by
    rw [Instr.encode, iType_eq_rType]
    exact ⟨rs1_rType, rd_rType⟩
  have hzicsr := zicsr_eq (s := s) (v := s.regs r1) o (s.csrs.cyclel + 1) hregs.2
    (@ushiftRight_iType r1 d _ _ number) (Or.inl ⟨hfunct, congrArg s.regs hregs.1⟩)
  refine ⟨.leave (zicsr s s.csrs.pc (s.csrs.cyclel + 1) (Instr.csr o d r1 number).encode), ?_, ?_⟩
  · refine (execute_system s).trans (congrArg Except.ok (if_pos ?_))
    show funct3 (Instr.csr o d r1 number).encode % 4 ≠ 0
    rw [hfunct]
    cases o <;> decide
  · rw [hzicsr, ← get_countCycle hzero r1]
    exact follows_zicsr hzero o d _ number

theorem conforms_csrImm (hzero : s.regs 0 = 0) (o : CsrOp) (d : Reg) (imm : BitVec 5)
    (number : BitVec 12) : Conforms s (.csrImm o d imm number) := by
  have hfunct : funct3 (Instr.csrImm o d imm number).encode = 4 + o.funct2.toNat := by
    rw [Instr.encode, iType_eq_rType, funct3_rType]
    cases o <;> rfl
  have hrd : rd (Instr.csrImm o d imm number).encode = d := by
    rw [Instr.encode, iType_eq_rType, rd_rType]
  have himm : ((Instr.csrImm o d imm number).encode >>> 15) &&& 0x1f = imm.setWidth 32 := by
    rw [Instr.encode, iType_eq_rType, rs1imm_rType]
  have hzicsr := zicsr_eq (s := s) (v := imm.setWidth 32) o (s.csrs.cyclel + 1) hrd
    (@ushiftRight_iType imm d _ _ number) (Or.inr ⟨hfunct, himm⟩)
  refine ⟨.leave (zicsr s s.csrs.pc (s.csrs.cyclel + 1) (Instr.csrImm o d imm number).encode),
    ?_, ?_⟩
  · refine (execute_system s).trans (congrArg Except.ok (if_pos ?_))
    show funct3 (Instr.csrImm o d imm number).encode % 4 ≠ 0
    rw [hfunct]
    cases o <;> decide
  · rw [hzicsr]
    exact follows_zicsr hzero o d _ number

/-! ### Atomic instructions -/

theorem execute_atomic (s : CPUState) {funct7 : BitVec 7} {r2 r1 d : Reg} {f3 : BitVec 3} :
    execute s s.csrs.pc (s.csrs.cyclel + 1) (rType funct7 r2 r1 f3 d 0b0101111) =
      (atomic s s.csrs.pc (rType funct7 r2 r1 f3 d 0b0101111)).map .leave := by
  rw [execute, opcode_toNat]
  rfl

section Atomic

variable {ir a v : Word} {d : Reg} (hsize : 4 ≤ s.memSize.toNat) (ha : s.regs (rs1 ir) = a)
  (hv : s.regs (rs2 ir) = v) (hrd : rd ir = d)
include hsize ha hrd

theorem atomic_trap (hram : ¬ s.memoryMap.InRam a) :
    atomic s s.csrs.pc ir = .ok ⟨s, s.csrs.pc, d, a, 8⟩ := by
  simp only [atomic, ha, if_pos (not_not.mp (mt (inRam_iff hsize).mp hram)), BitVec.sub_add_cancel,
    trapped, hrd]

theorem atomic_lr (hram : s.memoryMap.InRam a) (hf : ((ir >>> 27) &&& 0x1f).toNat = 2) :
    atomic s s.csrs.pc ir =
      .ok ⟨{ s with
        csrs.extraflags := (s.csrs.extraflags &&& 0x07) ||| ((a - s.memOffset) <<< 3) },
        s.csrs.pc, d, s.hart.loadWord a, 0⟩ := by
  simp only [atomic, ha, if_neg ((inRam_iff hsize).mpr hram), hf, read_word hram, result, hrd]
  rfl

include hv

theorem atomic_sc (hram : s.memoryMap.InRam a) (hf : ((ir >>> 27) &&& 0x1f).toNat = 3) :
    atomic s s.csrs.pc ir =
      if s.hart.reservation = Hart.reserve s.memoryMap a then
        .ok ⟨s.stored a 4 v, s.csrs.pc, d, 0, 0⟩
      else .ok ⟨s, s.csrs.pc, d, 1, 0⟩ := by
  have hreserved : s.csrs.extraflags >>> 3 = (a - s.memOffset) &&& 0x1fffffff ↔
      s.hart.reservation = Hart.reserve s.memoryMap a :=
    flagsReservation_eq_iff _ _
  simp only [atomic, ha, hv, if_neg ((inRam_iff hsize).mpr hram), hf, read_word hram,
    write_eq hram (n := 4) (by decide), ne_eq, hreserved, ite_not, result, hrd]
  rfl

theorem atomic_amo (hram : s.memoryMap.InRam a) (o : AmoOp)
    (hf : ((ir >>> 27) &&& 0x1f).toNat = o.funct5.toNat) :
    atomic s s.csrs.pc ir =
      .ok ⟨s.stored a 4 (o.value (s.hart.loadWord a) v), s.csrs.pc, d, s.hart.loadWord a, 0⟩ := by
  have hlr : ¬ o.funct5.toNat = 2 := by cases o <;> decide
  have hsc : ¬ o.funct5.toNat = 3 := by cases o <;> decide
  simp only [atomic, ha, hv, if_neg ((inRam_iff hsize).mpr hram), hf, read_word hram, amo_eq,
    write_eq hram (n := 4) (by decide), hlr, hsc, if_false, result, hrd]
  rfl

end Atomic

theorem irmid_append (f : BitVec 5) (aqrl : BitVec 2) {r2 r1 d : Reg} {f3 : BitVec 3}
    {opcode : BitVec 7} :
    ((rType (f ++ aqrl : BitVec (5 + 2)) r2 r1 f3 d opcode >>> 27) &&& 0x1f).toNat = f.toNat := by
  rw [irmid_rType]
  congr 1
  apply BitVec.eq_of_getLsbD_eq
  intro i hi
  rw [BitVec.getLsbD_extractLsb', BitVec.getLsbD_append, if_neg (by omega),
    Nat.add_sub_cancel_left, decide_eq_true hi, Bool.true_and]

theorem conforms_lr (hzero : s.regs 0 = 0) (hsize : 4 ≤ s.memSize.toNat) (aqrl : BitVec 2)
    (d r1 : Reg) : Conforms s (.lr aqrl d r1) := by
  rw [Conforms, Instr.encode, execute_atomic, Hart.exec, get_countCycle hzero]
  by_cases hram : s.memoryMap.InRam (s.regs r1)
  · rw [atomic_lr hsize (congrArg s.regs rs1_rType) rd_rType hram (irmid_append _ _), flags_lr]
    refine ⟨_, rfl, ?_⟩
    have h := follows_result hzero (t := { s with
      csrs.extraflags := packFlags ((s.regs r1 - s.memOffset).setWidth 29)
        (flagsWaiting s.csrs.extraflags) (flagsMode s.csrs.extraflags) })
      ⟨rfl, rfl, rfl⟩ rfl (s.hart.loadWord (s.regs r1)) d
    simp only [hart, flagsMode_packFlags, flagsWaiting_packFlags, flagsReservation_packFlags] at h
    simp only [if_pos hram]
    exact h
  · rw [atomic_trap hsize (congrArg s.regs rs1_rType) rd_rType hram]
    simp only [if_neg hram]
    exact ⟨_, rfl, follows_trap hzero 8 (by decide) (by decide) _ _⟩

/-- A word is stored, and a register written. -/
theorem follows_stored (hzero : s.regs 0 = 0) {a : Word} (hram : s.memoryMap.InRam a)
    (v rval : Word) (d : Reg) :
    Follows s (.next ((s.hart.countCycle.storeRam a 4 v).set d rval).advance)
      (.leave ⟨s.stored a 4 v, s.csrs.pc, d, rval, 0⟩) := by
  have h := follows_result hzero (inner_stored s a 4 v) rfl rval d
  rw [hart_stored hram (by decide)] at h
  exact h

theorem conforms_sc (hzero : s.regs 0 = 0) (hsize : 4 ≤ s.memSize.toNat) (aqrl : BitVec 2)
    (d r1 r2 : Reg) : Conforms s (.sc aqrl d r1 r2) := by
  rw [Conforms, Instr.encode, execute_atomic, Hart.exec, get_countCycle hzero, get_countCycle hzero]
  by_cases hram : s.memoryMap.InRam (s.regs r1)
  · rw [atomic_sc hsize (congrArg s.regs rs1_rType) (congrArg s.regs rs2_rType) rd_rType hram
      (irmid_append _ _)]
    simp only [if_pos hram]
    by_cases hreserved : s.hart.reservation = Hart.reserve s.memoryMap (s.regs r1)
    · rw [if_pos hreserved, if_pos (c := s.hart.countCycle.reservation = _) hreserved]
      exact ⟨_, rfl, follows_stored hzero hram _ _ _⟩
    · rw [if_neg hreserved, if_neg (c := s.hart.countCycle.reservation = _) hreserved]
      exact ⟨_, rfl, follows_result hzero (Inner.refl s) rfl _ _⟩
  · rw [atomic_trap hsize (congrArg s.regs rs1_rType) rd_rType hram]
    simp only [if_neg hram]
    exact ⟨_, rfl, follows_trap hzero 8 (by decide) (by decide) _ _⟩

theorem conforms_amo (hzero : s.regs 0 = 0) (hsize : 4 ≤ s.memSize.toNat) (o : AmoOp)
    (aqrl : BitVec 2) (d r1 r2 : Reg) : Conforms s (.amo o aqrl d r1 r2) := by
  rw [Conforms, Instr.encode, execute_atomic, Hart.exec, get_countCycle hzero, get_countCycle hzero]
  by_cases hram : s.memoryMap.InRam (s.regs r1)
  · rw [atomic_amo hsize (congrArg s.regs rs1_rType) (congrArg s.regs rs2_rType) rd_rType hram o
      (irmid_append _ _)]
    simp only [if_pos hram]
    exact ⟨_, rfl, follows_stored hzero hram _ _ _⟩
  · rw [atomic_trap hsize (congrArg s.regs rs1_rType) rd_rType hram]
    simp only [if_neg hram]
    exact ⟨_, rfl, follows_trap hzero 8 (by decide) (by decide) _ _⟩

/-- **Every instruction is executed as it is defined.** -/
theorem execute_encode (hzero : s.regs 0 = 0) (hsize : 4 ≤ s.memSize.toNat) (i : Instr) :
    Conforms s i := by
  cases i with
  | lui d imm => exact conforms_lui hzero d imm
  | auipc d imm => exact conforms_auipc hzero d imm
  | jal d offset => exact conforms_jal hzero d offset
  | jalr d r1 imm => exact conforms_jalr hzero d r1 imm
  | branch c r1 r2 offset => exact conforms_branch hzero c r1 r2 offset
  | load o d r1 imm => exact conforms_load hzero hsize o d r1 imm
  | store o r1 r2 imm => exact conforms_store hzero hsize o r1 r2 imm
  | opImm o d r1 imm => exact conforms_opImm hzero o imm
  | shiftImm o d r1 shamt => exact conforms_shiftImm hzero o shamt
  | op o d r1 r2 => exact conforms_op hzero o
  | sub d r1 r2 => exact conforms_sub hzero
  | shift o d r1 r2 => exact conforms_shift hzero o
  | mulDiv o d r1 r2 => exact conforms_mulDiv hzero o
  | fence imm => exact conforms_fence hzero imm
  | fenceI => exact conforms_fenceI hzero
  | ecall => exact conforms_ecall hzero
  | ebreak => exact conforms_ebreak hzero
  | mret => exact conforms_mret hzero
  | wfi => exact conforms_wfi hzero
  | csr o d r1 number => exact conforms_csr hzero o d r1 number
  | csrImm o d imm number => exact conforms_csrImm hzero o d imm number
  | lr aqrl d r1 => exact conforms_lr hzero hsize aqrl d r1
  | sc aqrl d r1 r2 => exact conforms_sc hzero hsize aqrl d r1 r2
  | amo o aqrl d r1 r2 => exact conforms_amo hzero hsize o aqrl d r1 r2

end CPUState

end Jyyos.Rv32ima
