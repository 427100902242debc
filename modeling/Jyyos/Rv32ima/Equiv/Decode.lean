import Jyyos.Algorithm.Bits
import Jyyos.Rv32ima.Isa
import Mathlib.Tactic.IntervalCases

/-!
# The parts of an encoded instruction

Every format is the one of the register instructions, with parts of the immediate in place of some
of the fields.  So the fields are read off that format once, and each immediate is put together
again from the parts of its own format.
-/

namespace Jyyos.Rv32ima

variable {funct7 : BitVec 7} {r2 r1 d : Reg} {f3 : BitVec 3} {opcode : BitVec 7}

theorem getLsbD_rType (i : ℕ) :
    (rType funct7 r2 r1 f3 d opcode).getLsbD i =
      if i < 7 then opcode.getLsbD i
      else if i < 12 then d.getLsbD (i - 7)
      else if i < 15 then f3.getLsbD (i - 12)
      else if i < 20 then r1.getLsbD (i - 15)
      else if i < 25 then r2.getLsbD (i - 20)
      else funct7.getLsbD (i - 25) := by
  show (funct7 ++ r2 ++ r1 ++ f3 ++ d ++ opcode : BitVec (7 + 5 + 5 + 3 + 5 + 7)).getLsbD i = _
  simp only [BitVec.getLsbD_append, Nat.sub_sub]
  split_ifs <;> first | rfl | omega

theorem iType_eq_rType {imm : BitVec 12} :
    iType imm r1 f3 d opcode =
      rType (imm.extractLsb' 5 7) (imm.extractLsb' 0 5) r1 f3 d opcode := by
  apply BitVec.eq_of_getLsbD_eq
  intro i hi
  rw [getLsbD_rType]
  show (imm ++ r1 ++ f3 ++ d ++ opcode : BitVec (12 + 5 + 3 + 5 + 7)).getLsbD i = _
  simp only [BitVec.getLsbD_append, BitVec.getLsbD_extractLsb']
  interval_cases i <;> simp

theorem uType_eq_rType {imm : BitVec 20} :
    uType imm d opcode =
      rType (imm.extractLsb' 13 7) (imm.extractLsb' 8 5) (imm.extractLsb' 3 5)
        (imm.extractLsb' 0 3) d opcode := by
  apply BitVec.eq_of_getLsbD_eq
  intro i hi
  rw [getLsbD_rType]
  show (imm ++ d ++ opcode : BitVec (20 + 5 + 7)).getLsbD i = _
  simp only [BitVec.getLsbD_append, BitVec.getLsbD_extractLsb']
  interval_cases i <;> simp

/-! ### The fields -/

theorem opcode_rType : rType funct7 r2 r1 f3 d opcode &&& 0x7f = opcode.setWidth 32 := by
  apply BitVec.eq_of_getLsbD_eq
  intro i hi
  rw [BitVec.getLsbD_and, getLsbD_rType, BitVec.getLsbD_setWidth]
  interval_cases i <;> simp

theorem rd_rType : CPUState.rd (rType funct7 r2 r1 f3 d opcode) = d := by
  apply BitVec.eq_of_getLsbD_eq
  intro i hi
  simp only [CPUState.rd, BitVec.getLsbD_setWidth, BitVec.getLsbD_and, BitVec.getLsbD_ushiftRight,
    getLsbD_rType]
  interval_cases i <;> simp

theorem rs1_rType : CPUState.rs1 (rType funct7 r2 r1 f3 d opcode) = r1 := by
  apply BitVec.eq_of_getLsbD_eq
  intro i hi
  simp only [CPUState.rs1, BitVec.getLsbD_setWidth, BitVec.getLsbD_and, BitVec.getLsbD_ushiftRight,
    getLsbD_rType]
  interval_cases i <;> simp

/-- The immediate of the instructions of Zicsr has the place of a register. -/
theorem rs1imm_rType : (rType funct7 r2 r1 f3 d opcode >>> 15) &&& 0x1f = r1.setWidth 32 := by
  apply BitVec.eq_of_getLsbD_eq
  intro i hi
  simp only [BitVec.getLsbD_and, BitVec.getLsbD_ushiftRight, getLsbD_rType,
    BitVec.getLsbD_setWidth]
  interval_cases i <;> simp

theorem rs2_rType : CPUState.rs2 (rType funct7 r2 r1 f3 d opcode) = r2 := by
  apply BitVec.eq_of_getLsbD_eq
  intro i hi
  simp only [CPUState.rs2, BitVec.getLsbD_setWidth, BitVec.getLsbD_and, BitVec.getLsbD_ushiftRight,
    getLsbD_rType]
  interval_cases i <;> simp

theorem funct3_rType : CPUState.funct3 (rType funct7 r2 r1 f3 d opcode) = f3.toNat := by
  have hbits : (rType funct7 r2 r1 f3 d opcode >>> 12) &&& 0x7 = f3.setWidth 32 := by
    apply BitVec.eq_of_getLsbD_eq
    intro i hi
    simp only [BitVec.getLsbD_and, BitVec.getLsbD_ushiftRight, getLsbD_rType,
      BitVec.getLsbD_setWidth]
    interval_cases i <;> simp
  rw [CPUState.funct3, hbits, BitVec.toNat_setWidth]
  exact Nat.mod_eq_of_lt (by omega)

theorem bit30_rType :
    rType funct7 r2 r1 f3 d opcode &&& 0x40000000 ≠ 0 ↔ funct7.getLsbD 5 = true := by
  rw [show (0x40000000 : Word) = BitVec.twoPow 32 30 from rfl,
    Bits.and_twoPow_ne_zero (by decide), getLsbD_rType]
  simp

theorem bit25_rType :
    rType funct7 r2 r1 f3 d opcode &&& 0x02000000 ≠ 0 ↔ funct7.getLsbD 0 = true := by
  rw [show (0x02000000 : Word) = BitVec.twoPow 32 25 from rfl,
    Bits.and_twoPow_ne_zero (by decide), getLsbD_rType]
  simp

theorem bit5_rType :
    rType funct7 r2 r1 f3 d opcode &&& 0x20 ≠ 0 ↔ opcode.getLsbD 5 = true := by
  rw [show (0x20 : Word) = BitVec.twoPow 32 5 from rfl,
    Bits.and_twoPow_ne_zero (by decide), getLsbD_rType]
  simp

theorem irmid_rType :
    ((rType funct7 r2 r1 f3 d opcode >>> 27) &&& 0x1f).toNat = (funct7.extractLsb' 2 5).toNat := by
  have hbits : (rType funct7 r2 r1 f3 d opcode >>> 27) &&& 0x1f =
      (funct7.extractLsb' 2 5).setWidth 32 := by
    apply BitVec.eq_of_getLsbD_eq
    intro i hi
    simp only [BitVec.getLsbD_and, BitVec.getLsbD_ushiftRight, getLsbD_rType,
      BitVec.getLsbD_setWidth, BitVec.getLsbD_extractLsb']
    interval_cases i <;> simp
  rw [hbits, BitVec.toNat_setWidth]
  exact Nat.mod_eq_of_lt (by omega)

/-! ### The immediates -/

theorem ushiftRight_iType {imm : BitVec 12} :
    iType imm r1 f3 d opcode >>> 20 = imm.setWidth 32 := by
  apply BitVec.eq_of_getLsbD_eq
  intro i hi
  simp only [iType_eq_rType, BitVec.getLsbD_ushiftRight, getLsbD_rType, BitVec.getLsbD_setWidth,
    BitVec.getLsbD_extractLsb']
  interval_cases i <;> simp

/-- The upper bits of an immediate. -/
theorem signExtend_twelve (x : BitVec 12) :
    (if x.setWidth 32 &&& 0x800 ≠ 0 then x.setWidth 32 ||| 0xfffff000 else x.setWidth 32) =
      x.signExtend 32 :=
  Bits.signExtend_eq_ite x (by decide) (by decide)

theorem immSe_iType {imm : BitVec 12} :
    CPUState.immSe (iType imm r1 f3 d opcode) = imm.signExtend 32 := by
  rw [CPUState.immSe, ushiftRight_iType, ← signExtend_twelve]
  split_ifs
  · rfl
  · exact BitVec.or_zero

theorem upper_uType {imm : BitVec 20} :
    uType imm d opcode &&& 0xfffff000 = imm ++ 0#12 := by
  apply BitVec.eq_of_getLsbD_eq
  intro i hi
  simp only [uType_eq_rType, BitVec.getLsbD_and, getLsbD_rType, BitVec.getLsbD_append,
    BitVec.getLsbD_extractLsb']
  interval_cases i <;> simp

/-- The parts of the offset of a jump. -/
theorem reladdy_jType {offset : BitVec 20} :
    ((jType offset d opcode &&& 0x80000000) >>> 11) |||
      ((jType offset d opcode &&& 0x7fe00000) >>> 20) |||
      ((jType offset d opcode &&& 0x00100000) >>> 9) ||| (jType offset d opcode &&& 0x000ff000) =
      (offset ++ 0#1).setWidth 32 := by
  apply BitVec.eq_of_getLsbD_eq
  intro i hi
  simp only [jType, uType_eq_rType, BitVec.getLsbD_or, BitVec.getLsbD_ushiftRight,
    BitVec.getLsbD_and, getLsbD_rType, BitVec.getLsbD_setWidth, BitVec.getLsbD_append,
    BitVec.getLsbD_extractLsb']
  interval_cases i <;> simp

/-- The parts of the offset of a branch. -/
theorem immm4_bType {offset : BitVec 12} :
    ((bType offset r2 r1 f3 opcode &&& 0xf00) >>> 7) |||
      ((bType offset r2 r1 f3 opcode &&& 0x7e000000) >>> 20) |||
      ((bType offset r2 r1 f3 opcode &&& 0x80) <<< 4) |||
      ((bType offset r2 r1 f3 opcode >>> 31) <<< 12) = (offset ++ 0#1).setWidth 32 := by
  apply BitVec.eq_of_getLsbD_eq
  intro i hi
  simp only [bType, BitVec.getLsbD_or, BitVec.getLsbD_ushiftRight, BitVec.getLsbD_shiftLeft,
    BitVec.getLsbD_and, getLsbD_rType, BitVec.getLsbD_setWidth, BitVec.getLsbD_append,
    BitVec.getLsbD_extractLsb']
  interval_cases i <;> simp

/-- The parts of the immediate of a store. -/
theorem addy_sType {imm : BitVec 12} :
    ((sType imm r2 r1 f3 opcode >>> 7) &&& 0x1f) |||
      ((sType imm r2 r1 f3 opcode &&& 0xfe000000) >>> 20) = imm.setWidth 32 := by
  apply BitVec.eq_of_getLsbD_eq
  intro i hi
  simp only [sType, BitVec.getLsbD_or, BitVec.getLsbD_ushiftRight, BitVec.getLsbD_and,
    getLsbD_rType, BitVec.getLsbD_setWidth, BitVec.getLsbD_extractLsb']
  interval_cases i <;> simp

/-- The upper bits of the offset of a branch. -/
theorem signExtend_thirteen (x : BitVec 13) :
    (if x.setWidth 32 &&& 0x1000 ≠ 0 then x.setWidth 32 ||| 0xffffe000 else x.setWidth 32) =
      x.signExtend 32 :=
  Bits.signExtend_eq_ite x (by decide) (by decide)

/-- The upper bits of the offset of a jump. -/
theorem signExtend_twentyone (x : BitVec 21) :
    (if x.setWidth 32 &&& 0x00100000 ≠ 0 then x.setWidth 32 ||| 0xffe00000 else x.setWidth 32) =
      x.signExtend 32 :=
  Bits.signExtend_eq_ite x (by decide) (by decide)

/-- The lowest bits of the immediate are the second register, or the amount of a shift. -/
theorem shamt_rType :
    CPUState.immSe (rType funct7 r2 r1 f3 d opcode) &&& 0x1f = r2.setWidth 32 := by
  have himm : rType funct7 r2 r1 f3 d opcode =
      iType (funct7 ++ r2 : BitVec (7 + 5)) r1 f3 d opcode := by
    rw [iType_eq_rType]
    congr 1 <;> apply BitVec.eq_of_getLsbD_eq <;> intro i hi <;>
      simp only [BitVec.getLsbD_extractLsb', BitVec.getLsbD_append] <;> interval_cases i <;> simp
  rw [himm, immSe_iType]
  apply BitVec.eq_of_getLsbD_eq
  intro i hi
  simp only [BitVec.getLsbD_and, BitVec.getLsbD_signExtend, BitVec.getLsbD_append,
    BitVec.getLsbD_setWidth]
  interval_cases i <;> simp

end Jyyos.Rv32ima
