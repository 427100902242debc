import Jyyos.Algorithm.Bits
import Jyyos.Rv32ima.Isa

/-!
# The arithmetic of the emulator

Each operation of the emulator on words is the operation of the instruction set on numbers.
-/

namespace Jyyos.Rv32ima

open CPUState

variable (a b : Word)

theorem setWidth_eq_ofInt : a.setWidth 64 = BitVec.ofInt 64 a.toNat := by
  rw [BitVec.ofInt_natCast, BitVec.ofNat_toNat]

/-- The upper half of a product. -/
theorem upper_ofInt (x y : ℤ) :
    ((BitVec.ofInt 64 x * BitVec.ofInt 64 y) >>> 32).setWidth 32 =
      BitVec.ofInt 32 (x * y / 2 ^ 32) := by
  rw [← BitVec.ofInt_mul, Bits.setWidth_ushiftRight_ofInt _ (by decide)]

theorem sdiv_eq_ofInt : a.sdiv b = BitVec.ofInt 32 (a.toInt.tdiv b.toInt) := by
  apply BitVec.eq_of_toInt_eq
  rw [BitVec.toInt_sdiv, BitVec.toInt_ofInt]

theorem srem_eq_ofInt : a.srem b = BitVec.ofInt 32 (a.toInt.tmod b.toInt) := by
  rw [← BitVec.toInt_srem, BitVec.ofInt_toInt]

/-- **RV32M.** -/
theorem muldiv_eq (o : MulDivOp) : muldiv o.funct3.toNat a b = o.value a b := by
  cases o with
  | mul => rfl
  | mulh =>
    show ((a.signExtend 64 * b.signExtend 64).sshiftRight 32).setWidth 32 = _
    rw [Bits.setWidth_sshiftRight _ (by decide)]
    exact upper_ofInt a.toInt b.toInt
  | mulhsu =>
    show ((a.signExtend 64 * b.setWidth 64) >>> 32).setWidth 32 = _
    rw [setWidth_eq_ofInt]
    exact upper_ofInt a.toInt b.toNat
  | mulhu =>
    show ((a.setWidth 64 * b.setWidth 64) >>> 32).setWidth 32 = _
    rw [setWidth_eq_ofInt, setWidth_eq_ofInt, upper_ofInt]
    exact BitVec.ofInt_natCast 32 (a.toNat * b.toNat / 2 ^ 32)
  | div =>
    show (if b = 0 then -1 else if a = BitVec.intMin 32 ∧ b = -1 then a else a.sdiv b) =
      if b = 0 then -1 else BitVec.ofInt 32 (a.toInt.tdiv b.toInt)
    rw [← sdiv_eq_ofInt]
    split_ifs with hb hover
    · rfl
    · rw [hover.1, hover.2]
      decide
    · rfl
  | divu =>
    show (if b = 0 then 0xffffffff else a / b) =
      if b = 0 then -1 else BitVec.ofNat 32 (a.toNat / b.toNat)
    split_ifs with hb
    · rfl
    · rw [← BitVec.toNat_udiv, BitVec.ofNat_toNat, BitVec.setWidth_eq]
  | rem =>
    show (if b = 0 then a else if a = BitVec.intMin 32 ∧ b = -1 then 0 else a.srem b) =
      if b = 0 then a else BitVec.ofInt 32 (a.toInt.tmod b.toInt)
    rw [← srem_eq_ofInt]
    split_ifs with hb hover
    · rfl
    · rw [hover.1, hover.2]
      decide
    · rfl
  | remu =>
    show (if b = 0 then a else a % b) = if b = 0 then a else BitVec.ofNat 32 (a.toNat % b.toNat)
    rw [← BitVec.toNat_umod, BitVec.ofNat_toNat, BitVec.setWidth_eq]

/-- The operations other than shifts, in both of their forms. -/
theorem alu_eq (o : ImmOp) (isReg : Bool) (ir : Word)
    (hadd : ¬ (isReg ∧ ir &&& 0x40000000 ≠ 0)) :
    alu o.funct3.toNat isReg ir a b = o.value a b := by
  cases o with
  | add => exact if_neg hadd
  | slt =>
    show (if a.slt b then 1 else 0) = if a.toInt < b.toInt then 1 else 0
    simp only [BitVec.slt_iff_toInt_lt]
  | sltu =>
    show (if a.ult b then 1 else 0) = if a.toNat < b.toNat then 1 else 0
    simp only [BitVec.ult_iff_toNat_lt]
  | xor => rfl
  | or => rfl
  | and => rfl

/-- The shifts. -/
theorem alu_shift_eq (o : ShiftOp) (isReg : Bool) {ir : Word} {n : BitVec 5}
    (hn : b &&& 0x1f = n.setWidth 32) (hir : ir &&& 0x40000000 ≠ 0 ↔ o = .sra) :
    alu o.funct3.toNat isReg ir a b = o.value a n := by
  have htoNat : (b &&& 0x1f).toNat = n.toNat := by
    rw [hn, BitVec.toNat_setWidth]
    exact Nat.mod_eq_of_lt (by omega)
  cases o with
  | sll =>
    show a <<< (b &&& 0x1f) = _
    rw [BitVec.shiftLeft_eq', htoNat]
    apply BitVec.eq_of_toNat_eq
    simp [ShiftOp.value, Nat.shiftLeft_eq]
  | srl =>
    show (if ir &&& 0x40000000 ≠ 0 then a.sshiftRight (b &&& 0x1f).toNat
      else a >>> (b &&& 0x1f)) = _
    rw [if_neg (fun h => nomatch hir.mp h), BitVec.ushiftRight_eq', htoNat]
    show _ = BitVec.ofNat 32 (a.toNat / 2 ^ n.toNat)
    rw [← Nat.shiftRight_eq_div_pow, ← BitVec.toNat_ushiftRight, BitVec.ofNat_toNat,
      BitVec.setWidth_eq]
  | sra =>
    show (if ir &&& 0x40000000 ≠ 0 then a.sshiftRight (b &&& 0x1f).toNat
      else a >>> (b &&& 0x1f)) = _
    rw [if_pos (hir.mpr rfl), htoNat]
    show _ = BitVec.ofInt 32 (a.toInt / 2 ^ n.toNat)
    have hdiv : a.toInt / 2 ^ n.toNat = a.toInt >>> n.toNat := by
      rw [Int.shiftRight_eq_div_pow, Int.natCast_pow]
      rfl
    rw [hdiv, ← BitVec.toInt_sshiftRight, BitVec.ofInt_toInt]

/-- What an atomic instruction stores. -/
theorem amo_eq (o : AmoOp) : amo o.funct5.toNat a b = some (o.value a b) := by
  cases o with
  | swap => rfl
  | add => exact congrArg some (BitVec.add_comm b a)
  | xor => exact congrArg some (BitVec.xor_comm b a)
  | and => exact congrArg some (BitVec.and_comm b a)
  | or => exact congrArg some (BitVec.or_comm b a)
  | min =>
    show some (if b.slt a then b else a) = some (if b.toInt < a.toInt then b else a)
    simp only [BitVec.slt_iff_toInt_lt]
  | max =>
    show some (if a.slt b then b else a) = some (if a.toInt < b.toInt then b else a)
    simp only [BitVec.slt_iff_toInt_lt]
  | minu =>
    show some (if b.ult a then b else a) = some (if b.toNat < a.toNat then b else a)
    simp only [BitVec.ult_iff_toNat_lt]
  | maxu =>
    show some (if a.ult b then b else a) = some (if a.toNat < b.toNat then b else a)
    simp only [BitVec.ult_iff_toNat_lt]

/-- Whether a branch is taken. -/
theorem branch_eq (s : CPUState) (pc : Word) {ir : Word} (c : Cond)
    (hir : funct3 ir = c.funct3.toNat) :
    branch s pc ir = noResult s
      (if c.holds (s.regs (rs1 ir)) (s.regs (rs2 ir)) then branchTarget pc ir else pc) := by
  simp only [branch, hir]
  cases c with
  | eq => rfl
  | ne => rfl
  | lt => rfl
  | ge =>
    have hge : (!(s.regs (rs1 ir)).slt (s.regs (rs2 ir))) =
        decide ((s.regs (rs2 ir)).toInt ≤ (s.regs (rs1 ir)).toInt) := by
      rw [BitVec.slt_eq_decide, ← decide_not, decide_eq_decide, Int.not_lt]
    exact congrArg (fun taken : Bool => noResult s (if taken then branchTarget pc ir else pc)) hge
  | ltu => rfl
  | geu =>
    have hge : (!(s.regs (rs1 ir)).ult (s.regs (rs2 ir))) =
        decide ((s.regs (rs2 ir)).toNat ≤ (s.regs (rs1 ir)).toNat) := by
      rw [BitVec.ult_eq_decide, ← decide_not, decide_eq_decide, Nat.not_lt]
    exact congrArg (fun taken : Bool => noResult s (if taken then branchTarget pc ir else pc)) hge

end Jyyos.Rv32ima
