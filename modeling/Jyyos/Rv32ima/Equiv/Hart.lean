import Jyyos.Algorithm.Bits
import Jyyos.Rv32ima.Isa
import Mathlib.Tactic.IntervalCases

/-!
# The hart of a state

`CPUState.hart` reads the state of the emulator as a hart: the counters and the timer are put
together from their halves, and the mode, the flag of WFI and the reservation are taken from
`EXTRAFLAGS`.  The lemmas say how each change of the state looks on the hart.
-/

namespace Jyyos.Rv32ima

/-! ### `EXTRAFLAGS` and `MSTATUS` -/

def flagsMode (flags : Word) : BitVec 2 := flags.setWidth 2

def flagsWaiting (flags : Word) : Bool := flags.getLsbD 2

def flagsReservation (flags : Word) : BitVec 29 := flags.extractLsb' 3 29

/-- The word with these three parts. -/
def packFlags (reservation : BitVec 29) (waiting : Bool) (mode : BitVec 2) : Word :=
  (reservation ++ BitVec.ofBool waiting ++ mode : BitVec (29 + 1 + 2))

section Pack

variable (reservation : BitVec 29) (waiting : Bool) (mode : BitVec 2)

theorem getLsbD_packFlags (i : ℕ) :
    (packFlags reservation waiting mode).getLsbD i =
      if i < 2 then mode.getLsbD i
      else if i < 3 then (BitVec.ofBool waiting).getLsbD (i - 2)
      else reservation.getLsbD (i - 3) := by
  show (reservation ++ BitVec.ofBool waiting ++ mode : BitVec (29 + 1 + 2)).getLsbD i = _
  simp only [BitVec.getLsbD_append, Nat.sub_sub]
  split_ifs <;> first | rfl | omega

@[simp]
theorem flagsMode_packFlags : flagsMode (packFlags reservation waiting mode) = mode := by
  apply BitVec.eq_of_getLsbD_eq
  intro i hi
  simp only [flagsMode, BitVec.getLsbD_setWidth, getLsbD_packFlags]
  interval_cases i <;> simp

@[simp]
theorem flagsWaiting_packFlags : flagsWaiting (packFlags reservation waiting mode) = waiting := by
  rw [flagsWaiting, getLsbD_packFlags]
  simp

@[simp]
theorem flagsReservation_packFlags :
    flagsReservation (packFlags reservation waiting mode) = reservation := by
  apply BitVec.eq_of_getLsbD_eq
  intro i hi
  simp only [flagsReservation, BitVec.getLsbD_extractLsb', getLsbD_packFlags]
  interval_cases i <;> simp

end Pack

variable (flags mstatus a : Word)

/-- The end of WFI. -/
theorem flags_tick :
    flags &&& ~~~(4 : Word) = packFlags (flagsReservation flags) false (flagsMode flags) := by
  apply BitVec.eq_of_getLsbD_eq
  intro i hi
  simp only [getLsbD_packFlags, flagsReservation, flagsMode, BitVec.getLsbD_and,
    BitVec.getLsbD_setWidth, BitVec.getLsbD_extractLsb']
  interval_cases i <;> simp

theorem flags_wfi :
    flags ||| 4 = packFlags (flagsReservation flags) true (flagsMode flags) := by
  apply BitVec.eq_of_getLsbD_eq
  intro i hi
  simp only [getLsbD_packFlags, flagsReservation, flagsMode, BitVec.getLsbD_or,
    BitVec.getLsbD_setWidth, BitVec.getLsbD_extractLsb']
  interval_cases i <;> simp

theorem flags_trap :
    flags ||| 3 = packFlags (flagsReservation flags) (flagsWaiting flags) 3 := by
  apply BitVec.eq_of_getLsbD_eq
  intro i hi
  simp only [getLsbD_packFlags, flagsReservation, flagsWaiting, BitVec.getLsbD_or,
    BitVec.getLsbD_extractLsb']
  interval_cases i <;> simp

theorem flags_mret :
    (flags &&& ~~~(3 : Word)) ||| ((mstatus >>> 11) &&& 3) =
      packFlags (flagsReservation flags) (flagsWaiting flags) (mstatus.extractLsb' 11 2) := by
  apply BitVec.eq_of_getLsbD_eq
  intro i hi
  simp only [getLsbD_packFlags, flagsReservation, flagsWaiting, BitVec.getLsbD_or,
    BitVec.getLsbD_and, BitVec.getLsbD_ushiftRight, BitVec.getLsbD_extractLsb']
  interval_cases i <;> simp

theorem flags_lr :
    (flags &&& 0x07) ||| (a <<< 3) =
      packFlags (a.setWidth 29) (flagsWaiting flags) (flagsMode flags) := by
  apply BitVec.eq_of_getLsbD_eq
  intro i hi
  simp only [getLsbD_packFlags, flagsWaiting, flagsMode, BitVec.getLsbD_or, BitVec.getLsbD_and,
    BitVec.getLsbD_shiftLeft, BitVec.getLsbD_setWidth]
  interval_cases i <;> simp

/-- The test of SC.W. -/
theorem flagsReservation_eq_iff :
    flags >>> 3 = a &&& 0x1fffffff ↔ flagsReservation flags = a.setWidth 29 := by
  have hflags : flags >>> 3 = (flagsReservation flags).setWidth 32 := by
    apply BitVec.eq_of_getLsbD_eq
    intro i hi
    simp only [flagsReservation, BitVec.getLsbD_ushiftRight, BitVec.getLsbD_extractLsb',
      BitVec.getLsbD_setWidth]
    interval_cases i <;> simp
  have ha : a &&& 0x1fffffff = (a.setWidth 29).setWidth 32 := by
    apply BitVec.eq_of_getLsbD_eq
    intro i hi
    simp only [BitVec.getLsbD_and, BitVec.getLsbD_setWidth]
    interval_cases i <;> simp
  rw [hflags, ha]
  refine ⟨fun h => ?_, fun h => by rw [h]⟩
  have hcut := congrArg (BitVec.setWidth 29) h
  rwa [BitVec.setWidth_setWidth_of_le _ (by decide), BitVec.setWidth_setWidth_of_le _ (by decide),
    BitVec.setWidth_eq, BitVec.setWidth_eq] at hcut

/-- The test of ECALL. -/
theorem flagsMode_eq_zero_iff : flags &&& 3 = 0 ↔ flagsMode flags = 0 := by
  have hflags : flags &&& 3 = (flagsMode flags).setWidth 32 := by
    apply BitVec.eq_of_getLsbD_eq
    intro i hi
    simp only [flagsMode, BitVec.getLsbD_and, BitVec.getLsbD_setWidth]
    interval_cases i <;> simp
  rw [hflags]
  refine ⟨fun h => ?_, fun h => by rw [h]; rfl⟩
  have hcut := congrArg (BitVec.setWidth 2) h
  rwa [BitVec.setWidth_setWidth_of_le _ (by decide), BitVec.setWidth_eq] at hcut

theorem getLsbD_status (mpp : BitVec 2) (mpie mie : Bool) (i : ℕ) :
    (status mpp mpie mie).getLsbD i =
      if i < 3 then false
      else if i < 4 then (BitVec.ofBool mie).getLsbD (i - 3)
      else if i < 7 then false
      else if i < 8 then (BitVec.ofBool mpie).getLsbD (i - 7)
      else if i < 11 then false
      else mpp.getLsbD (i - 11) := by
  show (0#19 ++ mpp ++ 0#3 ++ BitVec.ofBool mpie ++ 0#3 ++ BitVec.ofBool mie ++ 0#3 :
    BitVec (19 + 2 + 3 + 1 + 3 + 1 + 3)).getLsbD i = _
  simp only [BitVec.getLsbD_append, Nat.sub_sub, BitVec.getLsbD_zero]
  split_ifs <;> first | rfl | omega | (rw [BitVec.getLsbD_of_ge _ _ (by omega)])

theorem status_trap :
    ((mstatus &&& 0x08) <<< 4) ||| ((flags &&& 3) <<< 11) =
      status (flagsMode flags) (mstatus.getLsbD 3) false := by
  apply BitVec.eq_of_getLsbD_eq
  intro i hi
  simp only [getLsbD_status, flagsMode, BitVec.getLsbD_or, BitVec.getLsbD_and,
    BitVec.getLsbD_shiftLeft, BitVec.getLsbD_setWidth]
  interval_cases i <;> simp

theorem status_mret :
    ((mstatus &&& 0x80) >>> 4) ||| ((flags &&& 3) <<< 11) ||| 0x80 =
      status (flagsMode flags) true (mstatus.getLsbD 7) := by
  apply BitVec.eq_of_getLsbD_eq
  intro i hi
  simp only [getLsbD_status, flagsMode, BitVec.getLsbD_or, BitVec.getLsbD_and,
    BitVec.getLsbD_shiftLeft, BitVec.getLsbD_ushiftRight, BitVec.getLsbD_setWidth]
  interval_cases i <;> simp

theorem getLsbD_three_eq : (mstatus &&& 0x8 ≠ 0) ↔ mstatus.getLsbD 3 = true :=
  Bits.and_twoPow_ne_zero (x := mstatus) (i := 3) (by decide)

theorem getLsbD_seven_eq : (mstatus &&& ((1 : Word) <<< 7) ≠ 0) ↔ mstatus.getLsbD 7 = true :=
  Bits.and_twoPow_ne_zero (x := mstatus) (i := 7) (by decide)

/-! ### The hart -/

namespace CPUState

def memoryMap (s : CPUState) : MemoryMap := ⟨s.memOffset, s.memSize⟩

def hart (s : CPUState) : Hart where
  x := fun r => s.regs r
  pc := s.csrs.pc
  ram := fun a => s.mem (a - s.memOffset).toNat
  mode := flagsMode s.csrs.extraflags
  waiting := flagsWaiting s.csrs.extraflags
  reservation := flagsReservation s.csrs.extraflags
  cycle := s.csrs.cycleh ++ s.csrs.cyclel
  time := s.csrs.timerh ++ s.csrs.timerl
  timecmp := s.csrs.timermatchh ++ s.csrs.timermatchl
  mstatus := s.csrs.mstatus
  mscratch := s.csrs.mscratch
  mtvec := s.csrs.mtvec
  mie := s.csrs.mie
  mip := s.csrs.mip
  mepc := s.csrs.mepc
  mtval := s.csrs.mtval
  mcause := s.csrs.mcause

theorem cycle_hart (s : CPUState) : s.hart.cycle = s.csrs.cycleh ++ s.csrs.cyclel := rfl

theorem time_hart (s : CPUState) : s.hart.time = s.csrs.timerh ++ s.csrs.timerl := rfl

variable {s : CPUState}

theorem get_hart (hzero : s.regs 0 = 0) (r : Reg) : s.hart.get r = s.regs r := by
  by_cases hr : r = 0
  · subst hr
    rw [hzero]
    rfl
  · exact dif_pos hr

/-- The write to a register. -/
theorem hart_setReg (s : CPUState) (r : Reg) (v : Word) :
    (if r ≠ 0 then { s with regs := Function.update s.regs r v } else s).hart =
      s.hart.set r v := by
  by_cases hr : r = 0
  · rw [if_neg (not_not.mpr hr), Hart.set, dif_neg (not_not.mpr hr)]
  · rw [if_pos hr, Hart.set, dif_pos hr]
    have hx : (fun q : { q : Reg // q ≠ 0 } => Function.update s.regs r v q) =
        Function.update (fun q : { q : Reg // q ≠ 0 } => s.regs q) ⟨r, hr⟩ v := by
      funext q
      by_cases hq : q = ⟨r, hr⟩
      · rw [hq, Function.update_self, Function.update_self]
      · rw [Function.update_of_ne hq, Function.update_of_ne (fun h => hq (Subtype.ext h))]
    exact congrArg (fun x => { s.hart with x := x }) hx

/-- The end of a step that has counted a cycle. -/
theorem hart_cycleEnd (s : CPUState) (rval pc : Word) :
    (cycleEnd s 0 rval pc (s.csrs.cyclel + 1)).hart = s.hart.countCycle.jump pc := by
  have hcycle := Bits.carry_append s.csrs.cycleh s.csrs.cyclel 1
  have hstate : cycleEnd s 0 rval pc (s.csrs.cyclel + 1) =
      { s with
        csrs.cycleh :=
          if s.csrs.cyclel + 1 < s.csrs.cyclel then s.csrs.cycleh + 1 else s.csrs.cycleh
        csrs.cyclel := s.csrs.cyclel + 1
        csrs.pc := pc } := by
    show { (if s.csrs.cyclel + 1 < s.csrs.cyclel then
      { s with csrs.cycleh := s.csrs.cycleh + 1 } else s) with
      csrs.cyclel := s.csrs.cyclel + 1, csrs.pc := pc } = _
    split_ifs <;> rfl
  rw [hstate]
  exact congrArg (fun c => { s.hart with cycle := c, pc := pc }) hcycle

/-- The end of a step that has not. -/
theorem hart_cycleEnd_same (s : CPUState) (rval pc : Word) :
    (cycleEnd s 0 rval pc s.csrs.cyclel).hart = s.hart.jump pc := by
  have hstate : cycleEnd s 0 rval pc s.csrs.cyclel = { s with csrs.pc := pc } := by
    show { (if s.csrs.cyclel < s.csrs.cyclel then
      { s with csrs.cycleh := s.csrs.cycleh + 1 } else s) with
      csrs.cyclel := s.csrs.cyclel, csrs.pc := pc } = _
    rw [if_neg (BitVec.lt_irrefl _)]
  rw [hstate]
  rfl

/-! ### Traps -/

/-- The state with a trap is the state of the handler, from which the step ends. -/
theorem cycleEnd_trap {trap : Word} (htrap : trap ≠ 0) (rval pc cycle : Word) :
    cycleEnd s trap rval pc cycle =
      cycleEnd (enterTrap s trap rval pc).1 0 rval (enterTrap s trap rval pc).2 cycle := by
  simp only [cycleEnd, if_pos htrap, ne_eq, not_true_eq_false, if_false]

/-- The state of the handler. -/
theorem hart_enterTrap (s : CPUState) (trap rval pc : Word) :
    (enterTrap s trap rval pc).1.hart.jump (enterTrap s trap rval pc).2 =
      (s.hart.jump (if trap &&& 0x80000000 ≠ 0 then pc + 4 else pc)).takeTrap
        (if trap &&& 0x80000000 ≠ 0 then trap else trap - 1)
        (if trap &&& 0x80000000 ≠ 0 then 0 else if 5 < trap ∧ trap ≤ 8 then rval
          else if trap &&& 0x80000000 ≠ 0 then pc + 4 else pc) := by
  have hstatus := status_trap s.csrs.extraflags s.csrs.mstatus
  have hflags := flags_trap s.csrs.extraflags
  have hmtvec : s.csrs.mtvec - 4 + 4 = s.csrs.mtvec := BitVec.sub_add_cancel _ _
  simp only [enterTrap, hstatus, hflags, hmtvec, decide_eq_true_eq]
  simp only [hart, Hart.jump, Hart.takeTrap, Hart.interruptsEnabled, flagsMode_packFlags,
    flagsWaiting_packFlags, flagsReservation_packFlags]

/-- A trap of an instruction; only the traps from 6 to 8 set `MTVAL` to the value. -/
theorem hart_cycleEnd_trap (s : CPUState) (trap : Word) (htrap : trap ≠ 0)
    (hint : trap &&& 0x80000000 = 0) (rval pc : Word) :
    (cycleEnd s trap rval pc (s.csrs.cyclel + 1)).hart =
      (s.hart.countCycle.jump pc).takeTrap (trap - 1)
        (if 5 < trap ∧ trap ≤ 8 then rval else pc) := by
  have henter := hart_enterTrap s trap rval pc
  simp only [hint, ne_eq, not_true_eq_false, if_false] at henter
  rw [cycleEnd_trap htrap]
  exact (hart_cycleEnd (enterTrap s trap rval pc).1 rval (enterTrap s trap rval pc).2).trans
    (congrArg Hart.countCycle henter)

/-- The timer interrupt. -/
theorem hart_cycleEnd_interrupt (s : CPUState) :
    (cycleEnd s 0x80000007 0 (s.csrs.pc - 4) s.csrs.cyclel).hart =
      s.hart.takeTrap 0x80000007 0 := by
  have henter := hart_enterTrap s 0x80000007 0 (s.csrs.pc - 4)
  rw [if_pos (by decide), if_pos (by decide), if_pos (by decide), BitVec.sub_add_cancel] at henter
  rw [cycleEnd_trap (by decide)]
  exact (hart_cycleEnd_same (enterTrap s 0x80000007 0 (s.csrs.pc - 4)).1 0
    (enterTrap s 0x80000007 0 (s.csrs.pc - 4)).2).trans henter

theorem timerInterrupt_eq (s : CPUState) : s.timerInterrupt = s.hart.interrupted := by
  apply Bool.eq_iff_iff.mpr
  simp only [timerInterrupt, Hart.interrupted, Hart.interruptsEnabled, Bool.and_eq_true,
    decide_eq_true_eq, getLsbD_seven_eq, getLsbD_three_eq]
  exact Iff.rfl

/-! ### The clock -/

theorem hart_advanceTimer (s : CPUState) (elapsedUs : Word) :
    (s.advanceTimer elapsedUs).hart =
      { s.hart with time := s.hart.time + elapsedUs.setWidth 64 } := by
  have hstate : s.advanceTimer elapsedUs =
      { s with
        csrs.timerh := if s.csrs.timerl + elapsedUs < s.csrs.timerl then s.csrs.timerh + 1
          else s.csrs.timerh
        csrs.timerl := s.csrs.timerl + elapsedUs } := by
    rw [advanceTimer]
    split_ifs <;> rfl
  rw [hstate]
  exact congrArg (fun t => { s.hart with time := t })
    (Bits.carry_append s.csrs.timerh s.csrs.timerl elapsedUs)

theorem hart_compareTimer (s : CPUState) :
    s.compareTimer.hart =
      if s.hart.timecmp ≠ 0 ∧ s.hart.timecmp < s.hart.time then
        { s.hart with mip := s.hart.mip ||| 0x80, waiting := false }
      else { s.hart with mip := s.hart.mip &&& ~~~0x80 } := by
  have hmatch : (s.csrs.timermatchh ≠ 0 ∨ s.csrs.timermatchl ≠ 0) ∧
      s.csrs.timermatchh ++ s.csrs.timermatchl < s.csrs.timerh ++ s.csrs.timerl ↔
      s.hart.timecmp ≠ 0 ∧ s.hart.timecmp < s.hart.time := by
    rw [← not_and_or]
    exact and_congr_left' (not_congr (Bits.append_eq_zero_iff _ _).symm)
  simp only [compareTimer, hmatch, flags_tick]
  split_ifs
  · simp only [hart, flagsMode_packFlags, flagsWaiting_packFlags, flagsReservation_packFlags]
    rfl
  · rfl

/-- **The clock of the emulator is the clock of the hart.** -/
theorem hart_tick (s : CPUState) (elapsedUs : Word) :
    (s.tick elapsedUs).hart = s.hart.tick elapsedUs := by
  rw [tick, hart_compareTimer, hart_advanceTimer]
  rfl

/-! ### Memory -/

theorem littleEndian_one (mem : ℕ → Byte) (p : ℕ) : littleEndian mem p 1 = (mem p).setWidth 32 := by
  simp [littleEndian]

theorem littleEndian_two (mem : ℕ → Byte) (p : ℕ) :
    littleEndian mem p 2 = (mem (p + 1) ++ mem p : BitVec (8 + 8)).setWidth 32 := by
  apply BitVec.eq_of_getLsbD_eq
  intro i hi
  simp only [littleEndian, BitVec.getLsbD_or, BitVec.getLsbD_shiftLeft, BitVec.getLsbD_setWidth,
    BitVec.getLsbD_append]
  interval_cases i <;> simp

theorem littleEndian_four (mem : ℕ → Byte) (p : ℕ) :
    littleEndian mem p 4 =
      (mem (p + 3) ++ mem (p + 2) ++ mem (p + 1) ++ mem p : BitVec (8 + 8 + 8 + 8)) := by
  apply BitVec.eq_of_getLsbD_eq
  intro i hi
  simp only [littleEndian, BitVec.getLsbD_or, BitVec.getLsbD_shiftLeft, BitVec.getLsbD_setWidth,
    BitVec.getLsbD_append]
  interval_cases i <;> simp

variable {a : Word}

/-- The check of an address, if there is any memory at all. -/
theorem inRam_iff (hsize : 4 ≤ s.memSize.toNat) :
    ¬ (s.memSize - 3 ≤ a - s.memOffset) ↔ s.memoryMap.InRam a := by
  have hsub : (s.memSize - 3).toNat = s.memSize.toNat - 3 :=
    BitVec.toNat_sub_of_le (by rw [BitVec.le_def]; exact le_trans (by decide) hsize)
  rw [BitVec.le_def, hsub, MemoryMap.InRam]
  show _ ↔ (a - s.memOffset).toNat + 4 ≤ s.memSize.toNat
  omega

/-- The bytes of the RAM one after the other. -/
theorem ram_hart_add (hram : s.memoryMap.InRam a) {n : ℕ} (hn : n < 4) :
    s.hart.ram (a + BitVec.ofNat 32 n) = s.mem ((a - s.memOffset).toNat + n) := by
  have hle : (a - s.memOffset).toNat + 4 ≤ s.memSize.toNat := hram
  have hmem := s.memSize.isLt
  show s.mem (a + BitVec.ofNat 32 n - s.memOffset).toNat = _
  congr 1
  rw [add_sub_right_comm, BitVec.toNat_add, BitVec.toNat_ofNat]
  omega

theorem read_eq (hram : s.memoryMap.InRam a) {n : ℕ} (hn : n ≤ 4) :
    s.read (a - s.memOffset) n = .ok (littleEndian s.mem (a - s.memOffset).toNat n) := by
  have hle : (a - s.memOffset).toNat + 4 ≤ s.memSize.toNat := hram
  exact if_pos (by omega)

theorem read_word (hram : s.memoryMap.InRam a) :
    s.read (a - s.memOffset) 4 = .ok (s.hart.loadWord a) := by
  rw [read_eq hram (by decide), littleEndian_four, ← ram_hart_add hram (n := 1) (by decide),
    ← ram_hart_add hram (n := 2) (by decide), ← ram_hart_add hram (n := 3) (by decide)]
  rfl

theorem read_half (hram : s.memoryMap.InRam a) :
    s.read (a - s.memOffset) 2 =
      .ok ((s.hart.ram (a + 1) ++ s.hart.ram a : BitVec (8 + 8)).setWidth 32) := by
  rw [read_eq hram (by decide), littleEndian_two, ← ram_hart_add hram (n := 1) (by decide)]
  rfl

theorem read_byte (hram : s.memoryMap.InRam a) :
    s.read (a - s.memOffset) 1 = .ok ((s.hart.ram a).setWidth 32) := by
  rw [read_eq hram (by decide), littleEndian_one]
  rfl

/-- The state after a store. -/
def stored (s : CPUState) (a : Word) (n : ℕ) (v : Word) : CPUState :=
  { s with mem := setBytes s.mem (a - s.memOffset).toNat n v }

theorem write_eq (hram : s.memoryMap.InRam a) {n : ℕ} (hn : n ≤ 4) (v : Word) :
    s.write (a - s.memOffset) n v = .ok (s.stored a n v) := by
  have hle : (a - s.memOffset).toNat + 4 ≤ s.memSize.toNat := hram
  exact if_pos (by omega)

theorem hart_stored (hram : s.memoryMap.InRam a) {n : ℕ} (hn : n ≤ 4) (v : Word) :
    (s.stored a n v).hart = s.hart.storeRam a n v := by
  have hle : (a - s.memOffset).toNat + 4 ≤ s.memSize.toNat := hram
  have hmem := s.memSize.isLt
  have hbyte :
      (fun b : Word => setBytes s.mem (a - s.memOffset).toNat n v (b - s.memOffset).toNat) =
      fun b => if (b - a).toNat < n then (v >>> (8 * (b - a).toNat)).setWidth 8
        else s.hart.ram b := by
    funext b
    have hsplit : b - s.memOffset = (b - a) + (a - s.memOffset) :=
      (sub_add_sub_cancel b a s.memOffset).symm
    have hb := (b - a).isLt
    have hnat : (b - s.memOffset).toNat =
        ((b - a).toNat + (a - s.memOffset).toNat) % 2 ^ 32 := by
      rw [hsplit, BitVec.toNat_add]
    by_cases hlt : (b - a).toNat < n
    · have heq : (b - s.memOffset).toNat = (b - a).toNat + (a - s.memOffset).toNat := by omega
      rw [if_pos hlt, setBytes, if_pos (by omega), heq, Nat.add_sub_cancel]
    · rw [if_neg hlt, setBytes, if_neg (by omega)]
      rfl
  exact congrArg (fun ram => { s.hart with ram := ram }) hbyte

end CPUState

end Jyyos.Rv32ima
