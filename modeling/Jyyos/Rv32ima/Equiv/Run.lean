import Jyyos.Rv32ima.Equiv.Step
import Mathlib.Algebra.Ring.Nat

/-!
# Runs of the emulator

The emulator follows the hart (`run_of_hart`): whatever a hart can do with legal instructions,
traps, interrupts and the timer, the emulator does, and returns the same.

For any contents of the memory, also for words that are no instructions, the emulator stays within
the memory when its size is a multiple of four, and only then (`run_safe_iff`); and its two counters
count (`run_counters`).
-/

namespace Jyyos.Rv32ima

namespace CPUState

variable {s s' : CPUState}

/-- The register `x0` is 0, and the memory consists of words. -/
structure Sound (s : CPUState) : Prop where
  zero : s.regs 0 = 0
  size : s.memSize.toNat % 4 = 0

/-! ### The parts of a step -/

theorem step_sleep {us : Word} (hwait : (s.tick us).csrs.extraflags &&& 4 ≠ 0) :
    s.rv32imaStep us = .ok (1, s.tick us) := by
  simp only [rv32imaStep, if_pos hwait]
  rfl

section Awake

variable {us : Word} (hwait : ¬ ((s.tick us).csrs.extraflags &&& 4 ≠ 0))
include hwait

theorem step_interrupt (hint : (s.tick us).timerInterrupt = true) :
    s.rv32imaStep us = .ok (0, cycleEnd (s.tick us) 0x80000007 0 ((s.tick us).csrs.pc - 4)
      (s.tick us).csrs.cyclel) := by
  simp only [rv32imaStep, if_neg hwait, if_pos hint]
  rfl

variable (hint : ¬ (s.tick us).timerInterrupt = true)
include hint

theorem step_fetchFault
    (hpc : (s.tick us).memSize ≤ (s.tick us).csrs.pc - (s.tick us).memOffset) :
    s.rv32imaStep us = .ok (0, cycleEnd (s.tick us) 2 0 (s.tick us).csrs.pc
      ((s.tick us).csrs.cyclel + 1)) := by
  simp only [rv32imaStep, if_neg hwait, if_neg hint, if_pos hpc]
  rfl

variable (hpc : ¬ (s.tick us).memSize ≤ (s.tick us).csrs.pc - (s.tick us).memOffset)
include hpc

theorem step_misaligned
    (halign : ((s.tick us).csrs.pc - (s.tick us).memOffset) &&& 3 ≠ 0) :
    s.rv32imaStep us = .ok (0, cycleEnd (s.tick us) 1 0 (s.tick us).csrs.pc
      ((s.tick us).csrs.cyclel + 1)) := by
  simp only [rv32imaStep, if_neg hwait, if_neg hint, if_neg hpc, if_pos halign]
  rfl

/-- The only word that can lie partly outside of the memory is the last one. -/
theorem step_outOfBounds (halign : ¬ ((s.tick us).csrs.pc - (s.tick us).memOffset) &&& 3 ≠ 0)
    (hend : (s.tick us).memSize.toNat <
      ((s.tick us).csrs.pc - (s.tick us).memOffset).toNat + 4) :
    s.rv32imaStep us = .error .outOfBounds := by
  simp only [rv32imaStep, if_neg hwait, if_neg hint, if_neg hpc, if_neg halign]
  rw [CPUState.read, if_neg (Nat.not_le.mpr hend)]
  rfl

theorem step_execute (halign : ¬ ((s.tick us).csrs.pc - (s.tick us).memOffset) &&& 3 ≠ 0)
    {ir : Word} (hfetch : (s.tick us).read ((s.tick us).csrs.pc - (s.tick us).memOffset) 4 = .ok ir)
    {sw : Switch} (hsw : execute (s.tick us) (s.tick us).csrs.pc ((s.tick us).csrs.cyclel + 1) ir =
      .ok sw) :
    s.rv32imaStep us = .ok (sw.done ((s.tick us).csrs.cyclel + 1)) := by
  simp only [rv32imaStep, if_neg hwait, if_neg hint, if_neg hpc, if_neg halign]
  rw [hfetch]
  show (execute (s.tick us) (s.tick us).csrs.pc ((s.tick us).csrs.cyclel + 1) ir >>= _) = _
  rw [hsw]
  cases sw <;> rfl

end Awake

/-! ### Following the hart -/

theorem flagsWaiting_iff (flags : Word) : flags &&& 4 ≠ 0 ↔ flagsWaiting flags = true :=
  Bits.and_twoPow_ne_zero (x := flags) (i := 2) (by decide)

theorem and_three_ne_zero_iff (a : Word) : a &&& 3 ≠ 0 ↔ a.toNat % 4 ≠ 0 := by
  have hmod : (a &&& 3).toNat = a.toNat % 4 := by
    rw [BitVec.toNat_and]
    exact Nat.and_two_pow_sub_one_eq_mod a.toNat 2
  rw [not_iff_not, ← hmod]
  exact ⟨fun h => by rw [h]; rfl, fun h => BitVec.eq_of_toNat_eq h⟩

theorem regs_tick (s : CPUState) (us : Word) : (s.tick us).regs = s.regs := by
  simp only [tick, compareTimer, advanceTimer]
  split_ifs <;> rfl

theorem mem_tick (s : CPUState) (us : Word) : (s.tick us).mem = s.mem := by
  simp only [tick, compareTimer, advanceTimer]
  split_ifs <;> rfl

theorem time_tick (s : CPUState) (us : Word) :
    (s.tick us).hart.time = s.hart.time + us.setWidth 64 := by
  rw [hart_tick, Hart.tick]
  split_ifs <;> rfl

theorem memoryMap_tick (s : CPUState) (us : Word) : (s.tick us).memoryMap = s.memoryMap := by
  simp only [tick, compareTimer, advanceTimer]
  split_ifs <;> rfl

/-- A word is read only from inside of the memory. -/
theorem inRam_pc (hsize : s.memSize.toNat % 4 = 0) {a : Word} (hpc : a - s.memOffset < s.memSize)
    (halign : (a - s.memOffset).toNat % 4 = 0) : s.memoryMap.InRam a := by
  rw [BitVec.lt_def] at hpc
  show (a - s.memOffset).toNat + 4 ≤ s.memSize.toNat
  omega

/-- **A step of the hart is a step of the emulator.** -/
theorem step_of_hart (hs : Sound s) {us : Word} {r : Word × Hart}
    (hstep : Hart.Step s.memoryMap (s.hart.tick us) r) :
    ∃ s', s.rv32imaStep us = .ok (r.1, s') ∧ s'.hart = r.2 ∧ s'.memoryMap = s.memoryMap ∧
      s'.regs 0 = 0 := by
  have hregs : (s.tick us).regs 0 = 0 := (congrFun (regs_tick s us) 0).trans hs.zero
  have hmap := memoryMap_tick s us
  have hmemSize : (s.tick us).memSize = s.memSize := congrArg MemoryMap.size hmap
  have hsize : (s.tick us).memSize.toNat % 4 = 0 := hmemSize ▸ hs.size
  have hwaiting := flagsWaiting_iff (s.tick us).csrs.extraflags
  have hinterrupt := timerInterrupt_eq (s.tick us)
  rw [← hart_tick, ← hmap] at hstep
  rw [← hmap]
  cases hstep with
  | sleep hwait => exact ⟨_, step_sleep (hwaiting.mpr hwait), rfl, rfl, hregs⟩
  | interrupt hwait hint =>
    have hawake := mt hwaiting.mp (Bool.eq_false_iff.mp hwait)
    refine ⟨_, step_interrupt hawake (hinterrupt.trans hint), hart_cycleEnd_interrupt _, ?_, ?_⟩
    · rw [memoryMap_cycleEnd]
    · rw [regs_cycleEnd, hregs]
  | fetchFault hwait hint hpc =>
    have hawake := mt hwaiting.mp (Bool.eq_false_iff.mp hwait)
    have hnoint := Bool.eq_false_iff.mp (hinterrupt.trans hint)
    refine ⟨_, step_fetchFault hawake hnoint hpc,
      hart_cycleEnd_trap _ 2 (by decide) (by decide) _ _, ?_, ?_⟩
    · rw [memoryMap_cycleEnd]
    · rw [regs_cycleEnd, hregs]
  | misaligned hwait hint hpc halign =>
    have hawake := mt hwaiting.mp (Bool.eq_false_iff.mp hwait)
    have hnoint := Bool.eq_false_iff.mp (hinterrupt.trans hint)
    refine ⟨_, step_misaligned hawake hnoint (BitVec.not_le.mpr hpc)
      ((and_three_ne_zero_iff _).mpr halign),
      hart_cycleEnd_trap _ 1 (by decide) (by decide) _ _, ?_, ?_⟩
    · rw [memoryMap_cycleEnd]
    · rw [regs_cycleEnd, hregs]
  | exec hwait hint hpc halign i hfetch =>
    have hawake := mt hwaiting.mp (Bool.eq_false_iff.mp hwait)
    have hnoint := Bool.eq_false_iff.mp (hinterrupt.trans hint)
    have hram : (s.tick us).memoryMap.InRam (s.tick us).csrs.pc := inRam_pc hsize hpc halign
    have hfour : 4 ≤ (s.tick us).memSize.toNat := le_trans (Nat.le_add_left 4 _) hram
    obtain ⟨sw, hsw, hfollows⟩ := execute_encode hregs hfour i
    have hread := (read_word hram).trans (congrArg Except.ok hfetch)
    have hdone := step_execute hawake hnoint (BitVec.not_le.mpr hpc)
      (mt (and_three_ne_zero_iff _).mp (not_not.mpr halign)) hread hsw
    rw [← hfollows.hart]
    exact ⟨_, hdone, rfl, hfollows.memoryMap, hfollows.zero⟩

theorem run_cons {us value : Word} {s₁ : CPUState} (hstep : s.rv32imaStep us = .ok (value, s₁))
    {rest : List Word} {trace : List (Word × Word)} {s₂ : CPUState}
    (hrest : s₁.run rest = .ok (trace, s₂)) :
    s.run (us :: rest) = .ok ((us, value) :: trace, s₂) := by
  rw [run, hstep]
  show (s₁.run rest >>= _) = _
  rw [hrest]
  rfl

/-- **The emulator follows the hart**: it returns what the steps of the hart return, and reaches a
state with the hart that is reached. -/
theorem run_of_hart {trace : List (Word × Word)} {h : Hart} (hs : Sound s)
    (hrun : Hart.Run s.memoryMap s.hart trace h) :
    ∃ s', s.run (trace.map Prod.fst) = .ok (trace, s') ∧ s'.hart = h ∧ Sound s' := by
  generalize hmap : s.memoryMap = m at hrun
  generalize hstart : s.hart = h₀ at hrun
  induction hrun generalizing s with
  | nil h => exact ⟨s, rfl, hstart, hs⟩
  | cons hstep hrest ih =>
    subst hmap hstart
    obtain ⟨s₁, hs₁, hhart, hmap₁, hzero⟩ := step_of_hart hs hstep
    have hsize : s₁.memSize = s.memSize := congrArg MemoryMap.size hmap₁
    obtain ⟨s₂, hs₂, hend, hsound⟩ := ih ⟨hzero, hsize ▸ hs.size⟩ hmap₁ hhart
    exact ⟨s₂, run_cons hs₁ hs₂, hend, hsound⟩

/-- A memory of two words with the instructions `addi x1, x0, 5` and `mul x2, x1, x1`. -/
def square : CPUState where
  regs := fun _ => 0
  csrs := ⟨0, 0, 0, 0, 0, 0, 0, 0, 0, 0, 0, 0, 0, 0, 0, 0⟩
  mem := fun i => [0x93, 0x00, 0x50, 0x00, 0x33, 0x81, 0x10, 0x02].getD i 0
  memOffset := 0
  memSize := 8

theorem run_of_hart_square :
    ∃ s', square.run [1, 1] = .ok ([(1, 0), (1, 0)], s') ∧ s'.hart.get 2 = 25 := by
  have hruns : Hart.Run square.memoryMap square.hart [(1, 0), (1, 0)] _ :=
    .cons (.exec (by decide) (by decide) (by decide) (by decide) (.opImm .add 1 0 5) (by decide))
      (.cons (.exec (by decide) (by decide) (by decide) (by decide) (.mulDiv .mul 2 1 1)
        (by decide)) (.nil _))
  obtain ⟨s', hrun, hhart, -⟩ := run_of_hart (s := square) ⟨rfl, by decide⟩ hruns
  refine ⟨s', hrun, ?_⟩
  rw [hhart]
  decide

/-! ### What any instruction leaves alone -/

/-- The registers, the counters, the place of the memory and what lies beyond it. -/
structure Frame (s s' : CPUState) : Prop where
  regs : s'.regs = s.regs
  cyclel : s'.csrs.cyclel = s.csrs.cyclel
  cycleh : s'.csrs.cycleh = s.csrs.cycleh
  timerl : s'.csrs.timerl = s.csrs.timerl
  timerh : s'.csrs.timerh = s.csrs.timerh
  memoryMap : s'.memoryMap = s.memoryMap
  outside : ∀ i, s.memSize.toNat ≤ i → s'.mem i = s.mem i

def Switch.state : Switch → CPUState
  | .leave l => l.state
  | .ret _ s => s

/-- The computation does not fail, and its result leaves alone what it must. -/
def Framed {α : Type} (s : CPUState) (state : α → CPUState) (x : Except Fault α) : Prop :=
  ∃ r, x = .ok r ∧ Frame s (state r)

theorem Frame.refl (s : CPUState) : Frame s s := ⟨rfl, rfl, rfl, rfl, rfl, rfl, fun _ _ => rfl⟩

theorem Framed.ok {α : Type} {state : α → CPUState} {r : α} (h : Frame s (state r)) :
    Framed s state (.ok r) := ⟨r, rfl, h⟩

theorem Framed.map_leave {x : Except Fault Locals} (h : Framed s Locals.state x) :
    Framed s Switch.state (x.map .leave) := by
  obtain ⟨l, rfl, hl⟩ := h
  exact ⟨.leave l, rfl, hl⟩

theorem Framed.read {α : Type} {state : α → CPUState} {x : Word} {n : ℕ} {f : Word → α}
    (hx : x.toNat + n ≤ s.memSize.toNat) (hf : ∀ v, Frame s (state (f v))) :
    Framed s state (do return f (← s.read x n)) := by
  rw [CPUState.read, if_pos hx]
  exact ⟨_, rfl, hf _⟩

theorem Framed.write {α : Type} {state : α → CPUState} {x v : Word} {n : ℕ}
    {f : CPUState → α} (hx : x.toNat + n ≤ s.memSize.toNat) (hf : ∀ s', state (f s') = s') :
    Framed s state (do return f (← s.write x n v)) := by
  rw [CPUState.write, if_pos hx]
  refine ⟨_, rfl, ?_⟩
  rw [hf]
  refine ⟨rfl, rfl, rfl, rfl, rfl, rfl, fun i hi => ?_⟩
  exact if_neg (by omega)

/-- Four bytes fit. -/
theorem fits (hsize : 4 ≤ s.memSize.toNat) {x : Word} (hx : ¬ s.memSize - 3 ≤ x) {n : ℕ}
    (hn : n ≤ 4) : x.toNat + n ≤ s.memSize.toNat := by
  have hsub : (s.memSize - 3).toNat = s.memSize.toNat - 3 :=
    BitVec.toNat_sub_of_le (by rw [BitVec.le_def]; exact le_trans (by decide) hsize)
  rw [BitVec.le_def, hsub] at hx
  omega

theorem load_framed (hsize : 4 ≤ s.memSize.toNat) (pc ir : Word) :
    Framed s Locals.state (load s pc ir) := by
  simp only [load]
  by_cases hram : s.memSize - 3 ≤ s.regs (rs1 ir) + immSe ir - s.memOffset
  · rw [if_pos hram]
    split <;> exact Framed.ok (Frame.refl s)
  · rw [if_neg hram]
    have hfits := @fits s hsize _ hram
    split
    case h_6 => exact Framed.ok (Frame.refl s)
    all_goals exact Framed.read (hfits (by decide)) fun _ => Frame.refl s

theorem store_framed (hsize : 4 ≤ s.memSize.toNat) (pc ir : Word) :
    Framed s Switch.state (store s pc ir) := by
  simp only [store]
  split_ifs with hram hdevice hhigh hlow hoff
  · exact Framed.ok ⟨rfl, rfl, rfl, rfl, rfl, rfl, fun _ _ => rfl⟩
  · exact Framed.ok ⟨rfl, rfl, rfl, rfl, rfl, rfl, fun _ _ => rfl⟩
  · exact Framed.ok ⟨rfl, rfl, rfl, rfl, rfl, rfl, fun _ _ => rfl⟩
  · exact Framed.ok (Frame.refl s)
  · exact Framed.ok (Frame.refl s)
  · have hfits := @fits s hsize _ hram
    split
    case h_4 => exact Framed.ok (Frame.refl s)
    all_goals exact Framed.write (hfits (by decide)) fun _ => rfl

theorem atomic_framed (hsize : 4 ≤ s.memSize.toNat) (pc ir : Word) :
    Framed s Locals.state (atomic s pc ir) := by
  simp only [atomic]
  by_cases hram : s.memSize - 3 ≤ s.regs (rs1 ir) - s.memOffset
  · rw [if_pos hram]
    exact Framed.ok (Frame.refl s)
  · have hfits := fits hsize hram (n := 4) (by decide)
    rw [if_neg hram, CPUState.read, if_pos hfits]
    show Framed s Locals.state (if _ then _ else _)
    split_ifs with hlr hsc hreserved
    · exact Framed.ok ⟨rfl, rfl, rfl, rfl, rfl, rfl, fun _ _ => rfl⟩
    · exact Framed.ok (Frame.refl s)
    · exact Framed.write hfits fun _ => rfl
    · split
      · exact Framed.write hfits fun _ => rfl
      · exact Framed.ok (Frame.refl s)

theorem writeCsr_frame (s : CPUState) (csrno v : Word) : Frame s (writeCsr s csrno v) := by
  rw [writeCsr]
  split <;> exact ⟨rfl, rfl, rfl, rfl, rfl, rfl, fun _ _ => rfl⟩

theorem system_framed (pc cycle ir : Word) : Frame s (system s pc cycle ir).state := by
  simp only [system]
  split_ifs
  · exact writeCsr_frame s _ _
  all_goals exact ⟨rfl, rfl, rfl, rfl, rfl, rfl, fun _ _ => rfl⟩

theorem branch_frame (pc ir : Word) : Frame s (branch s pc ir).state := by
  simp only [branch]
  split <;> exact Frame.refl s

theorem execute_framed (hsize : 4 ≤ s.memSize.toNat) (pc cycle ir : Word) :
    Framed s Switch.state (execute s pc cycle ir) := by
  rw [execute]
  split
  · exact Framed.ok (Frame.refl s)
  · exact Framed.ok (Frame.refl s)
  · exact Framed.ok (Frame.refl s)
  · exact Framed.ok (Frame.refl s)
  · exact Framed.ok (branch_frame pc ir)
  · exact (load_framed hsize pc ir).map_leave
  · exact store_framed hsize pc ir
  · exact Framed.ok (Frame.refl s)
  · exact Framed.ok (Frame.refl s)
  · exact Framed.ok (Frame.refl s)
  · exact Framed.ok (system_framed pc cycle ir)
  · exact (atomic_framed hsize pc ir).map_leave
  · exact Framed.ok (Frame.refl s)

/-! ### What any step does -/

/-- What the parts of a step after the clock keep, whatever is in the memory. -/
structure Kept (s s' : CPUState) : Prop where
  zero : s'.regs 0 = s.regs 0
  memoryMap : s'.memoryMap = s.memoryMap
  outside : ∀ i, s.memSize.toNat ≤ i → s'.mem i = s.mem i
  time : s'.hart.time = s.hart.time

theorem Kept.trans {s₁ s₂ s₃ : CPUState} (h₁ : Kept s₁ s₂) (h₂ : Kept s₂ s₃) : Kept s₁ s₃ where
  zero := h₂.zero.trans h₁.zero
  memoryMap := h₂.memoryMap.trans h₁.memoryMap
  outside := by
    have hsize : s₂.memSize = s₁.memSize := congrArg MemoryMap.size h₁.memoryMap
    intro i hi
    rw [h₂.outside i (hsize ▸ hi), h₁.outside i hi]
  time := h₂.time.trans h₁.time

theorem Frame.kept (h : Frame s s') : Kept s s' where
  zero := congrFun h.regs 0
  memoryMap := h.memoryMap
  outside := h.outside
  time := by rw [time_hart, time_hart, h.timerh, h.timerl]

theorem kept_cycleEnd (s : CPUState) (trap rval pc cycle : Word) :
    Kept s (cycleEnd s trap rval pc cycle) where
  zero := by rw [regs_cycleEnd]
  memoryMap := memoryMap_cycleEnd s trap rval pc cycle
  outside := by
    intro i _
    simp only [cycleEnd, enterTrap]
    split_ifs <;> rfl
  time := by
    simp only [cycleEnd, enterTrap]
    split_ifs <;> rfl

theorem cycle_cycleEnd (s : CPUState) (trap rval pc : Word) :
    (cycleEnd s trap rval pc (s.csrs.cyclel + 1)).hart.cycle = s.hart.cycle + 1 := by
  by_cases htrap : trap = 0
  · rw [htrap, hart_cycleEnd]
    rfl
  · rw [cycleEnd_trap htrap]
    exact congrArg Hart.cycle (hart_cycleEnd (enterTrap s trap rval pc).1 _ _)

theorem kept_setReg (s : CPUState) (r : Reg) (v : Word) :
    Kept s (s.setReg r v) ∧ (s.setReg r v).csrs = s.csrs := by
  have hset := (Inner.refl s).setReg r v
  refine ⟨⟨hset.2.2, hset.2.1, ?_, ?_⟩, hset.1⟩
  · intro i _
    rw [setReg]
    split_ifs <;> rfl
  · rw [time_hart, time_hart, hset.1]

/-- The write to the register and the end of the step. -/
theorem kept_finish (l : Locals) :
    Kept l.state (finish l (l.state.csrs.cyclel + 1)) ∧
      (finish l (l.state.csrs.cyclel + 1)).hart.cycle = l.state.hart.cycle + 1 := by
  by_cases htrap : l.trap = 0
  · have hfinish : finish l (l.state.csrs.cyclel + 1) =
        cycleEnd (l.state.setReg l.rdid l.rval) 0 l.rval (l.pc + 4)
          ((l.state.setReg l.rdid l.rval).csrs.cyclel + 1) := by
      rw [(kept_setReg _ _ _).2, finish, if_neg (not_not.mpr htrap)]
      rfl
    have hcycle : (l.state.setReg l.rdid l.rval).hart.cycle = l.state.hart.cycle := by
      rw [cycle_hart, cycle_hart, (kept_setReg _ _ _).2]
    rw [hfinish]
    exact ⟨(kept_setReg _ _ _).1.trans (kept_cycleEnd _ _ _ _ _),
      (cycle_cycleEnd _ _ _ _).trans (congrArg (· + 1) hcycle)⟩
  · rw [finish, if_pos htrap]
    exact ⟨kept_cycleEnd _ _ _ _ _, cycle_cycleEnd _ _ _ _⟩

/-- What a step does to the state, whatever is in the memory. -/
structure Advanced (s : CPUState) (us : Word) (s' : CPUState) : Prop where
  kept : Kept (s.tick us) s'
  cycle : s'.hart.cycle = s.hart.cycle ∨ s'.hart.cycle = s.hart.cycle + 1

/-- A step does its work, or it reads a last word of which not every byte is in the memory. -/
theorem step_advanced_or (s : CPUState) (us : Word) :
    (∃ value s', s.rv32imaStep us = .ok (value, s') ∧ Advanced s us s') ∨
      s.rv32imaStep us = .error .outOfBounds ∧ s.memSize.toNat % 4 ≠ 0 := by
  have hcycle : (s.tick us).hart.cycle = s.hart.cycle := by
    rw [hart_tick, Hart.tick]
    split_ifs <;> rfl
  have hmemSize : (s.tick us).memSize = s.memSize := congrArg MemoryMap.size (memoryMap_tick s us)
  by_cases hwait : (s.tick us).csrs.extraflags &&& 4 ≠ 0
  · exact Or.inl ⟨_, _, step_sleep hwait, (Frame.refl _).kept, Or.inl hcycle⟩
  by_cases hint : (s.tick us).timerInterrupt = true
  · refine Or.inl ⟨_, _, step_interrupt hwait hint, kept_cycleEnd _ _ _ _ _, Or.inl ?_⟩
    rw [hart_cycleEnd_interrupt]
    exact hcycle
  by_cases hpc : (s.tick us).memSize ≤ (s.tick us).csrs.pc - (s.tick us).memOffset
  · exact Or.inl ⟨_, _, step_fetchFault hwait hint hpc, kept_cycleEnd _ _ _ _ _,
      Or.inr ((cycle_cycleEnd _ _ _ _).trans (congrArg (· + 1) hcycle))⟩
  by_cases halign : ((s.tick us).csrs.pc - (s.tick us).memOffset) &&& 3 ≠ 0
  · exact Or.inl ⟨_, _, step_misaligned hwait hint hpc halign, kept_cycleEnd _ _ _ _ _,
      Or.inr ((cycle_cycleEnd _ _ _ _).trans (congrArg (· + 1) hcycle))⟩
  by_cases hram : ¬ (s.tick us).memoryMap.InRam (s.tick us).csrs.pc
  · have hfault := step_outOfBounds hwait hint hpc halign (Nat.lt_of_not_le hram)
    refine Or.inr ⟨hfault, fun hsize => hram ?_⟩
    exact inRam_pc (hmemSize ▸ hsize) (BitVec.not_le.mp hpc)
      (not_not.mp (mt (and_three_ne_zero_iff _).mpr halign))
  rw [not_not] at hram
  have hfour : 4 ≤ (s.tick us).memSize.toNat := le_trans (Nat.le_add_left 4 _) hram
  obtain ⟨sw, hsw, hframe⟩ := execute_framed hfour (s.tick us).csrs.pc
    ((s.tick us).csrs.cyclel + 1) ((s.tick us).hart.loadWord (s.tick us).csrs.pc)
  refine Or.inl ⟨_, _, step_execute hwait hint hpc halign (read_word hram) hsw, ?_⟩
  have hframed : sw.state.hart.cycle = (s.tick us).hart.cycle := by
    rw [cycle_hart, cycle_hart, hframe.cycleh, hframe.cyclel]
  cases sw with
  | leave l =>
    have hcyclel : l.state.csrs.cyclel = (s.tick us).csrs.cyclel := hframe.cyclel
    have hfinish := kept_finish l
    rw [hcyclel] at hfinish
    exact ⟨hframe.kept.trans hfinish.1, Or.inr (hfinish.2.trans
      (congrArg (· + 1) (hframed.trans hcycle)))⟩
  | ret value s' => exact ⟨hframe.kept, Or.inl (hframed.trans hcycle)⟩

/-- **A step stays within the memory**, whatever is in it. -/
theorem step_advanced (hsize : s.memSize.toNat % 4 = 0) (us : Word) :
    ∃ value s', s.rv32imaStep us = .ok (value, s') ∧ Advanced s us s' :=
  (step_advanced_or s us).resolve_right fun h => h.2 hsize

theorem advanced_of_step {us value : Word} (hstep : s.rv32imaStep us = .ok (value, s')) :
    Advanced s us s' := by
  obtain ⟨value₁, s₁, hstep₁, hadv⟩ | ⟨hfault, -⟩ := step_advanced_or s us
  · obtain ⟨-, rfl⟩ := Prod.mk.inj (Except.ok.inj (hstep.symm.trans hstep₁))
    exact hadv
  · rw [hstep] at hfault
    cases hfault

theorem Advanced.sound {us : Word} (h : Advanced s us s') (hs : Sound s) : Sound s' := by
  have hsize : s'.memSize = s.memSize :=
    congrArg MemoryMap.size (h.kept.memoryMap.trans (memoryMap_tick s us))
  refine ⟨?_, hsize ▸ hs.size⟩
  rw [h.kept.zero, regs_tick, hs.zero]

/-! ### What any run does -/

/-- A run that starts with a step. -/
theorem run_cons_inv {us : Word} {rest : List Word} {trace : List (Word × Word)} {s₂ : CPUState}
    (h : s.run (us :: rest) = .ok (trace, s₂)) :
    ∃ value s₁ trace', s.rv32imaStep us = .ok (value, s₁) ∧ s₁.run rest = .ok (trace', s₂) := by
  rw [run] at h
  cases hstep : s.rv32imaStep us with
  | error e =>
    rw [hstep] at h
    cases h
  | ok r =>
    rw [hstep] at h
    cases hrest : r.2.run rest with
    | error e =>
      change (r.2.run rest >>= _) = _ at h
      rw [hrest] at h
      cases h
    | ok q =>
      change (r.2.run rest >>= _) = _ at h
      rw [hrest] at h
      cases h
      exact ⟨r.1, r.2, q.1, rfl, hrest⟩

/-- The register `x0`, the place of the memory and the bytes beyond it, over a run. -/
theorem run_ok (hs : Sound s) (us : List Word) :
    ∃ trace s', s.run us = .ok (trace, s') ∧ Sound s' ∧ s'.memoryMap = s.memoryMap ∧
      ∀ i, s.memSize.toNat ≤ i → s'.mem i = s.mem i := by
  induction us generalizing s with
  | nil => exact ⟨[], s, rfl, hs, rfl, fun _ _ => rfl⟩
  | cons us rest ih =>
    obtain ⟨value, s₁, hstep, hadv⟩ := step_advanced hs.size us
    obtain ⟨trace, s₂, hrest, hsound, hmap, hout⟩ := ih (hadv.sound hs)
    have hmap₁ : s₁.memoryMap = s.memoryMap := hadv.kept.memoryMap.trans (memoryMap_tick s us)
    have hsize₁ : s₁.memSize = s.memSize := congrArg MemoryMap.size hmap₁
    have hsizet : (s.tick us).memSize = s.memSize :=
      congrArg MemoryMap.size (memoryMap_tick s us)
    refine ⟨_, s₂, run_cons hstep hrest, hsound, hmap.trans hmap₁, fun i hi => ?_⟩
    rw [hout i (hsize₁ ▸ hi), hadv.kept.outside i (hsizet ▸ hi), mem_tick]

/-- A state at the last word of the memory. -/
def atLastWord (size : Word) : CPUState where
  regs := fun _ => 0
  csrs := ⟨BitVec.ofNat 32 (size.toNat / 4 * 4), 0, 0, 0, 0, 0, 0, 0, 0, 0, 0, 0, 0, 0, 0, 0⟩
  mem := fun _ => 0
  memOffset := 0
  memSize := size

theorem step_atLastWord {size : Word} (hsize : size.toNat % 4 ≠ 0) :
    (atLastWord size).rv32imaStep 0 = .error .outOfBounds := by
  have htick : (atLastWord size).tick 0 = atLastWord size := by
    simp [tick, advanceTimer, compareTimer, atLastWord]
  have hlt := size.isLt
  have hpc : ((atLastWord size).csrs.pc - (atLastWord size).memOffset).toNat =
      size.toNat / 4 * 4 := by
    show (BitVec.ofNat 32 (size.toNat / 4 * 4) - 0).toNat = _
    rw [sub_zero, BitVec.toNat_ofNat]
    exact Nat.mod_eq_of_lt (by omega)
  apply step_outOfBounds <;> rw [htick]
  · simp [atLastWord]
  · simp [atLastWord, timerInterrupt]
  · rw [BitVec.le_def, hpc]
    show ¬ size.toNat ≤ _
    omega
  · rw [and_three_ne_zero_iff, hpc]
    omega
  · rw [hpc]
    show size.toNat < _
    omega

/-- **Memory safety.**  With a size that is a multiple of four, no run of any program leaves the
memory, writes beyond it or changes `x0`; with any other size, some program does. -/
theorem run_safe_iff (size : Word) :
    (∀ s : CPUState, s.memSize = size → s.regs 0 = 0 → ∀ us, ∃ trace s',
      s.run us = .ok (trace, s') ∧ s'.regs 0 = 0 ∧ s'.memoryMap = s.memoryMap ∧
        ∀ i, size.toNat ≤ i → s'.mem i = s.mem i) ↔ size.toNat % 4 = 0 := by
  constructor
  · intro h
    by_contra hsize
    obtain ⟨trace, s', hrun, -⟩ := h (atLastWord size) rfl rfl [0]
    obtain ⟨value, s₁, trace', hstep, -⟩ := run_cons_inv hrun
    rw [step_atLastWord hsize] at hstep
    cases hstep
  · rintro hsize s rfl hzero us
    obtain ⟨trace, s', hrun, hsound, hmap, hout⟩ := run_ok ⟨hzero, hsize⟩ us
    exact ⟨trace, s', hrun, hsound.zero, hmap, hout⟩

/-- **The counters.**  After a run of any program, the timer has gone on by the times that the steps
were given, and the cycles by at most one for each step; both have 64 bits. -/
theorem run_counters {us : List Word} {trace : List (Word × Word)} {s' : CPUState}
    (hrun : s.run us = .ok (trace, s')) :
    s'.hart.time.toNat = (s.hart.time.toNat + (us.map BitVec.toNat).sum) % 2 ^ 64 ∧
      ∃ cycles ≤ us.length, s'.hart.cycle.toNat = (s.hart.cycle.toNat + cycles) % 2 ^ 64 := by
  induction us generalizing s trace with
  | nil =>
    cases hrun
    refine ⟨(Nat.mod_eq_of_lt s'.hart.time.isLt).symm, 0, Nat.le_refl 0, ?_⟩
    exact (Nat.mod_eq_of_lt s'.hart.cycle.isLt).symm
  | cons us rest ih =>
    obtain ⟨value, s₁, trace', hstep, hrest⟩ := run_cons_inv hrun
    have hadv := advanced_of_step hstep
    obtain ⟨htime, cycles, hle, hcycles⟩ := ih hrest
    have htime₁ : s₁.hart.time.toNat = (s.hart.time.toNat + us.toNat) % 2 ^ 64 := by
      rw [hadv.kept.time, time_tick, BitVec.toNat_add, BitVec.toNat_setWidth,
        Nat.mod_eq_of_lt (lt_trans us.isLt (by decide))]
    refine ⟨?_, ?_⟩
    · rw [htime, htime₁, Nat.mod_add_mod, List.map_cons, List.sum_cons, Nat.add_assoc]
    · obtain hsame | hnext := hadv.cycle
      · rw [hsame] at hcycles
        exact ⟨cycles, Nat.le_succ_of_le hle, hcycles⟩
      · refine ⟨cycles + 1, Nat.succ_le_succ hle, ?_⟩
        rw [hcycles, hnext, BitVec.toNat_add, Nat.mod_add_mod]
        show (_ + 1 + cycles) % _ = _
        rw [Nat.add_right_comm, Nat.add_assoc]

theorem run_counters_square :
    ∃ trace s', square.run [1, 1] = .ok (trace, s') ∧ s'.hart.time.toNat = 2 := by
  obtain ⟨trace, s', hrun, -⟩ := run_ok (s := square) ⟨rfl, by decide⟩ [1, 1]
  exact ⟨trace, s', hrun, (run_counters hrun).1.trans (by decide)⟩

end CPUState

end Jyyos.Rv32ima
