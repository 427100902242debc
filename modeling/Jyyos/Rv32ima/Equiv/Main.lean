import Jyyos.Rv32ima.Equiv.Run
import Jyyos.Rv32ima.Main

/-!
# The program around the emulator, verified

Every image that is accepted is run without leaving the memory, from a state in which the program
finds its bytes and the numbers that `atoi` and `xtoi` make of the arguments, up to the first step
after which the loop ends (`main_spec`).
-/

namespace Jyyos.Rv32ima

open CPUState

/-! ### The loop -/

/-- The steps of the loop: after each of the first `n` ones it goes on, the one after them returns
`ret` in the state `s'`. -/
structure Loops (s : CPUState) (n : ℕ) (ret : Word) (s' : CPUState) : Prop where
  goesOn : ∀ k < n, ∃ trace s₁,
    s.run (List.replicate (k + 1) 1) = .ok (trace ++ [(1, 0)], s₁) ∧ s₁.csrs.pc ≠ 0
  last : ∃ trace, s.run (List.replicate (n + 1) 1) = .ok (trace ++ [(1, ret)], s')

theorem Loops.zero {s s' : CPUState} {ret : Word} (hstep : s.rv32imaStep 1 = .ok (ret, s')) :
    Loops s 0 ret s' where
  goesOn _ hk := absurd hk (Nat.not_lt_zero _)
  last := ⟨[], run_cons hstep rfl⟩

theorem Loops.succ {s s₁ s' : CPUState} {n : ℕ} {ret : Word}
    (hstep : s.rv32imaStep 1 = .ok (0, s₁)) (hpc : s₁.csrs.pc ≠ 0) (h : Loops s₁ n ret s') :
    Loops s (n + 1) ret s' where
  goesOn k hk := by
    cases k with
    | zero => exact ⟨[], s₁, run_cons hstep rfl, hpc⟩
    | succ k =>
      obtain ⟨trace, s₂, hrun, hpc₂⟩ := h.goesOn k (Nat.lt_of_succ_lt_succ hk)
      exact ⟨(1, 0) :: trace, s₂, run_cons hstep hrun, hpc₂⟩
  last := by
    obtain ⟨trace, hrun⟩ := h.last
    exact ⟨(1, 0) :: trace, run_cons hstep hrun⟩

/-- The loop ends at the first step that returns something other than 0 or jumps to 0, or at the
limit. -/
theorem emulate_spec {s : CPUState} (hs : Sound s) (climit : ℕ) :
    ∃ n ≤ climit, ∃ ret s', emulate (climit + 1) s = .ok (ret, s') ∧ Loops s n ret s' ∧
      (n = climit ∨ ret ≠ 0 ∨ s'.csrs.pc = 0) := by
  induction climit generalizing s with
  | zero =>
    obtain ⟨ret, s', hstep, hadv⟩ := step_advanced hs.size 1
    refine ⟨0, Nat.le_refl 0, ret, s', ?_, .zero hstep, Or.inl rfl⟩
    rw [emulate, hstep]
    rfl
  | succ climit ih =>
    obtain ⟨ret, s₁, hstep, hadv⟩ := step_advanced hs.size 1
    by_cases hgo : ret = 0 ∧ s₁.csrs.pc ≠ 0
    · obtain ⟨n, hn, ret', s', hloop, hloops, hend⟩ := ih (hadv.sound hs)
      have hstep₀ : s.rv32imaStep 1 = .ok (0, s₁) := hgo.1 ▸ hstep
      refine ⟨n + 1, Nat.succ_le_succ hn, ret', s', ?_, hloops.succ hstep₀ hgo.2,
        hend.imp_left (congrArg (· + 1))⟩
      rw [emulate, hstep]
      exact (if_pos hgo).trans hloop
    · refine ⟨0, Nat.zero_le _, ret, s₁, ?_, .zero hstep, Or.inr ?_⟩
      · rw [emulate, hstep]
        exact if_neg hgo
      · rwa [not_and_or, not_not] at hgo

/-! ### The first state -/

theorem sound_boot (image : List Byte) (margs : List Word) : Sound (boot image margs) :=
  ⟨rfl, show (BitVec.ofNat 32 ramSize).toNat % 4 = 0 by decide⟩

/-- Below the stack pointer, nothing is copied. -/
theorem copyArgs_of_lt (margs : List Word) (mem : ℕ → Byte) (p : ℕ) {i : ℕ} (hi : i < p) :
    copyArgs mem p margs i = mem i := by
  induction margs generalizing mem p with
  | nil => rfl
  | cons v margs ih =>
    rw [copyArgs, ih _ _ (Nat.lt_add_right 4 hi)]
    exact if_neg (by omega)

theorem littleEndian_setBytes (mem : ℕ → Byte) (p : ℕ) (v : Word) :
    littleEndian (setBytes mem p 4 v) p 4 = v := by
  have hbyte : ∀ k < 4, setBytes mem p 4 v (p + k) = (v >>> (8 * k)).setWidth 8 := by
    intro k hk
    rw [setBytes, if_pos ⟨Nat.le_add_right p k, Nat.add_lt_add_left hk p⟩, Nat.add_sub_cancel_left]
  have hfirst := hbyte 0 (by decide)
  rw [Nat.add_zero] at hfirst
  rw [littleEndian_four, hfirst, hbyte 1 (by decide), hbyte 2 (by decide), hbyte 3 (by decide)]
  apply BitVec.eq_of_getLsbD_eq
  intro i hi
  simp only [BitVec.getLsbD_append, BitVec.getLsbD_setWidth, BitVec.getLsbD_ushiftRight]
  interval_cases i <;> simp

theorem littleEndian_congr {mem mem' : ℕ → Byte} {p : ℕ} (n : ℕ)
    (h : ∀ i, p ≤ i → i < p + n → mem i = mem' i) :
    littleEndian mem p n = littleEndian mem' p n := by
  induction n generalizing p with
  | zero => rfl
  | succ n ih =>
    rw [littleEndian, littleEndian, h p (Nat.le_refl p) (by omega),
      ih fun i hi hlt => h i (by omega) (by omega)]

/-- The word at each place of the stack is the argument. -/
theorem littleEndian_copyArgs (margs : List Word) (mem : ℕ → Byte) (p : ℕ) {k : ℕ}
    (hk : k < margs.length) : littleEndian (copyArgs mem p margs) (p + 4 * k) 4 = margs[k] := by
  induction margs generalizing mem p k with
  | nil => cases hk
  | cons v margs ih =>
    cases k with
    | zero =>
      have hsame : littleEndian (copyArgs mem p (v :: margs)) p 4 =
          littleEndian (setBytes mem p 4 v) p 4 :=
        littleEndian_congr 4 fun i _ hi => copyArgs_of_lt margs _ _ hi
      exact hsame.trans (littleEndian_setBytes mem p v)
    | succ k =>
      have hplace : p + 4 * (k + 1) = p + 4 + 4 * k := by omega
      rw [hplace, copyArgs, ih _ _ (Nat.lt_of_succ_lt_succ hk)]
      rfl

section Boot

variable (image : List Byte) (margs : List Word)

theorem ram_boot (h : Word) :
    (boot image margs).hart.ram h =
      copyArgs (loadImage image) (stackPointer margs) margs h.toNat := by
  show copyArgs _ _ _ (h - 0).toNat = _
  rw [sub_zero]

/-- The bytes of the image are at the beginning of the memory. -/
theorem ram_boot_image (hlen : image.length ≤ ramTextEnd) (hargs : margs.length ≤ maxMainargs)
    {i : ℕ} (hi : i < image.length) :
    (boot image margs).hart.ram (BitVec.ofNat 32 i) = image[i] := by
  have htext : i < 32 * 1024 * 1024 := lt_of_lt_of_le hi hlen
  have hargs' : margs.length ≤ 4 := hargs
  have hstack : i < stackPointer margs := by
    show i < 64 * 1024 * 1024 - 4 * margs.length
    omega
  rw [ram_boot, BitVec.toNat_ofNat, Nat.mod_eq_of_lt (by omega), copyArgs_of_lt _ _ _ hstack]
  rw [loadImage, List.getD_eq_getElem?_getD, List.getElem?_eq_getElem hi]
  rfl

/-- The arguments are where the register `a1` points to. -/
theorem loadWord_boot (hargs : margs.length ≤ maxMainargs) {k : ℕ} (hk : k < margs.length) :
    (boot image margs).hart.loadWord
      ((boot image margs).hart.get 11 + BitVec.ofNat 32 (4 * k)) = margs[k] := by
  have hargs' : margs.length ≤ 4 := hargs
  have hsp : stackPointer margs = 64 * 1024 * 1024 - 4 * margs.length := rfl
  have hplace : ((boot image margs).hart.get 11 + BitVec.ofNat 32 (4 * k)).toNat =
      stackPointer margs + 4 * k := by
    show (BitVec.ofNat 32 (stackPointer margs) + BitVec.ofNat 32 (4 * k)).toNat = _
    rw [BitVec.toNat_add, BitVec.toNat_ofNat, BitVec.toNat_ofNat]
    omega
  have hram : (boot image margs).memoryMap.InRam
      ((boot image margs).hart.get 11 + BitVec.ofNat 32 (4 * k)) := by
    show (_ - 0 : Word).toNat + 4 ≤ (BitVec.ofNat 32 ramSize).toNat
    rw [sub_zero, hplace]
    show _ ≤ 64 * 1024 * 1024
    omega
  have hread := (read_word hram).symm.trans (read_eq hram (Nat.le_refl 4))
  rw [Except.ok.inj hread]
  show littleEndian _ (_ - 0 : Word).toNat 4 = _
  rw [sub_zero, hplace]
  exact littleEndian_copyArgs margs _ _ hk

end Boot

theorem length_margs (args : List CStr) : (margs args).length = min maxMainargs args.length := by
  rw [margs, List.length_map, List.length_take]

/-- **Every image that is accepted is run within the memory**, from a state in which the program
finds its bytes and its arguments, up to the first step that returns something other than 0 or jumps
to 0; but at most 10000 steps. -/
theorem main_spec (fopen : CStr → Option (List Byte)) (program filename : CStr) (args : List CStr)
    (image : List Byte) (hfile : fopen filename = some image) (hpos : image ≠ [])
    (hlen : image.length ≤ ramTextEnd) :
    (∀ i, ∀ hi : i < image.length,
      (boot image (margs args)).hart.ram (BitVec.ofNat 32 i) = image[i]) ∧
    (boot image (margs args)).hart.get 10 = BitVec.ofNat 32 (min maxMainargs args.length) ∧
    (∀ k, k < maxMainargs → ∀ hk : k < args.length,
      (boot image (margs args)).hart.loadWord
        ((boot image (margs args)).hart.get 11 + BitVec.ofNat 32 (4 * k)) = marg args[k]) ∧
    ∃ n < 10000, ∃ ret s', main fopen (program :: filename :: args) = .ok (.done ret s') ∧
      Loops (boot image (margs args)) n ret s' ∧ (n = 9999 ∨ ret ≠ 0 ∨ s'.csrs.pc = 0) := by
  have hargs : (margs args).length ≤ maxMainargs := (length_margs args).trans_le (min_le_left _ _)
  refine ⟨fun i hi => ram_boot_image _ _ hlen hargs hi, ?_, ?_, ?_⟩
  · show BitVec.ofNat 32 (margs args).length = _
    rw [length_margs]
  · intro k hmax hk
    rw [loadWord_boot _ _ hargs ((length_margs args).symm ▸ lt_min hmax hk)]
    simp only [margs, List.getElem_map, List.getElem_take]
  · obtain ⟨n, hn, ret, s', hloop, hloops, hend⟩ :=
      emulate_spec (sound_boot image (margs args)) 9999
    refine ⟨n, Nat.lt_succ_of_le hn, ret, s', ?_, hloops, hend⟩
    simp only [main, hfile]
    rw [if_neg (Nat.not_lt.mpr hlen), if_neg (mt List.length_eq_zero_iff.mp hpos), hloop]
    rfl

/-- The instruction `jr zero`. -/
def jumpToZero : List Byte := [0x67, 0, 0, 0]

/-- With the arguments `7` and `0x1a` the program finds 7 and 0, and the loop ends after its
jump. -/
theorem main_spec_jumpToZero :
    (∀ i, ∀ hi : i < jumpToZero.length,
      (boot jumpToZero [7, 0]).hart.ram (BitVec.ofNat 32 i) = jumpToZero[i]) ∧
    (boot jumpToZero [7, 0]).hart.get 10 = 2 ∧
    (boot jumpToZero [7, 0]).hart.loadWord ((boot jumpToZero [7, 0]).hart.get 11 + 0) = 7 ∧
    (boot jumpToZero [7, 0]).hart.loadWord ((boot jumpToZero [7, 0]).hart.get 11 + 4) = 0 ∧
    ∃ ret s', main (fun _ => some jumpToZero)
        [cstr ['m'], cstr ['j'], cstr ['7'], cstr ['0', 'x', '1', 'a']] = .ok (.done ret s') ∧
      Loops (boot jumpToZero [7, 0]) 0 ret s' := by
  have hmargs : margs [cstr ['7'], cstr ['0', 'x', '1', 'a']] = [7, 0] := by decide
  obtain ⟨himage, hcount, hwords, n, -, ret, s', hmain, hloops, -⟩ :=
    main_spec (fun _ => some jumpToZero) (cstr ['m']) (cstr ['j'])
      [cstr ['7'], cstr ['0', 'x', '1', 'a']] jumpToZero rfl (by decide) (by decide)
  rw [hmargs] at himage hcount hwords hloops
  have hzero : n = 0 := by
    by_contra hn
    obtain ⟨trace, s₁, hrun, hpc⟩ := hloops.goesOn 0 (Nat.pos_of_ne_zero hn)
    have hpc₁ : ((boot jumpToZero [7, 0]).run [1]).toOption.map (fun r => r.2.csrs.pc) =
        some 0 := by decide
    have hrun₁ : (boot jumpToZero [7, 0]).run [1] = .ok (trace ++ [(1, 0)], s₁) := hrun
    rw [hrun₁] at hpc₁
    exact hpc (Option.some.inj hpc₁)
  have hseven := (hwords 0 (by decide) (by decide)).trans (by decide : marg (cstr ['7']) = 7)
  have hlost := (hwords 1 (by decide) (by decide)).trans
    (by decide : marg (cstr ['0', 'x', '1', 'a']) = 0)
  exact ⟨himage, hcount, hseven, hlost, ret, s', hmain, hzero ▸ hloops⟩

end Jyyos.Rv32ima
