import Jyyos.Algorithm.ArrayStack
import Jyyos.Algorithm.Machine
import Jyyos.Hanoi.Staged
import Jyyos.Hanoi.Equiv.Basic

/-!
# The staged frames simulate the recursion

As in `Equiv/Stack.lean`, a call of the recursive function is a stretch of the run from a new frame
on top to that frame popped, on any stack (`Performs`).  A frame goes through its stages: at stage 0
it starts the first call, at stage 1 it makes the middle move itself and starts the second, at stage
2 it is popped.  The stage is written before the push, when the frame is still on top.
-/

namespace Jyyos.Hanoi.Staged

open Machine

variable {κ α : Type*}

/-- `frame` is on top, at index `h`; `below` gives the frames below it. -/
structure Active (below : ℕ → Frame κ) (h : ℕ) (frame : Frame κ) (out : List (κ × κ))
    (s : State κ) : Prop where
  stack : ArrayStack.OnTop s.stack s.top below h frame
  out : s.out = out

/-- The frame at index `h` has been popped. -/
structure Popped (below : ℕ → Frame κ) (h : ℕ) (out : List (κ × κ)) (s : State κ) : Prop where
  stack : ArrayStack.Popped s.stack s.top below h
  out : s.out = out

section Passes

variable {below : ℕ → Frame κ} {h : ℕ} {n : ℤ} {src aux dst : κ} {stage : ℕ}
  {out : List (κ × κ)} {s : State κ}

theorem Active.not_isEmpty {frame : Frame κ} (hs : Active below h frame out s) :
    s.isEmpty = false := by
  have htop := hs.stack.nonneg
  rw [State.isEmpty, beq_eq_false_iff_ne]
  omega

theorem Active.setStage (hs : Active below h ⟨n, src, aux, dst, stage⟩ out s) (stage' : ℕ) :
    Active below h ⟨n, src, aux, dst, stage'⟩ out (s.setStage h stage') := by
  refine ⟨?_, hs.out⟩
  have hset := hs.stack.set ⟨n, src, aux, dst, stage'⟩
  rw [State.setStage, hs.stack.get_top]
  exact hset

theorem Active.move {frame : Frame κ} (hs : Active below h frame out s) (src dst : κ) :
    Active below h frame (out ++ [(src, dst)]) (s.move src dst) :=
  ⟨hs.stack, by rw [State.move, hs.out]⟩

theorem Active.pop {frame : Frame κ} (hs : Active below h frame out s) :
    ∃ s', s.pop = .loop s' ∧ Popped below h out s' := by
  rw [State.pop, if_pos hs.stack.nonneg]
  exact ⟨_, rfl, hs.stack.pop, hs.out⟩

theorem Active.push {frame : Frame κ} (hs : Active below h frame out s) (hroom : h + 1 < 1000)
    (new : Frame κ) : ∃ s', s.push new = .loop s' ∧
      Active (Function.update below h frame) (h + 1) new out s' := by
  have hlt : s.top < STACK_SIZE - 1 := by
    rw [hs.stack.top_eq, STACK_SIZE]
    omega
  rw [State.push, if_pos hlt, hs.stack.toNat_succ]
  exact ⟨_, rfl, hs.stack.push new, hs.out⟩

/-- Stage 0 for one disk: the disk is moved. -/
theorem step_one (hs : Active below h ⟨1, src, aux, dst, 0⟩ out s) :
    ∃ s', step (.loop s) = some (.loop s') ∧ Popped below h (out ++ [(src, dst)]) s' := by
  obtain ⟨s', hpop, hs'⟩ := (hs.move src dst).pop
  refine ⟨s', ?_, hs'⟩
  simp [step, hs.not_isEmpty, hs.stack.toNat_top, hs.stack.get_top, hpop]

/-- Stage 0 for more: the first call. -/
theorem step_first (hs : Active below h ⟨n, src, aux, dst, 0⟩ out s) (hn : n ≠ 1)
    (hroom : h + 1 < 1000) : ∃ s', step (.loop s) = some (.loop s') ∧
      Active (Function.update below h ⟨n, src, aux, dst, 1⟩) (h + 1) ⟨n - 1, src, dst, aux, 0⟩ out
        s' := by
  obtain ⟨s', hpush, hs'⟩ := (hs.setStage 1).push hroom ⟨n - 1, src, dst, aux, 0⟩
  refine ⟨s', ?_, hs'⟩
  simp [step, hs.not_isEmpty, hs.stack.toNat_top, hs.stack.get_top, hn, hpush]

/-- Stage 1: the middle move and the second call. -/
theorem step_second (hs : Active below h ⟨n, src, aux, dst, 1⟩ out s) (hroom : h + 1 < 1000) :
    ∃ s', step (.loop s) = some (.loop s') ∧
      Active (Function.update below h ⟨n, src, aux, dst, 2⟩) (h + 1) ⟨n - 1, aux, src, dst, 0⟩
        (out ++ [(src, dst)]) s' := by
  obtain ⟨s', hpush, hs'⟩ := ((hs.move src dst).setStage 2).push hroom ⟨n - 1, aux, src, dst, 0⟩
  refine ⟨s', ?_, hs'⟩
  simp [step, hs.not_isEmpty, hs.stack.toNat_top, hs.stack.get_top, hpush]

/-- Stage 2: the frame is popped. -/
theorem step_last (hs : Active below h ⟨n, src, aux, dst, 2⟩ out s) :
    ∃ s', step (.loop s) = some (.loop s') ∧ Popped below h out s' := by
  obtain ⟨s', hpop, hs'⟩ := hs.pop
  refine ⟨s', ?_, hs'⟩
  simp [step, hs.not_isEmpty, hs.stack.toNat_top, hs.stack.get_top, hpop]

end Passes

/-! ### A call -/

/-- At the head of the loop with at most `N` frames. -/
def Within (N : ℕ) : Config κ → Prop
  | .loop s => -1 ≤ s.top ∧ s.top < N
  | _ => False

theorem Active.within {below : ℕ → Frame κ} {h : ℕ} {frame : Frame κ} {out : List (κ × κ)}
    {s : State κ} (hs : Active below h frame out s) {N : ℕ} (hN : h < N) : Within N (.loop s) := by
  refine ⟨?_, ?_⟩ <;> rw [hs.stack.top_eq] <;> omega

theorem Popped.within {below : ℕ → Frame κ} {h : ℕ} {out : List (κ × κ)} {s : State κ}
    (hs : Popped below h out s) {N : ℕ} (hN : h < N) : Within N (.loop s) := by
  refine ⟨?_, ?_⟩ <;> rw [hs.stack.top_eq] <;> omega

/-- The machine performs a call with the given arguments, with room for `n` frames up to `N`. -/
def Performs (N n : ℕ) (src aux dst : κ) (moves : List (κ × κ)) : Prop :=
  ∀ (below : ℕ → Frame κ) (h : ℕ) (out : List (κ × κ)) (s : State κ), h + n ≤ N →
    Active below h ⟨n, src, aux, dst, 0⟩ out s →
    ∃ s', Along step (Within N) (.loop s) (.loop s') ∧ Popped below h (out ++ moves) s'

theorem performs_one (N : ℕ) (src aux dst : κ) : Performs N 1 src aux dst [(src, dst)] := by
  intro below h out s hN hs
  obtain ⟨s', hstep, hs'⟩ := step_one hs
  exact ⟨s', .head (hs.within (by omega)) hstep (.refl (hs'.within (by omega))), hs'⟩

theorem performs_more {N n : ℕ} (h1000 : N ≤ 1000) {src aux dst : κ}
    {moves₁ moves₂ : List (κ × κ)} (h₁ : Performs N (n + 1) src dst aux moves₁)
    (h₂ : Performs N (n + 1) aux src dst moves₂) :
    Performs N (n + 2) src aux dst (moves₁ ++ [(src, dst)] ++ moves₂) := by
  intro below h out s hN hs
  have hn1 : ((n + 2 : ℕ) : ℤ) ≠ 1 := by omega
  have hsub : ((n + 2 : ℕ) : ℤ) - 1 = (n + 1 : ℕ) := by omega
  have hlt : h < N := by omega
  -- the first call
  obtain ⟨s₁, step₁, hs₁⟩ := step_first hs hn1 (by omega)
  rw [hsub] at hs₁
  obtain ⟨s₂, run₂, hs₂⟩ := h₁ _ _ _ _ (by omega) hs₁
  have hback₂ : Active below h ⟨(n + 2 : ℕ), src, aux, dst, 1⟩ (out ++ moves₁) s₂ :=
    ⟨hs₂.stack.onTop, hs₂.out⟩
  -- the middle move and the second call
  obtain ⟨s₃, step₃, hs₃⟩ := step_second hback₂ (by omega)
  rw [hsub] at hs₃
  obtain ⟨s₄, run₄, hs₄⟩ := h₂ _ _ _ _ (by omega) hs₃
  have hback₄ : Active below h ⟨(n + 2 : ℕ), src, aux, dst, 2⟩
      (out ++ moves₁ ++ [(src, dst)] ++ moves₂) s₄ := ⟨hs₄.stack.onTop, hs₄.out⟩
  obtain ⟨s₅, step₅, hs₅⟩ := step_last hback₄
  have run₄₅ := run₄.trans
    (.head (hback₄.within hlt) step₅ (.refl (hs₅.within hlt)))
  have run₂₅ := run₂.trans (.head (hback₂.within hlt) step₃ run₄₅)
  refine ⟨s₅, .head (hs.within hlt) step₁ run₂₅, hs₅.stack, ?_⟩
  rw [hs₅.out, List.append_assoc, List.append_assoc, List.append_assoc]

variable [Add α] [One α]

/-- **The machine performs every call of `hanoi`.** -/
theorem performs_hanoi {N n : ℕ} (h1000 : N ≤ 1000) (hn : 1 ≤ n) (src aux dst : κ) :
    ∃ moves, ∃ c : α, hanoi n src dst aux = some (moves, c) ∧ Performs N n src aux dst moves := by
  apply hanoi_induction (P := fun n src dst aux moves _ => Performs N n src aux dst moves)
  · exact fun src dst aux => performs_one N src aux dst
  · exact fun n src dst aux moves₁ moves₂ c1 c2 => performs_more h1000
  · exact hn

/-- What is promised of every place of a run with `n` disks: neither exit is taken. -/
def Safe (n : ℕ) : Config κ → Prop
  | .loop s => -1 ≤ s.top ∧ s.top < n
  | .done s => s.top = -1
  | .stackOverflow _ => False
  | .stackUnderflow _ => False

theorem Within.safe {n : ℕ} {config : Config κ} (h : Within n config) : Safe n config := by
  cases config with
  | loop s => exact h
  | done s => exact h.elim
  | stackOverflow s => exact h
  | stackUnderflow s => exact h

/-- **The staged frames agree with the recursion.**  For `1 ≤ n ≤ 1000` and an empty stack with any
contents, the loop ends with an empty stack and has printed the moves of the recursive function; it
takes neither of the two exits, and there are never more than `n` frames. -/
theorem staged_refines_hanoi (n : ℕ) (hn : 1 ≤ n) (h1000 : n ≤ 1000) (s : State κ)
    (hempty : s.top = -1) (src aux dst : κ) :
    ∃ moves, ∃ c : α, hanoi n src dst aux = some (moves, c) ∧
      (∃ s', Reaches step (start s n src aux dst) (.done s') ∧ s'.top = -1 ∧
        s'.out = s.out ++ moves) ∧
      ∀ config, Reaches step (start s n src aux dst) config → Safe n config := by
  obtain ⟨moves, c, hrec, hperforms⟩ := performs_hanoi (α := α) h1000 hn src aux dst
  have hstart : start s n src aux dst =
      .loop ⟨Function.update s.stack 0 ⟨n, src, aux, dst, 0⟩, 0, s.out⟩ := by
    simp [start, State.push, hempty, STACK_SIZE]
  obtain ⟨s', hrun, hs'⟩ := hperforms s.stack 0 s.out
    ⟨Function.update s.stack 0 ⟨n, src, aux, dst, 0⟩, 0, s.out⟩ (by omega)
    ⟨ArrayStack.OnTop.singleton .., rfl⟩
  have htop : s'.top = -1 := hs'.stack.top_eq
  have hdone : step (.loop s') = some (.done s') := by
    simp [step, State.isEmpty, htop]
  have hwhole : Along step (Safe n) (start s n src aux dst) (.done s') := by
    rw [hstart]
    exact (hrun.mono fun _ => Within.safe).trans
      (.head (hs'.within hn).safe hdone (.refl htop))
  refine ⟨moves, c, hrec, ⟨s', hwhole.reaches, htop, hs'.out⟩, ?_⟩
  intro config hreach
  exact hwhole.of_reaches rfl hreach

theorem staged_refines_hanoi_three : ∃ s' : State UInt8,
    Reaches step (start ⟨fun _ => ⟨0, 0, 0, 0, 0⟩, -1, []⟩ 3 65 66 67) (.done s') ∧
      s'.out = [(65, 67), (65, 66), (67, 66), (65, 67), (66, 65), (66, 67), (65, 67)] := by
  obtain ⟨moves, c, hrec, ⟨s', hreach, -, hout⟩, -⟩ :=
    staged_refines_hanoi (α := ℤ) 3 (by omega) (by omega) ⟨fun _ => ⟨0, 0, 0, 0, 0⟩, -1, []⟩ rfl
      (65 : UInt8) 66 67
  have hmoves : moves = [(65, 67), (65, 66), (67, 66), (65, 67), (66, 65), (66, 67), (65, 67)] := by
    simp [hanoi] at hrec
    exact hrec.1.symm
  exact ⟨s', hreach, by rw [hout, hmoves]; rfl⟩

end Jyyos.Hanoi.Staged
