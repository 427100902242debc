import Jyyos.Algorithm.ArrayStack
import Jyyos.Algorithm.Machine
import Jyyos.Hanoi.Stack
import Jyyos.Hanoi.Equiv.Basic
import Mathlib.Data.BitVec

/-!
# The explicit stack simulates the recursion

A call of the recursive function is a stretch of the machine's run: it begins with a new frame on
top (`Active`), ends with that frame popped (`Popped`), and leaves the frames below as they were.
`Performs` says this of one call, for any frames below it; `performs_hanoi` proves it by induction
over the calls of `hanoi`, with one lemma for each kind of statement of the loop.

The variable `retval` is shared by all calls.  It is read in the pass right after the call whose
value is wanted has returned, so no other call has come in between.  The program counter that a pass
writes last belongs to the frame that was on top at its beginning; when the pass has popped that
frame, its index is above the top, and no live frame changes (`stk_of_pop`).
-/

namespace Jyyos.Hanoi.Stack

open Machine

variable {κ α : Type*}

/-- `frame` is on top, at index `h`; `below` gives the frames below it. -/
structure Active (below : ℕ → Frame κ α) (h : ℕ) (frame : Frame κ α) (out : List (κ × κ)) (v : α)
    (s : State κ α) : Prop where
  stack : ArrayStack.OnTop s.stk s.top below h frame
  out : s.out = out
  retval : s.retval = v

/-- The frame at index `h` has been popped. -/
structure Popped (below : ℕ → Frame κ α) (h : ℕ) (out : List (κ × κ)) (v : α) (s : State κ α) :
    Prop where
  stack : ArrayStack.Popped s.stk s.top below h
  out : s.out = out
  retval : s.retval = v

section Frames

variable {below : ℕ → Frame κ α} {h : ℕ} {frame : Frame κ α} {out : List (κ × κ)} {v : α}
  {s : State κ α}

theorem Active.modify (hs : Active below h frame out v s) (g : Frame κ α → Frame κ α) :
    Active below h (g frame) out v (s.modify h g) := by
  refine ⟨?_, hs.out, hs.retval⟩
  rw [← hs.stack.get_top]
  exact hs.stack.set _

/-- Writing to the caller's frame. -/
theorem Active.modify_caller {caller : Frame κ α}
    (hs : Active (Function.update below h caller) (h + 1) frame out v s)
    (g : Frame κ α → Frame κ α) :
    Active (Function.update below h (g caller)) (h + 1) frame out v (s.modify h g) := by
  have hcaller : s.stk h = caller := by
    rw [hs.stack.get_below h (by omega), Function.update_self]
  refine ⟨?_, hs.out, hs.retval⟩
  rw [← hcaller]
  exact hs.stack.set_under _

end Frames

/-! ### The passes of the loop -/

section Passes

variable [Add α] [Zero α] [One α]
variable {below : ℕ → Frame κ α} {h : ℕ} {frame : Frame κ α} {out : List (κ × κ)} {v : α}
  {s : State κ α}

/-- A pass on a frame whose statement does not leave the loop. -/
theorem step_active (hs : Active below h frame out v s) {s₁ : State κ α}
    (hexec : s.exec h = .loop s₁) : step (.loop s) =
      some (.loop (s₁.modify h fun fr => { fr with pc := frame.pc + 1 })) := by
  rw [step, if_neg (Int.not_lt.mpr hs.stack.nonneg)]
  simp only [hs.stack.toNat_top, hexec, hs.stack.get_top, Config.setPc]

/-- A pass that calls. -/
theorem step_call (hs : Active below h frame out v s) (hroom : h + 1 < 64) {n : ℤ}
    {src dst via : κ} (hexec : s.exec h = s.call n src dst via) :
    ∃ s', step (.loop s) = some (.loop s') ∧
      Active (Function.update below h { frame with pc := frame.pc + 1 }) (h + 1)
        ⟨0, n, src, dst, via, 0, 0⟩ out v s' := by
  have hlt : s.top + 1 < stkSize := by
    rw [hs.stack.top_eq, stkSize]
    omega
  rw [State.call, if_pos hlt, hs.stack.toNat_succ] at hexec
  have hpush : Active _ (h + 1) ⟨0, n, src, dst, via, 0, 0⟩ out v
      { s with stk := Function.update s.stk (h + 1) _, top := s.top + 1 } :=
    ⟨hs.stack.push _, hs.out, hs.retval⟩
  exact ⟨_, step_active hs hexec,
    hpush.modify_caller fun fr => { fr with pc := frame.pc + 1 }⟩

/-- A pass that returns. -/
theorem step_ret (hs : Active below h frame out v s) {val : α} {out' : List (κ × κ)}
    (hexec : s.exec h = ({ s with out := out' } : State κ α).ret val) :
    ∃ s', step (.loop s) = some (.loop s') ∧ Popped below h out' val s' := by
  exact ⟨_, step_active hs hexec, hs.stack.pop.set _, rfl, rfl⟩

/-- A pass that writes to the frame on top and nothing else. -/
theorem step_stay (hs : Active below h frame out v s) (g : Frame κ α → Frame κ α)
    (hexec : s.exec h = .loop (s.modify h g)) :
    ∃ s', step (.loop s) = some (.loop s') ∧
      Active below h { g frame with pc := frame.pc + 1 } out v s' := by
  have hwrite := hs.modify g
  exact ⟨_, step_active hs hexec, hwrite.modify fun fr => { fr with pc := frame.pc + 1 }⟩

variable {n : ℤ} {src dst via : κ} {c1 c2 : α}

/-- Statement 0 for more than one disk. -/
theorem step_test (hs : Active below h ⟨0, n, src, dst, via, c1, c2⟩ out v s) (hn : n ≠ 1) :
    ∃ s', step (.loop s) = some (.loop s') ∧
      Active below h ⟨1, n, src, dst, via, c1, c2⟩ out v s' := by
  have hexec : s.exec h = .loop s := by simp [State.exec, hs.stack.get_top, hn]
  exact ⟨_, step_active hs hexec, hs.modify fun frame => { frame with pc := 1 }⟩

/-- Statement 2. -/
theorem step_save₁ (hs : Active below h ⟨2, n, src, dst, via, c1, c2⟩ out v s) :
    ∃ s', step (.loop s) = some (.loop s') ∧
      Active below h ⟨3, n, src, dst, via, v, c2⟩ out v s' := by
  apply step_stay hs fun frame => { frame with c1 := v }
  simp only [State.exec, hs.stack.get_top, hs.retval]

/-- Statement 5. -/
theorem step_save₂ (hs : Active below h ⟨5, n, src, dst, via, c1, c2⟩ out v s) :
    ∃ s', step (.loop s) = some (.loop s') ∧
      Active below h ⟨6, n, src, dst, via, c1, v⟩ out v s' := by
  apply step_stay hs fun frame => { frame with c2 := v }
  simp only [State.exec, hs.stack.get_top, hs.retval]

/-- Statement 6. -/
theorem step_sum (hs : Active below h ⟨6, n, src, dst, via, c1, c2⟩ out v s) :
    ∃ s', step (.loop s) = some (.loop s') ∧ Popped below h out (c1 + c2 + 1) s' := by
  apply step_ret hs
  simp only [State.exec, hs.stack.get_top, ← hs.out]

end Passes

/-! ### A call -/

/-- At the head of the loop with at most `N` frames. -/
def Within (N : ℕ) : Config κ α → Prop
  | .loop s => -1 ≤ s.top ∧ s.top < N
  | _ => False

theorem Active.within {below : ℕ → Frame κ α} {h : ℕ} {frame : Frame κ α} {out : List (κ × κ)}
    {v : α} {s : State κ α} (hs : Active below h frame out v s) {N : ℕ} (hN : h < N) :
    Within N (.loop s) := by
  refine ⟨?_, ?_⟩ <;> rw [hs.stack.top_eq] <;> omega

theorem Popped.within {below : ℕ → Frame κ α} {h : ℕ} {out : List (κ × κ)} {v : α} {s : State κ α}
    (hs : Popped below h out v s) {N : ℕ} (hN : h < N) : Within N (.loop s) := by
  refine ⟨?_, ?_⟩ <;> rw [hs.stack.top_eq] <;> omega

variable [Add α] [Zero α] [One α]

/-- The machine performs a call with the given arguments: with room for `n` frames up to `N`, the
run from its frame on top leads to that frame popped, with its moves printed and its value
returned. -/
def Performs (N n : ℕ) (src dst via : κ) (moves : List (κ × κ)) (c : α) : Prop :=
  ∀ (below : ℕ → Frame κ α) (h : ℕ) (c1 c2 : α) (out : List (κ × κ)) (v : α) (s : State κ α),
    h + n ≤ N → Active below h ⟨0, n, src, dst, via, c1, c2⟩ out v s →
    ∃ s', Along step (Within N) (.loop s) (.loop s') ∧ Popped below h (out ++ moves) c s'

theorem performs_one (N : ℕ) (src dst via : κ) :
    Performs N 1 src dst via [(src, dst)] (1 : α) := by
  intro below h c1 c2 out v s hN hs
  have hexec : s.exec h = ({ s with out := out ++ [(src, dst)] } : State κ α).ret 1 := by
    simp [State.exec, hs.stack.get_top, hs.out]
  obtain ⟨s', hstep, hs'⟩ := step_ret hs hexec
  exact ⟨s', .head (hs.within (by omega)) hstep (.refl (hs'.within (by omega))), hs'⟩

/-- A pass that calls, with the call that it begins. -/
theorem run_call {N m h : ℕ} {a b d : κ} {moves : List (κ × κ)} {c : α}
    (hcall : Performs N m a b d moves c) (hm : 1 ≤ m) (hN : h + 1 + m ≤ N) (h64 : N ≤ 64)
    {below : ℕ → Frame κ α} {pc : ℕ} {n : ℤ} {src dst via : κ} {c1 c2 : α} {out : List (κ × κ)}
    {v : α} {s : State κ α} (hs : Active below h ⟨pc, n, src, dst, via, c1, c2⟩ out v s)
    (hexec : s.exec h = s.call m a b d) :
    ∃ s', Along step (Within N) (.loop s) (.loop s') ∧
      Active below h ⟨pc + 1, n, src, dst, via, c1, c2⟩ (out ++ moves) c s' := by
  obtain ⟨s₁, hstep, hs₁⟩ := step_call hs (by omega) hexec
  obtain ⟨s₂, hrun, hs₂⟩ := hcall _ _ _ _ _ _ _ hN hs₁
  exact ⟨s₂, .head (hs.within (by omega)) hstep hrun, hs₂.stack.onTop, hs₂.out, hs₂.retval⟩

theorem performs_more {N n : ℕ} (h64 : N ≤ 64) {src dst via : κ} {moves₁ moves₂ : List (κ × κ)}
    {c1 c2 : α} (h₁ : Performs N (n + 1) src via dst moves₁ c1)
    (h₂ : Performs N (n + 1) via dst src moves₂ c2) :
    Performs N (n + 2) src dst via (moves₁ ++ [(src, dst)] ++ moves₂) (c1 + c2 + 1) := by
  intro below h d1 d2 out v s hN hs
  have hn1 : ((n + 2 : ℕ) : ℤ) ≠ 1 := by omega
  have hsub : ((n + 2 : ℕ) : ℤ) - 1 = (n + 1 : ℕ) := by omega
  have hlt : h < N := by omega
  obtain ⟨s₁, step₁, hs₁⟩ := step_test hs hn1
  -- the first call, and its value
  obtain ⟨s₂, run₂, hs₂⟩ := run_call h₁ (by omega) (by omega) h64 hs₁
    (by simp only [State.exec, hs₁.stack.get_top, hsub])
  obtain ⟨s₃, step₃, hs₃⟩ := step_save₁ hs₂
  -- the call for one disk
  obtain ⟨s₄, run₄, hs₄⟩ := run_call (performs_one N src dst via) (by omega) (by omega) h64 hs₃
    (by simp only [State.exec, hs₃.stack.get_top]; rfl)
  -- the second call, and its value
  obtain ⟨s₅, run₅, hs₅⟩ := run_call h₂ (by omega) (by omega) h64 hs₄
    (by simp only [State.exec, hs₄.stack.get_top, hsub])
  obtain ⟨s₆, step₆, hs₆⟩ := step_save₂ hs₅
  obtain ⟨s₇, step₇, hs₇⟩ := step_sum hs₆
  have run₇ : Along step (Within N) (.loop s₅) (.loop s₇) :=
    .head (hs₅.within hlt) step₆ (.head (hs₆.within hlt) step₇ (.refl (hs₇.within hlt)))
  have run₄₇ := run₄.trans (run₅.trans run₇)
  have run₂₇ := run₂.trans (.head (hs₂.within hlt) step₃ run₄₇)
  refine ⟨s₇, .head (hs.within hlt) step₁ run₂₇, ?_⟩
  rw [List.append_assoc, List.append_assoc] at hs₇
  rw [List.append_assoc]
  exact hs₇

/-- **The machine performs every call of `hanoi`.** -/
theorem performs_hanoi {N n : ℕ} (h64 : N ≤ 64) (hn : 1 ≤ n) (src dst via : κ) :
    ∃ moves c, hanoi n src dst via = some (moves, c) ∧
      Performs N n src dst via moves (c : α) :=
  hanoi_induction (performs_one N) (fun _ _ _ _ _ _ _ _ => performs_more h64) hn src dst via

/-! ### The whole run -/

omit [Add α] [One α] in
theorem top_of_call {s s₁ : State κ α} {n : ℤ} {src dst via : κ}
    (h : s.call n src dst via = .loop s₁) : s₁.top = s.top + 1 := by
  rw [State.call] at h
  split_ifs at h
  rw [← Config.loop.inj h]

/-- A statement that pops writes to no frame. -/
theorem stk_of_exec {s s₁ : State κ α} {f : ℕ} (h : s.exec f = .loop s₁) (hpop : s₁.top < s.top) :
    s₁.stk = s.stk := by
  rcases hframe : s.stk f with ⟨pc, n, src, dst, via, c1, c2⟩
  simp only [State.exec, hframe] at h
  split at h
  · split_ifs at h
    · rw [← Config.loop.inj h]
    · rw [← Config.loop.inj h]
  · rw [top_of_call h] at hpop
    omega
  · rw [← Config.loop.inj h] at hpop
    exact absurd hpop (Int.lt_irrefl _)
  · rw [top_of_call h] at hpop
    omega
  · rw [top_of_call h] at hpop
    omega
  · rw [← Config.loop.inj h] at hpop
    exact absurd hpop (Int.lt_irrefl _)
  · rw [← Config.loop.inj h]
  · cases h

/-- **The late write to a popped frame touches no live one**: after a pass that pops, the frames up
to the new top are as they were. -/
theorem stk_of_pop {s s' : State κ α} (h : step (.loop s) = some (.loop s')) (hpop : s'.top < s.top)
    {i : ℕ} (hi : i ≤ s'.top) : s'.stk i = s.stk i := by
  rw [step] at h
  split_ifs at h with htop
  · cases h
  · simp only [Option.some.injEq] at h
    cases hexec : s.exec s.top.toNat with
    | loop s₁ =>
      rw [hexec, Config.setPc, Config.loop.injEq] at h
      -- the index that is written last is that of the frame that was on top
      have hne : i ≠ s.top.toNat := by omega
      rw [← h] at hpop ⊢
      rw [← stk_of_exec hexec hpop]
      exact Function.update_of_ne hne ..
    | done s₁ => rw [hexec] at h; cases h
    | assertion s₁ => rw [hexec] at h; cases h
    | overflow s₁ => rw [hexec] at h; cases h

/-- What is promised of every place of a run with `n` disks. -/
def Safe (n : ℕ) : Config κ α → Prop
  | .loop s => (-1 ≤ s.top ∧ s.top < n) ∧ ∀ s', step (.loop s) = some (.loop s') →
      s'.top < s.top → ∀ i : ℕ, i ≤ s'.top → s'.stk i = s.stk i
  | .done s => s.top = -1
  | .assertion _ => False
  | .overflow _ => False

theorem Within.safe {n : ℕ} {config : Config κ α} (h : Within n config) : Safe n config := by
  cases config with
  | loop s => exact ⟨h, fun s' hstep hpop i hi => stk_of_pop hstep hpop hi⟩
  | done s => exact h.elim
  | assertion s => exact h
  | overflow s => exact h

/-- **The explicit stack equals the recursion.**  For `1 ≤ n ≤ 64`, on an array with any contents,
the loop ends; it has printed the moves and returns the value of the recursive function.  On the way
there are never more than `n` frames, the failed assertion and the end of the array are not reached,
and writing the program counter of a popped frame changes no live one. -/
theorem stack_refines_hanoi (n : ℕ) (hn : 1 ≤ n) (h64 : n ≤ 64) (stk : ℕ → Frame κ α)
    (src dst via : κ) :
    ∃ moves c, hanoi n src dst via = some (moves, c) ∧
      (∃ s, Reaches step (start stk n src dst via) (.done s) ∧ s.out = moves ∧ s.retval = c) ∧
      ∀ config, Reaches step (start stk n src dst via) config → Safe n config := by
  obtain ⟨moves, c, hrec, hperforms⟩ := performs_hanoi (α := α) h64 hn src dst via
  have hstart : start stk n src dst via =
      .loop ⟨Function.update stk 0 ⟨0, n, src, dst, via, 0, 0⟩, 0, 0, []⟩ := rfl
  obtain ⟨s, hrun, hs⟩ := hperforms stk 0 0 0 [] 0
    ⟨Function.update stk 0 ⟨0, n, src, dst, via, 0, 0⟩, 0, 0, []⟩ (by omega)
    ⟨ArrayStack.OnTop.singleton .., rfl, rfl⟩
  have htop : s.top = -1 := hs.stack.top_eq
  have hdone : step (.loop s) = some (.done s) := by
    rw [step, if_pos (by omega)]
  have hwhole : Along step (Safe n) (start stk n src dst via) (.done s) := by
    rw [hstart]
    exact (hrun.mono fun _ => Within.safe).trans
      (.head (hs.within hn).safe hdone (.refl htop))
  refine ⟨moves, c, hrec, ⟨s, hwhole.reaches, hs.out, hs.retval⟩, ?_⟩
  intro config hreach
  exact hwhole.of_reaches rfl hreach

theorem stack_refines_hanoi_three : ∃ s : State UInt8 (BitVec 32),
    Reaches step (start (fun _ => ⟨0, 0, 0, 0, 0, 0, 0⟩) 3 65 66 67) (.done s) ∧ s.retval = 7 := by
  obtain ⟨moves, c, hrec, ⟨s, hreach, -, hret⟩, -⟩ :=
    stack_refines_hanoi (α := BitVec 32) 3 (by omega) (by omega) (fun _ => ⟨0, 0, 0, 0, 0, 0, 0⟩)
      (65 : UInt8) 66 67
  have hc : c = 7 := by
    simp [hanoi] at hrec
    rw [← hrec.2]
    decide
  exact ⟨s, hreach, hret.trans hc⟩

end Jyyos.Hanoi.Stack
