import Jyyos.Mosaic.Equiv.Sim

/-!
# Fork by replay is fork by copy

The operating system builds the child of a fork by replaying its trace in a clone; in the
reference a fork copies.  The simulation is an induction on the fuel and, within it, on the trace.
The step that matters ends in a fork.  The clone starts in the world as it is then, so its heaps
come after all others; it has one level of fuel less but a trace that is one shorter, so by
induction it reaches the state that the reference has before the last choice; and its last step,
with `fork_child` set, is the step that was just made.
-/

namespace Jyyos.Mosaic

variable {V F S H : Type} [PyVal V] [DecidableEq V] {base : ℕ} {ρ : ℕ → ℕ} {w : World H}
  {os : OperatingSystem V F S} {ref : Reference V F S H} (app : App V F S H)

/-! ### The clone of a fork -/

/-- A run of a trace, started in any world, does what the reference does. -/
def RunSim (fuel : ℕ) (trace : List Label) : Prop :=
  ∀ stack : List Bool, stack.all (!·) = true → ∀ w : World H,
    Exec.Refines (Kept w.heaps.length) .exception
      (fun os w' ref => os.trace = trace ∧ ∃ ρ, Sim w.heaps.length ρ w' os ref)
      (OperatingSystem.run app fuel stack trace) w (Reference.run app trace)

theorem step_eq_stepWith (fuel : ℕ) :
    ∃ clone, OperatingSystem.step app fuel = OperatingSystem.stepWith app clone := by
  cases fuel with
  | zero => exact ⟨_, rfl⟩
  | succ fuel => exact ⟨_, rfl⟩

/-- The last step of a clone, with `fork_child` set, makes no clone. -/
theorem step_forkChild (fuel : ℕ) (stack : List Bool) {choice : Label} {w w' : World H}
    {os os' : OperatingSystem V F S}
    (h : (os.choose app choice >>= fun r => r.1.send app r.2) w = (.ok (os', some .fork), w')) :
    OperatingSystem.step app fuel true stack choice os w =
      (.ok { os' with choices := none }, w') := by
  obtain ⟨clone, hstep⟩ := step_eq_stepWith app fuel
  have hbind : OperatingSystem.stepWith app clone true stack choice os =
      (os.choose app choice >>= fun r => r.1.send app r.2) >>= fun r =>
        r.1.syscall app clone (true :: stack) r.2 >>= fun choices =>
          pure { r.1 with choices := choices } := (bind_assoc _ _ _).symm
  rw [hstep, hbind, Exec.bind_of_ok h]
  rfl

/-- **The clone of a fork**: when the reference reaches a fork with the last choice, `sys_fork`
returns, and captures a copy of the current thread. -/
theorem sysFork_spec {fuel : ℕ} {trace : List Label} {choice : Label}
    {ref₀ : Reference V F S H} (hspec : RunSim app fuel trace)
    (href : Reference.run app trace = some ref₀)
    (hadv : ref₀.advance app choice = some (ref, some .fork)) (h : SimCore base ρ w os ref)
    (hcur : ref.current < ref.threads.length) (hbase : base ≤ w.heaps.length)
    (htrace : os.trace = trace ++ [choice]) {stack : List Bool} (hstack : stack.all (!·) = true) :
    ∃ child w', os.sysFork app (OperatingSystem.step app fuel) stack w =
        (.ok (some (Dict.ofList [(.text ['f', 'o', 'r', 'k'], .fork child)])), w') ∧
      Kept w.heaps.length w w' ∧ IsChild base ρ w' ref child := by
  -- the clone replays the trace but for the last choice
  have hrun := hspec stack hstack w
  rw [href] at hrun
  obtain ⟨clone, w₁, hclone, hkept₁, htr, ρ₁, hsim₁⟩ := hrun.exists_ok
  -- and makes the last step with `fork_child` set
  have hstep := sim_advance app hsim₁ choice
  rw [hadv] at hstep
  obtain ⟨⟨clone', call⟩, w₂, hclone', hkept₂, ρ₂, hsim₂, hcall, -⟩ := hstep.exists_ok
  obtain rfl : call = some .fork := hcall
  have hlast := step_forkChild app fuel stack hclone'
  have hkept := IsTrans.trans _ _ _ hkept₁ hkept₂
  obtain ⟨th, hth⟩ : ∃ th, ref.threads[ref.current]? = some th :=
    ⟨_, List.getElem?_eq_getElem hcur⟩
  have hchild : clone'.threads[clone'.current]? = some (th.relabel ρ₂) := by
    have := hsim₂.getElem? clone'.current
    rw [this, hsim₂.current]
    show (ref.threads[ref.current]?).map _ = _
    rw [hth]
    rfl
  have hk : th.heap < ref.heaps.length := hsim₂.heap_lt hth
  refine ⟨th.relabel ρ₂, w₂, ?_, hkept, ⟨th, hth, rfl, hsim₂.heaps _ hk⟩, fun k hk' => ?_, ?_⟩
  · unfold OperatingSystem.sysFork need
    rw [if_pos hstack, htrace, List.dropLast_concat, List.getLast?_concat]
    have hreplay : (OperatingSystem.new app >>= fun clone =>
        OperatingSystem.replay (OperatingSystem.step app fuel) stack trace clone) w =
          (.ok clone, w₁) := hclone
    rw [← bind_assoc, Exec.bind_of_ok hreplay]
    show (OperatingSystem.step app fuel true stack choice clone >>= _) w₁ = _
    rw [Exec.bind_of_ok hlast]
    show (Exec.orThrow _ clone'.threads[clone'.current]? >>= _) w₂ = _
    rw [hchild]
    rfl
  · -- the heaps of this system were there before the clone started
    exact Nat.ne_of_lt ((h.lt_length hk').trans_le (hsim₂.above _ hk))
  · exact hbase.trans (hsim₂.above _ hk)

/-! ### Steps and runs -/

/-- **One step**, given what the clones do. -/
theorem sim_step {fuel : ℕ} (h : Sim base ρ w os ref) (hspec : RunSim app fuel os.trace)
    (href : Reference.run app os.trace = some ref) (hbase : base ≤ w.heaps.length)
    {stack : List Bool} (hstack : stack.all (!·) = true) (choice : Label) :
    Exec.Refines (Kept base) .exception
      (fun os' w' ref' => os'.trace = os.trace ++ [choice] ∧ ∃ ρ', Sim base ρ' w' os' ref')
      (OperatingSystem.step app (fuel + 1) false stack choice os) w (ref.step app choice) := by
  have hbind : OperatingSystem.step app (fuel + 1) false stack choice os =
      (os.choose app choice >>= fun r => r.1.send app r.2) >>= fun r =>
        r.1.syscall app (OperatingSystem.step app fuel) (false :: stack) r.2 >>= fun choices =>
          pure { r.1 with choices := choices } := (bind_assoc _ _ _).symm
  rw [hbind]
  unfold Reference.step
  refine Exec.Refines.bind (sim_advance app h choice) fun a w₁ b hsent hkept hadv => ?_
  obtain ⟨os₁, call⟩ := a
  obtain ⟨ref₁, call'⟩ := b
  obtain ⟨ρ₁, hsim, hcall, htrace⟩ := hsent
  obtain rfl : call = call' := hcall
  by_cases hfork : call = some .fork
  · -- the choices are those of a fork: the clone leaves the world above the heaps of this system
    subst hfork
    have hbase₁ : base ≤ w₁.heaps.length := hbase.trans hkept.length_le
    obtain ⟨child, w₂, hrun, hkept₂, hchild⟩ := sysFork_spec app hspec href hadv hsim
      (Reference.current_lt_of_advance app hadv) hbase₁ htrace
      (show (false :: stack).all (!·) = true by rw [List.all_cons, hstack]; rfl)
    have hstep : (os₁.syscall app (OperatingSystem.step app fuel) (false :: stack) (some .fork) >>=
        fun choices => pure { os₁ with choices := choices }) w₁ =
        (.ok { os₁ with choices := some (Dict.ofList
          [(.text ['f', 'o', 'r', 'k'], .fork child)]) }, w₂) := Exec.bind_of_ok hrun
    refine Exec.Refines.of_ok hstep (hkept₂.mono hbase₁) ⟨htrace, ρ₁, ?_⟩
    have hsim₂ : SimCore base ρ₁ w₂ os₁ ref₁ :=
      hsim.congr fun k hk => hkept₂.below _ (hsim.lt_length hk)
    refine { hsim₂ with choices := rfl, child := fun table l child' htable hget => ?_ }
    obtain rfl := Option.some.inj htable
    obtain rfl : child' = child := Action.fork.inj (Dict.eq_of_get?_singleton hget)
    exact ⟨hchild.copy, hchild.unshared, hchild.above⟩
  · -- no other system call runs code, or offers a fork
    obtain ⟨table, htable, hforget, hne⟩ := syscall_of_ne_fork app hsim
      (OperatingSystem.step app fuel) (false :: stack) hfork
    show Exec.Refines _ _ _ (os₁.syscall app _ _ call >>= _) w₁ _
    rw [htable]
    refine Exec.Refines.pure ⟨htrace, ρ₁, { hsim with choices := ?_, child := ?_ }⟩
    · exact congrArg some hforget
    · intro table' l child htable' hget
      obtain rfl := Option.some.inj htable'
      exact absurd hget (hne l child)

omit [PyVal V] [DecidableEq V] in
theorem sim_new (w : World H) :
    Exec.Refines (Kept w.heaps.length) .exception
      (fun os w' ref => os.trace = [] ∧ ∃ ρ, Sim w.heaps.length ρ w' os ref)
      (OperatingSystem.new app) w (some (Reference.new app)) := by
  refine Exec.Refines.of_ok rfl ⟨?_, fun p hp => ?_, fun e he => Or.inl he⟩ ⟨rfl,
    fun _ => w.heaps.length, ?_⟩
  · show w.heaps.length ≤ (w.heaps ++ [app.emptyHeap]).length
    rw [List.length_append]
    exact Nat.le_add_right ..
  · exact List.getElem?_append_left hp
  · refine ⟨⟨rfl, ?_, ?_, ?_, fun k _ => le_refl _, rfl, rfl, rfl⟩, ?_, ?_⟩
    · intro th hth
      rw [List.mem_singleton.mp hth]
      exact Nat.zero_lt_one
    · intro k hk
      obtain rfl : k = 0 := Nat.lt_one_iff.mp hk
      show (w.heaps ++ [app.emptyHeap])[w.heaps.length]? = _
      rw [List.getElem?_append_right (le_refl _), Nat.sub_self]
      rfl
    · intro k hk l hl _
      have hk' : k = 0 := Nat.lt_one_iff.mp hk
      have hl' : l = 0 := Nat.lt_one_iff.mp hl
      rw [hk', hl']
    · rfl
    · intro table l child htable hget
      obtain rfl := Option.some.inj htable
      cases Dict.eq_of_get?_singleton hget

theorem run_concat (fuel : ℕ) (stack : List Bool) (trace : List Label) (choice : Label) :
    (OperatingSystem.run app fuel stack (trace ++ [choice]) : M H _) =
      OperatingSystem.run app fuel stack trace >>= fun os =>
        OperatingSystem.step app fuel false stack choice os := by
  unfold OperatingSystem.run OperatingSystem.replay
  rw [bind_assoc]
  simp [List.foldlM_append]

/-- **Every run**: fuel for the length of the trace is enough. -/
theorem runSim (fuel : ℕ) : ∀ trace : List Label, trace.length ≤ fuel → RunSim app fuel trace := by
  induction fuel with
  | zero =>
    intro trace hlen stack _ w
    obtain rfl : trace = [] := List.length_eq_zero_iff.mp (Nat.le_zero.mp hlen)
    have hrun : OperatingSystem.run app 0 stack [] = OperatingSystem.new app := bind_pure _
    rw [hrun]
    exact sim_new app w
  | succ fuel ihfuel =>
    intro trace
    induction trace using List.reverseRecOn with
    | nil =>
      intro _ stack _ w
      have hrun : OperatingSystem.run app (fuel + 1) stack [] = OperatingSystem.new app :=
        bind_pure _
      rw [hrun]
      exact sim_new app w
    | append_singleton trace choice ih =>
      intro hlen stack hstack w
      rw [List.length_append, List.length_singleton] at hlen
      rw [run_concat, Reference.run_concat]
      refine Exec.Refines.bind (ih (by omega) stack hstack w) fun os w' ref hos hkept href => ?_
      obtain ⟨htrace, ρ, hsim⟩ := hos
      rw [← htrace] at href ⊢
      -- a clone in this step replays the trace that was run so far, with one level of fuel less,
      -- so the outer induction speaks about it
      have hspec : RunSim app fuel os.trace := ihfuel os.trace (by rw [htrace]; omega)
      exact sim_step app hsim hspec href hkept.length_le hstack choice

/-! ### The states that can be observed -/

/-- The two states are the same: the contexts, what each thread finds in its heap, which threads
share a heap, the current thread, the choices, the output and the storage. -/
structure SameState (w : World H) (os : OperatingSystem V F S) (ref : Reference V F S H) :
    Prop where
  contexts : os.contexts = ref.contexts
  heaps : ∀ i : ℕ, (os.threads[i]?).bind (fun th : Thread V F S => w.heaps[th.heap]?) =
    (ref.threads[i]?).bind fun th : Thread V F S => ref.heaps[th.heap]?
  sharing : ∀ i j : ℕ, (os.threads[i]?).map Thread.heap = (os.threads[j]?).map Thread.heap ↔
    (ref.threads[i]?).map Thread.heap = (ref.threads[j]?).map Thread.heap
  current : os.current = ref.current
  choices : os.choices.map (Dict.map Action.forget) = some ref.choices
  devices : os.devices = ref.devices
  newfork : os.newfork = ref.newfork

omit [PyVal V] [DecidableEq V] in
theorem Sim.sameState (h : Sim base ρ w os ref) : SameState w os ref := by
  refine ⟨?_, fun i => ?_, fun i j => ?_, h.current, h.choices, h.devices, h.newfork⟩
  · rw [OperatingSystem.contexts, h.threads, List.map_map]
    rfl
  · rw [h.getElem?]
    cases hth : ref.threads[i]? with
    | none => rfl
    | some th => exact h.heaps th.heap (h.heap_lt hth)
  · rw [h.getElem?, h.getElem?]
    cases hi : ref.threads[i]? with
    | none =>
      cases hj : ref.threads[j]? with
      | none => simp
      | some th => simp
    | some th =>
      cases hj : ref.threads[j]? with
      | none => simp
      | some th' =>
        show some (ρ th.heap) = some (ρ th'.heap) ↔ some th.heap = some th'.heap
        rw [Option.some.injEq, Option.some.injEq]
        exact ⟨fun heq => h.inj (h.heap_lt hi) (h.heap_lt hj) heq, fun heq => by rw [heq]⟩

/-- **Fork by replay is fork by copy.**  In any world and on any trace of choices, with clones
nested at most as deep as the trace is long, the operating system and the reference both raise an
exception or reach the same state; the child of an offered fork is on a heap that no thread has;
and all thread code that ran meanwhile, that of the clones included, ran with `heap` bound to the
heap of its thread. -/
theorem run_eq_reference (trace : List Label) (k : ℕ) (w : World H) :
    Exec.Matches .exception
        (fun os w' ref => SameState w' os ref ∧
          ∀ table l child, os.choices = some table → table.get? l = some (.fork child) →
            ∀ th ∈ os.threads, th.heap ≠ child.heap)
        (OperatingSystem.run app (trace.length + k) [] trace w) (Reference.run app trace) ∧
      ∀ e ∈ (OperatingSystem.run app (trace.length + k) [] trace w).2.ran,
        e ∈ w.ran ∨ e.1 = e.2 := by
  have hrun := runSim app (trace.length + k) trace (Nat.le_add_right ..) [] rfl w
  refine ⟨(hrun.mono fun os w' ref hos _ _ => ?_).outcome, hrun.keeps.ran⟩
  obtain ⟨-, ρ, hsim⟩ := hos
  refine ⟨hsim.sameState, fun table l child htable hget th hth => ?_⟩
  rw [hsim.threads] at hth
  obtain ⟨th', hth', rfl⟩ := List.mem_map.mp hth
  exact (hsim.child table l child htable hget).unshared _ (hsim.valid th' hth')

end Jyyos.Mosaic
