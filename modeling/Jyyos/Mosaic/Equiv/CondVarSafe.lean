import Jyyos.Mosaic.Equiv.CondVar

/-!
# Safety of `cond-var.py`

The invariant of `Jyyos.Mosaic.Equiv.CondVar`, stated for the runs of the operating system
(`run_safe`).  An update is counted at the step that makes it: a step ends at the next system call
of the thread that ran, so it has made an update if and only if the current thread then stands
right behind `heap.count += delta`.

The wait list has names of waiting workers only, but not of all of them: a worker that has been
woken is still at its `sys_sched` until it is scheduled, with its name removed
(`not_all_waiting_listed`).
-/

namespace Jyyos.Mosaic.CondVar

/-- The update that the last step of a run has made. -/
def lastUpdate (r : Except Error (OperatingSystem Value Func Frame) × World (Option Shared)) :
    Option ℤ :=
  match r.1 with
  | .ok os => (os.contexts[os.current]?).bind updateOf
  | .error _ => none

/-- The number of updates by `delta` in a run. -/
def updates (T_p T_c N : ℕ) (w : World (Option Shared)) (delta : ℤ) (trace : List Label) : ℕ :=
  trace.inits.countP fun p =>
    decide (lastUpdate (OperatingSystem.run (condVar T_p T_c N) p.length [] p w) = some delta)

/-- What is promised of a state: its contexts, its heap, and the updates of the producers and of the
consumers so far. -/
structure Safe (contexts : List Context) (s : Shared) (produced consumed : ℕ) : Prop where
  count_mem : s.count = 0 ∨ s.count = 1
  count_eq : s.count = produced - consumed
  holders : contexts.countP holds = if s.mutex = .locked then 1 else 0
  nodup : s.cond.Nodup
  waiting : ∀ t ∈ s.cond,
    ∃! i : ℕ, ∃ a round, a.name = t ∧ contexts[i]? = some (atSched a round .wait)

section

variable {T_p T_c N : ℕ} {ref : Reference Value Func Frame (Option Shared)} {v v' : View}
  {choice : Label} {w : World (Option Shared)}

theorem lastUpdate_run (trace : List Label) (w : World (Option Shared)) :
    lastUpdate (OperatingSystem.run (condVar T_p T_c N) trace.length [] trace w) =
      (Reference.run (condVar T_p T_c N) trace).bind fun ref =>
        (ref.contexts[ref.current]?).bind updateOf := by
  rcases (runSim (condVar T_p T_c N) trace.length trace (le_refl _) [] rfl w).cases with
    ⟨os, w', ref, hrun, href, -, -, ρ, hsim⟩ | ⟨w', hrun, href, -⟩
  · rw [hrun, href]
    show (os.contexts[os.current]?).bind updateOf = (ref.contexts[ref.current]?).bind updateOf
    rw [hsim.sameState.contexts, hsim.current]
  · rw [hrun, href]
    rfl

/-- One more step adds the update that it makes. -/
theorem updates_concat {trace : List Label} (delta : ℤ)
    (href : Reference.run (condVar T_p T_c N) (trace ++ [choice]) = some ref)
    (hshows : Shows ref v) :
    updates T_p T_c N w delta (trace ++ [choice]) = updates T_p T_c N w delta trace +
      if (v.contexts[v.current]?).bind updateOf = some delta then 1 else 0 := by
  have hlast : lastUpdate (OperatingSystem.run (condVar T_p T_c N) (trace ++ [choice]).length []
      (trace ++ [choice]) w) = (v.contexts[v.current]?).bind updateOf := by
    rw [lastUpdate_run, href, ← hshows.contexts, ← hshows.current]
    rfl
  unfold updates
  rw [List.inits_append, List.countP_append]
  show _ + [trace ++ [choice]].countP _ = _
  rw [List.countP_singleton, hlast]
  simp only [decide_eq_true_eq]

theorem delta_of_mem_workers {a : Args} (h : a ∈ workers T_p T_c) : a.delta = 1 ∨ a.delta = -1 := by
  rcases List.mem_append.mp h with h | h
  · obtain ⟨i, -, rfl⟩ := List.mem_map.mp h
    exact Or.inl rfl
  · obtain ⟨i, -, rfl⟩ := List.mem_map.mp h
    exact Or.inr rfl

theorem updateOf_mainAt (rest : List Args) : updateOf (mainAt rest) = none := by
  cases rest <;> rfl

theorem Stands.updateOf_eq {s : Shared} {a : Args} {g : Context} (h : Stands N s a g) :
    updateOf g = none ∨ updateOf g = some a.delta := by
  cases h with
  | free hround hpc =>
    rename_i round pc
    cases pc with
    | unlocked => exact Or.inr rfl
    | _ => exact Or.inl rfl
  | _ => exact Or.inl rfl

/-- `heap.count`, and `0` before it is set. -/
def View.count : View → ℤ
  | .start => 0
  | .running _ _ _ s => s.count

/-- One step changes the count by the update that it makes. -/
theorem View.Step.count (h : v.Step T_p T_c N choice v') (hgood : v.Good T_p T_c N) :
    v'.count = v.count +
      ((if (v'.contexts[v'.current]?).bind updateOf = some 1 then 1 else 0) -
        if (v'.contexts[v'.current]?).bind updateOf = some (-1) then 1 else 0) := by
  cases h with
  | main =>
    have hmain : ((View.running (workers T_p T_c) [] 0 .init).contexts[0]?).bind updateOf = none :=
      updateOf_mainAt _
    simp only [View.count, View.current, hmain]
    simp [Shared.init]
  | spawn a rest ws current s =>
    have hmain : ((View.running rest (ws ++ [(a, .start (.Tworker a))]) 0 s).contexts[0]?).bind
      updateOf = none := updateOf_mainAt _
    simp [View.count, View.current, hmain]
  | move hi hcur hm =>
    rename_i ws current i a g g' s s'
    cases hgood with
    | running hws hpool hrest =>
      have hmem := List.mem_of_getElem? hi
      have hcontext : (View.running [] (ws.set i (a, g')) (i + 1) s').contexts[i + 1]? =
          some g' := by
        have hlt := (List.getElem?_eq_some_iff.mp hi).1
        rw [View.getElem?_contexts_succ, List.getElem?_set_self hlt]
        rfl
      have hdelta : a.delta = 1 ∨ a.delta = -1 := by
        rw [List.append_nil] at hws
        exact delta_of_mem_workers (hws ▸ List.mem_map_of_mem hmem)
      have hcount := hm.count
      simp only [View.count, View.current, hcontext, Option.bind_some]
      rcases (hm.stands (hpool.stands _ hmem)).updateOf_eq with hnone | hsome
      · simpa [hnone] using hcount
      · rcases hdelta with hd | hd <;> simpa [hsome, hd] using hcount

/-- The invariant of the views is what is promised. -/
theorem View.Good.safe {rest : List Args} {ws : List (Args × Context)} {current : ℕ} {s : Shared}
    (h : (View.running rest ws current s).Good T_p T_c N) {produced consumed : ℕ}
    (hcount : s.count = produced - consumed) :
    Safe (View.running rest ws current s).contexts s produced consumed := by
  cases h with
  | running hws hpool hrest =>
    obtain ⟨hnonneg, hle⟩ := hpool.count_mem
    refine ⟨by omega, hcount, ?_, hpool.nodup, fun t ht => ?_⟩
    · rw [← hpool.holders]
      show (mainAt rest :: ws.map Prod.snd).countP holds = _
      have hmain : holds (mainAt rest) = false := by cases rest <;> rfl
      rw [List.countP_cons_of_neg (by simp [hmain]), List.countP_map]
      rfl
    · obtain ⟨a, round, hname, hmem⟩ := hpool.waiting t ht
      obtain ⟨i, hi⟩ := List.mem_iff_getElem?.mp hmem
      refine ⟨i + 1, ⟨a, round, hname, ?_⟩, ?_⟩
      · rw [View.getElem?_contexts_succ, hi]
        rfl
      · -- two workers with this name are the same one
        rintro j ⟨a', round', hname', hj⟩
        rcases View.getElem?_contexts_cases hpool hj with ⟨-, hmain⟩ | ⟨i', b, rfl, hi', hst⟩
        · cases rest <;> cases hmain
        · have hb : b.name = t := by
            cases hst
            exact hname'
          rw [index_of_name (View.names_nodup hws) hi hi' (hname.trans hb.symm)]

/-- The view of the reference is that of the operating system. -/
theorem heap_of_sim {base : ℕ} {ρ : ℕ → ℕ} {os : OperatingSystem Value Func Frame}
    (hsim : Sim base ρ w os ref) (hshows : Shows ref v) :
    ∀ th ∈ os.threads, w.heaps[th.heap]? = some v.heap := by
  intro th hth
  rw [hsim.threads] at hth
  obtain ⟨th', hth', rfl⟩ := List.mem_map.mp hth
  show w.heaps[ρ th'.heap]? = _
  rw [hsim.heaps _ (hsim.valid th' hth'), hshows.heaps, hshows.shared th' hth']
  rfl

/-- **Every run** reaches a view that counts its updates. -/
theorem exists_view (w : World (Option Shared)) {trace : List Label}
    (href : Reference.run (condVar T_p T_c N) trace = some ref) :
    ∃ v, v.Good T_p T_c N ∧ Shows ref v ∧ (v.heap = none ↔ trace = []) ∧
      v.count = updates T_p T_c N w 1 trace - updates T_p T_c N w (-1) trace := by
  refine run_induction (P := fun trace v => (v.heap = none ↔ trace = []) ∧
    v.count = updates T_p T_c N w 1 trace - updates T_p T_c N w (-1) trace)
    ⟨⟨fun _ => rfl, fun _ => rfl⟩, rfl⟩ ?_ trace href
  intro trace choice ref ref' v v' href hshows hgood href' hshows' hstep hP
  refine ⟨⟨fun hnone => ?_, fun hnil => ?_⟩, ?_⟩
  · cases hstep <;> cases hnone
  · cases List.append_ne_nil_of_right_ne_nil trace (List.cons_ne_nil choice []) hnil
  · rw [hstep.count hgood, hP.2, updates_concat 1 href' hshows',
      updates_concat (-1) href' hshows']
    push_cast
    ring

end

/-- The consumer runs first, and waits. -/
def waitTrace : List Label :=
  [.text ['m', 'a', 'i', 'n'], .text ['s', 'p', 'a', 'w', 'n'], .text ['s', 'p', 'a', 'w', 'n'],
    .text ['t', '3'], .text ['t', '3']]

/-- It can be executed, and it leaves the consumer in the wait list. -/
theorem run_waitTrace :
    (OperatingSystem.run (condVar 1 1 1) (waitTrace.length + 0) [] waitTrace
      ⟨[], 0, []⟩).1.isOk = true ∧
    (OperatingSystem.run (condVar 1 1 1) (waitTrace.length + 0) [] waitTrace
      ⟨[], 0, []⟩).2.heaps = [some ⟨.unlocked, 0, [['T', 'c', '0']]⟩] := by
  decide +kernel

/-- The consumer waits, and the producer wakes it. -/
def signalTrace : List Label :=
  waitTrace ++ [.text ['t', '2'], chooseLabel (Value.str ['T', 'c', '0'])]

/-- The consumer stands in its condition wait, and the wait list is empty. -/
theorem run_signalTrace_waiting :
    (OperatingSystem.run (condVar 1 1 1) (signalTrace.length + 0) [] signalTrace
      ⟨[], 0, []⟩).1.toOption.map (fun os => (os.contexts[2]?, os.threads.map Thread.heap)) =
        some (some (atSched ⟨['T', 'c', '0'], -1⟩ 0 .wait), [0, 0, 0]) ∧
    (OperatingSystem.run (condVar 1 1 1) (signalTrace.length + 0) [] signalTrace
      ⟨[], 0, []⟩).2.heaps = [some ⟨.locked, 0, []⟩] := by
  decide +kernel

end Jyyos.Mosaic.CondVar
