import Jyyos.Mosaic.Equiv.Fork
import Jyyos.Mosaic.Equiv.Threads

/-!
# System-call results reach the right thread

What each `context.send` of a run does, from the invariant on where the threads stand: it goes to
a live generator, and it carries `None` to one that has not started, `0` to a new child, the pid to
a parent, and otherwise the result of the thread's own system call (`Send.Right`).

Over a whole run (`sends_fork`) a fork gives its child, which nobody has resumed before, the `0` at
the first resumption and never again, and it gives the parent a pid that no other fork returns.
The arguments follow the number of threads, which a fork increases, and the set of new children,
which a child leaves when it is resumed.

The runs are those of the reference; the operating system does the same sends.
-/

namespace Jyyos.Mosaic

variable {V F S H : Type} [PyVal V] [DecidableEq V]

namespace Send

/-- The value is right for the generator that gets it. -/
def Right (s : Send V F S) : Prop :=
  match s.context with
  | .finished => False
  | .start _ => s.value = PyVal.none
  | .suspended _ .fork =>
    (s.action = .switch s.tid ∧ s.value = PyVal.ofNat 0) ∨
      (s.action = .fork () ∧ s.value = PyVal.ofNat (1000 + s.threads))
  | .suspended _ .sched => s.action = .switch s.tid ∧ s.value = PyVal.none
  | .suspended _ (.spawn func args) => s.action = .spawn func args ∧ s.value = PyVal.none
  | .suspended _ (.dev c) => ∃ l a, (c.table s.devices).get? l = some a ∧ s.action = .dev a ∧
    s.value = (a.run s.devices).2

/-- A fork returns in a child: its thread, suspended at `sys_fork`, is switched to. -/
def ToChild (s : Send V F S) : Prop :=
  s.action = .switch s.tid ∧ ∃ frame, s.context = .suspended frame .fork

/-- A fork returns. -/
def AtFork (s : Send V F S) : Prop := ∃ frame, s.context = .suspended frame .fork

theorem Right.value_of_toChild {s : Send V F S} (h : s.Right) (hc : s.ToChild) :
    s.value = PyVal.ofNat 0 := by
  obtain ⟨haction, frame, hframe⟩ := hc
  unfold Right at h
  rw [hframe] at h
  rcases h with ⟨-, hval⟩ | ⟨hf, -⟩
  · exact hval
  · rw [haction] at hf
    cases hf

end Send

/-! ### The sends of a run -/

/-- What the send of a step does, if there are `n` threads and the new children `newfork` before
it, and the new children `newfork'` after it. -/
structure Sends (n : ℕ) (newfork : Finset ℕ) (s : Send V F S) (newfork' : Finset ℕ) : Prop where
  right : s.Right
  tid_lt : s.tid < s.threads
  le : n ≤ s.threads
  /-- A fork adds one thread, and its parent gets the pid. -/
  fork : s.action = .fork () → s.threads = n + 1 ∧ s.value = PyVal.ofNat (1000 + s.threads)
  /-- A child that gets its return value is new. -/
  child : s.ToChild ↔ s.tid ∈ newfork
  /-- The thread that is resumed is new no longer, the child of a fork is. -/
  new : ∀ i, i ∈ newfork' ↔ (i ∈ newfork ∧ i ≠ s.tid) ∨ (s.action = .fork () ∧ i + 1 = s.threads)

/-- The sends of a run from a state with `n` threads and the new children `newfork`. -/
inductive Log : ℕ → Finset ℕ → List (Send V F S) → Prop
  | nil (n : ℕ) (newfork : Finset ℕ) : Log n newfork []
  | cons {n : ℕ} {newfork newfork' : Finset ℕ} {s : Send V F S} {log : List (Send V F S)}
    (head : Sends n newfork s newfork') (tail : Log s.threads newfork' log) :
    Log n newfork (s :: log)

namespace Log

variable {n : ℕ} {newfork : Finset ℕ} {log : List (Send V F S)}

theorem right (h : Log n newfork log) : ∀ s ∈ log, s.Right := by
  induction h with
  | nil => exact fun s hs => absurd hs List.not_mem_nil
  | cons head _ ih =>
    intro s hs
    rcases List.mem_cons.mp hs with rfl | hs
    · exact head.right
    · exact ih s hs

/-- The number of threads does not decrease, and a fork increases it. -/
theorem threads (h : Log n newfork log) :
    ∀ s ∈ log, n ≤ s.threads ∧ (s.action = .fork () → n < s.threads) := by
  induction h with
  | nil => exact fun s hs => absurd hs List.not_mem_nil
  | @cons n _ _ s₀ _ head _ ih =>
    intro s hs
    have hle := head.le
    rcases List.mem_cons.mp hs with rfl | hs
    · exact ⟨hle, fun hf => by rw [(head.fork hf).1]; exact Nat.lt_succ_self n⟩
    · exact ⟨hle.trans (ih s hs).1, fun hf => hle.trans_lt ((ih s hs).2 hf)⟩

/-- A thread that is not new gets no return value of a fork as a child. -/
theorem old (h : Log n newfork log) {i : ℕ} (hi : i < n) (hnew : i ∉ newfork) :
    ∀ s ∈ log, s.tid = i → ¬ s.ToChild := by
  induction h with
  | nil => exact fun s hs => absurd hs List.not_mem_nil
  | cons head _ ih =>
    intro s hs htid
    rcases List.mem_cons.mp hs with rfl | hs
    · rw [head.child, htid]
      exact hnew
    · refine ih (hi.trans_le head.le) ?_ s hs htid
      rw [head.new]
      rintro (⟨hmem, -⟩ | ⟨hf, heq⟩)
      · exact hnew hmem
      · have := (head.fork hf).1
        omega

/-- A new child gets the `0` of its fork when it is first resumed, and never again. -/
theorem child (h : Log n newfork log) {i : ℕ} (hi : i < n) (hnew : i ∈ newfork) :
    ∀ s rest, log.filter (fun s => s.tid = i) = s :: rest →
      s.ToChild ∧ s.value = PyVal.ofNat 0 ∧ ∀ s' ∈ rest, ¬ s'.ToChild := by
  induction h with
  | nil => exact fun s rest hfilter => nomatch hfilter
  | @cons _ _ newfork' s₀ log head tail ih =>
    intro s rest hfilter
    have hi' := hi.trans_le head.le
    by_cases htid : s₀.tid = i
    · rw [List.filter_cons_of_pos (by simpa using htid)] at hfilter
      obtain ⟨rfl, rfl⟩ := List.cons.inj hfilter
      have hchild : s₀.ToChild := head.child.mpr (htid ▸ hnew)
      refine ⟨hchild, head.right.value_of_toChild hchild, fun s' hs' => ?_⟩
      obtain ⟨hs', htid'⟩ := List.mem_filter.mp hs'
      refine tail.old hi' ?_ s' hs' (of_decide_eq_true htid')
      rw [head.new]
      rintro (⟨-, hne⟩ | ⟨hf, heq⟩)
      · exact hne htid.symm
      · have := (head.fork hf).1
        omega
    · rw [List.filter_cons_of_neg (by simpa using htid)] at hfilter
      exact ih hi' ((head.new i).mpr (Or.inl ⟨hnew, fun heq => htid heq.symm⟩)) s rest hfilter

/-- **A fork in a run**: nobody has resumed its child before, the child gets the `0` of the fork at
its first resumption and only then, and no other return of a fork has the pid that the parent
gets. -/
theorem fork (h : Log n newfork log) : ∀ log₁ s log₂, log = log₁ ++ s :: log₂ →
    s.action = .fork () → s.value = PyVal.ofNat (1000 + s.threads) ∧
      (∀ s' ∈ log₁, s'.tid ≠ s.threads - 1) ∧
      (∀ s' rest, log₂.filter (fun s' => s'.tid = s.threads - 1) = s' :: rest →
        s'.ToChild ∧ s'.value = PyVal.ofNat 0 ∧ ∀ s'' ∈ rest, ¬ s''.ToChild) ∧
      ∀ s' ∈ log₁ ++ log₂, s'.AtFork → s'.value ≠ s.value := by
  -- the pid of a parent is not the pid of one with another number of threads, nor `0`
  have hpid : ∀ s s' : Send V F S, s.value = PyVal.ofNat (1000 + s.threads) → s'.Right →
      (s'.action = .fork () → s'.threads ≠ s.threads) → s'.AtFork → s'.value ≠ s.value := by
    intro s s' hs hright hne hat heq
    obtain ⟨frame, hframe⟩ := hat
    unfold Send.Right at hright
    rw [hframe] at hright
    rcases hright with ⟨-, hval⟩ | ⟨hf, hval⟩
    · rw [hs, hval] at heq
      have := PyVal.ofNat_injective heq
      omega
    · rw [hs, hval] at heq
      have := PyVal.ofNat_injective heq
      exact hne hf (by omega)
  induction h with
  | nil => exact fun log₁ s log₂ hlog => absurd hlog (by simp)
  | @cons n newfork newfork' s₀ log head tail ih =>
    intro log₁ s log₂ hlog hf
    cases log₁ with
    | nil =>
      obtain ⟨rfl, rfl⟩ := List.cons.inj hlog
      obtain ⟨hlen, hval⟩ := head.fork hf
      refine ⟨hval, fun s' hs' => absurd hs' List.not_mem_nil, ?_, fun s' hs' => ?_⟩
      · exact tail.child (by omega) ((head.new _).mpr (Or.inr ⟨hf, by omega⟩))
      · have hright := tail.right s' hs'
        refine hpid s₀ s' hval hright fun hf' => ?_
        exact Nat.ne_of_gt ((tail.threads s' hs').2 hf')
    | cons s₁ log₁ =>
      obtain ⟨rfl, rfl⟩ := List.cons.inj hlog
      obtain ⟨hval, hbefore, hchild, hother⟩ := ih log₁ s log₂ rfl hf
      have hlt : s₀.threads < s.threads := (tail.threads s (by simp)).2 hf
      have htid := head.tid_lt
      refine ⟨hval, fun s' hs' => ?_, hchild, fun s' hs' => ?_⟩
      · rcases List.mem_cons.mp hs' with rfl | hs'
        · omega
        · exact hbefore s' hs'
      · rcases List.mem_cons.mp hs' with rfl | hs'
        · exact hpid s s' hval head.right fun _ => Nat.ne_of_lt hlt
        · exact hother s' hs'

end Log

variable (app : App V F S H) {ref : Reference V F S H}

namespace Reference

/-! ### The send of a step -/

/-- Thread code adds no thread and switches to none. -/
theorem send_frame {res : V} {r : Reference V F S H × Option (Syscall V F)}
    (h : ref.send app res = some r) :
    r.1.newfork = ref.newfork ∧ r.1.threads.length = ref.threads.length := by
  obtain ⟨th, -, hcases⟩ := send_cases app h
  rcases hcases with ⟨-, rfl⟩ | ⟨frame, h₀, -, -, ⟨frame', call, h', -, rfl⟩ | ⟨h', -, rfl⟩⟩
  · exact ⟨rfl, rfl⟩
  · exact ⟨rfl, List.length_set⟩
  · exact ⟨rfl, List.length_set⟩

/-- A send that no context switch precedes goes to the current thread, which is not new. -/
theorem Inv.sends_current (h : ref.Inv app) {s : Send V F S} {newfork : Finset ℕ}
    (htid : s.tid = ref.current)
    (hne : ∀ tid, s.action ≠ .switch tid) (hright : s.Right) (hle : ref.threads.length ≤ s.threads)
    (hfork : s.action = .fork () →
      s.threads = ref.threads.length + 1 ∧ s.value = PyVal.ofNat (1000 + s.threads))
    (hnew : ∀ i, i ∈ newfork ↔ i ∈ ref.newfork ∨ (s.action = .fork () ∧ i + 1 = s.threads)) :
    Sends ref.threads.length ref.newfork s newfork := by
  have hlt : ref.current < ref.threads.length := by
    rw [← List.length_map (f := Thread.context)]
    exact h.standing.current_lt
  refine ⟨hright, by omega, hle, hfork, ⟨fun hchild => absurd hchild.1 (hne _), fun hmem => ?_⟩,
    fun i => ?_⟩
  · rw [htid] at hmem
    exact absurd hmem h.standing.current_not_new
  · rw [hnew, htid]
    have hcur : i ∈ ref.newfork → i ≠ ref.current :=
      fun hi heq => h.standing.current_not_new (heq ▸ hi)
    exact ⟨fun hor => hor.imp_left fun hi => ⟨hi, hcur hi⟩, fun hor => hor.imp_left And.left⟩

/-- A context switch gives a new child its `0`, and any other thread `None`. -/
theorem Inv.sends_switch (h : ref.Inv app) {tid : ℕ} {g : Gen V F S}
    (hg : ref.contexts[tid]? = some g) (hl : g.Live)
    (hcur : tid = ref.current → ∃ frame, g = .suspended frame .sched) :
    Sends ref.threads.length ref.newfork ⟨.switch tid, ref.devices, tid, g,
      if tid ∈ ref.newfork then PyVal.ofNat 0 else PyVal.none, ref.threads.length⟩
      (ref.newfork.erase tid) := by
  have hnew : ∀ i, i ∈ ref.newfork.erase tid ↔ (i ∈ ref.newfork ∧ i ≠ tid) ∨
      ((Action.switch tid : Action V F Unit) = .fork () ∧ i + 1 = ref.threads.length) := by
    intro i
    rw [Finset.mem_erase, and_comm]
    exact ⟨Or.inl, fun hor => hor.resolve_right fun hf => nomatch hf.1⟩
  have hlt : tid < ref.threads.length := by
    rw [← List.length_map (f := Thread.context)]
    exact (List.getElem?_eq_some_iff.mp hg).1
  -- the target waits somewhere: it is current at a `sys_sched`, or one of the others
  have hother : (∃ frame, g = .start frame ∧ tid ∉ ref.newfork) ∨
      (∃ frame, g = .suspended frame .sched ∧ tid ∉ ref.newfork) ∨
      ∃ frame, g = .suspended frame .fork ∧ tid ∈ ref.newfork := by
    by_cases heq : tid = ref.current
    · obtain ⟨frame, hframe⟩ := hcur heq
      exact Or.inr (Or.inl ⟨frame, hframe, heq ▸ h.standing.current_not_new⟩)
    · exact h.standing.other tid g heq hg hl
  rcases hother with ⟨frame, rfl, hmem⟩ | ⟨frame, rfl, hmem⟩ | ⟨frame, rfl, hmem⟩
  · rw [if_neg hmem]
    refine ⟨rfl, hlt, le_refl _, nofun, ⟨fun hchild => ?_, fun hm => absurd hm hmem⟩, hnew⟩
    obtain ⟨-, frame', hframe'⟩ := hchild
    cases hframe'
  · rw [if_neg hmem]
    refine ⟨⟨rfl, rfl⟩, hlt, le_refl _, nofun, ⟨fun hchild => ?_, fun hm => absurd hm hmem⟩, hnew⟩
    obtain ⟨-, frame', hframe'⟩ := hchild
    cases hframe'
  · rw [if_pos hmem]
    exact ⟨Or.inl ⟨rfl, rfl⟩, hlt, le_refl _, nofun, ⟨fun _ => hmem, fun _ => ⟨rfl, frame, rfl⟩⟩,
      hnew⟩

omit [PyVal V] [DecidableEq V] in
theorem getElem?_concat_current {th t : Thread V F S} {threads : List (Thread V F S)} {i : ℕ}
    (hi : i < threads.length) (h : (threads ++ [t])[i]? = some th) :
    (threads.map Thread.context)[i]? = some th.context := by
  rw [List.getElem?_append_left hi] at h
  rw [List.getElem?_map, h]
  rfl

/-- **One send** does the right thing. -/
theorem Inv.sends_of (h : ref.Inv app) {choice : Label} {r : Reference V F S H × V}
    {a : Action V F Unit} {th : Thread V F S} (hr : ref.choose app choice = some r)
    (ha : ref.choices.get? choice = some a) (hth : r.1.threads[r.1.current]? = some th) :
    Sends ref.threads.length ref.newfork
      ⟨a, ref.devices, r.1.current, th.context, r.2, r.1.threads.length⟩ r.1.newfork := by
  obtain ⟨context, heap⟩ := th
  obtain ⟨a', g, ha', hg, hfits, hperform⟩ := h.choose_cases app hr
  obtain rfl : a = a' := Option.some.inj (ha.symm.trans ha')
  have hlt : ref.current < ref.threads.length := by
    rw [← List.length_map (f := Thread.context)]
    exact h.standing.current_lt
  -- the generator that gets the value is `g`, unless the callback has switched
  have hsame : ref.contexts[ref.current]? = some context → context = g :=
    fun hc => Option.some.inj (hc.symm.trans hg)
  have hswitch : ∀ {tid : ℕ} {g' : Gen V F S}, ref.threads[tid]? = some ⟨context, heap⟩ →
      ref.contexts[tid]? = some g' → context = g' := by
    intro tid g' hth' hg'
    rw [getElem?_contexts, hth'] at hg'
    exact Option.some.inj hg'
  cases hfits with
  | init frame =>
    obtain rfl := Option.some.inj hperform
    obtain rfl := hsame (by rw [getElem?_contexts, hth]; rfl)
    exact h.sends_current app rfl (fun _ => nofun) rfl (le_refl _) nofun
      fun i => ⟨Or.inl, fun hor => hor.resolve_right fun hf => nomatch hf.1⟩
  | spawn frame func args =>
    obtain ⟨frame', -, hperform⟩ := Option.bind_eq_some_iff.mp hperform
    obtain ⟨th', -, hperform⟩ := Option.bind_eq_some_iff.mp hperform
    obtain rfl := Option.some.inj hperform
    obtain rfl := hsame (getElem?_concat_current hlt hth)
    refine h.sends_current app rfl (fun _ => nofun) ⟨rfl, rfl⟩ ?_ nofun
      fun i => ⟨Or.inl, fun hor => hor.resolve_right fun hf => nomatch hf.1⟩
    show ref.threads.length ≤ (ref.threads ++ [_]).length
    rw [List.length_append]
    exact Nat.le_add_right ..
  | fork frame =>
    obtain ⟨th', h₀, -, -, rfl⟩ := fork_cases hperform
    obtain rfl := hsame (getElem?_concat_current hlt hth)
    have hlen : (ref.threads ++ [(⟨th'.context, ref.heaps.length⟩ : Thread V F S)]).length =
      ref.threads.length + 1 := List.length_append
    have hval : (PyVal.ofNat (1000 + (ref.threads.length + 1)) : V) = PyVal.ofNat (1000 +
        (ref.threads ++ [(⟨th'.context, ref.heaps.length⟩ : Thread V F S)]).length) := by
      rw [hlen]
    refine h.sends_current app rfl (fun _ => nofun) (Or.inr ⟨rfl, hval⟩) ?_
      (fun _ => ⟨hlen, hval⟩) fun i => ?_
    · exact (Nat.le_succ _).trans (le_of_eq hlen.symm)
    · show i ∈ insert ref.threads.length ref.newfork ↔ _ ∨ (_ ∧ i + 1 = (ref.threads ++ [_]).length)
      rw [Finset.mem_insert, hlen, Nat.add_right_cancel_iff, or_comm]
      exact or_congr_right ⟨fun hi => ⟨rfl, hi⟩, And.right⟩
  | sched frame hg' hl =>
    obtain ⟨th', -, rfl⟩ := switchTo_cases hperform
    obtain rfl := hswitch hth hg'
    refine h.sends_switch app hg' hl fun heq => ?_
    subst heq
    exact ⟨frame, hsame hg'⟩
  | finished hg' hl =>
    obtain ⟨th', -, rfl⟩ := switchTo_cases hperform
    obtain rfl := hswitch hth hg'
    refine h.sends_switch app hg' hl fun heq => ?_
    -- a terminated thread is not live, so it is not offered to itself
    subst heq
    exact absurd (hsame hg') hl
  | dev frame hdev =>
    obtain rfl := Option.some.inj hperform
    obtain rfl := hsame (by rw [getElem?_contexts, hth]; rfl)
    exact h.sends_current app rfl (fun _ => nofun) ⟨choice, _, hdev, rfl, rfl⟩
      (le_refl _) nofun fun i => ⟨Or.inl, fun hor => hor.resolve_right fun hf => nomatch hf.1⟩

/-- The sends of every run from a state that satisfies the invariant are a log. -/
theorem Inv.log (trace : List Label) : ∀ {ref : Reference V F S H}, ref.Inv app →
    Log ref.threads.length ref.newfork (sendsFrom app trace ref) := by
  induction trace with
  | nil => exact fun _ => .nil _ _
  | cons choice trace ih =>
    intro ref h
    rw [sendsFrom]
    cases hs : ref.sendOf app choice with
    | none =>
      -- a step that succeeds has sent something
      have hstep : ref.step app choice = none := by
        by_contra hne
        obtain ⟨ref', hstep⟩ := Option.ne_none_iff_exists'.mp hne
        obtain ⟨r₂, hadv, -⟩ := Option.bind_eq_some_iff.mp hstep
        obtain ⟨r, hchoose, hsend⟩ := Option.bind_eq_some_iff.mp hadv
        obtain ⟨a, -, ha, -, -, -⟩ := h.choose_cases app hchoose
        obtain ⟨th, hth, -⟩ := send_cases app hsend
        unfold sendOf at hs
        rw [hchoose, ha] at hs
        replace hs : (r.1.threads[r.1.current]? >>= fun th => some _) = none := hs
        rw [hth] at hs
        cases hs
      rw [hstep]
      exact .nil _ _
    | some s =>
      obtain ⟨r, hr, hs⟩ := Option.bind_eq_some_iff.mp hs
      obtain ⟨a, ha, hs⟩ := Option.bind_eq_some_iff.mp hs
      obtain ⟨th, hth, hs⟩ := Option.bind_eq_some_iff.mp hs
      have hsends := h.sends_of app hr ha hth
      obtain rfl := Option.some.inj hs
      refine .cons hsends ?_
      cases hstep : ref.step app choice with
      | none => exact .nil _ _
      | some ref' =>
        -- thread code forks nothing: the bookkeeping after the step is that after the callback
        have hinv := h.step app hstep
        obtain ⟨r₂, hadv, hr₂⟩ := Option.bind_eq_some_iff.mp hstep
        obtain ⟨r', hchoose, hsend⟩ := Option.bind_eq_some_iff.mp hadv
        obtain rfl : r = r' := Option.some.inj (hr.symm.trans hchoose)
        obtain rfl := Option.some.inj hr₂
        obtain ⟨hnew, hlen⟩ := send_frame app hsend
        show Log r.1.threads.length r.1.newfork _
        rw [← hnew, ← hlen]
        exact ih hinv

end Reference

/-! ### The operating system -/

section

variable {base : ℕ} {ρ : ℕ → ℕ} {w : World H} {os : OperatingSystem V F S}

/-- Related states do the same send. -/
theorem sendOf_eq (h : Sim base ρ w os ref) (choice : Label) :
    os.sendOf app choice w = ref.sendOf app choice := by
  obtain ⟨table, htable, hforget⟩ := Option.map_eq_some_iff.mp h.choices
  have hget : ref.choices.get? choice = (table.get? choice).map Action.forget := by
    rw [← hforget, Dict.get?_map]
  unfold OperatingSystem.sendOf Reference.sendOf
  rw [htable, hget, h.devices]
  obtain ⟨⟨os', res⟩, w', r, hos, href, -, ⟨ρ', hsim⟩, -, hvalue, -⟩ | ⟨w', hos, href, -⟩ :=
    (sim_choose app h choice).cases
  · replace hsim : SimCore base ρ' w' os' r.1 := hsim
    replace hvalue : res = r.2 := hvalue
    have hlen : os'.threads.length = r.1.threads.length := by
      rw [hsim.threads, List.length_map]
    rw [hos, href]
    show (table.get? choice >>= fun action => os'.threads[os'.current]? >>= fun th =>
        some (Send.mk action.forget ref.devices os'.current th.context res os'.threads.length)) =
      ((table.get? choice).map Action.forget >>= fun action => r.1.threads[r.1.current]? >>=
        fun th => some (Send.mk action ref.devices r.1.current th.context r.2 r.1.threads.length))
    rw [hsim.getElem?, hsim.current, hlen, hvalue]
    cases table.get? choice with
    | none => rfl
    | some a =>
      cases r.1.threads[r.1.current]? with
      | none => rfl
      | some th => rfl
  · rw [hos, href]
    rfl

/-- **The sends of the operating system** are those of the reference. -/
theorem sendsFrom_eq (fuel : ℕ) (trace : List Label) : ∀ {w : World H}
    {os : OperatingSystem V F S} {ref : Reference V F S H} {ρ : ℕ → ℕ},
    Sim base ρ w os ref → Reference.run app os.trace = some ref → base ≤ w.heaps.length →
    os.trace.length + trace.length ≤ fuel →
      OperatingSystem.sendsFrom app fuel trace os w = Reference.sendsFrom app trace ref := by
  induction trace with
  | nil => exact fun _ _ _ _ => rfl
  | cons choice trace ih =>
    intro w os ref ρ h href hbase hfuel
    rw [List.length_cons] at hfuel
    obtain ⟨fuel, rfl⟩ : ∃ k, fuel = k + 1 := ⟨fuel - 1, by omega⟩
    -- clones of this step have a trace shorter than `fuel`
    have hstep := sim_step app h (runSim app fuel os.trace (by omega)) href hbase
      (rfl : ([] : List Bool).all (!·) = true) choice
    rw [OperatingSystem.sendsFrom, Reference.sendsFrom, sendOf_eq app h]
    congr 1
    obtain ⟨os', w', ref', hos, hr, hkept, htrace, ρ', hsim⟩ | ⟨w', hos, hr, -⟩ := hstep.cases
    · rw [hos, hr]
      have href' : Reference.run app os'.trace = some ref' := by
        rw [htrace, Reference.run_concat, href]
        exact hr
      refine ih hsim href' (hbase.trans hkept.length_le) ?_
      rw [htrace, List.length_append, List.length_singleton]
      omega
    · rw [hos, hr]

theorem sends_eq (trace : List Label) (k : ℕ) (w : World H) :
    OperatingSystem.sends app (trace.length + k) trace w =
      Reference.sendsFrom app trace (Reference.new app) := by
  obtain ⟨os, w', hnew, hkept, htrace, ρ, hsim⟩ := (sim_new app w).exists_ok
  unfold OperatingSystem.sends
  rw [hnew]
  refine sendsFrom_eq app _ trace hsim (by rw [htrace]; rfl) hkept.length_le ?_
  rw [htrace, List.length_nil]
  omega

end

/-- **System-call results reach the right thread.**  On any trace of choices, in any world:
* in the state that is reached, every live thread but the current one has not started, waits at a
  `sys_sched`, or is a new child at its `sys_fork`, and the current one is not new;
* every `context.send` on the way resumes a live generator with the value that is right for it;
* the child of a fork is resumed only after it, with the `0` of its fork at the first resumption
  and never again, and the parent gets a pid that no other fork returns. -/
theorem sends_right (trace : List Label) (k : ℕ) (w : World H) :
    (∀ os w', OperatingSystem.run app (trace.length + k) [] trace w = (.ok os, w') →
        Standing os.contexts os.current os.newfork) ∧
      (∀ s ∈ OperatingSystem.sends app (trace.length + k) trace w, s.Right) ∧
      ∀ log₁ s log₂,
        OperatingSystem.sends app (trace.length + k) trace w = log₁ ++ s :: log₂ →
        s.action = .fork () → s.value = PyVal.ofNat (1000 + s.threads) ∧
          (∀ s' ∈ log₁, s'.tid ≠ s.threads - 1) ∧
          (∀ s' rest, log₂.filter (fun s' => s'.tid = s.threads - 1) = s' :: rest →
            s'.ToChild ∧ s'.value = PyVal.ofNat 0 ∧ ∀ s'' ∈ rest, ¬ s''.ToChild) ∧
          ∀ s' ∈ log₁ ++ log₂, s'.AtFork → s'.value ≠ s.value := by
  have hlog := (Reference.inv_new app).log app trace
  rw [sends_eq]
  refine ⟨fun os w' hrun => ?_, hlog.right, hlog.fork⟩
  obtain ⟨ref, href, -, -, ρ, hsim⟩ :=
    (runSim app (trace.length + k) trace (Nat.le_add_right ..) [] rfl w).exists_some hrun
  have hsame := hsim.sameState
  rw [hsame.contexts, hsame.current, hsame.newfork]
  exact (Reference.inv_run app trace href).standing

end Jyyos.Mosaic
