import Jyyos.Mosaic.Equiv.Reference

/-!
# Where the threads of a state stand

In every state that the reference reaches, a live thread that is not current has not started, is
suspended at a `sys_sched`, or is a forked child that waits for its `0` (`Standing`); and the
choices are those of the current thread (`Inv`).  A step runs a callback and then the code of one
thread.  The first part has five forms, one for each kind of callback (`choose_cases`), and each
keeps `Standing`; the second part changes the context of the current thread only.
-/

namespace Jyyos.Mosaic

variable {V F S H : Type}

/-- Every live thread but the current one has not started, waits at a `sys_sched`, or is a new
child at its `sys_fork`; the current one is not new. -/
structure Standing (contexts : List (Gen V F S)) (current : ℕ) (newfork : Finset ℕ) : Prop where
  current_lt : current < contexts.length
  current_not_new : current ∉ newfork
  new : ∀ i ∈ newfork, ∃ frame, contexts[i]? = some (.suspended frame .fork)
  other : ∀ i g, i ≠ current → contexts[i]? = some g → g.Live →
    (∃ frame, g = .start frame ∧ i ∉ newfork) ∨
      (∃ frame, g = .suspended frame .sched ∧ i ∉ newfork) ∨
      ∃ frame, g = .suspended frame .fork ∧ i ∈ newfork

namespace Standing

variable {contexts : List (Gen V F S)} {current : ℕ} {newfork : Finset ℕ}

theorem lt_of_new (h : Standing contexts current newfork) {i : ℕ} (hi : i ∈ newfork) :
    i < contexts.length := by
  obtain ⟨frame, hframe⟩ := h.new i hi
  exact (List.getElem?_eq_some_iff.mp hframe).1

/-- A spawned thread has not started. -/
theorem spawn (h : Standing contexts current newfork) (frame : S) :
    Standing (contexts ++ [.start frame]) current newfork := by
  have hlen : (contexts ++ [Gen.start frame]).length = contexts.length + 1 := List.length_append
  refine ⟨?_, h.current_not_new, fun i hi => ?_, fun i g hne hg hl => ?_⟩
  · rw [hlen]
    exact Nat.lt_succ_of_lt h.current_lt
  · rw [List.getElem?_append_left (h.lt_of_new hi)]
    exact h.new i hi
  · have hi : i < contexts.length + 1 := hlen ▸ (List.getElem?_eq_some_iff.mp hg).1
    rcases Nat.lt_succ_iff_lt_or_eq.mp hi with hlt | rfl
    · rw [List.getElem?_append_left hlt] at hg
      exact h.other i g hne hg hl
    · rw [List.getElem?_concat_length] at hg
      exact Or.inl ⟨frame, (Option.some.inj hg).symm,
        fun hmem => absurd (h.lt_of_new hmem) (lt_irrefl _)⟩

/-- A forked child is new. -/
theorem fork (h : Standing contexts current newfork) (frame : S) :
    Standing (contexts ++ [.suspended frame .fork]) current
      (insert contexts.length newfork) := by
  have hlen : (contexts ++ [Gen.suspended (F := F) (V := V) frame .fork]).length =
    contexts.length + 1 := List.length_append
  have hcur := h.current_lt
  refine ⟨?_, ?_, fun i hi => ?_, fun i g hne hg hl => ?_⟩
  · rw [hlen]
    omega
  · rw [Finset.mem_insert]
    rintro (heq | hmem)
    · omega
    · exact h.current_not_new hmem
  · rcases Finset.mem_insert.mp hi with rfl | hi
    · exact ⟨frame, List.getElem?_concat_length⟩
    · rw [List.getElem?_append_left (h.lt_of_new hi)]
      exact h.new i hi
  · have hi : i < contexts.length + 1 := hlen ▸ (List.getElem?_eq_some_iff.mp hg).1
    rcases Nat.lt_succ_iff_lt_or_eq.mp hi with hlt | rfl
    · rw [List.getElem?_append_left hlt] at hg
      have hmem : i ∈ insert contexts.length newfork ↔ i ∈ newfork := by
        rw [Finset.mem_insert]
        exact ⟨fun hor => hor.resolve_left (Nat.ne_of_lt hlt), Or.inr⟩
      rw [hmem]
      exact h.other i g hne hg hl
    · rw [List.getElem?_concat_length] at hg
      exact Or.inr (Or.inr ⟨frame, (Option.some.inj hg).symm, Finset.mem_insert_self ..⟩)

/-- The thread that a switch leaves is at a `sys_sched`, or has terminated. -/
theorem switch (h : Standing contexts current newfork) {g₀ : Gen V F S}
    (hg₀ : contexts[current]? = some g₀) (hs : g₀ = .finished ∨ ∃ f, g₀ = .suspended f .sched)
    {tid : ℕ} (htid : tid < contexts.length) :
    Standing contexts tid (newfork.erase tid) := by
  refine ⟨htid, Finset.notMem_erase tid newfork, fun i hi => h.new i (Finset.mem_of_mem_erase hi),
    fun i g hne hg hl => ?_⟩
  rw [Finset.mem_erase]
  -- the thread that is left becomes one of the others
  by_cases hi : i = current
  · subst hi
    obtain rfl := Option.some.inj (hg₀.symm.trans hg)
    rcases hs with rfl | ⟨f, rfl⟩
    · exact absurd rfl hl
    · exact Or.inr (Or.inl ⟨f, rfl, fun hmem => h.current_not_new hmem.2⟩)
  · rcases h.other i g hi hg hl with ⟨f, hf, hmem⟩ | ⟨f, hf, hmem⟩ | ⟨f, hf, hmem⟩
    · exact Or.inl ⟨f, hf, fun hmem' => hmem hmem'.2⟩
    · exact Or.inr (Or.inl ⟨f, hf, fun hmem' => hmem hmem'.2⟩)
    · exact Or.inr (Or.inr ⟨f, hf, hne, hmem⟩)

/-- Thread code changes its own context only. -/
theorem set (h : Standing contexts current newfork) (g₀ : Gen V F S) :
    Standing (contexts.set current g₀) current newfork := by
  refine ⟨?_, h.current_not_new, fun i hi => ?_, fun i g hne hg hl => ?_⟩
  · rw [List.length_set]
    exact h.current_lt
  · have hne : current ≠ i := fun heq => h.current_not_new (heq ▸ hi)
    rw [List.getElem?_set_ne hne]
    exact h.new i hi
  · rw [List.getElem?_set_ne (Ne.symm hne)] at hg
    exact h.other i g hne hg hl

end Standing

variable [PyVal V] [DecidableEq V] (app : App V F S H) {ref : Reference V F S H}

namespace Reference

/-- The choices are those of the current thread. -/
def Offers (ref : Reference V F S H) : Prop :=
  match ref.contexts[ref.current]? with
  | some (.start _) => ref.choices = initChoices app.initName
  | some (.suspended _ call) => ref.choices = ref.syscall (some call)
  | some .finished => ref.choices = ref.syscall none
  | none => False

/-- The invariant of the reachable states. -/
structure Inv (ref : Reference V F S H) : Prop where
  standing : Standing ref.contexts ref.current ref.newfork
  offers : ref.Offers app

omit [DecidableEq V] in
theorem inv_new : (new app).Inv app := by
  refine ⟨⟨Nat.zero_lt_one, Finset.notMem_empty 0, fun i hi => ?_, fun i g hi hg _ => ?_⟩, rfl⟩
  · exact absurd hi (Finset.notMem_empty i)
  · have hlt : i < 1 := (List.getElem?_eq_some_iff.mp hg).1
    exact absurd (Nat.lt_one_iff.mp hlt) hi

/-! ### The offered callbacks -/

omit [PyVal V] [DecidableEq V] in
/-- The context switches of `sys_sched` go to live threads. -/
theorem sysSched_cases {C : Type} {contexts : List (Gen V F S)} {l : Label} {a : Action V F C}
    (h : (sysSched contexts).get? l = some a) :
    ∃ tid g, contexts[tid]? = some g ∧ g.Live ∧ a = .switch tid := by
  obtain ⟨⟨g, tid⟩, hmem, heq⟩ := List.mem_map.mp (Dict.mem_of_get?_ofList h)
  obtain ⟨hmem, hlive⟩ := List.mem_filter.mp hmem
  refine ⟨tid, g, ?_, of_decide_eq_true hlive, (Prod.mk.inj heq).2.symm⟩
  have := List.mem_zipIdx_iff_getElem?.mp hmem
  exact this

/-- The callback of a choice fits the context of the current thread. -/
inductive Fits (ref : Reference V F S H) (choice : Label) :
    Gen V F S → Action V F Unit → Prop
  | init (frame : S) : Fits ref choice (.start frame) .init
  | spawn (frame : S) (func : F) (args : List V) :
    Fits ref choice (.suspended frame (.spawn func args)) (.spawn func args)
  | fork (frame : S) : Fits ref choice (.suspended frame .fork) (.fork ())
  | sched (frame : S) {tid : ℕ} {g : Gen V F S} (hg : ref.contexts[tid]? = some g) (hl : g.Live) :
    Fits ref choice (.suspended frame .sched) (.switch tid)
  | finished {tid : ℕ} {g : Gen V F S} (hg : ref.contexts[tid]? = some g) (hl : g.Live) :
    Fits ref choice .finished (.switch tid)
  | dev (frame : S) {c : DevCall V} {a : DevAction V}
    (ha : (c.table ref.devices).get? choice = some a) :
    Fits ref choice (.suspended frame (.dev c)) (.dev a)

omit [DecidableEq V] in
theorem Inv.fits (h : ref.Inv app) {choice : Label} {a : Action V F Unit}
    (ha : ref.choices.get? choice = some a) :
    ∃ g, ref.contexts[ref.current]? = some g ∧ Fits ref choice g a := by
  have hoff := h.offers
  obtain ⟨g, hg⟩ : ∃ g, ref.contexts[ref.current]? = some g :=
    ⟨_, List.getElem?_eq_getElem h.standing.current_lt⟩
  refine ⟨g, hg, ?_⟩
  unfold Offers at hoff
  rw [hg] at hoff
  -- the choices are known from the context, so it decides which callbacks there are
  cases g with
  | start frame =>
    replace hoff : ref.choices = initChoices app.initName := hoff
    rw [hoff] at ha
    cases Dict.eq_of_get?_singleton ha
    exact .init frame
  | finished =>
    replace hoff : ref.choices = sysSched ref.contexts := hoff
    rw [hoff] at ha
    obtain ⟨tid, g, hg', hl, rfl⟩ := sysSched_cases ha
    exact .finished hg' hl
  | suspended frame call =>
    replace hoff : ref.choices = ref.syscall (some call) := hoff
    rw [hoff] at ha
    cases call with
    | spawn func args =>
      cases Dict.eq_of_get?_singleton ha
      exact .spawn frame func args
    | fork =>
      cases Dict.eq_of_get?_singleton ha
      exact .fork frame
    | sched =>
      obtain ⟨tid, g, hg', hl, rfl⟩ := sysSched_cases ha
      exact .sched frame hg' hl
    | dev c =>
      have ha' : ((c.table ref.devices).map Action.dev).get? choice = some a := ha
      rw [Dict.get?_map] at ha'
      obtain ⟨a', hget, rfl⟩ := Option.map_eq_some_iff.mp ha'
      exact .dev frame hget

/-! ### Steps and runs -/

/-- Since the current thread is not new, a step starts by doing nothing. -/
theorem Inv.choose_eq (h : ref.Inv app) (choice : Label) :
    ref.choose app choice = ref.choices.get? choice >>= ref.perform app := by
  obtain ⟨th, hth⟩ : ∃ th, ref.threads[ref.current]? = some th := by
    have hlt := h.standing.current_lt
    rw [contexts, List.length_map] at hlt
    exact ⟨_, List.getElem?_eq_getElem hlt⟩
  unfold choose
  rw [ref.switchTo_of_some hth, Finset.erase_eq_of_notMem h.standing.current_not_new]
  rfl

/-- What a step does before the `send`. -/
theorem Inv.choose_cases (h : ref.Inv app) {choice : Label} {r : Reference V F S H × V}
    (hr : ref.choose app choice = some r) :
    ∃ a g, ref.choices.get? choice = some a ∧ ref.contexts[ref.current]? = some g ∧
      Fits ref choice g a ∧ ref.perform app a = some r := by
  rw [h.choose_eq] at hr
  obtain ⟨a, ha, hr⟩ := Option.bind_eq_some_iff.mp hr
  obtain ⟨g, hg, hfits⟩ := h.fits app ha
  exact ⟨a, g, ha, hg, hfits, hr⟩

omit [PyVal V] [DecidableEq V] in
theorem getElem?_contexts (i : ℕ) :
    ref.contexts[i]? = (ref.threads[i]?).map Thread.context := List.getElem?_map

/-- The callbacks keep the threads in order. -/
theorem Inv.standing_perform (h : ref.Inv app) {choice : Label} {a : Action V F Unit}
    {g : Gen V F S} (hg : ref.contexts[ref.current]? = some g) (hfits : Fits ref choice g a)
    {r : Reference V F S H × V} (hr : ref.perform app a = some r) :
    Standing r.1.contexts r.1.current r.1.newfork := by
  cases hfits with
  | init frame =>
    obtain rfl := Option.some.inj hr
    exact h.standing
  | spawn frame func args =>
    obtain ⟨frame', -, hr⟩ := Option.bind_eq_some_iff.mp hr
    obtain ⟨th, -, hr⟩ := Option.bind_eq_some_iff.mp hr
    obtain rfl := Option.some.inj hr
    have hctx : (ref.threads ++ [(⟨.start frame', th.heap⟩ : Thread V F S)]).map Thread.context =
        ref.contexts ++ [.start frame'] := List.map_append
    show Standing ((ref.threads ++ [_]).map _) _ _
    rw [hctx]
    exact h.standing.spawn frame'
  | fork frame =>
    obtain ⟨th, h₀, hth, -, rfl⟩ := fork_cases hr
    rw [getElem?_contexts, hth] at hg
    have hth' : th.context = .suspended frame .fork := Option.some.inj hg
    have hlen : ref.threads.length = ref.contexts.length := (List.length_map _).symm
    have hctx : (ref.threads ++ [(⟨th.context, ref.heaps.length⟩ : Thread V F S)]).map
        Thread.context = ref.contexts ++ [.suspended frame .fork] := by
      rw [List.map_append, List.map_singleton, hth']
      rfl
    show Standing ((ref.threads ++ [_]).map _) _ (insert ref.threads.length ref.newfork)
    rw [hctx, hlen]
    exact h.standing.fork frame
  -- a switch is offered at a `sys_sched` and by a thread that has terminated
  | sched frame hg' hl =>
    obtain ⟨th, -, rfl⟩ := switchTo_cases hr
    exact h.standing.switch hg (Or.inr ⟨frame, rfl⟩) (List.getElem?_eq_some_iff.mp hg').1
  | finished hg' hl =>
    obtain ⟨th, -, rfl⟩ := switchTo_cases hr
    exact h.standing.switch hg (Or.inl rfl) (List.getElem?_eq_some_iff.mp hg').1
  | dev frame ha =>
    obtain rfl := Option.some.inj hr
    exact h.standing

/-- The new state after a `send`, with the choices of what the thread has reached. -/
theorem inv_send (h : Standing ref.contexts ref.current ref.newfork) {res : V}
    {r : Reference V F S H × Option (Syscall V F)} (hr : ref.send app res = some r) :
    Inv app { r.1 with choices := r.1.syscall r.2 } := by
  obtain ⟨th, hth, hcases⟩ := send_cases app hr
  have hlt : ref.current < ref.contexts.length := h.current_lt
  -- thread code replaces the context of the current thread, and then its call is looked up
  have hset : ∀ g h', (ref.setContext th g h').contexts = ref.contexts.set ref.current g :=
    fun g h' => List.map_set
  have hget : ∀ g h', (ref.setContext th g h').contexts[ref.current]? = some g := by
    intro g h'
    rw [hset, List.getElem?_set_self hlt]
  rcases hcases with ⟨hfin, rfl⟩ | ⟨frame, h₀, -, -, ⟨frame', call, h', -, rfl⟩ | ⟨h', -, rfl⟩⟩
  · refine ⟨h, ?_⟩
    have hcur : ref.contexts[ref.current]? = some .finished := by
      rw [getElem?_contexts, hth, ← hfin]
      rfl
    show match ref.contexts[ref.current]? with
      | some (.start _) => _
      | some (.suspended _ call) => _
      | some .finished => _
      | none => _
    rw [hcur]
    rfl
  · refine ⟨?_, ?_⟩
    · show Standing (ref.setContext th _ h').contexts ref.current ref.newfork
      rw [hset]
      exact h.set _
    · show match (ref.setContext th (.suspended frame' call) h').contexts[ref.current]? with
        | some (.start _) => _
        | some (.suspended _ call) => _
        | some .finished => _
        | none => _
      rw [hget]
      rfl
  · refine ⟨?_, ?_⟩
    · show Standing (ref.setContext th _ h').contexts ref.current ref.newfork
      rw [hset]
      exact h.set _
    · show match (ref.setContext th .finished h').contexts[ref.current]? with
        | some (.start _) => _
        | some (.suspended _ call) => _
        | some .finished => _
        | none => _
      rw [hget]
      rfl

/-- **One step** keeps the invariant. -/
theorem Inv.step (h : ref.Inv app) {choice : Label} {ref' : Reference V F S H}
    (hstep : ref.step app choice = some ref') : ref'.Inv app := by
  obtain ⟨r, hadv, hr⟩ := Option.bind_eq_some_iff.mp hstep
  obtain ⟨r₁, hchoose, hsend⟩ := Option.bind_eq_some_iff.mp hadv
  obtain ⟨a, g, -, hg, hfits, hperform⟩ := h.choose_cases app hchoose
  obtain rfl := Option.some.inj hr
  exact inv_send app (h.standing_perform app hg hfits hperform) hsend

/-- **Every reachable state** satisfies the invariant. -/
theorem inv_run (trace : List Label) : ∀ {ref : Reference V F S H},
    Reference.run app trace = some ref → ref.Inv app := by
  induction trace using List.reverseRecOn with
  | nil =>
    intro ref h
    obtain rfl := Option.some.inj h
    exact inv_new app
  | append_singleton trace choice ih =>
    intro ref h
    rw [run_concat] at h
    obtain ⟨ref₀, h₀, hstep⟩ := Option.bind_eq_some_iff.mp h
    exact (ih h₀).step app hstep

end Reference

end Jyyos.Mosaic
