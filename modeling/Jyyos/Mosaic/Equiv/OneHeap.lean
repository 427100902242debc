import Jyyos.Mosaic.Equiv.Threads

/-!
# Applications on one heap

An application whose threads make no `sys_fork` keeps the one heap that it starts with.  Its states
are then given by the contexts of the threads, the current thread and the contents of the heap
(`OneHeap`), and a step has two parts: a choice selects the thread that runs next and the value
that is sent to it (`Selects`), and the code of this thread runs to its next system call
(`Outcome.ends`).  Here this is worked out for threads that spawn, yield and choose, for any
application; what thread code does is left to the caller (`OneHeap.step`).
-/

namespace Jyyos.Mosaic

variable {V F S H : Type}

/-- What a piece of thread code leaves behind: its context and the heap. -/
def Outcome.ends : Outcome V F S H → Option (Gen V F S × H)
  | .yields frame call h => some (.suspended frame call, h)
  | .returns h => some (.finished, h)
  | .raises => none

/-- The state, when all threads are on one heap. -/
structure OneHeap (ref : Reference V F S H) (contexts : List (Gen V F S)) (current : ℕ) (h : H) :
    Prop where
  contexts : ref.contexts = contexts
  current : ref.current = current
  heaps : ref.heaps = [h]
  shared : ∀ th ∈ ref.threads, th.heap = 0
  newfork : ref.newfork = ∅

/-- The label of a value in the table of `sys_choose`. -/
def chooseLabel [PyVal V] (v : V) : Label :=
  .text (['c', 'h', 'o', 'o', 's', 'e', ' '] ++ PyVal.str v)

/-- The system calls that are covered: `sys_spawn` of a function that can be called, `sys_sched`
and `sys_choose`. -/
inductive Plain (app : App V F S H) : Syscall V F → Prop
  | spawn {func : F} {args : List V} (frame : S) (hcall : app.call func args = some frame) :
    Plain app (.spawn func args)
  | sched : Plain app .sched
  | choose (vs : List V) : Plain app (.dev (.choose vs))

/-- The current thread lets other threads run: its system call, if it is at one, is a
`sys_sched`. -/
def Yields (contexts : List (Gen V F S)) (current : ℕ) : Prop :=
  ∀ frame call, contexts[current]? = some (.suspended frame call) → call = .sched

variable [PyVal V]

/-- A choice selects the thread that runs next and the value that it gets; a `sys_spawn` adds a
thread before. -/
inductive Selects (app : App V F S H) (contexts : List (Gen V F S)) (current : ℕ)
    (choice : Label) : List (Gen V F S) → ℕ → V → Prop
  | spawn {frame frame' : S} {func : F} {args : List V}
    (hg : contexts[current]? = some (.suspended frame (.spawn func args)))
    (hcall : app.call func args = some frame') :
    Selects app contexts current choice (contexts ++ [.start frame']) current PyVal.none
  | start {tid : ℕ} {frame : S} (hcur : Yields contexts current)
    (hg : contexts[tid]? = some (.start frame)) :
    Selects app contexts current choice contexts tid PyVal.none
  | sched {tid : ℕ} {frame : S} (hcur : Yields contexts current)
    (hg : contexts[tid]? = some (.suspended frame .sched)) :
    Selects app contexts current choice contexts tid PyVal.none
  | choose {frame : S} {vs : List V} {v : V}
    (hg : contexts[current]? = some (.suspended frame (.dev (.choose vs)))) (hv : v ∈ vs)
    (hchoice : choice = chooseLabel v) :
    Selects app contexts current choice contexts current v

namespace OneHeap

variable {app : App V F S H} {ref : Reference V F S H} {contexts : List (Gen V F S)} {current : ℕ}
  {h : H}

omit [PyVal V] in
theorem thread (hone : OneHeap ref contexts current h) {i : ℕ} {g : Gen V F S}
    (hg : contexts[i]? = some g) : ref.threads[i]? = some ⟨g, 0⟩ := by
  rw [← hone.contexts, Reference.getElem?_contexts] at hg
  obtain ⟨th, hth, rfl⟩ := Option.map_eq_some_iff.mp hg
  rw [hth, ← hone.shared th (List.mem_of_getElem? hth)]

/-- A switch goes to a thread that has not started or waits at a `sys_sched`. -/
theorem selects_switch (hone : OneHeap ref contexts current h) (hinv : ref.Inv app)
    (choice : Label) {g₀ : Gen V F S} (hg₀ : contexts[current]? = some g₀)
    (hs : g₀ = .finished ∨ ∃ frame, g₀ = .suspended frame .sched) {tid : ℕ} {g : Gen V F S}
    (hg : contexts[tid]? = some g) (hl : g.Live) :
    Selects app contexts current choice contexts tid PyVal.none := by
  have hcur : Yields contexts current := by
    intro frame call heq
    rw [hg₀] at heq
    rcases hs with rfl | ⟨frame', rfl⟩ <;> cases heq
    rfl
  by_cases htid : tid = current
  · subst htid
    obtain rfl := Option.some.inj (hg₀.symm.trans hg)
    rcases hs with rfl | ⟨frame, rfl⟩
    · exact absurd rfl hl
    · exact .sched hcur hg
  · have hstanding := hinv.standing.other tid g
    rw [hone.contexts, hone.current, hone.newfork] at hstanding
    rcases hstanding htid hg hl with ⟨frame, rfl, -⟩ | ⟨frame, rfl, -⟩ | ⟨frame, -, hmem⟩
    · exact .start hcur hg
    · exact .sched hcur hg
    · exact absurd hmem (Finset.notMem_empty tid)

omit [PyVal V] in
/-- A spawned thread is on the same heap. -/
theorem spawn (hone : OneHeap ref contexts current h) (frame : S) :
    OneHeap { ref with threads := ref.threads ++ [⟨.start frame, 0⟩] }
      (contexts ++ [.start frame]) current h := by
  refine ⟨?_, hone.current, hone.heaps, fun th hmem => ?_, hone.newfork⟩
  · show (ref.threads ++ [_]).map _ = _
    rw [List.map_append, ← hone.contexts]
    rfl
  · rcases List.mem_append.mp hmem with hmem | hmem
    · exact hone.shared th hmem
    · rw [List.mem_singleton.mp hmem]

omit [PyVal V] in
/-- Thread code replaces its context and the contents of the heap. -/
theorem setContext (hone : OneHeap ref contexts current h) (g g' : Gen V F S) (h' : H)
    (choices : Choices V F Unit) :
    OneHeap { ref.setContext ⟨g, 0⟩ g' h' with choices := choices } (contexts.set current g')
      current h' := by
  refine ⟨?_, hone.current, ?_, fun th hmem => ?_, hone.newfork⟩
  · show (ref.threads.set ref.current _).map _ = _
    rw [List.map_set, ← hone.contexts, hone.current]
    rfl
  · show ref.heaps.set 0 h' = _
    rw [hone.heaps]
    rfl
  · rcases List.mem_or_eq_of_mem_set hmem with hmem | rfl
    · exact hone.shared th hmem
    · rfl

/-- Making another thread current. -/
theorem switchTo (hone : OneHeap ref contexts current h) {tid : ℕ} {g : Gen V F S}
    (hg : contexts[tid]? = some g) :
    ∃ ref', ref.switchTo tid = some (ref', PyVal.none) ∧ OneHeap ref' contexts tid h := by
  have hmem : tid ∉ ref.newfork := by
    rw [hone.newfork]
    exact Finset.notMem_empty tid
  refine ⟨_, by rw [ref.switchTo_of_some (hone.thread hg), if_neg hmem], ?_⟩
  refine ⟨hone.contexts, rfl, hone.heaps, hone.shared, ?_⟩
  show ref.newfork.erase tid = ∅
  rw [hone.newfork, Finset.erase_empty]

variable [DecidableEq V]

/-- The first part of a step: every offered choice selects a thread. -/
theorem choose (hone : OneHeap ref contexts current h) (hinv : ref.Inv app)
    (hplain : ∀ frame call, contexts[current]? = some (.suspended frame call) → Plain app call)
    {choice : Label} {a : Action V F Unit} (ha : ref.choices.get? choice = some a) :
    ∃ ref' v contexts' current', ref.choose app choice = some (ref', v) ∧
      Selects app contexts current choice contexts' current' v ∧
      OneHeap ref' contexts' current' h := by
  obtain ⟨g, hg, hfits⟩ := hinv.fits app ha
  rw [hone.contexts, hone.current] at hg
  have hchoose : ref.choose app choice = ref.perform app a := by
    rw [hinv.choose_eq, ha]
    rfl
  simp only [hchoose]
  cases hfits with
  | init frame =>
    refine ⟨ref, _, _, _, rfl, .start (fun frame' call heq => ?_) hg, hone⟩
    cases hg.symm.trans heq
  | spawn frame func args =>
    cases hplain frame _ hg with
    | spawn frame' hcall =>
      refine ⟨_, _, _, _, ?_, .spawn hg hcall, hone.spawn frame'⟩
      show (app.call func args >>= _) = _
      rw [hcall]
      show (ref.threads[ref.current]? >>= _) = _
      rw [hone.current, hone.thread hg]
      rfl
  | fork frame => cases hplain frame _ hg
  | sched frame hg' hl =>
    rw [hone.contexts] at hg'
    obtain ⟨ref', hswitch, hone'⟩ := hone.switchTo hg'
    exact ⟨ref', _, _, _, hswitch,
      hone.selects_switch hinv choice hg (Or.inr ⟨frame, rfl⟩) hg' hl, hone'⟩
  | finished hg' hl =>
    rw [hone.contexts] at hg'
    obtain ⟨ref', hswitch, hone'⟩ := hone.switchTo hg'
    exact ⟨ref', _, _, _, hswitch, hone.selects_switch hinv choice hg (Or.inl rfl) hg' hl, hone'⟩
  | dev frame hget =>
    cases hplain frame _ hg with
    | choose vs =>
      obtain ⟨v, hv, heq⟩ := List.mem_map.mp (Dict.mem_of_get?_ofList hget)
      obtain ⟨rfl, rfl⟩ := Prod.mk.inj heq
      exact ⟨ref, v, _, _, rfl, .choose hg hv rfl, hone⟩

/-- The second part: the code of the selected thread runs on the heap. -/
theorem send (hone : OneHeap ref contexts current h) {g g' : Gen V F S} {frame : S} {v : V}
    {h' : H} (hg : contexts[current]? = some g) (hframe : g.frame? = some frame)
    (hstart : ∀ frame, g = .start frame → v = PyVal.none)
    (hends : (app.resume frame v h).ends = some (g', h')) :
    ∃ r, ref.send app v = some r ∧ ∀ choices,
      OneHeap { r.1 with choices := choices } (contexts.set current g') current h' := by
  have hth := hone.thread hg
  have hresume : ref.send app v = ref.resume app ⟨g, 0⟩ frame v := by
    unfold Reference.send
    rw [hone.current, hth]
    cases g with
    | finished => cases hframe
    | start frame' =>
      obtain rfl := Option.some.inj hframe
      exact if_pos (hstart frame' rfl)
    | suspended frame' call =>
      obtain rfl := Option.some.inj hframe
      rfl
  rw [hresume]
  unfold Reference.resume
  rw [hone.heaps]
  show ∃ r, (match app.resume frame v h with
    | .yields frame call h' => some (ref.setContext ⟨g, 0⟩ (.suspended frame call) h', some call)
    | .returns h' => some (ref.setContext ⟨g, 0⟩ .finished h', none)
    | .raises => none) = some r ∧ _
  cases hout : app.resume frame v h with
  | yields frame' call h₁ =>
    rw [hout] at hends
    obtain ⟨rfl, rfl⟩ := Prod.mk.inj (Option.some.inj hends)
    exact ⟨_, rfl, hone.setContext g _ _⟩
  | returns h₁ =>
    rw [hout] at hends
    obtain ⟨rfl, rfl⟩ := Prod.mk.inj (Option.some.inj hends)
    exact ⟨_, rfl, hone.setContext g _ _⟩
  | raises =>
    rw [hout] at hends
    cases hends

/-- **One step**: the selected thread runs.  The caller says what its code does. -/
theorem step (hone : OneHeap ref contexts current h) (hinv : ref.Inv app)
    (hplain : ∀ frame call, contexts[current]? = some (.suspended frame call) → Plain app call)
    {choice : Label} {a : Action V F Unit} (ha : ref.choices.get? choice = some a)
    {P : List (Gen V F S) → ℕ → H → Prop}
    (hcode : ∀ contexts' current' v, Selects app contexts current choice contexts' current' v →
      ∃ g frame g' h', contexts'[current']? = some g ∧ g.frame? = some frame ∧
        (app.resume frame v h).ends = some (g', h') ∧ P (contexts'.set current' g') current' h') :
    ∃ ref' contexts' current' h', ref.step app choice = some ref' ∧
      OneHeap ref' contexts' current' h' ∧ P contexts' current' h' := by
  obtain ⟨ref₁, v, contexts₁, current₁, hchoose, hsel, hone₁⟩ := hone.choose hinv hplain ha
  obtain ⟨g, frame, g', h', hg, hframe, hends, hP⟩ := hcode contexts₁ current₁ v hsel
  have hstart : ∀ frame, g = .start frame → v = PyVal.none := by
    rintro frame rfl
    cases hsel with
    | choose hg' => cases hg'.symm.trans hg
    | _ => rfl
  obtain ⟨r, hsend, hone'⟩ := hone₁.send hg hframe hstart hends
  refine ⟨{ r.1 with choices := r.1.syscall r.2 }, _, _, h', ?_, hone' _, hP⟩
  unfold Reference.step Reference.advance
  rw [hchoose]
  show (ref₁.send app v >>= _) = _
  rw [hsend]
  rfl

end OneHeap

end Jyyos.Mosaic
