import Jyyos.Algorithm.Machine
import Jyyos.Algorithm.Runs
import Jyyos.Mosaic.Equiv.Fork
import Jyyos.Mosaic.Equiv.OneHeap

/-!
# Programs that only use the devices

An application whose `main` makes nothing but device calls is a sequential program: its state is a
generator, a heap and the devices, and a choice is a callback of the system call at which the
generator stands (`Solo.step`).  The operating system runs it as this says (`Solo.of_run`,
`Solo.exists_run`), so that what such a program does can be worked out without threads.

Most states have one choice only, and a run that is to return has to take it
(`Solo.exists_run_iff_of_reaches`); the crash is where runs part (`Solo.exists_run_iff_of_crash`).
-/

namespace Jyyos.Mosaic

/-- The state of a program that only uses the devices. -/
structure Solo (V F S H : Type) where
  context : Gen V F S
  heap : H
  devices : Devices V

variable {V F S H : Type} [PyVal V] [DecidableEq V] (app : App V F S H)

namespace Solo

/-- The state in which the program begins. -/
def init : Solo V F S H := ⟨.start app.init, app.emptyHeap, .init⟩

/-- The code runs up to the next system call. -/
def resume (frame : S) (v : V) (h : H) (d : Devices V) : Option (Solo V F S H) :=
  (app.resume frame v h).ends.map fun r => ⟨r.1, r.2, d⟩

/-- One step. -/
def step (s : Solo V F S H) (choice : Label) : Option (Solo V F S H) :=
  match s.context with
  | .start frame =>
    if choice = .text app.initName then resume app frame PyVal.none s.heap s.devices else none
  | .suspended frame (.dev c) => do
    let a ← (c.table s.devices).get? choice
    resume app frame (a.run s.devices).2 s.heap (a.run s.devices).1
  | _ => none

/-- The state after a trace of choices. -/
def run (trace : List Label) : Option (Solo V F S H) := trace.foldlM (step app) (init app)

end Solo

/-- The program makes nothing but device calls. -/
def App.Sequential : Prop :=
  ∀ frame v h frame' call h', app.resume frame v h = .yields frame' call h' → ∃ c, call = .dev c

namespace Solo

variable {app} {ref : Reference V F S H} {s : Solo V F S H}

/-- The state of the reference with one thread. -/
structure Shows (ref : Reference V F S H) (s : Solo V F S H) : Prop where
  oneHeap : OneHeap ref [s.context] 0 s.heap
  devices : ref.devices = s.devices
  device : ∀ frame call, s.context = .suspended frame call → ∃ c, call = .dev c

omit [PyVal V] [DecidableEq V] in
theorem Shows.context (h : Shows ref s) : ref.contexts[ref.current]? = some s.context := by
  rw [h.oneHeap.contexts, h.oneHeap.current]
  rfl

/-- The second part of a step. -/
theorem Shows.send (hseq : app.Sequential) (h : Shows ref s) {frame : S} {v : V}
    (hframe : s.context.frame? = some frame)
    (hstart : ∀ frame, s.context = .start frame → v = PyVal.none) (d : Devices V) :
    Option.Rel (fun r s' => ∀ choices, Shows { r.1 with choices := choices } s')
      ({ ref with devices := d }.send app v) (resume app frame v s.heap d) := by
  have hone : OneHeap { ref with devices := d } [s.context] 0 s.heap :=
    ⟨h.oneHeap.contexts, h.oneHeap.current, h.oneHeap.heaps, h.oneHeap.shared, h.oneHeap.newfork⟩
  have hthread : ref.threads[ref.current]? = some ⟨s.context, 0⟩ := by
    rw [h.oneHeap.current]
    exact hone.thread rfl
  have hheap : ref.heaps[0]? = some s.heap := by
    rw [h.oneHeap.heaps]
    rfl
  have hcases : ∀ {r}, { ref with devices := d }.send app v = some r →
      r.1.devices = d ∧ (app.resume frame v s.heap).ends ≠ none := by
    intro r hr
    obtain ⟨th, hth, hcases⟩ := Reference.send_cases app hr
    obtain rfl := Option.some.inj (hthread.symm.trans hth)
    rcases hcases with ⟨hfin, -⟩ | ⟨frame', h₀, hframe', hh₀, hout⟩
    · have hfin' : s.context = .finished := hfin
      rw [hfin'] at hframe
      cases hframe
    · obtain rfl := Option.some.inj (hframe.symm.trans hframe')
      obtain rfl := Option.some.inj (hheap.symm.trans hh₀)
      rcases hout with ⟨frame₁, call, h', hout, rfl⟩ | ⟨h', hout, rfl⟩
      · rw [hout]
        exact ⟨rfl, Option.some_ne_none _⟩
      · rw [hout]
        exact ⟨rfl, Option.some_ne_none _⟩
  unfold resume
  cases hends : (app.resume frame v s.heap).ends with
  | none =>
    cases hsend : { ref with devices := d }.send app v with
    | none => exact .none
    | some r => exact absurd hends (hcases hsend).2
  | some r' =>
    obtain ⟨g', h'⟩ := r'
    obtain ⟨r, hsend, hone'⟩ := hone.send rfl hframe hstart hends
    rw [hsend]
    refine .some fun choices => ⟨hone' choices, (hcases hsend).1, fun frame' call hcall => ?_⟩
    -- the call it has reached is one that the code yields
    cases hout : app.resume frame v s.heap with
    | yields frame₁ call₁ h₁ =>
      rw [hout] at hends
      obtain ⟨rfl, -⟩ := Prod.mk.inj (Option.some.inj hends)
      obtain ⟨-, rfl⟩ := Gen.suspended.inj hcall
      exact hseq _ _ _ _ _ _ hout
    | returns h₁ =>
      rw [hout] at hends
      obtain ⟨rfl, -⟩ := Prod.mk.inj (Option.some.inj hends)
      cases hcall
    | raises =>
      rw [hout] at hends
      cases hends

/-- **One step** of the reference is a step of the program. -/
theorem Shows.step (hseq : app.Sequential) (h : Shows ref s) (hinv : ref.Inv app)
    (choice : Label) : Option.Rel Shows (ref.step app choice) (s.step app choice) := by
  -- once the callback has run, the code runs and the new table is looked up
  have hstep : ∀ {a : Action V F Unit} {v : V} {d : Devices V} {frame : S},
      ref.choices.get? choice = some a →
      ref.perform app a = some ({ ref with devices := d }, v) →
      s.context.frame? = some frame → (∀ frame, s.context = .start frame → v = PyVal.none) →
      Option.Rel Shows (ref.step app choice) (resume app frame v s.heap d) := by
    intro a v d frame ha hperform hframe hstart
    have hsend := h.send hseq hframe hstart d
    have hadv : ref.advance app choice = { ref with devices := d }.send app v := by
      unfold Reference.advance
      rw [hinv.choose_eq, ha]
      show (ref.perform app a >>= _) = _
      rw [hperform]
      rfl
    unfold Reference.step
    rw [hadv]
    generalize { ref with devices := d }.send app v = sent at hsend
    generalize resume app frame v s.heap d = next at hsend
    cases hsend with
    | none => exact .none
    | some hr => exact .some (hr _)
  have hoff := hinv.offers
  unfold Reference.Offers at hoff
  rw [h.context] at hoff
  have hnone : ref.choices.get? choice = none → ref.step app choice = none := by
    intro ha
    unfold Reference.step Reference.advance
    rw [hinv.choose_eq, ha]
    rfl
  unfold Solo.step
  cases hctx : s.context with
  | finished =>
    -- there is no other thread
    rw [hctx] at hoff
    replace hoff : ref.choices = sysSched ref.contexts := hoff
    have hempty : ref.choices.get? choice = none := by
      rw [hoff, h.oneHeap.contexts, hctx]
      rfl
    rw [hnone hempty]
    exact .none
  | start frame =>
    rw [hctx] at hoff
    replace hoff : ref.choices = Dict.ofList [(.text app.initName, .init)] := hoff
    show Option.Rel Shows _ (if _ then _ else _)
    split_ifs with hchoice
    · refine hstep (a := .init) ?_ ?_ (by rw [hctx]; rfl) fun _ _ => rfl
      · rw [hoff, hchoice]
        exact if_pos rfl
      · rw [← h.devices]
        rfl
    · rw [hnone]
      · exact .none
      · rw [hoff]
        exact if_neg fun heq => hchoice heq.symm
  | suspended frame call =>
    obtain ⟨c, rfl⟩ := h.device frame call hctx
    rw [hctx] at hoff
    replace hoff : ref.choices = (c.table ref.devices).map Action.dev := hoff
    have hget : ref.choices.get? choice = ((c.table s.devices).get? choice).map Action.dev := by
      rw [hoff, Dict.get?_map, h.devices]
    show Option.Rel Shows _ ((c.table s.devices).get? choice >>= _)
    cases ha : (c.table s.devices).get? choice with
    | none =>
      rw [ha] at hget
      rw [hnone hget]
      exact .none
    | some a =>
      rw [ha] at hget
      refine hstep hget ?_ (by rw [hctx]; rfl) fun frame' heq => ?_
      · rw [← h.devices]
        rfl
      · rw [hctx] at heq
        cases heq

/-- A step at a system call with one choice. -/
theorem step_singleton {frame : S} {c : DevCall V} {h : H} {d : Devices V} {l : Label}
    {a : DevAction V} (hc : c.table d = Dict.ofList [(l, a)]) (choice : Label) :
    step app ⟨.suspended frame (.dev c), h, d⟩ choice =
      if choice = l then resume app frame (a.run d).2 h (a.run d).1 else none := by
  show ((c.table d).get? choice >>= _) = _
  rw [hc]
  split_ifs with hl
  · rw [hl, show (Dict.ofList [(l, a)]).get? l = some a from if_pos rfl]
    rfl
  · rw [show (Dict.ofList [(l, a)]).get? choice = none from if_neg fun heq => hl heq.symm]
    rfl

/-- The crash persists the writes of some tuple of bits, which can be any. -/
theorem exists_step_crash_iff {frame : S} {h : H} {d : Devices V} {s : Solo V F S H} :
    (∃ choice, step app ⟨.suspended frame (.dev .crash), h, d⟩ choice = some s) ↔
      ∃ bits, bits.length = d.storage.buf.entries.length ∧
        resume app frame PyVal.none h
          ((DevAction.crash d.storage.persist bits).run d).1 = some s := by
  constructor
  · rintro ⟨choice, hstep⟩
    obtain ⟨a, ha, hs⟩ := Option.bind_eq_some_iff.mp hstep
    obtain ⟨⟨bits, i⟩, hmem, heq⟩ := List.mem_map.mp (Dict.mem_of_get?_ofList ha)
    have hbits := List.mem_of_getElem? (List.mem_zipIdx_iff_getElem?.mp hmem)
    obtain rfl := (Prod.mk.inj heq).2
    exact ⟨bits, Itertools.mem_bitTuples.mp hbits, hs⟩
  · rintro ⟨bits, hlen, hs⟩
    obtain ⟨i, hi⟩ := List.mem_iff_getElem?.mp (Itertools.mem_bitTuples.mpr hlen)
    have hget : (sysCrash d).get? (.num i) = some (.crash d.storage.persist bits) := by
      refine Dict.get?_update_of_mem (fun a ha => ?_) ?_ _
      · -- the number determines the subset
        obtain ⟨⟨bits', i'⟩, hmem', heq⟩ := List.mem_map.mp ha
        obtain ⟨hnum, rfl⟩ := Prod.mk.inj heq
        obtain rfl : i' = i := Label.num.inj hnum
        have hi' := List.mem_zipIdx_iff_getElem?.mp hmem'
        rw [Option.some.inj (hi'.symm.trans hi)]
      · exact List.mem_map.mpr ⟨(bits, i), List.mem_zipIdx_iff_getElem?.mpr hi, rfl⟩
    exact ⟨.num i, Option.bind_eq_some_iff.mpr ⟨_, hget, hs⟩⟩

/-! ### Steps without a choice -/

variable (app) in
/-- The state that follows where there is one choice only. -/
def next (s : Solo V F S H) : Option (Solo V F S H) :=
  match s.context with
  | .start frame => resume app frame PyVal.none s.heap s.devices
  | .suspended frame (.dev c) =>
    match (c.table s.devices).entries with
    | [(_, a)] => resume app frame (a.run s.devices).2 s.heap (a.run s.devices).1
    | _ => none
  | _ => none

theorem step_of_next {s t : Solo V F S H} (h : next app s = some t) :
    ∃ l, ∀ choice, step app s choice = if choice = l then some t else none := by
  obtain ⟨context, heap, d⟩ := s
  cases context with
  | finished => cases h
  | start frame => exact ⟨.text app.initName, fun choice => if_congr Iff.rfl h rfl⟩
  | suspended frame call =>
    cases call with
    | dev c =>
      unfold next at h
      dsimp only at h
      split at h
      · rename_i l a hentries
        have hc : c.table d = Dict.ofList [(l, a)] := Dict.ext hentries
        exact ⟨l, fun choice => (step_singleton hc choice).trans (if_congr Iff.rfl h rfl)⟩
      · cases h
    | _ => cases h

/-- A run that is to return has to take the one choice there is. -/
theorem exists_run_iff_of_next {s t e : Solo V F S H} (h : next app s = some t)
    (he : e.context = .finished) : (∃ trace, Runs.run (step app) s trace = some e) ↔
      ∃ trace, Runs.run (step app) t trace = some e := by
  obtain ⟨l, hstep⟩ := step_of_next h
  constructor
  · rintro ⟨trace, hrun⟩
    cases trace with
    | nil =>
      cases hrun
      unfold next at h
      rw [he] at h
      cases h
    | cons choice trace =>
      obtain ⟨mid, hmid, hrest⟩ := Runs.run_cons.mp hrun
      rw [hstep] at hmid
      split_ifs at hmid
      cases hmid
      exact ⟨trace, hrest⟩
  · rintro ⟨trace, hrun⟩
    exact ⟨l :: trace, Runs.run_cons.mpr ⟨t, (hstep l).trans (if_pos rfl), hrun⟩⟩

/-- A run that is to return goes through the crash. -/
theorem exists_run_iff_of_crash {frame : S} {h : H} {d : Devices V} {e : Solo V F S H}
    (he : e.context = .finished) :
    (∃ trace, Runs.run (step app) ⟨.suspended frame (.dev .crash), h, d⟩ trace = some e) ↔
      ∃ bits s, bits.length = d.storage.buf.entries.length ∧
        resume app frame PyVal.none h
          ((DevAction.crash d.storage.persist bits).run d).1 = some s ∧
        ∃ trace, Runs.run (step app) s trace = some e := by
  constructor
  · rintro ⟨trace, hrun⟩
    cases trace with
    | nil =>
      cases hrun
      cases he
    | cons choice trace =>
      obtain ⟨s, hstep, hrest⟩ := Runs.run_cons.mp hrun
      obtain ⟨bits, hlen, hs⟩ := exists_step_crash_iff.mp ⟨choice, hstep⟩
      exact ⟨bits, s, hlen, hs, trace, hrest⟩
  · rintro ⟨bits, s, hlen, hs, trace, hrun⟩
    obtain ⟨choice, hstep⟩ := exists_step_crash_iff.mpr ⟨bits, hlen, hs⟩
    exact ⟨choice :: trace, Runs.run_cons.mpr ⟨s, hstep, hrun⟩⟩

/-- There are no steps behind the end. -/
theorem eq_of_run_finished {s e : Solo V F S H} (hs : s.context = .finished) {trace : List Label}
    (hrun : Runs.run (step app) s trace = some e) : e = s := by
  cases trace with
  | nil =>
    cases hrun
    rfl
  | cons choice trace =>
    obtain ⟨mid, hstep, -⟩ := Runs.run_cons.mp hrun
    unfold step at hstep
    rw [hs] at hstep
    cases hstep

/-- **Steps without a choice can be left out.** -/
theorem exists_run_iff_of_reaches {s t e : Solo V F S H} (h : Machine.Reaches (next app) s t)
    (he : e.context = .finished) : (∃ trace, Runs.run (step app) s trace = some e) ↔
      ∃ trace, Runs.run (step app) t trace = some e := by
  induction h with
  | refl => exact Iff.rfl
  | tail _ hnext ih => exact ih.trans (exists_run_iff_of_next hnext he)

omit [PyVal V] [DecidableEq V] in
theorem shows_init : Shows (Reference.new app) (init app) := by
  refine ⟨⟨rfl, rfl, rfl, fun th hth => ?_, rfl⟩, rfl, fun frame call h => ?_⟩
  · rw [List.mem_singleton.mp hth]
  · cases h

theorem run_concat (trace : List Label) (choice : Label) :
    run app (trace ++ [choice]) = run app trace >>= fun s => s.step app choice := by
  unfold run
  rw [List.foldlM_append]
  simp

/-- **Every run** of the reference is a run of the program. -/
theorem shows_run (hseq : app.Sequential) (trace : List Label) :
    Option.Rel Shows (Reference.run app trace) (run app trace) := by
  induction trace using List.reverseRecOn with
  | nil => exact .some shows_init
  | append_singleton trace choice ih =>
    rw [Reference.run_concat, run_concat]
    cases href : Reference.run app trace with
    | none =>
      rw [href] at ih
      cases hrun : run app trace with
      | none => exact .none
      | some s =>
        rw [hrun] at ih
        cases ih
    | some ref =>
      rw [href] at ih
      cases hrun : run app trace with
      | none =>
        rw [hrun] at ih
        cases ih
      | some s =>
        rw [hrun] at ih
        cases ih with
        | some h => exact h.step hseq (Reference.inv_run app trace href) choice

/-- What the operating system reaches is what the program reaches. -/
theorem of_run (hseq : app.Sequential) {trace : List Label} {k : ℕ} {w w' : World H}
    {os : OperatingSystem V F S}
    (hrun : OperatingSystem.run app (trace.length + k) [] trace w = (.ok os, w')) :
    ∃ s, run app trace = some s ∧ os.contexts = [s.context] ∧ os.devices = s.devices := by
  have hsim := runSim app (trace.length + k) trace (Nat.le_add_right ..) [] rfl w
  obtain ⟨ref, href, -, -, ρ, hsim⟩ := hsim.exists_some hrun
  have hrel := shows_run hseq trace
  rw [href] at hrel
  cases hs : run app trace with
  | none =>
    rw [hs] at hrel
    cases hrel
  | some s =>
    rw [hs] at hrel
    cases hrel with
    | some h =>
      refine ⟨s, rfl, ?_, ?_⟩
      · rw [hsim.sameState.contexts, h.oneHeap.contexts]
      · rw [hsim.devices, h.devices]

/-- What the program reaches is reached by the operating system. -/
theorem exists_run (hseq : app.Sequential) {trace : List Label} {s : Solo V F S H}
    (hs : run app trace = some s) (k : ℕ) (w : World H) :
    ∃ os w', OperatingSystem.run app (trace.length + k) [] trace w = (.ok os, w') ∧
      os.contexts = [s.context] ∧ os.devices = s.devices := by
  have hrel := shows_run hseq trace
  rw [hs] at hrel
  cases href : Reference.run app trace with
  | none =>
    rw [href] at hrel
    cases hrel
  | some ref =>
    have hsim := runSim app (trace.length + k) trace (Nat.le_add_right ..) [] rfl w
    rw [href] at hsim
    obtain ⟨os, w', hrun, -⟩ := hsim.exists_ok
    obtain ⟨s', hs', hctx, hdev⟩ := of_run hseq hrun
    obtain rfl := Option.some.inj (hs.symm.trans hs')
    exact ⟨os, w', hrun, hctx, hdev⟩

end Solo

end Jyyos.Mosaic
