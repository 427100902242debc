import Jyyos.Mosaic.Send
import Jyyos.Mosaic.Equiv.Reference
import Mathlib.Data.Set.Function

/-!
# The operating system and its reference

`Sim` relates a state of the operating system, in the world of all heaps, to a state of the
reference: the heaps of the reference are laid out in the world by an injection `ρ`, and a fork
that is offered holds a thread that is a copy of the current one, on a heap of its own.  The parts
of a step up to its system call keep the relation, whatever else lives in the world; `Kept` is
what they leave to those who own the heaps below `base`.
-/

namespace Jyyos.Mosaic

variable {V F S H : Type}

/-- A thread of the reference, on the object that stands for its heap. -/
def Thread.relabel (ρ : ℕ → ℕ) (th : Thread V F S) : Thread V F S := ⟨th.context, ρ th.heap⟩

/-! ### The relation -/

/-- The states agree but for the choices; the heaps lie above `base`. -/
structure SimCore (base : ℕ) (ρ : ℕ → ℕ) (w : World H) (os : OperatingSystem V F S)
    (ref : Reference V F S H) : Prop where
  threads : os.threads = ref.threads.map (Thread.relabel ρ)
  valid : ∀ th ∈ ref.threads, th.heap < ref.heaps.length
  heaps : ∀ k < ref.heaps.length, w.heaps[ρ k]? = ref.heaps[k]?
  inj : Set.InjOn ρ (Set.Iio ref.heaps.length)
  above : ∀ k < ref.heaps.length, base ≤ ρ k
  current : os.current = ref.current
  devices : os.devices = ref.devices
  newfork : os.newfork = ref.newfork

/-- The thread that a fork has captured: a copy of the current one, on a heap that no thread
uses. -/
structure IsChild (base : ℕ) (ρ : ℕ → ℕ) (w : World H) (ref : Reference V F S H)
    (child : Thread V F S) : Prop where
  copy : ∃ th, ref.threads[ref.current]? = some th ∧ child.context = th.context ∧
    w.heaps[child.heap]? = ref.heaps[th.heap]?
  unshared : ∀ k < ref.heaps.length, ρ k ≠ child.heap
  above : base ≤ child.heap

/-- The states agree. -/
structure Sim (base : ℕ) (ρ : ℕ → ℕ) (w : World H) (os : OperatingSystem V F S)
    (ref : Reference V F S H) : Prop extends SimCore base ρ w os ref where
  choices : os.choices.map (Dict.map Action.forget) = some ref.choices
  child : ∀ table l child, os.choices = some table → table.get? l = some (.fork child) →
    IsChild base ρ w ref child

/-- What code leaves to its callers: no heap is lost, those below `base` keep their contents, and
thread code ran with `heap` bound to the heap of its thread. -/
structure Kept (base : ℕ) (w w' : World H) : Prop where
  length_le : w.heaps.length ≤ w'.heaps.length
  below : ∀ p < base, w'.heaps[p]? = w.heaps[p]?
  ran : ∀ e ∈ w'.ran, e ∈ w.ran ∨ e.1 = e.2

instance (base : ℕ) : Std.Refl (Kept base : World H → World H → Prop) :=
  ⟨fun _ => ⟨le_refl _, fun _ _ => rfl, fun _ he => Or.inl he⟩⟩

instance (base : ℕ) : IsTrans (World H) (Kept base) where
  trans _ _ _ h h' := by
    refine ⟨h.length_le.trans h'.length_le, fun p hp => ?_, fun e he => ?_⟩
    · rw [h'.below p hp, h.below p hp]
    · rcases h'.ran e he with h'' | h''
      · exact h.ran e h''
      · exact Or.inr h''

theorem Kept.mono {base base' : ℕ} {w w' : World H} (h : Kept base' w w') (hle : base ≤ base') :
    Kept base w w' :=
  ⟨h.length_le, fun p hp => h.below p (hp.trans_le hle), h.ran⟩

/-- The global `heap` is bound to the heap of the current thread. -/
def Bound (w : World H) (os : OperatingSystem V F S) : Prop :=
  ∃ th, os.threads[os.current]? = some th ∧ w.heap = th.heap

theorem SimCore.getElem? {base : ℕ} {ρ : ℕ → ℕ} {w : World H} {os : OperatingSystem V F S}
    {ref : Reference V F S H} (h : SimCore base ρ w os ref) (i : ℕ) :
    os.threads[i]? = (ref.threads[i]?).map (Thread.relabel ρ) := by
  rw [h.threads, List.getElem?_map]

theorem SimCore.heap_lt {base : ℕ} {ρ : ℕ → ℕ} {w : World H} {os : OperatingSystem V F S}
    {ref : Reference V F S H} (h : SimCore base ρ w os ref) {i : ℕ} {th : Thread V F S}
    (hi : ref.threads[i]? = some th) : th.heap < ref.heaps.length :=
  h.valid th (List.mem_of_getElem? hi)

/-- The heaps of the reference stand for heaps that exist. -/
theorem SimCore.lt_length {base : ℕ} {ρ : ℕ → ℕ} {w : World H} {os : OperatingSystem V F S}
    {ref : Reference V F S H} (h : SimCore base ρ w os ref) {k : ℕ} (hk : k < ref.heaps.length) :
    ρ k < w.heaps.length := by
  have hheap := h.heaps k hk
  rw [List.getElem?_eq_getElem hk] at hheap
  exact (List.getElem?_eq_some_iff.mp hheap).1

/-- Only the heaps of the relation matter in the world. -/
theorem SimCore.congr {base : ℕ} {ρ : ℕ → ℕ} {w w' : World H} {os : OperatingSystem V F S}
    {ref : Reference V F S H} (h : SimCore base ρ w os ref)
    (hw : ∀ k < ref.heaps.length, w'.heaps[ρ k]? = w.heaps[ρ k]?) : SimCore base ρ w' os ref :=
  { h with heaps := fun k hk => (hw k hk).trans (h.heaps k hk) }

/-! ### Switching -/

variable [PyVal V]

/-- The states and the value after a switch to a thread that exists. -/
structure Switched (tid : ℕ) (w : World H) (os : OperatingSystem V F S) (ref : Reference V F S H)
    (a : OperatingSystem V F S × V) (w' : World H) (b : Reference V F S H × V) : Prop where
  left : a.1 = { os with current := tid, newfork := os.newfork.erase tid }
  right : b.1 = { ref with current := tid, newfork := ref.newfork.erase tid }
  value : a.2 = b.2
  world : ∃ th, os.threads[tid]? = some th ∧ w' = { w with heap := th.heap }

theorem switchTo_of_some (os : OperatingSystem V F S) {tid : ℕ} {th : Thread V F S}
    (hth : os.threads[tid]? = some th) (w : World H) :
    os.switchTo tid w = (.ok ({ os with current := tid, newfork := os.newfork.erase tid },
      if tid ∈ os.newfork then PyVal.ofNat 0 else PyVal.none), { w with heap := th.heap }) := by
  unfold OperatingSystem.switchTo need
  rw [hth]
  by_cases hmem : tid ∈ os.newfork
  · simp only [if_pos hmem]
    rfl
  · simp only [if_neg hmem, Finset.erase_eq_of_notMem hmem]
    rfl

section

variable {base : ℕ} {ρ : ℕ → ℕ} {w : World H} {os : OperatingSystem V F S}
  {ref : Reference V F S H}

theorem sim_switchTo (h : SimCore base ρ w os ref) (tid : ℕ) :
    Exec.Refines (Kept base) .exception (Switched tid w os ref) (os.switchTo tid) w
      (ref.switchTo tid) := by
  have hi := h.getElem? tid
  cases hr : ref.threads[tid]? with
  | none =>
    rw [hr] at hi
    have hos : os.switchTo tid = (Exec.throw .exception : M H _) := by
      unfold OperatingSystem.switchTo need
      rw [hi]
      rfl
    have href : ref.switchTo tid = none := by
      unfold Reference.switchTo
      rw [hr]
      rfl
    rw [hos, href]
    exact Exec.Refines.throw
  | some th =>
    rw [hr] at hi
    rw [ref.switchTo_of_some hr]
    refine Exec.Refines.of_ok (switchTo_of_some os hi w) ⟨le_refl _, fun _ _ => rfl,
      fun _ he => Or.inl he⟩ ⟨rfl, rfl, ?_, _, hi, rfl⟩
    show (if tid ∈ os.newfork then _ else _) = if tid ∈ ref.newfork then _ else _
    rw [h.newfork]

omit [PyVal V] in
theorem SimCore.switched (h : SimCore base ρ w os ref) {tid : ℕ} {a : OperatingSystem V F S × V}
    {w' : World H} {b : Reference V F S H × V} (hs : Switched tid w os ref a w' b) :
    SimCore base ρ w' a.1 b.1 := by
  obtain ⟨ha, hb, -, th, -, rfl⟩ := hs
  rw [ha, hb]
  exact { h with
    current := rfl
    newfork := congrArg (fun s => Finset.erase s tid) h.newfork }

omit [PyVal V] in
theorem Switched.bound {tid : ℕ} {a : OperatingSystem V F S × V}
    {w' : World H} {b : Reference V F S H × V} (hs : Switched tid w os ref a w' b) :
    Bound w' a.1 := by
  obtain ⟨ha, -, -, th, hth, rfl⟩ := hs
  rw [ha]
  exact ⟨th, hth, rfl⟩

end

/-! ### Callbacks -/

section

variable [DecidableEq V] {base : ℕ} {ρ : ℕ → ℕ} {w : World H} {os : OperatingSystem V F S}
  {ref : Reference V F S H} (app : App V F S H)

/-- The states before a `send`: the binding is right and the same value is sent. -/
structure Ready (base : ℕ) (trace : List Label) (a : OperatingSystem V F S × V) (w : World H)
    (b : Reference V F S H × V) : Prop where
  sim : ∃ ρ, SimCore base ρ w a.1 b.1
  bound : Bound w a.1
  value : a.2 = b.2
  trace : a.1.trace = trace

omit [PyVal V] [DecidableEq V] in
/-- A new thread of the same heap or on a new one leaves the current thread where it is. -/
theorem Bound.append (h : Bound w os) (th : Thread V F S) (newfork : Finset ℕ) :
    Bound w { os with threads := os.threads ++ [th], newfork := newfork } := by
  obtain ⟨cur, hcur, hheap⟩ := h
  have hlt : os.current < os.threads.length := (List.getElem?_eq_some_iff.mp hcur).1
  refine ⟨cur, ?_, hheap⟩
  show (os.threads ++ [th])[os.current]? = some cur
  rw [List.getElem?_append_left hlt, hcur]

theorem sim_spawn (h : SimCore base ρ w os ref) (hb : Bound w os) (func : F) (args : List V) :
    Exec.Refines (Kept base) .exception (Ready base os.trace) (os.perform app (.spawn func args)) w
      (ref.perform app (.spawn func args)) := by
  unfold OperatingSystem.perform Reference.perform need
  refine Exec.Refines.bind (P := fun a w' b => a = b ∧ w' = w)
    (Exec.Refines.orThrow ?_) fun frame w' frame' hf _ _ => ?_
  · cases app.call func args with
    | none => exact Option.Rel.none
    | some frame => exact Option.Rel.some ⟨rfl, rfl⟩
  -- the new thread is on the heap of the current one, so no heap is added
  obtain ⟨rfl, rfl⟩ := hf
  refine Exec.Refines.bind (P := fun a w'' b => a = Thread.relabel ρ b ∧ w'' = w' ∧
    b ∈ ref.threads) (Exec.Refines.orThrow ?_) fun th w'' th' ht _ _ => ?_
  · rw [h.getElem?, h.current]
    cases hr : ref.threads[ref.current]? with
    | none => exact Option.Rel.none
    | some th => exact Option.Rel.some ⟨rfl, rfl, List.mem_of_getElem? hr⟩
  obtain ⟨rfl, rfl, hmem⟩ := ht
  refine Exec.Refines.pure ⟨⟨ρ, { h with threads := ?_, valid := ?_ }⟩, hb.append _ _, rfl, rfl⟩
  · rw [h.threads, List.map_append]
    rfl
  · intro t ht
    rcases List.mem_append.mp ht with ht | ht
    · exact h.valid t ht
    · rw [List.mem_singleton.mp ht]
      exact h.valid th' hmem

omit [PyVal V] [DecidableEq V] in
/-- The heap of the clone stands for the copy that the reference makes. -/
theorem SimCore.fork (h : SimCore base ρ w os ref) {child : Thread V F S}
    (hc : IsChild base ρ w ref child) {th : Thread V F S} {h₀ : H}
    (hth : ref.threads[ref.current]? = some th) (hh : ref.heaps[th.heap]? = some h₀) :
    SimCore base (Function.update ρ ref.heaps.length child.heap) w
      { os with
        threads := os.threads ++ [child], newfork := insert os.threads.length os.newfork }
      { ref with
        threads := ref.threads ++ [⟨th.context, ref.heaps.length⟩]
        heaps := ref.heaps ++ [h₀]
        newfork := insert ref.threads.length ref.newfork } := by
  obtain ⟨⟨th', hth', hctx, hheap⟩, hun, habove⟩ := hc
  obtain rfl : th = th' := Option.some.inj (hth.symm.trans hth')
  -- the relabelling changes at the new index only, and there it names the heap of the clone
  have hold : ∀ k < ref.heaps.length,
      Function.update ρ ref.heaps.length child.heap k = ρ k :=
    fun k hk => Function.update_of_ne (Nat.ne_of_lt hk) _ _
  have hnew : Function.update ρ ref.heaps.length child.heap ref.heaps.length = child.heap :=
    Function.update_self ..
  have hsplit : ∀ k, k < (ref.heaps ++ [h₀]).length → k < ref.heaps.length ∨
      k = ref.heaps.length := by
    intro k hk
    rw [List.length_append, List.length_singleton] at hk
    omega
  refine ⟨?_, ?_, ?_, ?_, ?_, h.current, h.devices, ?_⟩
  · show os.threads ++ [child] = (ref.threads ++ [_]).map _
    have hchild : child = Thread.relabel (Function.update ρ ref.heaps.length child.heap)
        ⟨th.context, ref.heaps.length⟩ := by
      rw [Thread.relabel, hnew, ← hctx]
    rw [List.map_append, h.threads, List.map_singleton, ← hchild]
    congr 1
    refine List.map_congr_left fun t ht => ?_
    rw [Thread.relabel, Thread.relabel, hold _ (h.valid t ht)]
  · intro t ht
    show t.heap < (ref.heaps ++ [h₀]).length
    rw [List.length_append, List.length_singleton]
    rcases List.mem_append.mp ht with ht | ht
    · exact Nat.lt_succ_of_lt (h.valid t ht)
    · rw [List.mem_singleton.mp ht]
      exact Nat.lt_succ_self _
  · intro k hk
    show w.heaps[_]? = (ref.heaps ++ [h₀])[k]?
    rcases hsplit k hk with hlt | rfl
    · rw [hold k hlt, h.heaps k hlt, List.getElem?_append_left hlt]
    · rw [hnew, hheap, hh, List.getElem?_append_right (le_refl _), Nat.sub_self]
      rfl
  · -- two indices: injective among the old ones, and no old one has the heap of the clone
    intro k hk l hl hkl
    rcases hsplit k hk with hlt | rfl <;> rcases hsplit l hl with hlt' | rfl
    · rw [hold k hlt, hold l hlt'] at hkl
      exact h.inj hlt hlt' hkl
    · rw [hold k hlt, hnew] at hkl
      exact absurd hkl (hun k hlt)
    · rw [hold l hlt', hnew] at hkl
      exact absurd hkl.symm (hun l hlt')
    · rfl
  · intro k hk
    rcases hsplit k hk with hlt | rfl
    · rw [hold k hlt]
      exact h.above k hlt
    · rw [hnew]
      exact habove
  · show insert os.threads.length os.newfork = _
    rw [h.threads, List.length_map, h.newfork]

theorem sim_fork (h : SimCore base ρ w os ref) (hb : Bound w os) {child : Thread V F S}
    (hc : IsChild base ρ w ref child) :
    Exec.Refines (Kept base) .exception (Ready base os.trace) (os.perform app (.fork child)) w
      (ref.perform app (.fork ())) := by
  obtain ⟨th, hth, -, -⟩ := hc.copy
  obtain ⟨h₀, hh⟩ : ∃ h₀, ref.heaps[th.heap]? = some h₀ :=
    ⟨_, List.getElem?_eq_getElem (h.heap_lt hth)⟩
  have hlen : (os.threads ++ [child]).length = os.threads.length + 1 := List.length_append
  show Exec.Refines _ _ _ (pure ({ os with
    threads := os.threads ++ [child]
    newfork := insert ((os.threads ++ [child]).length - 1) os.newfork },
    PyVal.ofNat (1000 + (os.threads ++ [child]).length))) w ref.fork
  rw [Reference.fork_of_some hth hh, hlen, Nat.add_sub_cancel]
  refine Exec.Refines.pure ⟨⟨_, h.fork hc hth hh⟩, hb.append _ _, ?_, rfl⟩
  show PyVal.ofNat _ = PyVal.ofNat _
  rw [h.threads, List.length_map]

/-- Related callbacks do the same. -/
theorem sim_perform (h : SimCore base ρ w os ref) (hb : Bound w os) (a : OSAction V F S)
    (hc : ∀ child, a = .fork child → IsChild base ρ w ref child) :
    Exec.Refines (Kept base) .exception (Ready base os.trace) (os.perform app a) w
      (ref.perform app a.forget) := by
  cases a with
  | init => exact Exec.Refines.pure ⟨⟨ρ, h⟩, hb, rfl, rfl⟩
  | spawn func args => exact sim_spawn app h hb func args
  | fork child => exact sim_fork app h hb (hc child rfl)
  | switch tid =>
    refine (sim_switchTo h tid).mono fun a w' b hs _ _ => ?_
    refine ⟨⟨ρ, h.switched hs⟩, hs.bound, hs.value, ?_⟩
    rw [hs.left]
  | dev a =>
    refine Exec.Refines.pure ⟨⟨ρ, { h with devices := ?_ }⟩, hb, ?_, rfl⟩
    · show (a.run os.devices).1 = _
      rw [h.devices]
    · show (a.run os.devices).2 = _
      rw [h.devices]

/-- Choosing finds related callbacks. -/
theorem sim_choose (h : Sim base ρ w os ref) (choice : Label) :
    Exec.Refines (Kept base) .exception (Ready base (os.trace ++ [choice]))
      (os.choose app choice) w (ref.choose app choice) := by
  unfold OperatingSystem.choose Reference.choose need
  rw [← h.current]
  refine Exec.Refines.bind (sim_switchTo h.toSimCore os.current) fun a w₁ b hs _ _ => ?_
  have hsim := h.toSimCore.switched hs
  have hbound := hs.bound
  obtain ⟨ha, hb, -, th, -, rfl⟩ := hs
  obtain ⟨os₁, v⟩ := a
  obtain ⟨ref₁, v'⟩ := b
  simp only at ha hb hsim hbound ⊢
  subst ha hb
  obtain ⟨table, htable, hforget⟩ := Option.map_eq_some_iff.mp h.choices
  have hget : ref.choices.get? choice = (table.get? choice).map Action.forget := by
    rw [← hforget, Dict.get?_map]
  show Exec.Refines _ _ _ (Exec.orThrow _ os.choices >>= _) _
    (ref.choices.get? choice >>= _)
  rw [htable, hget]
  show Exec.Refines _ _ _ (Exec.orThrow _ (table.get? choice) >>= _) _ _
  cases hact : table.get? choice with
  | none => exact Exec.Refines.throw
  | some a =>
    have hsim' : SimCore base ρ { w with heap := th.heap } ⟨os.threads, os.current, some table,
        os.devices, os.trace ++ [choice], os.newfork.erase os.current⟩ _ := { hsim with }
    refine sim_perform app hsim' hbound a fun child hchild => ?_
    -- switching to the current thread has changed nothing that a child is compared with
    obtain ⟨⟨cur, hcur, hctx⟩, hun, habove⟩ := h.child table choice child htable (hchild ▸ hact)
    exact ⟨⟨cur, by rw [← hcur, ← h.current], hctx⟩, hun, habove⟩

/-! ### Thread code -/

/-- The states after a `send`. -/
structure Sent (base : ℕ) (ρ : ℕ → ℕ) (trace : List Label)
    (a : OperatingSystem V F S × Option (Syscall V F)) (w : World H)
    (b : Reference V F S H × Option (Syscall V F)) : Prop where
  sim : SimCore base ρ w a.1 b.1
  call : a.2 = b.2
  trace : a.1.trace = trace

omit [PyVal V] [DecidableEq V] in
/-- Thread code changes its own heap and its own context. -/
theorem SimCore.setContext (h : SimCore base ρ w os ref) {th : Thread V F S}
    (hth : ref.threads[ref.current]? = some th) (context : Gen V F S) (h' : H)
    (ran : List (ℕ × ℕ)) :
    SimCore base ρ { w with heaps := w.heaps.set (ρ th.heap) h', ran := ran }
      (os.setContext (th.relabel ρ) context) (ref.setContext th context h') := by
  have hk : th.heap < ref.heaps.length := h.heap_lt hth
  have hlen : (ref.setContext th context h').heaps.length = ref.heaps.length := List.length_set
  refine ⟨?_, ?_, ?_, ?_, ?_, h.current, h.devices, h.newfork⟩
  · show os.threads.set os.current _ = (ref.threads.set ref.current _).map _
    rw [List.map_set, h.threads, h.current]
    rfl
  · intro t ht
    rw [hlen]
    rcases List.mem_or_eq_of_mem_set ht with ht | rfl
    · exact h.valid t ht
    · exact hk
  · intro k hk'
    rw [hlen] at hk'
    show (w.heaps.set (ρ th.heap) h')[ρ k]? = (ref.heaps.set th.heap h')[k]?
    by_cases hkt : th.heap = k
    · -- the heap that was written
      subst hkt
      rw [List.getElem?_set_self (h.lt_length hk), List.getElem?_set_self hk]
    · -- another one: by injectivity it is another one in the world too
      have hne : ρ th.heap ≠ ρ k := fun heq => hkt (h.inj hk hk' heq)
      rw [List.getElem?_set_ne hne, List.getElem?_set_ne hkt]
      exact h.heaps k hk'
  · rw [hlen]
    exact h.inj
  · rw [hlen]
    exact h.above

omit [PyVal V] [DecidableEq V] in
theorem sim_resume (h : SimCore base ρ w os ref) (hb : Bound w os) {th : Thread V F S}
    (hth : ref.threads[ref.current]? = some th) (frame : S) (res : V) :
    Exec.Refines (Kept base) .exception (Sent base ρ os.trace)
      (os.resume app (th.relabel ρ) frame res) w (ref.resume app th frame res) := by
  have hk : th.heap < ref.heaps.length := h.heap_lt hth
  obtain ⟨h₀, hh⟩ : ∃ h₀, ref.heaps[th.heap]? = some h₀ := ⟨_, List.getElem?_eq_getElem hk⟩
  have hbind : w.heap = ρ th.heap := by
    obtain ⟨t, ht, hheap⟩ := hb
    rw [h.getElem?, h.current, hth] at ht
    rw [hheap, ← Option.some.inj ht]
    rfl
  have hw : w.heaps[w.heap]? = some h₀ := by rw [hbind, h.heaps _ hk, hh]
  -- the binding is the thread's own heap, which is where the code runs
  have hran : ∀ e ∈ w.ran ++ [(w.heap, (th.relabel ρ).heap)], e ∈ w.ran ∨ e.1 = e.2 := by
    intro e he
    rcases List.mem_append.mp he with he | he
    · exact Or.inl he
    · rw [List.mem_singleton.mp he]
      exact Or.inr hbind
  -- heaps below `base` are not those of this system
  have hkept : ∀ h' : H, Kept base w { w with
      heaps := w.heaps.set w.heap h', ran := w.ran ++ [(w.heap, (th.relabel ρ).heap)] } := by
    intro h'
    refine ⟨le_of_eq List.length_set.symm, fun p hp => ?_, hran⟩
    have hne : w.heap ≠ p := fun heq => absurd (h.above _ hk) (by rw [← hbind]; omega)
    exact List.getElem?_set_ne hne
  cases hout : app.resume frame res h₀ with
  | yields frame' call h' =>
    have href : ref.resume app th frame res =
        some (ref.setContext th (.suspended frame' call) h', some call) := by
      simp only [Reference.resume, hh, hout, Option.bind_eq_bind, Option.bind_some]
    have hos : os.resume app (th.relabel ρ) frame res w =
        (.ok (os.setContext (th.relabel ρ) (.suspended frame' call), some call), { w with
          heaps := w.heaps.set w.heap h', ran := w.ran ++ [(w.heap, (th.relabel ρ).heap)] }) := by
      simp only [OperatingSystem.resume, need, Exec.bind_apply, Exec.get, hw, Exec.orThrow,
        Exec.pure_apply, Exec.modify, hout]
    have hset := h.setContext hth (.suspended frame' call) h'
      (w.ran ++ [(w.heap, (th.relabel ρ).heap)])
    rw [← hbind] at hset
    rw [href]
    exact Exec.Refines.of_ok hos (hkept h') ⟨hset, rfl, rfl⟩
  | returns h' =>
    have href : ref.resume app th frame res = some (ref.setContext th .finished h', none) := by
      simp only [Reference.resume, hh, hout, Option.bind_eq_bind, Option.bind_some]
    have hos : os.resume app (th.relabel ρ) frame res w =
        (.ok (os.setContext (th.relabel ρ) .finished, none), { w with
          heaps := w.heaps.set w.heap h', ran := w.ran ++ [(w.heap, (th.relabel ρ).heap)] }) := by
      simp only [OperatingSystem.resume, need, Exec.bind_apply, Exec.get, hw, Exec.orThrow,
        Exec.pure_apply, Exec.modify, hout]
    have hset := h.setContext hth .finished h' (w.ran ++ [(w.heap, (th.relabel ρ).heap)])
    rw [← hbind] at hset
    rw [href]
    exact Exec.Refines.of_ok hos (hkept h') ⟨hset, rfl, rfl⟩
  | raises =>
    have href : ref.resume app th frame res = none := by
      simp only [Reference.resume, hh, hout, Option.bind_eq_bind, Option.bind_some]
    have hos : os.resume app (th.relabel ρ) frame res w =
        (.error .exception, { w with ran := w.ran ++ [(w.heap, (th.relabel ρ).heap)] }) := by
      simp only [OperatingSystem.resume, need, Exec.bind_apply, Exec.get, hw, Exec.orThrow,
        Exec.pure_apply, Exec.modify, hout]
      rfl
    rw [href]
    exact Exec.Refines.of_error hos ⟨le_refl _, fun _ _ => rfl, hran⟩

theorem sim_send (h : SimCore base ρ w os ref) (hb : Bound w os) (res : V) :
    Exec.Refines (Kept base) .exception (Sent base ρ os.trace) (os.send app res) w
      (ref.send app res) := by
  unfold OperatingSystem.send Reference.send need
  rw [h.getElem?, h.current]
  cases hth : ref.threads[ref.current]? with
  | none => exact Exec.Refines.throw
  | some th =>
    obtain ⟨context, heap⟩ := th
    -- a generator that has not started accepts only `None`
    cases context with
    | finished => exact Exec.Refines.pure ⟨h, rfl, rfl⟩
    | start frame =>
      show Exec.Refines _ _ _ (if res = PyVal.none then os.resume app _ frame res
          else Exec.throw .exception) w
        (if res = PyVal.none then ref.resume app _ frame res else none)
      by_cases hres : res = PyVal.none
      · rw [if_pos hres, if_pos hres]
        exact sim_resume app h hb hth frame res
      · rw [if_neg hres, if_neg hres]
        exact Exec.Refines.throw
    | suspended frame call => exact sim_resume app h hb hth frame res

/-- A step up to its system call. -/
theorem sim_advance (h : Sim base ρ w os ref) (choice : Label) :
    Exec.Refines (Kept base) .exception
      (fun a w' b => ∃ ρ', Sent base ρ' (os.trace ++ [choice]) a w' b)
      (os.choose app choice >>= fun r => r.1.send app r.2) w (ref.advance app choice) := by
  unfold Reference.advance
  refine Exec.Refines.bind (sim_choose app h choice) fun a w' b hready _ _ => ?_
  obtain ⟨⟨ρ', hsim⟩, hbound, hvalue, htrace⟩ := hready
  rw [← hvalue, ← htrace]
  exact (sim_send app hsim hbound a.2).mono fun _ _ _ hsent _ _ => ⟨ρ', hsent⟩

/-! ### The tables of choices -/

omit [PyVal V] [DecidableEq V] in
theorem forget_sysSched (contexts : List (Gen V F S)) :
    (sysSched contexts : Choices V F (Thread V F S)).map Action.forget = sysSched contexts := by
  unfold sysSched
  rw [Dict.map_ofList, List.map_map]
  rfl

omit [DecidableEq V] in
theorem forget_sysDev (d : Devices V) (c : DevCall V) :
    (sysDev d c : Choices V F (Thread V F S)).map Action.forget = sysDev d c := by
  refine Dict.ext ?_
  show ((c.table d).entries.map _).map _ = (c.table d).entries.map _
  rw [List.map_map]
  rfl

omit [PyVal V] [DecidableEq V] in
theorem sysSched_ne_fork {C : Type} (contexts : List (Gen V F S)) (l : Label) (child : C) :
    (sysSched contexts).get? l ≠ some (Action.fork child : Action V F C) := by
  intro h
  obtain ⟨g, -, hg⟩ := List.mem_map.mp (Dict.mem_of_get?_ofList h)
  cases (Prod.mk.inj hg).2

omit [DecidableEq V] in
/-- A system call other than a fork offers what the reference offers. -/
theorem syscall_of_ne_fork (h : SimCore base ρ w os ref) (clone : OperatingSystem.Stepper V F S H)
    (stack : List Bool) {call : Option (Syscall V F)} (hcall : call ≠ some .fork) :
    ∃ table, os.syscall app clone stack call = pure (some table) ∧
      table.map Action.forget = ref.syscall call ∧
      ∀ l child, table.get? l ≠ some (.fork child) := by
  -- `sys_sched` looks at the contexts only, and these are equal
  have hctx : os.contexts = ref.contexts := by
    rw [OperatingSystem.contexts, h.threads, List.map_map]
    rfl
  have hsched : (sysSched os.contexts : Choices V F (Thread V F S)).map Action.forget =
      sysSched ref.contexts := by
    rw [forget_sysSched, hctx]
  cases call with
  | none => exact ⟨_, rfl, hsched, sysSched_ne_fork os.contexts⟩
  | some call =>
    cases call with
    | spawn func args =>
      refine ⟨_, rfl, rfl, fun l child hget => ?_⟩
      cases Dict.eq_of_get?_singleton hget
    | fork => exact absurd rfl hcall
    | sched => exact ⟨_, rfl, hsched, sysSched_ne_fork os.contexts⟩
    | dev c =>
      refine ⟨_, rfl, ?_, fun l child hget => ?_⟩
      · rw [forget_sysDev, h.devices]
        rfl
      · rw [sysDev, Dict.get?_map] at hget
        obtain ⟨a, -, ha⟩ := Option.map_eq_some_iff.mp hget
        cases ha

end

end Jyyos.Mosaic
