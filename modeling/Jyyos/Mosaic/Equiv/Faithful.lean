import Jyyos.Mosaic.Equiv.StateDump
import Jyyos.Mosaic.Equiv.Threads

/-!
# What a dump leaves out

A dump does not show where in its line a generator stands, what its loops still have to do, which
system call it waits for, or in what order the buffer was written.  So two states can have the same
dump and go on differently (`replayDump_loopApp`): a loop over `[0, 0]` around a `sys_sched` has the
same line and the same local variable in both rounds.

Where the parts that are left out agree as well, nothing is lost (`replayDump_of_sameHidden`).
`Alike` is the bisimulation: equal contexts, the heaps of live threads equal, and the storage equal
up to the order of the persisted entries, which nothing can see.  The heap of a terminated thread
is not compared; it only counts in the numbering of the heaps.
-/

namespace Jyyos.Mosaic

variable {V F S H D : Type} [DecidableEq V] [PyVal V]

/-- Two optional values are related if both are missing or both are there and related. -/
theorem rel_cases {α β : Type} {R : α → β → Prop} {x : Option α} {y : Option β}
    (h : Option.Rel R x y) :
    (x = none ∧ y = none) ∨ ∃ a b, x = some a ∧ y = some b ∧ R a b := by
  cases h with
  | none => exact Or.inl ⟨rfl, rfl⟩
  | some h => exact Or.inr ⟨_, _, rfl, rfl, h⟩

/-! ### Devices -/

/-- The devices agree, up to the order of the persisted entries. -/
structure SameDevices (d₁ d₂ : Devices V) : Prop where
  stdout : d₁.stdout = d₂.stdout
  buf : d₁.storage.buf = d₂.storage.buf
  persist : ∀ k, d₁.storage.persist.get? k = d₂.storage.persist.get? k

/-- Tables that agree, up to the order of the persisted entries that a crash has captured. -/
inductive SameChoices : Choices V F Unit → Choices V F Unit → Prop
  | refl (table : Choices V F Unit) : SameChoices table table
  | crash (table : Dict Label (List Bool)) {p₁ p₂ : Dict V V} (hp : ∀ k, p₁.get? k = p₂.get? k) :
    SameChoices (table.map fun bits => .dev (.crash p₁ bits))
      (table.map fun bits => .dev (.crash p₂ bits))

/-- Callbacks that agree. -/
inductive SameAction : Action V F Unit → Action V F Unit → Prop
  | refl (a : Action V F Unit) : SameAction a a
  | crash (bits : List Bool) {p₁ p₂ : Dict V V} (hp : ∀ k, p₁.get? k = p₂.get? k) :
    SameAction (.dev (.crash p₁ bits)) (.dev (.crash p₂ bits))

omit [PyVal V] in
theorem SameChoices.keys {t₁ t₂ : Choices V F Unit} (h : SameChoices t₁ t₂) :
    t₁.keys = t₂.keys := by
  cases h with
  | refl => rfl
  | crash table hp => rw [Dict.keys_map, Dict.keys_map]

omit [PyVal V] in
theorem SameChoices.get? {t₁ t₂ : Choices V F Unit} (h : SameChoices t₁ t₂) (l : Label) :
    Option.Rel SameAction (t₁.get? l) (t₂.get? l) := by
  cases h with
  | refl =>
    cases t₁.get? l with
    | none => exact .none
    | some a => exact .some (.refl a)
  | crash table hp =>
    rw [Dict.get?_map, Dict.get?_map]
    cases table.get? l with
    | none => exact .none
    | some bits => exact .some (.crash bits hp)

/-- The device calls offer the same. -/
theorem SameDevices.table {d₁ d₂ : Devices V} (h : SameDevices d₁ d₂) (c : DevCall V) :
    SameChoices (F := F) (sysDev d₁ c) (sysDev d₂ c) := by
  cases c with
  | crash =>
    -- both tables are made from the tuples of bits over the common buffer
    have hcrash : ∀ d : Devices V, (sysDev d .crash : Choices V F Unit) =
        (Dict.ofList ((Itertools.bitTuples d.storage.buf.entries.length).zipIdx.map
          fun s => (Label.num s.2, s.1))).map
            fun bits => Action.dev (.crash d.storage.persist bits) := by
      intro d
      show (Dict.ofList _).map _ = _
      rw [Dict.map_ofList, Dict.map_ofList, List.map_map, List.map_map]
      rfl
    rw [hcrash, hcrash, h.buf]
    exact .crash _ h.persist
  | choose choices => exact .refl _
  | write args => exact .refl _
  | bread key => exact .refl _
  | bwrite key value => exact .refl _
  | sync => exact .refl _

/-- Callbacks of the devices that agree do the same. -/
theorem SameDevices.run {d₁ d₂ : Devices V} (h : SameDevices d₁ d₂) {a₁ a₂ : DevAction V}
    (ha : SameAction (F := F) (.dev a₁) (.dev a₂)) :
    SameDevices (a₁.run d₁).1 (a₂.run d₂).1 ∧ (a₁.run d₁).2 = (a₂.run d₂).2 := by
  -- the order of the persisted entries is lost in a union: only lookups are compared
  cases ha with
  | refl =>
    cases a₁ with
    | choose c => exact ⟨h, rfl⟩
    | write args => exact ⟨{ h with stdout := congrArg (· ++ joinArgs args) h.stdout }, rfl⟩
    | bread key =>
      refine ⟨h, ?_⟩
      show (d₁.storage.buf.get? key).getD _ = (d₂.storage.buf.get? key).getD _
      rw [h.buf, h.persist]
    | bwrite key value =>
      exact ⟨{ h with buf := congrArg (fun b => Dict.set b key value) h.buf }, rfl⟩
    | sync =>
      refine ⟨⟨h.stdout, rfl, fun k => ?_⟩, rfl⟩
      show (d₁.storage.persist.union _).get? k = (d₂.storage.persist.union _).get? k
      rw [Dict.get?_union, Dict.get?_union, h.persist, h.buf]
    | crash persist subset =>
      refine ⟨⟨h.stdout, rfl, fun k => ?_⟩, rfl⟩
      show (persist.union _).get? k = (persist.union _).get? k
      rw [h.buf]
  | crash bits hp =>
    refine ⟨⟨h.stdout, rfl, fun k => ?_⟩, rfl⟩
    show (Dict.union _ _).get? k = (Dict.union _ _).get? k
    rw [Dict.get?_union, Dict.get?_union, hp, h.buf]

/-! ### The bisimulation -/

namespace Reference

/-- The states agree in everything that a continuation can see. -/
structure Alike (insp : Inspect S H D) (r₁ r₂ : Reference V F S H) : Prop where
  contexts : r₁.contexts = r₂.contexts
  current : r₁.current = r₂.current
  newfork : r₁.newfork = r₂.newfork
  live : ∀ (i : ℕ) th₁ th₂, r₁.threads[i]? = some th₁ → r₂.threads[i]? = some th₂ →
    th₁.context.Live → th₁.heap = th₂.heap ∧ r₁.heaps[th₁.heap]? = r₂.heaps[th₁.heap]?
  dicts : r₁.heaps.map insp.dict = r₂.heaps.map insp.dict
  devices : SameDevices r₁.devices r₂.devices
  choices : SameChoices r₁.choices r₂.choices

variable {insp : Inspect S H D} {r₁ r₂ : Reference V F S H}

omit [PyVal V] in
theorem Alike.length (h : Alike insp r₁ r₂) : r₁.threads.length = r₂.threads.length := by
  have := congrArg List.length h.contexts
  rwa [Reference.contexts, Reference.contexts, List.length_map, List.length_map] at this

omit [PyVal V] in
/-- Thread by thread, the contexts agree. -/
theorem Alike.thread (h : Alike insp r₁ r₂) (i : ℕ) :
    (r₁.threads[i]? = none ∧ r₂.threads[i]? = none) ∨
      ∃ th₁ th₂, r₁.threads[i]? = some th₁ ∧ r₂.threads[i]? = some th₂ ∧
        th₁.context = th₂.context := by
  have hi : (r₁.threads[i]?).map Thread.context = (r₂.threads[i]?).map Thread.context := by
    rw [← getElem?_contexts, ← getElem?_contexts, h.contexts]
  cases h₁ : r₁.threads[i]? with
  | none =>
    rw [h₁] at hi
    exact Or.inl ⟨rfl, Option.map_eq_none_iff.mp hi.symm⟩
  | some th₁ =>
    rw [h₁] at hi
    obtain ⟨th₂, h₂, hc⟩ := Option.map_eq_some_iff.mp hi.symm
    exact Or.inr ⟨th₁, th₂, rfl, h₂, hc.symm⟩

omit [PyVal V] in
/-- States that agree have the same dump. -/
theorem Alike.stateDump (h : Alike insp r₁ r₂) : r₁.stateDump insp = r₂.stateDump insp := by
  have hctx : r₁.threads.map (contextDump insp (· + 1)) =
      r₂.threads.map (contextDump insp (· + 1)) := by
    refine List.ext_getElem? fun i => ?_
    rw [List.getElem?_map, List.getElem?_map]
    rcases h.thread i with ⟨h₁, h₂⟩ | ⟨th₁, th₂, h₁, h₂, hc⟩
    · rw [h₁, h₂]
    · rw [h₁, h₂]
      show some (contextDump insp _ th₁) = some (contextDump insp _ th₂)
      unfold contextDump
      have hlive := h.live i th₁ th₂ h₁ h₂
      rw [hc] at hlive ⊢
      -- the heap of a terminated thread does not appear
      cases hctx : th₂.context with
      | finished => rfl
      | start frame => rw [(hlive (by rw [hctx]; simp [Gen.Live])).1]
      | suspended frame call => rw [(hlive (by rw [hctx]; simp [Gen.Live])).1]
  have hheaps : (r₁.heaps.map fun h => some (insp.dict h)) =
      r₂.heaps.map fun h => some (insp.dict h) := by
    have := congrArg (List.map some) h.dicts
    rw [List.map_map, List.map_map] at this
    exact this
  have hpersist : r₁.devices.storage.persist.entries.toFinset =
      r₂.devices.storage.persist.entries.toFinset := by
    ext ⟨k, v⟩
    rw [List.mem_toFinset, List.mem_toFinset, ← Dict.get?_eq_some_iff, ← Dict.get?_eq_some_iff,
      h.devices.persist]
  unfold Reference.stateDump sortedKeys
  rw [h.current, h.choices.keys, hctx, hheaps, h.devices.stdout, hpersist, h.devices.buf]

/-- The results of an operation on two states that agree: they agree again, with the same value. -/
def AlikeResult {α : Type} (insp : Inspect S H D) (x y : Option (Reference V F S H × α)) : Prop :=
  Option.Rel (fun a b => Alike insp a.1 b.1 ∧ a.2 = b.2) x y

theorem Alike.switchTo (h : Alike insp r₁ r₂) (tid : ℕ) :
    AlikeResult insp (r₁.switchTo tid) (r₂.switchTo tid) := by
  rcases h.thread tid with ⟨h₁, h₂⟩ | ⟨th₁, th₂, h₁, h₂, -⟩
  · unfold Reference.switchTo
    rw [h₁, h₂]
    exact .none
  · rw [r₁.switchTo_of_some h₁, r₂.switchTo_of_some h₂, h.newfork]
    refine .some ⟨?_, rfl⟩
    exact { h with current := rfl, newfork := rfl }

omit [PyVal V] in
theorem Alike.heaps_length (h : Alike insp r₁ r₂) : r₁.heaps.length = r₂.heaps.length := by
  have := congrArg List.length h.dicts
  rwa [List.length_map, List.length_map] at this

omit [PyVal V] in
/-- A thread more on both sides, and new heaps. -/
theorem Alike.append (h : Alike insp r₁ r₂) {th₁ th₂ : Thread V F S} {heaps₁ heaps₂ : List H}
    (newfork : Finset ℕ) (hc : th₁.context = th₂.context) (hheap : th₁.heap = th₂.heap)
    (hnew : heaps₁[th₁.heap]? = heaps₂[th₁.heap]?)
    (hold : ∀ (i : ℕ) t₁ t₂, r₁.threads[i]? = some t₁ → r₂.threads[i]? = some t₂ →
      t₁.context.Live → heaps₁[t₁.heap]? = heaps₂[t₁.heap]?)
    (hdicts : heaps₁.map insp.dict = heaps₂.map insp.dict) :
    Alike insp { r₁ with threads := r₁.threads ++ [th₁], heaps := heaps₁, newfork := newfork }
      { r₂ with threads := r₂.threads ++ [th₂], heaps := heaps₂, newfork := newfork } := by
  have hlen := h.length
  refine ⟨?_, h.current, rfl, fun i t₁ t₂ h₁ h₂ hl => ?_, hdicts, h.devices, h.choices⟩
  · show (r₁.threads ++ [th₁]).map Thread.context = (r₂.threads ++ [th₂]).map Thread.context
    rw [List.map_append, List.map_append, List.map_singleton, List.map_singleton, hc]
    exact congrArg (· ++ _) h.contexts
  · replace h₁ : (r₁.threads ++ [th₁])[i]? = some t₁ := h₁
    replace h₂ : (r₂.threads ++ [th₂])[i]? = some t₂ := h₂
    -- an old thread keeps its heap, the last one is the new one
    by_cases hi : i < r₁.threads.length
    · rw [List.getElem?_append_left hi] at h₁
      rw [List.getElem?_append_left (hlen ▸ hi)] at h₂
      exact ⟨(h.live i t₁ t₂ h₁ h₂ hl).1, hold i t₁ t₂ h₁ h₂ hl⟩
    · have hi' : i = r₁.threads.length := by
        have := (List.getElem?_eq_some_iff.mp h₁).1
        rw [List.length_append, List.length_singleton] at this
        omega
      subst hi'
      rw [List.getElem?_concat_length] at h₁
      rw [hlen, List.getElem?_concat_length] at h₂
      obtain rfl := Option.some.inj h₁
      obtain rfl := Option.some.inj h₂
      exact ⟨hheap, hnew⟩

variable (app : App V F S H)

theorem Alike.spawn (h : Alike insp r₁ r₂) {th₁ th₂ : Thread V F S} {func : F} {args : List V}
    (h₁ : r₁.threads[r₁.current]? = some th₁) (h₂ : r₂.threads[r₂.current]? = some th₂)
    (hl : th₁.context.Live) :
    AlikeResult insp (r₁.perform app (.spawn func args)) (r₂.perform app (.spawn func args)) := by
  obtain ⟨hheap, hcontent⟩ := h.live r₁.current th₁ th₂ h₁ (h.current ▸ h₂) hl
  have hspawn : ∀ (r : Reference V F S H) th, r.threads[r.current]? = some th →
      r.perform app (.spawn func args) = (app.call func args).map fun frame =>
        ({ r with threads := r.threads ++ [⟨.start frame, th.heap⟩] }, PyVal.none) := by
    intro r th hth
    unfold Reference.perform
    simp only [hth]
    cases app.call func args <;> rfl
  rw [hspawn r₁ th₁ h₁, hspawn r₂ th₂ h₂]
  cases app.call func args with
  | none => exact .none
  | some frame =>
    refine .some ⟨?_, rfl⟩
    have hnew : Alike insp
        { r₁ with threads := r₁.threads ++ [⟨.start frame, th₁.heap⟩], newfork := r₁.newfork }
        { r₂ with threads := r₂.threads ++ [⟨.start frame, th₂.heap⟩], newfork := r₁.newfork } :=
      h.append r₁.newfork rfl hheap hcontent
        (fun i t₁ t₂ hi₁ hi₂ hl' => (h.live i t₁ t₂ hi₁ hi₂ hl').2) h.dicts
    exact { hnew with newfork := h.newfork }

theorem Alike.fork (h : Alike insp r₁ r₂) (hnum : r₁.Numbered) {th₁ th₂ : Thread V F S}
    (h₁ : r₁.threads[r₁.current]? = some th₁) (h₂ : r₂.threads[r₂.current]? = some th₂)
    (hc : th₁.context = th₂.context) (hl : th₁.context.Live) :
    AlikeResult insp r₁.fork r₂.fork := by
  obtain ⟨hheap, hcontent⟩ := h.live r₁.current th₁ th₂ h₁ (h.current ▸ h₂) hl
  have hlt : ∀ {i : ℕ} {t : Thread V F S}, r₁.threads[i]? = some t → t.heap < r₁.heaps.length :=
    fun hi => hnum.valid _ (List.mem_of_getElem? hi)
  obtain ⟨h₀, hh₀⟩ : ∃ h₀, r₁.heaps[th₁.heap]? = some h₀ := ⟨_, List.getElem?_eq_getElem (hlt h₁)⟩
  -- the child gets the same number on both sides, as equally many heaps exist
  have hlen := h.heaps_length
  rw [fork_of_some h₁ hh₀, fork_of_some h₂ (hheap ▸ hcontent ▸ hh₀), ← h.length, ← hlen,
    ← h.newfork]
  refine .some ⟨h.append _ hc rfl ?_ (fun i t₁ t₂ hi₁ hi₂ hl' => ?_) ?_, rfl⟩
  · rw [List.getElem?_concat_length, hlen, List.getElem?_concat_length]
  · have hi := hlt hi₁
    rw [List.getElem?_append_left hi, List.getElem?_append_left (hlen ▸ hi)]
    exact (h.live i t₁ t₂ hi₁ hi₂ hl').2
  · rw [List.map_append, List.map_append, h.dicts]

/-- Callbacks that agree do the same. -/
theorem Alike.perform (h : Alike insp r₁ r₂) (hnum : r₁.Numbered) {choice : Label}
    {g : Gen V F S} {a₁ a₂ : Action V F Unit} (hg : r₁.contexts[r₁.current]? = some g)
    (hfits : Fits r₁ choice g a₁) (ha : SameAction a₁ a₂) :
    AlikeResult insp (r₁.perform app a₁) (r₂.perform app a₂) := by
  obtain ⟨th₁, th₂, h₁, h₂, hg₁, hc⟩ : ∃ th₁ th₂, r₁.threads[r₁.current]? = some th₁ ∧
      r₂.threads[r₂.current]? = some th₂ ∧ th₁.context = g ∧ th₁.context = th₂.context := by
    rw [getElem?_contexts] at hg
    rcases h.thread r₁.current with ⟨h₁, -⟩ | ⟨th₁, th₂, h₁, h₂, hc⟩
    · rw [h₁] at hg
      cases hg
    · rw [h₁] at hg
      exact ⟨th₁, th₂, h₁, h.current ▸ h₂, Option.some.inj hg, hc⟩
  -- only the callback of a crash holds a dictionary whose order may differ
  cases ha with
  | crash bits hp =>
    obtain ⟨hdev, hval⟩ := h.devices.run (F := F) (.crash bits hp)
    exact .some ⟨{ h with devices := hdev }, hval⟩
  | refl =>
    cases hfits with
    | init frame => exact .some ⟨h, rfl⟩
    | spawn frame func args => exact h.spawn app h₁ h₂ (by rw [hg₁]; simp [Gen.Live])
    | fork frame => exact h.fork hnum h₁ h₂ hc (by rw [hg₁]; simp [Gen.Live])
    | sched frame hg' hl => exact h.switchTo _
    | finished hg' hl => exact h.switchTo _
    | dev frame hdev =>
      obtain ⟨hdev, hval⟩ := h.devices.run (F := F) (.refl _)
      exact .some ⟨{ h with devices := hdev }, hval⟩

omit [PyVal V] in
theorem Alike.setContext (h : Alike insp r₁ r₂) (hnum : r₁.Numbered) {th₁ th₂ : Thread V F S}
    (h₁ : r₁.threads[r₁.current]? = some th₁) (h₂ : r₂.threads[r₁.current]? = some th₂)
    (hheap : th₁.heap = th₂.heap) (g : Gen V F S) (h' : H) :
    Alike insp (r₁.setContext th₁ g h') (r₂.setContext th₂ g h') := by
  have hlt : th₁.heap < r₁.heaps.length := hnum.valid _ (List.mem_of_getElem? h₁)
  have hlt₂ : th₁.heap < r₂.heaps.length := h.heaps_length ▸ hlt
  -- the same write on both sides keeps the heaps that agree, and makes the written one agree
  have hset : ∀ k, k = th₁.heap ∨ r₁.heaps[k]? = r₂.heaps[k]? →
      (r₁.heaps.set th₁.heap h')[k]? = (r₂.heaps.set th₂.heap h')[k]? := by
    intro k hk
    rw [← hheap]
    by_cases heq : th₁.heap = k
    · rw [← heq, List.getElem?_set_self hlt, List.getElem?_set_self hlt₂]
    · rw [List.getElem?_set_ne heq, List.getElem?_set_ne heq]
      exact hk.resolve_left fun hk' => heq hk'.symm
  refine ⟨?_, h.current, h.newfork, fun i t₁ t₂ hi₁ hi₂ hl => ?_, ?_, h.devices, h.choices⟩
  · show (r₁.threads.set r₁.current _).map Thread.context =
      (r₂.threads.set r₂.current _).map Thread.context
    rw [List.map_set, List.map_set, ← h.current]
    exact congrArg (fun l => List.set l r₁.current g) h.contexts
  · replace hi₁ : (r₁.threads.set r₁.current { th₁ with context := g })[i]? = some t₁ := hi₁
    replace hi₂ : (r₂.threads.set r₂.current { th₂ with context := g })[i]? = some t₂ := hi₂
    rw [← h.current] at hi₂
    show t₁.heap = t₂.heap ∧
      (r₁.heaps.set th₁.heap h')[t₁.heap]? = (r₂.heaps.set th₂.heap h')[t₁.heap]?
    by_cases hi : r₁.current = i
    · subst hi
      rw [List.getElem?_set_self (List.getElem?_eq_some_iff.mp h₁).1] at hi₁
      rw [List.getElem?_set_self (List.getElem?_eq_some_iff.mp h₂).1] at hi₂
      obtain rfl := Option.some.inj hi₁
      obtain rfl := Option.some.inj hi₂
      exact ⟨hheap, hset _ (Or.inl rfl)⟩
    · rw [List.getElem?_set_ne hi] at hi₁ hi₂
      obtain ⟨heq, hcontent⟩ := h.live i t₁ t₂ hi₁ hi₂ hl
      exact ⟨heq, hset _ (Or.inr hcontent)⟩
  · show (r₁.heaps.set th₁.heap h').map insp.dict = (r₂.heaps.set th₂.heap h').map insp.dict
    rw [List.map_set, List.map_set, h.dicts, hheap]

omit [DecidableEq V] [PyVal V] in
theorem resume_of_some {ref : Reference V F S H} {th : Thread V F S} {h₀ : H}
    (hh : ref.heaps[th.heap]? = some h₀) (frame : S) (res : V) :
    ref.resume app th frame res = match app.resume frame res h₀ with
      | .yields frame call h' => some (ref.setContext th (.suspended frame call) h', some call)
      | .returns h' => some (ref.setContext th .finished h', none)
      | .raises => none := by
  unfold Reference.resume
  rw [hh]
  rfl

omit [PyVal V] in
/-- Thread code does the same on both sides. -/
theorem Alike.resume (h : Alike insp r₁ r₂) (hnum : r₁.Numbered) {th₁ th₂ : Thread V F S}
    (h₁ : r₁.threads[r₁.current]? = some th₁) (h₂ : r₂.threads[r₁.current]? = some th₂)
    (hl : th₁.context.Live) (frame : S) (res : V) :
    AlikeResult insp (r₁.resume app th₁ frame res) (r₂.resume app th₂ frame res) := by
  obtain ⟨hheap, hcontent⟩ := h.live r₁.current th₁ th₂ h₁ h₂ hl
  have hlt : th₁.heap < r₁.heaps.length := hnum.valid _ (List.mem_of_getElem? h₁)
  obtain ⟨h₀, hh₀⟩ : ∃ h₀, r₁.heaps[th₁.heap]? = some h₀ := ⟨_, List.getElem?_eq_getElem hlt⟩
  rw [resume_of_some app hh₀, resume_of_some app (hheap ▸ hcontent ▸ hh₀)]
  cases app.resume frame res h₀ with
  | yields frame' call h' => exact .some ⟨h.setContext hnum h₁ h₂ hheap _ h', rfl⟩
  | returns h' => exact .some ⟨h.setContext hnum h₁ h₂ hheap _ h', rfl⟩
  | raises => exact .none

theorem Alike.send (h : Alike insp r₁ r₂) (hnum : r₁.Numbered) (res : V) :
    AlikeResult insp (r₁.send app res) (r₂.send app res) := by
  unfold Reference.send
  rw [← h.current]
  rcases h.thread r₁.current with ⟨h₁, h₂⟩ | ⟨th₁, th₂, h₁, h₂, hc⟩
  · rw [h₁, h₂]
    exact .none
  · rw [h₁, h₂]
    have hresume := h.resume app hnum h₁ h₂
    obtain ⟨context, heap₁⟩ := th₁
    obtain ⟨context', heap₂⟩ := th₂
    obtain rfl : context = context' := hc
    cases context with
    | finished => exact .some ⟨h, rfl⟩
    | start frame =>
      show AlikeResult insp (if res = PyVal.none then r₁.resume app _ frame res else none)
        (if res = PyVal.none then r₂.resume app _ frame res else none)
      by_cases hres : res = PyVal.none
      · rw [if_pos hres, if_pos hres]
        exact hresume (by simp [Gen.Live]) frame res
      · rw [if_neg hres, if_neg hres]
        exact .none
    | suspended frame call => exact hresume (by simp [Gen.Live]) frame res

/-- A system call offers the same, if the contexts and the devices agree. -/
theorem sameChoices_syscall (hctx : r₁.contexts = r₂.contexts)
    (hdev : SameDevices r₁.devices r₂.devices) (call : Option (Syscall V F)) :
    SameChoices (r₁.syscall call) (r₂.syscall call) := by
  have hsched : SameChoices (F := F) (sysSched r₁.contexts) (sysSched r₂.contexts) := by
    rw [hctx]
    exact .refl _
  cases call with
  | none => exact hsched
  | some call =>
    cases call with
    | spawn func args => exact .refl _
    | fork => exact .refl _
    | sched => exact hsched
    | dev c => exact hdev.table c

/-- **One step** from states that agree: both raise an exception, or the new states agree. -/
theorem Alike.step (h : Alike insp r₁ r₂) (hinv₁ : r₁.Inv app) (hinv₂ : r₂.Inv app)
    (hnum : r₁.Numbered) (choice : Label) :
    Option.Rel (Alike insp) (r₁.step app choice) (r₂.step app choice) := by
  have hchoose : AlikeResult insp (r₁.choose app choice) (r₂.choose app choice) := by
    rw [hinv₁.choose_eq, hinv₂.choose_eq]
    rcases rel_cases (h.choices.get? choice) with ⟨ha₁, ha₂⟩ | ⟨a₁, a₂, ha₁, ha₂, ha⟩
    · rw [ha₁, ha₂]
      exact .none
    · rw [ha₁, ha₂]
      obtain ⟨g, hg, hfits⟩ := hinv₁.fits app ha₁
      exact h.perform app hnum hg hfits ha
  unfold Reference.step Reference.advance
  rcases rel_cases hchoose with ⟨hx, hy⟩ | ⟨x, y, hx, hy, hxy, hval⟩
  · rw [hx, hy]
    exact .none
  · rw [hx, hy]
    have hnumx : x.1.Numbered := by
      obtain ⟨a, -, -, -, -, hperform⟩ := hinv₁.choose_cases app hx
      exact hnum.perform app hperform
    show Option.Rel (Alike insp)
      (x.1.send app x.2 >>= fun r => some { r.1 with choices := r.1.syscall r.2 })
      (y.1.send app y.2 >>= fun r => some { r.1 with choices := r.1.syscall r.2 })
    rw [← hval]
    rcases rel_cases (hxy.send app hnumx x.2) with ⟨hx', hy'⟩ | ⟨x', y', hx', hy', hxy', hcall⟩
    · rw [hx', hy']
      exact .none
    · rw [hx', hy']
      refine .some { hxy' with choices := ?_ }
      show SameChoices (x'.1.syscall x'.2) (y'.1.syscall y'.2)
      rw [← hcall]
      exact sameChoices_syscall hxy'.contexts hxy'.devices x'.2

/-- **Every continuation** of states that agree gives the same dump, or raises an exception on
both sides. -/
theorem Alike.run (h : Alike insp r₁ r₂) (trace₁ trace₂ : List Label)
    (h₁ : Reference.run app trace₁ = some r₁) (h₂ : Reference.run app trace₂ = some r₂)
    (u : List Label) : Option.Rel (Alike insp) (Reference.run app (trace₁ ++ u))
      (Reference.run app (trace₂ ++ u)) := by
  induction u using List.reverseRecOn with
  | nil =>
    rw [List.append_nil, List.append_nil, h₁, h₂]
    exact .some h
  | append_singleton u choice ih =>
    rw [← List.append_assoc, ← List.append_assoc, run_concat, run_concat]
    rcases rel_cases ih with ⟨hx, hy⟩ | ⟨x, y, hx, hy, hxy⟩
    · rw [hx, hy]
      exact .none
    · rw [hx, hy]
      exact hxy.step app (inv_run app _ hx) (inv_run app _ hy) (numbered_run app _ hx) choice

omit [DecidableEq V] [PyVal V] in
/-- The new children are the threads at a `sys_fork` that are not current. -/
theorem mem_newfork_iff {contexts : List (Gen V F S)} {current : ℕ} {newfork : Finset ℕ}
    (h : Standing contexts current newfork) (i : ℕ) :
    i ∈ newfork ↔ i ≠ current ∧ ∃ frame, contexts[i]? = some (.suspended frame .fork) := by
  constructor
  · exact fun hi => ⟨fun heq => h.current_not_new (heq ▸ hi), h.new i hi⟩
  · rintro ⟨hne, frame, hframe⟩
    rcases h.other i _ hne hframe (by simp [Gen.Live]) with ⟨f, hf, -⟩ | ⟨f, hf, -⟩ | ⟨f, -, hi⟩
    · cases hf
    · cases hf
    · exact hi

omit [PyVal V] in
theorem sameDevices_of_stateDump (hdump : r₁.stateDump insp = r₂.stateDump insp)
    (hbuf : r₁.devices.storage.buf = r₂.devices.storage.buf) :
    SameDevices r₁.devices r₂.devices := by
  refine ⟨congrArg Dump.stdout hdump, hbuf, fun k => ?_⟩
  have hpersist : r₁.devices.storage.persist.entries.toFinset =
    r₂.devices.storage.persist.entries.toFinset := congrArg Dump.storePersist hdump
  refine Option.ext fun v => ?_
  rw [Dict.get?_eq_some_iff, Dict.get?_eq_some_iff, ← List.mem_toFinset, hpersist,
    List.mem_toFinset]

omit [PyVal V] in
/-- A dump shows the heap of a live thread. -/
theorem heap_of_stateDump (hdump : r₁.stateDump insp = r₂.stateDump insp) {i : ℕ}
    {th₁ th₂ : Thread V F S} (h₁ : r₁.threads[i]? = some th₁) (h₂ : r₂.threads[i]? = some th₂)
    (hl : th₁.context.Live) : th₁.heap = th₂.heap := by
  have hdumps : r₁.threads.map (contextDump insp (· + 1)) =
    r₂.threads.map (contextDump insp (· + 1)) := congrArg Dump.contexts hdump
  have hi := congrArg (fun l => l[i]?) hdumps
  simp only [List.getElem?_map, h₁, h₂, Option.map_some, Option.some.injEq] at hi
  obtain ⟨frame, hframe⟩ : ∃ frame, th₁.context.frame? = some frame := by
    cases hc : th₁.context with
    | start frame => exact ⟨frame, rfl⟩
    | suspended frame call => exact ⟨frame, rfl⟩
    | finished => exact absurd hc hl
  rw [contextDump, hframe] at hi
  obtain ⟨frame₂, -, heq⟩ := Option.map_eq_some_iff.mp hi.symm
  exact (Nat.succ.inj (congrArg ContextDump.heap heq)).symm

/-- The choices follow from the context of the current thread. -/
theorem sameChoices_of_offers (h₁ : r₁.Offers app) (h₂ : r₂.Offers app)
    (hctx : r₁.contexts = r₂.contexts) (hcur : r₁.current = r₂.current)
    (hdev : SameDevices r₁.devices r₂.devices) : SameChoices r₁.choices r₂.choices := by
  unfold Offers at h₁ h₂
  rw [← hctx, ← hcur] at h₂
  cases hg : r₁.contexts[r₁.current]? with
  | none =>
    rw [hg] at h₁
    exact h₁.elim
  | some g =>
    rw [hg] at h₁ h₂
    cases g with
    | start frame =>
      replace h₁ : r₁.choices = initChoices app.initName := h₁
      replace h₂ : r₂.choices = initChoices app.initName := h₂
      rw [h₁, h₂]
      exact .refl _
    | suspended frame call =>
      replace h₁ : r₁.choices = r₁.syscall (some call) := h₁
      replace h₂ : r₂.choices = r₂.syscall (some call) := h₂
      rw [h₁, h₂]
      exact sameChoices_syscall hctx hdev _
    | finished =>
      replace h₁ : r₁.choices = r₁.syscall none := h₁
      replace h₂ : r₂.choices = r₂.syscall none := h₂
      rw [h₁, h₂]
      exact sameChoices_syscall hctx hdev _

/-- Reachable states with the same dump agree, if the parts that a dump leaves out do. -/
theorem alike_of_stateDump (hinv₁ : r₁.Inv app) (hinv₂ : r₂.Inv app)
    (hdump : r₁.stateDump insp = r₂.stateDump insp) (hctx : r₁.contexts = r₂.contexts)
    (hheaps : ∀ (i : ℕ) th₁ th₂, r₁.threads[i]? = some th₁ → r₂.threads[i]? = some th₂ →
      th₁.context.Live → r₁.heaps[th₁.heap]? = r₂.heaps[th₂.heap]?)
    (hbuf : r₁.devices.storage.buf = r₂.devices.storage.buf) : Alike insp r₁ r₂ := by
  have hcur : r₁.current = r₂.current := congrArg Dump.current hdump
  have hdev := sameDevices_of_stateDump hdump hbuf
  have hnewfork : r₁.newfork = r₂.newfork := by
    ext i
    rw [mem_newfork_iff hinv₁.standing, mem_newfork_iff hinv₂.standing, hctx, hcur]
  have hlive : ∀ (i : ℕ) th₁ th₂, r₁.threads[i]? = some th₁ → r₂.threads[i]? = some th₂ →
      th₁.context.Live → th₁.heap = th₂.heap ∧ r₁.heaps[th₁.heap]? = r₂.heaps[th₁.heap]? := by
    intro i th₁ th₂ h₁ h₂ hl
    have hheap := heap_of_stateDump hdump h₁ h₂ hl
    exact ⟨hheap, by rw [hheaps i th₁ th₂ h₁ h₂ hl, hheap]⟩
  have hdicts : r₁.heaps.map insp.dict = r₂.heaps.map insp.dict := by
    have hsome : (r₁.heaps.map fun h => some (insp.dict h)) =
      r₂.heaps.map fun h => some (insp.dict h) := congrArg Dump.heaps hdump
    refine (List.map_injective_iff.mpr (Option.some_injective D)) ?_
    rw [List.map_map, List.map_map]
    exact hsome
  exact ⟨hctx, hcur, hnewfork, hlive, hdicts, hdev,
    sameChoices_of_offers app hinv₁.offers hinv₂.offers hctx hcur hdev⟩

end Reference

/-! ### The operating system -/

/-- What a dump leaves out agrees: the generators with all that is in their frames and with the
system calls they wait for, the contents of the heaps of live threads, and the order of the
entries of the buffer. -/
structure SameHidden (w₁ : World H) (os₁ : OperatingSystem V F S) (w₂ : World H)
    (os₂ : OperatingSystem V F S) : Prop where
  contexts : os₁.contexts = os₂.contexts
  heaps : ∀ (i : ℕ) th₁ th₂, os₁.threads[i]? = some th₁ → os₂.threads[i]? = some th₂ →
    th₁.context.Live → w₁.heaps[th₁.heap]? = w₂.heaps[th₂.heap]?
  buf : os₁.devices.storage.buf = os₂.devices.storage.buf

variable (app : App V F S H) (insp : Inspect S H D)

/-- The state that a trace reaches is that of the reference. -/
theorem exists_sim_of_run {trace : List Label} {w w' : World H} {os : OperatingSystem V F S}
    (h : OperatingSystem.run app trace.length [] trace w = (.ok os, w')) :
    ∃ ref ρ, Reference.run app trace = some ref ∧ Sim w.heaps.length ρ w' os ref := by
  obtain ⟨ref, href, -, -, ρ, hsim⟩ :=
    (runSim app trace.length trace (le_refl _) [] rfl w).exists_some h
  exact ⟨ref, ρ, href, hsim⟩

/-- **Dumps are faithful where what they leave out agrees.**  If two traces reach states with equal
dumps that also agree in the hidden parts, then every continuation can be executed after one trace
if and only if it can be executed after the other, with equal dumps. -/
theorem replayDump_of_sameHidden (trace₁ trace₂ : List Label) {w₁ w₂ : World H}
    {os₁ os₂ : OperatingSystem V F S}
    (h₁ : OperatingSystem.run app trace₁.length [] trace₁ ⟨[], 0, []⟩ = (.ok os₁, w₁))
    (h₂ : OperatingSystem.run app trace₂.length [] trace₂ ⟨[], 0, []⟩ = (.ok os₂, w₂))
    (hdump : os₁.stateDump insp w₁ = os₂.stateDump insp w₂)
    (hhidden : SameHidden w₁ os₁ w₂ os₂) (u : List Label) :
    replayDump app insp (trace₁ ++ u) = replayDump app insp (trace₂ ++ u) := by
  obtain ⟨r₁, ρ₁, href₁, hsim₁⟩ := exists_sim_of_run app h₁
  obtain ⟨r₂, ρ₂, href₂, hsim₂⟩ := exists_sim_of_run app h₂
  have hsame₁ := hsim₁.sameState
  have hsame₂ := hsim₂.sameState
  have halike : Reference.Alike insp r₁ r₂ := by
    refine Reference.alike_of_stateDump app (Reference.inv_run app _ href₁)
      (Reference.inv_run app _ href₂) ?_ ?_ ?_ ?_
    · rw [hsim₁.stateDump insp (Reference.numbered_run app _ href₁),
        hsim₂.stateDump insp (Reference.numbered_run app _ href₂)] at hdump
      exact Option.some.inj hdump
    · rw [← hsame₁.contexts, ← hsame₂.contexts, hhidden.contexts]
    · intro i th₁ th₂ hi₁ hi₂ hl
      have hos₁ := hsim₁.getElem? i
      have hos₂ := hsim₂.getElem? i
      rw [hi₁] at hos₁
      rw [hi₂] at hos₂
      rw [← hsim₁.heaps _ (hsim₁.heap_lt hi₁), ← hsim₂.heaps _ (hsim₂.heap_lt hi₂)]
      exact hhidden.heaps i _ _ hos₁ hos₂ hl
    · rw [← hsame₁.devices, ← hsame₂.devices, hhidden.buf]
  rw [replayDump_eq, replayDump_eq]
  rcases rel_cases (halike.run app trace₁ trace₂ href₁ href₂ u) with
    ⟨hx, hy⟩ | ⟨x, y, hx, hy, hxy⟩
  · rw [hx, hy]
  · rw [hx, hy]
    exact congrArg some hxy.stateDump

/-- A `main` that switches forever, `while True: sys_sched()`. -/
def spinApp : App (Option ℕ) Unit Unit Unit where
  initName := ['m', 'a', 'i', 'n']
  init := ()
  call _ _ := none
  resume _ _ h := .yields () .sched h
  emptyHeap := ()

def spinInspect : Inspect Unit Unit Unit where
  name _ := ['m', 'a', 'i', 'n']
  lineno _ := 2
  locals _ := ()
  dict _ := ()

/-- The state of `spinApp` after a trace: `main` is at its `sys_sched`. -/
def spinState (trace : List Label) : OperatingSystem (Option ℕ) Unit Unit :=
  ⟨[⟨.suspended () .sched, 0⟩], 0, some (sysSched [.suspended () .sched]), .init, trace, ∅⟩

theorem replayDump_of_sameHidden_spinApp :
    replayDump spinApp spinInspect ([.text ['m', 'a', 'i', 'n']] ++ [.text ['t', '1']]) =
      replayDump spinApp spinInspect
        ([.text ['m', 'a', 'i', 'n'], .text ['t', '1']] ++ [.text ['t', '1']]) := by
  have h₁ : OperatingSystem.run spinApp 1 [] [.text ['m', 'a', 'i', 'n']] ⟨[], 0, []⟩ =
    (.ok (spinState [.text ['m', 'a', 'i', 'n']]), ⟨[()], 0, [(0, 0)]⟩) := rfl
  have h₂ : OperatingSystem.run spinApp 2 [] [.text ['m', 'a', 'i', 'n'], .text ['t', '1']]
      ⟨[], 0, []⟩ = (.ok (spinState [.text ['m', 'a', 'i', 'n'], .text ['t', '1']]),
        ⟨[()], 0, [(0, 0), (0, 0)]⟩) := rfl
  refine replayDump_of_sameHidden spinApp spinInspect [.text ['m', 'a', 'i', 'n']]
    [.text ['m', 'a', 'i', 'n'], .text ['t', '1']] h₁ h₂ rfl ⟨rfl, fun i => ?_, rfl⟩ _
  cases i with
  | zero =>
    rintro th₁ th₂ h₁ h₂ -
    obtain rfl := Option.some.inj h₁
    obtain rfl := Option.some.inj h₂
    rfl
  | succ i => exact fun _ _ h₁ => nomatch h₁

/-! ### A loop that a dump does not show -/

/-- The frames of a `main` with the body `for _ in [0, 0]: sys_sched()` followed by
`sys_write(1)`: before the first statement, in the loop with a number of rounds left, and
after it. -/
inductive LoopFrame where
  | start
  | round (left : ℕ)
  | write
deriving DecidableEq

def loopApp : App (Option ℕ) Unit LoopFrame Unit where
  initName := ['m', 'a', 'i', 'n']
  init := .start
  call _ _ := none
  resume
    | .start, _, h => .yields (.round 1) .sched h
    | .round (left + 1), _, h => .yields (.round left) .sched h
    | .round 0, _, h => .yields .write (.dev (.write [some 1])) h
    | .write, _, h => .returns h
  emptyHeap := ()

/-- In both rounds the line is that of the `sys_sched`, and the local variable `_` is `0`. -/
def loopInspect : Inspect LoopFrame Unit (List ℕ) where
  name _ := ['m', 'a', 'i', 'n']
  lineno
    | .start => 1
    | .round _ => 3
    | .write => 4
  locals
    | .start => []
    | .round _ => [0]
    | .write => [0]
  dict _ := []

/-- The two rounds of the loop have equal dumps, but from the first one `t1` leads to the second and
from the second to the `sys_write`. -/
theorem replayDump_loopApp :
    (replayDump loopApp loopInspect [.text ['m', 'a', 'i', 'n']]).isSome = true ∧
      replayDump loopApp loopInspect [.text ['m', 'a', 'i', 'n']] =
        replayDump loopApp loopInspect [.text ['m', 'a', 'i', 'n'], .text ['t', '1']] ∧
      (replayDump loopApp loopInspect
        ([.text ['m', 'a', 'i', 'n']] ++ [.text ['t', '1']])).isSome = true ∧
      replayDump loopApp loopInspect ([.text ['m', 'a', 'i', 'n']] ++ [.text ['t', '1']]) ≠
        replayDump loopApp loopInspect
          ([.text ['m', 'a', 'i', 'n'], .text ['t', '1']] ++ [.text ['t', '1']]) := by
  decide

end Jyyos.Mosaic
