import Jyyos.Mosaic.StateDump
import Jyyos.Mosaic.Equiv.Fork

/-!
# The dumps of the reference

The numbers that a dump gives to the heaps are the positions of the heaps in the reference, counted
from one: the threads of the reference mention its heaps in the order in which they were made
(`Numbered`), and `heapIds` does not depend on how the heaps are called.  So related states have
the same dump, and `replayDump` can be read off the reference (`replayDump_eq`).
-/

namespace Jyyos.Mosaic

variable {V F S H D : Type}

/-! ### Numbering -/

theorem heapIds_concat (heaps : List ℕ) (i : ℕ) : heapIds (heaps ++ [i]) =
    if i ∈ heapIds heaps then heapIds heaps else heapIds heaps ++ [i] := by
  rw [heapIds, List.foldl_append]
  rfl

theorem heapIds_subset (heaps : List ℕ) : ∀ i ∈ heapIds heaps, i ∈ heaps := by
  induction heaps using List.reverseRecOn with
  | nil => exact fun i hi => hi
  | append_singleton heaps k ih =>
    intro i hi
    rw [heapIds_concat] at hi
    split_ifs at hi
    · exact List.mem_append_left _ (ih i hi)
    · rcases List.mem_append.mp hi with hi | hi
      · exact List.mem_append_left _ (ih i hi)
      · exact List.mem_append_right _ hi

/-- Calling the heaps by other names does not change which come first. -/
theorem heapIds_map {ρ : ℕ → ℕ} (heaps : List ℕ) (hρ : Set.InjOn ρ {i | i ∈ heaps}) :
    heapIds (heaps.map ρ) = (heapIds heaps).map ρ := by
  induction heaps using List.reverseRecOn with
  | nil => rfl
  | append_singleton heaps k ih =>
    have hsub : Set.InjOn ρ {i | i ∈ heaps} :=
      hρ.mono fun i hi => List.mem_append_left _ hi
    have hmem : ρ k ∈ (heapIds heaps).map ρ ↔ k ∈ heapIds heaps := by
      constructor
      · intro h
        obtain ⟨i, hi, heq⟩ := List.mem_map.mp h
        have : i = k := hρ (List.mem_append_left _ (heapIds_subset heaps i hi))
          (List.mem_append_right _ (List.mem_singleton_self k)) heq
        exact this ▸ hi
      · exact fun h => List.mem_map_of_mem h
    rw [List.map_append, List.map_singleton, heapIds_concat, heapIds_concat, ih hsub]
    by_cases hk : k ∈ heapIds heaps
    · rw [if_pos hk, if_pos (hmem.mpr hk)]
    · rw [if_neg hk, if_neg (fun h => hk (hmem.mp h)), List.map_append, List.map_singleton]

theorem heapNumber_map_range {ρ : ℕ → ℕ} {n k : ℕ} (hρ : Set.InjOn ρ (Set.Iio n)) (hk : k < n) :
    heapNumber ((List.range n).map ρ) (ρ k) = k + 1 := by
  have hnd : ((List.range n).map ρ).Nodup :=
    List.nodup_range.map_on fun i hi j hj => hρ (List.mem_range.mp hi) (List.mem_range.mp hj)
  have hk' : k < ((List.range n).map ρ).length := by
    rw [List.length_map, List.length_range]
    exact hk
  have hget : ((List.range n).map ρ)[k] = ρ k := by
    rw [List.getElem_map, List.getElem_range]
  have := hnd.idxOf_getElem k hk'
  rw [hget] at this
  rw [heapNumber, this]

/-! ### The reference numbers its heaps -/

/-- The threads mention the heaps in the order in which they were made. -/
structure Reference.Numbered (ref : Reference V F S H) : Prop where
  ids : heapIds (ref.threads.map Thread.heap) = List.range ref.heaps.length
  valid : ∀ th ∈ ref.threads, th.heap < ref.heaps.length

namespace Reference

variable {ref : Reference V F S H}

theorem Numbered.congr (h : ref.Numbered) {ref' : Reference V F S H}
    (hthreads : ref'.threads.map Thread.heap = ref.threads.map Thread.heap)
    (hheaps : ref'.heaps.length = ref.heaps.length) : ref'.Numbered := by
  refine ⟨by rw [hthreads, hheaps, h.ids], fun th hth => ?_⟩
  have : th.heap ∈ ref.threads.map Thread.heap := hthreads ▸ List.mem_map_of_mem hth
  obtain ⟨th', hth', heq⟩ := List.mem_map.mp this
  rw [hheaps, ← heq]
  exact h.valid th' hth'

variable [PyVal V]

theorem Numbered.switchTo (h : ref.Numbered) {tid : ℕ} {r : Reference V F S H × V}
    (hr : ref.switchTo tid = some r) : r.1.Numbered := by
  obtain ⟨th, -, rfl⟩ := switchTo_cases hr
  exact h.congr rfl rfl

theorem Numbered.fork (h : ref.Numbered) {r : Reference V F S H × V}
    (hr : ref.fork = some r) : r.1.Numbered := by
  obtain ⟨th, h₀, -, -, rfl⟩ := fork_cases hr
  refine ⟨?_, fun t ht => ?_⟩
  · show heapIds ((ref.threads ++ [_]).map _) = List.range (ref.heaps ++ [h₀]).length
    rw [List.map_append, List.map_singleton, heapIds_concat, h.ids, List.length_append,
      List.length_singleton, List.range_succ]
    exact if_neg fun hmem => absurd (List.mem_range.mp hmem) (lt_irrefl _)
  · show t.heap < (ref.heaps ++ [h₀]).length
    rw [List.length_append, List.length_singleton]
    rcases List.mem_append.mp ht with ht | ht
    · exact Nat.lt_succ_of_lt (h.valid t ht)
    · rw [List.mem_singleton.mp ht]
      exact Nat.lt_succ_self _

variable [DecidableEq V] (app : App V F S H)

theorem Numbered.perform (h : ref.Numbered) {a : Action V F Unit} {r : Reference V F S H × V}
    (hr : ref.perform app a = some r) : r.1.Numbered := by
  cases a with
  | init =>
    obtain rfl := Option.some.inj hr
    exact h
  | spawn func args =>
    obtain ⟨frame, -, hr⟩ := Option.bind_eq_some_iff.mp hr
    obtain ⟨th, hth, hr⟩ := Option.bind_eq_some_iff.mp hr
    obtain rfl := Option.some.inj hr
    have hlt : th.heap < ref.heaps.length := h.valid th (List.mem_of_getElem? hth)
    refine ⟨?_, fun t ht => ?_⟩
    · show heapIds ((ref.threads ++ [_]).map _) = List.range ref.heaps.length
      rw [List.map_append, List.map_singleton, heapIds_concat, h.ids]
      exact if_pos (List.mem_range.mpr hlt)
    · rcases List.mem_append.mp ht with ht | ht
      · exact h.valid t ht
      · rw [List.mem_singleton.mp ht]
        exact hlt
  | fork child => exact h.fork hr
  | switch tid => exact h.switchTo hr
  | dev a =>
    obtain rfl := Option.some.inj hr
    exact h.congr rfl rfl

theorem Numbered.send (h : ref.Numbered) {res : V}
    {r : Reference V F S H × Option (Syscall V F)} (hr : ref.send app res = some r) :
    r.1.Numbered := by
  obtain ⟨th, hth, hcases⟩ := send_cases app hr
  have hset : ∀ g h', (ref.setContext th g h').Numbered := by
    intro g h'
    refine h.congr ?_ List.length_set
    show (ref.threads.set ref.current _).map Thread.heap = _
    rw [List.map_set]
    refine List.ext_getElem? fun i => ?_
    by_cases hi : ref.current = i
    · have hlt : i < (ref.threads.map Thread.heap).length := by
        rw [List.length_map, ← hi]
        exact (List.getElem?_eq_some_iff.mp hth).1
      rw [hi, List.getElem?_set_self hlt, List.getElem?_map, ← hi, hth]
      rfl
    · exact List.getElem?_set_ne hi
  rcases hcases with ⟨-, rfl⟩ | ⟨frame, h₀, -, -, ⟨frame', call, h', -, rfl⟩ | ⟨h', -, rfl⟩⟩
  · exact h
  · exact hset _ _
  · exact hset _ _

theorem Numbered.step (h : ref.Numbered) {choice : Label} {ref' : Reference V F S H}
    (hstep : ref.step app choice = some ref') : ref'.Numbered := by
  obtain ⟨r, hadv, hr⟩ := Option.bind_eq_some_iff.mp hstep
  obtain ⟨r₁, hchoose, hsend⟩ := Option.bind_eq_some_iff.mp hadv
  obtain ⟨r₀, hswitch, hr₁⟩ := Option.bind_eq_some_iff.mp hchoose
  obtain ⟨a, -, hperform⟩ := Option.bind_eq_some_iff.mp hr₁
  obtain rfl := Option.some.inj hr
  exact (((h.switchTo hswitch).perform app hperform).send app hsend).congr rfl rfl

theorem numbered_run (trace : List Label) : ∀ {ref : Reference V F S H},
    Reference.run app trace = some ref → ref.Numbered := by
  induction trace using List.reverseRecOn with
  | nil =>
    intro ref h
    obtain rfl := Option.some.inj h
    refine ⟨rfl, fun th hth => ?_⟩
    rw [List.mem_singleton.mp hth]
    exact Nat.zero_lt_one
  | append_singleton trace choice ih =>
    intro ref h
    rw [run_concat] at h
    obtain ⟨ref₀, h₀, hstep⟩ := Option.bind_eq_some_iff.mp h
    exact (ih h₀).step app hstep

end Reference

/-! ### Dumps -/

variable [DecidableEq V] (insp : Inspect S H D)

/-- Related states have the same dump. -/
theorem Sim.stateDump {base : ℕ} {ρ : ℕ → ℕ} {w : World H} {os : OperatingSystem V F S}
    {ref : Reference V F S H} (h : Sim base ρ w os ref) (hnum : ref.Numbered) :
    os.stateDump insp w = some (ref.stateDump insp) := by
  obtain ⟨table, htable, hforget⟩ := Option.map_eq_some_iff.mp h.choices
  have hkeys : table.keys = ref.choices.keys := by
    rw [← hforget, Dict.keys_map]
  have hids : heapIds (os.threads.map Thread.heap) = (List.range ref.heaps.length).map ρ := by
    have hmap : os.threads.map Thread.heap = (ref.threads.map Thread.heap).map ρ := by
      rw [h.threads, List.map_map, List.map_map]
      rfl
    rw [hmap, heapIds_map, hnum.ids]
    refine h.inj.mono fun i hi => ?_
    obtain ⟨th, hth, rfl⟩ := List.mem_map.mp hi
    exact h.valid th hth
  have hctx : os.threads.map (contextDump insp (heapNumber (heapIds
      (os.threads.map Thread.heap)))) = ref.threads.map (contextDump insp (· + 1)) := by
    rw [hids, h.threads, List.map_map]
    refine List.map_congr_left fun th hth => ?_
    show (th.context.frame?).map _ = (th.context.frame?).map _
    rw [show (th.relabel ρ).heap = ρ th.heap from rfl, heapNumber_map_range h.inj (h.valid th hth)]
  have hheaps : ((heapIds (os.threads.map Thread.heap)).map fun i => (w.heaps[i]?).map insp.dict) =
      ref.heaps.map fun h => some (insp.dict h) := by
    rw [hids, List.map_map]
    refine List.ext_getElem (by simp) fun k hk hk' => ?_
    rw [List.length_map] at hk'
    rw [List.getElem_map, List.getElem_range, List.getElem_map]
    show (w.heaps[ρ k]?).map _ = _
    rw [h.heaps k hk', List.getElem?_eq_getElem hk']
    rfl
  unfold OperatingSystem.stateDump Reference.stateDump sortedKeys
  simp only [htable, Option.map_some, hkeys, hctx, hheaps, h.current, h.devices]

variable [PyVal V] (app : App V F S H)

/-- **The dump that a replay returns** is the dump of the reference, in whatever world the replay
starts. -/
theorem run_stateDump (trace : List Label) (k : ℕ) (w : World H) :
    Exec.Refines (Kept w.heaps.length) .exception
      (fun os w' ref => os.stateDump insp w' = some (ref.stateDump insp))
      (OperatingSystem.run app (trace.length + k) [] trace) w (Reference.run app trace) := by
  have hrun := runSim app (trace.length + k) trace (Nat.le_add_right ..) [] rfl w
  refine hrun.mono fun os w' ref hos _ href => ?_
  obtain ⟨-, ρ, hsim⟩ := hos
  exact hsim.stateDump insp (Reference.numbered_run app trace href)

theorem replayDump_eq (trace : List Label) :
    replayDump app insp trace = (Reference.run app trace).map (Reference.stateDump insp) := by
  unfold replayDump
  obtain ⟨os, w, ref, hos, href, -, hdump⟩ | ⟨w, hos, href, -⟩ :=
    (run_stateDump insp app trace 0 ⟨[], 0, []⟩).cases
  · rw [Nat.add_zero] at hos
    rw [hos, href]
    exact hdump
  · rw [Nat.add_zero] at hos
    rw [hos, href]
    rfl

end Jyyos.Mosaic
