import Jyyos.Mosaic.Explore
import Jyyos.Mosaic.Equiv.StateDump
import Jyyos.Mosaic.Equiv.Threads
import Jyyos.Algorithm.Equiv.Bfs
import Mathlib.Data.Set.Finite.Basic

/-!
# Exhaustive exploration is exact

Where equal dumps have equal dumps after each choice, the dumps form a graph (`next`) and a trace is
a path in it.  `check` is then a breadth-first search of that graph: its queue, vertices and edges
are those of `Bfs.search` with hash codes in place of dumps (`Searches`), although every node is
computed by replaying its trace in a new operating system.  `run` keeps one operating system, whose
state is that of the reference after the choices made so far, and so walks along edges of the same
graph.
-/

namespace Jyyos.Mosaic

variable {V F S H D K : Type} [DecidableEq V] [PyVal V] (app : App V F S H) (insp : Inspect S H D)

/-! ### The graph of the dumps -/

/-- The dumps that some trace of choices reaches. -/
def Reachable : Set (Dump V D) := {d | ∃ trace, replayDump app insp trace = some d}

/-- The choice is offered in `d` and `d'` is the state after it. -/
def After (d : Dump V D) (choice : Label) (d' : Dump V D) : Prop :=
  ∃ trace, replayDump app insp trace = some d ∧ choice ∈ d.choices ∧
    replayDump app insp (trace ++ [choice]) = some d'

/-- Two reachable states with equal dumps have equal dumps after each choice. -/
def Deterministic : Prop :=
  ∀ trace₁ trace₂ d, replayDump app insp trace₁ = some d → replayDump app insp trace₂ = some d →
    ∀ choice ∈ d.choices, ∃ d', replayDump app insp (trace₁ ++ [choice]) = some d' ∧
      replayDump app insp (trace₂ ++ [choice]) = some d'

/-- The dump after a choice. -/
noncomputable def succ (d : Dump V D) (choice : Label) : Dump V D :=
  open Classical in if h : ∃ d', After app insp d choice d' then h.choose else d

/-- The edges out of a dump. -/
noncomputable def next (d : Dump V D) : List (Label × Dump V D) :=
  d.choices.map fun choice => (choice, succ app insp d choice)

variable {app insp}

theorem replayDump_succ (hdet : Deterministic app insp) {trace : List Label} {d : Dump V D}
    (h : replayDump app insp trace = some d) {choice : Label} (hc : choice ∈ d.choices) :
    replayDump app insp (trace ++ [choice]) = some (succ app insp d choice) := by
  obtain ⟨d', hd', -⟩ := hdet trace trace d h h choice hc
  have hex : ∃ d', After app insp d choice d' := ⟨d', trace, h, hc, hd'⟩
  have hsucc : succ app insp d choice = hex.choose := dif_pos hex
  obtain ⟨trace₂, h₂, -, hd₂⟩ := hex.choose_spec
  obtain ⟨d₃, hd₃, hd₃'⟩ := hdet trace trace₂ d h h₂ choice hc
  rw [hsucc, hd₃, ← hd₃', hd₂]

theorem mem_sortedKeys {A : Type} {choices : Dict Label A} {l : Label} :
    l ∈ sortedKeys choices ↔ l ∈ choices.keys := List.mem_insertionSort _

/-- A replay passes through the states of its prefixes, and makes offered choices. -/
theorem replayDump_concat {trace : List Label} {choice : Label} {d' : Dump V D}
    (h : replayDump app insp (trace ++ [choice]) = some d') :
    ∃ d, replayDump app insp trace = some d ∧ choice ∈ d.choices := by
  rw [replayDump_eq, Option.map_eq_some_iff] at h
  obtain ⟨ref', href', -⟩ := h
  rw [Reference.run_concat] at href'
  obtain ⟨ref, href, hstep⟩ := Option.bind_eq_some_iff.mp href'
  refine ⟨ref.stateDump insp, by rw [replayDump_eq, href]; rfl, ?_⟩
  obtain ⟨r, hadv, -⟩ := Option.bind_eq_some_iff.mp hstep
  obtain ⟨r₁, hchoose, -⟩ := Option.bind_eq_some_iff.mp hadv
  obtain ⟨r₀, hswitch, hr₁⟩ := Option.bind_eq_some_iff.mp hchoose
  obtain ⟨a, ha, -⟩ := Option.bind_eq_some_iff.mp hr₁
  have hsame : r₀.1.choices = ref.choices := by
    obtain ⟨th, -, rfl⟩ := Reference.switchTo_cases hswitch
    rfl
  rw [hsame] at ha
  show choice ∈ sortedKeys ref.choices
  rw [mem_sortedKeys]
  by_contra hnot
  rw [Dict.get?_eq_none_iff.mpr hnot] at ha
  cases ha

theorem nodup_choices {trace : List Label} {d : Dump V D}
    (h : replayDump app insp trace = some d) : d.choices.Nodup := by
  rw [replayDump_eq, Option.map_eq_some_iff] at h
  obtain ⟨ref, -, rfl⟩ := h
  exact (List.perm_insertionSort _ _).nodup_iff.mpr ref.choices.keys_nodup

/-- **Traces are paths.** -/
theorem path_iff (hdet : Deterministic app insp) {d₀ : Dump V D}
    (h₀ : replayDump app insp [] = some d₀) (n : ℕ) (d : Dump V D) :
    Bfs.Path (next app insp) n d₀ d ↔
      ∃ trace, trace.length = n ∧ replayDump app insp trace = some d := by
  constructor
  · intro h
    induction h with
    | refl => exact ⟨[], rfl, h₀⟩
    | step _ hx ih =>
      obtain ⟨trace, hlen, htrace⟩ := ih h₀
      obtain ⟨choice, hc, rfl⟩ := List.mem_map.mp hx
      refine ⟨trace ++ [choice], ?_, replayDump_succ hdet htrace hc⟩
      rw [List.length_append, List.length_singleton, hlen]
  · rintro ⟨trace, hlen, htrace⟩
    induction trace using List.reverseRecOn generalizing n d with
    | nil =>
      rw [h₀] at htrace
      rw [← Option.some.inj htrace, ← hlen]
      exact .refl d₀
    | append_singleton trace choice ih =>
      obtain ⟨d', hd', hc⟩ := replayDump_concat htrace
      rw [replayDump_succ hdet hd' hc] at htrace
      rw [List.length_append, List.length_singleton] at hlen
      rw [← hlen, ← Option.some.inj htrace]
      exact .step (x := (choice, succ app insp d' choice)) (ih _ d' rfl hd')
        (List.mem_map_of_mem hc)

/-! ### The search -/

variable [DecidableEq K] {hash : Dump V D → K}

theorem Node.new_eq {trace : List Label} {d : Dump V D}
    (h : replayDump app insp trace = some d) (w : World H) :
    ∃ w', Node.new app insp trace w = (.ok ⟨trace, d, 0⟩, w') := by
  have hrun := run_stateDump insp app trace 0 w
  rw [replayDump_eq, Option.map_eq_some_iff] at h
  obtain ⟨ref, href, rfl⟩ := h
  rw [href, Nat.add_zero] at hrun
  unfold Node.new
  obtain ⟨os, w', hos, -, hdump⟩ := hrun.exists_ok
  refine ⟨w', ?_⟩
  rw [Exec.bind_of_ok hos]
  show (need (os.stateDump insp w') >>= _) w' = _
  rw [hdump]
  rfl

variable (app insp hash) in
/-- The state of `check` is that of a breadth-first search of the dumps. -/
structure Searches (x : Explorer V D K) (s : Bfs.State (Dump V D) Label) : Prop where
  queued : s.queue = x.queued.map fun st => (st.state, st.depth)
  traces : ∀ st ∈ x.queued, replayDump app insp st.trace = some st.state
  vertices : x.vertices.entries = s.seen.map fun e => (hash e.1, e)
  edges : x.edges = s.edges.map fun e => (hash e.1, hash e.2.1, e.2.2)
  reach : ∀ e ∈ s.seen, e.1 ∈ Reachable app insp

section

variable [DecidableEq (Dump V D)] (hhash : Set.InjOn hash (Reachable app insp))
  (hdet : Deterministic app insp)

include hhash hdet

/-- One choice of `check` is one edge of the search. -/
theorem Searches.visit {st : Node V D} (hst : replayDump app insp st.trace = some st.state)
    {choice : Label} (hc : choice ∈ st.state.choices) {x : Explorer V D K}
    {s : Bfs.State (Dump V D) Label} (h : Searches app insp hash x s) (w : World H) :
    ∃ x' w', Explorer.visit app insp hash st x choice w = (.ok x', w') ∧
      Searches app insp hash x'
        (Bfs.visit st.state st.depth s (choice, succ app insp st.state choice)) := by
  have hsucc := replayDump_succ hdet hst hc
  have hreach : succ app insp st.state choice ∈ Reachable app insp := ⟨_, hsucc⟩
  obtain ⟨w', hnew⟩ := Node.new_eq hsucc w
  have hext : st.extend app insp choice w = (.ok ⟨st.trace ++ [choice],
      succ app insp st.state choice, st.depth + 1⟩, w') := Exec.bind_of_ok hnew
  -- a hash code is in the dictionary if and only if its dump was seen
  have hkeys : hash (succ app insp st.state choice) ∈ x.vertices.keys ↔
      succ app insp st.state choice ∈ s.seen.map Prod.fst := by
    rw [Dict.keys, h.vertices, List.map_map, List.mem_map, List.mem_map]
    constructor
    · rintro ⟨e, he, heq⟩
      exact ⟨e, he, hhash (h.reach e he) hreach heq⟩
    · rintro ⟨e, he, heq⟩
      exact ⟨e, he, congrArg hash heq⟩
  unfold Explorer.visit
  rw [Exec.bind_of_ok hext]
  unfold Bfs.visit
  by_cases hseen : succ app insp st.state choice ∈ s.seen.map Prod.fst
  · rw [if_pos hseen]
    simp only [if_pos (hkeys.mpr hseen)]
    refine ⟨_, w', rfl, { h with edges := ?_ }⟩
    rw [h.edges, List.map_append]
    rfl
  · have hnot := fun hk => hseen (hkeys.mp hk)
    rw [if_neg hseen]
    simp only [if_neg hnot]
    refine ⟨_, w', rfl, ?_, ?_, ?_, ?_, ?_⟩
    · show s.queue ++ [_] = (x.queued ++ [_]).map _
      rw [h.queued, List.map_append]
      rfl
    · intro st' hst'
      rcases List.mem_append.mp hst' with hst' | hst'
      · exact h.traces st' hst'
      · rw [List.mem_singleton.mp hst']
        exact hsucc
    · show Dict.setEntry _ _ x.vertices.entries = (s.seen ++ [_]).map _
      rw [Dict.setEntry_of_not_mem hnot, h.vertices, List.map_append]
      rfl
    · show x.edges ++ [_] = (s.edges ++ [_]).map _
      rw [h.edges, List.map_append]
      rfl
    · intro e he
      rcases List.mem_append.mp he with he | he
      · exact h.reach e he
      · rw [List.mem_singleton.mp he]
        exact hreach

/-- The choices of one node. -/
theorem Searches.foldlM {st : Node V D} (hst : replayDump app insp st.trace = some st.state)
    (choices : List Label) (hc : ∀ choice ∈ choices, choice ∈ st.state.choices) :
    ∀ {x : Explorer V D K} {s : Bfs.State (Dump V D) Label}, Searches app insp hash x s →
      ∀ w : World H, ∃ x' w', choices.foldlM (Explorer.visit app insp hash st) x w = (.ok x', w') ∧
        Searches app insp hash x' ((choices.map fun choice =>
          (choice, succ app insp st.state choice)).foldl (Bfs.visit st.state st.depth) s) := by
  induction choices with
  | nil => exact fun h w => ⟨_, w, rfl, h⟩
  | cons choice choices ih =>
    intro x s h w
    obtain ⟨x₁, w₁, hx₁, h₁⟩ := h.visit hhash hdet hst (hc choice (List.mem_cons_self ..)) w
    obtain ⟨x₂, w₂, hx₂, h₂⟩ := ih (fun c hmem => hc c (List.mem_cons_of_mem _ hmem)) h₁ w₁
    refine ⟨x₂, w₂, ?_, h₂⟩
    rw [List.foldlM_cons, Exec.bind_of_ok hx₁, hx₂]

/-- The loop of `check` is the loop of the search. -/
theorem Searches.loop (fuel : ℕ) : ∀ {x : Explorer V D K} {s s' : Bfs.State (Dump V D) Label},
    Searches app insp hash x s → Bfs.search (next app insp) fuel s = some s' →
      ∀ w : World H, ∃ x' w', Explorer.loop app insp hash fuel x w = (.ok x', w') ∧
        Searches app insp hash x' s' := by
  induction fuel with
  | zero => exact fun _ hs => nomatch hs
  | succ fuel ih =>
    intro x s s' h hs w
    rw [Bfs.search] at hs
    rw [Explorer.loop]
    cases hq : x.queued with
    | nil =>
      have hqueue : s.queue = [] := by rw [h.queued, hq, List.map_nil]
      rw [hqueue] at hs
      exact ⟨x, w, rfl, Option.some.inj hs ▸ h⟩
    | cons st queued =>
      have hqueue : s.queue =
          (st.state, st.depth) :: queued.map fun st => (st.state, st.depth) := by
        rw [h.queued, hq, List.map_cons]
      rw [hqueue] at hs
      have hst := h.traces st (hq ▸ List.mem_cons_self ..)
      have h₀ : Searches app insp hash { x with queued := queued }
          { s with queue := queued.map fun st => (st.state, st.depth) } :=
        { h with
          queued := rfl
          traces := fun st' hst' => h.traces st' (hq ▸ List.mem_cons_of_mem _ hst') }
      -- both loops take the first of the queue and look at its edges
      obtain ⟨x₁, w₁, hx₁, h₁⟩ := h₀.foldlM hhash hdet hst st.state.choices (fun _ hc => hc) w
      obtain ⟨x₂, w₂, hx₂, h₂⟩ := ih h₁ hs w₁
      refine ⟨x₂, w₂, ?_, h₂⟩
      show (st.state.choices.foldlM (Explorer.visit app insp hash st)
        { x with queued := queued } >>= Explorer.loop app insp hash fuel) w = _
      rw [Exec.bind_of_ok hx₁, hx₂]

end

/-! ### The explored graph -/

variable (app insp hash) in
/-- The vertices are the reachable dumps and the edges the offered choices, each once; the depths
are distances, in nondecreasing order, and the initial state comes first. -/
structure StateGraph (vertices : List (Dump V D × ℕ)) (edges : List (K × K × Label)) : Prop where
  vertices_nodup : (vertices.map Prod.fst).Nodup
  mem_vertices : ∀ d, d ∈ vertices.map Prod.fst ↔ d ∈ Reachable app insp
  edges_nodup : edges.Nodup
  mem_edges : ∀ e, e ∈ edges ↔
    ∃ d choice d', After app insp d choice d' ∧ e = (hash d, hash d', choice)
  depth : ∀ v ∈ vertices,
    IsLeast {n | ∃ trace, trace.length = n ∧ replayDump app insp trace = some v.1} v.2
  sorted : vertices.Pairwise fun a b => a.2 ≤ b.2
  first : ∃ d₀, replayDump app insp [] = some d₀ ∧ vertices.head? = some (d₀, 0)

variable (app insp) in
theorem replayDump_nil : ∃ d₀, replayDump app insp [] = some d₀ := by
  rw [replayDump_eq]
  exact ⟨_, rfl⟩

theorem mem_next {d d' : Dump V D} {choice : Label} :
    (choice, d') ∈ next app insp d ↔ choice ∈ d.choices ∧ d' = succ app insp d choice := by
  rw [next, List.mem_map]
  constructor
  · rintro ⟨c, hc, heq⟩
    obtain ⟨rfl, rfl⟩ := Prod.mk.inj heq
    exact ⟨hc, rfl⟩
  · rintro ⟨hc, rfl⟩
    exact ⟨choice, hc, rfl⟩

theorem after_iff (hdet : Deterministic app insp) {d d' : Dump V D} {choice : Label} :
    After app insp d choice d' ↔ d ∈ Reachable app insp ∧ (choice, d') ∈ next app insp d := by
  rw [mem_next]
  constructor
  · rintro ⟨trace, htrace, hc, hd'⟩
    rw [replayDump_succ hdet htrace hc] at hd'
    exact ⟨⟨trace, htrace⟩, hc, (Option.some.inj hd').symm⟩
  · rintro ⟨⟨trace, htrace⟩, hc, rfl⟩
    exact ⟨trace, htrace, hc, replayDump_succ hdet htrace hc⟩

omit [DecidableEq K] in
/-- An explored graph of dumps, with hash codes in its edges, is the graph of the states. -/
theorem stateGraph_of_explored (hhash : Set.InjOn hash (Reachable app insp))
    (hdet : Deterministic app insp) {d₀ : Dump V D} (h₀ : replayDump app insp [] = some d₀)
    {s : Bfs.State (Dump V D) Label} (h : Bfs.Explored (next app insp) d₀ s) :
    StateGraph app insp hash s.seen (s.edges.map fun e => (hash e.1, hash e.2.1, e.2.2)) := by
  have hreach : ∀ d, (∃ n, Bfs.Path (next app insp) n d₀ d) ↔ d ∈ Reachable app insp := by
    intro d
    constructor
    · rintro ⟨n, hpath⟩
      obtain ⟨trace, -, htrace⟩ := (path_iff hdet h₀ n d).mp hpath
      exact ⟨trace, htrace⟩
    · rintro ⟨trace, htrace⟩
      exact ⟨_, (path_iff hdet h₀ _ d).mpr ⟨trace, rfl, htrace⟩⟩
  have hends : ∀ e ∈ s.edges, After app insp e.1 e.2.2 e.2.1 := by
    intro e he
    obtain ⟨hd, hx⟩ := (h.mem_edges e).mp he
    exact (after_iff hdet).mpr ⟨(hreach _).mp hd, hx⟩
  refine ⟨h.nodup, fun d => (h.mem d).trans (hreach d), ?_, fun e => ?_, fun v hv => ?_, h.sorted,
    d₀, h₀, h.first⟩
  · refine h.edges_nodup.map_on fun e he f hf heq => ?_
    obtain ⟨trace, htrace, -, htrace'⟩ := hends e he
    obtain ⟨trace₁, htrace₁, -, htrace₁'⟩ := hends f hf
    obtain ⟨h₁, h₂⟩ := Prod.mk.inj heq
    obtain ⟨h₂, h₃⟩ := Prod.mk.inj h₂
    exact Prod.ext (hhash ⟨_, htrace⟩ ⟨_, htrace₁⟩ h₁)
      (Prod.ext (hhash ⟨_, htrace'⟩ ⟨_, htrace₁'⟩ h₂) h₃)
  · rw [List.mem_map]
    constructor
    · rintro ⟨f, hf, rfl⟩
      exact ⟨_, _, _, hends f hf, rfl⟩
    · rintro ⟨d, choice, d', hafter, rfl⟩
      refine ⟨(d, d', choice), (h.mem_edges _).mpr ?_, rfl⟩
      obtain ⟨hd, hx⟩ := (after_iff hdet).mp hafter
      exact ⟨(hreach d).mpr hd, hx⟩
  · have hset : {n | ∃ trace, trace.length = n ∧ replayDump app insp trace = some v.1} =
        {n | Bfs.Path (next app insp) n d₀ v.1} := by
      ext n
      exact (path_iff hdet h₀ n v.1).symm
    rw [hset]
    exact h.depth v hv

/-- **`check` terminates with the graph of the reachable states.** -/
theorem check_stateGraph (hhash : Set.InjOn hash (Reachable app insp))
    (hdet : Deterministic app insp) (hfin : (Reachable app insp).Finite) :
    ∃ n, ∀ fuel ≥ n, ∀ w : World H, ∃ vertices edges w',
      check app insp hash fuel w = (.ok (vertices, edges), w') ∧
        StateGraph app insp hash vertices edges := by
  classical
  obtain ⟨d₀, h₀⟩ := replayDump_nil app insp
  have hR : ∀ n d, Bfs.Path (next app insp) n d₀ d → d ∈ hfin.toFinset := by
    intro n d hpath
    obtain ⟨trace, -, htrace⟩ := (path_iff hdet h₀ n d).mp hpath
    exact hfin.mem_toFinset.mpr ⟨trace, htrace⟩
  refine ⟨hfin.toFinset.card + 1, fun fuel hfuel w => ?_⟩
  obtain ⟨s, done, hsearch, hinv, hqueue⟩ := (Bfs.inv_start d₀).search hR fuel
    (by rw [List.length_nil]; omega)
  have hexp := hinv.explored hqueue fun n d hpath => by
    obtain ⟨trace, -, htrace⟩ := (path_iff hdet h₀ n d).mp hpath
    exact (nodup_choices htrace).map fun a b hab => (Prod.mk.inj hab).1
  -- the explorer starts with the initial state, as the search does
  obtain ⟨w₁, hnew⟩ := Node.new_eq h₀ w
  have hstart : Searches app insp hash ⟨[⟨[], d₀, 0⟩], Dict.ofList [(hash d₀, (d₀, 0))], []⟩
      (Bfs.start d₀) := by
    refine ⟨rfl, fun st hst => ?_, rfl, rfl, fun e he => ?_⟩
    · rw [List.mem_singleton.mp hst]
      exact h₀
    · rw [List.mem_singleton.mp he]
      exact ⟨[], h₀⟩
  obtain ⟨x, w₂, hloop, hx⟩ := hstart.loop hhash hdet fuel hsearch w₁
  have hvertices : (x.vertices.entries.map Prod.snd).insertionSort (fun a b => a.2 ≤ b.2) =
      s.seen := by
    have hsnd : x.vertices.entries.map Prod.snd = s.seen := by
      rw [hx.vertices, List.map_map]
      exact List.map_id _
    rw [hsnd]
    exact hexp.sorted.insertionSort_eq
  refine ⟨s.seen, x.edges, w₂, ?_, hx.edges ▸ stateGraph_of_explored hhash hdet h₀ hexp⟩
  unfold check
  rw [Exec.bind_of_ok hnew, Exec.bind_of_ok hloop, Exec.pure_apply, hvertices]

/-! ### Runs -/

/-- A walk in a graph: its vertices and its edges. -/
inductive IsWalk (edges : List (K × K × Label)) : List K → List (K × K × Label) → Prop
  | start (a : K) : IsWalk edges [a] []
  | step {vs : List K} {es : List (K × K × Label)} {a b : K} {choice : Label}
    (h : IsWalk edges (vs ++ [a]) es) (he : (a, b, choice) ∈ edges) :
    IsWalk edges (vs ++ [a] ++ [b]) (es ++ [(a, b, choice)])

variable (app insp hash) in
/-- What `run` has returned so far: a walk from the initial state. -/
structure Walks (vertices : List (Dump V D × ℕ)) (edges : List (K × K × Label)) : Prop where
  first : ∃ d₀, replayDump app insp [] = some d₀ ∧ (vertices.map Prod.fst).head? = some d₀
  reach : ∀ v ∈ vertices, v.1 ∈ Reachable app insp
  walk : ∀ graph : List (K × K × Label),
    (∀ d choice d', After app insp d choice d' → (hash d, hash d', choice) ∈ graph) →
      IsWalk graph (vertices.map fun v => hash v.1) edges

omit [DecidableEq K] in
/-- One more state of a run. -/
theorem Walks.step {init : List (Dump V D × ℕ)} {edges : List (K × K × Label)} {d d' : Dump V D}
    {choice : Label} {k k' : ℕ} (h : Walks app insp hash (init ++ [(d, k)]) edges)
    (hafter : After app insp d choice d') :
    Walks app insp hash (init ++ [(d, k)] ++ [(d', k')])
      (edges ++ [(hash d, hash d', choice)]) := by
  refine ⟨?_, fun v hv => ?_, fun graph hgraph => ?_⟩
  · obtain ⟨d₀, h₀, hhead⟩ := h.first
    refine ⟨d₀, h₀, ?_⟩
    rw [List.map_append, List.head?_append_of_ne_nil _ (by simp), hhead]
  · rcases List.mem_append.mp hv with hv | hv
    · exact h.reach v hv
    · rw [List.mem_singleton.mp hv]
      obtain ⟨trace, -, -, htrace⟩ := hafter
      exact ⟨_, htrace⟩
  · have hwalk := h.walk graph hgraph
    rw [List.map_append, List.map_singleton] at hwalk
    rw [List.map_append, List.map_singleton, List.map_append, List.map_singleton]
    exact hwalk.step (hgraph d choice d' hafter)

omit [DecidableEq K] in
/-- The loop of `run` extends a walk that ends in the state of its operating system. -/
theorem walks_runLoop (choices : List Label) : ∀ (init : List (Dump V D × ℕ)) (k : ℕ) {base : ℕ}
    {ρ : ℕ → ℕ} {w w' : World H} {os : OperatingSystem V F S} {ref : Reference V F S H}
    {edges : List (K × K × Label)} {r : List (Dump V D × ℕ) × List (K × K × Label)},
    Sim base ρ w os ref → Reference.run app os.trace = some ref → base ≤ w.heaps.length →
    Walks app insp hash (init ++ [(ref.stateDump insp, k)]) edges →
    runLoop app insp hash choices os (ref.stateDump insp) (init ++ [(ref.stateDump insp, k)])
      edges w = (.ok (some r), w') →
    Walks app insp hash r.1 r.2 := by
  induction choices with
  | nil =>
    intro init k base ρ w w' os ref edges r _ _ _ hwalk hrun
    rw [runLoop] at hrun
    replace hrun := (Prod.mk.inj hrun).1
    split_ifs at hrun
    · rw [← Option.some.inj (Except.ok.inj hrun)]
      exact hwalk
    · cases Except.ok.inj hrun
  | cons choice choices ih =>
    intro init k base ρ w w' os ref edges r hsim href hbase hwalk hrun
    rw [runLoop] at hrun
    split_ifs at hrun with hc
    · have hreplay : OperatingSystem.replay (OperatingSystem.step app (os.trace.length + 1)) []
          [choice] os = OperatingSystem.step app (os.trace.length + 1) false [] choice os :=
        bind_pure _
      rw [hreplay] at hrun
      obtain ⟨os₁, w₁, ref₁, hos, hstep, hkept, htrace, ρ₁, hsim₁⟩ | ⟨w₁, hos, -, -⟩ :=
        (sim_step app hsim (runSim app _ os.trace (le_refl _)) href hbase
          (rfl : ([] : List Bool).all (!·) = true) choice).cases
      · rw [Exec.bind_of_ok hos] at hrun
        have href₁ : Reference.run app (os.trace ++ [choice]) = some ref₁ := by
          rw [Reference.run_concat, href]
          exact hstep
        have hdump := hsim₁.stateDump insp (Reference.numbered_run app _ href₁)
        have hafter : After app insp (ref.stateDump insp) choice (ref₁.stateDump insp) :=
          ⟨os.trace, by rw [replayDump_eq, href]; rfl, hc, by rw [replayDump_eq, href₁]; rfl⟩
        replace hrun : (need (os₁.stateDump insp w₁) >>= fun state =>
            runLoop app insp hash choices os₁ state (init ++ [(ref.stateDump insp, k)] ++
              [(state, (init ++ [(ref.stateDump insp, k)]).length)])
              (edges ++ [(hash (ref.stateDump insp), hash state, choice)])) w₁ =
                (.ok (some r), w') := hrun
        rw [hdump] at hrun
        exact ih _ _ hsim₁ (by rw [htrace]; exact href₁) (hbase.trans hkept.length_le)
          (hwalk.step hafter) hrun
      -- an exception ends the run, and then there is no walk to speak of
      · rw [Exec.bind_apply, hos] at hrun
        cases (Prod.mk.inj hrun).1
    · cases Except.ok.inj (Prod.mk.inj hrun).1

omit [DecidableEq K] in
/-- **`run` walks** from the initial state along the offered choices. -/
theorem walks_run {choices : List Label} {w w' : World H}
    {r : List (Dump V D × ℕ) × List (K × K × Label)}
    (h : run app insp hash choices w = (.ok (some r), w')) : Walks app insp hash r.1 r.2 := by
  obtain ⟨os, w₁, hnew, hkept, htrace, ρ, hsim⟩ := (sim_new app w).exists_ok
  have href : Reference.run app os.trace = some (Reference.new app) := by
    rw [htrace]
    rfl
  have hdump := hsim.stateDump insp (Reference.numbered_run app _ href)
  have h₀ : replayDump app insp [] = some ((Reference.new app).stateDump insp) := by
    rw [replayDump_eq]
    rfl
  unfold run at h
  rw [Exec.bind_of_ok hnew] at h
  replace h : (need (os.stateDump insp w₁) >>= fun state =>
      runLoop app insp hash choices os state [(state, 0)] []) w₁ = (.ok (some r), w') := h
  rw [hdump] at h
  refine walks_runLoop choices [] 0 hsim href hkept.length_le ⟨?_, ?_, ?_⟩ h
  · exact ⟨_, h₀, rfl⟩
  · intro v hv
    rw [List.mem_singleton.mp hv]
    exact ⟨[], h₀⟩
  · exact fun graph _ => .start _

/-- **Exhaustive exploration is exact.**  Suppose that the hash code is injective on the reachable
dumps, that two reachable states with equal dumps have equal dumps after each offered choice, and
that finitely many dumps can be reached.  Then `check` terminates in every world with the graph of
the reachable states, and what `run` can return is a walk in that graph from its first vertex. -/
theorem check_exact (hhash : Set.InjOn hash (Reachable app insp))
    (hdet : Deterministic app insp) (hfin : (Reachable app insp).Finite) :
    ∃ n, ∀ fuel ≥ n, ∀ w : World H, ∃ vertices edges w',
      check app insp hash fuel w = (.ok (vertices, edges), w') ∧
        StateGraph app insp hash vertices edges ∧
        ∀ choices w₁ w₂ vs es, run app insp hash choices w₁ = (.ok (some (vs, es)), w₂) →
          (vs.map Prod.fst).head? = (vertices.map Prod.fst).head? ∧
            (∀ v ∈ vs, v.1 ∈ vertices.map Prod.fst) ∧
            IsWalk edges (vs.map fun v => hash v.1) es := by
  obtain ⟨n, hn⟩ := check_stateGraph hhash hdet hfin
  refine ⟨n, fun fuel hfuel w => ?_⟩
  obtain ⟨vertices, edges, w', hcheck, hgraph⟩ := hn fuel hfuel w
  refine ⟨vertices, edges, w', hcheck, hgraph, fun choices w₁ w₂ vs es hrun => ?_⟩
  obtain ⟨⟨d₀, h₀, hhead⟩, hreach, hwalk⟩ := walks_run hrun
  refine ⟨?_, fun v hv => (hgraph.mem_vertices _).mpr (hreach v hv), hwalk edges fun d c d' h => ?_⟩
  · obtain ⟨d₁, h₁, hfirst⟩ := hgraph.first
    obtain rfl : d₀ = d₁ := Option.some.inj (h₀.symm.trans h₁)
    rw [hhead, List.head?_map, hfirst]
    rfl
  · exact (hgraph.mem_edges _).mpr ⟨d, c, d', h, rfl⟩

/-- A `main` that throws a coin, `sys_choose([0, 1])`, and returns. -/
def coinApp : App (Option ℕ) Unit Bool Unit where
  initName := ['m', 'a', 'i', 'n']
  init := false
  call _ _ := none
  resume thrown _ _ :=
    if thrown then .returns () else .yields true (.dev (.choose [some 0, some 1])) ()
  emptyHeap := ()

/-- The name and the line of `main`. -/
def coinInspect : Inspect Bool Unit Unit where
  name _ := ['m', 'a', 'i', 'n']
  lineno thrown := if thrown then 2 else 1
  locals _ := ()
  dict _ := ()

/-- The choice of `main`, and the two of the coin. -/
def mainLabel : Label := .text ['m', 'a', 'i', 'n']

def sideLabel (side : ℕ) : Label :=
  .text (['c', 'h', 'o', 'o', 's', 'e', ' '] ++ PyVal.str (some side))

/-- All traces. -/
def coinTraces : List (List Label) :=
  [[], [mainLabel], [mainLabel, sideLabel 0], [mainLabel, sideLabel 1]]

theorem coinApp_trace {trace : List Label} : ∀ {d : Dump (Option ℕ) Unit},
    replayDump coinApp coinInspect trace = some d → trace ∈ coinTraces := by
  have hnext : ∀ t ∈ coinTraces,
      ∀ c ∈ ((replayDump coinApp coinInspect t).map Dump.choices).getD [],
        t ++ [c] ∈ coinTraces := by decide +kernel
  induction trace using List.reverseRecOn with
  | nil => exact fun _ => List.mem_cons_self
  | append_singleton trace choice ih =>
    intro d h
    obtain ⟨d', hd', hc⟩ := replayDump_concat h
    refine hnext trace (ih hd') choice ?_
    rw [hd']
    exact hc

/-- Equal dumps, as after the two sides of the coin, have equal dumps after each choice. -/
theorem coinApp_deterministic : Deterministic coinApp coinInspect := by
  have hsame : ∀ t₁ ∈ coinTraces, ∀ t₂ ∈ coinTraces,
      replayDump coinApp coinInspect t₁ = replayDump coinApp coinInspect t₂ →
      ∀ c ∈ ((replayDump coinApp coinInspect t₁).map Dump.choices).getD [],
        (replayDump coinApp coinInspect (t₁ ++ [c])).isSome ∧
          replayDump coinApp coinInspect (t₁ ++ [c]) =
            replayDump coinApp coinInspect (t₂ ++ [c]) := by decide +kernel
  intro trace₁ trace₂ d h₁ h₂ choice hc
  obtain ⟨hsome, heq⟩ := hsame trace₁ (coinApp_trace h₁) trace₂ (coinApp_trace h₂)
    (h₁.trans h₂.symm) choice (by rw [h₁]; exact hc)
  obtain ⟨d', hd'⟩ := Option.isSome_iff_exists.mp hsome
  exact ⟨d', hd', heq ▸ hd'⟩

theorem coinApp_finite : (Reachable coinApp coinInspect).Finite := by
  refine (List.finite_toSet (coinTraces.filterMap (replayDump coinApp coinInspect))).subset ?_
  rintro d ⟨trace, htrace⟩
  exact List.mem_filterMap.mpr ⟨trace, coinApp_trace htrace, htrace⟩

/-- Both sides of the coin lead to the same state, and a run ends there. -/
theorem check_exact_coinApp : ∃ n, ∀ fuel ≥ n, ∀ w : World Unit, ∃ vertices edges w',
    check coinApp coinInspect id fuel w = (.ok (vertices, edges), w') ∧
      StateGraph coinApp coinInspect id vertices edges ∧
      (∃ d d', (d, d', sideLabel 0) ∈ edges ∧ (d, d', sideLabel 1) ∈ edges) ∧
      ∃ vs es w₂, run coinApp coinInspect id [mainLabel, sideLabel 1] ⟨[], 0, []⟩ =
          (.ok (some (vs, es)), w₂) ∧
        (∀ v ∈ vs, v.1 ∈ vertices.map Prod.fst) ∧ IsWalk edges (vs.map fun v => id v.1) es := by
  obtain ⟨n, hn⟩ := check_exact (Set.injOn_id _) coinApp_deterministic coinApp_finite
  have hrun : ∃ r w₂, run coinApp coinInspect id [mainLabel, sideLabel 1] ⟨[], 0, []⟩ =
      (.ok (some r), w₂) := ⟨_, _, rfl⟩
  obtain ⟨⟨vs, es⟩, w₂, hrun⟩ := hrun
  have hmerge : ∃ d d', After coinApp coinInspect d (sideLabel 0) d' ∧
      After coinApp coinInspect d (sideLabel 1) d' :=
    ⟨_, _, ⟨[mainLabel], rfl, by decide, rfl⟩, ⟨[mainLabel], rfl, by decide, rfl⟩⟩
  obtain ⟨d, d', h₀, h₁⟩ := hmerge
  refine ⟨n, fun fuel hfuel w => ?_⟩
  obtain ⟨vertices, edges, w', hcheck, hgraph, hwalks⟩ := hn fuel hfuel w
  obtain ⟨-, hreach, hwalk⟩ := hwalks _ _ _ vs es hrun
  exact ⟨vertices, edges, w', hcheck, hgraph, ⟨d, d',
    (hgraph.mem_edges _).mpr ⟨d, _, d', h₀, rfl⟩, (hgraph.mem_edges _).mpr ⟨d, _, d', h₁, rfl⟩⟩,
    vs, es, w₂, hrun, hreach, hwalk⟩

end Jyyos.Mosaic
