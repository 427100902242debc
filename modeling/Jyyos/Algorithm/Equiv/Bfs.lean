import Jyyos.Algorithm.Bfs
import Mathlib.Data.Finset.Card
import Mathlib.Data.List.Nodup
import Mathlib.Order.Bounds.Defs

/-!
# Correctness of breadth-first search

The vertices seen are those already expanded followed by the queue (`Inv`, with the expanded ones
as `done`), at depths that do not decrease along the list and that exceed the depth of the next
vertex to expand by at most one.  So an edge out of an expanded vertex leads to a vertex whose depth
is larger by at most one, and when the queue is empty the depths are distances.

While a vertex is expanded, `Mid` keeps the same facts with the edges that were looked at.
-/

namespace Jyyos.Bfs

variable {D L : Type*} (next : D → List (L × D))

/-- A path with a given number of edges. -/
inductive Path : ℕ → D → D → Prop
  | refl (d : D) : Path 0 d d
  | step {n : ℕ} {c d : D} {x : L × D} (h : Path n c d) (hx : x ∈ next d) : Path (n + 1) c x.2

/-- The edges out of a vertex. -/
def edgesOf (d : D) : List (D × D × L) := (next d).map fun x => (d, x.2, x.1)

/-- What holds between two expansions. -/
structure Inv (c : D) (done : List (D × ℕ)) (s : State D L) : Prop where
  seen : s.seen = done ++ s.queue
  nodup : (s.seen.map Prod.fst).Nodup
  sorted : s.seen.Pairwise fun a b => a.2 ≤ b.2
  path : ∀ e ∈ s.seen, Path next e.2 c e.1
  first : s.seen.head? = some (c, 0)
  edges : s.edges = done.flatMap fun e => edgesOf next e.1
  closed : ∀ e ∈ done, ∀ x ∈ next e.1, ∃ k ≤ e.2 + 1, (x.2, k) ∈ s.seen
  bound : ∀ e, s.queue.head? = some e → ∀ f ∈ s.seen, f.2 ≤ e.2 + 1

/-- What holds while `d` is expanded, after a part of its edges. -/
structure Mid (c : D) (done : List (D × ℕ)) (d : D) (k : ℕ) (part : List (L × D))
    (s : State D L) : Prop where
  seen : s.seen = done ++ (d, k) :: s.queue
  nodup : (s.seen.map Prod.fst).Nodup
  sorted : s.seen.Pairwise fun a b => a.2 ≤ b.2
  path : ∀ e ∈ s.seen, Path next e.2 c e.1
  first : s.seen.head? = some (c, 0)
  edges : s.edges = (done.flatMap fun e => edgesOf next e.1) ++ part.map fun x => (d, x.2, x.1)
  closed : ∀ e ∈ done, ∀ x ∈ next e.1, ∃ k ≤ e.2 + 1, (x.2, k) ∈ s.seen
  part : ∀ x ∈ part, ∃ j ≤ k + 1, (x.2, j) ∈ s.seen
  bound : ∀ f ∈ s.seen, f.2 ≤ k + 1

variable {next}

theorem inv_start (c : D) : Inv next c [] (start c : State D L) where
  seen := rfl
  nodup := List.nodup_singleton c
  sorted := List.pairwise_singleton ..
  path e he := by
    rw [List.mem_singleton.mp he]
    exact .refl c
  first := rfl
  edges := rfl
  closed e he := absurd he List.not_mem_nil
  bound e he f hf := by
    rw [List.mem_singleton.mp hf]
    exact Nat.zero_le _

theorem Inv.mid {c d : D} {k : ℕ} {done queue : List (D × ℕ)} {s : State D L}
    (h : Inv next c done s) (hq : s.queue = (d, k) :: queue) :
    Mid next c done d k [] { s with queue := queue } where
  seen := by rw [h.seen, hq]
  nodup := h.nodup
  sorted := h.sorted
  path := h.path
  first := h.first
  edges := by rw [List.map_nil, List.append_nil, h.edges]
  closed := h.closed
  part x hx := absurd hx List.not_mem_nil
  bound := h.bound (d, k) (by rw [hq]; rfl)

/-- Looking at one edge. -/
theorem Mid.visit [DecidableEq D] {c d : D} {k : ℕ} {done : List (D × ℕ)} {part : List (L × D)}
    {s : State D L} (h : Mid next c done d k part s) {x : L × D} (hx : x ∈ next d) :
    Mid next c done d k (part ++ [x]) (Bfs.visit d k s x) := by
  have hedges : s.edges ++ [(d, x.2, x.1)] = (done.flatMap fun e => edgesOf next e.1) ++
      (part ++ [x]).map fun x => (d, x.2, x.1) := by
    rw [h.edges, List.map_append, List.append_assoc]
    rfl
  unfold Bfs.visit
  split_ifs with hseen
  · -- the target is known, so only the edge is new; its depth is bounded like all others
    refine { h with edges := hedges, part := fun y hy => ?_ }
    rcases List.mem_append.mp hy with hy | hy
    · exact h.part y hy
    · rw [List.mem_singleton.mp hy]
      obtain ⟨f, hf, heq⟩ := List.mem_map.mp hseen
      exact ⟨f.2, h.bound f hf, by rw [← heq]; exact hf⟩
  · -- a new vertex comes last in the queue and among those seen
    have hold : ∀ f ∈ s.seen, f ∈ s.seen ++ [(x.2, k + 1)] :=
      fun f hf => List.mem_append_left _ hf
    have hcur : (d, k) ∈ s.seen := by
      rw [h.seen]
      exact List.mem_append_right _ (List.mem_cons_self ..)
    refine ⟨?_, ?_, ?_, ?_, ?_, hedges, ?_, ?_, ?_⟩
    · show s.seen ++ [_] = done ++ (d, k) :: (s.queue ++ [_])
      rw [h.seen, List.append_assoc, List.cons_append]
    · show ((s.seen ++ [_]).map Prod.fst).Nodup
      rw [List.map_append, List.map_singleton, ← List.concat_eq_append]
      exact h.nodup.concat hseen
    · -- all depths so far are at most `k + 1`, so the order stays
      show (s.seen ++ [_]).Pairwise _
      rw [List.pairwise_append]
      refine ⟨h.sorted, List.pairwise_singleton .., fun f hf g hg => ?_⟩
      rw [List.mem_singleton.mp hg]
      exact h.bound f hf
    · intro f hf
      rcases List.mem_append.mp hf with hf | hf
      · exact h.path f hf
      · rw [List.mem_singleton.mp hf]
        exact .step (h.path (d, k) hcur) hx
    · show (s.seen ++ [_]).head? = _
      rw [List.head?_append_of_ne_nil _ (List.ne_nil_of_mem hcur), h.first]
    · intro e he y hy
      obtain ⟨j, hj, hmem⟩ := h.closed e he y hy
      exact ⟨j, hj, hold _ hmem⟩
    · intro y hy
      rcases List.mem_append.mp hy with hy | hy
      · obtain ⟨j, hj, hmem⟩ := h.part y hy
        exact ⟨j, hj, hold _ hmem⟩
      · rw [List.mem_singleton.mp hy]
        exact ⟨k + 1, le_refl _, List.mem_append_right _ (List.mem_singleton_self _)⟩
    · intro f hf
      rcases List.mem_append.mp hf with hf | hf
      · exact h.bound f hf
      · rw [List.mem_singleton.mp hf]

/-- Looking at the remaining edges. -/
theorem Mid.foldl [DecidableEq D] {c d : D} {k : ℕ} {done : List (D × ℕ)} (rest : List (L × D)) :
    ∀ {part : List (L × D)} {s : State D L}, Mid next c done d k part s →
      (∀ x ∈ rest, x ∈ next d) →
      Mid next c done d k (part ++ rest) (rest.foldl (Bfs.visit d k) s) := by
  induction rest with
  | nil =>
    intro part s h _
    rw [List.append_nil]
    exact h
  | cons x rest ih =>
    intro part s h hrest
    have := ih (h.visit (hrest x (List.mem_cons_self ..)))
      fun y hy => hrest y (List.mem_cons_of_mem _ hy)
    rw [List.append_assoc] at this
    exact this

/-- The end of an expansion. -/
theorem Mid.inv {c d : D} {k : ℕ} {done : List (D × ℕ)} {s : State D L}
    (h : Mid next c done d k (next d) s) : Inv next c (done ++ [(d, k)]) s where
  seen := by rw [h.seen, List.append_assoc]; rfl
  nodup := h.nodup
  sorted := h.sorted
  path := h.path
  first := h.first
  edges := by
    rw [h.edges, List.flatMap_append, List.flatMap_singleton]
    rfl
  closed e he x hx := by
    rcases List.mem_append.mp he with he | he
    · exact h.closed e he x hx
    · rw [List.mem_singleton.mp he] at hx ⊢
      exact h.part x hx
  bound e he f hf := by
    -- the next vertex was seen after `d`
    have hle : k ≤ e.2 := by
      have hsorted := h.sorted
      rw [h.seen, List.pairwise_append, List.pairwise_cons] at hsorted
      exact hsorted.2.1.1 e (List.mem_of_mem_head? he)
    have := h.bound f hf
    omega

/-- **One expansion.** -/
theorem Inv.expand [DecidableEq D] {c d : D} {k : ℕ} {done queue : List (D × ℕ)} {s : State D L}
    (h : Inv next c done s) (hq : s.queue = (d, k) :: queue) :
    Inv next c (done ++ [(d, k)]) ((next d).foldl (Bfs.visit d k) { s with queue := queue }) := by
  have := (h.mid hq).foldl (next d) fun x hx => hx
  exact this.inv

/-- The search ends if finitely many vertices can be reached. -/
theorem Inv.search [DecidableEq D] {c : D} {R : Finset D} (hR : ∀ n d, Path next n c d → d ∈ R)
    (fuel : ℕ) : ∀ {done : List (D × ℕ)} {s : State D L}, Inv next c done s →
      R.card < fuel + done.length →
      ∃ s' done', Bfs.search next fuel s = some s' ∧ Inv next c done' s' ∧ s'.queue = [] := by
  -- what is done is a list of distinct vertices that can be reached
  have hcard : ∀ {done : List (D × ℕ)} {s : State D L}, Inv next c done s →
      done.length ≤ R.card := by
    intro done s h
    have hnd : (done.map Prod.fst).Nodup := by
      have := h.nodup
      rw [h.seen, List.map_append] at this
      exact (List.nodup_append.mp this).1
    have hsub : (done.map Prod.fst).toFinset ⊆ R := by
      intro d hd
      obtain ⟨e, he, rfl⟩ := List.mem_map.mp (List.mem_toFinset.mp hd)
      exact hR _ _ (h.path e (h.seen ▸ List.mem_append_left _ he))
    have := Finset.card_le_card hsub
    rwa [List.toFinset_card_of_nodup hnd, List.length_map] at this
  induction fuel with
  | zero =>
    intro done s h hlt
    have := hcard h
    omega
  | succ fuel ih =>
    intro done s h hlt
    rw [Bfs.search]
    cases hq : s.queue with
    | nil => exact ⟨s, done, rfl, h, hq⟩
    | cons e queue =>
      obtain ⟨d, k⟩ := e
      refine ih (h.expand hq) ?_
      rw [List.length_append, List.length_singleton]
      omega

/-- What a search has found: every vertex that can be reached once, with its distance and in the
order of the distances, and every edge out of them once. -/
structure Explored (next : D → List (L × D)) (c : D) (s : State D L) : Prop where
  nodup : (s.seen.map Prod.fst).Nodup
  mem : ∀ d, d ∈ s.seen.map Prod.fst ↔ ∃ n, Path next n c d
  depth : ∀ e ∈ s.seen, IsLeast {n | Path next n c e.1} e.2
  sorted : s.seen.Pairwise fun a b => a.2 ≤ b.2
  first : s.seen.head? = some (c, 0)
  edges_nodup : s.edges.Nodup
  mem_edges : ∀ e, e ∈ s.edges ↔ (∃ n, Path next n c e.1) ∧ (e.2.2, e.2.1) ∈ next e.1

theorem Inv.seen_of_path {c : D} {done : List (D × ℕ)} {s : State D L} (h : Inv next c done s)
    (hq : s.queue = []) {n : ℕ} {d : D} (hpath : Path next n c d) :
    ∃ k ≤ n, (d, k) ∈ s.seen := by
  have hdone : s.seen = done := by rw [h.seen, hq, List.append_nil]
  induction hpath with
  | refl => exact ⟨0, le_refl _, List.mem_of_mem_head? h.first⟩
  | step _ hx ih =>
    obtain ⟨k, hk, hmem⟩ := ih h
    obtain ⟨j, hj, hmem'⟩ := h.closed _ (hdone ▸ hmem) _ hx
    exact ⟨j, hj.trans (Nat.add_le_add_right hk 1), hmem'⟩

/-- **When the queue is empty** everything has been explored. -/
theorem Inv.explored {c : D} {done : List (D × ℕ)} {s : State D L} (h : Inv next c done s)
    (hq : s.queue = []) (hnext : ∀ n d, Path next n c d → (next d).Nodup) :
    Explored next c s := by
  have hdone : s.seen = done := by rw [h.seen, hq, List.append_nil]
  have hmem : ∀ d, d ∈ s.seen.map Prod.fst ↔ ∃ n, Path next n c d := by
    intro d
    constructor
    · intro hd
      obtain ⟨e, he, rfl⟩ := List.mem_map.mp hd
      exact ⟨e.2, h.path e he⟩
    · rintro ⟨n, hpath⟩
      obtain ⟨k, -, hk⟩ := h.seen_of_path hq hpath
      exact List.mem_map.mpr ⟨(d, k), hk, rfl⟩
  refine ⟨h.nodup, hmem, fun e he => ⟨h.path e he, fun n hn => ?_⟩, h.sorted, h.first, ?_, ?_⟩
  · -- a shorter path would have led to an entry with a smaller depth, but there is one entry
    obtain ⟨k, hk, hk'⟩ := h.seen_of_path hq hn
    have heq : (e.1, k) = e := List.inj_on_of_nodup_map h.nodup hk' he rfl
    exact (congrArg Prod.snd heq) ▸ hk
  · rw [h.edges, List.nodup_flatMap]
    refine ⟨fun e he => (hnext _ _ (h.path e (hdone ▸ he))).map fun x y hxy => ?_, ?_⟩
    · have h₁ := (Prod.mk.inj hxy).2
      exact Prod.ext (Prod.mk.inj h₁).2 (Prod.mk.inj h₁).1
    · -- edges of different vertices differ in their source
      have hnd := h.nodup
      rw [hdone, List.nodup_iff_pairwise_ne, List.pairwise_map] at hnd
      refine hnd.imp fun {e f} hne => ?_
      intro x hx hx'
      obtain ⟨y, -, rfl⟩ := List.mem_map.mp hx
      obtain ⟨z, -, heq⟩ := List.mem_map.mp hx'
      exact hne (Prod.mk.inj heq).1.symm
  · intro e
    rw [h.edges, List.mem_flatMap, ← hmem, hdone]
    constructor
    · rintro ⟨f, hf, he⟩
      obtain ⟨x, hx, rfl⟩ := List.mem_map.mp he
      exact ⟨List.mem_map_of_mem hf, hx⟩
    · rintro ⟨hd, hx⟩
      obtain ⟨f, hf, heq⟩ := List.mem_map.mp hd
      refine ⟨f, hf, List.mem_map.mpr ⟨(e.2.2, e.2.1), heq ▸ hx, ?_⟩⟩
      show (f.1, e.2.1, e.2.2) = e
      rw [heq]

end Jyyos.Bfs
