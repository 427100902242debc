import Mathlib.Data.Nat.Notation

/-!
# Breadth-first search

A search over a graph that is given by the labelled edges out of each vertex.  It keeps a queue of
vertices to expand, the vertices seen so far and the edges looked at, in the order in which they
were found; every vertex is kept with the depth at which it was first seen.
-/

namespace Jyyos.Bfs

variable {D L : Type*}

/-- The state of a search. -/
structure State (D L : Type*) where
  queue : List (D × ℕ)
  seen : List (D × ℕ)
  edges : List (D × D × L)

/-- The start of a search. -/
def start (d : D) : State D L := ⟨[(d, 0)], [(d, 0)], []⟩

/-- Look at an edge out of `d`, which was seen at depth `k`. -/
def visit [DecidableEq D] (d : D) (k : ℕ) (s : State D L) (x : L × D) : State D L :=
  if x.2 ∈ s.seen.map Prod.fst then
    { s with edges := s.edges ++ [(d, x.2, x.1)] }
  else
    ⟨s.queue ++ [(x.2, k + 1)], s.seen ++ [(x.2, k + 1)], s.edges ++ [(d, x.2, x.1)]⟩

/-- Expand the queue until it is empty; `none` if the fuel runs out. -/
def search [DecidableEq D] (next : D → List (L × D)) : ℕ → State D L → Option (State D L)
  | 0, _ => none
  | fuel + 1, s =>
    match s.queue with
    | [] => some s
    | (d, k) :: queue => search next fuel ((next d).foldl (visit d k) { s with queue := queue })

end Jyyos.Bfs
