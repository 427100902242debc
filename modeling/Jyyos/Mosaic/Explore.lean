import Jyyos.Mosaic.StateDump

/-!
# The two explorers

`Mosaic.check` and `Mosaic.run` of `course_code/lecture_4/mosaic/mosaic.py` (section 3.1).  The
hash code of a dump is a parameter.  `check` makes a new operating system for every trace, `run`
keeps one; both share the world with all clones that were ever made.

The random choices of `run` are an argument: `run` returns if they are offered one after the other
and the last one ends in a state without choices.
-/

namespace Jyyos.Mosaic

/-- `State`, the nodes of the search; the hash code is that of the dump. -/
structure Node (V D : Type) where
  trace : List Label
  state : Dump V D
  depth : ℕ

/-- The queue, the dictionary of vertices and the edges of `check`. -/
structure Explorer (V D K : Type) where
  queued : List (Node V D)
  vertices : Dict K (Dump V D × ℕ)
  edges : List (K × K × Label)

variable {V F S H D K : Type} [DecidableEq V] [PyVal V] [DecidableEq K] (app : App V F S H)
  (insp : Inspect S H D) (hash : Dump V D → K)

/-- `State(trace)`. -/
def Node.new (trace : List Label) : M H (Node V D) := do
  let os ← OperatingSystem.run app trace.length [] trace
  let w ← Exec.get
  let state ← need (os.stateDump insp w)
  pure ⟨trace, state, 0⟩

def Node.extend (st : Node V D) (choice : Label) : M H (Node V D) := do
  let st₁ ← Node.new app insp (st.trace ++ [choice])
  pure { st₁ with depth := st.depth + 1 }

/-- The body of the inner loop of `check`. -/
def Explorer.visit (st : Node V D) (x : Explorer V D K) (choice : Label) :
    M H (Explorer V D K) := do
  let st₁ ← st.extend app insp choice
  let edges := x.edges ++ [(hash st.state, hash st₁.state, choice)]
  if hash st₁.state ∈ x.vertices.keys then
    pure { x with edges := edges }
  else
    pure ⟨x.queued ++ [st₁], x.vertices.set (hash st₁.state) (st₁.state, st₁.depth), edges⟩

/-- The outer loop of `check`. -/
def Explorer.loop : ℕ → Explorer V D K → M H (Explorer V D K)
  | 0, _ => Exec.throw .fuel
  | fuel + 1, x =>
    match x.queued with
    | [] => pure x
    | st :: queued => do
      let x ← st.state.choices.foldlM (Explorer.visit app insp hash st) { x with queued := queued }
      Explorer.loop fuel x

/-- `Mosaic.check`: the vertices with their depths, and the edges. -/
def check (fuel : ℕ) : M H (List (Dump V D × ℕ) × List (K × K × Label)) := do
  let st₀ ← Node.new app insp []
  let x ← Explorer.loop app insp hash fuel
    ⟨[st₀], Dict.ofList [(hash st₀.state, (st₀.state, st₀.depth))], []⟩
  pure ((x.vertices.entries.map Prod.snd).insertionSort (fun a b => a.2 ≤ b.2), x.edges)

/-- The loop of `run`, from the last dump; `none` if the choices end too early or too late, or are
not offered. -/
def runLoop : List Label → OperatingSystem V F S → Dump V D → List (Dump V D × ℕ) →
    List (K × K × Label) → M H (Option (List (Dump V D × ℕ) × List (K × K × Label)))
  | [], _, last, vertices, edges =>
    pure (if last.choices = [] then some (vertices, edges) else none)
  | choice :: choices, os, last, vertices, edges =>
    if choice ∈ last.choices then do
      let os ←
        OperatingSystem.replay (OperatingSystem.step app (os.trace.length + 1)) [] [choice] os
      let w ← Exec.get
      let state ← need (os.stateDump insp w)
      runLoop choices os state (vertices ++ [(state, vertices.length)])
        (edges ++ [(hash last, hash state, choice)])
    else
      pure none

/-- `Mosaic.run`: the vertices with their depths, and the edges. -/
def run (choices : List Label) :
    M H (Option (List (Dump V D × ℕ) × List (K × K × Label))) := do
  let os ← OperatingSystem.new app
  let w ← Exec.get
  let state ← need (os.stateDump insp w)
  runLoop app insp hash choices os state [(state, 0)] []

end Jyyos.Mosaic
