import Jyyos.Algorithm.Machine
import Jyyos.Pstree.Basic

/-!
# The writes to the array `children`

`GetChildren` is given the array but not its length, and writes an entry for every child that it
finds.  Here the recursion of `PrintProcessTree` is a machine with the frames of the active calls on
a stack, so that every write of a run is on record, also in a run that comes to no end.  What is
printed is left out.
-/

namespace Jyyos.Pstree

/-- The loop of `GetChildren`: the index of each write into `children` and the entry written. -/
def getChildrenLoop (parentPid : CStr) : List ProcessNode → ℕ → List (ℕ × ProcessNode)
  | [], _ => []
  | p :: ps, childCount =>
    if p.ppid == parentPid then (childCount, p) :: getChildrenLoop parentPid ps (childCount + 1)
    else getChildrenLoop parentPid ps childCount

/-- The writes of `GetChildren(tree, parentPid, children, &child_count)`. -/
def ProcessTree.childWrites (tree : ProcessTree) (parentPid : CStr) : List (ℕ × ProcessNode) :=
  getChildrenLoop parentPid tree.processes 0

/-- A frame of `PrintProcessTree` in its last loop: the argument, and the identifiers of the
children for which it has yet to call itself. -/
structure Frame where
  rootPid : CStr
  todo : List CStr

/-- A state of the recursion: the argument of the call that is about to run, if there is one, the
active frames, and the indices of all the writes so far. -/
structure State where
  call : Option CStr
  stack : List Frame
  writes : List ℕ

/-- The call from `main`. -/
def State.start (rootPid : CStr) : State := ⟨some rootPid, [], []⟩

/-- One step: a call up to its last loop, the next call of that loop, or a return.  Nothing is said
about what follows a write behind the end of the array. -/
def step (qsort : (ProcessNode → ProcessNode → ℤ) → List ProcessNode → List ProcessNode)
    (tree : ProcessTree) (s : State) : Option State :=
  if s.writes.any (maxChildren ≤ ·) then none
  else
    match s.call with
    | some rootPid =>
      match tree.findProcessByPid rootPid with
      | none => some { s with call := none }
      | some _ =>
        let writes := tree.childWrites rootPid
        let children := qsort comparePids (writes.map Prod.snd)
        some ⟨none, ⟨rootPid, children.map ProcessNode.pid⟩ :: s.stack,
          s.writes ++ writes.map Prod.fst⟩
    | none =>
      match s.stack with
      | [] => none
      | ⟨_, []⟩ :: stack => some { s with stack := stack }
      | ⟨rootPid, child :: todo⟩ :: stack =>
        some { s with call := some child, stack := ⟨rootPid, todo⟩ :: stack }

end Jyyos.Pstree
