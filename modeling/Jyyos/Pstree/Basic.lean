import Jyyos.Decimal
import Mathlib.Data.Nat.Notation
import Mathlib.Algebra.Order.Group.Unbundled.Int
import Mathlib.Algebra.Group.Nat.Defs

/-!
# `pstree`: the process table and its tree

`FindProcessByPid`, `GetChildren`, `compare_pids`, `PrintProcessTree` and `FindRootProcess` of
`pstree.c`.  The table is the array that `GetProcessids` fills; a process is known by two strings,
its own identifier and its parent's, and nothing says that the parent is in the table or that the
links end.

What the program takes from outside is an argument: `fopen` gives the contents of the file at a
path, `qsort` is the C library's sort.  `none` stands for a run that has no result: the write behind
the end of `children`, or a recursion deeper than `fuel`.
-/

namespace Jyyos.Pstree

/-- An entry of the process table. -/
structure ProcessNode where
  pid : CStr
  ppid : CStr
deriving DecidableEq, Repr

/-- The number of entries that the table has room for. -/
def maxProcesses : ℕ := 10000

/-- The process table; `count` is the number of entries filled. -/
structure ProcessTree where
  processes : List ProcessNode
  count_le : processes.length ≤ maxProcesses

/-- The first entry with the identifier `pid`. -/
def ProcessTree.findProcessByPid (tree : ProcessTree) (pid : CStr) : Option ProcessNode :=
  tree.processes.find? fun p => p.pid == pid

/-- The length of the array `children`. -/
def maxChildren : ℕ := 1000

/-- The entries whose parent is `parentPid`, in the order of the table. -/
def ProcessTree.getChildren (tree : ProcessTree) (parentPid : CStr) : Option (List ProcessNode) :=
  let children := tree.processes.filter fun p => p.ppid == parentPid
  if children.length ≤ maxChildren then some children else none

/-- The order in which siblings are printed: negative, zero or positive. -/
def comparePids (a b : ProcessNode) : ℤ := toInt (atoi a.pid - atoi b.pid)

/-! ### Printing -/

/-- The size of the buffers for the path and for the name. -/
def bufferSize : ℕ := 256

/-- The path of the file that holds the name of a process. -/
def commPath (pid : CStr) : CStr :=
  (cstr "/proc/".toList ++ pid ++ cstr "/comm".toList).take (bufferSize - 1)

/-- The name of the process `pid`: the first line of its `comm` file, or `unknown`. -/
def processName (fopen : CStr → Option (List UInt8)) (pid : CStr) : CStr :=
  let name : CStr :=
    match fopen (commPath pid) with
    | none => []
    | some file =>
      match fgets (bufferSize - 1) file with
      | none => []
      | some (buffer, _) => (cstrOf buffer).takeWhile (· != newline)
  if name = [] then cstr "unknown".toList else name

/-- What `PrintProcessTree` prints for one process. -/
def line (fopen : CStr → Option (List UInt8)) (showPids : Bool) (depth : ℕ) (pid : CStr) :
    List UInt8 :=
  (List.replicate depth (cstr "  ".toList)).flatten ++ processName fopen pid ++
    (if showPids then cstr "(".toList ++ pid ++ cstr ")".toList else []) ++ [newline]

/-- The bytes that `PrintProcessTree` prints. -/
def printProcessTree (fopen : CStr → Option (List UInt8))
    (qsort : (ProcessNode → ProcessNode → ℤ) → List ProcessNode → List ProcessNode)
    (tree : ProcessTree) (showPids : Bool) : ℕ → CStr → ℕ → Option (List UInt8)
  | 0, _, _ => none
  | fuel + 1, rootPid, depth =>
    match tree.findProcessByPid rootPid with
    | none => some []
    | some root => do
      let children ← tree.getChildren rootPid
      let below ← (qsort comparePids children).mapM fun child =>
        printProcessTree fopen qsort tree showPids fuel child.pid (depth + 1)
      return line fopen showPids depth root.pid ++ below.flatten

/-- The identifier of the process to start from: `1` if there is such an entry, otherwise the
first entry whose parent is `0`. -/
def ProcessTree.findRootProcess (tree : ProcessTree) : Option CStr :=
  match tree.findProcessByPid (cstr "1".toList) with
  | some initProcess => some initProcess.pid
  | none => (tree.processes.find? fun p => p.ppid == cstr "0".toList).map ProcessNode.pid

end Jyyos.Pstree
