import Jyyos.Getopt
import Jyyos.Pstree.Basic

/-!
# `pstree`: from `/proc` to the printed tree

`GetProcessids` and `main` of `pstree.c`.  The names in `/proc` are a list in the order of `readdir`
and `fopen` gives the contents of the file at a path.  Of what the program writes, only the tree is
modelled; the texts of the help, the version and the messages are not.
-/

namespace Jyyos.Pstree

/-! ### The process table -/

/-- The name consists of digits. -/
def isPid (name : CStr) : Bool := name.all isdigit

/-- The longest name that is looked at. -/
def maxName : ℕ := 240

/-- The path of the file that holds the identifiers of a process. -/
def statusPath (name : CStr) : CStr :=
  (cstr "/proc/".toList ++ name ++ cstr "/status".toList).take (bufferSize - 1)

/-- The size of `pid_str` and `ppid_str`. -/
def fieldSize : ℕ := 32

def isBlank (c : UInt8) : Bool := c == ' '.toUInt8 || c == '\t'.toUInt8

/-- The value of a field, from what follows its name: the blanks in front of it and its newline are
left out. -/
def fieldValue (start : CStr) : CStr :=
  ((start.dropWhile isBlank).take (fieldSize - 1)).takeWhile (· != newline)

/-- The variables `pid_str` and `ppid_str`. -/
structure Fields where
  pidStr : CStr := []
  ppidStr : CStr := []
deriving DecidableEq, Repr

/-- Both fields have been read. -/
def Fields.complete (f : Fields) : Bool := f.pidStr != [] && f.ppidStr != []

/-- What one line does to the fields. -/
def Fields.readLine (f : Fields) (line : CStr) : Fields :=
  if (cstr "Pid:".toList).isPrefixOf line then { f with pidStr := fieldValue (line.drop 4) }
  else if (cstr "PPid:".toList).isPrefixOf line then { f with ppidStr := fieldValue (line.drop 5) }
  else f

/-- The loop over the lines of the file.  Every round reads at least one character, so there are at
most as many rounds as the file has characters. -/
def readLoop : ℕ → Fields → List UInt8 → Fields
  | 0, f, _ => f
  | rounds + 1, f, file =>
    match fgets (bufferSize - 1) file with
    | none => f
    | some (buffer, file) =>
      let f := f.readLine (cstrOf buffer)
      if f.complete then f else readLoop rounds f file

/-- The fields of a `status` file. -/
def readStatus (file : List UInt8) : Fields := readLoop file.length {} file

/-- What one round of the loop over the directory adds to the table. -/
def readProcess (fopen : CStr → Option (List UInt8)) (name : CStr) : Option ProcessNode :=
  if isPid name then
    if name.length > maxName then none
    else
      match fopen (statusPath name) with
      | none => none
      | some file =>
        let f := readStatus file
        if f.complete then some ⟨f.pidStr, f.ppidStr⟩ else none
  else none

/-- The loop over the directory; it ends early when the table is full. -/
def scanLoop (fopen : CStr → Option (List UInt8)) :
    List CStr → List ProcessNode → List ProcessNode
  | [], processes => processes
  | name :: names, processes =>
    match readProcess fopen name with
    | none => scanLoop fopen names processes
    | some process =>
      let processes := processes ++ [process]
      if processes.length ≥ maxProcesses then processes else scanLoop fopen names processes

theorem length_scanLoop_le (fopen : CStr → Option (List UInt8)) (names : List CStr) :
    ∀ {processes : List ProcessNode}, processes.length < maxProcesses →
      (scanLoop fopen names processes).length ≤ maxProcesses := by
  induction names with
  | nil => exact Nat.le_of_lt
  | cons name names ih =>
    intro processes h
    unfold scanLoop
    cases readProcess fopen name with
    | none => exact ih h
    | some process =>
      have hlen : (processes ++ [process]).length = processes.length + 1 := by simp
      show (if _ then _ else _ : List ProcessNode).length ≤ maxProcesses
      split_ifs with hfull
      · omega
      · exact ih (not_le.mp hfull)

/-- `GetProcessids` on an empty table; `none` if `/proc` cannot be opened. -/
def getProcessids (fopen : CStr → Option (List UInt8)) (opendir : Option (List CStr)) :
    Option ProcessTree :=
  opendir.map fun names =>
    ⟨scanLoop fopen names [], length_scanLoop_le fopen names (by decide)⟩

/-! ### The program -/

/-- The string of short options. -/
def optstring : List UInt8 := cstr "pnVh".toList

/-- The table `long_options`. -/
def longOptions : List LongOption :=
  [⟨cstr "show-pids".toList, false, 'p'.toUInt8⟩, ⟨cstr "numeric-sort".toList, false, 'n'.toUInt8⟩,
    ⟨cstr "version".toList, false, 'V'.toUInt8⟩, ⟨cstr "help".toList, false, 'h'.toUInt8⟩]

/-- The variables that the option loop sets. -/
structure Options where
  showPids : Bool := false
  numericSort : Bool := false
  version : Bool := false
  help : Bool := false
deriving DecidableEq, Repr

/-- The `switch` of the option loop; `none` is the exit with `EXIT_FAILURE`. -/
def handleOption (o : Options) : Getopt → Option Options
  | .opt c _ =>
    if c = 'p'.toUInt8 then some { o with showPids := true }
    else if c = 'n'.toUInt8 then some { o with numericSort := true }
    else if c = 'V'.toUInt8 then some { o with version := true }
    else if c = 'h'.toUInt8 then some { o with help := true }
    else none
  | .bad => none

/-- The option loop on the arguments after the program name. -/
def parseOptions (args : List CStr) : Option Options :=
  (getoptLong optstring longOptions args).foldlM handleOption {}

/-- How a run ends: with `EXIT_FAILURE`, or with the status 0 after the help, the version or the
tree. -/
inductive Exit where
  | failure
  | help
  | version
  | printed (out : List UInt8)
deriving DecidableEq, Repr

/-- What a run is given by its surroundings: the directory `/proc`, the files, and whether there is
memory for the table. -/
structure Env where
  opendir : Option (List CStr)
  fopen : CStr → Option (List UInt8)
  malloc : Bool

/-- `main`; `args` are the arguments after the program name.  `none` stands for a run of
`PrintProcessTree` that has no result. -/
def main (env : Env)
    (qsort : (ProcessNode → ProcessNode → ℤ) → List ProcessNode → List ProcessNode)
    (fuel : ℕ) (args : List CStr) : Option Exit :=
  match parseOptions args with
  | none => some .failure
  | some o =>
    if o.help then some .help
    else if o.version then some .version
    else if Getopt.operands optstring longOptions none args ≠ [] then some .failure
    else if env.malloc then
      match getProcessids env.fopen env.opendir with
      | none => some .failure
      | some tree =>
        match tree.findRootProcess with
        | none => some .failure
        | some rootPid =>
          (printProcessTree env.fopen qsort tree o.showPids fuel rootPid 0).map .printed
    else some .failure

end Jyyos.Pstree
