import Jyyos.Sh.Main
import Jyyos.Sh.Run
import Mathlib.Data.List.Basic

/-!
# Processes

The other part of the kernel that `runcmd` acts on: parents, children and `wait4`.  A process is
given together with its children, and the children of a process that exits become children of
`init`.  `wait4` waits for any child that has exited, and returns at once if there is none at all.

The calls of `execve` in a program are numbered from left to right; a process that runs the code of
the shell knows the number of the first one in its program.  The numbers are for the statements
only.  A redirection may fail, and a program may not be found; `fork` and `pipe` succeed, and a
program that has been started may end at any time.

`zalloc` takes the nodes of a tree and the path of a command from an arena of 4096 bytes, of which
every process has its own copy.  When it is full, an assertion fails, and the process exits.
-/

namespace Jyyos.Sh

/-- How many calls of `execve` there are in a program. -/
def Prog.calls : Prog → ℕ
  | .enter _ next => next.calls
  | .exit _ => 0
  | .execve _ _ failed => failed.calls + 1
  | .close _ next => next.calls
  | .dup _ next => next.calls
  | .openFile _ _ next => next.calls
  | .pipe next => (next 0 0 0).calls
  | .fork child parent => child.calls + parent.calls
  | .wait _ next => next.calls

/-- What a process does: it runs the code of the shell, the calls of which have the numbers from
`base` on, or the program that the call with a number has started; or it has exited. -/
inductive Activity where
  | shell (base : ℕ) (prog : Prog)
  | program (number : ℕ)
  | zombie

/-- A process and its children. -/
inductive Family where
  | node (activity : Activity) (children : List Family)

/-- What can be seen of a step: a call of `execve`, the end of the program that it started, or that
a call will not be made. -/
inductive Event where
  | start (number : ℕ) (path : CStr) (argv : List CStr)
  | finish (number : ℕ)
  | cancel (number : ℕ)
deriving DecidableEq, Repr

/-- The calls of a program that is not run. -/
def cancels (base : ℕ) (prog : Prog) : List Event := (List.range' base prog.calls).map .cancel

open Family Activity in
/-- A step of a process or of one of its descendants: the events, and the processes that have lost
their parent. -/
inductive FamilyStep : Family → List Event → Family → List Family → Prop
  | enter {b role next cs} :
      FamilyStep (node (shell b (.enter role next)) cs) [] (node (shell b next) cs) []
  | exit {b status cs} : FamilyStep (node (shell b (.exit status)) cs) [] (node zombie []) cs
  | execve {b path argv failed cs} :
      FamilyStep (node (shell b (.execve path argv failed)) cs)
        (.start b path argv :: cancels (b + 1) failed) (node (program b) cs) []
  | execveFails {b path argv failed cs} :
      FamilyStep (node (shell b (.execve path argv failed)) cs) [.start b path argv, .finish b]
        (node (shell (b + 1) failed) cs) []
  | close {b fd next cs} :
      FamilyStep (node (shell b (.close fd next)) cs) [] (node (shell b next) cs) []
  | dup {b fd next cs} :
      FamilyStep (node (shell b (.dup fd next)) cs) [] (node (shell b next) cs) []
  | openFile {b file mode next cs} :
      FamilyStep (node (shell b (.openFile file mode next)) cs) [] (node (shell b next) cs) []
  | openFails {b file mode next cs} :
      FamilyStep (node (shell b (.openFile file mode next)) cs) (cancels b next)
        (node zombie []) cs
  | pipe {b next cs} (p0 p1 id : ℕ) :
      FamilyStep (node (shell b (.pipe next)) cs) [] (node (shell b (next p0 p1 id)) cs) []
  | fork {b child parent cs} :
      FamilyStep (node (shell b (.fork child parent)) cs) []
        (node (shell (b + child.calls) parent) (cs ++ [node (shell b child) []])) []
  | wait {b pipe next cs cs₁ cs₂} (exited : cs = cs₁ ++ node zombie [] :: cs₂) :
      FamilyStep (node (shell b (.wait pipe next)) cs) [] (node (shell b next) (cs₁ ++ cs₂)) []
  | waitFails {b pipe next} :
      FamilyStep (node (shell b (.wait pipe next)) []) [] (node (shell b next) []) []
  | finish {number cs} :
      FamilyStep (node (program number) cs) [.finish number] (node zombie []) cs
  | child {a cs c cs₁ cs₂ events c' orphans} (isChild : cs = cs₁ ++ c :: cs₂)
      (step : FamilyStep c events c' orphans) :
      FamilyStep (node a cs) events (node a (cs₁ ++ c' :: cs₂)) orphans

/-- The children of `init`, and all that has happened. -/
structure System where
  families : List Family
  log : List Event

/-- A step of any process. -/
inductive SystemStep : System → System → Prop
  | run {before after : List Family} {t t' : Family} {events : List Event} {orphans : List Family}
      {log : List Event} (step : FamilyStep t events t' orphans) :
      SystemStep ⟨before ++ t :: after, log⟩
        ⟨before ++ t' :: after ++ orphans, log ++ events⟩

/-! ### The arena -/

/-- `sizeof(mem)`. -/
def arenaSize : ℕ := 4096

/-- `zalloc`, when `freem` bytes of the arena are in use: the bytes in use after it, or `none` if
its assertion fails. -/
def zalloc (freem sz : ℕ) : Option ℕ := if freem + sz < arenaSize then some (freem + sz) else none

/-- The calls of `zalloc` by which the parse functions build a tree: a node after its parts, with
the size of its structure. -/
def Cmd.zallocs {W : Type} : Cmd W → List ℕ
  | .exec _ => [168]
  | .redir cmd _ _ _ => cmd.zallocs ++ [40]
  | .pipe left right => left.zallocs ++ right.zallocs ++ [24]
  | .list left right => left.zallocs ++ right.zallocs ++ [24]
  | .back cmd => cmd.zallocs ++ [16]

/-- A program whose process has used `freem` bytes of the arena.  `runcmd` calls `zalloc` for a path
and its terminator, and where that assertion fails the process exits. -/
def Prog.inArena (freem : ℕ) : Prog → Prog
  | .enter role next => .enter role (next.inArena freem)
  | .exit status => .exit status
  | .execve path argv failed =>
    (zalloc freem (path.length + 1)).elim (.exit 1) fun freem =>
      .execve path argv (failed.inArena freem)
  | .close fd next => .close fd (next.inArena freem)
  | .dup fd next => .dup fd (next.inArena freem)
  | .openFile file mode next => .openFile file mode (next.inArena freem)
  | .pipe next => .pipe fun p0 p1 id => (next p0 p1 id).inArena freem
  | .fork child parent => .fork (child.inArena freem) (parent.inArena freem)
  | .wait id next => .wait id (next.inArena freem)

/-! ### The shell -/

/-- What `parsecmd` leaves: a tree, and the bytes of the arena that are in use. -/
structure Ready where
  cmd : Cmd CStr
  freem : ℕ
deriving DecidableEq

/-- What the child of `main` runs, or `none` if an assertion of `parsecmd` or of `zalloc` fails;
which of them fails first does not matter.  The fuel is enough for the line. -/
def parsed (s : CStr) : Option Ready :=
  match parsecmd (4 * s.length + 4) s with
  | .ok (mem, cmd) => (cmd.zallocs.foldlM zalloc 0).map fun freem => ⟨cmd.resolve mem, freem⟩
  | .error _ => none

def Handed.parsed? : Handed → Option (Option Ready)
  | .chdir _ => none
  | .parsecmd s => some (parsed s)

/-- The lines for which `main` starts a child; there is none for `cd`. -/
def commands (stdin : List UInt8) : List (Option Ready) := (main stdin).filterMap Handed.parsed?

/-- The loop of `main`: each line is run by a child, and waited for.  The child exits when an
assertion fails. -/
def session : List (Option Ready) → Prog
  | [] => .exit 0
  | none :: lines => .fork (.exit 1) (.wait none (session lines))
  | some line :: lines =>
    .fork (.enter .plain ((runcmd line.cmd).inArena line.freem)) (.wait none (session lines))

/-- The shell before it has read a line. -/
def System.init (lines : List (Option Ready)) : System :=
  ⟨[.node (.shell 0 (session lines)) []], []⟩

end Jyyos.Sh
