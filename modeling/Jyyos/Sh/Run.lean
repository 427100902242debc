import Jyyos.Sh.Parse
import Mathlib.Order.Bounds.Defs
import Mathlib.Order.Lattice.Nat
import Mathlib.Data.Set.Basic

/-!
# Running commands

`runcmd` of `sh.c` as the system calls that it makes, and the part of the kernel that they act on:
processes with tables of open descriptors.

The program of a process is a tree of calls.  `fork` has two continuations, for the child and for
the parent; a `pipe` passes on the two descriptors and, for the statements only, the pipe itself.
Two things that are not system calls are marked: the process enters `runcmd`, and the command that
`wait4` is called for.  `fork`, `pipe` and `open` succeed; `write` is left out, as it opens and
closes nothing; and `wait4` may return at any time, so the model has every order of steps that the
kernel can choose, and more.
-/

namespace Jyyos.Sh

/-- Why a process enters `runcmd`: as the left or the right side of a pipe, or otherwise. -/
inductive Role where
  | plain
  | left (pipe : ℕ)
  | right (pipe : ℕ)
deriving DecidableEq, Repr

/-- What a process is going to do. -/
inductive Prog where
  | enter (role : Role) (next : Prog)
  | exit (status : ℕ)
  | execve (path : CStr) (argv : List CStr) (failed : Prog)
  | close (fd : ℕ) (next : Prog)
  | dup (fd : ℕ) (next : Prog)
  | openFile (file : CStr) (mode : ℕ) (next : Prog)
  | pipe (next : ℕ → ℕ → ℕ → Prog)
  | fork (child parent : Prog)
  | wait (pipe : Option ℕ) (next : Prog)

/-- `runcmd`. -/
def runcmd : Cmd CStr → Prog
  | .exec [] => .exit 1
  | .exec (arg :: args) =>
    .execve (cstr ['/', 'b', 'i', 'n', '/'] ++ arg) (arg :: args) (.exit 0)
  | .redir cmd file mode fd => .close fd (.openFile file mode (.enter .plain (runcmd cmd)))
  | .list left right =>
    .fork (.enter .plain (runcmd left)) (.wait none (.enter .plain (runcmd right)))
  | .pipe left right =>
    .pipe fun p0 p1 id =>
      .fork (.close 1 (.dup p1 (.close p0 (.close p1 (.enter (.left id) (runcmd left))))))
        (.fork (.close 0 (.dup p0 (.close p0 (.close p1 (.enter (.right id) (runcmd right))))))
          (.close p0 (.close p1 (.wait (some id) (.wait (some id) (.exit 0))))))
  | .back cmd => .fork (.enter .plain (runcmd cmd)) (.exit 0)

/-- What a descriptor stands for. -/
inductive File where
  | readEnd (pipe : ℕ)
  | writeEnd (pipe : ℕ)
  | named (file : CStr) (mode : ℕ)
  | other (n : ℕ)
deriving DecidableEq, Repr

/-- The open descriptors of a process. -/
abbrev Fds := ℕ → Option File

/-- `fd` is the lowest free descriptor. -/
def LowestFree (fds : Fds) (fd : ℕ) : Prop := IsLeast {fd | fds fd = none} fd

structure Proc where
  fds : Fds
  prog : Prog

/-- One step of a process when `n` is the next pipe: the next pipe after it, and what has become of
the process and its child. -/
inductive ProcStep : ℕ → Proc → ℕ → List Proc → Prop
  | enter {n fds role next} : ProcStep n ⟨fds, .enter role next⟩ n [⟨fds, next⟩]
  | exit {n fds status} : ProcStep n ⟨fds, .exit status⟩ n []
  | execve {n fds path argv failed} : ProcStep n ⟨fds, .execve path argv failed⟩ n []
  | execveFails {n fds path argv failed} :
      ProcStep n ⟨fds, .execve path argv failed⟩ n [⟨fds, failed⟩]
  | close {n fds fd next} :
      ProcStep n ⟨fds, .close fd next⟩ n [⟨Function.update fds fd none, next⟩]
  | dup {n fds fd next file fd'} (isOpen : fds fd = some file) (lowest : LowestFree fds fd') :
      ProcStep n ⟨fds, .dup fd next⟩ n [⟨Function.update fds fd' (some file), next⟩]
  | dupFails {n fds fd next} (isClosed : fds fd = none) :
      ProcStep n ⟨fds, .dup fd next⟩ n [⟨fds, next⟩]
  | openFile {n fds file mode next fd} (lowest : LowestFree fds fd) :
      ProcStep n ⟨fds, .openFile file mode next⟩ n
        [⟨Function.update fds fd (some (.named file mode)), next⟩]
  | pipe {n fds next p0 p1} (lowest : LowestFree fds p0)
      (lowest' : LowestFree (Function.update fds p0 (some (.readEnd n))) p1) :
      ProcStep n ⟨fds, .pipe next⟩ (n + 1)
        [⟨Function.update (Function.update fds p0 (some (.readEnd n))) p1 (some (.writeEnd n)),
          next p0 p1 n⟩]
  | fork {n fds child parent} :
      ProcStep n ⟨fds, .fork child parent⟩ n [⟨fds, child⟩, ⟨fds, parent⟩]
  | wait {n fds pipe next} : ProcStep n ⟨fds, .wait pipe next⟩ n [⟨fds, next⟩]

/-- The processes, and the next pipe. -/
structure Kernel where
  procs : List Proc
  nextPipe : ℕ

/-- A step of any of the processes. -/
inductive Step : Kernel → Kernel → Prop
  | run {before after : List Proc} {p : Proc} {n n' : ℕ} {ps : List Proc}
      (step : ProcStep n p n' ps) :
      Step ⟨before ++ p :: after, n⟩ ⟨before ++ ps ++ after, n'⟩

end Jyyos.Sh
