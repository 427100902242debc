import Mathlib.Data.Nat.Notation

/-!
# The minimal operating system model

`OS` of `course_code/lecture_4/os-model(important)/os-model.py`.

A process is a Python generator.  Generators that share no mutable state are state machines: what
`send` comes to depends on the state of the generator and on the value that is sent, which is `None`
or the bit of a `read`.  A process is an object, and `id` is its identity: the number of processes
that were created before it.  What `random.choice` gives in a round of the main loop is a parameter
of the round, and a round also says what happened in it.
-/

namespace Jyyos.OsModel

/-- What a process yields; `other` is everything that makes the main loop raise an exception. -/
inductive Syscall (F A : Type) where
  | read
  | write (s : String)
  | spawn (fn : F) (args : A)
  | other
deriving DecidableEq, Repr

/-- What `send` comes to. -/
inductive Outcome (S F A : Type) where
  | yields (func : S) (call : Syscall F A)
  | returns
  | raises

/-- The program: the generator of `main()`, the generator that a call of a function gives if it does
not raise an exception, and how generators are resumed. -/
structure Program (S F A : Type) where
  main : S
  call : F → A → Option S
  send : S → Option Bool → Outcome S F A

/-- `OS.Process`. -/
structure Process (S : Type) where
  id : ℕ
  func : S
  retval : Option Bool

/-- `OS`, and how many processes were created. -/
structure OS (S : Type) where
  procs : List (Process S)
  buffer : String
  created : ℕ

/-- What happens in a round: a process issues a system call, and a `read` is answered; or the
process stops. -/
inductive Event (F A : Type) where
  | call (id : ℕ) (call : Syscall F A) (bit : Option Bool)
  | stop (id : ℕ)
deriving DecidableEq, Repr

/-- What `random.choice` gives in a round: the index of the process, and the bit if it reads. -/
structure Pick where
  index : ℕ
  bit : Bool

variable {S F A : Type}

/-- `OS.__init__`. -/
def OS.init (prog : Program S F A) : OS S := ⟨[⟨0, prog.main, none⟩], "", 1⟩

/-- `self.procs.remove(current)`. -/
def OS.remove (os : OS S) (current : Process S) : OS S :=
  { os with procs := os.procs.eraseP fun p => p.id == current.id }

/-- The state of the process at an index changes. -/
def OS.update (os : OS S) (index : ℕ) (current : Process S) : OS S :=
  { os with procs := os.procs.set index current }

/-- A round of the loop of `OS.run`; there is none if an exception leaves the loop. -/
def OS.round (prog : Program S F A) (os : OS S) (pick : Pick) : Option (OS S × Event F A) := do
  let current ← os.procs[pick.index]?
  match prog.send current.func current.retval with
  | .raises => none
  | .returns => some (os.remove current, .stop current.id)
  | .yields func call =>
    match call with
    | .read =>
      some (os.update pick.index ⟨current.id, func, some pick.bit⟩,
        .call current.id call (some pick.bit))
    | .write s =>
      let os := os.update pick.index ⟨current.id, func, none⟩
      some ({ os with buffer := os.buffer ++ s }, .call current.id call none)
    | .spawn fn args => do
      let os := os.update pick.index ⟨current.id, func, none⟩
      let child ← prog.call fn args
      some ({ os with procs := os.procs ++ [⟨os.created, child, none⟩], created := os.created + 1 },
        .call current.id call none)
    | .other => none

/-- Rounds of the loop one after the other, and what happened in them. -/
def OS.rounds (prog : Program S F A) : OS S → List Pick → Option (OS S × List (Event F A))
  | os, [] => some (os, [])
  | os, pick :: picks => do
    let (os', e) ← os.round prog pick
    let (os'', es) ← os'.rounds prog picks
    some (os'', e :: es)

/-- `OS.run`, for the given choices: the buffer, if no process is left after them. -/
def run (prog : Program S F A) (picks : List Pick) : Option String := do
  let (os, _) ← (OS.init prog).rounds prog picks
  if os.procs = [] then some os.buffer else none

end Jyyos.OsModel
