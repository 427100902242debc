import Jyyos.Mosaic.Device
import Jyyos.Algorithm.Exec

/-!
# Applications and threads

An application is given by what its generators do: `resume` runs a frame from its current `yield`
(or from its start) to the next one, on the contents of the heap that the global `heap` is bound
to and with the value that is sent.  This is all that thread code can see.

A generator that is suspended keeps, next to its frame, the system call it has yielded.  The code
does not store it; it says where the frame stands.
-/

namespace Jyyos.Mosaic

/-- A system call, as a thread yields it. -/
inductive Syscall (V F : Type) where
  | spawn (func : F) (args : List V)
  | fork
  | sched
  | dev (c : DevCall V)
deriving DecidableEq

/-- A generator: not started, suspended at a `yield`, or finished (`gi_frame is None`). -/
inductive Gen (V F S : Type) where
  | start (frame : S)
  | suspended (frame : S) (call : Syscall V F)
  | finished
deriving DecidableEq

/-- `gi_frame`. -/
def Gen.frame? {V F S : Type} : Gen V F S → Option S
  | .start frame => some frame
  | .suspended frame _ => some frame
  | .finished => none

/-- The thread is still alive: `gi_frame is not None`. -/
def Gen.Live {V F S : Type} (g : Gen V F S) : Prop := g ≠ .finished

instance {V F S : Type} (g : Gen V F S) : Decidable g.Live :=
  match g with
  | .start _ => .isTrue (by simp [Gen.Live])
  | .suspended _ _ => .isTrue (by simp [Gen.Live])
  | .finished => .isFalse (by simp [Gen.Live])

/-- What running thread code gives: it yields, it returns or it raises an exception. -/
inductive Outcome (V F S H : Type) where
  | yields (frame : S) (call : Syscall V F) (heap : H)
  | returns (heap : H)
  | raises

/-- An application: `V` are its values, `F` its functions, `S` the frames of its generators and
`H` the contents of its heaps. -/
structure App (V F S H : Type) where
  /-- `init.__name__`. -/
  initName : Text
  /-- The generator `init()`. -/
  init : S
  /-- The generator `func(*args)`; `none` if the call raises an exception. -/
  call : F → List V → Option S
  /-- Thread code from one `yield` to the next. -/
  resume : S → V → H → Outcome V F S H
  /-- The contents of a new heap. -/
  emptyHeap : H

/-- A thread: its generator and the reference to its heap. -/
structure Thread (V F S : Type) where
  context : Gen V F S
  heap : ℕ

/-- The callback of a choice, with what it has captured; `C` is what `do_fork` captures. -/
inductive Action (V F C : Type) where
  | init
  | spawn (func : F) (args : List V)
  | fork (child : C)
  | switch (tid : ℕ)
  | dev (a : DevAction V)

/-- The table of choices of an operating system. -/
abbrev Choices (V F C : Type) := Dict Label (Action V F C)

variable {V F S C : Type} [DecidableEq V] [PyVal V]

/-! ### The tables that need no clone -/

/-- The table of a new operating system. -/
def initChoices (name : Text) : Choices V F C := Dict.ofList [(.text name, .init)]

def sysSpawn (func : F) (args : List V) : Choices V F C :=
  Dict.ofList [(.text ['s', 'p', 'a', 'w', 'n'], .spawn func args)]

/-- The label of a context switch: `f't{i+1}'`. -/
def schedLabel (tid : ℕ) : Label := .text ('t' :: Nat.toDigits 10 (tid + 1))

/-- One choice for each live thread. -/
def sysSched (contexts : List (Gen V F S)) : Choices V F C :=
  Dict.ofList ((contexts.zipIdx.filter fun g => decide g.1.Live).map fun g =>
    (schedLabel g.2, .switch g.2))

/-- The table of a device call. -/
def sysDev (d : Devices V) (c : DevCall V) : Choices V F C := (c.table d).map .dev

end Jyyos.Mosaic
