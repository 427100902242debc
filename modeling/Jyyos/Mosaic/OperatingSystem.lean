import Jyyos.Mosaic.App
import Mathlib.Data.Finset.Insert

/-!
# The operating system

`OperatingSystem` of `course_code/lecture_4/mosaic/mosaic.py` (sections 2.2 to 2.5).  Heaps are
objects with an identity, so all instances of the operating system that exist, the clones of
`sys_fork` among them, share one `World`: the contents of every heap, the heap that the global
`heap` is bound to, and a record of which thread code ran under which binding.  Thread code runs
on the heap of the binding, not on the heap of its thread.

`sys_fork` inspects the stack for calls of `_step` with `fork_child=True`, so `step` takes the
`fork_child` flags of the calls below it.  A fork replays the trace in a clone, whose own forks
replay in clones again: the fuel of `step` is how deep clones may nest.
-/

namespace Jyyos.Mosaic

/-- What all operating systems share. -/
structure World (H : Type) where
  /-- The contents of the heaps, by identity. -/
  heaps : List H
  /-- The binding of the global `heap`; `_step` sets it before anything reads it. -/
  heap : ℕ
  /-- For every piece of thread code that ran, the binding and the heap of its thread. -/
  ran : List (ℕ × ℕ)

/-- Why an operation does not return: a Python exception, or clones nested too deep. -/
inductive Error where
  | exception
  | fuel
deriving DecidableEq

/-- Code that runs in the world. -/
abbrev M (H : Type) := Exec Error (World H)

/-- The callbacks of an operating system: `do_fork` captures the thread of the clone. -/
abbrev OSAction (V F S : Type) := Action V F (Thread V F S)

/-- The state of an operating system; `choices` is `None` after an overridden fork. -/
structure OperatingSystem (V F S : Type) where
  threads : List (Thread V F S)
  current : ℕ
  choices : Option (Choices V F (Thread V F S))
  devices : Devices V
  trace : List Label
  newfork : Finset ℕ

variable {V F S H : Type} [DecidableEq V] [PyVal V]

/-- An index or a key that must exist, or an exception. -/
def need {α : Type} (x : Option α) : M H α := Exec.orThrow .exception x

/-- `globals()['heap'] = …`. -/
def bindHeap (heap : ℕ) : M H PUnit := Exec.modify fun w => { w with heap := heap }

namespace OperatingSystem

/-- `OperatingSystem(init)`: one thread, on a new heap. -/
def new (app : App V F S H) : M H (OperatingSystem V F S) := fun w =>
  (.ok ⟨[⟨.start app.init, w.heaps.length⟩], 0, some (initChoices app.initName), .init, [], ∅⟩,
    { w with heaps := w.heaps ++ [app.emptyHeap] })

/-- The contexts of the threads. -/
def contexts (os : OperatingSystem V F S) : List (Gen V F S) := os.threads.map Thread.context

/-- `_switch_to`: a forked child that is new gets its `0`. -/
def switchTo (os : OperatingSystem V F S) (tid : ℕ) : M H (OperatingSystem V F S × V) := do
  let th ← need os.threads[tid]?
  bindHeap th.heap
  if tid ∈ os.newfork then
    pure ({ os with current := tid, newfork := os.newfork.erase tid }, PyVal.ofNat 0)
  else
    pure ({ os with current := tid }, PyVal.none)

/-- Run the callback of a choice. -/
def perform (app : App V F S H) (os : OperatingSystem V F S) :
    OSAction V F S → M H (OperatingSystem V F S × V)
  | .init => pure (os, PyVal.none)
  | .spawn func args => do
    let frame ← need (app.call func args)
    let th ← need os.threads[os.current]?
    pure ({ os with threads := os.threads ++ [⟨.start frame, th.heap⟩] }, PyVal.none)
  | .fork child =>
    let threads := os.threads ++ [child]
    pure ({ os with threads := threads, newfork := insert (threads.length - 1) os.newfork },
      PyVal.ofNat (1000 + threads.length))
  | .switch tid => os.switchTo tid
  | .dev a =>
    let r := a.run os.devices
    pure ({ os with devices := r.1 }, r.2)

/-- The part of `_step` up to the result of the callback. -/
def choose (app : App V F S H) (choice : Label) (os : OperatingSystem V F S) :
    M H (OperatingSystem V F S × V) := do
  let r ← os.switchTo os.current
  let os := { r.1 with trace := r.1.trace ++ [choice] }
  let table ← need os.choices
  let action ← need (table.get? choice)
  os.perform app action

/-- Replace the context of the current thread. -/
def setContext (os : OperatingSystem V F S) (th : Thread V F S) (context : Gen V F S) :
    OperatingSystem V F S :=
  { os with threads := os.threads.set os.current { th with context := context } }

/-- Run the code of the current thread on the heap of the binding. -/
def resume (app : App V F S H) (os : OperatingSystem V F S) (th : Thread V F S) (frame : S)
    (res : V) : M H (OperatingSystem V F S × Option (Syscall V F)) := do
  let w ← Exec.get
  let h ← need w.heaps[w.heap]?
  Exec.modify fun w => { w with ran := w.ran ++ [(w.heap, th.heap)] }
  match app.resume frame res h with
  | .yields frame call h' => do
    Exec.modify fun w => { w with heaps := w.heaps.set w.heap h' }
    pure (os.setContext th (.suspended frame call), some call)
  | .returns h' => do
    Exec.modify fun w => { w with heaps := w.heaps.set w.heap h' }
    pure (os.setContext th .finished, none)
  | .raises => Exec.throw .exception

/-- `self.current().context.send(res)`: the system call that is yielded, or `none` for
`StopIteration`.  Only `None` can be sent to a generator that has not started. -/
def send (app : App V F S H) (os : OperatingSystem V F S) (res : V) :
    M H (OperatingSystem V F S × Option (Syscall V F)) := do
  let th ← need os.threads[os.current]?
  match th.context with
  | .finished => pure (os, none)
  | .start frame => if res = PyVal.none then os.resume app th frame res else Exec.throw .exception
  | .suspended frame _ => os.resume app th frame res

/-- The type of `_step(choice, fork_child)`, with the flags of the calls of `_step` below it. -/
abbrev Stepper (V F S H : Type) :=
  (forkChild : Bool) → (stack : List Bool) → Label → OperatingSystem V F S →
    M H (OperatingSystem V F S)

/-- `replay`, without the dump of the state. -/
def replay (step : Stepper V F S H) (stack : List Bool) (trace : List Label)
    (os : OperatingSystem V F S) : M H (OperatingSystem V F S) :=
  trace.foldlM (fun os choice => step false stack choice os) os

/-- `sys_fork`; `step` is the `_step` of the clone. -/
def sysFork (app : App V F S H) (step : Stepper V F S H) (stack : List Bool)
    (os : OperatingSystem V F S) : M H (Option (Choices V F (Thread V F S))) :=
  if stack.all (!·) then do
    let clone ← new app
    let clone ← replay step stack os.trace.dropLast clone
    let last ← need os.trace.getLast?
    let clone ← step true stack last clone
    let child ← need clone.threads[clone.current]?
    pure (some (Dict.ofList [(.text ['f', 'o', 'r', 'k'], .fork child)]))
  else
    pure none

/-- `getattr(self, func)(*args)`, or `sys_sched()` when the thread has terminated. -/
def syscall (app : App V F S H) (step : Stepper V F S H) (stack : List Bool)
    (os : OperatingSystem V F S) :
    Option (Syscall V F) → M H (Option (Choices V F (Thread V F S)))
  | none => pure (some (sysSched os.contexts))
  | some (.spawn func args) => pure (some (sysSpawn func args))
  | some .fork => os.sysFork app step stack
  | some .sched => pure (some (sysSched os.contexts))
  | some (.dev c) => pure (some (sysDev os.devices c))

/-- `_step`, given the `_step` of the clones. -/
def stepWith (app : App V F S H) (clone : Stepper V F S H) : Stepper V F S H :=
  fun forkChild stack choice os => do
    let r ← os.choose app choice
    let r ← r.1.send app r.2
    let choices ← r.1.syscall app clone (forkChild :: stack) r.2
    pure { r.1 with choices := choices }

/-- `_step`, with clones nested at most `fuel` deep. -/
def step (app : App V F S H) : ℕ → Stepper V F S H
  | 0 => stepWith app fun _ _ _ _ => Exec.throw .fuel
  | fuel + 1 => stepWith app (step app fuel)

/-- A new operating system that replays a trace. -/
def run (app : App V F S H) (fuel : ℕ) (stack : List Bool) (trace : List Label) :
    M H (OperatingSystem V F S) := do
  let os ← new app
  replay (step app fuel) stack trace os

end OperatingSystem

end Jyyos.Mosaic
