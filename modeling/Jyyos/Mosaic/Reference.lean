import Jyyos.Mosaic.App
import Mathlib.Data.Finset.Insert

/-!
# The reference operating system

What the operating system is meant to do, with a fork that copies: `fork` appends a copy of the
current thread on a new heap with the contents of its own.  There is no trace, no clone and no
global `heap`: thread code runs on the heap of its thread.  Every operation is a partial function
of the state; `none` stands for an exception.
-/

namespace Jyyos.Mosaic

/-- A state of the reference: the threads refer to the heaps by position. -/
structure Reference (V F S H : Type) where
  threads : List (Thread V F S)
  heaps : List H
  current : ℕ
  choices : Choices V F Unit
  devices : Devices V
  newfork : Finset ℕ

variable {V F S H : Type} [DecidableEq V] [PyVal V]

namespace Reference

/-- One thread, on an empty heap. -/
def new (app : App V F S H) : Reference V F S H :=
  ⟨[⟨.start app.init, 0⟩], [app.emptyHeap], 0, initChoices app.initName, .init, ∅⟩

def contexts (ref : Reference V F S H) : List (Gen V F S) := ref.threads.map Thread.context

/-- Make a thread current; a new child gets `0`. -/
def switchTo (ref : Reference V F S H) (tid : ℕ) : Option (Reference V F S H × V) := do
  let _ ← ref.threads[tid]?
  if tid ∈ ref.newfork then
    pure ({ ref with current := tid, newfork := ref.newfork.erase tid }, PyVal.ofNat 0)
  else
    pure ({ ref with current := tid }, PyVal.none)

/-- Append a copy of the current thread, on a copy of its heap. -/
def fork (ref : Reference V F S H) : Option (Reference V F S H × V) := do
  let th ← ref.threads[ref.current]?
  let h ← ref.heaps[th.heap]?
  let threads := ref.threads ++ [⟨th.context, ref.heaps.length⟩]
  pure ({ ref with
      threads := threads, heaps := ref.heaps ++ [h],
      newfork := insert (threads.length - 1) ref.newfork },
    PyVal.ofNat (1000 + threads.length))

def perform (app : App V F S H) (ref : Reference V F S H) :
    Action V F Unit → Option (Reference V F S H × V)
  | .init => pure (ref, PyVal.none)
  | .spawn func args => do
    let frame ← app.call func args
    let th ← ref.threads[ref.current]?
    pure ({ ref with threads := ref.threads ++ [⟨.start frame, th.heap⟩] }, PyVal.none)
  | .fork _ => ref.fork
  | .switch tid => ref.switchTo tid
  | .dev a =>
    let r := a.run ref.devices
    pure ({ ref with devices := r.1 }, r.2)

/-- Run the callback of an offered choice. -/
def choose (app : App V F S H) (choice : Label) (ref : Reference V F S H) :
    Option (Reference V F S H × V) := do
  let r ← ref.switchTo ref.current
  let action ← r.1.choices.get? choice
  r.1.perform app action

/-- Replace the context of the current thread and the contents of its heap. -/
def setContext (ref : Reference V F S H) (th : Thread V F S) (context : Gen V F S) (h : H) :
    Reference V F S H :=
  { ref with
    threads := ref.threads.set ref.current { th with context := context }
    heaps := ref.heaps.set th.heap h }

/-- Run the code of the current thread on its heap. -/
def resume (app : App V F S H) (ref : Reference V F S H) (th : Thread V F S) (frame : S)
    (res : V) : Option (Reference V F S H × Option (Syscall V F)) := do
  let h ← ref.heaps[th.heap]?
  match app.resume frame res h with
  | .yields frame call h' => some (ref.setContext th (.suspended frame call) h', some call)
  | .returns h' => some (ref.setContext th .finished h', none)
  | .raises => none

def send (app : App V F S H) (ref : Reference V F S H) (res : V) :
    Option (Reference V F S H × Option (Syscall V F)) := do
  let th ← ref.threads[ref.current]?
  match th.context with
  | .finished => some (ref, none)
  | .start frame => if res = PyVal.none then ref.resume app th frame res else none
  | .suspended frame _ => ref.resume app th frame res

/-- The choices that a system call offers; those of `sched` when the thread has terminated. -/
def syscall (ref : Reference V F S H) : Option (Syscall V F) → Choices V F Unit
  | none => sysSched ref.contexts
  | some (.spawn func args) => sysSpawn func args
  | some .fork => Dict.ofList [(.text ['f', 'o', 'r', 'k'], .fork ())]
  | some .sched => sysSched ref.contexts
  | some (.dev c) => sysDev ref.devices c

/-- One step, without the new table of choices: the system call that the thread reaches. -/
def advance (app : App V F S H) (choice : Label) (ref : Reference V F S H) :
    Option (Reference V F S H × Option (Syscall V F)) := do
  let r ← ref.choose app choice
  r.1.send app r.2

/-- One step. -/
def step (app : App V F S H) (ref : Reference V F S H) (choice : Label) :
    Option (Reference V F S H) := do
  let r ← ref.advance app choice
  pure { r.1 with choices := r.1.syscall r.2 }

/-- The state after a trace of choices. -/
def run (app : App V F S H) (trace : List Label) : Option (Reference V F S H) :=
  trace.foldlM (step app) (new app)

end Reference

end Jyyos.Mosaic
