import Jyyos.Mosaic.OperatingSystem
import Jyyos.Mosaic.Reference

/-!
# The values that are sent

Every `_step` does one `context.send`.  `sends` lists those of a run, whether or not the thread code
that they resume raises an exception in the end.
-/

namespace Jyyos.Mosaic

/-- The callback without what `do_fork` captures. -/
def Action.forget {V F C : Type} : Action V F C → Action V F Unit
  | .init => .init
  | .spawn func args => .spawn func args
  | .fork _ => .fork ()
  | .switch tid => .switch tid
  | .dev a => .dev a

/-- One `context.send`. -/
structure Send (V F S : Type) where
  /-- The callback that was run for it. -/
  action : Action V F Unit
  /-- The devices when the callback ran. -/
  devices : Devices V
  /-- The thread it resumes. -/
  tid : ℕ
  /-- The generator of that thread. -/
  context : Gen V F S
  /-- The value sent. -/
  value : V
  /-- The number of threads by then. -/
  threads : ℕ

variable {V F S H : Type} [DecidableEq V] [PyVal V] (app : App V F S H)

namespace OperatingSystem

/-- The send of a step. -/
def sendOf (choice : Label) (os : OperatingSystem V F S) (w : World H) : Option (Send V F S) :=
  match os.choose app choice w with
  | (.error _, _) => none
  | (.ok (os', res), _) => do
    let table ← os.choices
    let action ← table.get? choice
    let th ← os'.threads[os'.current]?
    pure ⟨action.forget, os.devices, os'.current, th.context, res, os'.threads.length⟩

/-- The sends of a run from a state. -/
def sendsFrom (fuel : ℕ) : List Label → OperatingSystem V F S → World H → List (Send V F S)
  | [], _, _ => []
  | choice :: trace, os, w =>
    (os.sendOf app choice w).toList ++
      match step app fuel false [] choice os w with
      | (.ok os', w') => sendsFrom fuel trace os' w'
      | (.error _, _) => []

/-- The sends of a run of a new operating system. -/
def sends (fuel : ℕ) (trace : List Label) (w : World H) : List (Send V F S) :=
  match new app w with
  | (.ok os, w') => sendsFrom app fuel trace os w'
  | (.error _, _) => []

end OperatingSystem

namespace Reference

/-- The send of a step. -/
def sendOf (choice : Label) (ref : Reference V F S H) : Option (Send V F S) := do
  let r ← ref.choose app choice
  let action ← ref.choices.get? choice
  let th ← r.1.threads[r.1.current]?
  pure ⟨action, ref.devices, r.1.current, th.context, r.2, r.1.threads.length⟩

/-- The sends of a run from a state. -/
def sendsFrom : List Label → Reference V F S H → List (Send V F S)
  | [], _ => []
  | choice :: trace, ref =>
    (ref.sendOf app choice).toList ++
      match ref.step app choice with
      | some ref' => sendsFrom trace ref'
      | none => []

end Reference

end Jyyos.Mosaic
