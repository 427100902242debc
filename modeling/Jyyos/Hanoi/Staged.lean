import Jyyos.Hanoi.Basic
import Mathlib.Logic.Function.Basic
import Mathlib.Data.Int.Init

/-!
# `hanoi` with staged frames

`push`, `pop` and `hanoi` of `hanoi-o3mini.c`: a stack of 1000 frames, each with a stage that says
how far its call has come.  The middle move is made in place and not by a call, and the auxiliary
peg stands before the target.
-/

namespace Jyyos.Hanoi.Staged

/-- The struct `Frame`. -/
structure Frame (κ : Type*) where
  n : ℤ
  src : κ
  aux : κ
  dst : κ
  stage : ℕ

def STACK_SIZE : ℤ := 1000

/-- The global variables, and what has been printed. -/
structure State (κ : Type*) where
  stack : ℕ → Frame κ
  top : ℤ
  out : List (κ × κ)

/-- The place of a run: at the head of the loop, behind it, or at one of the two exits. -/
inductive Config (κ : Type*) where
  | loop (s : State κ)
  | done (s : State κ)
  | stackOverflow (s : State κ)
  | stackUnderflow (s : State κ)

variable {κ : Type*}

namespace State

def push (s : State κ) (frame : Frame κ) : Config κ :=
  if s.top < STACK_SIZE - 1 then
    .loop { s with
      stack := Function.update s.stack (s.top + 1).toNat frame
      top := s.top + 1 }
  else .stackOverflow s

def pop (s : State κ) : Config κ :=
  if 0 ≤ s.top then .loop { s with top := s.top - 1 } else .stackUnderflow s

def isEmpty (s : State κ) : Bool := s.top == -1

def move (s : State κ) (src dst : κ) : State κ := { s with out := s.out ++ [(src, dst)] }

/-- The assignment `current->stage = stage`. -/
def setStage (s : State κ) (current stage : ℕ) : State κ :=
  { s with stack := Function.update s.stack current { s.stack current with stage := stage } }

end State

/-- A pass of the loop. -/
def step : Config κ → Option (Config κ)
  | .loop s =>
    if s.isEmpty then some (.done s)
    else
      let current := s.top.toNat
      let ⟨n, src, aux, dst, stage⟩ := s.stack current
      if n = 1 ∧ stage = 0 then some (s.move src dst).pop
      else if stage = 0 then
        some ((s.setStage current 1).push ⟨n - 1, src, dst, aux, 0⟩)
      else if stage = 1 then
        some (((s.move src dst).setStage current 2).push ⟨n - 1, aux, src, dst, 0⟩)
      else some s.pop
  | _ => none

/-- The function up to its loop. -/
def start (s : State κ) (n : ℤ) (src aux dst : κ) : Config κ := s.push ⟨n, src, aux, dst, 0⟩

end Jyyos.Hanoi.Staged
