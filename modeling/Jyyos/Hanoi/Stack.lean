import Jyyos.Hanoi.Basic
import Mathlib.Logic.Function.Basic
import Mathlib.Data.Int.Init

/-!
# `hanoi` with an explicit stack

The loop of `hanoi` in `hanoi-nr.c`: a machine with an array of 64 frames, each with its own program
counter, and one variable for the value that was returned last.  `top` is the index of the frame on
top and `-1` when there is none.  A pass of the loop keeps a pointer to the frame that was on top at
its beginning and writes that frame's program counter at its end, also when the frame has been
popped in between.
-/

namespace Jyyos.Hanoi.Stack

/-- The struct `Frame`. -/
structure Frame (κ α : Type*) where
  pc : ℕ
  n : ℤ
  src : κ
  dst : κ
  via : κ
  c1 : α
  c2 : α

/-- The number of entries of the array `stk`. -/
def stkSize : ℤ := 64

/-- The variables of the function, and what it has printed. -/
structure State (κ α : Type*) where
  stk : ℕ → Frame κ α
  top : ℤ
  retval : α
  out : List (κ × κ)

/-- The place of a run: at the head of the loop, behind it, at the failed `assert(0)`, or at a store
behind the end of `stk`. -/
inductive Config (κ α : Type*) where
  | loop (s : State κ α)
  | done (s : State κ α)
  | assertion (s : State κ α)
  | overflow (s : State κ α)

variable {κ α : Type*} [Add α] [Zero α] [One α]

/-- The macro `call`. -/
def State.call (s : State κ α) (n : ℤ) (src dst via : κ) : Config κ α :=
  if s.top + 1 < stkSize then
    .loop { s with
      stk := Function.update s.stk (s.top + 1).toNat ⟨0, n, src, dst, via, 0, 0⟩
      top := s.top + 1 }
  else .overflow s

/-- The macro `ret`. -/
def State.ret (s : State κ α) (val : α) : Config κ α :=
  .loop { s with top := s.top - 1, retval := val }

/-- Change the entry `f` of the array. -/
def State.modify (s : State κ α) (f : ℕ) (g : Frame κ α → Frame κ α) : State κ α :=
  { s with stk := Function.update s.stk f (g (s.stk f)) }

/-- The `switch` for the frame at index `f`. -/
def State.exec (s : State κ α) (f : ℕ) : Config κ α :=
  let ⟨pc, n, src, dst, via, c1, c2⟩ := s.stk f
  match pc with
  | 0 => if n = 1 then { s with out := s.out ++ [(src, dst)] }.ret 1 else .loop s
  | 1 => s.call (n - 1) src via dst
  | 2 => .loop (s.modify f fun frame => { frame with c1 := s.retval })
  | 3 => s.call 1 src dst via
  | 4 => s.call (n - 1) via dst src
  | 5 => .loop (s.modify f fun frame => { frame with c2 := s.retval })
  | 6 => s.ret (c1 + c2 + 1)
  | _ => .assertion s

/-- The last statement of the loop, `f->pc = next_pc`. -/
def Config.setPc (f nextPc : ℕ) : Config κ α → Config κ α
  | .loop s => .loop (s.modify f fun frame => { frame with pc := nextPc })
  | c => c

/-- A pass of the loop. -/
def step : Config κ α → Option (Config κ α)
  | .loop s =>
    if s.top < 0 then some (.done s)
    else
      let f := s.top.toNat
      let nextPc := (s.stk f).pc + 1
      some ((s.exec f).setPc f nextPc)
  | _ => none

/-- The function up to its loop, on an array with any contents. -/
def start (stk : ℕ → Frame κ α) (n : ℤ) (src dst via : κ) : Config κ α :=
  State.call ⟨stk, -1, 0, []⟩ n src dst via

end Jyyos.Hanoi.Stack
