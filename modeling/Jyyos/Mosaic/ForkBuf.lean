import Jyyos.Mosaic.OperatingSystem

/-!
# The buffers of `fork-buf.py`

`main` of `course_code/lecture_4/mosaic/examples/virtualization/fork-buf.py`, as an application of
Mosaic: `N` forks, after each of which a line with the result of the fork is put into a buffer that
is written at the end.  The number of forks is a global that the model checker sets; here it is a
parameter.
-/

namespace Jyyos.Mosaic.ForkBuf

/-- The program calls no `sys_spawn`. -/
abbrev Func := Empty

/-- The frames of `main`: not started, or at a system call. -/
inductive Frame where
  | main
  /-- `pid = sys_fork()` -/
  | fork (round : ℕ)
  /-- `sys_sched()`, with the value of `pid` -/
  | sched (round : ℕ) (pid : Value)
  /-- `sys_write(heap.buf)` -/
  | write
deriving DecidableEq

/-- `heap.buf`, once it is set. -/
abbrev Heap := Option Text

abbrev Result := Outcome Value Func Frame Heap

/-- The line for a value of `pid`, which starts with a variation selector. -/
def line (pid : Value) : Text := '\uFE0F' :: PyVal.str pid ++ ['\n']

/-- `for _ in range(N):`, at the given value of `_`. -/
def forRounds (N round : ℕ) (buf : Text) : Result :=
  if round < N then .yields (.fork round) .fork (some buf)
  else .yields .write (.dev (.write [.str buf])) (some buf)

/-- `main` from one system call to the next. -/
def resume (N : ℕ) : Frame → Value → Heap → Result
  | .main, _, _ => forRounds N 0 []
  | .fork round, pid, h => .yields (.sched round pid) .sched h
  -- an attribute that is not set raises an exception
  | .sched _ _, _, none => .raises
  | .sched round pid, _, some buf => forRounds N (round + 1) (buf ++ line pid)
  | .write, _, h => .returns h

end Jyyos.Mosaic.ForkBuf

namespace Jyyos.Mosaic

/-- `fork-buf.py` with `N` rounds. -/
def forkBuf (N : ℕ) : App Value ForkBuf.Func ForkBuf.Frame ForkBuf.Heap where
  initName := ['m', 'a', 'i', 'n']
  init := .main
  call := fun func _ => func.elim
  resume := ForkBuf.resume N
  emptyHeap := none

end Jyyos.Mosaic
