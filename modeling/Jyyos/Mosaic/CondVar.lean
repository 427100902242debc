import Jyyos.Mosaic.OperatingSystem

/-!
# The producers and consumers of `cond-var.py`

`Tworker` and `main` of `course_code/lecture_4/mosaic/examples/concurrency/cond-var.py`, as an
application of Mosaic.  The numbers of producers, of consumers and of rounds are globals that the
model checker sets; here they are parameters.

The code of a worker is cut at its system calls: a frame keeps the arguments of the worker, its
loop variable `_` and the system call at which it is suspended, and each definition below is one
statement of the source together with what follows it up to the next system call.
-/

namespace Jyyos.Mosaic.CondVar

inductive Func where
  | Tworker
deriving DecidableEq

/-- `heap.mutex`: `'🔓'` or `'🔒'`. -/
inductive Mutex where
  | unlocked
  | locked
deriving DecidableEq

/-- The attributes of the heap, once `main` has set them. -/
structure Shared where
  mutex : Mutex
  count : ℤ
  cond : List Text
deriving DecidableEq

/-- The arguments of `Tworker`. -/
structure Args where
  name : Text
  delta : ℤ
deriving DecidableEq

/-- The system calls of `Tworker`, in the order of the source. -/
inductive Pc where
  /-- `mutex_lock()` -/
  | lock
  /-- the first one of `cond_wait()` -/
  | enter
  /-- while the name is in `heap.cond` -/
  | wait
  /-- reacquire lock -/
  | relock
  /-- `sys_choose(heap.cond)` -/
  | choosing
  /-- after `cond_signal()` -/
  | signalled
  /-- after `mutex_unlock()` -/
  | unlocked
deriving DecidableEq

/-- The frames of the generators. -/
inductive Frame where
  /-- `main`, not started. -/
  | main
  /-- `main` at a `sys_spawn`, with the workers that are still to be spawned after it. -/
  | spawning (rest : List Args)
  /-- `Tworker`, not started. -/
  | Tworker (a : Args)
  /-- `Tworker` in the given round, at a system call. -/
  | worker (a : Args) (round : ℕ) (pc : Pc)
deriving DecidableEq

/-- Thread code from one system call to the next; the heap has no attributes at first. -/
abbrev Result := Outcome Value Func Frame (Option Shared)

/-! ### `Tworker` -/

/-- `sys_sched()`. -/
def sched (a : Args) (round : ℕ) (pc : Pc) (s : Shared) : Result :=
  .yields (.worker a round pc) .sched (some s)

/-- `if heap.cond:`. -/
def condSignal (a : Args) (round : ℕ) (s : Shared) : Result :=
  if s.cond = [] then
    sched a round .signalled s
  else
    .yields (.worker a round .choosing) (.dev (.choose (s.cond.map .str))) (some s)

/-- `0 <= heap.count + delta <= 1`. -/
def Args.Guard (a : Args) (count : ℤ) : Prop := 0 ≤ count + a.delta ∧ count + a.delta ≤ 1

instance (a : Args) (count : ℤ) : Decidable (a.Guard count) :=
  inferInstanceAs (Decidable (_ ∧ _))

/-- `while not (0 <= heap.count + delta <= 1):`. -/
def whileNotGuard (a : Args) (round : ℕ) (s : Shared) : Result :=
  if a.Guard s.count then condSignal a round s else sched a round .enter s

/-- `while heap.mutex == '🔒': sys_sched()`, and then `heap.mutex = '🔒'`. -/
def mutexLock (a : Args) (round : ℕ) (pc : Pc) (s : Shared) : Result :=
  match s.mutex with
  | .locked => sched a round pc s
  | .unlocked => whileNotGuard a round { s with mutex := .locked }

/-- `while name in heap.cond: sys_sched()`. -/
def condWait (a : Args) (round : ℕ) (s : Shared) : Result :=
  if a.name ∈ s.cond then sched a round .wait s else mutexLock a round .relock s

/-- An attribute that is not set raises an exception. -/
def withHeap (h : Option Shared) (f : Shared → Result) : Result :=
  match h with
  | some s => f s
  | none => .raises

/-- `for _ in range(N):`, at the given value of `_`. -/
def forRounds (N : ℕ) (a : Args) (round : ℕ) (h : Option Shared) : Result :=
  if round < N then withHeap h (mutexLock a round .lock) else .returns h

/-- `Tworker` after a system call that has returned `v`. -/
def worker (N : ℕ) (a : Args) (round : ℕ) (v : Value) (h : Option Shared) : Pc → Result
  | .lock => withHeap h (mutexLock a round .lock)
  | .enter => withHeap h fun s =>
    condWait a round { s with mutex := .unlocked, cond := s.cond ++ [a.name] }
  | .wait => withHeap h (condWait a round)
  | .relock => withHeap h (mutexLock a round .relock)
  | .choosing => withHeap h fun s =>
    match v with
    | .str t =>
      -- `remove` raises an exception when the value is not there
      if t ∈ s.cond then
        sched a round .signalled { s with cond := s.cond.erase t }
      else
        .raises
    | _ => .raises
  | .signalled => withHeap h fun s =>
    sched a round .unlocked { s with count := s.count + a.delta, mutex := .unlocked }
  | .unlocked => forRounds N a (round + 1) h

/-! ### `main` -/

/-- The arguments of the workers: `f'Tp{i}'` with `1`, then `f'Tc{i}'` with `-1`. -/
def workers (T_p T_c : ℕ) : List Args :=
  ((List.range T_p).map fun i => ⟨'T' :: 'p' :: Nat.toDigits 10 i, 1⟩) ++
    (List.range T_c).map fun i => ⟨'T' :: 'c' :: Nat.toDigits 10 i, -1⟩

/-- The call `sys_spawn(Tworker, name, delta)`. -/
def spawnCall (a : Args) : Syscall Value Func := .spawn .Tworker [.str a.name, .int a.delta]

/-- `main` up to its next `sys_spawn`. -/
def spawnNext (h : Option Shared) : List Args → Result
  | [] => .returns h
  | a :: rest => .yields (.spawning rest) (spawnCall a) h

/-- The heap after the first three statements of `main`. -/
def Shared.init : Shared := ⟨.unlocked, 0, []⟩

end Jyyos.Mosaic.CondVar

namespace Jyyos.Mosaic

open CondVar in
/-- `cond-var.py` with `T_p` producers, `T_c` consumers and `N` rounds. -/
def condVar (T_p T_c N : ℕ) : App Value Func Frame (Option Shared) where
  initName := ['m', 'a', 'i', 'n']
  init := .main
  call
    | .Tworker, [.str name, .int delta] => some (.Tworker ⟨name, delta⟩)
    | _, _ => none
  resume frame v h :=
    match frame with
    | .main => spawnNext (some .init) (workers T_p T_c)
    | .spawning rest => spawnNext h rest
    | .Tworker a => forRounds N a 0 h
    | .worker a round pc => worker N a round v h pc
  emptyHeap := none

end Jyyos.Mosaic
