import Jyyos.Mosaic.OperatingSystem
import Jyyos.Mosaic.Reference
import Mathlib.Data.List.Sort

/-!
# State dumps

`state_dump` of `course_code/lecture_4/mosaic/mosaic.py` without the hash code.  Of a generator it
shows the name of its function, the line it is at and its local variables; `Inspect` reads these
off a frame, and the attributes off a heap.  The storage dictionaries are compared without the
order of their entries, in Python and in the sorted JSON text that is hashed.
-/

namespace Jyyos.Mosaic

/-- What a dump shows of frames and heaps; `D` are the dictionaries of names. -/
structure Inspect (S H D : Type) where
  /-- `gi_frame.f_code.co_name`. -/
  name : S → Text
  /-- `gi_frame.f_lineno`. -/
  lineno : S → ℕ
  /-- `gi_frame.f_locals`. -/
  locals : S → D
  /-- `heap.__dict__`. -/
  dict : H → D

/-- The dump of a live thread. -/
structure ContextDump (D : Type) where
  name : Text
  heap : ℕ
  pc : ℕ
  locals : D
deriving DecidableEq

/-- The dump of a state.  The heaps are listed by their numbers `1, 2, …`. -/
structure Dump (V D : Type) where
  current : ℕ
  choices : List Label
  contexts : List (Option (ContextDump D))
  heaps : List (Option D)
  stdout : Text
  storePersist : Finset (V × V)
  storeBuffer : Finset (V × V)
deriving DecidableEq

/-- The order of labels: by code points, or by value. -/
def Label.le : Label → Label → Bool
  | .text s, .text t => !(t.lex s)
  | .text _, .num _ => true
  | .num _, .text _ => false
  | .num m, .num n => decide (m ≤ n)

/-- `sorted(list(choices.keys()))`. -/
def sortedKeys {A : Type} (choices : Dict Label A) : List Label := 
  choices.keys.insertionSort fun a b => a.le b = true

variable {V F S H D : Type}

/-- The distinct heaps, in the order in which the threads mention them. -/
def heapIds (heaps : List ℕ) : List ℕ :=
  heaps.foldl (fun ids i => if i ∈ ids then ids else ids ++ [i]) []

/-- The number of a heap. -/
def heapNumber (ids : List ℕ) (heap : ℕ) : ℕ := ids.idxOf heap + 1

/-- The dump of a thread; `None` when it has terminated. -/
def contextDump (insp : Inspect S H D) (number : ℕ → ℕ) (th : Thread V F S) :
    Option (ContextDump D) :=
  th.context.frame?.map fun frame =>
    ⟨insp.name frame, number th.heap, insp.lineno frame, insp.locals frame⟩

/-- `state_dump`; it raises an exception after an overridden fork. -/
def OperatingSystem.stateDump [DecidableEq V] (insp : Inspect S H D) (w : World H)
    (os : OperatingSystem V F S) : Option (Dump V D) :=
  let ids := heapIds (os.threads.map Thread.heap)
  os.choices.map fun choices =>
    { current := os.current
      choices := sortedKeys choices
      contexts := os.threads.map (contextDump insp (heapNumber ids))
      heaps := ids.map fun i => (w.heaps[i]?).map insp.dict
      stdout := os.devices.stdout
      storePersist := os.devices.storage.persist.entries.toFinset
      storeBuffer := os.devices.storage.buf.entries.toFinset }

/-- The dump of a state of the reference, whose heaps are numbered as they are made. -/
def Reference.stateDump [DecidableEq V] (insp : Inspect S H D) (ref : Reference V F S H) :
    Dump V D where
  current := ref.current
  choices := sortedKeys ref.choices
  contexts := ref.threads.map (contextDump insp (· + 1))
  heaps := ref.heaps.map fun h => some (insp.dict h)
  stdout := ref.devices.stdout
  storePersist := ref.devices.storage.persist.entries.toFinset
  storeBuffer := ref.devices.storage.buf.entries.toFinset

/-- `OperatingSystem(init).replay(trace)`, in a world of its own: the dump of the state that is
reached, or `none` if an exception is raised. -/
def replayDump [DecidableEq V] [PyVal V] (app : App V F S H) (insp : Inspect S H D)
    (trace : List Label) : Option (Dump V D) :=
  match OperatingSystem.run app trace.length [] trace ⟨[], 0, []⟩ with
  | (.ok os, w) => os.stateDump insp w
  | (.error _, _) => none

end Jyyos.Mosaic
