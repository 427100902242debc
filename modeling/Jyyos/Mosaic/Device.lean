import Jyyos.Algorithm.Dict
import Jyyos.Algorithm.Itertools
import Jyyos.PyStr

/-!
# The virtual devices of Mosaic

The system calls of `course_code/lecture_4/mosaic/mosaic.py` on the character device and on the
block device (sections 2.3.2 and 2.3.3 of the source).  A system call does not act at once: it
returns a table of choices, a dictionary from labels to callbacks, and the callback of the label
that is chosen runs later.  The callbacks are the `DevAction`s, with what they capture; running
one gives the new state of the devices and the value that is sent back to the thread.

`sysCrash` captures the persistent dictionary but a live view of the buffer, so its callbacks read
the buffer when they run.
-/

namespace Jyyos.Mosaic

/-- A Python string. -/
abbrev Text := List Char

/-- A key of a table of choices: a string, or a number in the table of `sys_crash`. -/
inductive Label where
  | text (s : Text)
  | num (n : ℕ)
deriving DecidableEq, Repr

/-- Python values, as far as the operating system makes and prints them: `None`, the natural
numbers among them, and `str`. -/
class PyVal (V : Type*) where
  none : V
  ofNat : ℕ → V
  str : V → Text
  ofNat_injective : Function.Injective ofNat
  ofNat_ne_none : ∀ n, ofNat n ≠ none

/-- Numbers and `None`. -/
instance : PyVal (Option ℕ) where
  none := none
  ofNat := some
  str v := v.elim ['N', 'o', 'n', 'e'] (Nat.toDigits 10)
  ofNat_injective := Option.some_injective ℕ
  ofNat_ne_none := Option.some_ne_none

/-- `None`, numbers and strings. -/
inductive Value where
  | none
  | int (n : ℤ)
  | str (s : Text)
deriving DecidableEq

instance : PyVal Value where
  none := .none
  ofNat n := .int n
  str
    | .none => ['N', 'o', 'n', 'e']
    | .int (.ofNat n) => Nat.toDigits 10 n
    | .int (.negSucc n) => '-' :: Nat.toDigits 10 (n + 1)
    | .str s => s
  ofNat_injective _ _ h := Int.ofNat_inj.mp (Value.int.inj h)
  ofNat_ne_none _ h := nomatch h

/-- The block device: the persisted dictionary and the writes that are not persisted yet. -/
structure Storage (V : Type*) where
  persist : Dict V V
  buf : Dict V V

/-- The character device and the block device. -/
structure Devices (V : Type*) where
  stdout : Text
  storage : Storage V

/-- A system call on a device. -/
inductive DevCall (V : Type*) where
  | choose (choices : List V)
  | write (args : List V)
  | bread (key : V)
  | bwrite (key value : V)
  | sync
  | crash
deriving DecidableEq

/-- The callback of a choice, with the values it has captured. -/
inductive DevAction (V : Type*) where
  | choose (c : V)
  | write (args : List V)
  | bread (key : V)
  | bwrite (key value : V)
  | sync
  | crash (persist : Dict V V) (subset : List Bool)

/-- The tables of choices. -/
abbrev Table (V : Type*) := Dict Label (DevAction V)

namespace Devices

/-- The devices of a new operating system. -/
def init {V : Type*} : Devices V := ⟨[], Dict.empty, Dict.empty⟩

end Devices

variable {V : Type*} [DecidableEq V] [PyVal V]

/-! ### The system calls -/

def sysChoose (choices : List V) : Table V :=
  Dict.ofList (choices.map fun c =>
    (.text (['c', 'h', 'o', 'o', 's', 'e', ' '] ++ PyVal.str c), .choose c))

def sysWrite (args : List V) : Table V :=
  Dict.ofList [(.text ['w', 'r', 'i', 't', 'e'], .write args)]

def sysBread (key : V) : Table V :=
  Dict.ofList [(.text ['b', 'r', 'e', 'a', 'd'], .bread key)]

def sysBwrite (key value : V) : Table V :=
  Dict.ofList [(.text ['b', 'w', 'r', 'i', 't', 'e'], .bwrite key value)]

def sysSync : Table V :=
  Dict.ofList [(.text ['s', 'y', 'n', 'c'], .sync)]

/-- One choice for each tuple of bits over the buffer, numbered from `0`. -/
def sysCrash (d : Devices V) : Table V :=
  Dict.ofList ((Itertools.bitTuples d.storage.buf.entries.length).zipIdx.map fun s =>
    (.num s.2, .crash d.storage.persist s.1))

/-- The table of choices that a device call returns. -/
def DevCall.table (d : Devices V) : DevCall V → Table V
  | .choose choices => sysChoose choices
  | .write args => sysWrite args
  | .bread key => sysBread key
  | .bwrite key value => sysBwrite key value
  | .sync => sysSync
  | .crash => sysCrash d

/-! ### The callbacks -/

/-- The text that `sys_write` appends: the arguments joined by blanks. -/
def joinArgs (args : List V) : Text := [' '].intercalate (args.map PyVal.str)

/-- Run a callback: the devices afterwards and the value returned. -/
def DevAction.run (d : Devices V) : DevAction V → Devices V × V
  | .choose c => (d, c)
  | .write args => ({ d with stdout := d.stdout ++ joinArgs args }, PyVal.none)
  | .bread key =>
    (d, (d.storage.buf.get? key).getD ((d.storage.persist.get? key).getD PyVal.none))
  | .bwrite key value =>
    ({ d with storage := { d.storage with buf := d.storage.buf.set key value } }, PyVal.none)
  | .sync =>
    ({ d with storage := ⟨d.storage.persist.union d.storage.buf, Dict.empty⟩ }, PyVal.none)
  | .crash persist subset =>
    ({ d with storage :=
        ⟨persist.union (Dict.ofList (Itertools.compress d.storage.buf.entries subset)),
          Dict.empty⟩ }, PyVal.none)

end Jyyos.Mosaic
