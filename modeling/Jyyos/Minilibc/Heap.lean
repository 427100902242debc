import Jyyos.Minilibc.Malloc
import Mathlib.Algebra.Group.Nat.Defs

/-!
# A program and its heap

A program that calls `malloc` and `free` of `lecture_9/minilibc/src/malloc.c` and reads and writes
words of the blocks it is given.  `step` and `run` are what its operations do to the memory; a fault
ends the run.  The reply to the system call of a `malloc` is a part of the operation.

`Heap` is what the two functions are for, stated without pages, headers or addresses outside the
blocks: each live pointer has a block, a new block shares no byte with another one, a block keeps
what was stored in it, and nothing else changes it.
-/

namespace Jyyos.Minilibc

/-- The memory after `munmap(addr, length)`, which refuses an address inside a page and a length of
0, and does not mind addresses that are not mapped. -/
def munmap (mem : Memory) (addr length : UInt64) : Memory :=
  if addr.toNat % pageSize = 0 ∧ 0 < length.toNat then fun a =>
    if addr.toNat ≤ a.toNat ∧ a.toNat < addr.toNat + pages length then none else mem a
  else mem

/-- What a program does with its heap: calls of `malloc` and `free`, and accesses to the word `i`
from the pointer `p` on, `((size_t *)p)[i]`. -/
inductive Op where
  | malloc (size : UInt64) (reply : Reply)
  | free (p : UInt64)
  | load (p i : UInt64)
  | store (p i value : UInt64)
deriving DecidableEq, Repr

/-- The address of `((size_t *)p)[i]`. -/
def wordAddr (p i : UInt64) : UInt64 := p + 8 * i

/-- One operation: its result, if it has one, and the memory after it; `none` is a fault. -/
def step (home : Home) (mem : Memory) : Op → Option (Option UInt64 × Memory)
  | .malloc size reply =>
    match malloc home mem size reply with
    | .null => some (some 0, mem)
    | .ptr p mem' => some (some p, mem')
    | .fault => none
  | .free p =>
    if p = 0 then some (none, mem)
    else (free mem p).map fun (addr, length) => (none, munmap mem addr length)
  | .load p i => (mem (wordAddr p i)).map fun value => (some value, mem)
  | .store p i value =>
    (mem (wordAddr p i)).map fun _ => (none, Function.update mem (wordAddr p i) (some value))

/-- The operations one after the other, with their results. -/
def run (home : Home) (mem : Memory) : List Op → Option (List (Option UInt64) × Memory)
  | [] => some ([], mem)
  | op :: ops =>
    (step home mem op).bind fun (result, mem') =>
      (run home mem' ops).map fun (results, mem'') => (result :: results, mem'')

/-! ### The heap -/

/-- A block: the bytes that were asked for, and the words in it. -/
structure Block where
  size : UInt64
  data : UInt64 → UInt64

/-- The word `i` lies in the block. -/
def Block.Has (b : Block) (i : UInt64) : Prop := 8 * i.toNat + 8 ≤ b.size.toNat

instance (b : Block) (i : UInt64) : Decidable (b.Has i) := inferInstanceAs (Decidable (_ ≤ _))

/-- The byte at `a` belongs to a block of `size` bytes at `p`. -/
def InBlock (p size a : UInt64) : Prop := p.toNat ≤ a.toNat ∧ a.toNat < p.toNat + size.toNat

/-- The live pointers with their blocks. -/
abbrev Heap := UInt64 → Option Block

namespace Heap

def empty : Heap := fun _ => none

/-- What a program may do: free a live pointer or the null pointer, and use the words of live
blocks. -/
def Allows (heap : Heap) : Op → Prop
  | .malloc _ _ => True
  | .free p => p = 0 ∨ (heap p).isSome
  | .load p i => ∃ b, heap p = some b ∧ b.Has i
  | .store p i _ => ∃ b, heap p = some b ∧ b.Has i

/-- The results that a program may rely on.  A pointer from `malloc` is null, or is aligned, was not
live, and all its bytes are addresses that no live block has. -/
def Gives (heap : Heap) : Op → Option UInt64 → Prop
  | .malloc size _, result => ∃ p, result = some p ∧ (p ≠ 0 →
      p.toNat % 8 = 0 ∧ p.toNat + size.toNat ≤ 2 ^ 64 ∧ heap p = none ∧
      ∀ q b, heap q = some b → ∀ a, ¬ (InBlock p size a ∧ InBlock q b.size a))
  | .load p i, result => ∃ b, heap p = some b ∧ result = some (b.data i)
  | .free _, result => result = none
  | .store _ _ _, result => result = none

/-- The heap after an operation with its result.  The words of a new block are 0. -/
def after (heap : Heap) : Op → Option UInt64 → Heap
  | .malloc size _, some p =>
    if p = 0 then heap else Function.update heap p (some ⟨size, fun _ => 0⟩)
  | .free p, _ => if p = 0 then heap else Function.update heap p none
  | .store p i value, _ =>
    Function.update heap p ((heap p).map fun b => { b with data := Function.update b.data i value })
  | _, _ => heap

/-- The operations have the results, one after the other, and lead from one heap to the other. -/
inductive Run : Heap → List Op → List (Option UInt64) → Heap → Prop
  | nil (heap : Heap) : Run heap [] [] heap
  | cons {heap heap' : Heap} {op : Op} {ops : List Op} {result : Option UInt64}
      {results : List (Option UInt64)} (hgives : heap.Gives op result)
      (hrest : Run (heap.after op result) ops results heap') :
      Run heap (op :: ops) (result :: results) heap'

end Heap

end Jyyos.Minilibc
