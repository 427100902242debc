import Mathlib.Data.Nat.Notation
import Mathlib.Logic.Function.Basic

/-!
# `malloc` and `free`

`malloc` and `free` of `lecture_9/minilibc/src/malloc.c`.  Sizes and addresses are 64-bit numbers
with wrapping arithmetic.  Memory has a word at each address that is mapped; the only word that the
two functions look at is the header in front of a block.

What the raw `mmap` system call returns is an argument.  The kernel rounds the length of a mapping
up to whole pages, for `mmap` and for `munmap`.

The instruction `syscall` overwrites `rcx` and `r11`, which the `asm` statement of `malloc` does not
tell the compiler.  So the header depends on where the compiler keeps `size` during the system call
(`Home`): gcc with the flags of the Makefile keeps it in `r11`, where `syscall` puts the flags.
-/

namespace Jyyos.Minilibc

/-- The words of the mapped memory. -/
abbrev Memory := UInt64 → Option UInt64

def pageSize : ℕ := 4096

/-- The number of bytes in the pages for `length` bytes. -/
def pages (length : UInt64) : ℕ := (length.toNat + (pageSize - 1)) / pageSize * pageSize

/-- The answer to `mmap`: a fresh address, or an error number. -/
inductive Mmap where
  | mapped (addr : UInt64)
  | failed (errno : ℕ)
deriving DecidableEq, Repr

/-- The value in `rax` after the system call; errors are negative. -/
def Mmap.value : Mmap → UInt64
  | .mapped addr => addr
  | .failed errno => -UInt64.ofNat errno

/-- The memory after the system call. -/
def Mmap.apply (mem : Memory) (length : UInt64) : Mmap → Memory
  | .mapped addr => fun a =>
    if addr.toNat ≤ a.toNat ∧ a.toNat < addr.toNat + pages length then some 0 else mem a
  | .failed _ => mem

/-- What the system call leaves behind: its answer, and what `syscall` puts into `rcx` (the address
of the next instruction) and `r11` (the flags). -/
structure Reply where
  answer : Mmap
  rcx : UInt64
  r11 : UInt64
deriving DecidableEq, Repr

/-- Where the compiler keeps `size` during the system call of `malloc`: in one of the two registers
that `syscall` overwrites, or in a place that it leaves alone. -/
inductive Home where
  | rcx
  | r11
  | saved
deriving DecidableEq, Repr

/-- What `syscall` has put in the place of `size`. -/
def Home.overwritten (reply : Reply) : Home → Option UInt64
  | .rcx => some reply.rcx
  | .r11 => some reply.r11
  | .saved => none

/-- What a call of `malloc` comes to: a null pointer, a pointer and the memory, or a fault at the
store of the header. -/
inductive Malloc where
  | null
  | ptr (p : UInt64) (mem : Memory)
  | fault

/-- `(size + 7) & ~7`. -/
def alignSize (size : UInt64) : UInt64 := (size + 7) &&& ~~~7

/-- `size + sizeof(size_t)` for the aligned size: the length that `mmap` is asked for. -/
def totalSize (size : UInt64) : UInt64 := alignSize size + 8

/-- The word that `malloc` stores in front of the block. -/
def header (home : Home) (size : UInt64) (reply : Reply) : UInt64 :=
  (home.overwritten reply).getD (alignSize size)

/-- `malloc(size)` with the reply to its system call. -/
def malloc (home : Home) (mem : Memory) (size : UInt64) (reply : Reply) : Malloc :=
  let block := reply.answer.value
  let mem := reply.answer.apply mem (totalSize size)
  if block = -1 then .null
  else
    match mem block with
    | none => .fault
    | some _ => .ptr (block + 8) (Function.update mem block (some (header home size reply)))

/-- `free(ptr)`: the address and the length that `munmap` is called with; `none` when it is not
called. -/
def free (mem : Memory) (ptr : UInt64) : Option (UInt64 × UInt64) :=
  if ptr = 0 then none else (mem (ptr - 8)).map fun size => (ptr - 8, size + 8)

end Jyyos.Minilibc
