import Jyyos.Decimal
import Jyyos.Rv32ima.Basic

/-!
# The program around the emulator

`main` of `lecture_1/mini-rv32ima/main.c`: the image of a program is loaded at the beginning of the
memory, its arguments are put at the end as numbers, and the emulator runs until a step returns
something other than 0, the program jumps to the address 0, or `debug_climit` steps are done.

`fopen` gives the bytes of the file with a name, if it is there, and the 64 MB of memory are
allocated.  What is printed is left out.
-/

namespace Jyyos.Rv32ima

/-- `RAM_SIZE`. -/
def ramSize : ℕ := 64 * 1024 * 1024

/-- `RAM_TEXT_END`, which is `RAM_STACK_START`. -/
def ramTextEnd : ℕ := ramSize / 2

/-- `MAX_MAINARGS`. -/
def maxMainargs : ℕ := 4

/-! ### The arguments -/

/-- A `char` in an expression: it is signed. -/
def ofChar (c : UInt8) : Word := c.toBitVec.signExtend 32

/-- One character in the loop of `xtoi`.  For the digits from `a` to `f`, the source has `res =+`:
the result is set, and what was read before is lost. -/
def xtoiStep (res : Word) (c : UInt8) : Word :=
  if 'a'.toUInt8 ≤ c ∧ c ≤ 'f'.toUInt8 then ofChar c - ofChar 'a'.toUInt8
  else res * 16 + (ofChar c - ofChar '0'.toUInt8)

/-- `xtoi`, behind the first two characters.  An `int` that overflows is brought into range. -/
def xtoi (s : CStr) : Word := (s.drop 2).foldl xtoiStep 0

/-- The number that is made of an argument. -/
def marg (arg : CStr) : Word :=
  if arg.take 2 = cstr ['0', 'x'] then xtoi arg else BitVec.ofInt 32 (atoi arg)

/-- `margs`: the arguments from the fifth one on are discarded. -/
def margs (args : List CStr) : List Word := (args.take maxMainargs).map marg

/-! ### The memory -/

/-- The stack pointer: the arguments lie above it. -/
def stackPointer (margs : List Word) : ℕ := ramSize - 4 * margs.length

/-- The image, read to the address 0. -/
def loadImage (image : List Byte) : ℕ → Byte := fun i => image.getD i 0

/-- The arguments, copied to the end of the memory one after the other. -/
def copyArgs (mem : ℕ → Byte) (p : ℕ) : List Word → ℕ → Byte
  | [] => mem
  | v :: margs => copyArgs (setBytes mem p 4 v) (p + 4) margs

/-- The state in which the emulation begins. -/
def boot (image : List Byte) (margs : List Word) : CPUState where
  regs := fun r =>
    if r = 2 then BitVec.ofNat 32 (stackPointer margs)
    else if r = 10 then BitVec.ofNat 32 margs.length
    else if r = 11 then BitVec.ofNat 32 (stackPointer margs)
    else 0
  csrs := ⟨0, 0, 0, 0, 0, 0, 0, 0, 0, 0, 0, 0, 0, 0, 0, 0⟩
  mem := copyArgs (loadImage image) (stackPointer margs) margs
  memOffset := 0
  memSize := BitVec.ofNat 32 ramSize

/-! ### The loop -/

/-- The loop, with `debug_climit` as the number of steps that are left. -/
def emulate : ℕ → CPUState → Except Fault (Word × CPUState)
  | 0, s => .ok (0, s)
  | climit + 1, s => do
    let (ret, s) ← s.rv32imaStep 1
    if climit = 0 then return (ret, s)
    else if ret = 0 ∧ s.csrs.pc ≠ 0 then emulate climit s
    else return (ret, s)

/-- How `main` ends. -/
inductive Exit where
  | usage
  | notFound
  | tooBig
  | loadFailed
  | done (ret : Word) (s : CPUState)

/-- `main`, on `argv`.  A file without any bytes cannot be read as one item, so it is refused. -/
def main (fopen : CStr → Option (List Byte)) : List CStr → Except Fault Exit
  | _ :: imageFilename :: args =>
    match fopen imageFilename with
    | none => .ok .notFound
    | some image =>
      if ramTextEnd < image.length then .ok .tooBig
      else if image.length = 0 then .ok .loadFailed
      else do
        let (ret, s) ← emulate 10000 (boot image (margs args))
        return .done ret s
  | _ => .ok .usage

end Jyyos.Rv32ima
