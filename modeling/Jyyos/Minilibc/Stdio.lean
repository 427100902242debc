import Jyyos.CStr

/-!
# `print_int` and `printf`

`print_int` and `printf` of `lecture_9/minilibc/src/stdio.c`.  An `int` is an `Int32`, with wrapping
negation.  A buffer is the list of the characters stored so far, so that the index at which the next
one goes is its length.

The format is the list of its characters; the terminating NUL stands behind them, and there is
nothing behind the NUL that may be read.  A run that does what C leaves undefined ends in a `Fault`.
-/

namespace Jyyos.Minilibc

/-- What a run must not do: read the format behind its NUL, store behind the end of an array, or
take an argument that is not there or has another type. -/
inductive Fault where
  | overread
  | overflow
  | badArgument
  | outOfFuel
deriving DecidableEq, Repr

/-! ### `print_int` -/

/-- The size of the array `temp`. -/
def tempSize : ℕ := 20

/-- `'0' + (number % 10)` as a character. -/
def digitChar (number : Int32) : UInt8 := (48 + number % 10).toInt8.toUInt8

theorem toInt_div_ten (number : Int32) : (number / 10).toInt = number.toInt.tdiv 10 :=
  Int32.toInt_div_of_ne_right number 10 (by decide)

/-- The loop that fills `temp` with the digits, the last one first. -/
def convert (number : Int32) (temp : List UInt8) : Except Fault (List UInt8) :=
  if 0 < number then
    if temp.length < tempSize then convert (number / 10) (temp ++ [digitChar number])
    else .error .overflow
  else .ok temp
termination_by number.toInt.toNat
decreasing_by
  rename_i hpos _
  rw [Int32.lt_iff_toInt_lt, Int32.toInt_zero] at hpos
  rw [toInt_div_ten, Int.tdiv_eq_ediv_of_nonneg (by omega)]
  omega

/-- The loop that copies the first `i` characters of `temp` behind those in `buffer`, the last one
first. -/
def copyBack (temp : List UInt8) : ℕ → List UInt8 → List UInt8
  | 0, buffer => buffer
  | i + 1, buffer => copyBack temp i (buffer ++ [temp.getD i 0])

/-- The contents of `temp` for a number that has lost its sign. -/
def fillTemp (number : Int32) : Except Fault (List UInt8) :=
  if number = 0 then .ok ['0'.toUInt8] else convert number []

/-- `print_int`: the characters that it stores from `buffer` on, and the number it returns. -/
def printInt (number : Int32) : Except Fault (List UInt8 × ℕ) := do
  let negative := decide (number < 0)
  let temp ← fillTemp (if negative then -number else number)
  let buffer := if negative then ['-'.toUInt8] else []
  let buffer := copyBack temp temp.length buffer
  return (buffer, buffer.length)

/-! ### `printf` -/

/-- An argument of `printf`: an `int`, or a string that may be null. -/
inductive Arg where
  | int (n : Int32)
  | str (s : Option CStr)
deriving DecidableEq, Repr

/-- What is printed for a null string. -/
def nullText : CStr := cstr ['(', 'n', 'u', 'l', 'l', ')']

/-- The size of the array `buffer`. -/
def bufferSize : ℕ := 1024

/-- Store characters at the end of `buffer`. -/
def put (buffer cs : List UInt8) : Except Fault (List UInt8) :=
  if buffer.length + cs.length ≤ bufferSize then .ok (buffer ++ cs) else .error .overflow

/-- The format character at `p`; at the end it is the NUL. -/
def charAt (format : CStr) (p : ℕ) : Except Fault UInt8 :=
  if p ≤ format.length then .ok (format.getD p 0) else .error .overread

/-- The `switch` for the character `c` after a percent sign: the arguments left and the buffer. -/
def specifier (c : UInt8) (args : List Arg) (buffer : List UInt8) :
    Except Fault (List Arg × List UInt8) :=
  if c = 's'.toUInt8 then
    match args with
    | .str s :: args => do return (args, ← put buffer (s.getD nullText))
    | _ => .error .badArgument
  else if c = 'd'.toUInt8 then
    match args with
    | .int n :: args => do
      let (digits, _) ← printInt n
      return (args, ← put buffer digits)
    | _ => .error .badArgument
  else if c = '%'.toUInt8 then do return (args, ← put buffer ['%'.toUInt8])
  else do
    let buffer ← put buffer ['%'.toUInt8]
    return (args, ← put buffer [c])

/-- The loop of `printf`; `p` is the offset of the pointer into the format. -/
def printfLoop (format : CStr) : ℕ → ℕ → List Arg → List UInt8 → Except Fault (List UInt8)
  | 0, _, _, _ => .error .outOfFuel
  | fuel + 1, p, args, buffer => do
    let c ← charAt format p
    if c = 0 then return buffer
    else if c ≠ '%'.toUInt8 then
      let buffer ← put buffer [c]
      printfLoop format fuel (p + 1) args buffer
    else
      let c ← charAt format (p + 1)
      let (args, buffer) ← specifier c args buffer
      printfLoop format fuel (p + 2) args buffer

/-- `printf`: the bytes that it gives to `write`, and the number it returns. -/
def printf (format : CStr) (args : List Arg) : Except Fault (List UInt8 × ℕ) := do
  let buffer ← printfLoop format (format.length + 1) 0 args []
  return (buffer, buffer.length)

end Jyyos.Minilibc
