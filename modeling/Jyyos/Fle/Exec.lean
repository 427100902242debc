import Jyyos.Fle.Ld

/-!
# The loader

`FLE_exec` of `fle.py`, up to the jump: the bytes of the `.load` section are written to a new
mapping, and control goes to the label `_start`, given as an offset into the mapping.
-/

namespace Jyyos.Fle

/-- What the loader has set up when it jumps. -/
structure Process where
  mem : List UInt8
  entry : ℤ
deriving DecidableEq, Repr

/-- The bytes of one line of the `.load` section; lines with another tag are skipped. -/
def lineBytes (line : Str) : Except Error (List UInt8) :=
  let tag := BYTES ++ [':']
  if tag.isPrefixOf line then
    match (PyStr.split (line.drop tag.length)).mapM PyStr.intHex >>= PyStr.bytesOf with
    | some bs => .ok bs
    | none => .error .value
  else .ok []

/-- All bytes of the `.load` section. -/
def loadBytes (load : List Str) : Except Error (List UInt8) :=
  load.foldlM (fun bs line => do return bs ++ (← lineBytes line)) []

/-- `FLE_exec`. -/
def fleExec (exe : Exe) : Except Error Process := do
  if exe.type ≠ ".exe".toList then throw .assertion
  let bs ← loadBytes exe.load
  if bs = [] then throw .emptyMap
  match exe.symbols.get? "_start".toList with
  | none => throw (.keyError "_start".toList)
  | some entry => return ⟨bs, entry⟩

end Jyyos.Fle
