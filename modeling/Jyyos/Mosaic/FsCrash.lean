import Jyyos.Mosaic.OperatingSystem
import Mathlib.Data.List.Infix

/-!
# The file system of `fs-crash.py`

`main` of `course_code/lecture_4/mosaic/examples/persistence/fs-crash.py`, as an application of
Mosaic: a file is extended to `N` blocks without a log, the system crashes, and what is left of the
file is displayed.  The number of blocks is a global that the model checker sets; here it is a
parameter.

The code is cut at its system calls.  A frame keeps the system call at which `main` is suspended and
the variables that are used after it.
-/

namespace Jyyos.Mosaic.FsCrash

/-- The values that the program passes to system calls and gets from them: `None`, numbers, strings
and the list `xb` of strings. -/
inductive Value where
  | none
  | int (n : ℕ)
  | str (s : Text)
  | list (items : List Text)
deriving DecidableEq

/-- `repr` of a string without quotes and backslashes. -/
def quoted (s : Text) : Text := ['\x27'] ++ s ++ ['\x27']

/-- `str` of a list of strings. -/
def listText (items : List Text) : Text :=
  ['['] ++ [',', ' '].intercalate (items.map quoted) ++ [']']

instance : PyVal Value where
  none := .none
  ofNat := .int
  str
    | .none => ['N', 'o', 'n', 'e']
    | .int n => Nat.toDigits 10 n
    | .str s => s
    | .list items => listText items
  ofNat_injective _ _ h := Value.int.inj h
  ofNat_ne_none _ h := nomatch h

/-- The program calls no `sys_spawn`. -/
abbrev Func := Empty

/-- The frames of `main`, in the order of the source. -/
inductive Frame where
  | main
  /-- `sys_bwrite('file.inode', 'i [#1]')` -/
  | oldInode
  /-- `sys_bwrite('used', '#1')` -/
  | oldUsed
  /-- `sys_bwrite('#1', '#1 (old)')` -/
  | oldBlock
  /-- `sys_sync()` -/
  | sync
  /-- `sys_bwrite('file.inode', f'i [{xb}]')` -/
  | newInode
  /-- `sys_bwrite('used', xb)` -/
  | newUsed
  /-- `sys_bwrite(f'#{i + 1}', f'#{i + 1} (new)')` -/
  | newBlock (i : ℕ)
  /-- `sys_crash()` -/
  | crash
  /-- `inode = sys_bread('file.inode')` -/
  | readInode
  /-- `used = sys_bread('used')` -/
  | readUsed (inode : Value)
  /-- `sys_write(f'{inode}; used: {used} | ')` -/
  | writeInode (inode : Value)
  /-- `b = sys_bread(f'#{i+1}')`, with the rounds that come after this one -/
  | readBlock (inode : Value) (rest : List ℕ)
  /-- `sys_write(f'{b} ')` -/
  | writeBlock (inode : Value) (rest : List ℕ)
deriving DecidableEq

abbrev Result := Outcome Value Func Frame Unit

/-- Suspend at a device call. -/
def atCall (frame : Frame) (c : DevCall Value) : Result := .yields frame (.dev c) ()

def inodeKey : Text := "file.inode".toList

def usedKey : Text := "used".toList

/-- `f'#{i + 1}'`. -/
def blockKey (i : ℕ) : Text := ['#'] ++ Nat.toDigits 10 (i + 1)

/-- `'i [#1]'`. -/
def oldInodeText : Text := "i [#1]".toList

/-- `xb`.  The literal is not marked as a format string, so that every item is the same text. -/
def xb (N : ℕ) : List Text := (List.range N).map fun _ => "#\x7bx\x7d".toList

/-- `f'i [{xb}]'`. -/
def newInodeText (N : ℕ) : Text := "i [".toList ++ listText (xb N) ++ "]".toList

/-- `f'#{i + 1} (new)'`. -/
def newBlockText (i : ℕ) : Text := blockKey i ++ " (new)".toList

/-- `for i in range(N)` with the new blocks, at the given value of `i`. -/
def writeRounds (N i : ℕ) : Result :=
  if i < N then atCall (.newBlock i) (.bwrite (.str (blockKey i)) (.str (newBlockText i)))
  else atCall .crash .crash

/-- `f'#{i+1}' in inode`; `none` if `inode` is no string and no list. -/
def inInode (i : ℕ) : Value → Option Bool
  | .str s => some (decide (blockKey i <:+: s))
  | .list items => some (decide (blockKey i ∈ items))
  | _ => none

/-- `for i in range(N)` with what is displayed, for the rounds that are left. -/
def showRounds (inode : Value) : List ℕ → Result
  | [] => .returns ()
  | i :: rest =>
    match inInode i inode with
    | some true => atCall (.readBlock inode rest) (.bread (.str (blockKey i)))
    | some false => showRounds inode rest
    | none => .raises

/-- `f'{inode}; used: {used} | '`. -/
def headText (inode used : Value) : Text :=
  PyVal.str inode ++ "; used: ".toList ++ PyVal.str used ++ " | ".toList

/-- `main` from one system call to the next. -/
def resume (N : ℕ) : Frame → Value → Unit → Result
  | .main, _, _ => atCall .oldInode (.bwrite (.str inodeKey) (.str oldInodeText))
  | .oldInode, _, _ => atCall .oldUsed (.bwrite (.str usedKey) (.str "#1".toList))
  | .oldUsed, _, _ => atCall .oldBlock (.bwrite (.str "#1".toList) (.str "#1 (old)".toList))
  | .oldBlock, _, _ => atCall .sync .sync
  | .sync, _, _ => atCall .newInode (.bwrite (.str inodeKey) (.str (newInodeText N)))
  | .newInode, _, _ => atCall .newUsed (.bwrite (.str usedKey) (.list (xb N)))
  | .newUsed, _, _ => writeRounds N 0
  | .newBlock i, _, _ => writeRounds N (i + 1)
  | .crash, _, _ => atCall .readInode (.bread (.str inodeKey))
  | .readInode, inode, _ => atCall (.readUsed inode) (.bread (.str usedKey))
  | .readUsed inode, used, _ =>
    atCall (.writeInode inode) (.write [.str (headText inode used)])
  | .writeInode inode, _, _ => showRounds inode (List.range N)
  | .readBlock inode rest, b, _ =>
    atCall (.writeBlock inode rest) (.write [.str (PyVal.str b ++ [' '])])
  | .writeBlock inode rest, _, _ => showRounds inode rest

end Jyyos.Mosaic.FsCrash

namespace Jyyos.Mosaic

/-- `fs-crash.py` with `N` blocks. -/
def fsCrash (N : ℕ) : App FsCrash.Value FsCrash.Func FsCrash.Frame Unit where
  initName := ['m', 'a', 'i', 'n']
  init := .main
  call := fun func _ => func.elim
  resume := FsCrash.resume N
  emptyHeap := ()

end Jyyos.Mosaic
