import Jyyos.Mosaic.OperatingSystem

/-!
# The journal of `xv6-log.py`

`main` of `course_code/lecture_4/mosaic/examples/persistence/xv6-log.py`, as an application of
Mosaic: a transaction of `N` writes goes through a log, with a crash before the log is on the disk.
The number of writes is a global that the model checker sets; here it is a parameter.

The code is cut at its system calls.  A frame keeps the system call at which `main` is suspended and
the variables that are used after it.
-/

namespace Jyyos.Mosaic.Xv6Log

/-- The values that the program passes to system calls and gets from them: `None`, numbers, strings
and the dictionary `log`, as the list of its items. -/
inductive Value where
  | none
  | int (n : ℕ)
  | str (s : Text)
  | dict (items : List (ℕ × ℕ))
deriving DecidableEq

/-- `str` of an item of a dictionary. -/
def itemText (item : ℕ × ℕ) : Text :=
  Nat.toDigits 10 item.1 ++ [':', ' '] ++ Nat.toDigits 10 item.2

instance : PyVal Value where
  none := .none
  ofNat := .int
  str
    | .none => ['N', 'o', 'n', 'e']
    | .int n => Nat.toDigits 10 n
    | .str s => s
    | .dict items => ['\x7b'] ++ [',', ' '].intercalate (items.map itemText) ++ ['\x7d']
  ofNat_injective _ _ h := Value.int.inj h
  ofNat_ne_none _ h := nomatch h

/-- The program calls no `sys_spawn`. -/
abbrev Func := Empty

/-- The frames of `main`, in the order of the source. -/
inductive Frame where
  | main
  /-- `sys_bwrite(0, {})` -/
  | clearHead
  /-- `sys_sync()` -/
  | syncHead
  /-- `log = sys_bread(0)` -/
  | readHead
  /-- `sys_bwrite(free, f'contents for #{i+1}')` -/
  | logBlock (i : ℕ) (log : List (ℕ × ℕ)) (free : ℕ)
  /-- `b = sys_crash()` -/
  | crash (log : Value)
  /-- `sys_write(b)` -/
  | write (log : Value)
  /-- `sys_sync()` -/
  | syncLog (log : Value)
  /-- `sys_bwrite(0, log)` -/
  | commit (log : Value)
  /-- `sys_sync()` -/
  | syncCommit (log : Value)
  /-- `content = sys_bread(v)`, with the items that come after this one -/
  | readBlock (k : ℕ) (rest : List (ℕ × ℕ))
  /-- `sys_bwrite(k, content)` -/
  | install (rest : List (ℕ × ℕ))
  /-- `sys_sync()` -/
  | syncInstall
  /-- `sys_bwrite(0, {})` -/
  | resetHead
  /-- `sys_sync()` -/
  | syncEnd
deriving DecidableEq

abbrev Result := Outcome Value Func Frame Unit

/-- Suspend at a device call. -/
def atCall (frame : Frame) (c : DevCall Value) : Result := .yields frame (.dev c) ()

/-- `f'contents for #{i+1}'`. -/
def contents (i : ℕ) : Text := "contents for #".toList ++ Nat.toDigits 10 (i + 1)

/-- `max(log.values(), default=0) + 1`. -/
def freeBlock (log : List (ℕ × ℕ)) : ℕ := (log.map Prod.snd).foldl max 0 + 1

/-- `for i in range(N)`, at the given value of `i`. -/
def logRounds (N i : ℕ) (log : Value) : Result :=
  if i < N then
    -- `log.values()` raises an exception if `log` is no dictionary
    match log with
    | .dict items =>
      atCall (.logBlock i items (freeBlock items))
        (.bwrite (.int (freeBlock items)) (.str (contents i)))
    | _ => .raises
  else atCall (.crash log) .crash

/-- `for k, v in log.items()`, at the given items. -/
def installItems : List (ℕ × ℕ) → Result
  | [] => atCall .syncInstall .sync
  | (k, v) :: rest => atCall (.readBlock k rest) (.bread (.int v))

/-- `main` from one system call to the next. -/
def resume (N : ℕ) : Frame → Value → Unit → Result
  | .main, _, _ => atCall .clearHead (.bwrite (.int 0) (.dict []))
  | .clearHead, _, _ => atCall .syncHead .sync
  | .syncHead, _, _ => atCall .readHead (.bread (.int 0))
  | .readHead, log, _ => logRounds N 0 log
  | .logBlock i log free, _, _ => logRounds N (i + 1) (.dict (Dict.setEntry (i + 1) free log))
  | .crash log, b, _ => atCall (.write log) (.write [b])
  | .write log, _, _ => atCall (.syncLog log) .sync
  | .syncLog log, _, _ => atCall (.commit log) (.bwrite (.int 0) log)
  | .commit log, _, _ => atCall (.syncCommit log) .sync
  | .syncCommit (.dict items), _, _ => installItems items
  -- `log.items()` needs a dictionary, too
  | .syncCommit _, _, _ => .raises
  | .readBlock k rest, content, _ => atCall (.install rest) (.bwrite (.int k) content)
  | .install rest, _, _ => installItems rest
  | .syncInstall, _, _ => atCall .resetHead (.bwrite (.int 0) (.dict []))
  | .resetHead, _, _ => atCall .syncEnd .sync
  | .syncEnd, _, _ => .returns ()

end Jyyos.Mosaic.Xv6Log

namespace Jyyos.Mosaic

/-- `xv6-log.py` with `N` writes. -/
def xv6Log (N : ℕ) : App Xv6Log.Value Xv6Log.Func Xv6Log.Frame Unit where
  initName := ['m', 'a', 'i', 'n']
  init := .main
  call := fun func _ => func.elim
  resume := Xv6Log.resume N
  emptyHeap := ()

end Jyyos.Mosaic
