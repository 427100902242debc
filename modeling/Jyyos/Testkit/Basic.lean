import Jyyos.Algorithm.Bytes

/-!
# TestKit: registration, transfer and run of the tests

`tk_add_test`, `notify_worker`, `worker_process` and `run_all_testcases` of `testkit/testkit.c`.

A test case is the struct `tk_testcase`; pointers are 64-bit numbers and 0 is null.  The array
`tests` goes through the pipe as the bytes of its memory, where the worker's `read` calls may cut it
anywhere.  System calls succeed; what a test does is left out, a run of a test is the entry that
`run_testcase` and `run_cleanup` are called for.  A run that fails an assertion, or accesses an
array behind its end, ends in a `Stop`.
-/

namespace Jyyos.Testkit

/-- Maximum number of allowed test cases. -/
def TK_MAX_TESTS : ℕ := 1024

def TK_MAX_ARGV_LEN : ℕ := 64

/-- Why a run ends early. -/
inductive Stop where
  | assertion
  | overflow
deriving DecidableEq, Repr

/-- The struct `tk_testcase`; the array `argv_copy` is a list with all its entries. -/
structure Testcase where
  enabled : UInt32
  name : UInt64
  loc : UInt64
  init : UInt64
  fini : UInt64
  utest : UInt64
  stest : UInt64
  argc : UInt32
  argv : UInt64
  argvCopy : List UInt64
  length_argvCopy : argvCopy.length = TK_MAX_ARGV_LEN

/-- An entry of the static array before it is written to. -/
def Testcase.zero : Testcase :=
  ⟨0, 0, 0, 0, 0, 0, 0, 0, 0, List.replicate TK_MAX_ARGV_LEN 0, List.length_replicate⟩

/-! ### Registration -/

/-- What `getenv` finds: whether `TK_RUN` and `TK_VERBOSE` are set, and the value of `_`. -/
structure Env where
  run : Bool
  verbose : Bool
  exe : Option UInt64

/-- A call of `tk_add_test`: its argument, and the pointers in the array that `argv` points to.  The
macro `SystemTest` counts them. -/
structure Call where
  t : Testcase
  args : List UInt64
  argc_eq : t.argv ≠ 0 → t.argc.toNat = args.length

/-- The array `tests` and the static variable `ntests`. -/
structure Table where
  tests : List Testcase
  ntests : ℕ

/-- The table when the program starts. -/
def Table.start : Table := ⟨List.replicate TK_MAX_TESTS .zero, 0⟩

/-- The stores into `argv_copy`: the NULL at the end, the executable, and the arguments. -/
def fillArgv (argvCopy : List UInt64) (exe : UInt64) (args : List UInt64) : List UInt64 :=
  args.zipIdx.foldl (fun copy x => copy.set (x.2 + 1) x.1)
    ((argvCopy.set (args.length + 1) 0).set 0 exe)

theorem length_foldl_set (l : List (UInt64 × ℕ)) (copy : List UInt64) :
    (l.foldl (fun copy x => copy.set (x.2 + 1) x.1) copy).length = copy.length := by
  induction l generalizing copy with
  | nil => rfl
  | cons x l ih => rw [List.foldl_cons, ih, List.length_set]

theorem length_fillArgv (argvCopy : List UInt64) (exe : UInt64) (args : List UInt64) :
    (fillArgv argvCopy exe args).length = argvCopy.length := by
  rw [fillArgv, length_foldl_set, List.length_set, List.length_set]

/-- The offset of `argv_copy` in the struct, and the size of the struct. -/
def argvCopyOffset : ℕ := 72

def testcaseSize : ℕ := argvCopyOffset + 8 * TK_MAX_ARGV_LEN

/-- The entry at index `i` of the array at `base` for a test with arguments. -/
def Call.withArgv (c : Call) (base : UInt64) (i : ℕ) (exe : UInt64) : Testcase :=
  { c.t with
    argc := c.t.argc + 1
    argv := base + UInt64.ofNat (i * testcaseSize + argvCopyOffset)
    argvCopy := fillArgv c.t.argvCopy exe c.args
    length_argvCopy := (length_fillArgv ..).trans c.t.length_argvCopy }

/-- `tk_add_test`; `base` is the address of `tests`. -/
def tkAddTest (env : Env) (base : UInt64) (tab : Table) (c : Call) : Except Stop Table :=
  if !env.run && !env.verbose then .ok tab
  else if ¬ tab.ntests < TK_MAX_TESTS then .error .assertion
  else if c.t.argv = 0 then .ok ⟨tab.tests.set tab.ntests c.t, tab.ntests + 1⟩
  else if c.t.stest = 0 then .error .assertion
  -- `argv_copy[argc]` for the new `argc`
  else if ¬ c.args.length + 1 < TK_MAX_ARGV_LEN then .error .overflow
  else
    match env.exe with
    | none => .error .assertion
    | some exe =>
      .ok ⟨tab.tests.set tab.ntests (c.withArgv base tab.ntests exe), tab.ntests + 1⟩

/-- The calls that are made before `main`, one after the other. -/
def register (env : Env) (base : UInt64) (calls : List Call) : Except Stop Table :=
  calls.foldlM (tkAddTest env base) .start

/-! ### Transfer -/

/-- The struct in memory; the padding after the two `int`s is zero. -/
def Testcase.bytes (t : Testcase) : List UInt8 :=
  ([t.enabled.toNat, t.name.toNat, t.loc.toNat, t.init.toNat, t.fini.toNat, t.utest.toNat,
    t.stest.toNat, t.argc.toNat, t.argv.toNat] ++ t.argvCopy.map UInt64.toNat).flatMap
    (Bytes.littleEndian 8)

/-- The number in the 8 bytes from an offset on. -/
def wordAt (mem : List UInt8) (offset : ℕ) : ℕ := Bytes.ofLittleEndian ((mem.drop offset).take 8)

/-- The struct that is read from memory. -/
def Testcase.ofBytes (mem : List UInt8) : Testcase where
  enabled := UInt32.ofNat (wordAt mem 0)
  name := UInt64.ofNat (wordAt mem 8)
  loc := UInt64.ofNat (wordAt mem 16)
  init := UInt64.ofNat (wordAt mem 24)
  fini := UInt64.ofNat (wordAt mem 32)
  utest := UInt64.ofNat (wordAt mem 40)
  stest := UInt64.ofNat (wordAt mem 48)
  argc := UInt32.ofNat (wordAt mem 56)
  argv := UInt64.ofNat (wordAt mem 64)
  argvCopy := (List.range TK_MAX_ARGV_LEN).map fun i =>
    UInt64.ofNat (wordAt mem (argvCopyOffset + i * 8))
  length_argvCopy := by rw [List.length_map, List.length_range]

/-- The array `tests` in memory. -/
def image (tests : List Testcase) : List UInt8 := tests.flatMap Testcase.bytes

/-- The array that is read from memory. -/
def load (mem : List UInt8) : List Testcase :=
  (List.range TK_MAX_TESTS).map fun i =>
    .ofBytes ((mem.drop (i * testcaseSize)).take testcaseSize)

/-- The loop of `worker_process` over the results of `read`; an empty one stands for the end of the
file or an error.  `mem` is the memory of the worker's own array. -/
def readLoop (size : ℕ) : ℕ → List UInt8 → List (List UInt8) → List UInt8
  | _, mem, [] => mem
  | bytesRead, mem, result :: results =>
    if bytesRead < size ∧ result ≠ [] then
      readLoop size (bytesRead + result.length)
        (mem.take bytesRead ++ result ++ mem.drop (bytesRead + result.length)) results
    else mem

/-! ### Run -/

/-- The loop of `run_all_testcases` over the entries from an index on: the tests that it runs.
Behind the last entry it looks at memory that does not belong to the array. -/
def runLoop : List Testcase → Except Stop (List Testcase)
  | [] => .error .overflow
  | t :: ts => if t.enabled ≠ 0 then (runLoop ts).map (t :: ·) else .ok []

/-- `run_all_testcases`. -/
def runAllTestcases (tests : List Testcase) : Except Stop (List Testcase) :=
  match tests with
  | [] => .error .overflow
  | t :: _ => if t.enabled = 0 then .ok [] else runLoop tests

end Jyyos.Testkit
