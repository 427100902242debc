import Jyyos.Fle.Basic

/-!
# The linker

`FLE_ld` of `fle.py`.  The linker collects the sections of its input files by name and then goes
over them twice with one table of symbols.  Labels enter the table at the position reached so far;
a relocation is an expression that Python's `eval` evaluates with the table as its name space.  The
first pass sees a table that is still being filled and takes names it does not find to be `0`.

The names of labels share the table with the function `i32`: a global label `x` is the key `x`, a
label `x` of the file `f` the key `f.x`.
-/

namespace Jyyos.Fle

/-- A value of Python. -/
inductive Val where
  | int (n : ℤ)
  /-- The function `lambda x: x.to_bytes(4, 'little', signed=True)`. -/
  | i32
  | bytes (bs : List UInt8)
deriving DecidableEq, Repr

/-! ### Input files -/

/-- The sections: to each name the bodies with their files, in the order of the files. -/
abbrev Sections := Dict Str (List (Str × List Item))

/-- `k.startswith('.')`. -/
def isSection (k : Str) : Bool := k.head? = some '.'

/-- The sections of one file. -/
def addObj (fle : Str) (obj : Obj) (sections : Sections) : Sections :=
  obj.entries.entries.foldl
    (fun sections e => if isSection e.1 then sections.push e.1 (fle, e.2) else sections) sections

/-- The loop over the arguments; `prev` is the argument before, `dest` the last destination
given. -/
def collect (readFle : Str → Option Obj) :
    Option Str → List Str → Sections → Option Str → Except Error (Sections × Option Str)
  | _, [], sections, dest => .ok (sections, dest)
  | prev, fle :: args, sections, dest =>
    if fle = "-o".toList then collect readFle (some fle) args sections dest
    else if prev = some "-o".toList then collect readFle (some fle) args sections (some fle)
    else
      match readFle fle with
      | none => .error (.fileNotFound fle)
      | some obj =>
        if obj.type = ".obj".toList then
          collect readFle (some fle) args (addObj fle obj sections) dest
        else .error .assertion

/-! ### Relocations -/

/-- The key of a label of a file. -/
def localKey (fle symb : Str) : Str := fle ++ '.' :: symb

/-- `Symbols.__getitem__`. -/
def getitem (iter : ℕ) (fle : Str) (symbols : Dict Str Val) (key : Str) : Except Error Val :=
  if iter = 0 then .ok ((symbols.get? key).getD (.int 0))
  else
    match symbols.get? (localKey fle key) with
    | some v => .ok v
    | none =>
      match symbols.get? key with
      | some v => .ok v
      | none => .error (.undefinedSymbol key)

/-- `eval` of an expression whose names are looked up by `lookup`, at position `current`.  The
constant `__debug__` is no name for Python's compiler. -/
def eval (lookup : Str → Except Error Val) (current : ℕ) : Expr → Except Error Val
  | .name key => if key = "__debug__".toList then .ok (.int 1) else lookup key
  | .const n => .ok (.int n)
  | .current => .ok (.int current)
  | .add a b => do
    match ← eval lookup current a, ← eval lookup current b with
    | .int m, .int n => .ok (.int (m + n))
    | .bytes bs, .bytes cs => .ok (.bytes (bs ++ cs))
    | _, _ => .error .typeError
  | .sub a b => do
    match ← eval lookup current a, ← eval lookup current b with
    | .int m, .int n => .ok (.int (m - n))
    | _, _ => .error .typeError
  | .call f x => do
    match ← eval lookup current f, ← eval lookup current x with
    | .i32, .int n =>
      match PyStr.toBytes4 n with
      | some bs => .ok (.bytes bs)
      | none => .error .overflow
    | _, _ => .error .typeError

/-! ### The passes -/

/-- What a pass works on: the table of symbols and the bytes so far. -/
structure Ld where
  symbols : Dict Str Val
  res : List UInt8

/-- `symbols[key] = len(res)`. -/
def Ld.define (st : Ld) (key : Str) : Ld :=
  { st with symbols := st.symbols.set key (.int st.res.length) }

/-- The body of the loop over the items of a section of the file `fle`. -/
def ldItem (iter : ℕ) (fle : Str) (st : Ld) : Item → Except Error Ld
  | .globalLabel symb =>
    if iter = 0 ∧ symb ∈ st.symbols.keys then .error (.multipleDefinition symb)
    else .ok (st.define symb)
  | .localLabel symb => .ok (st.define (localKey fle symb))
  | .bytes xs =>
    match PyStr.fromhex xs with
    | some bs => .ok { st with res := st.res ++ bs }
    | none => .error .value
  | .reloc expr => do
    match ← eval (getitem iter fle st.symbols) st.res.length expr with
    | .bytes bs => .ok { st with res := st.res ++ bs }
    | _ => .error .typeError
  | .other => .ok st

/-- The name of the label at the beginning of a section. -/
def sectionLabel (secName : Str) : Str := PyStr.replaceChar '.' '_' secName

/-- One section of one file. -/
def ldBody (iter : ℕ) (secName : Str) (st : Ld) (body : Str × List Item) : Except Error Ld :=
  body.2.foldlM (ldItem iter body.1) (st.define (localKey body.1 (sectionLabel secName)))

/-- One of the two passes, from the table that the pass before has left. -/
def ldPass (iter : ℕ) (sections : Sections) (symbols : Dict Str Val) : Except Error Ld :=
  sections.entries.foldlM (fun st sec => sec.2.foldlM (ldBody iter sec.1) st) ⟨symbols, []⟩

/-- The table at the beginning. -/
def initSymbols : Dict Str Val := Dict.ofList [("i32".toList, .i32)]

/-! ### The executable -/

/-- The entries that are integers at keys without a dot. -/
def globalEntry (e : Str × Val) : Option (Str × ℤ) :=
  match e.2 with
  | .int n => if '.' ∈ e.1 then none else some (e.1, n)
  | _ => none

theorem nodup_filterMap_globalEntry {es : List (Str × Val)} (h : (es.map Prod.fst).Nodup) :
    ((es.filterMap globalEntry).map Prod.fst).Nodup := by
  induction es with
  | nil => exact List.nodup_nil
  | cons e es ih =>
    rw [List.map_cons, List.nodup_cons] at h
    rw [List.filterMap_cons]
    split
    · exact ih h.2
    · rename_i g hg
      rw [List.map_cons, List.nodup_cons]
      refine ⟨fun hmem => h.1 ?_, ih h.2⟩
      have hkey : ∀ {e : Str × Val} {g : Str × ℤ}, globalEntry e = some g → g.1 = e.1 := by
        intro e g hg
        rw [globalEntry] at hg
        split at hg
        · split_ifs at hg
          cases hg
          rfl
        · cases hg
      obtain ⟨g', hg', heq⟩ := List.mem_map.mp hmem
      obtain ⟨e', he', heg⟩ := List.mem_filterMap.mp hg'
      rw [← hkey hg, ← heq, hkey heg]
      exact List.mem_map_of_mem he'

/-- `symbols_global`. -/
def symbolsGlobal (symbols : Dict Str Val) : Dict Str ℤ :=
  ⟨symbols.entries.filterMap globalEntry, nodup_filterMap_globalEntry symbols.nodup⟩

/-- `[res[i:i+n] for i in range(0, len(res), n)]`; the first argument is a bound on the number of
parts. -/
def parts (n : ℕ) : ℕ → List UInt8 → List (List UInt8)
  | 0, _ => []
  | _ + 1, [] => []
  | fuel + 1, b :: bs => (b :: bs).take n :: parts n fuel ((b :: bs).drop n)

/-- The tag of lines of bytes. -/
def BYTES : Str := "🔢".toList

/-- A line of the `.load` section. -/
def loadLine (part : List UInt8) : Str :=
  BYTES ++ ": ".toList ++ PyStr.join ' ' (part.map PyStr.hex2)

/-- The executable written for the table and the bytes of the last pass. -/
def writeExe (st : Ld) : Exe where
  type := ".exe".toList
  symbols := symbolsGlobal st.symbols
  load := (parts 16 st.res.length st.res).map loadLine

/-- `FLE_ld`: the destination and what is written there. -/
def fleLd (readFle : Str → Option Obj) (args : List Str) : Except Error (Str × Exe) := do
  match ← collect readFle none args Dict.empty none with
  | (_, none) => .error .unboundLocal
  | (sections, some dest) =>
    let first ← ldPass 0 sections initSymbols
    let second ← ldPass 1 sections first.symbols
    return (dest, writeExe second)

end Jyyos.Fle
