import Jyyos.Labyrinth.LoadMap
import Jyyos.Getopt

/-!
# The program `labyrinth`

`main` of `labyrinth.c` from its argument vector to the exit status and the files it leaves.  The
option loop is a fold over what `getopt_long` returns (`Jyyos/Getopt.lean`).  What the kernel and
the C library decide in one run is the `Env`: the block that `malloc` returns, with whatever it
holds, and which opens are granted.
-/

namespace Jyyos.Labyrinth

/-- The string of short options. -/
def optstring : List UInt8 := cstr ['v', 'm', ':', 'p', ':', 'o', ':']

/-- The table `long_options`. -/
def longOptions : List LongOption :=
  [⟨cstr ['v', 'e', 'r', 's', 'i', 'o', 'n'], false, 'v'.toUInt8⟩,
   ⟨cstr ['m', 'a', 'p'], true, 'm'.toUInt8⟩,
   ⟨cstr ['p', 'l', 'a', 'y', 'e', 'r'], true, 'p'.toUInt8⟩,
   ⟨cstr ['m', 'o', 'v', 'e'], true, 'd'.toUInt8⟩]

/-- The variables that the option loop sets. -/
structure Options where
  filename : Option CStr := none
  playerId : Option CStr := none
  moveDirection : Option CStr := none
  versionFlag : Bool := false
  otherArgs : Bool := false
deriving DecidableEq, Repr

/-- The four direction names. -/
def directionNames : List CStr :=
  [cstr ['u', 'p'], cstr ['d', 'o', 'w', 'n'], cstr ['l', 'e', 'f', 't'],
   cstr ['r', 'i', 'g', 'h', 't']]

/-- The `switch` of the option loop; `none` is the `return 1` of an unknown direction, a missing
argument or an unknown option. -/
def handleOption (o : Options) : Getopt → Option Options
  | .opt c optarg =>
    if c = 'v'.toUInt8 then some { o with versionFlag := true }
    else if c = 'm'.toUInt8 then
      some { o with filename := optarg, otherArgs := o.otherArgs || optarg.isSome }
    else if c = 'p'.toUInt8 then
      some { o with playerId := optarg, otherArgs := o.otherArgs || optarg.isSome }
    else if c = 'd'.toUInt8 then
      match optarg with
      | none | some [] => some { o with moveDirection := optarg }
      | some d =>
        if d ∈ directionNames then some { o with moveDirection := some d, otherArgs := true }
        else none
    else some o
  | .bad => none

/-- The option loop on the arguments after the program name. -/
def parseOptions (args : List CStr) : Option Options :=
  (getoptLong optstring longOptions args).foldlM handleOption {}

/-- What a run is given by its surroundings: the memory that `malloc` returns and whether a file
name can be opened for reading and for writing. -/
structure Env where
  malloc : Option Labyrinth
  canRead : CStr → Bool
  canWrite : CStr → Bool

/-- The files by name. -/
abbrev Files := CStr → Option (List UInt8)

/-- How a run ends: the value that `main` returns, or the failed assertion on `malloc`. -/
inductive Exit where
  | status (n : ℕ)
  | abort
deriving DecidableEq, Repr

/-- `fopen(filename, "r")`: the contents, if there is such a file and it may be opened. -/
def fopenRead (env : Env) (fs : Files) (filename : Option CStr) : Option (List UInt8) :=
  filename.bind fun f => if env.canRead f then fs f else none

/-- The end of `main`: write the map back. -/
def saveAndExit (env : Env) (fs : Files) (filename : Option CStr) (l : Labyrinth) :
    Exit × Files :=
  match filename with
  | none => (.status 1, fs)
  | some f =>
    if env.canWrite f then (.status 0, Function.update fs f (some l.saveMap))
    else (.status 1, fs)

/-- `main` after the option loop, once the map is loaded: validate the player, check the map,
move and save. -/
def play (env : Env) (fs : Files) (o : Options) (l : Labyrinth) : Exit × Files :=
  match o.playerId with
  | some [p] =>
    if isValidPlayer p then
      if l.isConnected then
        match o.moveDirection with
        | none => saveAndExit env fs o.filename l
        | some d =>
          match l.movePlayer p d with
          | (true, l') => saveAndExit env fs o.filename l'
          | (false, _) => (.status 1, fs)
      else (.status 1, fs)
    else (.status 1, fs)
  | _ => (.status 1, fs)

/-- `main`; `args` are the arguments after the program name. -/
def main (env : Env) (fs : Files) (args : List CStr) : Exit × Files :=
  match parseOptions args with
  | none => (.status 1, fs)
  | some o =>
    if o.versionFlag && o.otherArgs then (.status 1, fs)
    else if o.versionFlag then (.status 0, fs)
    else
      match env.malloc with
      | none => (.abort, fs)
      | some mem =>
        match loadMap mem (fopenRead env fs o.filename) with
        | none => (.status 1, fs)
        | some l => play env fs o l

end Jyyos.Labyrinth
