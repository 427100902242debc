import Jyyos.CStr

/-!
# `getopt_long`

The option scanner of the GNU C library in its default, permuting mode.  Permutation moves the
operands behind the options but keeps the order of the options and of their arguments, so the
options are found by one scan from left to right that passes over the operands.  An element of the
argument vector can leave its last option waiting for an argument, which is then the whole next
element, whatever it looks like.
-/

namespace Jyyos

/-- An entry of the table of long options. -/
structure LongOption where
  name : CStr
  hasArg : Bool
  val : UInt8

/-- What one call of `getopt_long` returns: an option with its argument, or `'?'`. -/
inductive Getopt where
  | opt (c : UInt8) (optarg : Option CStr)
  | bad
deriving DecidableEq, Repr

namespace Getopt

/-- The long options that a name stands for: the one of exactly this name, otherwise those of
which it is an abbreviation. -/
def matchLong (table : List LongOption) (name : CStr) : List LongOption :=
  match table.find? fun o => o.name == name with
  | some o => [o]
  | none => table.filter fun o => name.isPrefixOf o.name

/-- An element `--name` or `--name=value`: the results it gives by itself, and the option that
waits for its argument. -/
def longElement (table : List LongOption) (body : CStr) : List Getopt × Option UInt8 :=
  let name := body.takeWhile (· != '='.toUInt8)
  let value := body.drop name.length
  match matchLong table name with
  | [o] =>
    match o.hasArg, value with
    | false, [] => ([.opt o.val none], none)
    | false, _ :: _ => ([.bad], none)
    | true, [] => ([], some o.val)
    | true, _ :: arg => ([.opt o.val (some arg)], none)
  | _ => ([.bad], none)

/-- Whether a short option is known and, if so, whether it takes an argument. -/
def shortKind (c : UInt8) : List UInt8 → Option Bool
  | [] => none
  | x :: xs =>
    if c = ':'.toUInt8 || c = ';'.toUInt8 then none
    else if x = c then some (xs.head? == some ':'.toUInt8)
    else shortKind c xs

/-- The characters of an element `-abc`. -/
def shortElement (optstring : List UInt8) : CStr → List Getopt × Option UInt8
  | [] => ([], none)
  | c :: cs =>
    match shortKind c optstring with
    | none => ([.bad], none)
    | some false =>
      let (os, waiting) := shortElement optstring cs
      (.opt c none :: os, waiting)
    | some true =>
      match cs with
      | [] => ([], some c)
      | arg => ([.opt c (some arg)], none)

/-- The scan, with the option that waits for its argument. -/
def scan (optstring : List UInt8) (table : List LongOption) :
    Option UInt8 → List CStr → List Getopt
  | none, [] => []
  | some _, [] => [.bad]
  | some c, arg :: rest => .opt c (some arg) :: scan optstring table none rest
  | none, arg :: rest =>
    match arg with
    | [] | [_] => scan optstring table none rest
    | a :: b :: body =>
      if a ≠ '-'.toUInt8 then scan optstring table none rest
      else if b = '-'.toUInt8 then
        if body = [] then []
        else
          let (os, waiting) := longElement table body
          os ++ scan optstring table waiting rest
      else
        let (os, waiting) := shortElement optstring (b :: body)
        os ++ scan optstring table waiting rest

/-- The operands that the scan leaves over, in their order; everything after `--` is one. -/
def operands (optstring : List UInt8) (table : List LongOption) :
    Option UInt8 → List CStr → List CStr
  | _, [] => []
  | some _, _ :: rest => operands optstring table none rest
  | none, arg :: rest =>
    match arg with
    | [] | [_] => arg :: operands optstring table none rest
    | a :: b :: body =>
      if a ≠ '-'.toUInt8 then arg :: operands optstring table none rest
      else if b = '-'.toUInt8 then
        if body = [] then rest
        else operands optstring table (longElement table body).2 rest
      else operands optstring table (shortElement optstring (b :: body)).2 rest

end Getopt

/-- The results of `getopt_long` up to the call that returns `-1`. -/
def getoptLong (optstring : List UInt8) (table : List LongOption) (args : List CStr) :
    List Getopt :=
  Getopt.scan optstring table none args

end Jyyos
