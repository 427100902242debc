import Jyyos.Mosaic.Device

/-!
# The source rewrite

`Mosaic.Transformer` of `mosaic.py`: the pass that turns the system calls of an application into
yields, on Python's abstract syntax trees.

The five node classes that the pass looks at or builds have a constructor of their own; a node of
any other class is its class and the values of its fields, which `ast.NodeTransformer` goes
through without knowing them.  `K` are these classes, and `A` the values that are no node
(identifiers, numbers, `None`).  Positions in the source text are left out.
-/

namespace Jyyos.Mosaic.Ast

/-- The names that the decorator `@syscall` collects. -/
def SYSCALLS : List Text :=
  [['s', 'y', 's', '_', 's', 'p', 'a', 'w', 'n'],
   ['s', 'y', 's', '_', 'f', 'o', 'r', 'k'],
   ['s', 'y', 's', '_', 's', 'c', 'h', 'e', 'd'],
   ['s', 'y', 's', '_', 'c', 'h', 'o', 'o', 's', 'e'],
   ['s', 'y', 's', '_', 'w', 'r', 'i', 't', 'e'],
   ['s', 'y', 's', '_', 'b', 'r', 'e', 'a', 'd'],
   ['s', 'y', 's', '_', 'b', 'w', 'r', 'i', 't', 'e'],
   ['s', 'y', 's', '_', 's', 'y', 'n', 'c'],
   ['s', 'y', 's', '_', 'c', 'r', 'a', 's', 'h']]

/-- `expr_context`. -/
inductive Ctx where
  | load
  | store
  | del
deriving DecidableEq

/-- The value of a constant. -/
inductive Const (A : Type) where
  | str (s : Text)
  | other (a : A)
deriving DecidableEq

mutual

/-- A node.  The field `ctx` of a tuple may be missing, as it is in one that the pass builds. -/
inductive Node (K A : Type) where
  | call (func : Node K A) (args keywords : List (Node K A))
  | name (id : Text) (ctx : Ctx)
  | constant (value : Const A)
  | tuple (elts : List (Node K A)) (ctx : Option Ctx)
  | yield (value : Option (Node K A))
  | other (cls : K) (fields : List (Field K A))

/-- The value of a field. -/
inductive Field (K A : Type) where
  | node (n : Node K A)
  | atom (a : A)
  | list (items : List (Item K A))

/-- An element of a list in a field. -/
inductive Item (K A : Type) where
  | node (n : Node K A)
  | atom (a : A)

end

variable {K A : Type}

/-- `isinstance(node, ast.Name) and node.id in SYSCALLS`. -/
def Node.syscall? : Node K A → Option Text
  | .name id _ => if id ∈ SYSCALLS then some id else none
  | _ => none

/-- `yield ('sys_xxx', args)`. -/
def yieldOf (id : Text) (args : List (Node K A)) : Node K A :=
  .yield (some (.tuple [.constant (.str id), .tuple args none] none))

namespace Transformer

/-- `visit_Call`. -/
def visitCall (func : Node K A) (args keywords : List (Node K A)) : Node K A :=
  match func.syscall? with
  | some id => yieldOf id args
  | none => .call func args keywords

mutual

/-- `visit`: `visit_Call` for a call, otherwise `generic_visit`. -/
def visit : Node K A → Node K A
  | .call func args keywords => visitCall func args keywords
  | .name id ctx => .name id ctx
  | .constant value => .constant value
  | .tuple elts ctx => .tuple (visitNodes elts) ctx
  | .yield none => .yield none
  | .yield (some value) => .yield (some (visit value))
  | .other cls fields => .other cls (visitFields fields)

def visitNodes : List (Node K A) → List (Node K A)
  | [] => []
  | n :: ns => visit n :: visitNodes ns

def visitFields : List (Field K A) → List (Field K A)
  | [] => []
  | .node n :: fields => .node (visit n) :: visitFields fields
  | .atom a :: fields => .atom a :: visitFields fields
  | .list items :: fields => .list (visitItems items) :: visitFields fields

def visitItems : List (Item K A) → List (Item K A)
  | [] => []
  | .node n :: items => .node (visit n) :: visitItems items
  | .atom a :: items => .atom a :: visitItems items

end

end Transformer

end Jyyos.Mosaic.Ast
