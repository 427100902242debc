import Mathlib.Data.Nat.Notation

/-!
# Walking a hierarchy in preorder

`PreorderWalk.walk next fuel path a` visits `a` and then, in the order of `next a`, everything below
each of its children.  It remembers no visited vertices: whatever `next` is, it descends.  What it
returns is the list of the places visited, each with the way there: a place is the list of a vertex
and the vertices above it, nearest first.  `fuel` bounds the depth of the recursion, and `none` is
returned when it does not suffice.

`Equiv/PreorderWalk.lean` says when it suffices and which places are visited, how often and in which
order.
-/

namespace Jyyos.PreorderWalk

variable {α : Type*}

/-- The places at and below `a`, in preorder; `path` lists the vertices above `a`. -/
def walk (next : α → List α) : ℕ → List α → α → Option (List (List α))
  | 0, _, _ => none
  | fuel + 1, path, a => do
    let below ← (next a).mapM (walk next fuel (a :: path))
    return (a :: path) :: below.flatten

/-- `Below next p c`: the place `c` is `p` or lies below it. -/
inductive Below (next : α → List α) (p : List α) : List α → Prop
  | refl : Below next p p
  | step {a b : α} {c : List α} : Below next p (a :: c) → b ∈ next a → Below next p (b :: a :: c)

end Jyyos.PreorderWalk
