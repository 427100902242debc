import Mathlib.Data.Nat.Notation
import Mathlib.Logic.Function.Basic

/-!
# Depth-first marking

`Dfs.search ok next fuel a m` marks `a` and then, for each `b` of `next a` in order, searches on
from `b` whenever `b` is open (`ok b`) and not yet marked at that moment.  The marks are threaded
through the sibling calls, so a neighbour that an earlier sibling has marked is skipped.  Nothing
in the arguments decreases; `fuel` bounds the depth of the recursion and `none` is returned when
it does not suffice.

`Equiv/Dfs.lean` proves that fuel above the number of unmarked open vertices always suffices, and
that the vertices marked are exactly those at the end of a path of open unmarked vertices.
-/

namespace Jyyos.Dfs

variable {α : Type*} [DecidableEq α]

/-- Depth-first marking from `a`, with the marks `m` threaded through the recursive calls. -/
def search (ok : α → Bool) (next : α → List α) : ℕ → α → (α → Bool) → Option (α → Bool)
  | 0, _, _ => none
  | fuel + 1, a, m =>
    (next a).foldlM (fun m b => if ok b && !m b then search ok next fuel b m else some m)
      (Function.update m a true)

end Jyyos.Dfs
