import BorrowFlow.Body.Basic
import BorrowFlow.Reach

/-! # Orders of the points of a body

  The analyses visit the points in reverse postorder of a depth-first search from
  the entry: a point comes before its successors, except along a loop.  Points
  that control never reaches follow in layout order, so that each point is
  visited.
-/

namespace BorrowFlow

/-- The state of a depth-first search. -/
structure Search where
  /-- The points entered so far. -/
  seen : List Point
  /-- The points left so far, the last one first. -/
  done : List Point

/-- Enter a point unless it was entered before, follow its successors in turn,
    and leave it.  `depth` bounds how many points may be open at once. -/
def visit (next : Point → List Point) : (depth : Nat) → Search → Point → Search
  | 0, s, _ => s
  | depth + 1, s, p =>
    if p ∈ s.seen then s
    else
      -- `p` counts as entered while its successors are followed, so loops end
      let s := (next p).foldl (visit next depth) { s with seen := p :: s.seen }
      { s with done := p :: s.done }

namespace Body

/-- The points in reverse postorder from the entry, then the others in layout
    order.  No more points can be open than there are. -/
def reversePostorder (b : Body) : List Point :=
  let s := visit b.successors b.points.length ⟨[], []⟩ b.entryPoint
  s.done ++ b.points.filter (· ∉ s.seen)

/-- The points that control can reach from the entry. -/
def reachable (b : Body) : PointSet :=
  closure b.successors b.points.length (.single b.entryPoint)

end Body

end BorrowFlow
