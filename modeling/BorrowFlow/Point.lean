import BorrowFlow.KeyOrder
import BorrowFlow.SortedSet

/-! # Points

  A point is the slot of one statement or terminator: its block and its index
  in that block.  Points are ordered by block name, then by index.
-/

namespace BorrowFlow

open Std (TransOrd LawfulEqOrd)

/-- One slot of a control-flow graph.  The index may name a slot that no block
    has, so it is any integer. -/
structure Point where
  block : String
  index : Int
  deriving DecidableEq, Inhabited

namespace Point

instance : Ord Point := ⟨compareLex (compareOn Point.block) (compareOn Point.index)⟩

instance : TransOrd Point :=
  inferInstanceAs (Std.TransCmp (compareLex (compareOn Point.block) (compareOn Point.index)))

instance : LawfulEqOrd Point where
  eq_of_compare {a b} h := by
    obtain ⟨hblock, h⟩ := key_eq_of_compareLex h
    have hindex := key_eq_of_compareOn h
    cases a; cases b; cases hblock; cases hindex; rfl

/-- `block[index]`. -/
def render (p : Point) : String := p.block ++ "[" ++ toString p.index ++ "]"

end Point

/-- Points as an unordered collection lists them: in order. -/
abbrev PointSet := SortedSet Point

end BorrowFlow
