import BorrowFlow.Place.Basic

/-! # Overlap of places

  May two places share storage?  Places of different locals never do.  Along
  their common depth, two different fields or two different known indices keep
  places apart; any other difference may hide the same storage.
-/

namespace BorrowFlow

namespace Projection

/-- May two different projections from one place lead to shared storage?  Only
    two fields, or two known indices, cannot. -/
def mayMeet : Projection → Projection → Bool
  | .field _, .field _ => false
  | .constIndex i, .constIndex j => decide (i = j)
  | _, _ => true

end Projection

namespace Place

/-- May two paths from one place lead to shared storage?  The first difference
    decides; a path that is an initial part of the other reaches around it. -/
def pathsOverlap : List Projection → List Projection → Bool
  | [], _ => true
  | _ :: _, [] => true
  | p :: ps, q :: qs => if p = q then pathsOverlap ps qs else p.mayMeet q

/-- May two places share storage? -/
def overlaps (a b : Place) : Bool :=
  decide (a.base = b.base) && pathsOverlap a.path b.path

/-- Is `a` the place `b`, or one that contains it? -/
def encloses (a b : Place) : Bool :=
  decide (a.base = b.base) && a.path.isPrefixOf b.path

/-- Does a shallow write to `written` disturb `borrowed`?  Overwriting a pointer
    leaves alone what lies behind it, so a borrow that is reached through a
    dereference of the written place is not disturbed. -/
def shallowReaches (written borrowed : Place) : Bool :=
  if written.overlaps borrowed then
    if written.encloses borrowed then
      !(borrowed.path.drop written.path.length).any Projection.isDeref
    else true
  else false

end Place

end BorrowFlow
