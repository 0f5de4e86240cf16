import BorrowFlow.ActiveLoans
import BorrowFlow.Diagnostic

/-! # Conflicts

  An access conflicts with an active loan if their places may share storage and
  the access is not a read of a shared borrow.  Conflicts are listed by point in
  layout order, then by access, then by loan in the order of issue, each once.
-/

namespace BorrowFlow

/-- An access at `point` to `place` that collides with an active loan. -/
structure Conflict where
  point : Point
  loan : Loan
  place : Place
  kind : AccessKind
  deriving DecidableEq, Inhabited

/-- The name of an access kind in a report. -/
def AccessKind.label : AccessKind → String
  | .read => "read"
  | .write => "write"
  | .move => "move"
  | .storageDead => "storage_dead"

/-- Does an access collide with an active loan? -/
def Access.conflicts (a : Access) (l : Loan) : Bool :=
  let overlap := if a.shallow then a.place.shallowReaches l.place else a.place.overlaps l.place
  overlap && (a.kind ≠ .read || l.isMutable)

namespace Body

/-- The conflicts of the accesses at a point with the active ones of some loans. -/
def conflictsAt (b : Body) (loans : List Loan) (active : ActiveLoans) (p : Point) :
    List Conflict :=
  let here := active.active p
  let inForce := loans.filter (· ∈ here)
  ((b.facts p).accesses.flatMap fun a =>
    (inForce.filter a.conflicts).map fun l => (⟨p, l, a.place, a.kind⟩ : Conflict)).eraseDups

/-- The conflicts of a body.  The active loans have to be those of the body. -/
def conflicts (b : Body) (active : ActiveLoans) : Except OwnerFault (List Conflict) :=
  if active.body.serial = b.serial then
    let loans := b.loans
    .ok (b.points.flatMap (b.conflictsAt loans active))
  else .error (.loans active.body.name b.name)

end Body

namespace Conflict

/-- The conflict as a report field. -/
def toJson (c : Conflict) : Json :=
  .obj [
    ("point", .str c.point.render),
    ("loan", .str c.loan.name),
    ("place", .str c.place.render),
    ("access", .str c.kind.label)]

/-- The code and the wording of a conflict at a statement.  A write is worded by
    what the statement is: the borrow of the very place, a drop, or any other. -/
def wording (c : Conflict) (s : Statement) : String × String :=
  let name := "'" ++ c.place.render ++ "'"
  match c.kind with
  | .read => ("E_READ_WHILE_MUT_BORROWED", "cannot read " ++ name ++ " while it is mutably borrowed")
  | .move => ("E_MOVE_WHILE_BORROWED", "cannot move out of " ++ name ++ " while it is borrowed")
  | .storageDead =>
    ("E_BORROWED_VALUE_DROPPED",
      name ++ " does not live long enough: it is still borrowed when its storage ends")
  | .write =>
    if s.kind = "borrow" ∧ s.loan.map (·.loan.place) = some c.place then
      ("E_MUT_BORROW_WHILE_BORROWED",
        "cannot borrow " ++ name ++ " as mutable while it is borrowed")
    else if s.kind = "drop" then
      ("E_DROP_WHILE_BORROWED", "cannot drop " ++ name ++ " while it is borrowed")
    else
      ("E_WRITE_WHILE_BORROWED", "cannot write to " ++ name ++ " while it is borrowed")

/-- The conflict as a finding.  The notes say where the loan was issued. -/
def toDiagnostic (b : Body) (c : Conflict) : Diagnostic :=
  let s := b.facts c.point
  let (code, message) := c.wording s
  let sigil := if c.loan.isMutable then "&mut " else "&"
  let issued := "loan " ++ c.loan.name ++ " (" ++ sigil ++ c.loan.place.render ++
    ") issued at " ++ c.loan.point.render
  let site := (b.facts c.loan.point).span
  { message := message
    code := some code
    phase := some "borrowcheck"
    span := s.span
    notes := if site.known then [issued, "borrow site: " ++ site.render] else [issued] }

end Conflict

end BorrowFlow
