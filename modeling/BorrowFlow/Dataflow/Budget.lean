/-! # Budgets

  A round-robin solver may change something in so many sweeps and no more; a
  solver that needs more is not monotone.  A budget counts the sweeps and also
  carries the deadline of the run.  Time plays no other part here than that the
  deadline has passed or has not.
-/

namespace BorrowFlow

/-- What a run may spend. -/
structure Budget where
  /-- What the run computes, for messages. -/
  what : String
  /-- How many sweeps may change something. -/
  limit : Int
  /-- Has the deadline passed? -/
  expired : Bool := false
  /-- How many sweeps changed something so far. -/
  sweeps : Nat := 0
  deriving DecidableEq, Inhabited

/-- Why a run has to end. -/
inductive BudgetFault where
  /-- The deadline has passed; the run so far says nothing. -/
  | deadline (what : String) (sweeps : Nat)
  /-- More sweeps than allowed changed something. -/
  | diverged (what : String) (limit : Int)
  deriving DecidableEq

/-- The wording of a run's end. -/
def BudgetFault.message : BudgetFault → String
  | .deadline what sweeps =>
    what ++ ": deadline reached after " ++ toString sweeps ++ " sweeps"
  | .diverged what limit =>
    what ++ " did not converge within " ++ toString limit ++
      " sweeps (non-monotone transfer; analysis bug)"

namespace Budget

/-- Fail if the deadline has passed. -/
def checkDeadline (b : Budget) : Except BudgetFault Unit :=
  if b.expired then .error (.deadline b.what b.sweeps) else .ok ()

/-- Account for one sweep: look at the deadline, then count the sweep if it
    changed something.  The sweep that exceeds the limit is counted too. -/
def tick (b : Budget) (changed : Bool) : Except BudgetFault Unit × Budget :=
  match b.checkDeadline with
  | .error f => (.error f, b)
  | .ok () =>
    if changed then
      let b' := { b with sweeps := b.sweeps + 1 }
      if b.limit < b'.sweeps then (.error (.diverged b.what b.limit), b') else (.ok (), b')
    else (.ok (), b)

end Budget

end BorrowFlow
