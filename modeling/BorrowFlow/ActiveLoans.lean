import BorrowFlow.Place.Overlap
import BorrowFlow.SubsetGraph.OfBody

/-! # Active loans

  A loan is active at a point if some path leads from its issue to the point
  along which it stays *relevant*, that is, reaches a region that is live, and
  along which no place that its borrowed place goes through is overwritten.

  - `LoanRule`: what one point does to the loans.
  - `Body.loanProblem`: the forward dataflow problem.
  - `Body.activeLoans`: its solution.
-/

namespace BorrowFlow

/-- What one point does to the loans. -/
structure LoanRule where
  /-- The loans with a path to a region that is live on entry. -/
  relevant : LoanSet := ∅
  /-- The loans that an assignment here ends. -/
  killed : LoanSet := ∅
  /-- The loan issued here. -/
  issued : LoanSet := ∅
  deriving DecidableEq, Inhabited

/-- The loans around a point. -/
structure LoanSets where
  /-- The loans in force while the point executes. -/
  active : LoanSet := ∅
  /-- The loans that leave the point. -/
  out : LoanSet := ∅
  deriving DecidableEq, Inhabited

/-- The loans around a point, given those that arrive. -/
def LoanRule.apply (rule : LoanRule) (incoming : LoanSet) : LoanSets :=
  let active := incoming.inter rule.relevant
  ⟨active, (active.diff rule.killed).union rule.issued⟩

/-- How an active-loan run is configured. -/
structure LoanOptions where
  /-- How many sweeps may change something, if not one per point. -/
  maxSweeps : Option Int := none
  /-- Has the deadline passed before the run? -/
  expired : Bool := false

/-- The solution of the active-loan problem of a body. -/
structure ActiveLoans where
  body : Body
  /-- The loans around each point. -/
  table : Arena LoanSets
  /-- How many sweeps changed something. -/
  sweeps : Nat
  /-- The table after each sweep. -/
  trace : List (Arena LoanSets)

/-- Why there is no active-loan result. -/
inductive LoanFault where
  | budget (f : BudgetFault)
  /-- The earlier result knows nothing of this point. -/
  | seedLacks (p : Point)
  deriving DecidableEq

/-- The wording of a failed run. -/
def LoanFault.message : LoanFault → String
  | .budget f => f.message
  | .seedLacks p => (LivenessFault.seedLacks p).message

namespace Body

/-- The loans of a list that the assignment of a statement ends: those whose place
    goes through the assigned one, the loan that it issues excepted. -/
def killedBy (loans : List Loan) (s : Statement) : LoanSet :=
  match s.assigned with
  | none => ∅
  | some place => .ofList (loans.filter fun l =>
      s.loan.map LoanIssue.loan ≠ some l && place.encloses l.place)

/-- The loans of each region, found once for all points. -/
def regionLoans (b : Body) (g : SubsetGraph) : List (Region × LoanSet) :=
  b.regions.map fun r => (r, g.loansInto r)

/-- What a point does to the loans, given all of them and those of each region. -/
def loanRule (b : Body) (l : Liveness) (loans : List Loan) (ofRegion : List (Region × LoanSet))
    (p : Point) : LoanRule :=
  let s := b.facts p
  let live := l.regionsLive p
  { relevant := .unions ((ofRegion.filter fun e => e.1 ∈ live).map Prod.snd)
    killed := killedBy loans s
    issued := .ofList (s.loan.map LoanIssue.loan).toList }

/-- What each point does to the loans.  The liveness has to be that of the body. -/
def loanRules (b : Body) (l : Liveness) (g : SubsetGraph) : Except OwnerFault (Arena LoanRule) :=
  if l.body.serial = b.serial then
    let loans := b.loans
    let ofRegion := b.regionLoans g
    .ok (.tabulate b.points (b.loanRule l loans ofRegion))
  else .error (.liveness l.body.name b.name)

/-- The active-loan problem.  Points are visited forwards, so that predecessors
    come first except around a loop. -/
def loanProblem (b : Body) (rules : Arena LoanRule) : Problem LoanRule LoanSets where
  visits :=
    let flow := b.flow
    b.reversePostorder.map fun p => ⟨p, sourcesIn flow p, rules.read {} p⟩
  bottom := {}
  transfer := fun rule before => rule.apply (.unions (before.map LoanSets.out))

/-- The table to start from: empty, or that of an earlier result, which has to
    cover every point. -/
def loanStart (b : Body) : Option ActiveLoans → Except LoanFault (Arena LoanSets)
  | none => .ok (.ofPoints b.points {})
  | some seed =>
    match b.points.find? (· ∉ seed.table.points) with
    | some p => .error (.seedLacks p)
    | none => .ok (.tabulate b.points (seed.table.read {}))

/-- The active loans of a body, from nothing or from an earlier result. -/
def activeLoans (b : Body) (rules : Arena LoanRule) (options : LoanOptions := {})
    (seed : Option ActiveLoans := none) : Except LoanFault ActiveLoans := do
  let start ← b.loanStart seed
  let budget : Budget := {
    what := "active loans of '" ++ b.name ++ "'"
    limit := options.maxSweeps.getD b.points.length
    expired := options.expired }
  match (b.loanProblem rules).solve budget start with
  | .error f => .error (.budget f)
  | .ok solution => return {
      body := b
      table := solution.table
      sweeps := solution.sweeps
      trace := solution.trace }

end Body

namespace ActiveLoans

/-- The loans in force while a point executes. -/
def active (a : ActiveLoans) (p : Point) : LoanSet := (a.table.read {} p).active

/-- The loans that leave a point. -/
def out (a : ActiveLoans) (p : Point) : LoanSet := (a.table.read {} p).out

/-- The loans in force while a point of the body executes. -/
def activeAt (a : ActiveLoans) (p : Point) : Except Uncovered LoanSet :=
  if p ∈ a.body.points then .ok (a.active p)
  else .error ⟨"active-loan set", p, a.body.name⟩

end ActiveLoans

end BorrowFlow
