import BorrowFlow.Conflict

/-! # The analysis of a body

  Liveness, subset graph, active loans and conflicts, one after the other.  A run
  whose deadline has passed stops without an answer: a table that is not yet
  stable says too little, so the result is unknown, never "no conflicts".

  - `Body.analyze`: the whole analysis of one body.
  - `analyzeAll`: the analyses of several bodies, in order.
-/

namespace BorrowFlow

/-- How an analysis is configured. -/
structure AnalysisOptions where
  /-- Do drops keep only those regions live that a destructor may touch? -/
  preciseDrops : Bool := true
  /-- Has the deadline passed before the run? -/
  expired : Bool := false
  /-- How many sweeps of each pass may change something, if not one per point. -/
  maxSweeps : Option Int := none

/-- Everything that a finished analysis finds. -/
structure Findings where
  liveness : Liveness
  graph : SubsetGraph
  values : List RegionValue
  active : ActiveLoans
  conflicts : List Conflict

/-- How an analysis ends. -/
inductive Outcome where
  | complete (f : Findings)
  /-- The deadline passed first. -/
  | unknown (reason : String)

/-- The analysis of a body. -/
structure Analysis where
  body : Body
  outcome : Outcome

/-- Why an analysis cannot be carried out at all. -/
inductive AnalysisFault where
  | liveness (f : LivenessFault)
  | graph (f : GraphFault)
  | loans (f : LoanFault)
  | owner (f : OwnerFault)
  deriving DecidableEq

/-- The wording of a fault. -/
def AnalysisFault.message : AnalysisFault → String
  | .liveness f => f.message
  | .graph f => f.message
  | .loans f => f.message
  | .owner f => f.message

/-- The reason of a fault that is only a passed deadline. -/
def AnalysisFault.deadline? : AnalysisFault → Option String
  | .liveness (.budget (.deadline what sweeps)) =>
    some (BudgetFault.deadline what sweeps).message
  | .loans (.budget (.deadline what sweeps)) => some (BudgetFault.deadline what sweeps).message
  | _ => none

namespace Body

/-- The findings of a body. -/
def findings (b : Body) (options : AnalysisOptions := {}) : Except AnalysisFault Findings := do
  let liveness ← (b.liveness {
    preciseDrops := options.preciseDrops
    maxSweeps := options.maxSweeps
    expired := options.expired }).mapError .liveness
  let graph ← b.subsetGraph.mapError .graph
  let rules ← (b.loanRules liveness graph).mapError .owner
  let active ← (b.activeLoans rules {
    maxSweeps := options.maxSweeps
    expired := options.expired }).mapError .loans
  let conflicts ← (b.conflicts active).mapError .owner
  return {
    liveness := liveness
    graph := graph
    values := liveness.regionValues graph
    active := active
    conflicts := conflicts }

/-- Analyse a body.  A passed deadline is an answer, any other fault is not. -/
def analyze (b : Body) (options : AnalysisOptions := {}) : Except AnalysisFault Analysis :=
  match b.findings options with
  | .ok f => .ok ⟨b, .complete f⟩
  | .error fault =>
    match fault.deadline? with
    | some reason => .ok ⟨b, .unknown reason⟩
    | none => .error fault

end Body

/-- Analyse several bodies; each is independent of the others. -/
def analyzeAll (bodies : List Body) (options : AnalysisOptions := {}) :
    Except AnalysisFault (List Analysis) :=
  bodies.mapM (·.analyze options)

namespace Analysis

/-- Did the analysis finish? -/
def isComplete (a : Analysis) : Bool :=
  match a.outcome with
  | .complete _ => true
  | .unknown _ => false

/-- Did the analysis finish and find a conflict? -/
def hasConflicts (a : Analysis) : Bool :=
  match a.outcome with
  | .complete f => !f.conflicts.isEmpty
  | .unknown _ => false

end Analysis

end BorrowFlow
