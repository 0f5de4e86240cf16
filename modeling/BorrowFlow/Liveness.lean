import BorrowFlow.Body.Order
import BorrowFlow.Dataflow.Sweep
import BorrowFlow.Text.Quoted

/-! # Liveness

  A variable is *use-live* at a point if some path from there reads it before
  overwriting it, and *drop-live* if some path drops it before overwriting it.
  A region is live at a point if it is universal, if a use-live variable mentions
  it, or if dropping a drop-live variable may touch it.

  - `Body.livenessProblem`: the backward dataflow problem.
  - `Body.liveness`: its solution, from nothing or from an earlier result.
  - `Liveness.liveAt`, `Liveness.regionsLiveAt`: what is live at a point.
-/

namespace BorrowFlow

/-- What is live on entry to a point. -/
structure LiveSets where
  /-- The use-live variables. -/
  uses : NameSet := ∅
  /-- The drop-live variables. -/
  drops : NameSet := ∅
  deriving DecidableEq, Inhabited

/-- How a liveness run is configured. -/
structure LivenessOptions where
  /-- Do drops keep only those regions live that a destructor may touch? -/
  preciseDrops : Bool := true
  /-- How many sweeps may change something, if not one per point. -/
  maxSweeps : Option Int := none
  /-- Has the deadline passed before the run? -/
  expired : Bool := false

/-- Why there is no liveness result. -/
inductive LivenessFault where
  | budget (f : BudgetFault)
  /-- The earlier result knows nothing of this point. -/
  | seedLacks (p : Point)
  /-- The earlier result brought in a variable that the body does not have. -/
  | strayVariable (name : String)
  deriving DecidableEq

/-- The wording of a failed run. -/
def LivenessFault.message : LivenessFault → String
  | .budget f => f.message
  | .seedLacks p =>
    "Point(block=" ++ Text.quoted p.block ++ ", index=" ++ toString p.index ++ ")"
  | .strayVariable name => Text.quoted name

/-- The solution of the liveness problem of a body. -/
structure Liveness where
  body : Body
  preciseDrops : Bool
  /-- What is live on entry to each point. -/
  table : Arena LiveSets
  /-- How many sweeps changed something. -/
  sweeps : Nat
  /-- The table after each sweep. -/
  trace : List (Arena LiveSets)

namespace LiveSets

/-- What is live in any of several sets. -/
def join (l : List LiveSets) : LiveSets :=
  ⟨.unions (l.map uses), .unions (l.map drops)⟩

/-- What is live before a statement, given what is live after it: what it
    overwrites is not, what it reads or drops is. -/
def before (s : Statement) (after : LiveSets) : LiveSets :=
  let survives := fun name => decide (s.write ≠ some name)
  ⟨(after.uses.filter survives).union s.reads, (after.drops.filter survives).union s.drops⟩

end LiveSets

namespace Body

/-- The liveness problem.  Points are visited backwards, so that successors come
    first except around a loop. -/
def livenessProblem (b : Body) : Problem Statement LiveSets where
  visits := b.reversePostorder.reverse.map fun p => ⟨p, b.successors p, b.facts p⟩
  bottom := {}
  transfer := fun s after => .before s (.join after)

/-- The regions that live variables keep live. -/
def liveRegions (b : Body) (preciseDrops : Bool) (live : LiveSets) : SortedSet Region :=
  let used := live.uses.toList.filterMap b.var?
  let dropped := live.drops.toList.filterMap b.var?
  .ofList (b.universalRegions ++ used.flatMap Variable.regions ++
    dropped.flatMap fun v => v.dropRegions preciseDrops)

/-- The table to start from: empty, or that of an earlier result, which has to
    cover every point. -/
def livenessStart (b : Body) : Option Liveness → Except LivenessFault (Arena LiveSets)
  | none => .ok (.ofPoints b.points {})
  | some seed =>
    match b.points.find? (· ∉ seed.table.points) with
    | some p => .error (.seedLacks p)
    | none => .ok (.tabulate b.points (seed.table.read {}))

/-- A variable in the table that the body does not have. -/
def strayVariable? (b : Body) (table : Arena LiveSets) : Option String :=
  (b.points.flatMap fun p =>
    let live := table.read {} p
    live.uses.toList ++ live.drops.toList).find? fun name => (b.var? name).isNone

/-- The liveness of a body, from nothing or from an earlier result. -/
def liveness (b : Body) (options : LivenessOptions := {}) (seed : Option Liveness := none) :
    Except LivenessFault Liveness := do
  let start ← b.livenessStart seed
  let budget : Budget := {
    what := "liveness of '" ++ b.name ++ "'"
    limit := options.maxSweeps.getD b.points.length
    expired := options.expired }
  match b.livenessProblem.solve budget start with
  | .error f => .error (.budget f)
  | .ok solution =>
    -- only an earlier result of another body can bring in a stray variable
    match b.strayVariable? solution.table with
    | some name => .error (.strayVariable name)
    | none => return {
        body := b
        preciseDrops := options.preciseDrops
        table := solution.table
        sweeps := solution.sweeps
        trace := solution.trace }

end Body

/-- A question about a point that a result does not cover. -/
structure Uncovered where
  /-- What the result holds, for messages. -/
  what : String
  point : Point
  body : String
  deriving DecidableEq

/-- A result that is used with a body it was not computed for. -/
inductive OwnerFault where
  | liveness (owner body : String)
  | loans (owner body : String)
  deriving DecidableEq

/-- The wording of a wrong use of a result. -/
def OwnerFault.message : OwnerFault → String
  | .liveness owner body =>
    "liveness result belongs to '" ++ owner ++ "', not '" ++ body ++ "' (analysis bug)"
  | .loans owner body =>
    "active-loan sets belong to '" ++ owner ++ "', not '" ++ body ++ "' (analysis bug)"

/-- The wording of a question about an uncovered point. -/
def Uncovered.message (u : Uncovered) : String :=
  "no " ++ u.what ++ " for point " ++ u.point.render ++ " in '" ++ u.body ++ "' (analysis bug)"

namespace Liveness

/-- The use-live variables on entry to a point. -/
def liveIn (l : Liveness) (p : Point) : NameSet := (l.table.read {} p).uses

/-- The drop-live variables on entry to a point. -/
def dropLiveIn (l : Liveness) (p : Point) : NameSet := (l.table.read {} p).drops

/-- The use-live variables on exit from a point. -/
def liveOut (l : Liveness) (p : Point) : NameSet :=
  .unions ((l.body.successors p).map l.liveIn)

/-- The regions that are live on entry to a point. -/
def regionsLive (l : Liveness) (p : Point) : SortedSet Region :=
  l.body.liveRegions l.preciseDrops (l.table.read {} p)

/-- Every point with the regions that are live on entry to it, in layout order. -/
def regionTable (l : Liveness) : List (Point × SortedSet Region) :=
  l.body.points.map fun p => (p, l.regionsLive p)

/-- The points of a table on whose entry a region is live. -/
def pointsIn (table : List (Point × SortedSet Region)) (r : Region) : PointSet :=
  .ofList ((table.filter fun e => r ∈ e.2).map Prod.fst)

/-- The points on whose entry a region is live. -/
def regionPoints (l : Liveness) (r : Region) : PointSet := pointsIn l.regionTable r

/-- Ask about a point that should be covered. -/
def covered {α : Type} (l : Liveness) (f : Point → α) (p : Point) : Except Uncovered α :=
  if p ∈ l.body.points then .ok (f p) else .error ⟨"liveness", p, l.body.name⟩

/-- The use-live variables on entry to a point of the body. -/
def liveAt (l : Liveness) : Point → Except Uncovered NameSet := l.covered l.liveIn

/-- The live regions on entry to a point of the body. -/
def regionsLiveAt (l : Liveness) : Point → Except Uncovered (SortedSet Region) :=
  l.covered l.regionsLive

end Liveness

end BorrowFlow
