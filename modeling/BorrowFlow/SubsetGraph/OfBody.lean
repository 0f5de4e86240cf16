import BorrowFlow.Liveness
import BorrowFlow.SubsetGraph.Basic

/-! # The subset graph of a body

  The graph holds the regions of the body, an edge for each bound of the
  signature, and at each point the loan issued there with its regions and an
  edge for each obligation.  An obligation of a region to itself adds nothing.

  The value of a region is then read off in two views: the loans that may flow
  into it, and the points that it has to cover.
-/

namespace BorrowFlow

namespace SubsetGraph

/-- Add an edge between nodes that are known to be there. -/
def link (g : SubsetGraph) (src dst : Node) (origin : Option Point) :
    Except GraphFault SubsetGraph :=
  (g.addEdge src dst origin).map Prod.fst

/-- Add a loan issued at a point and its edges into regions. -/
def addIssue (g : SubsetGraph) (p : Point) (issue : LoanIssue) : Except GraphFault SubsetGraph := do
  let g ← g.addLoan issue.loan
  issue.regions.foldlM (fun g r => g.link (.ofLoan issue.loan) (.ofRegion r) (some p)) g

/-- Add the obligations that arise at a point. -/
def addObligations (g : SubsetGraph) (p : Point) (os : List Obligation) :
    Except GraphFault SubsetGraph :=
  (os.filter fun o => o.sub ≠ o.sup).foldlM
    (fun g o => g.link (.ofRegion o.sub) (.ofRegion o.sup) (some p)) g

/-- Add what one point contributes. -/
def addPoint (b : Body) (g : SubsetGraph) (p : Point) : Except GraphFault SubsetGraph := do
  let s := b.facts p
  let g ← match s.loan with
    | some issue => g.addIssue p issue
    | none => pure g
  g.addObligations p s.obligations

end SubsetGraph

/-- The subset graph of a body. -/
def Body.subsetGraph (b : Body) : Except GraphFault SubsetGraph := do
  let g ← b.regions.foldlM SubsetGraph.addRegion {}
  let g ← b.bounds.foldlM (fun g o => g.link (.ofRegion o.sub) (.ofRegion o.sup) none) g
  b.points.foldlM (SubsetGraph.addPoint b) g

/-! ## Values of regions -/

/-- The value of a region. -/
structure RegionValue where
  region : Region
  /-- The loans that may flow into it. -/
  loans : LoanSet
  /-- The points it has to cover: where it, or a region it flows into, is live. -/
  points : PointSet

namespace Liveness

/-- Each region with the points where it is live on its own account; a universal
    one is live everywhere. -/
def ownPoints (l : Liveness) : List (Region × PointSet) :=
  let table := l.regionTable
  l.body.regions.map fun r =>
    (r, if r.universal then .ofList l.body.points else pointsIn table r)

/-- The value of a region, given where each region is live on its own account. -/
def regionValue (g : SubsetGraph) (own : List (Region × PointSet)) (r : Region) : RegionValue :=
  let after := g.nodesAfter (.ofRegion r)
  { region := r
    loans := g.loansInto r
    points := .unions ((own.filter fun e => Node.ofRegion e.1 ∈ after).map Prod.snd) }

/-- The values of all regions of the body. -/
def regionValues (l : Liveness) (g : SubsetGraph) : List RegionValue :=
  let own := l.ownPoints
  l.body.regions.map (regionValue g own)

end Liveness

end BorrowFlow
