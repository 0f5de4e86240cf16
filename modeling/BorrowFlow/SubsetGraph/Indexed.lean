import BorrowFlow.SubsetGraph.Basic

/-! # Graphs that are asked while they grow

  An indexed graph keeps for each node the nodes one edge on and one edge back, and
  remembers for each region the loans that were found to reach it.  A new edge may
  bring a loan to any region, so all of these are forgotten then.

  A step either succeeds or fails with a `GraphFault`, and in both cases leaves a graph
  behind that can go on.

  - `IndexedGraph.addRegion`, `addLoan`, `addEdge` let a graph grow.
  - `IndexedGraph.reachableFrom`, `reaching`, `loansReaching`, `canReach` ask it.
  - `IndexedGraph.after` is the graph after a list of requests.
-/

namespace BorrowFlow

/-- The nodes next to each node. -/
abbrev Adjacency := OrderedMap (SortedSet Node) Node

namespace Adjacency

/-- The nodes next to a node. -/
def next (t : Adjacency) (n : Node) : SortedSet Node := (t.get? n).getD ∅

/-- Put one node next to another. -/
def join (t : Adjacency) (m n : Node) : Adjacency := t.insert m ((t.next m).insert n)

/-- The nodes with a path from a node, itself included. -/
def walk (t : Adjacency) (n : Node) : SortedSet Node :=
  closure (fun m => (t.next m).toList) t.names.length (.single n)

end Adjacency

/-- A graph of regions and loans that can be asked quickly. -/
structure IndexedGraph where
  regions : OrderedMap Region := ∅
  loans : OrderedMap Loan := ∅
  /-- The nodes one edge on. -/
  succs : Adjacency := ∅
  /-- The nodes one edge back. -/
  preds : Adjacency := ∅
  /-- Where each edge comes from; a bound of the signature has no point. -/
  sources : OrderedMap (SortedSet (Option Point)) Edge := ∅
  /-- The loans that were found to reach a region, since the last new edge. -/
  remembered : OrderedMap LoanSet Region := ∅
  deriving Inhabited

/-- A step of an indexed graph. -/
abbrev GraphM := ExceptT GraphFault (StateM IndexedGraph)

/-- Perform a step: its answer, and the graph that it leaves behind. -/
def GraphM.perform {α : Type} (step : GraphM α) (g : IndexedGraph) :
    Except GraphFault α × IndexedGraph :=
  Id.run (StateT.run (ExceptT.run step) g)

namespace IndexedGraph

/-! ## Contents -/

/-- Is this a node of the graph? -/
def hasNode (g : IndexedGraph) (n : Node) : Bool := g.succs.contains n

/-- The nodes, in order. -/
def nodes (g : IndexedGraph) : SortedSet Node := .ofList g.succs.names

/-- The edges, in order. -/
def edges (g : IndexedGraph) : SortedSet Edge :=
  .ofList (g.succs.entries.flatMap fun e => e.2.toList.map (⟨e.1, ·⟩))

/-- Where an edge comes from. -/
def origins (g : IndexedGraph) (e : Edge) : SortedSet (Option Point) := (g.sources.get? e).getD ∅

/-- The loan that a node stands for. -/
def loan? (g : IndexedGraph) (n : Node) : Option Loan :=
  if n.isLoan then g.loans.get? n.name else none

/-- The loans among some nodes. -/
def loansOf (g : IndexedGraph) (ns : SortedSet Node) : LoanSet :=
  .ofList (ns.toList.filterMap g.loan?)

/-! ## Building -/

/-- List a node, at first without edges. -/
def enter (g : IndexedGraph) (n : Node) : IndexedGraph :=
  { g with succs := g.succs.insertNew n ∅, preds := g.preds.insertNew n ∅ }

/-- Note where an edge comes from. -/
def addOrigin (g : IndexedGraph) (e : Edge) (origin : Option Point) : IndexedGraph :=
  { g with sources := g.sources.insert e ((g.origins e).insert origin) }

/-- Enter a new edge, and forget what was found without it. -/
def link (g : IndexedGraph) (src dst : Node) : IndexedGraph :=
  { g with succs := g.succs.join src dst, preds := g.preds.join dst src, remembered := ∅ }

/-- Keep a value under its name in a table and list its node.  Keeping it again changes
    nothing; another value of the name is refused. -/
def register {α : Type} [DecidableEq α] (table : IndexedGraph → OrderedMap α)
    (update : IndexedGraph → OrderedMap α → IndexedGraph) (name : String) (value : α) (n : Node)
    (fault : GraphFault) : GraphM Node := do
  modify fun g => update g ((table g).insertNew name value)
  if (table (← get)).get? name ≠ some value then
    throw fault
  modify (·.enter n)
  return n

/-- Add a region. -/
def addRegion (r : Region) : GraphM Node :=
  register regions (fun g t => { g with regions := t }) r.name r (.ofRegion r)
    (.regionConflict r.name)

/-- Add a loan. -/
def addLoan (l : Loan) : GraphM Node :=
  register loans (fun g t => { g with loans := t }) l.name l (.ofLoan l) (.loanConflict l.name)

/-- Go on only if this is a node of the graph. -/
def require (n : Node) : GraphM Unit := do
  if !(← get).hasNode n then
    throw (.noNode n)

/-- Add an edge between nodes of the graph that ends in a region.  Says whether the
    edge is new; one that is not only gains an origin. -/
def addEdge (src dst : Node) (origin : Option Point) : GraphM Bool := do
  require src
  require dst
  if dst.isLoan then
    throw (.intoLoan src dst)
  modify (·.addOrigin ⟨src, dst⟩ origin)
  if dst ∈ (← get).succs.next src then
    return false
  modify (·.link src dst)
  return true

/-! ## Questions -/

/-- What is kept under a name, if there is anything. -/
def named {α : Type} (table : IndexedGraph → OrderedMap α) (name : String) (fault : GraphFault) :
    GraphM α := do
  ((table (← get)).get? name).elim (throw fault) pure

/-- The region of a name. -/
def regionNamed (name : String) : GraphM Region := named regions name (.noRegionNamed name)

/-- The loan of a name. -/
def loanNamed (name : String) : GraphM Loan := named loans name (.noLoanNamed name)

/-- What a walk from a node of the graph finds in a table. -/
def walkIn (table : IndexedGraph → Adjacency) (n : Node) : GraphM (SortedSet Node) := do
  require n
  return (table (← get)).walk n

/-- The nodes with a path from a node of the graph. -/
def reachableFrom (n : Node) : GraphM (SortedSet Node) := walkIn succs n

/-- The nodes with a path to a node of the graph. -/
def reaching (n : Node) : GraphM (SortedSet Node) := walkIn preds n

/-- The loans with a path to a region of the graph.  They are looked for at most once
    between two new edges. -/
def loansReaching (r : Region) : GraphM LoanSet := do
  let g ← get
  match g.remembered.get? r with
  | some loans => return loans
  | none =>
    if g.regions.get? r.name ≠ some r then
      throw (.noRegion r)
    let before ← reaching (.ofRegion r)
    let loans := g.loansOf before
    modify fun g => { g with remembered := g.remembered.insert r loans }
    return loans

/-- Does this very loan have a path to a region of the graph? -/
def canReach (l : Loan) (r : Region) : GraphM Bool := do
  let loans ← loansReaching r
  return decide (l ∈ loans)

end IndexedGraph

/-! ## Requests -/

/-- What can be asked of a graph. -/
inductive GraphRequest where
  | addRegion (r : Region)
  | addLoan (l : Loan)
  | addEdge (src dst : Node) (origin : Option Point)
  | nodes
  | edges
  | origins (e : Edge)
  | regionNamed (name : String)
  | loanNamed (name : String)
  | reachableFrom (n : Node)
  | reaching (n : Node)
  | loansReaching (r : Region)
  | canReach (l : Loan) (r : Region)

/-- What a graph says to a request. -/
inductive GraphAnswer where
  | node (n : Node)
  | truth (b : Bool)
  | nodes (s : SortedSet Node)
  | edges (s : SortedSet Edge)
  | origins (s : SortedSet (Option Point))
  | region (r : Region)
  | loan (l : Loan)
  | loans (s : LoanSet)
  deriving DecidableEq

namespace IndexedGraph

/-- The step of a graph that answers a request. -/
def step : GraphRequest → GraphM GraphAnswer
  | .addRegion r => .node <$> addRegion r
  | .addLoan l => .node <$> addLoan l
  | .addEdge src dst origin => .truth <$> addEdge src dst origin
  | .nodes => return .nodes (← get).nodes
  | .edges => return .edges (← get).edges
  | .origins e => return .origins ((← get).origins e)
  | .regionNamed name => .region <$> regionNamed name
  | .loanNamed name => .loan <$> loanNamed name
  | .reachableFrom n => .nodes <$> reachableFrom n
  | .reaching n => .nodes <$> reaching n
  | .loansReaching r => .loans <$> loansReaching r
  | .canReach l r => .truth <$> canReach l r

/-- What a graph says to a request, and the graph that it is afterwards. -/
def answer (g : IndexedGraph) (q : GraphRequest) : Except GraphFault GraphAnswer × IndexedGraph :=
  (step q).perform g

/-- The graph after a list of requests; one that fails is passed over. -/
def after (g : IndexedGraph) : List GraphRequest → IndexedGraph
  | [] => g
  | q :: qs => (g.answer q).2.after qs

end IndexedGraph

end BorrowFlow
