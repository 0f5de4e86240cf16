import BorrowFlow.Body.Statement
import BorrowFlow.OrderedMap
import BorrowFlow.Reach

/-! # Subset graphs

  The nodes are regions and loans.  An edge into a region says that every loan
  in its source is in the region too; a loan has edges out of it only.  So the
  loans of a region are those with a path to it.

  - `SubsetGraph.addRegion`, `addLoan`, `addEdge` build a graph.
  - `SubsetGraph.reachableFrom`, `reaching` follow the edges.
  - `SubsetGraph.loansReaching` gives the loans of a region.
-/

namespace BorrowFlow

open Std (TransOrd LawfulEqOrd)

/-- A node: a region or a loan, known by its name. -/
inductive Node where
  | region (name : String)
  | loan (name : String)
  deriving DecidableEq, Inhabited

namespace Node

/-- Is this a loan? -/
def isLoan : Node → Bool
  | .region _ => false
  | .loan _ => true

/-- The name of the region or loan. -/
def name : Node → String
  | .region n => n
  | .loan n => n

/-- The node of a region. -/
def ofRegion (r : Region) : Node := .region r.name

/-- The node of a loan. -/
def ofLoan (l : Loan) : Node := .loan l.name

theorem eq_of_kind_of_name {m n : Node} (hkind : m.isLoan = n.isLoan) (hname : m.name = n.name) :
    m = n := by
  cases m <;> cases n <;> simp_all [isLoan, name]

-- regions come before loans, each in the order of their names
instance : Ord Node := ⟨compareLex (compareOn isLoan) (compareOn name)⟩

instance : TransOrd Node :=
  inferInstanceAs (Std.TransCmp (compareLex (compareOn isLoan) (compareOn name)))

instance : LawfulEqOrd Node where
  eq_of_compare {a b} h := by
    obtain ⟨hkind, h⟩ := key_eq_of_compareLex h
    exact eq_of_kind_of_name hkind (key_eq_of_compareOn h)

end Node

/-- An edge: the loans of `src` are among those of `dst`. -/
structure Edge where
  src : Node
  dst : Node
  deriving DecidableEq, Inhabited

namespace Edge

instance : Ord Edge := ⟨compareLex (compareOn Edge.src) (compareOn Edge.dst)⟩

instance : TransOrd Edge :=
  inferInstanceAs (Std.TransCmp (compareLex (compareOn Edge.src) (compareOn Edge.dst)))

instance : LawfulEqOrd Edge where
  eq_of_compare {a b} h := by
    obtain ⟨hsrc, h⟩ := key_eq_of_compareLex h
    have hdst := key_eq_of_compareOn h
    cases a; cases b; cases hsrc; cases hdst; rfl

end Edge

/-- A graph of regions and loans. -/
structure SubsetGraph where
  regions : OrderedMap Region := ∅
  loans : OrderedMap Loan := ∅
  /-- The edges, each once. -/
  edges : SortedSet Edge := ∅
  /-- Where the edges come from; a bound of the signature has no point. -/
  sources : List (Edge × Option Point) := []
  deriving Inhabited

/-- What is wrong with a change to a graph or a question about it. -/
inductive GraphFault where
  | regionConflict (name : String)
  | loanConflict (name : String)
  | noNode (n : Node)
  | intoLoan (src dst : Node)
  | noRegionNamed (name : String)
  | noLoanNamed (name : String)
  | noRegion (r : Region)
  deriving DecidableEq

/-- The wording of a fault. -/
def GraphFault.message : GraphFault → String
  | .regionConflict name =>
    "region " ++ name ++ " registered with conflicting universality (analysis bug)"
  | .loanConflict name =>
    "loan " ++ name ++ " registered twice with different facts (analysis bug)"
  | .noNode n => "reference to nonexistent node " ++ n.name ++ " in subset graph (analysis bug)"
  | .intoLoan src dst =>
    "edge " ++ src.name ++ " -> " ++ dst.name ++ " targets a loan (analysis bug)"
  | .noRegionNamed name =>
    "reference to nonexistent region '" ++ name ++ "' in subset graph (analysis bug)"
  | .noLoanNamed name =>
    "reference to nonexistent loan '" ++ name ++ "' in subset graph (analysis bug)"
  | .noRegion r =>
    "reference to nonexistent region " ++ r.name ++ " in subset graph (analysis bug)"

namespace SubsetGraph

/-! ## Contents -/

/-- The nodes, in order. -/
def nodes (g : SubsetGraph) : SortedSet Node :=
  .ofList (g.regions.names.map .region ++ g.loans.names.map .loan)

/-- Is this a node of the graph? -/
def hasNode (g : SubsetGraph) : Node → Bool
  | .region name => g.regions.contains name
  | .loan name => g.loans.contains name

/-- The region of a name. -/
def regionNamed (g : SubsetGraph) (name : String) : Except GraphFault Region :=
  match g.regions.get? name with
  | some r => .ok r
  | none => .error (.noRegionNamed name)

/-- The loan of a name. -/
def loanNamed (g : SubsetGraph) (name : String) : Except GraphFault Loan :=
  match g.loans.get? name with
  | some l => .ok l
  | none => .error (.noLoanNamed name)

/-- Where an edge comes from, each origin once. -/
def origins (g : SubsetGraph) (e : Edge) : List (Option Point) :=
  (g.sources.filterMap fun s => if s.1 = e then some s.2 else none).eraseDups

/-! ## Building -/

/-- Keep a value under its name in a table.  Keeping it again changes nothing;
    another value of the name is refused. -/
def register {α : Type} [DecidableEq α] (g : SubsetGraph) (table : SubsetGraph → OrderedMap α)
    (update : SubsetGraph → OrderedMap α → SubsetGraph) (name : String) (value : α)
    (fault : GraphFault) : Except GraphFault SubsetGraph :=
  match (table g).get? name with
  | none => .ok (update g ((table g).insert name value))
  | some known => if known = value then .ok g else .error fault

/-- Add a region. -/
def addRegion (g : SubsetGraph) (r : Region) : Except GraphFault SubsetGraph :=
  g.register regions (fun g t => { g with regions := t }) r.name r (.regionConflict r.name)

/-- Add a loan. -/
def addLoan (g : SubsetGraph) (l : Loan) : Except GraphFault SubsetGraph :=
  g.register loans (fun g t => { g with loans := t }) l.name l (.loanConflict l.name)

/-- Add an edge between nodes of the graph that ends in a region.  Says also
    whether the edge is new; one that is not only gains an origin. -/
def addEdge (g : SubsetGraph) (src dst : Node) (origin : Option Point) :
    Except GraphFault (SubsetGraph × Bool) :=
  if !g.hasNode src then .error (.noNode src)
  else if !g.hasNode dst then .error (.noNode dst)
  else if dst.isLoan then .error (.intoLoan src dst)
  else
    let e : Edge := ⟨src, dst⟩
    .ok ({ g with edges := g.edges.insert e, sources := g.sources ++ [(e, origin)] },
      decide (e ∉ g.edges))

/-! ## Paths -/

/-- The nodes one edge on. -/
def nextTo (g : SubsetGraph) (n : Node) : List Node :=
  (g.edges.toList.filter fun e => e.src = n).map Edge.dst

/-- The nodes one edge back. -/
def previousTo (g : SubsetGraph) (n : Node) : List Node :=
  (g.edges.toList.filter fun e => e.dst = n).map Edge.src

/-- The nodes with a path from a node, itself included. -/
def nodesAfter (g : SubsetGraph) (n : Node) : SortedSet Node :=
  closure g.nextTo g.nodes.size (.single n)

/-- The nodes with a path to a node, itself included. -/
def nodesBefore (g : SubsetGraph) (n : Node) : SortedSet Node :=
  closure g.previousTo g.nodes.size (.single n)

/-- The loans with a path to a region. -/
def loansInto (g : SubsetGraph) (r : Region) : LoanSet :=
  let before := g.nodesBefore (.ofRegion r)
  .ofList (g.loans.values.filter fun l => Node.ofLoan l ∈ before)

/-! ## Checked questions -/

/-- The nodes with a path from a node of the graph. -/
def reachableFrom (g : SubsetGraph) (n : Node) : Except GraphFault (SortedSet Node) :=
  if g.hasNode n then .ok (g.nodesAfter n) else .error (.noNode n)

/-- The nodes with a path to a node of the graph. -/
def reaching (g : SubsetGraph) (n : Node) : Except GraphFault (SortedSet Node) :=
  if g.hasNode n then .ok (g.nodesBefore n) else .error (.noNode n)

/-- The loans with a path to a region of the graph. -/
def loansReaching (g : SubsetGraph) (r : Region) : Except GraphFault LoanSet :=
  if g.regions.get? r.name = some r then .ok (g.loansInto r) else .error (.noRegion r)

/-- Does this very loan have a path to a region of the graph? -/
def canReach (g : SubsetGraph) (l : Loan) (r : Region) : Except GraphFault Bool :=
  (g.loansReaching r).map fun loans => decide (l ∈ loans)

end SubsetGraph

end BorrowFlow
