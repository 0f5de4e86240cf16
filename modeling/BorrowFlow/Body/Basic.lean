import BorrowFlow.Body.Statement

/-! # Function bodies

  A body is a list of basic blocks in layout order, over typed variables and
  regions.  Each statement and each terminator occupies one point.

  - `Body.points` lists the points in layout order, `Body.slot?` what stands at
    one.
  - `Body.successors` and `Body.predecessors` give the control flow between
    points.
  - `Body.loans` and `Body.obligations` gather the facts of the whole body.
  - The lookups that end in a fault name what was not found.
-/

namespace BorrowFlow

/-- A basic block: statements, then one terminator. -/
structure Block where
  name : String
  statements : List Statement
  terminator : Terminator
  deriving DecidableEq, Inhabited

namespace Block

/-- The number of points of a block. -/
def size (b : Block) : Nat := b.statements.length + 1

/-- What stands at an index of a block: a statement, or after them the terminator. -/
def slot? (b : Block) (i : Nat) : Option Slot :=
  if i = b.statements.length then some (.jump b.terminator)
  else b.statements[i]?.map .plain

/-- The points of a block, in order. -/
def points (b : Block) : List Point := (List.range b.size).map fun (i : Nat) => ⟨b.name, i⟩

end Block

/-- The control-flow graph of one function. -/
structure Body where
  name : String
  locals : List Variable
  regions : List Region
  /-- The blocks in layout order. -/
  blocks : List Block
  /-- The name of the block where control enters. -/
  entry : String
  /-- Obligations of the signature, which hold at no particular point. -/
  bounds : List Obligation := []
  span : Span := {}
  /-- Tells bodies apart that are handled side by side, however alike they are. -/
  serial : Nat := 0
  deriving Inhabited

/-- A reference to something that a body does not have. -/
inductive LookupFault where
  | point (p : Point)
  | loan (name : String)
  | region (name : String)
  deriving DecidableEq

/-- The wording of a failed lookup in the body called `body`. -/
def LookupFault.message (body : String) : LookupFault → String
  | .point p =>
    "reference to nonexistent point " ++ p.render ++ " in '" ++ body ++ "' (analysis bug)"
  | .loan name =>
    "reference to nonexistent loan '" ++ name ++ "' in '" ++ body ++ "' (analysis bug)"
  | .region name =>
    "reference to nonexistent region '" ++ name ++ "' in '" ++ body ++ "' (analysis bug)"

namespace Body

/-! ## Contents -/

/-- The block of a name. -/
def block? (b : Body) (name : String) : Option Block :=
  b.blocks.find? fun blk => blk.name = name

/-- The variable of a name. -/
def var? (b : Body) (name : String) : Option Variable :=
  b.locals.find? fun v => v.name = name

/-- The region of a name. -/
def region? (b : Body) (name : String) : Option Region :=
  b.regions.find? fun r => r.name = name

/-- All points, in layout order. -/
def points (b : Body) : List Point := b.blocks.flatMap Block.points

/-- What stands at a point. -/
def slot? (b : Body) (p : Point) : Option Slot :=
  if p.index < 0 then none
  else (b.block? p.block).bind fun blk => blk.slot? p.index.toNat

/-- The facts at a point; a point outside the body has none. -/
def facts (b : Body) (p : Point) : Statement :=
  ((b.slot? p).map Slot.statement).getD { kind := "" }

/-- Where control enters. -/
def entryPoint (b : Body) : Point := ⟨b.entry, 0⟩

/-- The loans, in the layout order of their points. -/
def loans (b : Body) : List Loan :=
  b.points.filterMap fun p => (b.facts p).loan.map LoanIssue.loan

/-- The loan of a name. -/
def loan? (b : Body) (name : String) : Option Loan :=
  b.loans.find? fun l => l.name = name

/-- The regions that come from outside. -/
def universalRegions (b : Body) : List Region := b.regions.filter Region.universal

/-- The bounds of the signature, then the obligations of each point. -/
def obligations (b : Body) : List Obligation :=
  b.bounds ++ b.points.flatMap fun p => (b.facts p).obligations

/-! ## Control flow -/

/-- The points control may go to next.  A statement goes on to the next slot, a
    terminator to the first slot of each target, each target once. -/
def successors (b : Body) (p : Point) : List Point :=
  match b.slot? p with
  | some (.plain _) => [{ p with index := p.index + 1 }]
  | some (.jump t) => (t.targets.map fun name => (⟨name, 0⟩ : Point)).eraseDups
  | none => []

/-- Every point with its successors, in layout order. -/
def flow (b : Body) : List (Point × List Point) := b.points.map fun p => (p, b.successors p)

/-- The points of a flow that have `p` among their successors. -/
def sourcesIn (flow : List (Point × List Point)) (p : Point) : List Point :=
  (flow.filter fun e => p ∈ e.2).map Prod.fst

/-- The points control may come from, in layout order. -/
def predecessors (b : Body) (p : Point) : List Point := sourcesIn b.flow p

/-! ## Checked lookups -/

/-- What stands at a point that should be there. -/
def slotAt (b : Body) (p : Point) : Except LookupFault Slot :=
  match b.slot? p with
  | some s => .ok s
  | none => .error (.point p)

/-- The successors of a point that should be there. -/
def successorsOf (b : Body) (p : Point) : Except LookupFault (List Point) :=
  (b.slotAt p).map fun _ => b.successors p

/-- The predecessors of a point that should be there. -/
def predecessorsOf (b : Body) (p : Point) : Except LookupFault (List Point) :=
  (b.slotAt p).map fun _ => b.predecessors p

/-- A loan that should be there. -/
def loanNamed (b : Body) (name : String) : Except LookupFault Loan :=
  match b.loan? name with
  | some l => .ok l
  | none => .error (.loan name)

/-- A region that should be there. -/
def regionNamed (b : Body) (name : String) : Except LookupFault Region :=
  match b.region? name with
  | some r => .ok r
  | none => .error (.region name)

end Body

end BorrowFlow
