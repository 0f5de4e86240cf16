import BorrowFlow.Body.Basic
import BorrowFlow.OrderedMap

/-! # Drafts and their check

  A draft is a body as it is handed in: nothing of it has been checked.  The
  check turns it into a `Body` or names the first fault, in this order: the
  entry block, the region table, the variables, the bounds, then each block and
  each of its points in layout order.
-/

namespace BorrowFlow

/-- A block as handed in: any slot may stand anywhere. -/
structure DraftBlock where
  name : String
  statements : List Slot
  terminator : Slot
  deriving DecidableEq, Inhabited

/-- A body as handed in.  Each table is keyed by name. -/
structure Draft where
  name : String
  locals : OrderedMap Variable
  regions : OrderedMap Region
  blocks : OrderedMap DraftBlock
  entry : String
  bounds : List Obligation := []
  span : Span := {}
  deriving Inhabited

/-- What is wrong with a draft. -/
inductive DraftFault where
  | entryMissing (entry : String)
  | regionKey (key name : String)
  | variableRegion (var : String) (region : Region)
  | obligationRegion (o : Obligation) (region : Region)
  | blockKey (key name : String)
  | noTerminator (block : String)
  | unknownTarget (block target : String)
  | terminatorMisplaced (p : Point)
  | unknownVariable (var : String) (p : Point)
  | obligationMisplaced (o : Obligation) (p : Point)
  | loanMisplaced (loan : Loan) (p : Point)
  | loanRepeated (loan : Loan)
  | loanVariable (loan : Loan)
  | loanRegion (loan : Loan) (region : Region)
  deriving DecidableEq

/-- The wording of a fault of the draft called `body`. -/
def DraftFault.message (body : String) (fault : DraftFault) : String :=
  what fault ++ " in '" ++ body ++ "' (elaboration bug)"
where
  /-- The fault without its surroundings. -/
  what : DraftFault → String
    | .entryMissing entry => "entry block '" ++ entry ++ "' missing"
    | .regionKey key name => "region table key '" ++ key ++ "' != '" ++ name ++ "'"
    | .variableRegion var r => "variable '" ++ var ++ "' mentions undeclared region " ++ r.name
    | .obligationRegion o r =>
      "obligation " ++ o.render ++ " mentions undeclared region " ++ r.name
    | .blockKey key name => "block table key '" ++ key ++ "' != '" ++ name ++ "'"
    | .noTerminator block => "block '" ++ block ++ "' has no terminator"
    | .unknownTarget block target =>
      "block '" ++ block ++ "' jumps to unknown block '" ++ target ++ "'"
    | .terminatorMisplaced p => "terminator out of place at " ++ p.render
    | .unknownVariable var p => "unknown variable '" ++ var ++ "' at " ++ p.render
    | .obligationMisplaced o p => "obligation " ++ o.render ++ " recorded at " ++ p.render
    | .loanMisplaced l p =>
      "loan " ++ l.name ++ " claims point " ++ l.point.render ++ " but sits at " ++ p.render
    | .loanRepeated l => "loan " ++ l.name ++ " issued twice"
    | .loanVariable l =>
      "loan " ++ l.name ++ " borrows unknown variable '" ++ l.place.base ++ "'"
    | .loanRegion l r => "loan " ++ l.name ++ " flows into undeclared region " ++ r.name

/-- The variables a statement mentions outside its loan. -/
def Statement.mentions (s : Statement) : List String :=
  s.reads.toList ++ s.drops.toList ++ s.write.toList ++
    s.accesses.map (·.place.base) ++ s.assigned.toList.map Place.base

namespace Draft

/-- Fail with `fault` unless `ok` holds. -/
def require (ok : Bool) (fault : DraftFault) : Except DraftFault Unit :=
  if ok then .ok () else .error fault

/-- The variables, each by the name it is listed under. -/
def listed (d : Draft) : List Variable :=
  d.locals.entries.map fun e => { e.2 with name := e.1 }

/-- Is this very region in the table? -/
def declares (d : Draft) (r : Region) : Bool := decide (d.regions.get? r.name = some r)

/-- Both regions of an obligation are declared. -/
def checkObligation (d : Draft) (o : Obligation) : Except DraftFault Unit := do
  require (d.declares o.sub) (.obligationRegion o o.sub)
  require (d.declares o.sup) (.obligationRegion o o.sup)

/-- A variable mentions declared regions only, in its type and in its drops. -/
def checkVariable (d : Draft) (v : Variable) : Except DraftFault Unit :=
  (v.regions ++ v.drops.getD []).forM fun r =>
    require (d.declares r) (.variableRegion v.name r)

/-- A loan sits at its own point, is new, and mentions declared names only. -/
def checkLoan (d : Draft) (p : Point) (issued : List String) (issue : LoanIssue) :
    Except DraftFault Unit := do
  let loan := issue.loan
  require (decide (loan.point = p)) (.loanMisplaced loan p)
  require (!issued.contains loan.name) (.loanRepeated loan)
  require (d.locals.contains loan.place.base) (.loanVariable loan)
  issue.regions.forM fun r => require (d.declares r) (.loanRegion loan r)

/-- The facts at a point are in order.  `issued` holds the names of the loans
    issued so far; the answer adds the one issued here. -/
def checkStatement (d : Draft) (p : Point) (issued : List String) (s : Statement) :
    Except DraftFault (List String) := do
  s.mentions.forM fun var => require (d.locals.contains var) (.unknownVariable var p)
  -- an obligation in the wrong place is blamed before its regions are looked up
  s.obligations.forM fun o => do
    require (decide (o.point = some p)) (.obligationMisplaced o p)
    d.checkObligation o
  match s.loan with
  | some issue =>
    d.checkLoan p issued issue
    return issued ++ [issue.loan.name]
  | none => return issued

/-- Check the statements of a block from index `i` on; none may be a terminator. -/
def checkStatements (d : Draft) (block : String) (i : Nat) (issued : List String) :
    List Slot → Except DraftFault (List Statement × List String)
  | [] => .ok ([], issued)
  | .jump _ :: _ => .error (.terminatorMisplaced ⟨block, i⟩)
  | .plain s :: rest => do
    let issued ← d.checkStatement ⟨block, i⟩ issued s
    let (statements, issued) ← d.checkStatements block (i + 1) issued rest
    return (s :: statements, issued)

/-- Check a block under its key: its name, its terminator and the targets of
    it, then its points. -/
def checkBlock (d : Draft) (issued : List String) (key : String) (blk : DraftBlock) :
    Except DraftFault (Block × List String) := do
  require (decide (blk.name = key)) (.blockKey key blk.name)
  match blk.terminator with
  | .plain _ => .error (.noTerminator key)
  | .jump t => do
    -- the targets come before the points of the block
    t.targets.forM fun target => require (d.blocks.contains target) (.unknownTarget key target)
    let (statements, issued) ← d.checkStatements key 0 issued blk.statements
    let issued ← d.checkStatement ⟨key, statements.length⟩ issued t.toStatement
    return (⟨key, statements, t⟩, issued)

/-- Check the blocks in layout order. -/
def checkBlocks (d : Draft) (issued : List String) :
    List (String × DraftBlock) → Except DraftFault (List Block)
  | [] => .ok []
  | (key, blk) :: rest => do
    let (block, issued) ← d.checkBlock issued key blk
    let blocks ← d.checkBlocks issued rest
    return block :: blocks

/-- The body of a draft, or the first of its faults. -/
def check (d : Draft) : Except DraftFault Body := do
  require (d.blocks.contains d.entry) (.entryMissing d.entry)
  d.regions.entries.forM fun e => require (decide (e.2.name = e.1)) (.regionKey e.1 e.2.name)
  d.locals.values.forM d.checkVariable
  d.bounds.forM d.checkObligation
  -- the names of the loans are collected across all blocks
  let blocks ← d.checkBlocks [] d.blocks.entries
  return {
    name := d.name
    locals := d.listed
    regions := d.regions.values
    blocks := blocks
    entry := d.entry
    bounds := d.bounds
    span := d.span }

end Draft

end BorrowFlow
