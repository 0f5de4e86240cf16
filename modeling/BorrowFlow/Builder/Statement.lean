import BorrowFlow.Builder.Basic

/-! # Statements of a body under construction

  Each statement is described by its shape: a borrow, an assignment, a call, a
  drop.  The builder derives its facts:

  - what has to be read just to find a place (`Builder.lvalueFacts`),
  - what an operand reads or moves (`Builder.operandFacts`),
  - what an assignment overwrites (`Builder.destFacts`),
  - which region obligations the types involved create.

  `Builder.finish` checks the finished draft.
-/

namespace BorrowFlow

/-- A value that a statement uses. -/
inductive Operand where
  | const
  | copy (p : Place)
  | move (p : Place)
  deriving DecidableEq, Inhabited

namespace Operand

/-- The place an operand takes its value from. -/
def place? : Operand → Option Place
  | .const => none
  | .copy p => some p
  | .move p => some p

/-- The operand as a source text writes it. -/
def render : Operand → String
  | .const => "const"
  | .copy p => "copy " ++ p.render
  | .move p => "move " ++ p.render

end Operand

/-- Variables read and places accessed, in order. -/
structure Facts where
  reads : List String := []
  accesses : List Access := []

namespace Facts

/-- The facts of two parts of a statement, one after the other. -/
def append (f g : Facts) : Facts := ⟨f.reads ++ g.reads, f.accesses ++ g.accesses⟩

instance : Append Facts := ⟨append⟩

end Facts

namespace Builder

/-! ## Facts of the parts -/

/-- What it takes to find a place: each dereferenced place and each variable
    index along its path is read. -/
def lvalueFacts (b : Builder) (p : Place) : Except BuildFault Facts := do
  let _ ← b.variableNamed p.base
  p.indexVars.forM fun name => (b.variableNamed name).map fun _ => ()
  let bases := p.derefBases
  return {
    reads := bases.map Place.base ++ p.indexVars
    accesses := bases.map (⟨·, .read, false⟩) ++
      p.indexVars.map fun name => ⟨.ofLocal name, .read, false⟩ }

/-- What an operand reads or moves. -/
def operandFacts (b : Builder) : Operand → Except BuildFault Facts
  | .const => .ok {}
  | .copy p => do
    let f ← b.lvalueFacts p
    return f ++ ⟨[p.base], [⟨p, .read, false⟩]⟩
  | .move p => do
    let f ← b.lvalueFacts p
    return f ++ ⟨[p.base], [⟨p, .move, false⟩]⟩

/-- What a list of operands reads or moves. -/
def operandsFacts (b : Builder) : List Operand → Except BuildFault Facts
  | [] => .ok {}
  | op :: ops => do
    let f ← b.operandFacts op
    let g ← b.operandsFacts ops
    return f ++ g

/-- What an assignment to a place reads and overwrites. -/
def destFacts (b : Builder) (dest : Place) : Except BuildFault Facts := do
  let f ← b.lvalueFacts dest
  return f ++ ⟨[], [⟨dest, .write, true⟩]⟩

/-- Only an assignment to a whole local ends its liveness. -/
def wholeLocal? (dest : Place) : Option String :=
  if dest.isLocal then some dest.base else none

/-- Region edges between two types. -/
def relate (src dst : Ty) : Except BuildFault (List RegionEdge) :=
  match src.relate dst with
  | .ok edges => .ok edges
  | .error e => .error (.shape e)

/-- The obligations of a list of region edges at a point, each once. -/
def obligationsAt (p : Point) (edges : List RegionEdge) : List Obligation :=
  (edges.map fun e => (⟨e.1, e.2, some p⟩ : Obligation)).eraseDups

/-! ## Statements -/

/-- The point of the next statement of a block. -/
def nextPoint (b : Builder) (block : String) : Point :=
  match b.block? block with
  | some blk => blk.nextPoint
  | none => ⟨block, 0⟩

/-- Change the block of a name. -/
def updateBlock (b : Builder) (name : String) (f : OpenBlock → OpenBlock) : Builder :=
  { b with blocks := b.blocks.map fun blk => if blk.name = name then f blk else blk }

/-- Append a statement to a block that has no terminator yet. -/
def push (block : String) (span : Option Span) (s : Statement) : BuildM Unit := do
  match (← get).block? block with
  | none => throw ⟨.unknownBlock block, span⟩
  | some blk =>
    if blk.terminator.isSome then throw ⟨.afterTerminator block, span⟩
    modify fun b => b.updateBlock block fun blk =>
      { blk with statements := blk.statements ++ [s] }

/-- Derive a statement and append it. -/
def append (block : String) (span : Option Span)
    (derive : Builder → Except BuildFault Statement) : BuildM Statement := do
  let s ← BuildM.derive span derive
  push block span s
  return s

/-- The reference type that a borrow is assigned into: its region and referent. -/
def borrowTarget (b : Builder) (dest : Place) (mutable : Bool) :
    Except BuildFault (Region × Ty) := do
  match ← b.placeType dest with
  | some (.ref r m referent) =>
    if mutable && !m then .error (.sharedReference dest) else .ok (r, referent)
  | _ => .error (.noReference dest)

/-- Reborrowing through a reference keeps the loans behind it: its region flows
    into the region of the new reference. -/
def reborrowEdges (b : Builder) (target : Region) :
    List Place → Except BuildFault (List RegionEdge)
  | [] => .ok []
  | base :: rest => do
    let ty ← b.placeType base
    let edges ← b.reborrowEdges target rest
    match ty with
    | some (.ref r _ _) => return (r, target) :: edges
    | _ => return edges

/-- What the types of a borrowed place and of the referent require.  Behind a
    mutable reference they have to agree both ways. -/
def borrowEdges (b : Builder) (place : Place) (referent : Ty) (mutable : Bool) :
    Except BuildFault (List RegionEdge) := do
  match ← b.placeType place with
  | none => return []
  | some borrowed =>
    let forward ← relate borrowed referent
    if mutable then
      let backward ← relate referent borrowed
      return forward ++ backward
    else return forward

/-- The statement of a borrow. -/
def borrowStatement (b : Builder) (loan : Loan) (dest : Place) (target : Region) (referent : Ty)
    (span : Option Span) : Except BuildFault Statement := do
  let place := loan.place
  let mutable := loan.isMutable
  let through ← b.reborrowEdges target place.derefBases
  let between ← b.borrowEdges place referent mutable
  let found ← b.lvalueFacts place
  let stored ← b.destFacts dest
  let facts := found ++
    ⟨[], [⟨place, if mutable then .write else .read, false⟩]⟩ ++ stored
  return {
    kind := "borrow"
    reads := .ofList facts.reads
    write := wholeLocal? dest
    accesses := facts.accesses
    loan := some ⟨loan, [target]⟩
    obligations := obligationsAt loan.point (through ++ between)
    assigned := some dest
    text := dest.render ++ " = " ++ (if mutable then "&mut " else "&") ++ place.render
    span := span.getD {} }

/-- `dest = &place` or `dest = &mut place`: issue a loan that flows into the
    region of `dest`.  The loan's name is taken as soon as `dest` is known to be
    a fitting reference, whether or not the rest succeeds. -/
def borrow (block : String) (dest place : Place) (mutable : Bool)
    (span : Option Span := none) : BuildM Loan := do
  let (target, referent) ← BuildM.derive span fun b => b.borrowTarget dest mutable
  -- from here on the name is used up
  let name ← nextLoanName
  let point := (← get).nextPoint block
  let loan : Loan := ⟨name, point, place, if mutable then .mutable else .shared⟩
  let _ ← append block span fun b => b.borrowStatement loan dest target referent span
  return loan

/-- What the types of an assigned operand and of its destination require. -/
def assignEdges (b : Builder) (dest : Place) (src : Operand) :
    Except BuildFault (List RegionEdge) := do
  match src.place? with
  | none => return []
  | some place =>
    let srcTy ← b.placeType place
    let destTy ← b.placeType dest
    match srcTy, destTy with
    | some s, some d => relate s d
    | _, _ => return []

/-- `dest = operand`. -/
def assign (block : String) (dest : Place) (src : Operand) (span : Option Span := none) :
    BuildM Statement :=
  append block span fun b => do
    let used ← b.operandFacts src
    let edges ← b.assignEdges dest src
    let stored ← b.destFacts dest
    let facts := used ++ stored
    return {
      kind := "assign"
      reads := .ofList facts.reads
      write := wholeLocal? dest
      accesses := facts.accesses
      obligations := obligationsAt (b.nextPoint block) edges
      assigned := some dest
      text := dest.render ++ " = " ++ src.render
      span := span.getD {} }

/-- `dest = call func(operands)`; `bounds` are those of the callee's signature. -/
def call (block : String) (dest : Place) (func : String) (operands : List Operand)
    (bounds : List RegionEdge) (span : Option Span := none) : BuildM Statement :=
  append block span fun b => do
    let used ← b.operandsFacts operands
    let stored ← b.destFacts dest
    -- the names have to be known; whether the regions agree is left to the final check
    bounds.forM fun e => do
      let _ ← b.regionNamed e.1.name
      let _ ← b.regionNamed e.2.name
    let facts := used ++ stored
    return {
      kind := "call"
      reads := .ofList facts.reads
      write := wholeLocal? dest
      accesses := facts.accesses
      obligations := obligationsAt (b.nextPoint block) bounds
      assigned := some dest
      text := dest.render ++ " = call " ++ func ++
        "(" ++ ", ".intercalate (operands.map Operand.render) ++ ")"
      span := span.getD {} }

/-- Use operands and store nothing. -/
def use (block : String) (operands : List Operand) (span : Option Span := none) :
    BuildM Statement :=
  append block span fun b => do
    let facts ← b.operandsFacts operands
    return {
      kind := "use"
      reads := .ofList facts.reads
      accesses := facts.accesses
      text := "use(" ++ ", ".intercalate (operands.map Operand.render) ++ ")"
      span := span.getD {} }

/-- Drop a variable at the end of its scope.  A destructor, if there is one,
    writes to the variable. -/
def drop (block : String) (var : String) (span : Option Span := none) : BuildM Statement :=
  append block span fun b => do
    let v ← b.variableNamed var
    return {
      kind := "drop"
      drops := .single var
      accesses := if v.ty.hasDropGlue then [⟨.ofLocal var, .write, false⟩] else []
      text := "drop(" ++ var ++ ")"
      span := span.getD {} }

/-- The storage of a variable ends. -/
def storageDead (block : String) (var : String) (span : Option Span := none) :
    BuildM Statement :=
  append block span fun b => do
    let _ ← b.variableNamed var
    return {
      kind := "storage_dead"
      write := some var
      accesses := [⟨.ofLocal var, .storageDead, true⟩]
      assigned := some (.ofLocal var)
      text := "storage_dead(" ++ var ++ ")"
      span := span.getD {} }

/-- `sub: sup`, required from here on. -/
def outlives (block : String) (sub sup : Region) (span : Option Span := none) :
    BuildM Statement :=
  append block span fun b => do
    let _ ← b.regionNamed sub.name
    let _ ← b.regionNamed sup.name
    return {
      kind := "outlives"
      obligations := obligationsAt (b.nextPoint block) [(sub, sup)]
      text := sub.name ++ ": " ++ sup.name
      span := span.getD {} }

/-- Do nothing. -/
def nop (block : String) (span : Option Span := none) : BuildM Statement :=
  append block span fun _ => .ok { kind := "nop", text := "nop", span := span.getD {} }

/-! ## Terminators -/

/-- Derive a terminator and end a block with it. -/
def terminate (block : String) (span : Option Span)
    (derive : Builder → Except BuildFault Terminator) : BuildM Terminator := do
  let t ← BuildM.derive span derive
  match (← get).block? block with
  | none => throw ⟨.unknownBlock block, span⟩
  | some blk =>
    if blk.terminator.isSome then throw ⟨.terminatedTwice block, span⟩
    modify fun b => b.updateBlock block fun blk => { blk with terminator := some t }
    return t

/-- Go to another block. -/
def goto (block target : String) (span : Option Span := none) : BuildM Terminator :=
  terminate block span fun _ => .ok {
    kind := "goto"
    targets := [target]
    text := "goto " ++ target
    span := span.getD {} }

/-- Go to one of several blocks, perhaps after a look at an operand. -/
def branch (block : String) (targets : List String) (cond : Option Operand)
    (span : Option Span := none) : BuildM Terminator :=
  terminate block span fun b => do
    let facts ← b.operandsFacts cond.toList
    let shown := match cond with
      | some op => " " ++ op.render
      | none => ""
    return {
      kind := "branch"
      reads := .ofList facts.reads
      accesses := facts.accesses
      targets := targets
      text := "branch" ++ shown ++ " -> " ++ ", ".intercalate targets
      span := span.getD {} }

/-- Leave the function. -/
def ret (block : String) (span : Option Span := none) : BuildM Terminator :=
  terminate block span fun _ => .ok { kind := "return", text := "return", span := span.getD {} }

/-- Control never gets here. -/
def unreachable (block : String) (span : Option Span := none) : BuildM Terminator :=
  terminate block span fun _ =>
    .ok { kind := "unreachable", text := "unreachable", span := span.getD {} }

/-! ## Finishing -/

/-- Why there is no finished body. -/
inductive FinishError where
  /-- A step is missing or wrong. -/
  | build (e : BuildError)
  /-- The draft does not pass its check. -/
  | draft (f : DraftFault)

/-- A block that is complete: it has a terminator, which jumps to known blocks. -/
def finishBlock (b : Builder) (blk : OpenBlock) : Except BuildError (String × DraftBlock) := do
  match blk.terminator with
  | none => .error { fault := .noTerminator blk.name }
  | some t =>
    match t.targets.find? fun target => (b.block? target).isNone with
    | some target => .error ⟨.unknownTarget blk.name target, some t.span⟩
    | none => .ok (blk.name, ⟨blk.name, blk.statements.map .plain, .jump t⟩)

/-- The draft of what has been built so far. -/
def draft (b : Builder) : Except BuildError Draft := do
  match b.entry? with
  | none => .error ⟨.noBlocks b.name, some b.span⟩
  | some entry =>
    let blocks ← b.blocks.mapM b.finishBlock
    return {
      name := b.name
      locals := b.locals
      regions := b.regions
      blocks := .ofList blocks
      entry := entry
      bounds := b.bounds
      span := b.span }

/-- The body that has been built; the builder can go on. -/
def finish (b : Builder) : Except FinishError Body :=
  match b.draft with
  | .error e => .error (.build e)
  | .ok d =>
    match d.check with
    | .error f => .error (.draft f)
    | .ok body => .ok body

end Builder

end BorrowFlow
