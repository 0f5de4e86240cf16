import BorrowFlow.Source.Tree

/-! # From syntax trees to bodies

  Elaboration replays a function on a builder: first the parameters and the
  bounds of the signature, then all declarations, then the blocks, so that a
  declaration may follow the blocks that use it.

  Regions of the signature are universal, and so is `'static`.  Any other region
  is local and comes into being where a declared type first names it; elsewhere
  a region has to be known.
-/

namespace BorrowFlow.Source

/-- The span of an extent in a file. -/
def Extent.span (file : Option String) (e : Extent) : Span :=
  .ofLocation (.position {
    line := some e.start.line
    column := some e.start.column
    endLine := some e.stop.line
    endColumn := some e.stop.column }) file

variable (file : Option String)

/-! ## Regions and types -/

/-- The region of a name in a type or in the signature's bounds, declared if it
    is new. -/
def resolveRegion (universal : Bool) (r : RegionName) : BuildM Region := do
  let span := some (r.extent.span file)
  if r.name = Region.static.name then Builder.declareRegion r.name true span
  else
    match (← get).region? r.name with
    | some known => return known
    | none => Builder.declareRegion r.name universal span

/-- The region of a name that has to be known. -/
def knownRegion (r : RegionName) : BuildM Region :=
  BuildM.derive (some (r.extent.span file)) fun b => b.regionNamed r.name

/-- A named type is an aggregate if it has arguments or a capital initial. -/
def namedType (name : String) (args : List Ty) : Ty :=
  if !args.isEmpty || (name.toList.head?.map Char.isUpper).getD false then .adt name args
  else .scalar name

mutual

/-- The type that an expression denotes. -/
def resolveType (universal : Bool) : TypeExpr → BuildM Ty
  | .region r => return .region (← resolveRegion file universal r)
  | .ref r mutable referent => do
    let r ← resolveRegion file universal r
    let t ← resolveType universal referent
    return .ref r mutable t
  | .named name args => do
    let args ← resolveTypes universal args
    return namedType name args

/-- The types that the arguments of a named type denote. -/
def resolveTypes (universal : Bool) : List TypeExpr → BuildM (List Ty)
  | [] => return []
  | t :: ts => do
    let ty ← resolveType universal t
    let tys ← resolveTypes universal ts
    return ty :: tys

end

/-- The regions of a bound of the signature. -/
def signatureBound (b : BoundExpr) : BuildM RegionEdge := do
  let sub ← resolveRegion file true b.sub
  let sup ← resolveRegion file true b.sup
  return (sub, sup)

/-- The regions of a bound inside the body. -/
def knownBound (b : BoundExpr) : BuildM RegionEdge := do
  let sub ← knownRegion file b.sub
  let sup ← knownRegion file b.sup
  return (sub, sup)

/-! ## Declarations and blocks -/

/-- Declare a parameter. -/
def elaborateParam (p : ParamDecl) : BuildM Unit := do
  let ty ← resolveType file true p.ty
  let _ ← Builder.declare p.name ty none true (some (p.extent.span file))

/-- Declare a local. -/
def elaborateLet (d : LetDecl) : BuildM Unit := do
  let ty ← resolveType file false d.ty
  let drops ← match d.drops with
    | some names => some <$> names.mapM (knownRegion file)
    | none => pure none
  let _ ← Builder.declare d.name ty drops false (some (d.extent.span file))

/-- Append a statement to a block. -/
def elaborateStatement (block : String) (s : StatementExpr) : BuildM Unit := do
  let span := some (s.extent.span file)
  match s.shape with
  | .borrow dest mutable place =>
    let _ ← Builder.borrow block dest place mutable span
  | .assign dest src =>
    let _ ← Builder.assign block dest src span
  | .call dest func operands bounds =>
    -- an unknown region is found before an unknown variable
    let edges ← bounds.mapM (knownBound file)
    let _ ← Builder.call block dest func operands edges span
  | .use operands =>
    let _ ← Builder.use block operands span
  | .drop var =>
    let _ ← Builder.drop block var span
  | .storageDead var =>
    let _ ← Builder.storageDead block var span
  | .outlives bound =>
    let (sub, sup) ← knownBound file bound
    let _ ← Builder.outlives block sub sup span
  | .nop =>
    let _ ← Builder.nop block span

/-- End a block.  A branch has at least two targets. -/
def elaborateTerminator (block : String) (t : TerminatorExpr) : BuildM Unit := do
  let span := some (t.extent.span file)
  match t.shape with
  | .goto target =>
    let _ ← Builder.goto block target span
  | .branch cond targets =>
    if targets.length < 2 then throw ⟨.fewTargets, span⟩
    let _ ← Builder.branch block targets cond span
  | .ret =>
    let _ ← Builder.ret block span
  | .unreachable =>
    let _ ← Builder.unreachable block span

/-- Add a block with its statements and its terminator. -/
def elaborateBlock (b : BlockDecl) : BuildM Unit := do
  Builder.openBlock b.name (some (b.nameExtent.span file))
  b.statements.forM (elaborateStatement file b.name)
  elaborateTerminator file b.name b.terminator

/-! ## Functions -/

/-- Replay what a function says before its blocks. -/
def elaborateHeader (f : FunctionDecl) : BuildM Unit := do
  f.params.forM (elaborateParam file)
  -- all regions of the bounds are known before the first bound is added
  let edges ← f.bounds.mapM (signatureBound file)
  edges.forM fun e => Builder.bound e.1 e.2 (some (f.boundsExtent.span file))
  f.declarations.forM (elaborateLet file)

/-- Replay a function on a builder. -/
def elaborateFunction (f : FunctionDecl) : BuildM Unit := do
  elaborateHeader file f
  f.blocks.forM (elaborateBlock file)

/-- The builder that a function starts with. -/
def FunctionDecl.start (f : FunctionDecl) : Builder :=
  { name := f.name, span := f.extent.span file }

/-- Why a syntax tree has no bodies. -/
inductive ElaborationFault where
  | build (e : BuildError)
  | draft (body : String) (f : DraftFault)
  | functionTwice (name : String) (first second : Span)

/-- The body of a function. -/
def FunctionDecl.body (f : FunctionDecl) : Except ElaborationFault Body :=
  let (answer, b) := (elaborateFunction file f).perform (f.start file)
  match answer with
  | .error e => .error (.build e)
  | .ok () =>
    match b.finish with
    | .ok body => .ok body
    | .error (.build e) => .error (.build e)
    | .error (.draft fault) => .error (.draft f.name fault)

/-- The bodies of functions of different names; `earlier` holds those before. -/
def bodiesAfter (earlier : List Body) : List FunctionDecl → Except ElaborationFault (List Body)
  | [] => .ok earlier
  | f :: fs => do
    -- a function has to be right by itself before its name is looked at
    let body ← f.body file
    match earlier.find? fun b => b.name = body.name with
    | some first => .error (.functionTwice body.name first.span body.span)
    | none => bodiesAfter (earlier ++ [body]) fs

/-- The bodies of a program, in order. -/
def bodies (program : List FunctionDecl) : Except ElaborationFault (List Body) :=
  bodiesAfter file [] program

end BorrowFlow.Source
