import BorrowFlow.Body.Draft
import BorrowFlow.Ty.Relate

/-! # Building a body step by step

  A builder collects regions, variables and blocks, and derives the facts of
  each statement from its shape.  This module holds its state and the
  declarations; `BorrowFlow.Builder.Statement` holds the statements.

  A step either succeeds or fails with a `BuildError`, and in both cases leaves a
  builder behind that can go on: the region table keeps what a failing
  declaration had already put there, and a loan name once taken stays taken.
-/

namespace BorrowFlow

/-! ## Errors -/

/-- What is wrong with a step. -/
inductive BuildFault where
  | regionTwice (name : String)
  | unknownRegion (name : String)
  | variableTwice (name : String)
  | dropsElsewhere (region : Region) (var : String)
  | unknownVariable (name : String)
  | blockTwice (name : String)
  | unknownBlock (name : String)
  | noReference (dest : Place)
  | sharedReference (dest : Place)
  | shape (e : ShapeError)
  | afterTerminator (block : String)
  | terminatedTwice (block : String)
  | fewTargets
  | noBlocks (function : String)
  | noTerminator (block : String)
  | unknownTarget (block target : String)

/-- The wording of a fault. -/
def BuildFault.message : BuildFault → String
  | .regionTwice name => "region " ++ name ++ " declared both universal and local"
  | .unknownRegion name => "unknown region " ++ name
  | .variableTwice name => "variable '" ++ name ++ "' declared twice"
  | .dropsElsewhere r var =>
    "drops(" ++ r.name ++ ") names a region not in the type of '" ++ var ++ "'"
  | .unknownVariable name => "unknown variable '" ++ name ++ "'"
  | .blockTwice name => "block '" ++ name ++ "' defined twice"
  | .unknownBlock name => "unknown block '" ++ name ++ "'"
  | .noReference dest =>
    "borrow assigned into '" ++ dest.render ++ "', which is not a reference"
  | .sharedReference dest =>
    "mutable borrow assigned into shared reference '" ++ dest.render ++ "'"
  | .shape e => e.message
  | .afterTerminator block => "statement after terminator in block '" ++ block ++ "'"
  | .terminatedTwice block => "block '" ++ block ++ "' terminated twice"
  | .fewTargets => "branch needs at least two targets (use goto for one)"
  | .noBlocks function => "function '" ++ function ++ "' has no blocks"
  | .noTerminator block => "block '" ++ block ++ "' has no terminator"
  | .unknownTarget block target =>
    "block '" ++ block ++ "' jumps to unknown block '" ++ target ++ "'"

/-- A fault with the place in the source where it arose, if there is one. -/
structure BuildError where
  fault : BuildFault
  span : Option Span := none

/-! ## State -/

/-- A block under construction. -/
structure OpenBlock where
  name : String
  statements : List Statement := []
  terminator : Option Terminator := none
  deriving Inhabited

/-- The point that the next statement of a block will have. -/
def OpenBlock.nextPoint (blk : OpenBlock) : Point := ⟨blk.name, blk.statements.length⟩

/-- A body under construction. -/
structure Builder where
  name : String
  span : Span := {}
  regions : OrderedMap Region := ∅
  locals : OrderedMap Variable := ∅
  /-- The blocks in the order of their creation; the first is the entry. -/
  blocks : List OpenBlock := []
  bounds : List Obligation := []
  /-- How many loan names have been taken. -/
  loanCount : Nat := 0
  deriving Inhabited

/-- A step of a builder. -/
abbrev BuildM := ExceptT BuildError (StateM Builder)

namespace BuildM

/-- Perform a step: its answer, and the builder that it leaves behind. -/
def perform {α : Type} (step : BuildM α) (b : Builder) : Except BuildError α × Builder :=
  Id.run (StateT.run (ExceptT.run step) b)

/-- Ask the builder something that may fail, and blame `span` for it. -/
def derive {α : Type} (span : Option Span) (ask : Builder → Except BuildFault α) : BuildM α := do
  match ask (← get) with
  | .ok a => return a
  | .error fault => throw ⟨fault, span⟩

end BuildM

namespace Builder

/-- The name of the entry block: the first one created. -/
def entry? (b : Builder) : Option String := b.blocks.head?.map OpenBlock.name

/-- The block of a name. -/
def block? (b : Builder) (name : String) : Option OpenBlock :=
  b.blocks.find? fun blk => blk.name = name

/-- The region of a name. -/
def region? (b : Builder) (name : String) : Option Region := b.regions.get? name

/-- A region that should have been declared. -/
def regionNamed (b : Builder) (name : String) : Except BuildFault Region :=
  match b.region? name with
  | some r => .ok r
  | none => .error (.unknownRegion name)

/-- A variable that should have been declared. -/
def variableNamed (b : Builder) (name : String) : Except BuildFault Variable :=
  match b.locals.get? name with
  | some v => .ok v
  | none => .error (.unknownVariable name)

/-! ## Declarations -/

/-- Declare a region, or find it if it was declared the same way before. -/
def declareRegion (name : String) (universal : Bool) (span : Option Span := none) :
    BuildM Region := do
  let b ← get
  match b.region? name with
  | some r =>
    if r.universal = universal then return r
    else throw ⟨.regionTwice name, span⟩
  | none =>
    let r : Region := ⟨name, universal⟩
    set { b with regions := b.regions.insert name r }
    return r

/-- Take in a region that something mentions. -/
def adopt (span : Option Span) (r : Region) : BuildM Unit := do
  let b ← get
  match b.region? r.name with
  | some known => if known = r then return () else throw ⟨.regionTwice r.name, span⟩
  | none => set { b with regions := b.regions.insert r.name r }

/-- Declare a variable.  The regions of its type are taken in one by one; its
    `drops` may only name regions of its type. -/
def declare (name : String) (ty : Ty) (drops : Option (List Region)) (param : Bool)
    (span : Option Span := none) : BuildM Variable := do
  if (← get).locals.contains name then
    throw ⟨.variableTwice name, span⟩
  -- regions taken in here stay, even if the declaration fails
  ty.regions.forM (adopt span)
  match (drops.getD []).find? (· ∉ ty.regions) with
  | some r => throw ⟨.dropsElsewhere r name, span⟩
  | none =>
    let v : Variable := ⟨name, ty, drops, param⟩
    modify fun b => { b with locals := b.locals.insert name v }
    return v

/-- Add a bound of the signature, unless it was added before. -/
def bound (sub sup : Region) (span : Option Span := none) : BuildM Unit := do
  adopt span sub
  adopt span sup
  let o : Obligation := ⟨sub, sup, none⟩
  modify fun b => if o ∈ b.bounds then b else { b with bounds := b.bounds ++ [o] }

/-- Create a block.  The first one is the entry. -/
def openBlock (name : String) (span : Option Span := none) : BuildM Unit := do
  if ((← get).block? name).isSome then
    throw ⟨.blockTwice name, span⟩
  modify fun b => { b with blocks := b.blocks ++ [⟨name, [], none⟩] }

/-- Take the next loan name: `L0`, `L1`, and so on. -/
def nextLoanName : BuildM String := do
  let b ← get
  set { b with loanCount := b.loanCount + 1 }
  return "L" ++ toString b.loanCount

/-! ## Types of places -/

/-- The type at the end of a path, as far as types alone tell: dereferences of
    references can be followed, fields and elements cannot. -/
def follow : Ty → List Projection → Option Ty
  | t, [] => some t
  | .ref _ _ referent, .deref :: rest => follow referent rest
  | _, _ :: _ => none

/-- The type of a place, if types alone tell. -/
def placeType (b : Builder) (p : Place) : Except BuildFault (Option Ty) :=
  (b.variableNamed p.base).map fun v => follow v.ty p.path

end Builder

end BorrowFlow
