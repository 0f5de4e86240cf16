import BorrowFlow.Builder.Statement
import BorrowFlow.Source.Token

/-! # Syntax trees

  A source file as it is written: functions with their parameters, bounds,
  declarations and blocks.  Names are not resolved yet; what an error may have to
  point at knows its extent.
-/

namespace BorrowFlow.Source

/-- A region as it is named in the text. -/
structure RegionName where
  name : String
  extent : Extent
  deriving DecidableEq, Inhabited

/-- A type as it is written. -/
inductive TypeExpr where
  /-- A region as an argument. -/
  | region (r : RegionName)
  /-- `&'r T` or `&'r mut T`. -/
  | ref (r : RegionName) (mutable : Bool) (referent : TypeExpr)
  /-- A name, perhaps with arguments. -/
  | named (name : String) (args : List TypeExpr)
  deriving Inhabited

/-- `'a: 'b`. -/
structure BoundExpr where
  sub : RegionName
  sup : RegionName
  deriving DecidableEq, Inhabited

/-- A parameter. -/
structure ParamDecl where
  name : String
  ty : TypeExpr
  extent : Extent
  deriving Inhabited

/-- The declaration of a local. -/
structure LetDecl where
  name : String
  ty : TypeExpr
  /-- The regions of its `drops` clause, if it has one. -/
  drops : Option (List RegionName)
  extent : Extent
  deriving Inhabited

/-- What a statement does. -/
inductive StatementShape where
  | borrow (dest : Place) (mutable : Bool) (place : Place)
  | assign (dest : Place) (src : Operand)
  | call (dest : Place) (func : String) (operands : List Operand) (bounds : List BoundExpr)
  | use (operands : List Operand)
  | drop (var : String)
  | storageDead (var : String)
  | outlives (bound : BoundExpr)
  | nop
  deriving DecidableEq, Inhabited

/-- A statement. -/
structure StatementExpr where
  shape : StatementShape
  extent : Extent
  deriving DecidableEq, Inhabited

/-- How a block ends. -/
inductive TerminatorShape where
  | goto (target : String)
  | branch (cond : Option Operand) (targets : List String)
  | ret
  | unreachable
  deriving DecidableEq, Inhabited

/-- A terminator. -/
structure TerminatorExpr where
  shape : TerminatorShape
  extent : Extent
  deriving DecidableEq, Inhabited

/-- A block. -/
structure BlockDecl where
  name : String
  /-- Where the name stands. -/
  nameExtent : Extent
  statements : List StatementExpr
  terminator : TerminatorExpr
  deriving DecidableEq, Inhabited

/-- What may stand in a function. -/
inductive Item where
  | declaration (d : LetDecl)
  | block (b : BlockDecl)
  deriving Inhabited

/-- A function. -/
structure FunctionDecl where
  name : String
  params : List ParamDecl
  bounds : List BoundExpr
  /-- Where the clause of bounds stands, if there is one. -/
  boundsExtent : Extent
  items : List Item
  extent : Extent
  deriving Inhabited

namespace FunctionDecl

/-- The declarations of a function, in order. -/
def declarations (f : FunctionDecl) : List LetDecl :=
  f.items.filterMap fun
    | .declaration d => some d
    | .block _ => none

/-- The blocks of a function, in order. -/
def blocks (f : FunctionDecl) : List BlockDecl :=
  f.items.filterMap fun
    | .declaration _ => none
    | .block b => some b

end FunctionDecl

end BorrowFlow.Source
