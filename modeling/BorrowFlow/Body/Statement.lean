import BorrowFlow.Place.Basic
import BorrowFlow.Point
import BorrowFlow.Span
import BorrowFlow.Ty.Basic

/-! # Statements and the facts they carry

  A statement carries what the analyses ask of it: the variables it reads,
  writes and drops, the places it accesses, the loan it issues, the region
  obligations it creates and the place it overwrites.

  - `Loan`: one borrow of a place, issued at one point.
  - `Obligation`: every loan in one region has to be in another.
  - `Variable.dropRegions`: the regions that dropping a variable keeps live.
-/

namespace BorrowFlow

open Std (TransOrd LawfulEqOrd)

/-- Names of variables, regions or loans. -/
abbrev NameSet := SortedSet String

/-- How a point touches a place. -/
inductive AccessKind where
  | read
  /-- An assignment or a mutable borrow; needs the place for itself. -/
  | write
  | move
  /-- The storage of the local goes away. -/
  | storageDead
  deriving DecidableEq, Inhabited

/-- One access to memory.  A shallow one disturbs the place itself and nothing
    behind a dereference of it. -/
structure Access where
  place : Place
  kind : AccessKind
  shallow : Bool := false
  deriving DecidableEq, Inhabited

/-- A shared or a mutable borrow. -/
inductive LoanKind where
  | shared
  | mutable
  deriving DecidableEq, Inhabited

/-- Is the borrow mutable? -/
def LoanKind.isMutable : LoanKind → Bool
  | .shared => false
  | .mutable => true

/-- One borrow: issued at `point`, of `place`. -/
structure Loan where
  name : String
  point : Point
  place : Place
  kind : LoanKind
  deriving DecidableEq, Inhabited

namespace Loan

/-- Is the borrow mutable? -/
def isMutable (l : Loan) : Bool := l.kind.isMutable

instance : Ord Loan :=
  ⟨compareLex (compareOn Loan.name) (compareLex (compareOn Loan.point)
    (compareLex (compareOn Loan.place) (compareOn Loan.isMutable)))⟩

instance : TransOrd Loan :=
  inferInstanceAs (Std.TransCmp (compareLex (compareOn Loan.name)
    (compareLex (compareOn Loan.point)
      (compareLex (compareOn Loan.place) (compareOn Loan.isMutable)))))

instance : LawfulEqOrd Loan where
  eq_of_compare {a b} h := by
    obtain ⟨hname, h⟩ := key_eq_of_compareLex h
    obtain ⟨hpoint, h⟩ := key_eq_of_compareLex h
    obtain ⟨hplace, h⟩ := key_eq_of_compareLex h
    have hkind := key_eq_of_compareOn h
    obtain ⟨_, _, _, ka⟩ := a
    obtain ⟨_, _, _, kb⟩ := b
    cases hname
    cases hpoint
    cases hplace
    cases ka <;> cases kb <;> first | rfl | cases hkind

end Loan

/-- Loans, listed by name. -/
abbrev LoanSet := SortedSet Loan

/-- A loan with the regions it is assigned into. -/
structure LoanIssue where
  loan : Loan
  regions : List Region
  deriving DecidableEq, Inhabited

/-- `sub: sup`: every loan that reaches `sub` has to reach `sup`.  It arises at
    `point`; a bound of the signature has none. -/
structure Obligation where
  sub : Region
  sup : Region
  point : Option Point := none
  deriving DecidableEq, Inhabited

/-- `'a: 'b`, followed by `@ point` if there is one. -/
def Obligation.render (o : Obligation) : String :=
  let origin := match o.point with
    | some p => " @ " ++ p.render
    | none => ""
  o.sub.name ++ ": " ++ o.sup.name ++ origin

/-- A local variable with its type.  `drops` narrows the regions that its
    destructor may touch. -/
structure Variable where
  name : String
  ty : Ty
  drops : Option (List Region) := none
  param : Bool := false
  deriving DecidableEq, Inhabited

namespace Variable

/-- The regions of the variable's type. -/
def regions (v : Variable) : List Region := v.ty.regions

/-- The regions that dropping the variable keeps live.  Without precision these
    are all regions of its type; with it, the declared ones, and otherwise all
    of them only if the type has a destructor. -/
def dropRegions (v : Variable) (precise : Bool) : List Region :=
  if precise then
    match v.drops with
    | some rs => rs
    | none => if v.ty.hasDropGlue then v.regions else []
  else v.regions

end Variable

/-- A statement with the facts that it contributes at its point. -/
structure Statement where
  /-- What the statement is, such as `borrow` or `drop`. -/
  kind : String
  /-- The variables it reads. -/
  reads : NameSet := ∅
  /-- The variable it overwrites as a whole. -/
  write : Option String := none
  /-- The variables it drops. -/
  drops : NameSet := ∅
  accesses : List Access := []
  loan : Option LoanIssue := none
  obligations : List Obligation := []
  /-- The place it overwrites, which ends the loans that go through it. -/
  assigned : Option Place := none
  text : String := ""
  span : Span := {}
  deriving DecidableEq, Inhabited

/-- The last statement of a block, with the blocks it may jump to. -/
structure Terminator extends Statement where
  targets : List String := []
  deriving DecidableEq, Inhabited

/-- What stands at a point. -/
inductive Slot where
  | plain (s : Statement)
  | jump (t : Terminator)
  deriving DecidableEq, Inhabited

namespace Slot

/-- The facts of a slot. -/
def statement : Slot → Statement
  | .plain s => s
  | .jump t => t.toStatement

/-- The jump targets of a terminator. -/
def targets? : Slot → Option (List String)
  | .plain _ => none
  | .jump t => some t.targets

end Slot

end BorrowFlow
