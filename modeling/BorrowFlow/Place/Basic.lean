import BorrowFlow.KeyOrder
import BorrowFlow.SortedSet

/-! # Places

  A place is where a value lives: a local variable followed by a path of
  projections into it.  `(*p).items[0]` is the local `p` with the path
  dereference, field `items`, index `0`.

  - `Place.render` writes a place the way a source text does.
  - `Place.enclosing` lists the places that contain a place.
  - `Place.derefBases` lists the pointers that are followed on the way to it.
-/

namespace BorrowFlow

open Std (TransOrd LawfulEqOrd)

/-- One step from a place to a part of it. -/
inductive Projection where
  /-- What a pointer points to. -/
  | deref
  /-- A field of an aggregate. -/
  | field (name : String)
  /-- An element at a known index. -/
  | constIndex (value : Int)
  /-- An element at the index held by a variable; an unnamed one is written `_`. -/
  | varIndex (name : Option String)
  deriving DecidableEq, Inhabited

namespace Projection

/-- A number for each kind of projection. -/
def tag : Projection → Nat
  | .deref => 0
  | .field _ => 1
  | .constIndex _ => 2
  | .varIndex _ => 3

/-- The name a projection carries. -/
def label : Projection → Option String
  | .field n => some n
  | .varIndex n => n
  | _ => none

/-- The number a projection carries. -/
def offset : Projection → Int
  | .constIndex n => n
  | _ => 0

instance : Ord Projection :=
  ⟨compareLex (compareOn tag) (compareLex (compareOn label) (compareOn offset))⟩

instance : TransOrd Projection :=
  inferInstanceAs (Std.TransCmp
    (compareLex (compareOn tag) (compareLex (compareOn label) (compareOn offset))))

instance : LawfulEqOrd Projection where
  eq_of_compare {a b} h := by
    obtain ⟨htag, h⟩ := key_eq_of_compareLex h
    obtain ⟨hlabel, h⟩ := key_eq_of_compareLex h
    have hoffset := key_eq_of_compareOn h
    cases a <;> cases b <;> simp_all [tag, label, offset]

/-- Is this a dereference? -/
def isDeref : Projection → Bool
  | .deref => true
  | _ => false

/-- Append a projection that is no dereference to a written place. -/
def suffix : Projection → String
  | .deref => ""
  | .field n => "." ++ n
  | .constIndex n => "[" ++ toString n ++ "]"
  | .varIndex none => "[_]"
  | .varIndex (some n) => "[" ++ (if n.isEmpty then "_" else n) ++ "]"

end Projection

/-- A storage location rooted at a local variable. -/
structure Place where
  /-- The local variable. -/
  base : String
  /-- The projections, outermost first. -/
  path : List Projection := []
  deriving DecidableEq, Inhabited

namespace Place

instance : Ord Place := ⟨compareLex (compareOn Place.base) (compareOn Place.path)⟩

instance : TransOrd Place :=
  inferInstanceAs (Std.TransCmp (compareLex (compareOn Place.base) (compareOn Place.path)))

instance : LawfulEqOrd Place where
  eq_of_compare {a b} h := by
    obtain ⟨hbase, h⟩ := key_eq_of_compareLex h
    have hpath := key_eq_of_compareOn h
    cases a; cases b; cases hbase; cases hpath; rfl

/-- The place of a whole local variable. -/
def ofLocal (name : String) : Place := { base := name }

/-- One projection further. -/
def project (p : Place) (step : Projection) : Place := { p with path := p.path ++ [step] }

/-- Is this a whole local? -/
def isLocal (p : Place) : Bool := p.path.isEmpty

/-- The places that contain `p`, from its local to `p` itself. -/
def enclosing (p : Place) : List Place :=
  (List.range (p.path.length + 1)).map fun n => { p with path := p.path.take n }

/-- The places that are dereferenced on the way to `p`: `p` for `(*p).f`. -/
def derefBases (p : Place) : List Place :=
  go [] p.path
where
  /-- The bases along `rest`, where `done` has been walked already. -/
  go (done : List Projection) : List Projection → List Place
    | [] => []
    | .deref :: rest => { p with path := done } :: go (done ++ [.deref]) rest
    | step :: rest => go (done ++ [step]) rest

/-- The variables that stand as indices in a place, in order. -/
def indexVars (p : Place) : List String :=
  p.path.filterMap fun
    | .varIndex name => name
    | _ => none

/-- Write the rest of a path after `text`.  A dereference goes in front; what
    follows one is set off by parentheses. -/
def renderPath (text : String) (afterDeref : Bool) : List Projection → String
  | [] => text
  | .deref :: rest => renderPath ("*" ++ text) true rest
  | step :: rest =>
    let text := if afterDeref then "(" ++ text ++ ")" else text
    renderPath (text ++ step.suffix) false rest

/-- The place as a source text writes it. -/
def render (p : Place) : String := renderPath p.base false p.path

end Place

end BorrowFlow
