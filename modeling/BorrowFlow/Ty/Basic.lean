import BorrowFlow.KeyOrder
import BorrowFlow.SortedSet

/-! # Regions and types

  Types say which regions a value mentions, in which order, and whether
  dropping it may run a destructor.  Nothing else of a type matters to region
  inference.

  - `Region` is a lifetime, universal if it comes from outside the function.
  - `Ty.regions` lists the regions of a type, outermost first and without
    repetition.
-/

namespace BorrowFlow

open Std (TransOrd LawfulEqOrd)

/-- A lifetime to be inferred.  A universal region comes from outside the body
    (a parameter, `'static`) and holds at each of its points. -/
structure Region where
  name : String
  universal : Bool := false
  deriving DecidableEq, Inhabited

namespace Region

instance : Ord Region := ⟨compareLex (compareOn Region.name) (compareOn Region.universal)⟩

instance : TransOrd Region :=
  inferInstanceAs (Std.TransCmp (compareLex (compareOn Region.name) (compareOn Region.universal)))

instance : LawfulEqOrd Region where
  eq_of_compare {a b} h := by
    obtain ⟨hname, h⟩ := key_eq_of_compareLex h
    have huniversal := key_eq_of_compareOn h
    cases a; cases b; cases hname; cases huniversal; rfl

/-- The region of values that live for the whole run. -/
def static : Region := { name := "'static", universal := true }

end Region

/-- The type of a local. -/
inductive Ty where
  /-- A region in the position of a type: an argument of an aggregate. -/
  | region (r : Region)
  /-- A plain value: no regions, no destructor. -/
  | scalar (name : String)
  /-- A reference, shared or mutable. -/
  | ref (r : Region) (mutable : Bool) (referent : Ty)
  /-- A named aggregate with its arguments. -/
  | adt (name : String) (args : List Ty)
  deriving Inhabited

namespace Ty

mutual

/-- Are two types the same? -/
def decideEq : (s t : Ty) → Decidable (s = t)
  | .region r, .region r' => decidable_of_iff (r = r') (by simp)
  | .scalar n, .scalar n' => decidable_of_iff (n = n') (by simp)
  | .ref r m s, .ref r' m' t =>
    have := decideEq s t
    decidable_of_iff (r = r' ∧ m = m' ∧ s = t) (by simp)
  | .adt n args, .adt n' args' =>
    have := decideAllEq args args'
    decidable_of_iff (n = n' ∧ args = args') (by simp)
  | .region _, .scalar _ | .region _, .ref .. | .region _, .adt ..
  | .scalar _, .region _ | .scalar _, .ref .. | .scalar _, .adt ..
  | .ref .., .region _ | .ref .., .scalar _ | .ref .., .adt ..
  | .adt .., .region _ | .adt .., .scalar _ | .adt .., .ref .. => isFalse (by simp)

/-- Are two lists of arguments the same? -/
def decideAllEq : (ss ts : List Ty) → Decidable (ss = ts)
  | [], [] => isTrue rfl
  | s :: ss, t :: ts =>
    have := decideEq s t
    have := decideAllEq ss ts
    decidable_of_iff (s = t ∧ ss = ts) (by simp)
  | [], _ :: _ | _ :: _, [] => isFalse (by simp)

end

instance : DecidableEq Ty := decideEq

mutual

/-- The type as a source text writes it. -/
def render : Ty → String
  | .region r => r.name
  | .scalar name => name
  | .ref r mutable referent =>
    "&" ++ r.name ++ " " ++ (if mutable then "mut " else "") ++ referent.render
  | .adt name [] => name
  | .adt name (a :: as) => name ++ "<" ++ ", ".intercalate (renderAll (a :: as)) ++ ">"

/-- The written forms of the arguments of an aggregate. -/
def renderAll : List Ty → List String
  | [] => []
  | t :: ts => t.render :: renderAll ts

end

/-- Only an aggregate may run a destructor when it is dropped. -/
def hasDropGlue : Ty → Bool
  | .adt _ _ => true
  | _ => false

/-! ## The regions of a type -/

/-- Note a region, unless it was noted before. -/
def note (seen : List Region) (r : Region) : List Region :=
  if r ∈ seen then seen else seen ++ [r]

/-- Two lists joined are no larger than the two apart. -/
theorem sizeOf_append_le (ts us : List Ty) : sizeOf (ts ++ us) ≤ sizeOf ts + sizeOf us := by
  induction ts with
  | nil => simp
  | cons t ts ih =>
    simp only [List.cons_append, List.cons.sizeOf_spec]
    omega

/-- Note the regions of the types on a stack, top first.  A reference gives way
    to its referent, an aggregate to its arguments. -/
def regionsFrom (seen : List Region) : List Ty → List Region
  | [] => seen
  | .region r :: rest => regionsFrom (note seen r) rest
  | .scalar _ :: rest => regionsFrom seen rest
  | .ref r _ referent :: rest => regionsFrom (note seen r) (referent :: rest)
  | .adt _ args :: rest => regionsFrom seen (args ++ rest)
termination_by stack => sizeOf stack
decreasing_by
  all_goals simp_wf
  all_goals try have := sizeOf_append_le args rest
  all_goals omega

/-- The regions a type mentions, outermost first, each once. -/
def regions (t : Ty) : List Region := regionsFrom [] [t]

end Ty

end BorrowFlow
