import BorrowFlow.Ty.Basic

/-! # Region edges between types

  When a value of one type flows into a place of another, their regions are
  related position by position.  Shared references and arguments of aggregates
  are covariant: each loan of the source's region reaches the target's.  What
  lies behind a mutable reference is invariant, and relates both ways.
-/

namespace BorrowFlow

/-- Why two types cannot be related. -/
inductive ShapeError where
  /-- The types have different shapes or names. -/
  | mismatch (src dst : Ty)
  /-- One reference is shared and the other mutable. -/
  | mutability (src dst : Ty)

/-- The wording of a shape error. -/
def ShapeError.message : ShapeError → String
  | .mismatch a b => "type mismatch: '" ++ a.render ++ "' vs '" ++ b.render ++ "'"
  | .mutability a b => "mutability mismatch: '" ++ a.render ++ "' vs '" ++ b.render ++ "'"

/-- Every loan that reaches the first region has to reach the second. -/
abbrev RegionEdge := Region × Region

/-- How the regions of two related types depend on each other. -/
inductive Variance where
  /-- From the source to the target only. -/
  | covariant
  /-- Both ways. -/
  | invariant
  deriving DecidableEq

namespace Ty

/-- Record an edge, unless it is a loop or was recorded before. -/
def addEdge (edges : List RegionEdge) (edge : RegionEdge) : List RegionEdge :=
  if edge.1 = edge.2 ∨ edge ∈ edges then edges else edges ++ [edge]

/-- Record what a pair of regions in corresponding positions requires. -/
def relateRegions (v : Variance) (a b : Region) (edges : List RegionEdge) : List RegionEdge :=
  match v with
  | .covariant => addEdge edges (a, b)
  | .invariant => addEdge (addEdge edges (a, b)) (b, a)

mutual

/-- Add to `edges` those that a flow from the first type to the second requires. -/
def relateInto (v : Variance) : Ty → Ty → List RegionEdge → Except ShapeError (List RegionEdge)
  | .region a, .region b, edges => .ok (relateRegions v a b edges)
  | .scalar a, .scalar b, edges =>
    if a = b then .ok edges else .error (.mismatch (.scalar a) (.scalar b))
  | .ref r m t, .ref r' m' t', edges =>
    if m = m' then
      t.relateInto (if m then .invariant else v) t' (relateRegions v r r' edges)
    else .error (.mutability (.ref r m t) (.ref r' m' t'))
  | .adt n args, .adt n' args', edges =>
    if n = n' ∧ args.length = args'.length then relateAllInto v args args' edges
    else .error (.mismatch (.adt n args) (.adt n' args'))
  | a, b, _ => .error (.mismatch a b)

/-- Relate two lists of arguments pairwise. -/
def relateAllInto (v : Variance) :
    List Ty → List Ty → List RegionEdge → Except ShapeError (List RegionEdge)
  | a :: as, b :: bs, edges =>
    match a.relateInto v b edges with
    | .ok edges => relateAllInto v as bs edges
    | .error e => .error e
  | _, _, edges => .ok edges

end

/-- The region edges that a value of type `src` needs to flow into `dst`. -/
def relate (src dst : Ty) : Except ShapeError (List RegionEdge) :=
  src.relateInto .covariant dst []

end Ty

end BorrowFlow
