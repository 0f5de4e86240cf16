import BorrowFlow.Conflict
import Mathlib.Data.List.Chain
import Mathlib.Logic.Relation

/-! # What the analyses should find, by walks

    The meaning of liveness and of active loans is said by walks through the
    control flow, without tables, sweeps or sets.

    * `Body.Ahead`: a use or a drop of a variable lies ahead of a point.
    * `Body.Needs`: a region is needed at a point.
    * `Body.FlowsInto`: a region flows into another.
    * `Body.Holds`: a loan is in force at a point.
    * `Body.HoldsWhile`: the same, whatever keeps the loan in force on the way.
-/

namespace BorrowFlow

open Relation (ReflTransGen)

/-- The two ways in which a statement may want the value of a variable. -/
inductive Want where
  | use
  | drop

namespace Want

/-- The variables that a statement wants in this way. -/
def names : Want → Statement → NameSet
  | .use => Statement.reads
  | .drop => Statement.drops

/-- The regions that a variable keeps live when it is wanted in this way. -/
def regions (precise : Bool) : Want → Variable → List Region
  | .use => Variable.regions
  | .drop => fun v => v.dropRegions precise

end Want

namespace Body

/-- The points of `w` follow one another in the control flow. -/
def Walk (b : Body) (w : List Point) : Prop := w.IsChain fun p q => q ∈ b.successors p

/-- **Ahead of `p`**, some walk comes to a point that wants `x`, and none of the
    points of the walk before it overwrites `x`. -/
def Ahead (b : Body) (want : Want) (x : String) (p : Point) : Prop :=
  ∃ before q, (before ++ [q]).head? = some p ∧ b.Walk (before ++ [q]) ∧
    x ∈ want.names (b.facts q) ∧ ∀ r ∈ before, (b.facts r).write ≠ some x

/-- **A region is needed** at a point if it is universal, or if a variable keeps it
    live that is used or dropped ahead. -/
def Needs (b : Body) (precise : Bool) (p : Point) (r : Region) : Prop :=
  r.universal = true ∨
    ∃ want x v, b.var? x = some v ∧ r ∈ want.regions precise v ∧ b.Ahead want x p

/-- **A region flows into another** along a chain of obligations. -/
def FlowsInto (b : Body) : Region → Region → Prop :=
  ReflTransGen fun r s => ∃ o ∈ b.obligations, o.sub = r ∧ o.sup = s

/-- A loan matters at a point if a region that it flows into is needed there. -/
def Matters (b : Body) (precise : Bool) (issue : LoanIssue) (p : Point) : Prop :=
  ∃ r ∈ issue.regions, ∃ s, b.FlowsInto r s ∧ b.Needs precise p s

/-- The assignment at a point overwrites a place that the loan goes through. -/
def Overwrites (b : Body) (l : Loan) (p : Point) : Prop :=
  ∃ place, (b.facts p).assigned = some place ∧ place.encloses l.place = true

/-- **A loan is in force** at `p` if a walk of at least one step leads from its
    issue to `p`, the loan matters at every point after the first, and no point in
    between overwrites what it goes through, other than the one that issues it. -/
def Holds (b : Body) (precise : Bool) (issue : LoanIssue) (p : Point) : Prop :=
  ∃ between, b.Walk (issue.loan.point :: (between ++ [p])) ∧
    (∀ q ∈ between ++ [p], b.Matters precise issue q) ∧
    ∀ q ∈ between, q ≠ issue.loan.point → ¬ b.Overwrites issue.loan q

/-- **A loan leaves** `q` if a walk leads from its issue to `q`, the loan matters at
    every point after the first, and none of them ends it. -/
def Leaves (b : Body) (precise : Bool) (issue : LoanIssue) (q : Point) : Prop :=
  ∃ passed, b.Walk (issue.loan.point :: passed) ∧
    (issue.loan.point :: passed).getLast? = some q ∧
    ∀ x ∈ passed, b.Matters precise issue x ∧
      (x ≠ issue.loan.point → ¬ b.Overwrites issue.loan x)

/-- **A loan holds while it is kept**: a walk of at least one step leads from its issue
    to `p`, the loan is kept at every point after the first, and no point in between
    overwrites what it goes through, other than the one that issues it. -/
def HoldsWhile (b : Body) (kept : Point → Prop) (loan : Loan) (p : Point) : Prop :=
  ∃ between, b.Walk (loan.point :: (between ++ [p])) ∧
    (∀ q ∈ between ++ [p], kept q) ∧
    ∀ q ∈ between, q ≠ loan.point → ¬ b.Overwrites loan q

/-- A loan leaves `q` while it is kept. -/
def LeavesWhile (b : Body) (kept : Point → Prop) (loan : Loan) (q : Point) : Prop :=
  ∃ passed, b.Walk (loan.point :: passed) ∧
    (loan.point :: passed).getLast? = some q ∧
    ∀ x ∈ passed, kept x ∧ (x ≠ loan.point → ¬ b.Overwrites loan x)

/-- The loan is issued in the body, at its own point. -/
def Issues (b : Body) (issue : LoanIssue) : Prop := (b.facts issue.loan.point).loan = some issue

variable {b : Body} {precise : Bool} {issue : LoanIssue} {p : Point}

/-- A walk may go on to a successor of its last point. -/
theorem walk_concat_iff {w : List Point} :
    b.Walk (w ++ [p]) ↔ b.Walk w ∧ ∀ q, w.getLast? = some q → p ∈ b.successors q := by
  simp [Walk, List.isChain_append]

/-- A loan holds where it is kept, if it leaves a point before. -/
theorem holdsWhile_iff_leavesWhile {kept : Point → Prop} {loan : Loan} :
    b.HoldsWhile kept loan p ↔
      kept p ∧ ∃ q, p ∈ b.successors q ∧ b.LeavesWhile kept loan q := by
  constructor
  · rintro ⟨between, hwalk, hkept, hleft⟩
    rw [← List.cons_append, walk_concat_iff] at hwalk
    obtain ⟨hwalk, hstep⟩ := hwalk
    obtain ⟨q, hq⟩ : ∃ q, (loan.point :: between).getLast? = some q :=
      ⟨_, List.getLast?_eq_some_getLast (List.cons_ne_nil _ _)⟩
    refine ⟨hkept p (by simp), q, hstep q hq, between, hwalk, hq, fun x hx => ?_⟩
    exact ⟨hkept x (List.mem_append_left _ hx), hleft x hx⟩
  · rintro ⟨hkept, q, hq, passed, hwalk, hlast, hleft⟩
    refine ⟨passed, ?_, ?_, fun x hx => (hleft x hx).2⟩
    · rw [← List.cons_append, walk_concat_iff]
      refine ⟨hwalk, fun q' hq' => ?_⟩
      exact Option.some.inj (hlast.symm.trans hq') ▸ hq
    · intro x hx
      rcases List.mem_append.mp hx with hx | hx
      · exact (hleft x hx).1
      · rw [List.mem_singleton] at hx
        exact hx ▸ hkept

/-- A loan leaves the more points the longer it is kept. -/
theorem LeavesWhile.mono {kept kept' : Point → Prop} {loan : Loan} (hkept : ∀ q, kept q → kept' q)
    (h : b.LeavesWhile kept loan p) : b.LeavesWhile kept' loan p := by
  obtain ⟨passed, hwalk, hlast, hleft⟩ := h
  exact ⟨passed, hwalk, hlast, fun x hx => ⟨hkept x (hleft x hx).1, (hleft x hx).2⟩⟩

/-- A loan holds at the more points the longer it is kept. -/
theorem HoldsWhile.mono {kept kept' : Point → Prop} {loan : Loan} (hkept : ∀ q, kept q → kept' q)
    (h : b.HoldsWhile kept loan p) : b.HoldsWhile kept' loan p := by
  obtain ⟨between, hwalk, hall, hclear⟩ := h
  exact ⟨between, hwalk, fun q hq => hkept q (hall q hq), hclear⟩

/-- A loan is in force where it matters, if it leaves a point before. -/
theorem holds_iff_leaves :
    b.Holds precise issue p ↔
      b.Matters precise issue p ∧ ∃ q, p ∈ b.successors q ∧ b.Leaves precise issue q :=
  holdsWhile_iff_leavesWhile

end Body

end BorrowFlow
