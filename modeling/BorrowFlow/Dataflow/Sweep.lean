import BorrowFlow.Dataflow.Arena
import BorrowFlow.Dataflow.Budget

/-! # Round-robin solving

  A problem says in which order the points are visited and how the value at a
  point follows from the values of its neighbours.  A sweep renews every point in
  turn, each from the values renewed before it.  The solver sweeps until nothing
  changes; its budget bounds the number of sweeps that do.

  - `Problem.sweep`: one round.
  - `Problem.solve`: rounds until the table is stable, with the tables on the way.
-/

namespace BorrowFlow

variable {ρ σ : Type}

/-- One stop of a sweep. -/
structure Visit (ρ : Type) where
  point : Point
  /-- The points whose values count here. -/
  neighbours : List Point
  /-- What happens at the point. -/
  rule : ρ

/-- A dataflow problem over points. -/
structure Problem (ρ σ : Type) where
  /-- The stops of a sweep, in order. -/
  visits : List (Visit ρ)
  /-- The value that a point starts with. -/
  bottom : σ
  /-- The value at a point, given its rule and the values of its neighbours. -/
  transfer : ρ → List σ → σ

/-- A stable table and how it was reached. -/
structure Solution (σ : Type) where
  table : Arena σ
  /-- How many sweeps changed something. -/
  sweeps : Nat
  /-- The table after each sweep, the last and unchanging one included. -/
  trace : List (Arena σ)

namespace Problem

/-- Renew one point. -/
def renew (P : Problem ρ σ) (a : Arena σ) (v : Visit ρ) : Arena σ :=
  a.write v.point (P.transfer v.rule (v.neighbours.map (a.read P.bottom)))

/-- Renew every point in turn. -/
def sweep (P : Problem ρ σ) (a : Arena σ) : Arena σ := P.visits.foldl P.renew a

/-- Sweep until nothing changes, for at most the given number of rounds. -/
def solveFor [DecidableEq σ] (P : Problem ρ σ) :
    (rounds : Nat) → Budget → List (Arena σ) → Arena σ → Except BudgetFault (Solution σ)
  | 0, budget, _, _ => .error (.diverged budget.what budget.limit)
  | rounds + 1, budget, trace, a =>
    let a' := P.sweep a
    -- each point is renewed once, so the table changed iff some point did
    let changed := decide (a' ≠ a)
    match budget.tick changed with
    | (.error f, _) => .error f
    | (.ok (), budget') =>
      if changed then P.solveFor rounds budget' (trace ++ [a']) a'
      else .ok ⟨a', budget'.sweeps, trace ++ [a']⟩

/-- Sweep from a table until nothing changes or the budget is spent.  The budget
    allows `limit` changing sweeps and one more that finds nothing to change. -/
def solve [DecidableEq σ] (P : Problem ρ σ) (budget : Budget) (start : Arena σ) :
    Except BudgetFault (Solution σ) :=
  P.solveFor (budget.limit.toNat + 1) budget [] start

end Problem

end BorrowFlow
