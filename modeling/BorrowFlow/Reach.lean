import BorrowFlow.SortedSet

/-! # Reachability in a finite graph

  A graph is given by the list of nodes next to each node.  A set of nodes grows
  by what is next to its members until nothing is new.  Only the nodes that were
  new in the last round have to be followed, and the number of nodes bounds the
  number of rounds.
-/

namespace BorrowFlow

open Std (TransOrd LawfulEqOrd)

variable {α : Type} [Ord α] [TransOrd α] [LawfulEqOrd α] [DecidableEq α]

/-- What is next to a node of the frontier and was not seen before. -/
def freshFrom (next : α → List α) (seen frontier : SortedSet α) : SortedSet α :=
  (SortedSet.ofList (frontier.toList.flatMap next)).diff seen

/-- Follow the frontier until nothing is new, for at most the given number of
    rounds.  What is next to a seen node is seen or next to the frontier. -/
def closureFrom (next : α → List α) : Nat → (seen frontier : SortedSet α) → SortedSet α
  | 0, seen, _ => seen
  | n + 1, seen, frontier =>
    let fresh := freshFrom next seen frontier
    if fresh.isEmpty then seen else closureFrom next n (seen.union fresh) fresh

/-- Everything with a path from a member of `s` of at most `n` steps. -/
def closure (next : α → List α) (n : Nat) (s : SortedSet α) : SortedSet α :=
  closureFrom next n s s

end BorrowFlow
