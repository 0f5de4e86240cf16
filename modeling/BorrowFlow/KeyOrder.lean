/-! # Orders by keys

  A type is ordered by comparing one key after another.  The order is lawful, in
  that equal values are the only ones that compare equal, once the keys together
  determine the value.  These two lemmas turn `compare a b = .eq` into equality
  of the keys.
-/

namespace BorrowFlow

open Std (LawfulEqOrd)

variable {α κ : Type} [Ord κ] [LawfulEqOrd κ]

/-- Values that compare equal by a last key agree on it. -/
theorem key_eq_of_compareOn {key : α → κ} {a b : α}
    (h : compareOn key a b = .eq) : key a = key b :=
  LawfulEqOrd.eq_of_compare h

/-- Values that compare equal by a first key and then by the rest agree on both. -/
theorem key_eq_of_compareLex {key : α → κ} {rest : α → α → Ordering} {a b : α}
    (h : compareLex (compareOn key) rest a b = .eq) :
    key a = key b ∧ rest a b = .eq := by
  have h' : (compare (key a) (key b)).then (rest a b) = .eq := h
  rw [Ordering.then_eq_eq] at h'
  exact ⟨LawfulEqOrd.eq_of_compare h'.1, h'.2⟩

end BorrowFlow
