import BorrowFlow.Text.Digit

/-! # Numbers as they are typed

  A number on the command line may have blanks around it, a sign, digits of any
  script, and single underscores between two digits.

  - `readInt?`: a whole number.
  - `readDecimal?`: a number with a point or an exponent.
-/

namespace BorrowFlow.Text

/-- A number with its sign, which also a zero has. -/
structure Signed (α : Type) where
  negative : Bool
  magnitude : α
  deriving DecidableEq

/-- Split off the sign. -/
def signed : List Char → Signed (List Char)
  | '-' :: cs => ⟨true, cs⟩
  | '+' :: cs => ⟨false, cs⟩
  | cs => ⟨false, cs⟩

/-- The digits of a group: at least one, and single underscores between two. -/
def digitGroup? : List Char → Option (List Nat)
  | [] => none
  | [c] => (digitValue? c).map fun d => [d]
  | c :: '_' :: cs => do
    let d ← digitValue? c
    return d :: (← digitGroup? cs)
  | c :: cs => do
    let d ← digitValue? c
    return d :: (← digitGroup? cs)

/-- The number that some digits write. -/
def ofDigits (ds : List Nat) : Nat := ds.foldl (fun n d => 10 * n + d) 0

/-- A natural number with a sign. -/
def Signed.toInt (n : Signed Nat) : Int :=
  if n.negative then -(n.magnitude : Int) else n.magnitude

/-- The whole number that a list of characters writes, sign first. -/
def signedInt? (cs : List Char) : Option Int :=
  let s := signed cs
  (digitGroup? s.magnitude).map fun ds => (Signed.mk s.negative (ofDigits ds)).toInt

/-- The whole number that a text writes, if it has no more digits than are allowed. -/
def readInt? (limit : Nat) (s : String) : Option Int :=
  let cs := trimBlanks s.toList
  match digitGroup? (signed cs).magnitude with
  | some ds => if limit < ds.length then none else signedInt? cs
  | none => none

/-- A decimal number: `digits` times ten to the `exponent`. -/
structure Decimal where
  digits : Nat
  exponent : Int
  deriving DecidableEq

/-- The digits of a group that may be missing. -/
def optionalGroup? (cs : List Char) : Option (List Nat) :=
  if cs.isEmpty then some [] else digitGroup? cs

/-- A decimal number without its exponent: digits around a point, not none on
    both sides. -/
def readMantissa? (cs : List Char) : Option Decimal := do
  let whole ← optionalGroup? (cs.takeWhile (· ≠ '.'))
  let part ← optionalGroup? ((cs.dropWhile (· ≠ '.')).drop 1)
  if whole.isEmpty && part.isEmpty then none
  else return ⟨ofDigits (whole ++ part), -(part.length : Int)⟩

/-- Does an exponent follow this mark? -/
def isExponentMark (c : Char) : Bool := c == 'e' || c == 'E'

/-- A decimal number without its sign. -/
def readDecimal? (cs : List Char) : Option Decimal := do
  let m ← readMantissa? (cs.takeWhile (!isExponentMark ·))
  -- a mark without an exponent after it is an error, not an exponent of zero
  match cs.dropWhile (!isExponentMark ·) with
  | [] => return m
  | _ :: exponent => return ⟨m.digits, m.exponent + (← signedInt? exponent)⟩

end BorrowFlow.Text
