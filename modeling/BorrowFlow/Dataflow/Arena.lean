import BorrowFlow.Point

/-! # Arenas

  An arena has one slot per point.  It is made for the points of a body, which
  are all different; then each point has its own slot and every access succeeds.
  If a point is listed more than once, there are only as many slots as different
  points while the last position of a point counts, so that an access may miss.

  `Arena.get` and `Arena.put` report a miss; `Arena.read` and `Arena.write` are
  the same accesses for points that are known to have a slot.
-/

namespace BorrowFlow

variable {α : Type}

/-- One slot per point. -/
structure Arena (α : Type) where
  points : List Point
  slots : List α
  deriving DecidableEq

/-- Why an access to an arena missed. -/
inductive ArenaFault where
  /-- The arena was not made for this point. -/
  | noSlot (p : Point)
  /-- The position of the point lies behind the last slot, on reading. -/
  | readBeyond
  /-- The position of the point lies behind the last slot, on writing. -/
  | writeBeyond
  deriving DecidableEq

/-- The wording of a missed access. -/
def ArenaFault.message : ArenaFault → String
  | .noSlot p => "dataflow arena has no slot for point " ++ p.render ++ " (analysis bug)"
  | .readBeyond => "list index out of range"
  | .writeBeyond => "list assignment index out of range"

/-- The last position of a point in a list. -/
def lastPosition? (p : Point) : List Point → Option Nat
  | [] => none
  | q :: rest =>
    match lastPosition? p rest with
    | some i => some (i + 1)
    | none => if q = p then some 0 else none

namespace Arena

/-- An arena whose slots all hold the same value. -/
def ofPoints (points : List Point) (initial : α) : Arena α :=
  ⟨points, List.replicate points.eraseDups.length initial⟩

/-- An arena that holds `f p` for each of its points. -/
def tabulate (points : List Point) (f : Point → α) : Arena α :=
  ⟨points, points.eraseDups.map f⟩

/-- The number of slots. -/
def size (a : Arena α) : Nat := a.slots.length

/-- The value at a point, or why there is none. -/
def get (a : Arena α) (p : Point) : Except ArenaFault α :=
  match lastPosition? p a.points with
  | none => .error (.noSlot p)
  | some i =>
    match a.slots[i]? with
    | some v => .ok v
    | none => .error .readBeyond

/-- Put a value at a point, or say why it cannot be. -/
def put (a : Arena α) (p : Point) (v : α) : Except ArenaFault (Arena α) :=
  match lastPosition? p a.points with
  | none => .error (.noSlot p)
  | some i => if i < a.slots.length then .ok { a with slots := a.slots.set i v }
    else .error .writeBeyond

/-- The value at a point, and `default` where there is none. -/
def read (default : α) (a : Arena α) (p : Point) : α :=
  match a.get p with
  | .ok v => v
  | .error _ => default

/-- Put a value at a point that has a slot. -/
def write (a : Arena α) (p : Point) (v : α) : Arena α :=
  match a.put p v with
  | .ok a' => a'
  | .error _ => a

/-- Every point with its value, in the order of first listing. -/
def items (a : Arena α) : Except ArenaFault (List (Point × α)) :=
  a.points.eraseDups.mapM fun p => (a.get p).map fun v => (p, v)

end Arena

end BorrowFlow
