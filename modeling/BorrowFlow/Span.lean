/-! # Source spans

  Where in a source text something stands.  Every part of a span may be
  missing, as bodies need not come from a text at all.
-/

namespace BorrowFlow

/-- A stretch of a source file; a missing part is unknown. -/
structure Span where
  file : Option String := none
  line : Option Int := none
  column : Option Int := none
  endLine : Option Int := none
  endColumn : Option Int := none
  deriving DecidableEq, Inhabited

/-- What is known of a place in the source before a file is attached to it. -/
inductive Location where
  /-- Nothing. -/
  | unknown
  /-- A span that was settled before. -/
  | settled (s : Span)
  /-- Bare positions, the file still to be filled in. -/
  | position (p : Span)

namespace Span

/-- A text that is present and not empty. -/
def nonEmpty? : Option String → Option String
  | some s => if s.isEmpty then none else some s
  | none => none

/-- The span of a location found in `file`.  A settled span is kept as it is;
    bare positions take the given file if it is named, their own otherwise. -/
def ofLocation (loc : Location) (file : Option String := none) : Span :=
  match loc with
  | .unknown => { file := file }
  | .settled s => s
  | .position p => { p with file := (nonEmpty? file).or p.file }

/-- A span is known once its line is. -/
def known (s : Span) : Bool := s.line.isSome

/-- A number, or `?` for an unknown one. -/
def part : Option Int → String
  | some n => toString n
  | none => "?"

/-- `file:line:column`, with `<input>` for an unnamed file. -/
def render (s : Span) : String :=
  (nonEmpty? s.file).getD "<input>" ++ ":" ++ part s.line ++ ":" ++ part s.column

end Span

end BorrowFlow
