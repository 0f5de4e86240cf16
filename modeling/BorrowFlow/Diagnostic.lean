import BorrowFlow.Json
import BorrowFlow.Span

/-! # Diagnostics

  A finding shown to the user: malformed input, a borrow conflict, or a run that
  did not finish.  Findings are values; only the command line prints them.
-/

namespace BorrowFlow

/-- A finding with a stable code. -/
structure Diagnostic where
  message : String
  code : Option String := none
  /-- The part of the checker that speaks: `parser`, `borrowcheck` or `driver`. -/
  phase : Option String := none
  severity : String := "error"
  span : Span := {}
  notes : List String := []
  deriving DecidableEq, Inhabited

namespace Diagnostic

/-- The finding as a report field. -/
def toJson (d : Diagnostic) : Json :=
  .obj [
    ("phase", .ofString? d.phase),
    ("code", .ofString? d.code),
    ("message", .str d.message),
    ("severity", .str d.severity),
    ("file", .ofString? d.span.file),
    ("line", .ofInt? d.span.line),
    ("column", .ofInt? d.span.column),
    ("notes", .strs d.notes)]

/-- The finding on one line: `file:line:column: severity [code]: message`. -/
def render (d : Diagnostic) : String :=
  let code := match Span.nonEmpty? d.code with
    | some c => " [" ++ c ++ "]"
    | none => ""
  d.span.render ++ ": " ++ d.severity ++ code ++ ": " ++ d.message

end Diagnostic

end BorrowFlow
