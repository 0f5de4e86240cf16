/-! # Paths

  A path is a row of names from a starting point.  Empty names and single dots
  say nothing and are dropped; double dots are kept, because what they mean
  depends on the folders.
-/

namespace BorrowFlow.CommandLine

/-- Where a path starts. -/
inductive Root where
  /-- The working folder. -/
  | here
  /-- The top of the file system. -/
  | top
  /-- The top, written with exactly two slashes, which a system may tell apart. -/
  | twofold
  deriving DecidableEq

/-- The root as it is shown. -/
def Root.render : Root → String
  | .here => ""
  | .top => "/"
  | .twofold => "//"

/-- The path of a file. -/
structure Path where
  root : Root := .here
  names : List String := []
  deriving DecidableEq

namespace Path

/-- The root that the slashes at the start of a text give. -/
def rootOf (cs : List Char) : Root :=
  match (cs.takeWhile (· = '/')).length with
  | 0 => .here
  | 2 => .twofold
  | _ => .top

/-- The path that a text writes. -/
def ofString (s : String) : Path where
  root := rootOf s.toList
  names := (s.splitOn "/").filter fun n => n ≠ "" ∧ n ≠ "."

/-- The path as it is shown.  The working folder itself is a dot. -/
def render (p : Path) : String :=
  if p.root = .here ∧ p.names = [] then "."
  else p.root.render ++ "/".intercalate p.names

/-- Is there a null character in the path?  No system has a file of such a name. -/
def hasNull (p : Path) : Bool := p.names.any fun n => '\x00' ∈ n.toList

end Path

end BorrowFlow.CommandLine
