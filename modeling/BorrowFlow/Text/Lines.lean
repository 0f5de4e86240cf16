/-! # Lines

  What ends a line differs by use: a message is cut at any line boundary, while
  a file that is read knows only carriage returns and line feeds.
-/

namespace BorrowFlow.Text

/-- The characters that end a line of a message. -/
def isLineBoundary (c : Char) : Bool :=
  let n := c.toNat
  (0x0a ≤ n && n ≤ 0x0d) || (0x1c ≤ n && n ≤ 0x1e) || n == 0x85 || n == 0x2028 || n == 0x2029

/-- The first line of a message. -/
def firstLine (s : String) : String :=
  String.ofList (s.toList.takeWhile fun c => !isLineBoundary c)

/-- Write every line end as a line feed: a carriage return, with or without a
    line feed after it, becomes one. -/
def unifyLineEnds : List Char → List Char
  | [] => []
  | '\r' :: '\n' :: cs => '\n' :: unifyLineEnds cs
  | c :: cs => (if c = '\r' then '\n' else c) :: unifyLineEnds cs

end BorrowFlow.Text
