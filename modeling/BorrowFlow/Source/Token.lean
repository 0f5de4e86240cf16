/-! # Tokens of the text format

  The text format is made of names, regions, numbers, keywords and marks.  Each
  token knows where in the text it stands.
-/

namespace BorrowFlow.Source

/-- A position in a text: line and column, both from 1. -/
structure Pos where
  line : Nat
  column : Nat
  deriving DecidableEq, Inhabited

/-- The position of the first character. -/
def Pos.first : Pos := ⟨1, 1⟩

/-- The position after a character.  Only a line feed starts a new line. -/
def Pos.advance (p : Pos) (c : Char) : Pos :=
  if c = '\n' then ⟨p.line + 1, 1⟩ else ⟨p.line, p.column + 1⟩

/-- A stretch of text, from its first character to just past its last. -/
structure Extent where
  start : Pos
  stop : Pos
  deriving DecidableEq, Inhabited

/-- The words that cannot be names. -/
inductive Keyword where
  | function
  | declare
  | mutable
  | copy
  | move
  | const
  | bounds
  | drops
  | drop
  | call
  | use
  | storageDead
  | nop
  | goto
  | branch
  | ret
  | unreachable
  deriving DecidableEq, Inhabited

namespace Keyword

/-- Every keyword. -/
def all : List Keyword :=
  [.function, .declare, .mutable, .copy, .move, .const, .bounds, .drops, .drop, .call, .use,
   .storageDead, .nop, .goto, .branch, .ret, .unreachable]

/-- The keyword as it is written. -/
def word : Keyword → String
  | .function => "fn"
  | .declare => "let"
  | .mutable => "mut"
  | .copy => "copy"
  | .move => "move"
  | .const => "const"
  | .bounds => "where"
  | .drops => "drops"
  | .drop => "drop"
  | .call => "call"
  | .use => "use"
  | .storageDead => "storage_dead"
  | .nop => "nop"
  | .goto => "goto"
  | .branch => "branch"
  | .ret => "return"
  | .unreachable => "unreachable"

/-- The keyword's kind in messages: its word in capitals. -/
def label : Keyword → String
  | .function => "FN"
  | .declare => "LET"
  | .mutable => "MUT"
  | .copy => "COPY"
  | .move => "MOVE"
  | .const => "CONST"
  | .bounds => "WHERE"
  | .drops => "DROPS"
  | .drop => "DROP"
  | .call => "CALL"
  | .use => "USE"
  | .storageDead => "STORAGE_DEAD"
  | .nop => "NOP"
  | .goto => "GOTO"
  | .branch => "BRANCH"
  | .ret => "RETURN"
  | .unreachable => "UNREACHABLE"

/-- The keyword written as a word. -/
def ofWord? (w : String) : Option Keyword := all.find? fun k => k.word = w

end Keyword

/-- Punctuation. -/
inductive Mark where
  | arrow
  | ampersand
  | colon
  | comma
  | dot
  | equal
  | braceOpen
  | braceClose
  | parenOpen
  | parenClose
  | bracketOpen
  | bracketClose
  | less
  | more
  | semicolon
  | star
  deriving DecidableEq, Inhabited

namespace Mark

/-- The mark as it is written. -/
def text : Mark → String
  | .arrow => "->"
  | .ampersand => "&"
  | .colon => ":"
  | .comma => ","
  | .dot => "."
  | .equal => "="
  | .braceOpen => "\x7b"
  | .braceClose => "\x7d"
  | .parenOpen => "("
  | .parenClose => ")"
  | .bracketOpen => "["
  | .bracketClose => "]"
  | .less => "<"
  | .more => ">"
  | .semicolon => ";"
  | .star => "*"

/-- The mark's kind in messages. -/
def label : Mark → String
  | .arrow => "__ANON_0"
  | .ampersand => "AMPERSAND"
  | .colon => "COLON"
  | .comma => "COMMA"
  | .dot => "DOT"
  | .equal => "EQUAL"
  | .braceOpen => "LBRACE"
  | .braceClose => "RBRACE"
  | .parenOpen => "LPAR"
  | .parenClose => "RPAR"
  | .bracketOpen => "LSQB"
  | .bracketClose => "RSQB"
  | .less => "LESSTHAN"
  | .more => "MORETHAN"
  | .semicolon => "SEMICOLON"
  | .star => "STAR"

/-- The marks of one character. -/
def singles : List Mark :=
  [.ampersand, .colon, .comma, .dot, .equal, .braceOpen, .braceClose, .parenOpen, .parenClose,
   .bracketOpen, .bracketClose, .less, .more, .semicolon, .star]

/-- The mark written by one character. -/
def ofChar? (c : Char) : Option Mark := singles.find? fun m => m.text = String.singleton c

end Mark

/-- What a token is, apart from its position. -/
inductive Lexeme where
  | name (text : String)
  /-- A region, its leading apostrophe included. -/
  | region (text : String)
  /-- A number, as its digits. -/
  | number (digits : String)
  | keyword (k : Keyword)
  | mark (m : Mark)
  deriving DecidableEq, Inhabited

namespace Lexeme

/-- The lexeme as it is written. -/
def text : Lexeme → String
  | .name s => s
  | .region s => s
  | .number s => s
  | .keyword k => k.word
  | .mark m => m.text

/-- The lexeme's kind in messages. -/
def label : Lexeme → String
  | .name _ => "NAME"
  | .region _ => "REGION"
  | .number _ => "INT"
  | .keyword k => k.label
  | .mark m => m.label

/-- A word is a keyword if it is exactly one, and a name otherwise. -/
def ofWord (w : String) : Lexeme :=
  match Keyword.ofWord? w with
  | some k => .keyword k
  | none => .name w

end Lexeme

/-- A lexeme with its position. -/
structure Token where
  lexeme : Lexeme
  extent : Extent
  deriving DecidableEq, Inhabited

/-- The stretch from the first of some tokens to the last. -/
def Extent.covering (tokens : List Token) : Extent where
  start := (tokens.head?.map fun t => t.extent.start).getD default
  stop := (tokens.getLast?.map fun t => t.extent.stop).getD default

end BorrowFlow.Source
