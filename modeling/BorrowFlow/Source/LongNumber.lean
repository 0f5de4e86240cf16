import BorrowFlow.Source.Elaborate
import BorrowFlow.Source.Parser

/-! # Numbers that are too long

  The digits of a number are read when its statement is replayed, and there may be
  more of them than can be read.  That is no fault of the text, and it is noticed
  only if the text has no fault before it: no other number, statement or function
  comes first that goes wrong.

  - `FunctionDecl.steps`: the replay of a function, statement by statement.
  - `longNumber?`: the digits of the number at which the replay of a text stops.
-/

namespace BorrowFlow.Source

/-- Does a position come before another one? -/
def Pos.before (p q : Pos) : Bool :=
  p.line < q.line || (p.line == q.line && p.column < q.column)

/-- Does a position lie in an extent? -/
def Extent.holds (e : Extent) (p : Pos) : Bool := !p.before e.start && p.before e.stop

/-- A number with too many digits. -/
structure LongNumber where
  pos : Pos
  digits : Nat

/-- The number of a token, if it has more digits than are allowed. -/
def Token.longNumber? (limit : Nat) (t : Token) : Option LongNumber :=
  match t.lexeme with
  | .number digits =>
    if limit < digits.length then some ⟨t.extent.start, digits.length⟩ else none
  | _ => none

/-- The numbers of a text with too many digits, in order. -/
def longNumbers (limit : Nat) (tokens : List Token) : List LongNumber :=
  tokens.filterMap (Token.longNumber? limit)

/-! ## Steps -/

/-- A step of a replay. -/
structure Step where
  /-- Where the numbers stand that the step reads before it does anything else. -/
  numbers : Option Extent := none
  act : BuildM Unit

/-- The digits of the first number that a step cannot read. -/
def Step.stuck? (long : List LongNumber) (s : Step) : Option Nat :=
  s.numbers.bind fun e => (long.find? fun n => e.holds n.pos).map LongNumber.digits

variable (file : Option String)

/-- The steps of a block. -/
def BlockDecl.steps (b : BlockDecl) : List Step :=
  { act := Builder.openBlock b.name (some (b.nameExtent.span file)) } ::
    (b.statements.map fun s =>
      { numbers := some s.extent, act := elaborateStatement file b.name s }) ++
    [{ numbers := some b.terminator.extent
       act := elaborateTerminator file b.name b.terminator }]

/-- The steps of a function.  Before its blocks there are no numbers. -/
def FunctionDecl.steps (f : FunctionDecl) : List Step :=
  { act := elaborateHeader file f } :: f.blocks.flatMap (BlockDecl.steps file)

/-! ## Replays that stop -/

/-- The digits of the number at which some steps stop, if none of them fails before. -/
def stuckIn (long : List LongNumber) : List Step → Builder → Option Nat
  | [], _ => none
  | s :: steps, b =>
    match s.stuck? long with
    | some n => some n
    | none =>
      match s.act.perform b with
      | (.ok (), b) => stuckIn long steps b
      | (.error _, _) => none

/-- The digits of the number at which some functions stop, if none of them is wrong
    before; `earlier` holds the bodies of those that came first. -/
def stuckAfter (long : List LongNumber) (earlier : List Body) : List FunctionDecl → Option Nat
  | [] => none
  | f :: fs =>
    match stuckIn long (f.steps file) (f.start file) with
    | some n => some n
    | none =>
      match bodiesAfter file earlier [f] with
      | .ok found => stuckAfter long found fs
      | .error _ => none

/-- The digits of the number at which a text cannot be read any further. -/
def longNumber? (limit : Nat) (text : String) (file : Option String := none) : Option Nat :=
  match longNumbers limit (lex text).1 with
  -- most texts need not be replayed for this
  | [] => none
  | long =>
    match parseText text with
    | .ok program => stuckAfter file long [] program
    | .error _ => none

end BorrowFlow.Source
