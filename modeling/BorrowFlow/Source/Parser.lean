import BorrowFlow.Source.Lexer
import BorrowFlow.Source.Tree

/-! # Parsing

  A parser for the text format by recursive descent, one function per rule of
  the grammar.  One token is enough to choose between the alternatives of each
  rule, so a parser never goes back, and it stops at the first token that cannot
  continue any program:

      program    = function*
      function   = "fn" NAME "(" [param ("," param)*] ")" [where] "{" item* "}"
      param      = NAME ":" type
      where      = "where" bound ("," bound)*
      bound      = REGION ":" REGION
      item       = "let" NAME ":" type ["drops" "(" [REGION ("," REGION)*] ")"] ";"
                 | NAME ":" "{" statement* terminator "}"
      type       = "&" REGION ["mut"] type
                 | NAME ["<" argument ("," argument)* ">"]
      argument   = type | REGION
      statement  = place "=" "&" ["mut"] place ";"
                 | place "=" "call" NAME "(" [operand ("," operand)*] ")" [where] ";"
                 | place "=" operand ";"
                 | "use" "(" [operand ("," operand)*] ")" ";"
                 | "drop" "(" NAME ")" ";" | "storage_dead" "(" NAME ")" ";"
                 | bound ";" | "nop" ";"
      terminator = "goto" NAME ";" | "branch" [operand] "->" NAME ("," NAME)* ";"
                 | "return" ";" | "unreachable" ";"
      operand    = "copy" place | "move" place | "const" | place
      place      = "*" place | postfix
      postfix    = (NAME | "(" place ")") ("." NAME | "[" INT "]" | "[" NAME "]")*

  A rule that repeats or nests takes a bound on the number of tokens left; it is
  the number of tokens of the whole text, so it is never exhausted.
-/

namespace BorrowFlow.Source

/-- A parser reads tokens off the front of a list.  It fails with the tokens that
    it had left; the first of them is the one that does not fit. -/
abbrev ParseM := StateT (List Token) (Except (List Token))

namespace ParseM

/-! ## Single tokens -/

variable {α : Type}

/-- The next token does not fit. -/
def unexpected : ParseM α := fun tokens => .error tokens

/-- Look at the next lexeme. -/
def peek : ParseM (Option Lexeme) := fun tokens => .ok (tokens.head?.map Token.lexeme, tokens)

/-- Read any token. -/
def next : ParseM Token
  | [] => .error []
  | t :: rest => .ok (t, rest)

/-- Where the next token begins. -/
def here : ParseM Pos
  | [] => .ok (default, [])
  | t :: rest => .ok (t.extent.start, t :: rest)

/-- Is the next token this one? -/
def nextIs (lexeme : Lexeme) : ParseM Bool := return (← peek) = some lexeme

/-- Read this token. -/
def expect (lexeme : Lexeme) : ParseM Token := do
  if ← nextIs lexeme then next else unexpected

/-- Read this mark. -/
def mark (m : Mark) : ParseM Token := expect (.mark m)

/-- Read this keyword. -/
def keyword (k : Keyword) : ParseM Token := expect (.keyword k)

/-- Read this token if it comes next, and say whether it did. -/
def accept (lexeme : Lexeme) : ParseM Bool := do
  if ← nextIs lexeme then
    let _ ← next
    return true
  else return false

/-- Read a name. -/
def name : ParseM String := do
  match ← peek with
  | some (.name text) =>
    let _ ← next
    return text
  | _ => unexpected

/-- Read a region. -/
def region : ParseM RegionName := do
  match ← peek with
  | some (.region text) =>
    let t ← next
    return ⟨text, t.extent⟩
  | _ => unexpected

/-- Read something that knows where it stands. -/
def located (p : ParseM (Extent → α)) : ParseM α := fun tokens => do
  let (place, rest) ← p tokens
  return (place (.covering (tokens.take (tokens.length - rest.length))), rest)

/-! ## Lists -/

/-- More items, each after a comma. -/
def moreAfterComma (item : ParseM α) : Nat → ParseM (List α)
  | 0 => unexpected
  | bound + 1 => do
    if ← accept (.mark .comma) then
      let x ← item
      let xs ← moreAfterComma item bound
      return x :: xs
    else return []

/-- One item or more, with commas between them. -/
def separated (bound : Nat) (item : ParseM α) : ParseM (List α) := do
  let x ← item
  let xs ← moreAfterComma item bound
  return x :: xs

/-- Items in parentheses, with commas between them, perhaps none. -/
def parenthesised (bound : Nat) (item : ParseM α) : ParseM (List α) := do
  let _ ← mark .parenOpen
  if ← accept (.mark .parenClose) then return []
  else
    let xs ← separated bound item
    let _ ← mark .parenClose
    return xs

end ParseM

open ParseM

/-! ## Places and operands -/

/-- The number written by decimal digits, however many they are. -/
def numberValue (digits : String) : Nat :=
  digits.toList.foldl (fun n c => 10 * n + (c.toNat - '0'.toNat)) 0

/-- The index between brackets. -/
def index : ParseM Projection := do
  match ← peek with
  | some (.number digits) =>
    let _ ← next
    return .constIndex (numberValue digits)
  | some (.name var) =>
    let _ ← next
    return .varIndex (some var)
  | _ => unexpected

/-- Fields and indices after a place. -/
def projections (p : Place) : Nat → ParseM Place
  | 0 => unexpected
  | bound + 1 => do
    match ← peek with
    | some (.mark .dot) =>
      let _ ← next
      let field ← name
      projections (p.project (.field field)) bound
    | some (.mark .bracketOpen) =>
      let _ ← next
      let step ← index
      let _ ← mark .bracketClose
      projections (p.project step) bound
    | _ => return p

/-- A place.  A dereference applies to everything after it, so what is to be
    taken of a dereferenced place needs parentheses. -/
def place : Nat → ParseM Place
  | 0 => unexpected
  | bound + 1 => do
    match ← peek with
    | some (.mark .star) =>
      let _ ← next
      let p ← place bound
      return p.project .deref
    | some (.mark .parenOpen) =>
      let _ ← next
      let p ← place bound
      let _ ← mark .parenClose
      projections p (bound + 1)
    | some (.name base) =>
      let _ ← next
      projections (.ofLocal base) (bound + 1)
    | _ => unexpected

/-- An operand; a bare place is copied. -/
def operand (bound : Nat) : ParseM Operand := do
  match ← peek with
  | some (.keyword .copy) =>
    let _ ← next
    return .copy (← place bound)
  | some (.keyword .move) =>
    let _ ← next
    return .move (← place bound)
  | some (.keyword .const) =>
    let _ ← next
    return .const
  | _ => return .copy (← place bound)

/-! ## Types and bounds -/

mutual

/-- A type. -/
def typeExpr : Nat → ParseM TypeExpr
  | 0 => unexpected
  | bound + 1 => do
    match ← peek with
    | some (.mark .ampersand) =>
      let _ ← next
      let r ← region
      let mutable ← accept (.keyword .mutable)
      let referent ← typeExpr bound
      return .ref r mutable referent
    | some (.name text) =>
      let _ ← next
      if ← accept (.mark .less) then
        let args ← separated bound (typeArgument bound)
        let _ ← mark .more
        return .named text args
      else return .named text []
    | _ => unexpected

/-- An argument of a named type: a type or a region. -/
def typeArgument : Nat → ParseM TypeExpr
  | 0 => unexpected
  | bound + 1 => do
    match ← peek with
    | some (.region text) =>
      let t ← next
      return .region ⟨text, t.extent⟩
    | _ => typeExpr bound

end

/-- `'a: 'b`. -/
def bound : ParseM BoundExpr := do
  let sub ← region
  let _ ← mark .colon
  let sup ← region
  return ⟨sub, sup⟩

/-- An optional clause of bounds. -/
def boundsClause (limit : Nat) : ParseM (List BoundExpr) := do
  if ← accept (.keyword .bounds) then separated limit bound else return []

/-! ## Statements -/

/-- The right-hand side of an assignment to `dest`. -/
def assignment (limit : Nat) (dest : Place) : ParseM StatementShape := do
  match ← peek with
  | some (.mark .ampersand) =>
    let _ ← next
    let mutable ← accept (.keyword .mutable)
    let p ← place limit
    return .borrow dest mutable p
  | some (.keyword .call) =>
    let _ ← next
    let func ← name
    let operands ← parenthesised limit (operand limit)
    let bounds ← boundsClause limit
    return .call dest func operands bounds
  | _ => return .assign dest (← operand limit)

/-- A name in parentheses. -/
def parenthesisedName : ParseM String := do
  let _ ← mark .parenOpen
  let text ← name
  let _ ← mark .parenClose
  return text

/-- A statement up to its semicolon, or nothing if none begins here. -/
def statementShape? (limit : Nat) : ParseM (Option StatementShape) := do
  match ← peek with
  | some (.keyword .use) =>
    let _ ← next
    return some (.use (← parenthesised limit (operand limit)))
  | some (.keyword .drop) =>
    let _ ← next
    return some (.drop (← parenthesisedName))
  | some (.keyword .storageDead) =>
    let _ ← next
    return some (.storageDead (← parenthesisedName))
  | some (.keyword .nop) =>
    let _ ← next
    return some .nop
  | some (.region _) => return some (.outlives (← bound))
  | some (.name _) | some (.mark .star) | some (.mark .parenOpen) =>
    -- a place comes first in every other statement
    let dest ← place limit
    let _ ← mark .equal
    return some (← assignment limit dest)
  | _ => return none

/-- The statements of a block, up to its terminator. -/
def statements (limit : Nat) : Nat → ParseM (List StatementExpr)
  | 0 => unexpected
  | rounds + 1 => do
    let start ← here
    match ← statementShape? limit with
    | some shape =>
      let close ← mark .semicolon
      let rest ← statements limit rounds
      return ⟨shape, ⟨start, close.extent.stop⟩⟩ :: rest
    | none => return []

/-- A terminator up to its semicolon. -/
def terminatorShape (limit : Nat) : ParseM TerminatorShape := do
  match ← peek with
  | some (.keyword .goto) =>
    let _ ← next
    return .goto (← name)
  | some (.keyword .branch) =>
    let _ ← next
    -- without an operand the choice is left open
    let cond ← if ← nextIs (.mark .arrow) then pure none else some <$> operand limit
    let _ ← mark .arrow
    return .branch cond (← separated limit name)
  | some (.keyword .ret) =>
    let _ ← next
    return .ret
  | some (.keyword .unreachable) =>
    let _ ← next
    return .unreachable
  | _ => unexpected

/-- A terminator. -/
def terminator (limit : Nat) : ParseM TerminatorExpr := do
  let start ← here
  let shape ← terminatorShape limit
  let close ← mark .semicolon
  return ⟨shape, ⟨start, close.extent.stop⟩⟩

/-! ## Items and functions -/

/-- The declaration of a local. -/
def declaration (limit : Nat) : ParseM LetDecl := do
  let start ← here
  let _ ← keyword .declare
  let text ← name
  let _ ← mark .colon
  let ty ← typeExpr limit
  let drops ← if ← accept (.keyword .drops) then some <$> parenthesised limit region
    else pure none
  let close ← mark .semicolon
  return ⟨text, ty, drops, ⟨start, close.extent.stop⟩⟩

/-- A block. -/
def block (limit : Nat) : ParseM BlockDecl := do
  let start ← here
  let text ← name
  let stop := start.after (.name text)
  let _ ← mark .colon
  let _ ← mark .braceOpen
  let body ← statements limit limit
  let last ← terminator limit
  let _ ← mark .braceClose
  return ⟨text, ⟨start, stop⟩, body, last⟩

/-- The items of a function, up to its closing brace. -/
def items (limit : Nat) : Nat → ParseM (List Item)
  | 0 => unexpected
  | rounds + 1 => do
    match ← peek with
    | some (.keyword .declare) =>
      let d ← declaration limit
      let rest ← items limit rounds
      return .declaration d :: rest
    | some (.name _) =>
      let b ← block limit
      let rest ← items limit rounds
      return .block b :: rest
    | _ => return []

/-- A parameter. -/
def param (limit : Nat) : ParseM ParamDecl := located do
  let text ← name
  let _ ← mark .colon
  let ty ← typeExpr limit
  return fun extent => ⟨text, ty, extent⟩

/-- A function. -/
def function (limit : Nat) : ParseM FunctionDecl := do
  let start ← here
  let _ ← keyword .function
  let text ← name
  let params ← parenthesised limit (param limit)
  let clause ← located do
    let bounds ← boundsClause limit
    return fun extent => (bounds, extent)
  let _ ← mark .braceOpen
  let body ← items limit limit
  let close ← mark .braceClose
  return ⟨text, params, clause.1, clause.2, body, ⟨start, close.extent.stop⟩⟩

/-- The functions of a program, up to its end. -/
def functions (limit : Nat) : Nat → ParseM (List FunctionDecl)
  | 0 => unexpected
  | rounds + 1 => do
    match ← peek with
    | none => return []
    | some _ =>
      let f ← function limit
      let rest ← functions limit rounds
      return f :: rest

/-! ## Whole texts -/

/-- Why a text is no program. -/
inductive SyntaxFault where
  /-- A character that begins no token. -/
  | stray (c : Char) (pos : Pos)
  /-- A token that cannot continue any program. -/
  | unexpected (t : Token)
  /-- The text ends too early; the position is that of its last token. -/
  | unfinished (last : Pos)
  deriving DecidableEq, Inhabited

/-- Parse the tokens of a text.  A stray character counts only if the tokens
    before it can begin a program. -/
def parseTokens (tokens : List Token) (ending : Ending) : Except SyntaxFault (List FunctionDecl) :=
  let limit := tokens.length + 1
  match (functions limit limit).run tokens with
  | .error (t :: _) => .error (.unexpected t)
  | .error [] =>
    match ending with
    | .stray c pos => .error (.stray c pos)
    | .finished => .error (.unfinished ((tokens.getLast?.map fun t => t.extent.start).getD .first))
  | .ok (program, _) =>
    match ending with
    | .stray c pos => .error (.stray c pos)
    | .finished => .ok program

/-- Parse a text. -/
def parseText (text : String) : Except SyntaxFault (List FunctionDecl) :=
  let (tokens, ending) := lex text
  parseTokens tokens ending

end BorrowFlow.Source
