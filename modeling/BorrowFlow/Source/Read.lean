import BorrowFlow.Diagnostic
import BorrowFlow.Source.Elaborate
import BorrowFlow.Source.Parser
import BorrowFlow.Text.Lines
import BorrowFlow.Text.Quoted

/-! # Reading source texts

  A source text yields its bodies or one finding, never both: a text that is
  only partly right is not analysed.  The finding points at the character, token
  or statement where the text goes wrong.
-/

namespace BorrowFlow.Source

namespace SyntaxFault

/-- Where a syntax fault is. -/
def pos : SyntaxFault → Pos
  | .stray _ pos => pos
  | .unexpected t => t.extent.start
  | .unfinished last => last

/-- The message about a token that does not fit. -/
def unexpectedMessage (label text : String) (pos : Pos) : String :=
  "Unexpected token Token('" ++ label ++ "', " ++ Text.quoted text ++ ") at line " ++
    toString pos.line ++ ", column " ++ toString pos.column ++ "."

/-- The wording of a syntax fault, one line of it. -/
def message : SyntaxFault → String
  | .stray c pos => Text.firstLine
      ("No terminal matches '" ++ String.singleton c ++ "' in the current parser context, at line " ++
        toString pos.line ++ " col " ++ toString pos.column)
  | .unexpected t => unexpectedMessage t.lexeme.label t.lexeme.text t.extent.start
  | .unfinished last => unexpectedMessage "$END" "" last

/-- A syntax fault as a finding; its span has no end. -/
def toDiagnostic (file : Option String) (f : SyntaxFault) : Diagnostic where
  message := f.message
  code := some "E_PARSE"
  phase := some "parser"
  span := { file := file, line := some f.pos.line, column := some f.pos.column }

end SyntaxFault

namespace ElaborationFault

/-- The wording of an elaboration fault. -/
def message : ElaborationFault → String
  | .build e => e.fault.message
  | .draft body f => f.message body
  | .functionTwice name first _ =>
    "function '" ++ name ++ "' defined twice (first at " ++ first.render ++ ")"

/-- Where an elaboration fault is. -/
def span (file : Option String) : ElaborationFault → Span
  | .build e => e.span.getD { file := file }
  | .draft _ _ => { file := file }
  | .functionTwice _ _ second => second

/-- An elaboration fault as a finding. -/
def toDiagnostic (file : Option String) (f : ElaborationFault) : Diagnostic where
  message := f.message
  code := some "E_CFG"
  phase := some "parser"
  span := f.span file

end ElaborationFault

/-- The bodies of a source text, or what is wrong with it. -/
def read (text : String) (file : Option String := none) : Except Diagnostic (List Body) :=
  match parseText text with
  | .error f => .error (f.toDiagnostic file)
  | .ok program =>
    match bodies file program with
    | .error f => .error (f.toDiagnostic file)
    | .ok bodies => .ok bodies

end BorrowFlow.Source
