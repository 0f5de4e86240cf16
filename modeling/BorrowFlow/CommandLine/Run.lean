import BorrowFlow.CommandLine.Command
import BorrowFlow.CommandLine.FileTree
import BorrowFlow.Source.LongNumber
import BorrowFlow.Source.Read
import BorrowFlow.Text.Lines
import BorrowFlow.Text.Utf8

/-! # A run of the checker

  From arguments and files to what is printed.  The files are read in the order
  in which they are named; a function is analysed only if every file could be read
  and is well formed.

  - `Command.run`: a command over the files that it names.
  - `run`: the arguments of a command over a `FileTree`.
-/

namespace BorrowFlow.CommandLine

open Text

/-- Why a run breaks off. -/
inductive RunFault where
  /-- A number is needed, and its switch was given an empty value. -/
  | emptyNumber
  /-- There is a null character in a path. -/
  | nullInPath
  /-- A file is not UTF-8. -/
  | encoding (f : Utf8Fault)
  /-- A file is nested too deeply. -/
  | tooDeep
  /-- A number in a file has too many digits to be read. -/
  | longNumber (limit digits : Nat)
  /-- A body cannot be analysed. -/
  | analysis (f : AnalysisFault)
  /-- A table is asked for that there is not. -/
  | dump (f : Analysis.DumpFault)

/-- The wording of a fault. -/
def RunFault.message : RunFault → String
  | .emptyNumber => "'<' not supported between instances of 'list' and 'int'"
  | .nullInPath => "embedded null byte"
  | .encoding f => f.message
  | .tooDeep => "maximum recursion depth exceeded"
  | .longNumber limit digits =>
    "Exceeds the limit (" ++ toString limit ++ " digits) for integer string conversion: value has " ++
      toString digits ++ " digits; use sys.set_int_max_str_digits() to increase the limit"
  | .analysis f => f.message
  | .dump f => f.message

/-- How a run ends. -/
inductive Ending where
  /-- It comes to its end with an exit code. -/
  | exit (code : Nat)
  /-- It breaks off. -/
  | broken (f : RunFault)

/-- What a run prints, and how it ends. -/
structure Printed where
  ending : Ending
  stdout : String := ""
  stderr : String := ""

/-- Lines, each with a line feed at its end. -/
def unlines (lines : List String) : String := String.join (lines.map (· ++ "\n"))

/-! ## Help -/

/-- How the command is called. -/
def usageLines : List String := [
  "usage: loanck [-h] [--imprecise-drops] [--deadline SECONDS] [--jobs N]",
  "              [--json] [--dump \x7bliveness,loans,regions,graph\x7d] [-v]",
  "              source [source ...]"]

/-- The help text. -/
def helpLines : List String := usageLines ++ [
  "",
  "Region inference and loan conflict checker for textual CFGs",
  "",
  "positional arguments:",
  "  source                Path(s) to CFG text file(s)",
  "",
  "options:",
  "  -h, --help            show this help message and exit",
  "  --imprecise-drops     Treat every drop as a use of all regions of the dropped",
  "                        value",
  "  --deadline SECONDS    Wall-clock budget per function body; an expired run",
  "                        reports an unknown result",
  "  --jobs N              Analyse up to N function bodies concurrently",
  "  --json                Emit diagnostics and results as JSON",
  "  --dump \x7bliveness,loans,regions,graph\x7d",
  "                        Print an analysis output per function (repeatable; text",
  "                        mode only)",
  "  -v, --verbose         Log progress (repeat for debug output)"]

/-- What is printed if there is nothing to run. -/
def Halt.print : Halt → Printed
  | .help => { ending := .exit 0, stdout := unlines helpLines }
  | .usage f => {
      ending := .exit 2
      stderr := unlines (usageLines ++ ["loanck: error: " ++ f.message]) }
  | .emptyNumber => { ending := .broken .emptyNumber }

/-! ## Input -/

/-- A source and what reading it gave. -/
structure Input where
  path : Path
  content : Except ReadFault (List UInt8)

/-- A source that cannot be read is a finding. -/
def ReadFault.toDiagnostic (f : ReadFault) (p : Path) : Diagnostic where
  message := "cannot read input: " ++ f.message
  code := some "E_IO"
  phase := some "parser"
  span := { file := some p.render }

/-- The text of a file.  Line ends are unified before it is read, so that positions
    count them once. -/
def fileText (bytes : List UInt8) : Except RunFault String := do
  let text ← (decodeUtf8 bytes).mapError .encoding
  return String.ofList (unifyLineEnds text)

/-- The bodies of a source, or what is wrong with it. -/
def Input.bodies (i : Input) : Except RunFault (Except Diagnostic (List Body)) :=
  if i.path.hasNull then .error .nullInPath
  else match i.content with
  | .error f => .ok (.error (f.toDiagnostic i.path))
  | .ok bytes => do
    let text ← fileText bytes
    return Source.read text (some i.path.render)

/-- The text of a source that has one. -/
def Input.text? (i : Input) : Option String := do
  if i.path.hasNull then none
  let bytes ← i.content.toOption
  (fileText bytes).toOption

/-- The digits of the number at which a source cannot be read any further. -/
def Input.longNumber? (conv : Conventions) (i : Input) : Option Nat := do
  Source.longNumber? conv.maxDigits (← i.text?) (some i.path.render)

/-- The bodies of a source, or what is wrong with it, if it is not nested too deeply and its
    numbers can be read. -/
def Input.read (conv : Conventions) (i : Input) :
    Except RunFault (Except Diagnostic (List Body)) :=
  if i.text?.any conv.tooDeep then .error .tooDeep
  else match i.longNumber? conv with
    | some digits => .error (.longNumber conv.maxDigits digits)
    | none => i.bodies

/-- The findings of several sources, in order. -/
def malformed (read : List (Except Diagnostic (List Body))) : List Diagnostic :=
  read.flatMap fun
    | .error d => [d]
    | .ok _ => []

/-- The bodies of several sources, in order. -/
def wellFormed (read : List (Except Diagnostic (List Body))) : List Body :=
  read.flatMap fun
    | .error _ => []
    | .ok bodies => bodies

/-! ## Output -/

namespace Settings

/-- How the analysis is configured. -/
def options (s : Settings) : AnalysisOptions where
  preciseDrops := !s.impreciseDrops
  expired := s.deadline.any Seconds.isOver

/-- Is a line of the log shown? -/
def shows (s : Settings) (l : Analysis.LogLine) : Bool :=
  match l.level with
  | .debug => 2 ≤ s.verbosity
  | .info | .warning => 1 ≤ s.verbosity

end Settings

/-- What a run that analyses some bodies logs. -/
def logOf (s : Settings) (bodies : List Body) (results : List Analysis) :
    List Analysis.LogLine :=
  ⟨.info, "driver", "analysing " ++ toString bodies.length ++ " function bodies with " ++
    toString s.jobs ++ " job(s)"⟩ :: results.flatMap Analysis.log

/-- What a run found. -/
structure Verdict where
  malformed : List Diagnostic
  results : List Analysis
  log : List Analysis.LogLine

namespace Verdict

/-- All findings: about the input first, then about the bodies. -/
def diagnostics (v : Verdict) : List Diagnostic :=
  v.malformed ++ v.results.flatMap Analysis.diagnostics

/-- The exit code. -/
def exitCode (v : Verdict) : Nat := Analysis.exitCode v.malformed v.results

/-- The report of a whole run. -/
def toJson (v : Verdict) : Json :=
  .obj [
    ("exit_code", .int v.exitCode),
    ("diagnostics", .arr (v.diagnostics.map Diagnostic.toJson)),
    ("functions", .arr (v.results.map Analysis.toJson))]

/-- A finding with its notes. -/
def findingLines (d : Diagnostic) : List String :=
  d.render :: d.notes.map ("  note: " ++ ·)

/-- The tables that some requests ask for, up to the first one that cannot be met. -/
def dumpLines : List (Analysis × String) → List String × Option Analysis.DumpFault
  | [] => ([], none)
  | (a, kind) :: rest =>
    match a.dump kind with
    | .error f => ([], some f)
    | .ok lines =>
      let (more, fault) := dumpLines rest
      (lines ++ more, fault)

/-- The tables to dump: for each body all that were asked for, in order. -/
def dumps (v : Verdict) (kinds : List String) : List (Analysis × String) :=
  v.results.flatMap fun a => kinds.map fun kind => (a, kind)

/-- What is printed. -/
def print (v : Verdict) (s : Settings) : Printed :=
  let log := (v.log.filter s.shows).map Analysis.LogLine.render
  if s.json then {
    ending := .exit v.exitCode
    stdout := unlines [v.toJson.write .spaced]
    stderr := unlines log }
  else match dumpLines (v.dumps s.dumps) with
    | (lines, none) => {
        ending := .exit v.exitCode
        stdout := unlines lines
        stderr := unlines (log ++ v.diagnostics.flatMap findingLines) }
    -- the findings come after the tables, so they are not reached
    | (lines, some f) => {
        ending := .broken (.dump f)
        stdout := unlines lines
        stderr := unlines log }

end Verdict

/-! ## The run -/

/-- Check some sources. -/
def check (s : Settings) (inputs : List Input) (conv : Conventions := {}) :
    Except RunFault Verdict := do
  let read ← inputs.mapM (Input.read conv)
  -- one malformed source keeps all of them from being analysed
  let faults := malformed read
  if !faults.isEmpty then return ⟨faults, [], []⟩
  let bodies := wellFormed read
  let results ← (analyzeAll bodies s.options).mapError .analysis
  return ⟨[], results, logOf s bodies results⟩

/-- Run a command over the sources that it names. -/
def Command.run (c : Command) (inputs : List Input) (conv : Conventions := {}) : Printed :=
  match check c.settings inputs conv with
  | .ok v => v.print c.settings
  | .error f => { ending := .broken f }

/-- Run the command that some arguments write over files in memory. -/
def run (args : List String) (t : FileTree) (conv : Conventions := {}) : Printed :=
  match Command.parse args conv with
  | .error h => h.print
  | .ok c => c.run (c.sources.map fun p => ⟨p, t.read p⟩) conv

end BorrowFlow.CommandLine
