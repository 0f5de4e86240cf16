import BorrowFlow.Analysis.Report
import BorrowFlow.Text.Quoted
import BorrowFlow.Text.Digit

/-! # Switches

  The switches of the command and how an argument names them.  A long switch may
  be shortened as long as only one fits, and may carry its value after an equals
  sign; short switches may be written together.

  - `Switch`: the switches and their spellings.
  - `Slot`: what an argument is, before it is known what it is used for.
  - `Mention.expand`: what an argument that names a switch asks for.
-/

namespace BorrowFlow.CommandLine

open Text

/-! ## The switches -/

/-- The switches of the command. -/
inductive Switch where
  | help
  | impreciseDrops
  | deadline
  | jobs
  | json
  | dump
  | verbose
  deriving DecidableEq

namespace Switch

/-- All switches, in the order in which they are listed to the user. -/
def all : List Switch := [.help, .impreciseDrops, .deadline, .jobs, .json, .dump, .verbose]

/-- The spellings of a switch. -/
def spellings : Switch → List String
  | .help => ["-h", "--help"]
  | .impreciseDrops => ["--imprecise-drops"]
  | .deadline => ["--deadline"]
  | .jobs => ["--jobs"]
  | .json => ["--json"]
  | .dump => ["--dump"]
  | .verbose => ["-v", "--verbose"]

/-- Does the switch need a value? -/
def takesValue : Switch → Bool
  | .deadline | .jobs | .dump => true
  | .help | .impreciseDrops | .json | .verbose => false

/-- A switch as messages call it. -/
def label (s : Switch) : String := "/".intercalate s.spellings

/-- Every spelling with its switch. -/
def table : List (String × Switch) := all.flatMap fun s => s.spellings.map fun t => (t, s)

/-- The switch of an exact spelling. -/
def ofSpelling? (t : String) : Option Switch := (table.find? fun e => e.1 = t).map Prod.snd

end Switch

/-! ## Misuse -/

/-- Why the arguments of the command cannot be used. -/
inductive UsageFault where
  /-- Several switches fit a shortened one. -/
  | ambiguous (arg : String) (candidates : List String)
  /-- A switch that takes no value has one. -/
  | unusedValue (s : Switch) (value : String)
  /-- A switch that takes a value has none. -/
  | noValue (s : Switch)
  | notInteger (s : Switch) (value : String)
  | notNumber (s : Switch) (value : String)
  | notChoice (s : Switch) (value : String) (choices : List String)
  | noSource
  /-- Arguments that are left over. -/
  | unrecognized (args : List String)
  | negativeDeadline
  | noJob
  deriving DecidableEq

/-- The wording of a fault that concerns one switch. -/
def Switch.complain (s : Switch) (text : String) : String := "argument " ++ s.label ++ ": " ++ text

/-- The wording of a fault. -/
def UsageFault.message : UsageFault → String
  | .ambiguous arg candidates =>
    "ambiguous option: " ++ arg ++ " could match " ++ ", ".intercalate candidates
  | .unusedValue s value => s.complain ("ignored explicit argument " ++ quoted value)
  | .noValue s => s.complain "expected one argument"
  | .notInteger s value => s.complain ("invalid int value: " ++ quoted value)
  | .notNumber s value => s.complain ("invalid float value: " ++ quoted value)
  | .notChoice s value choices =>
    s.complain ("invalid choice: " ++ quoted value ++ " (choose from " ++
      ", ".intercalate (choices.map quoted) ++ ")")
  | .noSource => "the following arguments are required: source"
  | .unrecognized args => "unrecognized arguments: " ++ " ".intercalate args
  | .negativeDeadline => "--deadline must be non-negative"
  | .noJob => "--jobs must be at least 1"

/-! ## Slots -/

/-- An argument that names a switch. -/
structure Mention where
  switch : Switch
  /-- Is the switch named by its single letter? -/
  short : Bool := false
  /-- What is written in the same argument after the switch. -/
  attached : Option String := none

/-- What an argument is by itself. -/
inductive Slot where
  | value (text : String)
  | mention (m : Mention)
  /-- It looks like a switch and is none. -/
  | unknown (text : String)
  /-- The first double dash, after which there are no switches. -/
  | endMark

/-- Split an argument at its first equals sign. -/
def splitEquals (cs : List Char) : String × Option String :=
  let head := String.ofList (cs.takeWhile (· ≠ '='))
  match cs.dropWhile (· ≠ '=') with
  | [] => (head, none)
  | _ :: value => (head, some (String.ofList value))

/-- The mention of a switch by one of its spellings. -/
def Switch.mentionBy (s : Switch) (spelling : String) (attached : Option String) : Mention where
  switch := s
  short := spelling.length == 2
  attached := attached

/-- The switches that an argument may shorten, each with its spelling.  A long
    switch fits if it begins with the part before the equals sign, a short one
    if it is how the argument begins. -/
def candidates (cs : List Char) : List (String × Mention) :=
  match cs with
  | '-' :: '-' :: _ =>
    let (head, attached) := splitEquals cs
    (Switch.table.filter fun e => head.toList.isPrefixOf e.1.toList).map fun e =>
      (e.1, e.2.mentionBy e.1 attached)
  | a :: b :: more =>
    (Switch.table.filter fun e => e.1 = String.ofList [a, b]).map fun e =>
      (e.1, e.2.mentionBy e.1 (some (String.ofList more)))
  | _ => []

/-- Does the argument look like a negative number?  A line feed at its end is
    overlooked. -/
def looksNegative (cs : List Char) : Bool :=
  let digits := (if cs.getLast? = some '\n' then cs.dropLast else cs).drop 1
  match digits.dropWhile isDigit with
  | [] => !digits.isEmpty
  | '.' :: part => !part.isEmpty && part.all isDigit
  | _ => false

/-- What an argument before the double dash is. -/
def classify (arg : String) : Except UsageFault Slot :=
  let cs := arg.toList
  if cs.head? ≠ some '-' ∨ arg = "-" then .ok (.value arg)
  else match Switch.ofSpelling? arg with
    | some s => .ok (.mention (s.mentionBy arg none))
    | none =>
      -- an exact spelling before the equals sign wins over any shortened one
      let (head, attached) := splitEquals cs
      match Switch.ofSpelling? head with
      | some s => .ok (.mention (s.mentionBy head attached))
      | none =>
        match candidates cs with
        | [(_, m)] => .ok (.mention m)
        | [] =>
          -- negative numbers and phrases are values in spite of their dash
          if looksNegative cs ∨ ' ' ∈ cs then .ok (.value arg) else .ok (.unknown arg)
        | several => .error (.ambiguous arg (several.map Prod.fst))

/-- What each argument is. -/
def slots : List String → Except UsageFault (List Slot)
  | [] => .ok []
  | "--" :: args => .ok (.endMark :: args.map .value)
  | arg :: args => do
    let s ← classify arg
    return s :: (← slots args)

/-! ## What a mention asks for -/

/-- The end of an argument that names switches. -/
inductive Tail where
  | nothing
  | valued (s : Switch) (value : String)
  /-- The value is the next argument. -/
  | awaiting (s : Switch)

/-- What one argument asks for: switches without a value, and then its end. -/
structure Cluster where
  flags : List Switch := []
  tail : Tail := .nothing

/-- One switch and nothing after it. -/
def Switch.alone (s : Switch) : Cluster :=
  if s.takesValue then { tail := .awaiting s } else { flags := [s] }

/-- A short switch with more characters after it.  They are its value if it takes
    one; otherwise the first of them has to be the letter of another switch. -/
def Switch.glued (s : Switch) : List Char → Except UsageFault Cluster
  | [] => .ok s.alone
  | c :: cs =>
    if s.takesValue then .ok { tail := .valued s (String.ofList (c :: cs)) }
    else match ofSpelling? (String.ofList ['-', c]) with
      | none => .error (.unusedValue s (String.ofList (c :: cs)))
      | some next => do
        let rest ← next.glued cs
        return { rest with flags := s :: rest.flags }

/-- What an argument that names a switch asks for.  After a short switch that takes
    no value, an equals sign changes nothing: what follows are more letters. -/
def Mention.expand (m : Mention) : Except UsageFault Cluster :=
  match m.attached with
  | none => .ok m.switch.alone
  | some text =>
    if m.switch.takesValue then .ok { tail := .valued m.switch text }
    else if m.short ∧ text ≠ "" then m.switch.glued text.toList
    else .error (.unusedValue m.switch text)

end BorrowFlow.CommandLine
