import BorrowFlow.CommandLine.Path
import BorrowFlow.CommandLine.Switch
import BorrowFlow.Seconds

/-! # The command

  What the arguments ask for.  Arguments are taken from left to right.  The
  sources are one unbroken row of arguments; whatever stands apart from it is left
  over, and arguments that are left over are refused.

  - `Command`: the sources and the settings.
  - `Command.parse`: the command that some arguments write.
-/

namespace BorrowFlow.CommandLine

/-! ## Settings -/

/-- What the surroundings of a run decide. -/
structure Conventions where
  /-- Does a double dash as the value of a switch leave the value empty?  Otherwise it is
      a value like any other. -/
  dashIsEmpty : Bool := true
  /-- The most digits that a whole number may have. -/
  maxDigits : Nat := 4300
  /-- The texts that are nested too deeply for the stack. -/
  tooDeep : String → Bool := fun _ => false

/-- The value of a switch.  It may be given and empty. -/
inductive Given (α : Type) where
  | value (a : α)
  | nothing
  deriving DecidableEq

namespace Given

/-- The value that a text gives. -/
def ofText {α : Type} (conv : Conventions) (fault : UsageFault) (read? : String → Option α)
    (text : String) : Except UsageFault (Given α) :=
  if conv.dashIsEmpty ∧ text = "--" then .ok .nothing
  else match read? text with
    | some a => .ok (.value a)
    | none => .error fault

/-- A text as it is shown; an empty value is a pair of brackets. -/
def render : Given String → String
  | .value s => s
  | .nothing => "[]"

end Given

/-- What the switches say. -/
structure Choices where
  impreciseDrops : Bool := false
  deadline : Option (Given Seconds) := none
  jobs : Given Int := .value 1
  json : Bool := false
  /-- The tables to dump, in order. -/
  dumps : List (Given String) := []
  /-- How often a more detailed log was asked for. -/
  verbosity : Nat := 0

/-- How a run is configured. -/
structure Settings where
  impreciseDrops : Bool := false
  deadline : Option Seconds := none
  jobs : Int := 1
  json : Bool := false
  /-- The names of the tables to dump, in order. -/
  dumps : List String := []
  /-- How often a more detailed log was asked for. -/
  verbosity : Nat := 0

/-- A run of the checker. -/
structure Command where
  settings : Settings
  sources : List Path

/-- Why there is nothing to run. -/
inductive Halt where
  /-- The user asked for help. -/
  | help
  | usage (f : UsageFault)
  /-- A number is needed, and its switch was given an empty value. -/
  | emptyNumber

/-- A number that is there. -/
def Given.number {α : Type} : Given α → Except Halt α
  | .value a => .ok a
  | .nothing => .error .emptyNumber

/-- The settings that the switches make, if their values are in range. -/
def Choices.settings (c : Choices) : Except Halt Settings := do
  let deadline ← c.deadline.mapM Given.number
  if deadline.any Seconds.isNegative then .error (.usage .negativeDeadline)
  let jobs ← c.jobs.number
  if jobs < 1 then .error (.usage .noJob)
  return {
    impreciseDrops := c.impreciseDrops
    deadline := deadline
    jobs := jobs
    json := c.json
    dumps := c.dumps.map Given.render
    verbosity := c.verbosity }

/-! ## Taking arguments -/

/-- How far the row of sources has come. -/
inductive Row where
  | ahead
  | underway
  | ended
  deriving DecidableEq

/-- The arguments taken so far. -/
structure Taken where
  choices : Choices := {}
  sources : List String := []
  row : Row := .ahead
  /-- Arguments that nothing asks for. -/
  leftover : List String := []

namespace Taken

/-- Leave an argument over. -/
def leave (t : Taken) (arg : String) : Taken := { t with leftover := t.leftover ++ [arg] }

/-- A switch ends the row of sources. -/
def interrupt (t : Taken) : Taken :=
  { t with row := if t.row = .ahead then .ahead else .ended }

/-- Take a plain argument: a source while the row goes on. -/
def take (t : Taken) (arg : String) : Taken :=
  if t.row = .ended then t.leave arg
  else { t with sources := t.sources ++ [arg], row := .underway }

/-- Take the double dash.  It belongs to the row of sources, but a row cannot
    consist of it alone. -/
def takeMark (t : Taken) (isLast : Bool) : Taken :=
  if t.row = .ended ∨ (t.row = .ahead ∧ isLast) then t.leave "--" else t

/-- Take a switch without a value. -/
def flag (t : Taken) (s : Switch) : Except Halt Taken :=
  let old := t.choices
  match s with
  | .help => .error .help
  | .impreciseDrops => .ok { t with choices := { old with impreciseDrops := true } }
  | .json => .ok { t with choices := { old with json := true } }
  | .verbose => .ok { t with choices := { old with verbosity := old.verbosity + 1 } }
  | .deadline | .jobs | .dump => .error (.usage (.noValue s))

/-- The table that a text names. -/
def dumpKind? (text : String) : Option String :=
  if text ∈ Analysis.dumpKinds then some text else none

/-- What the switches say after one more of them, with its value. -/
def choose (conv : Conventions) (old : Choices) (s : Switch) (value : String) :
    Except UsageFault Choices :=
  match s with
  | .deadline => do
    let d ← Given.ofText conv (.notNumber s value) Seconds.read? value
    return { old with deadline := some d }
  | .jobs => do
    let n ← Given.ofText conv (.notInteger s value) (Text.readInt? conv.maxDigits) value
    return { old with jobs := n }
  | .dump => do
    let kind ← Given.ofText conv (.notChoice s value Analysis.dumpKinds) dumpKind? value
    return { old with dumps := old.dumps ++ [kind] }
  | .help | .impreciseDrops | .json | .verbose => .error (.unusedValue s value)

/-- Take a switch with its value. -/
def valued (conv : Conventions) (t : Taken) (s : Switch) (value : String) : Except Halt Taken := do
  let choices ← (choose conv t.choices s value).mapError .usage
  return { t with choices := choices }

/-- Take what remains, from left to right. -/
def consume (conv : Conventions) (t : Taken) : List Slot → Except Halt Taken
  | [] => .ok t
  | .value arg :: rest => (t.take arg).consume conv rest
  | .endMark :: rest => (t.takeMark rest.isEmpty).consume conv rest
  | .unknown arg :: rest => (t.interrupt.leave arg).consume conv rest
  | .mention m :: rest => do
    let c ← m.expand.mapError .usage
    -- a value that is missing is noticed before any switch of the argument acts
    match c.tail with
    | .awaiting s =>
      match rest with
      | .value arg :: rest =>
        let t ← c.flags.foldlM flag t.interrupt
        (← t.valued conv s arg).consume conv rest
      | _ => .error (.usage (.noValue s))
    | .nothing => (← c.flags.foldlM flag t.interrupt).consume conv rest
    | .valued s value =>
      let t ← c.flags.foldlM flag t.interrupt
      (← t.valued conv s value).consume conv rest

/-- The command that the arguments make, if nothing is missing or left over. -/
def finish (t : Taken) : Except Halt Command := do
  if t.sources.isEmpty then .error (.usage .noSource)
  -- only a complete command is blamed for what it does not use
  if !t.leftover.isEmpty then .error (.usage (.unrecognized t.leftover))
  return ⟨← t.choices.settings, t.sources.map Path.ofString⟩

end Taken

/-- The command that some arguments write. -/
def Command.parse (args : List String) (conv : Conventions := {}) : Except Halt Command := do
  -- every argument is classified before the first one is taken
  let slots ← (slots args).mapError .usage
  let taken ← Taken.consume conv {} slots
  taken.finish

end BorrowFlow.CommandLine
