import BorrowFlow.Analysis.Basic

/-! # Reports of an analysis

  What an analysis says to the outside: a JSON report, findings for the user, an
  exit code, plain dumps of single tables, and the lines of a log.
-/

namespace BorrowFlow

/-- Names joined by commas, or a dash if that leaves nothing to see: if there are
    none, or a single one that is empty. -/
def listed (names : List String) : String :=
  let text := ", ".intercalate names
  if text.isEmpty then "-" else text

/-- The names of some loans, in order. -/
def loanNames (s : LoanSet) : List String := (SortedSet.image Loan.name s).toList

/-- The names of some regions, in order. -/
def regionNames (s : SortedSet Region) : List String := (SortedSet.image Region.name s).toList

/-- The origins of an edge in words, in order. -/
def SubsetGraph.originTexts (g : SubsetGraph) (e : Edge) : List String :=
  (SortedSet.ofList ((g.origins e).map fun
    | some p => p.render
    | none => "signature")).toList

/-- The points of a region's value, in layout order. -/
def RegionValue.layoutPoints (v : RegionValue) (b : Body) : List String :=
  (b.points.filter (· ∈ v.points)).map Point.render

namespace Analysis

/-! ## JSON -/

/-- A table over the points of the body. -/
def pointTable (a : Analysis) (f : Point → List String) : Json :=
  .obj (a.body.points.map fun p => (p.render, .strs (f p)))

/-- The report of an analysis. -/
def toJson (a : Analysis) : Json :=
  match a.outcome with
  | .unknown reason =>
    .obj [("function", .str a.body.name), ("status", .str "unknown"), ("reason", .str reason)]
  | .complete f =>
    .obj [
      ("function", .str a.body.name),
      ("status", .str "complete"),
      ("liveness", a.pointTable fun p => (f.liveness.liveIn p).toList),
      ("live_regions", a.pointTable fun p => regionNames (f.liveness.regionsLive p)),
      ("active_loans", a.pointTable fun p => loanNames (f.active.active p)),
      ("subset_edges", .arr (f.graph.edges.toList.map fun e => .strs [e.src.name, e.dst.name])),
      ("regions", .obj (f.values.map fun v => (v.region.name, .obj [
        ("loans", .strs (loanNames v.loans)),
        ("points", .strs (v.layoutPoints a.body))]))),
      ("conflicts", .arr (f.conflicts.map Conflict.toJson))]

/-- The report in its canonical written form. -/
def canonical (a : Analysis) : String := a.toJson.write .canonical

/-! ## Findings and exit code -/

/-- The findings of one analysis: its conflicts, or that it did not finish. -/
def diagnostics (a : Analysis) : List Diagnostic :=
  match a.outcome with
  | .complete f => f.conflicts.map (Conflict.toDiagnostic a.body)
  | .unknown reason => [{
      message := "analysis of '" ++ a.body.name ++
        "' did not finish; result unknown (" ++ reason ++ ")"
      code := some "E_ANALYSIS_ABORTED"
      phase := some "driver"
      span := a.body.span }]

/-- The exit code of a run: 1 if the input is malformed or there is a conflict,
    2 if some result is unknown, 0 otherwise. -/
def exitCode (malformed : List Diagnostic) (results : List Analysis) : Nat :=
  if !malformed.isEmpty || results.any hasConflicts then 1
  else if results.any (!·.isComplete) then 2
  else 0

/-! ## Dumps -/

/-- There is no table of this name. -/
structure DumpFault where
  kind : String
  deriving DecidableEq

/-- The wording of a request for an unknown table. -/
def DumpFault.message (f : DumpFault) : String :=
  "unknown dump kind '" ++ f.kind ++ "' (driver bug)"

/-- A text set flush left in a column of the given width. -/
def padRight (width : Nat) (s : String) : String :=
  s ++ String.ofList (List.replicate (width - s.length) ' ')

/-- The head of a line about a point: the point and its statement. -/
def pointHead (b : Body) (p : Point) : String :=
  "  " ++ p.render ++ ": " ++ padRight 28 (b.facts p).text ++ " "

/-- A list of names in braces. -/
def braced (names : List String) : String := "\x7b" ++ listed names ++ "\x7d"

/-- The lines of the liveness table. -/
def livenessLines (b : Body) (f : Findings) : List String :=
  b.points.map fun p => pointHead b p ++ "live " ++ braced (f.liveness.liveIn p).toList ++
    " regions " ++ braced (regionNames (f.liveness.regionsLive p))

/-- The lines of the loans: each loan, then the active ones at each point. -/
def loanLines (b : Body) (f : Findings) : List String :=
  (b.loans.map fun l => "  " ++ l.name ++ " = &" ++ (if l.isMutable then "mut " else "") ++
    l.place.render ++ " @ " ++ l.point.render) ++
  b.points.map fun p => pointHead b p ++ "active " ++ braced (loanNames (f.active.active p))

/-- The lines of the values of the regions, by name. -/
def regionLines (b : Body) (f : Findings) : List String :=
  (f.values.mergeSort fun v w => decide (v.region.name ≤ w.region.name)).map fun v =>
    "  " ++ v.region.name ++ (if v.region.universal then " (universal)" else "") ++
      ": loans " ++ braced (loanNames v.loans) ++ " points " ++ braced (v.layoutPoints b)

/-- The lines of the subset graph. -/
def graphLines (f : Findings) : List String :=
  f.graph.edges.toList.map fun e => "  " ++ e.src.name ++ " -> " ++ e.dst.name ++
    "  [" ++ ", ".intercalate (f.graph.originTexts e) ++ "]"

/-- The names of the tables that can be dumped. -/
def dumpKinds : List String := ["liveness", "loans", "regions", "graph"]

/-- A plain dump of one table of an analysis. -/
def dump (kind : String) (a : Analysis) : Except DumpFault (List String) := do
  let title := "== " ++ kind ++ " of " ++ a.body.name ++ " =="
  match a.outcome with
  | .unknown reason => return [title, "  (unknown: " ++ reason ++ ")"]
  | .complete f =>
    if kind = "liveness" then return title :: livenessLines a.body f
    else if kind = "loans" then return title :: loanLines a.body f
    else if kind = "regions" then return title :: regionLines a.body f
    else if kind = "graph" then return title :: graphLines f
    else .error ⟨kind⟩

/-! ## Log -/

/-- How important a log line is. -/
inductive LogLevel where
  | debug
  | info
  | warning
  deriving DecidableEq

/-- A line of the log. -/
structure LogLine where
  level : LogLevel
  /-- The part of the checker that speaks. -/
  source : String
  text : String

/-- The line as it is shown. -/
def LogLine.render (l : LogLine) : String :=
  let level := match l.level with
    | .debug => "DEBUG"
    | .info => "INFO"
    | .warning => "WARNING"
  level ++ " loanck." ++ l.source ++ ": " ++ l.text

/-- What an analysis logs. -/
def log (a : Analysis) : List LogLine :=
  let name := "'" ++ a.body.name ++ "'"
  match a.outcome with
  | .unknown reason =>
    [⟨.warning, "pipeline", "analysis of " ++ name ++ " aborted: " ++ reason⟩]
  | .complete f => [
      ⟨.debug, "liveness", "liveness of " ++ name ++ " converged after " ++
        toString f.liveness.sweeps ++ " changing sweeps"⟩,
      ⟨.debug, "subset_graph", "subset graph of " ++ name ++ ": " ++
        toString f.graph.nodes.size ++ " nodes, " ++ toString f.graph.edges.size ++ " edges"⟩,
      ⟨.debug, "active_loans", "active loans of " ++ name ++ " converged after " ++
        toString f.active.sweeps ++ " changing sweeps"⟩,
      ⟨.debug, "pipeline", name ++ ": " ++ toString a.body.loans.length ++ " loans, " ++
        toString f.conflicts.length ++ " conflicts"⟩]

end Analysis

end BorrowFlow
