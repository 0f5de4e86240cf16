import BorrowFlow.CommandLine.Run
import BorrowFlow.Proofs.Budget
import BorrowFlow.Proofs.CommandLine.Acceptance
import BorrowFlow.Proofs.Source.LongNumber

/-! # Findings and exit codes

    The exit code of a run and the findings that it reports are worked out by different
    functions, over the same list of analyses: complete or aborted, with conflicts or without.
    They agree on every such list (`Verdict.agrees_of_malformed`).

    A run over files that can be decoded comes to a verdict, if their numbers can be read
    (`exists_check`).  Whether it is shown depends on the tables that are asked for
    (`Verdict.print_spec`): an empty value may pass for the name of a table, and is refused only
    once a body has been analysed.
-/

namespace BorrowFlow

/-! ## Codes of findings -/

/-- A notice that an analysis was aborted. -/
def Diagnostic.IsNotice (d : Diagnostic) : Prop := d.code = some "E_ANALYSIS_ABORTED"

theorem Diagnostic.not_isNotice {d : Diagnostic} {code : String} (hcode : d.code = some code)
    (hne : code ≠ "E_ANALYSIS_ABORTED") : ¬ d.IsNotice := by
  rw [IsNotice, hcode]
  exact fun h => hne (Option.some.inj h)

theorem Conflict.not_isNotice_toDiagnostic (b : Body) (c : Conflict) :
    ¬ (c.toDiagnostic b).IsNotice := by
  have hcode : (c.toDiagnostic b).code = some (c.wording (b.facts c.point)).1 := rfl
  rw [Diagnostic.IsNotice, hcode, wording]
  cases c.kind with
  | read => simp
  | move => simp
  | storageDead => simp
  | write =>
    dsimp only
    split
    · simp
    · split <;> simp

namespace Analysis

variable {a : Analysis}

theorem diagnostics_eq_nil_iff :
    a.diagnostics = [] ↔ a.isComplete = true ∧ a.hasConflicts = false := by
  rw [diagnostics, isComplete, hasConflicts]
  cases a.outcome with
  | complete f => simp
  | unknown reason => simp

/-- The findings of an analysis are notices if there is no conflict among them. -/
theorem forall_isNotice_iff :
    (∀ d ∈ a.diagnostics, d.IsNotice) ↔ a.hasConflicts = false := by
  rw [diagnostics, hasConflicts]
  cases a.outcome with
  | unknown reason => simp [Diagnostic.IsNotice]
  | complete f =>
    simp [Conflict.not_isNotice_toDiagnostic, List.eq_nil_iff_forall_not_mem]

/-- **The findings of an analysis**: one for each conflict, or a notice. -/
inductive Reports (a : Analysis) : List Diagnostic → Prop where
  | conflicts {f : Findings} (h : a.outcome = .complete f) :
      Reports a (f.conflicts.map (Conflict.toDiagnostic a.body))
  | notice {reason : String} {d : Diagnostic} (h : a.outcome = .unknown reason)
      (hd : d.IsNotice) : Reports a [d]

theorem reports_diagnostics (results : List Analysis) :
    List.Forall₂ Reports results (results.map diagnostics) := by
  rw [List.forall₂_map_right_iff, List.forall₂_same]
  intro a _
  rw [diagnostics]
  cases houtcome : a.outcome with
  | complete f => exact .conflicts houtcome
  | unknown reason => exact .notice houtcome rfl

variable {malformed : List Diagnostic} {results : List Analysis}

/-- The exit code, told by what all analyses have in common. -/
theorem exitCode_eq : exitCode malformed results =
    if malformed = [] ∧ ∀ a ∈ results, a.hasConflicts = false then
      if ∀ a ∈ results, a.isComplete = true then 0 else 2
    else 1 := by
  have hclean : (!malformed.isEmpty || results.any hasConflicts) = true ↔
      ¬ (malformed = [] ∧ ∀ a ∈ results, a.hasConflicts = false) := by
    simp [imp_iff_not_or]
  have hcomplete : (results.any fun a => !a.isComplete) = true ↔
      ¬ ∀ a ∈ results, a.isComplete = true := by
    simp
  -- conflicts are asked for first, so an aborted analysis counts only if there is none
  rw [exitCode]
  by_cases h : malformed = [] ∧ ∀ a ∈ results, a.hasConflicts = false
  · rw [if_neg (fun h' => hclean.mp h' h), if_pos h]
    by_cases h' : ∀ a ∈ results, a.isComplete = true
    · rw [if_neg (fun h'' => hcomplete.mp h'' h'), if_pos h']
    · rw [if_pos (hcomplete.mpr h'), if_neg h']
  · rw [if_pos (hclean.mpr h), if_neg h]

/-- **No findings, no complaint.** -/
theorem exitCode_eq_zero_iff :
    exitCode malformed results = 0 ↔ malformed ++ results.flatMap diagnostics = [] := by
  simp only [exitCode_eq, List.append_eq_nil_iff, List.flatMap_eq_nil_iff, diagnostics_eq_nil_iff]
  constructor
  · intro hcode
    split at hcode
    · next h =>
      split at hcode
      · next h' => exact ⟨h.1, fun a ha => ⟨h' a ha, h.2 a ha⟩⟩
      · cases hcode
    · cases hcode
  · rintro ⟨hnone, h⟩
    rw [if_pos ⟨hnone, fun a ha => (h a ha).2⟩, if_pos fun a ha => (h a ha).1]

/-- **Nothing but notices.** -/
theorem exitCode_eq_two_iff (h : ∀ d ∈ malformed, ¬ d.IsNotice) :
    exitCode malformed results = 2 ↔ malformed ++ results.flatMap diagnostics ≠ [] ∧
      ∀ d ∈ malformed ++ results.flatMap diagnostics, d.IsNotice := by
  have hnotices : (∀ d ∈ malformed ++ results.flatMap diagnostics, d.IsNotice) ↔
      malformed = [] ∧ ∀ a ∈ results, a.hasConflicts = false := by
    simp only [List.forall_mem_append, List.forall_mem_flatMap, forall_isNotice_iff]
    refine and_congr_left fun _ => ⟨fun h' => ?_, fun h' => by simp [h']⟩
    exact List.eq_nil_iff_forall_not_mem.mpr fun d hd => h d hd (h' d hd)
  rw [hnotices, ne_eq, ← exitCode_eq_zero_iff, exitCode_eq]
  constructor
  · intro hcode
    split at hcode
    · next hclean => exact ⟨by rw [if_pos hclean, hcode]; decide, hclean⟩
    · cases hcode
  · rintro ⟨hcode, hclean⟩
    rw [if_pos hclean] at hcode ⊢
    split
    · next hcomplete => exact absurd (if_pos hcomplete) hcode
    · rfl

theorem exitCode_le_two : exitCode malformed results ≤ 2 := by
  rw [exitCode_eq]
  split
  · split <;> simp
  · simp

end Analysis

/-! ## Reading -/

/-- What reading a source may give: a finding of the parser, or bodies whose analysis comes to
    an end. -/
inductive Source.Readable : Except Diagnostic (List Body) → Prop where
  | finding {d : Diagnostic} (hphase : d.phase = some "parser") (hcode : ¬ d.IsNotice) :
      Readable (.error d)
  | bodies {bodies : List Body} (h : ∀ b ∈ bodies, Source.Good b) : Readable (.ok bodies)

theorem Source.readable_read (text : String) (file : Option String) :
    Source.Readable (Source.read text file) := by
  rw [Source.read]
  cases Source.parseText text with
  | error fault => exact .finding rfl (Diagnostic.not_isNotice rfl (by decide))
  | ok program =>
    rcases Source.bodies_good_or_located file program with
      ⟨found, hfound, hgood⟩ | ⟨fault, hfault, _⟩
    · simp only [hfound]
      exact .bodies hgood
    · simp only [hfault]
      exact .finding rfl (Diagnostic.not_isNotice rfl (by decide))

namespace CommandLine

open Text

/-- **A source of text**: its path can be that of a file, and what is read of it is UTF-8. -/
structure Input.Legible (i : Input) : Prop where
  path : i.path.hasNull = false
  content : ∀ bytes, i.content = .ok bytes → ∃ text, decodeUtf8 bytes = .ok text

theorem fileText_of_decode {bytes : List UInt8} {text : List Char}
    (h : decodeUtf8 bytes = .ok text) : fileText bytes = .ok (String.ofList (unifyLineEnds text)) := by
  rw [fileText, h]
  rfl

/-- What reading a file of text gives. -/
theorem Input.bodies_of_fileText {i : Input} (hpath : i.path.hasNull = false) {bytes : List UInt8}
    (hcontent : i.content = .ok bytes) {text : String} (htext : fileText bytes = .ok text) :
    i.bodies = .ok (Source.read text (some i.path.render)) := by
  rw [Input.bodies, if_neg (by simp [hpath]), hcontent]
  simp only [htext]
  rfl

theorem Input.Legible.exists_bodies {i : Input} (h : i.Legible) :
    ∃ r, i.bodies = .ok r ∧ Source.Readable r := by
  cases hcontent : i.content with
  | error fault =>
    refine ⟨.error (fault.toDiagnostic i.path), ?_,
      .finding rfl (Diagnostic.not_isNotice rfl (by decide))⟩
    rw [Input.bodies, if_neg (by simp [h.path]), hcontent]
  | ok bytes =>
    obtain ⟨text, htext⟩ := h.content bytes hcontent
    exact ⟨_, Input.bodies_of_fileText h.path hcontent (fileText_of_decode htext),
      Source.readable_read _ _⟩

theorem exists_read {inputs : List Input} (h : ∀ i ∈ inputs, i.Legible) :
    ∃ read, inputs.mapM Input.bodies = .ok read ∧ ∀ r ∈ read, Source.Readable r := by
  obtain ⟨read, hread, hall⟩ :=
    exists_mapM_ok (P := fun _ r => Source.Readable r) fun i hi => (h i hi).exists_bodies
  refine ⟨read, hread, fun r hr => ?_⟩
  obtain ⟨_, _, hreadable⟩ := exists_mem_of_forall₂ hall.flip hr
  exact hreadable

theorem Input.text?_eq_some {i : Input} {text : String} (h : i.text? = some text) :
    i.path.hasNull = false ∧ ∃ bytes, i.content = .ok bytes ∧ fileText bytes = .ok text := by
  rw [Input.text?] at h
  split at h
  · cases h
  · next hpath =>
    obtain ⟨bytes, hbytes, htext⟩ := Option.bind_eq_some_iff.mp h
    exact ⟨Bool.eq_false_iff.mpr hpath, bytes, toOption_eq_some.mp hbytes,
      toOption_eq_some.mp htext⟩

/-- A number of so many digits stands in the text of a source. -/
def Input.HasNumber (i : Input) (n : Nat) : Prop :=
  ∃ text, i.text? = some text ∧
    ∃ t ∈ (Source.lex text).1, ∃ digits, t.lexeme = .number digits ∧ digits.length = n

/-- **A source stops the run**, although there is nothing wrong with it: its text is nested too
    deeply, or it can be read no further than to a number that has too many digits. -/
inductive Input.Stops (conv : Conventions) (i : Input) : RunFault → Prop where
  | tooDeep {text : String} (htext : i.text? = some text) (hdeep : conv.tooDeep text = true) :
      Stops conv i .tooDeep
  | longNumber {n : Nat} (hreached : i.longNumber? conv = some n) (hlimit : conv.maxDigits < n)
      (hnumber : i.HasNumber n) : Stops conv i (.longNumber conv.maxDigits n)

section Stops

variable {conv : Conventions} {i : Input}

theorem Input.Stops.of_longNumber? {n : Nat} (h : i.longNumber? conv = some n) :
    i.Stops conv (.longNumber conv.maxDigits n) := by
  obtain ⟨text, htext, hnumber⟩ := Option.bind_eq_some_iff.mp h
  obtain ⟨hlimit, hdigits⟩ := Source.exists_number_of_longNumber? hnumber
  exact .longNumber h hlimit ⟨text, htext, hdigits⟩

/-- A source is read as it is, unless it stops the run. -/
theorem Input.read_cases (conv : Conventions) (i : Input) :
    (∃ f, i.Stops conv f ∧ i.read conv = .error f) ∨
      (∀ f, ¬ i.Stops conv f) ∧ i.read conv = i.bodies := by
  rw [Input.read]
  by_cases hdeep : i.text?.any conv.tooDeep = true
  · obtain ⟨text, htext, htoo⟩ := (Option.any_eq_true _ _).mp hdeep
    exact .inl ⟨_, .tooDeep htext htoo, if_pos hdeep⟩
  · rw [if_neg hdeep]
    cases hlong : i.longNumber? conv with
    | some n => exact .inl ⟨_, .of_longNumber? hlong, rfl⟩
    | none =>
      refine .inr ⟨fun f hstops => ?_, rfl⟩
      cases hstops with
      | tooDeep htext htoo => exact hdeep ((Option.any_eq_true _ _).mpr ⟨_, htext, htoo⟩)
      | longNumber hreached _ _ =>
        rw [hlong] at hreached
        cases hreached

/-- **In a source with bodies** that does not stop the run, no number is too long. -/
theorem Input.digits_le (hruns : ∀ f, ¬ i.Stops conv f) {found : List Body}
    (hfound : i.bodies = .ok (.ok found)) {n : Nat} (hn : i.HasNumber n) :
    n ≤ conv.maxDigits := by
  obtain ⟨text, htext, t, ht, digits, hdigits, rfl⟩ := hn
  obtain ⟨hpath, bytes, hbytes, hfile⟩ := Input.text?_eq_some htext
  have hread : Source.read text (some i.path.render) = .ok found := by
    rw [Input.bodies_of_fileText hpath hbytes hfile] at hfound
    exact Except.ok.inj hfound
  have hnone : Source.longNumber? conv.maxDigits text (some i.path.render) = none := by
    apply Option.eq_none_iff_forall_ne_some.mpr
    intro m hm
    have hreached : i.longNumber? conv = some m := by
      rw [Input.longNumber?, htext]
      exact hm
    exact hruns _ (.of_longNumber? hreached)
  exact Source.digits_le_of_read hread hnone t ht digits hdigits

/-- **Sources of text are read**, unless one of them stops the run. -/
theorem mapM_read (conv : Conventions) {inputs : List Input} (h : ∀ i ∈ inputs, i.Legible) :
    (∃ i ∈ inputs, ∃ f, i.Stops conv f ∧ inputs.mapM (Input.read conv) = .error f) ∨
      (∀ i ∈ inputs, ∀ f, ¬ i.Stops conv f) ∧
        inputs.mapM (Input.read conv) = inputs.mapM Input.bodies := by
  induction inputs with
  | nil => exact .inr ⟨nofun, rfl⟩
  | cons i inputs ih =>
    obtain ⟨hi, hinputs⟩ := List.forall_mem_cons.mp h
    rw [List.mapM_cons, List.mapM_cons]
    rcases i.read_cases conv with ⟨f, hstops, hread⟩ | ⟨hruns, hread⟩
    · rw [hread]
      exact .inl ⟨i, List.mem_cons_self, f, hstops, rfl⟩
    · -- a source of text never breaks the run by itself, so the next one is read
      obtain ⟨r, hr, _⟩ := hi.exists_bodies
      rw [hread]
      rcases ih hinputs with ⟨j, hj, f, hstops, hstopped⟩ | ⟨hall, hsame⟩
      · refine .inl ⟨j, List.mem_cons_of_mem _ hj, f, hstops, ?_⟩
        rw [hr, hstopped]
        rfl
      · exact .inr ⟨List.forall_mem_cons.mpr ⟨hruns, hall⟩, by rw [hsame]⟩

end Stops

section Read

variable {read : List (Except Diagnostic (List Body))} (h : ∀ r ∈ read, Source.Readable r)

include h

theorem parser_of_malformed : ∀ d ∈ malformed read, d.phase = some "parser" ∧ ¬ d.IsNotice := by
  intro d hd
  obtain ⟨r, hr, hd⟩ := List.mem_flatMap.mp hd
  cases h r hr with
  | finding hphase hcode =>
    rw [List.mem_singleton.mp hd]
    exact ⟨hphase, hcode⟩
  | bodies _ => cases hd

theorem good_of_wellFormed : ∀ b ∈ wellFormed read, Source.Good b := by
  intro b hb
  obtain ⟨r, hr, hb⟩ := List.mem_flatMap.mp hb
  cases h r hr with
  | finding _ _ => cases hb
  | bodies hgood => exact hgood b hb

end Read

/-! ## Checking -/

/-- The analysis of a body of a text ends, whatever the settings. -/
theorem exists_analysis {b : Body} (h : Source.Good b) (s : Settings) :
    ∃ a, b.analyze s.options = .ok a ∧ a.body = b := by
  -- the settings cannot limit the sweeps
  have hoptions : s.options = .under (!s.impreciseDrops) s.options.expired none := rfl
  rw [hoptions]
  cases s.options.expired with
  | true => exact ⟨_, b.analyze_expired _ none, rfl⟩
  | false =>
    obtain ⟨f, hf⟩ := h.analysed (!s.impreciseDrops)
    exact ⟨_, hf, rfl⟩

theorem exists_analyzeAll {bodies : List Body} (h : ∀ b ∈ bodies, Source.Good b) (s : Settings) :
    ∃ results, analyzeAll bodies s.options = .ok results ∧
      List.Forall₂ (fun b a => b.analyze s.options = .ok a ∧ a.body = b) bodies results := by
  refine exists_mapM_ok fun b hb => ?_
  obtain ⟨a, ha, hbody⟩ := exists_analysis (h b hb) s
  exact ⟨a, ha, ha, hbody⟩

/-- **What a verdict says about the sources.** -/
structure Verdict.Covers (v : Verdict) (s : Settings)
    (read : List (Except Diagnostic (List Body))) : Prop where
  malformed : v.malformed = CommandLine.malformed read
  /-- One malformed source keeps all of them from being analysed. -/
  stopped : CommandLine.malformed read ≠ [] →
    v.results = [] ∧ v.diagnostics = CommandLine.malformed read
  /-- Otherwise all bodies are analysed, in order. -/
  analysed : CommandLine.malformed read = [] →
    List.Forall₂ (fun b a => b.analyze s.options = .ok a ∧ a.body = b)
        (wellFormed read) v.results ∧
      ∃ reports, List.Forall₂ Analysis.Reports v.results reports ∧
        v.diagnostics = reports.flatten

/-- **Checking sources of text** ends with a verdict, if none of them stops the run. -/
theorem exists_check {conv : Conventions} {inputs : List Input} (h : ∀ i ∈ inputs, i.Legible)
    (hsame : inputs.mapM (Input.read conv) = inputs.mapM Input.bodies) (s : Settings) :
    ∃ read v, inputs.mapM Input.bodies = .ok read ∧ (∀ r ∈ read, Source.Readable r) ∧
      check s inputs conv = .ok v ∧ v.Covers s read := by
  obtain ⟨read, hread, hreadable⟩ := exists_read h
  by_cases hnone : malformed read = []
  · obtain ⟨results, hresults, hall⟩ := exists_analyzeAll (good_of_wellFormed hreadable) s
    refine ⟨read, ⟨[], results, logOf s (wellFormed read) results⟩, hread, hreadable, ?_,
      hnone.symm, fun hsome => absurd hnone hsome,
      fun _ => ⟨hall, _, Analysis.reports_diagnostics results, ?_⟩⟩
    · rw [check, hsame, hread]
      show (if !(malformed read).isEmpty then _ else _) = _
      rw [if_neg (by simp [hnone]), hresults]
      rfl
    · rw [← List.flatMap_def]
      rfl
  · refine ⟨read, ⟨malformed read, [], []⟩, hread, hreadable, ?_, rfl,
      fun _ => ⟨rfl, List.append_nil _⟩, fun hnone' => absurd hnone' hnone⟩
    rw [check, hsame, hread]
    show (if !(malformed read).isEmpty then _ else _) = _
    rw [if_pos (by simp [hnone])]
    rfl

/-! ## Tables -/

theorem dump_eq_error_iff {a : Analysis} {kind : String} {f : Analysis.DumpFault} :
    a.dump kind = .error f ↔ a.isComplete = true ∧ kind ∉ Analysis.dumpKinds ∧ f = ⟨kind⟩ := by
  rw [Analysis.dump, Analysis.isComplete]
  cases a.outcome with
  | unknown reason => simp [pure, Except.pure]
  | complete found =>
    simp only [Analysis.dumpKinds, List.mem_cons, List.not_mem_nil, or_false, not_or, true_and,
      pure, Except.pure]
    split
    · next h => simp [h]
    split
    · next h => simp [h]
    split
    · next h => simp [h]
    split
    · next h => simp [h]
    · next h₁ h₂ h₃ h₄ => simp [h₁, h₂, h₃, h₄, eq_comm]

/-- The first request that cannot be met is the one that is blamed. -/
theorem dumpLines_spec (requests : List (Analysis × String)) :
    match (Verdict.dumpLines requests).2 with
    | none => ∀ e ∈ requests, ∀ f, e.1.dump e.2 ≠ .error f
    | some f => ∃ e ∈ requests, e.1.dump e.2 = .error f := by
  induction requests with
  | nil => simp [Verdict.dumpLines]
  | cons e requests ih =>
    obtain ⟨a, kind⟩ := e
    rw [Verdict.dumpLines]
    cases hdump : a.dump kind with
    | error f => exact ⟨_, List.mem_cons_self, hdump⟩
    | ok lines =>
      dsimp only
      split at ih
      · next hnone =>
        refine List.forall_mem_cons.mpr ⟨fun f hf => ?_, ih⟩
        rw [hdump] at hf
        cases hf
      · next f hsome =>
        obtain ⟨e, he, hf⟩ := ih
        exact ⟨e, List.mem_cons_of_mem _ he, hf⟩

/-! ## Printing -/

namespace Verdict

variable {v : Verdict} {s : Settings}

/-- The empty table is asked for, and there is a body of which to print it. -/
def Breaks (v : Verdict) (s : Settings) : Prop :=
  s.json = false ∧ "[]" ∈ s.dumps ∧ ∃ a ∈ v.results, a.isComplete = true

theorem mem_dumps {kinds : List String} {a : Analysis} {kind : String} :
    (a, kind) ∈ v.dumps kinds ↔ a ∈ v.results ∧ kind ∈ kinds := by
  simp [dumps]

/-- The findings are printed together with the exit code. -/
structure Shows (v : Verdict) (s : Settings) (p : Printed) : Prop where
  ending : p.ending = .exit v.exitCode
  json : s.json = true → ∃ more, p.stdout = unlines [(Json.obj (("exit_code", .int v.exitCode) ::
    ("diagnostics", .arr (v.diagnostics.map Diagnostic.toJson)) :: more)).write .spaced]
  text : s.json = false →
    ∃ log, p.stderr = unlines (log ++ v.diagnostics.flatMap findingLines)

/-- A run that does not break shows its verdict. -/
theorem print_spec (hdumps : ∀ kind ∈ s.dumps, kind ∈ Analysis.dumpKinds ∨ kind = "[]") :
    (v.Breaks s → (v.print s).ending = .broken (.dump ⟨"[]"⟩)) ∧
      (¬ v.Breaks s → v.Shows s (v.print s)) := by
  rw [print]
  by_cases hjson : s.json = true
  · rw [if_pos hjson]
    exact ⟨fun h => absurd (hjson.symm.trans h.1) (by decide),
      fun _ => ⟨rfl, fun _ => ⟨_, rfl⟩, fun h => absurd (hjson.symm.trans h) (by decide)⟩⟩
  · rw [if_neg hjson]
    have hspec := dumpLines_spec (v.dumps s.dumps)
    cases hlines : dumpLines (v.dumps s.dumps) with
    | mk lines fault =>
      rw [hlines] at hspec
      cases fault with
      | none =>
        have hwhole : ¬ v.Breaks s := by
          rintro ⟨_, hempty, a, ha, hcomplete⟩
          have hunknown : "[]" ∉ Analysis.dumpKinds := by decide
          exact hspec (a, "[]") (mem_dumps.mpr ⟨ha, hempty⟩) ⟨"[]"⟩
            (dump_eq_error_iff.mpr ⟨hcomplete, hunknown, rfl⟩)
        exact ⟨fun h => absurd h hwhole,
          fun _ => ⟨rfl, fun h => absurd h hjson, fun _ => ⟨_, rfl⟩⟩⟩
      | some fault =>
        obtain ⟨⟨a, kind⟩, hrequest, hfault⟩ := hspec
        obtain ⟨ha, hkind⟩ := mem_dumps.mp hrequest
        -- only the empty table was let through without being one
        obtain ⟨hcomplete, hunknown, rfl⟩ := dump_eq_error_iff.mp hfault
        obtain rfl := (hdumps kind hkind).resolve_left hunknown
        have hbreaks : v.Breaks s := ⟨Bool.eq_false_iff.mpr hjson, hkind, a, ha, hcomplete⟩
        exact ⟨fun _ => rfl, fun h => absurd hbreaks h⟩

/-- **The exit code agrees with the findings.** -/
structure Agrees (v : Verdict) : Prop where
  zero_iff : v.exitCode = 0 ↔ v.diagnostics = []
  two_iff : v.exitCode = 2 ↔ v.diagnostics ≠ [] ∧ ∀ d ∈ v.diagnostics, d.IsNotice
  one : v.exitCode ≠ 0 → v.exitCode ≠ 2 → v.exitCode = 1
  clean : v.exitCode = 0 → v.malformed = [] ∧
    ∀ a ∈ v.results, ∃ f, a.outcome = .complete f ∧ f.conflicts = []

/-- They agree whichever analyses were aborted, and whichever have conflicts. -/
theorem agrees_of_malformed (h : ∀ d ∈ v.malformed, ¬ d.IsNotice) : v.Agrees where
  zero_iff := Analysis.exitCode_eq_zero_iff
  two_iff := Analysis.exitCode_eq_two_iff h
  one h₀ h₂ := by
    have hle : v.exitCode ≤ 2 := Analysis.exitCode_le_two
    omega
  clean h₀ := by
    obtain ⟨hnone, hall⟩ := List.append_eq_nil_iff.mp (Analysis.exitCode_eq_zero_iff.mp h₀)
    refine ⟨hnone, fun a ha => ?_⟩
    have hempty := List.flatMap_eq_nil_iff.mp hall a ha
    rw [Analysis.diagnostics] at hempty
    cases houtcome : a.outcome with
    | complete f =>
      rw [houtcome] at hempty
      exact ⟨f, rfl, List.map_eq_nil_iff.mp hempty⟩
    | unknown reason =>
      rw [houtcome] at hempty
      cases hempty

end Verdict

/-! ## Runs -/

/-- The arguments are neither misused nor a call for help. -/
def Accepted (conv : Conventions) (args : List String) : Prop :=
  ∀ halt, Command.parse args conv = .error halt → halt = .emptyNumber

/-- **A run comes to a verdict** `v` about what was `read`.

    * All sources are read to their end, and a source that has bodies has no number that is
      too long.
    * Exit code and findings agree, and would agree whichever of the analyses were aborted.
    * The verdict is shown, except if the run breaks at the empty table, which only a double dash
      that stands for nothing can ask for. -/
structure Command.Concludes (c : Command) (inputs : List Input) (conv : Conventions)
    (read : List (Except Diagnostic (List Body))) (v : Verdict) : Prop where
  sources : inputs.mapM Input.bodies = .ok read
  parser : ∀ d ∈ malformed read, d.phase = some "parser"
  runs : ∀ i ∈ inputs, ∀ f, ¬ i.Stops conv f
  numbers : ∀ i ∈ inputs, ∀ found, i.bodies = .ok (.ok found) → ∀ n, i.HasNumber n →
    n ≤ conv.maxDigits
  checked : check c.settings inputs conv = .ok v
  covers : v.Covers c.settings read
  agrees : v.Agrees
  always : ∀ results log, Verdict.Agrees ⟨malformed read, results, log⟩
  clean : v.exitCode = 0 → malformed read = [] ∧ ∀ b ∈ wellFormed read, ∃ f,
    b.analyze c.settings.options = .ok ⟨b, .complete f⟩ ∧ f.conflicts = []
  broken : v.Breaks c.settings → (c.run inputs conv).ending = .broken (.dump ⟨"[]"⟩)
  shown : ¬ v.Breaks c.settings → v.Shows c.settings (c.run inputs conv)
  whole : conv.dashIsEmpty = false → ¬ v.Breaks c.settings

/-- A run whose sources can be read to their end comes to a verdict. -/
theorem exists_concludes {conv : Conventions} {args : List String} {c : Command}
    {inputs : List Input} (hc : Command.parse args conv = .ok c)
    (hinputs : ∀ i ∈ inputs, i.Legible) (hruns : ∀ i ∈ inputs, ∀ f, ¬ i.Stops conv f)
    (hsame : inputs.mapM (Input.read conv) = inputs.mapM Input.bodies) :
    ∃ read v, c.Concludes inputs conv read v := by
  obtain ⟨read, v, hread, hreadable, hcheck, hcovers⟩ := exists_check hinputs hsame c.settings
  have hparser := parser_of_malformed hreadable
  have hdumps := dumps_of_parse hc
  have hagrees : v.Agrees :=
    Verdict.agrees_of_malformed fun d hd => (hparser d (hcovers.malformed ▸ hd)).2
  have hrun : c.run inputs conv = v.print c.settings := by rw [Command.run, hcheck]
  have hprint := Verdict.print_spec (v := v) fun kind hkind => (hdumps kind hkind).imp_right And.left
  rw [← hrun] at hprint
  refine ⟨read, v, hread, fun d hd => (hparser d hd).1, hruns, ?_, hcheck, hcovers, hagrees,
    fun results log => Verdict.agrees_of_malformed fun d hd => (hparser d hd).2, ?_, hprint.1,
    hprint.2, ?_⟩
  · intro i hi found hfound n hn
    exact Input.digits_le (hruns i hi) hfound hn
  · intro hzero
    obtain ⟨hwhole, hclean⟩ := hagrees.clean hzero
    rw [hcovers.malformed] at hwhole
    refine ⟨hwhole, fun b hb => ?_⟩
    obtain ⟨a, ha, hanalysis, rfl⟩ := exists_mem_of_forall₂ (hcovers.analysed hwhole).1 hb
    obtain ⟨f, hf, hconflicts⟩ := hclean a ha
    refine ⟨f, ?_, hconflicts⟩
    rw [hanalysis, ← hf]
  · rintro hdash ⟨_, hempty, _⟩
    -- without an empty value every table is one that there is
    rcases hdumps _ hempty with hknown | ⟨_, hdash'⟩
    · exact absurd hknown (by decide)
    · rw [hdash] at hdash'
      cases hdash'

/-- **Exit code and findings** of an accepted command over sources of text, whatever the
    conventions.  One of three things happens.

    * A number on the command line was left empty, and the run breaks before it reads anything.
    * A source is nested too deeply, or has a number with too many digits, and the run breaks
      there.
    * The run comes to a verdict in which they agree. -/
theorem exit_code_agrees (conv : Conventions) {args : List String} {inputs : List Input}
    (hargs : Accepted conv args) (hinputs : ∀ i ∈ inputs, i.Legible) :
    (Command.parse args conv = .error .emptyNumber ∧ LeavesEmpty conv args ∧
        ∀ t, (run args t conv).ending = .broken .emptyNumber) ∨
      ∃ c, Command.parse args conv = .ok c ∧
        ((∃ i ∈ inputs, ∃ f, i.Stops conv f ∧ (c.run inputs conv).ending = .broken f) ∨
          ∃ read v, c.Concludes inputs conv read v) := by
  cases hparse : Command.parse args conv with
  | error halt =>
    obtain rfl := hargs halt hparse
    refine .inl ⟨rfl, leavesEmpty_of_parse hparse, fun t => ?_⟩
    rw [run, hparse]
    rfl
  | ok c =>
    refine .inr ⟨c, rfl, ?_⟩
    rcases mapM_read conv hinputs with ⟨i, hi, f, hstops, hstopped⟩ | ⟨hruns, hsame⟩
    · refine .inl ⟨i, hi, f, hstops, ?_⟩
      rw [Command.run, check, hstopped]
      rfl
    · exact .inr (exists_concludes hparse hinputs hruns hsame)

/-- A source with one body and nothing wrong. -/
def idle : Input where
  path := { names := ["ok.cfg"] }
  content := .ok ("fn f() \x7b bb0: \x7b return; \x7d \x7d".toList.map fun ch => ch.toNat.toUInt8)

theorem idle_legible : idle.Legible where
  path := by decide
  content bytes hbytes := by
    have hdecoded : (idle.content.toOption.any fun bytes =>
        (decodeUtf8 bytes).toOption.isSome) = true := by decide +kernel
    rw [hbytes] at hdecoded
    obtain ⟨text, htext⟩ := Option.isSome_iff_exists.mp hdecoded
    exact ⟨text, toOption_eq_some.mp htext⟩

/-- A run with its verdict, found by computing it. -/
theorem exists_verdict (args : List String) (inputs : List Input)
    (P : Command → Verdict → Bool) (h : ((Command.parse args).toOption.any fun c =>
      (check c.settings inputs).toOption.any (P c)) = true) :
    ∃ c v, Command.parse args = .ok c ∧ check c.settings inputs = .ok v ∧ P c v = true := by
  cases hc : Command.parse args with
  | error halt =>
    rw [hc] at h
    cases h
  | ok c =>
    cases hv : check c.settings inputs with
    | error fault => simp [hc, hv, Except.toOption] at h
    | ok v =>
      refine ⟨c, v, rfl, hv, ?_⟩
      simpa [hc, hv, Except.toOption] using h

theorem idle_exit_code_agrees : ∃ c v, Command.parse ["ok.cfg", "--dump=loans"] = .ok c ∧
    check c.settings [idle] = .ok v ∧ v.exitCode = 0 ∧ v.diagnostics = [] ∧
    (c.run [idle]).ending = .exit 0 := by
  obtain ⟨c, v, hc, hv, hrun⟩ := exists_verdict ["ok.cfg", "--dump=loans"] [idle]
    (fun c v => decide (v.exitCode = 0 ∧ "[]" ∉ c.settings.dumps)) (by decide +kernel)
  obtain ⟨hzero, hknown⟩ := of_decide_eq_true hrun
  have haccepted : Accepted {} ["ok.cfg", "--dump=loans"] := by
    intro halt hhalt
    rw [hc] at hhalt
    cases hhalt
  rcases exit_code_agrees {} haccepted (List.forall_mem_singleton.mpr idle_legible) with
    ⟨hempty, _⟩ | ⟨c', hc', ⟨i, hi, f, hstops, _⟩ | ⟨read, v', hconcludes⟩⟩
  · rw [hc] at hempty
    cases hempty
  · obtain rfl := List.mem_singleton.mp hi
    have hshort : idle.longNumber? {} = none := by decide +kernel
    cases hstops with
    | tooDeep _ hdeep => cases hdeep
    | longNumber hreached _ _ =>
      rw [hshort] at hreached
      cases hreached
  · cases hc.symm.trans hc'
    cases hv.symm.trans hconcludes.checked
    refine ⟨c, v, hc, hv, hzero, hconcludes.agrees.zero_iff.mp hzero, ?_⟩
    rw [(hconcludes.shown fun hbreaks => hknown hbreaks.2.1).ending, hzero]

/-- At the empty table there is neither an exit code nor a finding, although there is nothing to
    complain about. -/
theorem run_emptyTable : ∃ c v, Command.parse ["ok.cfg", "--dump=--"] = .ok c ∧
    check c.settings [idle] = .ok v ∧ v.exitCode = 0 ∧ v.diagnostics = [] ∧
    ∀ code, (c.run [idle]).ending ≠ .exit code := by
  obtain ⟨c, v, hc, hv, hrun⟩ := exists_verdict ["ok.cfg", "--dump=--"] [idle]
    (fun c v => decide (v.exitCode = 0 ∧ c.settings.json = false ∧ "[]" ∈ c.settings.dumps ∧
      ∃ a ∈ v.results, a.isComplete = true))
    (by decide +kernel)
  obtain ⟨hzero, hbreaks⟩ := of_decide_eq_true hrun
  refine ⟨c, v, hc, hv, hzero, Analysis.exitCode_eq_zero_iff.mp hzero, fun code hexit => ?_⟩
  have hrun : c.run [idle] = v.print c.settings := by rw [Command.run, hv]
  have hdumps : ∀ kind ∈ c.settings.dumps, kind ∈ Analysis.dumpKinds ∨ kind = "[]" :=
    fun kind hkind => (dumps_of_parse hc kind hkind).imp_right And.left
  rw [hrun, (Verdict.print_spec hdumps).1 hbreaks] at hexit
  cases hexit

end CommandLine

end BorrowFlow
