import BorrowFlow.Analysis.Basic
import BorrowFlow.Proofs.ActiveLoans
import BorrowFlow.Proofs.Checked
import BorrowFlow.Sample

/-! # The analysis of a body

    What the findings of an analysis are made of (`Body.analyze_complete`), when
    there are any (`Body.WellFormed.exists_findings`), and what the reported
    conflicts say: an access collides with a loan in force, where "in force" is
    said by walks alone (`conflict_iff_loan_in_force`).
-/

namespace BorrowFlow

/-! ## Findings -/

/-- The options of the liveness pass. -/
def AnalysisOptions.forLiveness (o : AnalysisOptions) : LivenessOptions where
  preciseDrops := o.preciseDrops
  maxSweeps := o.maxSweeps
  expired := o.expired

/-- The options of the active-loan pass. -/
def AnalysisOptions.forLoans (o : AnalysisOptions) : LoanOptions where
  maxSweeps := o.maxSweeps
  expired := o.expired

namespace Body

variable {b : Body} {options : AnalysisOptions} {f : Findings}

/-- The parts that findings are put together from. -/
structure Finds (b : Body) (options : AnalysisOptions) (f : Findings) (rules : Arena LoanRule) :
    Prop where
  liveness : b.liveness options.forLiveness = .ok f.liveness
  graph : b.subsetGraph = .ok f.graph
  ruled : b.loanRules f.liveness f.graph = .ok rules
  active : b.activeLoans rules options.forLoans = .ok f.active
  values : f.values = f.liveness.regionValues f.graph
  conflicts : b.conflicts f.active = .ok f.conflicts

theorem findings_eq_ok : b.findings options = .ok f ↔ ∃ rules, b.Finds options f rules := by
  simp only [findings, bind_eq_ok, mapError_eq_ok, pure_eq_ok]
  constructor
  · rintro ⟨l, hl, g, hg, rules, hrules, a, ha, cs, hcs, rfl⟩
    exact ⟨rules, hl, hg, hrules, ha, rfl, hcs⟩
  · rintro ⟨rules, hl, hg, hrules, ha, hvalues, hcs⟩
    refine ⟨_, hl, _, hg, rules, hrules, _, ha, _, hcs, ?_⟩
    rw [← hvalues]

/-- A complete analysis comes with the findings of the body. -/
theorem analyze_complete {a : Analysis} (h : b.analyze options = .ok a)
    (hf : a.outcome = .complete f) : ∃ rules, b.Finds options f rules := by
  rw [analyze] at h
  split at h
  · next found hfound =>
    cases h
    cases hf
    exact findings_eq_ok.mp hfound
  · split at h
    · cases h
      cases hf
    · cases h

theorem Finds.prepared {rules : Arena LoanRule} (h : b.Finds options f rules)
    (hb : b.WellFormed) : b.Prepared options.forLiveness f.liveness f.graph rules :=
  ⟨hb, h.liveness, h.graph, h.ruled⟩

/-- **There are always findings** without a deadline and a limit on sweeps, on a body
    of two points or more and on one without loans. -/
theorem WellFormed.exists_findings (hb : b.WellFormed) (precise : Bool)
    (hroom : 2 ≤ b.points.length ∨ ∀ issue, ¬ b.Issues issue) :
    ∃ f, b.analyze { preciseDrops := precise } = .ok ⟨b, .complete f⟩ := by
  obtain ⟨l, hl⟩ : ∃ l, b.liveness { preciseDrops := precise } = .ok l := hb.exists_liveness rfl rfl
  obtain ⟨g, hg, _⟩ := hb.exists_subsetGraph
  obtain ⟨rules, hrules⟩ : ∃ rules, b.loanRules l g = .ok rules :=
    ⟨_, by rw [loanRules, if_pos (congrArg Body.serial (liveness_ok hl).1)]⟩
  obtain ⟨a, ha⟩ : ∃ a, b.activeLoans rules {} = .ok a :=
    Prepared.exists_activeLoans ⟨hb, hl, hg, hrules⟩ rfl rfl hroom
  obtain ⟨cs, hcs⟩ : ∃ cs, b.conflicts a = .ok cs :=
    ⟨_, by rw [conflicts, if_pos (congrArg Body.serial (activeLoans_ok ha).1)]⟩
  have hfound : b.findings { preciseDrops := precise } = .ok ⟨l, g, l.regionValues g, a, cs⟩ :=
    findings_eq_ok.mpr ⟨rules, hl, hg, hrules, ha, rfl, hcs⟩
  exact ⟨_, by rw [analyze, hfound]⟩

/-! ## Conflicts -/

/-- The access of a point that a conflict is about. -/
def Accesses (b : Body) (c : Conflict) : Prop :=
  ∃ a ∈ (b.facts c.point).accesses, a.place = c.place ∧ a.kind = c.kind ∧ a.conflicts c.loan = true

/-- A conflict is an access that collides with an active loan. -/
theorem WellFormed.mem_conflicts_iff (hb : b.WellFormed) {active : ActiveLoans}
    {cs : List Conflict} (hcs : b.conflicts active = .ok cs) {c : Conflict} :
    c ∈ cs ↔ b.Accesses c ∧ c.loan ∈ b.loans ∧ c.loan ∈ active.active c.point := by
  rw [conflicts] at hcs
  split at hcs
  · cases hcs
    simp only [List.mem_flatMap, conflictsAt, List.mem_eraseDups, List.mem_map, List.mem_filter,
      decide_eq_true_eq]
    constructor
    · rintro ⟨p, _, a, ha, l, ⟨⟨hl, hactive⟩, hcollides⟩, rfl⟩
      exact ⟨⟨a, ha, rfl, rfl, hcollides⟩, hl, hactive⟩
    · rintro ⟨⟨a, ha, hplace, hkind, hcollides⟩, hl, hactive⟩
      have hp : c.point ∈ b.points := by
        by_contra hmem
        rw [hb.facts_of_not_mem hmem] at ha
        cases ha
      refine ⟨c.point, hp, a, ha, c.loan, ⟨⟨hl, hactive⟩, hcollides⟩, ?_⟩
      rw [hplace, hkind]
  · cases hcs

/-- **Reported conflicts**, by walks: the loan is issued in the body and in force. -/
theorem Finds.mem_conflicts_iff {rules : Arena LoanRule} (h : b.Finds options f rules)
    (hb : b.WellFormed) {c : Conflict} :
    c ∈ f.conflicts ↔ b.Accesses c ∧ ∃ issue, b.Issues issue ∧ issue.loan = c.loan ∧
      b.Holds options.preciseDrops issue c.point := by
  rw [hb.mem_conflicts_iff h.conflicts, (h.prepared hb).mem_active_iff h.active]
  constructor
  · rintro ⟨haccess, _, hforce⟩
    exact ⟨haccess, hforce⟩
  · rintro ⟨haccess, issue, hissue, hloan, hholds⟩
    exact ⟨haccess, hb.mem_loans_iff.mpr ⟨issue, hissue, hloan⟩, issue, hissue, hloan, hholds⟩

end Body

/-! ## Samples -/

/-- A body that a builder finishes has passed the check of its draft. -/
theorem Builder.finish_eq_ok {builder : Builder} {b : Body} :
    builder.finish = .ok b ↔ ∃ d, builder.draft = .ok d ∧ d.check = .ok b := by
  rw [finish]
  cases builder.draft with
  | error e => simp
  | ok d => cases hd : d.check <;> simp [hd]

namespace Sample

/-- The body of a sample has passed the check of its draft. -/
theorem exists_draft {s : Sample} {b : Body} (h : s.body = .ok b) :
    ∃ d : Draft, d.check = .ok b := by
  rw [body] at h
  split at h
  · cases h
  · obtain ⟨d, _, hd⟩ := Builder.finish_eq_ok.mp h
    exact ⟨d, hd⟩

/-- Does the analysis of a sample end with findings of a kind? -/
def finds (s : Sample) (options : AnalysisOptions) (kind : Body → Findings → Bool) : Bool :=
  match s.body with
  | .error _ => false
  | .ok b =>
    match b.analyze options with
    | .ok ⟨_, .complete f⟩ => kind b f
    | _ => false

theorem exists_of_finds (s : Sample) (options : AnalysisOptions) (kind : Body → Findings → Bool)
    (h : s.finds options kind = true) :
    ∃ (d : Draft) (b : Body) (a : Analysis) (f : Findings), s.body = .ok b ∧ d.check = .ok b ∧
      b.analyze options = .ok a ∧ a.outcome = .complete f ∧ kind b f = true := by
  rw [finds] at h
  split at h
  · cases h
  · next b hb =>
    split at h
    · next c f hf =>
      obtain ⟨d, hd⟩ := exists_draft hb
      exact ⟨d, b, _, f, hb, hd, hf, rfl, h⟩
    · cases h

end Sample

/-! ## What a conflict means -/

/-- **A reported conflict is an access that collides with a loan in force.**  The
    record names an access of its point that conflicts with the loan, and the loan
    comes to the point along a walk on which it matters all the way and on which
    nothing that it goes through is overwritten. -/
theorem conflict_iff_loan_in_force {d : Draft} {b : Body} {options : AnalysisOptions}
    {a : Analysis} {f : Findings} (hb : d.check = .ok b) (ha : b.analyze options = .ok a)
    (hf : a.outcome = .complete f) (c : Conflict) :
    c ∈ f.conflicts ↔
      (∃ a ∈ (b.facts c.point).accesses,
        a.place = c.place ∧ a.kind = c.kind ∧ a.conflicts c.loan = true) ∧
      ∃ issue, b.Issues issue ∧ issue.loan = c.loan ∧
        b.Holds options.preciseDrops issue c.point := by
  obtain ⟨rules, hfinds⟩ := Body.analyze_complete ha hf
  exact hfinds.mem_conflicts_iff (Draft.wellFormed_of_check hb)

/-- The write at the head of the sample loop meets the loan of the round before. -/
theorem conflict_around_loop :
    ∃ (b : Body) (issue : LoanIssue), Sample.body .loop = .ok b ∧ b.Issues issue ∧
      issue.loan.point = ⟨"bb1", 1⟩ ∧ b.Holds true issue ⟨"bb1", 0⟩ := by
  obtain ⟨d, b, a, f, hbody, hb, ha, hf, hc⟩ := Sample.exists_of_finds .loop {}
    (fun _ f => decide ((⟨⟨"bb1", 0⟩, ⟨"L0", ⟨"bb1", 1⟩, .ofLocal "v", .shared⟩,
      .ofLocal "v", .write⟩ : Conflict) ∈ f.conflicts)) (by decide +kernel)
  obtain ⟨_, issue, hissue, hloan, hholds⟩ :=
    (conflict_iff_loan_in_force hb ha hf _).mp (of_decide_eq_true hc)
  exact ⟨b, issue, hbody, hissue, by rw [hloan], hholds⟩

end BorrowFlow
