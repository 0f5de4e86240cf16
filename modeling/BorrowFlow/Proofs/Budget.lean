import BorrowFlow.Proofs.Analysis
import BorrowFlow.Proofs.Settling

/-! # Runs under a budget

    A solver that is stopped early has a table that says too little, so it must not return
    it.  The outcome of an analysis is told by three numbers: how many changing sweeps the
    liveness of the body takes, how many its active loans take, and how many may be taken
    (`Body.analyze_under`).  Either the run ends with everything there is to find, or it
    ends without findings (`no_partial_findings`).
-/

namespace BorrowFlow

variable {ρ σ : Type}

/-! ## Runs of a solver -/

namespace Problem

variable {P : Problem ρ σ} {a : Arena σ} [DecidableEq σ] {budget : Budget}

/-- A passed deadline ends a run after its first sweep. -/
theorem solve_of_expired (h : budget.expired = true) :
    P.solve budget a = .error (.deadline budget.what budget.sweeps) := by
  simp [solve, solveFor, Budget.tick, Budget.checkDeadline, h]

/-- **A run is told by the sweeps that it takes**: it comes to its end if it may take them,
    and fails if not. -/
theorem solve_eq_of_settles (hexpired : budget.expired = false) (hsweeps : budget.sweeps = 0)
    {limit k : Nat} (hlimit : budget.limit = limit) (h : P.Settles a k) :
    P.solve budget a = if limit < k then .error (.diverged budget.what limit) else
      .ok ⟨P.sweep^[k] a, k, (List.range (k + 1)).map fun j => P.sweep^[j + 1] a⟩ := by
  split
  · next hfew =>
    rw [← hlimit]
    refine solve_of_unstable hexpired hsweeps (by omega) fun j hj => h.unstable j (by omega)
  · next henough => exact solve_of_settles hexpired hsweeps (by omega) h

end Problem

/-! ## How many sweeps the passes take -/

namespace Body

variable {b : Body}

theorem WellFormed.liveness_settles (h : b.WellFormed) :
    ∃ k, b.livenessProblem.Settles b.noneLive k := by
  obtain ⟨k, _, hk⟩ := Problem.exists_settles h.stable_liveness
  exact ⟨k, hk⟩

/-- What leaves the points settles in one sweep per point, so the loans in force, which are
    read off it, settle in one sweep more. -/
theorem WellFormed.stable_loans_late (h : b.WellFormed) (rules : Arena LoanRule) :
    (b.loanProblem rules).sweep ((b.loanProblem rules).sweep^[b.points.length + 1] b.noLoans) =
      (b.loanProblem rules).sweep^[b.points.length + 1] b.noLoans := by
  have hvisits := h.loanProblem_visitsEach rules
  have hnone : ∀ loan, (b.outFact rules loan).Absent b.noLoans :=
    fun _ => Problem.Fact.absent_ofPoints h.nodup_points
  have hlook : ∀ p ∈ b.points,
      (b.loanProblem rules).look ((b.loanProblem rules).sweep^[b.points.length + 2] b.noLoans) p =
        (b.loanProblem rules).look
          ((b.loanProblem rules).sweep^[b.points.length + 1] b.noLoans) p := by
    intro p hp
    refine loanSets_ext (fun loan => ?_) fun loan => ?_
    · -- what is in force at `p` is found from what has left the neighbours a sweep before
      rw [mem_active_iterate h h.covers_noLoans hp, mem_active_iterate h h.covers_noLoans hp]
      simp only [Problem.Fact.holds_found_late_iff hvisits h.covers_noLoans (hnone loan)
        (Nat.le_refl _), Problem.Fact.holds_found_late_iff hvisits h.covers_noLoans (hnone loan)
        (Nat.le_succ _)]
    · have hout : ∀ k, b.points.length ≤ k →
          (loan ∈ ((b.loanProblem rules).look ((b.loanProblem rules).sweep^[k] b.noLoans) p).out ↔
            ∃ rest, (b.outFact rules loan).Trail p rest) :=
        fun k hk => Problem.Fact.holds_late_iff hvisits h.covers_noLoans (hnone loan) hk
      rw [hout _ (by omega), hout _ (by omega)]
  rw [← Function.iterate_succ_apply' (b.loanProblem rules).sweep]
  exact (Problem.covers_iterate h.covers_noLoans _).ext
    (Problem.covers_iterate h.covers_noLoans _) hlook

theorem WellFormed.loans_settle (h : b.WellFormed) (rules : Arena LoanRule) :
    ∃ k, (b.loanProblem rules).Settles b.noLoans k := by
  obtain ⟨k, _, hk⟩ := Problem.exists_settles (h.stable_loans_late rules)
  exact ⟨k, hk⟩

end Body

/-! ## Runs of an analysis -/

/-- The options of an analysis whose deadline has passed or never does, with a limit on the
    changing sweeps of each pass or without. -/
def AnalysisOptions.under (precise expired : Bool) (limit : Option Nat) : AnalysisOptions where
  preciseDrops := precise
  expired := expired
  maxSweeps := limit.map Int.ofNat

namespace Body

variable {b : Body} {precise expired : Bool} {limit : Option Nat}

/-- How many changing sweeps each pass may take: one per point, if nothing else is said. -/
def allowed (b : Body) (limit : Option Nat) : Nat := limit.getD b.points.length

theorem getD_maxSweeps (b : Body) (precise expired : Bool) (limit : Option Nat) :
    (AnalysisOptions.under precise expired limit).maxSweeps.getD b.points.length =
      (b.allowed limit : Int) := by
  cases limit <;> rfl

/-- The liveness that a run finds if nothing stops it. -/
def settledLiveness (b : Body) (precise : Bool) (k : Nat) : Liveness where
  body := b
  preciseDrops := precise
  table := b.livenessProblem.sweep^[k] b.noneLive
  sweeps := k
  trace := (List.range (k + 1)).map fun j => b.livenessProblem.sweep^[j + 1] b.noneLive

/-- The active loans that a run finds if nothing stops it. -/
def settledLoans (b : Body) (rules : Arena LoanRule) (k : Nat) : ActiveLoans where
  body := b
  table := (b.loanProblem rules).sweep^[k] b.noLoans
  sweeps := k
  trace := (List.range (k + 1)).map fun j => (b.loanProblem rules).sweep^[j + 1] b.noLoans

theorem WellFormed.liveness_under (h : b.WellFormed) {k : Nat}
    (hk : b.livenessProblem.Settles b.noneLive k) (precise : Bool) (limit : Option Nat) :
    b.liveness (AnalysisOptions.under precise false limit).forLiveness =
      if b.allowed limit < k then
        .error (.budget (.diverged ("liveness of '" ++ b.name ++ "'") (b.allowed limit)))
      else .ok (b.settledLiveness precise k) := by
  rw [liveness_eq, Problem.solve_eq_of_settles rfl rfl (b.getD_maxSweeps precise false limit) hk]
  by_cases hfew : b.allowed limit < k
  · rw [if_pos hfew, if_pos hfew]
  · rw [if_neg hfew, if_neg hfew]
    simp only [h.strayVariable?_iterate]
    rfl

theorem activeLoans_under {rules : Arena LoanRule} {k : Nat}
    (hk : (b.loanProblem rules).Settles b.noLoans k) (precise : Bool) (limit : Option Nat) :
    b.activeLoans rules (AnalysisOptions.under precise false limit).forLoans =
      if b.allowed limit < k then
        .error (.budget (.diverged ("active loans of '" ++ b.name ++ "'") (b.allowed limit)))
      else .ok (b.settledLoans rules k) := by
  rw [activeLoans_with,
    Problem.solve_eq_of_settles rfl rfl (b.getD_maxSweeps precise false limit) hk]
  by_cases hfew : b.allowed limit < k
  · rw [if_pos hfew, if_pos hfew]
  · rw [if_neg hfew, if_neg hfew]
    rfl

/-- The findings of a body if nothing stops the run, with the rules for its loans. -/
structure FindsAll (b : Body) (precise : Bool) (f : Findings) (rules : Arena LoanRule) : Prop where
  liveness : f.liveness = b.settledLiveness precise f.liveness.sweeps
  livenessSettles : b.livenessProblem.Settles b.noneLive f.liveness.sweeps
  graph : b.subsetGraph = .ok f.graph
  ruled : b.loanRules f.liveness f.graph = .ok rules
  active : f.active = b.settledLoans rules f.active.sweeps
  activeSettles : (b.loanProblem rules).Settles b.noLoans f.active.sweeps
  values : f.values = f.liveness.regionValues f.graph
  conflicts : b.conflicts f.active = .ok f.conflicts

/-- There is always something to find. -/
theorem WellFormed.exists_findsAll (h : b.WellFormed) (precise : Bool) :
    ∃ f rules, b.FindsAll precise f rules := by
  obtain ⟨k, hk⟩ := h.liveness_settles
  obtain ⟨g, hg, _⟩ := h.exists_subsetGraph
  let l := b.settledLiveness precise k
  obtain ⟨rules, hrules⟩ := loanRules_eq_ok (b := b) (l := l) rfl g
  obtain ⟨m, hm⟩ := h.loans_settle rules
  let a := b.settledLoans rules m
  obtain ⟨cs, hcs⟩ : ∃ cs, b.conflicts a = .ok cs := ⟨_, if_pos rfl⟩
  exact ⟨⟨l, g, l.regionValues g, a, cs⟩, rules, rfl, hk, hg, hrules, rfl, hm, rfl, hcs⟩

theorem findings_of_liveness_error {options : AnalysisOptions} {e : LivenessFault}
    (h : b.liveness options.forLiveness = .error e) :
    b.findings options = .error (.liveness e) := by
  show ((b.liveness options.forLiveness).mapError AnalysisFault.liveness >>= _) = _
  rw [h]
  rfl

theorem findings_of_loans_error {options : AnalysisOptions} {l : Liveness} {g : SubsetGraph}
    {rules : Arena LoanRule} {e : LoanFault} (hl : b.liveness options.forLiveness = .ok l)
    (hg : b.subsetGraph = .ok g) (hrules : b.loanRules l g = .ok rules)
    (h : b.activeLoans rules options.forLoans = .error e) :
    b.findings options = .error (.loans e) := by
  show ((b.liveness options.forLiveness).mapError AnalysisFault.liveness >>= fun l =>
    b.subsetGraph.mapError AnalysisFault.graph >>= fun g =>
      (b.loanRules l g).mapError AnalysisFault.owner >>= fun rules =>
        (b.activeLoans rules options.forLoans).mapError AnalysisFault.loans >>= _) = _
  rw [hl]
  show (b.subsetGraph.mapError AnalysisFault.graph >>= _) = _
  rw [hg]
  show ((b.loanRules l g).mapError AnalysisFault.owner >>= _) = _
  rw [hrules]
  show ((b.activeLoans rules options.forLoans).mapError AnalysisFault.loans >>= _) = _
  rw [h]
  rfl

/-- **The outcome of a run** that no deadline stops. -/
theorem WellFormed.analyze_under (h : b.WellFormed) {f : Findings} {rules : Arena LoanRule}
    (hf : b.FindsAll precise f rules) (limit : Option Nat) :
    b.analyze (.under precise false limit) =
      if b.allowed limit < f.liveness.sweeps then .error (.liveness (.budget
        (.diverged ("liveness of '" ++ b.name ++ "'") (b.allowed limit))))
      else if b.allowed limit < f.active.sweeps then .error (.loans (.budget
        (.diverged ("active loans of '" ++ b.name ++ "'") (b.allowed limit))))
      else .ok ⟨b, .complete f⟩ := by
  have hliveness := h.liveness_under hf.livenessSettles precise limit
  have hactive := activeLoans_under hf.activeSettles precise limit
  rw [← hf.liveness] at hliveness
  rw [← hf.active] at hactive
  -- the liveness comes first, so it is to blame if both passes need too many sweeps
  by_cases hfew : b.allowed limit < f.liveness.sweeps
  · rw [if_pos hfew] at hliveness ⊢
    rw [analyze, findings_of_liveness_error hliveness]
    rfl
  · rw [if_neg hfew] at hliveness ⊢
    by_cases hfew' : b.allowed limit < f.active.sweeps
    · rw [if_pos hfew'] at hactive ⊢
      rw [analyze, findings_of_loans_error hliveness hf.graph hf.ruled hactive]
      rfl
    · rw [if_neg hfew'] at hactive ⊢
      have hfound : b.findings (.under precise false limit) = .ok f :=
        findings_eq_ok.mpr ⟨rules, hliveness, hf.graph, hf.ruled, hactive, hf.values, hf.conflicts⟩
      rw [analyze, hfound]

/-- **A passed deadline** is all that a run finds. -/
theorem analyze_expired (b : Body) (precise : Bool) (limit : Option Nat) :
    b.analyze (.under precise true limit) =
      .ok ⟨b, .unknown (BudgetFault.deadline ("liveness of '" ++ b.name ++ "'") 0).message⟩ := by
  have hliveness : b.liveness (AnalysisOptions.under precise true limit).forLiveness =
      .error (.budget (.deadline ("liveness of '" ++ b.name ++ "'") 0)) := by
    rw [liveness_eq, Problem.solve_of_expired rfl]
  rw [analyze, findings_of_liveness_error hliveness]
  rfl

end Body

/-- **No partial findings.**  A body has findings `f`, which a run without a deadline returns
    whenever it may take the sweeps that each pass needs until nothing changes any more.
    Whatever the deadline and the limit of a run, it returns exactly these, or it returns
    that nothing is known, because the deadline has passed, or it fails, because it may not
    take the sweeps that the liveness or the active loans need. -/
theorem no_partial_findings {d : Draft} {b : Body} (hb : d.check = .ok b) (precise : Bool) :
    ∃ f rules, b.loanRules f.liveness f.graph = .ok rules ∧
      b.livenessProblem.Settles b.noneLive f.liveness.sweeps ∧
      (b.loanProblem rules).Settles b.noLoans f.active.sweeps ∧
      (∀ n, f.liveness.sweeps ≤ n → f.active.sweeps ≤ n →
        b.analyze (.under precise false (some n)) = .ok ⟨b, .complete f⟩) ∧
      ∀ expired limit,
        (b.analyze (.under precise expired limit) = .ok ⟨b, .complete f⟩ ∨
          (∃ reason, b.analyze (.under precise expired limit) = .ok ⟨b, .unknown reason⟩) ∨
          ∃ what, b.analyze (.under precise expired limit) =
              .error (.liveness (.budget (.diverged what (b.allowed limit)))) ∨
            b.analyze (.under precise expired limit) =
              .error (.loans (.budget (.diverged what (b.allowed limit))))) ∧
        ((∃ reason, b.analyze (.under precise expired limit) = .ok ⟨b, .unknown reason⟩) ↔
          expired = true) ∧
        ((∃ fault, b.analyze (.under precise expired limit) = .error fault) ↔
          expired = false ∧
            (b.allowed limit < f.liveness.sweeps ∨ b.allowed limit < f.active.sweeps)) := by
  have h := Draft.wellFormed_of_check hb
  obtain ⟨f, rules, hf⟩ := h.exists_findsAll precise
  refine ⟨f, rules, hf.ruled, hf.livenessSettles, hf.activeSettles, fun n hn hn' => ?_,
    fun expired limit => ?_⟩
  · have hlimit : b.allowed (some n) = n := rfl
    rw [h.analyze_under hf, hlimit, if_neg (Nat.not_lt.mpr hn), if_neg (Nat.not_lt.mpr hn')]
  · -- the deadline is looked at before the limit, so once it has passed the limit is not asked
    cases expired with
    | true => simp [Body.analyze_expired]
    | false =>
      rw [h.analyze_under hf]
      by_cases hfew : b.allowed limit < f.liveness.sweeps
      · simp [hfew]
      · by_cases hfew' : b.allowed limit < f.active.sweeps
        · simp [hfew, hfew']
        · simp [hfew, hfew']

/-- The sample loop is analysed within its points, but not within a single changing sweep,
    and not after the deadline. -/
theorem loop_no_partial_findings :
    ∃ (b : Body) (f : Findings), Sample.body .loop = .ok b ∧ f.conflicts ≠ [] ∧
      (∀ n, f.liveness.sweeps ≤ n → f.active.sweeps ≤ n →
        b.analyze (.under true false (some n)) = .ok ⟨b, .complete f⟩) ∧
      b.analyze (.under true false none) = .ok ⟨b, .complete f⟩ ∧
      (1 < f.liveness.sweeps ∨ 1 < f.active.sweeps) ∧
      ∃ reason, b.analyze (.under true true none) = .ok ⟨b, .unknown reason⟩ := by
  obtain ⟨d, b, a, f, hbody, hb, ha, hf, hkind⟩ := Sample.exists_of_finds .loop
    (.under true false none) (fun b f => decide (f.conflicts ≠ []) &&
      (b.analyze (.under true false (some 1))).toOption.isNone) (by decide +kernel)
  rw [Bool.and_eq_true, decide_eq_true_eq] at hkind
  obtain ⟨hconflicts, hfails⟩ := hkind
  obtain ⟨f', rules, _, _, _, henough, hruns⟩ := no_partial_findings hb true
  have hcomplete : b.analyze (.under true false none) = .ok ⟨b, .complete f'⟩ := by
    rcases (hruns false none).1 with hall | ⟨_, hnone⟩ | ⟨_, hnone | hnone⟩
    · exact hall
    · cases (hruns false none).2.1.mp ⟨_, hnone⟩
    · rw [ha] at hnone
      cases hnone
    · rw [ha] at hnone
      cases hnone
  have hsame : f' = f := by
    rw [ha] at hcomplete
    cases hcomplete
    cases hf
    rfl
  subst hsame
  have hfew : ∃ fault, b.analyze (.under true false (some 1)) = .error fault := by
    cases hrun : b.analyze (.under true false (some 1)) with
    | error fault => exact ⟨fault, rfl⟩
    | ok a => rw [hrun] at hfails; cases hfails
  exact ⟨b, f', hbody, hconflicts, henough, hcomplete, ((hruns false (some 1)).2.2.mp hfew).2,
    (hruns true none).2.1.mpr rfl⟩

end BorrowFlow
