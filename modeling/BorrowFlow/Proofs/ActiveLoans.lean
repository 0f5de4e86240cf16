import BorrowFlow.Proofs.Liveness
import BorrowFlow.Proofs.SubsetGraph

/-! # Active loans are loans in force

    What a point does to the loans is read off the body and off what keeps a loan
    (`Ruled`).  So a loan is active at a point if and only if a walk brings it there on
    which it is kept (`Ruled.mem_active_iff`), and it leaves a point if and only if such a
    walk takes it through (`Ruled.mem_out_iff`).

    In an analysis a loan is kept where it matters (`Prepared.mem_relevant_iff`), so the
    active loans of a point are those in force there (`Prepared.mem_active_iff`).

    A run that may take one changing sweep per point ends well on every body of two
    points or more (`exists_activeLoans`).  On a single point that issues a loan
    and jumps to itself it does not: two sweeps change something there.
-/

namespace BorrowFlow

namespace Body

open Problem (Fact)

/-! ## What a point does to the loans -/

/-- The rules at the points of a body. -/
theorem read_loanRules {b : Body} (hb : b.WellFormed) {l : Liveness} {g : SubsetGraph}
    {rules : Arena LoanRule} (hrules : b.loanRules l g = .ok rules) {p : Point}
    (hp : p ∈ b.points) :
    rules.read {} p = b.loanRule l b.loans (b.regionLoans g) p := by
  rw [loanRules] at hrules
  split at hrules
  · cases hrules
    exact Arena.read_tabulate hb.nodup_points _ hp _
  · cases hrules

/-- A loan is relevant if it is one of those of a live region. -/
theorem mem_relevant {b : Body} {l : Liveness} {g : SubsetGraph} {loans : List Loan} {p : Point}
    {loan : Loan} :
    loan ∈ (b.loanRule l loans (b.regionLoans g) p).relevant ↔
      ∃ r ∈ b.regions, r ∈ l.regionsLive p ∧ loan ∈ g.loansInto r := by
  simp [loanRule, regionLoans, and_assoc]

/-- The rules of a well-formed body under which a loan is kept where `kept` says so. -/
structure Ruled (b : Body) (l : Liveness) (g : SubsetGraph) (rules : Arena LoanRule)
    (kept : LoanIssue → Point → Prop) : Prop where
  wellFormed : b.WellFormed
  loanRules : b.loanRules l g = .ok rules
  mem_relevant_iff : ∀ {issue : LoanIssue} {p : Point}, b.Issues issue → p ∈ b.points →
    (issue.loan ∈ (rules.read {} p).relevant ↔ kept issue p)

/-- The passes that come before the active loans of a well-formed body. -/
structure Prepared (b : Body) (options : LivenessOptions) (l : Liveness) (g : SubsetGraph)
    (rules : Arena LoanRule) : Prop where
  wellFormed : b.WellFormed
  liveness : b.liveness options = .ok l
  graph : b.subsetGraph = .ok g
  rules : b.loanRules l g = .ok rules

namespace WellFormed

variable {b : Body} {issue : LoanIssue} {p : Point}

/-- At its own points the loan of an issue is issued, and nowhere else. -/
theorem issued_iff (h : b.WellFormed) (hissue : b.Issues issue) (hp : p ∈ b.points) :
    (b.facts p).loan.map LoanIssue.loan = some issue.loan ↔ p = issue.loan.point := by
  constructor
  · intro hloan
    obtain ⟨other, hother, heq⟩ := Option.map_eq_some_iff.mp hloan
    rw [← heq]
    exact ((h.inOrder_facts hp).loan other hother).1.symm
  · rintro rfl
    rw [hissue, Option.map_some]

/-- A flow from a region of the body stays in the body. -/
theorem region_mem_of_flowsInto (h : b.WellFormed) {r s : Region} (hr : r ∈ b.regions)
    (hflow : b.FlowsInto r s) : s ∈ b.regions := by
  induction hflow with
  | refl => exact hr
  | tail _ hstep _ =>
    obtain ⟨o, ho, _, rfl⟩ := hstep
    exact (h.regions_of_mem_obligations ho).2

end WellFormed

namespace Prepared

variable {b : Body} {options : LivenessOptions} {l : Liveness} {g : SubsetGraph}
  {rules : Arena LoanRule} {issue : LoanIssue} {p : Point}

/-- **Relevant loans** are those that matter. -/
theorem mem_relevant_iff (h : b.Prepared options l g rules) (hissue : b.Issues issue)
    (hp : p ∈ b.points) :
    issue.loan ∈ (rules.read {} p).relevant ↔ b.Matters options.preciseDrops issue p := by
  rw [read_loanRules h.wellFormed h.rules hp, mem_relevant]
  constructor
  · rintro ⟨r, hr, hlive, hloan⟩
    obtain ⟨other, hother, heq, s, hs, hflow⟩ :=
      (h.wellFormed.mem_loansInto_iff h.graph hr).mp hloan
    obtain rfl : other = issue :=
      h.wellFormed.issue_unique hother hissue (congrArg Loan.name heq)
    have hneeds := ((h.wellFormed.mem_regionsLive_iff h.liveness).mp hlive).2
    exact ⟨s, hs, r, hflow, hneeds⟩
  · rintro ⟨s, hs, r, hflow, hneeds⟩
    have hr : r ∈ b.regions := h.wellFormed.region_mem_of_flowsInto
      (h.wellFormed.region_mem_of_issues hissue hs) hflow
    refine ⟨r, hr, ?_, ?_⟩
    · exact (h.wellFormed.mem_regionsLive_iff h.liveness).mpr ⟨hr, hneeds⟩
    · exact (h.wellFormed.mem_loansInto_iff h.graph hr).mpr ⟨issue, hissue, rfl, s, hs, hflow⟩

theorem ruled (h : b.Prepared options l g rules) :
    b.Ruled l g rules (b.Matters options.preciseDrops) :=
  ⟨h.wellFormed, h.rules, h.mem_relevant_iff⟩

end Prepared

namespace Ruled

variable {b : Body} {l : Liveness} {g : SubsetGraph} {rules : Arena LoanRule}
  {kept : LoanIssue → Point → Prop} {issue : LoanIssue} {p : Point}

/-- **Killed loans** go through the assigned place and are issued elsewhere. -/
theorem mem_killed_iff (h : b.Ruled l g rules kept) (hissue : b.Issues issue)
    (hp : p ∈ b.points) :
    issue.loan ∈ (rules.read {} p).killed ↔
      p ≠ issue.loan.point ∧ b.Overwrites issue.loan p := by
  rw [read_loanRules h.wellFormed h.loanRules hp]
  have hloan : issue.loan ∈ b.loans := h.wellFormed.mem_loans_iff.mpr ⟨issue, hissue, rfl⟩
  have hhere := h.wellFormed.issued_iff hissue hp
  show issue.loan ∈ killedBy b.loans (b.facts p) ↔ _
  rw [killedBy, Overwrites]
  cases hassigned : (b.facts p).assigned with
  | none => simp
  | some place =>
    simp only [SortedSet.mem_ofList, List.mem_filter, hloan, true_and, Bool.and_eq_true,
      decide_eq_true_eq, ne_eq, hhere, Option.some.injEq, exists_eq_left']

/-- **The issued loan** is the one of the point. -/
theorem mem_issued_iff (h : b.Ruled l g rules kept) (hissue : b.Issues issue)
    (hp : p ∈ b.points) :
    issue.loan ∈ (rules.read {} p).issued ↔ p = issue.loan.point := by
  rw [read_loanRules h.wellFormed h.loanRules hp, ← h.wellFormed.issued_iff hissue hp]
  simp [loanRule]

/-- Only the body's own loans are issued. -/
theorem exists_issue (h : b.Ruled l g rules kept) {loan : Loan} (hp : p ∈ b.points)
    (hloan : loan ∈ (rules.read {} p).issued) : ∃ issue, b.Issues issue ∧ issue.loan = loan := by
  rw [read_loanRules h.wellFormed h.loanRules hp] at hloan
  have hlocal : (b.facts p).loan.map LoanIssue.loan = some loan := by
    simpa [loanRule] using hloan
  obtain ⟨issue, hissue, rfl⟩ := Option.map_eq_some_iff.mp hlocal
  exact ⟨issue, (h.wellFormed.issues_of_loan hissue).2, rfl⟩

end Ruled

/-! ## The active-loan problem -/

/-- The fact that a loan leaves a point. -/
def outFact (b : Body) (rules : Arena LoanRule) (loan : Loan) : (b.loanProblem rules).Fact where
  holds := fun s => loan ∈ s.out
  arises := fun rule => loan ∈ rule.issued
  passes := fun rule => loan ∈ rule.relevant ∧ ¬ loan ∈ rule.killed
  not_bottom := SortedSet.not_mem_empty
  holds_transfer := by
    intro rule before
    show loan ∈ (rule.apply (.unions (before.map LoanSets.out))).out ↔ _
    simp only [LoanRule.apply, SortedSet.mem_union, SortedSet.mem_diff, SortedSet.mem_inter,
      SortedSet.mem_unions, List.mem_map]
    constructor
    · rintro (⟨⟨⟨_, ⟨s, hs, rfl⟩, hout⟩, hrelevant⟩, hkilled⟩ | hissued)
      · exact Or.inr ⟨⟨hrelevant, hkilled⟩, s, hs, hout⟩
      · exact Or.inl hissued
    · rintro (hissued | ⟨⟨hrelevant, hkilled⟩, s, hs, hout⟩)
      · exact Or.inr hissued
      · exact Or.inl ⟨⟨⟨_, ⟨s, hs, rfl⟩, hout⟩, hrelevant⟩, hkilled⟩

theorem mem_loanProblem_visits {b : Body} {rules : Arena LoanRule} {v : Visit LoanRule} :
    v ∈ (b.loanProblem rules).visits ↔
      ∃ p ∈ b.reversePostorder, v = ⟨p, b.predecessors p, rules.read {} p⟩ := by
  simp [loanProblem, predecessors, eq_comm]

theorem WellFormed.loanVisit_mem {b : Body} (h : b.WellFormed) (rules : Arena LoanRule) {p : Point}
    (hp : p ∈ b.points) :
    (⟨p, b.predecessors p, rules.read {} p⟩ : Visit LoanRule) ∈ (b.loanProblem rules).visits :=
  mem_loanProblem_visits.mpr ⟨p, h.mem_reversePostorder.mpr hp, rfl⟩

theorem order_loanProblem (b : Body) (rules : Arena LoanRule) :
    (b.loanProblem rules).order = b.reversePostorder := by
  simp [Problem.order, loanProblem, Function.comp_def]

theorem WellFormed.loanProblem_visitsEach {b : Body} (h : b.WellFormed) (rules : Arena LoanRule) :
    (b.loanProblem rules).VisitsEach b.points where
  distinct := h.nodup_points
  once := by
    rw [order_loanProblem]
    exact h.reversePostorder_perm

namespace Ruled

variable {b : Body} {l : Liveness} {g : SubsetGraph} {rules : Arena LoanRule}
  {kept : LoanIssue → Point → Prop} {issue : LoanIssue} {p : Point}

/-- **A trail of a loan is a walk** from its issue. -/
theorem trail_outFact_iff (h : b.Ruled l g rules kept) (hissue : b.Issues issue) {q : Point} :
    (∃ rest, (b.outFact rules issue.loan).Trail q rest) ↔
      b.LeavesWhile (kept issue) issue.loan q := by
  constructor
  · rintro ⟨rest, htrail⟩
    induction htrail with
    | here hv harises =>
      obtain ⟨q, hq, rfl⟩ := mem_loanProblem_visits.mp hv
      have hpoint := (h.mem_issued_iff hissue (h.wellFormed.mem_reversePostorder.mp hq)).mp harises
      exact ⟨[], List.isChain_singleton _, by simp [hpoint], by simp⟩
    | step hv hpasses hnext _ ih =>
      obtain ⟨q, hq, rfl⟩ := mem_loanProblem_visits.mp hv
      have hmem := h.wellFormed.mem_reversePostorder.mp hq
      obtain ⟨passed, hwalk, hlast, hleft⟩ := ih
      have hkept := (h.mem_relevant_iff hissue hmem).mp hpasses.1
      have hnot := (not_congr (h.mem_killed_iff hissue hmem)).mp hpasses.2
      have hstep := h.wellFormed.mem_predecessors.mp hnext
      refine ⟨passed ++ [q], ?_, by rw [← List.cons_append, List.getLast?_concat], ?_⟩
      · rw [← List.cons_append, walk_concat_iff]
        refine ⟨hwalk, fun q' hq' => ?_⟩
        exact Option.some.inj (hlast.symm.trans hq') ▸ hstep
      · intro x hx
        rcases List.mem_append.mp hx with hx | hx
        · exact hleft x hx
        · rw [List.mem_singleton] at hx
          subst hx
          exact ⟨hkept, fun hne hover => hnot ⟨hne, hover⟩⟩
  · rintro ⟨passed, hwalk, hlast, hleft⟩
    -- the walk is followed back from its end
    induction passed using List.reverseRecOn generalizing q with
    | nil =>
      obtain rfl : issue.loan.point = q := Option.some.inj hlast
      have hmem := h.wellFormed.mem_points_of_issues hissue
      exact ⟨[], .here (h.wellFormed.loanVisit_mem rules hmem) ((h.mem_issued_iff hissue hmem).mpr rfl)⟩
    | append_singleton passed x ih =>
      rw [← List.cons_append, List.getLast?_concat] at hlast
      obtain rfl : x = q := Option.some.inj hlast
      rw [← List.cons_append, walk_concat_iff] at hwalk
      obtain ⟨hwalk, hstep⟩ := hwalk
      obtain ⟨before, hbefore⟩ : ∃ y, (issue.loan.point :: passed).getLast? = some y :=
        ⟨_, List.getLast?_eq_some_getLast (List.cons_ne_nil _ _)⟩
      obtain ⟨rest, htrail⟩ := ih hwalk hbefore fun y hy => hleft y (List.mem_append_left _ hy)
      have hnext := hstep before hbefore
      have hmem := h.wellFormed.mem_points_of_mem_successors hnext
      obtain ⟨hkept, hnot⟩ := hleft x (by simp)
      refine ⟨before :: rest, .step (h.wellFormed.loanVisit_mem rules hmem) ⟨?_, ?_⟩
        (h.wellFormed.mem_predecessors.mpr hnext) htrail⟩
      · exact (h.mem_relevant_iff hissue hmem).mpr hkept
      · intro hkilled
        obtain ⟨hne, hover⟩ := (h.mem_killed_iff hissue hmem).mp hkilled
        exact hnot hne hover

/-- A trail is one of a loan of the body. -/
theorem exists_issue_of_trail (h : b.Ruled l g rules kept) {loan : Loan} {q : Point}
    {rest : List Point} (htrail : (b.outFact rules loan).Trail q rest) :
    ∃ issue, b.Issues issue ∧ issue.loan = loan := by
  induction htrail with
  | here hv harises =>
    obtain ⟨q, hq, rfl⟩ := mem_loanProblem_visits.mp hv
    exact h.exists_issue (h.wellFormed.mem_reversePostorder.mp hq) harises
  | step _ _ _ _ ih => exact ih

end Ruled

/-! ## Results -/

/-- A result is a stable table, some sweeps after the start. -/
theorem activeLoans_ok {b : Body} {rules : Arena LoanRule} {options : LoanOptions}
    {seed : Option ActiveLoans} {a : ActiveLoans} (h : b.activeLoans rules options seed = .ok a) :
    a.body = b ∧ ∃ start, b.loanStart seed = .ok start ∧
      (b.loanProblem rules).sweep a.table = a.table ∧
      ∃ k, a.table = (b.loanProblem rules).sweep^[k] start := by
  obtain ⟨start, hstart, h⟩ := bind_eq_ok.mp h
  dsimp only at h
  split at h
  · cases h
  · next solution hsolve =>
    cases h
    exact ⟨rfl, start, hstart, Problem.solve_ok hsolve⟩

theorem covers_loanStart {b : Body} (h : b.WellFormed) {seed : Option ActiveLoans}
    {start : Arena LoanSets} (hstart : b.loanStart seed = .ok start) : start.Covers b.points := by
  cases seed with
  | none =>
    cases hstart
    exact Arena.covers_ofPoints h.nodup_points _
  | some seed =>
    rw [loanStart] at hstart
    split at hstart
    · cases hstart
    · cases hstart
      exact Arena.covers_tabulate h.nodup_points _

section Result

variable {b : Body} {rules : Arena LoanRule} {options : LoanOptions} {seed : Option ActiveLoans}
  {a : ActiveLoans} {p : Point} {loan : Loan}

theorem covers_of_activeLoans (h : b.WellFormed) (ha : b.activeLoans rules options seed = .ok a) :
    a.table.Covers b.points := by
  obtain ⟨_, start, hstart, _, k, hk⟩ := activeLoans_ok ha
  exact hk ▸ Problem.covers_iterate (covers_loanStart h hstart) k

/-- **In every result**, however it was reached, the loans around a point follow from
    those that leave the points before. -/
theorem read_of_activeLoans (h : b.WellFormed) (ha : b.activeLoans rules options seed = .ok a)
    (hp : p ∈ b.points) :
    a.table.read {} p = (rules.read {} p).apply (.unions ((b.predecessors p).map a.out)) := by
  obtain ⟨_, _, _, hstable, _⟩ := activeLoans_ok ha
  have hlook : a.table.read {} p = LoanRule.apply (rules.read {} p) (.unions
      (((b.predecessors p).map ((b.loanProblem rules).look a.table)).map LoanSets.out)) :=
    Problem.look_of_stable (h.loanProblem_visitsEach rules) (covers_of_activeLoans h ha) hstable
      (h.loanVisit_mem rules hp)
  rw [hlook, List.map_map]
  rfl

/-- The loans in force at a point are the relevant ones that leave a point before. -/
theorem mem_active_of_activeLoans (h : b.WellFormed)
    (ha : b.activeLoans rules options seed = .ok a) :
    loan ∈ a.active p ↔ p ∈ b.points ∧ loan ∈ (rules.read {} p).relevant ∧
      ∃ q, p ∈ b.successors q ∧ loan ∈ a.out q := by
  by_cases hp : p ∈ b.points
  · rw [ActiveLoans.active, read_of_activeLoans h ha hp]
    simp only [LoanRule.apply, SortedSet.mem_inter, SortedSet.mem_unions, List.mem_map, hp, true_and]
    constructor
    · rintro ⟨⟨_, ⟨q, hq, rfl⟩, hout⟩, hrelevant⟩
      exact ⟨hrelevant, q, h.mem_predecessors.mp hq, hout⟩
    · rintro ⟨hrelevant, q, hq, hout⟩
      exact ⟨⟨_, ⟨q, h.mem_predecessors.mpr hq, rfl⟩, hout⟩, hrelevant⟩
  · have hempty : a.active p = ∅ := by
      rw [ActiveLoans.active, (covers_of_activeLoans h ha).read_of_not_mem hp]
    simp [hempty, hp]

/-- The loans that leave a point are those in force there that are not killed, and the one
    issued there. -/
theorem mem_out_of_activeLoans (h : b.WellFormed)
    (ha : b.activeLoans rules options seed = .ok a) (hp : p ∈ b.points) :
    loan ∈ a.out p ↔ (loan ∈ a.active p ∧ loan ∉ (rules.read {} p).killed) ∨
      loan ∈ (rules.read {} p).issued := by
  rw [ActiveLoans.out, ActiveLoans.active, read_of_activeLoans h ha hp]
  simp only [LoanRule.apply, SortedSet.mem_union, SortedSet.mem_diff]

end Result

namespace Ruled

variable {b : Body} {l : Liveness} {g : SubsetGraph} {rules : Arena LoanRule}
  {kept : LoanIssue → Point → Prop} {loanOptions : LoanOptions} {a : ActiveLoans} {p : Point} {loan : Loan}

/-- **The loans that leave a point** are those that a walk takes through it. -/
theorem mem_out_iff (h : b.Ruled l g rules kept)
    (ha : b.activeLoans rules loanOptions = .ok a) :
    loan ∈ a.out p ↔
      ∃ issue, b.Issues issue ∧ issue.loan = loan ∧ b.LeavesWhile (kept issue) issue.loan p := by
  obtain ⟨_, start, hstart, hstable, k, hk⟩ := activeLoans_ok ha
  have hcovers := covers_loanStart h.wellFormed hstart
  obtain rfl : Arena.ofPoints b.points {} = start := Except.ok.inj hstart
  have htrail : loan ∈ a.out p ↔ ∃ rest, (b.outFact rules loan).Trail p rest := by
    rw [ActiveLoans.out, hk]
    rw [hk] at hstable
    exact Fact.holds_iff_trail (F := b.outFact rules loan)
      (h.wellFormed.loanProblem_visitsEach rules) hcovers
      (Fact.absent_ofPoints h.wellFormed.nodup_points) hstable
  rw [htrail]
  constructor
  · rintro ⟨rest, htrail⟩
    obtain ⟨issue, hissue, rfl⟩ := h.exists_issue_of_trail htrail
    exact ⟨issue, hissue, rfl, (h.trail_outFact_iff hissue).mp ⟨rest, htrail⟩⟩
  · rintro ⟨issue, hissue, rfl, hleaves⟩
    exact (h.trail_outFact_iff hissue).mpr hleaves

/-- **The active loans of a point** are those that a walk brings to it. -/
theorem mem_active_iff (h : b.Ruled l g rules kept)
    (ha : b.activeLoans rules loanOptions = .ok a) :
    loan ∈ a.active p ↔
      ∃ issue, b.Issues issue ∧ issue.loan = loan ∧ b.HoldsWhile (kept issue) issue.loan p := by
  rw [mem_active_of_activeLoans h.wellFormed ha]
  simp only [h.mem_out_iff ha, holdsWhile_iff_leavesWhile]
  constructor
  · rintro ⟨hp, hrelevant, q, hq, issue, hissue, rfl, hleaves⟩
    exact ⟨issue, hissue, rfl, (h.mem_relevant_iff hissue hp).mp hrelevant, q, hq, hleaves⟩
  · rintro ⟨issue, hissue, rfl, hkept, q, hq, hleaves⟩
    have hp := h.wellFormed.mem_points_of_mem_successors hq
    exact ⟨hp, (h.mem_relevant_iff hissue hp).mpr hkept, q, hq, issue, hissue, rfl, hleaves⟩

end Ruled

namespace Prepared

variable {b : Body} {options : LivenessOptions} {l : Liveness} {g : SubsetGraph}
  {rules : Arena LoanRule} {loanOptions : LoanOptions} {a : ActiveLoans} {p : Point} {loan : Loan}

/-- **The loans that leave a point.** -/
theorem mem_out_iff (h : b.Prepared options l g rules)
    (ha : b.activeLoans rules loanOptions = .ok a) :
    loan ∈ a.out p ↔
      ∃ issue, b.Issues issue ∧ issue.loan = loan ∧ b.Leaves options.preciseDrops issue p :=
  h.ruled.mem_out_iff ha

/-- **The active loans of a point are those in force.** -/
theorem mem_active_iff (h : b.Prepared options l g rules)
    (ha : b.activeLoans rules loanOptions = .ok a) :
    loan ∈ a.active p ↔
      ∃ issue, b.Issues issue ∧ issue.loan = loan ∧ b.Holds options.preciseDrops issue p :=
  h.ruled.mem_active_iff ha

end Prepared

/-! ## Runs that end -/

section Run

variable {b : Body} {rules : Arena LoanRule} {start : Arena LoanSets} {loan : Loan} {p : Point}

/-- The loans in force after a sweep, from what the visit finds. -/
theorem mem_active_iterate (h : b.WellFormed) (hstart : start.Covers b.points)
    (hp : p ∈ b.points) (k : Nat) :
    loan ∈ ((b.loanProblem rules).look ((b.loanProblem rules).sweep^[k + 1] start) p).active ↔
      loan ∈ (rules.read {} p).relevant ∧ ∃ q ∈ b.predecessors p,
        (b.outFact rules loan).holds (Fact.found (b.loanProblem rules) start k p q) := by
  have hlook := Problem.look_sweep (h.loanProblem_visitsEach rules)
    (Problem.covers_iterate (P := b.loanProblem rules) hstart k) (h.loanVisit_mem rules hp)
  rw [← Function.iterate_succ_apply' (b.loanProblem rules).sweep] at hlook
  have hactive := congrArg LoanSets.active hlook
  simp only at hactive
  rw [hactive]
  show loan ∈ (LoanRule.apply _ _).active ↔ _
  simp only [LoanRule.apply, SortedSet.mem_inter, SortedSet.mem_unions, List.mem_map]
  constructor
  · rintro ⟨⟨_, ⟨_, ⟨q, hq, rfl⟩, rfl⟩, hout⟩, hrelevant⟩
    exact ⟨hrelevant, q, hq, hout⟩
  · rintro ⟨hrelevant, q, hq, hout⟩
    exact ⟨⟨_, ⟨_, ⟨q, hq, rfl⟩, rfl⟩, hout⟩, hrelevant⟩

/-- **The loans settle** in one sweep per point, on two points or more.  What
    leaves a point is a fact; what is in force there is found in time. -/
theorem stable_loans (h : b.WellFormed) (rules : Arena LoanRule) (hstart : start.Covers b.points)
    (hnone : ∀ loan, (b.outFact rules loan).Absent start) (hroom : 2 ≤ b.points.length ∨
      ∀ loan q rest, ¬ (b.outFact rules loan).Trail q rest) :
    (b.loanProblem rules).sweep ((b.loanProblem rules).sweep^[b.points.length] start) =
      (b.loanProblem rules).sweep^[b.points.length] start := by
  have hvisits := h.loanProblem_visitsEach rules
  obtain ⟨n, hn⟩ : ∃ n, b.points.length = n + 1 :=
    Nat.exists_eq_succ_of_ne_zero (Nat.ne_of_gt h.points_length_pos)
  -- the loans in force are read off the neighbours, so they lag behind those that leave
  have hactive : ∀ p ∈ b.points, ∀ loan : Loan,
      loan ∈ ((b.loanProblem rules).look
        ((b.loanProblem rules).sweep^[b.points.length + 1] start) p).active ↔
      loan ∈ ((b.loanProblem rules).look
        ((b.loanProblem rules).sweep^[b.points.length] start) p).active := by
    intro p hp loan
    have hroom' : 0 < n ∨ ∀ q rest, ¬ (b.outFact rules loan).Trail q rest :=
      hroom.imp (fun htwo => by omega) fun hempty => hempty loan
    rw [hn, mem_active_iterate h hstart hp, mem_active_iterate h hstart hp]
    refine and_congr_right fun _ => ?_
    exact Fact.found_settled hvisits hstart (hnone loan) hn hroom' (h.loanVisit_mem rules hp)
  have hsets : ∀ s t : LoanSets, s.active = t.active → s.out = t.out → s = t := by
    rintro ⟨_, _⟩ ⟨_, _⟩ rfl rfl
    rfl
  have hlook : ∀ p ∈ b.points,
      (b.loanProblem rules).look ((b.loanProblem rules).sweep^[b.points.length + 1] start) p =
        (b.loanProblem rules).look ((b.loanProblem rules).sweep^[b.points.length] start) p := by
    intro p hp
    refine hsets _ _ (SortedSet.ext (hactive p hp)) (SortedSet.ext fun loan => ?_)
    exact Fact.holds_settled hvisits hstart (hnone loan) p
  rw [← Function.iterate_succ_apply' (b.loanProblem rules).sweep]
  exact (Problem.covers_iterate hstart _).ext (Problem.covers_iterate hstart _) hlook

end Run

/-- **The active loans are always found** within one changing sweep per point, on a
    body of two points or more and on one without loans. -/
theorem Prepared.exists_activeLoans {b : Body} {options : LivenessOptions} {l : Liveness}
    {g : SubsetGraph} {rules : Arena LoanRule} {loanOptions : LoanOptions}
    (h : b.Prepared options l g rules) (hexpired : loanOptions.expired = false)
    (hsweeps : loanOptions.maxSweeps = none)
    (hroom : 2 ≤ b.points.length ∨ ∀ issue, ¬ b.Issues issue) :
    ∃ a, b.activeLoans rules loanOptions = .ok a := by
  have hcovers : (Arena.ofPoints b.points ({} : LoanSets)).Covers b.points :=
    Arena.covers_ofPoints h.wellFormed.nodup_points _
  have hstable := stable_loans h.wellFormed rules hcovers
    (fun loan => Fact.absent_ofPoints h.wellFormed.nodup_points) (by
      refine hroom.imp_right fun hnone loan q rest htrail => ?_
      obtain ⟨issue, hissue, _⟩ := h.ruled.exists_issue_of_trail htrail
      exact hnone issue hissue)
  have hends : ∃ s, (b.loanProblem rules).solve {
      what := "active loans of '" ++ b.name ++ "'"
      limit := loanOptions.maxSweeps.getD b.points.length
      expired := loanOptions.expired } (.ofPoints b.points {}) = .ok s :=
    Problem.exists_solve_ok hexpired rfl (by simp [hsweeps]) hstable
  obtain ⟨solution, hsolve⟩ := hends
  refine ⟨⟨b, solution.table, solution.sweeps, solution.trace⟩, ?_⟩
  simp only [activeLoans, loanStart, bind, Except.bind, hsolve]
  rfl

end Body

end BorrowFlow
