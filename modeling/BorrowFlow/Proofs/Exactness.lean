import BorrowFlow.Proofs.Analysis

/-! # Both passes are exact

    A sweep reads what the same sweep has just written, and a run only ends when nothing
    changes any more.  Still a run from nothing finds neither too little nor too much.

    * **Liveness**: a variable is live exactly where a use or a drop of it lies ahead
      (`live_iff_ahead`).
    * **Active loans**: a loan is active exactly where a walk brings it on which it
      reaches a live region all the way (`active_iff_kept`).  This is so for any liveness
      result of the body, old or new, and for any graph with its regions, also for one
      with edges that the body does not ask for.
-/

namespace BorrowFlow

/-! ## Liveness -/

/-- **What is live is what lies ahead**: at a point are live the variables with a walk to
    a use, or to a drop, on which nothing overwrites them before.  After a point are live
    those that are live at one of its successors. -/
theorem live_iff_ahead {d : Draft} {b : Body} (hb : d.check = .ok b) {options : LivenessOptions}
    {l : Liveness} (hl : b.liveness options = .ok l) (x : String) (p : Point) :
    (x ∈ l.liveIn p ↔ b.Ahead .use x p) ∧ (x ∈ l.dropLiveIn p ↔ b.Ahead .drop x p) ∧
      (x ∈ l.liveOut p ↔ ∃ q ∈ b.successors p, x ∈ l.liveIn q) := by
  have h := Draft.wellFormed_of_check hb
  refine ⟨h.mem_live_iff hl .use, h.mem_live_iff hl .drop, ?_⟩
  rw [Liveness.liveOut, (Body.liveness_ok hl).1]
  simp

/-- In the sample loop the vector is used ahead of the point that begins the loop, the
    reference only after it is set; the dropped aggregate is dropped ahead. -/
theorem loop_live_iff_ahead : ∃ b c : Body, Sample.body .loop = .ok b ∧
    Sample.body (.dropping false) = .ok c ∧
    b.Ahead .use "w" ⟨"bb1", 0⟩ ∧ ¬ b.Ahead .use "t" ⟨"bb1", 0⟩ ∧
    c.Ahead .drop "v" ⟨"bb0", 2⟩ ∧ ¬ c.Ahead .use "v" ⟨"bb0", 2⟩ := by
  have hloop : ((Sample.body .loop).toOption.any fun b => b.liveness.toOption.any fun l =>
      decide ("w" ∈ l.liveIn ⟨"bb1", 0⟩ ∧ "t" ∉ l.liveIn ⟨"bb1", 0⟩)) = true := by
    decide +kernel
  have hdrop : ((Sample.body (.dropping false)).toOption.any fun b => b.liveness.toOption.any fun l =>
      decide ("v" ∈ l.dropLiveIn ⟨"bb0", 2⟩ ∧ "v" ∉ l.liveIn ⟨"bb0", 2⟩)) = true := by
    decide +kernel
  simp only [Option.any_eq_true, toOption_eq_some, decide_eq_true_eq] at hloop hdrop
  obtain ⟨b, hb, l, hl, hw, ht⟩ := hloop
  obtain ⟨c, hc, m, hm, hv, hnot⟩ := hdrop
  obtain ⟨d, hd⟩ := Sample.exists_draft hb
  obtain ⟨e, he⟩ := Sample.exists_draft hc
  refine ⟨b, c, hb, hc, ?_, ?_, ?_, ?_⟩
  · exact (live_iff_ahead hd hl _ _).1.mp hw
  · exact (not_congr (live_iff_ahead hd hl _ _).1).mp ht
  · exact (live_iff_ahead he hm _ _).2.1.mp hv
  · exact (not_congr (live_iff_ahead he hm _ _).1).mp hnot

/-! ## Active loans -/

/-- **A loan is kept** at a point by a region that is live there and that it reaches. -/
def Liveness.Keeps (l : Liveness) (g : SubsetGraph) (loan : Loan) (p : Point) : Prop :=
  ∃ r ∈ l.regionsLive p, ∃ loans, g.loansReaching r = .ok loans ∧ loan ∈ loans

/-- The graph has the regions of the body. -/
def SubsetGraph.Spans (g : SubsetGraph) (b : Body) : Prop :=
  ∀ r ∈ b.regions, g.regions.get? r.name = some r

theorem SubsetGraph.Spans.loansReaching {g : SubsetGraph} {b : Body} (h : g.Spans b) {r : Region}
    (hr : r ∈ b.regions) : g.loansReaching r = .ok (g.loansInto r) := if_pos (h r hr)

namespace Body

variable {b : Body} {l : Liveness} {g : SubsetGraph} {rules : Arena LoanRule}

/-- Only regions of the body are live, whatever the table says. -/
theorem WellFormed.mem_regions_of_regionsLive (h : b.WellFormed) (hl : l.body = b) {p : Point}
    {r : Region} (hr : r ∈ l.regionsLive p) : r ∈ b.regions := by
  rw [Liveness.regionsLive, hl] at hr
  simp only [liveRegions, universalRegions, SortedSet.mem_ofList, List.mem_append, List.mem_filter,
    List.mem_flatMap, List.mem_filterMap] at hr
  rcases hr with (⟨hr, _⟩ | ⟨v, ⟨x, _, hv⟩, hr⟩) | ⟨v, ⟨x, _, hv⟩, hr⟩
  · exact hr
  · exact h.mem_regions_of_wanted l.preciseDrops .use hv hr
  · exact h.mem_regions_of_wanted l.preciseDrops .drop hv hr

/-- **What keeps a loan** in a run of the pass by itself. -/
theorem WellFormed.ruled_keeps (h : b.WellFormed) (hl : l.body = b) (hg : g.Spans b)
    (hrules : b.loanRules l g = .ok rules) :
    b.Ruled l g rules fun issue => l.Keeps g issue.loan where
  wellFormed := h
  loanRules := hrules
  mem_relevant_iff := by
    intro issue p _ hp
    rw [read_loanRules h hrules hp, mem_relevant]
    constructor
    · rintro ⟨r, hr, hlive, hloan⟩
      exact ⟨r, hlive, _, hg.loansReaching hr, hloan⟩
    · rintro ⟨r, hlive, loans, hloans, hloan⟩
      have hr := h.mem_regions_of_regionsLive hl hlive
      rw [hg.loansReaching hr] at hloans
      cases hloans
      exact ⟨r, hr, hlive, hloan⟩

namespace Ruled

variable {kept : LoanIssue → Point → Prop} {options : LoanOptions} {a : ActiveLoans}
  {issue : LoanIssue} {p : Point}

/-- **A loan leaves** the point that issues it, and every other point where it is active
    that does not overwrite what it goes through. -/
theorem mem_out_iff_active (h : b.Ruled l g rules kept)
    (ha : b.activeLoans rules options = .ok a) (hissue : b.Issues issue) :
    issue.loan ∈ a.out p ↔
      p = issue.loan.point ∨ issue.loan ∈ a.active p ∧ ¬ b.Overwrites issue.loan p := by
  by_cases hp : p ∈ b.points
  · rw [mem_out_of_activeLoans h.wellFormed ha hp, h.mem_killed_iff hissue hp,
      h.mem_issued_iff hissue hp]
    by_cases hhere : p = issue.loan.point
    · simp [hhere]
    · simp [hhere]
  · have hread : a.table.read {} p = {} :=
      (covers_of_activeLoans h.wellFormed ha).read_of_not_mem hp
    have hother : p ≠ issue.loan.point := by
      rintro rfl
      exact hp (h.wellFormed.mem_points_of_issues hissue)
    simp [ActiveLoans.out, ActiveLoans.active, hread, hother]

end Ruled

end Body

/-- **A loan is active exactly where a walk brings it** from its issue on which it reaches a
    live region at every point, and no point in between overwrites a place that it goes
    through.  It leaves the point that issues it, and every other point where it is active
    that does not overwrite such a place. -/
theorem active_iff_kept {d : Draft} {b : Body} (hb : d.check = .ok b) {l : Liveness}
    (hl : l.body = b) {g : SubsetGraph} (hg : g.Spans b) {rules : Arena LoanRule}
    (hrules : b.loanRules l g = .ok rules) {options : LoanOptions} {a : ActiveLoans}
    (ha : b.activeLoans rules options = .ok a) {issue : LoanIssue} (hissue : b.Issues issue)
    (p : Point) :
    (issue.loan ∈ a.active p ↔ b.HoldsWhile (l.Keeps g issue.loan) issue.loan p) ∧
      (issue.loan ∈ a.out p ↔
        p = issue.loan.point ∨ issue.loan ∈ a.active p ∧ ¬ b.Overwrites issue.loan p) := by
  have hruled := (Draft.wellFormed_of_check hb).ruled_keeps hl hg hrules
  refine ⟨?_, hruled.mem_out_iff_active ha hissue⟩
  rw [hruled.mem_active_iff ha]
  constructor
  · rintro ⟨other, _, hloan, hholds⟩
    rw [hloan] at hholds
    exact hholds
  · exact fun hholds => ⟨issue, hissue, rfl, hholds⟩

/-- The loan of `y` into the region of `q`, in the sample with a branch. -/
def secondLoan : LoanIssue := ⟨⟨"L1", ⟨"bb0", 1⟩, .ofLocal "y", .shared⟩, [⟨"'q", false⟩]⟩

/-- In the sample with a branch `p` is used where the arms meet, and `q` no more.  The loan
    in `q` is active there if the graph has an edge from the region of `q` to that of `p`,
    and not if it is the graph of the body. -/
theorem branching_active_iff_kept : ∃ (b : Body) (l : Liveness) (g g' : SubsetGraph) (new : Bool),
    Sample.body (.branching true) = .ok b ∧ b.liveness = .ok l ∧ b.subsetGraph = .ok g ∧
    g.addEdge (.region "'q") (.region "'p") none = .ok (g', new) ∧ g.Spans b ∧ g'.Spans b ∧
    b.Issues secondLoan ∧
    ¬ b.HoldsWhile (l.Keeps g secondLoan.loan) secondLoan.loan ⟨"bb1", 0⟩ ∧
    b.HoldsWhile (l.Keeps g' secondLoan.loan) secondLoan.loan ⟨"bb1", 0⟩ := by
  have hrun : ((Sample.body (.branching true)).toOption.any fun b => b.liveness.toOption.any fun l =>
      b.subsetGraph.toOption.any fun g =>
      (g.addEdge (.region "'q") (.region "'p") none).toOption.any fun widened =>
      (b.loanRules l g).toOption.any fun rules => (b.activeLoans rules).toOption.any fun a =>
      (b.loanRules l widened.1).toOption.any fun rules' =>
      (b.activeLoans rules').toOption.any fun a' =>
        decide ((∀ r ∈ b.regions, g.regions.get? r.name = some r) ∧
          (∀ r ∈ b.regions, widened.1.regions.get? r.name = some r) ∧
          (b.facts ⟨"bb0", 1⟩).loan = some secondLoan ∧
          secondLoan.loan ∉ a.active ⟨"bb1", 0⟩ ∧ secondLoan.loan ∈ a'.active ⟨"bb1", 0⟩)) = true := by
    decide +kernel
  simp only [Option.any_eq_true, toOption_eq_some, decide_eq_true_eq] at hrun
  obtain ⟨b, hb, l, hl, g, hg, ⟨g', new⟩, hg', rules, hrules, a, ha, rules', hrules', a', ha',
    hspans, hspans', hloan, hnot, hactive⟩ := hrun
  obtain ⟨d, hd⟩ := Sample.exists_draft hb
  have hbody := (Body.liveness_ok hl).1
  have hissue : b.Issues secondLoan := hloan
  refine ⟨b, l, g, g', new, hb, hl, hg, hg', hspans, hspans', hissue, ?_, ?_⟩
  · exact (not_congr (active_iff_kept hd hbody hspans hrules ha hissue _).1).mp hnot
  · exact (active_iff_kept hd hbody hspans' hrules' ha' hissue _).1.mp hactive

end BorrowFlow
